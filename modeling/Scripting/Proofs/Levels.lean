/-
How deep an accepted tree is.

The limit on nesting is meant to bound the levels of a tree: how many operators, calls, groups,
assignments, blocks, branches, loops and functions lie one inside the other. What it bounds is the
room that the tree takes. The two differ at the left operands of operators and at callees. They
lie inside of the operator or the call, but when that is counted they have been read,
and the count does not know about them any more.

So a way down an accepted tree is within the limit as long as it goes into no left operand and no
callee, and the others are within the limit exactly if the tree is. They can be much
longer: with room for `n` levels there may be `n * (n + 2)`, and no more.
-/
import Mathlib.Tactic.Ring
import Scripting.Proofs.RoundTrip

set_option autoImplicit false

namespace Scripting

open Grammar

/-! ## Ways down a tree -/

/-- A way from the root of an expression to a leaf passes `n` nodes that are levels. The flag tells
whether it goes into a left operand or a callee. -/
inductive Expr.Path : Expr → Nat → Bool → Prop
  | literal {v p} : Path (.literal v p) 0 false
  | var {name p} : Path (.var name p) 0 false
  | unary {op e p n turned} : Path e n turned → Path (.unary op e p) (n + 1) turned
  | left {op left right p n turned} : Path left n turned →
      Path (.binary op left right p) (n + 1) true
  | right {op left right p n turned} : Path right n turned →
      Path (.binary op left right p) (n + 1) turned
  | callee {callee arguments p n turned} : Path callee n turned →
      Path (.call callee arguments p) (n + 1) true
  | argument {callee arguments p e n turned} : e ∈ arguments → Path e n turned →
      Path (.call callee arguments p) (n + 1) turned
  | assign {name e p n turned} : Path e n turned → Path (.assign name e p) (n + 1) turned
  | group {e p n turned} : Path e n turned → Path (.group e p) (n + 1) turned

/-- A way from the root of a statement to a leaf passes `n` nodes that are levels. A conditional is
a level for its branches and a loop for its body, but not for the test. -/
inductive Stmt.Path : Stmt → Nat → Bool → Prop
  | expression {e p n turned} : Expr.Path e n turned → Path (.expression e p) n turned
  | print {e p n turned} : Expr.Path e n turned → Path (.print e p) n turned
  | declareNothing {name p} : Path (.declare name none p) 0 false
  | declare {name e p n turned} : Expr.Path e n turned → Path (.declare name (some e) p) n turned
  | emptyBlock {p} : Path (.block [] p) 1 false
  | block {body s p n turned} : s ∈ body → Path s n turned → Path (.block body p) (n + 1) turned
  | condTest {test yes no p n turned} : Expr.Path test n turned →
      Path (.cond test yes no p) n turned
  | yes {test yes no p n turned} : Path yes n turned → Path (.cond test yes no p) (n + 1) turned
  | no {test yes s p n turned} : Path s n turned →
      Path (.cond test yes (some s) p) (n + 1) turned
  | loopTest {test body p n turned} : Expr.Path test n turned → Path (.loop test body p) n turned
  | loop {test body p n turned} : Path body n turned → Path (.loop test body p) (n + 1) turned
  | emptyFunction {name parameters p} : Path (.function name parameters [] p) 1 false
  | function {name parameters body s p n turned} : s ∈ body → Path s n turned →
      Path (.function name parameters body p) (n + 1) turned
  | returnNothing {p} : Path (.return_ none p) 0 false
  | return_ {e p n turned} : Expr.Path e n turned → Path (.return_ (some e) p) n turned
  | break_ {p} : Path (.break_ p) 0 false
  | continue_ {p} : Path (.continue_ p) 0 false

/-- A tree has at most `n` levels. -/
def Stmt.HasLevels (s : Stmt) (n : Nat) : Prop := ∀ k turned, s.Path k turned → k ≤ n

/-! ## Ways that do not turn -/

/-- A way that does not turn is charged for all of its levels. -/
theorem Expr.Path.le_room {e : Expr} {n : Nat} (h : e.Path n false) : n ≤ e.room := by
  generalize hturned : false = turned at h
  induction h with
  | literal | var => exact Nat.zero_le _
  | unary _ ih | assign _ ih | group _ ih =>
    have := ih hturned
    rw [room]
    omega
  | left _ _ | callee _ _ => cases hturned
  | right _ ih =>
    have := ih hturned
    rw [room]
    omega
  | argument he _ ih =>
    have hle := ih hturned
    have hroom := roomOfAll_le_iff.mp (Nat.le_refl _) _ he
    rw [room]
    omega

theorem Stmt.Path.le_room {s : Stmt} {n : Nat} (h : s.Path n false) : n ≤ s.room := by
  generalize hturned : false = turned at h
  induction h with
  | expression he | print he | declare he | return_ he =>
    subst hturned
    simp only [room, roomOf?]
    exact he.le_room
  | condTest he | loopTest he =>
    subst hturned
    have := he.le_room
    rw [room]
    omega
  | declareNothing | returnNothing | break_ | continue_ => exact Nat.zero_le _
  | emptyBlock | emptyFunction =>
    rw [room]
    omega
  | block hs _ ih | function hs _ ih =>
    have hle := ih hturned
    have hroom := roomOfAll_le_iff.mp (Nat.le_refl _) _ hs
    rw [room]
    omega
  | yes _ ih =>
    have := ih hturned
    rw [room]
    omega
  | no _ ih =>
    have := ih hturned
    rw [room, roomOfOtherwise]
    omega
  | loop _ ih =>
    have := ih hturned
    rw [room]
    omega

/-! ## The longest ways -/

namespace Expr

theorem chain_le_room (e : Expr) : e.chain ≤ e.room := by
  cases e with
  | binary op left right p =>
    rw [chain, room]
    omega
  | _ => exact Nat.zero_le _

theorem succ_mul_succ_self (n : Nat) : (n + 1) * (n + 1) = n * n + 2 * n + 1 := by ring

/-- In a room of `n` levels, the square of `n` bounds the ways down a callee but for the calls of
its row, and with `n` more the ways down any expression but for the operators of its chain. -/
theorem Path.le_square {e : Expr} {n k : Nat} {turned : Bool} (h : e.Path k turned)
    (hcanonical : e.Canonical) (hroom : e.room ≤ n) :
    k ≤ n * n + n + e.chain ∧ (Precedence.unary.tightness < e.tightness → k ≤ n * n + e.row) := by
  -- Only in a left operand and in a callee does the room stay as it is; anywhere else it falls by
  -- one, and the square by twice as much and one more.
  induction h generalizing n with
  | literal | var => exact ⟨Nat.zero_le _, fun _ => Nat.zero_le _⟩
  | @unary op e p k turned _ ih =>
    simp only [Canonical] at hcanonical
    rw [room] at hroom
    obtain ⟨m, rfl⟩ : ∃ m, n = m + 1 := ⟨n - 1, by omega⟩
    obtain ⟨hle, -⟩ := ih hcanonical.2 (Nat.le_of_succ_le_succ hroom)
    -- The operand of a unary operator is no chain.
    rw [chain_eq_zero hcanonical.1] at hle
    refine ⟨?_, fun hlt => absurd hlt (Nat.lt_irrefl _)⟩
    rw [succ_mul_succ_self]
    omega
  | @left op left right p k turned _ ih =>
    simp only [Canonical] at hcanonical
    rw [room] at hroom
    obtain ⟨hle, -⟩ := ih hcanonical.2.2.1 (n := n) (by omega)
    refine ⟨?_, fun hlt => absurd hlt (Nat.lt_asymm op.tightness_lt_unary)⟩
    rw [chain]
    omega
  | @right op left right p k turned _ ih =>
    simp only [Canonical] at hcanonical
    rw [room] at hroom
    obtain ⟨m, rfl⟩ : ∃ m, n = m + 1 := ⟨n - 1, by omega⟩
    obtain ⟨hle, -⟩ := ih hcanonical.2.2.2 (n := m) (by omega)
    have hchain := right.chain_le_room
    refine ⟨?_, fun hlt => absurd hlt (Nat.lt_asymm op.tightness_lt_unary)⟩
    rw [succ_mul_succ_self]
    omega
  | @callee callee arguments p k turned _ ih =>
    simp only [Canonical] at hcanonical
    rw [room] at hroom
    -- A callee is tight, so the sharper bound holds of it.
    obtain ⟨-, hle⟩ := ih hcanonical.2.2.1 (n := n) (by omega)
    have hle' := hle hcanonical.1
    rw [row]
    exact ⟨by omega, fun _ => by omega⟩
  | @argument callee arguments p e k turned he _ ih =>
    simp only [Canonical, allCanonical_iff] at hcanonical
    rw [room] at hroom
    obtain ⟨m, rfl⟩ : ∃ m, n = m + 1 := ⟨n - 1, by omega⟩
    have hroom' : e.room ≤ m := roomOfAll_le_iff.mp (by omega) e he
    obtain ⟨hle, -⟩ := ih (hcanonical.2.2.2 e he) hroom'
    have hchain := e.chain_le_room
    rw [succ_mul_succ_self]
    exact ⟨by omega, fun _ => by omega⟩
  | @assign name e p k turned _ ih | @group e p k turned _ ih =>
    simp only [Canonical] at hcanonical
    rw [room] at hroom
    obtain ⟨m, rfl⟩ : ∃ m, n = m + 1 := ⟨n - 1, by omega⟩
    obtain ⟨hle, -⟩ := ih hcanonical (Nat.le_of_succ_le_succ hroom)
    have hchain := e.chain_le_room
    rw [succ_mul_succ_self]
    exact ⟨by omega, fun _ => by omega⟩

/-- No way down a canonical expression is longer than `n * (n + 2)`, in a room of `n` levels. -/
theorem Path.le {e : Expr} {n k : Nat} {turned : Bool} (h : e.Path k turned)
    (hcanonical : e.Canonical) (hroom : e.room ≤ n) : k ≤ n * (n + 2) := by
  obtain ⟨hle, -⟩ := h.le_square hcanonical hroom
  have hchain := e.chain_le_room
  rw [Nat.mul_add]
  omega

end Expr

/-- No way down a canonical statement is longer than `n * (n + 2)`, in a room of `n` levels. -/
theorem Stmt.Path.le {s : Stmt} {n k : Nat} {turned : Bool} (h : s.Path k turned)
    {around : Surroundings} (hcanonical : s.Canonical around) (hroom : s.room ≤ n) :
    k ≤ n * (n + 2) := by
  -- Further in there is one level less, and the bound falls by more than one.
  have hstep : ∀ {m k : Nat}, k ≤ m * (m + 2) → k + 1 ≤ (m + 1) * (m + 1 + 2) := by
    intro m k hk
    have heq : (m + 1) * (m + 1 + 2) = m * (m + 2) + 2 * m + 3 := by ring
    omega
  induction h generalizing n around with
  | expression he | print he | declare he =>
    simp only [Canonical] at hcanonical
    simp only [room, roomOf?] at hroom
    exact he.le hcanonical hroom
  | return_ he =>
    simp only [Canonical] at hcanonical
    rw [room, roomOf?] at hroom
    exact he.le hcanonical.2 hroom
  | condTest he | loopTest he =>
    simp only [Canonical] at hcanonical
    rw [room] at hroom
    exact he.le hcanonical.1 (by omega)
  | declareNothing | returnNothing | break_ | continue_ => exact Nat.zero_le _
  | emptyBlock | emptyFunction =>
    rw [room] at hroom
    obtain ⟨m, rfl⟩ : ∃ m, n = m + 1 := ⟨n - 1, by omega⟩
    exact hstep (Nat.zero_le _)
  | block hs _ ih =>
    simp only [Canonical] at hcanonical
    rw [room] at hroom
    obtain ⟨m, rfl⟩ : ∃ m, n = m + 1 := ⟨n - 1, by omega⟩
    exact hstep (ih (allCanonical_iff.mp hcanonical _ hs)
      (roomOfAll_le_iff.mp (Nat.le_of_succ_le_succ hroom) _ hs))
  | function hs _ ih =>
    simp only [Canonical] at hcanonical
    rw [room] at hroom
    obtain ⟨m, rfl⟩ : ∃ m, n = m + 1 := ⟨n - 1, by omega⟩
    exact hstep (ih (allCanonical_iff.mp hcanonical.2.2 _ hs)
      (roomOfAll_le_iff.mp (Nat.le_of_succ_le_succ hroom) _ hs))
  | yes _ ih =>
    simp only [Canonical] at hcanonical
    rw [room] at hroom
    obtain ⟨m, rfl⟩ : ∃ m, n = m + 1 := ⟨n - 1, by omega⟩
    exact hstep (ih hcanonical.2.1 (by omega))
  | no _ ih =>
    simp only [Canonical, OtherwiseCanonical] at hcanonical
    rw [room, roomOfOtherwise] at hroom
    obtain ⟨m, rfl⟩ : ∃ m, n = m + 1 := ⟨n - 1, by omega⟩
    exact hstep (ih hcanonical.2.2.2.2.2.1 (by omega))
  | loop _ ih =>
    simp only [Canonical] at hcanonical
    rw [room] at hroom
    obtain ⟨m, rfl⟩ : ∃ m, n = m + 1 := ⟨n - 1, by omega⟩
    exact hstep (ih hcanonical.2.1 (by omega))

/-! ## A tree as deep as can be

With room for one level more, a group goes around the tree, and then there is room again for a row
of calls on the group and for a chain of operators on the row, each of `n + 1`. -/

namespace Expr

/-- A row of `n` calls without arguments. -/
def callRow (callee : Expr) : Nat → Expr
  | 0 => callee
  | n + 1 => .call (callRow callee n) [] .start

/-- A chain of `n` additions. -/
def addChain (left : Expr) : Nat → Expr
  | 0 => left
  | n + 1 => .binary .add (addChain left n) (.literal .nil .start) .start

/-- The deepest expression that takes room for `n` levels. -/
def tower : Nat → Expr
  | 0 => .literal .nil .start
  | n + 1 => addChain (callRow (.group (tower n) .start) (n + 1)) (n + 1)

section Rows

variable {e : Expr} {k n : Nat} {turned : Bool}

theorem tightness_callRow (h : Precedence.unary.tightness < e.tightness) (n : Nat) :
    Precedence.unary.tightness < (callRow e n).tightness := by
  cases n with
  | zero => exact h
  | succ n => exact Nat.lt_succ_self _

theorem canonical_callRow (he : e.Canonical) (h : Precedence.unary.tightness < e.tightness)
    (n : Nat) : (callRow e n).Canonical := by
  induction n with
  | zero => exact he
  | succ n ih =>
    simp only [callRow, Canonical, AllCanonical]
    exact ⟨tightness_callRow h n, Nat.zero_le _, ih, trivial⟩

theorem row_callRow (n : Nat) : (callRow e n).row = e.row + n := by
  induction n with
  | zero => rfl
  | succ n ih =>
    rw [callRow, row, ih]
    omega

theorem room_callRow_le (hrow : e.row = 0) (he : e.room ≤ k) (hn : n ≤ k) :
    (callRow e n).room ≤ k := by
  induction n with
  | zero => exact he
  | succ n ih =>
    have := ih (by omega)
    rw [callRow, room, roomOfAll, row_callRow, hrow]
    omega

theorem path_callRow (h : e.Path k turned) (n : Nat) :
    ∃ turned', (callRow e n).Path (k + n) turned' := by
  induction n with
  | zero => exact ⟨turned, h⟩
  | succ n ih =>
    obtain ⟨turned', hpath⟩ := ih
    exact ⟨true, .callee hpath⟩

theorem canonical_addChain (he : e.Canonical)
    (h : BinaryOperator.add.tightness ≤ e.tightness) (n : Nat) : (addChain e n).Canonical := by
  induction n with
  | zero => exact he
  | succ n ih =>
    simp only [addChain, Canonical]
    refine ⟨?_, by decide, ih, trivial⟩
    cases n with
    | zero => exact h
    | succ n => exact Nat.le_refl _

theorem chain_addChain (n : Nat) : (addChain e n).chain = e.chain + n := by
  induction n with
  | zero => rfl
  | succ n ih =>
    rw [addChain, chain, ih]
    omega

theorem room_addChain_le (hchain : e.chain = 0) (he : e.room ≤ k) (hn : n ≤ k) :
    (addChain e n).room ≤ k := by
  induction n with
  | zero => exact he
  | succ n ih =>
    have := ih (by omega)
    simp only [addChain, room, chain_addChain, hchain]
    omega

theorem path_addChain (h : e.Path k turned) (n : Nat) :
    ∃ turned', (addChain e n).Path (k + n) turned' := by
  induction n with
  | zero => exact ⟨turned, h⟩
  | succ n ih =>
    obtain ⟨turned', hpath⟩ := ih
    exact ⟨true, .left hpath⟩

end Rows

theorem canonical_tower (n : Nat) : (tower n).Canonical := by
  cases n with
  | zero => simp only [tower, Canonical]
  | succ n =>
    have hgroup : (Expr.group (tower n) .start).Canonical := by
      simp only [Canonical]
      exact canonical_tower n
    have htight := tightness_callRow (e := .group (tower n) .start) (Nat.lt_succ_self _) (n + 1)
    refine canonical_addChain (canonical_callRow hgroup (Nat.lt_succ_self _) _) ?_ _
    exact Nat.le_trans (by decide) (Nat.le_of_lt htight)

theorem room_tower_le (n : Nat) : (tower n).room ≤ n := by
  induction n with
  | zero => simp only [tower, room, Nat.le_refl]
  | succ n ih =>
    have hgroup : (Expr.group (tower n) .start).room ≤ n + 1 := by
      rw [room]
      exact Nat.succ_le_succ ih
    refine room_addChain_le ?_ (room_callRow_le rfl hgroup (Nat.le_refl _)) (Nat.le_refl _)
    rfl

theorem path_tower (n : Nat) : ∃ turned, (tower n).Path (n * (n + 2)) turned := by
  induction n with
  | zero => exact ⟨false, .literal⟩
  | succ n ih =>
    obtain ⟨turned, hpath⟩ := ih
    obtain ⟨turned', hrow⟩ := path_callRow (.group hpath) (n + 1)
    obtain ⟨turned'', hchain⟩ := path_addChain hrow (n + 1)
    refine ⟨turned'', ?_⟩
    -- The group, the calls and the additions make up the difference.
    have hlength : n * (n + 2) + 1 + (n + 1) + (n + 1) = (n + 1) * (n + 1 + 2) := by ring
    rwa [hlength] at hchain

end Expr

/-! ## Programs that are accepted

The room does not depend on the positions in a tree, so a program that is accepted has had the room
that the written trees take. -/

namespace Expr

theorem chain_unplaced (e : Expr) : e.unplaced.chain = e.chain := by
  induction e with
  | binary op left right p ihl _ => rw [unplaced, chain, chain, ihl]
  | _ => simp only [unplaced, chain]

theorem row_unplaced (e : Expr) : e.unplaced.row = e.row := by
  induction e with
  | call callee arguments p ihc _ => rw [unplaced, row, row, ihc]
  | _ => simp only [unplaced, row]

theorem roomOfAll_unplaced {es : List Expr} (h : ∀ e ∈ es, e.unplaced.room = e.room) :
    roomOfAll (unplacedEach es) = roomOfAll es := by
  induction es with
  | nil => rfl
  | cons e es ih =>
    obtain ⟨he, hes⟩ := List.forall_mem_cons.mp h
    rw [unplacedEach, roomOfAll, roomOfAll, he, ih hes]

theorem room_unplaced (e : Expr) : e.unplaced.room = e.room := by
  induction e with
  | literal v p | var name p => simp only [unplaced, room]
  | unary op e p ih | assign name e p ih | group e p ih => rw [unplaced, room, room, ih]
  | binary op left right p ihl ihr => rw [unplaced, room, room, ihl, ihr, chain_unplaced]
  | call callee arguments p ihc iha =>
    rw [unplaced, room, room, ihc, row_unplaced, roomOfAll_unplaced iha]

end Expr

namespace Stmt

theorem roomOfAll_unplaced {ss : List Stmt} (h : ∀ s ∈ ss, s.unplaced.room = s.room) :
    roomOfAll (unplacedEach ss) = roomOfAll ss := by
  induction ss with
  | nil => rfl
  | cons s ss ih =>
    obtain ⟨hs, hss⟩ := List.forall_mem_cons.mp h
    rw [unplacedEach, roomOfAll, roomOfAll, hs, ih hss]

theorem room_unplaced (s : Stmt) : s.unplaced.room = s.room := by
  induction s with
  | expression e p | print e p => rw [unplaced, room, room, e.room_unplaced]
  | declare name value p | return_ value p =>
    cases value with
    | none => rfl
    | some e => exact e.room_unplaced
  | block body p ih | function name parameters body p ih =>
    rw [unplaced, room, room, roomOfAll_unplaced ih]
  | cond test yes no p ihy ihn =>
    have hno : roomOfOtherwise (unplacedOtherwise no) = roomOfOtherwise no := by
      cases no with
      | none => rfl
      | some s => exact ihn s rfl
    rw [unplaced, room, room, test.room_unplaced, ihy, hno]
  | loop test body p ih => rw [unplaced, room, room, test.room_unplaced, ih]
  | break_ p | continue_ p => rfl

end Stmt

/-- **What is accepted.** Canonical statements are accepted exactly if there is room for each. -/
theorem Grammar.readsAs_iff_room_le {statements : List Stmt}
    (hcanonical : ∀ s ∈ statements, s.Canonical .outermost) {lexemes : List Lexeme}
    (hwritten : lexemes.map (·.token) =
      (Stmt.marksAll Stmt.separator statements).map (·.token) ++ [.endOfInput])
    (hplaced : ReturnsPlaced lexemes) :
    ReadsAs lexemes statements ↔ ∀ s ∈ statements, s.room ≤ maxNesting := by
  constructor
  · rintro ⟨read, hread, hsame⟩ s hs
    obtain ⟨s', hs', heq⟩ := List.mem_map.mp (hsame ▸ List.mem_map_of_mem hs)
    have hroom := room_le_of_parse hread s' hs'
    rwa [← s'.room_unplaced, heq, s.room_unplaced] at hroom
  · intro hroom
    exact readBack_program hcanonical hroom hwritten hplaced

/-! ## Expressions as programs -/

/-- A way down a tree does not depend on the positions in it. -/
theorem Expr.Path.of_unplaced {e e' : Expr} {n : Nat} {turned : Bool} (h : e.Path n turned)
    (heq : e'.unplaced = e.unplaced) : e'.Path n turned := by
  induction h generalizing e' with
  | literal | var =>
    cases e' <;> simp only [unplaced, reduceCtorEq] at heq
    constructor
  | unary _ ih =>
    cases e' <;> simp only [unplaced, reduceCtorEq, Expr.unary.injEq] at heq
    exact .unary (ih heq.2.1)
  | left _ ih =>
    cases e' <;> simp only [unplaced, reduceCtorEq, Expr.binary.injEq] at heq
    exact .left (ih heq.2.1)
  | right _ ih =>
    cases e' <;> simp only [unplaced, reduceCtorEq, Expr.binary.injEq] at heq
    exact .right (ih heq.2.2.1)
  | callee _ ih =>
    cases e' <;> simp only [unplaced, reduceCtorEq, Expr.call.injEq] at heq
    exact .callee (ih heq.1)
  | argument he _ ih =>
    cases e' <;> simp only [unplaced, reduceCtorEq, Expr.call.injEq, unplacedEach_eq_map] at heq
    obtain ⟨x, hx, heq'⟩ := List.mem_map.mp (heq.2.1 ▸ List.mem_map_of_mem he)
    exact .argument hx (ih heq')
  | assign _ ih =>
    cases e' <;> simp only [unplaced, reduceCtorEq, Expr.assign.injEq] at heq
    exact .assign (ih heq.2.1)
  | group _ ih =>
    cases e' <;> simp only [unplaced, reduceCtorEq, Expr.group.injEq] at heq
    exact .group (ih heq.1)

theorem Mark.mem_intercalate {m : Mark} {between : List Mark} {items : List (List Mark)}
    (h : m ∈ between.intercalate items) : m ∈ between ∨ ∃ ms ∈ items, m ∈ ms := by
  induction items with
  | nil => simp at h
  | cons ms items ih =>
    cases items with
    | nil => exact .inr ⟨ms, List.mem_singleton_self ms, by simpa using h⟩
    | cons ms' items =>
      simp only [List.intercalate_cons_cons, List.mem_append] at h
      rcases h with (h | h) | h
      · exact .inr ⟨ms, List.mem_cons_self, h⟩
      · exact .inl h
      · exact (ih h).imp_right fun ⟨ms'', hms, hm⟩ => ⟨ms'', List.mem_cons_of_mem _ hms, hm⟩

/-- Nothing returns from within an expression. -/
theorem Expr.ne_return_of_mem_marks (e : Expr) : ∀ m ∈ e.marks, m.token ≠ .keyword .return_ := by
  induction e with
  | literal v p => cases v with
    | bool b => cases b <;> simp [marks, Mark.kept, Literal.token]
    | _ => simp [marks, Mark.kept, Literal.token]
  | var name p => simp [marks, Mark.kept]
  | unary op e p ih =>
    have hop : op.token ≠ .keyword .return_ := by cases op <;> decide
    rw [marks, List.forall_mem_cons]
    exact ⟨hop, ih⟩
  | binary op left right p ihl ihr =>
    have hop : op.token ≠ .keyword .return_ := by cases op <;> decide
    rw [marks, List.forall_mem_append, List.forall_mem_cons]
    exact ⟨ihl, hop, ihr⟩
  | call callee arguments p ihc iha =>
    rw [marks, marksEach_eq_map, Mark.inParentheses, List.forall_mem_append, List.forall_mem_cons,
      List.forall_mem_append]
    refine ⟨ihc, by simp [Mark.kept], fun m hm => ?_, by decide⟩
    rcases Mark.mem_intercalate hm with hm | ⟨ms, hms, hm⟩
    · rw [List.mem_singleton.mp hm]
      decide
    · obtain ⟨e, he, rfl⟩ := List.mem_map.mp hms
      exact iha e he m hm
  | assign name e p ih =>
    rw [marks, List.forall_mem_cons, List.forall_mem_cons]
    exact ⟨by simp [Mark.plain], by simp [Mark.kept], ih⟩
  | group e p ih =>
    rw [marks, List.forall_mem_cons, List.forall_mem_append]
    exact ⟨by simp [Mark.kept], ih, by decide⟩

namespace Grammar

theorem map_token_inLines_singleton (tokens : List Token) :
    (inLines [tokens]).map (·.token) = tokens := by
  simp only [inLines, List.zipIdx_singleton, List.flatMap_singleton, List.map_map]
  exact List.zipIdx_map_fst 0 tokens

theorem returnsPlaced_of_ne_return {ts : List Lexeme}
    (h : ∀ t ∈ ts.map (·.token), t ≠ .keyword .return_) : ReturnsPlaced ts := by
  refine List.Pairwise.isChain (List.pairwise_of_forall_mem_list fun l hl _ _ hreturn => ?_)
  exact absurd hreturn (h l.token (List.mem_map_of_mem hl))

/-- A canonical expression is accepted if there is room for it. -/
theorem accepted_of_room_le {e : Expr} (hcanonical : e.Canonical) (hroom : e.room ≤ maxNesting) :
    ∃ e' p, parse (inLines [e.marks.map (·.token) ++ [.endOfInput]]) = .ok [.expression e' p] ∧
      e'.unplaced = e.unplaced := by
  have htokens := map_token_inLines_singleton (e.marks.map (·.token) ++ [.endOfInput])
  have hwritten : (inLines [e.marks.map (·.token) ++ [.endOfInput]]).map (·.token) =
      (Stmt.marksAll Stmt.separator [.expression e .start]).map (·.token) ++ [.endOfInput] := by
    rw [htokens, Stmt.marksAll, Stmt.marksEach, Stmt.marksEach, List.intercalate_singleton,
      Stmt.marks]
    cases e.marks <;> rfl
  have hplaced : ReturnsPlaced (inLines [e.marks.map (·.token) ++ [.endOfInput]]) := by
    refine returnsPlaced_of_ne_return ?_
    rw [htokens, List.forall_mem_append, List.forall_mem_map]
    exact ⟨e.ne_return_of_mem_marks, by decide⟩
  obtain ⟨read, hread, hsame⟩ := (readsAs_iff_room_le
    (by simpa [Stmt.Canonical] using hcanonical) hwritten hplaced).mpr
    (by simpa [Stmt.room] using hroom)
  obtain ⟨s, rfl⟩ : ∃ s, read = [s] := List.length_eq_one_iff.mp (by
    simpa using congrArg List.length hsame)
  cases s <;> simp [Stmt.unplaced] at hsame
  exact ⟨_, _, hread, hsame⟩

/-! ## The limit and the levels -/

/-- **What the limit says about levels.** The ways down an accepted tree that turn into no left
operand and no callee are within the limit, so the tree is exactly if the ways that turn are. These
stay within `maxNesting * (maxNesting + 2)` levels. -/
theorem accepted_levels {lexemes : List Lexeme} {statements : List Stmt}
    (h : parse lexemes = .ok statements) {s : Stmt} (hs : s ∈ statements) :
    (∀ k, s.Path k false → k ≤ maxNesting) ∧
      (s.HasLevels maxNesting ↔ ∀ k, s.Path k true → k ≤ maxNesting) ∧
      s.HasLevels (maxNesting * (maxNesting + 2)) := by
  have hroom := room_le_of_parse h s hs
  have hstraight : ∀ k, s.Path k false → k ≤ maxNesting := by
    intro k hpath
    exact Nat.le_trans hpath.le_room hroom
  refine ⟨hstraight, ⟨fun hlevels k hpath => hlevels k true hpath, fun hturned => ?_⟩, ?_⟩
  · intro k turned hpath
    cases turned with
    | false => exact hstraight k hpath
    | true => exact hturned k hpath
  · intro k turned hpath
    exact hpath.le (canonical_of_parse h s hs) hroom

theorem conditionalTree_levels :
    (∀ k, conditionalTree.Path k false → k ≤ maxNesting) ∧
      (conditionalTree.HasLevels maxNesting ↔
        ∀ k, conditionalTree.Path k true → k ≤ maxNesting) ∧
      conditionalTree.HasLevels (maxNesting * (maxNesting + 2)) :=
  accepted_levels parse_conditionalTokens (List.mem_singleton_self _)

/-- There is an accepted tree with as many levels as can be. -/
theorem deepest_accepted :
    ∃ lexemes s turned, parse lexemes = .ok [s] ∧
      s.Path (maxNesting * (maxNesting + 2)) turned := by
  obtain ⟨turned, hpath⟩ := Expr.path_tower maxNesting
  obtain ⟨e, p, hread, hsame⟩ :=
    accepted_of_room_le (Expr.canonical_tower maxNesting) (Expr.room_tower_le maxNesting)
  exact ⟨_, _, turned, hread, .expression (hpath.of_unplaced hsame)⟩

/-- `nil` in `n` pairs of parentheses. -/
def nilInGroups : Nat → Expr
  | 0 => .literal .nil .start
  | n + 1 => .group (nilInGroups n) .start

theorem canonical_nilInGroups (n : Nat) : (nilInGroups n).Canonical := by
  induction n with
  | zero => simp only [nilInGroups, Expr.Canonical]
  | succ n ih =>
    simp only [nilInGroups, Expr.Canonical]
    exact ih

theorem room_nilInGroups (n : Nat) : (nilInGroups n).room = n := by
  induction n with
  | zero => simp only [nilInGroups, Expr.room]
  | succ n ih => rw [nilInGroups, Expr.room, ih]

theorem unary_lt_tightness_nilInGroups (n : Nat) :
    Precedence.unary.tightness < (nilInGroups n).tightness := by
  cases n <;> exact Nat.lt_succ_self _

theorem path_nilInGroups (n : Nat) : (nilInGroups n).Path n false := by
  induction n with
  | zero => exact .literal
  | succ n ih => exact .group ih

theorem tokens_nilInGroups (n : Nat) :
    (nilInGroups n).marks.map (·.token) =
      List.replicate n (.symbol .leftParen) ++ .keyword .nil_ ::
        List.replicate n (.symbol .rightParen) := by
  induction n with
  | zero => rfl
  | succ n ih =>
    rw [nilInGroups, Expr.marks, List.map_cons, List.map_append, ih, List.replicate_succ,
      List.replicate_succ']
    simp [Mark.kept, Mark.plain]

/-- The tokens of `nil` in `n` pairs of parentheses, with `nil` added to it. -/
def groupsPlusNil (n : Nat) : List Token :=
  List.replicate n (.symbol .leftParen) ++ .keyword .nil_ ::
    List.replicate n (.symbol .rightParen) ++ [.symbol .plus, .keyword .nil_, .endOfInput]

/-- Up to the limit, the addition around the groups is a level that is not counted. -/
theorem groupsPlusNil_accepted {n : Nat} (hpos : 1 ≤ n) (hn : n ≤ maxNesting) :
    ∃ s turned, parse (inLines [groupsPlusNil n]) = .ok [s] ∧ s.Path (n + 1) turned := by
  have htight := unary_lt_tightness_nilInGroups n
  -- One addition is a chain of one.
  have hcanonical : (Expr.addChain (nilInGroups n) 1).Canonical :=
    Expr.canonical_addChain (canonical_nilInGroups n)
      (BinaryOperator.add.tightness_lt_unary.trans htight).le 1
  have hroom : (Expr.addChain (nilInGroups n) 1).room ≤ n :=
    Expr.room_addChain_le (Expr.chain_eq_zero htight.le) (room_nilInGroups n).le hpos
  have htokens : (Expr.addChain (nilInGroups n) 1).marks.map (·.token) ++ [.endOfInput] =
      groupsPlusNil n := by
    rw [Expr.addChain, Expr.addChain, Expr.marks, List.map_append, tokens_nilInGroups,
      List.append_assoc]
    rfl
  obtain ⟨e, p, hread, hsame⟩ := accepted_of_room_le hcanonical (hroom.trans hn)
  obtain ⟨turned, hpath⟩ := Expr.path_addChain (path_nilInGroups n) 1
  rw [htokens] at hread
  exact ⟨_, turned, hread, .expression (hpath.of_unplaced hsame)⟩

/-- As many groups as the limit allows, and an addition around them: there are more levels than
the limit, and the tree is accepted. -/
theorem operator_around_groups_accepted :
    ∃ s, parse (inLines [groupsPlusNil maxNesting]) = .ok [s] ∧ ¬ s.HasLevels maxNesting := by
  obtain ⟨s, turned, hread, hpath⟩ := groupsPlusNil_accepted (by decide) (Nat.le_refl maxNesting)
  refine ⟨s, hread, fun hlevels => ?_⟩
  exact Nat.not_succ_le_self maxNesting (hlevels _ turned hpath)

end Grammar

end Scripting
