/-
How much room a tree takes.

Reading counts levels: a rule that goes one level further in needs room for it. The room that the
reading of a tree takes follows from the tree alone. Two things are counted in an unexpected
way. The operators of a chain are read one after the other, each one level further in than the
one before, so the right operand of an operator is charged for all the operators to its left;
and the left operand is charged for none, since it has been read by then. A row of calls is
counted likewise, with the arguments for the right operands and the callee for the left one.

Rules with room for `n` levels return only trees that take no more, and no tree takes more room
than it has parts.
-/
import Scripting.Proofs.Spelling

set_option autoImplicit false

namespace Scripting

open Grammar

/-! ## The room of a tree -/

namespace Expr

/-- The operators of the chain that ends an expression. -/
def chain : Expr → Nat
  | .binary _ left _ _ => left.chain + 1
  | _ => 0

/-- The calls of the row that ends an expression. -/
def row : Expr → Nat
  | .call callee _ _ => callee.row + 1
  | _ => 0

mutual

/-- How many levels further in the reading of an expression goes. -/
def room : Expr → Nat
  | .literal .. | .var .. => 0
  | .unary _ e _ => e.room + 1
  | .binary _ left right _ => max left.room (left.chain + right.room + 1)
  | .call callee arguments _ => max callee.room (callee.row + roomOfAll arguments + 1)
  | .assign _ e _ => e.room + 1
  | .group e _ => e.room + 1

/-- The room that one of some expressions takes at most. -/
def roomOfAll : List Expr → Nat
  | [] => 0
  | e :: es => max e.room (roomOfAll es)

end

mutual

/-- The operators, calls, assignments and groups in an expression. -/
def weight : Expr → Nat
  | .literal .. | .var .. => 0
  | .unary _ e _ => e.weight + 1
  | .binary _ left right _ => left.weight + right.weight + 1
  | .call callee arguments _ => callee.weight + weightOfAll arguments + 1
  | .assign _ e _ => e.weight + 1
  | .group e _ => e.weight + 1

/-- The operators, calls, assignments and groups in some expressions. -/
def weightOfAll : List Expr → Nat
  | [] => 0
  | e :: es => e.weight + weightOfAll es

end

theorem roomOfAll_le_iff {es : List Expr} {n : Nat} :
    roomOfAll es ≤ n ↔ ∀ e ∈ es, e.room ≤ n := by
  induction es with
  | nil => simp [roomOfAll]
  | cons e es ih => rw [roomOfAll, Nat.max_le, ih, List.forall_mem_cons]

theorem weight_le_weightOfAll {e : Expr} {es : List Expr} (h : e ∈ es) :
    e.weight ≤ weightOfAll es := by
  induction es with
  | nil => cases h
  | cons e' es ih =>
    rw [weightOfAll]
    rcases List.mem_cons.mp h with rfl | h
    · omega
    · have := ih h
      omega

theorem chain_le_weight (e : Expr) : e.chain ≤ e.weight := by
  induction e with
  | binary op left right p ihl ihr =>
    rw [chain, weight]
    omega
  | _ => exact Nat.zero_le _

theorem row_le_weight (e : Expr) : e.row ≤ e.weight := by
  induction e with
  | call callee arguments p ihc iha =>
    rw [row, weight]
    omega
  | _ => exact Nat.zero_le _

/-- No expression takes more room than it has parts. -/
theorem room_le_weight (e : Expr) : e.room ≤ e.weight := by
  induction e with
  | literal v p | var name p => simp only [room, weight, Nat.le_refl]
  | unary op e p ih | assign name e p ih | group e p ih =>
    simp only [room, weight]
    omega
  | binary op left right p ihl ihr =>
    have hchain := left.chain_le_weight
    simp only [room, weight]
    omega
  | call callee arguments p ihc iha =>
    have hrow := callee.row_le_weight
    have harguments : roomOfAll arguments ≤ weightOfAll arguments :=
      roomOfAll_le_iff.mpr fun e he => Nat.le_trans (iha e he) (weight_le_weightOfAll he)
    simp only [room, weight]
    omega

end Expr

namespace Stmt

/-- The room that the expression takes, if there is one. -/
def roomOf? : Option Expr → Nat
  | none => 0
  | some e => e.room

/-- The parts of the expression, if there is one. -/
def weightOf? : Option Expr → Nat
  | none => 0
  | some e => e.weight

mutual

/-- How many levels further in the reading of a statement goes. -/
def room : Stmt → Nat
  | .expression e _ | .print e _ => e.room
  | .declare _ e _ | .return_ e _ => roomOf? e
  | .block body _ | .function _ _ body _ => roomOfAll body + 1
  | .cond test yes no _ => max test.room (max yes.room (roomOfOtherwise no) + 1)
  | .loop test body _ => max test.room (body.room + 1)
  | .break_ _ | .continue_ _ => 0

/-- The room that the second branch of a conditional takes, if there is one. -/
def roomOfOtherwise : Option Stmt → Nat
  | none => 0
  | some s => s.room

/-- The room that one of some statements takes at most. -/
def roomOfAll : List Stmt → Nat
  | [] => 0
  | s :: ss => max s.room (roomOfAll ss)

end

mutual

/-- The operators, calls, assignments and groups, the blocks, conditionals, loops and functions in
a statement. -/
def weight : Stmt → Nat
  | .expression e _ | .print e _ => e.weight
  | .declare _ e _ | .return_ e _ => weightOf? e
  | .block body _ | .function _ _ body _ => weightOfAll body + 1
  | .cond test yes no _ => test.weight + yes.weight + weightOfOtherwise no + 1
  | .loop test body _ => test.weight + body.weight + 1
  | .break_ _ | .continue_ _ => 0

/-- The parts of the second branch of a conditional, if there is one. -/
def weightOfOtherwise : Option Stmt → Nat
  | none => 0
  | some s => s.weight

/-- The parts of some statements. -/
def weightOfAll : List Stmt → Nat
  | [] => 0
  | s :: ss => s.weight + weightOfAll ss

end

theorem roomOfAll_le_iff {ss : List Stmt} {n : Nat} :
    roomOfAll ss ≤ n ↔ ∀ s ∈ ss, s.room ≤ n := by
  induction ss with
  | nil => simp [roomOfAll]
  | cons s ss ih => rw [roomOfAll, Nat.max_le, ih, List.forall_mem_cons]

theorem weight_le_weightOfAll {s : Stmt} {ss : List Stmt} (h : s ∈ ss) :
    s.weight ≤ weightOfAll ss := by
  induction ss with
  | nil => cases h
  | cons s' ss ih =>
    rw [weightOfAll]
    rcases List.mem_cons.mp h with rfl | h
    · omega
    · have := ih h
      omega

theorem roomOf?_le_weightOf? (e : Option Expr) : roomOf? e ≤ weightOf? e := by
  cases e with
  | none => exact Nat.le_refl 0
  | some e => exact e.room_le_weight

/-- No statement takes more room than it has parts. -/
theorem room_le_weight (s : Stmt) : s.room ≤ s.weight := by
  induction s with
  | expression e p | print e p =>
    simp only [room, weight]
    exact e.room_le_weight
  | declare name e p | return_ e p =>
    simp only [room, weight]
    exact roomOf?_le_weightOf? e
  | block body p ih | function name parameters body p ih =>
    have hbody : roomOfAll body ≤ weightOfAll body :=
      roomOfAll_le_iff.mpr fun s hs => Nat.le_trans (ih s hs) (weight_le_weightOfAll hs)
    simp only [room, weight]
    omega
  | cond test yes no p ihy ihn =>
    have htest := test.room_le_weight
    have hno : roomOfOtherwise no ≤ weightOfOtherwise no := by
      cases no with
      | none => exact Nat.le_refl 0
      | some s =>
        rw [roomOfOtherwise, weightOfOtherwise]
        exact ihn s rfl
    simp only [room, weight]
    omega
  | loop test body p ih =>
    have htest := test.room_le_weight
    simp only [room, weight]
    omega
  | break_ p | continue_ p => simp only [room, weight, Nat.le_refl]

end Stmt

namespace Grammar

/-! ## Reading within a room -/

/-- Rules that return only trees with room for `n` levels in them. What `operators` and `calls`
were given has been read with the room there was before the chain or the row began. -/
structure Rules.Within (rules : Rules) (n : Nat) : Prop where
  expression {ts e rest} : Yields (rules.expression ts) e rest → e.room ≤ n
  precedence {least ts e rest} : Yields (rules.precedence least ts) e rest → e.room ≤ n
  operators {least left ts e rest} : Yields (rules.operators least left ts) e rest →
    left.room ≤ left.chain + n → e.room ≤ left.chain + n
  unary {ts e rest} : Yields (rules.unary ts) e rest → e.room ≤ n ∧ e.chain = 0
  calls {callee ts e rest} : Yields (rules.calls callee ts) e rest →
    callee.room ≤ callee.row + n → callee.chain = 0 → e.room ≤ callee.row + n ∧ e.chain = 0
  statement {around ts s rest} : Yields (rules.statement around ts) s rest → s.room ≤ n
  declaration {around ts s rest} : Yields (rules.declaration around ts) s rest → s.room ≤ n

section Level

variable {n : Nat} {inner : Option Rules}
variable (hinner : ∀ rules, inner = some rules → ∃ m, n = m + 1 ∧ rules.Within m)
variable {around : Surroundings} {ts rest : List Lexeme} {e : Expr} {s : Stmt}

omit hinner in
theorem ItemsRead.room_le {rules : Rules} {m : Nat} (hrules : rules.Within m) {es : List Expr}
    (h : ItemsRead rules.expression ts es rest) : Expr.roomOfAll es ≤ m := by
  induction h with
  | last he _ =>
    rw [Expr.roomOfAll_le_iff, List.forall_mem_singleton]
    exact hrules.expression he
  | more he _ _ ih =>
    rw [Expr.roomOfAll, Nat.max_le]
    exact ⟨hrules.expression he, ih⟩

omit hinner in
theorem ListRead.room_le {rules : Rules} {m : Nat} (hrules : rules.Within m) {es : List Expr}
    (h : ListRead rules.expression ts es rest) : Expr.roomOfAll es ≤ m := by
  cases h with
  | none _ => exact Nat.zero_le m
  | some _ hread => exact hread.room_le hrules

omit hinner in
theorem BlockRead.room_le {declaration : Rule Stmt} {m : Nat}
    (hdeclaration : ∀ {ts s rest}, Yields (declaration ts) s rest → s.room ≤ m)
    {body : List Stmt} (h : BlockRead declaration ts body rest) : Stmt.roomOfAll body ≤ m := by
  induction h with
  | close _ _ => exact Nat.zero_le m
  | more _ _ _ hs _ ih =>
    rw [Stmt.roomOfAll, Nat.max_le]
    exact ⟨hdeclaration hs, ih⟩

include hinner

theorem PrimaryRead.within (h : PrimaryRead inner ts e rest) :
    e.room ≤ n ∧ e.chain = 0 ∧ e.row = 0 := by
  cases h with
  | literal _ | var _ =>
    refine ⟨?_, rfl, rfl⟩
    rw [Expr.room]
    exact Nat.zero_le n
  | group _ hrules he _ =>
    obtain ⟨m, rfl, hm⟩ := hinner _ hrules
    refine ⟨?_, rfl, rfl⟩
    rw [Expr.room]
    exact Nat.succ_le_succ (hm.expression he)

theorem CallsRead.within {callee : Expr} (h : CallsRead inner callee ts e rest)
    (hcallee : callee.room ≤ callee.row + n) (hchain : callee.chain = 0) :
    e.room ≤ callee.row + n ∧ e.chain = 0 := by
  cases h with
  | done _ => exact ⟨hcallee, hchain⟩
  | @call l ts rules arguments after e rest _ hrules hread _ hmore =>
    obtain ⟨m, rfl, hm⟩ := hinner _ hrules
    have harguments := hread.room_le hm
    obtain ⟨hroom, hchain'⟩ := hm.calls hmore (by rw [Expr.room, Expr.row]; omega) rfl
    rw [Expr.row] at hroom
    exact ⟨by omega, hchain'⟩

theorem UnaryRead.within (h : UnaryRead inner ts e rest) : e.room ≤ n ∧ e.chain = 0 := by
  cases h with
  | operator _ hrules he =>
    obtain ⟨m, rfl, hm⟩ := hinner _ hrules
    refine ⟨?_, rfl⟩
    rw [Expr.room]
    exact Nat.succ_le_succ (hm.unary he).1
  | calls hprimary hcalls =>
    obtain ⟨hroom, hchain, hrow⟩ := PrimaryRead.within hinner hprimary
    have hcalled := CallsRead.within hinner hcalls (by omega) hchain
    rwa [hrow, Nat.zero_add] at hcalled

theorem OperatorsRead.within {least : Precedence} {left : Expr}
    (h : OperatorsRead inner least left ts e rest) (hleft : left.room ≤ left.chain + n) :
    e.room ≤ left.chain + n := by
  cases h with
  | done _ => exact hleft
  | @operator l ts op rules right after e rest _ _ hrules hright hmore =>
    obtain ⟨m, rfl, hm⟩ := hinner _ hrules
    have hright' := hm.precedence hright
    -- The chain is one operator longer now, with one level less left for the rest of it.
    have hroom := hm.operators hmore (by rw [Expr.room, Expr.chain]; omega)
    rw [Expr.chain] at hroom
    omega

theorem PrecedenceRead.within {least : Precedence} (h : PrecedenceRead inner least ts e rest) :
    e.room ≤ n := by
  obtain ⟨hunary, hoperators⟩ := h
  obtain ⟨hroom, hchain⟩ := UnaryRead.within hinner hunary
  have hroom' := OperatorsRead.within hinner hoperators (by omega)
  rwa [hchain, Nat.zero_add] at hroom'

theorem ExpressionRead.within (h : ExpressionRead inner ts e rest) : e.room ≤ n := by
  cases h with
  | plain htarget _ => exact PrecedenceRead.within hinner htarget
  | assign _ _ hrules he =>
    obtain ⟨m, rfl, hm⟩ := hinner _ hrules
    rw [Expr.room]
    exact Nat.succ_le_succ (hm.expression he)

theorem StatementRead.within (h : StatementRead inner around ts s rest) : s.room ≤ n := by
  cases h with
  | print _ he | expression _ he | returnValue _ _ _ he =>
    simp only [Stmt.room, Stmt.roomOf?]
    exact ExpressionRead.within hinner he
  | block _ hrules hbody =>
    obtain ⟨m, rfl, hm⟩ := hinner _ hrules
    rw [Stmt.room]
    exact Nat.succ_le_succ (hbody.room_le hm.declaration)
  | cond _ htest hrules hyes _ =>
    have htest' := ExpressionRead.within hinner htest
    obtain ⟨m, rfl, hm⟩ := hinner _ hrules
    have hyes' := hm.statement hyes
    simp only [Stmt.room, Stmt.roomOfOtherwise]
    omega
  | condElse _ htest hrules hyes _ hno =>
    have htest' := ExpressionRead.within hinner htest
    obtain ⟨m, rfl, hm⟩ := hinner _ hrules
    have hyes' := hm.statement hyes
    have hno' := hm.statement hno
    simp only [Stmt.room, Stmt.roomOfOtherwise]
    omega
  | loop _ htest hrules hbody =>
    have htest' := ExpressionRead.within hinner htest
    obtain ⟨m, rfl, hm⟩ := hinner _ hrules
    have hbody' := hm.statement hbody
    rw [Stmt.room]
    omega
  | returnNothing _ _ _ | break_ _ _ | continue_ _ _ =>
    simp only [Stmt.room, Stmt.roomOf?, Nat.zero_le]

theorem DeclarationRead.within (h : DeclarationRead inner around ts s rest) : s.room ≤ n := by
  cases h with
  | declare _ _ _ => simp only [Stmt.room, Stmt.roomOf?, Nat.zero_le]
  | initialise _ _ _ he =>
    simp only [Stmt.room, Stmt.roomOf?]
    exact ExpressionRead.within hinner he
  | function _ _ _ _ _ _ _ hrules hbody =>
    obtain ⟨m, rfl, hm⟩ := hinner _ hrules
    rw [Stmt.room]
    exact Nat.succ_le_succ (hbody.room_le hm.declaration)
  | statement _ _ hs => exact StatementRead.within hinner hs

theorem Rules.within_around : (Rules.around inner).Within n where
  expression h := ExpressionRead.within hinner (expressionRead_of_yields h)
  precedence h := PrecedenceRead.within hinner (yields_precedence.mp h)
  operators h := OperatorsRead.within hinner (yields_operators.mp h)
  unary h := UnaryRead.within hinner (unaryRead_of_yields h)
  calls h := CallsRead.within hinner (yields_calls.mp h)
  statement h := StatementRead.within hinner (statementRead_of_yields h)
  declaration h := DeclarationRead.within hinner (declarationRead_of_yields h)

end Level

theorem Rules.within_withRoom (n : Nat) : (Rules.withRoom n).Within n := by
  induction n with
  | zero => exact within_around fun rules h => by cases h
  | succ n ih =>
    refine within_around fun rules h => ?_
    cases h
    exact ⟨n, rfl, ih⟩

theorem ProgramRead.room_le {declaration : Rule Stmt} {n : Nat}
    (hdeclaration : ∀ {ts s rest}, Yields (declaration ts) s rest → s.room ≤ n)
    {ts : List Lexeme} {body : List Stmt} (h : ProgramRead declaration ts body) :
    ∀ s ∈ body, s.room ≤ n := by
  induction h with
  | close _ => simp
  | more _ _ hs _ ih => exact List.forall_mem_cons.mpr ⟨hdeclaration hs, ih⟩

/-- No statement of an accepted program takes more room than there is. -/
theorem room_le_of_parse {lexemes : List Lexeme} {statements : List Stmt}
    (h : parse lexemes = .ok statements) : ∀ s ∈ statements, s.room ≤ maxNesting :=
  (programFrom_eq_ok.mp h).room_le (Rules.within_withRoom maxNesting).declaration

end Grammar

end Scripting
