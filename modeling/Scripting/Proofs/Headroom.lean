/-
How much room is enough.

Whenever a rule goes one level further in, it has read a lexeme before. So it never gets further in
than there are lexemes: with as much room as that, reading does not fail for want of room, and still
more room changes nothing. Room stands for how often the rules may call each other, one level
further in each time, and so this says that the calls of the rules come to an end even if nothing
limits them.
-/
import Scripting.Proofs.LayeredGrammar
import Scripting.Proofs.ReadBack

set_option autoImplicit false

namespace Scripting.Grammar

open Scripting.Grammar.Layered (IsTooDeep)

/-! ## Outcomes other than want of room -/

/-- The outcome is no fault for want of room. -/
abbrev HasRoom {α : Type} (x : Except ParseError α) : Prop := FailsOnlyWith (¬ IsTooDeep ·) x

section HasRoom

variable {α : Type}

/-- All other faults come from a rule itself, and not from how far in it is. -/
theorem hasRoom_error {fault : ParseFault} (h : fault ≠ .tooDeeplyNested maxNesting)
    (p : Position) : HasRoom (.error ⟨fault, p⟩ : Except ParseError α) :=
  .error h

/-- If the first outcome is the same unless it is for want of room, and it is not, it is the
same. -/
theorem eq_of_hasRoom {x y : Except ParseError α} (h : HasRoom x)
    (hsame : SameUnless IsTooDeep x y) : x = y := by
  rcases hsame.eq_or with heq | ⟨e, he, hdeep⟩
  · exact heq
  · exact absurd hdeep (h e he)

end HasRoom

/-- The rules have room for `n` lexemes. -/
structure Rules.Roomy (rules : Rules) (n : Nat) : Prop where
  expression : ∀ ts, ts.length ≤ n → HasRoom (rules.expression ts)
  precedence : ∀ least ts, ts.length ≤ n → HasRoom (rules.precedence least ts)
  operators : ∀ least left ts, ts.length ≤ n → HasRoom (rules.operators least left ts)
  unary : ∀ ts, ts.length ≤ n → HasRoom (rules.unary ts)
  calls : ∀ callee ts, ts.length ≤ n → HasRoom (rules.calls callee ts)
  statement : ∀ around ts, ts.length ≤ n → HasRoom (rules.statement around ts)
  declaration : ∀ around ts, ts.length ≤ n → HasRoom (rules.declaration around ts)

/-! ## Single lexemes and lists

What is expected and not there, an item too many and a block that is not closed are faults of other
sorts. A list or a block fails for want of room only if one of its parts does. -/

theorem hasRoom_expect (mark : Symbol) (what : Expectation) (ts : List Lexeme) :
    HasRoom (expect mark what ts) := by
  cases ts with
  | nil => exact hasRoom_error (by simp) _
  | cons l ts =>
    rw [expect]
    split
    · exact .ok _
    · exact hasRoom_error (by simp) _

theorem hasRoom_nameOf (what : Expectation) (ts : List Lexeme) : HasRoom (nameOf what ts) := by
  cases ts with
  | nil => exact hasRoom_error (by simp) _
  | cons l ts =>
    rw [nameOf]
    split
    · exact .ok _
    · exact hasRoom_error (by simp) _

/-- The fault depends on the token, but it is never want of room. -/
theorem hasRoom_unexpected {α : Type} (l : Lexeme) :
    HasRoom (.error (unexpected l) : Except ParseError α) := by
  unfold unexpected
  split <;> exact hasRoom_error (by simp) _

section Lists

variable {n : Nat}

/-- The items have room if one item has, for as many lexemes as are left at first: behind each item
fewer are left. -/
theorem hasRoom_itemsFrom {α : Type} (what : Listing) {item : Rule α}
    (hitem : ∀ ts, ts.length ≤ n → HasRoom (item ts)) (room : Nat) (ts : List Lexeme)
    (hts : ts.length ≤ n) : HasRoom (itemsFrom what item room ts) := by
  induction room generalizing ts with
  | zero => exact hasRoom_error (by simp) _
  | succ room ih =>
    rw [itemsFrom]
    refine (hitem ts hts).bind fun x => ?_
    have hx := x.rest_lt
    -- By what follows the item: nothing, a comma, the closing parenthesis, or something else.
    split
    · exact hasRoom_error (by simp) _
    · next l after hrest =>
      rw [hrest, List.length_cons] at hx
      split
      · exact (ih after (by omega)).bind fun _ => .ok _
      · split
        · exact .ok _
        · exact hasRoom_error (by simp) _

theorem hasRoom_commaSeparated {α : Type} (what : Listing) {item : Rule α}
    (hitem : ∀ ts, ts.length ≤ n → HasRoom (item ts)) (ts : List Lexeme) (hts : ts.length ≤ n) :
    HasRoom (commaSeparated what item ts) := by
  cases ts with
  | nil => exact hasRoom_itemsFrom what hitem maxItems [] hts
  | cons l ts =>
    rw [commaSeparated]
    split
    · exact .ok _
    · exact hasRoom_itemsFrom what hitem maxItems (l :: ts) hts

/-- By induction on the length, since each statement leaves less. -/
theorem hasRoom_blockFrom {declaration : Rule Stmt}
    (hdeclaration : ∀ ts, ts.length ≤ n → HasRoom (declaration ts)) (opening : Position)
    (bound : Nat) (read : List Stmt) (ts : List Lexeme) (fits : ts.length ≤ bound)
    (hts : ts.length ≤ n) : HasRoom (blockFrom declaration opening bound read ts fits) := by
  induction hn : ts.length using Nat.strongRecOn generalizing ts read with
  | ind m ih =>
    rw [blockFrom]
    split
    · exact hasRoom_error (by simp) _
    · next l after hdrop =>
      have hle := length_dropWhile_le isSemicolon ts
      rw [hdrop] at hle
      dsimp only
      split
      · exact .ok _
      · split
        · exact hasRoom_error (by simp) _
        · split
          -- What is wrong with one statement is what is wrong with the block.
          · next e he => exact .error (hdeclaration _ (Nat.le_trans hle hts) e he)
          · next s hs =>
            have hlt := length_rest_lt_of_dropWhile hdrop s
            exact ih _ (hn ▸ hlt) _ _ _ (by omega) rfl

end Lists

/-! ## One level

The rules around others that have room for one lexeme less. They need them only where they go
further in, and then a lexeme has been read; so it is enough if there are such rules when there is a
lexeme at all. -/

section Level

variable {inner : Option Rules} {n : Nat}
variable (hinner : n ≠ 0 → ∃ rules, inner = some rules ∧ rules.Roomy (n - 1))

include hinner

/-- Going one level further in, where at least one lexeme was left. -/
theorem hasRoom_descend {α : Type} {p : Position} {left : List Lexeme}
    {f : Rules → Except ParseError α} (hn : n ≠ 0)
    (hf : ∀ rules : Rules, rules.Roomy (n - 1) → HasRoom (f rules)) :
    HasRoom (descend inner p left >>= f) := by
  obtain ⟨rules, rfl, hrules⟩ := hinner hn
  exact hf rules hrules

theorem hasRoom_primary (ts : List Lexeme) (hts : ts.length ≤ n) : HasRoom (primary inner ts) := by
  cases ts with
  | nil => exact hasRoom_error (by simp) _
  | cons l ts =>
    rw [List.length_cons] at hts
    rw [primary]
    split
    -- Only a parenthesis goes further in, and it has been read by then.
    case h_7 =>
      refine hasRoom_descend hinner (by omega) fun rules hrules => ?_
      refine (hrules.expression ts (by omega)).bind fun e => ?_
      exact (hasRoom_expect _ _ _).bind fun _ => .ok _
    case h_8 => exact hasRoom_unexpected l
    all_goals exact .ok _

/-- An argument list goes further in behind its opening parenthesis, and so does what is called
next. -/
theorem hasRoom_calls (callee : Expr) (ts : List Lexeme) (hts : ts.length ≤ n) :
    HasRoom (calls inner callee ts) := by
  cases ts with
  | nil => exact .ok _
  | cons l ts =>
    rw [List.length_cons] at hts
    rw [calls]
    split
    · refine hasRoom_descend hinner (by omega) fun rules hrules => ?_
      refine (hasRoom_commaSeparated .arguments hrules.expression ts (by omega)).bind
        fun arguments => ?_
      have harguments := arguments.rest_lt
      exact (hrules.calls _ _ (by omega)).bind fun _ => .ok _
    · exact .ok _

/-- An operator in front goes further in for its operand. -/
theorem hasRoom_unary (ts : List Lexeme) (hts : ts.length ≤ n) : HasRoom (unary inner ts) := by
  cases ts with
  | nil => exact hasRoom_error (by simp) _
  | cons l ts =>
    rw [unary]
    split
    · rw [List.length_cons] at hts
      refine hasRoom_descend hinner (by omega) fun rules hrules => ?_
      exact (hrules.unary ts (by omega)).bind fun _ => .ok _
    · refine (hasRoom_primary hinner (l :: ts) hts).bind fun callee => ?_
      have hcallee := callee.rest_lt
      exact (hasRoom_calls hinner _ _ (by omega)).bind fun _ => .ok _

/-- An operator between goes further in for its right operand, and stays there for the operators
behind it: both are counted from the lexeme of the first one. -/
theorem hasRoom_operators (least : Precedence) (left : Expr) (ts : List Lexeme)
    (hts : ts.length ≤ n) : HasRoom (operators inner least left ts) := by
  cases ts with
  | nil => exact .ok _
  | cons l ts =>
    rw [List.length_cons] at hts
    rw [operators]
    split
    · exact .ok _
    · split
      · refine hasRoom_descend hinner (by omega) fun rules hrules => ?_
        refine (hrules.precedence _ ts (by omega)).bind fun right => ?_
        have hright := right.rest_lt
        exact (hrules.operators _ _ _ (by omega)).bind fun _ => .ok _
      · exact .ok _

theorem hasRoom_precedence (least : Precedence) (ts : List Lexeme) (hts : ts.length ≤ n) :
    HasRoom (precedence inner least ts) := by
  rw [precedence]
  refine (hasRoom_unary hinner ts hts).bind fun left => ?_
  have hleft := left.rest_lt
  exact (hasRoom_operators hinner _ _ _ (by omega)).bind fun _ => .ok _

theorem hasRoom_expression (ts : List Lexeme) (hts : ts.length ≤ n) :
    HasRoom (expression inner ts) := by
  rw [expression]
  refine (hasRoom_precedence hinner .or ts hts).bind fun target => ?_
  have htarget := target.rest_lt
  split
  · exact .ok _
  · next l after hrest =>
    rw [hrest, List.length_cons] at htarget
    dsimp only
    -- Only an assignment goes further in, and its left side and the sign have been read by then.
    split
    · refine hasRoom_descend hinner (by omega) fun rules hrules => ?_
      refine (hrules.expression after (by omega)).bind fun value => ?_
      split
      · exact .ok _
      · exact hasRoom_error (by simp) _
    · exact .ok _

theorem hasRoom_statement (around : Surroundings) (ts : List Lexeme) (hts : ts.length ≤ n) :
    HasRoom (statement inner around ts) := by
  cases ts with
  | nil => exact hasRoom_error (by simp) _
  | cons l ts =>
    have hlength := hts
    rw [List.length_cons] at hlength
    have hexpression := hasRoom_expression hinner ts (by omega)
    rw [statement]
    -- By the first token. Where the rule goes further in, this is the lexeme that has been read.
    split
    · exact hexpression.bind fun _ => .ok _
    · refine hasRoom_descend hinner (by omega) fun rules hrules => ?_
      refine (hasRoom_blockFrom (hrules.declaration around) _ _ _ ts _ (by omega)).bind
        fun _ => .ok _
    · refine hexpression.bind fun test => ?_
      have htest := test.rest_lt
      refine hasRoom_descend hinner (by omega) fun rules hrules => ?_
      refine (hrules.statement around _ (by omega)).bind fun yes => ?_
      have hyes := yes.rest_lt
      dsimp only
      -- There may be another branch, which is read on the same level as the first.
      split
      · exact .ok _
      · next hrest =>
        rw [hrest, List.length_cons] at hyes
        split
        · exact (hrules.statement around _ (by omega)).bind fun _ => .ok _
        · exact .ok _
    · refine hexpression.bind fun test => ?_
      have htest := test.rest_lt
      refine hasRoom_descend hinner (by omega) fun rules hrules => ?_
      exact (hrules.statement _ _ (by omega)).bind fun _ => .ok _
    · split
      · exact hasRoom_error (by simp) _
      · split
        · exact .ok _
        · exact hexpression.bind fun _ => .ok _
    · split
      · exact .ok _
      · exact hasRoom_error (by simp) _
    · split
      · exact .ok _
      · exact hasRoom_error (by simp) _
    · exact (hasRoom_expression hinner (l :: ts) hts).bind fun _ => .ok _

theorem hasRoom_functionDeclaration (p : Position) (ts : List Lexeme) (hts : ts.length ≤ n) :
    HasRoom (functionDeclaration inner p ts) := by
  rw [functionDeclaration]
  refine (hasRoom_nameOf _ ts).bind fun name => ?_
  have hname := name.rest_lt
  refine (hasRoom_expect _ _ _).bind fun opening => ?_
  have hopening := opening.rest_lt
  -- Parameters are single names, and need no room at all.
  refine (hasRoom_commaSeparated _ (fun ts (_ : ts.length ≤ n) => hasRoom_nameOf _ ts) _
    (by omega)).bind fun parameters => ?_
  have hparameters := parameters.rest_lt
  split
  · exact hasRoom_error (by simp) _
  · refine (hasRoom_expect _ _ _).bind fun brace => ?_
    have hbrace := brace.rest_lt
    refine hasRoom_descend hinner (by omega) fun rules hrules => ?_
    exact (hasRoom_blockFrom (hrules.declaration _) _ _ _ _ _ (by omega)).bind
      fun _ => .ok _

theorem hasRoom_variableDeclaration (p : Position) (ts : List Lexeme) (hts : ts.length ≤ n) :
    HasRoom (variableDeclaration inner p ts) := by
  rw [variableDeclaration]
  refine (hasRoom_nameOf _ ts).bind fun name => ?_
  have hname := name.rest_lt
  dsimp only
  split
  · exact .ok _
  · next hrest =>
    rw [hrest, List.length_cons] at hname
    split
    · exact (hasRoom_expression hinner _ (by omega)).bind fun _ => .ok _
    · exact .ok _

theorem hasRoom_declaration (around : Surroundings) (ts : List Lexeme) (hts : ts.length ≤ n) :
    HasRoom (declaration inner around ts) := by
  cases ts with
  | nil => exact hasRoom_error (by simp) _
  | cons l ts =>
    have hlength := hts
    rw [List.length_cons] at hlength
    rw [declaration]
    split
    · exact (hasRoom_variableDeclaration hinner _ ts (by omega)).bind fun _ => .ok _
    · exact (hasRoom_functionDeclaration hinner _ ts (by omega)).bind fun _ => .ok _
    · exact hasRoom_statement hinner around (l :: ts) hts

/-- One more level around gives room for one more lexeme. -/
theorem Rules.roomy_around : (Rules.around inner).Roomy n where
  expression := hasRoom_expression hinner
  precedence := hasRoom_precedence hinner
  operators := hasRoom_operators hinner
  unary := hasRoom_unary hinner
  calls := hasRoom_calls hinner
  statement := hasRoom_statement hinner
  declaration := hasRoom_declaration hinner

end Level

/-! ## All levels -/

/-- **As much room as there are lexemes is enough.** By induction on the room: one level further in,
one lexeme less is left. -/
theorem Rules.roomy_withRoom {n room : Nat} (h : n ≤ room) : (Rules.withRoom room).Roomy n := by
  induction room generalizing n with
  | zero => exact roomy_around fun hn => absurd (Nat.le_zero.mp h) hn
  | succ room ih => exact roomy_around fun _ => ⟨_, rfl, ih (by omega)⟩

theorem Rules.limits_of_le {n m : Nat} (h : n ≤ m) :
    (Rules.withRoom n).Limits Eq IsTooDeep (Rules.withRoom m) :=
  Rules.limits_withRoom (fun _ _ => rfl) (fun _ _ => rfl) h

/-- The rules further in, for the one rule that has no entry of its own in `Rules`. -/
theorem Rules.further_limits {n m : Nat} (h : n ≤ m) :
    Rules.LimitsInside Eq IsTooDeep (Rules.further n) (Rules.further m) := by
  cases n with
  | zero => exact .less _ fun _ _ => rfl
  | succ n =>
    obtain ⟨k, rfl⟩ : ∃ k, m = k + 1 := ⟨m - 1, by omega⟩
    exact .room (Rules.limits_of_le (Nat.le_of_succ_le_succ h))

theorem Rules.further_roomy {n room : Nat} (h : n ≤ room) :
    n ≠ 0 → ∃ rules, Rules.further room = some rules ∧ rules.Roomy (n - 1) := by
  intro hn
  obtain ⟨k, rfl⟩ : ∃ k, room = k + 1 := ⟨room - 1, by omega⟩
  exact ⟨_, rfl, Rules.roomy_withRoom (by omega)⟩

/-! ## More room than lexemes -/

/-- With as much room as there are lexemes, or more, there is no want of room, and how much more
makes no difference. -/
def Suffices {α : Type} (rule : Nat → Rule α) : Prop :=
  ∀ ts room, ts.length ≤ room → HasRoom (rule room ts) ∧ rule room ts = rule ts.length ts

/-- A rule that does the same with less room unless there is a want of it, which there is not. -/
theorem suffices_of_same {α : Type} {rule : Nat → Rule α}
    (hroom : ∀ ts room, ts.length ≤ room → HasRoom (rule room ts))
    (hsame : ∀ ts n m, n ≤ m → SameUnless IsTooDeep (rule n ts) (rule m ts)) : Suffices rule := by
  intro ts room hle
  refine ⟨hroom ts room hle, ?_⟩
  -- The exact room is the smaller one, and it suffices already.
  exact (eq_of_hasRoom (hroom ts ts.length (Nat.le_refl _)) (hsame ts _ _ hle)).symm

theorem suffices_declaration (around : Surroundings) :
    Suffices fun room => (Rules.withRoom room).declaration around :=
  suffices_of_same (fun ts _ h => (Rules.roomy_withRoom h).declaration around ts (Nat.le_refl _))
    fun ts _ _ h => (Rules.limits_of_le h).declaration (.refl _ around) ts

theorem suffices_statement (around : Surroundings) :
    Suffices fun room => (Rules.withRoom room).statement around :=
  suffices_of_same (fun ts _ h => (Rules.roomy_withRoom h).statement around ts (Nat.le_refl _))
    fun ts _ _ h => (Rules.limits_of_le h).statement (.refl _ around) ts

theorem suffices_expression : Suffices fun room => (Rules.withRoom room).expression :=
  suffices_of_same (fun ts _ h => (Rules.roomy_withRoom h).expression ts (Nat.le_refl _))
    fun ts _ _ h => (Rules.limits_of_le h).expression ts

theorem suffices_precedence (least : Precedence) :
    Suffices fun room => (Rules.withRoom room).precedence least :=
  suffices_of_same (fun ts _ h => (Rules.roomy_withRoom h).precedence least ts (Nat.le_refl _))
    fun ts _ _ h => (Rules.limits_of_le h).precedence least ts

theorem suffices_unary : Suffices fun room => (Rules.withRoom room).unary :=
  suffices_of_same (fun ts _ h => (Rules.roomy_withRoom h).unary ts (Nat.le_refl _))
    fun ts _ _ h => (Rules.limits_of_le h).unary ts

theorem suffices_primary : Suffices fun room => primary (Rules.further room) :=
  suffices_of_same (fun ts _ h => hasRoom_primary (Rules.further_roomy h) ts (Nat.le_refl _))
    fun ts _ _ h => primary_same (fun _ _ => rfl) (Rules.further_limits h) ts

theorem suffices_block (around : Surroundings) (opening : Position) :
    Suffices fun room => (Rules.withRoom room).block around opening :=
  suffices_of_same
    (fun ts _ h => hasRoom_blockFrom ((Rules.roomy_withRoom h).declaration around) opening _ _ ts _
      (Nat.le_refl _))
    fun ts _ _ h => blockFrom_same (fun _ _ => rfl)
      ((Rules.limits_of_le h).declaration (.refl _ around)) opening _ _ ts _

end Scripting.Grammar
