/-
One loop for all operators, or one for each level.

The rules read the operators that follow an operand in one loop: it takes every operator that binds
at least as tightly as asked for, and reads for it a right operand that binds more tightly. The
*layered* grammar has one loop for each level of binding instead: an expression of a level is one of
the next tighter level, followed by any number of operators of the level itself, each with an
operand of the next tighter level. It knows no limit on nesting, so it recurses on what is left to
read.

Both come to the same. Behind an expression of a level no operator of that level or a tighter one
comes next (`ended_of_level`), so an operator can be taken by one level only, and after its right
operand all levels up to the one asked for may go on as if they had just begun (`finish_operator`).
That is what the one loop does.
-/
import Scripting.Proofs.Limits
import Scripting.Proofs.Lossless

set_option autoImplicit false

namespace Scripting.Grammar

/-! ## Bounds on what is left -/

namespace Parsed

variable {α β : Type} {n : Nat}

theorem rest_lt_of_tail (first : Parsed α n) (more : Parsed β (first.rest.length + 1)) :
    more.rest.length < n := by
  have := first.rest_lt
  have := more.rest_lt
  omega

theorem rest_lt_of_behind (l : Lexeme) {ts : List Lexeme} (first : Parsed α ts.length)
    (more : Parsed β (first.rest.length + 1)) : more.rest.length < (l :: ts).length + 1 := by
  have := first.rest_lt_of_tail more
  rw [List.length_cons]
  omega

theorem length_lt_of_rest_eq (first : Parsed α n) {l : Lexeme} {after : List Lexeme}
    (h : first.rest = l :: after) : after.length < n := by
  have := first.rest_lt
  rw [h, List.length_cons] at this
  omega

end Parsed

/-! ## The layered grammar -/

namespace Layered

mutual

/-- An expression whose loosest operators are of level `p`: one of the next tighter level, and then
any number of operators of level `p`, each with an operand of the next tighter level. -/
def level (p : Precedence) (ts : List Lexeme) : Except ParseError (Parsed Expr ts.length) :=
  if _h : p = .unary then unary ts
  else do
    let left ← level p.next ts
    let more ← chain p left.value left.rest
    .ok ⟨more.value, more.rest, left.rest_lt_of_tail more⟩
termination_by (ts.length, 8 - p.rank)
decreasing_by
  · subst _h; simp [Precedence.rank, Prod.lex_def]
  · cases p <;> first | exact absurd rfl _h | simp [Precedence.rank, Precedence.next, Prod.lex_def]
  · have := left.rest_lt; simp [Prod.lex_def]; omega

/-- The operators of level `p` that follow an operand. What has been read is the left operand of
the next operator. -/
def chain (p : Precedence) (left : Expr) (ts : List Lexeme) :
    Except ParseError (Parsed Expr (ts.length + 1)) :=
  match ts with
  | [] => .ok ⟨left, [], by simp⟩
  | l :: ts =>
    match BinaryOperator.ofToken? l.token with
    | none => .ok ⟨left, l :: ts, by simp⟩
    | some op =>
      if op.precedence = p then do
        let right ← level p.next ts
        let more ← chain p (.binary op left right.value l.position) right.rest
        .ok ⟨more.value, more.rest, right.rest_lt_of_behind l more⟩
      else .ok ⟨left, l :: ts, by simp⟩
termination_by (ts.length, 0)
decreasing_by
  · simp [Prod.lex_def]
  · have := right.rest_lt; simp [Prod.lex_def]; omega

/-- Unary operators, and what they apply to. -/
def unary (ts : List Lexeme) : Except ParseError (Parsed Expr ts.length) :=
  match ts with
  | [] => .error ranOut
  | l :: ts =>
    match UnaryOperator.ofToken? l.token with
    | some op => do
      let operand ← unary ts
      .ok ⟨.unary op operand.value l.position, operand.rest, Nat.lt_succ_of_lt operand.rest_lt⟩
    | none => do
      let callee ← primary (l :: ts)
      let more ← calls callee.value callee.rest
      .ok ⟨more.value, more.rest, callee.rest_lt_of_tail more⟩
termination_by (ts.length, 1)
decreasing_by
  · simp [Prod.lex_def]
  · simp [Prod.lex_def]
  · have := callee.rest_lt; simp [Prod.lex_def] at *; omega

/-- Literals, names and groups. -/
def primary (ts : List Lexeme) : Except ParseError (Parsed Expr ts.length) :=
  match ts with
  | [] => .error ranOut
  | l :: ts =>
    match l.token with
    | .number x => .ok ⟨.literal (.number x) l.position, ts, by simp⟩
    | .string s => .ok ⟨.literal (.string s) l.position, ts, by simp⟩
    | .keyword .true_ => .ok ⟨.literal (.bool true) l.position, ts, by simp⟩
    | .keyword .false_ => .ok ⟨.literal (.bool false) l.position, ts, by simp⟩
    | .keyword .nil_ => .ok ⟨.literal .nil l.position, ts, by simp⟩
    | .identifier name => .ok ⟨.var name l.position, ts, by simp⟩
    | .symbol .leftParen => do
      let e ← expression ts
      let close ← expect .rightParen .closingParen e.rest
      .ok ⟨.group e.value l.position, close.rest,
        Nat.lt_succ_of_lt (Nat.lt_trans close.rest_lt e.rest_lt)⟩
    | _ => .error (unexpected l)
termination_by (ts.length, 0)
decreasing_by
  · simp [Prod.lex_def]

/-- The calls that follow a callee. -/
def calls (callee : Expr) (ts : List Lexeme) : Except ParseError (Parsed Expr (ts.length + 1)) :=
  match ts with
  | [] => .ok ⟨callee, [], by simp⟩
  | l :: ts =>
    if l.token = .symbol .leftParen then do
      let arguments ← arguments ts
      let more ← calls (.call callee arguments.value l.position) arguments.rest
      .ok ⟨more.value, more.rest, arguments.rest_lt_of_behind l more⟩
    else .ok ⟨callee, l :: ts, by simp⟩
termination_by (ts.length, 0)
decreasing_by
  · simp [Prod.lex_def]
  · have := arguments.rest_lt; simp [Prod.lex_def]; omega

/-- The arguments of a call whose opening parenthesis has been read. -/
def arguments (ts : List Lexeme) : Except ParseError (Parsed (List Expr) ts.length) :=
  match ts with
  | [] => items maxItems []
  | l :: ts =>
    if l.token = .symbol .rightParen then .ok ⟨[], ts, by simp⟩ else items maxItems (l :: ts)
termination_by (ts.length, 11)
decreasing_by
  · simp [Prod.lex_def]
  · simp [Prod.lex_def]

/-- At least one and at most `room` arguments, up to the closing parenthesis. -/
def items (room : Nat) (ts : List Lexeme) : Except ParseError (Parsed (List Expr) ts.length) :=
  match room with
  | 0 => .error ⟨.tooManyItems .arguments maxItems, nextPosition ts⟩
  | room + 1 => do
    let x ← expression ts
    match h : x.rest with
    | [] => .error ranOut
    | l :: after =>
      if l.token = .symbol .comma then
        let more ← items room after
        .ok ⟨x.value :: more.value, more.rest,
          Nat.lt_trans more.rest_lt (x.length_lt_of_rest_eq h)⟩
      else if l.token = .symbol .rightParen then
        .ok ⟨[x.value], after, x.length_lt_of_rest_eq h⟩
      else .error ⟨.expectedToken .commaOrParen l.token, l.position⟩
termination_by (ts.length, 10)
decreasing_by
  · simp [Prod.lex_def]
  · simp [Prod.lex_def, x.length_lt_of_rest_eq h]

/-- An expression. -/
def expression (ts : List Lexeme) : Except ParseError (Parsed Expr ts.length) := do
  let target ← level .or ts
  match h : target.rest with
  | [] => .ok ⟨target.value, [], h ▸ target.rest_lt⟩
  | l :: after =>
    if l.token = .symbol .equals then do
      let value ← expression after
      match target.value with
      | .var name _ =>
        .ok ⟨.assign name value.value l.position, value.rest,
          Nat.lt_trans value.rest_lt (target.length_lt_of_rest_eq h)⟩
      | other => .error ⟨.invalidAssignmentTarget, other.position⟩
    else .ok ⟨target.value, l :: after, h ▸ target.rest_lt⟩
termination_by (ts.length, 9)
decreasing_by
  · simp [Prod.lex_def, Precedence.rank]
  · simp [Prod.lex_def, target.length_lt_of_rest_eq h]

end

/-! ## Outcomes -/

section Outcome

variable {α β : Type} {bound bound' : Nat}

/-- What a rule has come to: what it has read and what is left, or the error. -/
def outcome (x : Except ParseError (Parsed α bound)) : Except ParseError (α × List Lexeme) :=
  x.map fun y => (y.value, y.rest)

theorem outcome_inj {x y : Except ParseError (Parsed α bound)} (h : outcome x = outcome y) :
    x = y := by
  cases x <;> cases y <;> simp only [outcome, Except.map, Except.error.injEq, Except.ok.injEq,
    Prod.mk.injEq, reduceCtorEq] at h
  · rw [h]
  · next x y =>
    obtain ⟨value, rest, hx⟩ := x
    obtain ⟨value', rest', hy⟩ := y
    obtain ⟨rfl, rfl⟩ := h
    rfl

/-- A rule that goes on with another one where it has got to. -/
theorem outcome_bind (x : Except ParseError (Parsed α bound))
    (f : Parsed α bound → Except ParseError (Parsed β bound'))
    (g : α × List Lexeme → Except ParseError (β × List Lexeme))
    (h : ∀ y, outcome (f y) = g (y.value, y.rest)) : outcome (x >>= f) = outcome x >>= g := by
  cases x with
  | error e => rfl
  | ok y => exact h y

theorem outcome_descend (inner : Option Rules) (p : Position) (left : List Lexeme)
    (f : Rules → Except ParseError (Parsed α bound)) :
    outcome (descend inner p left >>= f) =
      descend inner p left >>= fun rules => outcome (f rules) := by
  cases inner <;> rfl

/-- What is left is shorter than the bound. -/
theorem length_lt_of_outcome {x : Except ParseError (Parsed α bound)} {v : α} {rest : List Lexeme}
    (h : outcome x = .ok (v, rest)) : rest.length < bound := by
  cases x with
  | error e => cases h
  | ok y =>
    cases h
    exact y.rest_lt

/-- Outcomes are the same, unless excused, exactly if what the rules return is. -/
theorem sameUnless_outcome {excused : ParseError → Prop}
    {x y : Except ParseError (Parsed α bound)} :
    SameUnless excused (outcome x) (outcome y) ↔ SameUnless excused x y := by
  constructor
  · intro h
    rcases h.eq_or with heq | ⟨e, he, hexcused⟩
    · rw [outcome_inj heq]
      exact .refl _
    · cases x with
      | ok a => cases he
      | error e' =>
        cases he
        exact .excused _ hexcused
  · intro h
    rcases h.eq_or with rfl | ⟨e, rfl, hexcused⟩
    · exact .refl _
    · exact .excused _ hexcused

end Outcome

/-! ## Levels -/

/-- From the tightest level to the loosest. -/
theorem levelInduction {motive : Precedence → Prop} (unary : motive .unary)
    (looser : ∀ p, p ≠ .unary → motive p.next → motive p) (p : Precedence) : motive p := by
  have h5 := looser .multiplicative (by decide) unary
  have h4 := looser .additive (by decide) h5
  have h3 := looser .relational (by decide) h4
  have h2 := looser .equality (by decide) h3
  have h1 := looser .and (by decide) h2
  have h0 := looser .or (by decide) h1
  cases p <;> assumption

theorem le_iff_eq_or_next_le {p q : Precedence} (hp : p ≠ .unary) :
    p ≤ q ↔ q = p ∨ p.next ≤ q := by
  revert hp
  cases p <;> cases q <;> decide

theorem not_unary_le (op : BinaryOperator) : ¬ Precedence.unary ≤ op.precedence := by
  cases op <;> decide

theorem not_next_le {p : Precedence} (hp : p ≠ .unary) : ¬ p.next ≤ p := by
  revert hp
  cases p <;> decide

/-- No operator of level `p` or tighter comes next. -/
def Ended (p : Precedence) (ts : List Lexeme) : Prop :=
  ∀ op, nextOperator? ts = some op → ¬ p ≤ op.precedence

theorem ended_iff {p : Precedence} (hp : p ≠ .unary) {ts : List Lexeme} :
    Ended p ts ↔ (∀ op, nextOperator? ts = some op → op.precedence ≠ p) ∧ Ended p.next ts := by
  unfold Ended
  simp only [le_iff_eq_or_next_le hp, not_or]
  exact ⟨fun h => ⟨fun op hop => (h op hop).1, fun op hop => (h op hop).2⟩,
    fun h op hop => ⟨h.1 op hop, h.2 op hop⟩⟩

/-! ## One level -/

section Level

variable {p : Precedence} {left : Expr} {ts : List Lexeme}

theorem outcome_level (hp : p ≠ .unary) :
    outcome (level p ts) = outcome (level p.next ts) >>= fun r => outcome (chain p r.1 r.2) := by
  rw [level, dif_neg hp]
  refine outcome_bind _ _ _ fun y => ?_
  cases chain p y.value y.rest <;> rfl

/-- Where no operator of the level comes next, nothing is taken. -/
theorem outcome_chain_of_ne (h : ∀ op, nextOperator? ts = some op → op.precedence ≠ p) :
    outcome (chain p left ts) = .ok (left, ts) := by
  cases ts with
  | nil =>
    rw [chain]
    rfl
  | cons l ts =>
    rw [chain]
    split
    · rfl
    · next op hop =>
      rw [if_neg (h op hop)]
      rfl

/-- An operator of the level is taken with its right operand, and the chain goes on behind it. -/
theorem outcome_chain_cons {l : Lexeme} {op : BinaryOperator}
    (hop : BinaryOperator.ofToken? l.token = some op) :
    outcome (chain op.precedence left (l :: ts))
      = outcome (level op.precedence.next ts) >>= fun r =>
          outcome (chain op.precedence (.binary op left r.1 l.position) r.2) := by
  rw [chain]
  split
  · next hnone => rw [hop] at hnone; cases hnone
  · next op' hop' =>
    rw [hop] at hop'
    cases hop'
    rw [if_pos rfl]
    refine outcome_bind _ _ _ fun y => ?_
    dsimp only
    cases chain op.precedence (.binary op left y.value l.position) y.rest <;> rfl

end Level

/-! ## All levels at once -/

/-- Go on after an operand with the operators of level `p` and tighter, one level after the other,
the tightest first. -/
def finish (p : Precedence) (left : Expr) (ts : List Lexeme) :
    Except ParseError (Expr × List Lexeme) :=
  if p = .unary then .ok (left, ts)
  else finish p.next left ts >>= fun r => outcome (chain p r.1 r.2)
termination_by 6 - p.rank
decreasing_by cases p <;> simp_all [Precedence.rank, Precedence.next]

section Finish

variable {p : Precedence} {left e : Expr} {ts rest : List Lexeme}

theorem finish_unary : finish .unary left ts = .ok (left, ts) := by
  rw [finish, if_pos rfl]

theorem finish_looser (hp : p ≠ .unary) :
    finish p left ts = finish p.next left ts >>= fun r => outcome (chain p r.1 r.2) := by
  rw [finish, if_neg hp]

/-- An expression of some level is an operand, and what follows it on all levels up to that one. -/
theorem outcome_level_eq_finish (p : Precedence) (ts : List Lexeme) :
    outcome (level p ts) = outcome (unary ts) >>= fun r => finish p r.1 r.2 := by
  induction p using levelInduction with
  | unary =>
    rw [level, dif_pos rfl]
    simp only [finish_unary]
    exact (bind_pure (outcome (unary ts))).symm
  | looser p hp ih =>
    rw [outcome_level hp, ih, bind_assoc]
    simp only [finish_looser hp]

/-- Where no operator of the level or a tighter one comes next, nothing is taken. -/
theorem finish_of_ended (h : Ended p ts) : finish p left ts = .ok (left, ts) := by
  induction p using levelInduction with
  | unary => exact finish_unary
  | looser p hp ih =>
    obtain ⟨hne, htighter⟩ := (ended_iff hp).mp h
    rw [finish_looser hp, ih htighter]
    exact outcome_chain_of_ne hne

/-- Behind a chain no operator of its level or a tighter one comes next, if no tighter one came next
in front of it. -/
theorem ended_of_chain (hp : p ≠ .unary)
    (hlevel : ∀ ts e rest, outcome (level p.next ts) = .ok (e, rest) → Ended p.next rest)
    (hstart : Ended p.next ts) (h : outcome (chain p left ts) = .ok (e, rest)) : Ended p rest := by
  induction hn : ts.length using Nat.strongRecOn generalizing ts left with
  | ind n ih =>
    by_cases hnext : ∃ op, nextOperator? ts = some op ∧ op.precedence = p
    · obtain ⟨op, hop, rfl⟩ := hnext
      cases ts with
      | nil => cases hop
      | cons l ts =>
        rw [outcome_chain_cons hop] at h
        obtain ⟨⟨right, after⟩, hright, hmore⟩ := bind_eq_ok h
        have hshorter := length_lt_of_outcome hright
        exact ih _ (by rw [← hn, List.length_cons]; omega) (hlevel _ _ _ hright) hmore rfl
    · have hne : ∀ op, nextOperator? ts = some op → op.precedence ≠ p :=
        fun op hop heq => hnext ⟨op, hop, heq⟩
      rw [outcome_chain_of_ne hne] at h
      cases h
      exact (ended_iff hp).mpr ⟨hne, hstart⟩

/-- **Behind an expression of some level no operator of that level or a tighter one comes next.** -/
theorem ended_of_level (h : outcome (level p ts) = .ok (e, rest)) : Ended p rest := by
  induction p using levelInduction generalizing ts e rest with
  | unary => exact fun op _ => not_unary_le op
  | looser p hp ih =>
    rw [outcome_level hp] at h
    obtain ⟨⟨left, after⟩, hleft, hmore⟩ := bind_eq_ok h
    exact ended_of_chain hp (fun _ _ _ => ih) (ih hleft) hmore

/-- **An operator of any of the levels is taken with its right operand**, which is of the next
tighter level, and then all levels go on behind it. -/
theorem finish_operator {l : Lexeme} {op : BinaryOperator}
    (hop : BinaryOperator.ofToken? l.token = some op) (hle : p ≤ op.precedence) :
    finish p left (l :: ts) = outcome (level op.precedence.next ts) >>= fun r =>
      finish p (.binary op left r.1 l.position) r.2 := by
  induction p using levelInduction with
  | unary => exact absurd hle (not_unary_le op)
  | looser p hp ih =>
    rw [finish_looser hp]
    rcases (le_iff_eq_or_next_le hp).mp hle with rfl | htighter
    · -- The tighter levels pass the operator by; behind its right operand they find nothing.
      have hended : Ended op.precedence.next (l :: ts) := by
        intro op' hop'
        rw [nextOperator?_cons, hop] at hop'
        cases hop'
        exact not_next_le hp
      rw [finish_of_ended hended]
      refine (outcome_chain_cons hop).trans (bind_congr_of_ok fun r hr => ?_)
      rw [finish_looser hp, finish_of_ended (ended_of_level hr)]
      rfl
    · -- A tighter level takes the operator, and this one comes after it.
      rw [ih htighter, bind_assoc]
      simp only [finish_looser hp]

end Finish

/-! ## With a limit -/

/-- The only errors that are excused. -/
def IsTooDeep (error : ParseError) : Prop := error.fault = .tooDeeplyNested maxNesting

/-- The arguments of a call are a list of expressions. -/
theorem items_eq (room : Nat) (ts : List Lexeme) :
    items room ts = itemsFrom .arguments expression room ts := by
  induction room generalizing ts with
  | zero => rw [items, itemsFrom, report_parseError]
  | succ room ih =>
    have hrest : items room = itemsFrom .arguments expression room := funext ih
    rw [items, itemsFrom]
    generalize items room = rest at hrest ⊢
    subst hrest
    rfl

theorem arguments_eq (ts : List Lexeme) :
    arguments ts = commaSeparated .arguments expression ts := by
  cases ts with
  | nil => rw [arguments, commaSeparated, items_eq]
  | cons l ts => rw [arguments, commaSeparated, items_eq]

/-- Rules that read expressions as the layered ones do, unless there is too little room. -/
structure Limits (rules : Rules) : Prop where
  expression : ∀ ts, SameUnless IsTooDeep (rules.expression ts) (expression ts)
  precedence : ∀ least ts, SameUnless IsTooDeep (rules.precedence least ts) (level least ts)
  operators : ∀ least left ts,
    SameUnless IsTooDeep (outcome (rules.operators least left ts)) (finish least left ts)
  unary : ∀ ts, SameUnless IsTooDeep (rules.unary ts) (unary ts)
  calls : ∀ callee ts, SameUnless IsTooDeep (rules.calls callee ts) (calls callee ts)

section Limits

variable {inner : Option Rules} (hinner : ∀ rules, inner = some rules → Limits rules)

include hinner

theorem descend_same {α : Type} {p : Position} {left : List Lexeme}
    {f : Rules → Except ParseError α} {y : Except ParseError α}
    (h : ∀ rules, Limits rules → SameUnless IsTooDeep (f rules) y) :
    SameUnless IsTooDeep (descend inner p left >>= f) y := by
  cases hsome : inner with
  | none => exact .excused y rfl
  | some rules => exact h rules (hinner rules hsome)

theorem primary_same (ts : List Lexeme) :
    SameUnless IsTooDeep (Grammar.primary inner ts) (primary ts) := by
  cases ts with
  | nil =>
    rw [primary]
    exact .refl _
  | cons l ts =>
    rw [Grammar.primary, primary]
    cases l.token with
    | symbol mark =>
      cases mark with
      | leftParen =>
        refine descend_same hinner fun rules hlimits => ?_
        exact (hlimits.expression ts).bind fun _ => .refl _
      | _ => exact .refl _
    | keyword word => cases word <;> exact .refl _
    | _ => exact .refl _

theorem calls_same (callee : Expr) (ts : List Lexeme) :
    SameUnless IsTooDeep (Grammar.calls inner callee ts) (calls callee ts) := by
  cases ts with
  | nil =>
    rw [calls]
    exact .refl _
  | cons l ts =>
    rw [Grammar.calls, calls]
    split
    · refine descend_same hinner fun rules hlimits => ?_
      rw [arguments_eq]
      refine (commaSeparated_same (fun _ _ => rfl) .arguments hlimits.expression ts).bind
        fun arguments => ?_
      exact (hlimits.calls _ _).bind fun _ => .refl _
    · exact .refl _

theorem unary_same (ts : List Lexeme) :
    SameUnless IsTooDeep (Grammar.unary inner ts) (unary ts) := by
  cases ts with
  | nil =>
    rw [unary]
    exact .refl _
  | cons l ts =>
    rw [Grammar.unary, unary]
    cases UnaryOperator.ofToken? l.token with
    | some op =>
      refine descend_same hinner fun rules hlimits => ?_
      exact (hlimits.unary ts).bind fun _ => .refl _
    | none =>
      refine (primary_same hinner (l :: ts)).bind fun callee => ?_
      exact (calls_same hinner _ _).bind fun _ => .refl _

/-- **One loop over all operators does what one loop for each level does.** -/
theorem operators_same (least : Precedence) (left : Expr) (ts : List Lexeme) :
    SameUnless IsTooDeep (outcome (Grammar.operators inner least left ts))
      (finish least left ts) := by
  cases ts with
  | nil =>
    rw [finish_of_ended fun op hop => by cases hop]
    exact .refl _
  | cons l ts =>
    rw [Grammar.operators]
    cases hop : BinaryOperator.ofToken? l.token with
    | none =>
      rw [finish_of_ended fun op hop' => by rw [nextOperator?_cons, hop] at hop'; cases hop']
      exact .refl _
    | some op =>
      dsimp only
      by_cases hle : least ≤ op.precedence
      · rw [if_pos hle, finish_operator hop hle, outcome_descend]
        refine descend_same hinner fun rules hlimits => ?_
        rw [outcome_bind _ _ fun r => outcome (rules.operators least
          (.binary op left r.1 l.position) r.2)]
        · refine (sameUnless_outcome.mpr (hlimits.precedence _ ts)).bind fun r => ?_
          exact hlimits.operators _ _ _
        · intro right
          dsimp only
          cases rules.operators least (.binary op left right.value l.position) right.rest <;> rfl
      · have hended : Ended least (l :: ts) := by
          intro op' hop'
          rw [nextOperator?_cons, hop] at hop'
          cases hop'
          exact hle
        rw [if_neg hle, finish_of_ended hended]
        exact .refl _

theorem precedence_same (least : Precedence) (ts : List Lexeme) :
    SameUnless IsTooDeep (Grammar.precedence inner least ts) (level least ts) := by
  rw [← sameUnless_outcome, outcome_level_eq_finish, Grammar.precedence,
    outcome_bind _ _ fun r => outcome (Grammar.operators inner least r.1 r.2)]
  · refine (sameUnless_outcome.mpr (unary_same hinner ts)).bind fun r => ?_
    exact operators_same hinner _ _ _
  · intro left
    dsimp only
    cases Grammar.operators inner least left.value left.rest <;> rfl

theorem expression_same (ts : List Lexeme) :
    SameUnless IsTooDeep (Grammar.expression inner ts) (expression ts) := by
  rw [Grammar.expression, expression]
  refine (precedence_same hinner .or ts).bind fun target => ?_
  obtain ⟨value, rest, hlt⟩ := target
  cases rest with
  | nil => exact .refl _
  | cons l after =>
    dsimp only
    split
    · refine descend_same hinner fun rules hlimits => ?_
      refine (hlimits.expression _).bind fun _ => ?_
      cases value <;> exact .refl _
    · exact .refl _

theorem limits_around : Limits (Rules.around inner) where
  expression := expression_same hinner
  precedence := precedence_same hinner
  operators := operators_same hinner
  unary := unary_same hinner
  calls := calls_same hinner

end Limits

theorem limits_withRoom (room : Nat) : Limits (Rules.withRoom room) := by
  induction room with
  | zero => exact limits_around fun rules h => by cases h
  | succ room ih => exact limits_around fun rules h => by cases h; exact ih

end Layered

/-- The operators of an expression are read as by the layered grammar: at every depth and for every
least level, unless the nesting gets too deep, the result is the same tree with the same lexemes
left, or the same error. -/
theorem precedence_eq_level (depth : Nat) (least : Precedence) (ts : List Lexeme)
    (h : ∀ limit p,
      (Rules.atDepth depth).precedence least ts ≠ .error ⟨.tooDeeplyNested limit, p⟩) :
    (Rules.atDepth depth).precedence least ts = Layered.level least ts := by
  have hsame := (Layered.limits_withRoom (maxNesting - depth)).precedence least ts
  rcases hsame.eq_or with heq | ⟨⟨fault, p⟩, he, rfl⟩
  · exact heq
  · exact absurd he (h _ p)

/-- `a - b * f(c) - -d < e or g` with a parenthesis behind it. -/
def mixedTokens : List Token :=
  [.identifier "a", .symbol .minus, .identifier "b", .symbol .star, .identifier "f",
    .symbol .leftParen, .identifier "c", .symbol .rightParen, .symbol .minus, .symbol .minus,
    .identifier "d", .symbol .less, .identifier "e", .keyword .or_, .identifier "g",
    .symbol .rightParen]

/-- The tree of `mixedTokens` up to `or`. -/
def mixedTree : Expr :=
  .binary .less
    (.binary .subtract
      (.binary .subtract (.var "a" ⟨1, 1⟩)
        (.binary .multiply (.var "b" ⟨1, 3⟩)
          (.call (.var "f" ⟨1, 5⟩) [.var "c" ⟨1, 7⟩] ⟨1, 6⟩) ⟨1, 4⟩) ⟨1, 2⟩)
      (.unary .negate (.var "d" ⟨1, 11⟩) ⟨1, 10⟩) ⟨1, 9⟩)
    (.var "e" ⟨1, 13⟩) ⟨1, 12⟩

/-- There is room for `mixedTokens` six levels below the limit, and the tree ends in front of
`or`. -/
theorem mixedTokens_eq_level :
    (∀ limit p, (Rules.atDepth 994).precedence .equality (inLines [mixedTokens]) ≠
        .error ⟨.tooDeeplyNested limit, p⟩) ∧
      (Rules.atDepth 994).precedence .equality (inLines [mixedTokens]) =
        Layered.level .equality (inLines [mixedTokens]) ∧
      Yields (Layered.level .equality (inLines [mixedTokens])) mixedTree
        ((inLines [mixedTokens]).drop 13) := by
  have hread : Yields ((Rules.atDepth 994).precedence .equality (inLines [mixedTokens])) mixedTree
      ((inLines [mixedTokens]).drop 13) := ⟨_, rfl, rfl, rfl⟩
  have hroom : ∀ limit p, (Rules.atDepth 994).precedence .equality (inLines [mixedTokens]) ≠
      .error ⟨.tooDeeplyNested limit, p⟩ := by
    intro limit p h
    rw [h] at hread
    exact not_yields_error hread
  have heq := precedence_eq_level 994 .equality (inLines [mixedTokens]) hroom
  exact ⟨hroom, heq, heq ▸ hread⟩

end Scripting.Grammar
