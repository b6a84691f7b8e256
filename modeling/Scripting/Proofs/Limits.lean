/-
The limit on nesting changes nothing but that it stops.

A rule with less room does what it does with more, or it stops for want of room. The same holds of
what is around a statement: inside of a function or a loop more is allowed, and nothing is read in
another way. Both are said at once, for two runs of the same rule: they have the same
outcome, unless the first one ends in one of the faults that are *excused*. The two runs may even
give reports of different types, as long as the reports of one fault are related; so it is also said
that a rule reads the same whatever its reports are made of.

Where a construct stands is its *context*. One that allows less than another only limits: whatever
is read there, or is wrong for another reason, is read in the same way, or is wrong for the same
reason, in the other. Either way the same lexemes are left.
-/
import Scripting.Proofs.Lossless

set_option autoImplicit false

namespace Scripting.Grammar

/-! ## The same outcome, unless excused -/

/-- The outcomes are alike: the same is read, or the reports are related. Or else the first one is a
report that is excused. -/
inductive Alike {ε ε' : Type} (R : ε → ε' → Prop) (excused : ε → Prop) {α : Type} :
    Except ε α → Except ε' α → Prop
  | ok (a : α) : Alike R excused (.ok a) (.ok a)
  | error {e : ε} {e' : ε'} : R e e' → Alike R excused (.error e) (.error e')
  | excused {e : ε} (y : Except ε' α) : excused e → Alike R excused (.error e) y

/-- The outcomes are the same, unless the first is a report that is excused. -/
abbrev SameUnless {ε : Type} (excused : ε → Prop) {α : Type} (x y : Except ε α) : Prop :=
  Alike Eq excused x y

section Outcomes

variable {ε ε' : Type} {R : ε → ε' → Prop} {excused : ε → Prop} {α β : Type}

theorem Alike.bind {x : Except ε α} {y : Except ε' α} {f : α → Except ε β} {g : α → Except ε' β}
    (h : Alike R excused x y) (hf : ∀ a, Alike R excused (f a) (g a)) :
    Alike R excused (x >>= f) (y >>= g) := by
  cases h with
  | ok a => exact hf a
  | error he => exact .error he
  | excused y he => exact .excused _ he

theorem Alike.refl (x : Except ε α) : SameUnless excused x x := by
  cases x with
  | ok a => exact .ok a
  | error e => exact .error rfl

theorem Alike.eq_or {x y : Except ε α} (h : SameUnless excused x y) :
    x = y ∨ ∃ e, x = .error e ∧ excused e := by
  cases h with
  | ok a => exact .inl rfl
  | error he => exact .inl (congrArg _ he)
  | excused y he => exact .inr ⟨_, rfl, he⟩

/-- With nothing excused, and reports related by a function, the second outcome is a function of the
first. -/
theorem Alike.eq_mapError {f : ε → ε'} {x : Except ε α} {y : Except ε' α}
    (h : Alike (fun e e' => f e = e') (fun _ => False) x y) : y = x.mapError f := by
  cases h with
  | ok a => rfl
  | error he => exact congrArg _ he.symm
  | excused y hfalse => exact hfalse.elim

end Outcomes

/-- Where the first surroundings allow less than the second, the report of it is excused. -/
structure Surroundings.Limits {ε : Type} [Report ε] (excused : ε → Prop) (s s' : Surroundings) :
    Prop where
  inFunction : s.inFunction = s'.inFunction ∨
    s.inFunction = false ∧ ∀ p left, excused (Report.of ⟨.returnOutsideFunction, p⟩ left)
  inLoop : s.inLoop = s'.inLoop ∨
    s.inLoop = false ∧ ∀ word p left, excused (Report.of ⟨.loopControlOutsideLoop word, p⟩ left)

section Limits

variable {ε ε' : Type} [Report ε] (R : ε → ε' → Prop) (excused : ε → Prop)

/-- Rules of which the first do what the second do, unless excused. -/
structure Rules.Limits (rules : Rules ε) (rules' : Rules ε') : Prop where
  expression : ∀ ts, Alike R excused (rules.expression ts) (rules'.expression ts)
  precedence : ∀ least ts,
    Alike R excused (rules.precedence least ts) (rules'.precedence least ts)
  operators : ∀ least left ts,
    Alike R excused (rules.operators least left ts) (rules'.operators least left ts)
  unary : ∀ ts, Alike R excused (rules.unary ts) (rules'.unary ts)
  calls : ∀ callee ts, Alike R excused (rules.calls callee ts) (rules'.calls callee ts)
  statement : ∀ {around around'}, around.Limits excused around' →
    ∀ ts, Alike R excused (rules.statement around ts) (rules'.statement around' ts)
  declaration : ∀ {around around'}, around.Limits excused around' →
    ∀ ts, Alike R excused (rules.declaration around ts) (rules'.declaration around' ts)

/-- The same of the rules one level further in, if there is room for them. -/
inductive Rules.LimitsInside : Option (Rules ε) → Option (Rules ε') → Prop
  | room {rules : Rules ε} {rules' : Rules ε'} : rules.Limits R excused rules' →
      LimitsInside (some rules) (some rules')
  | full : LimitsInside none none
  /-- There is room in the second run only. -/
  | less (inner' : Option (Rules ε')) :
      (∀ p left, excused (Report.of ⟨.tooDeeplyNested maxNesting, p⟩ left)) →
      LimitsInside none inner'

theorem Surroundings.Limits.refl (s : Surroundings) : s.Limits excused s := ⟨.inl rfl, .inl rfl⟩

variable {excused}

theorem Surroundings.Limits.loopBody {s s' : Surroundings} (h : s.Limits excused s') :
    s.loopBody.Limits excused s'.loopBody := ⟨h.inFunction, .inl rfl⟩

end Limits

/-! ## One level -/

section Level

variable {ε ε' : Type} [Report ε] [Report ε'] {R : ε → ε' → Prop} {excused : ε → Prop}

theorem blockFrom_same (hR : ∀ e left, R (Report.of e left) (Report.of e left))
    {declaration : Rule Stmt ε} {declaration' : Rule Stmt ε'}
    (hdeclaration : ∀ ts, Alike R excused (declaration ts) (declaration' ts))
    (opening : Position) (bound : Nat) (read : List Stmt) (ts : List Lexeme)
    (fits : ts.length ≤ bound) :
    Alike R excused (blockFrom declaration opening bound read ts fits)
      (blockFrom declaration' opening bound read ts fits) := by
  induction hn : ts.length using Nat.strongRecOn generalizing ts read with
  | ind n ih =>
    rw [blockFrom, blockFrom]
    split
    · exact .error (hR _ _)
    · next l after hdrop =>
      dsimp only
      split
      · exact .ok _
      · split
        · exact .error (hR _ _)
        · -- Only here can the two runs differ: the stops above are found in the lexemes alone.
          have halike := hdeclaration (l :: after)
          generalize declaration (l :: after) = x at halike ⊢
          generalize declaration' (l :: after) = y at halike ⊢
          cases halike with
          | ok s => exact ih _ (hn ▸ length_rest_lt_of_dropWhile hdrop s) _ _ _ rfl
          | error he => exact .error he
          | excused y he => exact .excused _ he

omit [Report ε] [Report ε'] in
theorem programFrom_same {declaration : Rule Stmt ε} {declaration' : Rule Stmt ε'}
    (hdeclaration : ∀ ts, Alike R excused (declaration ts) (declaration' ts))
    (read : List Stmt) (ts : List Lexeme) :
    Alike R excused (programFrom declaration read ts) (programFrom declaration' read ts) := by
  induction hn : ts.length using Nat.strongRecOn generalizing ts read with
  | ind n ih =>
    rw [programFrom, programFrom]
    split
    · exact .ok _
    · next l after hdrop =>
      split
      · exact .ok _
      · have halike := hdeclaration (l :: after)
        generalize declaration (l :: after) = x at halike ⊢
        generalize declaration' (l :: after) = y at halike ⊢
        cases halike with
        | ok s => exact ih _ (hn ▸ length_rest_lt_of_dropWhile hdrop s) _ _ rfl
        | error he => exact .error he
        | excused y he => exact .excused _ he

variable (hR : ∀ e left, R (Report.of e left) (Report.of e left))

include hR

theorem expect_same (mark : Symbol) (what : Expectation) (ts : List Lexeme) :
    Alike R excused (expect mark what ts) (expect mark what ts) := by
  cases ts with
  | nil => exact .error (hR _ _)
  | cons l ts =>
    rw [expect, expect]
    split
    · exact .ok _
    · exact .error (hR _ _)

theorem nameOf_same (what : Expectation) (ts : List Lexeme) :
    Alike R excused (nameOf what ts) (nameOf what ts) := by
  cases ts with
  | nil => exact .error (hR _ _)
  | cons l ts =>
    rw [nameOf, nameOf]
    split
    · exact .ok _
    · exact .error (hR _ _)

theorem itemsFrom_same {α : Type} (what : Listing) {item : Rule α ε} {item' : Rule α ε'}
    (hitem : ∀ ts, Alike R excused (item ts) (item' ts)) (room : Nat) (ts : List Lexeme) :
    Alike R excused (itemsFrom what item room ts) (itemsFrom what item' room ts) := by
  induction room generalizing ts with
  | zero => exact .error (hR _ _)
  | succ room ih =>
    rw [itemsFrom, itemsFrom]
    refine (hitem ts).bind fun x => ?_
    split
    · exact .error (hR _ _)
    · split
      · exact (ih _).bind fun _ => .ok _
      · split
        · exact .ok _
        · exact .error (hR _ _)

theorem commaSeparated_same {α : Type} (what : Listing) {item : Rule α ε} {item' : Rule α ε'}
    (hitem : ∀ ts, Alike R excused (item ts) (item' ts)) (ts : List Lexeme) :
    Alike R excused (commaSeparated what item ts) (commaSeparated what item' ts) := by
  cases ts with
  | nil => exact itemsFrom_same hR what hitem maxItems []
  | cons l ts =>
    rw [commaSeparated, commaSeparated]
    split
    · exact .ok _
    · exact itemsFrom_same hR what hitem maxItems (l :: ts)

variable {inner : Option (Rules ε)} {inner' : Option (Rules ε')}
variable (hinner : Rules.LimitsInside R excused inner inner')

include hinner

/-- Going one level further in: with no room in the first run only, the report is excused. -/
theorem descend_same {α : Type} {p : Position} {left : List Lexeme} {f : Rules ε → Except ε α}
    {g : Rules ε' → Except ε' α}
    (h : ∀ rules rules', rules.Limits R excused rules' → Alike R excused (f rules) (g rules')) :
    Alike R excused (descend inner p left >>= f) (descend inner' p left >>= g) := by
  cases hinner with
  | room hlimits => exact h _ _ hlimits
  | full => exact .error (hR _ _)
  | less inner' hdeep => exact .excused _ (hdeep p left)

theorem primary_same (ts : List Lexeme) :
    Alike R excused (primary inner ts) (primary inner' ts) := by
  cases ts with
  | nil => exact .error (hR _ _)
  | cons l ts =>
    rw [primary, primary]
    split
    case h_7 =>
      refine descend_same hR hinner fun rules rules' hlimits => ?_
      refine (hlimits.expression ts).bind fun e => ?_
      exact (expect_same hR _ _ _).bind fun _ => .ok _
    case h_8 => exact .error (hR _ _)
    all_goals exact .ok _

theorem calls_same (callee : Expr) (ts : List Lexeme) :
    Alike R excused (calls inner callee ts) (calls inner' callee ts) := by
  cases ts with
  | nil => exact .ok _
  | cons l ts =>
    rw [calls, calls]
    split
    · refine descend_same hR hinner fun rules rules' hlimits => ?_
      refine (commaSeparated_same hR .arguments hlimits.expression ts).bind fun arguments => ?_
      exact (hlimits.calls _ _).bind fun _ => .ok _
    · exact .ok _

theorem unary_same (ts : List Lexeme) :
    Alike R excused (unary inner ts) (unary inner' ts) := by
  cases ts with
  | nil => exact .error (hR _ _)
  | cons l ts =>
    rw [unary, unary]
    split
    · refine descend_same hR hinner fun rules rules' hlimits => ?_
      exact (hlimits.unary ts).bind fun _ => .ok _
    · refine (primary_same hR hinner (l :: ts)).bind fun callee => ?_
      exact (calls_same hR hinner _ _).bind fun _ => .ok _

theorem operators_same (least : Precedence) (left : Expr) (ts : List Lexeme) :
    Alike R excused (operators inner least left ts) (operators inner' least left ts) := by
  cases ts with
  | nil => exact .ok _
  | cons l ts =>
    rw [operators, operators]
    split
    · exact .ok _
    · split
      · refine descend_same hR hinner fun rules rules' hlimits => ?_
        refine (hlimits.precedence _ ts).bind fun right => ?_
        exact (hlimits.operators _ _ _).bind fun _ => .ok _
      · exact .ok _

theorem precedence_same (least : Precedence) (ts : List Lexeme) :
    Alike R excused (precedence inner least ts) (precedence inner' least ts) := by
  rw [precedence, precedence]
  refine (unary_same hR hinner ts).bind fun left => ?_
  exact (operators_same hR hinner _ _ _).bind fun _ => .ok _

theorem expression_same (ts : List Lexeme) :
    Alike R excused (expression inner ts) (expression inner' ts) := by
  rw [expression, expression]
  refine (precedence_same hR hinner .or ts).bind fun target => ?_
  split
  · exact .ok _
  · split
    · refine descend_same hR hinner fun rules rules' hlimits => ?_
      refine (hlimits.expression _).bind fun value => ?_
      split
      · exact .ok _
      · exact .error (hR _ _)
    · exact .ok _

theorem statement_same {around around' : Surroundings} (haround : around.Limits excused around')
    (ts : List Lexeme) :
    Alike R excused (statement inner around ts) (statement inner' around' ts) := by
  cases ts with
  | nil => exact .error (hR _ _)
  | cons l ts =>
    rw [statement, statement]
    split
    · exact (expression_same hR hinner ts).bind fun _ => .ok _
    · refine descend_same hR hinner fun rules rules' hlimits => ?_
      exact (blockFrom_same hR (hlimits.declaration haround) _ _ _ _ _).bind fun _ => .ok _
    · refine (expression_same hR hinner ts).bind fun test => ?_
      refine descend_same hR hinner fun rules rules' hlimits => ?_
      refine (hlimits.statement haround _).bind fun yes => ?_
      split
      · exact .ok _
      · split
        · exact (hlimits.statement haround _).bind fun _ => .ok _
        · exact .ok _
    · refine (expression_same hR hinner ts).bind fun test => ?_
      refine descend_same hR hinner fun rules rules' hlimits => ?_
      exact (hlimits.statement haround.loopBody _).bind fun _ => .ok _
    -- The surroundings are asked only by `return`, `break` and `continue`.
    · rcases haround.inFunction with hin | ⟨hin, hexcused⟩
      · rw [hin]
        split
        · exact .error (hR _ _)
        · split
          · exact .ok _
          · exact (expression_same hR hinner ts).bind fun _ => .ok _
      · rw [hin]
        exact .excused _ (hexcused _ _)
    · rcases haround.inLoop with hin | ⟨hin, hexcused⟩
      · rw [hin]
        split
        · exact .ok _
        · exact .error (hR _ _)
      · rw [hin]
        exact .excused _ (hexcused _ _ _)
    · rcases haround.inLoop with hin | ⟨hin, hexcused⟩
      · rw [hin]
        split
        · exact .ok _
        · exact .error (hR _ _)
      · rw [hin]
        exact .excused _ (hexcused _ _ _)
    · exact (expression_same hR hinner (l :: ts)).bind fun _ => .ok _

theorem functionDeclaration_same (p : Position) (ts : List Lexeme) :
    Alike R excused (functionDeclaration inner p ts) (functionDeclaration inner' p ts) := by
  rw [functionDeclaration, functionDeclaration]
  refine (nameOf_same hR _ _).bind fun name => (expect_same hR _ _ _).bind fun opening => ?_
  refine (commaSeparated_same hR _ (nameOf_same hR _) _).bind fun parameters => ?_
  split
  · exact .error (hR _ _)
  · refine (expect_same hR _ _ _).bind fun brace => ?_
    refine descend_same hR hinner fun rules rules' hlimits => ?_
    exact (blockFrom_same hR (hlimits.declaration (.refl _ _)) _ _ _ _ _).bind fun _ => .ok _

theorem variableDeclaration_same (p : Position) (ts : List Lexeme) :
    Alike R excused (variableDeclaration inner p ts) (variableDeclaration inner' p ts) := by
  rw [variableDeclaration, variableDeclaration]
  refine (nameOf_same hR _ _).bind fun name => ?_
  dsimp only
  split
  · exact .ok _
  · split
    · exact (expression_same hR hinner _).bind fun _ => .ok _
    · exact .ok _

theorem declaration_same {around around' : Surroundings} (haround : around.Limits excused around')
    (ts : List Lexeme) :
    Alike R excused (declaration inner around ts) (declaration inner' around' ts) := by
  cases ts with
  | nil => exact .error (hR _ _)
  | cons l ts =>
    rw [declaration, declaration]
    split
    · exact (variableDeclaration_same hR hinner _ ts).bind fun _ => .ok _
    · exact (functionDeclaration_same hR hinner _ ts).bind fun _ => .ok _
    · exact statement_same hR hinner haround (l :: ts)

theorem Rules.limits_around :
    (Rules.around inner).Limits R excused (Rules.around inner') where
  expression := expression_same hR hinner
  precedence := precedence_same hR hinner
  operators := operators_same hR hinner
  unary := unary_same hR hinner
  calls := calls_same hR hinner
  statement := statement_same hR hinner
  declaration := declaration_same hR hinner

end Level

/-! ## All levels -/

section AllLevels

variable {ε ε' : Type} [Report ε] [Report ε'] {R : ε → ε' → Prop} {excused : ε → Prop}
variable (hR : ∀ e left, R (Report.of e left) (Report.of e left))

include hR

/-- **Room only limits.** With less room, every rule does what it does with more, unless it stops
for want of room. -/
theorem Rules.limits_withRoom
    (hdeep : ∀ p left, excused (Report.of ⟨.tooDeeplyNested maxNesting, p⟩ left)) {n m : Nat}
    (hle : n ≤ m) : (Rules.withRoom n ε).Limits R excused (Rules.withRoom m ε') := by
  -- The rules with some room are made from the rules with one level less, on both sides.
  induction n generalizing m with
  | zero => cases m <;> exact limits_around hR (.less _ hdeep)
  | succ n ih =>
    obtain ⟨m, rfl⟩ : ∃ k, m = k + 1 := ⟨m - 1, by omega⟩
    exact limits_around hR (.room (ih (Nat.le_of_succ_le_succ hle)))

/-- **With the same room the reports make no difference** to what a rule reads. -/
theorem Rules.limits_reports (room : Nat) :
    (Rules.withRoom room ε).Limits R (fun _ => False) (Rules.withRoom room ε') := by
  induction room with
  | zero => exact limits_around hR .full
  | succ room ih => exact limits_around hR (.room ih)

end AllLevels

/-! ## Contexts -/

/-- The constructs that have a rule of their own. -/
inductive Construct where
  | precedence (least : Precedence)
  | expression
  | statement
  | declaration
  /-- What is left of a block behind its opening brace. -/
  | block (opening : Position)

/-- What a construct is read as. -/
def Construct.Tree : Construct → Type
  | .precedence _ | .expression => Expr
  | .statement | .declaration => Stmt
  | .block _ => List Stmt

/-- Where a construct stands: inside of so many levels, and with what around it. -/
structure Context where
  depth : Nat
  around : Surroundings

namespace Context

/-- Read a construct in a context. -/
def read (c : Context) (k : Construct) (ts : List Lexeme) (ε : Type := ParseError) [Report ε] :
    Except ε (Parsed k.Tree ts.length) :=
  match k with
  | .precedence least => (Rules.atDepth c.depth ε).precedence least ts
  | .expression => (Rules.atDepth c.depth ε).expression ts
  | .statement => (Rules.atDepth c.depth ε).statement c.around ts
  | .declaration => (Rules.atDepth c.depth ε).declaration c.around ts
  | .block opening => (Rules.atDepth c.depth ε).block c.around opening ts

/-- The second context allows whatever the first one does. -/
structure Within (c c' : Context) : Prop where
  depth : c'.depth ≤ c.depth
  inFunction : c.around.inFunction = true → c'.around.inFunction = true
  inLoop : c.around.inLoop = true → c'.around.inLoop = true

end Context

/-- The faults of a construct that its context does not allow. -/
def OfContext : ParseFault → Prop
  | .tooDeeplyNested _ | .returnOutsideFunction | .loopControlOutsideLoop _ => True
  | _ => False

section Read

variable {ε ε' : Type} [Report ε] [Report ε'] {R : ε → ε' → Prop} {excused : ε → Prop}
variable (hR : ∀ e left, R (Report.of e left) (Report.of e left))

include hR

/-- What limits all rules and the surroundings limits the reading of a construct. -/
theorem Context.read_alike {c c' : Context}
    (hrules : (Rules.atDepth c.depth ε).Limits R excused (Rules.atDepth c'.depth ε'))
    (haround : c.around.Limits excused c'.around) (k : Construct) (ts : List Lexeme) :
    Alike R excused (c.read k ts ε) (c'.read k ts ε') := by
  cases k with
  | precedence least => exact hrules.precedence least ts
  | expression => exact hrules.expression ts
  | statement => exact hrules.statement haround ts
  | declaration => exact hrules.declaration haround ts
  | block opening => exact blockFrom_same hR (hrules.declaration haround) opening _ _ ts _

end Read

/-- Surroundings that allow less only limit. -/
theorem Context.Within.surroundings {c c' : Context} (h : c.Within c') :
    c.around.Limits (fun r : Refusal => OfContext r.error.fault) c'.around where
  inFunction := by
    cases hin : c.around.inFunction with
    | false => exact .inr ⟨rfl, fun _ _ => trivial⟩
    | true => exact .inl (h.inFunction hin).symm
  inLoop := by
    cases hin : c.around.inLoop with
    | false => exact .inr ⟨rfl, fun _ _ _ => trivial⟩
    | true => exact .inl (h.inLoop hin).symm

/-- Reading a construct in a context that allows less has the same outcome, also as to what is left
where it fails, unless the context does not allow it. -/
theorem Context.Within.read_same {c c' : Context} (h : c.Within c') (k : Construct)
    (ts : List Lexeme) :
    SameUnless (fun r : Refusal => OfContext r.error.fault) (c.read k ts Refusal)
      (c'.read k ts Refusal) := by
  refine Context.read_alike (fun _ _ => rfl) ?_ h.surroundings k ts
  exact Rules.limits_withRoom (fun _ _ => rfl) (fun _ _ => trivial)
    (Nat.sub_le_sub_left h.depth maxNesting)

/-- A report that keeps what is left has the same fault as one that does not. -/
theorem Context.read_eq_mapError (c : Context) (k : Construct) (ts : List Lexeme) :
    c.read k ts = (c.read k ts Refusal).mapError (·.error) := by
  have halike : Alike (fun (r : Refusal) e => r.error = e) (fun _ => False) (c.read k ts Refusal)
      (c.read k ts) := by
    refine Context.read_alike (fun _ _ => ?_) (Rules.limits_reports (fun _ _ => ?_) _)
      (.refl _ _) k ts
    all_goals rfl
  exact halike.eq_mapError

/-- **Nesting only limits.** Take two contexts of which the second is at most as deep, and inside of
a function and of a loop if the first one is. If a construct is read in the first, or is wrong
there for a reason that is not the context, it has the same outcome in the second: the same tree or
the same error, and either way the same lexemes left. What is left where a construct is wrong is
kept in a report of type `Refusal`, and apart from that the reports are the same. -/
theorem nesting_only_limits {c c' : Context} (h : c.Within c') (k : Construct) (ts : List Lexeme)
    (hcontext : ∀ e, c.read k ts = .error e → ¬ OfContext e.fault) :
    c'.read k ts = c.read k ts ∧ c'.read k ts Refusal = c.read k ts Refusal ∧
      c.read k ts = (c.read k ts Refusal).mapError (·.error) := by
  have hsame : c'.read k ts Refusal = c.read k ts Refusal := by
    rcases (h.read_same k ts).eq_or with heq | ⟨r, hr, hexcused⟩
    · exact heq.symm
    · -- An excused report is a fault of the context, and the plain reading has the same one.
      refine absurd hexcused (hcontext r.error ?_)
      rw [c.read_eq_mapError, hr]
      rfl
  refine ⟨?_, hsame, c.read_eq_mapError k ts⟩
  rw [c.read_eq_mapError, c'.read_eq_mapError, hsame]

/-- `while a if b break else f() = 1 }`, and more. -/
def loopTokens : List Token :=
  [.keyword .while_, .identifier "a", .keyword .if_, .identifier "b", .keyword .break_,
    .keyword .else_, .identifier "f", .symbol .leftParen, .symbol .rightParen, .symbol .equals,
    .number 1, .symbol .rightBrace]

/-- A loop that takes the last three levels brings its own surroundings for the `break`, and the
call in it cannot be assigned to in any context. That is found out when its right side has been
read, so the brace is left. -/
theorem loopTokens_only_limits :
    let c : Context := ⟨997, .outermost⟩
    let c' : Context := ⟨5, ⟨true, true⟩⟩
    c.Within c' ∧
      c'.read .declaration (inLines [loopTokens]) = .error ⟨.invalidAssignmentTarget, ⟨1, 8⟩⟩ ∧
      c'.read .declaration (inLines [loopTokens]) Refusal
        = .error ⟨⟨.invalidAssignmentTarget, ⟨1, 8⟩⟩, (inLines [loopTokens]).drop 11⟩ := by
  intro c c'
  have hwithin : c.Within c' := ⟨by decide, fun _ => rfl, fun _ => rfl⟩
  have hread : c.read .declaration (inLines [loopTokens])
      = .error ⟨.invalidAssignmentTarget, ⟨1, 8⟩⟩ := rfl
  have hrefusal : c.read .declaration (inLines [loopTokens]) Refusal
      = .error ⟨⟨.invalidAssignmentTarget, ⟨1, 8⟩⟩, (inLines [loopTokens]).drop 11⟩ := rfl
  obtain ⟨hsame, hleft, -⟩ := nesting_only_limits hwithin .declaration (inLines [loopTokens])
    fun e he => by
      rw [hread] at he
      cases he
      exact id
  exact ⟨hwithin, hsame.trans hread, hleft.trans hrefusal⟩

end Scripting.Grammar
