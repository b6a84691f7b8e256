/-
How far the rules look.

What a rule reads depends on the lexemes that it takes and on the one that comes next, and on
nothing after that. Nor does it depend much on the one that comes next: no rule goes on with a
semicolon or with the end of the input, so either of them may take its place. Nor does a rule take a
semicolon last. A rule is *local* in this sense, if the rules one level further in are.
-/
import Scripting.Proofs.Relocation

set_option autoImplicit false

namespace Scripting

namespace Grammar

/-! ## What comes next -/

/-- The second list may take the place of the first behind whatever has stopped there: the same
lexeme comes next, or one that nothing goes on with. -/
def Swaps (rest rest' : List Lexeme) : Prop := rest'.head? = rest.head? ∨ Stops rest'

section Swaps

variable {rest rest' taken : List Lexeme}

/-- Further in front the lists begin the same. -/
theorem Swaps.append (h : Swaps rest rest') (taken : List Lexeme) :
    Swaps (taken ++ rest) (taken ++ rest') := by
  cases taken with
  | nil => exact h
  | cons l taken => exact .inl rfl

theorem swaps_cons (l : Lexeme) (rest rest' : List Lexeme) : Swaps (l :: rest) (l :: rest') :=
  .inl rfl

/-- A token that is no end does not come next if it did not before. -/
theorem Swaps.next?_ne (h : Swaps rest rest') {t : Token} (hsemicolon : t ≠ .symbol .semicolon)
    (hend : t ≠ .endOfInput) (hne : next? rest ≠ some t) : next? rest' ≠ some t := by
  rcases h with h | h | h
  · rwa [next?, h]
  · rw [h]
    exact fun heq => hsemicolon (Option.some.inj heq).symm
  · rw [h]
    exact fun heq => hend (Option.some.inj heq).symm

/-- An operator that comes next came next before. -/
theorem Swaps.nextOperator? (h : Swaps rest rest') {op : BinaryOperator}
    (hop : Grammar.nextOperator? rest' = some op) : Grammar.nextOperator? rest = some op := by
  unfold Grammar.nextOperator? at hop ⊢
  rcases h with h | h | h
  · rwa [next?, h] at hop
  · rw [h] at hop
    cases hop
  · rw [h] at hop
    cases hop

/-- A `return` without a value stays without one. -/
theorem Swaps.returnsNothing (h : Swaps rest rest') {p : Position}
    (hnothing : returnsNothing p rest = true) : Grammar.returnsNothing p rest' = true := by
  cases rest' with
  | nil => rfl
  | cons l rest' =>
    rcases h with h | h | h
    · cases rest with
      | nil => cases h
      | cons l' rest =>
        cases h
        exact hnothing
    · rw [next?_cons, Option.some.injEq] at h
      simp [Grammar.returnsNothing, h]
    · rw [next?_cons, Option.some.injEq] at h
      simp [Grammar.returnsNothing, h]

/-- What is not empty decides what comes next, whatever is behind it. -/
theorem head?_append_of_ne_nil (h : taken ≠ []) (rest rest' : List Lexeme) :
    (taken ++ rest').head? = (taken ++ rest).head? := by
  cases taken with
  | nil => exact absurd rfl h
  | cons l taken => rfl

theorem next?_append_of_ne_nil (h : taken ≠ []) (rest rest' : List Lexeme) :
    next? (taken ++ rest') = next? (taken ++ rest) :=
  congrArg (·.map (·.token)) (head?_append_of_ne_nil h rest rest')

theorem returnsNothing_append_of_ne_nil (h : taken ≠ []) (rest rest' : List Lexeme)
    (p : Position) : returnsNothing p (taken ++ rest') = returnsNothing p (taken ++ rest) := by
  cases taken with
  | nil => exact absurd rfl h
  | cons l taken => rfl

end Swaps

/-- The semicolons in front of a lexeme, whatever is behind it. -/
theorem exists_of_dropWhile {ts after : List Lexeme} {l : Lexeme}
    (h : ts.dropWhile isSemicolon = l :: after) :
    ∃ semicolons, ts = semicolons ++ l :: after ∧
      ∀ more, (semicolons ++ l :: more).dropWhile isSemicolon = l :: more := by
  induction ts with
  | nil => cases h
  | cons l' ts ih =>
    rw [List.dropWhile_cons] at h
    split at h
    · next hl' =>
      obtain ⟨semicolons, rfl, hdrop⟩ := ih h
      refine ⟨l' :: semicolons, rfl, fun more => ?_⟩
      rw [List.cons_append, List.dropWhile_cons_of_pos hl', hdrop]
    · next hl' =>
      cases h
      exact ⟨[], rfl, fun more => List.dropWhile_cons_of_neg hl'⟩

/-! ## What comes last -/

/-- The last of the lexemes is no semicolon. -/
def Trimmed (taken : List Lexeme) : Prop := ∀ l, taken.getLast? = some l → isSemicolon l = false

theorem trimmed_nil : Trimmed [] := by
  intro l hl
  cases hl

theorem trimmed_singleton {l : Lexeme} {t : Token} (hl : l.token = t)
    (ht : t ≠ .symbol .semicolon) : Trimmed [l] := by
  intro l' hl'
  cases hl'
  exact decide_eq_false (hl ▸ ht)

theorem Trimmed.append {taken more : List Lexeme} (h : Trimmed taken) (h' : Trimmed more) :
    Trimmed (taken ++ more) := by
  intro l hl
  rw [List.getLast?_append, Option.or_eq_some_iff] at hl
  rcases hl with hl | ⟨-, hl⟩
  · exact h' l hl
  · exact h l hl

/-- What is in front of something does not matter. -/
theorem Trimmed.behind {more : List Lexeme} (h : Trimmed more) (hne : more ≠ [])
    (taken : List Lexeme) : Trimmed (taken ++ more) := by
  intro l hl
  rw [List.getLast?_append_of_ne_nil taken hne] at hl
  exact h l hl

/-! ## Locality -/

/-- What is read is taken from the front, up to a lexeme that is no semicolon, and it is read in the
same way with something else left. -/
def Local {α : Type} (read : List Lexeme → α → List Lexeme → Prop) : Prop :=
  ∀ ⦃ts : List Lexeme⦄ ⦃v : α⦄ ⦃rest : List Lexeme⦄, read ts v rest →
    ∃ taken, ts = taken ++ rest ∧ Trimmed taken ∧
      ∀ rest', Swaps rest rest' → read (taken ++ rest') v rest'

/-- The rules at one level look no further than to the next lexeme. -/
structure Rules.AllLocal (rules : Rules) : Prop where
  expression : Local fun ts => Yields (rules.expression ts)
  precedence (least : Precedence) : Local fun ts => Yields (rules.precedence least ts)
  operators (least : Precedence) (left : Expr) :
    Local fun ts => Yields (rules.operators least left ts)
  unary : Local fun ts => Yields (rules.unary ts)
  calls (callee : Expr) : Local fun ts => Yields (rules.calls callee ts)
  statement (around : Surroundings) : Local fun ts => Yields (rules.statement around ts)
  declaration (around : Surroundings) : Local fun ts => Yields (rules.declaration around ts)

/-- A rule takes something. -/
theorem taken_ne_nil {α : Type} {rule : Rule α} {v : α} {taken rest : List Lexeme}
    (h : Yields (rule (taken ++ rest)) v rest) : taken ≠ [] := by
  obtain ⟨y, -, -, hrest⟩ := h
  rintro rfl
  have hlt := y.rest_lt
  rw [hrest, List.nil_append] at hlt
  exact Nat.lt_irrefl _ hlt

section Lists

variable {α : Type} {item : Rule α} (hitem : Local fun ts => Yields (item ts))

include hitem

theorem itemsRead_local : Local (ItemsRead item) := by
  intro ts xs rest h
  induction h with
  | @last ts x l rest hx hl =>
    obtain ⟨taken, rfl, -, hx'⟩ := hitem hx
    refine ⟨taken ++ [l], by simp, (trimmed_singleton hl (by simp)).behind (by simp) taken,
      fun rest' _ => ?_⟩
    rw [List.append_assoc]
    exact .last (hx' _ (swaps_cons l rest rest')) hl
  | @more ts x l after xs rest hx hl _ ih =>
    obtain ⟨taken, rfl, ht, hx'⟩ := hitem hx
    obtain ⟨more, rfl, hm, hmore⟩ := ih
    refine ⟨taken ++ ([l] ++ more), by simp,
      ht.append ((trimmed_singleton hl (by simp)).append hm), fun rest' hs => ?_⟩
    rw [List.append_assoc, List.append_assoc]
    exact .more (hx' _ (swaps_cons l _ _)) hl (hmore rest' hs)

theorem listRead_local : Local (ListRead item) := by
  intro ts xs rest h
  cases h with
  | none hl => exact ⟨[_], rfl, trimmed_singleton hl (by simp), fun rest' _ => .none hl⟩
  | some hnext hitems =>
    obtain ⟨taken, rfl, ht, hitems'⟩ := itemsRead_local hitem hitems
    have hne : taken ≠ [] := taken_ne_nil (hitems.yields .arguments (Nat.le_refl _))
    refine ⟨taken, rfl, ht, fun rest' hs => .some ?_ (hitems' rest' hs)⟩
    rwa [next?_append_of_ne_nil hne rest]

end Lists

theorem blockRead_local {declaration : Rule Stmt}
    (hdeclaration : Local fun ts => Yields (declaration ts)) : Local (BlockRead declaration) := by
  intro ts body rest h
  suffices ∃ taken, ts = taken ++ rest ∧ taken ≠ [] ∧ Trimmed taken ∧ ∀ rest', Swaps rest rest' →
      BlockRead declaration (taken ++ rest') body rest' by
    obtain ⟨taken, hts, -, h'⟩ := this
    exact ⟨taken, hts, h'⟩
  induction h with
  | @close ts l rest hdrop hl =>
    obtain ⟨semicolons, rfl, hdrop'⟩ := exists_of_dropWhile hdrop
    refine ⟨semicolons ++ [l], by simp, by simp,
      (trimmed_singleton hl (by simp)).behind (by simp) semicolons, fun rest' _ => ?_⟩
    rw [List.append_assoc]
    exact .close (hdrop' rest') hl
  | @more ts l after s mid body rest hdrop hbrace hend hs _ ih =>
    obtain ⟨semicolons, rfl, hdrop'⟩ := exists_of_dropWhile hdrop
    obtain ⟨taken, htaken, -, hs'⟩ := hdeclaration hs
    obtain ⟨more, rfl, hne, hm, hmore⟩ := ih
    -- The declaration begins with the lexeme behind the semicolons.
    rw [htaken] at hs
    obtain ⟨l', taken, rfl⟩ := List.exists_cons_of_ne_nil (taken_ne_nil hs)
    cases htaken
    refine ⟨semicolons ++ l :: taken ++ more, by simp, by simp, hm.behind hne _,
      fun rest' hswap => ?_⟩
    have hread := hs' _ (hswap.append more)
    rw [List.append_assoc, List.append_assoc, List.cons_append]
    exact .more (hdrop' _) hbrace hend hread (hmore rest' hswap)

/-! ## One level -/

section Level

variable {inner : Option Rules} (hinner : ∀ rules, inner = some rules → rules.AllLocal)

include hinner

theorem primaryRead_local : Local (PrimaryRead inner) := by
  intro ts e rest h
  cases h with
  | @literal l rest v hl =>
    refine ⟨[l], rfl, trimmed_singleton hl ?_, fun rest' _ => .literal hl⟩
    cases v with
    | bool b => cases b <;> simp [Literal.token]
    | number x | string x | nil => simp [Literal.token]
  | var hl => exact ⟨[_], rfl, trimmed_singleton hl (by simp), fun rest' _ => .var hl⟩
  | @group l ts rules e close rest hl hrules he hclose =>
    obtain ⟨taken, rfl, -, he'⟩ := (hinner _ hrules).expression he
    refine ⟨l :: taken ++ [close], by simp,
      (trimmed_singleton hclose (by simp)).behind (by simp) _, fun rest' _ => ?_⟩
    rw [List.append_assoc, List.cons_append]
    exact .group hl hrules (he' _ (swaps_cons close rest rest')) hclose

theorem callsRead_local (callee : Expr) : Local (CallsRead inner callee) := by
  intro ts e rest h
  cases h with
  | done hnext =>
    exact ⟨[], rfl, trimmed_nil, fun rest' hs => .done (hs.next?_ne (by simp) (by simp) hnext)⟩
  | @call l ts rules arguments after e rest hl hrules harguments hlen hmore =>
    obtain ⟨taken, rfl, ht, harguments'⟩ := listRead_local (hinner _ hrules).expression harguments
    obtain ⟨more, rfl, hm, hmore'⟩ := (hinner _ hrules).calls _ hmore
    refine ⟨[l] ++ (taken ++ more), by simp,
      (trimmed_singleton hl (by simp)).append (ht.append hm), fun rest' hs => ?_⟩
    rw [List.append_assoc, List.append_assoc]
    exact .call hl hrules (harguments' _ (hs.append more)) hlen (hmore' rest' hs)

theorem unaryRead_local : Local (UnaryRead inner) := by
  intro ts e rest h
  cases h with
  | @operator l ts op rules e rest hop hrules he =>
    obtain ⟨taken, rfl, ht, he'⟩ := (hinner _ hrules).unary he
    exact ⟨[l] ++ taken, rfl, ht.behind (taken_ne_nil he) [l],
      fun rest' hs => .operator hop hrules (he' rest' hs)⟩
  | calls hcallee hcalls =>
    obtain ⟨taken, rfl, ht, hcallee'⟩ := primaryRead_local hinner hcallee
    obtain ⟨more, rfl, hm, hcalls'⟩ := callsRead_local hinner _ hcalls
    refine ⟨taken ++ more, by simp, ht.append hm, fun rest' hs => ?_⟩
    rw [List.append_assoc]
    exact .calls (hcallee' _ (hs.append more)) (hcalls' rest' hs)

theorem operatorsRead_local (least : Precedence) (left : Expr) :
    Local (OperatorsRead inner least left) := by
  intro ts e rest h
  cases h with
  | done hstop =>
    exact ⟨[], rfl, trimmed_nil,
      fun rest' hs => .done fun op hop => hstop op (hs.nextOperator? hop)⟩
  | @operator l ts op rules right after e rest hop hle hrules hright hmore =>
    obtain ⟨taken, rfl, ht, hright'⟩ := (hinner _ hrules).precedence _ hright
    obtain ⟨more, rfl, hm, hmore'⟩ := (hinner _ hrules).operators _ _ hmore
    refine ⟨[l] ++ taken ++ more, by simp, (ht.behind (taken_ne_nil hright) [l]).append hm,
      fun rest' hs => ?_⟩
    rw [List.append_assoc, List.append_assoc]
    exact .operator hop hle hrules (hright' _ (hs.append more)) (hmore' rest' hs)

theorem precedenceRead_local (least : Precedence) : Local (PrecedenceRead inner least) := by
  rintro ts e rest ⟨hleft, hmore⟩
  obtain ⟨taken, rfl, ht, hleft'⟩ := unaryRead_local hinner hleft
  obtain ⟨more, rfl, hm, hmore'⟩ := operatorsRead_local hinner _ _ hmore
  refine ⟨taken ++ more, by simp, ht.append hm, fun rest' hs => ?_⟩
  rw [List.append_assoc]
  exact .intro (hleft' _ (hs.append more)) (hmore' rest' hs)

theorem expressionRead_local : Local (ExpressionRead inner) := by
  intro ts e rest h
  cases h with
  | plain he hnext =>
    obtain ⟨taken, rfl, ht, he'⟩ := precedenceRead_local hinner _ he
    exact ⟨taken, rfl, ht,
      fun rest' hs => .plain (he' rest' hs) (hs.next?_ne (by simp) (by simp) hnext)⟩
  | @assign after _ name p l rules e htarget hl hrules he =>
    obtain ⟨taken, rfl, -, htarget'⟩ := precedenceRead_local hinner _ htarget
    obtain ⟨more, rfl, hm, he'⟩ := (hinner _ hrules).expression he
    refine ⟨taken ++ [l] ++ more, by simp, hm.behind (taken_ne_nil he) _, fun rest' hs => ?_⟩
    rw [List.append_assoc, List.append_assoc]
    exact .assign (htarget' _ (swaps_cons l _ _)) hl hrules (he' rest' hs)

theorem statementRead_local (around : Surroundings) : Local (StatementRead inner around) := by
  intro ts s rest h
  cases h with
  | @print l ts rest e hl he =>
    obtain ⟨taken, rfl, ht, he'⟩ := expressionRead_local hinner he
    exact ⟨[l] ++ taken, rfl, ht.behind (taken_ne_nil he.yields) [l],
      fun rest' hs => .print hl (he' rest' hs)⟩
  | @block l ts rest rules body hl hrules hbody =>
    obtain ⟨taken, rfl, ht, hbody'⟩ := blockRead_local ((hinner _ hrules).declaration around) hbody
    exact ⟨[l] ++ taken, rfl, (trimmed_singleton hl (by simp)).append ht,
      fun rest' hs => .block hl hrules (hbody' rest' hs)⟩
  | @cond l ts after rest test rules yes hl htest hrules hyes hnext =>
    obtain ⟨taken, rfl, -, htest'⟩ := expressionRead_local hinner htest
    obtain ⟨more, rfl, hm, hyes'⟩ := (hinner _ hrules).statement around hyes
    refine ⟨l :: taken ++ more, by simp, hm.behind (taken_ne_nil hyes) _, fun rest' hs => ?_⟩
    rw [List.append_assoc, List.cons_append]
    exact .cond hl (htest' _ (hs.append more)) hrules (hyes' rest' hs)
      (hs.next?_ne (by simp) (by simp) hnext)
  | @condElse l other ts after between rest test rules yes no hl htest hrules hyes hother hno =>
    obtain ⟨taken, rfl, -, htest'⟩ := expressionRead_local hinner htest
    obtain ⟨more, rfl, -, hyes'⟩ := (hinner _ hrules).statement around hyes
    obtain ⟨last, rfl, hl', hno'⟩ := (hinner _ hrules).statement around hno
    refine ⟨l :: taken ++ (more ++ [other]) ++ last, by simp, hl'.behind (taken_ne_nil hno) _,
      fun rest' hs => ?_⟩
    rw [List.append_assoc, List.append_assoc, List.append_assoc, List.cons_append]
    exact .condElse hl (htest' _ ((swaps_cons other _ _).append more)) hrules
      (hyes' _ (swaps_cons other _ _)) hother (hno' rest' hs)
  | @loop l ts after rest test rules body hl htest hrules hbody =>
    obtain ⟨taken, rfl, -, htest'⟩ := expressionRead_local hinner htest
    obtain ⟨more, rfl, hm, hbody'⟩ := (hinner _ hrules).statement around.loopBody hbody
    refine ⟨l :: taken ++ more, by simp, hm.behind (taken_ne_nil hbody) _, fun rest' hs => ?_⟩
    rw [List.append_assoc, List.cons_append]
    exact .loop hl (htest' _ (hs.append more)) hrules (hbody' rest' hs)
  | @returnNothing l ts hl hin hnothing =>
    exact ⟨[l], rfl, trimmed_singleton hl (by simp),
      fun rest' hs => .returnNothing hl hin (hs.returnsNothing hnothing)⟩
  | @returnValue l ts rest e hl hin hsome he =>
    obtain ⟨taken, rfl, ht, he'⟩ := expressionRead_local hinner he
    have hne : taken ≠ [] := taken_ne_nil he.yields
    exact ⟨[l] ++ taken, rfl, ht.behind hne [l], fun rest' hs => .returnValue hl hin
      ((returnsNothing_append_of_ne_nil hne rest rest' _).trans hsome) (he' rest' hs)⟩
  | @break_ l ts hl hin =>
    exact ⟨[l], rfl, trimmed_singleton hl (by simp), fun rest' _ => .break_ hl hin⟩
  | @continue_ l ts hl hin =>
    exact ⟨[l], rfl, trimmed_singleton hl (by simp), fun rest' _ => .continue_ hl hin⟩
  | @expression l ts rest e hl he =>
    obtain ⟨taken, htaken, ht, he'⟩ := expressionRead_local hinner he
    rw [htaken] at he
    obtain ⟨l', taken, rfl⟩ := List.exists_cons_of_ne_nil (taken_ne_nil he.yields)
    cases htaken
    exact ⟨l :: taken, rfl, ht, fun rest' hs => .expression hl (he' rest' hs)⟩

omit hinner in
theorem nameOf_local (what : Expectation) : Local fun ts => Yields (nameOf what ts) := by
  intro ts n rest h
  obtain ⟨l, rfl, hl, hp⟩ := (yields_nameOf what).mp h
  exact ⟨[l], rfl, trimmed_singleton hl (by simp),
    fun rest' _ => (yields_nameOf what).mpr ⟨l, rfl, hl, hp⟩⟩

theorem declarationRead_local (around : Surroundings) : Local (DeclarationRead inner around) := by
  intro ts s rest h
  cases h with
  | @declare l name x rest hl hname hnext =>
    exact ⟨[l] ++ [name], rfl, (trimmed_singleton hname (by simp)).behind (by simp) [l],
      fun rest' hs => .declare hl hname (hs.next?_ne (by simp) (by simp) hnext)⟩
  | @initialise l name equals x ts rest e hl hname hequals he =>
    obtain ⟨taken, rfl, ht, he'⟩ := expressionRead_local hinner he
    exact ⟨[l, name, equals] ++ taken, rfl, ht.behind (taken_ne_nil he.yields) _,
      fun rest' hs => .initialise hl hname hequals (he' rest' hs)⟩
  | @function l name opening brace x ts after rest parameters rules body hl hname hopening
      hparameters hlen hdistinct hbrace hrules hbody =>
    obtain ⟨taken, rfl, -, hparameters'⟩ :=
      listRead_local (nameOf_local .parameterName) hparameters
    obtain ⟨more, rfl, hm, hbody'⟩ :=
      blockRead_local ((hinner _ hrules).declaration .functionBody) hbody
    refine ⟨l :: name :: opening :: taken ++ ([brace] ++ more), by simp,
      ((trimmed_singleton hbrace (by simp)).append hm).behind (by simp) _, fun rest' hs => ?_⟩
    rw [List.append_assoc, List.append_assoc, List.cons_append, List.cons_append,
      List.cons_append]
    exact .function hl hname hopening (hparameters' _ (swaps_cons brace _ _)) hlen hdistinct
      hbrace hrules (hbody' rest' hs)
  | @statement l ts rest s hlet hfun hs =>
    obtain ⟨taken, htaken, ht, hs'⟩ := statementRead_local hinner around hs
    rw [htaken] at hs
    obtain ⟨l', taken, rfl⟩ := List.exists_cons_of_ne_nil (taken_ne_nil hs.yields)
    cases htaken
    exact ⟨l :: taken, rfl, ht, fun rest' hswap => .statement hlet hfun (hs' rest' hswap)⟩

omit hinner in
/-- Two ways to say what is read. -/
theorem Local.of_iff {α : Type} {read read' : List Lexeme → α → List Lexeme → Prop}
    (h : Local read) (hiff : ∀ ts v rest, read' ts v rest ↔ read ts v rest) : Local read' := by
  intro ts v rest hread
  obtain ⟨taken, rfl, ht, hread'⟩ := h ((hiff ts v rest).mp hread)
  exact ⟨taken, rfl, ht, fun rest' hs => (hiff _ v rest').mpr (hread' rest' hs)⟩

theorem primary_local : Local fun ts => Yields (primary inner ts) :=
  (primaryRead_local hinner).of_iff fun _ _ _ => ⟨primaryRead_of_yields, PrimaryRead.yields⟩

theorem Rules.allLocal_around : (Rules.around inner).AllLocal where
  expression := (expressionRead_local hinner).of_iff fun _ _ _ =>
    ⟨expressionRead_of_yields, ExpressionRead.yields⟩
  precedence least := (precedenceRead_local hinner least).of_iff fun _ _ _ => yields_precedence
  operators least left := (operatorsRead_local hinner least left).of_iff fun _ _ _ =>
    yields_operators
  unary := (unaryRead_local hinner).of_iff fun _ _ _ => ⟨unaryRead_of_yields, UnaryRead.yields⟩
  calls callee := (callsRead_local hinner callee).of_iff fun _ _ _ => yields_calls
  statement around := (statementRead_local hinner around).of_iff fun _ _ _ =>
    ⟨statementRead_of_yields, StatementRead.yields⟩
  declaration around := (declarationRead_local hinner around).of_iff fun _ _ _ =>
    ⟨declarationRead_of_yields, DeclarationRead.yields⟩

end Level

/-! ## One step

What the loops of blocks and programs do with the statement that they come to, and what a statement
is read as that does not begin like another one. -/

section Loops

variable {declaration : Rule Stmt} {l : Lexeme} {ts after mid : List Lexeme} {s : Stmt}
  (hdrop : ts.dropWhile isSemicolon = l :: after) (hend : l.token ≠ .endOfInput)

include hdrop hend

theorem programFrom_eq (read : List Stmt) (hs : Yields (declaration (l :: after)) s mid) :
    programFrom declaration read ts = programFrom declaration (s :: read) mid := by
  obtain ⟨y, hy, rfl, rfl⟩ := hs
  rw [programFrom]
  split
  · next hnil => cases hdrop.symm.trans hnil
  · next hcons =>
    cases hdrop.symm.trans hcons
    rw [if_neg hend]
    split
    · next herr => cases hy.symm.trans herr
    · next y' hy' =>
      cases hy.symm.trans hy'
      rfl

theorem programFrom_error (read : List Stmt) {err : ParseError}
    (herr : declaration (l :: after) = .error err) :
    programFrom declaration read ts = .error err := by
  rw [programFrom]
  split
  · next hnil => cases hdrop.symm.trans hnil
  · next hcons =>
    cases hdrop.symm.trans hcons
    rw [if_neg hend]
    split
    · next herr' =>
      cases herr.symm.trans herr'
      rfl
    · next hok => cases herr.symm.trans hok

theorem blockFrom_eq (opening : Position) {bound : Nat} (read : List Stmt)
    (fits : ts.length ≤ bound) (hbrace : l.token ≠ .symbol .rightBrace)
    (hs : Yields (declaration (l :: after)) s mid) :
    ∃ fits', blockFrom declaration opening bound read ts fits =
      blockFrom declaration opening bound (s :: read) mid fits' := by
  obtain ⟨y, hy, rfl, rfl⟩ := hs
  have hlt := length_rest_lt_of_dropWhile hdrop y
  refine ⟨by omega, ?_⟩
  rw [blockFrom]
  split
  · next hnil => cases hdrop.symm.trans hnil
  · next hcons =>
    cases hdrop.symm.trans hcons
    dsimp only
    rw [if_neg hbrace, if_neg hend]
    split
    · next herr => cases hy.symm.trans herr
    · next y' hy' =>
      cases hy.symm.trans hy'
      rfl

theorem blockFrom_error (opening : Position) {bound : Nat} (read : List Stmt)
    (fits : ts.length ≤ bound) (hbrace : l.token ≠ .symbol .rightBrace) {err : ParseError}
    (herr : declaration (l :: after) = .error err) :
    blockFrom declaration opening bound read ts fits = .error err := by
  rw [blockFrom]
  split
  · next hnil => cases hdrop.symm.trans hnil
  · next hcons =>
    cases hdrop.symm.trans hcons
    dsimp only
    rw [if_neg hbrace, if_neg hend]
    split
    · next herr' =>
      cases herr.symm.trans herr'
      rfl
    · next hok => cases herr.symm.trans hok

end Loops

theorem blockFrom_unterminated {declaration : Rule Stmt} {ts : List Lexeme} (opening : Position)
    {bound : Nat} (read : List Stmt) (fits : ts.length ≤ bound)
    (hover : ∀ l, (ts.dropWhile isSemicolon).head? = some l → l.token = .endOfInput) :
    blockFrom declaration opening bound read ts fits =
      .error ⟨.unterminatedBlock, opening⟩ := by
  rw [blockFrom]
  split
  · rfl
  · next l after hdrop =>
    have hend : l.token = .endOfInput := hover l (by rw [hdrop, List.head?_cons])
    dsimp only
    rw [if_neg (by simp [hend]), if_pos hend, report_parseError]

/-- What opens no other statement is read as an expression. -/
theorem statement_eq_expression {inner : Option Rules} {around : Surroundings} {l : Lexeme}
    (hl : opensStatement l.token = false) (ts : List Lexeme) :
    statement inner around (l :: ts) = (do
      let x ← expression inner (l :: ts)
      .ok ⟨.expression x.value l.position, x.rest, x.rest_lt⟩) := by
  rw [statement]
  split
  case h_8 => rfl
  all_goals
    next htoken =>
      rw [htoken] at hl
      cases hl

/-- What opens no declaration is read as a statement. -/
theorem declaration_eq_statement {inner : Option Rules} {around : Surroundings} {l : Lexeme}
    (hlet : l.token ≠ .keyword .let_) (hfun : l.token ≠ .keyword .fun_) (ts : List Lexeme) :
    declaration inner around (l :: ts) = statement inner around (l :: ts) := by
  rw [declaration]
  split
  · next hl => exact absurd hl hlet
  · next hl => exact absurd hl hfun
  · rfl

end Grammar

end Scripting
