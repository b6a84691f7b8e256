/-
Reading the same lexemes elsewhere.

Positions are carried along by the grammar and hardly ever looked at: a `return` asks whether the
next lexeme stands on its line, and nothing else asks anything. So if the positions of lexemes are
changed by a function that takes lines to lines, the same is read, with the positions in the
statements changed by the same function.

Nor does it matter what the lexemes end in, as long as no statement can go on with it. In place of
the end of the input there may be a semicolon and further statements: these are read after the
others, and the others as before. Both are shown at once, for lexemes that are moved and get a new
end.
-/
import Scripting.Proofs.Lossless

set_option autoImplicit false

namespace Scripting

open Grammar

/-! ## Trees with other positions -/

/-- The lexeme at another place. -/
def Lexeme.relocate (f : Position → Position) (l : Lexeme) : Lexeme :=
  { l with position := f l.position }

theorem Literal.token_ne_endOfInput (v : Literal) : v.token ≠ .endOfInput := by
  cases v with
  | bool b => cases b <;> simp [Literal.token]
  | _ => simp [Literal.token]

namespace Grammar

/-! ## Lexemes with another end -/

/-- The second list is the first one at other places, with `tail` for the end of the input. -/
inductive Spliced (f : Position → Position) (tail : List Lexeme) :
    List Lexeme → List Lexeme → Prop
  | stop {l : Lexeme} : l.token = .endOfInput → Spliced f tail [l] tail
  | cons {l : Lexeme} {ts us : List Lexeme} : l.token ≠ .endOfInput → Spliced f tail ts us →
      Spliced f tail (l :: ts) (l.relocate f :: us)

/-- Lexemes up to the first end of the input. -/
theorem spliced_append (f : Position → Position) (tail : List Lexeme) {ls : List Lexeme}
    (h : ∀ l ∈ ls, l.token ≠ .endOfInput) {e : Lexeme} (he : e.token = .endOfInput) :
    Spliced f tail (ls ++ [e]) (ls.map (·.relocate f) ++ tail) := by
  induction ls with
  | nil => exact .stop he
  | cons l ls ih =>
    obtain ⟨hl, hls⟩ := List.forall_mem_cons.mp h
    exact .cons hl (ih hls)

/-- Nothing that comes before it can go on with these lexemes. -/
def Stops (tail : List Lexeme) : Prop :=
  next? tail = some (.symbol .semicolon) ∨ next? tail = some .endOfInput

variable {f : Position → Position} {tail ts us : List Lexeme}

/-- A lexeme that is not the end comes first in both lists. -/
theorem Spliced.of_cons {l : Lexeme} {t : Token} (h : Spliced f tail (l :: ts) us)
    (hl : l.token = t) (ht : t ≠ .endOfInput) :
    ∃ us', us = l.relocate f :: us' ∧ Spliced f tail ts us' := by
  cases h with
  | stop hend => exact absurd (hl.symm.trans hend) ht
  | cons _ hts => exact ⟨_, rfl, hts⟩

/-- What comes next is the same, or both lists are at their ends. -/
theorem Spliced.next? (h : Spliced f tail ts us) :
    next? us = next? ts ∨ next? ts = some .endOfInput ∧ us = tail := by
  cases h with
  | stop hend =>
    right
    exact ⟨congrArg some hend, rfl⟩
  | cons => exact .inl rfl

/-- A token that is no end does not come next in the one list if it does not in the other. -/
theorem Spliced.next?_ne (h : Spliced f tail ts us) (htail : Stops tail) {t : Token}
    (hsemicolon : t ≠ .symbol .semicolon) (hend : t ≠ .endOfInput)
    (hne : Grammar.next? ts ≠ some t) : Grammar.next? us ≠ some t := by
  rcases h.next? with hsame | ⟨-, rfl⟩
  · rwa [hsame]
  · rcases htail with htail | htail <;> rw [htail] <;> intro heq <;> cases heq
    · exact hsemicolon rfl
    · exact hend rfl

/-- An operator that comes next comes next in the other list. -/
theorem Spliced.nextOperator? (h : Spliced f tail ts us) (htail : Stops tail)
    {op : BinaryOperator} (hop : Grammar.nextOperator? us = some op) :
    Grammar.nextOperator? ts = some op := by
  unfold Grammar.nextOperator? at hop ⊢
  rcases h.next? with hsame | ⟨-, rfl⟩
  · rwa [← hsame]
  · rcases htail with htail | htail <;> rw [htail] at hop <;> cases hop

/-- Semicolons are passed in both lists. -/
theorem Spliced.dropWhile (h : Spliced f tail ts us) {l : Lexeme} {after : List Lexeme}
    (hdrop : ts.dropWhile isSemicolon = l :: after) (hl : l.token ≠ .endOfInput) :
    ∃ after', us.dropWhile isSemicolon = l.relocate f :: after' ∧ Spliced f tail after after' := by
  induction h with
  | @stop e hend =>
    have hnot : isSemicolon e = false := by simp [isSemicolon, hend]
    rw [List.dropWhile_cons, hnot] at hdrop
    cases hdrop
    exact absurd hend hl
  | @cons e ts us he hts ih =>
    have hsame : isSemicolon (e.relocate f) = isSemicolon e := rfl
    rw [List.dropWhile_cons] at hdrop ⊢
    rw [hsame]
    split at hdrop
    · next hsemicolon =>
      rw [if_pos hsemicolon]
      exact ih hdrop
    · next hsemicolon =>
      rw [if_neg hsemicolon]
      cases hdrop
      exact ⟨us, rfl, hts⟩

/-- Whether a `return` has a value is the same for both lists. -/
theorem Spliced.returnsNothing (h : Spliced f tail ts us) (htail : Stops tail)
    (hf : ∀ p q, (f p).line = (f q).line ↔ p.line = q.line) (p : Position) :
    returnsNothing (f p) us = returnsNothing p ts := by
  cases h with
  | @stop l hend =>
    -- Before the end of the input a `return` has no value, nor has it before a semicolon.
    have hnothing : Grammar.returnsNothing p [l] = true := by simp [Grammar.returnsNothing, hend]
    rw [hnothing]
    cases tail with
    | nil => rfl
    | cons l' tail =>
      rcases htail with htail | htail <;> rw [next?_cons, Option.some.injEq] at htail <;>
        simp [Grammar.returnsNothing, htail]
  | @cons l ts us _ _ =>
    have hline : decide ((f l.position).line ≠ (f p).line) = decide (l.position.line ≠ p.line) :=
      decide_eq_decide.mpr (not_congr (hf l.position p))
    change (decide ((f l.position).line ≠ (f p).line) || _ || _ || _) = _
    rw [hline]
    rfl

/-! ## What the rules make of them -/

/-- Where the first reads something from lexemes, the second reads the same from those with another
end, changed by `g`, and what is left is left of both. -/
def Carries (f : Position → Position) (tail : List Lexeme) {α : Type} (g : α → α)
    (read read' : List Lexeme → α → List Lexeme → Prop) : Prop :=
  ∀ {ts us : List Lexeme} {v : α} {rest : List Lexeme}, Spliced f tail ts us → read ts v rest →
    ∃ rest', Spliced f tail rest rest' ∧ read' us (g v) rest'

/-- What the rules at one level make of lexemes with another end. -/
structure Rules.Carry (f : Position → Position) (tail : List Lexeme) (rules : Rules) : Prop where
  expression : Carries f tail (Expr.relocate f) (fun ts => Yields (rules.expression ts))
    (fun ts => Yields (rules.expression ts))
  precedence (least : Precedence) :
    Carries f tail (Expr.relocate f) (fun ts => Yields (rules.precedence least ts))
      (fun ts => Yields (rules.precedence least ts))
  operators (least : Precedence) (left : Expr) :
    Carries f tail (Expr.relocate f) (fun ts => Yields (rules.operators least left ts))
      (fun ts => Yields (rules.operators least (left.relocate f) ts))
  unary : Carries f tail (Expr.relocate f) (fun ts => Yields (rules.unary ts))
    (fun ts => Yields (rules.unary ts))
  calls (callee : Expr) :
    Carries f tail (Expr.relocate f) (fun ts => Yields (rules.calls callee ts))
      (fun ts => Yields (rules.calls (callee.relocate f) ts))
  statement (around : Surroundings) :
    Carries f tail (Stmt.relocate f) (fun ts => Yields (rules.statement around ts))
      (fun ts => Yields (rules.statement around ts))
  declaration (around : Surroundings) :
    Carries f tail (Stmt.relocate f) (fun ts => Yields (rules.declaration around ts))
      (fun ts => Yields (rules.declaration around ts))

section Lists

variable {α : Type} {item : Rule α} {g : α → α}
  (hitem : Carries f tail g (fun ts => Yields (item ts)) (fun ts => Yields (item ts)))

include hitem

theorem itemsRead_carries :
    Carries f tail (List.map g) (ItemsRead item) (ItemsRead item) := by
  intro ts us xs rest hs h
  induction h generalizing us with
  | last hx hl =>
    obtain ⟨mid, hmid, hx'⟩ := hitem hs hx
    obtain ⟨rest', rfl, hrest⟩ := hmid.of_cons hl (by simp)
    exact ⟨rest', hrest, .last hx' hl⟩
  | more hx hl _ ih =>
    obtain ⟨mid, hmid, hx'⟩ := hitem hs hx
    obtain ⟨after, rfl, hafter⟩ := hmid.of_cons hl (by simp)
    obtain ⟨rest', hrest, hmore⟩ := ih hafter
    exact ⟨rest', hrest, .more hx' hl hmore⟩

theorem listRead_carries (htail : Stops tail) :
    Carries f tail (List.map g) (ListRead item) (ListRead item) := by
  intro ts us xs rest hs h
  cases h with
  | none hl =>
    obtain ⟨us, rfl, hus⟩ := hs.of_cons hl (by simp)
    exact ⟨us, hus, .none hl⟩
  | some hnext hitems =>
    obtain ⟨rest', hrest, hitems'⟩ := itemsRead_carries hitem hs hitems
    exact ⟨rest', hrest, .some (hs.next?_ne htail (by simp) (by simp) hnext) hitems'⟩

end Lists

theorem blockRead_carries {declaration : Rule Stmt}
    (hdeclaration : Carries f tail (Stmt.relocate f) (fun ts => Yields (declaration ts))
      (fun ts => Yields (declaration ts))) :
    Carries f tail (List.map (Stmt.relocate f)) (BlockRead declaration)
      (BlockRead declaration) := by
  intro ts us body rest hs h
  induction h generalizing us with
  | close hdrop hl =>
    obtain ⟨after, hdrop', hafter⟩ := hs.dropWhile hdrop (by simp [hl])
    exact ⟨after, hafter, .close hdrop' hl⟩
  | @more ts l after s mid body rest hdrop hbrace hend hstmt _ ih =>
    obtain ⟨after', hdrop', hafter⟩ := hs.dropWhile hdrop hend
    -- The declaration is read behind the semicolons, where its own first lexeme stands in front.
    obtain ⟨mid', hmid, hstmt'⟩ := hdeclaration (.cons hend hafter) hstmt
    obtain ⟨rest', hrest, hbody⟩ := ih hmid
    exact ⟨rest', hrest, .more hdrop' hbrace hend hstmt' hbody⟩

/-! ## One level -/

section Level

variable {inner : Option Rules} (hinner : ∀ rules, inner = some rules → rules.Carry f tail)
  (htail : Stops tail)

include hinner

theorem primaryRead_carries :
    Carries f tail (Expr.relocate f) (PrimaryRead inner) (PrimaryRead inner) := by
  intro ts us e rest hs h
  cases h with
  | @literal l rest v hl =>
    obtain ⟨us, rfl, hus⟩ := hs.of_cons hl v.token_ne_endOfInput
    rw [Expr.relocate, Expr.recast]
    exact ⟨us, hus, .literal hl⟩
  | var hl =>
    obtain ⟨us, rfl, hus⟩ := hs.of_cons hl (by simp)
    rw [Expr.relocate, Expr.recast]
    exact ⟨us, hus, .var hl⟩
  | group hl hrules he hclose =>
    obtain ⟨us, rfl, hus⟩ := hs.of_cons hl (by simp)
    obtain ⟨mid, hmid, he'⟩ := (hinner _ hrules).expression hus he
    obtain ⟨rest', rfl, hrest⟩ := hmid.of_cons hclose (by simp)
    rw [Expr.relocate, Expr.recast]
    exact ⟨rest', hrest, .group hl hrules he' hclose⟩

include htail

theorem callsRead_carries (callee : Expr) :
    Carries f tail (Expr.relocate f) (CallsRead inner callee)
      (CallsRead inner (callee.relocate f)) := by
  intro ts us e rest hs h
  cases h with
  | done hnext => exact ⟨us, hs, .done (hs.next?_ne htail (by simp) (by simp) hnext)⟩
  | @call l ts rules arguments after e rest hl hrules harguments hlen hmore =>
    obtain ⟨us, rfl, hus⟩ := hs.of_cons hl (by simp)
    obtain ⟨mid, hmid, harguments'⟩ :=
      listRead_carries (hinner _ hrules).expression htail hus harguments
    obtain ⟨rest', hrest, hmore'⟩ := (hinner _ hrules).calls _ hmid hmore
    rw [Expr.relocate, Expr.recast, Expr.recastEach_eq_map] at hmore'
    exact ⟨rest', hrest, .call hl hrules harguments' (by rwa [List.length_map]) hmore'⟩

theorem unaryRead_carries :
    Carries f tail (Expr.relocate f) (UnaryRead inner) (UnaryRead inner) := by
  intro ts us e rest hs h
  cases h with
  | operator hop hrules he =>
    obtain ⟨us, rfl, hus⟩ := hs.of_cons rfl fun hend => by rw [hend] at hop; cases hop
    obtain ⟨rest', hrest, he'⟩ := (hinner _ hrules).unary hus he
    rw [Expr.relocate, Expr.recast]
    exact ⟨rest', hrest, .operator hop hrules he'⟩
  | calls hcallee hcalls =>
    obtain ⟨mid, hmid, hcallee'⟩ := primaryRead_carries hinner hs hcallee
    obtain ⟨rest', hrest, hcalls'⟩ := callsRead_carries hinner htail _ hmid hcalls
    exact ⟨rest', hrest, .calls hcallee' hcalls'⟩

theorem operatorsRead_carries (least : Precedence) (left : Expr) :
    Carries f tail (Expr.relocate f) (OperatorsRead inner least left)
      (OperatorsRead inner least (left.relocate f)) := by
  intro ts us e rest hs h
  cases h with
  | done hstop => exact ⟨us, hs, .done fun op hop => hstop op (hs.nextOperator? htail hop)⟩
  | operator hop hle hrules hright hmore =>
    obtain ⟨us, rfl, hus⟩ := hs.of_cons rfl fun hend => by rw [hend] at hop; cases hop
    obtain ⟨mid, hmid, hright'⟩ := (hinner _ hrules).precedence _ hus hright
    obtain ⟨rest', hrest, hmore'⟩ := (hinner _ hrules).operators _ _ hmid hmore
    rw [Expr.relocate, Expr.recast] at hmore'
    exact ⟨rest', hrest, .operator hop hle hrules hright' hmore'⟩

theorem precedenceRead_carries (least : Precedence) :
    Carries f tail (Expr.relocate f) (PrecedenceRead inner least) (PrecedenceRead inner least) := by
  rintro ts us e rest hs ⟨hleft, hmore⟩
  obtain ⟨mid, hmid, hleft'⟩ := unaryRead_carries hinner htail hs hleft
  obtain ⟨rest', hrest, hmore'⟩ := operatorsRead_carries hinner htail _ _ hmid hmore
  exact ⟨rest', hrest, .intro hleft' hmore'⟩

theorem expressionRead_carries :
    Carries f tail (Expr.relocate f) (ExpressionRead inner) (ExpressionRead inner) := by
  intro ts us e rest hs h
  cases h with
  | plain he hnext =>
    obtain ⟨rest', hrest, he'⟩ := precedenceRead_carries hinner htail _ hs he
    exact ⟨rest', hrest, .plain he' (hrest.next?_ne htail (by simp) (by simp) hnext)⟩
  | assign htarget hl hrules he =>
    obtain ⟨mid, hmid, htarget'⟩ := precedenceRead_carries hinner htail _ hs htarget
    obtain ⟨after, rfl, hafter⟩ := hmid.of_cons hl (by simp)
    obtain ⟨rest', hrest, he'⟩ := (hinner _ hrules).expression hafter he
    rw [Expr.relocate, Expr.recast] at htarget'
    rw [Expr.relocate, Expr.recast]
    exact ⟨rest', hrest, .assign htarget' hl hrules he'⟩

/-- The positions are looked at only by `return`. -/
theorem statementRead_carries (hf : ∀ p q, (f p).line = (f q).line ↔ p.line = q.line)
    (around : Surroundings) :
    Carries f tail (Stmt.relocate f) (StatementRead inner around)
      (StatementRead inner around) := by
  intro ts us s rest hs h
  cases h with
  | print hl he =>
    obtain ⟨us, rfl, hus⟩ := hs.of_cons hl (by simp)
    obtain ⟨rest', hrest, he'⟩ := expressionRead_carries hinner htail hus he
    rw [Stmt.relocate, Stmt.recast]
    exact ⟨rest', hrest, .print hl he'⟩
  | block hl hrules hbody =>
    obtain ⟨us, rfl, hus⟩ := hs.of_cons hl (by simp)
    obtain ⟨rest', hrest, hbody'⟩ :=
      blockRead_carries ((hinner _ hrules).declaration around) hus hbody
    rw [Stmt.relocate, Stmt.recast, Stmt.recastEach_eq_map]
    exact ⟨rest', hrest, .block hl hrules hbody'⟩
  | cond hl htest hrules hyes hnext =>
    obtain ⟨us, rfl, hus⟩ := hs.of_cons hl (by simp)
    obtain ⟨mid, hmid, htest'⟩ := expressionRead_carries hinner htail hus htest
    obtain ⟨rest', hrest, hyes'⟩ := (hinner _ hrules).statement around hmid hyes
    rw [Stmt.relocate, Stmt.recast, Stmt.recastIfAny]
    have hnext' := hrest.next?_ne htail (by simp) (by simp) hnext
    exact ⟨rest', hrest, .cond hl htest' hrules hyes' hnext'⟩
  | condElse hl htest hrules hyes hother hno =>
    obtain ⟨us, rfl, hus⟩ := hs.of_cons hl (by simp)
    obtain ⟨mid, hmid, htest'⟩ := expressionRead_carries hinner htail hus htest
    obtain ⟨between, hbetween, hyes'⟩ := (hinner _ hrules).statement around hmid hyes
    obtain ⟨after, rfl, hafter⟩ := hbetween.of_cons hother (by simp)
    obtain ⟨rest', hrest, hno'⟩ := (hinner _ hrules).statement around hafter hno
    rw [Stmt.relocate, Stmt.recast, Stmt.recastIfAny]
    exact ⟨rest', hrest, .condElse hl htest' hrules hyes' hother hno'⟩
  | loop hl htest hrules hbody =>
    obtain ⟨us, rfl, hus⟩ := hs.of_cons hl (by simp)
    obtain ⟨mid, hmid, htest'⟩ := expressionRead_carries hinner htail hus htest
    obtain ⟨rest', hrest, hbody'⟩ := (hinner _ hrules).statement around.loopBody hmid hbody
    rw [Stmt.relocate, Stmt.recast]
    exact ⟨rest', hrest, .loop hl htest' hrules hbody'⟩
  | @returnNothing l ts hl hin hnothing =>
    obtain ⟨us, rfl, hus⟩ := hs.of_cons hl (by simp)
    rw [← hus.returnsNothing htail hf] at hnothing
    rw [Stmt.relocate, Stmt.recast]
    exact ⟨us, hus, .returnNothing hl hin hnothing⟩
  | @returnValue l ts rest e hl hin hsome he =>
    obtain ⟨us, rfl, hus⟩ := hs.of_cons hl (by simp)
    obtain ⟨rest', hrest, he'⟩ := expressionRead_carries hinner htail hus he
    rw [← hus.returnsNothing htail hf] at hsome
    rw [Stmt.relocate, Stmt.recast]
    exact ⟨rest', hrest, .returnValue hl hin hsome he'⟩
  | break_ hl hin =>
    obtain ⟨us, rfl, hus⟩ := hs.of_cons hl (by simp)
    rw [Stmt.relocate, Stmt.recast]
    exact ⟨us, hus, .break_ hl hin⟩
  | continue_ hl hin =>
    obtain ⟨us, rfl, hus⟩ := hs.of_cons hl (by simp)
    rw [Stmt.relocate, Stmt.recast]
    exact ⟨us, hus, .continue_ hl hin⟩
  | @expression l ts rest e hl he =>
    -- The statement has no token of its own: it is the expression that does not begin at the end.
    obtain ⟨t, ht, hopens⟩ := he.opens
    obtain ⟨us, rfl, hus⟩ := hs.of_cons rfl fun hend => by
      rw [next?_cons, hend] at ht
      cases ht
      cases hopens
    obtain ⟨rest', hrest, he'⟩ := expressionRead_carries hinner htail hs he
    rw [Stmt.relocate, Stmt.recast]
    exact ⟨rest', hrest, .expression hl he'⟩

omit hinner htail in
/-- Of the parameters only the names are kept. -/
theorem nameOf_carries (what : Expectation) :
    Carries f tail (fun n : String × Position => (n.1, f n.2))
      (fun ts => Yields (nameOf what ts)) (fun ts => Yields (nameOf what ts)) := by
  intro ts us n rest hs h
  obtain ⟨l, rfl, hl, hp⟩ := (yields_nameOf what).mp h
  obtain ⟨us, rfl, hus⟩ := hs.of_cons hl (by simp)
  exact ⟨us, hus, (yields_nameOf what).mpr ⟨l.relocate f, rfl, hl, congrArg f hp⟩⟩

theorem declarationRead_carries (hf : ∀ p q, (f p).line = (f q).line ↔ p.line = q.line)
    (around : Surroundings) :
    Carries f tail (Stmt.relocate f) (DeclarationRead inner around)
      (DeclarationRead inner around) := by
  intro ts us s rest hs h
  cases h with
  | declare hl hname hnext =>
    obtain ⟨us, rfl, hus⟩ := hs.of_cons hl (by simp)
    obtain ⟨rest', rfl, hrest⟩ := hus.of_cons hname (by simp)
    rw [Stmt.relocate, Stmt.recast]
    exact ⟨rest', hrest, .declare hl hname (hrest.next?_ne htail (by simp) (by simp) hnext)⟩
  | initialise hl hname hequals he =>
    obtain ⟨us, rfl, hus⟩ := hs.of_cons hl (by simp)
    obtain ⟨mid, rfl, hmid⟩ := hus.of_cons hname (by simp)
    obtain ⟨after, rfl, hafter⟩ := hmid.of_cons hequals (by simp)
    obtain ⟨rest', hrest, he'⟩ := expressionRead_carries hinner htail hafter he
    rw [Stmt.relocate, Stmt.recast]
    exact ⟨rest', hrest, .initialise hl hname hequals he'⟩
  | @function l name opening brace x ts after rest parameters rules body hl hname hopening
      hparameters hlen hdistinct hbrace hrules hbody =>
    obtain ⟨us, rfl, hus⟩ := hs.of_cons hl (by simp)
    obtain ⟨mid, rfl, hmid⟩ := hus.of_cons hname (by simp)
    obtain ⟨listed, rfl, hlisted⟩ := hmid.of_cons hopening (by simp)
    obtain ⟨braced, hbraced, hparameters'⟩ :=
      listRead_carries (nameOf_carries .parameterName) htail hlisted hparameters
    obtain ⟨after', rfl, hafter⟩ := hbraced.of_cons hbrace (by simp)
    obtain ⟨rest', hrest, hbody'⟩ :=
      blockRead_carries ((hinner _ hrules).declaration .functionBody) hafter hbody
    -- Whether a parameter is repeated is a matter of the names alone.
    have hnames : (parameters.map fun n => (n.1, f n.2)).map (·.1) = parameters.map (·.1) := by
      rw [List.map_map]
      rfl
    have hdistinct' : repeated? [] (parameters.map fun n => (n.1, f n.2)) = none := by
      rw [repeated?_eq_none, hnames]
      exact repeated?_eq_none.mp hdistinct
    rw [Stmt.relocate, Stmt.recast, Stmt.recastEach_eq_map, List.map_id, ← hnames]
    exact ⟨rest', hrest, .function hl hname hopening hparameters' (by rwa [List.length_map])
      hdistinct' hbrace hrules hbody'⟩
  | statement hlet hfun hstmt =>
    obtain ⟨t, ht, hopens⟩ := hstmt.opens
    obtain ⟨us, rfl, hus⟩ := hs.of_cons rfl fun hend => by
      rw [next?_cons, hend] at ht
      cases ht
      exact absurd (isWritten_of_opens hopens) (by decide)
    obtain ⟨rest', hrest, hstmt'⟩ := statementRead_carries hinner htail hf around hs hstmt
    exact ⟨rest', hrest, .statement hlet hfun hstmt'⟩

theorem Rules.carry_around (hf : ∀ p q, (f p).line = (f q).line ↔ p.line = q.line) :
    (Rules.around inner).Carry f tail where
  expression hs h := by
    obtain ⟨rest', hrest, h'⟩ := expressionRead_carries hinner htail hs (expressionRead_of_yields h)
    exact ⟨rest', hrest, h'.yields⟩
  precedence least _ _ _ _ hs h := by
    obtain ⟨rest', hrest, h'⟩ :=
      precedenceRead_carries hinner htail least hs (yields_precedence.mp h)
    exact ⟨rest', hrest, yields_precedence.mpr h'⟩
  operators least left _ _ _ _ hs h := by
    obtain ⟨rest', hrest, h'⟩ :=
      operatorsRead_carries hinner htail least left hs (yields_operators.mp h)
    exact ⟨rest', hrest, yields_operators.mpr h'⟩
  unary hs h := by
    obtain ⟨rest', hrest, h'⟩ := unaryRead_carries hinner htail hs (unaryRead_of_yields h)
    exact ⟨rest', hrest, h'.yields⟩
  calls callee _ _ _ _ hs h := by
    obtain ⟨rest', hrest, h'⟩ := callsRead_carries hinner htail callee hs (yields_calls.mp h)
    exact ⟨rest', hrest, yields_calls.mpr h'⟩
  statement around _ _ _ _ hs h := by
    obtain ⟨rest', hrest, h'⟩ :=
      statementRead_carries hinner htail hf around hs (statementRead_of_yields h)
    exact ⟨rest', hrest, h'.yields⟩
  declaration around _ _ _ _ hs h := by
    obtain ⟨rest', hrest, h'⟩ :=
      declarationRead_carries hinner htail hf around hs (declarationRead_of_yields h)
    exact ⟨rest', hrest, h'.yields⟩

end Level

/-! ## All levels -/

theorem Rules.carry_withRoom (htail : Stops tail)
    (hf : ∀ p q, (f p).line = (f q).line ↔ p.line = q.line) (room : Nat) :
    (Rules.withRoom room).Carry f tail := by
  -- The rules at one level ask only those one level further in, if there are any.
  induction room with
  | zero => exact carry_around (fun rules h => by cases h) htail hf
  | succ room ih =>
    refine carry_around (fun rules h => ?_) htail hf
    cases h
    exact ih

/-- Of a program, semicolons in front do not matter. -/
theorem ProgramRead.of_dropWhile {declaration : Rule Stmt} {body : List Stmt}
    (h : ProgramRead declaration ts body)
    (heq : us.dropWhile isSemicolon = ts.dropWhile isSemicolon) :
    ProgramRead declaration us body := by
  cases h with
  | close hend => exact .close (by rwa [heq])
  | more hdrop hend hs hbody => exact .more (heq.trans hdrop) hend hs hbody

/-- Where nothing but semicolons is left of the first list, the second goes on with its new end. -/
theorem Spliced.dropWhile_tail (h : Spliced f tail ts us)
    (hend : ∀ l, (ts.dropWhile isSemicolon).head? = some l → l.token = .endOfInput) :
    us.dropWhile isSemicolon = tail.dropWhile isSemicolon := by
  induction h with
  | stop => rfl
  | @cons l ts us hl _ ih =>
    have hsame : isSemicolon (l.relocate f) = isSemicolon l := rfl
    rw [List.dropWhile_cons] at hend
    rw [List.dropWhile_cons, hsame]
    split at hend
    · next hsemicolon =>
      rw [if_pos hsemicolon]
      exact ih hend
    · exact absurd (hend l rfl) hl

/-- **A program with another end.** The statements are those that were read before, at their new
places, and after them those of the new end. -/
theorem ProgramRead.append {declaration : Rule Stmt}
    (hdeclaration : Carries f tail (Stmt.relocate f) (fun ts => Yields (declaration ts))
      (fun ts => Yields (declaration ts)))
    {body more : List Stmt} (h : ProgramRead declaration ts body) (hs : Spliced f tail ts us)
    (hmore : ProgramRead declaration tail more) :
    ProgramRead declaration us (body.map (Stmt.relocate f) ++ more) := by
  -- The induction is on how the first list was read. Where that was at its end, the new end begins.
  induction h generalizing us with
  | close hend => exact hmore.of_dropWhile (hs.dropWhile_tail hend)
  | more hdrop hend hstmt _ ih =>
    obtain ⟨after', hdrop', hafter⟩ := hs.dropWhile hdrop hend
    obtain ⟨mid', hmid, hstmt'⟩ := hdeclaration (.cons hend hafter) hstmt
    exact .more hdrop' hend hstmt' (ih hmid)

/-- **Accepted lexemes with another end.** -/
theorem parse_spliced (hf : ∀ p q, (f p).line = (f q).line ↔ p.line = q.line)
    (hs : Spliced f tail ts us) (htail : Stops tail) {body more : List Stmt}
    (h : parse ts = .ok body) (hmore : parse tail = .ok more) :
    parse us = .ok (body.map (Stmt.relocate f) ++ more) :=
  programFrom_eq_ok.mpr <| (programFrom_eq_ok.mp h).append
    ((Rules.carry_withRoom htail hf maxNesting).declaration .outermost) hs
    (programFrom_eq_ok.mp hmore)

end Grammar

end Scripting
