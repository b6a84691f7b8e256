/-
Reading lexemes that are laid out in another way.

Two lists of lexemes *correspond* if they have the same tokens with the same texts up to the end of
the input, and a `return` has the next lexeme on its line in both of them or in neither. On such
lists every rule does the same: it succeeds on both, with trees that differ in their positions, and
leaves lists that correspond again; or it fails on both with the same fault. What is related in this
way are two runs of one rule, and a relation `R` says which positions may stand in for each other.
For the relation "these are the positions of lexemes with the same index" it follows that wherever
the one tree has the position of a lexeme, the other has that of the lexeme with the same index.
-/
import Scripting.Proofs.Lookahead

set_option autoImplicit false

namespace Scripting

/-! ## The same but for positions -/

/-- The same expression, with positions that are related by `R`. -/
inductive Expr.Alike (R : Position → Position → Prop) : Expr → Expr → Prop
  | literal (v : Literal) {p p' : Position} : R p p' → Alike R (.literal v p) (.literal v p')
  | var (name : String) {p p' : Position} : R p p' → Alike R (.var name p) (.var name p')
  | unary (op : UnaryOperator) {e e' : Expr} {p p' : Position} :
      Alike R e e' → R p p' → Alike R (.unary op e p) (.unary op e' p')
  | binary (op : BinaryOperator) {left left' right right' : Expr} {p p' : Position} :
      Alike R left left' → Alike R right right' → R p p' →
      Alike R (.binary op left right p) (.binary op left' right' p')
  | call {callee callee' : Expr} {arguments arguments' : List Expr} {p p' : Position} :
      Alike R callee callee' → List.Forall₂ (Alike R) arguments arguments' → R p p' →
      Alike R (.call callee arguments p) (.call callee' arguments' p')
  | assign (name : String) {e e' : Expr} {p p' : Position} :
      Alike R e e' → R p p' → Alike R (.assign name e p) (.assign name e' p')
  | group {e e' : Expr} {p p' : Position} :
      Alike R e e' → R p p' → Alike R (.group e p) (.group e' p')

/-- The same statement, with positions that are related by `R`. -/
inductive Stmt.Alike (R : Position → Position → Prop) : Stmt → Stmt → Prop
  | expression {e e' : Expr} {p p' : Position} :
      e.Alike R e' → R p p' → Alike R (.expression e p) (.expression e' p')
  | declare (name : String) {initial initial' : Option Expr} {p p' : Position} :
      Option.Rel (Expr.Alike R) initial initial' → R p p' →
      Alike R (.declare name initial p) (.declare name initial' p')
  | block {body body' : List Stmt} {p p' : Position} :
      List.Forall₂ (Alike R) body body' → R p p' → Alike R (.block body p) (.block body' p')
  | cond {test test' : Expr} {yes yes' : Stmt} {no no' : Option Stmt} {p p' : Position} :
      test.Alike R test' → Alike R yes yes' → Option.Rel (Alike R) no no' → R p p' →
      Alike R (.cond test yes no p) (.cond test' yes' no' p')
  | loop {test test' : Expr} {body body' : Stmt} {p p' : Position} :
      test.Alike R test' → Alike R body body' → R p p' →
      Alike R (.loop test body p) (.loop test' body' p')
  | function (name : String) (parameters : List String) {body body' : List Stmt}
      {p p' : Position} : List.Forall₂ (Alike R) body body' → R p p' →
      Alike R (.function name parameters body p) (.function name parameters body' p')
  | return_ {value value' : Option Expr} {p p' : Position} :
      Option.Rel (Expr.Alike R) value value' → R p p' →
      Alike R (.return_ value p) (.return_ value' p')
  | print {e e' : Expr} {p p' : Position} :
      e.Alike R e' → R p p' → Alike R (.print e p) (.print e' p')
  | break_ {p p' : Position} : R p p' → Alike R (.break_ p) (.break_ p')
  | continue_ {p p' : Position} : R p p' → Alike R (.continue_ p) (.continue_ p')

/-- The same lexeme at a place that is related by `R`. -/
structure Lexeme.Alike (R : Position → Position → Prop) (l l' : Lexeme) : Prop where
  token : l'.token = l.token
  text : l'.text = l.text
  position : R l.position l'.position

theorem Expr.Alike.position {R : Position → Position → Prop} {e e' : Expr} (h : e.Alike R e') :
    R e.position e'.position := by
  cases h <;> assumption

namespace Grammar

section Relations

variable (R : Position → Position → Prop)

/-- The same lexemes at related places, up to the end of the input, with line breaks after the same
`return`s. -/
inductive Corresponding : List Lexeme → List Lexeme → Prop
  | stop {l l' : Lexeme} (ts ts' : List Lexeme) : l.Alike R l' → l.token = .endOfInput →
      Corresponding (l :: ts) (l' :: ts')
  | cons {l l' : Lexeme} {ts ts' : List Lexeme} : l.Alike R l' → l.token ≠ .endOfInput →
      (l.token = .keyword .return_ → ((nextPosition ts).line = l.position.line ↔
        (nextPosition ts').line = l'.position.line)) →
      Corresponding ts ts' → Corresponding (l :: ts) (l' :: ts')

/-- Both have succeeded, with results that are related by `V`, or both have failed with the same
fault at related places. -/
inductive Agree {α β : Type} (V : α → β → Prop) : Except ParseError α → Except ParseError β → Prop
  | ok {x : α} {y : β} : V x y → Agree V (.ok x) (.ok y)
  | error (fault : ParseFault) {p p' : Position} : R p p' →
      Agree V (.error ⟨fault, p⟩) (.error ⟨fault, p'⟩)

/-- What two runs of a rule have read is related, and what they have left corresponds. -/
structure Both {α : Type} {bound bound' : Nat} (V : α → α → Prop) (x : Parsed α bound)
    (y : Parsed α bound') : Prop where
  value : V x.value y.value
  rest : Corresponding R x.rest y.rest

/-- A rule that reads lexemes that correspond in the same way. -/
def Indifferent {α : Type} {bound : List Lexeme → Nat} (V : α → α → Prop)
    (rule rule' : (ts : List Lexeme) → Except ParseError (Parsed α (bound ts))) : Prop :=
  ∀ {ts ts' : List Lexeme}, Corresponding R ts ts' → Agree R (Both R V) (rule ts) (rule' ts')

/-- Rules that read lexemes that correspond in the same way. -/
structure Rules.AllIndifferent (rules : Rules) : Prop where
  expression : Indifferent R (Expr.Alike R) rules.expression rules.expression
  precedence (least : Precedence) :
    Indifferent R (Expr.Alike R) (rules.precedence least) (rules.precedence least)
  operators (least : Precedence) {left left' : Expr} : left.Alike R left' →
    Indifferent R (Expr.Alike R) (rules.operators least left) (rules.operators least left')
  unary : Indifferent R (Expr.Alike R) rules.unary rules.unary
  calls {callee callee' : Expr} : callee.Alike R callee' →
    Indifferent R (Expr.Alike R) (rules.calls callee) (rules.calls callee')
  statement (around : Surroundings) :
    Indifferent R (Stmt.Alike R) (rules.statement around) (rules.statement around)
  declaration (around : Surroundings) :
    Indifferent R (Stmt.Alike R) (rules.declaration around) (rules.declaration around)

end Relations

variable {R : Position → Position → Prop} {α β : Type} {ts ts' : List Lexeme}

/-- Of lists that correspond, both begin with a lexeme, and it is the same one. -/
theorem Corresponding.exists_cons (h : Corresponding R ts ts') :
    ∃ l after l' after', ts = l :: after ∧ ts' = l' :: after' ∧ l.Alike R l' ∧
      (l.token ≠ .endOfInput → Corresponding R after after' ∧
        (l.token = .keyword .return_ → ((nextPosition after).line = l.position.line ↔
          (nextPosition after').line = l'.position.line))) := by
  cases h with
  | stop after after' hl hend => exact ⟨_, _, _, _, rfl, rfl, hl, fun h => absurd hend h⟩
  | cons hl hend hreturn hts => exact ⟨_, _, _, _, rfl, rfl, hl, fun _ => ⟨hts, hreturn⟩⟩

theorem Corresponding.dropWhile (h : Corresponding R ts ts') :
    Corresponding R (ts.dropWhile isSemicolon) (ts'.dropWhile isSemicolon) := by
  induction h with
  | stop ts ts' hl hend =>
    have hsemicolon : ∀ {l : Lexeme}, l.token = .endOfInput → isSemicolon l = false := by
      intro l hl
      simp [isSemicolon, hl]
    rw [List.dropWhile_cons_of_neg (by simp [hsemicolon hend]),
      List.dropWhile_cons_of_neg (by simp [hsemicolon (hl.token.trans hend)])]
    exact .stop ts ts' hl hend
  | @cons l l' ts ts' hl hend hreturn hts ih =>
    have hsame : isSemicolon l' = isSemicolon l := by simp [isSemicolon, hl.token]
    rw [List.dropWhile_cons, List.dropWhile_cons, hsame]
    split
    · exact ih
    · exact .cons hl hend hreturn hts

theorem Agree.cases {V : α → β → Prop} {x : Except ParseError α} {y : Except ParseError β}
    (h : Agree R V x y) : (∃ a b, x = .ok a ∧ y = .ok b ∧ V a b) ∨
      ∃ fault p p', x = .error ⟨fault, p⟩ ∧ y = .error ⟨fault, p'⟩ ∧ R p p' := by
  cases h with
  | ok hv => exact .inl ⟨_, _, rfl, rfl, hv⟩
  | error fault hp => exact .inr ⟨fault, _, _, rfl, rfl, hp⟩

theorem Agree.bind {α' β' : Type} {V : α → β → Prop} {W : α' → β' → Prop}
    {x : Except ParseError α} {y : Except ParseError β} {f : α → Except ParseError α'}
    {g : β → Except ParseError β'} (h : Agree R V x y)
    (hf : ∀ a b, V a b → Agree R W (f a) (g b)) : Agree R W (x >>= f) (y >>= g) := by
  cases h with
  | ok hv => exact hf _ _ hv
  | error fault hp => exact .error fault hp

/-! ## Single lexemes and lists -/

theorem expect_indifferent (mark : Symbol) (what : Expectation) :
    Indifferent R (Lexeme.Alike R) (expect mark what) (expect mark what) := by
  intro ts ts' h
  obtain ⟨l, after, l', after', rfl, rfl, hl, hafter⟩ := h.exists_cons
  rw [expect, expect, hl.token]
  by_cases hmark : l.token = .symbol mark
  · rw [if_pos hmark, if_pos hmark]
    exact .ok ⟨hl, (hafter (by simp [hmark])).1⟩
  · rw [if_neg hmark, if_neg hmark]
    exact .error _ hl.position

/-- The same name at related places. -/
def SameName (R : Position → Position → Prop) (x y : String × Position) : Prop :=
  y.1 = x.1 ∧ R x.2 y.2

theorem nameOf_indifferent (what : Expectation) :
    Indifferent R (SameName R) (nameOf what) (nameOf what) := by
  intro ts ts' h
  obtain ⟨l, after, l', after', rfl, rfl, hl, hafter⟩ := h.exists_cons
  rw [nameOf, nameOf, hl.token]
  split
  · next name htoken => exact .ok ⟨⟨rfl, hl.position⟩, (hafter (by simp [htoken])).1⟩
  · exact .error _ hl.position

theorem nextPosition_related (h : Corresponding R ts ts') :
    R (nextPosition ts) (nextPosition ts') := by
  obtain ⟨l, after, l', after', rfl, rfl, hl, -⟩ := h.exists_cons
  exact hl.position

/-- The same name is repeated, at related places. -/
theorem repeated?_related (seen : List String) {ps ps' : List (String × Position)}
    (h : List.Forall₂ (SameName R) ps ps') :
    Option.Rel (SameName R) (repeated? seen ps) (repeated? seen ps') := by
  induction h generalizing seen with
  | nil => exact .none
  | cons hp _ ih =>
    rw [repeated?, repeated?, hp.1]
    split
    · exact .some hp
    · exact ih _

theorem map_fst_of_sameName {ps ps' : List (String × Position)}
    (h : List.Forall₂ (SameName R) ps ps') : ps'.map (·.1) = ps.map (·.1) := by
  induction h with
  | nil => rfl
  | cons hp _ ih => rw [List.map_cons, List.map_cons, hp.1, ih]

section Lists

variable {V : α → α → Prop} {item item' : Rule α} (hitem : Indifferent R V item item')

include hitem

theorem itemsFrom_indifferent (what : Listing) (room : Nat) :
    Indifferent R (List.Forall₂ V) (itemsFrom what item room) (itemsFrom what item' room) := by
  intro ts ts' h
  induction room generalizing ts ts' with
  | zero => exact .error _ (nextPosition_related h)
  | succ room ih =>
    rw [itemsFrom, itemsFrom]
    refine (hitem h).bind ?_
    rintro ⟨x, rest, hlt⟩ ⟨y, rest', hlt'⟩ ⟨hv, hrest⟩
    dsimp only at hv hrest
    obtain ⟨l, after, l', after', rfl, rfl, hl, hafter⟩ := hrest.exists_cons
    dsimp only
    rw [hl.token]
    by_cases hcomma : l.token = .symbol .comma
    · rw [if_pos hcomma, if_pos hcomma]
      refine (ih (hafter (by simp [hcomma])).1).bind fun more more' hmore => ?_
      exact .ok ⟨.cons hv hmore.value, hmore.rest⟩
    · rw [if_neg hcomma, if_neg hcomma]
      by_cases hparen : l.token = .symbol .rightParen
      · rw [if_pos hparen, if_pos hparen]
        exact .ok ⟨.cons hv .nil, (hafter (by simp [hparen])).1⟩
      · rw [if_neg hparen, if_neg hparen]
        exact .error _ hl.position

theorem commaSeparated_indifferent (what : Listing) :
    Indifferent R (List.Forall₂ V) (commaSeparated what item) (commaSeparated what item') := by
  intro ts ts' h
  have hitems := itemsFrom_indifferent hitem what maxItems h
  obtain ⟨l, after, l', after', rfl, rfl, hl, hafter⟩ := h.exists_cons
  rw [commaSeparated, commaSeparated, hl.token]
  by_cases hparen : l.token = .symbol .rightParen
  · rw [if_pos hparen, if_pos hparen]
    exact .ok ⟨.nil, (hafter (by simp [hparen])).1⟩
  · rw [if_neg hparen, if_neg hparen]
    exact hitems

end Lists

section Loops

variable {declaration : Rule Stmt}
  (hdeclaration : Indifferent R (Stmt.Alike R) declaration declaration)
  {read read' : List Stmt} (hread : List.Forall₂ (Stmt.Alike R) read read')

include hdeclaration hread

theorem blockFrom_indifferent {opening opening' : Position} (hopening : R opening opening')
    {bound bound' : Nat} (fits : ts.length ≤ bound) (fits' : ts'.length ≤ bound')
    (h : Corresponding R ts ts') :
    Agree R (Both R (List.Forall₂ (Stmt.Alike R)))
      (blockFrom declaration opening bound read ts fits)
      (blockFrom declaration opening' bound' read' ts' fits') := by
  -- A statement leaves fewer lexemes, so the induction is on how many there are in the first list.
  induction hn : ts.length using Nat.strongRecOn generalizing ts ts' read read' with
  | ind n ih =>
    obtain ⟨l, after, l', after', hdrop, hdrop', hl, hafter⟩ := h.dropWhile.exists_cons
    by_cases hbrace : l.token = .symbol .rightBrace
    · obtain ⟨y, hy, hvalue, hrest⟩ := (BlockRead.close hdrop hbrace).yields opening read fits
      obtain ⟨y', hy', hvalue', hrest'⟩ :=
        (BlockRead.close hdrop' (hl.token.trans hbrace)).yields opening' read' fits'
      rw [hy, hy']
      refine .ok ⟨?_, ?_⟩
      · rw [hvalue, hvalue', List.append_nil, List.append_nil]
        exact List.forall₂_reverse_iff.mpr hread
      · rw [hrest, hrest']
        exact (hafter (by simp [hbrace])).1
    · have hbrace' : l'.token ≠ .symbol .rightBrace := by rwa [hl.token]
      by_cases hend : l.token = .endOfInput
      · rw [blockFrom_unterminated opening read fits (by simp [hdrop, hend]),
          blockFrom_unterminated opening' read' fits' (by simp [hdrop', hl.token, hend])]
        exact .error _ hopening
      · have hend' : l'.token ≠ .endOfInput := by rwa [hl.token]
        have hstmt := hdeclaration (hdrop ▸ hdrop' ▸ h.dropWhile)
        rcases hstmt.cases with ⟨x, y, hx, hy, hboth⟩ | ⟨fault, p, p', hx, hy, hp⟩
        · obtain ⟨left, heq⟩ := blockFrom_eq hdrop hend opening read fits hbrace ⟨x, hx, rfl, rfl⟩
          obtain ⟨left', heq'⟩ :=
            blockFrom_eq hdrop' hend' opening' read' fits' hbrace' ⟨y, hy, rfl, rfl⟩
          rw [heq, heq']
          have hlt := length_rest_lt_of_dropWhile hdrop x
          exact ih _ (hn ▸ hlt) (.cons hboth.value hread) left left' hboth.rest rfl
        · rw [blockFrom_error hdrop hend opening read fits hbrace hx,
            blockFrom_error hdrop' hend' opening' read' fits' hbrace' hy]
          exact .error fault hp

theorem programFrom_indifferent (h : Corresponding R ts ts') :
    Agree R (List.Forall₂ (Stmt.Alike R)) (programFrom declaration read ts)
      (programFrom declaration read' ts') := by
  induction hn : ts.length using Nat.strongRecOn generalizing ts ts' read read' with
  | ind n ih =>
    obtain ⟨l, after, l', after', hdrop, hdrop', hl, -⟩ := h.dropWhile.exists_cons
    by_cases hend : l.token = .endOfInput
    · have hok : ∀ {ts after : List Lexeme} {l : Lexeme} (read : List Stmt),
          ts.dropWhile isSemicolon = l :: after → l.token = .endOfInput →
          programFrom declaration read ts = .ok read.reverse := by
        intro ts after l read hdrop hend
        have hclose : ProgramRead declaration ts [] := .close (by simp [hdrop, hend])
        rw [hclose.ok read, List.append_nil]
      rw [hok read hdrop hend, hok read' hdrop' (hl.token.trans hend)]
      exact .ok (List.forall₂_reverse_iff.mpr hread)
    · have hend' : l'.token ≠ .endOfInput := by rwa [hl.token]
      have hstmt := hdeclaration (hdrop ▸ hdrop' ▸ h.dropWhile)
      rcases hstmt.cases with ⟨x, y, hx, hy, hboth⟩ | ⟨fault, p, p', hx, hy, hp⟩
      · rw [programFrom_eq hdrop hend read ⟨x, hx, rfl, rfl⟩,
          programFrom_eq hdrop' hend' read' ⟨y, hy, rfl, rfl⟩]
        have hlt := length_rest_lt_of_dropWhile hdrop x
        exact ih _ (hn ▸ hlt) (.cons hboth.value hread) hboth.rest rfl
      · rw [programFrom_error hdrop hend read hx, programFrom_error hdrop' hend' read' hy]
        exact .error fault hp

end Loops

/-! ## One level -/

theorem unexpected_agree {V : α → β → Prop} {l l' : Lexeme} (hl : l.Alike R l') :
    Agree R V (.error (unexpected l)) (.error (unexpected l')) := by
  rw [unexpected, unexpected, hl.token, hl.text]
  split
  · exact .error _ hl.position
  · exact .error _ hl.position

theorem returnsNothing_agree {l l' : Lexeme} {after after' : List Lexeme}
    (hafter : Corresponding R after after')
    (hline : (nextPosition after).line = l.position.line ↔
      (nextPosition after').line = l'.position.line) :
    returnsNothing l'.position after' = returnsNothing l.position after := by
  obtain ⟨m, ms, m', ms', rfl, rfl, hm, -⟩ := hafter.exists_cons
  dsimp only [nextPosition] at hline
  simp only [returnsNothing, hm.token, ne_eq, hline]

section Level

variable {inner : Option Rules} (hinner : ∀ rules, inner = some rules → rules.AllIndifferent R)

include hinner

theorem descend_agree {V : α → β → Prop} {p p' : Position} {left left' : List Lexeme}
    {f : Rules → Except ParseError α} {g : Rules → Except ParseError β} (hp : R p p')
    (h : ∀ rules, rules.AllIndifferent R → Agree R V (f rules) (g rules)) :
    Agree R V (descend inner p left >>= f) (descend inner p' left' >>= g) := by
  cases hsome : inner with
  | none => exact .error _ hp
  | some rules => exact h rules (hinner rules hsome)

theorem primary_indifferent :
    Indifferent R (Expr.Alike R) (primary inner) (primary inner) := by
  intro ts ts' h
  obtain ⟨l, after, l', after', rfl, rfl, hl, hafter⟩ := h.exists_cons
  have hp := hl.position
  rw [primary, primary, hl.token]
  split
  case h_7 htoken =>
    refine descend_agree hinner hp fun rules hrules => ?_
    refine (hrules.expression (hafter (by simp [htoken])).1).bind fun e e' he => ?_
    refine (expect_indifferent .rightParen .closingParen he.rest).bind fun close close' hclose => ?_
    exact .ok ⟨.group he.value hp, hclose.rest⟩
  case h_6 name htoken => exact .ok ⟨.var name hp, (hafter (by simp [htoken])).1⟩
  case h_8 => exact unexpected_agree hl
  all_goals next htoken => exact .ok ⟨.literal _ hp, (hafter (by simp [htoken])).1⟩

theorem calls_indifferent {callee callee' : Expr} (hcallee : callee.Alike R callee') :
    Indifferent R (Expr.Alike R) (calls inner callee) (calls inner callee') := by
  intro ts ts' h
  have hrest := h
  obtain ⟨l, after, l', after', rfl, rfl, hl, hafter⟩ := h.exists_cons
  rw [calls, calls, hl.token]
  by_cases hparen : l.token = .symbol .leftParen
  · rw [if_pos hparen, if_pos hparen]
    refine descend_agree hinner hl.position fun rules hrules => ?_
    refine (commaSeparated_indifferent hrules.expression .arguments
      (hafter (by simp [hparen])).1).bind fun arguments arguments' harguments => ?_
    refine (hrules.calls (.call hcallee harguments.value hl.position) harguments.rest).bind
      fun more more' hmore => ?_
    exact .ok ⟨hmore.value, hmore.rest⟩
  · rw [if_neg hparen, if_neg hparen]
    exact .ok ⟨hcallee, hrest⟩

theorem unary_indifferent : Indifferent R (Expr.Alike R) (unary inner) (unary inner) := by
  intro ts ts' h
  have hprimary := primary_indifferent hinner h
  obtain ⟨l, after, l', after', rfl, rfl, hl, hafter⟩ := h.exists_cons
  rw [unary, unary, hl.token]
  split
  · next op hop =>
    have hend : l.token ≠ .endOfInput := by
      intro hend
      rw [hend] at hop
      cases hop
    refine descend_agree hinner hl.position fun rules hrules => ?_
    refine (hrules.unary (hafter hend).1).bind fun operand operand' hoperand => ?_
    exact .ok ⟨.unary op hoperand.value hl.position, hoperand.rest⟩
  · refine hprimary.bind fun callee callee' hcallee => ?_
    refine (calls_indifferent hinner hcallee.value hcallee.rest).bind fun more more' hmore => ?_
    exact .ok ⟨hmore.value, hmore.rest⟩

theorem operators_indifferent (least : Precedence) {left left' : Expr}
    (hleft : left.Alike R left') :
    Indifferent R (Expr.Alike R) (operators inner least left) (operators inner least left') := by
  intro ts ts' h
  have hrest := h
  obtain ⟨l, after, l', after', rfl, rfl, hl, hafter⟩ := h.exists_cons
  rw [operators, operators, hl.token]
  split
  · exact .ok ⟨hleft, hrest⟩
  · next op hop =>
    have hend : l.token ≠ .endOfInput := by
      intro hend
      rw [hend] at hop
      cases hop
    split
    · refine descend_agree hinner hl.position fun rules hrules => ?_
      refine (hrules.precedence op.precedence.next (hafter hend).1).bind
        fun right right' hright => ?_
      refine (hrules.operators least (.binary op hleft hright.value hl.position) hright.rest).bind
        fun more more' hmore => ?_
      exact .ok ⟨hmore.value, hmore.rest⟩
    · exact .ok ⟨hleft, hrest⟩

theorem precedence_indifferent (least : Precedence) :
    Indifferent R (Expr.Alike R) (precedence inner least) (precedence inner least) := by
  intro ts ts' h
  rw [precedence, precedence]
  refine (unary_indifferent hinner h).bind fun left left' hleft => ?_
  refine (operators_indifferent hinner least hleft.value hleft.rest).bind
    fun more more' hmore => ?_
  exact .ok ⟨hmore.value, hmore.rest⟩

theorem expression_indifferent :
    Indifferent R (Expr.Alike R) (expression inner) (expression inner) := by
  intro ts ts' h
  rw [expression, expression]
  refine (precedence_indifferent hinner .or h).bind ?_
  rintro ⟨target, rest, hlt⟩ ⟨target', rest', hlt'⟩ ⟨htarget, hrest⟩
  dsimp only at htarget hrest
  have hleft := hrest
  obtain ⟨l, after, l', after', rfl, rfl, hl, hafter⟩ := hrest.exists_cons
  dsimp only
  rw [hl.token]
  by_cases hequals : l.token = .symbol .equals
  · rw [if_pos hequals, if_pos hequals]
    refine descend_agree hinner hl.position fun rules hrules => ?_
    refine (hrules.expression (hafter (by simp [hequals])).1).bind fun value value' hvalue => ?_
    -- What is not a variable is refused, at its own position and not at that of the lexeme.
    have hposition := htarget.position
    cases htarget with
    | var name _ => exact .ok ⟨.assign name hvalue.value hl.position, hvalue.rest⟩
    | _ => exact .error _ hposition
  · rw [if_neg hequals, if_neg hequals]
    exact .ok ⟨htarget, hleft⟩

theorem statement_indifferent (around : Surroundings) :
    Indifferent R (Stmt.Alike R) (statement inner around) (statement inner around) := by
  intro ts ts' h
  have hexpression := expression_indifferent hinner h
  obtain ⟨l, after, l', after', rfl, rfl, hl, hafter⟩ := h.exists_cons
  have hp := hl.position
  rw [statement, statement, hl.token]
  split
  · next htoken =>
    obtain ⟨hafter, -⟩ := hafter (by simp [htoken])
    refine (expression_indifferent hinner hafter).bind fun e e' he => ?_
    exact .ok ⟨.print he.value hp, he.rest⟩
  · next htoken =>
    obtain ⟨hafter, -⟩ := hafter (by simp [htoken])
    refine descend_agree hinner hp fun rules hrules => ?_
    refine (blockFrom_indifferent (hrules.declaration around) .nil hp _ _ hafter).bind
      fun body body' hbody => ?_
    exact .ok ⟨.block hbody.value hp, hbody.rest⟩
  · next htoken =>
    obtain ⟨hafter, -⟩ := hafter (by simp [htoken])
    refine (expression_indifferent hinner hafter).bind fun test test' htest => ?_
    refine descend_agree hinner hp fun rules hrules => ?_
    refine (hrules.statement around htest.rest).bind ?_
    rintro ⟨yes, rest, hlt⟩ ⟨yes', rest', hlt'⟩ ⟨hyes, hrest⟩
    dsimp only at hyes hrest
    have hleft := hrest
    obtain ⟨m, more, m', more', rfl, rfl, hm, hmore⟩ := hrest.exists_cons
    dsimp only
    rw [hm.token]
    by_cases helse : m.token = .keyword .else_
    · rw [if_pos helse, if_pos helse]
      refine (hrules.statement around (hmore (by simp [helse])).1).bind fun no no' hno => ?_
      exact .ok ⟨.cond htest.value hyes (.some hno.value) hp, hno.rest⟩
    · rw [if_neg helse, if_neg helse]
      exact .ok ⟨.cond htest.value hyes .none hp, hleft⟩
  · next htoken =>
    obtain ⟨hafter, -⟩ := hafter (by simp [htoken])
    refine (expression_indifferent hinner hafter).bind fun test test' htest => ?_
    refine descend_agree hinner hp fun rules hrules => ?_
    refine (hrules.statement around.loopBody htest.rest).bind fun body body' hbody => ?_
    exact .ok ⟨.loop htest.value hbody.value hp, hbody.rest⟩
  · next htoken =>
    -- This is the one place where a position is looked at.
    obtain ⟨hafter, hreturn⟩ := hafter (by simp [htoken])
    rw [returnsNothing_agree hafter (hreturn htoken)]
    split
    · exact .error _ hp
    · split
      · exact .ok ⟨.return_ .none hp, hafter⟩
      · refine (expression_indifferent hinner hafter).bind fun e e' he => ?_
        exact .ok ⟨.return_ (.some he.value) hp, he.rest⟩
  · next htoken =>
    split
    · exact .ok ⟨.break_ hp, (hafter (by simp [htoken])).1⟩
    · exact .error _ hp
  · next htoken =>
    split
    · exact .ok ⟨.continue_ hp, (hafter (by simp [htoken])).1⟩
    · exact .error _ hp
  · refine hexpression.bind fun e e' he => ?_
    exact .ok ⟨.expression he.value hp, he.rest⟩

theorem variableDeclaration_indifferent {p p' : Position} (hp : R p p') :
    Indifferent R (Stmt.Alike R) (variableDeclaration inner p) (variableDeclaration inner p') := by
  intro ts ts' h
  rw [variableDeclaration, variableDeclaration]
  refine (nameOf_indifferent .variableName h).bind ?_
  rintro ⟨⟨name, q⟩, rest, hlt⟩ ⟨⟨name', q'⟩, rest', hlt'⟩ ⟨⟨hname, -⟩, hrest⟩
  dsimp only at hname hrest
  subst hname
  have hleft := hrest
  obtain ⟨l, after, l', after', rfl, rfl, hl, hafter⟩ := hrest.exists_cons
  dsimp only
  rw [hl.token]
  by_cases hequals : l.token = .symbol .equals
  · rw [if_pos hequals, if_pos hequals]
    refine (expression_indifferent hinner (hafter (by simp [hequals])).1).bind fun e e' he => ?_
    exact .ok ⟨.declare _ (.some he.value) hp, he.rest⟩
  · rw [if_neg hequals, if_neg hequals]
    exact .ok ⟨.declare _ .none hp, hleft⟩

theorem functionDeclaration_indifferent {p p' : Position} (hp : R p p') :
    Indifferent R (Stmt.Alike R) (functionDeclaration inner p) (functionDeclaration inner p') := by
  intro ts ts' h
  rw [functionDeclaration, functionDeclaration]
  refine (nameOf_indifferent .functionName h).bind fun name name' hname => ?_
  refine (expect_indifferent .leftParen .parameterList hname.rest).bind
    fun opening opening' hopening => ?_
  refine (commaSeparated_indifferent (nameOf_indifferent .parameterName) .parameters
    hopening.rest).bind fun parameters parameters' hparameters => ?_
  have hrepeated := repeated?_related [] hparameters.value
  have hnames := map_fst_of_sameName hparameters.value
  generalize repeated? [] parameters.value = first, repeated? [] parameters'.value = first'
    at hrepeated ⊢
  cases hrepeated with
  | @some x y hparameter =>
    obtain ⟨parameter, q⟩ := x
    obtain ⟨parameter', q'⟩ := y
    obtain ⟨hsame, hq⟩ := hparameter
    dsimp only at hsame
    rw [hsame]
    exact .error _ hq
  | none =>
    refine (expect_indifferent .leftBrace .functionBody hparameters.rest).bind
      fun brace brace' hbrace => ?_
    refine descend_agree hinner hbrace.value.position fun rules hrules => ?_
    refine (blockFrom_indifferent (hrules.declaration .functionBody) .nil hbrace.value.position
      _ _ hbrace.rest).bind fun body body' hbody => ?_
    rw [hname.value.1, hnames]
    exact .ok ⟨.function _ _ hbody.value hp, hbody.rest⟩

theorem declaration_indifferent (around : Surroundings) :
    Indifferent R (Stmt.Alike R) (declaration inner around) (declaration inner around) := by
  intro ts ts' h
  have hstatement := statement_indifferent hinner around h
  obtain ⟨l, after, l', after', rfl, rfl, hl, hafter⟩ := h.exists_cons
  rw [declaration, declaration, hl.token]
  split
  · next htoken =>
    refine (variableDeclaration_indifferent hinner hl.position
      (hafter (by simp [htoken])).1).bind fun s s' hs => ?_
    exact .ok ⟨hs.value, hs.rest⟩
  · next htoken =>
    refine (functionDeclaration_indifferent hinner hl.position
      (hafter (by simp [htoken])).1).bind fun s s' hs => ?_
    exact .ok ⟨hs.value, hs.rest⟩
  · exact hstatement

theorem Rules.allIndifferent_around : (Rules.around inner).AllIndifferent R where
  expression := expression_indifferent hinner
  precedence := precedence_indifferent hinner
  operators := operators_indifferent hinner
  unary := unary_indifferent hinner
  calls := calls_indifferent hinner
  statement := statement_indifferent hinner
  declaration := declaration_indifferent hinner

end Level

/-! ## All levels -/

theorem Rules.allIndifferent_withRoom (room : Nat) : (Rules.withRoom room).AllIndifferent R := by
  -- The rules at one level ask only those one level further in, if there are any.
  induction room with
  | zero => exact allIndifferent_around fun rules h => by cases h
  | succ room ih =>
    refine allIndifferent_around fun rules h => ?_
    cases h
    exact ih

/-- **Lexemes that correspond are read in the same way.** -/
theorem parse_agree (h : Corresponding R ts ts') :
    Agree R (List.Forall₂ (Stmt.Alike R)) (parse ts) (parse ts') :=
  programFrom_indifferent ((Rules.allIndifferent_withRoom maxNesting).declaration .outermost) .nil h

/-! ## Lexemes with the same index -/

/-- Where the lexeme with an index stands. -/
def placeAt (ls : List Lexeme) (i : Nat) : Position := nextPosition (ls.drop i)

/-- These are the positions of two lexemes with the same index. -/
def SamePlace (ls ls' : List Lexeme) (p p' : Position) : Prop :=
  ∃ i < ls.length, placeAt ls i = p ∧ placeAt ls' i = p'

/-- The same lexemes, the end of the input last, laid out in two ways: if a lexeme is a `return`,
the next one is on its line in both lists or in neither. -/
structure SameButLayout (ls ls' : List Lexeme) : Prop where
  lexemes : ls'.map (fun l => (l.token, l.text)) = ls.map (fun l => (l.token, l.text))
  ended : ls.getLast?.map (·.token) = some .endOfInput
  returns : ∀ i < ls.length, ls[i]?.map (·.token) = some (.keyword .return_) →
    ((placeAt ls (i + 1)).line = (placeAt ls i).line ↔
      (placeAt ls' (i + 1)).line = (placeAt ls' i).line)

instance (ls ls' : List Lexeme) : Decidable (SameButLayout ls ls') :=
  decidable_of_iff
    (ls'.map (fun l => (l.token, l.text)) = ls.map (fun l => (l.token, l.text)) ∧
      ls.getLast?.map (·.token) = some .endOfInput ∧
      ∀ i < ls.length, ls[i]?.map (·.token) = some (.keyword .return_) →
        ((placeAt ls (i + 1)).line = (placeAt ls i).line ↔
          (placeAt ls' (i + 1)).line = (placeAt ls' i).line))
    ⟨fun h => ⟨h.1, h.2.1, h.2.2⟩, fun h => ⟨h.lexemes, h.ended, h.returns⟩⟩

theorem SameButLayout.length_eq (h : SameButLayout ts ts') : ts'.length = ts.length := by
  simpa using congrArg List.length h.lexemes

/-- Such lists correspond, whatever holds of the positions of lexemes with the same index. -/
theorem SameButLayout.corresponding (h : SameButLayout ts ts')
    (hR : ∀ i < ts.length, R (placeAt ts i) (placeAt ts' i)) : Corresponding R ts ts' := by
  induction ts generalizing ts' with
  | nil => exact absurd h.ended (by simp)
  | cons l ts ih =>
    obtain ⟨hlexemes, hended, hreturns⟩ := h
    cases ts' with
    | nil => simp at hlexemes
    | cons l' ts' =>
      rw [List.map_cons, List.map_cons, List.cons.injEq, Prod.mk.injEq] at hlexemes
      obtain ⟨⟨htoken, htext⟩, hlexemes⟩ := hlexemes
      have hl : l.Alike R l' := ⟨htoken, htext, hR 0 (by simp)⟩
      by_cases hend : l.token = .endOfInput
      -- Nothing behind an end is looked at, so nothing is asked of it either.
      · exact .stop ts ts' hl hend
      · refine .cons hl hend (fun hreturn => ?_) (ih ⟨hlexemes, ?_, fun i hi => ?_⟩ fun i hi => ?_)
        · exact hreturns 0 (by simp) (by simpa using hreturn)
        · cases ts with
          | nil => simp [hend] at hended
          | cons m ts => simpa using hended
        · have hnext := hreturns (i + 1) (by simpa using hi)
          rwa [List.getElem?_cons_succ] at hnext
        · exact hR (i + 1) (by simpa using hi)

end Grammar

end Scripting
