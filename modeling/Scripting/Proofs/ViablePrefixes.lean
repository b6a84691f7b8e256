/-
What is missing at the end of a prefix.

Lexemes that are accepted are cut off somewhere and ended there. Nothing in front of the cut is then
to blame: either the prefix is accepted too, or the fault is that it ends, told where the end is or
at the brace of a block that is open there.

A rule that has been cut off inside of what it reads comes to the end, either with something shorter
that it has read up to there or with such a fault, and this goes for each rule as it goes for the
rules one level further in. In front of the cut a rule does what it did before, since it is local.
A list in parentheses and a block never come out shorter, so that what is checked of a whole
list has been checked before.
-/
import Scripting.Proofs.Lookahead

set_option autoImplicit false

namespace Scripting

namespace Grammar

/-! ## Faults of the end -/

/-- The faults that lexemes have that are `seen` and then end, at the lexeme `e`. -/
inductive EndFault (seen : List Lexeme) (e : Lexeme) : ParseError → Prop
  | unexpected : EndFault seen e ⟨.unexpectedEndOfInput, e.position⟩
  | expected (what : Expectation) : EndFault seen e ⟨.expectedToken what .endOfInput, e.position⟩
  | block {l : Lexeme} : l ∈ seen → l.token = .symbol .leftBrace →
      EndFault seen e ⟨.unterminatedBlock, l.position⟩

/-- The reading has failed because the lexemes end. -/
def Faulted {α : Type} (seen : List Lexeme) (e : Lexeme) (x : Except ParseError α) : Prop :=
  ∃ err, x = .error err ∧ EndFault seen e err

/-- The reading has come to the end: something was read up to there, or it has failed there. -/
def Ended {α : Type} {bound : Nat} (seen : List Lexeme) (e : Lexeme)
    (x : Except ParseError (Parsed α bound)) : Prop :=
  (∃ v, Yields x v [e]) ∨ Faulted seen e x

section Ended

variable {α β : Type} {bound bound' : Nat} {seen seen' : List Lexeme} {e : Lexeme}

theorem EndFault.mono (hsub : seen ⊆ seen') {err : ParseError} (h : EndFault seen e err) :
    EndFault seen' e err := by
  cases h with
  | unexpected => exact .unexpected
  | expected what => exact .expected what
  | block hl hbrace => exact .block (hsub hl) hbrace

theorem Faulted.mono (hsub : seen ⊆ seen') {x : Except ParseError α} (h : Faulted seen e x) :
    Faulted seen' e x := by
  obtain ⟨err, hx, herr⟩ := h
  exact ⟨err, hx, herr.mono hsub⟩

theorem Ended.mono (hsub : seen ⊆ seen') {x : Except ParseError (Parsed α bound)}
    (h : Ended seen e x) : Ended seen' e x :=
  h.imp_right (·.mono hsub)

theorem Faulted.bind {x : Except ParseError α} (h : Faulted seen e x)
    (f : α → Except ParseError β) : Faulted seen e (x >>= f) := by
  obtain ⟨err, rfl, herr⟩ := h
  exact ⟨err, rfl, herr⟩

/-- What has come to the end goes on there. -/
theorem Ended.bind {x : Except ParseError (Parsed α bound)} (h : Ended seen e x)
    {f : Parsed α bound → Except ParseError (Parsed β bound')}
    (hf : ∀ y, y.rest = [e] → Ended seen e (f y)) : Ended seen e (x >>= f) := by
  rcases h with ⟨v, y, rfl, -, hrest⟩ | h
  · exact hf y hrest
  · exact .inr (h.bind f)

theorem ended_ok {y : Parsed α bound} (h : y.rest = [e]) : Ended seen e (.ok y) :=
  .inl ⟨y.value, yields_ok.mpr ⟨rfl, h⟩⟩

/-- A rule that is at the end can only fail. -/
theorem Ended.faulted {rule : Rule α} (h : Ended seen e (rule [e])) :
    Faulted seen e (rule [e]) := by
  rcases h with ⟨v, y, -, -, hrest⟩ | h
  · have hlt := y.rest_lt
    rw [hrest] at hlt
    exact absurd hlt (Nat.lt_irrefl _)
  · exact h

end Ended

/-! ## Cuts

Throughout, `seen` is the part of the lexemes in front of the cut and `left` the part behind it.
What has been read reaches beyond the cut if less is left over than `left`. -/

/-- A local rule that comes to the end if it is cut off inside of what it reads, or is at the end
already. -/
structure Viable {α : Type} {bound : List Lexeme → Nat} (e : Lexeme)
    (rule : (ts : List Lexeme) → Except ParseError (Parsed α (bound ts))) : Prop where
  isLocal : Local fun ts => Yields (rule ts)
  atEnd : Ended [] e (rule [e])
  cut {ts : List Lexeme} {v : α} {rest seen left : List Lexeme} : Yields (rule ts) v rest →
    ts = seen ++ left → rest.length < left.length → Ended seen e (rule (seen ++ [e]))

/-- What is read in front of the cut is read in the same way if the lexemes end there. -/
theorem Local.uncut {α : Type} {read : List Lexeme → α → List Lexeme → Prop} (hread : Local read)
    {ts mid seen left : List Lexeme} {v : α} (h : read ts v mid) (hts : ts = seen ++ left)
    (hle : left.length ≤ mid.length) {e : Lexeme} (he : e.token = .endOfInput) :
    ∃ more, mid = more ++ left ∧ more ⊆ seen ∧ read (seen ++ [e]) v (more ++ [e]) := by
  obtain ⟨taken, rfl, -, hread'⟩ := hread h
  obtain ⟨more, rfl, rfl⟩ | ⟨more, rfl, rfl⟩ := List.append_eq_append_iff.mp hts
  · refine ⟨more, rfl, List.subset_append_right _ _, ?_⟩
    rw [List.append_assoc]
    refine hread' _ ?_
    cases more with
    | nil => exact .inr (.inr (by simp [he]))
    | cons l more => exact .inl rfl
  · -- The other way round nothing is behind the part that was read.
    obtain rfl : more = [] := by
      rw [List.length_append] at hle
      exact List.length_eq_zero_iff.mp (by omega)
    refine ⟨[], by simp, by simp, ?_⟩
    have hread'' := hread' [e] (.inr (.inr (by simp [he])))
    rwa [List.append_nil] at hread''

section Bind

variable {α β : Type} {bound : List Lexeme → Nat} {bound' : Nat} {e : Lexeme}
  {rule : (ts : List Lexeme) → Except ParseError (Parsed α (bound ts))}
  {ts mid rest seen left : List Lexeme} {v : α} (hrule : Viable e rule)
  (he : e.token = .endOfInput)

include hrule he

/-- Cut off directly behind what it reads, the rule comes to the end as well. -/
theorem Viable.within (h : Yields (rule ts) v mid) (hts : ts = seen ++ left)
    (hle : mid.length ≤ left.length) : Ended seen e (rule (seen ++ [e])) := by
  rcases Nat.lt_or_eq_of_le hle with hlt | heq
  · exact hrule.cut h hts hlt
  · obtain ⟨more, rfl, -, hyields⟩ := hrule.isLocal.uncut h hts (Nat.le_of_eq heq.symm) he
    rw [List.length_append] at heq
    obtain rfl : more = [] := List.length_eq_zero_iff.mp (by omega)
    exact .inl ⟨v, hyields⟩

/-- Two rules one after the other: the first comes to the end, where the second fails or reads
nothing, or it reads what it did before and the cut is in what the second reads. -/
theorem Viable.seq {γ : Type} {bound'' : List Lexeme → Nat}
    {next : α → (ts : List Lexeme) → Except ParseError (Parsed γ (bound'' ts))} {w : γ}
    (hnext : ∀ v, Viable e (next v)) (h : Yields (rule ts) v mid)
    (h' : Yields (next v mid) w rest) (hts : ts = seen ++ left) (hle : rest.length ≤ left.length)
    {f : Parsed α (bound (seen ++ [e])) → Except ParseError (Parsed β bound')}
    (hf : ∀ y, Ended seen e (next y.value y.rest) → Ended seen e (f y)) :
    Ended seen e (rule (seen ++ [e]) >>= f) := by
  rcases Nat.lt_or_ge left.length mid.length with hlt | hge
  · obtain ⟨more, hmid, hsub, y, hy, hvalue, hrest⟩ :=
      hrule.isLocal.uncut h hts (Nat.le_of_lt hlt) he
    have hcut := (hnext v).within he h' hmid hle
    rw [← hrest, ← hvalue] at hcut
    rw [hy]
    exact hf y (hcut.mono hsub)
  · refine (hrule.within he h hts hge).bind fun y hrest => hf y ?_
    rw [hrest]
    exact (hnext _).atEnd.mono (List.nil_subset _)

end Bind

/-! ## Single lexemes and lists -/

section Lists

variable {e : Lexeme} (he : e.token = .endOfInput) {seen : List Lexeme}

include he

theorem expect_faulted (mark : Symbol) (what : Expectation) :
    Faulted seen e (expect mark what [e]) := by
  refine ⟨⟨.expectedToken what .endOfInput, e.position⟩, ?_, .expected what⟩
  rw [expect, if_neg (by simp [he]), he, report_parseError]

theorem nameOf_viable (what : Expectation) : Viable e (nameOf what) := by
  have hend : Faulted [] e (nameOf what [e]) := by
    refine ⟨⟨.expectedToken what .endOfInput, e.position⟩, ?_, .expected what⟩
    simp [nameOf, he]
  refine ⟨nameOf_local what, .inr hend, fun {ts n rest seen left} h hts hlt => ?_⟩
  obtain ⟨l, rfl, -⟩ := (yields_nameOf what).mp h
  obtain ⟨rfl, -⟩ | ⟨seen, rfl, rfl⟩ := List.cons_eq_append_iff.mp hts
  · exact .inr hend
  · exact absurd hlt (by simp)

variable {α : Type} {item : Rule α}

/-- An item that comes to the end is followed by the end, which is neither comma nor parenthesis. -/
theorem itemsFrom_of_ended (what : Listing) (room : Nat) {ts : List Lexeme}
    (h : Ended seen e (item ts)) : Faulted seen e (itemsFrom what item (room + 1) ts) := by
  rw [itemsFrom]
  rcases h with ⟨v, y, hy, -, hrest⟩ | h
  · rw [bind_of_ok hy]
    split
    · next hnil => cases hrest.symm.trans hnil
    · next hcons =>
      cases hrest.symm.trans hcons
      rw [if_neg (by simp [he]), if_neg (by simp [he]), he]
      exact ⟨_, rfl, .expected _⟩
  · exact h.bind _

variable (hitem : Viable e item)

include hitem

/-- The items of a list are cut off before the list is closed. -/
theorem itemsFrom_faulted (what : Listing) {room : Nat} {ts rest left : List Lexeme} {xs : List α}
    (h : ItemsRead item ts xs rest) (hlen : xs.length ≤ room) (hts : ts = seen ++ left)
    (hlt : rest.length < left.length) :
    Faulted seen e (itemsFrom what item room (seen ++ [e])) := by
  induction h generalizing seen room with
  | last hx hl =>
    obtain ⟨room, rfl⟩ := Nat.exists_eq_add_of_le' hlen
    exact itemsFrom_of_ended he what room (hitem.within he hx hts (Nat.succ_le_of_lt hlt))
  | @more ts x l after xs rest hx hl _ ih =>
    obtain ⟨room, rfl⟩ := Nat.exists_eq_add_of_le' (Nat.le_trans (Nat.le_add_left 1 _) hlen)
    rcases Nat.lt_or_ge after.length left.length with hbefore | hbehind
    · exact itemsFrom_of_ended he what room (hitem.within he hx hts (Nat.succ_le_of_lt hbefore))
    · obtain ⟨more, hmid, hsub, y, hy, -, hrest⟩ :=
        hitem.isLocal.uncut hx hts (Nat.le_succ_of_le hbehind) he
      obtain ⟨rfl, hleft⟩ | ⟨more, rfl, rfl⟩ := List.cons_eq_append_iff.mp hmid
      · rw [hleft, List.length_cons] at hbehind
        omega
      · have hmore := ih (Nat.le_of_succ_le_succ hlen) rfl hlt
        rw [itemsFrom]
        rw [bind_of_ok hy]
        split
        · next hnil => cases hrest.symm.trans hnil
        · next hcons =>
          cases hrest.symm.trans hcons
          rw [if_pos hl]
          exact (hmore.mono fun l' hl' => hsub (List.mem_cons_of_mem l hl')).bind _

/-- A list in parentheses is cut off before it is closed. -/
theorem commaSeparated_faulted (what : Listing) {ts rest left : List Lexeme} {xs : List α}
    (h : ListRead item ts xs rest) (hlen : xs.length ≤ maxItems) (hts : ts = seen ++ left)
    (hlt : rest.length < left.length) :
    Faulted seen e (commaSeparated what item (seen ++ [e])) := by
  have hend : Faulted [] e (commaSeparated what item [e]) := by
    rw [commaSeparated, if_neg (by simp [he])]
    exact itemsFrom_of_ended he what (maxItems - 1) hitem.atEnd
  cases seen with
  | nil => exact hend
  | cons l seen =>
    cases h with
    | none =>
      cases hts
      exact absurd hlt (by simp)
    | some hnext hitems =>
      subst hts
      rw [List.cons_append, commaSeparated, if_neg (by simpa using hnext)]
      exact itemsFrom_faulted he hitem what hitems hlen rfl hlt

end Lists

/-! ## Lists of statements -/

section Statements

variable {e : Lexeme} (he : e.token = .endOfInput) {ts seen left : List Lexeme}

include he

/-- The semicolons in front of a statement, cut off among them or behind them. -/
theorem dropWhile_cut {l : Lexeme} {after : List Lexeme}
    (hdrop : ts.dropWhile isSemicolon = l :: after) (hts : ts = seen ++ left) :
    (seen ++ [e]).dropWhile isSemicolon = [e] ∨
      ∃ more, (seen ++ [e]).dropWhile isSemicolon = l :: (more ++ [e]) ∧ after = more ++ left ∧
        l :: more ⊆ seen := by
  induction seen generalizing ts with
  | nil => exact .inl (List.dropWhile_cons_of_neg (by simp [isSemicolon, he]))
  | cons s seen ih =>
    subst hts
    by_cases hs : isSemicolon s
    · rw [List.cons_append, List.dropWhile_cons_of_pos hs] at hdrop ⊢
      obtain hend | ⟨more, hmore, hafter, hsub⟩ := ih hdrop rfl
      · exact .inl hend
      · exact .inr ⟨more, hmore, hafter, fun l' hl' => List.mem_cons_of_mem s (hsub hl')⟩
    · rw [List.cons_append, List.dropWhile_cons_of_neg hs] at hdrop ⊢
      cases hdrop
      exact .inr ⟨seen, rfl, rfl, List.Subset.refl _⟩

/-- Where only semicolons are in front of the end, only semicolons are in front of the cut. -/
theorem dropWhile_atEnd (hend : ∀ l, (ts.dropWhile isSemicolon).head? = some l →
      l.token = .endOfInput) (hts : ts = seen ++ left) {l : Lexeme}
    (hl : ((seen ++ [e]).dropWhile isSemicolon).head? = some l) : l.token = .endOfInput := by
  induction seen generalizing ts with
  | nil =>
    rw [List.nil_append, List.dropWhile_cons_of_neg (by simp [isSemicolon, he])] at hl
    cases hl
    exact he
  | cons s seen ih =>
    subst hts
    by_cases hs : isSemicolon s
    · rw [List.cons_append, List.dropWhile_cons_of_pos hs] at hend hl
      exact ih hend rfl hl
    · rw [List.cons_append, List.dropWhile_cons_of_neg hs] at hend hl
      exact hend l hl

variable {declaration : Rule Stmt}

theorem blockFrom_atEnd (opening : Position) {bound : Nat} (read : List Stmt)
    (fits : ts.length ≤ bound) (hdrop : ts.dropWhile isSemicolon = [e]) :
    blockFrom declaration opening bound read ts fits =
      .error ⟨.unterminatedBlock, opening⟩ := by
  refine blockFrom_unterminated opening read fits fun l hl => ?_
  rw [hdrop] at hl
  cases hl
  exact he

variable (hdeclaration : Viable e declaration)

include hdeclaration

/-- A block is cut off before it is closed. -/
theorem blockFrom_faulted {opening : Lexeme} (hopening : opening.token = .symbol .leftBrace)
    {rest : List Lexeme} {body : List Stmt} (h : BlockRead declaration ts body rest)
    (hts : ts = seen ++ left) (hlt : rest.length < left.length) {bound : Nat} (read : List Stmt)
    (fits : (seen ++ [e]).length ≤ bound) :
    Faulted (opening :: seen) e
      (blockFrom declaration opening.position bound read (seen ++ [e]) fits) := by
  have hopen {seen : List Lexeme} :
      EndFault (opening :: seen) e ⟨.unterminatedBlock, opening.position⟩ :=
    .block List.mem_cons_self hopening
  induction h generalizing seen read with
  | close hdrop hl =>
    obtain hend | ⟨more, -, rfl, -⟩ := dropWhile_cut he hdrop hts
    · exact ⟨_, blockFrom_atEnd he _ read fits hend, hopen⟩
    · exact absurd hlt (by simp)
  | @more ts l after s mid body rest hdrop hbrace hl hs _ ih =>
    obtain hend | ⟨taken, htaken, rfl, hsub⟩ := dropWhile_cut he hdrop hts
    · exact ⟨_, blockFrom_atEnd he _ read fits hend, hopen⟩
    · rcases Nat.lt_or_ge left.length mid.length with hbehind | hwithin
      · obtain ⟨more, hmid, hsub', hs'⟩ :=
          hdeclaration.isLocal.uncut hs (List.cons_append (a := l)).symm (Nat.le_of_lt hbehind) he
        obtain ⟨fits', heq⟩ := blockFrom_eq htaken hl opening.position read fits hbrace hs'
        rw [heq]
        exact (ih hmid hlt (s :: read) fits').mono
          (List.cons_subset_cons _ (List.Subset.trans hsub' hsub))
      · obtain ⟨s', hs'⟩ | ⟨err, herr, hfault⟩ :=
          hdeclaration.within he hs (List.cons_append (a := l)).symm hwithin
        · obtain ⟨fits', heq⟩ := blockFrom_eq htaken hl opening.position read fits hbrace hs'
          rw [heq]
          exact ⟨_, blockFrom_atEnd he _ _ fits'
            (List.dropWhile_cons_of_neg (by simp [isSemicolon, he])), hopen⟩
        · exact ⟨err, blockFrom_error htaken hl _ read fits hbrace herr,
            hfault.mono (List.subset_cons_of_subset _ hsub)⟩

end Statements

/-! ## One level -/

/-- The rules at one level come to the end when they are cut off. -/
structure Rules.AllViable (e : Lexeme) (rules : Rules) : Prop where
  expression : Viable e rules.expression
  precedence (least : Precedence) : Viable e (rules.precedence least)
  operators (least : Precedence) (left : Expr) : Viable e (rules.operators least left)
  unary : Viable e rules.unary
  calls (callee : Expr) : Viable e (rules.calls callee)
  statement (around : Surroundings) : Viable e (rules.statement around)
  declaration (around : Surroundings) : Viable e (rules.declaration around)

theorem Rules.AllViable.allLocal {e : Lexeme} {rules : Rules} (h : rules.AllViable e) :
    rules.AllLocal where
  expression := h.expression.isLocal
  precedence least := (h.precedence least).isLocal
  operators least left := (h.operators least left).isLocal
  unary := h.unary.isLocal
  calls callee := (h.calls callee).isLocal
  statement around := (h.statement around).isLocal
  declaration around := (h.declaration around).isLocal

section Level

variable {e : Lexeme} (he : e.token = .endOfInput) {inner : Option Rules}
  (hinner : ∀ rules, inner = some rules → rules.AllViable e)

/-! ### At the end -/

include he

theorem primary_atEnd (inner : Option Rules) : Faulted [] e (primary inner [e]) := by
  refine ⟨⟨.unexpectedEndOfInput, e.position⟩, ?_, .unexpected⟩
  simp [primary, unexpected, he]

theorem calls_atEnd (inner : Option Rules) (callee : Expr) :
    Ended [] e (calls inner callee [e]) := by
  rw [calls, if_neg (by simp [he])]
  exact ended_ok rfl

theorem unary_atEnd (inner : Option Rules) : Faulted [] e (unary inner [e]) := by
  simp only [unary, he, UnaryOperator.ofToken?]
  exact (primary_atEnd he inner).bind _

theorem operators_atEnd (inner : Option Rules) (least : Precedence) (operand : Expr) :
    Ended [] e (operators inner least operand [e]) := by
  simp only [operators, he, BinaryOperator.ofToken?]
  exact ended_ok rfl

theorem expression_atEnd (inner : Option Rules) : Faulted [] e (expression inner [e]) :=
  ((unary_atEnd he inner).bind _).bind _

theorem statement_atEnd (inner : Option Rules) (around : Surroundings) :
    Faulted [] e (statement inner around [e]) := by
  simp only [statement, he]
  exact (expression_atEnd he inner).bind _

theorem declaration_atEnd (inner : Option Rules) (around : Surroundings) :
    Faulted [] e (declaration inner around [e]) := by
  simp only [declaration, he]
  exact statement_atEnd he inner around

/-! ### Expressions -/

omit he in
include hinner in
theorem Rules.allLocal_of_viable : (Rules.around inner).AllLocal :=
  allLocal_around fun rules h => (hinner rules h).allLocal

include hinner

theorem primary_viable : Viable e (primary inner) := by
  refine ⟨primary_local fun rules h => (hinner rules h).allLocal, .inr (primary_atEnd he inner),
    fun {ts x rest seen left} h hts hlt => ?_⟩
  cases primaryRead_of_yields h with
  | literal hl | var hl =>
    obtain ⟨rfl, -⟩ | ⟨seen, rfl, rfl⟩ := List.cons_eq_append_iff.mp hts
    · exact .inr (primary_atEnd he inner)
    · exact absurd hlt (by simp)
  | @group l ts rules x close rest hl hrules hx hclose =>
    obtain ⟨rfl, -⟩ | ⟨seen, rfl, rfl⟩ := List.cons_eq_append_iff.mp hts
    · exact .inr (primary_atEnd he inner)
    · have hcut := (hinner _ hrules).expression.within he hx rfl (Nat.succ_le_of_lt hlt)
      simp only [List.cons_append, primary, hl, hrules]
      refine (hcut.mono (List.subset_cons_self l seen)).bind fun y hrest => ?_
      have hfault : Faulted (l :: seen) e (expect .rightParen .closingParen y.rest) := by
        rw [hrest]
        exact expect_faulted he _ _
      exact .inr (hfault.bind _)

theorem calls_viable (callee : Expr) : Viable e (calls inner callee) := by
  refine ⟨(Rules.allLocal_of_viable hinner).calls callee, calls_atEnd he inner callee,
    fun {ts x rest seen left} h hts hlt => ?_⟩
  cases yields_calls.mp h with
  | done => exact absurd hlt (by simp [hts])
  | @call l ts rules arguments after x rest hl hrules harguments hlen hmore =>
    obtain ⟨rfl, -⟩ | ⟨seen, rfl, rfl⟩ := List.cons_eq_append_iff.mp hts
    · exact calls_atEnd he inner callee
    · have hexpression := (hinner _ hrules).expression
      simp only [List.cons_append, calls, if_pos hl, hrules]
      refine Ended.mono (List.subset_cons_self l seen) ?_
      rcases Nat.lt_or_ge after.length left.length with hwithin | hbehind
      · exact .inr ((commaSeparated_faulted he hexpression .arguments harguments hlen rfl
          hwithin).bind _)
      · obtain ⟨more, rfl, hsub, hread⟩ :=
          (listRead_local hexpression.isLocal).uncut harguments rfl hbehind he
        obtain ⟨y, hy, hvalue, hrest⟩ := (yields_commaSeparated .arguments).mpr ⟨hread, hlen⟩
        have hcut := ((hinner _ hrules).calls _).cut hmore rfl hlt
        rw [← hrest, ← hvalue] at hcut
        rw [bind_of_ok (descend_eq_ok.mpr rfl), bind_of_ok hy]
        exact (hcut.mono hsub).bind fun z hz => ended_ok hz

theorem unary_viable : Viable e (unary inner) := by
  refine ⟨(Rules.allLocal_of_viable hinner).unary, .inr (unary_atEnd he inner),
    fun {ts x rest seen left} h hts hlt => ?_⟩
  cases unaryRead_of_yields h with
  | @operator l ts op rules x rest hop hrules hx =>
    obtain ⟨rfl, -⟩ | ⟨seen, rfl, rfl⟩ := List.cons_eq_append_iff.mp hts
    · exact .inr (unary_atEnd he inner)
    · have hcut := (hinner _ hrules).unary.cut hx rfl hlt
      simp only [List.cons_append, unary, hop, hrules]
      exact (hcut.mono (List.subset_cons_self l seen)).bind fun y hy => ended_ok hy
  | @calls _ after _ callee _ hcallee hcalls =>
    obtain ⟨l, ts, rfl, hop⟩ := hcallee.begins
    obtain ⟨rfl, -⟩ | ⟨seen, rfl, rfl⟩ := List.cons_eq_append_iff.mp hts
    · exact .inr (unary_atEnd he inner)
    · simp only [List.cons_append, unary, hop]
      exact (primary_viable he hinner).seq he (calls_viable he hinner) hcallee.yields
        (yields_calls.mpr hcalls) hts (Nat.le_of_lt hlt) fun y hy => hy.bind fun z hz => ended_ok hz

theorem operators_viable (least : Precedence) (operand : Expr) :
    Viable e (operators inner least operand) := by
  refine ⟨(Rules.allLocal_of_viable hinner).operators least operand,
    operators_atEnd he inner least operand, fun {ts x rest seen left} h hts hlt => ?_⟩
  cases yields_operators.mp h with
  | done => exact absurd hlt (by simp [hts])
  | @operator l ts op rules right after x rest hop hle hrules hright hmore =>
    obtain ⟨rfl, -⟩ | ⟨seen, rfl, rfl⟩ := List.cons_eq_append_iff.mp hts
    · exact operators_atEnd he inner least operand
    · simp only [List.cons_append, operators, hop, if_pos hle, hrules]
      refine Ended.mono (List.subset_cons_self l seen) ?_
      exact ((hinner _ hrules).precedence _).seq he
        (fun v => (hinner _ hrules).operators least (.binary op operand v l.position)) hright hmore
        rfl (Nat.le_of_lt hlt) fun y hy => hy.bind fun z hz => ended_ok hz

theorem precedence_viable (least : Precedence) : Viable e (precedence inner least) := by
  refine ⟨(Rules.allLocal_of_viable hinner).precedence least, .inr ((unary_atEnd he inner).bind _),
    fun {ts x rest seen left} h hts hlt => ?_⟩
  obtain ⟨hleft, hmore⟩ := yields_precedence.mp h
  exact (unary_viable he hinner).seq he (operators_viable he hinner least) hleft.yields
    (yields_operators.mpr hmore) hts (Nat.le_of_lt hlt) fun y hy => hy.bind fun z hz => ended_ok hz

omit hinner in
/-- Nothing is assigned to what comes to the end. -/
theorem expression_of_ended {ts seen : List Lexeme} (h : Ended seen e (precedence inner .or ts)) :
    Ended seen e (expression inner ts) := by
  refine h.bind fun y hrest => ?_
  split
  · next hnil => cases hrest.symm.trans hnil
  · next hcons =>
    cases hrest.symm.trans hcons
    rw [if_neg (by simp [he])]
    exact ended_ok rfl

theorem expression_viable : Viable e (expression inner) := by
  refine ⟨(Rules.allLocal_of_viable hinner).expression, .inr (expression_atEnd he inner),
    fun {ts x rest seen left} h hts hlt => ?_⟩
  have hprecedence := precedence_viable he hinner .or
  cases expressionRead_of_yields h with
  | plain hx => exact expression_of_ended he (hprecedence.cut (yields_precedence.mpr hx) hts hlt)
  | @assign after _ name p l rules x htarget hl hrules hx =>
    rcases Nat.lt_or_ge after.length left.length with hwithin | hbehind
    · exact expression_of_ended he (hprecedence.within he (yields_precedence.mpr htarget) hts
        (Nat.succ_le_of_lt hwithin))
    · obtain ⟨more, hmid, hsub, y, hy, hvalue, hrest⟩ := hprecedence.isLocal.uncut
        (yields_precedence.mpr htarget) hts (Nat.le_succ_of_le hbehind) he
      obtain ⟨rfl, hleft⟩ | ⟨more, rfl, rfl⟩ := List.cons_eq_append_iff.mp hmid
      · rw [hleft, List.length_cons] at hbehind
        omega
      · have hcut := (hinner _ hrules).expression.cut hx rfl hlt
        rw [expression]
        rw [bind_of_ok hy]
        split
        · next hnil => cases hrest.symm.trans hnil
        · next hcons =>
          cases hrest.symm.trans hcons
          simp only [if_pos hl, hrules]
          refine (hcut.mono fun l' hl' => hsub (List.mem_cons_of_mem l hl')).bind fun z hz => ?_
          split
          · exact ended_ok hz
          · next hother => exact absurd hvalue (hother name p)

/-! ### Statements -/

section Conditional

variable {around : Surroundings} {l : Lexeme} {ts after seen left : List Lexeme} {test : Expr}
  {rules : Rules} {yes : Stmt}

/-- A conditional that is cut off before the end of its first branch, or there. -/
theorem conditional_within (hl : l.token = .keyword .if_)
    (htest : ExpressionRead inner ts test after) (hrules : inner = some rules) {rest : List Lexeme}
    (hyes : Yields (rules.statement around after) yes rest) (hts : ts = seen ++ left)
    (hle : rest.length ≤ left.length) :
    Ended seen e (statement inner around (l :: (seen ++ [e]))) := by
  simp only [statement, hl]
  subst hrules
  refine (expression_viable he hinner).seq he (fun _ => (hinner _ rfl).statement around)
    htest.yields hyes hts hle fun y hy => ?_
  refine hy.bind fun z hz => ?_
  split
  · next hnil => cases hz.symm.trans hnil
  · next hcons =>
    cases hz.symm.trans hcons
    rw [if_neg (by simp [he])]
    exact ended_ok rfl

/-- A conditional that is cut off in its second branch. -/
theorem conditional_else (hl : l.token = .keyword .if_) (htest : ExpressionRead inner ts test after)
    (hrules : inner = some rules) {other : Lexeme} {between rest : List Lexeme} {no : Stmt}
    (hyes : Yields (rules.statement around after) yes (other :: between))
    (hother : other.token = .keyword .else_) (hno : Yields (rules.statement around between) no rest)
    (hts : ts = seen ++ left) (hbehind : left.length ≤ between.length)
    (hlt : rest.length < left.length) :
    Ended seen e (statement inner around (l :: (seen ++ [e]))) := by
  have hstatement := (hinner _ hrules).statement around
  have hle : left.length ≤ after.length := by
    obtain ⟨y, -, -, hrest⟩ := hyes
    have hlt' := y.rest_lt
    rw [hrest, List.length_cons] at hlt'
    omega
  obtain ⟨more, hafter, hsub, y, hy, -, hrest⟩ :=
    (expression_viable he hinner).isLocal.uncut htest.yields hts hle he
  obtain ⟨more', hmid, hsub', hyes'⟩ :=
    hstatement.isLocal.uncut hyes hafter (Nat.le_succ_of_le hbehind) he
  obtain ⟨rfl, hleft⟩ | ⟨last, rfl, rfl⟩ := List.cons_eq_append_iff.mp hmid
  · rw [hleft, List.length_cons] at hbehind
    omega
  · have hcut := hstatement.cut hno rfl hlt
    rw [← hrest] at hyes'
    obtain ⟨z, hz, -, hrest'⟩ := hyes'
    simp only [statement, hl]
    rw [bind_of_ok hy, bind_of_ok (descend_eq_ok.mpr hrules), bind_of_ok hz]
    split
    · next hnil => cases hrest'.symm.trans hnil
    · next hcons =>
      cases hrest'.symm.trans hcons
      rw [if_pos hother]
      exact (hcut.mono fun l' hl' => hsub (hsub' (List.mem_cons_of_mem _ hl'))).bind
        fun w hw => ended_ok hw

end Conditional

theorem statement_viable (around : Surroundings) : Viable e (statement inner around) := by
  refine ⟨(Rules.allLocal_of_viable hinner).statement around,
    .inr (statement_atEnd he inner around),
    fun {ts s rest seen left} h hts hlt => ?_⟩
  have hexpression := expression_viable he hinner
  cases seen with
  | nil => exact .inr (statement_atEnd he inner around)
  | cons first seen =>
    rw [List.cons_append]
    cases statementRead_of_yields h with
    | @print l ts rest x hl hx =>
      obtain ⟨rfl, rfl⟩ := List.cons_eq_cons.mp hts
      simp only [statement, hl]
      refine Ended.mono (List.subset_cons_self l seen) ?_
      exact (hexpression.cut hx.yields rfl hlt).bind fun y hy => ended_ok hy
    | @block l ts rest rules body hl hrules hbody =>
      obtain ⟨rfl, rfl⟩ := List.cons_eq_cons.mp hts
      simp only [statement, hl, hrules]
      exact .inr ((blockFrom_faulted he ((hinner _ hrules).declaration around) hl hbody rfl hlt []
        (Nat.le_refl _)).bind _)
    | cond hl htest hrules hyes =>
      obtain ⟨rfl, rfl⟩ := List.cons_eq_cons.mp hts
      exact (conditional_within he hinner hl htest hrules hyes rfl (Nat.le_of_lt hlt)).mono
        (List.subset_cons_self _ seen)
    | @condElse _ _ _ _ between _ _ _ _ _ hl htest hrules hyes hother hno =>
      obtain ⟨rfl, rfl⟩ := List.cons_eq_cons.mp hts
      refine Ended.mono (List.subset_cons_self _ seen) ?_
      rcases Nat.lt_or_ge between.length left.length with hwithin | hbehind
      · exact conditional_within he hinner hl htest hrules hyes rfl (Nat.succ_le_of_lt hwithin)
      · exact conditional_else he hinner hl htest hrules hyes hother hno rfl hbehind hlt
    | @loop l ts after rest test rules body hl htest hrules hbody =>
      obtain ⟨rfl, rfl⟩ := List.cons_eq_cons.mp hts
      subst hrules
      simp only [statement, hl]
      refine Ended.mono (List.subset_cons_self l seen) ?_
      refine hexpression.seq he (fun _ => (hinner _ rfl).statement around.loopBody) htest.yields
        hbody rfl (Nat.le_of_lt hlt) fun y hy => ?_
      exact hy.bind fun z hz => ended_ok hz
    | returnNothing | break_ | continue_ =>
      obtain ⟨rfl, rfl⟩ := List.cons_eq_cons.mp hts
      exact absurd hlt (by simp)
    | @returnValue l ts rest x hl hin hsome hx =>
      obtain ⟨rfl, rfl⟩ := List.cons_eq_cons.mp hts
      refine Ended.mono (List.subset_cons_self l seen) ?_
      simp only [statement, hl, hin]
      change Ended seen e (if returnsNothing l.position (seen ++ [e]) = true then _ else _)
      split
      · next hnothing =>
        -- Only the end is new behind the keyword.
        cases seen with
        | nil => exact ended_ok rfl
        | cons l' seen => cases hsome.symm.trans hnothing
      · exact (hexpression.cut hx.yields rfl hlt).bind fun y hy => ended_ok hy
    | @expression l ts rest x hl hx =>
      obtain ⟨rfl, rfl⟩ := List.cons_eq_cons.mp hts
      rw [statement_eq_expression hl]
      exact (hexpression.cut hx.yields hts hlt).bind fun y hy => ended_ok hy

/-! ### Declarations -/

/-- The declaration of a variable with a value, after its keyword. -/
theorem variableDeclaration_cut {name equals : Lexeme} {x : String}
    {ts rest seen left : List Lexeme} {value : Expr} (p : Position)
    (hname : name.token = .identifier x) (hequals : equals.token = .symbol .equals)
    (hvalue : ExpressionRead inner ts value rest) (hts : name :: equals :: ts = seen ++ left)
    (hlt : rest.length < left.length) :
    Ended seen e (variableDeclaration inner p (seen ++ [e])) := by
  obtain ⟨rfl, -⟩ | ⟨seen, rfl, hts'⟩ := List.cons_eq_append_iff.mp hts
  · exact .inr ((nameOf_viable he _).atEnd.faulted.bind _)
  obtain ⟨rfl, -⟩ | ⟨seen, rfl, rfl⟩ := List.cons_eq_append_iff.mp hts'
  · exact .inl ⟨_, yields_variableDeclaration p hname (by simp [he])⟩
  · have hcut := (expression_viable he hinner).cut hvalue.yields rfl hlt
    obtain ⟨n, hn, -, hrest⟩ := yields_nameOf_cons .variableName hname (equals :: (seen ++ [e]))
    rw [List.cons_append, List.cons_append, variableDeclaration, bind_of_ok hn]
    dsimp only
    split
    · next hnil => cases hrest.symm.trans hnil
    · next hcons =>
      cases hrest.symm.trans hcons
      rw [if_pos hequals]
      exact (hcut.mono fun l hl => List.mem_cons_of_mem _ (List.mem_cons_of_mem _ hl)).bind
        fun y hy => ended_ok hy

section Function

variable {name opening brace : Lexeme} {x : String} {ts after rest seen left : List Lexeme}
  {parameters : List (String × Position)} {rules : Rules} {body : List Stmt} (p : Position)
  (hname : name.token = .identifier x) (hopening : opening.token = .symbol .leftParen)
  (hparameters : ListRead (nameOf .parameterName) ts parameters (brace :: after))
  (hlen : parameters.length ≤ maxItems) (hdistinct : repeated? [] parameters = none)
  (hbrace : brace.token = .symbol .leftBrace) (hrules : inner = some rules)
  (hbody : BlockRead (rules.declaration .functionBody) after body rest)

include hname hopening hparameters hlen hdistinct hbrace hrules hbody

/-- The declaration of a function that is cut off behind its opening parenthesis. -/
theorem functionDeclaration_behind (hts : ts = seen ++ left) (hlt : rest.length < left.length) :
    Faulted seen e (functionDeclaration inner p (name :: opening :: (seen ++ [e]))) := by
  have hparameter := nameOf_viable he .parameterName
  obtain ⟨n, hn, -, hnrest⟩ := yields_nameOf_cons .functionName hname (opening :: (seen ++ [e]))
  obtain ⟨o, ho, -, horest⟩ := (yields_expect .parameterList).mpr ⟨hnrest, hopening⟩
  rw [functionDeclaration, bind_of_ok hn, bind_of_ok ho]
  rcases Nat.lt_or_ge (after.length + 1) left.length with hwithin | hbehind
  · have hfault := commaSeparated_faulted he hparameter .parameters hparameters hlen hts hwithin
    rw [← horest] at hfault
    exact hfault.bind _
  · -- The list is as it was, and no parameter of it is repeated.
    obtain ⟨more, hmid, hsub, hread⟩ :=
      (listRead_local hparameter.isLocal).uncut hparameters hts hbehind he
    rw [← horest] at hread
    obtain ⟨ps, hps, rfl, hpsrest⟩ := (yields_commaSeparated .parameters).mpr ⟨hread, hlen⟩
    rw [bind_of_ok hps]
    simp only [hdistinct]
    obtain ⟨rfl, -⟩ | ⟨more, rfl, rfl⟩ := List.cons_eq_append_iff.mp hmid
    · have hfault : Faulted seen e (expect .leftBrace .functionBody ps.rest) := by
        rw [hpsrest]
        exact expect_faulted he _ _
      exact hfault.bind _
    · obtain ⟨b, hb, rfl, hbrest⟩ := (yields_expect .functionBody).mpr ⟨hpsrest, hbrace⟩
      have hfault : Faulted (b.value :: more) e
          (rules.block .functionBody b.value.position (more ++ [e])) :=
        blockFrom_faulted he ((hinner _ hrules).declaration .functionBody) hbrace hbody rfl hlt []
          (Nat.le_refl _)
      rw [show more ++ [e] = b.rest from hbrest.symm] at hfault
      rw [bind_of_ok hb, bind_of_ok (descend_eq_ok.mpr hrules)]
      exact (hfault.mono hsub).bind _

/-- The declaration of a function, after its keyword. -/
theorem functionDeclaration_cut (hts : name :: opening :: ts = seen ++ left)
    (hlt : rest.length < left.length) :
    Faulted seen e (functionDeclaration inner p (seen ++ [e])) := by
  obtain ⟨rfl, -⟩ | ⟨seen, rfl, hts'⟩ := List.cons_eq_append_iff.mp hts
  · exact (nameOf_viable he _).atEnd.faulted.bind _
  obtain ⟨rfl, -⟩ | ⟨seen, rfl, rfl⟩ := List.cons_eq_append_iff.mp hts'
  · obtain ⟨n, hn, -, hrest⟩ := yields_nameOf_cons .functionName hname [e]
    have hfault : Faulted [name] e (expect .leftParen .parameterList n.rest) := by
      rw [hrest]
      exact expect_faulted he _ _
    rw [List.singleton_append, functionDeclaration, bind_of_ok hn]
    exact hfault.bind _
  · exact (functionDeclaration_behind he hinner p hname hopening hparameters hlen hdistinct hbrace
      hrules hbody rfl hlt).mono fun l hl => List.mem_cons_of_mem _ (List.mem_cons_of_mem _ hl)

end Function

theorem declaration_viable (around : Surroundings) : Viable e (declaration inner around) := by
  refine ⟨(Rules.allLocal_of_viable hinner).declaration around,
    .inr (declaration_atEnd he inner around), fun {ts s rest seen left} h hts hlt => ?_⟩
  cases seen with
  | nil => exact .inr (declaration_atEnd he inner around)
  | cons first seen =>
    rw [List.cons_append] at hts ⊢
    cases declarationRead_of_yields h with
    | @declare l name x rest hl hname hnext =>
      obtain ⟨rfl, hts'⟩ := List.cons_eq_cons.mp hts
      obtain ⟨rfl, -⟩ | ⟨seen, rfl, rfl⟩ := List.cons_eq_append_iff.mp hts'
      · simp only [declaration, hl]
        refine .inr (Faulted.bind ?_ _)
        exact ((nameOf_viable he _).atEnd.faulted.mono (List.nil_subset _)).bind _
      · exact absurd hlt (by simp)
    | initialise hl hname hequals hvalue =>
      obtain ⟨rfl, hts'⟩ := List.cons_eq_cons.mp hts
      simp only [declaration, hl]
      exact ((variableDeclaration_cut he hinner _ hname hequals hvalue hts' hlt).mono
        (List.subset_cons_self _ seen)).bind fun y hy => ended_ok hy
    | function hl hname hopening hparameters hlen hdistinct hbrace hrules hbody =>
      obtain ⟨rfl, hts'⟩ := List.cons_eq_cons.mp hts
      simp only [declaration, hl]
      exact .inr (((functionDeclaration_cut he hinner _ hname hopening hparameters hlen hdistinct
        hbrace hrules hbody hts' hlt).mono (List.subset_cons_self _ seen)).bind _)
    | statement hlet hfun hs =>
      have hcut : Ended (first :: seen) e (statement inner around (first :: seen ++ [e])) :=
        (statement_viable he hinner around).cut hs.yields hts hlt
      obtain ⟨rfl, rfl⟩ := List.cons_eq_cons.mp hts
      rwa [declaration_eq_statement hlet hfun]

theorem Rules.allViable_around : (Rules.around inner).AllViable e where
  expression := expression_viable he hinner
  precedence := precedence_viable he hinner
  operators := operators_viable he hinner
  unary := unary_viable he hinner
  calls := calls_viable he hinner
  statement := statement_viable he hinner
  declaration := declaration_viable he hinner

end Level

/-! ## All levels -/

theorem Rules.allViable_withRoom {e : Lexeme} (he : e.token = .endOfInput) (room : Nat) :
    (Rules.withRoom room).AllViable e := by
  induction room with
  | zero => exact allViable_around he fun rules h => by cases h
  | succ room ih =>
    refine allViable_around he fun rules h => ?_
    cases h
    exact ih

/-! ## Programs -/

/-- The statements of a program are cut off, between two of them or inside of one. -/
theorem programFrom_cut {declaration : Rule Stmt} {e : Lexeme} (he : e.token = .endOfInput)
    (hdeclaration : Viable e declaration) {ts seen left : List Lexeme} {body : List Stmt}
    (h : ProgramRead declaration ts body) (hts : ts = seen ++ left) (read : List Stmt) :
    (∃ statements, programFrom declaration read (seen ++ [e]) = .ok statements) ∨
      Faulted seen e (programFrom declaration read (seen ++ [e])) := by
  have hstop {ts : List Lexeme} (read : List Stmt) (hdrop : ts.dropWhile isSemicolon = [e]) :
      ∃ statements, programFrom declaration read ts = .ok statements :=
    ⟨_, (ProgramRead.close fun l hl => by rw [hdrop] at hl; cases hl; exact he).ok read⟩
  induction h generalizing seen read with
  | close hend =>
    exact .inl ⟨_, (ProgramRead.close fun l hl => dropWhile_atEnd he hend hts hl).ok read⟩
  | @more ts l after s mid body hdrop hl hs _ ih =>
    obtain hend | ⟨taken, htaken, rfl, hsub⟩ := dropWhile_cut he hdrop hts
    · exact .inl (hstop read hend)
    · rcases Nat.lt_or_ge left.length mid.length with hbehind | hwithin
      · obtain ⟨more, hmid, hsub', hs'⟩ := hdeclaration.isLocal.uncut hs
          (List.cons_append (a := l)).symm (Nat.le_of_lt hbehind) he
        rw [programFrom_eq htaken hl read hs']
        exact (ih hmid (s :: read)).imp_right (·.mono (List.Subset.trans hsub' hsub))
      · obtain ⟨s', hs'⟩ | ⟨err, herr, hfault⟩ :=
          hdeclaration.within he hs (List.cons_append (a := l)).symm hwithin
        · rw [programFrom_eq htaken hl read hs']
          exact .inl (hstop _ (List.dropWhile_cons_of_neg (by simp [isSemicolon, he])))
        · exact .inr ⟨err, programFrom_error htaken hl read herr, hfault.mono hsub⟩

/-- Viable prefixes are never blamed: the first `k` of the lexemes of an accepted program, with an
end after them, are accepted too, or they fail because they end. -/
theorem parse_take {ts : List Lexeme} {statements : List Stmt} (h : parse ts = .ok statements)
    (k : Nat) {e : Lexeme} (he : e.token = .endOfInput) :
    (∃ fewer, parse (ts.take k ++ [e]) = .ok fewer) ∨
      ∃ err, parse (ts.take k ++ [e]) = .error err ∧ EndFault (ts.take k) e err :=
  programFrom_cut he ((Rules.allViable_withRoom he maxNesting).declaration .outermost)
    (programFrom_eq_ok.mp h) (List.take_append_drop k ts).symm []

/-- `if f(x` lacks a parenthesis, and the rest of its conditional. -/
theorem conditional_take :
    parse (inLines [conditionalTokens]) = .ok [conditionalTree] ∧
      parse ((inLines [conditionalTokens]).take 4 ++ [⟨.endOfInput, "", ⟨2, 1⟩⟩]) =
        .error ⟨.expectedToken .commaOrParen .endOfInput, ⟨2, 1⟩⟩ ∧
      ((∃ fewer, parse ((inLines [conditionalTokens]).take 4 ++ [⟨.endOfInput, "", ⟨2, 1⟩⟩]) =
          .ok fewer) ∨
        ∃ err, parse ((inLines [conditionalTokens]).take 4 ++ [⟨.endOfInput, "", ⟨2, 1⟩⟩]) =
          .error err ∧
          EndFault ((inLines [conditionalTokens]).take 4) ⟨.endOfInput, "", ⟨2, 1⟩⟩ err) :=
  ⟨parse_conditionalTokens, programFrom_error rfl (by decide) [] rfl,
    parse_take parse_conditionalTokens 4 rfl⟩

end Grammar

end Scripting
