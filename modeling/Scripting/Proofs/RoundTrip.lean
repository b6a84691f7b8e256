/-
Reading undoes writing.

Canonical statements, written as lexemes with a semicolon between any two of a list and the end
of input after them, are read back as the same statements up to positions, or there is not enough
room for them; and there is if they have no more than `maxNesting` parts.

A statement has no end of its own. Each stops where what comes next cannot go on with it, and what
comes next to a written statement is a semicolon, a closing brace, the end, or the `else` of a
conditional that it is the first branch of. Only the layout decides whether a `return` has a value,
so the lexemes after one are asked to stand where the tree says.
-/
import Scripting.Proofs.Limits
import Scripting.Proofs.ReadBack

set_option autoImplicit false

namespace Scripting

open Grammar

/-! ## Trees without positions -/

namespace Stmt

mutual

/-- The statement with every position the same. -/
def unplaced : Stmt → Stmt
  | .expression e _ => .expression e.unplaced .start
  | .declare name e _ => .declare name (e.map Expr.unplaced) .start
  | .block body _ => .block (unplacedEach body) .start
  | .cond test yes no _ => .cond test.unplaced yes.unplaced (unplacedOtherwise no) .start
  | .loop test body _ => .loop test.unplaced body.unplaced .start
  | .function name parameters body _ => .function name parameters (unplacedEach body) .start
  | .return_ e _ => .return_ (e.map Expr.unplaced) .start
  | .print e _ => .print e.unplaced .start
  | .break_ _ => .break_ .start
  | .continue_ _ => .continue_ .start

/-- The second branch of a conditional, if there is one, with every position the same. -/
def unplacedOtherwise : Option Stmt → Option Stmt
  | none => none
  | some s => some s.unplaced

/-- Each of some statements with every position the same. -/
def unplacedEach : List Stmt → List Stmt
  | [] => []
  | s :: ss => s.unplaced :: unplacedEach ss

end

theorem unplacedEach_eq_map (ss : List Stmt) : unplacedEach ss = ss.map unplaced := by
  induction ss with
  | nil => rfl
  | cons s ss ih => rw [unplacedEach, ih, List.map_cons]

end Stmt

namespace Grammar

/-! ## Where statements begin and end -/

/-- Whether a statement can begin with a token. -/
def startsStatement (t : Token) : Bool :=
  opensStatement t || opensExpression t || t = .keyword .let_ || t = .keyword .fun_

/-- Whether a written statement can have a token after it. -/
def closesStatement : Token → Bool
  | .symbol .semicolon | .symbol .rightBrace | .endOfInput | .keyword .else_ => true
  | _ => false

theorem Ends.of_closesStatement {ts : List Lexeme} {t : Token} (ht : next? ts = some t)
    (hcloses : closesStatement t = true) : Ends ts := by
  refine ⟨fun h => ?_, ?_, fun h => ?_⟩
  · rw [ht] at h
    cases h
    cases hcloses
  · rw [nextOperator?, ht]
    unfold closesStatement at hcloses
    split at hcloses
    · rfl
    · rfl
    · rfl
    · rfl
    · cases hcloses
  · rw [ht] at h
    cases h
    cases hcloses

/-- Of the tokens that a statement can begin with, only two go on with an expression. -/
theorem Ends.of_startsStatement {ts : List Lexeme} {t : Token} (ht : next? ts = some t)
    (hstarts : startsStatement t = true) (hparen : t ≠ .symbol .leftParen)
    (hminus : t ≠ .symbol .minus) : Ends ts := by
  refine ⟨fun h => ?_, ?_, fun h => ?_⟩
  · rw [ht] at h
    cases h
    exact hparen rfl
  · rw [nextOperator?, ht]
    cases hop : BinaryOperator.ofToken? t with
    | none => exact hop
    | some op =>
      rw [BinaryOperator.eq_token_of_ofToken? hop] at hstarts hminus
      cases op with
      | subtract => exact absurd rfl hminus
      | _ => exact absurd hstarts (by decide)
  · rw [ht] at h
    cases h
    exact absurd hstarts (by decide)

end Grammar

theorem Stmt.opens (s : Stmt) : ∃ t, s.first? = some t ∧ startsStatement t = true := by
  cases s with
  | expression e p =>
    obtain ⟨t, ht, hopens⟩ := e.opens
    obtain ⟨m, ms, hms⟩ := List.exists_cons_of_ne_nil e.marks_ne_nil
    refine ⟨t, ?_, by simp [startsStatement, hopens]⟩
    rw [first?, marks, hms]
    rw [hms] at ht
    exact ht
  | declare name initial p =>
    refine ⟨.keyword .let_, ?_, by decide⟩
    cases initial <;> rfl
  | return_ value p =>
    refine ⟨.keyword .return_, ?_, by decide⟩
    cases value <;> rfl
  | block body p => exact ⟨.symbol .leftBrace, rfl, by decide⟩
  | cond test yes no p => exact ⟨.keyword .if_, rfl, by decide⟩
  | loop test body p => exact ⟨.keyword .while_, rfl, by decide⟩
  | function name parameters body p => exact ⟨.keyword .fun_, rfl, by decide⟩
  | print e p => exact ⟨.keyword .print_, rfl, by decide⟩
  | break_ p => exact ⟨.keyword .break_, rfl, by decide⟩
  | continue_ p => exact ⟨.keyword .continue_, rfl, by decide⟩

namespace Grammar

/-! ## Layout -/

/-- After a `return`, an `else` stands on another line, and a value begins on the same. -/
def ReturnPlaced (l l' : Lexeme) : Prop :=
  l.token = .keyword .return_ →
    (l'.token = .keyword .else_ → l'.position.line ≠ l.position.line) ∧
      (opensExpression l'.token = true → l'.position.line = l.position.line)

/-- What follows a `return` is placed as it has to be, everywhere. -/
def ReturnsPlaced (ts : List Lexeme) : Prop := ts.IsChain ReturnPlaced

theorem ReturnsPlaced.tail {l : Lexeme} {ts : List Lexeme} (h : ReturnsPlaced (l :: ts)) :
    ReturnsPlaced ts :=
  List.IsChain.of_cons h

theorem ReturnsPlaced.of_written {ms : List Mark} {ts rest : List Lexeme} (h : ReturnsPlaced ts)
    (hwritten : Written ms ts rest) : ReturnsPlaced rest := by
  induction ms generalizing ts with
  | nil =>
    cases hwritten
    exact h
  | cons m ms ih =>
    obtain ⟨l, after, rfl, -, hwritten⟩ := hwritten
    exact ih h.tail hwritten

/-! ## Sequences of statements -/

/-- How statements in a row are read, with semicolons anywhere between them. -/
inductive SequenceRead (declaration : Rule Stmt) : List Lexeme → List Stmt → List Lexeme → Prop
  | done {ts : List Lexeme} : SequenceRead declaration ts [] ts
  | semicolon {l : Lexeme} {ts rest : List Lexeme} {ss : List Stmt} :
      l.token = .symbol .semicolon → SequenceRead declaration ts ss rest →
      SequenceRead declaration (l :: ts) ss rest
  | more {l : Lexeme} {after mid rest : List Lexeme} {s : Stmt} {ss : List Stmt} :
      startsStatement l.token = true → Yields (declaration (l :: after)) s mid →
      SequenceRead declaration mid ss rest → SequenceRead declaration (l :: after) (s :: ss) rest

section Sequence

variable {declaration : Rule Stmt} {ts rest : List Lexeme} {ss : List Stmt} {l : Lexeme}

theorem dropWhile_of_startsStatement (h : startsStatement l.token = true) :
    (l :: ts).dropWhile isSemicolon = l :: ts := by
  refine List.dropWhile_cons_of_neg fun hl => ?_
  rw [of_decide_eq_true hl] at h
  cases h

theorem dropWhile_of_semicolon (h : l.token = .symbol .semicolon) :
    (l :: ts).dropWhile isSemicolon = ts.dropWhile isSemicolon :=
  List.dropWhile_cons_of_pos (decide_eq_true h)

/-- A brace ends a sequence as a block. -/
theorem SequenceRead.block (h : SequenceRead declaration ts ss (l :: rest))
    (hl : l.token = .symbol .rightBrace) : BlockRead declaration ts ss rest := by
  generalize hend : l :: rest = last at h
  induction h with
  | done =>
    subst hend
    refine .close (List.dropWhile_cons_of_neg fun hs => ?_) hl
    rw [of_decide_eq_true hs] at hl
    cases hl
  | semicolon hsemicolon _ ih =>
    cases ih hend with
    | close hdrop hl => exact .close (by rwa [dropWhile_of_semicolon hsemicolon]) hl
    | more hdrop hb he hs hmore =>
      exact .more (by rwa [dropWhile_of_semicolon hsemicolon]) hb he hs hmore
  | more hstarts hs _ ih =>
    refine .more (dropWhile_of_startsStatement hstarts) ?_ ?_ hs (ih hend)
    · intro hbrace
      rw [hbrace] at hstarts
      cases hstarts
    · intro hend
      rw [hend] at hstarts
      cases hstarts

/-- The end ends a sequence as a program. -/
theorem SequenceRead.program (h : SequenceRead declaration ts ss (l :: rest))
    (hl : l.token = .endOfInput) : ProgramRead declaration ts ss := by
  generalize hend : l :: rest = last at h
  induction h with
  | done =>
    subst hend
    refine .close fun l' hl' => ?_
    rw [List.dropWhile_cons_of_neg fun hs => by rw [of_decide_eq_true hs] at hl; cases hl] at hl'
    cases hl'
    exact hl
  | semicolon hsemicolon _ ih =>
    cases ih hend with
    | close hclose => exact .close (by rwa [dropWhile_of_semicolon hsemicolon])
    | more hdrop he hs hmore =>
      exact .more (by rwa [dropWhile_of_semicolon hsemicolon]) he hs hmore
  | more hstarts hs _ ih =>
    refine .more (dropWhile_of_startsStatement hstarts) ?_ hs (ih hend)
    intro hend
    rw [hend] at hstarts
    cases hstarts

end Sequence

/-- A statement that is no declaration is read where declarations are, too. -/
theorem StatementRead.declaration {inner : Option Rules} {around : Surroundings}
    {ts rest : List Lexeme} {s : Stmt} (h : StatementRead inner around ts s rest) :
    DeclarationRead inner around ts s rest := by
  obtain ⟨t, ht, hopens⟩ := h.opens
  cases ts with
  | nil => cases ht
  | cons l ts =>
    rw [next?_cons, Option.some.injEq] at ht
    refine .statement ?_ ?_ h
    · intro hlet
      rw [← ht, hlet] at hopens
      exact absurd hopens (by decide)
    · intro hfun
      rw [← ht, hfun] at hopens
      exact absurd hopens (by decide)

end Grammar

/-! ## Statements -/

namespace Stmt

/-- What stands between any two statements of a list. -/
def separator : List Mark := [.plain (.symbol .semicolon)]

/-- What comes after a written statement cannot go on with it. -/
structure Followed (s : Stmt) (rest : List Lexeme) : Prop where
  closes : ∃ t, next? rest = some t ∧ closesStatement t = true
  apart : s.endsOpen = true → next? rest ≠ some (.keyword .else_)

theorem Followed.ends {s : Stmt} {rest : List Lexeme} (h : s.Followed rest) : Ends rest := by
  obtain ⟨t, ht, hcloses⟩ := h.closes
  exact .of_closesStatement ht hcloses

/-- A statement that is allowed where it stands is read back, before anything that cannot go on
with it. -/
def ReadBack (s : Stmt) : Prop :=
  ∀ ⦃around n ts rest⦄, s.Canonical around → s.room ≤ n → Written (s.marks separator) ts rest →
    ReturnsPlaced ts → s.Followed rest →
    ∃ s', s'.unplaced = s.unplaced ∧ DeclarationRead (Rules.further n) around ts s' rest ∧
      (s.isBranch = true → StatementRead (Rules.further n) around ts s' rest)

theorem written_opens {s : Stmt} {ts rest : List Lexeme} (h : Written (s.marks separator) ts rest) :
    ∃ l after, ts = l :: after ∧ s.first? = some l.token ∧ startsStatement l.token = true := by
  obtain ⟨t, ht, hstarts⟩ := s.opens
  have hnext := h.next? (s.marks_ne_nil separator)
  rw [first?_marks, ht] at hnext
  cases ts with
  | nil => cases hnext
  | cons l after =>
    rw [next?_cons, Option.some.injEq] at hnext
    exact ⟨l, after, rfl, by rw [ht, hnext], by rwa [hnext]⟩

/-- The statements of a list are read back in a row. -/
theorem readBack_sequence {ss : List Stmt} (h : ∀ s ∈ ss, s.ReadBack) {around : Surroundings}
    {k : Nat} (hcanonical : ∀ s ∈ ss, s.Canonical around) (hroom : ∀ s ∈ ss, s.room ≤ k)
    {ts rest : List Lexeme} (hwritten : Written (marksAll separator ss) ts rest)
    (hplaced : ReturnsPlaced ts) (hcloses : ∃ t, next? rest = some t ∧ closesStatement t = true)
    (helse : next? rest ≠ some (.keyword .else_)) :
    ∃ ss', ss'.map unplaced = ss.map unplaced ∧
      SequenceRead ((Rules.withRoom k).declaration around) ts ss' rest := by
  induction ss generalizing ts with
  | nil =>
    cases hwritten
    exact ⟨[], rfl, .done⟩
  | cons s ss ih =>
    obtain ⟨hs, hss⟩ := List.forall_mem_cons.mp h
    obtain ⟨hcs, hcss⟩ := List.forall_mem_cons.mp hcanonical
    obtain ⟨hrs, hrss⟩ := List.forall_mem_cons.mp hroom
    rw [marksAll, marksEach] at hwritten
    cases ss with
    | nil =>
      rw [marksEach, List.intercalate_singleton] at hwritten
      obtain ⟨s', hs', hread, -⟩ := hs hcs hrs hwritten hplaced ⟨hcloses, fun _ => helse⟩
      obtain ⟨l, after, rfl, -, hstarts⟩ := written_opens hwritten
      exact ⟨[s'], by rw [List.map_singleton, List.map_singleton, hs'],
        .more hstarts hread.withRoom .done⟩
    | cons s₂ ss =>
      rw [marksEach, List.intercalate_cons_cons, List.append_assoc, ← marksEach] at hwritten
      obtain ⟨mid, hws, semicolon, rest', rfl, (hl : _ = Token.symbol .semicolon), hwss⟩ :=
        written_append.mp hwritten
      -- Only the last statement sees what comes after the list.
      have hfollowed : s.Followed (semicolon :: rest') := by
        refine ⟨⟨_, congrArg some hl, rfl⟩, fun _ => ?_⟩
        rw [next?_cons, hl]
        decide
      obtain ⟨s', hs', hread, -⟩ := hs hcs hrs hws hplaced hfollowed
      obtain ⟨ss', hss', hmore⟩ := ih hss hcss hrss hwss (hplaced.of_written hws).tail
      obtain ⟨l, after, rfl, -, hstarts⟩ := written_opens hws
      exact ⟨s' :: ss', by rw [List.map_cons, hs', hss', ← List.map_cons],
        .more hstarts hread.withRoom (.semicolon hl hmore)⟩

/-- A block is read back, up to its closing brace. -/
theorem readBack_body {body : List Stmt} (h : ∀ s ∈ body, s.ReadBack) {around : Surroundings}
    {k : Nat} (hcanonical : AllCanonical around body) (hroom : roomOfAll body ≤ k)
    {ts rest : List Lexeme}
    (hwritten : Written (separator.intercalate (marksEach separator body) ++
      [.plain (.symbol .rightBrace)]) ts rest) (hplaced : ReturnsPlaced ts) :
    ∃ body', body'.map unplaced = body.map unplaced ∧
      BlockRead ((Rules.withRoom k).declaration around) ts body' rest := by
  obtain ⟨mid, hwb, close, _, rfl, (hclose : _ = Token.symbol .rightBrace), rfl⟩ :=
    written_append.mp hwritten
  obtain ⟨body', hbody', hread⟩ := readBack_sequence h (allCanonical_iff.mp hcanonical)
    (roomOfAll_le_iff.mp hroom) hwb hplaced ⟨_, congrArg some hclose, rfl⟩
    (by rw [next?_cons, hclose]; decide)
  exact ⟨body', hbody', hread.block hclose⟩

/-- A statement that may be a branch is read back if the rule for such statements does. -/
theorem ReadBack.of_statement {s : Stmt}
    (h : ∀ ⦃around n ts rest⦄, s.Canonical around → s.room ≤ n →
      Written (s.marks separator) ts rest → ReturnsPlaced ts → s.Followed rest →
      ∃ s', s'.unplaced = s.unplaced ∧ StatementRead (Rules.further n) around ts s' rest) :
    s.ReadBack := by
  intro around n ts rest hcanonical hroom hwritten hplaced hfollowed
  obtain ⟨s', hs', hread⟩ := h hcanonical hroom hwritten hplaced hfollowed
  exact ⟨s', hs', hread.declaration, fun _ => hread⟩

/-- A branch, or the body of a loop, is read back one level further in. -/
theorem ReadBack.branch {s : Stmt} (h : s.ReadBack) {around : Surroundings} {k : Nat}
    {ts rest : List Lexeme} (hcanonical : s.Canonical around) (hbranch : s.isBranch = true)
    (hroom : s.room ≤ k) (hwritten : Written (s.marks separator) ts rest)
    (hplaced : ReturnsPlaced ts) (hfollowed : s.Followed rest) :
    ∃ s', s'.unplaced = s.unplaced ∧ Yields ((Rules.withRoom k).statement around ts) s' rest := by
  obtain ⟨s', hs', -, hread⟩ := h hcanonical hroom hwritten hplaced hfollowed
  refine ⟨s', hs', ?_⟩
  rw [Rules.withRoom_eq_around]
  exact (hread hbranch).yields

/-! ### One case for each statement -/

theorem written_stampFirst {p : Position} {ms : List Mark} {ts rest : List Lexeme} :
    Written (Mark.stampFirst p ms) ts rest ↔ Written ms ts rest := by
  cases ms <;> exact Iff.rfl

theorem opensStatement_of_opensExpression {t : Token} (h : opensExpression t = true) :
    opensStatement t = false := by
  unfold opensStatement
  split
  case h_8 => rfl
  all_goals exact absurd h (by decide)

theorem readBack_expression (e : Expr) (p : Position) : (Stmt.expression e p).ReadBack := by
  refine .of_statement fun around n ts rest hcanonical hroom hwritten _ hfollowed => ?_
  simp only [Canonical] at hcanonical
  rw [room] at hroom
  rw [marks, written_stampFirst] at hwritten
  obtain ⟨e', he', hread⟩ := hcanonical.readBack.whole hroom hwritten hfollowed.ends
  obtain ⟨t, ht, hopens⟩ := hread.opens
  cases ts with
  | nil => cases ht
  | cons l ts =>
    rw [next?_cons, Option.some.injEq] at ht
    refine ⟨.expression e' l.position, by simp only [unplaced, he'], .expression ?_ hread⟩
    rw [ht]
    exact opensStatement_of_opensExpression hopens

theorem readBack_print (e : Expr) (p : Position) : (Stmt.print e p).ReadBack := by
  refine .of_statement fun around n ts rest hcanonical hroom hwritten _ hfollowed => ?_
  simp only [Canonical] at hcanonical
  rw [room] at hroom
  rw [marks] at hwritten
  obtain ⟨l, after, rfl, hl, hwritten⟩ := hwritten
  obtain ⟨e', he', hread⟩ := hcanonical.readBack.whole hroom hwritten hfollowed.ends
  exact ⟨.print e' l.position, by simp only [unplaced, he'], .print hl hread⟩

theorem readBack_declare (name : String) (initial : Option Expr) (p : Position) :
    (Stmt.declare name initial p).ReadBack := by
  intro around n ts rest hcanonical hroom hwritten _ hfollowed
  cases initial with
  | none =>
    rw [marks] at hwritten
    obtain ⟨l, _, rfl, hl, x, _, rfl, hx, rfl⟩ := hwritten
    exact ⟨.declare name none l.position, by simp only [unplaced],
      .declare hl hx hfollowed.ends.unassigned, fun h => by cases h⟩
  | some e =>
    simp only [Canonical] at hcanonical
    rw [room, roomOf?] at hroom
    rw [marks] at hwritten
    obtain ⟨l, _, rfl, hl, x, _, rfl, hx, equals, after, rfl, hequals, hwritten⟩ := hwritten
    obtain ⟨e', he', hread⟩ := hcanonical.readBack.whole hroom hwritten hfollowed.ends
    exact ⟨.declare name (some e') l.position, by simp only [unplaced, Option.map_some, he'],
      .initialise hl hx hequals hread, fun h => by cases h⟩

theorem readBack_return (value : Option Expr) (p : Position) :
    (Stmt.return_ value p).ReadBack := by
  refine .of_statement fun around n ts rest hcanonical hroom hwritten hplaced hfollowed => ?_
  cases value with
  | none =>
    simp only [Canonical] at hcanonical
    rw [marks] at hwritten
    obtain ⟨l, after, rfl, hl, rfl⟩ := hwritten
    refine ⟨.return_ none l.position, by simp only [unplaced], .returnNothing hl hcanonical ?_⟩
    obtain ⟨t, ht, hcloses⟩ := hfollowed.closes
    cases after with
    | nil => rfl
    | cons l' after =>
      -- Of what can come after it, only an `else` could begin a value by its looks.
      rw [next?_cons, Option.some.injEq] at ht
      subst ht
      obtain ⟨hline, -⟩ := (List.isChain_cons_cons.mp hplaced).1 hl
      rw [returnsNothing]
      unfold closesStatement at hcloses
      split at hcloses
      · next h => simp [h]
      · next h => simp [h]
      · next h => simp [h]
      · next h => simp [hline h]
      · cases hcloses
  | some e =>
    simp only [Canonical] at hcanonical
    rw [room, roomOf?] at hroom
    rw [marks] at hwritten
    obtain ⟨l, after, rfl, hl, hwritten⟩ := hwritten
    obtain ⟨e', he', hread⟩ := hcanonical.2.readBack.whole hroom hwritten hfollowed.ends
    refine ⟨.return_ (some e') l.position, by simp only [unplaced, Option.map_some, he'],
      .returnValue hl hcanonical.1 ?_ hread⟩
    obtain ⟨t, ht, hopens⟩ := hread.opens
    cases after with
    | nil => cases ht
    | cons l' after =>
      rw [next?_cons, Option.some.injEq] at ht
      subst ht
      obtain ⟨-, hline⟩ := (List.isChain_cons_cons.mp hplaced).1 hl
      -- The value begins on the line of its `return`, with a token that ends no statement.
      rw [returnsNothing, hline hopens]
      have hne : ∀ {t : Token}, opensExpression t = false → l'.token ≠ t := by
        intro t ht heq
        rw [heq, ht] at hopens
        cases hopens
      simp [hne (t := .symbol .semicolon) rfl, hne (t := .symbol .rightBrace) rfl,
        hne (t := .endOfInput) rfl]

theorem readBack_block {body : List Stmt} (p : Position) (h : ∀ s ∈ body, s.ReadBack) :
    (Stmt.block body p).ReadBack := by
  refine .of_statement fun around n ts rest hcanonical hroom hwritten hplaced _ => ?_
  simp only [Canonical] at hcanonical
  rw [room] at hroom
  obtain ⟨m, rfl⟩ : ∃ m, n = m + 1 := ⟨n - 1, by omega⟩
  rw [marks] at hwritten
  obtain ⟨l, after, rfl, hl, hwritten⟩ := hwritten
  obtain ⟨body', hbody', hread⟩ := readBack_body h hcanonical (Nat.le_of_succ_le_succ hroom)
    hwritten hplaced.tail
  exact ⟨.block body' l.position, by simp only [unplaced, unplacedEach_eq_map, hbody'],
    .block hl rfl hread⟩

/-- The test of a conditional or a loop ends where the statement after it begins. -/
theorem ends_of_startsApart {s : Stmt} (h : s.StartsApart) {ts rest : List Lexeme}
    (hwritten : Written (s.marks separator) ts rest) : Ends ts := by
  obtain ⟨l, after, rfl, hfirst, hstarts⟩ := written_opens hwritten
  obtain ⟨hparen, hminus⟩ := h
  rw [hfirst] at hparen hminus
  exact .of_startsStatement rfl hstarts (by simpa using hparen) (by simpa using hminus)

theorem readBack_loop {body : Stmt} (test : Expr) (p : Position) (h : body.ReadBack) :
    (Stmt.loop test body p).ReadBack := by
  refine .of_statement fun around n ts rest hcanonical hroom hwritten hplaced hfollowed => ?_
  simp only [Canonical] at hcanonical
  obtain ⟨htest, hbody, hbranch, hstarts⟩ := hcanonical
  rw [room] at hroom
  obtain ⟨m, rfl⟩ : ∃ m, n = m + 1 := ⟨n - 1, by omega⟩
  rw [marks] at hwritten
  obtain ⟨l, after, rfl, hl, hwritten⟩ := hwritten
  obtain ⟨mid, hwt, hwb⟩ := written_append.mp hwritten
  obtain ⟨test', htest', hread⟩ := htest.readBack.whole (n := m + 1) (by omega) hwt
    (ends_of_startsApart hstarts hwb)
  -- A loop ends open if its body does.
  have hfollowed' : body.Followed rest := by
    refine ⟨hfollowed.closes, fun hopen => hfollowed.apart ?_⟩
    rw [endsOpen]
    exact hopen
  obtain ⟨body', hbody', hread'⟩ := h.branch hbody hbranch (k := m) (by omega) hwb
    (hplaced.tail.of_written hwt) hfollowed'
  exact ⟨.loop test' body' l.position, by simp only [unplaced, htest', hbody'],
    .loop hl hread rfl hread'⟩

theorem readBack_cond {yes : Stmt} {no : Option Stmt} (test : Expr) (p : Position)
    (hyes : yes.ReadBack) (hno : ∀ s, no = some s → s.ReadBack) :
    (Stmt.cond test yes no p).ReadBack := by
  refine .of_statement fun around n ts rest hcanonical hroom hwritten hplaced hfollowed => ?_
  simp only [Canonical] at hcanonical
  obtain ⟨htest, hcyes, hbranch, hstarts, hopen, hcno⟩ := hcanonical
  rw [room] at hroom
  obtain ⟨m, rfl⟩ : ∃ m, n = m + 1 := ⟨n - 1, by omega⟩
  rw [marks] at hwritten
  obtain ⟨l, after, rfl, hl, hwritten⟩ := hwritten
  obtain ⟨mid, hwt, hwritten⟩ := written_append.mp hwritten
  obtain ⟨mid', hwy, hwn⟩ := written_append.mp hwritten
  obtain ⟨test', htest', hread⟩ := htest.readBack.whole (n := m + 1) (by omega) hwt
    (ends_of_startsApart hstarts hwy)
  have hplaced' := hplaced.tail.of_written hwt
  cases no with
  | none =>
    cases hwn
    -- Without an `else`, the conditional ends open, so no `else` comes next.
    have helse := hfollowed.apart (by rw [endsOpen])
    obtain ⟨yes', hyes', hread'⟩ := hyes.branch hcyes hbranch (k := m) (by omega) hwy hplaced'
      ⟨hfollowed.closes, fun _ => helse⟩
    exact ⟨.cond test' yes' none l.position,
      by simp only [unplaced, unplacedOtherwise, htest', hyes'], .cond hl hread rfl hread' helse⟩
  | some s =>
    rw [OtherwiseCanonical] at hcno
    rw [roomOfOtherwise] at hroom
    rw [otherwise] at hwn
    obtain ⟨l', after', rfl, (hl' : _ = Token.keyword .else_), hws⟩ := hwn
    -- The first branch does not end open, so the `else` is not taken for its own.
    have hyfollowed : yes.Followed (l' :: after') := by
      refine ⟨⟨_, congrArg some hl', rfl⟩, fun h => ?_⟩
      rw [hopen rfl] at h
      cases h
    have hsfollowed : s.Followed rest := by
      refine ⟨hfollowed.closes, fun h => hfollowed.apart ?_⟩
      rw [endsOpen]
      exact h
    obtain ⟨yes', hyes', hread'⟩ := hyes.branch hcyes hbranch (k := m) (by omega) hwy hplaced'
      hyfollowed
    obtain ⟨s', hs', hread''⟩ := (hno s rfl).branch hcno.1 hcno.2 (k := m) (by omega) hws
      (hplaced'.of_written hwy).tail hsfollowed
    exact ⟨.cond test' yes' (some s') l.position,
      by simp only [unplaced, unplacedOtherwise, htest', hyes', hs'],
      .condElse hl hread rfl hread' hl' hread''⟩

/-- The parameters of a function, after the parenthesis that opens them. -/
theorem readBack_parameters {parameters : List String} {ts rest : List Lexeme}
    (hwritten : Written ([Mark.plain (.symbol .comma)].intercalate
      (parameters.map fun x => [.plain (.identifier x)]) ++ [.plain (.symbol .rightParen)])
      ts rest) :
    ∃ ps : List (String × Position), ps.map (·.1) = parameters ∧
      ListRead (nameOf .parameterName) ts ps rest := by
  have hitem : ∀ x ∈ parameters, ∀ {ts l rest},
      l.token = .symbol .comma ∨ l.token = .symbol .rightParen →
      Written [.plain (.identifier x)] ts (l :: rest) →
        next? ts ≠ some (.symbol .rightParen) ∧
          ∃ n, Prod.fst n = id x ∧ Yields (nameOf .parameterName ts) n (l :: rest) := by
    rintro x - ts l rest - ⟨l', _, rfl, (hl' : _ = Token.identifier x), rfl⟩
    refine ⟨?_, (x, l'.position), rfl, yields_nameOf_cons _ hl' _⟩
    rw [next?_cons, hl']
    simp
  obtain ⟨ps, hps, hread⟩ := written_list hitem hwritten
  rw [List.map_id] at hps
  exact ⟨ps, hps, hread⟩

theorem readBack_function {parameters : List String} {body : List Stmt} (name : String)
    (p : Position) (h : ∀ s ∈ body, s.ReadBack) :
    (Stmt.function name parameters body p).ReadBack := by
  intro around n ts rest hcanonical hroom hwritten hplaced hfollowed
  simp only [Canonical] at hcanonical
  obtain ⟨hnodup, hlen, hbody⟩ := hcanonical
  rw [room] at hroom
  obtain ⟨m, rfl⟩ : ∃ m, n = m + 1 := ⟨n - 1, by omega⟩
  rw [marks, Mark.inParentheses] at hwritten
  obtain ⟨l, _, rfl, hl, x, _, rfl, hx, opening, after, rfl, hopening, hwritten⟩ := hwritten
  obtain ⟨mid, hwp, brace, after', rfl, hbrace, hwb⟩ := written_append.mp hwritten
  obtain ⟨ps, rfl, hparameters⟩ := readBack_parameters hwp
  obtain ⟨body', hbody', hread⟩ := readBack_body h hbody (Nat.le_of_succ_le_succ hroom) hwb
    (hplaced.tail.tail.tail.of_written hwp).tail
  have hdistinct : repeated? [] ps = none := repeated?_eq_none.mpr ⟨hnodup, by simp⟩
  rw [List.length_map] at hlen
  refine ⟨_, ?_, .function hl hx hopening hparameters hlen hdistinct hbrace rfl hread,
    fun h => by cases h⟩
  simp only [unplaced, unplacedEach_eq_map, hbody']

theorem readBack_break (p : Position) : (Stmt.break_ p).ReadBack := by
  refine .of_statement fun around n ts rest hcanonical _ hwritten _ _ => ?_
  simp only [Canonical] at hcanonical
  rw [marks] at hwritten
  obtain ⟨l, _, rfl, hl, rfl⟩ := hwritten
  exact ⟨.break_ l.position, by simp only [unplaced], .break_ hl hcanonical⟩

theorem readBack_continue (p : Position) : (Stmt.continue_ p).ReadBack := by
  refine .of_statement fun around n ts rest hcanonical _ hwritten _ _ => ?_
  simp only [Canonical] at hcanonical
  rw [marks] at hwritten
  obtain ⟨l, _, rfl, hl, rfl⟩ := hwritten
  exact ⟨.continue_ l.position, by simp only [unplaced], .continue_ hl hcanonical⟩

/-- **Statements are read back** wherever they are allowed. -/
theorem readBack (s : Stmt) : s.ReadBack := by
  induction s with
  | expression e p => exact readBack_expression e p
  | declare name initial p => exact readBack_declare name initial p
  | block body p ih => exact readBack_block p ih
  | cond test yes no p ihy ihn => exact readBack_cond test p ihy ihn
  | loop test body p ih => exact readBack_loop test p ih
  | function name parameters body p ih => exact readBack_function name p ih
  | return_ value p => exact readBack_return value p
  | print e p => exact readBack_print e p
  | break_ p => exact readBack_break p
  | continue_ p => exact readBack_continue p

end Stmt

namespace Grammar

/-! ## Programs -/

/-- With enough room, canonical statements are read back as a program. -/
theorem readBack_program {statements : List Stmt}
    (hcanonical : ∀ s ∈ statements, s.Canonical .outermost) {n : Nat}
    (hroom : ∀ s ∈ statements, s.room ≤ n) {lexemes : List Lexeme}
    (hwritten : lexemes.map (·.token) =
      (Stmt.marksAll Stmt.separator statements).map (·.token) ++ [.endOfInput])
    (hplaced : ReturnsPlaced lexemes) :
    ∃ read, programFrom ((Rules.withRoom n).declaration .outermost) [] lexemes = .ok read ∧
      read.map Stmt.unplaced = statements.map Stmt.unplaced := by
  obtain ⟨rest, hwritten, hrest⟩ := written_of_map hwritten
  obtain ⟨l, rfl⟩ : ∃ l, rest = [l] := List.length_eq_one_iff.mp (by
    rw [← List.length_map (f := (·.token)), hrest]
    rfl)
  have hl : l.token = .endOfInput := by simpa using hrest
  obtain ⟨read, hread, hsequence⟩ := Stmt.readBack_sequence (fun s _ => s.readBack) hcanonical
    hroom hwritten hplaced ⟨_, congrArg some hl, rfl⟩ (by rw [next?_cons, hl]; decide)
  exact ⟨read, programFrom_eq_ok.mpr (hsequence.program hl), hread⟩

/-- Reading the lexemes yields the statements, up to positions. -/
def ReadsAs (lexemes : List Lexeme) (statements : List Stmt) : Prop :=
  ∃ read, parse lexemes = .ok read ∧ read.map Stmt.unplaced = statements.map Stmt.unplaced

/-- The limit only stops: canonical statements are read back, or the reading ends for want of
room. -/
theorem readsAs_or_tooDeeplyNested {statements : List Stmt}
    (hcanonical : ∀ s ∈ statements, s.Canonical .outermost) {lexemes : List Lexeme}
    (hwritten : lexemes.map (·.token) =
      (Stmt.marksAll Stmt.separator statements).map (·.token) ++ [.endOfInput])
    (hplaced : ReturnsPlaced lexemes) :
    ReadsAs lexemes statements ∨
      ∃ p, parse lexemes = .error ⟨.tooDeeplyNested maxNesting, p⟩ := by
  have hlimits : (Rules.withRoom maxNesting).Limits Eq (·.fault = .tooDeeplyNested maxNesting)
      (Rules.withRoom (max maxNesting (Stmt.roomOfAll statements))) :=
    Rules.limits_withRoom (fun _ _ => rfl) (fun _ _ => rfl) (Nat.le_max_left _ _)
  obtain ⟨read, hread, hsame⟩ := readBack_program hcanonical
    (fun s hs => Nat.le_trans (Stmt.roomOfAll_le_iff.mp (Nat.le_refl _) s hs)
      (Nat.le_max_right maxNesting _)) hwritten hplaced
  -- With room for the statements they are read; with less, the same happens unless there is none.
  rcases (programFrom_same (hlimits.declaration (.refl _ .outermost)) [] lexemes).eq_or with
    heq | ⟨e, he, hdeep⟩
  · exact .inl ⟨read, heq.trans hread, hsame⟩
  · refine .inr ⟨e.position, he.trans ?_⟩
    rw [← hdeep]

/-- **Reading undoes writing.** Canonical statements, written with a semicolon between any two of a
list and the end after them, are read back as the same statements up to positions, or the reading
ends for want of room. It does not if no more than `maxNesting` parts are written. -/
theorem parse_written {statements : List Stmt}
    (hcanonical : ∀ s ∈ statements, s.Canonical .outermost) {lexemes : List Lexeme}
    (hwritten : lexemes.map (·.token) =
      (Stmt.marksAll Stmt.separator statements).map (·.token) ++ [.endOfInput])
    (hplaced : ReturnsPlaced lexemes) :
    (ReadsAs lexemes statements ∨
        ∃ p, parse lexemes = .error ⟨.tooDeeplyNested maxNesting, p⟩) ∧
      (Stmt.weightOfAll statements ≤ maxNesting → ReadsAs lexemes statements) := by
  refine ⟨readsAs_or_tooDeeplyNested hcanonical hwritten hplaced, fun hweight => ?_⟩
  refine readBack_program hcanonical (fun s hs => ?_) hwritten hplaced
  calc s.room ≤ s.weight := s.room_le_weight
    _ ≤ Stmt.weightOfAll statements := Stmt.weight_le_weightOfAll hs
    _ ≤ maxNesting := hweight

/-- A function with a `return` that has no value in front of an `else`, and an assignment. -/
def functionTrees : List Stmt :=
  [.function "f" ["a", "b"]
      [.cond (.var "a" .start) (.return_ none .start)
        (some (.return_ (some (.binary .add (.unary .negate (.var "a" .start) .start)
          (.call (.var "f" .start) [.var "b" .start] .start) .start)) .start)) .start] .start,
    .expression (.assign "x" (.group (.var "y" .start) .start) .start) .start]

/-- `functionTrees`, with the `else` on a line of its own. -/
def functionLexemes : List Lexeme :=
  inLines
    [[.keyword .fun_, .identifier "f", .symbol .leftParen, .identifier "a", .symbol .comma,
        .identifier "b", .symbol .rightParen, .symbol .leftBrace],
      [.keyword .if_, .identifier "a", .keyword .return_],
      [.keyword .else_, .keyword .return_, .symbol .minus, .identifier "a", .symbol .plus,
        .identifier "f", .symbol .leftParen, .identifier "b", .symbol .rightParen],
      [.symbol .rightBrace, .symbol .semicolon, .identifier "x", .symbol .equals,
        .symbol .leftParen, .identifier "y", .symbol .rightParen, .endOfInput]]

theorem functionTrees_canonical : ∀ s ∈ functionTrees, s.Canonical .outermost := by
  simp [functionTrees, Stmt.Canonical, Stmt.AllCanonical, Stmt.OtherwiseCanonical, Expr.Canonical,
    Expr.AllCanonical, Stmt.isBranch, Stmt.StartsApart, Stmt.endsOpen]
  decide

theorem function_readsAs : ReadsAs functionLexemes functionTrees := by
  refine (parse_written functionTrees_canonical (by decide) ?_).2 (by decide)
  simp [ReturnsPlaced, ReturnPlaced, functionLexemes, inLines, opensExpression]

end Grammar

end Scripting
