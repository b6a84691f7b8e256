/-
The rules get on, and come to an end.

Whatever the lexemes are, with or without a mark of the end, with several, or cut off anywhere, a
rule either fails or has taken a front of them that is not empty and has no mark of the end in it.
What is taken spells what has been read, and the end is written nowhere.

The rules have five loops: over the statements of a program and of a block, over the items of a list
in parentheses, over the calls behind a callee, and over the operators behind an operand. Each is
given here as a `Repetition`: what one round does, when the loop stops and with what, and what the
rule returns that is made of it. A round takes something, so there are at most as many rounds as
lexemes, and the rule returns what its loop stops with. How deep the rules call each other is
bounded in the same way (`Suffices`).
-/
import Scripting.Proofs.Brackets
import Scripting.Proofs.Headroom
import Scripting.Proofs.Lookahead

set_option autoImplicit false

namespace Scripting.Grammar

open Scripting.Grammar.Layered (outcome)

/-! ## What is taken -/

/-- Something has been taken from the front, and no mark of the end. -/
def Consumed (ts rest : List Lexeme) : Prop :=
  ∃ taken, ts = taken ++ rest ∧ taken ≠ [] ∧ ∀ l ∈ taken, l.token ≠ .endOfInput

section Consumed

variable {ts mid rest : List Lexeme}

theorem Consumed.length_lt (h : Consumed ts rest) : rest.length < ts.length := by
  obtain ⟨taken, rfl, hne, -⟩ := h
  have hpos := List.length_pos_iff.mpr hne
  rw [List.length_append]
  omega

theorem Consumed.trans (h : Consumed ts mid) (h' : Consumed mid rest) : Consumed ts rest := by
  obtain ⟨taken, rfl, hne, hend⟩ := h
  obtain ⟨more, rfl, -, hend'⟩ := h'
  refine ⟨taken ++ more, (List.append_assoc _ _ _).symm, by simp [hne], fun l hl => ?_⟩
  rcases List.mem_append.mp hl with hl | hl
  · exact hend l hl
  · exact hend' l hl

/-- One lexeme that is not the end. -/
theorem consumed_cons {l : Lexeme} (hl : l.token ≠ .endOfInput) (ts : List Lexeme) :
    Consumed (l :: ts) ts :=
  ⟨[l], rfl, List.cons_ne_nil _ _, List.forall_mem_singleton.mpr hl⟩

/-- Semicolons in front are taken too. -/
theorem Consumed.of_dropWhile (h : Consumed (ts.dropWhile isSemicolon) rest) :
    Consumed ts rest := by
  induction ts with
  | nil => exact h
  | cons l ts ih =>
    rw [List.dropWhile_cons] at h
    split at h
    · next hl =>
      have htoken : l.token = .symbol .semicolon := of_decide_eq_true hl
      exact (consumed_cons (by simp [htoken]) ts).trans (ih h)
    · exact h

end Consumed

namespace Spells

variable {ms : List Mark} {ts rest : List Lexeme}

/-- What is left does not matter. -/
theorem append (h : Spells ms ts rest) (more : List Lexeme) :
    Spells ms (ts ++ more) (rest ++ more) := by
  induction h with
  | done => exact .done
  | mark hm hw _ ih => exact .mark hm hw ih
  | semicolon hl _ ih => exact .semicolon hl ih

/-- What spells the marks is taken from the front. -/
theorem exists_taken (h : Spells ms ts rest) :
    ∃ taken, ts = taken ++ rest ∧ Spells ms taken [] ∧ ∀ l ∈ taken, l.token ≠ .endOfInput := by
  induction h with
  | done => exact ⟨[], rfl, .done, fun l hl => absurd hl List.not_mem_nil⟩
  | @mark _ _ l _ _ hm hw _ ih =>
    obtain ⟨taken, rfl, hspelled, hend⟩ := ih
    have hl : l.token ≠ .endOfInput := by
      intro hl
      rw [hl] at hw
      cases hw
    exact ⟨l :: taken, rfl, .mark hm hw hspelled, List.forall_mem_cons.mpr ⟨hl, hend⟩⟩
  | @semicolon _ l _ _ hl _ ih =>
    obtain ⟨taken, rfl, hspelled, hend⟩ := ih
    have htoken : l.token = .symbol .semicolon := of_decide_eq_true hl
    exact ⟨l :: taken, rfl, .semicolon hl hspelled,
      List.forall_mem_cons.mpr ⟨by simp [htoken], hend⟩⟩

/-- Semicolons spell nothing. -/
theorem takeWhile (ts : List Lexeme) : Spells [] (ts.takeWhile isSemicolon) [] := by
  apply of_dropWhile
  rw [List.dropWhile_eq_nil_iff.mpr fun l hl => List.mem_takeWhile_imp hl]
  exact .done

end Spells

/-! ## The rules get on -/

/-- On any lexemes the rule fails, or it has read something and taken what it leaves out. -/
def Advances {α : Type} (rule : Rule α) : Prop :=
  ∀ ts, (∃ e, rule ts = .error e) ∨ ∃ v rest, Yields (rule ts) v rest ∧ Consumed ts rest

theorem Advances.consumed {α : Type} {rule : Rule α} (h : Advances rule) {ts rest : List Lexeme}
    {v : α} (hv : Yields (rule ts) v rest) : Consumed ts rest := by
  obtain ⟨y, hy, rfl, rfl⟩ := hv
  rcases h ts with ⟨e, he⟩ | ⟨v, rest, ⟨y', hy', rfl, rfl⟩, htaken⟩
  · cases hy.symm.trans he
  · cases hy.symm.trans hy'
    exact htaken

/-- A rule advances if what it takes spells what it has read. -/
theorem advances_of_spelled {α : Type} {rule : Rule α} {marks : α → List Mark}
    (h : ∀ {ts v rest}, Yields (rule ts) v rest → Spells (marks v) ts rest) : Advances rule := by
  intro ts
  cases hrule : rule ts with
  | error e => exact .inl ⟨e, rfl⟩
  | ok y =>
    obtain ⟨taken, htaken, -, hend⟩ := (h ⟨y, hrule, rfl, rfl⟩).exists_taken
    refine .inr ⟨y.value, y.rest, ⟨y, rfl, rfl, rfl⟩, taken, htaken, ?_, hend⟩
    rintro rfl
    exact absurd (congrArg List.length htaken) (Nat.ne_of_gt y.rest_lt)

theorem advances_declaration (room : Nat) (around : Surroundings) :
    Advances ((Rules.withRoom room).declaration around) :=
  advances_of_spelled fun h => ((Rules.faithful_withRoom room).declaration h).spelled

theorem advances_statement (room : Nat) (around : Surroundings) :
    Advances ((Rules.withRoom room).statement around) :=
  advances_of_spelled fun h => ((Rules.faithful_withRoom room).statement h).1.spelled

theorem advances_expression (room : Nat) : Advances (Rules.withRoom room).expression :=
  advances_of_spelled fun h => ((Rules.faithful_withRoom room).expression h).spelled

theorem advances_precedence (room : Nat) (least : Precedence) :
    Advances ((Rules.withRoom room).precedence least) :=
  advances_of_spelled fun h => ((Rules.faithful_withRoom room).precedence h).spelled

theorem advances_unary (room : Nat) : Advances (Rules.withRoom room).unary :=
  advances_of_spelled fun h => ((Rules.faithful_withRoom room).unary h).spelled

theorem advances_primary (room : Nat) : Advances (primary (Rules.further room)) := by
  refine advances_of_spelled fun h =>
    ((primaryRead_of_yields h).callable fun rules hrules => ?_).spelled
  cases room with
  | zero => cases hrules
  | succ room =>
    cases hrules
    exact Rules.faithful_withRoom room

theorem advances_nameOf (what : Expectation) : Advances (nameOf what) := by
  have hspelled : ∀ {ts rest} {n : String × Position}, Yields (nameOf what ts) n rest →
      Spells [.plain (.identifier n.1)] ts rest := fun h => (nameOf_spelled h).1
  exact advances_of_spelled hspelled

/-! ## Blocks -/

/-- A block has been taken up to its closing brace: what stands inside is properly nested, so that
the brace closes the one that has opened the block. -/
def Closed (ts rest : List Lexeme) : Prop :=
  ∃ inside close, ts = inside ++ close :: rest ∧ close.token = .symbol .rightBrace ∧
    ProperlyNested (inside.map (·.token)) ∧ ∀ l ∈ inside, l.token ≠ .endOfInput

/-- What stands inside of a block spells its statements. By induction on how they are read. -/
theorem BlockRead.exists_inside {declaration : Rule Stmt} {around : Surroundings}
    (hdeclaration : ∀ {ts s rest}, Yields (declaration ts) s rest → Stated around ts s rest)
    {ts rest : List Lexeme} {body : List Stmt} (h : BlockRead declaration ts body rest) :
    ∃ inside close, ts = inside ++ close :: rest ∧ close.token = .symbol .rightBrace ∧
      Spells (Stmt.marksAll [] body) inside [] := by
  induction h with
  | @close ts l rest hdrop hl =>
    refine ⟨ts.takeWhile isSemicolon, l, ?_, hl, .takeWhile ts⟩
    rw [← hdrop, List.takeWhile_append_dropWhile]
  | @more ts l after s mid body rest hdrop _ _ hs _ ih =>
    obtain ⟨inside, close, rfl, hclose, hinside⟩ := ih
    obtain ⟨taken, htaken, hspelled, -⟩ := (hdeclaration hs).spelled.exists_taken
    refine ⟨ts.takeWhile isSemicolon ++ (taken ++ inside), close, ?_, hclose, ?_⟩
    · rw [List.append_assoc, List.append_assoc, ← htaken, ← hdrop, List.takeWhile_append_dropWhile]
    · rw [Stmt.marksAll_nil_cons]
      exact ((Spells.takeWhile ts).append _).trans ((hspelled.append inside).trans hinside)

theorem closed_of_block {room : Nat} {around : Surroundings} {opening : Position}
    {ts rest : List Lexeme} {body : List Stmt}
    (h : Yields ((Rules.withRoom room).block around opening ts) body rest) : Closed ts rest := by
  obtain ⟨inside, close, rfl, hclose, hspelled⟩ := BlockRead.exists_inside
    (Rules.faithful_withRoom room).declaration ((yields_block opening).mp h)
  have hmarks : Mark.KeepBrackets (Stmt.marksAll [] body) :=
    Stmt.keepBrackets_all fun s _ => s.keepBrackets_marks
  obtain ⟨taken, htaken, -, hend⟩ := hspelled.exists_taken
  rw [List.append_nil] at htaken
  subst htaken
  exact ⟨_, close, rfl, hclose, hspelled.openAfter_eq hmarks [], hend⟩

/-! ## Loops -/

/-- A loop that goes from state to state: what one round does, what the loop returns in a state
in which it stops, which lexemes are left in a state, and what the rule that is made of the loop
returns from there. -/
structure Repetition (σ β : Type) where
  round : σ → σ → Prop
  stops : σ → β → Prop
  left : σ → List Lexeme
  result : σ → β

namespace Repetition

variable {σ β : Type}

/-- So many rounds lead from one state to another. -/
inductive Rounds (loop : Repetition σ β) : Nat → σ → σ → Prop
  | none (s : σ) : Rounds loop 0 s s
  | again {n : Nat} {s t u : σ} : loop.round s t → Rounds loop n t u → Rounds loop (n + 1) s u

/-- The loop comes to an end from every state: each round takes something, so that there are no more
rounds than lexemes, and after some rounds the loop stops with what the rule returns. -/
structure Ends (loop : Repetition σ β) : Prop where
  consumed : ∀ s t, loop.round s t → Consumed (loop.left s) (loop.left t)
  bounded : ∀ n s t, loop.Rounds n s t → n + (loop.left t).length ≤ (loop.left s).length
  stopped : ∀ s, ∃ n t, loop.Rounds n s t ∧ loop.stops t (loop.result s)

/-- It is enough to look at one step: a round takes something, and from every state there is either
a round that does not change what the rule returns, or the loop stops. By induction on the rounds,
and on the number of lexemes that are left. -/
theorem ends_of_step {loop : Repetition σ β}
    (hconsumed : ∀ s t, loop.round s t → Consumed (loop.left s) (loop.left t))
    (hstep : ∀ s, (∃ t, loop.round s t ∧ loop.result s = loop.result t) ∨
      loop.stops s (loop.result s)) : loop.Ends where
  consumed := hconsumed
  bounded n s t h := by
    induction h with
    | none s => omega
    | again hround _ ih =>
      have hlt := (hconsumed _ _ hround).length_lt
      omega
  stopped s := by
    induction hn : (loop.left s).length using Nat.strongRecOn generalizing s with
    | ind m ih =>
      rcases hstep s with ⟨t, hround, hresult⟩ | hstop
      · have hlt := (hconsumed s t hround).length_lt
        obtain ⟨n, u, hrounds, hstop⟩ := ih _ (hn ▸ hlt) t rfl
        rw [← hresult] at hstop
        exact ⟨n + 1, u, .again hround hrounds, hstop⟩
      · exact ⟨0, s, .none s, hstop⟩

end Repetition

/-! ### Statements -/

section Statements

/-- Behind semicolons a statement is read, unless one of `ends` comes next. -/
inductive StatementRound (declaration : Rule Stmt) (ends : List Token) :
    List Stmt × List Lexeme → List Stmt × List Lexeme → Prop
  | statement {read : List Stmt} {ts : List Lexeme} {l : Lexeme} {after : List Lexeme} {s : Stmt}
      {rest : List Lexeme} : ts.dropWhile isSemicolon = l :: after → l.token ∉ ends →
      Yields (declaration (l :: after)) s rest →
      StatementRound declaration ends (read, ts) (s :: read, rest)

/-- A program ends where the lexemes do, or at a mark of the end, or with the error of a
statement. -/
inductive ProgramStop (declaration : Rule Stmt) :
    List Stmt × List Lexeme → Except ParseError (List Stmt) → Prop
  | over {read : List Stmt} {ts : List Lexeme} :
      (∀ l, (ts.dropWhile isSemicolon).head? = some l → l.token = .endOfInput) →
      ProgramStop declaration (read, ts) (.ok read.reverse)
  | error {read : List Stmt} {ts : List Lexeme} {l : Lexeme} {after : List Lexeme}
      {e : ParseError} : ts.dropWhile isSemicolon = l :: after → l.token ≠ .endOfInput →
      declaration (l :: after) = .error e → ProgramStop declaration (read, ts) (.error e)

/-- A block ends at its brace. Without one, or with the error of a statement, it fails. -/
inductive BlockStop (declaration : Rule Stmt) (opening : Position) :
    List Stmt × List Lexeme → Except ParseError (List Stmt × List Lexeme) → Prop
  | close {read : List Stmt} {ts : List Lexeme} {l : Lexeme} {after : List Lexeme} :
      ts.dropWhile isSemicolon = l :: after → l.token = .symbol .rightBrace →
      BlockStop declaration opening (read, ts) (.ok (read.reverse, after))
  | unterminated {read : List Stmt} {ts : List Lexeme} :
      (∀ l, (ts.dropWhile isSemicolon).head? = some l → l.token = .endOfInput) →
      BlockStop declaration opening (read, ts) (.error ⟨.unterminatedBlock, opening⟩)
  | error {read : List Stmt} {ts : List Lexeme} {l : Lexeme} {after : List Lexeme}
      {e : ParseError} : ts.dropWhile isSemicolon = l :: after →
      l.token ∉ [.symbol .rightBrace, .endOfInput] → declaration (l :: after) = .error e →
      BlockStop declaration opening (read, ts) (.error e)

/-- The loop over the statements of a program, which is read from `([], lexemes)`. -/
def programRepetition (declaration : Rule Stmt) :
    Repetition (List Stmt × List Lexeme) (Except ParseError (List Stmt)) where
  round := StatementRound declaration [.endOfInput]
  stops := ProgramStop declaration
  left := (·.2)
  result s := programFrom declaration s.1 s.2

/-- The loop over the statements of a block, which is read from `([], lexemes)`. -/
def blockRepetition (declaration : Rule Stmt) (opening : Position) (bound : Nat) :
    Repetition {s : List Stmt × List Lexeme // s.2.length ≤ bound}
      (Except ParseError (List Stmt × List Lexeme)) where
  round s t := StatementRound declaration [.symbol .rightBrace, .endOfInput] s.1 t.1
  stops s := BlockStop declaration opening s.1
  left s := s.1.2
  result s := outcome (blockFrom declaration opening bound s.1.1 s.1.2 s.2)

variable {declaration : Rule Stmt}

theorem StatementRound.consumed (hdeclaration : Advances declaration) {ends : List Token}
    {s t : List Stmt × List Lexeme} (h : StatementRound declaration ends s t) :
    Consumed s.2 t.2 := by
  obtain ⟨hdrop, -, hs⟩ := h
  apply Consumed.of_dropWhile
  rw [hdrop]
  exact hdeclaration.consumed hs

/-- One step of the loop over a program. -/
theorem programRepetition_step (read : List Stmt) (ts : List Lexeme) :
    (∃ t, StatementRound declaration [.endOfInput] (read, ts) t ∧
        programFrom declaration read ts = programFrom declaration t.1 t.2) ∨
      ProgramStop declaration (read, ts) (programFrom declaration read ts) := by
  by_cases hover : ∀ l, (ts.dropWhile isSemicolon).head? = some l → l.token = .endOfInput
  · right
    have hclose : ProgramRead declaration ts [] := .close hover
    rw [hclose.ok read, List.append_nil]
    exact .over hover
  · push Not at hover
    obtain ⟨l, hl, hend⟩ := hover
    obtain ⟨after, hdrop⟩ := List.head?_eq_some_iff.mp hl
    cases hs : declaration (l :: after) with
    | error e =>
      right
      rw [programFrom_error hdrop hend read hs]
      exact .error hdrop hend hs
    | ok y =>
      have hy : Yields (declaration (l :: after)) y.value y.rest := ⟨y, hs, rfl, rfl⟩
      exact .inl ⟨(y.value :: read, y.rest), .statement hdrop (by simpa using hend) hy,
        programFrom_eq hdrop hend read hy⟩

theorem programRepetition_ends (hdeclaration : Advances declaration) :
    (programRepetition declaration).Ends :=
  Repetition.ends_of_step (fun _ _ h => h.consumed hdeclaration)
    fun s => programRepetition_step s.1 s.2

/-- One step of the loop over a block. -/
theorem blockRepetition_step (opening : Position) {bound : Nat} (read : List Stmt)
    (ts : List Lexeme) (fits : ts.length ≤ bound) :
    (∃ (t : List Stmt × List Lexeme) (fits' : t.2.length ≤ bound),
        StatementRound declaration [.symbol .rightBrace, .endOfInput] (read, ts) t ∧
          outcome (blockFrom declaration opening bound read ts fits)
            = outcome (blockFrom declaration opening bound t.1 t.2 fits')) ∨
      BlockStop declaration opening (read, ts)
        (outcome (blockFrom declaration opening bound read ts fits)) := by
  by_cases hover : ∀ l, (ts.dropWhile isSemicolon).head? = some l → l.token = .endOfInput
  · right
    rw [blockFrom_unterminated opening read fits hover]
    exact .unterminated hover
  · push Not at hover
    obtain ⟨l, hl, hend⟩ := hover
    obtain ⟨after, hdrop⟩ := List.head?_eq_some_iff.mp hl
    by_cases hbrace : l.token = .symbol .rightBrace
    · right
      have hclose : BlockRead declaration ts [] after := .close hdrop hbrace
      obtain ⟨y, hy, hvalue, rfl⟩ := hclose.yields opening read fits
      rw [List.append_nil] at hvalue
      rw [hy, outcome, Except.map, hvalue]
      exact .close hdrop hbrace
    · have hends : l.token ∉ [Token.symbol .rightBrace, .endOfInput] := by simp [hbrace, hend]
      cases hs : declaration (l :: after) with
      | error e =>
        right
        rw [blockFrom_error hdrop hend opening read fits hbrace hs]
        exact .error hdrop hends hs
      | ok y =>
        have hy : Yields (declaration (l :: after)) y.value y.rest := ⟨y, hs, rfl, rfl⟩
        obtain ⟨fits', heq⟩ := blockFrom_eq hdrop hend opening read fits hbrace hy
        exact .inl ⟨(y.value :: read, y.rest), fits', .statement hdrop hends hy,
          congrArg outcome heq⟩

theorem blockRepetition_ends (hdeclaration : Advances declaration) (opening : Position)
    (bound : Nat) : (blockRepetition declaration opening bound).Ends := by
  refine Repetition.ends_of_step (fun _ _ h => StatementRound.consumed hdeclaration h) fun s => ?_
  rcases blockRepetition_step opening s.1.1 s.1.2 s.2 with ⟨t, fits, hround, hresult⟩ | hstop
  · exact .inl ⟨⟨t, fits⟩, hround, hresult⟩
  · exact .inr hstop

end Statements

/-! ### Items -/

section Items

variable {α : Type}

/-- Where the loop over the items of a list is: how many more there may be, those read already, of
which the last comes first, and the lexemes that are left. -/
structure ItemsState (α : Type) where
  room : Nat
  read : List α
  left : List Lexeme

/-- An item is read with a comma behind it. -/
inductive ItemRound (item : Rule α) : ItemsState α → ItemsState α → Prop
  | comma {room : Nat} {read : List α} {ts : List Lexeme} {x : α} {l : Lexeme}
      {rest : List Lexeme} : Yields (item ts) x (l :: rest) → l.token = .symbol .comma →
      ItemRound item ⟨room + 1, read, ts⟩ ⟨room, x :: read, rest⟩

/-- A list ends at the parenthesis behind an item. If there is neither that nor a comma, or no item,
or no room for one, it fails. -/
inductive ItemsStop (what : Listing) (item : Rule α) :
    ItemsState α → Except ParseError (List α × List Lexeme) → Prop
  | close {room : Nat} {read : List α} {ts : List Lexeme} {x : α} {l : Lexeme}
      {rest : List Lexeme} : Yields (item ts) x (l :: rest) → l.token = .symbol .rightParen →
      ItemsStop what item ⟨room + 1, read, ts⟩ (.ok ((x :: read).reverse, rest))
  | other {room : Nat} {read : List α} {ts : List Lexeme} {x : α} {l : Lexeme}
      {rest : List Lexeme} : Yields (item ts) x (l :: rest) → l.token ≠ .symbol .comma →
      l.token ≠ .symbol .rightParen → ItemsStop what item ⟨room + 1, read, ts⟩
        (.error ⟨.expectedToken .commaOrParen l.token, l.position⟩)
  | ranOut {room : Nat} {read : List α} {ts : List Lexeme} {x : α} : Yields (item ts) x [] →
      ItemsStop what item ⟨room + 1, read, ts⟩ (.error ranOut)
  | error {room : Nat} {read : List α} {ts : List Lexeme} {e : ParseError} : item ts = .error e →
      ItemsStop what item ⟨room + 1, read, ts⟩ (.error e)
  | tooMany {read : List α} {ts : List Lexeme} : ItemsStop what item ⟨0, read, ts⟩
      (.error ⟨.tooManyItems what maxItems, nextPosition ts⟩)

/-- The loop over the items of a list in parentheses, which is read with room for `maxItems` if it
is not empty. -/
def itemsRepetition (what : Listing) (item : Rule α) :
    Repetition (ItemsState α) (Except ParseError (List α × List Lexeme)) where
  round := ItemRound item
  stops := ItemsStop what item
  left := ItemsState.left
  result s := (outcome (itemsFrom what item s.room s.left)).map
    fun r => (s.read.reverse ++ r.1, r.2)

theorem ItemsRead.consumed {item : Rule α} (hitem : Advances item) {ts rest : List Lexeme}
    {xs : List α} (h : ItemsRead item ts xs rest) : Consumed ts rest := by
  induction h with
  | last hx hl => exact (hitem.consumed hx).trans (consumed_cons (by simp [hl]) _)
  | more hx hl _ ih => exact (hitem.consumed hx).trans ((consumed_cons (by simp [hl]) _).trans ih)

theorem consumed_of_commaSeparated {what : Listing} {item : Rule α} (hitem : Advances item)
    {ts rest : List Lexeme} {xs : List α} (h : Yields (commaSeparated what item ts) xs rest) :
    Consumed ts rest := by
  obtain ⟨hread, -⟩ := (yields_commaSeparated what).mp h
  cases hread with
  | none hl => exact consumed_cons (by simp [hl]) rest
  | some _ hitems => exact hitems.consumed hitem

/-- What a list comes to, by what stands behind its first item. -/
theorem outcome_itemsFrom_cons (what : Listing) {item : Rule α} (room : Nat)
    {ts after : List Lexeme} {x : α} {l : Lexeme} (hx : Yields (item ts) x (l :: after)) :
    outcome (itemsFrom what item (room + 1) ts) =
      if l.token = .symbol .comma then
        (outcome (itemsFrom what item room after)).map fun r => (x :: r.1, r.2)
      else if l.token = .symbol .rightParen then .ok ([x], after)
      else .error ⟨.expectedToken .commaOrParen l.token, l.position⟩ := by
  obtain ⟨⟨value, rest, hlt⟩, hy, rfl, rfl⟩ := hx
  rw [itemsFrom, hy]
  dsimp only [bind, Except.bind]
  split_ifs
  · cases itemsFrom what item room after <;> rfl
  · rfl
  · rfl

theorem itemsFrom_nil (what : Listing) {item : Rule α} (room : Nat) {ts : List Lexeme} {x : α}
    (hx : Yields (item ts) x []) : itemsFrom what item (room + 1) ts = .error ranOut := by
  obtain ⟨⟨value, rest, hlt⟩, hy, rfl, rfl⟩ := hx
  rw [itemsFrom, hy]
  rfl

/-- One step of the loop over a list. -/
theorem itemsRepetition_step (what : Listing) (item : Rule α) (s : ItemsState α) :
    (∃ t, ItemRound item s t ∧
        (itemsRepetition what item).result s = (itemsRepetition what item).result t) ∨
      ItemsStop what item s ((itemsRepetition what item).result s) := by
  obtain ⟨room, read, ts⟩ := s
  cases room with
  | zero => exact .inr .tooMany
  | succ room =>
    dsimp only [itemsRepetition]
    cases hitem : item ts with
    | error e =>
      right
      rw [itemsFrom, hitem]
      exact .error hitem
    | ok y =>
      cases hrest : y.rest with
      | nil =>
        right
        rw [itemsFrom_nil what room ⟨y, hitem, rfl, hrest⟩]
        exact .ranOut ⟨y, hitem, rfl, hrest⟩
      | cons l after =>
        have hy : Yields (item ts) y.value (l :: after) := ⟨y, hitem, rfl, hrest⟩
        rw [outcome_itemsFrom_cons what room hy]
        split_ifs with hcomma hparen
        · refine .inl ⟨⟨room, y.value :: read, after⟩, .comma hy hcomma, ?_⟩
          -- The item goes in front of those that follow, or behind those read before.
          cases outcome (itemsFrom what item room after) with
          | error e => rfl
          | ok r => simp [Except.map]
        · right
          rw [Except.map, ← List.reverse_cons]
          exact .close hy hparen
        · exact .inr (.other hy hcomma hparen)

theorem itemsRepetition_ends (what : Listing) {item : Rule α} (hitem : Advances item) :
    (itemsRepetition what item).Ends := by
  refine Repetition.ends_of_step ?_ (itemsRepetition_step what item)
  rintro _ _ ⟨hx, hl⟩
  exact (hitem.consumed hx).trans (consumed_cons (by simp [hl]) _)

end Items

/-! ### Calls and operators -/

section Chains

/-- Where a loop is that goes on behind an expression: the room there is, the expression, and the
lexemes that are left. -/
structure ChainState where
  room : Nat
  tree : Expr
  left : List Lexeme

/-- The arguments of a call are read, one level further in. -/
inductive CallRound : ChainState → ChainState → Prop
  | call {room : Nat} {callee : Expr} {l : Lexeme} {ts rest : List Lexeme}
      {arguments : List Expr} : l.token = .symbol .leftParen →
      Yields (commaSeparated .arguments (Rules.withRoom room).expression ts) arguments rest →
      CallRound ⟨room + 1, callee, l :: ts⟩ ⟨room, .call callee arguments l.position, rest⟩

/-- Calls end where no parenthesis is opened. If there is no room for one, or its arguments are
wrong, they fail. -/
inductive CallsStop : ChainState → Except ParseError (Expr × List Lexeme) → Prop
  | over {room : Nat} {callee : Expr} {ts : List Lexeme} :
      next? ts ≠ some (.symbol .leftParen) → CallsStop ⟨room, callee, ts⟩ (.ok (callee, ts))
  | tooDeep {callee : Expr} {l : Lexeme} {ts : List Lexeme} : l.token = .symbol .leftParen →
      CallsStop ⟨0, callee, l :: ts⟩ (.error ⟨.tooDeeplyNested maxNesting, l.position⟩)
  | error {room : Nat} {callee : Expr} {l : Lexeme} {ts : List Lexeme} {e : ParseError} :
      l.token = .symbol .leftParen →
      commaSeparated .arguments (Rules.withRoom room).expression ts = .error e →
      CallsStop ⟨room + 1, callee, l :: ts⟩ (.error e)

/-- The loop over the calls behind a callee. -/
def callsRepetition : Repetition ChainState (Except ParseError (Expr × List Lexeme)) where
  round := CallRound
  stops := CallsStop
  left := ChainState.left
  result s := outcome ((Rules.withRoom s.room).calls s.tree s.left)

/-- One step of the loop over calls. -/
theorem callsRepetition_step (s : ChainState) :
    (∃ t, CallRound s t ∧ callsRepetition.result s = callsRepetition.result t) ∨
      CallsStop s (callsRepetition.result s) := by
  obtain ⟨room, callee, ts⟩ := s
  dsimp only [callsRepetition]
  rw [Rules.withRoom_eq_around]
  show (∃ t, _ ∧ outcome (calls (Rules.further room) callee ts) = _) ∨
    CallsStop _ (outcome (calls (Rules.further room) callee ts))
  -- The round changes nothing but the proof that comes with the rest, which `outcome` leaves out.
  by_cases hover : next? ts = some (.symbol .leftParen)
  · cases ts with
    | nil => cases hover
    | cons l ts =>
      have hl : l.token = .symbol .leftParen := Option.some.inj hover
      rw [calls, if_pos hl]
      cases room with
      | zero => exact .inr (.tooDeep hl)
      | succ room =>
        dsimp only [Rules.further, descend, bind, Except.bind]
        cases harguments : commaSeparated .arguments (Rules.withRoom room).expression ts with
        | error e => exact .inr (.error hl harguments)
        | ok y =>
          refine .inl ⟨_, .call hl ⟨y, harguments, rfl, rfl⟩, ?_⟩
          dsimp only
          cases (Rules.withRoom room).calls (.call callee y.value l.position) y.rest <;> rfl
  · right
    have hread : CallsRead (Rules.further room) callee ts callee ts := .done hover
    obtain ⟨y, hy, rfl, hrest⟩ := yields_calls.mpr hread
    rw [hy, outcome, Except.map, hrest]
    exact .over hover

theorem callsRepetition_ends : callsRepetition.Ends := by
  refine Repetition.ends_of_step ?_ callsRepetition_step
  rintro _ _ @⟨room, callee, l, ts, rest, arguments, hl, harguments⟩
  have htaken := consumed_of_commaSeparated (advances_expression room) harguments
  exact (consumed_cons (by simp [hl]) ts).trans htaken

/-- An operator and its right operand are read, one level further in. -/
inductive OperatorRound (least : Precedence) : ChainState → ChainState → Prop
  | operator {room : Nat} {left right : Expr} {l : Lexeme} {ts rest : List Lexeme}
      {op : BinaryOperator} : BinaryOperator.ofToken? l.token = some op →
      least ≤ op.precedence →
      Yields ((Rules.withRoom room).precedence op.precedence.next ts) right rest →
      OperatorRound least ⟨room + 1, left, l :: ts⟩ ⟨room, .binary op left right l.position, rest⟩

/-- Operators end where no operator of the level or a tighter one comes next. If there is no room
for one, or its right operand is wrong, they fail. -/
inductive OperatorsStop (least : Precedence) :
    ChainState → Except ParseError (Expr × List Lexeme) → Prop
  | over {room : Nat} {left : Expr} {ts : List Lexeme} :
      (∀ op, nextOperator? ts = some op → ¬ least ≤ op.precedence) →
      OperatorsStop least ⟨room, left, ts⟩ (.ok (left, ts))
  | tooDeep {left : Expr} {l : Lexeme} {ts : List Lexeme} {op : BinaryOperator} :
      BinaryOperator.ofToken? l.token = some op → least ≤ op.precedence →
      OperatorsStop least ⟨0, left, l :: ts⟩ (.error ⟨.tooDeeplyNested maxNesting, l.position⟩)
  | error {room : Nat} {left : Expr} {l : Lexeme} {ts : List Lexeme} {op : BinaryOperator}
      {e : ParseError} : BinaryOperator.ofToken? l.token = some op → least ≤ op.precedence →
      (Rules.withRoom room).precedence op.precedence.next ts = .error e →
      OperatorsStop least ⟨room + 1, left, l :: ts⟩ (.error e)

/-- The loop over the operators of level `least` and tighter behind an operand. -/
def operatorsRepetition (least : Precedence) :
    Repetition ChainState (Except ParseError (Expr × List Lexeme)) where
  round := OperatorRound least
  stops := OperatorsStop least
  left := ChainState.left
  result s := outcome ((Rules.withRoom s.room).operators least s.tree s.left)

/-- One step of the loop over operators. -/
theorem operatorsRepetition_step (least : Precedence) (s : ChainState) :
    (∃ t, OperatorRound least s t ∧
        (operatorsRepetition least).result s = (operatorsRepetition least).result t) ∨
      OperatorsStop least s ((operatorsRepetition least).result s) := by
  obtain ⟨room, left, ts⟩ := s
  dsimp only [operatorsRepetition]
  rw [Rules.withRoom_eq_around]
  show (∃ t, _ ∧ outcome (operators (Rules.further room) least left ts) = _) ∨
    OperatorsStop least _ (outcome (operators (Rules.further room) least left ts))
  by_cases hover : ∀ op, nextOperator? ts = some op → ¬ least ≤ op.precedence
  · right
    have hread : OperatorsRead (Rules.further room) least left ts left ts := .done hover
    obtain ⟨y, hy, rfl, hrest⟩ := yields_operators.mpr hread
    rw [hy, outcome, Except.map, hrest]
    exact .over hover
  · push Not at hover
    obtain ⟨op, hop, hle⟩ := hover
    cases ts with
    | nil => cases hop
    | cons l ts =>
      have hl : BinaryOperator.ofToken? l.token = some op := hop
      simp only [operators, hl]
      rw [if_pos hle]
      cases room with
      | zero => exact .inr (.tooDeep hl hle)
      | succ room =>
        dsimp only [Rules.further, descend, bind, Except.bind]
        cases hright : (Rules.withRoom room).precedence op.precedence.next ts with
        | error e => exact .inr (.error hl hle hright)
        | ok y =>
          refine .inl ⟨_, .operator hl hle ⟨y, hright, rfl, rfl⟩, ?_⟩
          dsimp only
          cases (Rules.withRoom room).operators least (.binary op left y.value l.position) y.rest
            <;> rfl

theorem operatorsRepetition_ends (least : Precedence) : (operatorsRepetition least).Ends := by
  refine Repetition.ends_of_step ?_ (operatorsRepetition_step least)
  rintro _ _ @⟨room, left, right, l, ts, rest, op, hop, -, hright⟩
  have hl : l.token ≠ .endOfInput := by
    intro hl
    rw [hl] at hop
    cases hop
  exact (consumed_cons hl ts).trans ((advances_precedence room _).consumed hright)

end Chains

/-! ## The whole -/

/-- **The parser gets on and comes to an end.** Take any depth and surroundings, and any lexemes,
with marks of the end anywhere or nowhere.

Declarations, statements, expressions, expressions of a level, operands and primaries fail, or they
take a front of the lexemes that is not empty and has no mark of the end in it, and leave exactly
what is behind. So do blocks, and what they take ends in the brace that closes them.

The rules call each other no more often, one within the other, than there are lexemes: with that
much room, whatever the limit, there is no want of it, and more makes no difference. And each of
their loops comes to an end after at most as many rounds as there are lexemes: those over the
statements of a program and of a block, over arguments and parameters, over calls and over
operators. -/
theorem parser_gets_on_and_ends (depth : Nat) (around : Surroundings) :
    (Advances ((Rules.atDepth depth).declaration around) ∧
      Advances ((Rules.atDepth depth).statement around) ∧
      Advances (Rules.atDepth depth).expression ∧
      (∀ least, Advances ((Rules.atDepth depth).precedence least)) ∧
      Advances (Rules.atDepth depth).unary ∧
      Advances (primary (Rules.further (maxNesting - depth)))) ∧
    (∀ opening ts, (∃ e, (Rules.atDepth depth).block around opening ts = .error e) ∨
      ∃ body rest, Yields ((Rules.atDepth depth).block around opening ts) body rest ∧
        Closed ts rest) ∧
    (Suffices (fun room => (Rules.withRoom room).declaration around) ∧
      Suffices (fun room => (Rules.withRoom room).statement around) ∧
      Suffices (fun room => (Rules.withRoom room).expression) ∧
      (∀ least, Suffices fun room => (Rules.withRoom room).precedence least) ∧
      Suffices (fun room => (Rules.withRoom room).unary) ∧
      Suffices (fun room => primary (Rules.further room)) ∧
      ∀ opening, Suffices fun room => (Rules.withRoom room).block around opening) ∧
    (programRepetition ((Rules.atDepth depth).declaration around)).Ends ∧
    (∀ opening bound,
      (blockRepetition ((Rules.atDepth depth).declaration around) opening bound).Ends) ∧
    (itemsRepetition .arguments (Rules.atDepth depth).expression).Ends ∧
    (itemsRepetition .parameters (nameOf .parameterName)).Ends ∧
    callsRepetition.Ends ∧
    ∀ least, (operatorsRepetition least).Ends := by
  have hdeclaration := advances_declaration (maxNesting - depth) around
  have hexpression := advances_expression (maxNesting - depth)
  refine ⟨⟨hdeclaration, advances_statement _ around, hexpression, advances_precedence _,
      advances_unary _, advances_primary _⟩, fun opening ts => ?_,
    ⟨suffices_declaration around, suffices_statement around, suffices_expression,
      suffices_precedence, suffices_unary, suffices_primary, suffices_block around⟩,
    programRepetition_ends hdeclaration, blockRepetition_ends hdeclaration,
    itemsRepetition_ends .arguments hexpression,
    itemsRepetition_ends .parameters (advances_nameOf _),
    callsRepetition_ends, operatorsRepetition_ends⟩
  cases hblock : (Rules.atDepth depth).block around opening ts with
  | error e => exact .inl ⟨e, rfl⟩
  | ok y => exact .inr ⟨y.value, y.rest, ⟨y, rfl, rfl, rfl⟩, closed_of_block ⟨y, hblock, rfl, rfl⟩⟩

end Scripting.Grammar
