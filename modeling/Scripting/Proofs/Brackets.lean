/-
Brackets of programs.

Lines are gathered by a count: an opening bracket of either kind adds one, a closing one takes one
away. The grammar does not count. That its programs never look unfinished to the count is shown by
way of the brackets that are open at each place, the innermost first. Every tree, written as tokens,
can stand inside of any open brackets and leaves them as they were. So the tokens of an accepted
program open and close brackets in order, and the count is the number of those that are open: it is
never negative, and nothing is open at the end.
-/
import Scripting.Proofs.OpenLines

set_option autoImplicit false

namespace Scripting

open Grammar

/-! ## Open brackets -/

/-- Close the innermost of the open brackets, if it is closed by this symbol. -/
def closeBracket (mark : Symbol) : List Symbol → Option (List Symbol)
  | [] => none
  | due :: rest => if due = mark then some rest else none

/-- The brackets that are open after a token. Each is given by the symbol that closes it, the
innermost first. `none` if the token closes another one than the innermost. -/
def bracketsAfter (due : List Symbol) : Token → Option (List Symbol)
  | .symbol .leftParen => some (.rightParen :: due)
  | .symbol .leftBrace => some (.rightBrace :: due)
  | .symbol .rightParen => closeBracket .rightParen due
  | .symbol .rightBrace => closeBracket .rightBrace due
  | _ => some due

/-- The brackets that are open after some tokens. -/
def openAfter (due : List Symbol) (ts : List Token) : Option (List Symbol) :=
  ts.foldlM bracketsAfter due

/-- Every bracket is closed, by one of its kind, and the one opened last is closed first. -/
def ProperlyNested (ts : List Token) : Prop := openAfter [] ts = some []

instance (ts : List Token) : Decidable (ProperlyNested ts) :=
  inferInstanceAs (Decidable (openAfter [] ts = some []))

section OpenAfter

variable {due due' : List Symbol} {t : Token} {ts us : List Token}

@[simp] theorem openAfter_nil (due : List Symbol) : openAfter due [] = some due := rfl

@[simp] theorem openAfter_cons (due : List Symbol) (t : Token) (ts : List Token) :
    openAfter due (t :: ts) = (bracketsAfter due t).bind (openAfter · ts) := rfl

@[simp] theorem openAfter_append (due : List Symbol) (ts us : List Token) :
    openAfter due (ts ++ us) = (openAfter due ts).bind (openAfter · us) :=
  List.foldlM_append

/-- A token opens as many brackets as it counts for. -/
theorem length_bracketsAfter (h : bracketsAfter due t = some due') :
    (due'.length : Int) = due.length + Repl.bracket t := by
  have hclose : ∀ {mark : Symbol}, closeBracket mark due = some due' →
      (due'.length : Int) = due.length + -1 := by
    intro mark hmark
    cases due with
    | nil => cases hmark
    | cons next rest =>
      rw [closeBracket] at hmark
      split at hmark
      · cases hmark
        rw [List.length_cons]
        omega
      · cases hmark
  cases t with
  | symbol mark =>
    cases mark with
    | rightParen => exact hclose h
    | rightBrace => exact hclose h
    | _ =>
      cases h
      simp [Repl.bracket]
  | _ =>
    cases h
    simp [Repl.bracket]

/-- **The count is the number of open brackets.** -/
theorem length_openAfter {ls : List Lexeme}
    (h : openAfter due (ls.map (·.token)) = some due') :
    (due'.length : Int) = due.length + Repl.openBrackets ls := by
  rw [Repl.openBrackets_eq_foldl]
  induction ls generalizing due with
  | nil =>
    cases h
    simp
  | cons l ls ih =>
    rw [List.map_cons, openAfter_cons, Option.bind_eq_some_iff] at h
    obtain ⟨between, hfirst, hrest⟩ := h
    have hcount := Repl.foldl_bracket (ls.map (·.token)) (0 + Repl.bracket l.token)
    rw [ih hrest, length_bracketsAfter hfirst, List.map_cons, List.foldl_cons, hcount]
    omega

end OpenAfter

/-! ## Trees -/

namespace Mark

/-- Whatever brackets are open around the marks, the same are open behind them. -/
def KeepBrackets (ms : List Mark) : Prop := ∀ due, openAfter due (ms.map (·.token)) = some due

variable {m : Mark} {ms more : List Mark} {items : List (List Mark)}

theorem keepBrackets_nil : KeepBrackets [] := fun _ => rfl

namespace KeepBrackets

theorem append (h : KeepBrackets ms) (h' : KeepBrackets more) : KeepBrackets (ms ++ more) := by
  intro due
  rw [List.map_append, openAfter_append, h due, Option.bind_some, h' due]

/-- A mark in front that is no bracket. -/
theorem cons (hm : ∀ due, bracketsAfter due m.token = some due) (h : KeepBrackets ms) :
    KeepBrackets (m :: ms) := by
  intro due
  rw [List.map_cons, openAfter_cons, hm due, Option.bind_some, h due]

/-- Marks between an opening bracket and the one that closes it. -/
theorem enclosed {opening : Mark} {mark : Symbol} (h : KeepBrackets ms)
    (hopening : ∀ due, bracketsAfter due opening.token = some (mark :: due))
    (hclosing : ∀ due, bracketsAfter due (.symbol mark) = closeBracket mark due) :
    KeepBrackets (opening :: (ms ++ [plain (.symbol mark)])) := by
  intro due
  rw [List.map_cons, List.map_append, openAfter_cons, hopening, Option.bind_some, openAfter_append,
    h, Option.bind_some]
  simp [plain, hclosing, closeBracket]

theorem intercalate {separator : List Mark} (hseparator : KeepBrackets separator)
    (h : ∀ item ∈ items, KeepBrackets item) : KeepBrackets (separator.intercalate items) := by
  induction items with
  | nil => exact keepBrackets_nil
  | cons item items ih =>
    obtain ⟨hitem, hitems⟩ := List.forall_mem_cons.mp h
    cases items with
    | nil =>
      rw [List.intercalate_singleton]
      exact hitem
    | cons next items =>
      rw [List.intercalate_cons_cons]
      exact (hitem.append hseparator).append (ih hitems)

theorem inParentheses {opening : Mark} (hopening : opening.token = .symbol .leftParen)
    (h : ∀ item ∈ items, KeepBrackets item) :
    KeepBrackets (Mark.inParentheses opening items) := by
  apply enclosed
  · exact .intercalate (.cons (fun _ => rfl) keepBrackets_nil) h
  · simp [hopening, bracketsAfter]
  · exact fun _ => rfl

theorem inBraces {opening : Mark} (hopening : opening.token = .symbol .leftBrace)
    (h : KeepBrackets ms) : KeepBrackets (opening :: (ms ++ [plain (.symbol .rightBrace)])) := by
  apply enclosed h
  · simp [hopening, bracketsAfter]
  · exact fun _ => rfl

theorem stampFirst (p : Position) (h : KeepBrackets ms) : KeepBrackets (Mark.stampFirst p ms) := by
  cases ms <;> exact h

end KeepBrackets

end Mark

open Mark

/-- An expression closes the brackets that it opens. -/
theorem Expr.keepBrackets_marks (e : Expr) : KeepBrackets e.marks := by
  induction e with
  | literal v p =>
    refine .cons ?_ keepBrackets_nil
    intro due
    cases v with
    | bool b => cases b <;> rfl
    | _ => rfl
  | var name p => exact .cons (fun _ => rfl) keepBrackets_nil
  | unary op e p ih =>
    refine .cons ?_ ih
    intro due
    cases op <;> rfl
  | binary op left right p ihl ihr =>
    refine ihl.append (.cons ?_ ihr)
    intro due
    cases op <;> rfl
  | call callee arguments p ihc iha =>
    refine ihc.append (.inParentheses rfl ?_)
    rw [marksEach_eq_map]
    exact List.forall_mem_map.mpr iha
  | assign name e p ih => exact .cons (fun _ => rfl) (.cons (fun _ => rfl) ih)
  | group e p ih => exact .enclosed ih (fun _ => rfl) fun _ => rfl

theorem Stmt.keepBrackets_all {body : List Stmt} (h : ∀ s ∈ body, KeepBrackets (s.marks [])) :
    KeepBrackets (([] : List Mark).intercalate (marksEach [] body)) := by
  refine .intercalate keepBrackets_nil ?_
  induction body with
  | nil =>
    intro item hitem
    cases hitem
  | cons s body ih =>
    obtain ⟨hs, hbody⟩ := List.forall_mem_cons.mp h
    rw [marksEach]
    exact List.forall_mem_cons.mpr ⟨hs, ih hbody⟩

/-- A statement closes the brackets that it opens. -/
theorem Stmt.keepBrackets_marks (s : Stmt) : KeepBrackets (s.marks []) := by
  induction s with
  | expression e p => exact e.keepBrackets_marks.stampFirst p
  | declare name initial p =>
    cases initial with
    | none => exact .cons (fun _ => rfl) (.cons (fun _ => rfl) keepBrackets_nil)
    | some e =>
      exact .cons (fun _ => rfl) (.cons (fun _ => rfl) (.cons (fun _ => rfl) e.keepBrackets_marks))
  | block body p ih => exact .inBraces rfl (keepBrackets_all ih)
  | cond test yes no p ihy ihn =>
    refine .cons (fun _ => rfl) (test.keepBrackets_marks.append (ihy.append ?_))
    cases no with
    | none => exact keepBrackets_nil
    | some s => exact .cons (fun _ => rfl) (ihn s rfl)
  | loop test body p ih => exact .cons (fun _ => rfl) (test.keepBrackets_marks.append ih)
  | function name parameters body p ih =>
    refine .cons (fun _ => rfl) (.cons (fun _ => rfl) (.append ?_ ?_))
    · refine .inParentheses rfl ?_
      exact List.forall_mem_map.mpr fun x _ => .cons (fun _ => rfl) keepBrackets_nil
    · exact .inBraces rfl (keepBrackets_all ih)
  | return_ value p =>
    cases value with
    | none => exact .cons (fun _ => rfl) keepBrackets_nil
    | some e => exact .cons (fun _ => rfl) e.keepBrackets_marks
  | print e p => exact .cons (fun _ => rfl) e.keepBrackets_marks
  | break_ p => exact .cons (fun _ => rfl) keepBrackets_nil
  | continue_ p => exact .cons (fun _ => rfl) keepBrackets_nil

/-! ## Accepted programs -/

/-- Semicolons among the marks are no brackets. -/
theorem Grammar.Spells.openAfter_eq {ms : List Mark} {ts rest : List Lexeme}
    (h : Spells ms ts rest) (hms : KeepBrackets ms) (due : List Symbol) :
    openAfter due (ts.map (·.token)) = openAfter due (rest.map (·.token)) := by
  have hgeneral : openAfter due (ts.map (·.token))
      = (openAfter due (ms.map (·.token))).bind (openAfter · (rest.map (·.token))) := by
    clear hms
    induction h generalizing due with
    | done => rfl
    | @mark m ms l ts rest hm _ _ ih =>
      rw [List.map_cons, List.map_cons, openAfter_cons, openAfter_cons, hm.1]
      cases bracketsAfter due m.token with
      | none => rfl
      | some due' => exact ih due'
    | @semicolon ms l ts rest hl _ ih =>
      have htoken : l.token = .symbol .semicolon := of_decide_eq_true hl
      rw [List.map_cons, openAfter_cons, htoken]
      exact ih due
  rw [hgeneral, hms due, Option.bind_some]

/-- What is left behind marks is the end of the lexemes. -/
theorem Grammar.Spells.exists_append {ms : List Mark} {ts rest : List Lexeme}
    (h : Spells ms ts rest) : ∃ taken, ts = taken ++ rest := by
  induction h with
  | done => exact ⟨[], rfl⟩
  | mark _ _ _ ih | semicolon _ _ ih =>
    obtain ⟨taken, rfl⟩ := ih
    exact ⟨_ :: taken, rfl⟩

namespace Repl

variable {source : String} {lexemes : List Lexeme} {statements : List Stmt}

/-- The brackets of an accepted program are properly nested. -/
theorem properlyNested_of_parse (hlex : tokenize source = .ok lexemes)
    (hparse : parse lexemes = .ok statements) : ProperlyNested (lexemes.map (·.token)) := by
  obtain ⟨ls, rfl, hwalk⟩ := exists_walk_of_tokenize hlex
  obtain ⟨⟨rest, hspelled, hend⟩, -⟩ :=
    (programFrom_eq_ok.mp hparse).spelled (Rules.faithful_withRoom maxNesting).declaration
  have hmarks : KeepBrackets (Stmt.marksAll [] statements) :=
    Stmt.keepBrackets_all fun s _ => s.keepBrackets_marks
  have hsuffix : rest <:+ ls ++ [⟨.endOfInput, "", Position.start.advanceAll source.toList⟩] := by
    obtain ⟨taken, htaken⟩ := hspelled.exists_append
    exact ⟨taken, htaken.symm⟩
  rw [ProperlyNested, hspelled.openAfter_eq hmarks]
  -- The program goes up to the first end of the input, and there is only one, at the end.
  rcases List.suffix_concat_iff.mp hsuffix with rfl | ⟨before, rfl, hbefore⟩
  · rfl
  · cases before with
    | nil => rfl
    | cons l before =>
      have hmem : l ∈ ls := hbefore.mem List.mem_cons_self
      exact absurd (hend l rfl) (hwalk.token_ne_endOfInput l hmem)

/-- Where brackets are properly nested, none is closed that has not been opened. -/
theorem openBrackets_nonneg {front : List Lexeme} (h : ProperlyNested (lexemes.map (·.token)))
    (hfront : front <+: lexemes) : 0 ≤ openBrackets front := by
  obtain ⟨back, rfl⟩ := hfront
  rw [ProperlyNested, List.map_append, openAfter_append, Option.bind_eq_some_iff] at h
  obtain ⟨due, hdue, -⟩ := h
  have hlength := length_openAfter hdue
  simp only [List.length_nil] at hlength
  omega

/-- Lines that wait for more are unfinished. -/
theorem needsMore_of_step {pending lines : List String} {line : String}
    (h : step pending line = (lines, .wait)) (hlines : lines ≠ []) :
    needsMore ("\n".intercalate lines) = true := by
  unfold step at h
  split at h
  · cases h
  · dsimp only at h
    split at h
    · next hmore =>
      cases h
      exact hmore
    · split at h
      · cases h
        exact absurd rfl hlines
      · cases h

/-- **A complete submission is never withheld.** The brackets of a text that can be read are
properly nested: each is closed by one of its kind, the one opened last first. So no part of its
lexemes from the front closes more brackets than it opens, the whole opens as many as it closes, and
the text is not unfinished. Lines that a user is asked to go on with never are such a text. -/
theorem complete_never_withheld (hlex : tokenize source = .ok lexemes)
    (hparse : parse lexemes = .ok statements) :
    ProperlyNested (lexemes.map (·.token)) ∧
      (∀ front, front <+: lexemes → 0 ≤ openBrackets front) ∧ openBrackets lexemes = 0 ∧
      needsMore source = false ∧
      ∀ pending line lines, step pending line = (lines, .wait) → lines ≠ [] →
        "\n".intercalate lines ≠ source := by
  have hnested := properlyNested_of_parse hlex hparse
  have hcount : openBrackets lexemes = 0 := by
    have hlength := length_openAfter hnested
    simp only [List.length_nil] at hlength
    omega
  have hfinished : needsMore source = false := by
    rw [needsMore, hlex]
    simp [hcount]
  refine ⟨hnested, fun front hfront => openBrackets_nonneg hnested hfront, hcount, hfinished, ?_⟩
  intro pending line lines hstep hlines heq
  have hmore := needsMore_of_step hstep hlines
  rw [heq, hfinished] at hmore
  cases hmore

/-- A function with brackets of both kinds on three lines is complete with the last of them. -/
theorem function_never_withheld :
    ∃ lexemes statements, tokenize "fun f(a) \x7b\n  return (a)\n\x7d" = .ok lexemes ∧
      parse lexemes = .ok statements ∧ ProperlyNested (lexemes.map (·.token)) ∧
      needsMore "fun f(a) \x7b\n  return (a)\n\x7d" = false := by
  obtain ⟨lexemes, statements, hlex, hparse⟩ : ∃ ls statements,
      tokenize "fun f(a) \x7b\n  return (a)\n\x7d" = .ok ls ∧ parse ls = .ok statements :=
    exists_parse (by decide +kernel)
  obtain ⟨hnested, -, -, hfinished, -⟩ := complete_never_withheld hlex hparse
  exact ⟨lexemes, statements, hlex, hparse, hnested, hfinished⟩

end Repl

end Scripting
