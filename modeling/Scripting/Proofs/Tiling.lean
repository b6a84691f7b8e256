/-
Lexemes and the text around them.

A text that can be read is tiled by its lexemes: it is their texts one after the other, with a gap
of white space and comments in front of each, the end of the input being the last of them. And every
lexeme stands where it says it does. Its line is counted by the newlines in front of it, whether
they are in gaps or in strings, and its column by the characters after the last of them. As every
lexeme but the end has some text, each of them stands behind the one before it.

The scanner looks each position up in the table of line starts, by the number of bytes in front of
the lexeme. That comes to the same as counting on the way, and a walk passes nothing without
counting it.
-/
import Scripting.Proofs.Seams

set_option autoImplicit false

namespace Scripting

open scoped Computability

/-! ## Pieces -/

/-- What may stand between lexemes: any number of runs of white space and comments. -/
def Pattern.skipped : Language Char :=
  (blank.language + lineComment.language + blockComment.language)∗

/-- A lexeme with the gap in front of it. -/
structure Piece where
  gap : List Char
  lexeme : Lexeme

namespace Piece

/-- The text that a piece takes up. -/
def text (piece : Piece) : List Char := piece.gap ++ piece.lexeme.text.toList

/-- The text that pieces take up together. -/
def textAll (pieces : List Piece) : List Char := pieces.flatMap text

/-- Pieces that are laid from a place on, each lexeme standing right behind its gap. -/
def LaidFrom : Position → List Piece → Prop
  | _, [] => True
  | p, piece :: pieces =>
    piece.lexeme.position = p.advanceAll piece.gap ∧ LaidFrom (p.advanceAll piece.text) pieces

/-- A lexeme stands behind all the text in front of it. -/
theorem LaidFrom.position_eq {p : Position} {before after : List Piece} {piece : Piece}
    (h : LaidFrom p (before ++ piece :: after)) :
    piece.lexeme.position = p.advanceAll (textAll before ++ piece.gap) := by
  induction before generalizing p with
  | nil => exact h.1
  | cons first before ih =>
    have hrest := ih h.2
    rw [hrest, textAll, textAll, List.flatMap_cons, List.append_assoc,
      Position.advanceAll_append p first.text]

theorem LaidFrom.concat {p : Position} {pieces : List Piece} {piece : Piece}
    (h : LaidFrom p pieces)
    (hpiece : piece.lexeme.position = p.advanceAll (textAll pieces ++ piece.gap)) :
    LaidFrom p (pieces ++ [piece]) := by
  induction pieces generalizing p with
  | nil => exact ⟨hpiece, trivial⟩
  | cons first pieces ih =>
    refine ⟨h.1, ih h.2 ?_⟩
    rw [hpiece, textAll, textAll, List.flatMap_cons, List.append_assoc,
      Position.advanceAll_append p first.text]

end Piece

open Piece

/-! ## Walks -/

theorem Pattern.mem_skipped_append {p : Pattern} {gap taken : List Char}
    (hgap : gap ∈ Pattern.skipped) (hp : p.isSkipped = true) (htaken : taken ∈ p.language) :
    gap ++ taken ∈ Pattern.skipped := by
  have hone : taken ∈ Pattern.skipped := by
    refine Language.mem_kstar.mpr ⟨[taken], by simp, ?_⟩
    intro piece hpiece
    rw [List.mem_singleton] at hpiece
    rw [hpiece, Language.mem_add, Language.mem_add]
    cases p with
    | blank => exact .inl (.inl htaken)
    | lineComment => exact .inl (.inr htaken)
    | blockComment => exact .inr htaken
    | _ => cases hp
  unfold skipped at hgap hone ⊢
  rw [← kstar_mul_kstar]
  exact Language.append_mem_mul hgap hone

/-- **What a walk passes.** If it begins behind a gap, it lays pieces from the place where that gap
begins, and comes to a stop behind another gap. -/
theorem Walk.exists_pieces {p q : Position} {text left : List Char} {ls : List Lexeme}
    (h : Walk p text ls q left) {start : Position} {gap : List Char} (hgap : gap ∈ Pattern.skipped)
    (hp : p = start.advanceAll gap) :
    ∃ pieces last, pieces.map (·.lexeme) = ls ∧ gap ++ text = textAll pieces ++ (last ++ left) ∧
      (∀ piece ∈ pieces, piece.gap ∈ Pattern.skipped) ∧ last ∈ Pattern.skipped ∧
      LaidFrom start pieces := by
  -- The gap grows with each match that is left out, and a new one is begun behind each lexeme.
  induction h generalizing start gap with
  | stop p text => exact ⟨[], gap, rfl, rfl, by simp, hgap, trivial⟩
  | @skip p q r taken rest left ls hlongest hskip _ ih =>
    have hnext := ih (Pattern.mem_skipped_append hgap hskip hlongest.mem)
      (by rw [hp, Position.advanceAll_append])
    obtain ⟨pieces, last, hls, htext, hgaps, hlast, hlaid⟩ := hnext
    exact ⟨pieces, last, hls, by rw [← htext, List.append_assoc], hgaps, hlast, hlaid⟩
  | @emit p q r taken rest left ls hlongest _ _ _ ih =>
    have hempty : [] ∈ Pattern.skipped := Language.nil_mem_kstar _
    obtain ⟨pieces, last, hls, htext, hgaps, hlast, hlaid⟩ := ih hempty rfl
    let piece : Piece := ⟨gap, ⟨r.token taken, String.ofList taken, p⟩⟩
    have hpiece : piece.text = gap ++ taken := by simp [piece, Piece.text]
    refine ⟨piece :: pieces, last, by rw [List.map_cons, hls], ?_,
      List.forall_mem_cons.mpr ⟨hgap, hgaps⟩, hlast, hp, ?_⟩
    · rw [textAll, List.flatMap_cons, hpiece, List.append_assoc, List.append_assoc,
        List.append_cancel_left_eq, List.append_cancel_left_eq]
      exact htext
    · rw [hpiece, Position.advanceAll_append, ← hp]
      exact hlaid

/-- The lexemes that a walk reads stand one behind the other, up to where it stops. -/
theorem Walk.ascending {p q : Position} {text left : List Char} {ls : List Lexeme}
    (h : Walk p text ls q left) :
    p ≤ q ∧ (∀ l ∈ ls, p ≤ l.position ∧ l.position < q) ∧
      ls.Pairwise fun l l' => l.position < l'.position := by
  induction h with
  | stop p text => exact ⟨le_rfl, by simp, .nil⟩
  | @skip p q r taken rest left ls hlongest _ _ ih =>
    obtain ⟨hle, hbounds, hsorted⟩ := ih
    have hfirst := p.le_advanceAll taken
    refine ⟨hfirst.trans hle, ?_, hsorted⟩
    intro l hl
    exact ⟨hfirst.trans (hbounds l hl).1, (hbounds l hl).2⟩
  | @emit p q r taken rest left ls hlongest _ _ _ ih =>
    obtain ⟨hle, hbounds, hsorted⟩ := ih
    have hfirst := p.lt_advanceAll hlongest.ne_nil
    refine ⟨hfirst.le.trans hle, List.forall_mem_cons.mpr ⟨⟨le_rfl, hfirst.trans_le hle⟩, ?_⟩,
      List.pairwise_cons.mpr ⟨?_, hsorted⟩⟩
    · intro l hl
      exact ⟨hfirst.le.trans (hbounds l hl).1, (hbounds l hl).2⟩
    · intro l hl
      exact hfirst.trans_le (hbounds l hl).1

/-- **Lexemes tile the text.** A text that can be read is made up of pieces, one for each lexeme in
order: a gap of white space and comments, and the text of the lexeme. The last lexeme is the end of
the input, it has no text and stands at the end of the text, and no other lexeme is an end. Each
stands where counting the lines and columns in front of it leads, and so does the table of line
starts, asked about the number of bytes in front of it. And each stands behind the one before it. -/
theorem tokenize_tiles {source : String} {lexemes : List Lexeme}
    (h : tokenize source = .ok lexemes) :
    (∃ pieces : List Piece, pieces.map (·.lexeme) = lexemes ∧ source.toList = textAll pieces ∧
      (∀ piece ∈ pieces, piece.gap ∈ Pattern.skipped) ∧
      ∀ before piece after, pieces = before ++ piece :: after →
        piece.lexeme.position = Position.behind (textAll before ++ piece.gap) ∧
        piece.lexeme.position
          = (LineIndex.ofText source.toList).position (byteLength (textAll before ++ piece.gap))) ∧
    (∃ others last, lexemes = others ++ [last] ∧ last.token = .endOfInput ∧ last.text = "" ∧
      last.position = Position.behind source.toList ∧
      last.position = (LineIndex.ofText source.toList).endPosition ∧
      ∀ l ∈ others, l.token ≠ .endOfInput) ∧
    lexemes.Pairwise fun l l' => l.position < l'.position := by
  obtain ⟨ls, rfl, hwalk⟩ := exists_walk_of_tokenize h
  have hempty : [] ∈ Pattern.skipped := Language.nil_mem_kstar _
  have hstart : Position.start = Position.start.advanceAll [] := rfl
  obtain ⟨pieces, last, hls, htext, hgaps, hlast, hlaid⟩ := hwalk.exists_pieces hempty hstart
  rw [List.nil_append, List.append_nil] at htext
  let final : Piece := ⟨last, ⟨.endOfInput, "", Position.start.advanceAll source.toList⟩⟩
  have hfinal : final.text = last := List.append_nil last
  have hend : final.lexeme.position = Position.behind source.toList :=
    Position.advanceAll_start source.toList
  have hsource : source.toList = textAll (pieces ++ [final]) := by
    rw [htext, textAll, textAll, List.flatMap_append, List.flatMap_singleton, hfinal]
  refine ⟨⟨pieces ++ [final], ?_, hsource, ?_, ?_⟩, ⟨ls, final.lexeme, rfl, rfl, rfl, hend, ?_, ?_⟩,
    ?_⟩
  · rw [List.map_append, hls]
    rfl
  · exact List.forall_mem_append.mpr ⟨hgaps, List.forall_mem_singleton.mpr hlast⟩
  · intro before piece after hsplit
    have hall : LaidFrom .start (pieces ++ [final]) := hlaid.concat (by rw [← htext])
    rw [hsplit] at hall hsource
    rw [hall.position_eq, Position.advanceAll_start]
    refine ⟨rfl, ?_⟩
    have hsplit' : source.toList
        = (textAll before ++ piece.gap) ++ (piece.lexeme.text.toList ++ textAll after) := by
      rw [hsource]
      simp [textAll, Piece.text]
    rw [hsplit', LineIndex.position_byteLength]
  · rw [hend, LineIndex.endPosition_ofText]
  · exact hwalk.token_ne_endOfInput
  · obtain ⟨-, hbounds, hsorted⟩ := hwalk.ascending
    refine List.pairwise_append.mpr ⟨hsorted, List.pairwise_singleton _ _, ?_⟩
    intro l hl l' hl'
    rw [List.mem_singleton] at hl'
    rw [hl']
    exact (hbounds l hl).2

/-- The lexemes of a text with a string over two lines and a comment. -/
def tiles : List Lexeme :=
  [⟨.string "a\nß", "\"a\nß\"", ⟨1, 1⟩⟩, ⟨.identifier "x", "x", ⟨3, 2⟩⟩, ⟨.endOfInput, "", ⟨3, 4⟩⟩]

theorem tiles_string_and_comment :
    tokenize "\"a\nß\" // b\n x " = .ok tiles ∧
      (∃ pieces : List Piece, pieces.map (·.lexeme) = tiles ∧
        textAll pieces = "\"a\nß\" // b\n x ".toList ∧
        ∀ piece ∈ pieces, piece.gap ∈ Pattern.skipped) ∧
      tiles.Pairwise fun l l' => l.position < l'.position := by
  have htokens : tokenize "\"a\nß\" // b\n x " = .ok tiles := by decide +kernel
  obtain ⟨⟨pieces, hlexemes, htext, hgaps, -⟩, -, hsorted⟩ := tokenize_tiles htokens
  exact ⟨htokens, ⟨pieces, hlexemes, htext.symm, hgaps⟩, hsorted⟩

end Scripting
