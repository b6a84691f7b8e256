/-
Reading the lexemes of a text again.

The texts of the lexemes, with single spaces between them, make up a text that has lost its comments
and its layout. It is read as the same lexemes. This needs two things. Each lexeme must be the
longest match when it stands alone; it is, since it was so with more text after it. And it must not
grow into the space behind it and beyond: numbers, words and symbols have no space in them, a closed
string ends at its quote, and a slash with a space behind it begins no comment. So it makes no
difference what was next to a lexeme before, not even where the marks of a comment that never ends
have been read as a slash and a star.
-/
import Scripting.Proofs.Seams

set_option autoImplicit false

namespace Scripting

/-! ## A space after a token -/

/-- After a slash with a space behind it, or after any other token, no line comment at the same
place is longer. -/
theorem length_le_of_lineComment {p : Pattern} {c : Char} {taken rest other : List Char}
    (h : c :: taken ∈ p.language) (hskip : p.isSkipped = false) (hrest : ∀ ds, rest ≠ '/' :: ds)
    (hmem : c :: other ∈ Pattern.lineComment.language) (hfront : other <+: taken ++ rest) :
    other.length ≤ taken.length := by
  obtain ⟨inner, -, heq⟩ := Pattern.mem_lineComment.mp hmem
  cases heq
  rcases slash_cases h with ⟨rfl, rfl⟩ | ⟨rfl, -⟩ | ⟨rfl, -⟩
  · obtain ⟨after, hafter⟩ := hfront
    exact absurd hafter.symm (hrest _)
  · cases hskip
  · cases hskip

/-- **A space ends a token.** What is the longest match in front of anything is the longest match in
front of a space, unless it is left out or a string that is not closed. -/
theorem Longest.before_space {p : Pattern} {taken rest : List Char} (more : List Char)
    (h : Longest (taken ++ rest) p taken) (hskip : p.isSkipped = false)
    (hstring : p ≠ .unterminatedString) : Longest (taken ++ ' ' :: more) p taken where
  mem := h.mem
  front := List.prefix_append _ _
  ne_nil := h.ne_nil
  longest q other hmem hfront := by
    obtain ⟨c, taken, rfl⟩ := List.exists_cons_of_ne_nil h.ne_nil
    by_cases hplain : q.runsOn = false ∧ q ≠ .lineComment
    · -- A match without a space in it ends before the space, so it was there before.
      have hnone : ' ' ∉ other := fun hin =>
        absurd (Pattern.isSpace_eq_false_of_mem hmem hplain.1 hplain.2 _ hin) (by decide)
      apply h.longest q other hmem
      exact (prefix_of_not_mem hfront hnone).trans (List.prefix_append _ _)
    · obtain ⟨other, rfl, hother⟩ := exists_of_front hmem hfront
      apply Nat.succ_le_succ
      cases q with
      | string | unterminatedString =>
        exact length_le_of_string h.mem hstring (by simp) hmem hother
      | lineComment => exact length_le_of_lineComment h.mem hskip (by simp) hmem hother
      | blockComment => exact length_le_of_blockComment h.mem (by simp) hmem hother
      | blank =>
        -- What begins with white space is white space.
        obtain ⟨d, ds, hd, -, heq⟩ := Pattern.mem_blank.mp hmem
        cases heq
        have hp := Initial.admits_of_mem h.mem
        rw [Initial.of_space hd] at hp
        subst hp
        cases hskip
      | _ => exact absurd ⟨rfl, by simp⟩ hplain
  reserved := h.reserved

/-! ## Lexemes that stand alone -/

/-- The text of the lexeme is the longest match when it stands alone, and its token is what is read
there. -/
def Lexeme.StandsAlone (l : Lexeme) : Prop :=
  ∃ p : Pattern, Longest l.text.toList p l.text.toList ∧ p.isSkipped = false ∧
    p ≠ .unterminatedString ∧ l.token = p.token l.text.toList

/-- Every lexeme that is read stands alone. -/
theorem Walk.standsAlone {p q : Position} {text left : List Char} {ls : List Lexeme}
    (h : Walk p text ls q left) : ∀ l ∈ ls, l.StandsAlone := by
  induction h with
  | stop => exact fun l hl => absurd hl List.not_mem_nil
  | skip _ _ _ ih => exact ih
  | @emit _ _ r taken _ _ _ hlongest hskip hstring _ ih =>
    refine List.forall_mem_cons.mpr ⟨⟨r, ?_, hskip, hstring, ?_⟩, ih⟩
    · have halone := hlongest.truncate List.nil_prefix
      rw [List.append_nil] at halone
      rwa [String.toList_ofList]
    · rw [String.toList_ofList]

/-- What a lexeme is read as, wherever it stands. -/
def Lexeme.content (l : Lexeme) : Token × String := (l.token, l.text)

/-- The texts of lexemes with single spaces between them. -/
def spaced (ls : List Lexeme) : String := " ".intercalate (ls.map (·.text))

theorem toList_spaced_cons (l l' : Lexeme) (ls : List Lexeme) :
    (spaced (l :: l' :: ls)).toList = l.text.toList ++ ' ' :: (spaced (l' :: ls)).toList := by
  unfold spaced
  rw [List.map_cons, List.map_cons, String.intercalate_cons_cons, String.toList_append,
    String.toList_append, List.append_assoc]
  rfl

/-- **Lexemes that stand alone are read again**, after those already `read`, with single spaces
between them. -/
theorem readFrom_spaced {ls : List Lexeme} (h : ∀ l ∈ ls, l.StandsAlone) (p : Position)
    (read : List Lexeme) :
    ∃ again last, readFrom p read (spaced ls).toList
        = .ok (read.reverse ++ again ++ [⟨.endOfInput, "", last⟩]) ∧
      again.map Lexeme.content = ls.map Lexeme.content := by
  induction ls generalizing p read with
  | nil =>
    refine ⟨[], p, ?_, rfl⟩
    rw [List.append_nil, ← List.reverse_cons]
    exact readFrom.eq_1 p read
  | cons l ls ih =>
    obtain ⟨⟨r, hlongest, hskip, hstring, htoken⟩, hrest⟩ := List.forall_mem_cons.mp h
    let next : Position := p.advanceAll l.text.toList
    let first : Lexeme := ⟨l.token, l.text, p⟩
    -- Whatever comes behind it, if it is still the longest match it is taken.
    have hstep : ∀ rest, Longest (l.text.toList ++ rest) r l.text.toList →
        readFrom p read (l.text.toList ++ rest) = readFrom next (first :: read) rest := by
      intro rest hstill
      rw [readFrom_of_longest hstill hstring, hskip, ← htoken, String.ofList_toList]
      rfl
    have halone : Longest (l.text.toList ++ []) r l.text.toList := by rwa [List.append_nil]
    cases ls with
    | nil =>
      have hend : readFrom next (first :: read) []
          = .ok ((⟨.endOfInput, "", next⟩ :: first :: read).reverse) := readFrom.eq_1 _ _
      have hlast := hstep [] halone
      rw [List.append_nil, hend, List.reverse_cons, List.reverse_cons] at hlast
      refine ⟨[first], next, ?_, rfl⟩
      rw [spaced, List.map_singleton, String.intercalate_singleton]
      exact hlast
    | cons l' ls =>
      obtain ⟨again, last, hagain, hcontent⟩ := ih hrest (next.advanceAll [' ']) (first :: read)
      refine ⟨first :: again, last, ?_, ?_⟩
      · have hspace := readFrom_spaces next (first :: read)
          (List.forall_mem_singleton.mpr (by decide) : ∀ c ∈ [' '], isSpace c = true)
          (spaced (l' :: ls)).toList
        rw [List.singleton_append] at hspace
        rw [toList_spaced_cons, hstep _ (halone.before_space _ hskip hstring), hspace, hagain,
          List.reverse_cons, List.append_assoc, List.append_assoc, List.append_assoc]
        rfl
      · rw [List.map_cons, hcontent]
        rfl

/-- **Reading again changes nothing.** The lexemes of a text, without the end, are written with
single spaces between their texts. This is read without fault, as the same tokens with the same
texts in the same order; so writing them once more gives the same text. -/
theorem tokenize_spaced {source : String} {lexemes : List Lexeme}
    (h : tokenize source = .ok lexemes) :
    ∃ again, tokenize (spaced lexemes.dropLast) = .ok again ∧
      again.map Lexeme.content = lexemes.map Lexeme.content ∧
      spaced again.dropLast = spaced lexemes.dropLast := by
  obtain ⟨ls, rfl, hwalk⟩ := exists_walk_of_tokenize h
  obtain ⟨again, last, hagain, hcontent⟩ := readFrom_spaced hwalk.standsAlone .start []
  rw [List.dropLast_concat]
  have hread : tokenize (spaced ls) = .ok (again ++ [⟨.endOfInput, "", last⟩]) := by
    rw [tokenize_eq_readFrom]
    exact hagain
  refine ⟨again ++ [⟨.endOfInput, "", last⟩], hread, ?_, ?_⟩
  · rw [List.map_append, List.map_append]
    exact congrArg (· ++ [(Token.endOfInput, "")]) hcontent
  · rw [List.dropLast_concat, spaced, spaced]
    have htexts := congrArg (List.map Prod.snd) hcontent
    rw [List.map_map, List.map_map] at htexts
    exact congrArg (" ".intercalate) htexts

/-- The lexemes of a text that leaves a comment open, behind a string that holds the mark of one. -/
def unclosed : List Lexeme :=
  [⟨.string "//\n", "\"//\n\"", ⟨1, 1⟩⟩, ⟨.number 1, "1", ⟨2, 2⟩⟩, ⟨.symbol .slash, "/", ⟨2, 3⟩⟩,
    ⟨.symbol .star, "*", ⟨2, 4⟩⟩, ⟨.keyword .or_, "or", ⟨2, 6⟩⟩, ⟨.endOfInput, "", ⟨2, 8⟩⟩]

/-- The slash and the star are read again with a space between them. -/
theorem tokenize_spaced_unclosed :
    tokenize "\"//\n\"1/* or" = .ok unclosed ∧
      spaced unclosed.dropLast = "\"//\n\" 1 / * or" ∧
      ∃ again, tokenize "\"//\n\" 1 / * or" = .ok again ∧
        again.map Lexeme.content = unclosed.map Lexeme.content ∧
        spaced again.dropLast = "\"//\n\" 1 / * or" := by
  have htokens : tokenize "\"//\n\"1/* or" = .ok unclosed := by decide +kernel
  have hspaced : spaced unclosed.dropLast = "\"//\n\" 1 / * or" := by decide +kernel
  obtain ⟨again, hagain, hsame, hstable⟩ := tokenize_spaced htokens
  rw [hspaced] at hagain hstable
  exact ⟨htokens, hspaced, again, hagain, hsame, hstable⟩

end Scripting
