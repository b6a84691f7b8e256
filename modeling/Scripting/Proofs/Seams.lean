/-
Two texts as one.

If a text is accepted and a semicolon on a line of its own and another text follow, the lexemes are
those of the first text, the semicolon, and those of the second text so many lines further down; and
the statements are those of the one and then those of the other. The lines between the texts are
needed: a newline ends every token but a string, a block comment and white space. A string that the
first text leaves open is a fault in it. A block comment that it leaves open is not, as its marks
are then read as a slash and a star; but no accepted text has a star right after a slash. White
space is left out anyway.
-/
import Scripting.Proofs.MaximalMunch
import Scripting.Proofs.ReadBack
import Scripting.Proofs.Relocation

set_option autoImplicit false

namespace Scripting

open Grammar

/-! ## Positions further down -/

/-- The position so many lines further down. -/
def Position.down (lines : Nat) (p : Position) : Position := ⟨p.line + lines, p.column⟩

namespace Position

theorem advance_down (k : Nat) (p : Position) (c : Char) :
    (p.down k).advance c = (p.advance c).down k := by
  unfold advance
  split
  · simp only [down, Nat.add_right_comm]
  · rfl

theorem advanceAll_down (k : Nat) (p : Position) (cs : List Char) :
    (p.down k).advanceAll cs = (p.advanceAll cs).down k := by
  induction cs generalizing p with
  | nil => rfl
  | cons c cs ih => rw [advanceAll_cons, advanceAll_cons, advance_down, ih]

/-- The line grows by one with each newline. -/
theorem line_advanceAll (p : Position) (cs : List Char) :
    (p.advanceAll cs).line = p.line + cs.count '\n' := by
  induction cs generalizing p with
  | nil => rfl
  | cons c cs ih =>
    rw [advanceAll_cons, ih, List.count_cons]
    by_cases hc : c = '\n'
    · simp only [advance, hc, ↓reduceIte, beq_self_eq_true]
      omega
    · simp only [advance, hc, ↓reduceIte, beq_iff_eq, Nat.add_zero]

theorem down_line_eq_iff (k : Nat) (p q : Position) :
    (p.down k).line = (q.down k).line ↔ p.line = q.line := Nat.add_right_cancel_iff

end Position

/-- A walk that begins further down is the same walk further down. -/
theorem Walk.down {p p' : Position} {text left : List Char} {lexemes : List Lexeme} (k : Nat)
    (h : Walk p text lexemes p' left) :
    Walk (p.down k) text (lexemes.map (·.relocate (·.down k))) (p'.down k) left := by
  induction h with
  | stop p text => exact .stop _ _
  | skip hlongest hskip _ ih =>
    rw [← Position.advanceAll_down] at ih
    exact .skip hlongest hskip ih
  | emit hlongest hskip hp _ ih =>
    rw [← Position.advanceAll_down] at ih
    exact .emit hlongest hskip hp ih

/-- No lexeme that is read on the way is the end. -/
theorem Walk.token_ne_endOfInput {p p' : Position} {text left : List Char} {lexemes : List Lexeme}
    (h : Walk p text lexemes p' left) : ∀ l ∈ lexemes, l.token ≠ .endOfInput := by
  induction h with
  | stop => exact fun l hl => absurd hl List.not_mem_nil
  | skip _ _ _ ih => exact ih
  | @emit _ _ p _ _ _ _ _ _ _ _ ih =>
    refine List.forall_mem_cons.mpr ⟨?_, ih⟩
    cases p <;> simp [Pattern.token]

/-! ## A newline after a token -/

namespace Pattern

variable {w : List Char}

/-- The patterns that go on past a newline. -/
def runsOn : Pattern → Bool
  | string | unterminatedString | blockComment | blank => true
  | _ => false

/-- Numbers, words and symbols have no white space in them. -/
theorem isSpace_eq_false_of_mem {p : Pattern} (h : w ∈ p.language) (hp : p.runsOn = false)
    (hline : p ≠ .lineComment) : ∀ d ∈ w, isSpace d = false := by
  have hdigit : ∀ d, Decimal.isDigit d = true → isSpace d = false :=
    fun d hd => isSpace_eq_false hd rfl
  cases p with
  | number =>
    obtain ⟨c, cs, hc, hcs, rfl | ⟨d, ds, hd, hds, rfl⟩⟩ := mem_number.mp h
    · exact List.forall_mem_cons.mpr ⟨hdigit c hc, fun d hd => hdigit d (hcs d hd)⟩
    · refine List.forall_mem_cons.mpr ⟨hdigit c hc, List.forall_mem_append.mpr ⟨?_, ?_⟩⟩
      · exact fun d hd => hdigit d (hcs d hd)
      · exact List.forall_mem_cons.mpr ⟨rfl, List.forall_mem_cons.mpr
          ⟨hdigit d hd, fun d hd => hdigit d (hds d hd)⟩⟩
  | identifier =>
    obtain ⟨c, cs, hc, hcs, rfl⟩ := mem_identifier.mp h
    exact List.forall_mem_cons.mpr
      ⟨isSpace_eq_false hc rfl, fun d hd => isSpace_eq_false (hcs d hd) rfl⟩
  | keyword k =>
    rw [mem_keyword.mp h]
    have hall : k.text.toList.all (!isSpace ·) = true := by cases k <;> rfl
    exact fun d hd => by simpa using List.all_eq_true.mp hall d hd
  | symbol s =>
    rw [mem_symbol.mp h]
    have hall : s.text.toList.all (!isSpace ·) = true := by cases s <;> rfl
    exact fun d hd => by simpa using List.all_eq_true.mp hall d hd
  | lineComment => exact absurd rfl hline
  | _ => cases hp

theorem newline_not_mem {p : Pattern} (h : w ∈ p.language) (hp : p.runsOn = false) : '\n' ∉ w := by
  intro hin
  by_cases hline : p = .lineComment
  · subst hline
    obtain ⟨inner, hinner, rfl⟩ := mem_lineComment.mp h
    exact hinner (by simpa using hin)
  · exact absurd (isSpace_eq_false_of_mem h hp hline _ hin) (by decide)

end Pattern

/-- What stands at the front of a text with some character after it, and does not have that
character in it, stands at the front of the text. -/
theorem prefix_of_not_mem {other text more : List Char} {b : Char}
    (h : other <+: text ++ b :: more) (hother : b ∉ other) : other <+: text := by
  rcases Nat.lt_or_ge text.length other.length with hlt | hge
  · have hfront : text ++ [b] <+: other := by
      apply List.prefix_of_prefix_length_le _ h
      · simpa using Nat.succ_le_of_lt hlt
      · exact ⟨more, by simp⟩
    exact absurd (hfront.subset (by simp)) hother
  · exact List.prefix_of_prefix_length_le h (List.prefix_append _ _) hge

section

variable {p q : Pattern} {c : Char} {taken rest other : List Char}

/-- After a closed string, no string at the same place is longer. -/
theorem length_le_of_string (h : c :: taken ∈ p.language) (hp : p ≠ .unterminatedString)
    (hq : q = .string ∨ q = .unterminatedString) (hmem : c :: other ∈ q.language)
    (hfront : other <+: taken ++ rest) : other.length ≤ taken.length := by
  obtain ⟨inner, hinner, rfl, hother⟩ :
      ∃ inner, '"' ∉ inner ∧ c = '"' ∧ (other = inner ++ ['"'] ∨ other = inner) := by
    rcases hq with rfl | rfl
    · obtain ⟨inner, hinner, heq⟩ := Pattern.mem_string.mp hmem
      cases heq
      exact ⟨inner, hinner, rfl, .inl rfl⟩
    · obtain ⟨inner, hinner, heq⟩ := Pattern.mem_unterminatedString.mp hmem
      cases heq
      exact ⟨_, hinner, rfl, .inr rfl⟩
  -- Whatever begins with a quote and is not left open is a closed string.
  have hclosed : p = .string := (Initial.admits_of_mem h).resolve_right hp
  subst hclosed
  obtain ⟨closed, hclosed, heq⟩ := Pattern.mem_string.mp h
  cases heq
  have hin : inner <+: closed ++ '"' :: rest := by
    have hinside : inner <+: other := by
      rcases hother with heq | heq
      · rw [heq]
        exact List.prefix_append _ _
      · rw [heq]
    simpa using hinside.trans hfront
  have hle := length_le_of_not_mem hclosed hinner hin
  rcases hother with heq | heq <;> rw [heq]
  · simpa using hle
  · simpa using Nat.le_succ_of_le hle

/-- After a token that is not a slash before a star, no comment at the same place is longer. -/
theorem length_le_of_blockComment (h : c :: taken ∈ p.language)
    (hslash : p = .symbol .slash → ∀ ds, rest ≠ '*' :: ds)
    (hmem : c :: other ∈ Pattern.blockComment.language) (hfront : other <+: taken ++ rest) :
    other.length ≤ taken.length := by
  obtain ⟨inner, hinner, heq⟩ := Pattern.mem_blockComment.mp hmem
  cases heq
  rcases slash_cases h with ⟨rfl, rfl⟩ | ⟨-, line, -, rfl⟩ | ⟨-, inner', hinner', rfl⟩
  · obtain ⟨after, hafter⟩ := hfront
    exact absurd hafter.symm (hslash rfl _)
  · exact absurd (List.cons_prefix_cons.mp hfront).1 (by decide)
  · -- Both comments are closed at the same place.
    have hboth : inner ++ ['*', '/'] <+: inner' ++ '*' :: '/' :: rest := by simpa using hfront
    obtain ⟨after, hclosed, htext⟩ := afterBlockComment_of_front hinner hboth
    rw [afterBlockComment_commented rest hinner'] at hclosed
    cases hclosed
    rw [List.append_cancel_right htext]

end

/-- **A newline ends a token.** What was the longest match at the end of a text, or further in
front, is still the longest if a newline and anything else follow. Not so white space, a string that
is not closed, and a slash that a star follows. -/
theorem Longest.extend {p : Pattern} {taken rest : List Char} (more : List Char)
    (h : Longest (taken ++ rest) p taken) (hblank : p ≠ .blank) (hstring : p ≠ .unterminatedString)
    (hslash : p = .symbol .slash → ∀ ds, rest ≠ '*' :: ds) :
    Longest (taken ++ (rest ++ '\n' :: more)) p taken where
  mem := h.mem
  front := List.prefix_append _ _
  ne_nil := h.ne_nil
  longest q other hmem hfront := by
    obtain ⟨c, taken, rfl⟩ := List.exists_cons_of_ne_nil h.ne_nil
    -- Another match that has no newline in it was there before. The others that can begin like this
    -- one end where it does.
    cases hq : q.runsOn with
    | false =>
      rw [← List.append_assoc] at hfront
      apply h.longest q other hmem
      exact prefix_of_not_mem hfront (Pattern.newline_not_mem hmem hq)
    | true =>
      obtain ⟨other, rfl, hother⟩ := exists_of_front hmem hfront
      apply Nat.succ_le_succ
      cases q with
      | string | unterminatedString =>
        exact length_le_of_string h.mem hstring (by simp) hmem hother
      | blockComment =>
        refine length_le_of_blockComment h.mem (fun hp ds hds => ?_) hmem hother
        cases rest with
        | nil => cases hds
        | cons d rest =>
          cases hds
          exact hslash hp rest rfl
      | blank =>
        obtain ⟨d, ds, hd, -, heq⟩ := Pattern.mem_blank.mp hmem
        cases heq
        have hp := Initial.admits_of_mem h.mem
        rw [Initial.of_space hd] at hp
        exact absurd hp hblank
      | _ => cases hq
  reserved := h.reserved

/-! ## White space -/

section

variable (p : Position) (read : List Lexeme)

/-- White space in front is passed. -/
theorem readFrom_dropWhile (cs : List Char) :
    readFrom p read cs
      = readFrom (p.advanceAll (cs.takeWhile isSpace)) read (cs.dropWhile isSpace) := by
  cases cs with
  | nil => rfl
  | cons c cs =>
    by_cases hc : isSpace c = true
    · obtain ⟨q, hlongest, htoken⟩ := blank_isLongest cs hc
      have hq : q = .blank := by
        have hadmits := Initial.admits_of_mem hlongest.mem
        rwa [Initial.of_space hc] at hadmits
      subst hq
      have htext : c :: cs = (c :: cs.takeWhile isSpace) ++ cs.dropWhile isSpace := by simp
      have hsplit : Longest ((c :: cs.takeWhile isSpace) ++ cs.dropWhile isSpace) .blank
          (c :: cs.takeWhile isSpace) := by
        rw [← htext]
        exact hlongest
      rw [List.takeWhile_cons_of_pos hc, List.dropWhile_cons_of_pos hc]
      -- Only the text on the left is cut in two; on the right it is cut already.
      nth_rewrite 1 [htext]
      exact readFrom_of_longest hsplit (by simp)
    · rw [List.takeWhile_cons_of_neg hc, List.dropWhile_cons_of_neg hc]
      rfl

/-- Also a part of it, whatever comes after that. -/
theorem readFrom_spaces {spaces : List Char} (h : ∀ c ∈ spaces, isSpace c = true)
    (rest : List Char) :
    readFrom p read (spaces ++ rest) = readFrom (p.advanceAll spaces) read rest := by
  rw [readFrom_dropWhile, readFrom_dropWhile (p.advanceAll spaces),
    List.takeWhile_append_of_pos h, List.dropWhile_append_of_pos h, Position.advanceAll_append]

end

/-! ## No comment in disguise -/

@[simp] theorem Mark.token_plain (t : Token) : (Mark.plain t).token = t := rfl

@[simp] theorem Mark.token_kept (t : Token) (p : Position) : (Mark.kept t p).token = t := rfl

/-- Every slash is followed, and not by a star. -/
inductive Uncommented : List Mark → Prop
  | nil : Uncommented []
  | other {m : Mark} {ms : List Mark} : m.token ≠ .symbol .slash → Uncommented ms →
      Uncommented (m :: ms)
  | followed {m m' : Mark} {ms : List Mark} : m'.token ≠ .symbol .star → Uncommented (m' :: ms) →
      Uncommented (m :: m' :: ms)

namespace Uncommented

variable {ms ms' : List Mark}

theorem append (h : Uncommented ms) (h' : Uncommented ms') : Uncommented (ms ++ ms') := by
  induction h with
  | nil => exact h'
  | other hm _ ih => exact .other hm ih
  | followed hm _ ih => exact .followed hm ih

theorem intercalate {sep : List Mark} (hsep : Uncommented sep) {items : List (List Mark)}
    (h : ∀ ms ∈ items, Uncommented ms) : Uncommented (sep.intercalate items) := by
  induction items with
  | nil => exact .nil
  | cons ms items ih =>
    obtain ⟨hms, hitems⟩ := List.forall_mem_cons.mp h
    cases items with
    | nil => rwa [List.intercalate_singleton]
    | cons ms' items =>
      rw [List.intercalate_cons_cons]
      exact (hms.append hsep).append (ih hitems)

theorem inParentheses {opening : Mark} (hopening : opening.token ≠ .symbol .slash)
    {items : List (List Mark)} (h : ∀ ms ∈ items, Uncommented ms) :
    Uncommented (Mark.inParentheses opening items) := by
  have hcomma : Uncommented [.plain (.symbol .comma)] := .other (by simp) .nil
  have hclosing : Uncommented [.plain (.symbol .rightParen)] := .other (by simp) .nil
  exact .other hopening ((hcomma.intercalate h).append hclosing)

/-- Only what the first mark is matters, not which nodes keep its position. -/
theorem stampFirst (p : Position) (h : Uncommented ms) : Uncommented (Mark.stampFirst p ms) := by
  cases h with
  | nil => exact .nil
  | other hm hms => exact .other hm hms
  | followed hm hms => exact .followed hm hms

theorem tail {m : Mark} (h : Uncommented (m :: ms)) : Uncommented ms := by
  cases h with
  | other _ hms => exact hms
  | followed _ hms => exact hms

/-- Nor have lexemes that the marks fit a star right after a slash, with semicolons between them or
without. -/
theorem isChain (h : Uncommented ms) {ls : List Lexeme}
    (hfits : List.Forall₂ Mark.Fits ms (ls.filter (!isSemicolon ·))) :
    ls.IsChain fun l l' => l.token = .symbol .slash → l'.token ≠ .symbol .star := by
  induction ls generalizing ms with
  | nil => exact .nil
  | cons l ls ih =>
    by_cases hl : isSemicolon l = true
    · rw [List.filter_cons_of_neg (by simp [hl])] at hfits
      have hsemicolon : l.token = .symbol .semicolon := of_decide_eq_true hl
      cases ls with
      | nil => exact .singleton l
      | cons l' ls => exact .cons_cons (by simp [hsemicolon]) (ih h hfits)
    · rw [List.filter_cons_of_pos (by simp [hl])] at hfits
      cases hfits with
      | cons hm hrest =>
        have hls := ih h.tail hrest
        cases ls with
        | nil => exact .singleton l
        | cons l' ls =>
          refine .cons_cons (fun hslash hstar => ?_) hls
          -- A star is no semicolon, so the marks have it right after the slash.
          have hkept : isSemicolon l' = false := by simp [isSemicolon, hstar]
          rw [List.filter_cons_of_pos (by simp [hkept])] at hrest
          cases hrest with
          | cons hm' _ =>
            cases h with
            | other hne => exact hne (hm.1.symm.trans hslash)
            | followed hne => exact hne (hm'.1.symm.trans hstar)

end Uncommented

/-- A right operand begins like an expression. -/
theorem Expr.uncommented (e : Expr) : Uncommented e.marks := by
  induction e with
  | literal v p =>
    rw [marks]
    refine .other ?_ .nil
    cases v with
    | bool b => cases b <;> simp [Literal.token]
    | _ => simp [Literal.token]
  | var name p =>
    rw [marks]
    exact .other (by simp) .nil
  | unary op e p ih =>
    rw [marks]
    exact .other (by cases op <;> simp [UnaryOperator.token]) ih
  | binary op left right p ihl ihr =>
    rw [marks]
    obtain ⟨m, ms, hright⟩ := List.exists_cons_of_ne_nil right.marks_ne_nil
    obtain ⟨t, ht, hopens⟩ := right.opens
    rw [hright] at ht ihr ⊢
    refine ihl.append (.followed ?_ ihr)
    rintro hm
    rw [Mark.first?, List.head?_cons, Option.map_some, hm, Option.some.injEq] at ht
    rw [← ht] at hopens
    cases hopens
  | call callee arguments p ihc iha =>
    rw [marks, marksEach_eq_map]
    exact ihc.append (.inParentheses (by simp) (List.forall_mem_map.mpr iha))
  | assign name e p ih =>
    rw [marks]
    exact .other (by simp) (.other (by simp) ih)
  | group e p ih =>
    rw [marks]
    exact .other (by simp) (ih.append (.other (by simp) .nil))

theorem Stmt.uncommented_all {body : List Stmt} (h : ∀ s ∈ body, Uncommented (s.marks [])) :
    Uncommented (marksAll [] body) := by
  induction body with
  | nil => exact .nil
  | cons s body ih =>
    obtain ⟨hs, hbody⟩ := List.forall_mem_cons.mp h
    rw [marksAll_nil_cons]
    exact hs.append (ih hbody)

theorem Stmt.uncommented (s : Stmt) : Uncommented (s.marks []) := by
  have hbrace : Uncommented [.plain (.symbol .rightBrace)] := .other (by simp) .nil
  induction s with
  | expression e p =>
    rw [marks]
    exact e.uncommented.stampFirst p
  | declare name initial p =>
    cases initial with
    | none =>
      rw [marks]
      exact .other (by simp) (.other (by simp) .nil)
    | some e =>
      rw [marks]
      exact .other (by simp) (.other (by simp) (.other (by simp) e.uncommented))
  | block body p ih =>
    rw [marks]
    exact .other (by simp) ((uncommented_all ih).append hbrace)
  | cond test yes no p ihy ihn =>
    have hno : Uncommented (otherwise [] no) := by
      cases no with
      | none =>
        rw [otherwise]
        exact .nil
      | some s =>
        rw [otherwise]
        exact .other (by simp) (ihn s rfl)
    rw [marks]
    exact .other (by simp) (test.uncommented.append (ihy.append hno))
  | loop test body p ih =>
    rw [marks]
    exact .other (by simp) (test.uncommented.append ih)
  | function name parameters body p ih =>
    rw [marks]
    refine .other (by simp) (.other (by simp) (.append (.inParentheses (by simp) ?_)
      (.other (by simp) ((uncommented_all ih).append hbrace))))
    exact List.forall_mem_map.mpr fun x _ => .other (by simp) .nil
  | return_ value p =>
    cases value with
    | none =>
      rw [marks]
      exact .other (by simp) .nil
    | some e =>
      rw [marks]
      exact .other (by simp) e.uncommented
  | print e p =>
    rw [marks]
    exact .other (by simp) e.uncommented
  | break_ p | continue_ p =>
    rw [marks]
    exact .other (by simp) .nil

/-! ## Reading on -/

/-- What begins with a star is read as one. -/
theorem Walk.exists_star {p p' : Position} {ds : List Char} {lexemes : List Lexeme}
    (h : Walk p ('*' :: ds) lexemes p' []) :
    ∃ l ls, lexemes = l :: ls ∧ l.token = .symbol .star := by
  have hmark : ∀ {q taken rest}, taken ++ rest = '*' :: ds → Longest (taken ++ rest) q taken →
      q = .symbol .star := by
    intro q taken rest htext hlongest
    obtain ⟨c, taken, rfl⟩ := List.exists_cons_of_ne_nil hlongest.ne_nil
    cases htext
    obtain ⟨s, rfl, ⟨-, hs⟩ | ⟨-, hs⟩⟩ := mark_cases (by decide) hlongest.mem
    · cases hs
      rfl
    · cases hs
  generalize htext : '*' :: ds = text at h
  cases h with
  | stop => cases htext
  | skip hlongest hskip _ =>
    rw [hmark htext.symm hlongest] at hskip
    cases hskip
  | emit hlongest _ _ _ =>
    rw [hmark htext.symm hlongest]
    exact ⟨_, _, rfl, rfl⟩

/-- **Reading on.** Of a text that can be read, with a newline and more after it, the lexemes are
read as before, unless a star comes right after a slash. By induction on the walk. -/
theorem Walk.readFrom_append {p p' : Position} {text left : List Char} {lexemes : List Lexeme}
    (h : Walk p text lexemes p' left) (hleft : left = [])
    (hchain : lexemes.IsChain fun l l' => l.token = .symbol .slash → l'.token ≠ .symbol .star)
    (read : List Lexeme) (more : List Char) :
    readFrom p read (text ++ '\n' :: more)
      = readFrom p' (lexemes.reverse ++ read) ('\n' :: more) := by
  induction h generalizing read with
  | stop p text =>
    subst hleft
    rfl
  | @skip p p' q taken rest left lexemes hlongest hskip _ ih =>
    rw [List.append_assoc]
    by_cases hblank : q = .blank
    -- White space is no longer the longest match, since the newline adds to it; but all of it is
    -- passed one way or the other.
    · subst hblank
      obtain ⟨c, cs, hc, hcs, rfl⟩ := Pattern.mem_blank.mp hlongest.mem
      rw [readFrom_spaces p read (List.forall_mem_cons.mpr ⟨hc, hcs⟩)]
      exact ih hleft hchain read
    · have hlongest' : Longest (taken ++ (rest ++ '\n' :: more)) q taken := by
        apply hlongest.extend more hblank
        · rintro rfl
          cases hskip
        · rintro rfl
          cases hskip
      rw [readFrom_of_longest hlongest' (by rintro rfl; cases hskip), if_pos hskip]
      exact ih hleft hchain read
  | @emit p p' q taken rest left lexemes hlongest hskip hstring hrest ih =>
    have hlongest' : Longest (taken ++ (rest ++ '\n' :: more)) q taken := by
      refine hlongest.extend more ?_ hstring ?_
      · rintro rfl
        cases hskip
      · -- After a slash the walk goes on with a star, against what is known of the lexemes.
        rintro rfl ds rfl
        subst hleft
        obtain ⟨l, ls, rfl, hl⟩ := hrest.exists_star
        cases hchain with
        | cons_cons hne _ => exact hne rfl hl
    rw [List.append_assoc, readFrom_of_longest hlongest' hstring, hskip,
      ih hleft hchain.of_cons, List.reverse_cons, List.append_assoc]
    rfl

/-! ## The texts and their lexemes -/

/-- A text is accepted if that can be computed. -/
theorem exists_parse {source : String}
    (h : ((tokenize source).toOption.any fun ls => (parse ls).toOption.any fun _ => true) = true) :
    ∃ ls statements, tokenize source = .ok ls ∧ parse ls = .ok statements := by
  obtain ⟨ls, hlex, h⟩ := exists_ok_of_any h
  obtain ⟨statements, hparse, -⟩ := exists_ok_of_any h
  exact ⟨ls, statements, hlex, hparse⟩

/-- How many lines further down the second of two texts begins, with a semicolon on a line of its
own between them. -/
def linesBefore (first : String) : Nat := first.toList.count '\n' + 2

/-- The semicolon between the texts. -/
def seam (first : String) : Lexeme := ⟨.symbol .semicolon, ";", ⟨linesBefore first, 1⟩⟩

/-- The lexemes of a text are read on a walk to its end, and then the end is marked. -/
theorem exists_walk_of_tokenize {source : String} {lexemes : List Lexeme}
    (h : tokenize source = .ok lexemes) :
    ∃ ls, lexemes = ls ++ [⟨.endOfInput, "", Position.start.advanceAll source.toList⟩] ∧
      Walk .start source.toList ls (Position.start.advanceAll source.toList) [] := by
  obtain ⟨ls, p, left, hwalk, hout⟩ := tokenize_eq_iff.mp h
  cases hout with
  | whole =>
    obtain ⟨before, htext, rfl, -⟩ := hwalk.truncate
    rw [List.append_nil] at htext
    subst htext
    exact ⟨ls, rfl, hwalk⟩

/-- No accepted text has a star right after a slash. -/
theorem isChain_of_parse {ls : List Lexeme} {e : Lexeme} {statements : List Stmt}
    (hls : ∀ l ∈ ls, l.token ≠ .endOfInput) (he : e.token = .endOfInput)
    (h : parse (ls ++ [e]) = .ok statements) :
    ls.IsChain fun l l' => l.token = .symbol .slash → l'.token ≠ .symbol .star := by
  obtain ⟨⟨rest, hspelled, hend⟩, -⟩ :=
    (programFrom_eq_ok.mp h).spelled (Rules.faithful_withRoom maxNesting).declaration
  have hfits := hspelled.fits hend
  rw [List.takeWhile_append_of_pos fun l hl => decide_eq_true (hls l hl),
    List.takeWhile_cons_of_neg (by simp [he]), List.append_nil] at hfits
  exact (Stmt.uncommented_all fun s _ => s.uncommented).isChain hfits

/-- **The lexemes of two texts as one.** -/
theorem tokenize_joined {first second : String} {ls ls' : List Lexeme} {statements : List Stmt}
    (h : tokenize first = .ok ls) (hparse : parse ls = .ok statements)
    (h' : tokenize second = .ok ls') :
    tokenize (first ++ "\n;\n" ++ second)
      = .ok (ls.dropLast ++ seam first :: ls'.map (·.relocate (·.down (linesBefore first)))) := by
  obtain ⟨ls, rfl, hwalk⟩ := exists_walk_of_tokenize h
  obtain ⟨ls', rfl, hwalk'⟩ := exists_walk_of_tokenize h'
  have hchain := isChain_of_parse hwalk.token_ne_endOfInput rfl hparse
  have htext : (first ++ "\n;\n" ++ second).toList
      = first.toList ++ '\n' :: ([';'] ++ (['\n'] ++ second.toList)) := by
    rw [String.toList_append, String.toList_append, List.append_assoc]
    rfl
  have hnewline : ∀ c ∈ ['\n'], isSpace c = true := List.forall_mem_singleton.mpr (by decide)
  have hplace : (Position.start.advanceAll first.toList).advanceAll ['\n']
      = ⟨linesBefore first, 1⟩ := by
    simp only [Position.advanceAll_cons, Position.advanceAll_nil, Position.advance, ↓reduceIte,
      Position.line_advanceAll, linesBefore, Position.start, Position.mk.injEq, and_true]
    omega
  have hplace' : ((⟨linesBefore first, 1⟩ : Position).advanceAll [';']).advanceAll ['\n']
      = Position.start.down (linesBefore first) := by
    rw [Position.down, Nat.add_comm]
    rfl
  have hread := (hwalk'.down (linesBefore first)).readFrom_eq
    (Outcome.whole : Outcome ((ls ++ [seam first]) ++ _) _ _ _)
  rw [List.reverse_concat] at hread
  rw [tokenize_eq_readFrom, htext, hwalk.readFrom_append rfl hchain, ← List.singleton_append,
    readFrom_spaces _ _ hnewline,
    readFrom_of_longest (Longest.of_singleSymbol? rfl rfl rfl _) (by simp),
    readFrom_spaces _ _ hnewline, hplace, hplace', List.append_nil]
  refine hread.trans ?_
  rw [List.dropLast_concat, List.map_append, List.append_assoc, List.append_assoc]
  rfl

/-- **The statements of two texts as one.** -/
theorem parse_joined {first second : String} {ls ls' : List Lexeme}
    {statements statements' : List Stmt} (h : tokenize first = .ok ls)
    (hparse : parse ls = .ok statements) (h' : tokenize second = .ok ls')
    (hparse' : parse ls' = .ok statements') :
    parse (ls.dropLast ++ seam first :: ls'.map (·.relocate (·.down (linesBefore first))))
      = .ok (statements ++ statements'.map (·.relocate (·.down (linesBefore first)))) := by
  obtain ⟨ls, rfl, hwalk⟩ := exists_walk_of_tokenize h
  obtain ⟨ls', rfl, hwalk'⟩ := exists_walk_of_tokenize h'
  have hdown := Position.down_line_eq_iff (linesBefore first)
  -- The second text is read further down, up to its own end.
  have hsecond := parse_spliced hdown
    (spliced_append (·.down (linesBefore first))
      [⟨.endOfInput, "", (Position.start.advanceAll second.toList).down (linesBefore first)⟩]
      hwalk'.token_ne_endOfInput rfl)
    (.inr rfl) hparse' (programFrom_eq_ok.mpr (.close fun l hl => by cases hl; rfl))
  -- With the semicolon in front of it, it takes the place of the end of the first.
  have hseam : parse (seam first :: _) = _ :=
    programFrom_eq_ok.mpr ((programFrom_eq_ok.mp hsecond).of_dropWhile rfl)
  have hfirst := parse_spliced (f := id) (fun _ _ => Iff.rfl)
    (spliced_append id _ hwalk.token_ne_endOfInput rfl) (.inl rfl) hparse hseam
  have hls : ls.map (·.relocate id) = ls := List.map_id ls
  have hstatements : statements.map (·.relocate id) = statements := by
    rw [List.map_congr_left fun s _ => s.relocate_id, List.map_id']
  rw [hls, hstatements, List.append_nil] at hfirst
  rw [List.dropLast_concat, List.map_append]
  exact hfirst

end Scripting
