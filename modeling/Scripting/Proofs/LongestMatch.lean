/-
The longest match.

At the front of a text the patterns compete. The longest text that belongs to any of them wins,
and where a reserved word could also be a name, it is the reserved word. `munch` finds it without
trying all patterns, since the first character leaves few of them open.
-/
import Mathlib.Data.List.TakeWhile
import Scripting.Proofs.Pattern

set_option autoImplicit false

namespace Scripting

open Pattern

/-! ## Longest matches -/

/-- The longest front of a text that belongs to any pattern, and the pattern it belongs to. -/
structure Longest (text : List Char) (p : Pattern) (taken : List Char) : Prop where
  mem : taken ∈ p.language
  front : taken <+: text
  ne_nil : taken ≠ []
  longest : ∀ (q : Pattern) (other : List Char), other ∈ q.language → other <+: text →
    other.length ≤ taken.length
  /-- A reserved word is not a name. -/
  reserved : ∀ k, taken ∈ (keyword k).language → p = keyword k

/-- No pattern has a text that stands at the front. -/
def Unmatched (text : List Char) : Prop :=
  ∀ p : Pattern, ∀ taken ∈ p.language, ¬ taken <+: text

section

variable {c : Char} {cs : List Char}

/-- What belongs to a pattern and stands at the front begins with the first character there. -/
theorem exists_of_front {q : Pattern} {other : List Char} (hmem : other ∈ q.language)
    (hfront : other <+: c :: cs) :
    ∃ more, other = c :: more ∧ more <+: cs := by
  cases other with
  | nil => exact absurd rfl (ne_nil_of_mem hmem)
  | cons d more =>
    obtain ⟨rfl, hmore⟩ := List.cons_prefix_cons.mp hfront
    exact ⟨more, rfl, hmore⟩

/-- It is enough to look at the patterns that the first character leaves open. -/
theorem Longest.of_initial {p : Pattern} {taken : List Char} (hmem : c :: taken ∈ p.language)
    (hfront : taken <+: cs)
    (hlongest : ∀ (q : Pattern) (more : List Char), (Initial.of c).Admits q →
      c :: more ∈ q.language → more <+: cs → more.length ≤ taken.length)
    (hreserved : ∀ k, c :: taken ∈ (keyword k).language → p = keyword k) :
    Longest (c :: cs) p (c :: taken) where
  mem := hmem
  front := List.cons_prefix_cons.mpr ⟨rfl, hfront⟩
  ne_nil := List.cons_ne_nil _ _
  longest q other hother hof := by
    obtain ⟨more, rfl, hmore⟩ := exists_of_front hother hof
    exact Nat.succ_le_succ (hlongest q more (Initial.admits_of_mem hother) hother hmore)
  reserved := hreserved

theorem not_reserved {p : Pattern} {taken : List Char} (hc : Initial.of c ≠ .letter) (k : Keyword)
    (hk : c :: taken ∈ (keyword k).language) : p = keyword k :=
  absurd (Initial.eq_letter (Initial.admits_of_mem hk)) hc

/-- A front all of whose characters have a property is within the run of them. -/
theorem length_le_takeWhile {f : Char → Bool} {more : List Char} (hmore : more <+: cs)
    (hf : ∀ d ∈ more, f d = true) : more.length ≤ (cs.takeWhile f).length := by
  obtain ⟨rest, rfl⟩ := hmore
  rw [List.takeWhile_append_of_pos hf, List.length_append]
  exact Nat.le_add_right _ _

end

theorem Munch.first_taken (t : Token) (n : Nat) (c : Char) (cs : List Char) :
    (Munch.first t n c cs).taken = c :: cs.take n := rfl

/-- The token is that of the longest match. -/
def Munch.IsLongest {text : List Char} (m : Munch text) : Prop :=
  ∃ p : Pattern, Longest text p m.taken ∧ m.token = p.token m.taken

/-! ## Blanks and words -/

section

variable {c : Char} (cs : List Char)

theorem blank_isLongest (hc : isSpace c = true) :
    (Munch.while_ isSpace (fun _ => .blank) c cs).IsLongest := by
  have hinitial := Initial.of_space hc
  refine ⟨.blank, Longest.of_initial ?_ (List.takeWhile_prefix _) ?_ ?_, rfl⟩
  · exact mem_blank.mpr ⟨c, _, hc, fun d hd => List.mem_takeWhile_imp hd, rfl⟩
  · intro q more hq hmem hmore
    rw [hinitial] at hq
    obtain rfl := hq
    obtain ⟨d, ds, -, hds, heq⟩ := mem_blank.mp hmem
    cases heq
    exact length_le_takeWhile hmore hds
  · apply not_reserved
    rw [hinitial]
    decide

theorem keyword_mem_identifier (k : Keyword) : k.text.toList ∈ identifier.language := by
  rw [mem_identifier]
  cases k <;> exact ⟨_, _, rfl, List.all_eq_true.mp rfl, rfl⟩

theorem Keyword.text_injective : Function.Injective Keyword.text := by
  intro k k' h
  cases k <;> cases k' <;> first | rfl | exact absurd h (by decide)

theorem Keyword.ofText?_eq_some {word : String} {k : Keyword} (h : Keyword.ofText? word = some k) :
    word = k.text := by
  have hk := List.find?_some h
  exact (of_decide_eq_true hk).symm

theorem Keyword.ofText?_eq_none {word : String} (h : Keyword.ofText? word = none) (k : Keyword) :
    word ≠ k.text := by
  rintro rfl
  exact List.find?_eq_none.mp h k k.mem_all (decide_eq_true rfl)

/-- A word runs on over everything that a name can go on with, so a reserved word inside of a longer
name is not taken. -/
theorem word_isLongest (hc : isNameStart c = true) :
    (Munch.while_ isNamePart wordToken c cs).IsLongest := by
  have hinitial := Initial.of_letter hc
  have hword : c :: cs.takeWhile isNamePart ∈ identifier.language :=
    mem_identifier.mpr ⟨c, _, hc, fun d hd => List.mem_takeWhile_imp hd, rfl⟩
  have hwithin : ∀ more, c :: more ∈ identifier.language → more <+: cs →
      more.length ≤ (cs.takeWhile isNamePart).length := by
    intro more hmem hmore
    obtain ⟨d, ds, -, hds, heq⟩ := mem_identifier.mp hmem
    cases heq
    exact length_le_takeWhile hmore hds
  have hlongest : ∀ (q : Pattern) (more : List Char), (Initial.of c).Admits q →
      c :: more ∈ q.language → more <+: cs → more.length ≤ (cs.takeWhile isNamePart).length := by
    intro q more hq hmem hmore
    rw [hinitial] at hq
    rcases hq with rfl | ⟨k, rfl⟩
    · exact hwithin more hmem hmore
    · apply hwithin more _ hmore
      rw [mem_keyword.mp hmem]
      exact keyword_mem_identifier k
  unfold Munch.IsLongest Munch.while_
  dsimp only [wordToken]
  cases hword' : Keyword.ofText? (String.ofList (c :: cs.takeWhile isNamePart)) with
  | some k =>
    have htext : c :: cs.takeWhile isNamePart = k.text.toList := by
      rw [← Keyword.ofText?_eq_some hword', String.toList_ofList]
    refine ⟨.keyword k, Longest.of_initial htext (List.takeWhile_prefix _) hlongest ?_, rfl⟩
    intro k' hk'
    rw [mem_keyword, htext] at hk'
    rw [Keyword.text_injective (String.toList_injective hk')]
  | none =>
    refine ⟨.identifier, Longest.of_initial hword (List.takeWhile_prefix _) hlongest ?_, rfl⟩
    intro k hk
    have htext : String.ofList (c :: cs.takeWhile isNamePart) = k.text := by
      rw [mem_keyword.mp hk, String.ofList_toList]
    exact absurd htext (Keyword.ofText?_eq_none hword' k)

end

/-! ## Strings -/

section

variable {c : Char} {inner more rest : List Char}

theorem takeWhile_of_not_mem (h : c ∉ inner) : inner.takeWhile (· ≠ c) = inner := by
  rw [List.takeWhile_eq_self_iff]
  intro d hd
  rw [decide_eq_true_iff]
  rintro rfl
  exact h hd

theorem not_mem_takeWhile (c : Char) (cs : List Char) : c ∉ cs.takeWhile (· ≠ c) := by
  intro h
  have hc := List.mem_takeWhile_imp h
  simp at hc

theorem takeWhile_append_stop (h : c ∉ inner) :
    (inner ++ c :: rest).takeWhile (· ≠ c) = inner := by
  rw [List.takeWhile_append_of_pos (List.takeWhile_eq_self_iff.mp (takeWhile_of_not_mem h)),
    List.takeWhile_cons_of_neg (by simp), List.append_nil]

/-- Without the character a front ends before it. -/
theorem length_le_of_not_mem (h : c ∉ inner) (hmore : c ∉ more)
    (hfront : more <+: inner ++ c :: rest) : more.length ≤ inner.length := by
  have hall := List.takeWhile_eq_self_iff.mp (takeWhile_of_not_mem hmore)
  have hle := length_le_takeWhile hfront hall
  rwa [takeWhile_append_stop h] at hle

theorem munchString_closed (rest : List Char) (h : '"' ∉ inner) :
    (munchString (inner ++ '"' :: rest)).taken = '"' :: (inner ++ ['"']) ∧
      (munchString (inner ++ '"' :: rest)).token = .string (String.ofList inner) := by
  unfold munchString
  rw [takeWhile_append_stop h]
  dsimp only
  rw [if_pos (by simp)]
  refine ⟨?_, rfl⟩
  rw [Munch.first_taken, List.take_append, List.take_of_length_le (Nat.le_succ _)]
  simp

theorem munchString_open {cs : List Char} (h : '"' ∉ cs) :
    (munchString cs).taken = '"' :: cs ∧ (munchString cs).token = .unterminatedString := by
  unfold munchString
  rw [takeWhile_of_not_mem h]
  dsimp only
  rw [if_neg (Nat.lt_irrefl _)]
  rw [Munch.first_taken, List.take_length]
  exact ⟨rfl, rfl⟩

end

/-- A string runs to the next quote. If there is none, everything that is left is an unterminated
string. -/
theorem munchString_isLongest (cs : List Char) : (munchString cs).IsLongest := by
  have hreserved : ∀ (p : Pattern) (taken : List Char) (k : Keyword),
      '"' :: taken ∈ (keyword k).language → p = keyword k :=
    fun p taken => not_reserved (by decide)
  by_cases hquote : '"' ∈ cs
  · obtain ⟨inner, rest, rfl, hinner⟩ := List.eq_append_cons_of_mem hquote
    obtain ⟨htaken, htoken⟩ := munchString_closed rest hinner
    refine ⟨.string, ?_, ?_⟩
    · rw [htaken]
      apply Longest.of_initial _ _ _ (hreserved .string _)
      · exact mem_string.mpr ⟨inner, hinner, rfl⟩
      · exact ⟨rest, by simp⟩
      · intro q more hq hmem hmore
        rw [List.length_append]
        rcases hq with rfl | rfl
        · obtain ⟨other, hother, heq⟩ := mem_string.mp hmem
          cases heq
          rw [List.length_append]
          apply Nat.succ_le_succ
          exact length_le_of_not_mem hinner hother ((List.prefix_append _ _).trans hmore)
        · obtain ⟨other, hother, heq⟩ := mem_unterminatedString.mp hmem
          cases heq
          exact Nat.le_succ_of_le (length_le_of_not_mem hinner hother hmore)
    · rw [htoken, htaken]
      show _ = Token.string (String.ofList (inner ++ ['"']).dropLast)
      rw [List.dropLast_concat]
  · obtain ⟨htaken, htoken⟩ := munchString_open hquote
    refine ⟨.unterminatedString, ?_, ?_⟩
    · rw [htaken]
      apply Longest.of_initial _ _ _ (hreserved .unterminatedString _)
      · exact mem_unterminatedString.mpr ⟨cs, hquote, rfl⟩
      · exact List.prefix_refl _
      · intro q more _ _ hmore
        exact hmore.length_le
    · rw [htoken]
      rfl

/-! ## Comments -/

theorem afterBlockComment_cons {c : Char} (h : c ≠ '*') (rest : List Char) :
    afterBlockComment (c :: rest) = afterBlockComment rest := by
  rw [afterBlockComment]
  · rintro _ rfl
    exact absurd rfl h
  · rintro _ _ rfl
    exact absurd rfl h

theorem afterBlockComment_star {c : Char} (h : c ≠ '/') (rest : List Char) :
    afterBlockComment ('*' :: c :: rest) = afterBlockComment rest := by
  rw [afterBlockComment]
  rintro rfl
  exact absurd rfl h

/-- A comment is closed at the first mark that does not belong to what is commented. -/
theorem afterBlockComment_commented {inner : List Char} (rest : List Char) (h : inner ∈ commented) :
    afterBlockComment (inner ++ '*' :: '/' :: rest) = some rest := by
  obtain ⟨pieces, rfl, hpieces⟩ := Language.mem_kstar.mp h
  clear h
  induction pieces with
  | nil => rfl
  | cons piece pieces ih =>
    have ih := ih fun y hy => hpieces y (List.mem_cons_of_mem _ hy)
    rw [List.flatten_cons, List.append_assoc]
    rcases (Language.mem_add _ _ _).mp (hpieces piece List.mem_cons_self) with hplain | hstar
    · obtain ⟨c, hc, rfl⟩ := hplain
      rw [List.mem_singleton] at hc
      rw [← ih]
      exact afterBlockComment_cons hc _
    · obtain ⟨_, ⟨c, hc, rfl⟩, rfl⟩ := mem_exactly_mul.mp hstar
      rw [List.mem_singleton] at hc
      rw [← ih]
      exact afterBlockComment_star hc _

/-- A comment that stands at the front is the one that is found. -/
theorem afterBlockComment_of_front {inner text : List Char} (h : inner ∈ commented)
    (hfront : inner ++ ['*', '/'] <+: text) :
    ∃ rest, afterBlockComment text = some rest ∧ text = inner ++ '*' :: '/' :: rest := by
  obtain ⟨rest, rfl⟩ := hfront
  rw [List.append_assoc]
  exact ⟨rest, afterBlockComment_commented rest h, rfl⟩

theorem commented_append {piece inner : List Char}
    (hpiece : piece ∈ noneOf ['*'] + exactly "*" * noneOf ['/']) (hinner : inner ∈ commented) :
    piece ++ inner ∈ commented := by
  obtain ⟨pieces, rfl, hpieces⟩ := Language.mem_kstar.mp hinner
  exact Language.mem_kstar.mpr ⟨piece :: pieces, rfl, List.forall_mem_cons.mpr ⟨hpiece, hpieces⟩⟩

theorem commented_of_afterBlockComment {text rest : List Char}
    (h : afterBlockComment text = some rest) :
    ∃ inner ∈ commented, text = inner ++ '*' :: '/' :: rest := by
  fun_induction afterBlockComment text with
  | case1 => cases h
  | case2 rest' =>
    cases h
    exact ⟨[], Language.mem_kstar.mpr ⟨[], rfl, fun y hy => by cases hy⟩, rfl⟩
  | case3 c text hc ih =>
    obtain ⟨inner, hinner, rfl⟩ := ih h
    have hpiece : ['*', c] ∈ noneOf ['*'] + exactly "*" * noneOf ['/'] := by
      apply (Language.mem_add _ _ _).mpr (.inr _)
      exact mem_exactly_mul.mpr ⟨[c], ⟨c, List.mem_singleton.not.mpr hc, rfl⟩, rfl⟩
    exact ⟨'*' :: c :: inner, commented_append hpiece hinner, rfl⟩
  | case4 c text hclose hpair ih =>
    obtain ⟨inner, hinner, rfl⟩ := ih h
    have hc : c ≠ '*' := by
      rintro rfl
      -- A star with anything after it has been dealt with.
      cases inner with
      | nil => exact hpair '*' _ rfl rfl
      | cons d ds => exact hpair d _ rfl rfl
    have hpiece : [c] ∈ noneOf ['*'] + exactly "*" * noneOf ['/'] := by
      apply (Language.mem_add _ _ _).mpr (.inl _)
      exact ⟨c, List.mem_singleton.not.mpr hc, rfl⟩
    exact ⟨c :: inner, commented_append hpiece hinner, rfl⟩

/-- What begins with a slash is the slash, or a comment that goes on with one of two characters. -/
theorem slash_cases {q : Pattern} {more : List Char} (hmem : '/' :: more ∈ q.language) :
    (q = .symbol .slash ∧ more = []) ∨
      (q = .lineComment ∧ ∃ inner, '\n' ∉ inner ∧ more = '/' :: inner) ∨
      (q = .blockComment ∧ ∃ inner ∈ commented, more = '*' :: (inner ++ ['*', '/'])) := by
  rcases Initial.admits_of_mem hmem with rfl | rfl | rfl
  · cases mem_symbol.mp hmem
    exact .inl ⟨rfl, rfl⟩
  · obtain ⟨inner, hinner, heq⟩ := mem_lineComment.mp hmem
    cases heq
    exact .inr (.inl ⟨rfl, inner, hinner, rfl⟩)
  · obtain ⟨inner, hinner, heq⟩ := mem_blockComment.mp hmem
    cases heq
    exact .inr (.inr ⟨rfl, inner, hinner, rfl⟩)

/-- Where no comment begins and ends, the slash is alone. -/
theorem slash_isLongest {cs : List Char} (hline : ∀ ds, cs ≠ '/' :: ds)
    (hblock : ∀ ds, cs = '*' :: ds → afterBlockComment ds = none) :
    (Munch.first (.symbol .slash) 0 '/' cs).IsLongest := by
  refine ⟨.symbol .slash, Longest.of_initial ?_ List.nil_prefix ?_ (not_reserved (by decide)), rfl⟩
  · exact mem_symbol.mpr rfl
  · intro q more _ hmem hmore
    rcases slash_cases hmem with ⟨-, rfl⟩ | ⟨-, inner, -, rfl⟩ | ⟨-, inner, hinner, rfl⟩
    · exact Nat.le_refl 0
    · obtain ⟨ds, rfl⟩ := hmore
      exact absurd rfl (hline _)
    · cases cs with
      | nil => exact absurd hmore (by simp)
      | cons d ds =>
        obtain ⟨rfl, hfront⟩ := List.cons_prefix_cons.mp hmore
        obtain ⟨rest, hclosed, -⟩ := afterBlockComment_of_front hinner hfront
        rw [hblock ds rfl] at hclosed
        cases hclosed

theorem lineComment_isLongest (ds : List Char) :
    (Munch.while_ (· ≠ '\n') (fun _ => .lineComment) '/' ('/' :: ds)).IsLongest := by
  have htaken : ('/' :: ds).takeWhile (· ≠ '\n') = '/' :: ds.takeWhile (· ≠ '\n') :=
    List.takeWhile_cons_of_pos (by decide)
  refine ⟨.lineComment, Longest.of_initial ?_ (List.takeWhile_prefix _) ?_
    (not_reserved (by decide)), rfl⟩
  · rw [htaken]
    exact mem_lineComment.mpr ⟨_, not_mem_takeWhile '\n' ds, rfl⟩
  · intro q more _ hmem hmore
    rw [htaken]
    rcases slash_cases hmem with ⟨-, rfl⟩ | ⟨-, inner, hinner, rfl⟩ | ⟨-, inner, -, rfl⟩
    · exact Nat.zero_le _
    · apply Nat.succ_le_succ
      apply length_le_takeWhile (List.cons_prefix_cons.mp hmore).2
      exact List.takeWhile_eq_self_iff.mp (takeWhile_of_not_mem hinner)
    · exact absurd (List.cons_prefix_cons.mp hmore).1 (by decide)

theorem blockComment_isLongest {ds rest : List Char} (h : afterBlockComment ds = some rest) :
    (Munch.first .blockComment (ds.length + 1 - rest.length) '/' ('*' :: ds)).IsLongest := by
  obtain ⟨inner, hinner, rfl⟩ := commented_of_afterBlockComment h
  have htake : ('*' :: (inner ++ '*' :: '/' :: rest)).take
      ((inner ++ '*' :: '/' :: rest).length + 1 - rest.length) = '*' :: (inner ++ ['*', '/']) := by
    rw [show '*' :: (inner ++ '*' :: '/' :: rest) = '*' :: (inner ++ ['*', '/']) ++ rest by simp]
    apply List.take_left'
    simp only [List.length_append, List.length_cons, List.length_nil]
    omega
  unfold Munch.IsLongest
  rw [Munch.first_taken, htake]
  refine ⟨.blockComment, Longest.of_initial ?_ ?_ ?_ (not_reserved (by decide)), rfl⟩
  · exact mem_blockComment.mpr ⟨inner, hinner, rfl⟩
  · exact ⟨rest, by simp⟩
  · intro q more _ hmem hmore
    rcases slash_cases hmem with ⟨-, rfl⟩ | ⟨-, other, -, rfl⟩ | ⟨-, other, hother, rfl⟩
    · exact Nat.zero_le _
    · exact absurd (List.cons_prefix_cons.mp hmore).1 (by decide)
    · -- Both comments are closed at the same place.
      obtain ⟨rest', hclosed, heq⟩ :=
        afterBlockComment_of_front hother (List.cons_prefix_cons.mp hmore).2
      rw [h] at hclosed
      cases hclosed
      rw [List.append_cancel_right heq]

/-- A slash begins a comment if one ends, and is an operator if none does. -/
theorem munchSlash_isLongest (cs : List Char) : (munchSlash cs).IsLongest := by
  unfold munchSlash
  split
  · next ds => exact lineComment_isLongest ds
  · next ds =>
    split
    · next rest hclosed => exact blockComment_isLongest hclosed
    · next hopen =>
      apply slash_isLongest
      · intro ds' h
        cases h
      · intro ds' h
        cases h
        exact hopen
  · next hline hblock =>
    apply slash_isLongest hline
    intro ds h
    exact absurd h (hblock ds)

/-! ## Numbers -/

/-- A point with a digit after it is taken. -/
theorem numberLength_point {ds : List Char} {d : Char} (hds : ∀ c ∈ ds, Decimal.isDigit c = true)
    (hd : Decimal.isDigit d = true) (rest : List Char) :
    numberLength (ds ++ '.' :: d :: rest)
      = ds.length + 2 + (rest.takeWhile Decimal.isDigit).length := by
  unfold numberLength
  rw [List.takeWhile_append_of_pos hds, List.dropWhile_append_of_pos hds,
    List.takeWhile_cons_of_neg (by decide), List.dropWhile_cons_of_neg (by decide),
    List.append_nil]
  exact if_pos hd

/-- Either the point is taken, or the number ends with its first row of digits. -/
theorem numberLength_cases (cs : List Char) :
    numberLength cs = (cs.takeWhile Decimal.isDigit).length ∨
      ∃ d rest, Decimal.isDigit d = true ∧
        cs = cs.takeWhile Decimal.isDigit ++ '.' :: d :: rest := by
  unfold numberLength
  dsimp only
  split
  · next d rest hrest =>
    split
    · next hd =>
      right
      refine ⟨d, rest, hd, ?_⟩
      rw [← hrest, List.takeWhile_append_dropWhile]
    · exact .inl rfl
  · exact .inl rfl

/-- What is taken makes a number of any digit before it. -/
theorem exists_number (cs : List Char) :
    ∃ more, more <+: cs ∧ more.length = numberLength cs ∧
      ∀ c, Decimal.isDigit c = true → c :: more ∈ number.language := by
  have hwhole : ∀ d ∈ cs.takeWhile Decimal.isDigit, Decimal.isDigit d = true :=
    fun d hd => List.mem_takeWhile_imp hd
  rcases numberLength_cases cs with hlength | ⟨d, rest, hd, hcs⟩
  · refine ⟨cs.takeWhile Decimal.isDigit, List.takeWhile_prefix _, hlength.symm, fun c hc => ?_⟩
    exact mem_number.mpr ⟨c, _, hc, hwhole, .inl rfl⟩
  · have hfraction : ∀ e ∈ rest.takeWhile Decimal.isDigit, Decimal.isDigit e = true :=
      fun e he => List.mem_takeWhile_imp he
    refine ⟨cs.takeWhile Decimal.isDigit ++ '.' :: d :: rest.takeWhile Decimal.isDigit, ?_, ?_,
      fun c hc => mem_number.mpr ⟨c, _, hc, hwhole, .inr ⟨d, _, hd, hfraction, rfl⟩⟩⟩
    · refine ⟨rest.dropWhile Decimal.isDigit, ?_⟩
      rw [List.append_assoc, List.cons_append, List.cons_append, List.takeWhile_append_dropWhile,
        ← hcs]
    · have hlength := numberLength_point hwhole hd rest
      rw [← hcs] at hlength
      rw [hlength, List.length_append]
      simp only [List.length_cons]
      omega

/-- No number at the front is longer. -/
theorem length_le_numberLength {c : Char} {cs more : List Char} (hmem : c :: more ∈ number.language)
    (hmore : more <+: cs) : more.length ≤ numberLength cs := by
  obtain ⟨e, ds, -, hds, heq | ⟨d, fs, hd, hfs, heq⟩⟩ := mem_number.mp hmem
  · cases heq
    have hrun := length_le_takeWhile hmore hds
    rcases numberLength_cases cs with hlength | ⟨d, rest, hd, hcs⟩
    · rw [hlength]
      exact hrun
    · have hwhole : ∀ d ∈ cs.takeWhile Decimal.isDigit, Decimal.isDigit d = true :=
        fun d hd => List.mem_takeWhile_imp hd
      have hlength := numberLength_point hwhole hd rest
      rw [← hcs] at hlength
      omega
  · cases heq
    obtain ⟨rest, rfl⟩ := hmore
    have hrun : fs.length ≤ ((fs ++ rest).takeWhile Decimal.isDigit).length :=
      length_le_takeWhile (List.prefix_append _ _) hfs
    rw [List.append_assoc, List.cons_append, List.cons_append, numberLength_point hds hd,
      List.length_append]
    simp only [List.length_cons]
    omega

theorem number_isLongest {c : Char} (hc : Decimal.isDigit c = true) (cs : List Char) :
    (Munch.first (.number (Decimal.ofLiteral (c :: cs.take (numberLength cs))).toFloat)
      (numberLength cs) c cs).IsLongest := by
  have hinitial := Initial.of_digit hc
  obtain ⟨taken, hfront, hlength, hnumber⟩ := exists_number cs
  unfold Munch.IsLongest
  rw [Munch.first_taken, ← hlength, ← List.prefix_iff_eq_take.mp hfront]
  refine ⟨.number, Longest.of_initial (hnumber c hc) hfront ?_
    (not_reserved (by rw [hinitial]; decide)), rfl⟩
  intro q more hq hmem hmore
  rw [hinitial] at hq
  obtain rfl := hq
  rw [hlength]
  exact length_le_numberLength hmem hmore

/-! ## Symbols -/

/-- A mark is one character, or two of which the second is the equals sign. -/
theorem mark_cases {c : Char} {q : Pattern} {more : List Char} (hc : Initial.of c = .mark)
    (hmem : c :: more ∈ q.language) :
    ∃ s, q = .symbol s ∧
      (more = [] ∧ singleSymbol? c = some s ∨ more = ['='] ∧ doubleSymbol? c = some s) := by
  have hq := Initial.admits_of_mem hmem
  rw [hc] at hq
  obtain ⟨s, rfl, hslash⟩ := hq
  refine ⟨s, rfl, ?_⟩
  rw [mem_symbol] at hmem
  cases s with
  | slash => exact absurd rfl hslash
  | equalEqual | bangEqual | lessEqual | greaterEqual =>
    cases hmem
    exact .inr ⟨rfl, rfl⟩
  | _ =>
    cases hmem
    exact .inl ⟨rfl, rfl⟩

theorem mem_of_singleSymbol? {c : Char} {s : Symbol} (h : singleSymbol? c = some s) :
    [c] ∈ (symbol s).language := by
  rw [mem_symbol]
  unfold singleSymbol? at h
  split at h <;> cases h <;> rfl

/-- A mark that begins no longer one is a token by itself, whatever stands after it. -/
theorem Longest.of_singleSymbol? {c : Char} {s : Symbol} (hc : Initial.of c = .mark)
    (h : singleSymbol? c = some s) (hdouble : doubleSymbol? c = none) (rest : List Char) :
    Longest ([c] ++ rest) (.symbol s) [c] := by
  apply Longest.of_initial (mem_of_singleSymbol? h) List.nil_prefix
  · intro q more _ hmem _
    obtain ⟨s', -, ⟨rfl, -⟩ | ⟨-, hs'⟩⟩ := mark_cases hc hmem
    · exact Nat.le_refl 0
    · rw [hdouble] at hs'
      cases hs'
  · apply not_reserved
    rw [hc]
    decide

theorem mem_of_doubleSymbol? {c : Char} {s : Symbol} (h : doubleSymbol? c = some s) :
    [c, '='] ∈ (symbol s).language := by
  rw [mem_symbol]
  unfold doubleSymbol? at h
  split at h <;> cases h <;> rfl

theorem munchSymbol_isLongest {c : Char} {cs : List Char} {m : Munch (c :: cs)}
    (hc : Initial.of c = .mark) (h : munchSymbol c cs = some m) : m.IsLongest := by
  have hreserved : ∀ (p : Pattern) (taken : List Char) (k : Keyword),
      c :: taken ∈ (keyword k).language → p = keyword k :=
    fun p taken => not_reserved (by rw [hc]; decide)
  unfold munchSymbol at h
  split at h
  · next s hhead hdouble =>
    cases h
    obtain ⟨rest, rfl⟩ := List.head?_eq_some_iff.mp hhead
    refine ⟨.symbol s, Longest.of_initial (mem_of_doubleSymbol? hdouble) ⟨rest, rfl⟩ ?_
      (hreserved _ _), rfl⟩
    intro q more _ hmem _
    obtain ⟨s', -, ⟨rfl, -⟩ | ⟨rfl, -⟩⟩ := mark_cases hc hmem
    · exact Nat.zero_le _
    · exact Nat.le_refl 1
  · next hnot =>
    obtain ⟨s, hsingle, rfl⟩ := Option.map_eq_some_iff.mp h
    refine ⟨.symbol s, Longest.of_initial (mem_of_singleSymbol? hsingle) List.nil_prefix ?_
      (hreserved _ _), rfl⟩
    intro q more _ hmem hmore
    obtain ⟨s', -, ⟨rfl, -⟩ | ⟨rfl, hdouble⟩⟩ := mark_cases hc hmem
    · exact Nat.le_refl 0
    · obtain ⟨rest, rfl⟩ := hmore
      exact absurd hdouble (hnot s' rfl)

/-- Where no symbol is found, nothing stands at the front that belongs to a pattern. -/
theorem munchSymbol_eq_none {c : Char} {cs : List Char} (hc : Initial.of c = .mark)
    (h : munchSymbol c cs = none) : Unmatched (c :: cs) := by
  intro p taken hmem hfront
  obtain ⟨more, rfl, hmore⟩ := exists_of_front hmem hfront
  unfold munchSymbol at h
  split at h
  · cases h
  · next hnot =>
    rw [Option.map_eq_none_iff] at h
    obtain ⟨s, -, ⟨rfl, hsingle⟩ | ⟨rfl, hdouble⟩⟩ := mark_cases hc hmem
    · rw [h] at hsingle
      cases hsingle
    · obtain ⟨rest, rfl⟩ := hmore
      exact hnot s rfl hdouble

/-! ## All tokens -/

/-- What is left for symbols. -/
theorem Initial.of_mark {c : Char} (hquote : c ≠ '"') (hslash : c ≠ '/')
    (hspace : ¬ isSpace c = true) (hletter : ¬ isNameStart c = true)
    (hdigit : ¬ Decimal.isDigit c = true) :
    Initial.of c = .mark := by
  unfold Initial.of
  rw [if_neg hquote, if_neg hslash, if_neg hspace, if_neg hletter, if_neg hdigit]

/-- **One token.** What `munch` takes is the longest match, and the token is the one that it
denotes. -/
theorem munch_isLongest {text : List Char} {m : Munch text} (h : munch text = some m) :
    m.IsLongest := by
  unfold munch at h
  split at h
  · cases h
  · next cs =>
    cases h
    exact munchString_isLongest cs
  · next cs =>
    cases h
    exact munchSlash_isLongest cs
  · next c cs hquote hslash =>
    split at h
    · next hspace =>
      cases h
      exact blank_isLongest cs hspace
    · next hspace =>
      split at h
      · next hletter =>
        cases h
        exact word_isLongest cs hletter
      · next hletter =>
        split at h
        · next hdigit =>
          cases h
          exact number_isLongest hdigit cs
        · next hdigit =>
          exact munchSymbol_isLongest (Initial.of_mark hquote hslash hspace hletter hdigit) h

/-- Where `munch` takes nothing, no pattern matches. -/
theorem unmatched_of_munch {text : List Char} (h : munch text = none) : Unmatched text := by
  unfold munch at h
  split at h
  · intro p taken hmem hfront
    exact ne_nil_of_mem hmem (List.prefix_nil.mp hfront)
  · cases h
  · cases h
  · next c cs hquote hslash =>
    split at h
    · cases h
    · next hspace =>
      split at h
      · cases h
      · next hletter =>
        split at h
        · cases h
        · next hdigit =>
          exact munchSymbol_eq_none (Initial.of_mark hquote hslash hspace hletter hdigit) h

/-! ## There is only one -/

theorem Symbol.text_injective : Function.Injective Symbol.text := by
  intro s s' h
  cases s <;> cases s' <;> first | rfl | exact absurd h (by decide)

theorem Initial.eq_slash {c : Char} (h : Initial.of c = .slash) : c = '/' := by
  unfold Initial.of at h
  split_ifs at h
  assumption

/-- A string has a second quote, which an unterminated one has not. -/
theorem not_mem_unterminatedString {w : List Char} (h : w ∈ string.language) :
    w ∉ unterminatedString.language := by
  intro h'
  obtain ⟨inner, -, rfl⟩ := mem_string.mp h
  obtain ⟨inner', hinner', heq⟩ := mem_unterminatedString.mp h'
  cases heq
  exact hinner' (by simp)

/-- No two patterns share a text, but for reserved words that look like names. -/
theorem pattern_eq {p q : Pattern} {w : List Char} (hp : w ∈ p.language) (hq : w ∈ q.language)
    (hpk : ∀ k, w ∈ (keyword k).language → p = keyword k)
    (hqk : ∀ k, w ∈ (keyword k).language → q = keyword k) : p = q := by
  cases w with
  | nil => exact absurd rfl (ne_nil_of_mem hp)
  | cons c cs =>
    have hpa := Initial.admits_of_mem hp
    have hqa := Initial.admits_of_mem hq
    cases hc : Initial.of c with
    | quote =>
      rw [hc] at hpa hqa
      rcases hpa with rfl | rfl <;> rcases hqa with rfl | rfl
      · rfl
      · exact absurd hq (not_mem_unterminatedString hp)
      · exact absurd hp (not_mem_unterminatedString hq)
      · rfl
    | slash =>
      -- The second character, if there is one, tells the two comments apart.
      obtain rfl := Initial.eq_slash hc
      rcases slash_cases hp with ⟨rfl, rfl⟩ | ⟨rfl, inner, -, rfl⟩ | ⟨rfl, inner, -, rfl⟩ <;>
        rcases slash_cases hq with ⟨rfl, heq⟩ | ⟨rfl, _, -, heq⟩ | ⟨rfl, _, -, heq⟩ <;>
          first | rfl | cases heq
    | space =>
      rw [hc] at hpa hqa
      exact hpa.trans hqa.symm
    | letter =>
      rw [hc] at hpa hqa
      rcases hpa with rfl | ⟨k, rfl⟩
      · rcases hqa with rfl | ⟨k, rfl⟩
        · rfl
        · exact hpk k hq
      · exact (hqk k hp).symm
    | digit =>
      rw [hc] at hpa hqa
      exact hpa.trans hqa.symm
    | mark =>
      rw [hc] at hpa hqa
      obtain ⟨s, rfl, -⟩ := hpa
      obtain ⟨s', rfl, -⟩ := hqa
      rw [mem_symbol] at hp hq
      rw [Symbol.text_injective (String.toList_injective (hp.symm.trans hq))]

theorem Longest.unique {text taken taken' : List Char} {p q : Pattern} (h : Longest text p taken)
    (h' : Longest text q taken') : p = q ∧ taken = taken' := by
  have hlength : taken.length = taken'.length :=
    Nat.le_antisymm (h'.longest p taken h.mem h.front) (h.longest q taken' h'.mem h'.front)
  have htaken : taken = taken' :=
    (List.prefix_of_prefix_length_le h.front h'.front hlength.le).eq_of_length hlength
  subst htaken
  exact ⟨pattern_eq h.mem h'.mem h.reserved h'.reserved, rfl⟩

/-- The longest match is the one that `munch` takes. -/
theorem Longest.munch {taken rest : List Char} {p : Pattern} (h : Longest (taken ++ rest) p taken) :
    ∃ m, munch (taken ++ rest) = some m ∧ m.taken = taken ∧ m.rest = rest ∧
      m.token = p.token taken := by
  cases hm : Scripting.munch (taken ++ rest) with
  | none => exact absurd h.front (unmatched_of_munch hm p taken h.mem)
  | some m =>
    obtain ⟨q, hq, htoken⟩ := munch_isLongest hm
    obtain ⟨rfl, htaken⟩ := h.unique hq
    have hsplit := m.taken_append_rest
    rw [← htaken] at hsplit
    exact ⟨m, rfl, htaken.symm, List.append_cancel_left hsplit,
      htoken.trans (congrArg p.token htaken.symm)⟩

/-- It stays the longest match if the text ends earlier, but not inside of it. -/
theorem Longest.truncate {taken rest rest' : List Char} {p : Pattern}
    (h : Longest (taken ++ rest) p taken) (hrest : rest' <+: rest) :
    Longest (taken ++ rest') p taken where
  mem := h.mem
  front := List.prefix_append _ _
  ne_nil := h.ne_nil
  longest q other hmem hfront := by
    apply h.longest q other hmem
    exact hfront.trans (List.prefix_append_right_inj taken |>.mpr hrest)
  reserved := h.reserved

end Scripting
