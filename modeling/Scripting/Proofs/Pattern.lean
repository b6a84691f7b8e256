/-
The patterns of tokens.

What texts are tokens is said here without reference to how they are read: each kind of token has
a *pattern*, which is a formal language, put together from single characters and fixed words by
union, concatenation and repetition. A pattern also says which token one of its texts is.

The first character of a text leaves few patterns open. `Initial` sorts the characters by this,
and `Initial.admits_of_mem` says which patterns each sort leaves open.
-/
import Mathlib.Computability.Language
import Scripting.Token.Scan

set_option autoImplicit false

namespace Scripting

open scoped Computability

namespace Pattern

/-! ## Languages of characters -/

/-- One character with a property. -/
def single (p : Char → Prop) : Language Char := {w | ∃ c, p c ∧ w = [c]}

/-- One character of a range. -/
def range (first last : Char) : Language Char := single fun c => first ≤ c ∧ c ≤ last

/-- One of the given characters. -/
def oneOf (cs : List Char) : Language Char := single (· ∈ cs)

/-- One character that is not among those given. -/
def noneOf (cs : List Char) : Language Char := single (· ∉ cs)

/-- A fixed word. -/
def exactly (word : String) : Language Char := {word.toList}

/-- At least one repetition. -/
def atLeastOnce (l : Language Char) : Language Char := l * l∗

/-- Once or not at all. -/
def optionally (l : Language Char) : Language Char := 1 + l

section Languages

variable {p q : Char → Prop} {l : Language Char} {w : List Char}

theorem mem_single : w ∈ single p ↔ ∃ c, p c ∧ w = [c] := Iff.rfl

theorem single_add : single p + single q = single fun c => p c ∨ q c := by
  ext w
  rw [Language.mem_add, mem_single, mem_single, mem_single]
  constructor
  · rintro (⟨c, hc, rfl⟩ | ⟨c, hc, rfl⟩)
    · exact ⟨c, .inl hc, rfl⟩
    · exact ⟨c, .inr hc, rfl⟩
  · rintro ⟨c, hc | hc, rfl⟩
    · exact .inl ⟨c, hc, rfl⟩
    · exact .inr ⟨c, hc, rfl⟩

theorem single_congr (h : ∀ c, p c ↔ q c) : single p = single q :=
  congrArg single (funext fun c => propext (h c))

/-- Repeated characters with a property are a text of them. -/
theorem mem_single_kstar : w ∈ (single p)∗ ↔ ∀ c ∈ w, p c := by
  rw [Language.mem_kstar]
  constructor
  · rintro ⟨pieces, rfl, hpieces⟩ c hc
    obtain ⟨piece, hmem, hin⟩ := List.mem_flatten.mp hc
    obtain ⟨d, hd, rfl⟩ := hpieces piece hmem
    rw [List.mem_singleton] at hin
    rw [hin]
    exact hd
  · intro h
    refine ⟨w.map ([·]), ?_, ?_⟩
    · induction w with
      | nil => rfl
      | cons c cs ih =>
        rw [List.map_cons, List.flatten_cons, ← ih fun d hd => h d (List.mem_cons_of_mem c hd)]
        rfl
    · intro piece hpiece
      obtain ⟨c, hc, rfl⟩ := List.mem_map.mp hpiece
      exact ⟨c, h c hc, rfl⟩

theorem mem_single_mul : w ∈ single p * l ↔ ∃ c rest, p c ∧ rest ∈ l ∧ w = c :: rest := by
  rw [Language.mem_mul]
  constructor
  · rintro ⟨_, ⟨c, hc, rfl⟩, rest, hrest, rfl⟩
    exact ⟨c, rest, hc, hrest, rfl⟩
  · rintro ⟨c, rest, hc, hrest, rfl⟩
    exact ⟨[c], ⟨c, hc, rfl⟩, rest, hrest, rfl⟩

theorem mem_exactly_mul {word : String} :
    w ∈ exactly word * l ↔ ∃ rest ∈ l, w = word.toList ++ rest := by
  rw [Language.mem_mul]
  constructor
  · rintro ⟨_, rfl, rest, hrest, rfl⟩
    exact ⟨rest, hrest, rfl⟩
  · rintro ⟨rest, hrest, rfl⟩
    exact ⟨word.toList, rfl, rest, hrest, rfl⟩

theorem mem_mul_exactly {word : String} :
    w ∈ l * exactly word ↔ ∃ front ∈ l, w = front ++ word.toList := by
  rw [Language.mem_mul]
  constructor
  · rintro ⟨front, hfront, _, rfl, rfl⟩
    exact ⟨front, hfront, rfl⟩
  · rintro ⟨front, hfront, rfl⟩
    exact ⟨front, hfront, word.toList, rfl, rfl⟩

/-- A text of one or more characters with a property. -/
theorem mem_atLeastOnce_single :
    w ∈ atLeastOnce (single p) ↔ ∃ c cs, p c ∧ (∀ d ∈ cs, p d) ∧ w = c :: cs := by
  unfold atLeastOnce
  rw [mem_single_mul]
  constructor
  · rintro ⟨c, cs, hc, hcs, rfl⟩
    exact ⟨c, cs, hc, mem_single_kstar.mp hcs, rfl⟩
  · rintro ⟨c, cs, hc, hcs, rfl⟩
    exact ⟨c, cs, hc, mem_single_kstar.mpr hcs, rfl⟩

theorem mem_optionally : w ∈ optionally l ↔ w = [] ∨ w ∈ l := by
  unfold optionally
  rw [Language.mem_add, Language.mem_one]

end Languages

end Pattern

/-! ## Patterns -/

/-- The kinds of tokens. -/
inductive Pattern where
  | number
  | string
  | unterminatedString
  | identifier
  | keyword (word : Keyword)
  | symbol (mark : Symbol)
  | lineComment
  | blockComment
  | blank
deriving DecidableEq

namespace Pattern

def digit : Language Char := range '0' '9'

/-- What a name can begin with. -/
def nameStart : Language Char := range 'a' 'z' + range 'A' 'Z' + oneOf ['_']

/-- What a name can go on with. -/
def namePart : Language Char := nameStart + digit

/-- What stands between the marks of a block comment: characters other than the star, and stars
with a character other than the slash after them. -/
def commented : Language Char := (noneOf ['*'] + exactly "*" * noneOf ['/'])∗

/-- The white space between tokens. -/
def spaces : List Char := [' ', '\t', '\r', '\n', '\x0c']

/-- The texts of a pattern. -/
def language : Pattern → Language Char
  | number => atLeastOnce digit * optionally (exactly "." * atLeastOnce digit)
  | string => exactly "\"" * ((noneOf ['"'])∗ * exactly "\"")
  | unterminatedString => exactly "\"" * (noneOf ['"'])∗
  | identifier => nameStart * namePart∗
  | keyword word => exactly word.text
  | symbol mark => exactly mark.text
  | lineComment => exactly "//" * (noneOf ['\n'])∗
  | blockComment => exactly "/*" * (commented * exactly "*/")
  | blank => atLeastOnce (oneOf spaces)

/-- The token that a text of a pattern is. A number has the value nearest to its digits, a string
has what stands between its quotes. -/
def token : Pattern → List Char → Token
  | number, text => .number (Decimal.ofLiteral text).toFloat
  | string, text => .string (String.ofList text.tail.dropLast)
  | unterminatedString, _ => .unterminatedString
  | identifier, text => .identifier (String.ofList text)
  | keyword word, _ => .keyword word
  | symbol mark, _ => .symbol mark
  | lineComment, _ => .lineComment
  | blockComment, _ => .blockComment
  | blank, _ => .blank

/-- Whether texts of the pattern are left out. -/
def isSkipped : Pattern → Bool
  | lineComment | blockComment | blank => true
  | _ => false

theorem isSkipped_token (p : Pattern) (text : List Char) :
    (p.token text).isSkipped = p.isSkipped := by
  cases p <;> rfl

theorem token_eq_unterminatedString {p : Pattern} {text : List Char} :
    p.token text = .unterminatedString ↔ p = .unterminatedString := by
  cases p <;> simp [token]

/-! ### Character classes

The same classes are decided by functions of the scanner. -/

theorem digit_eq : digit = single (Decimal.isDigit · = true) := by
  apply single_congr
  intro c
  simp [Decimal.isDigit]

theorem nameStart_eq : nameStart = single (isNameStart · = true) := by
  unfold nameStart range oneOf
  rw [single_add, single_add]
  apply single_congr
  intro c
  simp [isNameStart]

theorem namePart_eq : namePart = single (isNamePart · = true) := by
  unfold namePart
  rw [nameStart_eq, digit_eq, single_add]
  apply single_congr
  intro c
  simp [isNamePart]

theorem mem_spaces {c : Char} : c ∈ spaces ↔ isSpace c = true := by
  simp [isSpace, spaces, or_assoc]

/-! ### Membership -/

variable {w : List Char}

theorem mem_number : w ∈ number.language ↔
    ∃ c cs, Decimal.isDigit c = true ∧ (∀ d ∈ cs, Decimal.isDigit d = true) ∧
      (w = c :: cs ∨ ∃ d ds, Decimal.isDigit d = true ∧ (∀ e ∈ ds, Decimal.isDigit e = true) ∧
        w = c :: (cs ++ '.' :: d :: ds)) := by
  unfold language
  rw [digit_eq, Language.mem_mul]
  constructor
  · rintro ⟨_, hwhole, fraction, hfraction, rfl⟩
    obtain ⟨c, cs, hc, hcs, rfl⟩ := mem_atLeastOnce_single.mp hwhole
    refine ⟨c, cs, hc, hcs, ?_⟩
    rcases mem_optionally.mp hfraction with rfl | hpoint
    · left
      rw [List.append_nil]
    · right
      obtain ⟨_, hdigits, rfl⟩ := mem_exactly_mul.mp hpoint
      obtain ⟨d, ds, hd, hds, rfl⟩ := mem_atLeastOnce_single.mp hdigits
      exact ⟨d, ds, hd, hds, rfl⟩
  · rintro ⟨c, cs, hc, hcs, rfl | ⟨d, ds, hd, hds, rfl⟩⟩
    · refine ⟨c :: cs, mem_atLeastOnce_single.mpr ⟨c, cs, hc, hcs, rfl⟩, [],
        mem_optionally.mpr (.inl rfl), List.append_nil _⟩
    · refine ⟨c :: cs, mem_atLeastOnce_single.mpr ⟨c, cs, hc, hcs, rfl⟩, '.' :: d :: ds, ?_, rfl⟩
      apply mem_optionally.mpr (.inr _)
      apply mem_exactly_mul.mpr
      exact ⟨d :: ds, mem_atLeastOnce_single.mpr ⟨d, ds, hd, hds, rfl⟩, rfl⟩

theorem mem_noneOf_kstar {c : Char} : w ∈ (noneOf [c])∗ ↔ c ∉ w := by
  unfold noneOf
  rw [mem_single_kstar]
  constructor
  · intro h hc
    exact h c hc List.mem_cons_self
  · rintro h d hd hin
    rw [List.mem_singleton] at hin
    rw [hin] at hd
    exact h hd

theorem mem_string : w ∈ string.language ↔ ∃ inner, '"' ∉ inner ∧ w = '"' :: (inner ++ ['"']) := by
  unfold language
  rw [mem_exactly_mul]
  constructor
  · rintro ⟨_, hbody, rfl⟩
    obtain ⟨inner, hinner, rfl⟩ := mem_mul_exactly.mp hbody
    exact ⟨inner, mem_noneOf_kstar.mp hinner, rfl⟩
  · rintro ⟨inner, hinner, rfl⟩
    exact ⟨inner ++ ['"'], mem_mul_exactly.mpr ⟨inner, mem_noneOf_kstar.mpr hinner, rfl⟩, rfl⟩

theorem mem_unterminatedString :
    w ∈ unterminatedString.language ↔ ∃ inner, '"' ∉ inner ∧ w = '"' :: inner := by
  unfold language
  rw [mem_exactly_mul]
  constructor
  · rintro ⟨inner, hinner, rfl⟩
    exact ⟨inner, mem_noneOf_kstar.mp hinner, rfl⟩
  · rintro ⟨inner, hinner, rfl⟩
    exact ⟨inner, mem_noneOf_kstar.mpr hinner, rfl⟩

theorem mem_identifier : w ∈ identifier.language ↔
    ∃ c cs, isNameStart c = true ∧ (∀ d ∈ cs, isNamePart d = true) ∧ w = c :: cs := by
  unfold language
  rw [nameStart_eq, namePart_eq, mem_single_mul]
  constructor
  · rintro ⟨c, cs, hc, hcs, rfl⟩
    exact ⟨c, cs, hc, mem_single_kstar.mp hcs, rfl⟩
  · rintro ⟨c, cs, hc, hcs, rfl⟩
    exact ⟨c, cs, hc, mem_single_kstar.mpr hcs, rfl⟩

theorem mem_keyword {k : Keyword} : w ∈ (keyword k).language ↔ w = k.text.toList := Iff.rfl

theorem mem_symbol {s : Symbol} : w ∈ (symbol s).language ↔ w = s.text.toList := Iff.rfl

theorem mem_lineComment :
    w ∈ lineComment.language ↔ ∃ inner, '\n' ∉ inner ∧ w = '/' :: '/' :: inner := by
  unfold language
  rw [mem_exactly_mul]
  constructor
  · rintro ⟨inner, hinner, rfl⟩
    exact ⟨inner, mem_noneOf_kstar.mp hinner, rfl⟩
  · rintro ⟨inner, hinner, rfl⟩
    exact ⟨inner, mem_noneOf_kstar.mpr hinner, rfl⟩

theorem mem_blockComment : w ∈ blockComment.language ↔
    ∃ inner ∈ commented, w = '/' :: '*' :: (inner ++ ['*', '/']) := by
  unfold language
  rw [mem_exactly_mul]
  constructor
  · rintro ⟨_, hbody, rfl⟩
    obtain ⟨inner, hinner, rfl⟩ := mem_mul_exactly.mp hbody
    exact ⟨inner, hinner, rfl⟩
  · rintro ⟨inner, hinner, rfl⟩
    exact ⟨inner ++ ['*', '/'], mem_mul_exactly.mpr ⟨inner, hinner, rfl⟩, rfl⟩

theorem mem_blank : w ∈ blank.language ↔
    ∃ c cs, isSpace c = true ∧ (∀ d ∈ cs, isSpace d = true) ∧ w = c :: cs := by
  have hspace : oneOf spaces = single (isSpace · = true) := single_congr fun c => mem_spaces
  unfold language
  rw [hspace]
  exact mem_atLeastOnce_single

theorem ne_nil_of_mem {p : Pattern} (h : w ∈ p.language) : w ≠ [] := by
  rintro rfl
  cases p with
  | number =>
    obtain ⟨c, cs, -, -, h | ⟨d, ds, -, -, h⟩⟩ := mem_number.mp h <;> cases h
  | string =>
    obtain ⟨inner, -, h⟩ := mem_string.mp h
    cases h
  | unterminatedString =>
    obtain ⟨inner, -, h⟩ := mem_unterminatedString.mp h
    cases h
  | identifier =>
    obtain ⟨c, cs, -, -, h⟩ := mem_identifier.mp h
    cases h
  | keyword k =>
    rw [mem_keyword] at h
    cases k <;> exact absurd h (by decide)
  | symbol s =>
    rw [mem_symbol] at h
    cases s <;> exact absurd h (by decide)
  | lineComment =>
    obtain ⟨inner, -, h⟩ := mem_lineComment.mp h
    cases h
  | blockComment =>
    obtain ⟨inner, -, h⟩ := mem_blockComment.mp h
    cases h
  | blank =>
    obtain ⟨c, cs, -, -, h⟩ := mem_blank.mp h
    cases h

end Pattern

/-! ## First characters -/

/-- What the first character of a text says about the token there. -/
inductive Initial where
  | quote | slash | space | letter | digit | mark
deriving DecidableEq

/-- Characters that begin no token count as marks. -/
def Initial.of (c : Char) : Initial :=
  if c = '"' then .quote
  else if c = '/' then .slash
  else if isSpace c then .space
  else if isNameStart c then .letter
  else if Decimal.isDigit c then .digit
  else .mark

/-- The patterns whose texts begin like that. -/
def Initial.Admits : Initial → Pattern → Prop
  | quote, p => p = .string ∨ p = .unterminatedString
  | slash, p => p = .symbol .slash ∨ p = .lineComment ∨ p = .blockComment
  | space, p => p = .blank
  | letter, p => p = .identifier ∨ ∃ k, p = .keyword k
  | digit, p => p = .number
  | mark, p => ∃ s, p = .symbol s ∧ s ≠ .slash

/-- What holds of no white space fails of it. -/
theorem isSpace_eq_false {c : Char} {f : Char → Bool} (h : f c = true)
    (hf : Pattern.spaces.any f = false) : isSpace c = false := by
  rw [Bool.eq_false_iff]
  intro hs
  exact List.any_eq_false.mp hf c (Pattern.mem_spaces.mpr hs) h

theorem not_isNameStart_of_isDigit {c : Char} (h : Decimal.isDigit c = true) :
    isNameStart c = false := by
  have hle : '0' ≤ c ∧ c ≤ '9' := by simpa [Decimal.isDigit] using h
  rw [Bool.eq_false_iff]
  intro hstart
  have hcases : ('a' ≤ c ∧ c ≤ 'z' ∨ 'A' ≤ c ∧ c ≤ 'Z') ∨ c = '_' := by
    simpa [isNameStart] using hstart
  rcases hcases with (⟨hlow, -⟩ | ⟨hlow, -⟩) | rfl
  · exact absurd (Char.le_trans hlow hle.2) (by decide)
  · exact absurd (Char.le_trans hlow hle.2) (by decide)
  · exact absurd hle.2 (by decide)

namespace Initial

variable {c : Char}

theorem of_space (h : isSpace c = true) : Initial.of c = .space := by
  have hall : Pattern.spaces.all (Initial.of · = .space) = true := rfl
  exact of_decide_eq_true (List.all_eq_true.mp hall c (Pattern.mem_spaces.mpr h))

theorem of_letter (h : isNameStart c = true) : Initial.of c = .letter := by
  have hquote : c ≠ '"' := by rintro rfl; cases h
  have hslash : c ≠ '/' := by rintro rfl; cases h
  have hspace : isSpace c = false := isSpace_eq_false h rfl
  simp [Initial.of, hquote, hslash, hspace, h]

theorem of_digit (h : Decimal.isDigit c = true) : Initial.of c = .digit := by
  have hquote : c ≠ '"' := by rintro rfl; cases h
  have hslash : c ≠ '/' := by rintro rfl; cases h
  have hspace : isSpace c = false := isSpace_eq_false h rfl
  have hletter : isNameStart c = false := not_isNameStart_of_isDigit h
  simp [Initial.of, hquote, hslash, hspace, hletter, h]

end Initial

/-- The first character of a text admits the pattern that the text belongs to. -/
theorem Initial.admits_of_mem {p : Pattern} {c : Char} {w : List Char} (h : c :: w ∈ p.language) :
    (Initial.of c).Admits p := by
  cases p with
  | number =>
    obtain ⟨d, ds, hd, -, heq | ⟨_, _, -, -, heq⟩⟩ := Pattern.mem_number.mp h <;> cases heq <;>
      (rw [of_digit hd]; rfl)
  | string =>
    obtain ⟨inner, -, heq⟩ := Pattern.mem_string.mp h
    cases heq
    exact .inl rfl
  | unterminatedString =>
    obtain ⟨inner, -, heq⟩ := Pattern.mem_unterminatedString.mp h
    cases heq
    exact .inr rfl
  | identifier =>
    obtain ⟨d, ds, hd, -, heq⟩ := Pattern.mem_identifier.mp h
    cases heq
    rw [of_letter hd]
    exact .inl rfl
  | keyword k =>
    have hletter : Initial.of c = .letter := by
      rw [Pattern.mem_keyword] at h
      cases k <;> cases h <;> rfl
    rw [hletter]
    exact .inr ⟨k, rfl⟩
  | symbol s =>
    rw [Pattern.mem_symbol] at h
    cases s with
    | slash =>
      cases h
      exact .inl rfl
    | _ =>
      cases h
      exact ⟨_, rfl, by decide⟩
  | lineComment =>
    obtain ⟨inner, -, heq⟩ := Pattern.mem_lineComment.mp h
    cases heq
    exact .inr (.inl rfl)
  | blockComment =>
    obtain ⟨inner, -, heq⟩ := Pattern.mem_blockComment.mp h
    cases heq
    exact .inr (.inr rfl)
  | blank =>
    obtain ⟨d, ds, hd, -, heq⟩ := Pattern.mem_blank.mp h
    cases heq
    rw [of_space hd]
    rfl

/-- Only a letter can begin a reserved word. -/
theorem Initial.eq_letter {i : Initial} {k : Keyword} (h : i.Admits (.keyword k)) :
    i = .letter := by
  cases i with
  | letter => rfl
  | quote =>
    rcases h with h | h <;> cases h
  | slash =>
    rcases h with h | h | h <;> cases h
  | mark =>
    obtain ⟨s, h, -⟩ := h
    cases h
  | _ => cases h

end Scripting
