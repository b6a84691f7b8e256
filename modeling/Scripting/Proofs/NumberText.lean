/-
Numbers survive printing.

The text of a finite number is a numeral: digits, and perhaps a point and more digits, with a minus
in front if the sign bit is set. Read as a decimal, its digits are in the rounding interval of the
number, so rounding gives back the same bits. This holds for the two ways of reading: converting the
text to a number, and reading it as a program, where the minus is a token of its own.
-/
import Scripting.Proofs.FloatBits
import Scripting.Proofs.MaximalMunch
import Scripting.Proofs.ShortestDecimal
import Scripting.Value.Builtins

set_option autoImplicit false

namespace Scripting

/-! ## Plain text -/

/-- Text without blanks is left as it is. -/
theorem Text.trimmed_eq_self {text : List Char} (h : ∀ c ∈ text, isBlank c = false) :
    trimmed text = text := by
  have hnone : ∀ {cs : List Char}, (∀ c ∈ cs, isBlank c = false) → cs.dropWhile isBlank = cs := by
    intro cs hcs
    cases cs with
    | nil => rfl
    | cons c cs => rw [List.dropWhile_cons, hcs c List.mem_cons_self, if_neg Bool.false_ne_true]
  unfold trimmed
  rw [hnone h, hnone fun c hc => h c (List.mem_reverse.mp hc), List.reverse_reverse]

/-- Text without line breaks stays on its line. -/
theorem Position.advanceAll_of_not_mem {position : Position} {text : List Char} (h : '\n' ∉ text) :
    position.advanceAll text = ⟨position.line, position.column + text.length⟩ := by
  induction text generalizing position with
  | nil => rfl
  | cons c cs ih =>
    rw [List.mem_cons, not_or] at h
    rw [advanceAll_cons, ih h.2, advance, if_neg (Ne.symm h.1), List.length_cons]
    dsimp only
    rw [Nat.add_assoc, Nat.add_comm 1]

/-! ## Rows of digits -/

namespace Decimal

theorem isDigit_of_mem_toDigits {n : Nat} {c : Char} (h : c ∈ Nat.toDigits 10 n) :
    isDigit c = true :=
  Nat.isDigit_of_mem_toDigits (by decide) (by decide) h

theorem digitsValue_toDigits (n : Nat) : digitsValue (Nat.toDigits 10 n) = n :=
  Nat.ofDigitChars_ten_toDigits

theorem digitsValue_zeros (k : Nat) (text : List Char) :
    digitsValue (List.replicate k '0' ++ text) = digitsValue text := by
  induction k with
  | zero => rfl
  | succ k ih => exact ih

theorem digitsValue_append_zeros (text : List Char) (k : Nat) :
    digitsValue (text ++ List.replicate k '0') = digitsValue text * 10 ^ k := by
  induction k with
  | zero => simp
  | succ k ih =>
    rw [List.replicate_succ', ← List.append_assoc]
    unfold digitsValue at ih ⊢
    rw [List.foldl_append, ih, List.foldl_cons, List.foldl_nil, pow_succ]
    show 10 * _ + 0 = _
    ring

/-! ## Numerals -/

/-- A text made of digits, and perhaps of a point and more digits after them. -/
structure Numeral (text whole fraction : List Char) : Prop where
  spelled : text = whole ++ (if fraction = [] then [] else '.' :: fraction)
  ne_nil : whole ≠ []
  whole_digits : ∀ c ∈ whole, isDigit c = true
  fraction_digits : ∀ c ∈ fraction, isDigit c = true

section

variable {digits : List Char} (hne : digits ≠ []) (hdigits : ∀ c ∈ digits, isDigit c = true)

include hne hdigits

theorem Numeral.followed_by_zeros (k : Nat) :
    Numeral (digits ++ List.replicate k '0') (digits ++ List.replicate k '0') [] where
  spelled := (List.append_nil _).symm
  ne_nil := by simp [hne]
  whole_digits c hc := by
    rcases List.mem_append.mp hc with hc | hc
    · exact hdigits c hc
    · rw [(List.mem_replicate.mp hc).2]
      rfl
  fraction_digits c hc := by cases hc

theorem Numeral.point_before_zeros (k : Nat) :
    Numeral ('0' :: '.' :: (List.replicate k '0' ++ digits)) ['0']
      (List.replicate k '0' ++ digits) where
  spelled := by
    rw [if_neg (by simp [hne])]
    rfl
  ne_nil := by simp
  whole_digits c hc := by
    rw [List.mem_singleton.mp hc]
    rfl
  fraction_digits c hc := by
    rcases List.mem_append.mp hc with hc | hc
    · rw [(List.mem_replicate.mp hc).2]
      rfl
    · exact hdigits c hc

omit hne in
theorem Numeral.point_within {n : Nat} (hpos : 0 < n) (hlt : n < digits.length) :
    Numeral (digits.take n ++ '.' :: digits.drop n) (digits.take n) (digits.drop n) where
  spelled := by
    rw [if_neg]
    rw [List.drop_eq_nil_iff]
    omega
  ne_nil := by
    rw [← List.length_pos_iff, List.length_take]
    omega
  whole_digits c hc := hdigits c (List.mem_of_mem_take hc)
  fraction_digits c hc := hdigits c (List.mem_of_mem_drop hc)

end

/-- **A decimal in full is a numeral** for the same number. -/
theorem exists_numeral_positional (d : Decimal) :
    ∃ whole fraction, Numeral d.positional whole fraction ∧
      (ofDigits whole fraction).value = d.value := by
  have hdigits : ∀ c ∈ Nat.toDigits 10 d.digits, isDigit c = true :=
    fun c hc => isDigit_of_mem_toDigits hc
  have hvalue := digitsValue_toDigits d.digits
  have hne : Nat.toDigits 10 d.digits ≠ [] := Nat.toDigits_ne_nil
  unfold positional
  dsimp only
  generalize Nat.toDigits 10 d.digits = digits at *
  by_cases hexponent : 0 ≤ d.exponent
  · rw [if_pos hexponent]
    refine ⟨_, _, Numeral.followed_by_zeros hne hdigits _, ?_⟩
    obtain ⟨n, hn⟩ := Int.eq_ofNat_of_zero_le hexponent
    unfold ofDigits value
    rw [List.append_nil, digitsValue_append_zeros, hvalue, hn]
    simp
  · rw [if_neg hexponent]
    -- In the other cases the fraction has as many digits as the exponent says.
    have hplaces : -(((-d.exponent).toNat : Nat) : Int) = d.exponent := by omega
    by_cases hfew : (-d.exponent).toNat < digits.length
    · rw [if_pos hfew]
      refine ⟨_, _, Numeral.point_within hdigits (by omega) (by omega), ?_⟩
      have hlength : (digits.drop (digits.length - (-d.exponent).toNat)).length
          = (-d.exponent).toNat := by
        rw [List.length_drop]
        omega
      unfold ofDigits value
      rw [List.take_append_drop, hvalue, hlength, hplaces]
    · rw [if_neg hfew]
      refine ⟨_, _, Numeral.point_before_zeros hne hdigits _, ?_⟩
      have hlength : (List.replicate ((-d.exponent).toNat - digits.length) '0' ++ digits).length
          = (-d.exponent).toNat := by
        rw [List.length_append, List.length_replicate]
        omega
      unfold ofDigits value
      rw [hlength, hplaces, List.singleton_append, ← List.cons_append, ← List.replicate_succ,
        digitsValue_zeros, hvalue]

namespace Numeral

variable {text whole fraction : List Char}

theorem takeWhile_eq (h : Numeral text whole fraction) : text.takeWhile isDigit = whole := by
  rw [h.spelled, List.takeWhile_append_of_pos h.whole_digits]
  split
  · rw [List.takeWhile_nil, List.append_nil]
  · exact List.append_nil _

theorem dropWhile_eq (h : Numeral text whole fraction) :
    text.dropWhile isDigit = if fraction = [] then [] else '.' :: fraction := by
  rw [h.spelled, List.dropWhile_append_of_pos h.whole_digits]
  split <;> rfl

theorem ofLiteral_eq (h : Numeral text whole fraction) :
    ofLiteral text = ofDigits whole fraction := by
  unfold ofLiteral
  rw [h.takeWhile_eq, h.dropWhile_eq]
  split
  case isTrue hnil => rw [hnil, List.drop_nil]
  case isFalse => rfl

theorem readUnsigned?_eq (h : Numeral text whole fraction) :
    readUnsigned? text = some (ofDigits whole fraction) := by
  have hwhole : whole.isEmpty = false := by simp [h.ne_nil]
  unfold readUnsigned?
  rw [h.takeWhile_eq, h.dropWhile_eq]
  by_cases hnil : fraction = []
  · rw [if_pos hnil]
    subst hnil
    simp [hwhole, readExponent?]
  · have htake : fraction.takeWhile isDigit = fraction :=
      List.takeWhile_eq_self_iff.mpr h.fraction_digits
    have hdrop : fraction.dropWhile isDigit = [] := List.dropWhile_eq_nil_iff.mpr h.fraction_digits
    rw [if_neg hnil]
    simp [hwhole, htake, hdrop, readExponent?]

/-- The lexer takes a numeral for a number. -/
theorem mem_number (h : Numeral text whole fraction) : text ∈ Pattern.number.language := by
  obtain ⟨c, cs, rfl⟩ := List.exists_cons_of_ne_nil h.ne_nil
  have hwhole := h.whole_digits
  rw [List.forall_mem_cons] at hwhole
  refine Pattern.mem_number.mpr ⟨c, cs, hwhole.1, hwhole.2, ?_⟩
  rw [h.spelled]
  by_cases hnil : fraction = []
  · left
    rw [if_pos hnil, List.append_nil]
  · right
    obtain ⟨d, ds, rfl⟩ := List.exists_cons_of_ne_nil hnil
    have hfraction := h.fraction_digits
    rw [List.forall_mem_cons] at hfraction
    exact ⟨d, ds, hfraction.1, hfraction.2, by rw [if_neg hnil]; rfl⟩

theorem ne_nil_text (h : Numeral text whole fraction) : text ≠ [] := by
  rw [h.spelled]
  simp [h.ne_nil]

/-- All its characters are digits or the point. -/
theorem cases_of_mem (h : Numeral text whole fraction) {c : Char} (hc : c ∈ text) :
    isDigit c = true ∨ c = '.' := by
  rw [h.spelled] at hc
  rcases List.mem_append.mp hc with hc | hc
  · exact .inl (h.whole_digits c hc)
  · split at hc
    · cases hc
    · rcases List.mem_cons.mp hc with rfl | hc
      · exact .inr rfl
      · exact .inl (h.fraction_digits c hc)

theorem toNat_le (h : Numeral text whole fraction) {c : Char} (hc : c ∈ text) :
    46 ≤ c.toNat ∧ c.toNat ≤ 57 := by
  rcases h.cases_of_mem hc with hdigit | rfl
  · simp only [isDigit, Bool.and_eq_true, decide_eq_true_eq] at hdigit
    have hlow : '0'.toNat ≤ c.toNat := hdigit.1
    have hhigh : c.toNat ≤ '9'.toNat := hdigit.2
    exact ⟨Nat.le_trans (by decide) hlow, hhigh⟩
  · decide

/-! ## Reading a numeral -/

theorem isBlank_eq_false (h : Numeral text whole fraction) {c : Char} (hc : c ∈ text) :
    Text.isBlank c = false := by
  have hrange := h.toNat_le hc
  unfold Text.isBlank Text.blankRanges Text.CodeRanges.has
  simp only [List.any_cons, List.any_nil, Bool.or_false, Bool.or_eq_false_iff,
    Bool.and_eq_false_iff, decide_eq_false_iff_not]
  omega

theorem splitSign_eq (h : Numeral text whole fraction) : splitSign text = (false, text) := by
  unfold splitSign
  split
  · exact absurd (h.toNat_le List.mem_cons_self).1 (by decide)
  · exact absurd (h.toNat_le List.mem_cons_self).1 (by decide)
  · rfl

/-- A numeral with a sign, converted to a number. -/
theorem readFinite?_eq (h : Numeral text whole fraction) (negative : Bool)
    (hfinite : (ofDigits whole fraction).bits < Binary64.infinityBits) :
    readFinite? ((if negative then ['-'] else []) ++ text)
      = some (Binary64.ofMagnitude negative (ofDigits whole fraction).bits) := by
  have hsplit : splitSign ((if negative then ['-'] else []) ++ text) = (negative, text) := by
    cases negative with
    | false => exact h.splitSign_eq
    | true => rfl
  unfold readFinite?
  rw [hsplit]
  dsimp only
  rw [h.readUnsigned?_eq]
  dsimp only
  rw [if_pos hfinite]

theorem longest (h : Numeral text whole fraction) : Longest (text ++ []) .number text where
  mem := h.mem_number
  front := List.prefix_append _ _
  ne_nil := h.ne_nil_text
  longest q other _ hfront := by
    rw [List.append_nil] at hfront
    exact hfront.length_le
  reserved k hk := by
    obtain ⟨c, cs, hc, -, heq⟩ := Pattern.mem_number.mp h.mem_number
    have hletter : Initial.of c ≠ .letter := by
      rw [Initial.of_digit hc]
      decide
    rcases heq with rfl | ⟨d, ds, -, -, rfl⟩
    · exact not_reserved hletter k hk
    · exact not_reserved hletter k hk

/-- A numeral, read as a program. -/
theorem readFrom_eq (h : Numeral text whole fraction) (position : Position)
    (read : List Lexeme) :
    readFrom position read text
      = .ok (Lexeme.mk .endOfInput "" ⟨position.line, position.column + text.length⟩
          :: ⟨.number (ofDigits whole fraction).toFloat, String.ofList text, position⟩
          :: read).reverse := by
  have hnewline : '\n' ∉ text := fun hin => absurd (h.toNat_le hin).1 (by decide)
  have hstep : readFrom position read (text ++ []) = _ :=
    readFrom_of_longest h.longest (by decide)
  rw [List.append_nil] at hstep
  rw [hstep, Position.advanceAll_of_not_mem hnewline, readFrom]
  show Except.ok (Lexeme.mk .endOfInput "" _
    :: ⟨.number (ofLiteral text).toFloat, String.ofList text, position⟩ :: read).reverse = _
  rw [h.ofLiteral_eq]

end Numeral

end Decimal

/-! ## The text of a number -/

namespace Binary64

open Decimal RoundingInterval

/-- The text of a magnitude is a numeral that is rounded to it. -/
theorem exists_numeral {m : Nat} {q : Int} (hlegal : Legal m q) :
    ∃ whole fraction,
      Numeral (if m = 0 then ['0'] else (ofParts m q).shortest.positional) whole fraction ∧
        (ofDigits whole fraction).bits = magnitude m q := by
  by_cases hm : m = 0
  · subst hm
    rw [if_pos rfl]
    refine ⟨['0'], [], ⟨rfl, by simp, ?_, fun c hc => by cases hc⟩, ?_⟩
    · intro c hc
      rw [List.mem_singleton.mp hc]
      rfl
    · rw [magnitude, hlegal.normal (by decide)]
      rfl
  · rw [if_neg hm]
    have hpos := Nat.pos_of_ne_zero hm
    obtain ⟨whole, fraction, hnumeral, hvalue⟩ :=
      exists_numeral_positional (ofParts m q).shortest
    refine ⟨whole, fraction, hnumeral, ?_⟩
    apply Contains.bits_eq hpos hlegal
    rw [hvalue]
    exact shortest_contains hpos hlegal.mantissa

/-- **What is printed.** A minus if the sign bit is set, and a numeral that is rounded to the other
bits. -/
theorem exists_characters {x : Float} (h : x.isFinite = true) :
    ∃ text whole fraction,
      characters x = (if decide (2 ^ 63 ≤ x.toBits.toNat) then ['-'] else []) ++ text ∧
        Numeral text whole fraction ∧ (ofDigits whole fraction).bits = x.toBits.toNat % 2 ^ 63 ∧
        (ofDigits whole fraction).bits < infinityBits := by
  obtain ⟨m, q, hparts, hlegal, hmagnitude⟩ := parts_of_isFinite h
  obtain ⟨whole, fraction, hnumeral, hbits⟩ := exists_numeral hlegal
  refine ⟨_, whole, fraction, ?_, hnumeral, hbits.trans hmagnitude, ?_⟩
  · unfold characters
    rw [hparts]
  · rw [hbits]
    exact hlegal.magnitude_lt

section

variable {x : Float} (h : x.isFinite = true)

include h

/-- The text of a finite number, converted to a number. -/
theorem readFinite?_trimmed : readFinite? (Text.trimmed (text x).toList) = some x := by
  obtain ⟨digits, whole, fraction, hcharacters, hnumeral, hbits, hfinite⟩ := exists_characters h
  have htrimmed : Text.trimmed (characters x) = characters x := by
    apply Text.trimmed_eq_self
    intro c hc
    rw [hcharacters] at hc
    rcases List.mem_append.mp hc with hc | hc
    · split at hc
      · rw [List.mem_singleton.mp hc]
        rfl
      · cases hc
    · exact hnumeral.isBlank_eq_false hc
  rw [text, String.toList_ofList, htrimmed, hcharacters, hnumeral.readFinite?_eq _ hfinite, hbits,
    ofMagnitude_toBits]

/-- The text of a number without sign, read as a program. -/
theorem tokenize_text_of_lt (hsign : x.toBits.toNat < 2 ^ 63) :
    tokenize (text x) = .ok [⟨.number x, text x, .start⟩,
      ⟨.endOfInput, "", ⟨1, (text x).length + 1⟩⟩] := by
  obtain ⟨digits, whole, fraction, hcharacters, hnumeral, hbits, -⟩ := exists_characters h
  have hwhole := ofMagnitude_toBits x
  rw [decide_eq_false (Nat.not_le.mpr hsign)] at hcharacters hwhole
  rw [if_neg Bool.false_ne_true, List.nil_append] at hcharacters
  have hvalue : (ofDigits whole fraction).toFloat = x := by
    rw [toFloat, hbits, hwhole]
  unfold text
  rw [tokenize_eq_readFrom, String.toList_ofList, String.length_ofList, hcharacters,
    hnumeral.readFrom_eq, hvalue, Nat.add_comm]
  rfl

/-- The text of a number with a sign, read as a program. -/
theorem tokenize_text_of_le (hsign : 2 ^ 63 ≤ x.toBits.toNat) :
    ∃ digits : String, text x = "-" ++ digits ∧
      tokenize (text x) = .ok [⟨.symbol .minus, "-", .start⟩, ⟨.number x.abs, digits, ⟨1, 2⟩⟩,
        ⟨.endOfInput, "", ⟨1, (text x).length + 1⟩⟩] := by
  obtain ⟨digits, whole, fraction, hcharacters, hnumeral, hbits, -⟩ := exists_characters h
  rw [decide_eq_true hsign] at hcharacters
  have hvalue : (ofDigits whole fraction).toFloat = x.abs := by
    rw [toFloat, hbits, abs_eq]
  rw [if_pos rfl] at hcharacters
  refine ⟨String.ofList digits, ?_, ?_⟩
  · rw [text, hcharacters, String.ofList_append]
  · have hminus : readFrom .start [] (['-'] ++ digits)
        = readFrom ⟨1, 2⟩ [⟨.symbol .minus, "-", .start⟩] digits :=
      readFrom_of_longest (Longest.of_singleSymbol? rfl rfl rfl _) (by decide)
    unfold text
    rw [tokenize_eq_readFrom, String.toList_ofList, String.length_ofList, hcharacters, hminus,
      hnumeral.readFrom_eq, hvalue, List.length_append, Nat.add_right_comm]
    rfl

end

/-- **Numbers survive printing.** The text of a finite number is converted back to the same number,
bit for bit. Read as a program, it is that number alone; with the sign bit set, it is a minus and
the number without its sign. -/
theorem text_reads_back {x : Float} (h : x.isFinite = true) (now now' : Float)
    (position position' : Position) :
    Builtin.str.apply [.number x] now position = .ok (.string (text x)) ∧
      Builtin.num.apply [.string (text x)] now' position' = .ok (.number x) ∧
      (x.toBits.toNat < 2 ^ 63 →
        tokenize (text x) = .ok [⟨.number x, text x, .start⟩,
          ⟨.endOfInput, "", ⟨1, (text x).length + 1⟩⟩]) ∧
      (2 ^ 63 ≤ x.toBits.toNat →
        ∃ digits : String, text x = "-" ++ digits ∧
          tokenize (text x) = .ok [⟨.symbol .minus, "-", .start⟩, ⟨.number x.abs, digits, ⟨1, 2⟩⟩,
            ⟨.endOfInput, "", ⟨1, (text x).length + 1⟩⟩]) := by
  refine ⟨rfl, ?_, tokenize_text_of_lt h, tokenize_text_of_le h⟩
  unfold Builtin.apply
  simp only [Builtin.single, bind, Except.bind]
  rw [readFinite?_trimmed h]

/-- The negative number next to zero, with 323 zeros between the point and its digit. -/
def belowZero : Float := Float.ofBits 0x8000000000000001

theorem belowZero_reads_back :
    belowZero.isFinite = true ∧ 2 ^ 63 ≤ belowZero.toBits.toNat ∧
      Builtin.num.apply [.string (text belowZero)] 0 .start = .ok (.number belowZero) ∧
      ∃ digits : String, text belowZero = "-" ++ digits ∧
        tokenize (text belowZero) = .ok [⟨.symbol .minus, "-", .start⟩,
          ⟨.number belowZero.abs, digits, ⟨1, 2⟩⟩,
          ⟨.endOfInput, "", ⟨1, (text belowZero).length + 1⟩⟩] := by
  have hfinite : belowZero.isFinite = true := by decide +kernel
  have hsign : 2 ^ 63 ≤ belowZero.toBits.toNat := by decide +kernel
  obtain ⟨-, hnum, -, hnegative⟩ := text_reads_back hfinite 0 0 .start .start
  exact ⟨hfinite, hsign, hnum, hnegative hsign⟩

end Binary64

end Scripting
