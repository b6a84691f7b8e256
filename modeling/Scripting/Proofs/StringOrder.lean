/-
The order of strings.

Strings are compared by their characters, first difference first. Their bytes in UTF-8, compared
first difference first, are in the same order. Take two characters. The one with the greater code
point has at least as many bytes; if it has more, its first byte is greater, and if it has equally
many, the bytes are digits of the code point to the base 64, the most significant first, behind the
same marks. So the bytes of the two differ somewhere before either ends, and the first difference
is the right way round: whatever follows the characters makes no difference, and an induction
over the texts compares the first characters that differ.

What is used of an encoding of characters is only this (`KeepsOrder`). The code points themselves
are another such encoding, with one number for each character.
-/
import Mathlib.Data.String.Basic
import Scripting.Value.Operators

set_option autoImplicit false

namespace Scripting

/-! ## Encodings that keep the order -/

/-- The lists differ before either ends, and where they first do, the first one is less. -/
inductive Below {β : Type} [LT β] : List β → List β → Prop
  | here {x y : β} {r r' : List β} : x < y → Below (x :: r) (y :: r')
  | there {x : β} {r r' : List β} : Below r r' → Below (x :: r) (x :: r')

/-- Whatever follows makes no difference. -/
theorem Below.append_lt {β : Type} [LT β] {l l' : List β} (h : Below l l') (more more' : List β) :
    l ++ more < l' ++ more' := by
  induction h with
  | here hlt => exact List.cons_lt_cons_iff.mpr (.inl hlt)
  | there _ ih => exact List.cons_lt_cons_iff.mpr (.inr ⟨rfl, ih⟩)

/-- An encoding of characters that keeps their order, with something for each of them. -/
structure KeepsOrder {β : Type} [LT β] (encode : Char → List β) : Prop where
  below : ∀ {c d : Char}, c < d → Below (encode c) (encode d)
  ne_nil : ∀ c, encode c ≠ []

section KeepsOrder

variable {β : Type} [LT β] {encode : Char → List β}

/-- A text that comes first still does when it is encoded. By induction on the first difference. -/
theorem KeepsOrder.flatMap_lt (h : KeepsOrder encode) {s t : List Char} (hlt : s < t) :
    s.flatMap encode < t.flatMap encode := by
  induction (hlt : List.Lex (· < ·) s t) with
  | @nil d t =>
    obtain ⟨x, r, hd⟩ := List.exists_cons_of_ne_nil (h.ne_nil d)
    rw [List.flatMap_nil, List.flatMap_cons, hd]
    exact List.nil_lt_cons _ _
  | rel hcd =>
    rw [List.flatMap_cons, List.flatMap_cons]
    exact (h.below hcd).append_lt _ _
  | cons _ ih =>
    rw [List.flatMap_cons, List.flatMap_cons]
    exact List.append_left_lt ih

/-- Of two texts the one whose encoding comes first comes first. -/
theorem KeepsOrder.flatMap_lt_iff [Std.Asymm fun x y : β => x < y] [Std.Irrefl fun x y : β => x < y]
    (h : KeepsOrder encode) {s t : List Char} :
    s.flatMap encode < t.flatMap encode ↔ s < t := by
  refine ⟨fun hlt => ?_, h.flatMap_lt⟩
  rcases lt_trichotomy s t with hst | rfl | hts
  · exact hst
  · exact absurd hlt (List.lt_irrefl _)
  · exact absurd hlt (List.lt_asymm (h.flatMap_lt hts))

end KeepsOrder

/-- The code points keep the order of characters. -/
theorem keepsOrder_toNat : KeepsOrder fun c => [c.toNat] where
  below h := .here h
  ne_nil _ := List.cons_ne_nil _ _

/-! ## The bytes of a character -/

/-- The last `k` digits of a number to the base 64, as bytes that continue a character. -/
def continuation (n : Nat) : Nat → List UInt8
  | 0 => []
  | k + 1 => UInt8.ofNat (n / Nat.pow 64 k % 64 + 128) :: continuation n k

/-- How many bytes continue a character after its first. -/
def continuations (n : Nat) : Nat :=
  if n ≤ 127 then 0 else if n ≤ 2047 then 1 else if n ≤ 65535 then 2 else 3

/-- What the first byte of a character adds to the digits in it, as a mark of how many bytes
follow. -/
def leadMark : Nat → Nat
  | 0 => 0
  | 1 => 192
  | 2 => 224
  | _ => 240

/-- The first byte of a character with `k` more. -/
def leadByte (n k : Nat) : Nat := n / Nat.pow 64 k + leadMark k

theorem toNat_le_max (c : Char) : c.toNat ≤ 1114111 := by
  have h : c.toNat < 55296 ∨ 57343 < c.toNat ∧ c.toNat < 1114112 := c.valid
  omega

/-- How a character is encoded, by its code point. -/
theorem utf8EncodeChar_cases (c : Char) :
    String.utf8EncodeChar c =
      if c.toNat ≤ 127 then [UInt8.ofNat c.toNat]
      else if c.toNat ≤ 2047 then
        [UInt8.ofNat (c.toNat / 64 % 32 + 192), UInt8.ofNat (c.toNat % 64 + 128)]
      else if c.toNat ≤ 65535 then
        [UInt8.ofNat (c.toNat / 4096 % 16 + 224), UInt8.ofNat (c.toNat / 64 % 64 + 128),
          UInt8.ofNat (c.toNat % 64 + 128)]
      else
        [UInt8.ofNat (c.toNat / 262144 % 8 + 240), UInt8.ofNat (c.toNat / 4096 % 64 + 128),
          UInt8.ofNat (c.toNat / 64 % 64 + 128), UInt8.ofNat (c.toNat % 64 + 128)] := rfl

/-- A character is its first byte and its continuation. -/
theorem utf8EncodeChar_eq (c : Char) :
    String.utf8EncodeChar c
      = UInt8.ofNat (leadByte c.toNat (continuations c.toNat))
          :: continuation c.toNat (continuations c.toNat) := by
  have hmax := toNat_le_max c
  rw [utf8EncodeChar_cases]
  generalize c.toNat = n at hmax ⊢
  unfold continuations
  -- The digits in the first byte are all that the code point has in front of the others.
  split_ifs with h7 h11 h16
  · simp [leadByte, leadMark, continuation]
  · have hlead : n / 64 % 32 = n / 64 := by omega
    simp [leadByte, leadMark, continuation, hlead]
  · have hlead : n / 4096 % 16 = n / 4096 := by omega
    simp [leadByte, leadMark, continuation, hlead]
  · have hlead : n / 262144 % 8 = n / 262144 := by omega
    simp [leadByte, leadMark, continuation, hlead]

section Bytes

variable {n m : Nat}

theorem continuations_le (h : n < m) : continuations n ≤ continuations m := by
  unfold continuations
  split_ifs <;> omega

/-- With more bytes to follow, the first one is greater. -/
theorem leadByte_lt_of_continuations (hn : n ≤ 1114111) (h : continuations n < continuations m) :
    leadByte n (continuations n) < leadByte m (continuations m) := by
  unfold continuations at h ⊢
  split_ifs at h ⊢ <;> simp [leadByte, leadMark] at h ⊢ <;> omega

theorem leadByte_lt_size (hn : n ≤ 1114111) : leadByte n (continuations n) < UInt8.size := by
  show leadByte n (continuations n) < 256
  unfold continuations
  split_ifs <;> simp [leadByte, leadMark] <;> omega

/-- Numbers that agree in front of their last `k` digits are compared by these. By induction on
`k`. -/
theorem continuation_below (hlt : n < m) (k : Nat) (h : n / Nat.pow 64 k = m / Nat.pow 64 k) :
    Below (continuation n k) (continuation m k) := by
  induction k with
  | zero =>
    have heq : n / 1 = m / 1 := h
    omega
  | succ k ih =>
    have hdigits : n / Nat.pow 64 k / 64 = m / Nat.pow 64 k / 64 := by
      rw [Nat.div_div_eq_div_mul, Nat.div_div_eq_div_mul]
      exact h
    have hle : n / Nat.pow 64 k ≤ m / Nat.pow 64 k := Nat.div_le_div_right hlt.le
    unfold continuation
    by_cases heq : n / Nat.pow 64 k = m / Nat.pow 64 k
    · rw [heq]
      exact .there (ih heq)
    · apply Below.here
      have hsize : ∀ d, d % 64 + 128 < UInt8.size := fun d => by
        show d % 64 + 128 < 256
        omega
      rw [UInt8.ofNat_lt_iff_lt (hsize _) (hsize _)]
      omega

end Bytes

/-- UTF-8 keeps the order of characters. -/
theorem keepsOrder_utf8EncodeChar : KeepsOrder String.utf8EncodeChar where
  below {c d} h := by
    have hlt : c.toNat < d.toNat := h
    rw [utf8EncodeChar_eq, utf8EncodeChar_eq]
    have hsize := leadByte_lt_size (toNat_le_max c)
    have hsize' := leadByte_lt_size (toNat_le_max d)
    rcases (continuations_le hlt).lt_or_eq with hmore | hsame
    · apply Below.here
      rw [UInt8.ofNat_lt_iff_lt hsize hsize']
      exact leadByte_lt_of_continuations (toNat_le_max c) hmore
    · rw [← hsame] at hsize' ⊢
      generalize continuations c.toNat = k at hsize hsize' ⊢
      have hle : c.toNat / Nat.pow 64 k ≤ d.toNat / Nat.pow 64 k := Nat.div_le_div_right hlt.le
      rcases hle.lt_or_eq with hlead | hlead
      · apply Below.here
        rw [UInt8.ofNat_lt_iff_lt hsize hsize']
        exact Nat.add_lt_add_right hlead _
      · unfold leadByte
        rw [hlead]
        exact .there (continuation_below hlt k hlead)
  ne_nil c := by
    rw [utf8EncodeChar_eq]
    exact List.cons_ne_nil _ _

/-! ## Bytes and code points of a string -/

/-- The bytes of a string in UTF-8. -/
def bytesOf (s : String) : List UInt8 := s.toUTF8.data.toList

/-- The code points of a string. -/
def codePointsOf (s : String) : List Nat := s.toList.map Char.toNat

theorem bytesOf_eq (s : String) : bytesOf s = s.toList.flatMap String.utf8EncodeChar := by
  unfold bytesOf
  rw [String.toUTF8_eq_toByteArray, ← String.utf8Encode_toList]
  exact congrArg Array.toList List.data_toByteArray

/-- **The order of the bytes is that of the characters.** -/
theorem bytesOf_lt_iff {s t : String} : bytesOf s < bytesOf t ↔ s < t := by
  rw [bytesOf_eq, bytesOf_eq, String.lt_iff_toList_lt]
  exact keepsOrder_utf8EncodeChar.flatMap_lt_iff

theorem codePointsOf_lt_iff {s t : String} : codePointsOf s < codePointsOf t ↔ s < t := by
  unfold codePointsOf
  rw [String.lt_iff_toList_lt, List.map_eq_flatMap, List.map_eq_flatMap]
  exact keepsOrder_toNat.flatMap_lt_iff

/-- What two strings both begin with makes no difference. -/
theorem append_lt_append_iff {x s t : String} : x ++ s < x ++ t ↔ s < t := by
  have hfront : ∀ {s t : String}, s < t → x ++ s < x ++ t := by
    intro s t h
    rw [String.lt_iff_toList_lt, String.toList_append, String.toList_append]
    exact List.append_left_lt h
  refine ⟨fun h => ?_, hfront⟩
  rcases lt_trichotomy s t with hst | rfl | hts
  · exact hst
  · exact absurd h (lt_irrefl _)
  · exact absurd h (lt_asymm (hfront hts))

/-! ## The operators -/

theorem less_holds_iff {s t : String} {position : Position} :
    BinaryOperator.less.apply (.string s) (.string t) position = .ok (.bool true) ↔ s < t := by
  have hresult : BinaryOperator.less.apply (.string s) (.string t) position
      = .ok (.bool (decide (s < t))) := rfl
  rw [hresult]
  simp

/-- **Strings are totally ordered by the operators.** Of `<`, `==` and `>` exactly one gives true of
two strings and the others give false; `<=` gives the negation of `>`, and `>=` that of `<`; `==`
is equality. `<` compares the bytes, first difference first, or just as well the code points. It is
transitive, and it makes no difference if the same string is put in front of both. -/
theorem strings_totally_ordered (a b c x : String) (position : Position) :
    (∃ less equal greater : Bool,
      BinaryOperator.less.apply (.string a) (.string b) position = .ok (.bool less) ∧
      BinaryOperator.equal.apply (.string a) (.string b) position = .ok (.bool equal) ∧
      BinaryOperator.greater.apply (.string a) (.string b) position = .ok (.bool greater) ∧
      (less, equal, greater)
        ∈ [(true, false, false), (false, true, false), (false, false, true)] ∧
      BinaryOperator.lessEqual.apply (.string a) (.string b) position = .ok (.bool !greater) ∧
      BinaryOperator.greaterEqual.apply (.string a) (.string b) position = .ok (.bool !less) ∧
      (equal = true ↔ a = b) ∧
      (less = true ↔ bytesOf a < bytesOf b) ∧
      (less = true ↔ codePointsOf a < codePointsOf b)) ∧
    (BinaryOperator.less.apply (.string a) (.string b) position = .ok (.bool true) →
      BinaryOperator.less.apply (.string b) (.string c) position = .ok (.bool true) →
        BinaryOperator.less.apply (.string a) (.string c) position = .ok (.bool true)) ∧
    ∃ xa xb : Value,
      BinaryOperator.add.apply (.string x) (.string a) position = .ok xa ∧
      BinaryOperator.add.apply (.string x) (.string b) position = .ok xb ∧
      (BinaryOperator.less.apply xa xb position = .ok (.bool true) ↔
        BinaryOperator.less.apply (.string a) (.string b) position = .ok (.bool true)) := by
  refine ⟨⟨decide (a < b), a == b, decide (b < a), rfl, rfl, rfl, ?_, rfl, rfl, beq_iff_eq, ?_, ?_⟩,
    ?_, .string (x ++ a), .string (x ++ b), rfl, rfl, ?_⟩
  · rcases lt_trichotomy a b with hlt | rfl | hgt
    · simp [hlt, hlt.ne, hlt.asymm]
    · simp
    · simp [hgt, hgt.ne', hgt.asymm]
  · rw [decide_eq_true_iff, bytesOf_lt_iff]
  · rw [decide_eq_true_iff, codePointsOf_lt_iff]
  · rw [less_holds_iff, less_holds_iff, less_holds_iff]
    exact lt_trans
  · rw [less_holds_iff, less_holds_iff, append_lt_append_iff]

/-- One string begins with the other, and of the next two the first characters have two bytes and
three. -/
theorem strings_totally_ordered_lengths :
    BinaryOperator.less.apply (.string "é") (.string "éa") .start = .ok (.bool true) ∧
      BinaryOperator.less.apply (.string "éa") (.string "€") .start = .ok (.bool true) ∧
      BinaryOperator.less.apply (.string "é") (.string "€") .start = .ok (.bool true) := by
  have hfront : BinaryOperator.less.apply (.string "é") (.string "éa") .start = .ok (.bool true) :=
    less_holds_iff.mpr (by decide)
  have hbytes : BinaryOperator.less.apply (.string "éa") (.string "€") .start = .ok (.bool true) :=
    less_holds_iff.mpr (by decide)
  exact ⟨hfront, hbytes, (strings_totally_ordered "é" "éa" "€" "" .start).2.1 hfront hbytes⟩

end Scripting
