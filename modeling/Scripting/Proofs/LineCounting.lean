/-
Finding a line is counting newlines.

The table of line starts is made for being asked about byte offsets, and a text is a row of
characters. Two counts bring them together. The lines that start no later than an offset are as many
as the newline bytes in front of it, even if the offset lies inside of a character: of the bytes of
a character none is a newline byte unless the character is a newline. And from the start of its
line up to an offset between two characters there are as many characters as `Position.advance` would
have stepped over. So at every offset between two characters the table gives the place that one
comes to by reading the text from the left.
-/
import Mathlib.Data.List.Infix
import Mathlib.Data.Prod.Lex
import Scripting.Proofs.LineSearch

set_option autoImplicit false

namespace Scripting

/-! ## Positions -/

namespace Position

/-- The place right behind a text, by counting: one line for each newline, and in the last line one
column for each character. -/
def behind (text : List Char) : Position where
  line := 1 + text.count '\n'
  column := 1 + (text.reverse.takeWhile (· ≠ '\n')).length

theorem behind_concat (text : List Char) (c : Char) :
    behind (text ++ [c]) = (behind text).advance c := by
  unfold behind advance
  by_cases hc : c = '\n'
  · simp [hc]
    omega
  · simp [hc, Nat.add_comm]

/-- Going over a text character by character is counting. -/
theorem advanceAll_start (text : List Char) : start.advanceAll text = behind text := by
  induction text using List.reverseRecOn with
  | nil => rfl
  | append_singleton text c ih =>
    rw [advanceAll_append, ih, behind_concat]
    rfl

theorem behind_append (text more : List Char) :
    behind (text ++ more) = (behind text).advanceAll more := by
  rw [← advanceAll_start, advanceAll_append, advanceAll_start]

/-- Positions are in the order of their lines, and in a line of their columns. -/
instance : LinearOrder Position :=
  LinearOrder.lift' (fun p => toLex (p.line, p.column)) fun p q h => by
    obtain ⟨hline, hcolumn⟩ := Prod.mk.inj (toLex.injective h)
    cases p
    cases q
    simp_all

theorem lt_iff {p q : Position} :
    p < q ↔ p.line < q.line ∨ p.line = q.line ∧ p.column < q.column :=
  Prod.Lex.toLex_lt_toLex

theorem lt_advance (p : Position) (c : Char) : p < p.advance c := by
  rw [lt_iff]
  unfold advance
  split
  · exact .inl (Nat.lt_succ_self p.line)
  · exact .inr ⟨rfl, Nat.lt_succ_self p.column⟩

theorem le_advanceAll (p : Position) (text : List Char) : p ≤ p.advanceAll text := by
  induction text generalizing p with
  | nil => exact le_rfl
  | cons c cs ih => exact (p.lt_advance c).le.trans (ih (p.advance c))

theorem lt_advanceAll (p : Position) {text : List Char} (h : text ≠ []) :
    p < p.advanceAll text := by
  obtain ⟨c, cs, rfl⟩ := List.exists_cons_of_ne_nil h
  exact (p.lt_advance c).trans_le ((p.advance c).le_advanceAll cs)

end Position

/-! ## Bytes -/

@[simp] theorem byteLength_nil : byteLength [] = 0 := rfl

theorem byteLength_foldl (n : Nat) (text : List Char) :
    text.foldl (fun size c => size + c.utf8Size) n = n + byteLength text := by
  unfold byteLength
  induction text generalizing n with
  | nil => rfl
  | cons c cs ih =>
    rw [List.foldl_cons, List.foldl_cons, ih, ih (0 + c.utf8Size)]
    omega

@[simp] theorem byteLength_cons (c : Char) (cs : List Char) :
    byteLength (c :: cs) = c.utf8Size + byteLength cs := by
  have h := byteLength_foldl (0 + c.utf8Size) cs
  rw [Nat.zero_add] at h
  rw [← h]
  simp [byteLength]

theorem byteLength_append (cs ds : List Char) :
    byteLength (cs ++ ds) = byteLength cs + byteLength ds := by
  induction cs with
  | nil => simp
  | cons c cs ih =>
    rw [List.cons_append, byteLength_cons, byteLength_cons, ih]
    omega

/-- A text as bytes. -/
def utf8Bytes (text : List Char) : List UInt8 := text.flatMap String.utf8EncodeChar

theorem byteLength_eq_length (text : List Char) : byteLength text = (utf8Bytes text).length := by
  induction text with
  | nil => rfl
  | cons c cs ih =>
    rw [byteLength_cons, ih, utf8Bytes, utf8Bytes, List.flatMap_cons, List.length_append,
      String.length_utf8EncodeChar]

/-- The byte of a newline. -/
def newlineByte : UInt8 := 10

theorem utf8EncodeChar_newline : String.utf8EncodeChar '\n' = [newlineByte] := by decide

/-- The bytes of a character that takes more than one are all above 127. -/
theorem le_toNat_of_mem_utf8EncodeChar {c : Char} (h : 127 < c.val.toNat) {b : UInt8}
    (hb : b ∈ String.utf8EncodeChar c) : 128 ≤ b.toNat := by
  rw [String.utf8EncodeChar, if_neg (Nat.not_le.mpr h)] at hb
  -- Two, three or four bytes.
  split at hb
  · simp only [List.mem_cons, List.not_mem_nil, or_false] at hb
    rcases hb with rfl | rfl <;> rw [UInt8.toNat_ofNat'] <;> omega
  · split at hb
    · simp only [List.mem_cons, List.not_mem_nil, or_false] at hb
      rcases hb with rfl | rfl | rfl <;> rw [UInt8.toNat_ofNat'] <;> omega
    · simp only [List.mem_cons, List.not_mem_nil, or_false] at hb
      rcases hb with rfl | rfl | rfl | rfl <;> rw [UInt8.toNat_ofNat'] <;> omega

/-- Only the newline has a newline byte. -/
theorem newlineByte_not_mem {c : Char} (h : c ≠ '\n') :
    newlineByte ∉ String.utf8EncodeChar c := by
  intro hmem
  by_cases hone : c.val.toNat ≤ 127
  · rw [String.utf8EncodeChar, if_pos hone, List.mem_singleton] at hmem
    have hten : (10 : Nat) = c.val.toNat % 256 := by
      rw [← UInt8.toNat_ofNat', ← hmem]
      rfl
    have hval : c.val.toNat = '\n'.val.toNat := by
      rw [Nat.mod_eq_of_lt (by omega)] at hten
      exact hten.symm
    exact h (Char.ext (UInt32.toNat_inj.mp hval))
  · have hhigh := le_toNat_of_mem_utf8EncodeChar (Nat.not_le.mp hone) hmem
    exact absurd hhigh (by decide)

/-! ## Lines -/

/-- No later line starts at or before the place where the rest of the text begins. -/
theorem takeWhile_laterLines_eq_nil {start offset : Nat} (h : offset ≤ start) (text : List Char) :
    (laterLines start text).takeWhile (·.offset ≤ offset) = [] := by
  cases hlines : laterLines start text with
  | nil => rfl
  | cons line rest =>
    have hlt : start < line.offset := lt_offset_of_mem_laterLines (hlines ▸ List.mem_cons_self)
    exact List.takeWhile_cons_of_neg (by simpa using Nat.lt_of_le_of_lt h hlt)

/-- **The lines that start no later than an offset are as many as the newline bytes before it.** -/
theorem length_takeWhile_laterLines (start offset : Nat) (text : List Char) :
    ((laterLines start text).takeWhile (·.offset ≤ offset)).length
      = ((utf8Bytes text).take (offset - start)).count newlineByte := by
  induction text generalizing start with
  | nil => simp [laterLines, utf8Bytes]
  | cons c cs ih =>
    have hbytes : utf8Bytes (c :: cs) = String.utf8EncodeChar c ++ utf8Bytes cs :=
      List.flatMap_cons
    have hrest : offset - start - c.utf8Size = offset - (start + c.utf8Size) := by omega
    rw [hbytes, List.take_append, String.length_utf8EncodeChar, hrest, List.count_append,
      ← ih (start + c.utf8Size), laterLines]
    by_cases hc : c = '\n'
    · subst hc
      have hsize : '\n'.utf8Size = 1 := by decide
      rw [if_pos rfl, hsize, utf8EncodeChar_newline]
      by_cases hle : start + 1 ≤ offset
      · obtain ⟨k, hk⟩ : ∃ k, offset - start = k + 1 := ⟨offset - start - 1, by omega⟩
        rw [List.takeWhile_cons_of_pos (by simpa using hle), hk]
        simp [Nat.add_comm]
      · -- The offset stands at the newline or before it, so neither count goes on.
        have hzero : offset - start = 0 := by omega
        have hlater := takeWhile_laterLines_eq_nil (by omega : offset ≤ start + 1) cs
        rw [List.takeWhile_cons_of_neg (by simpa using hle), hzero, hlater]
        simp
    · rw [if_neg hc]
      have hnone : newlineByte ∉ (String.utf8EncodeChar c).take (offset - start) :=
        fun hmem => newlineByte_not_mem hc (List.mem_of_mem_take hmem)
      rw [List.count_eq_zero_of_not_mem hnone, Nat.zero_add]

/-! ## Columns -/

theorem charactersWithin_append (before after : List Char) :
    charactersWithin (before ++ after) (byteLength before) = some before.length := by
  induction before with
  | nil => simp [charactersWithin]
  | cons c cs ih =>
    -- A character takes at least one byte.
    obtain ⟨n, hn⟩ : ∃ n, byteLength (c :: cs) = n + 1 := by
      have hpos := c.utf8Size_pos
      exact ⟨byteLength (c :: cs) - 1, by rw [byteLength_cons]; omega⟩
    have hrest : n + 1 - c.utf8Size = byteLength cs := by
      rw [byteLength_cons] at hn
      omega
    have hfits : c.utf8Size ≤ n + 1 := by
      rw [byteLength_cons] at hn
      omega
    rw [hn, List.cons_append, charactersWithin, if_pos hfits, hrest, ih]
    rfl

/-- The place of an offset in the line `first`, which has this number, or in one of the later
lines. -/
def Line.locate (first : Line) (later : List Line) (number offset : Nat) : Position :=
  let earlier := later.takeWhile (·.offset ≤ offset)
  let line := earlier.getLast?.getD first
  let bytes := offset - line.offset
  ⟨earlier.length + number, (charactersWithin line.text bytes).getD bytes + 1⟩

theorem LineIndex.position_eq_locate (index : LineIndex) (offset : Nat) :
    index.position offset = index.first.locate index.later 1 (min offset index.size) := rfl

/-- A later line that has begun takes the place of the first one. -/
theorem Line.locate_cons {first line : Line} {later : List Line} {number offset : Nat}
    (h : line.offset ≤ offset) :
    first.locate (line :: later) number offset = line.locate later (number + 1) offset := by
  unfold locate
  rw [List.takeWhile_cons_of_pos (by simpa using h)]
  dsimp only
  rw [List.getLast?_cons, Option.getD_some, List.length_cons, Nat.add_right_comm, Nat.add_assoc]

/-- **Looking up is going over the text.** Some of a line has been `seen`, and `before` is the text
from there to the offset. The induction is on that text: a newline in it begins the next line, of
which nothing has been seen, and any other character has been seen from then on. -/
theorem Line.locate_laterLines (number : Nat) (first : Line) (seen before after : List Char)
    (hfirst : first.text = seen ++ (before ++ after)) :
    first.locate (laterLines (first.offset + byteLength seen) (before ++ after)) number
        (first.offset + byteLength seen + byteLength before)
      = Position.advanceAll ⟨number, seen.length + 1⟩ before := by
  induction before generalizing number first seen with
  | nil =>
    have hnone := takeWhile_laterLines_eq_nil (Nat.le_refl (first.offset + byteLength seen)) after
    rw [List.nil_append] at hfirst
    unfold locate
    dsimp only
    rw [byteLength_nil, Nat.add_zero, List.nil_append, hnone, List.getLast?_nil, Option.getD_none,
      Nat.add_sub_cancel_left, hfirst, charactersWithin_append, List.length_nil, Nat.zero_add]
    rfl
  | cons c cs ih =>
    rw [List.cons_append] at hfirst
    rw [byteLength_cons, List.cons_append, laterLines, Position.advanceAll_cons, Position.advance]
    by_cases hc : c = '\n'
    · subst hc
      rw [if_pos rfl, if_pos rfl]
      have hbegun : first.offset + byteLength seen + '\n'.utf8Size
          ≤ first.offset + byteLength seen + ('\n'.utf8Size + byteLength cs) := by omega
      have hnext := ih (number + 1) ⟨first.offset + byteLength seen + '\n'.utf8Size, cs ++ after⟩
        [] rfl
      rw [byteLength_nil, Nat.add_zero] at hnext
      rw [locate_cons hbegun, ← Nat.add_assoc]
      exact hnext
    · rw [if_neg hc, if_neg hc]
      have hnext := ih number first (seen ++ [c]) (by simpa using hfirst)
      rw [byteLength_append, byteLength_cons, byteLength_nil, Nat.add_zero, ← Nat.add_assoc,
        List.length_append] at hnext
      rw [← Nat.add_assoc]
      exact hnext

/-- **Between two characters the table gives the place that counting leads to.** -/
theorem LineIndex.position_byteLength (before after : List Char) :
    (ofText (before ++ after)).position (byteLength before) = Position.behind before := by
  have hle : byteLength before ≤ byteLength (before ++ after) := by
    rw [byteLength_append]
    exact Nat.le_add_right _ _
  have hlocate := Line.locate_laterLines 1 ⟨0, before ++ after⟩ [] before after rfl
  rw [byteLength_nil, Nat.add_zero, Nat.zero_add] at hlocate
  rw [position_eq_locate, ← Position.advanceAll_start]
  change Line.locate ⟨0, before ++ after⟩ (laterLines 0 (before ++ after)) 1
    (min (byteLength before) (byteLength (before ++ after))) = _
  rw [Nat.min_eq_left hle]
  exact hlocate

/-- The end of the table is the place that counting all of the text leads to. -/
theorem LineIndex.endPosition_ofText (text : List Char) :
    (ofText text).endPosition = Position.behind text := by
  have hplace := position_byteLength text []
  rw [List.append_nil] at hplace
  exact hplace

/-- A front of a text is followed by a later place than a shorter front. -/
theorem LineIndex.position_mono {text front longer : List Char} (hfront : front <+: text)
    (hlonger : longer <+: text) (hlt : byteLength front < byteLength longer) :
    (ofText text).position (byteLength front) < (ofText text).position (byteLength longer) := by
  have hshorter : front <+: longer := by
    rcases List.prefix_or_prefix_of_prefix hfront hlonger with h | ⟨more, rfl⟩
    · exact h
    · rw [byteLength_append] at hlt
      omega
  obtain ⟨between, rfl⟩ := hshorter
  have hne : between ≠ [] := by
    rintro rfl
    rw [List.append_nil] at hlt
    exact Nat.lt_irrefl _ hlt
  obtain ⟨after, rfl⟩ := hlonger
  have hplace := position_byteLength front (between ++ after)
  rw [← List.append_assoc] at hplace
  rw [hplace, position_byteLength, ← Position.advanceAll_start, ← Position.advanceAll_start,
    Position.advanceAll_append]
  exact Position.lt_advanceAll _ hne

/-- An offset past the end stands for the end. -/
theorem LineIndex.position_min (index : LineIndex) (offset : Nat) :
    index.position (min offset index.size) = index.position offset := by
  unfold position
  rw [Nat.min_assoc, Nat.min_self]

/-! ## Strings -/

theorem toList_toByteArray (s : String) : s.toByteArray.data.toList = utf8Bytes s.toList := by
  have h : (String.ofList s.toList).toByteArray.data.toList = utf8Bytes s.toList := by
    rw [String.toByteArray_ofList, List.utf8Encode, List.data_toByteArray]
    rfl
  rwa [String.ofList_toList] at h

theorem utf8ByteSize_eq_byteLength (s : String) : s.utf8ByteSize = byteLength s.toList := by
  rw [byteLength_eq_length, ← toList_toByteArray]
  rfl

/-- An offset between two characters is the length of a front of the text. -/
theorem exists_front_of_isValid {source : String} {p : String.Pos.Raw} (h : p.IsValid source) :
    ∃ front, front <+: source.toList ∧ p.byteIdx = byteLength front := by
  obtain ⟨before, after, rfl, rfl⟩ := String.Pos.Raw.isValid_iff_exists_append.mp h
  refine ⟨before.toList, ?_, utf8ByteSize_eq_byteLength before⟩
  rw [String.toList_append]
  exact List.prefix_append _ _

/-- **Looking up agrees with counting.** The line of an offset is one more than the newline bytes
before it, and offsets past the end count as the end. If the offset stands between two characters,
its column is one more than the characters behind the last newline before it. Of two such offsets
the greater one has the later position. The end is the position of the length of the text, and no
offset between two characters has a later one. -/
theorem LineIndex.position_counts (source : String) :
    (∀ offset, ((ofText source.toList).position offset).line
        = 1 + (source.toByteArray.data.toList.take (min offset source.utf8ByteSize)).count 10) ∧
    (∀ offset (before after : String), source = before ++ after →
      before.utf8ByteSize = min offset source.utf8ByteSize →
      ((ofText source.toList).position offset).column
        = 1 + (before.toList.reverse.takeWhile (· ≠ '\n')).length) ∧
    (∀ p q : String.Pos.Raw, p.IsValid source → q.IsValid source → p < q →
      (ofText source.toList).position p.byteIdx < (ofText source.toList).position q.byteIdx) ∧
    (ofText source.toList).endPosition
      = (ofText source.toList).position source.utf8ByteSize ∧
    ∀ offset, String.Pos.Raw.IsValid source ⟨min offset source.utf8ByteSize⟩ →
      (ofText source.toList).position offset ≤ (ofText source.toList).endPosition := by
  have hsize : source.utf8ByteSize = (ofText source.toList).size :=
    utf8ByteSize_eq_byteLength source
  have hend : (ofText source.toList).endPosition
      = (ofText source.toList).position source.utf8ByteSize := by
    rw [hsize]
    rfl
  refine ⟨fun offset => ?_, fun offset before after hsource hbefore => ?_, ?_, hend, ?_⟩
  · have hlines :=
      length_takeWhile_laterLines 0 (min offset (ofText source.toList).size) source.toList
    rw [Nat.sub_zero, ← toList_toByteArray] at hlines
    rw [hsize, Nat.add_comm]
    exact congrArg (· + 1) hlines
  · have hplace := position_byteLength before.toList after.toList
    rw [← String.toList_append, ← hsource, ← utf8ByteSize_eq_byteLength, hbefore, hsize,
      position_min] at hplace
    rw [hplace]
    rfl
  · intro p q hp hq hlt
    obtain ⟨front, hfront, hpfront⟩ := exists_front_of_isValid hp
    obtain ⟨longer, hlonger, hqlonger⟩ := exists_front_of_isValid hq
    rw [hpfront, hqlonger]
    apply position_mono hfront hlonger
    rw [← hpfront, ← hqlonger]
    exact hlt
  · intro offset hvalid
    obtain ⟨front, hfront, hmin⟩ := exists_front_of_isValid hvalid
    have hplace : (ofText source.toList).position offset
        = (ofText source.toList).position (byteLength front) := by
      rw [← hmin, hsize, position_min]
    have hle : byteLength front ≤ byteLength source.toList := by
      obtain ⟨after, hafter⟩ := hfront
      rw [← hafter, byteLength_append]
      exact Nat.le_add_right _ _
    rw [hplace, hend, utf8ByteSize_eq_byteLength]
    rcases Nat.lt_or_eq_of_le hle with hlt | heq
    · exact (position_mono hfront (List.prefix_refl _) hlt).le
    · rw [heq]

/-- A text of two lines, the first with two bytes for its second character. -/
def accented : String := "aé\nb"

/-- The second byte of `é` has a line but no column of characters; `b` has both, and stands behind
the newline; and what is past the end stands at the end. -/
theorem position_counts_accented :
    ((LineIndex.ofText accented.toList).position 2).line = 1 ∧
      ((LineIndex.ofText accented.toList).position 4).column = 1 ∧
      (LineIndex.ofText accented.toList).position 3
        < (LineIndex.ofText accented.toList).position 4 ∧
      (LineIndex.ofText accented.toList).position 9
        ≤ (LineIndex.ofText accented.toList).endPosition := by
  obtain ⟨hline, hcolumn, hmono, -, hend⟩ := LineIndex.position_counts accented
  have hbetween : ∀ before after : String, accented = before ++ after →
      before.rawEndPos.IsValid accented := fun before after h =>
    String.Pos.Raw.isValid_iff_exists_append.mpr ⟨before, after, h, rfl⟩
  refine ⟨?_, ?_, ?_, ?_⟩
  · rw [hline]
    decide +kernel
  · rw [hcolumn 4 "aé\n" "b" (by decide +kernel) (by decide +kernel)]
    decide +kernel
  · exact hmono ⟨3⟩ ⟨4⟩ (hbetween "aé" "\nb" (by decide +kernel))
      (hbetween "aé\n" "b" (by decide +kernel)) (by decide +kernel)
  · exact hend 9 (hbetween accented "" (by decide +kernel))

end Scripting
