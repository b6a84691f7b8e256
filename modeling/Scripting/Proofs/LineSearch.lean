/-
Looking a line up.

The lines of a text start at ever larger byte offsets, the first of them at zero. A search for an
offset in such a row has one of two answers: a place where the offset stands, or, if it stands
nowhere, the place where it would have to be put in. In the second case that place is never the
front, since no offset is less than zero; the line is the one before it. Whatever the answer, it
leads to the line that `LineIndex.position` counts to.
-/
import Scripting.Position

set_option autoImplicit false

namespace Scripting

/-! ## Rows of offsets -/

theorem lt_offset_of_mem_laterLines {offset : Nat} {text : List Char} {line : Line}
    (h : line ∈ laterLines offset text) : offset < line.offset := by
  induction text generalizing offset with
  | nil => cases h
  | cons c cs ih =>
    have hstep : offset < offset + c.utf8Size := Nat.lt_add_of_pos_right c.utf8Size_pos
    rw [laterLines] at h
    split at h
    · rcases List.mem_cons.mp h with rfl | hin
      · exact hstep
      · exact Nat.lt_trans hstep (ih hin)
    · exact Nat.lt_trans hstep (ih h)

/-- Later lines start later. -/
theorem laterLines_sorted (offset : Nat) (text : List Char) :
    (laterLines offset text).Pairwise (·.offset < ·.offset) := by
  induction text generalizing offset with
  | nil => exact .nil
  | cons c cs ih =>
    rw [laterLines]
    split
    · exact .cons (fun line hline => lt_offset_of_mem_laterLines hline) (ih _)
    · exact ih _

/-- The offsets at which lines start. -/
def LineIndex.starts (index : LineIndex) : List Nat :=
  index.first.offset :: index.later.map (·.offset)

theorem LineIndex.starts_sorted (source : List Char) :
    (LineIndex.ofText source).starts.Pairwise (· < ·) := by
  unfold starts
  rw [List.pairwise_cons]
  constructor
  · intro x hx
    obtain ⟨line, hline, rfl⟩ := List.mem_map.mp hx
    exact lt_offset_of_mem_laterLines hline
  · rw [List.pairwise_map]
    exact laterLines_sorted 0 source

/-! ## Searching -/

/-- What a search for `x` in an ordered row may answer: a place where it stands, or the place
where it is missing. -/
inductive Searched (row : List Nat) (x : Nat) : Except Nat Nat → Prop
  | found {i : Nat} : row[i]? = some x → Searched row x (.ok i)
  | missing {next : Nat} : next ≤ row.length → (∀ y ∈ row.take next, y < x) →
      (∀ y ∈ row.drop next, x < y) → Searched row x (.error next)

/-- The place that such an answer leads to: the last of the row that is not greater. -/
def lineOf : Except Nat Nat → Nat
  | .ok i => i
  | .error next => next - 1

/-- There is always an answer. -/
theorem exists_searched {row : List Nat} (h : row.Pairwise (· < ·)) (x : Nat) :
    ∃ answer, Searched row x answer := by
  induction row with
  | nil =>
    refine ⟨.error 0, .missing (Nat.le_refl 0) ?_ ?_⟩ <;> (intro y hy; cases hy)
  | cons a row ih =>
    obtain ⟨ha, hrow⟩ := List.pairwise_cons.mp h
    rcases Nat.lt_trichotomy a x with hlt | rfl | hgt
    · -- The answer for the rest of the row, one place further on.
      obtain ⟨_, hi | ⟨hle, hbelow, habove⟩⟩ := ih hrow
      · exact ⟨_, .found (List.getElem?_cons_succ.trans hi)⟩
      · exact ⟨_, .missing (Nat.succ_le_succ hle) (List.forall_mem_cons.mpr ⟨hlt, hbelow⟩) habove⟩
    · exact ⟨.ok 0, .found rfl⟩
    · refine ⟨.error 0, .missing (Nat.zero_le _) (fun y hy => by cases hy) ?_⟩
      exact List.forall_mem_cons.mpr ⟨hgt, fun y hy => Nat.lt_trans hgt (ha y hy)⟩

/-- The answer cuts the row in two. It cannot be that `x` belongs in front of everything. -/
theorem Searched.cut {row : List Nat} {x : Nat} {answer : Except Nat Nat}
    (h : Searched row x answer) (hrow : row.Pairwise (· < ·)) {first : Nat} (hfirst : first ∈ row)
    (hle : first ≤ x) :
    (∀ next, answer = .error next → 1 ≤ next) ∧ lineOf answer < row.length ∧
      (∀ y ∈ row.take (lineOf answer + 1), y ≤ x) ∧ ∀ y ∈ row.drop (lineOf answer + 1), x < y := by
  cases h with
  | @found i hi =>
    obtain ⟨hlt, rfl⟩ := List.getElem?_eq_some_iff.mp hi
    have hsplit := List.take_append_drop i row
    rw [List.drop_eq_getElem_cons hlt] at hsplit
    rw [← hsplit] at hrow
    obtain ⟨-, hright, hleft⟩ := List.pairwise_append.mp hrow
    refine ⟨fun next h => ?_, hlt, fun y hy => ?_, (List.pairwise_cons.mp hright).1⟩
    · cases h
    · rw [lineOf, List.take_add_one, hi, Option.toList_some, List.mem_append,
        List.mem_singleton] at hy
      rcases hy with hin | rfl
      · exact Nat.le_of_lt (hleft y hin _ List.mem_cons_self)
      · exact Nat.le_refl _
  | @missing next hnext hbelow habove =>
    have hpos : 1 ≤ next := by
      rw [Nat.one_le_iff_ne_zero]
      rintro rfl
      exact absurd hle (Nat.not_le_of_lt (habove first hfirst))
    have hline : lineOf (.error next) + 1 = next := Nat.sub_add_cancel hpos
    rw [hline]
    refine ⟨fun other h => ?_, ?_, fun y hy => Nat.le_of_lt (hbelow y hy), habove⟩
    · cases h
      exact hpos
    · exact Nat.lt_of_lt_of_le (Nat.sub_lt hpos Nat.one_pos) hnext

/-- The lines before the cut are those that start no later than `x`. -/
theorem length_takeWhile_eq {lines : List Line} {x k : Nat} (hk : k ≤ lines.length)
    (hbelow : ∀ y ∈ (lines.map (·.offset)).take k, y ≤ x)
    (habove : ∀ y ∈ (lines.map (·.offset)).drop k, x < y) :
    (lines.takeWhile (·.offset ≤ x)).length = k := by
  induction lines generalizing k with
  | nil => exact (Nat.le_zero.mp hk).symm
  | cons line lines ih =>
    cases k with
    | zero =>
      have hlt : x < line.offset := habove _ List.mem_cons_self
      rw [List.takeWhile_cons_of_neg (by simpa using hlt)]
      rfl
    | succ k =>
      have hle : line.offset ≤ x := hbelow _ List.mem_cons_self
      rw [List.takeWhile_cons_of_pos (by simpa using hle), List.length_cons]
      rw [ih (Nat.le_of_succ_le_succ hk) (fun y hy => hbelow y (List.mem_cons_of_mem _ hy)) habove]

/-- Every search for an offset finds its line. There is an answer; if the offset stands nowhere in
the row of line starts, then there is a line before the place where it is missing; and the line
that the answer leads to is there, does not start after the offset, and is the one that the
position names. -/
def LineIndex.FindsLines (index : LineIndex) : Prop :=
  ∀ offset, (∃ answer, Searched index.starts (min offset index.size) answer) ∧
    ∀ answer, Searched index.starts (min offset index.size) answer →
      (∀ next, answer = .error next → 1 ≤ next) ∧
        (index.position offset).line = lineOf answer + 1 ∧
        ∃ start, index.starts[lineOf answer]? = some start ∧ start ≤ min offset index.size

theorem LineIndex.ofText_findsLines (source : List Char) : (ofText source).FindsLines := by
  intro offset
  refine ⟨exists_searched (starts_sorted source) _, fun answer h => ?_⟩
  have hzero : (0 : Nat) ∈ (ofText source).starts := List.mem_cons_self
  obtain ⟨hnext, hlt, hbelow, habove⟩ := h.cut (starts_sorted source) hzero (Nat.zero_le _)
  refine ⟨hnext, ?_, (ofText source).starts[lineOf answer], List.getElem?_eq_getElem hlt, ?_⟩
  · have hlength : (ofText source).starts.length = (ofText source).later.length + 1 := by
      rw [starts, List.length_cons, List.length_map]
    have hlater : lineOf answer ≤ (ofText source).later.length := by
      rw [hlength] at hlt
      exact Nat.le_of_lt_succ hlt
    unfold position
    dsimp only
    rw [length_takeWhile_eq hlater (fun y hy => hbelow y (List.mem_cons_of_mem _ hy)) habove]
  · apply hbelow
    rw [List.take_add_one, List.getElem?_eq_getElem hlt]
    exact List.mem_append_right _ List.mem_cons_self

end Scripting
