/-
Sets of characters given by their code points.

A property of characters that follows no rule is written down as the list of the code points
that have it. Neighbours are put together into ranges, both ends included, in rising order.
-/
set_option autoImplicit false

namespace Scripting.Text

/-- Ranges of code points, both ends included. -/
abbrev CodeRanges : Type := List (Nat × Nat)

/-- Whether a character lies in one of the ranges. -/
def CodeRanges.has (ranges : CodeRanges) (c : Char) : Bool :=
  ranges.any fun (first, last) => first ≤ c.toNat && c.toNat ≤ last

end Scripting.Text
