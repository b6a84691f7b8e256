/-
The text of a number: the fewest digits that read back.

The doubles cut the line of reals into intervals: every real in the interval of
`x` rounds to `x`. Among the decimals in that interval the text shows one with the fewest
digits, and of those the one nearest to `x`. For a given power of ten only two
multiples of it can be meant, the neighbours of `x` on either side, so the search
tries finer and finer powers and stops at the first neighbour inside the
interval. All comparisons are between whole numbers: everything is multiplied
by the denominators first.

Numbers are always written in full, without an exponent.
-/
import Scripting.Number.Decimal

set_option autoImplicit false

namespace Scripting

/-- The reals that round to one positive double, in quarters of its unit `2 ^ q`: the
double itself at `center`, and the ends of the interval below and above it. The ends belong to
it when the mantissa is even, since a tie goes to the even neighbour. -/
structure RoundingInterval where
  lower : Nat
  center : Nat
  upper : Nat
  closed : Bool
  /-- The exponent of a quarter unit. -/
  exponent : Int

namespace RoundingInterval

/-- The interval of `m · 2 ^ q`. Below a power of two the doubles lie twice as dense. -/
def ofParts (m : Nat) (q : Int) : RoundingInterval where
  lower := 4 * m - (if m = Nat.pow 2 52 ∧ Binary64.minExponent < q then 1 else 2)
  center := 4 * m
  upper := 4 * m + 2
  closed := m % 2 = 0
  exponent := q - 2

/-- What a quarter unit is multiplied by to compare it with multiples of `10 ^ g`. -/
def scale (i : RoundingInterval) (g : Int) : Nat :=
  Nat.pow 2 i.exponent.toNat * Nat.pow 10 (-g).toNat

/-- What a multiple of `10 ^ g` is multiplied by to compare it with quarter units. -/
def unit (i : RoundingInterval) (g : Int) : Nat :=
  Nat.pow 2 (-i.exponent).toNat * Nat.pow 10 g.toNat

/-- Whether `n · 10 ^ g` lies in the interval. -/
def holds (i : RoundingInterval) (g : Int) (n : Nat) : Bool :=
  let x := n * i.unit g
  if i.closed then i.lower * i.scale g ≤ x && x ≤ i.upper * i.scale g
  else i.lower * i.scale g < x && x < i.upper * i.scale g

/-- The exponent of the leading digit of the center. -/
def leadingExponent (i : RoundingInterval) : Int :=
  let num := i.center * Nat.pow 2 i.exponent.toNat
  let den := Nat.pow 2 (-i.exponent).toNat
  if den ≤ num then (Decimal.digitCount (num / den) : Int) - 1
  else -(Decimal.digitCount ((den - 1) / num) : Int)

/-- The multiple of `10 ^ g` nearest to the center among those in the interval. Half
way between two, it is the upper one. -/
def onGrid? (i : RoundingInterval) (g : Int) : Option Nat :=
  let x := i.center * i.scale g
  let below := x / i.unit g
  let above := below + 1
  match i.holds g below, i.holds g above with
  | true, true => some (if 2 * (x % i.unit g) < i.unit g then below else above)
  | true, false => some below
  | false, true => some above
  | false, false => none

/-- Search the powers of ten from `10 ^ g` downwards. -/
def searchFrom (i : RoundingInterval) : (steps : Nat) → (g : Int) → Decimal
  | 0, g => ⟨i.center * i.scale g / i.unit g, g⟩
  | steps + 1, g =>
    match i.onGrid? g with
    | some n => ⟨n, g⟩
    | none => searchFrom i steps (g - 1)

/-- The shortest decimal in the interval. Seventeen digits tell any two doubles apart,
so the search ends before it runs out of steps. A multiple that rounds up to a full ten
drops its zero. -/
def shortest (i : RoundingInterval) : Decimal :=
  let d := i.searchFrom 17 i.leadingExponent
  if d.digits % 10 = 0 then ⟨d.digits / 10, d.exponent + 1⟩ else d

end RoundingInterval

namespace Decimal

/-- A decimal in full: no exponent, a point only before a fraction, and a digit before every
point. -/
def positional (d : Decimal) : List Char :=
  let digits := Nat.toDigits 10 d.digits
  if 0 ≤ d.exponent then digits ++ List.replicate d.exponent.toNat '0'
  else
    let places := (-d.exponent).toNat
    if places < digits.length then
      digits.take (digits.length - places) ++ '.' :: digits.drop (digits.length - places)
    else '0' :: '.' :: (List.replicate (places - digits.length) '0' ++ digits)

end Decimal

namespace Binary64

/-- The text of a double, as characters. -/
def characters (x : Float) : List Char :=
  match parts x with
  | .nan => ['N', 'a', 'N']
  | .infinite negative => (if negative then ['-'] else []) ++ ['i', 'n', 'f']
  | .finite negative m q =>
    (if negative then ['-'] else []) ++
      (if m = 0 then ['0'] else (RoundingInterval.ofParts m q).shortest.positional)

/-- The text of a double. -/
def text (x : Float) : String := String.ofList (characters x)

end Binary64

end Scripting
