/-
Double precision numbers as exact fractions.

A finite double is `m · 2 ^ q` with a whole `m < 2 ^ 53` and `q ≥ -1074`, and a
sign. Read as a number, the bit pattern of a non-negative double is

    (q + 1074) · 2 ^ 52 + m

for the least `q` that leaves `m` below `2 ^ 53`. That one formula covers the
subnormal numbers (`q = -1074`, `m < 2 ^ 52`), and adding one to a mantissa that is all
ones carries into the exponent as it should. `nearest` rests on it: rounding a
fraction to a double is rounding to a whole `m` at the right `q`.
-/
set_option autoImplicit false

namespace Scripting.Binary64

/-- What the bits of a double say. -/
inductive Parts where
  /-- Not a number. -/
  | nan
  /-- An infinity. -/
  | infinite (negative : Bool)
  /-- The number `m · 2 ^ q`, or its negative. -/
  | finite (negative : Bool) (m : Nat) (q : Int)

/-- The least exponent of two that a double can have. -/
def minExponent : Int := -1074

/-- The bit pattern of positive infinity; every finite magnitude is below it. -/
def infinityBits : Nat := 2047 * Nat.pow 2 52

/-- Take a double apart. -/
def parts (x : Float) : Parts :=
  let bits := x.toBits.toNat
  let negative := decide (Nat.pow 2 63 ≤ bits)
  let exponent : Nat := bits / Nat.pow 2 52 % Nat.pow 2 11
  let fraction : Nat := bits % Nat.pow 2 52
  if exponent = 2047 then
    if fraction = 0 then .infinite negative else .nan
  else if exponent = 0 then .finite negative fraction minExponent
  else .finite negative (Nat.pow 2 52 + fraction) ((exponent : Int) - 1075)

/-- The double with the given sign and magnitude bits. -/
def ofMagnitude (negative : Bool) (bits : Nat) : Float :=
  Float.ofBits (UInt64.ofNat (if negative then Nat.pow 2 63 + bits else bits))

/-- The quotient `num / den` rounded to the nearest whole number, a half to the even one. -/
def roundDiv (num den : Nat) : Nat :=
  let floor := num / den
  match compare (2 * (num % den)) den with
  | .lt => floor
  | .eq => floor + floor % 2
  | .gt => floor + 1

/-- The greatest `e` with `2 ^ e ≤ num / den`, for positive `num` and `den`. -/
def log2Floor (num den : Nat) : Int :=
  let e : Int := (num.log2 : Int) - den.log2
  if den <<< e.toNat ≤ num <<< (-e).toNat then e else e - 1

/-- The magnitude bits of the double nearest to `num / den`, a tie to the even
mantissa. What lies half a unit or more above the largest double becomes infinity. -/
def nearest (num den : Nat) : Nat :=
  if num = 0 then 0
  else
    let q := max minExponent (log2Floor num den - 52)
    let m := roundDiv (num <<< (-q).toNat) (den <<< q.toNat)
    min infinityBits ((q - minExponent).toNat * Nat.pow 2 52 + m)

/-- The remainder of a division that rounds its quotient towards zero. The result is
exact and has the sign of the dividend. -/
def remainder (x y : Float) : Float :=
  match parts x, parts y with
  | .finite negative m q, .finite _ n r =>
    if n = 0 then Float.ofBits 0x7ff8000000000000
    else
      let common := min q r
      let rest := (m <<< (q - common).toNat) % (n <<< (r - common).toNat)
      ofMagnitude negative (nearest (rest <<< common.toNat) (1 <<< (-common).toNat))
  | .finite .., .infinite _ => x
  | _, _ => Float.ofBits 0x7ff8000000000000

end Scripting.Binary64
