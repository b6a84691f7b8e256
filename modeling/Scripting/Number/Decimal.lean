/-
Numbers written in decimal.

A `Decimal` is a whole number of units of a power of ten. Reading a numeral gives
one without loss, and only then `Decimal.bits` rounds it, once, to the nearest
double. Numerals come in two forms. In a program a number is digits with an
optional fraction. Text that is converted to a number may also have a sign, an
exponent, and a point with digits on one side only.
-/
import Scripting.Number.Binary64

set_option autoImplicit false

namespace Scripting

/-- The number `digits · 10 ^ exponent`. -/
structure Decimal where
  digits : Nat
  exponent : Int
deriving DecidableEq, Repr

namespace Decimal

/-- An ASCII digit. -/
def isDigit (c : Char) : Bool := '0' ≤ c && c ≤ '9'

/-- The value of a row of digits. -/
def digitsValue (text : List Char) : Nat :=
  text.foldl (fun n c => 10 * n + (c.toNat - '0'.toNat)) 0

/-- How many decimal digits `n` has. -/
def digitCount (n : Nat) : Nat := (Nat.toDigits 10 n).length

/-- The digits before and after a point. -/
def ofDigits (whole fraction : List Char) : Decimal :=
  ⟨digitsValue (whole ++ fraction), -(fraction.length : Int)⟩

/-- A number literal: digits, and if there is a point, digits after it. -/
def ofLiteral (text : List Char) : Decimal :=
  ofDigits (text.takeWhile isDigit) ((text.dropWhile isDigit).drop 1)

/-- The magnitude bits of the nearest double. The first two cases keep the powers of
ten small: `10 ^ 309` is beyond every finite double, and a number below `10 ^ -324` is
less than half of the smallest one. -/
def bits (d : Decimal) : Nat :=
  if d.digits = 0 then 0
  else
    let top := digitCount d.digits + d.exponent
    if 310 ≤ top then Binary64.infinityBits
    else if top ≤ -324 then 0
    else
      Binary64.nearest (d.digits * Nat.pow 10 d.exponent.toNat) (Nat.pow 10 (-d.exponent).toNat)

/-- The double nearest to `d`. -/
def toFloat (d : Decimal) : Float := Binary64.ofMagnitude false d.bits

/-! ## Free form numerals -/

/-- A sign, and the text after it. No sign means plus. -/
def splitSign : List Char → Bool × List Char
  | '-' :: rest => (true, rest)
  | '+' :: rest => (false, rest)
  | text => (false, text)

/-- The value of the digits of an exponent. It stops growing once it has reached 65536: a
numeral would need as many digits to make up for that. -/
def exponentValue (text : List Char) : Nat :=
  text.foldl (fun n c => if n < 65536 then 10 * n + (c.toNat - '0'.toNat) else n) 0

/-- The exponent that a numeral ends in; an absent one is zero. -/
def readExponent? : List Char → Option Int
  | [] => some 0
  | c :: rest =>
    if c = 'e' || c = 'E' then
      let (negative, digits) := splitSign rest
      if digits.isEmpty || !digits.all isDigit then none
      else
        let n : Int := exponentValue digits
        some (if negative then -n else n)
    else none

/-- Read an unsigned numeral: digits with an optional point somewhere in or around
them, at least one digit, then an optional exponent. -/
def readUnsigned? (text : List Char) : Option Decimal :=
  let whole := text.takeWhile isDigit
  let (fraction, rest) :=
    match text.dropWhile isDigit with
    | '.' :: after => (after.takeWhile isDigit, after.dropWhile isDigit)
    | rest => ([], rest)
  if whole.isEmpty && fraction.isEmpty then none
  else
    (readExponent? rest).map fun e =>
      let d := ofDigits whole fraction
      ⟨d.digits, d.exponent + e⟩

/-- Read a numeral to the nearest finite double. `none` if the text is no numeral,
or if it lies beyond the finite doubles. -/
def readFinite? (text : List Char) : Option Float :=
  let (negative, rest) := splitSign text
  match readUnsigned? rest with
  | none => none
  | some d =>
    if d.bits < Binary64.infinityBits then some (Binary64.ofMagnitude negative d.bits) else none

end Decimal

end Scripting
