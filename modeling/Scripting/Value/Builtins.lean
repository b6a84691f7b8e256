/-
What the builtin functions do.

A builtin sees its arguments, the reading of the clock, and the position of the call. Nothing else
of a session reaches it, and it changes nothing.
-/
import Scripting.Text.Blank
import Scripting.Value

set_option autoImplicit false

namespace Scripting.Builtin

/-- `single_argument`: the only argument of a call. -/
def single (arguments : List Value) (position : Position) : Except RuntimeError Value :=
  match arguments with
  | [v] => .ok v
  | _ => .error ⟨.argumentCount 1 arguments.length, position⟩

/-- `number_argument`: the number that a builtin is given. -/
def singleNumber (b : Builtin) (arguments : List Value) (position : Position) :
    Except RuntimeError Float := do
  match ← single arguments position with
  | .number x => .ok x
  | other => .error ⟨.invalidArgument (.notANumber b other.kind), position⟩

/-- The result of a builtin. `now` is the reading of the clock, in seconds. -/
def apply (b : Builtin) (arguments : List Value) (now : Float) (position : Position) :
    Except RuntimeError Value := do
  match b with
  | clock => .ok (.number now)
  | len =>
    match ← single arguments position with
    | .string s => .ok (.number (Float.ofNat s.length))
    | other => .error ⟨.invalidArgument (.notAString len other.kind), position⟩
  | str =>
    let v ← single arguments position
    .ok (.string v.text)
  | num =>
    match ← single arguments position with
    | .number x => .ok (.number x)
    | .string s =>
      match Decimal.readFinite? (Text.trimmed s.toList) with
      | some x => .ok (.number x)
      | none => .error ⟨.invalidArgument (.notANumeral num s), position⟩
    | other => .error ⟨.invalidArgument (.notConvertible num other.kind), position⟩
  | type =>
    let v ← single arguments position
    .ok (.string v.kind.text)
  | sqrt =>
    let x ← singleNumber sqrt arguments position
    if x < 0 then .error ⟨.invalidArgument (.negative sqrt x), position⟩
    else .ok (.number x.sqrt)
  | floor =>
    let x ← singleNumber floor arguments position
    .ok (.number x.floor)
  | abs =>
    let x ← singleNumber abs arguments position
    .ok (.number x.abs)

end Scripting.Builtin
