/-
Operators on values.

`+` adds numbers and joins strings. The other arithmetic takes numbers only, and dividing by
zero is a fault, whatever the sign of the zero. Strings are ordered by their characters, first
difference first, and a text comes before its continuations. Equality takes anything.
-/
import Scripting.Value

set_option autoImplicit false

namespace Scripting

/-- `eval_unary`: apply a unary operator at `position`. -/
def UnaryOperator.apply (op : UnaryOperator) (v : Value) (position : Position) :
    Except RuntimeError Value :=
  match op with
  | negate =>
    match v.asNumber "operand of '-'" position with
    | .ok x => .ok (.number (-x))
    | .error e => .error e
  | not => .ok (.bool !v.truthy)

namespace BinaryOperator

/-- The result of an ordering operator on numbers. Not-a-number is in no order with anything. -/
def orderNumbers (op : BinaryOperator) (x y : Float) : Bool :=
  match op with
  | less => x < y
  | lessEqual => x ≤ y
  | greater => y < x
  | _ => y ≤ x

/-- The result of an ordering operator on strings. -/
def orderStrings (op : BinaryOperator) (s t : String) : Bool :=
  match op with
  | less => s < t
  | lessEqual => !decide (t < s)
  | greater => t < s
  | _ => !decide (s < t)

/-- The result of an arithmetic operator other than `+`; `none` for a division by zero. -/
def arithmetic (op : BinaryOperator) (x y : Float) : Option Float :=
  match op with
  | subtract => some (x - y)
  | multiply => some (x * y)
  | divide => if y == 0 then none else some (x / y)
  | _ => if y == 0 then none else some (Binary64.remainder x y)

/-- `apply_binary`: apply a binary operator at `position` to two operands that have both been
evaluated. -/
def apply (op : BinaryOperator) (left right : Value) (position : Position) :
    Except RuntimeError Value :=
  let mismatch : Except RuntimeError Value :=
    .error ⟨.typeMismatch (.operands op left.kind right.kind), position⟩
  match op with
  | add =>
    match left, right with
    | .number x, .number y => .ok (.number (x + y))
    | .string s, .string t => .ok (.string (s ++ t))
    | _, _ => mismatch
  | subtract | multiply | divide | modulo =>
    match left, right with
    | .number x, .number y =>
      match op.arithmetic x y with
      | some z => .ok (.number z)
      | none => .error ⟨.divisionByZero, position⟩
    | _, _ => mismatch
  | less | lessEqual | greater | greaterEqual =>
    match left, right with
    | .number x, .number y => .ok (.bool (op.orderNumbers x y))
    | .string s, .string t => .ok (.bool (op.orderStrings s t))
    | _, _ => mismatch
  | equal => .ok (.bool (left.equals right))
  | notEqual => .ok (.bool !(left.equals right))
  | and => .ok (if left.truthy then right else left)
  | or => .ok (if left.truthy then left else right)

/-- The left operand, if it decides an operation by itself: `eval_binary` then does not evaluate the
right one. -/
def decided? (op : BinaryOperator) (left : Value) : Option Value :=
  match op with
  | and => if left.truthy then none else some left
  | or => if left.truthy then some left else none
  | _ => none

end BinaryOperator

end Scripting
