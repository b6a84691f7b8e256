/-
What operators and builtins can come to.

An operator or a builtin that has a result makes no functions: at most it hands on one of its
operands. One that fails does so where it stands, and only with the faults that an
expression of its form can raise.
-/
import Scripting.Proofs.Results
import Scripting.Value.Builtins
import Scripting.Value.Operators

set_option autoImplicit false

namespace Scripting

/-! ## Results -/

/-- If the value is one of the program's functions, it has the property. -/
def Value.Meets (P : Closure → Prop) : Value → Prop
  | .function f => P f
  | _ => True

/-- Whether a property holds of a value can be decided if it can be decided of functions. -/
instance Value.decidableMeets (P : Closure → Prop) [DecidablePred P] (v : Value) :
    Decidable (v.Meets P) :=
  match v with
  | .function f => inferInstanceAs (Decidable (P f))
  | .number _ | .string _ | .bool _ | .nil | .builtin _ => .isTrue trivial

namespace Value

variable {P Q : Closure → Prop} {v : Value}

theorem meets_of_ne_function (h : ∀ f, v ≠ .function f) : v.Meets P := by
  cases v with
  | function f => exact absurd rfl (h f)
  | _ => trivial

theorem meets_ofLiteral (l : Literal) : (ofLiteral l).Meets P := by
  cases l <;> trivial

theorem Meets.imp (h : v.Meets P) (hPQ : ∀ f, v = .function f → P f → Q f) : v.Meets Q := by
  cases v with
  | function f => exact hPQ f rfl h
  | _ => trivial

end Value

namespace BinaryOperator

/-- An operator that its left operand decides hands that operand on. -/
theorem eq_of_decided? {op : BinaryOperator} {left v : Value} (h : op.decided? left = some v) :
    v = left := by
  cases op with
  | and =>
    rw [decided?] at h
    split at h
    · cases h
    · exact (Option.some.inj h).symm
  | or =>
    rw [decided?] at h
    split at h
    · exact (Option.some.inj h).symm
    · cases h
  | _ => cases h

theorem apply_meets {P : Closure → Prop} {op : BinaryOperator} {left right u : Value}
    {p : Position} (hl : left.Meets P) (hr : right.Meets P) (h : op.apply left right p = .ok u) :
    u.Meets P := by
  cases op
  case and | or =>
    simp only [BinaryOperator.apply, Except.ok.injEq] at h
    rw [← h]
    split
    · first | exact hl | exact hr
    · first | exact hr | exact hl
  all_goals
    apply Value.meets_of_ne_function
    intro f hf
    rw [hf] at h
    simp only [BinaryOperator.apply] at h
    (repeat' split at h) <;> cases h

end BinaryOperator

theorem UnaryOperator.apply_ne_function (op : UnaryOperator) (v : Value) (p : Position)
    (f : Closure) : op.apply v p ≠ .ok (.function f) := by
  intro h
  cases op with
  | negate =>
    simp only [UnaryOperator.apply] at h
    split at h <;> cases h
  | not => cases h

theorem Builtin.apply_ne_function (b : Builtin) (arguments : List Value) (now : Float)
    (p : Position) (f : Closure) : b.apply arguments now p ≠ .ok (.function f) := by
  intro h
  cases b <;> simp only [Builtin.apply, Builtin.singleNumber, bind, Except.bind] at h <;>
    (repeat' split at h) <;> cases h

/-! ## Faults -/

/-- The faults of a binary operator: dividing by zero, and for arithmetic and orderings operands
that are not of the right kinds. -/
inductive BinaryOperator.Raises : BinaryOperator → RuntimeFault → Prop
  | division {op : BinaryOperator} : op = .divide ∨ op = .modulo → Raises op .divisionByZero
  | operands {op : BinaryOperator} (left right : Kind) :
      op.precedence ∈ [.relational, .additive, .multiplicative] →
      Raises op (.typeMismatch (.operands op left right))

/-- The faults of a call with so many arguments. -/
inductive RuntimeFault.OfCall (given : Nat) : RuntimeFault → Prop
  | notCallable (found : Kind) : OfCall given (.notCallable found)
  | argumentCount (expected : Nat) : OfCall given (.argumentCount expected given)
  | invalidArgument (details : ArgumentFault) : OfCall given (.invalidArgument details)
  | callDepthExceeded (limit : Nat) : OfCall given (.callDepthExceeded limit)

/-- The expression can fail with this fault, apart from the faults of its parts. -/
inductive Expr.Raises : Expr → RuntimeFault → Prop
  | undefined (name : String) (p : Position) : Raises (.var name p) (.undefinedVariable name)
  | undeclared (name : String) (e : Expr) (p : Position) :
      Raises (.assign name e p) (.undeclaredAssignment name)
  | negation (e : Expr) (p : Position) (found : Kind) :
      Raises (.unary .negate e p) (.typeMismatch (.notANumber "operand of '-'" found))
  | operation {op : BinaryOperator} {fault : RuntimeFault} (left right : Expr) (p : Position) :
      op.Raises fault → Raises (.binary op left right p) fault
  | call {arguments : List Expr} {fault : RuntimeFault} (callee : Expr) (p : Position) :
      fault.OfCall arguments.length → Raises (.call callee arguments p) fault

theorem UnaryOperator.raises_of_apply {op : UnaryOperator} {v : Value} {p : Position}
    {error : RuntimeError} (h : op.apply v p = .error error) (e : Expr) :
    (Expr.unary op e p).Raises error.fault ∧ error.position = p := by
  cases op with
  | not => cases h
  | negate =>
    cases v
    case number x => cases h
    all_goals
      cases h
      exact ⟨.negation e p _, rfl⟩

/-- Only a division has no result on numbers. -/
theorem BinaryOperator.division_of_arithmetic {op : BinaryOperator} {x y : Float}
    (hop : op ∈ [.subtract, .multiply, .divide, .modulo]) (h : op.arithmetic x y = none) :
    op = .divide ∨ op = .modulo := by
  rcases List.mem_cons.mp hop with rfl | hop
  · cases h
  · rcases List.mem_cons.mp hop with rfl | hop
    · cases h
    · simpa using hop

theorem BinaryOperator.raises_of_apply {op : BinaryOperator} {left right : Value} {p : Position}
    {error : RuntimeError} (h : op.apply left right p = .error error) :
    op.Raises error.fault ∧ error.position = p := by
  -- Operands that do not go with an operator that asks for certain kinds.
  have hmismatch : op.precedence ∈ [.relational, .additive, .multiplicative] →
      (.error ⟨.typeMismatch (.operands op left.kind right.kind), p⟩ :
        Except RuntimeError Value) = .error error → op.Raises error.fault ∧ error.position = p := by
    intro hop herror
    cases herror
    exact ⟨.operands _ _ hop, rfl⟩
  cases op
  case equal | notEqual | and | or => cases h
  case subtract | multiply | divide | modulo =>
    simp only [BinaryOperator.apply] at h
    split at h
    · split at h
      · cases h
      · next hnone =>
        cases h
        exact ⟨.division (division_of_arithmetic (by decide) hnone), rfl⟩
    · exact hmismatch (by decide) h
  all_goals
    simp only [BinaryOperator.apply] at h
    split at h
    · cases h
    · cases h
    · exact hmismatch (by decide) h

/-- A builtin at `p` does not get along with so many arguments, or not with what they are. -/
inductive RuntimeError.OfArguments (given : Nat) (p : Position) : RuntimeError → Prop
  | count (expected : Nat) : OfArguments given p ⟨.argumentCount expected given, p⟩
  | invalid (details : ArgumentFault) : OfArguments given p ⟨.invalidArgument details, p⟩

/-- These are faults of a call, but none of those about the calls that are active. -/
theorem RuntimeError.OfArguments.ofCall {given : Nat} {p : Position} {e : RuntimeError}
    (h : e.OfArguments given p) :
    e.fault.OfCall given ∧ e.position = p ∧ ∀ limit, e.fault ≠ .callDepthExceeded limit := by
  cases h with
  | count expected => exact ⟨.argumentCount expected, rfl, fun limit hfault => by cases hfault⟩
  | invalid details => exact ⟨.invalidArgument details, rfl, fun limit hfault => by cases hfault⟩

namespace Builtin

variable (arguments : List Value) (p : Position)

theorem single_fails :
    FailsOnlyWith (RuntimeError.OfArguments arguments.length p) (single arguments p) := by
  unfold single
  split
  · exact .ok _
  · exact .error (.count 1)

theorem singleNumber_fails (b : Builtin) :
    FailsOnlyWith (RuntimeError.OfArguments arguments.length p) (singleNumber b arguments p) := by
  refine (single_fails arguments p).bind fun v => ?_
  split
  · exact .ok _
  · exact .error (.invalid _)

/-- A builtin fails because of its arguments only. -/
theorem apply_fails (b : Builtin) (now : Float) :
    FailsOnlyWith (RuntimeError.OfArguments arguments.length p) (b.apply arguments now p) := by
  have hsingle := single_fails arguments p
  have hnumber := singleNumber_fails arguments p
  cases b with
  | clock => exact .ok _
  | len =>
    refine hsingle.bind fun v => ?_
    split
    · exact .ok _
    · exact .error (.invalid _)
  | num =>
    refine hsingle.bind fun v => ?_
    split
    · exact .ok _
    · split
      · exact .ok _
      · exact .error (.invalid _)
    · exact .error (.invalid _)
  | str | type => exact hsingle.bind fun v => .ok _
  | sqrt =>
    refine (hnumber .sqrt).bind fun x => ?_
    split
    · exact .error (.invalid _)
    · exact .ok _
  | floor => exact (hnumber .floor).bind fun x => .ok _
  | abs => exact (hnumber .abs).bind fun x => .ok _

end Builtin

end Scripting
