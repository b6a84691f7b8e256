/-
The kinds of value, and the functions that are always there.
-/
set_option autoImplicit false

namespace Scripting

/-- What a program can tell about a value without looking into it. -/
inductive Kind where
  | number | string | bool | nil | function
deriving DecidableEq, Repr

/-- The name of a kind. -/
def Kind.text : Kind → String
  | number => "number"
  | string => "string"
  | bool => "bool"
  | nil => "nil"
  | function => "function"

/-- The functions that every session starts with. -/
inductive Builtin where
  | clock | len | str | num | type | sqrt | floor | abs
deriving DecidableEq, Repr

namespace Builtin

/-- The name a builtin is bound to. -/
def name : Builtin → String
  | clock => "clock"
  | len => "len"
  | str => "str"
  | num => "num"
  | type => "type"
  | sqrt => "sqrt"
  | floor => "floor"
  | abs => "abs"

/-- How many arguments a call must have. -/
def arity : Builtin → Nat
  | clock => 0
  | _ => 1

/-- Every builtin, in the order in which they are bound. -/
def all : List Builtin := [clock, len, str, num, type, sqrt, floor, abs]

theorem mem_all (b : Builtin) : b ∈ all := by cases b <;> decide

/-- The builtin of a name. -/
def ofName? (name : String) : Option Builtin := all.find? (·.name = name)

end Builtin

end Scripting
