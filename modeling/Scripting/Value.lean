/-
Values.

A function value has an identity: two functions are the same only if they come from one
execution of one declaration. It also has the scope it was declared in. Scopes live in a
store and are named by numbers, in the order in which they were made.
-/
import Scripting.Error
import Scripting.Text.Quoted
import Scripting.Tree

set_option autoImplicit false

namespace Scripting

/-- The number of a scope in the order of making. -/
abbrev ScopeId : Type := Nat

/-- The number of a function in the order of making. -/
abbrev FunctionId : Type := Nat

/-- A function of the program, with the scope it was declared in. -/
structure Closure where
  id : FunctionId
  name : String
  parameters : List String
  body : List Stmt
  scope : ScopeId

/-- What is known of a function without looking into it: its name and its parameters. -/
def Closure.description (f : Closure) : String :=
  let parameters := ", ".intercalate (f.parameters.map Text.quoted)
  "Closure \x7b name: " ++ Text.quoted f.name ++ ", params: [" ++ parameters ++ "], .. \x7d"

/-- What an expression evaluates to. -/
inductive Value where
  | number (value : Float)
  | string (contents : String)
  | bool (value : Bool)
  | nil
  | function (f : Closure)
  | builtin (b : Builtin)

namespace Value

/-- The value of a literal. -/
def ofLiteral : Literal → Value
  | .number x => number x
  | .string s => string s
  | .bool b => bool b
  | .nil => nil

/-- The kind of a value. A program cannot tell its own functions from the others. -/
def kind : Value → Kind
  | number _ => .number
  | string _ => .string
  | bool _ => .bool
  | nil => .nil
  | function _ | builtin _ => .function

/-- Whether a value counts as true: all do but `nil` and `false`. -/
def truthy : Value → Bool
  | nil | bool false => false
  | _ => true

/-- How a value is printed. -/
def text : Value → String
  | number x => Binary64.text x
  | string s => s
  | bool b => if b then "true" else "false"
  | nil => "nil"
  | function f => s!"<fn {f.name}>"
  | builtin b => s!"<builtin fn {b.name}>"

/-- Whether two values are equal. Numbers compare as numbers, so not-a-number differs from itself;
functions compare by identity; values of different kinds are never equal. -/
def equals : Value → Value → Bool
  | number x, number y => x == y
  | string s, string t => s == t
  | bool a, bool b => a == b
  | nil, nil => true
  | function f, function g => f.id == g.id
  | builtin a, builtin b => a == b
  | _, _ => false

/-- The number that a value is; `what` says in a message what had to be one. -/
def asNumber (v : Value) (what : String) (position : Position) : Except RuntimeError Float :=
  match v with
  | number x => .ok x
  | other => .error ⟨.typeMismatch (.notANumber what other.kind), position⟩

/-- The function that a value is, if it is one declared in scope `s`. -/
def closureOf? (s : ScopeId) : Value → Option Closure
  | function f => if f.scope = s then some f else none
  | _ => none

end Value

end Scripting
