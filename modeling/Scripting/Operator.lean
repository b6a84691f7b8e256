/-
Operators and how tightly they bind.

Binary operators fall into six levels. Operators of one level associate to the left, and a
level binds tighter than all the levels before it. The seventh level is that of the
operands: a unary operator binds tighter than every binary one.
-/
import Scripting.Token

set_option autoImplicit false

namespace Scripting

/-- Operators with one operand. -/
inductive UnaryOperator where
  | negate
  | not
deriving DecidableEq, Repr

namespace UnaryOperator

/-- How the operator is written. -/
def text : UnaryOperator → String
  | negate => "-"
  | not => "!"

/-- The operator that a token stands for in front of an operand. -/
def ofToken? : Token → Option UnaryOperator
  | .symbol .minus => some negate
  | .symbol .bang => some not
  | _ => none

end UnaryOperator

/-- Operators with two operands. -/
inductive BinaryOperator where
  | add | subtract | multiply | divide | modulo
  | less | greater | lessEqual | greaterEqual | equal | notEqual
  | and | or
deriving DecidableEq, Repr

/-- The levels of binding, from the loosest to the tightest. -/
inductive Precedence where
  | or | and | equality | relational | additive | multiplicative | unary
deriving DecidableEq, Repr

namespace Precedence

/-- The place of a level in the order. -/
def rank : Precedence → Nat
  | or => 0
  | and => 1
  | equality => 2
  | relational => 3
  | additive => 4
  | multiplicative => 5
  | unary => 6

instance : LE Precedence := ⟨fun p q => p.rank ≤ q.rank⟩

instance (p q : Precedence) : Decidable (p ≤ q) := inferInstanceAs (Decidable (p.rank ≤ q.rank))

/-- The next tighter level; nothing is tighter than the operands. -/
def next : Precedence → Precedence
  | or => and
  | and => equality
  | equality => relational
  | relational => additive
  | additive => multiplicative
  | multiplicative => unary
  | unary => unary

/-- Every level, the loosest first. -/
def all : List Precedence := [or, and, equality, relational, additive, multiplicative, unary]

end Precedence

namespace BinaryOperator

/-- How the operator is written. -/
def text : BinaryOperator → String
  | add => "+"
  | subtract => "-"
  | multiply => "*"
  | divide => "/"
  | modulo => "%"
  | less => "<"
  | greater => ">"
  | lessEqual => "<="
  | greaterEqual => ">="
  | equal => "=="
  | notEqual => "!="
  | and => "and"
  | or => "or"

/-- `token_to_binary_operator`: the operator that a token stands for between two operands. -/
def ofToken? : Token → Option BinaryOperator
  | .symbol .plus => some add
  | .symbol .minus => some subtract
  | .symbol .star => some multiply
  | .symbol .slash => some divide
  | .symbol .percent => some modulo
  | .symbol .less => some less
  | .symbol .greater => some greater
  | .symbol .lessEqual => some lessEqual
  | .symbol .greaterEqual => some greaterEqual
  | .symbol .equalEqual => some equal
  | .symbol .bangEqual => some notEqual
  | .keyword .and_ => some and
  | .keyword .or_ => some or
  | _ => none

/-- The level of an operator. -/
def precedence : BinaryOperator → Precedence
  | add | subtract => .additive
  | multiply | divide | modulo => .multiplicative
  | less | greater | lessEqual | greaterEqual => .relational
  | equal | notEqual => .equality
  | and => .and
  | or => .or

end BinaryOperator

end Scripting
