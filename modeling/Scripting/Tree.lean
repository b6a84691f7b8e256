/-
Expressions and statements.

Every node carries a position, the one that an error in it is reported at: an operator's
for an operation, the opening bracket's for a call or a group, the keyword's or else the
first token's for a statement.
-/
import Scripting.Operator

set_option autoImplicit false

namespace Scripting

/-- A value written in the program. -/
inductive Literal where
  | number (value : Float)
  | string (contents : String)
  | bool (value : Bool)
  | nil
deriving DecidableEq

/-- Expressions. -/
inductive Expr where
  | literal (value : Literal) (position : Position)
  | var (name : String) (position : Position)
  | unary (op : UnaryOperator) (operand : Expr) (position : Position)
  | binary (op : BinaryOperator) (left right : Expr) (position : Position)
  | call (callee : Expr) (arguments : List Expr) (position : Position)
  | assign (name : String) (value : Expr) (position : Position)
  /-- An expression in parentheses. -/
  | group (inner : Expr) (position : Position)
deriving Inhabited

/-- The position of an expression. -/
def Expr.position : Expr → Position
  | literal _ p | var _ p | unary _ _ p | binary _ _ _ p | call _ _ p | assign _ _ p
  | group _ p => p

/-- Statements. -/
inductive Stmt where
  | expression (value : Expr) (position : Position)
  /-- A variable, with its first value if one is given. -/
  | declare (name : String) (initial : Option Expr) (position : Position)
  | block (body : List Stmt) (position : Position)
  | cond (test : Expr) (yes : Stmt) (no : Option Stmt) (position : Position)
  | loop (test : Expr) (body : Stmt) (position : Position)
  | function (name : String) (parameters : List String) (body : List Stmt) (position : Position)
  | return_ (value : Option Expr) (position : Position)
  | print (value : Expr) (position : Position)
  | break_ (position : Position)
  | continue_ (position : Position)
deriving Inhabited

/-- The position of a statement. -/
def Stmt.position : Stmt → Position
  | expression _ p | declare _ _ p | block _ p | cond _ _ _ p | loop _ _ p | function _ _ _ p
  | return_ _ p | print _ p | break_ p | continue_ p => p

end Scripting
