/-
What can go wrong, and how it is told.

Every failure is a *fault*, its cause, at a *position*. Faults belong to one of three
stages: reading the text as tokens, reading the tokens as statements, and running the
statements. A fault records what led to it; the wording is in the `text` functions of
this module and nowhere else.
-/
import Scripting.Kind
import Scripting.Operator

set_option autoImplicit false

namespace Scripting

/-- A fault and where it was found. -/
structure Located (φ : Type) where
  fault : φ
  position : Position
deriving DecidableEq

/-! ## Reading the text -/

/-- Why a text has no tokens. -/
inductive LexFault where
  /-- No token begins with this character. -/
  | invalidCharacter (c : Char)
  /-- A string has no closing quote. -/
  | unterminatedString
deriving DecidableEq

abbrev LexError := Located LexFault

/-- The sentence for a fault in the text. -/
def LexFault.text : LexFault → String
  | invalidCharacter c => s!"Unexpected character '{c}'."
  | unterminatedString => "Unterminated string literal."

/-! ## Reading the tokens -/

/-- What the grammar asks for at a place where only that may stand. -/
inductive Expectation where
  | variableName
  | functionName
  | parameterName
  | parameterList
  | functionBody
  | closingParen
  | commaOrParen
deriving DecidableEq

/-- How messages name what was asked for. -/
def Expectation.text : Expectation → String
  | variableName => "variable name after 'let'"
  | functionName => "function name after 'fun'"
  | parameterName => "parameter name"
  | parameterList => "'(' after function name"
  | functionBody => "'\x7b' before function body"
  | closingParen => "')' after expression"
  | commaOrParen => "',' or ')'"

/-- The two lists whose length is limited. -/
inductive Listing where
  | parameters
  | arguments
deriving DecidableEq

/-- How messages name the items of a list. -/
def Listing.text : Listing → String
  | parameters => "parameters"
  | arguments => "arguments"

/-- Why tokens are no statements. -/
inductive ParseFault where
  /-- The lexeme with this text cannot stand here. -/
  | unexpectedToken (text : String)
  /-- Something definite was asked for, and another token found. -/
  | expectedToken (expected : Expectation) (found : Token)
  | unexpectedEndOfInput
  /-- A block is never closed. -/
  | unterminatedBlock
  /-- Only a variable can be assigned to. -/
  | invalidAssignmentTarget
  | tooManyItems (what : Listing) (limit : Nat)
  | duplicateParameter (name : String)
  | returnOutsideFunction
  | loopControlOutsideLoop (word : Keyword)
  | tooDeeplyNested (limit : Nat)
deriving DecidableEq

abbrev ParseError := Located ParseFault

/-- The sentence for a fault in the grammar. -/
def ParseFault.text : ParseFault → String
  | unexpectedToken text => s!"Unexpected token '{text}'."
  | expectedToken expected found => s!"Expected {expected.text}, found '{found.text}'."
  | unexpectedEndOfInput => "Unexpected end of input."
  | unterminatedBlock => "Unterminated block, missing '\x7d'."
  | invalidAssignmentTarget => "Invalid assignment target."
  | tooManyItems what limit => s!"Cannot have more than {limit} {what.text}."
  | duplicateParameter name => s!"Duplicate parameter '{name}'."
  | returnOutsideFunction => "Cannot return from outside a function."
  | loopControlOutsideLoop word => s!"Cannot use '{word.text}' outside of a loop."
  | tooDeeplyNested limit => s!"Nesting is deeper than {limit} levels."

/-! ## Running the statements -/

/-- Operands of a kind that an operator does not take. -/
inductive TypeFault where
  /-- Something had to be a number. -/
  | notANumber (what : String) (found : Kind)
  /-- The two operands do not go with the operator. -/
  | operands (op : BinaryOperator) (left right : Kind)
deriving DecidableEq

/-- What the operands of an operator must be. -/
def BinaryOperator.demand : BinaryOperator → String
  | add | less | greater | lessEqual | greaterEqual => "two numbers or two strings"
  | _ => "numbers"

/-- The details of a wrong operand. -/
def TypeFault.text : TypeFault → String
  | notANumber what found => s!"{what} must be a number, found {found.text}"
  | operands op left right =>
    s!"operands of '{op.text}' must be {op.demand}, found {left.text} and {right.text}"

/-- Arguments that a builtin does not take. -/
inductive ArgumentFault where
  | notAString (function : Builtin) (found : Kind)
  | notANumber (function : Builtin) (found : Kind)
  | notConvertible (function : Builtin) (found : Kind)
  /-- A string that is no numeral of a finite number. -/
  | notANumeral (function : Builtin) (contents : String)
  | negative (function : Builtin) (value : Float)
deriving DecidableEq

/-- The details of a wrong argument. -/
def ArgumentFault.text : ArgumentFault → String
  | notAString function found => s!"{function.name}() expects a string, found {found.text}"
  | notANumber function found => s!"{function.name}() expects a number, found {found.text}"
  | notConvertible function found =>
    s!"{function.name}() expects a string or a number, found {found.text}"
  | notANumeral function contents =>
    s!"{function.name}() cannot convert '{contents}' to a number"
  | negative function value => s!"{function.name}() of negative number {Binary64.text value}"

/-- Why a running program stops. -/
inductive RuntimeFault where
  | undefinedVariable (name : String)
  /-- Assignment never declares. -/
  | undeclaredAssignment (name : String)
  | notCallable (found : Kind)
  | argumentCount (expected found : Nat)
  | typeMismatch (details : TypeFault)
  | divisionByZero
  | invalidArgument (details : ArgumentFault)
  | callDepthExceeded (limit : Nat)
deriving DecidableEq

abbrev RuntimeError := Located RuntimeFault

/-- The sentence for a fault of a running program. -/
def RuntimeFault.text : RuntimeFault → String
  | undefinedVariable name => s!"Undefined variable '{name}'."
  | undeclaredAssignment name => s!"Cannot assign to undeclared variable '{name}'."
  | notCallable found => s!"Can only call functions, not {found.text}."
  | argumentCount expected found => s!"Expected {expected} arguments but got {found}."
  | typeMismatch details => s!"Type error: {details.text}."
  | divisionByZero => "Division by zero."
  | invalidArgument details => s!"Invalid argument: {details.text}."
  | callDepthExceeded limit => s!"Maximum call depth of {limit} exceeded."

/-! ## All stages -/

/-- The three stages of a submission. -/
inductive Stage where
  | lex | parse | runtime
deriving DecidableEq, Repr

/-- The name of a stage in messages. -/
def Stage.text : Stage → String
  | lex => "Lex error"
  | parse => "Parse error"
  | runtime => "Runtime error"

/-- A failure of a submission, at whatever stage. -/
inductive Failure where
  | lex (error : LexError)
  | parse (error : ParseError)
  | runtime (error : RuntimeError)
deriving DecidableEq

namespace Failure

/-- The stage that failed. -/
def stage : Failure → Stage
  | lex _ => .lex
  | parse _ => .parse
  | runtime _ => .runtime

/-- Where the fault was found. -/
def position : Failure → Position
  | lex e => e.position
  | parse e => e.position
  | runtime e => e.position

/-- The sentence for the fault. -/
def sentence : Failure → String
  | lex e => e.fault.text
  | parse e => e.fault.text
  | runtime e => e.fault.text

/-- The message of a failure: stage, place and cause. -/
def message (f : Failure) : String :=
  s!"{f.stage.text} on {f.position.text}: {f.sentence}"

end Failure

end Scripting
