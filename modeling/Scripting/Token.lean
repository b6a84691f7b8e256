/-
Tokens and lexemes.

A *token* is what a piece of source text means to the grammar: a literal, a name, a keyword, a
symbol, or one of the kinds of text that the grammar never sees (blanks and comments). A
*lexeme* is a token together with its text and its position.
-/
import Scripting.Number.Shortest
import Scripting.Position

set_option autoImplicit false

namespace Scripting

/-- The reserved words. -/
inductive Keyword where
  | let_ | fun_ | return_ | if_ | else_ | while_ | break_ | continue_ | print_
  | and_ | or_ | true_ | false_ | nil_
deriving DecidableEq, Repr

namespace Keyword

/-- How a reserved word is written. -/
def text : Keyword → String
  | let_ => "let"
  | fun_ => "fun"
  | return_ => "return"
  | if_ => "if"
  | else_ => "else"
  | while_ => "while"
  | break_ => "break"
  | continue_ => "continue"
  | print_ => "print"
  | and_ => "and"
  | or_ => "or"
  | true_ => "true"
  | false_ => "false"
  | nil_ => "nil"

/-- Every reserved word. -/
def all : List Keyword :=
  [let_, fun_, return_, if_, else_, while_, break_, continue_, print_, and_, or_, true_, false_,
    nil_]

theorem mem_all (k : Keyword) : k ∈ all := by cases k <;> decide

/-- The reserved word written `word`, if there is one. -/
def ofText? (word : String) : Option Keyword := all.find? (·.text = word)

end Keyword

/-- Operators and punctuation. -/
inductive Symbol where
  | plus | minus | star | slash | percent
  | bang | equals | equalEqual | bangEqual | less | lessEqual | greater | greaterEqual
  | leftParen | rightParen | leftBrace | rightBrace | comma | semicolon
deriving DecidableEq, Repr

namespace Symbol

/-- How a symbol is written. -/
def text : Symbol → String
  | plus => "+"
  | minus => "-"
  | star => "*"
  | slash => "/"
  | percent => "%"
  | bang => "!"
  | equals => "="
  | equalEqual => "=="
  | bangEqual => "!="
  | less => "<"
  | lessEqual => "<="
  | greater => ">"
  | greaterEqual => ">="
  | leftParen => "("
  | rightParen => ")"
  | leftBrace => "\x7b"
  | rightBrace => "\x7d"
  | comma => ","
  | semicolon => ";"

end Symbol

/-- What a piece of source text means. -/
inductive Token where
  /-- A number literal with its value. -/
  | number (value : Float)
  /-- A string literal with its contents. -/
  | string (contents : String)
  /-- A string that the text ends in before its closing quote. -/
  | unterminatedString
  /-- A name that is not reserved. -/
  | identifier (name : String)
  | keyword (word : Keyword)
  | symbol (mark : Symbol)
  /-- A comment up to the end of its line. -/
  | lineComment
  /-- A comment between two marks. -/
  | blockComment
  /-- A run of white space. -/
  | blank
  /-- The end of the text. -/
  | endOfInput
deriving DecidableEq

namespace Token

/-- How messages show a token. -/
def text : Token → String
  | number value => Binary64.text value
  | string contents => "\"" ++ contents ++ "\""
  | unterminatedString => "unterminated string"
  | identifier name => name
  | keyword word => word.text
  | symbol mark => mark.text
  | lineComment => "comment"
  | blockComment => "comment"
  | blank => "whitespace"
  | endOfInput => "end of input"

/-- Whether the grammar never sees the token. -/
def isSkipped : Token → Bool
  | lineComment | blockComment | blank => true
  | _ => false

end Token

/-- A token as it stands in a source text. The text of the end is empty. -/
structure Lexeme where
  token : Token
  text : String
  position : Position
deriving DecidableEq

end Scripting
