/-
Text in quotes.

A quoted text shows every character. Quotes, backslashes, and those controls that have a
letter of their own are written with a backslash; whatever could not be seen or would
cling to its neighbour is written by its code point.
-/
import Scripting.Text.Extending
import Scripting.Text.Unprintable

set_option autoImplicit false

namespace Scripting.Text

/-- A character by its code point. -/
def codePoint (c : Char) : List Char :=
  ['\\', 'u', '\x7b'] ++ Nat.toDigits 16 c.toNat ++ ['\x7d']

/-- The halfwidth voicing marks of Katakana. They extend the letter before them, but they are
letters with a shape of their own. -/
def voicingRanges : CodeRanges := [(0xff9e, 0xff9f)]

/-- Whether a character is a mark that clings to its neighbour. -/
def clings (c : Char) : Bool := isExtending c && !voicingRanges.has c

/-- How a character is written in quotes. -/
def escape (c : Char) : List Char :=
  if c = '\x00' then ['\\', '0']
  else if c = '\t' then ['\\', 't']
  else if c = '\r' then ['\\', 'r']
  else if c = '\n' then ['\\', 'n']
  else if c = '"' || c = '\\' then ['\\', c]
  else if clings c || isUnprintable c then codePoint c
  else [c]

/-- A text in quotes. -/
def quoted (s : String) : String := String.ofList ('"' :: s.toList.flatMap escape ++ ['"'])

end Scripting.Text
