/-
Reading a text as tokens.

At each place the longest piece of text that is a token is taken. The first character
decides which kinds of token are possible, and no two kinds that it leaves open disagree on
more than their length, so taking the longest is a matter of running on: a number takes a
point only with a digit after it, a word takes all its letters before it is looked up among
the reserved ones, and a slash is an operator unless a comment begins there and ends.

`munch` takes one token. Its result is tied to the text it was given: the token's own
text is not empty and, together with what is left, it is that text. So nothing is lost, and
`tokenize` comes to an end.
-/
import Scripting.Error

set_option autoImplicit false

namespace Scripting

/-! ## Characters -/

/-- The white space between tokens. -/
def isSpace (c : Char) : Bool :=
  c = ' ' || c = '\t' || c = '\r' || c = '\n' || c = '\x0c'

/-- A character that a name can begin with. -/
def isNameStart (c : Char) : Bool :=
  ('a' ≤ c && c ≤ 'z') || ('A' ≤ c && c ≤ 'Z') || c = '_'

/-- A character that a name can go on with. -/
def isNamePart (c : Char) : Bool :=
  isNameStart c || Decimal.isDigit c

/-! ## One token -/

/-- One token taken from the front of `text`. -/
structure Munch (text : List Char) where
  token : Token
  taken : List Char
  rest : List Char
  taken_append_rest : taken ++ rest = text
  taken_ne_nil : taken ≠ []

theorem Munch.length_rest_lt {text : List Char} (m : Munch text) :
    m.rest.length < text.length := by
  have h := congrArg List.length m.taken_append_rest
  have h' := List.length_pos_iff.2 m.taken_ne_nil
  simp only [List.length_append] at h
  omega

namespace Munch

/-- The token is the first `n + 1` characters of the text. -/
def first (token : Token) (n : Nat) (c : Char) (cs : List Char) : Munch (c :: cs) where
  token := token
  taken := c :: cs.take n
  rest := cs.drop n
  taken_append_rest := by simp
  taken_ne_nil := by simp

/-- The token is the first character and all that follow it while `p` holds. -/
def while_ (p : Char → Bool) (token : List Char → Token) (c : Char) (cs : List Char) :
    Munch (c :: cs) where
  token := token (c :: cs.takeWhile p)
  taken := c :: cs.takeWhile p
  rest := cs.dropWhile p
  taken_append_rest := by simp
  taken_ne_nil := by simp

end Munch

/-- The text after a `BlockComment` whose opening mark has been read. Inside, a star takes the
next character with it unless that is the slash that closes the comment, so stars are
read in pairs. `none` if the comment is not closed. -/
def afterBlockComment : List Char → Option (List Char)
  | [] => none
  | '*' :: '/' :: rest => some rest
  | '*' :: _ :: rest => afterBlockComment rest
  | _ :: rest => afterBlockComment rest

/-- How many characters a `Number` has after its first digit. A point belongs to it only if a digit
follows. -/
def numberLength (cs : List Char) : Nat :=
  let whole := (cs.takeWhile Decimal.isDigit).length
  match cs.dropWhile Decimal.isDigit with
  | '.' :: d :: rest =>
    if Decimal.isDigit d then whole + 2 + (rest.takeWhile Decimal.isDigit).length else whole
  | _ => whole

/-- A word is a keyword if it is reserved, and else an `Identifier`. -/
def wordToken (word : List Char) : Token :=
  let word := String.ofList word
  match Keyword.ofText? word with
  | some k => .keyword k
  | none => .identifier word

/-- The symbol of one character, other than the slash. -/
def singleSymbol? : Char → Option Symbol
  | '+' => some .plus
  | '-' => some .minus
  | '*' => some .star
  | '%' => some .percent
  | '!' => some .bang
  | '=' => some .equals
  | '<' => some .less
  | '>' => some .greater
  | '(' => some .leftParen
  | ')' => some .rightParen
  | '{' => some .leftBrace
  | '}' => some .rightBrace
  | ',' => some .comma
  | ';' => some .semicolon
  | _ => none

/-- The symbol of two characters; the second is always `=`. -/
def doubleSymbol? : Char → Option Symbol
  | '=' => some .equalEqual
  | '!' => some .bangEqual
  | '<' => some .lessEqual
  | '>' => some .greaterEqual
  | _ => none

/-- The symbol that the text `c :: cs` begins with. -/
def munchSymbol (c : Char) (cs : List Char) : Option (Munch (c :: cs)) :=
  match cs.head?, doubleSymbol? c with
  | some '=', some s => some (.first (.symbol s) 1 c cs)
  | _, _ => (singleSymbol? c).map fun s => .first (.symbol s) 0 c cs

/-- The token that begins with a quote: a `String` that runs to the next quote, whose contents are
those of `parse_string`, or an `UnterminatedString` that runs to the end. -/
def munchString (cs : List Char) : Munch ('"' :: cs) :=
  let contents := cs.takeWhile (· ≠ '"')
  if contents.length < cs.length then
    .first (.string (String.ofList contents)) (contents.length + 1) '"' cs
  else .first .unterminatedString contents.length '"' cs

/-- The token that begins with a slash: a `LineComment` or a `BlockComment` if one begins here and
ends, and else the `Slash` alone. -/
def munchSlash : (cs : List Char) → Munch ('/' :: cs)
  | '/' :: ds => .while_ (· ≠ '\n') (fun _ => .lineComment) '/' ('/' :: ds)
  | '*' :: ds =>
    match afterBlockComment ds with
    | some rest => .first .blockComment (ds.length + 1 - rest.length) '/' ('*' :: ds)
    -- A comment that never ends is not one: its marks are read as operators.
    | none => .first (.symbol .slash) 0 '/' ('*' :: ds)
  | cs => .first (.symbol .slash) 0 '/' cs

/-- The longest token at the front of a text, by the patterns of `Token`. `none` at the end of the
text and where no token begins. The value of a number is that of `parse_number`. -/
def munch : (text : List Char) → Option (Munch text)
  | [] => none
  | '"' :: cs => some (munchString cs)
  | '/' :: cs => some (munchSlash cs)
  | c :: cs =>
    if isSpace c then some (.while_ isSpace (fun _ => .blank) c cs)
    else if isNameStart c then some (.while_ isNamePart wordToken c cs)
    else if Decimal.isDigit c then
      let n := numberLength cs
      some (.first (.number (Decimal.ofLiteral (c :: cs.take n)).toFloat) n c cs)
    else munchSymbol c cs

/-! ## The whole text -/

/-- The loop of `tokenize`: the lexemes of the text that begins at byte `offset` of an indexed
source, after those already `read`, of which the last comes first. A lexeme stands where the index
says that its first byte stands; the end, `Eof`, stands where the index ends. -/
def tokenizeFrom (index : LineIndex) (offset : Nat) (read : List Lexeme) (text : List Char) :
    Except LexError (List Lexeme) :=
  match text with
  | [] => .ok (Lexeme.mk .endOfInput "" index.endPosition :: read).reverse
  | c :: cs =>
    match munch (c :: cs) with
    | none => .error ⟨.invalidCharacter c, index.position offset⟩
    | some m =>
      if m.token = .unterminatedString then .error ⟨.unterminatedString, index.position offset⟩
      else
        tokenizeFrom index (offset + byteLength m.taken)
          (if m.token.isSkipped then read
            else ⟨m.token, String.ofList m.taken, index.position offset⟩ :: read)
          m.rest
termination_by text.length
decreasing_by exact m.length_rest_lt

/-- `tokenize`: the lexemes of a source text. Blanks and comments are left out, and the end is
marked by a lexeme of its own. The first fault ends the reading. -/
def tokenize (source : String) : Except LexError (List Lexeme) :=
  tokenizeFrom (.ofText source.toList) 0 [] source.toList

end Scripting
