/-
Where something stands in a source text.

A *position* is a line and a column, both counted from one. Only the newline
character starts a line, and a column counts characters, whatever the number of
bytes each of them takes. There are two ways to a position. Reading a text from
the left, `Position.advance` moves over one character. Given a byte offset,
`LineIndex.position` finds the line in a table of line starts and counts the
characters from there; an offset inside a character has no character column, and
counts bytes instead.
-/
set_option autoImplicit false

namespace Scripting

/-- A place in a source text: line and column, both counted from one. -/
structure Position where
  line : Nat
  column : Nat
deriving DecidableEq, Repr, Inhabited

namespace Position

/-- The first place of every text. -/
def start : Position := ⟨1, 1⟩

/-- The place after the character `c` standing at `p`. -/
def advance (p : Position) (c : Char) : Position :=
  if c = '\n' then ⟨p.line + 1, 1⟩ else ⟨p.line, p.column + 1⟩

/-- The place after a text that begins at `p`. -/
def advanceAll (p : Position) (text : List Char) : Position :=
  text.foldl advance p

/-- How messages name a position. -/
def text (p : Position) : String :=
  s!"line {p.line}, column {p.column}"

@[simp] theorem advanceAll_nil (p : Position) : p.advanceAll [] = p := rfl

@[simp] theorem advanceAll_cons (p : Position) (c : Char) (cs : List Char) :
    p.advanceAll (c :: cs) = (p.advance c).advanceAll cs := rfl

theorem advanceAll_append (p : Position) (cs ds : List Char) :
    p.advanceAll (cs ++ ds) = (p.advanceAll cs).advanceAll ds := by
  simp [advanceAll, List.foldl_append]

end Position

/-! ## Byte offsets -/

/-- The number of bytes a text takes in UTF-8. -/
def byteLength (text : List Char) : Nat :=
  text.foldl (fun size c => size + c.utf8Size) 0

/-- The number of characters in the first `bytes` bytes of a text; `none` if
that cuts a character in two or runs past the end. -/
def charactersWithin : List Char → Nat → Option Nat
  | _, 0 => some 0
  | [], _ + 1 => none
  | c :: cs, n + 1 =>
    if c.utf8Size ≤ n + 1 then (charactersWithin cs (n + 1 - c.utf8Size)).map (· + 1) else none

/-- A line of a text: the byte offset it starts at, and the text from there on. -/
structure Line where
  offset : Nat
  text : List Char

/-- The lines that begin after a newline of `text`, which itself stands at byte `offset`. -/
def laterLines (offset : Nat) : List Char → List Line
  | [] => []
  | c :: cs =>
    let next := offset + c.utf8Size
    if c = '\n' then ⟨next, cs⟩ :: laterLines next cs else laterLines next cs

/-- The line starts of a text, made once and asked for many byte offsets. The first
line is kept apart because it is there for every text. -/
structure LineIndex where
  first : Line
  later : List Line
  size : Nat

namespace LineIndex

/-- The index of `source`. -/
def ofText (source : List Char) : LineIndex where
  first := ⟨0, source⟩
  later := laterLines 0 source
  size := byteLength source

/-- The position of a byte offset. Offsets past the end stand for the end. -/
def position (index : LineIndex) (offset : Nat) : Position :=
  let offset := min offset index.size
  let earlier := index.later.takeWhile (·.offset ≤ offset)
  let line := earlier.getLast?.getD index.first
  let bytes := offset - line.offset
  ⟨earlier.length + 1, (charactersWithin line.text bytes).getD bytes + 1⟩

/-- `end`: the position after the last character. -/
def endPosition (index : LineIndex) : Position :=
  index.position index.size

end LineIndex

end Scripting
