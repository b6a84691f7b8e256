/-
Lines with backspaces in them.

A backspace takes back the cluster typed before it, and nothing at the beginning of a line. What
it takes is known by the number of bytes that the cluster has in UTF-8, and this
number is kept in a single byte: a cluster of 256 bytes or more is only taken back in part.
-/
import Scripting.Text.Cluster

set_option autoImplicit false

namespace Scripting.Text

/-- The backspace. -/
def backspace : Char := '\x08'

/-- A line while it is typed. -/
structure TypedLine where
  /-- The text, the last character first. -/
  text : List Char
  /-- How many bytes each cluster has, the last one first. -/
  sizes : List Nat
  /-- What has been typed since the last backspace. -/
  context : Context

/-- Drop as many characters from the front as have `n` bytes together. -/
def dropBytes : (n : Nat) → List Char → List Char
  | 0, cs => cs
  | _ + 1, [] => []
  | n + 1, c :: cs => dropBytes (n + 1 - c.utf8Size) cs

namespace TypedLine

/-- Nothing has been typed. -/
def empty : TypedLine := ⟨[], [], .start⟩

/-- Take back the last cluster. What follows begins a cluster of its own. -/
def takeBack (l : TypedLine) : TypedLine :=
  match l.sizes with
  | [] => { l with context := .start }
  | n :: sizes => ⟨dropBytes (n % 256) l.text, sizes, .start⟩

/-- Type a character other than the backspace. -/
def add (l : TypedLine) (c : Char) : TypedLine :=
  let class_ := ClusterClass.of c
  let sizes :=
    match l.context.continues class_, l.sizes with
    | true, n :: sizes => (n + c.utf8Size) :: sizes
    | _, sizes => c.utf8Size :: sizes
  ⟨c :: l.text, sizes, l.context.next class_⟩

/-- Type a character. -/
def type (l : TypedLine) (c : Char) : TypedLine :=
  if c = backspace then l.takeBack else l.add c

end TypedLine

/-- What is left of a line when its backspaces have done their work. -/
def typed (line : List Char) : List Char :=
  if line.contains backspace then (line.foldl TypedLine.type .empty).text.reverse else line

end Scripting.Text
