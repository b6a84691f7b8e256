/-
Output and those who listen to it.

Whatever a session has to tell is an *event*: a line printed by the program, the value of a
statement that is echoed, or a failure. Events go over a *channel* to its listeners, in the order
in which they were registered. A listener may register more listeners while it is
being told of an event; those are told of the next event first.
-/
import Scripting.Error

set_option autoImplicit false

namespace Scripting

/-- What an event is about. -/
inductive EventKind where
  | print
  | value
  | error (stage : Stage)
deriving DecidableEq

/-- `OutputEvent`: something that a session tells. -/
structure Event where
  kind : EventKind
  text : String
deriving DecidableEq

namespace Event

/-- A line that a program prints. -/
def print (text : String) : Event := ⟨.print, text⟩

/-- The value of an echoed statement. -/
def value (text : String) : Event := ⟨.value, text⟩

/-- A failure, told by its message. -/
def failure (f : Failure) : Event := ⟨.error f.stage, f.message⟩

/-- Whether the event is a failure. -/
def isError (e : Event) : Bool :=
  match e.kind with
  | .error _ => true
  | _ => false

end Event

/-- A listener: the tag it is known by, and the listeners that it registers when it is told of an
event, which may depend on how many there are at that moment. -/
inductive Listener where
  | mk (tag : String) (registers : Nat → List Listener)

namespace Listener

/-- The tag of a listener. -/
def tag : Listener → String
  | mk tag _ => tag

/-- The listeners that a listener registers when it sees `count` of them. -/
def registers : Listener → Nat → List Listener
  | mk _ registers => registers

/-- A listener that only listens. -/
def plain (tag : String) : Listener := mk tag fun _ => []

/-- A listener that registers another one as long as there are fewer than `below`. -/
def spawning (tag child : String) (below : Nat) : Listener :=
  mk tag fun count => if count < below then [plain child] else []

end Listener

/-- `OutputChannel`: the listeners of a session, in the order of registration. -/
structure Channel where
  listeners : List Listener

namespace Channel

/-- Nobody listens. -/
def empty : Channel := ⟨[]⟩

/-- `listener_count`. -/
def count (c : Channel) : Nat := c.listeners.length

/-- Add a listener after all the others. -/
def register (c : Channel) (l : Listener) : Channel := ⟨c.listeners ++ [l]⟩

/-- Tell each of `told` of one event: the tags in the order of telling, and the channel with what
they registered. -/
def tell (c : Channel) (told : List Listener) : List String × Channel :=
  told.foldl
    (fun (tags, c) l => (tags ++ [l.tag], (l.registers c.count).foldl register c)) ([], c)

/-- Emit an event to the listeners there are when it begins. The result is who was told of
what, in order, and the channel afterwards. -/
def emit (c : Channel) (event : Event) : List (String × Event) × Channel :=
  let (tags, c) := c.tell c.listeners
  (tags.map (·, event), c)

/-- Emit one event after the other, after what has been `told` already, of which the last comes
first. -/
def emitFrom (c : Channel) (told : List (String × Event)) :
    List Event → List (String × Event) × Channel
  | [] => (told.reverse, c)
  | e :: es =>
    let (now, c) := c.emit e
    emitFrom c (now.reverse ++ told) es

/-- Emit one event after the other. -/
def emitAll (c : Channel) (events : List Event) : List (String × Event) × Channel :=
  emitFrom c [] events

end Channel

end Scripting
