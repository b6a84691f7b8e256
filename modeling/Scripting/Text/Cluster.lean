/-
Where clusters end.

The classes of two neighbours nearly always decide whether they belong to one cluster. Three
rules look further back. Flags are pairs, counted from where the row of halves began. A
joiner joins a picture only to a picture. And a consonant joins a consonant before it only
if there is a linker among the marks between them. A `Context` keeps what these rules have to
know, so a text is read once, from the left.
-/
import Scripting.Text.ClusterClass

set_option autoImplicit false

namespace Scripting.Text

/-- How far a conjunct has come. -/
inductive Conjunct where
  | none
  /-- A consonant, and marks after it. -/
  | consonant
  /-- A consonant, and marks after it with a linker among them. -/
  | linked
deriving DecidableEq

/-- What has been read of a text, as far as it decides whether a cluster ends. -/
structure Context where
  /-- The class of the last character; `none` at the beginning. -/
  last : Option ClusterClass
  /-- The halves of flags at the end are odd in number. -/
  halfFlag : Bool
  /-- The end is a picture with its marks, up to a joiner. -/
  picture : Bool
  conjunct : Conjunct

namespace Context

/-- Nothing has been read. -/
def start : Context := ⟨none, false, false, .none⟩

/-- Whether two neighbours belong to one cluster by their classes alone. -/
def bind : ClusterClass → ClusterClass → Bool
  | .carriageReturn, .lineFeed => true
  | .carriageReturn, _ | .lineFeed, _ | .control, _ => false
  | _, .carriageReturn | _, .lineFeed | _, .control => false
  | .leading, .leading | .leading, .vowel | .leading, .openBlock | .leading, .closedBlock => true
  | .openBlock, .vowel | .openBlock, .trailing | .vowel, .vowel | .vowel, .trailing => true
  | .closedBlock, .trailing | .trailing, .trailing => true
  | _, .extend _ | _, .nonJoiner | _, .joiner | _, .spacing => true
  | .prepended, _ => true
  | _, _ => false

/-- Whether a character goes on with the cluster that is being read. -/
def continues (x : Context) (class_ : ClusterClass) : Bool :=
  match x.last with
  | none => false
  | some last =>
    bind last class_ ||
      (class_ = .consonant && x.conjunct = .linked) ||
      (last = .joiner && class_ = .picture && x.picture) ||
      (class_ = .regional && x.halfFlag)

/-- What has been read together with one more character. -/
def next (x : Context) (class_ : ClusterClass) : Context where
  last := some class_
  halfFlag := class_ = .regional && !x.halfFlag
  picture :=
    match class_ with
    | .picture => true
    -- Marks may stand before the joiner, but not after it.
    | .extend _ | .nonJoiner | .joiner => x.picture && x.last ≠ some .joiner
    | _ => false
  conjunct :=
    match class_ with
    | .consonant => .consonant
    | .extend true => if x.conjunct = .none then .none else .linked
    | .extend false | .joiner => x.conjunct
    | _ => .none

end Context

end Scripting.Text
