/-
When a scope is given up.

Scopes and functions are kept alive by references. A scope is referred to by those who work in
it, by the scopes that lie in it, and by the functions declared in it; a function by the
bindings that hold it and by whoever else holds it at the moment. What nothing
refers to is removed, and with it what only it referred to: this is `sweep`. There is no search
for circles.

A function declared in a scope is bound in that scope and refers back to it, so the two keep
each other alive. `release` breaks this circle when a scope is left: if the one who
leaves it and functions known nowhere but in the scope itself are all that refer to it, then
nobody will ask for its bindings again, and they are dropped.

References are counted on the store as it stands; `held` gives the functions of a scope that are
held outside of it, and it is asked only for scopes that can have some. Two facts keep the counting
short. Scopes that lie in a scope are younger than it, so they stand before it in the list. And a
scope in which no function was ever declared is referred to by none.
-/
import Scripting.Scope

set_option autoImplicit false

namespace Scripting

/-- The functions declared in scope `s` that a scope binds, once for each binding. -/
def Scope.functionsOf (scope : Scope) (s : ScopeId) : List Closure :=
  scope.bindings.filterMap (·.2.closureOf? s)

/-- The functions declared in scope `s` among some values, once for each time. -/
def functionsAmong (values : List Value) (s : ScopeId) : List Closure :=
  values.filterMap (·.closureOf? s)

namespace Store

/-! ## Counting -/

/-- The functions declared in a scope that are alive, once for each reference to them: each time
that one is held and each binding counts. -/
def capturing (store : Store) (held : ScopeId → List Closure) (scope : Scope) : List Closure :=
  if scope.declares then held scope.id ++ store.scopes.flatMap (·.functionsOf scope.id) else []

/-- How many scopes lie in scope `s`. -/
def children (store : Store) (s : ScopeId) : Nat :=
  (store.scopes.takeWhile (·.id ≠ s)).countP (·.parent = some s)

/-- How many functions there are among references to functions. -/
def distinct (known : List Closure) : Nat := (known.map (·.id)).eraseDups.length

/-- The count `captured_only_here`: how many of the functions declared in a scope are bound there
and referred to by nothing else, given all the references to them. -/
def ownFunctions (scope : Scope) (known : List Closure) : Nat :=
  if known.isEmpty then 0
  else (scope.functionsOf scope.id).countP fun f => known.countP (·.id = f.id) = 1

/-- The strong count of an `Environment`: the number of references to a scope, of which `handles`
are by those who work in it. -/
def references (store : Store) (handles : Nat) (known : List Closure) (scope : Scope) : Nat :=
  handles + store.children scope.id + distinct known

/-! ## Dropping bindings -/

/-- The test of `release_if_unreachable`: whether all references to a scope, but for the one handle
that asks, are those of functions known nowhere but in the scope itself. -/
def isUnreachable (store : Store) (handles : Nat) (held : ScopeId → List Closure)
    (scope : Scope) : Bool :=
  let known := store.capturing held scope
  store.references handles known scope = 1 + ownFunctions scope known

/-- `release_if_unreachable`: drop the bindings of scope `s` if nobody else can reach it, and tell
whether that was done. -/
def release (store : Store) (handles : Nat) (held : ScopeId → List Closure) (s : ScopeId) :
    Bool × Store :=
  match store.scope? s with
  | none => (false, store)
  | some scope =>
    if store.isUnreachable handles held scope then (true, store.clear s) else (false, store)

/-! ## Removing -/

/-- Whether a scope binds a function declared in scope `s`. -/
def bindsFunctionOf (s : ScopeId) (scope : Scope) : Bool :=
  scope.bindings.any (·.2.closureOf? s |>.isSome)

/-- Whether a scope refers to another one: it lies in it, or it binds a function declared in it. -/
def refersTo (scope other : Scope) : Bool :=
  scope.parent = some other.id || (other.declares && bindsFunctionOf other.id scope)

/-- Whether something refers to a scope that nobody works in. The scope that was made next after it
is the one most likely to do so, and comes first among the `younger` ones. -/
def isReferred (held : ScopeId → List Closure) (younger : List Scope) (scope : Scope)
    (older : List Scope) : Bool :=
  younger.any (refersTo · scope) ||
    (scope.declares &&
      (!(held scope.id).isEmpty || (scope :: older).any (bindsFunctionOf scope.id)))

/-- Remove the first scope that is `loose` and that nothing refers to, once the `younger` ones have
been passed. -/
def removeDead? (held : ScopeId → List Closure) (loose : List ScopeId) (younger : List Scope) :
    List Scope → Option (ScopeId × List Scope)
  | [] => none
  | scope :: older =>
    if loose.contains scope.id && !isReferred held younger scope older then
      some (scope.id, younger.reverse ++ older)
    else removeDead? held loose (scope :: younger) older

theorem length_of_removeDead? {held : ScopeId → List Closure} {loose : List ScopeId}
    {younger scopes rest : List Scope} {dead : ScopeId}
    (h : removeDead? held loose younger scopes = some (dead, rest)) :
    rest.length + 1 = younger.length + scopes.length := by
  induction scopes generalizing younger with
  | nil => cases h
  | cons scope older ih =>
    rw [removeDead?] at h
    split at h
    · cases h
      simp [Nat.add_assoc]
    · have hlength := ih h
      simp only [List.length_cons] at hlength ⊢
      omega

/-- Remove loose scopes one at a time until something refers to each of those that are left. Nobody
works in a loose scope; all others stay. -/
def sweepFrom (held : ScopeId → List Closure) (loose : List ScopeId) (scopes : List Scope) :
    List ScopeId × List Scope :=
  if loose.isEmpty then (loose, scopes)
  else
    match _ : removeDead? held loose [] scopes with
    | none => (loose, scopes)
    | some (dead, rest) => sweepFrom held (loose.erase dead) rest
termination_by scopes.length
decreasing_by
  have hlength := length_of_removeDead? ‹_›
  rw [List.length_nil] at hlength
  omega

/-- Remove what is dead when nobody works in the `loose` scopes. -/
def sweep (store : Store) (loose : List ScopeId) (held : ScopeId → List Closure) : Store :=
  { store with scopes := (sweepFrom held loose store.scopes).2 }

/-! ## Leaving -/

/-- Remove what is dead when nobody works in the scopes that have been left. -/
def settle (store : Store) (held : ScopeId → List Closure) : Store :=
  let (vacated, scopes) := sweepFrom held store.vacated store.scopes
  { store with scopes := scopes, vacated := vacated }

/-- Work in scope `s` no longer. -/
def vacate (store : Store) (s : ScopeId) : Store := { store with vacated := s :: store.vacated }

/-- The end of `execute_block` and `call_closure`: leave scope `s` for good, while `held` is held.
What has died since a scope was left the last time is removed first, so that it does not count; then
the bindings are dropped if nobody but the one who leaves can reach them; and then everything is
removed that only the one who leaves had a use for. -/
def leave (store : Store) (held : ScopeId → List Closure) (s : ScopeId) : Store :=
  (((store.settle held).release 1 held s).2.vacate s).settle held

end Store

end Scripting
