/-
Scopes in the hands of a host.

A host that works with scopes directly refers to them through named handles, and may hold
values under names of its own. Its handles and held values are all the references from outside
of the store, so after every operation that may have dropped a reference the store can be swept
exactly.
-/
import Scripting.Scope.Release

set_option autoImplicit false

namespace Scripting

/-- A store together with the handles and the values that a host has on it. -/
structure Handles where
  store : Store
  scopes : List (String × ScopeId)
  held : List (String × Value)

namespace Handles

/-- Put an entry under a key, in place of one that is there. -/
def put {α : Type} (key : String) (x : α) (entries : List (String × α)) : List (String × α) :=
  (key, x) :: entries.filter (·.1 ≠ key)

/-- Remove the entry under a key. -/
def remove {α : Type} (key : String) (entries : List (String × α)) : List (String × α) :=
  entries.filter (·.1 ≠ key)

/-- A host that has nothing. -/
def empty : Handles := ⟨.empty, [], []⟩

/-- The values that are held. -/
def heldValues (h : Handles) : List Value := h.held.map (·.2)

/-- The functions of a scope that are held. -/
def heldFunctions (h : Handles) (s : ScopeId) : List Closure := functionsAmong h.heldValues s

/-- How many handles there are on a scope. -/
def count (h : Handles) (s : ScopeId) : Nat := h.scopes.countP (·.2 = s)

/-- The scopes that there is no handle on. -/
def loose (h : Handles) : List ScopeId := (h.store.scopes.map (·.id)).filter (h.count · = 0)

/-- Remove what is referred to neither by the host nor in the store. -/
def tidy (h : Handles) : Handles := { h with store := h.store.sweep h.loose h.heldFunctions }

/-- The scope of a handle. -/
def scope? (h : Handles) (handle : String) : Option ScopeId := h.scopes.lookup handle

/-- The value held under a name. -/
def held? (h : Handles) (name : String) : Option Value := h.held.lookup name

/-- Let a handle refer to a scope. -/
def share (h : Handles) (s : ScopeId) (handle : String) : Handles :=
  { h with scopes := put handle s h.scopes }.tidy

/-- Make a scope in `parent`, or a global one, and a handle on it. -/
def newScope (h : Handles) (parent : Option ScopeId) (handle : String) : Handles :=
  let (s, store) := h.store.newScope parent
  { h with store := store }.share s handle

/-- Give up a handle. -/
def drop (h : Handles) (handle : String) : Handles :=
  { h with scopes := remove handle h.scopes }.tidy

/-- Bind a name in a scope. -/
def define (h : Handles) (s : ScopeId) (name : String) (value : Value) : Handles :=
  { h with store := h.store.define s name value }.tidy

/-- Assign to a name from a scope; the flag tells whether it was bound. -/
def assign (h : Handles) (s : ScopeId) (name : String) (value : Value) : Bool × Handles :=
  match h.store.assign? s name value with
  | some store => (true, { h with store := store }.tidy)
  | none => (false, h.tidy)

/-- Declare a function without parameters and with an empty body. -/
def declare (h : Handles) (s : ScopeId) (name : String) : Handles :=
  let (f, store) := h.store.newFunction s name [] []
  { h with store := store }.define s name (.function f)

/-- Hold the value of a name; the flag tells whether it has one. -/
def hold (h : Handles) (s : ScopeId) (name key : String) : Bool × Handles :=
  match h.store.get? s name with
  | some v => (true, { h with held := put key v h.held }.tidy)
  | none => (false, h)

/-- Give up a held value; the flag tells whether there was one. -/
def dropHeld (h : Handles) (key : String) : Bool × Handles :=
  ((h.held? key).isSome, { h with held := remove key h.held }.tidy)

/-- `release_if_unreachable`, as a host may call it for a scope that it has handles on. -/
def release (h : Handles) (s : ScopeId) : Bool × Handles :=
  let (released, store) := h.store.release (h.count s) h.heldFunctions s
  (released, { h with store := store }.tidy)

end Handles

end Scripting
