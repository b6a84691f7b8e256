/-
Scopes and the store they live in.

A scope binds names to values and, unless it is a global one, lies in an older scope, its
parent. The store lists the scopes that are alive, the youngest first. So the parent of a
scope stands further down the list, and following the parents from a scope is one walk down
the list: it cannot run in circles, and it ends. The scopes met on that walk are the
*chain* of the scope; a name means what the first scope of the chain that binds it says.

Scopes and functions are numbered as they are made, and no number is used twice.
-/
import Scripting.Value

set_option autoImplicit false

namespace Scripting

/-! ## Bindings -/

/-- The names of a scope with their values. No name occurs twice. -/
abbrev Bindings : Type := List (String × Value)

namespace Bindings

/-- The value of a name. -/
def get? (name : String) : Bindings → Option Value
  | [] => none
  | (n, v) :: rest => if n = name then some v else get? name rest

/-- Give a name a value; a value that it had is replaced. -/
def set (name : String) (value : Value) : Bindings → Bindings
  | [] => [(name, value)]
  | (n, v) :: rest => if n = name then (n, value) :: rest else (n, v) :: set name value rest

/-- Whether a name has a value. -/
def binds (b : Bindings) (name : String) : Bool := (b.get? name).isSome

@[simp] theorem get?_nil (name : String) : get? name [] = none := rfl

theorem get?_set (b : Bindings) (name other : String) (value : Value) :
    (b.set name value).get? other = if other = name then some value else b.get? other := by
  induction b with
  | nil => simp [set, get?, eq_comm]
  | cons entry rest ih =>
    obtain ⟨n, v⟩ := entry
    by_cases h : n = name
    · by_cases ho : n = other
      · simp_all [set, get?]
      · simp_all [set, get?, eq_comm]
    · by_cases ho : n = other
      · simp_all [set, get?]
      · simp_all [set, get?]

end Bindings

/-! ## The store -/

/-- A scope in the store: an `Environment`. -/
structure Scope where
  id : ScopeId
  parent : Option ScopeId
  bindings : Bindings
  /-- Whether a function has ever been declared in it. -/
  declares : Bool

/-- The scopes that are alive, the youngest first, and the numbers to use next. -/
structure Store where
  scopes : List Scope
  nextScope : ScopeId
  nextFunction : FunctionId
  /-- The scopes that nobody works in any more, the one that was left last first. -/
  vacated : List ScopeId

namespace Store

/-- Nothing has been made yet. -/
def empty : Store := ⟨[], 0, 0, []⟩

/-! ### Chains -/

/-- The chain of scope `s` in a list of scopes, nearest first. -/
def chainIn : List Scope → ScopeId → List Scope
  | [], _ => []
  | scope :: older, s =>
    if scope.id = s then
      match scope.parent with
      | some p => scope :: chainIn older p
      | none => [scope]
    else chainIn older s

/-- The chain of a scope, nearest first. -/
def chain (store : Store) (s : ScopeId) : List Scope := chainIn store.scopes s

/-- `depth`: how many scopes the chain of a scope has. -/
def depth (store : Store) (s : ScopeId) : Nat := (store.chain s).length

/-- The value of a name along the chain of scope `s`. -/
def getIn (name : String) : List Scope → ScopeId → Option Value
  | [], _ => none
  | scope :: older, s =>
    if scope.id = s then
      match scope.bindings.get? name, scope.parent with
      | some v, _ => some v
      | none, some p => getIn name older p
      | none, none => none
    else getIn name older s

/-- `get`: the meaning of a name in a scope. -/
def get? (store : Store) (s : ScopeId) (name : String) : Option Value := getIn name store.scopes s

/-- Give a new value to the nearest binding of a name along the chain of scope `s`. -/
def assignIn (name : String) (value : Value) : List Scope → ScopeId → Option (List Scope)
  | [], _ => none
  | scope :: older, s =>
    if scope.id = s then
      if scope.bindings.binds name then
        some ({ scope with bindings := scope.bindings.set name value } :: older)
      else
        match scope.parent with
        | some p => (assignIn name value older p).map (scope :: ·)
        | none => none
    else (assignIn name value older s).map (scope :: ·)

/-- `assign`: the nearest binding of a name changes its value. `none` if there is no binding;
assignment never makes one. -/
def assign? (store : Store) (s : ScopeId) (name : String) (value : Value) : Option Store :=
  (assignIn name value store.scopes s).map fun scopes => { store with scopes := scopes }

/-! ### Single scopes -/

/-- The scope of a number. -/
def scope? (store : Store) (s : ScopeId) : Option Scope := store.scopes.find? (·.id = s)

/-- Change one scope of a list. -/
def updateIn (f : Scope → Scope) : List Scope → ScopeId → List Scope
  | [], _ => []
  | scope :: older, s =>
    if scope.id = s then f scope :: older else scope :: updateIn f older s

/-- Change scope `s`. -/
def update (store : Store) (s : ScopeId) (f : Scope → Scope) : Store :=
  { store with scopes := updateIn f store.scopes s }

/-- `define`: bind a name in a scope. Bindings of the name further out are hidden, not touched. -/
def define (store : Store) (s : ScopeId) (name : String) (value : Value) : Store :=
  store.update s fun scope => { scope with bindings := scope.bindings.set name value }

/-- Drop the bindings of a scope. -/
def clear (store : Store) (s : ScopeId) : Store :=
  store.update s fun scope => { scope with bindings := [] }

/-- The bindings of a scope. -/
def bindings (store : Store) (s : ScopeId) : Bindings :=
  match store.scope? s with
  | some scope => scope.bindings
  | none => []

/-- The scope around a scope. -/
def parent? (store : Store) (s : ScopeId) : Option ScopeId := (store.scope? s).bind (·.parent)

/-- `names`: those bound in a scope itself, in order. -/
def names (store : Store) (s : ScopeId) : List String :=
  ((store.bindings s).map (·.1)).mergeSort fun a b => !decide (b < a)

/-! ### Making -/

/-- `with_parent` and `global`: make an empty scope in `parent`, or a global one. -/
def newScope (store : Store) (parent : Option ScopeId) : ScopeId × Store :=
  (store.nextScope,
    { store with
      scopes := ⟨store.nextScope, parent, [], false⟩ :: store.scopes
      nextScope := store.nextScope + 1 })

/-- Make a function declared in scope `s`. -/
def newFunction (store : Store) (s : ScopeId) (name : String) (parameters : List String)
    (body : List Stmt) : Closure × Store :=
  (⟨store.nextFunction, name, parameters, body, s⟩,
    { store.update s fun scope => { scope with declares := true } with
      nextFunction := store.nextFunction + 1 })

/-- `install_builtins`: bind every builtin under its own name. -/
def defineBuiltins (store : Store) (s : ScopeId) : Store :=
  Builtin.all.foldl (fun store b => store.define s b.name (.builtin b)) store

end Store

end Scripting
