/-
The same code and the same store in another guise.

A name says which binding is meant, a number says which scope or which function is meant, and a
position says where code stands. If all variables had other names, different names for different
variables, if the scopes and functions had been numbered from later on, with older scopes left over
from before, and if the code stood elsewhere, nothing that is done with values and stores would come
out differently: each operation commutes with the change. The name that a function was declared with
is an exception. It is printed, so it stays.

What is left over from before must be out of reach: its scopes, what they lie in and what their
functions were declared in all have numbers from before. And it must not be about to go: each of its
scopes that nobody works in is referred to by another one. A guise carries the proofs of this, so
nothing has to be known of the store that is put into it.
-/
import Scripting.Machine
import Scripting.Proofs.Reclaim
import Scripting.Proofs.Trees

set_option autoImplicit false

namespace Scripting

/-! ## Guises -/

/-- The scopes have numbers from before, and so has everything that they lead to. Those that have
been left are not dead. -/
structure Leftover (scopes : Nat) (older : List Scope) (left : List ScopeId) : Prop where
  id : ∀ scope ∈ older, scope.id < scopes
  parent : ∀ scope ∈ older, ∀ p, scope.parent = some p → p < scopes
  functions : ∀ scope ∈ older, ∀ entry ∈ scope.bindings, ∀ f, entry.2 = .function f →
    f.scope < scopes
  vacated : ∀ t ∈ left, t < scopes
  alive : Store.removeDead? (fun _ => []) left [] older = none

theorem Leftover.nothing : Leftover 0 [] [] where
  id _ h := absurd h List.not_mem_nil
  parent _ h := absurd h List.not_mem_nil
  functions _ h := absurd h List.not_mem_nil
  vacated _ h := absurd h List.not_mem_nil
  alive := rfl

/-- Other names and positions, and what has been before. -/
structure Guise where
  name : String → String
  name_injective : Function.Injective name
  place : Position → Position
  /-- How many scopes have been made. -/
  scopes : Nat
  /-- How many functions have been made. -/
  functions : Nat
  /-- The scopes that are left over. -/
  older : List Scope
  /-- Those of them that have been left. -/
  vacated : List ScopeId
  leftover : Leftover scopes older vacated
  /-- What has been told, the latest first. -/
  told : List Event
  /-- The readings of the clock that have been used. -/
  readings : List Float

namespace Guise

/-- Other names and positions, where nothing has been before but what was told. -/
def recasting (name : String → String) (h : Function.Injective name) (place : Position → Position)
    (told : List Event) : Guise where
  name := name
  name_injective := h
  place := place
  scopes := 0
  functions := 0
  older := []
  vacated := []
  leftover := .nothing
  told := told
  readings := []

variable (g : Guise)

/-- The expression in another guise. -/
def expr (e : Expr) : Expr := e.recast g.name g.place

/-- The statement in another guise. -/
def stmt (s : Stmt) : Stmt := s.recast g.name g.place

/-- The function in another guise. It keeps the name that it was declared with. -/
def closure (f : Closure) : Closure where
  id := f.id + g.functions
  name := f.name
  parameters := f.parameters.map g.name
  body := f.body.map g.stmt
  scope := f.scope + g.scopes

/-- The value in another guise. -/
def value : Value → Value
  | .function f => .function (g.closure f)
  | v => v

/-- The bindings in another guise. -/
def bindings (b : Bindings) : Bindings := b.map fun entry => (g.name entry.1, g.value entry.2)

/-- The scope in another guise. -/
def scope (scope : Scope) : Scope where
  id := scope.id + g.scopes
  parent := scope.parent.map (· + g.scopes)
  bindings := g.bindings scope.bindings
  declares := scope.declares

/-- The store in another guise, with the scopes that are left over. -/
def store (store : Store) : Store where
  scopes := store.scopes.map g.scope ++ g.older
  nextScope := store.nextScope + g.scopes
  nextFunction := store.nextFunction + g.functions
  vacated := store.vacated.map (· + g.scopes) ++ g.vacated

/-- The fault in another guise. -/
def fault : RuntimeFault → RuntimeFault
  | .undefinedVariable x => .undefinedVariable (g.name x)
  | .undeclaredAssignment x => .undeclaredAssignment (g.name x)
  | fault => fault

/-- The error in another guise. -/
def error (e : RuntimeError) : RuntimeError := ⟨g.fault e.fault, g.place e.position⟩

/-- What an operation yields, in another guise. -/
def result : Except RuntimeError Value → Except RuntimeError Value
  | .ok v => .ok (g.value v)
  | .error e => .error (g.error e)

/-! ## Values -/

section Value

variable (v u : Value)

@[simp] theorem truthy_value : (g.value v).truthy = v.truthy := by cases v <;> rfl

@[simp] theorem text_value : (g.value v).text = v.text := by cases v <;> rfl

@[simp] theorem value_ofLiteral (l : Literal) : g.value (.ofLiteral l) = .ofLiteral l := by
  cases l <;> rfl

@[simp] theorem equals_value : (g.value v).equals (g.value u) = v.equals u := by
  cases v with
  | function f =>
    cases u with
    | function f' =>
      rw [Bool.eq_iff_iff]
      simp [value, Value.equals, closure]
    | _ => rfl
  | _ => cases u <;> rfl

theorem closureOf?_value (s : ScopeId) :
    (g.value v).closureOf? (s + g.scopes) = (v.closureOf? s).map g.closure := by
  cases v with
  | function f =>
    unfold value Value.closureOf?
    dsimp only [closure]
    by_cases hs : f.scope = s
    · rw [if_pos hs, if_pos (by rw [hs])]
      rfl
    · rw [if_neg hs, if_neg fun heq => hs (Nat.add_right_cancel heq)]
      rfl
  | _ => rfl

/-! ## Operations -/

theorem apply_unary (op : UnaryOperator) (p : Position) :
    op.apply (g.value v) (g.place p) = g.result (op.apply v p) := by
  cases op with
  | negate => cases v <;> rfl
  | not =>
    unfold UnaryOperator.apply
    dsimp only
    rw [truthy_value]
    rfl

theorem apply_binary (op : BinaryOperator) (p : Position) :
    op.apply (g.value v) (g.value u) (g.place p) = g.result (op.apply v u p) := by
  cases op with
  | equal | notEqual =>
    unfold BinaryOperator.apply
    dsimp only
    rw [equals_value]
    rfl
  | and | or =>
    unfold BinaryOperator.apply
    dsimp only
    rw [truthy_value]
    cases v.truthy <;> rfl
  -- These two can fail though the kinds are right.
  | divide | modulo =>
    cases v <;> cases u <;> try rfl
    unfold BinaryOperator.apply value
    dsimp only
    split <;> rfl
  | _ => cases v <;> cases u <;> rfl

theorem decided?_value (op : BinaryOperator) :
    op.decided? (g.value v) = (op.decided? v).map g.value := by
  unfold BinaryOperator.decided?
  rw [truthy_value]
  cases op with
  | and | or => cases v.truthy <;> rfl
  | _ => rfl

end Value

section Builtin

variable (arguments : List Value) (p : Position)

theorem single_value :
    Builtin.single (arguments.map g.value) (g.place p)
      = g.result (Builtin.single arguments p) := by
  unfold Builtin.single
  split
  · next v h =>
    obtain ⟨u, rfl, rfl⟩ := List.map_eq_singleton_iff.mp h
    rfl
  · next h =>
    split
    · exact absurd rfl (h _)
    · rw [List.length_map]
      rfl

theorem singleNumber_value (b : Builtin) :
    b.singleNumber (arguments.map g.value) (g.place p)
      = (b.singleNumber arguments p).mapError g.error := by
  unfold Builtin.singleNumber
  rw [single_value]
  cases Builtin.single arguments p with
  | error e => rfl
  | ok v => cases v <;> rfl

theorem apply_builtin (b : Builtin) (now : Float) :
    b.apply (arguments.map g.value) now (g.place p) = g.result (b.apply arguments now p) := by
  unfold Builtin.apply
  cases b with
  | clock => rfl
  | len | type =>
    dsimp only
    rw [single_value]
    cases Builtin.single arguments p with
    | error e => rfl
    | ok v => cases v <;> rfl
  | str =>
    dsimp only
    rw [single_value]
    cases Builtin.single arguments p with
    | error e => rfl
    | ok v =>
      dsimp only [result, bind, Except.bind]
      rw [text_value]
      rfl
  | num =>
    dsimp only
    rw [single_value]
    cases Builtin.single arguments p with
    | error e => rfl
    | ok v =>
      cases v with
      | string contents =>
        dsimp only [result, value, bind, Except.bind]
        split <;> rfl
      | _ => rfl
  | sqrt =>
    dsimp only
    rw [singleNumber_value]
    cases Builtin.singleNumber .sqrt arguments p with
    | error e => rfl
    | ok x =>
      dsimp only [Except.mapError, bind, Except.bind]
      split <;> rfl
  | floor | abs =>
    dsimp only
    rw [singleNumber_value]
    cases Builtin.singleNumber _ arguments p <;> rfl

end Builtin

/-! ## Bindings -/

section Bindings

variable (b : Bindings) (x : String)

theorem get?_bindings : (g.bindings b).get? (g.name x) = (b.get? x).map g.value := by
  induction b with
  | nil => rfl
  | cons entry rest ih =>
    obtain ⟨n, v⟩ := entry
    by_cases hn : n = x
    · simp [bindings, Bindings.get?, hn]
    · simpa [bindings, Bindings.get?, hn, g.name_injective.eq_iff] using ih

theorem set_bindings (v : Value) :
    (g.bindings b).set (g.name x) (g.value v) = g.bindings (b.set x v) := by
  induction b with
  | nil => rfl
  | cons entry rest ih =>
    obtain ⟨n, u⟩ := entry
    by_cases hn : n = x
    · simp [bindings, Bindings.set, hn]
    · simpa [bindings, Bindings.set, hn, g.name_injective.eq_iff] using ih

theorem binds_bindings : (g.bindings b).binds (g.name x) = b.binds x := by
  rw [Bindings.binds, get?_bindings, Option.isSome_map]
  rfl

end Bindings

/-! ## Scopes that are left over -/

section Older

variable (s : ScopeId)

theorem ne_of_lt_scopes {t : ScopeId} (h : t < g.scopes) : t ≠ s + g.scopes :=
  Nat.ne_of_lt (Nat.lt_of_lt_of_le h (Nat.le_add_left _ _))

theorem id_ne_of_mem_older {scope : Scope} (h : scope ∈ g.older) : scope.id ≠ s + g.scopes :=
  g.ne_of_lt_scopes s (g.leftover.id scope h)

theorem parent_ne_of_mem_older {scope : Scope} (h : scope ∈ g.older) :
    scope.parent ≠ some (s + g.scopes) := by
  intro hp
  exact g.ne_of_lt_scopes s (g.leftover.parent scope h _ hp) rfl

/-- Their functions were all declared before. -/
theorem closureOf?_of_mem_older {scope : Scope} (h : scope ∈ g.older) {entry : String × Value}
    (hentry : entry ∈ scope.bindings) : entry.2.closureOf? (s + g.scopes) = none := by
  cases hv : entry.2 with
  | function f =>
    exact if_neg (g.ne_of_lt_scopes s (g.leftover.functions scope h entry hentry f hv))
  | _ => rfl

end Older

/-! ## Stores -/

section Store

variable (store : Store) (s : ScopeId) (x : String)

theorem getIn_scopes (scopes : List Scope) :
    Store.getIn (g.name x) (scopes.map g.scope ++ g.older) (s + g.scopes)
      = (Store.getIn x scopes s).map g.value := by
  induction scopes generalizing s with
  | nil =>
    have hnone : ∀ older : List Scope, (∀ scope ∈ older, scope.id ≠ s + g.scopes) →
        Store.getIn (g.name x) older (s + g.scopes) = none := by
      intro older h
      induction older with
      | nil => rfl
      | cons scope older ih =>
        obtain ⟨hid, holder⟩ := List.forall_mem_cons.mp h
        rw [Store.getIn, if_neg hid, ih holder]
    exact hnone g.older fun scope h => g.id_ne_of_mem_older s h
  | cons scope older ih =>
    by_cases hid : scope.id = s
    · cases hname : scope.bindings.get? x with
      | some v => simp [Store.getIn, Guise.scope, hid, get?_bindings, hname]
      | none =>
        cases hparent : scope.parent with
        | some p => simpa [Store.getIn, Guise.scope, hid, get?_bindings, hname, hparent] using ih p
        | none => simp [Store.getIn, Guise.scope, hid, get?_bindings, hname, hparent]
    · simpa [Store.getIn, Guise.scope, hid] using ih s

theorem get?_store :
    (g.store store).get? (s + g.scopes) (g.name x) = (store.get? s x).map g.value :=
  g.getIn_scopes s x store.scopes

theorem assignIn_scopes (v : Value) (scopes : List Scope) :
    Store.assignIn (g.name x) (g.value v) (scopes.map g.scope ++ g.older) (s + g.scopes)
      = (Store.assignIn x v scopes s).map (·.map g.scope ++ g.older) := by
  induction scopes generalizing s with
  | nil =>
    have hnone : ∀ older : List Scope, (∀ scope ∈ older, scope.id ≠ s + g.scopes) →
        Store.assignIn (g.name x) (g.value v) older (s + g.scopes) = none := by
      intro older h
      induction older with
      | nil => rfl
      | cons scope older ih =>
        obtain ⟨hid, holder⟩ := List.forall_mem_cons.mp h
        rw [Store.assignIn, if_neg hid, ih holder]
        rfl
    exact hnone g.older fun scope h => g.id_ne_of_mem_older s h
  | cons scope older ih =>
    -- Where the first scope is passed, it is put back in front of what the others become.
    have hlater : ∀ p,
        (Store.assignIn (g.name x) (g.value v) (older.map g.scope ++ g.older) (p + g.scopes)).map
            (g.scope scope :: ·)
          = ((Store.assignIn x v older p).map (scope :: ·)).map (·.map g.scope ++ g.older) := by
      intro p
      rw [ih]
      cases Store.assignIn x v older p <;> rfl
    by_cases hid : scope.id = s
    · by_cases hbinds : scope.bindings.binds x
      · simp [Store.assignIn, Guise.scope, hid, binds_bindings, hbinds, set_bindings]
      · cases hparent : scope.parent with
        | some p =>
          simpa [Store.assignIn, Guise.scope, hid, binds_bindings, hbinds, hparent] using hlater p
        | none => simp [Store.assignIn, Guise.scope, hid, binds_bindings, hbinds, hparent]
    · simpa [Store.assignIn, Guise.scope, hid] using hlater s

theorem assign?_store (v : Value) :
    (g.store store).assign? (s + g.scopes) (g.name x) (g.value v)
      = (store.assign? s x v).map g.store := by
  unfold Store.assign? Guise.store
  dsimp only
  rw [assignIn_scopes]
  cases Store.assignIn x v store.scopes s <;> rfl

variable {g} in
/-- A change of one scope, made before or after. -/
theorem update_store {f f' : Scope → Scope} (h : ∀ scope, f' (g.scope scope) = g.scope (f scope)) :
    (g.store store).update (s + g.scopes) f' = g.store (store.update s f) := by
  have hscopes : ∀ scopes : List Scope,
      Store.updateIn f' (scopes.map g.scope ++ g.older) (s + g.scopes)
        = (Store.updateIn f scopes s).map g.scope ++ g.older := by
    intro scopes
    induction scopes with
    | nil =>
      have hsame : ∀ older : List Scope, (∀ scope ∈ older, scope.id ≠ s + g.scopes) →
          Store.updateIn f' older (s + g.scopes) = older := by
        intro older h
        induction older with
        | nil => rfl
        | cons scope older ih =>
          obtain ⟨hid, holder⟩ := List.forall_mem_cons.mp h
          rw [Store.updateIn, if_neg hid, ih holder]
      exact hsame g.older fun scope h => g.id_ne_of_mem_older s h
    | cons scope older ih =>
      have hid' : (g.scope scope).id = s + g.scopes ↔ scope.id = s := Nat.add_right_cancel_iff
      by_cases hid : scope.id = s
      · simp [Store.updateIn, hid', hid, h]
      · simpa [Store.updateIn, hid', hid] using ih
  exact congrArg (fun scopes => { g.store store with scopes := scopes }) (hscopes store.scopes)

theorem define_store (v : Value) :
    (g.store store).define (s + g.scopes) (g.name x) (g.value v)
      = g.store (store.define s x v) := by
  apply update_store
  intro scope
  exact congrArg (fun b => { g.scope scope with bindings := b }) (g.set_bindings _ x v)

theorem clear_store : (g.store store).clear (s + g.scopes) = g.store (store.clear s) :=
  update_store store s fun _ => rfl

theorem scope?_store :
    (g.store store).scope? (s + g.scopes) = (store.scope? s).map g.scope := by
  unfold Store.scope? Guise.store
  have hnone : g.older.find? (·.id = s + g.scopes) = none := by
    rw [List.find?_eq_none]
    intro scope h
    simpa using g.id_ne_of_mem_older s h
  rw [List.find?_append, hnone, Option.or_none, List.find?_map]
  congr 2
  funext scope
  simp [Guise.scope]

theorem bindings_store :
    (g.store store).bindings (s + g.scopes) = g.bindings (store.bindings s) := by
  unfold Store.bindings
  rw [scope?_store]
  cases store.scope? s <;> rfl

theorem newScope_store (parent : Option ScopeId) :
    ((g.store store).newScope (parent.map (· + g.scopes))).2
      = g.store (store.newScope parent).2 := by
  unfold Store.newScope Guise.store
  dsimp only
  rw [Nat.add_right_comm]
  rfl

theorem newFunction_store (parameters : List String) (body : List Stmt) :
    ((g.store store).newFunction (s + g.scopes) x (parameters.map g.name) (body.map g.stmt)).2
      = g.store (store.newFunction s x parameters body).2 := by
  have hmarked :
      (g.store store).update (s + g.scopes) (fun scope => { scope with declares := true })
        = g.store (store.update s fun scope => { scope with declares := true }) :=
    update_store store s fun _ => rfl
  unfold Store.newFunction
  dsimp only
  rw [hmarked]
  unfold Guise.store
  dsimp only
  rw [Nat.add_right_comm]

theorem bindParameters_store (parameters : List String) (arguments : List Value) :
    Machine.bindParameters (g.store store) (s + g.scopes) (parameters.map g.name)
        (arguments.map g.value)
      = g.store (Machine.bindParameters store s parameters arguments) := by
  induction parameters generalizing store arguments with
  | nil => rfl
  | cons x parameters ih =>
    cases arguments with
    | nil => rfl
    | cons v arguments =>
      have hrest := ih (store.define s x v) arguments
      rw [← define_store] at hrest
      exact hrest

end Store

/-! ## Giving up scopes -/

@[simp] theorem id_scope (scope : Scope) : (g.scope scope).id = scope.id + g.scopes := rfl

@[simp] theorem parent_scope (scope : Scope) :
    (g.scope scope).parent = scope.parent.map (· + g.scopes) := rfl

@[simp] theorem bindings_scope (scope : Scope) :
    (g.scope scope).bindings = g.bindings scope.bindings := rfl

@[simp] theorem declares_scope (scope : Scope) : (g.scope scope).declares = scope.declares := rfl

theorem parent_scope_eq_iff (scope : Scope) (s : ScopeId) :
    (g.scope scope).parent = some (s + g.scopes) ↔ scope.parent = some s := by
  rw [parent_scope]
  cases scope.parent <;> simp

/-- Numbers that are all counted from later on differ as before. -/
theorem eraseDups_map_add (k : Nat) (ids : List Nat) :
    (ids.map (· + k)).eraseDups = ids.eraseDups.map (· + k) := by
  induction hn : ids.length using Nat.strongRecOn generalizing ids with
  | ind n ih =>
    cases ids with
    | nil => rfl
    | cons a ids =>
      have hfilter : (ids.map (· + k)).filter (fun b => !b == a + k)
          = (ids.filter fun b => !b == a).map (· + k) := by
        rw [List.filter_map]
        congr 2
        funext b
        rw [Bool.eq_iff_iff]
        simp
      have hless : (ids.filter fun b => !b == a).length < n := by
        rw [← hn, List.length_cons]
        exact Nat.lt_succ_of_le (List.length_filter_le _ _)
      rw [List.map_cons, List.eraseDups_cons, List.eraseDups_cons, hfilter, ih _ hless _ rfl,
        List.map_cons]

section Release

variable (store : Store) (s : ScopeId)

theorem functionsOf_scope (scope : Scope) :
    (g.scope scope).functionsOf (s + g.scopes) = (scope.functionsOf s).map g.closure := by
  unfold Scope.functionsOf
  rw [bindings_scope, bindings, List.filterMap_map, List.map_filterMap]
  congr 1
  funext entry
  exact g.closureOf?_value entry.2 s

theorem functionsOf_of_mem_older {scope : Scope} (h : scope ∈ g.older) :
    scope.functionsOf (s + g.scopes) = [] := by
  unfold Scope.functionsOf
  rw [List.filterMap_eq_nil_iff]
  exact fun entry hentry => g.closureOf?_of_mem_older s h hentry

theorem bindsFunctionOf_scope (scope : Scope) :
    Store.bindsFunctionOf (s + g.scopes) (g.scope scope) = Store.bindsFunctionOf s scope := by
  unfold Store.bindsFunctionOf
  rw [bindings_scope, bindings, List.any_map]
  congr 1
  funext entry
  dsimp only [Function.comp]
  rw [closureOf?_value, Option.isSome_map]

theorem refersTo_scope (scope other : Scope) :
    Store.refersTo (g.scope scope) (g.scope other) = Store.refersTo scope other := by
  unfold Store.refersTo
  rw [id_scope, declares_scope, bindsFunctionOf_scope,
    decide_eq_decide.mpr (g.parent_scope_eq_iff scope other.id)]

theorem children_store : (g.store store).children (s + g.scopes) = store.children s := by
  -- Of the scopes that are left over none lies in this one, if the walk gets there at all.
  have hcount : ∀ scopes : List Scope,
      ((scopes.map g.scope ++ g.older).takeWhile (·.id ≠ s + g.scopes)).countP
          (·.parent = some (s + g.scopes))
        = (scopes.takeWhile (·.id ≠ s)).countP (·.parent = some s) := by
    intro scopes
    induction scopes with
    | nil =>
      rw [List.map_nil, List.nil_append, List.takeWhile_nil, List.countP_nil, List.countP_eq_zero]
      intro scope h
      simpa using g.parent_ne_of_mem_older s ((List.takeWhile_sublist _).subset h)
    | cons scope scopes ih =>
      rw [List.map_cons, List.cons_append]
      by_cases hid : scope.id = s
      · rw [List.takeWhile_cons_of_neg (by simp [hid]), List.takeWhile_cons_of_neg (by simp [hid])]
        rfl
      · rw [List.takeWhile_cons_of_pos (by simp [hid]), List.takeWhile_cons_of_pos (by simp [hid]),
          List.countP_cons, List.countP_cons, ih,
          decide_eq_decide.mpr (g.parent_scope_eq_iff scope s)]
  exact hcount store.scopes

theorem distinct_closure (known : List Closure) :
    Store.distinct (known.map g.closure) = Store.distinct known := by
  have hids : (known.map g.closure).map (·.id) = (known.map (·.id)).map (· + g.functions) := by
    rw [List.map_map, List.map_map]
    rfl
  unfold Store.distinct
  rw [hids, eraseDups_map_add, List.length_map]

theorem ownFunctions_scope (scope : Scope) (known : List Closure) :
    Store.ownFunctions (g.scope scope) (known.map g.closure)
      = Store.ownFunctions scope known := by
  -- Functions are told apart by their numbers, and these differ as before.
  unfold Store.ownFunctions
  have htest : ((fun f : Closure => decide ((known.map g.closure).countP (·.id = f.id) = 1))
      ∘ g.closure) = fun f => decide (known.countP (·.id = f.id) = 1) := by
    funext f
    dsimp only [Function.comp]
    rw [List.countP_map]
    simp [Function.comp_def, closure]
  rw [List.isEmpty_map, id_scope, functionsOf_scope, List.countP_map, htest]

end Release

/-- The functions among some values in another guise, by the scopes that they were declared in. -/
theorem functionsAmong_value (values : List Value) (s : ScopeId) :
    functionsAmong (values.map g.value) (s + g.scopes)
      = (functionsAmong values s).map g.closure := by
  unfold functionsAmong
  rw [List.filterMap_map, List.map_filterMap]
  congr 1
  funext v
  exact g.closureOf?_value v s

section Held

variable {g} {held held' : ScopeId → List Closure}
  (hheld : ∀ t, held' (t + g.scopes) = (held t).map g.closure) (store : Store)

include hheld

theorem capturing_store (scope : Scope) :
    (g.store store).capturing held' (g.scope scope)
      = (store.capturing held scope).map g.closure := by
  have hscopes : (store.scopes.map g.scope).flatMap (·.functionsOf (scope.id + g.scopes))
      = (store.scopes.flatMap (·.functionsOf scope.id)).map g.closure := by
    rw [List.flatMap_map, List.map_flatMap]
    congr 1
    funext other
    exact g.functionsOf_scope scope.id other
  have holder : g.older.flatMap (·.functionsOf (scope.id + g.scopes)) = [] := by
    rw [List.flatMap_eq_nil_iff]
    exact fun other h => g.functionsOf_of_mem_older scope.id h
  unfold Store.capturing
  rw [declares_scope, id_scope, hheld]
  by_cases hdeclares : scope.declares
  · rw [if_pos hdeclares, if_pos hdeclares, List.map_append, ← hscopes,
      ← List.append_nil ((store.scopes.map g.scope).flatMap _), ← holder, ← List.flatMap_append]
    rfl
  · rw [if_neg hdeclares, if_neg hdeclares]
    rfl

theorem isUnreachable_store (handles : Nat) (scope : Scope) :
    (g.store store).isUnreachable handles held' (g.scope scope)
      = store.isUnreachable handles held scope := by
  unfold Store.isUnreachable Store.references
  dsimp only
  rw [capturing_store hheld, distinct_closure, ownFunctions_scope, id_scope, children_store]

theorem release_store (handles : Nat) (s : ScopeId) :
    ((g.store store).release handles held' (s + g.scopes)).2
      = g.store (store.release handles held s).2 := by
  unfold Store.release
  rw [scope?_store]
  cases store.scope? s with
  | none => rfl
  | some scope =>
    dsimp only [Option.map]
    rw [isUnreachable_store hheld]
    split
    · exact g.clear_store store s
    · rfl

/-- Nothing that is left over refers to a scope in another guise. -/
theorem isReferred_scopes (younger older : List Scope) (scope : Scope) :
    Store.isReferred held' (younger.map g.scope) (g.scope scope) (older.map g.scope ++ g.older)
      = Store.isReferred held younger scope older := by
  have hyounger : ((Store.refersTo · (g.scope scope)) ∘ g.scope) = (Store.refersTo · scope) := by
    funext other
    exact g.refersTo_scope other scope
  have hbinds : Store.bindsFunctionOf (scope.id + g.scopes) ∘ g.scope
      = Store.bindsFunctionOf scope.id := by
    funext other
    exact g.bindsFunctionOf_scope scope.id other
  have holder : g.older.any (Store.bindsFunctionOf (scope.id + g.scopes)) = false := by
    rw [List.any_eq_false]
    intro other h
    simp only [Store.bindsFunctionOf, List.any_eq_true, not_exists, not_and]
    intro entry hentry
    simp [g.closureOf?_of_mem_older scope.id h hentry]
  unfold Store.isReferred
  rw [id_scope, declares_scope, hheld, List.isEmpty_map, List.any_map, hyounger, List.any_cons,
    List.any_cons, bindsFunctionOf_scope, List.any_append, holder, List.any_map, hbinds,
    Bool.or_false]

omit hheld in
/-- A scope in another guise is loose if the scope is. -/
theorem mem_loose_iff (loose : List ScopeId) (s : ScopeId) :
    s + g.scopes ∈ loose.map (· + g.scopes) ++ g.vacated ↔ s ∈ loose := by
  rw [List.mem_append, List.mem_map]
  constructor
  · rintro (⟨t, ht, heq⟩ | hin)
    · rwa [← Nat.add_right_cancel heq]
    · exact absurd rfl (g.ne_of_lt_scopes s (g.leftover.vacated _ hin))
  · exact fun hin => .inl ⟨s, hin, rfl⟩

/-- The same scope is dead, or none is: what is left over stays. -/
theorem removeDead?_scopes (loose : List ScopeId) (younger scopes : List Scope) :
    Store.removeDead? held' (loose.map (· + g.scopes) ++ g.vacated) (younger.map g.scope)
        (scopes.map g.scope ++ g.older)
      = (Store.removeDead? held loose younger scopes).map fun removed =>
          (removed.1 + g.scopes, removed.2.map g.scope ++ g.older) := by
  induction scopes generalizing younger with
  | nil =>
    refine Store.removeDead?_eq_none_mono g.leftover.alive (fun _ h => absurd rfl h) ?_
      (List.nil_subset _)
    intro scope hscope hin
    rcases List.mem_append.mp hin with hin | hin
    · obtain ⟨t, -, heq⟩ := List.mem_map.mp hin
      exact absurd heq.symm (g.id_ne_of_mem_older t hscope)
    · exact hin
  | cons scope older ih =>
    have hloose : (loose.map (· + g.scopes) ++ g.vacated).contains (scope.id + g.scopes)
        = loose.contains scope.id := by
      rw [Bool.eq_iff_iff, List.contains_iff_mem, List.contains_iff_mem, mem_loose_iff]
    rw [List.map_cons, List.cons_append, Store.removeDead?, Store.removeDead?, id_scope, hloose,
      isReferred_scopes hheld]
    split
    · simp
    · exact ih (scope :: younger)

theorem sweepFrom_scopes (loose : List ScopeId) (scopes : List Scope) :
    Store.sweepFrom held' (loose.map (· + g.scopes) ++ g.vacated) (scopes.map g.scope ++ g.older)
      = ((Store.sweepFrom held loose scopes).1.map (· + g.scopes) ++ g.vacated,
          (Store.sweepFrom held loose scopes).2.map g.scope ++ g.older) := by
  -- The induction is on how many scopes there are; in each round the same one is removed.
  induction hn : scopes.length using Nat.strongRecOn generalizing loose scopes with
  | ind n ih =>
    have hremove := removeDead?_scopes hheld loose [] scopes
    rw [List.map_nil] at hremove
    cases hdead : Store.removeDead? held loose [] scopes with
    | none =>
      rw [hdead] at hremove
      rw [Store.sweepFrom_eq_of_none hremove, Store.sweepFrom_eq_of_none hdead]
    | some removed =>
      obtain ⟨dead, rest⟩ := removed
      rw [hdead] at hremove
      obtain ⟨-, -, -, -, -, hin, -⟩ := Store.removeDead?_eq_some hdead
      have hlength := Store.length_of_removeDead? hdead
      have herase : (loose.map (· + g.scopes) ++ g.vacated).erase (dead + g.scopes)
          = (loose.erase dead).map (· + g.scopes) ++ g.vacated := by
        rw [List.erase_append_left _ (List.mem_map_of_mem hin),
          List.map_erase fun _ _ h => Nat.add_right_cancel h]
      rw [Store.sweepFrom_eq_of_some hremove, Store.sweepFrom_eq_of_some hdead, herase]
      refine ih rest.length ?_ _ _ rfl
      rw [List.length_nil] at hlength
      omega

theorem settle_store : (g.store store).settle held' = g.store (store.settle held) := by
  have hsweep := sweepFrom_scopes hheld store.vacated store.scopes
  exact congrArg (fun swept : List ScopeId × List Scope =>
    { g.store store with scopes := swept.2, vacated := swept.1 }) hsweep

/-- **The same scopes are given up.** -/
theorem leave_store (s : ScopeId) :
    (g.store store).leave held' (s + g.scopes) = g.store (store.leave held s) := by
  have hvacate : ∀ other : Store,
      (g.store other).vacate (s + g.scopes) = g.store (other.vacate s) := fun _ => rfl
  unfold Store.leave
  rw [settle_store hheld, release_store hheld, hvacate, settle_store hheld]

end Held

end Guise

end Scripting
