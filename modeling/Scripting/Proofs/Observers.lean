/-
Who sees a write.

Scopes share the scopes around them, so what is written in one scope is seen from many, and hidden
from some of these by a scope that is nearer to them. Reading and assigning both walk outward, from
scopes that may have nothing in common but the end of their chains; the question is from where a
write is seen that was made from somewhere else.

The chain of a scope after a write is the chain before it, with one scope on it changed or none
(`Ordered.chain_define`). So the value of a name along a chain changes exactly if the changed scope
is on it and nothing nearer *hides* the name. An assignment is a definition in the scope that binds
the name for the one who assigns. From another scope this binding is seen exactly if it is what
binds the name there, too; and since it was there before, no name gets another binder.
-/
import Scripting.Machine
import Scripting.Proofs.Chain

set_option autoImplicit false

namespace Scripting

/-! ## Forests of scopes -/

/-- How a forest of scopes grows and changes. -/
inductive Growth where
  | global
  | child (of : ScopeId)
  | define (on : ScopeId) (name : String) (value : Value)
  | assign (on : ScopeId) (name : String) (value : Value)

namespace Store

/-- Let a forest grow. A scope is made only in one that is there, and an assignment that finds no
binding does nothing. -/
def grow (store : Store) : Growth → Store
  | .global => (store.newScope none).2
  | .child of => if (store.scope? of).isSome then (store.newScope (some of)).2 else store
  | .define on name value => store.define on name value
  | .assign on name value => (store.assign? on name value).getD store

/-- The forest that has grown in these steps. -/
def grown (steps : List Growth) : Store := steps.foldl grow empty

variable {store : Store}

theorem Ordered.grow (h : store.Ordered) (step : Growth) : (store.grow step).Ordered := by
  cases step with
  | global => exact h.newScope fun p hp => by cases hp
  | child of =>
    rw [Store.grow]
    split
    · next hsome =>
      obtain ⟨scope, hscope⟩ := Option.isSome_iff_exists.mp hsome
      obtain ⟨hmem, hid⟩ := h.scope?_eq_some_iff.mp hscope
      refine h.newScope fun p hp => ?_
      cases hp
      rw [← hid]
      exact h.numbered scope hmem
    · exact h
  | define on name value => exact h.define on name value
  | assign on name value =>
    rw [Store.grow, h.assign?_eq]
    cases store.binder? on name with
    | none => exact h
    | some scope => exact h.define scope.id name value

theorem ordered_grown (steps : List Growth) : (grown steps).Ordered := by
  have key : ∀ (steps : List Growth) (store : Store), store.Ordered →
      (steps.foldl Store.grow store).Ordered := by
    intro steps
    induction steps with
    | nil => exact fun store h => h
    | cons step rest ih => exact fun store h => ih _ (h.grow step)
  exact key steps empty ordered_empty

end Store

/-! ## A write on a chain -/

/-- The scope, with a name given a value if it is scope `s`. -/
def Scope.written (s : ScopeId) (name : String) (value : Value) (scope : Scope) : Scope :=
  if scope.id = s then { scope with bindings := scope.bindings.set name value } else scope

/-- Scope `s` is on a chain, and no scope nearer than it binds the name. -/
structure Exposed (chain : List Scope) (s : ScopeId) (name : String) : Prop where
  onChain : ∃ scope ∈ chain, scope.id = s
  notHidden : ∀ scope ∈ chain.takeWhile (·.id ≠ s), scope.bindings.binds name = false

section Chain

variable {chain : List Scope} {scope : Scope} {s : ScopeId} {name : String}

theorem exposed_iff : ((∃ scope ∈ chain, scope.id = s) ∧
    ∀ scope ∈ chain.takeWhile (·.id ≠ s), scope.bindings.binds name = false) ↔
      Exposed chain s name :=
  ⟨fun h => ⟨h.1, h.2⟩, fun h => ⟨h.onChain, h.notHidden⟩⟩

instance : Decidable (Exposed chain s name) := decidable_of_iff _ exposed_iff

theorem not_exposed_nil : ¬ Exposed [] s name := by
  rintro ⟨⟨scope, hin, -⟩, -⟩
  cases hin

/-- The nearest scope is seen, and what is behind it is seen unless it hides the name. -/
theorem exposed_cons : Exposed (scope :: chain) s name ↔
    scope.id = s ∨ scope.bindings.binds name = false ∧ Exposed chain s name := by
  by_cases hid : scope.id = s
  · have hnear : (scope :: chain).takeWhile (fun c => decide (c.id ≠ s)) = [] :=
      List.takeWhile_cons_of_neg (by simp [hid])
    refine ⟨fun _ => .inl hid, fun _ => ⟨⟨scope, List.mem_cons_self, hid⟩, fun c hc => ?_⟩⟩
    rw [hnear] at hc
    cases hc
  · have hnear : (scope :: chain).takeWhile (fun c => decide (c.id ≠ s))
        = scope :: chain.takeWhile fun c => decide (c.id ≠ s) :=
      List.takeWhile_cons_of_pos (by simp [hid])
    constructor
    · rintro ⟨⟨c, hc, hcid⟩, hnone⟩
      rw [hnear, List.forall_mem_cons] at hnone
      rcases List.mem_cons.mp hc with rfl | hin
      · exact absurd hcid hid
      · exact .inr ⟨hnone.1, ⟨c, hin, hcid⟩, hnone.2⟩
    · rintro (heq | ⟨hscope, ⟨c, hc, hcid⟩, hnone⟩)
      · exact absurd heq hid
      · refine ⟨⟨c, List.mem_cons_of_mem _ hc, hcid⟩, ?_⟩
        rw [hnear, List.forall_mem_cons]
        exact ⟨hscope, hnone⟩

theorem written_of_ne (hid : scope.id ≠ s) (value : Value) :
    scope.written s name value = scope := if_neg hid

/-- Another name is not touched. -/
theorem get?_written_of_ne {other : String} (hne : other ≠ name) (value : Value) :
    (scope.written s name value).bindings.get? other = scope.bindings.get? other := by
  rw [Scope.written]
  split
  · rw [Bindings.get?_set, if_neg hne]
  · rfl

/-- **What a name means along a chain after a write.** The induction is on the chain, from the
nearest scope outward, as the walk goes. -/
theorem findSome?_written (chain : List Scope) (s : ScopeId) (name other : String)
    (value : Value) :
    (chain.map (Scope.written s name value)).findSome? (·.bindings.get? other)
      = if other = name ∧ Exposed chain s name then some value
        else chain.findSome? (·.bindings.get? other) := by
  by_cases hne : other = name
  · subst hne
    induction chain with
    | nil =>
      rw [if_neg fun h => not_exposed_nil h.2]
      rfl
    | cons scope chain ih =>
      rw [List.map_cons, List.findSome?_cons, List.findSome?_cons]
      simp only [true_and, exposed_cons] at ih ⊢
      by_cases hid : scope.id = s
      · rw [if_pos (.inl hid), Scope.written, if_pos hid, Bindings.get?_set, if_pos rfl]
      · rw [written_of_ne hid]
        cases hget : scope.bindings.get? other with
        | some u =>
          have hbinds : scope.bindings.binds other = true := by rw [Bindings.binds, hget]; rfl
          simp [hid, hbinds]
        | none =>
          have hbinds : scope.bindings.binds other = false := by rw [Bindings.binds, hget]; rfl
          simp only [hid, hbinds, false_or, true_and]
          exact ih
  · rw [if_neg fun h => hne h.1, List.findSome?_map]
    congr 1
    funext scope
    exact get?_written_of_ne hne value

/-- A scope that binds the name is exposed exactly if it is the first one that does. -/
theorem exposed_iff_find? (hbinds : ∀ scope ∈ chain, scope.id = s →
      scope.bindings.binds name = true) :
    Exposed chain s name ↔ (chain.find? (·.bindings.binds name)).map (·.id) = some s := by
  induction chain with
  | nil => exact ⟨fun h => absurd h not_exposed_nil, fun h => by cases h⟩
  | cons scope chain ih =>
    rw [List.forall_mem_cons] at hbinds
    rw [exposed_cons, List.find?_cons]
    cases hb : scope.bindings.binds name with
    | true => simp
    | false =>
      have hid : scope.id ≠ s := by
        intro hid
        rw [hbinds.1 hid] at hb
        cases hb
      simp only [hid, false_or, true_and]
      exact ih hbinds.2

/-- Where a name is bound already, writing it makes no difference to which names are bound. -/
theorem find?_written {value : Value} (hbinds : ∀ scope ∈ chain, scope.id = s →
      scope.bindings.binds name = true) (other : String) :
    ((chain.map (Scope.written s name value)).find? (·.bindings.binds other)).map (·.id)
      = (chain.find? (·.bindings.binds other)).map (·.id) := by
  induction chain with
  | nil => rfl
  | cons scope chain ih =>
    rw [List.forall_mem_cons] at hbinds
    have hid : (scope.written s name value).id = scope.id := by
      rw [Scope.written]
      split <;> rfl
    have hsame : (scope.written s name value).bindings.binds other
        = scope.bindings.binds other := by
      rw [Scope.written]
      split
      · next hs =>
        rw [Bindings.binds, Bindings.binds, Bindings.get?_set]
        split
        · next heq => exact heq ▸ (hbinds.1 hs).symm
        · rfl
      · rfl
    rw [List.map_cons, List.find?_cons, List.find?_cons, hsame]
    split
    · rw [Option.map_some, Option.map_some, hid]
    · exact ih hbinds.2

end Chain

/-! ## Writes in a store -/

namespace Store

variable {store : Store}

/-- Changing scopes in place changes them on every chain. -/
theorem chainIn_map {change : Scope → Scope} (hid : ∀ scope, (change scope).id = scope.id)
    (hp : ∀ scope, (change scope).parent = scope.parent) (scopes : List Scope) (t : ScopeId) :
    chainIn (scopes.map change) t = (chainIn scopes t).map change := by
  induction scopes generalizing t with
  | nil => rfl
  | cons head older ih =>
    rw [List.map_cons, chainIn, chainIn, hid, hp]
    split
    · split
      · rw [ih, List.map_cons]
      · rfl
    · exact ih t

/-- **A definition changes one scope on the chains that it is on.** -/
theorem Ordered.chain_define (h : store.Ordered) (s : ScopeId) (name : String) (value : Value)
    (t : ScopeId) :
    (store.define s name value).chain t = (store.chain t).map (Scope.written s name value) := by
  rw [chain, Store.define, Store.update, updateIn_eq_map h.youngestFirst]
  refine chainIn_map (fun scope => ?_) (fun scope => ?_) store.scopes t
  · split <;> rfl
  · split <;> rfl

/-- The scope that binds a name for those who read it in scope `t`. -/
def bindingScope? (store : Store) (t : ScopeId) (name : String) : Option ScopeId :=
  (store.binder? t name).map (·.id)

/-- **Who sees a definition.** -/
theorem Ordered.get?_define (h : store.Ordered) (s t : ScopeId) (name other : String)
    (value : Value) :
    (store.define s name value).get? t other
      = if other = name ∧ Exposed (store.chain t) s name then some value
        else store.get? t other := by
  rw [get?_eq_findSome?, get?_eq_findSome?, h.chain_define, findSome?_written]

/-- On every chain, the scope with the number of a binder is that binder. -/
theorem Ordered.binds_of_binder? (h : store.Ordered) {s : ScopeId} {name : String} {scope : Scope}
    (hbinder : store.binder? s name = some scope) (t : ScopeId) :
    ∀ c ∈ store.chain t, c.id = scope.id → c.bindings.binds name = true := by
  intro c hc hid
  have hmem := mem_of_mem_chainIn (List.mem_of_find?_eq_some hbinder)
  have hfound := List.find?_some (p := fun c : Scope => c.bindings.binds name) hbinder
  rw [h.eq_of_id_eq (mem_of_mem_chainIn hc) hmem hid]
  exact hfound

/-- **Who sees an assignment**: those for whom the same scope binds the name. -/
theorem Ordered.get?_assign? (h : store.Ordered) {s : ScopeId} {name : String} {value : Value}
    {after : Store} (hassign : store.assign? s name value = some after) (t : ScopeId)
    (other : String) :
    after.get? t other
      = if other = name ∧ store.bindingScope? t name = store.bindingScope? s name then some value
        else store.get? t other := by
  rw [h.assign?_eq] at hassign
  obtain ⟨scope, hbinder, rfl⟩ := Option.map_eq_some_iff.mp hassign
  have hscope : store.bindingScope? s name = some scope.id := by rw [bindingScope?, hbinder]; rfl
  rw [h.get?_define, hscope]
  have hexposed : Exposed (store.chain t) scope.id name ↔
      store.bindingScope? t name = some scope.id :=
    exposed_iff_find? (h.binds_of_binder? hbinder t)
  simp only [hexposed]

/-- **An assignment binds nothing.** -/
theorem Ordered.bindingScope?_assign? (h : store.Ordered) {s : ScopeId} {name : String}
    {value : Value} {after : Store} (hassign : store.assign? s name value = some after)
    (t : ScopeId) (other : String) :
    after.bindingScope? t other = store.bindingScope? t other := by
  rw [h.assign?_eq] at hassign
  obtain ⟨scope, hbinder, rfl⟩ := Option.map_eq_some_iff.mp hassign
  rw [bindingScope?, binder?, h.chain_define, find?_written (h.binds_of_binder? hbinder t)]
  rfl

/-- An assignment succeeds if some scope binds the name for the one who assigns. -/
theorem Ordered.isSome_assign? (h : store.Ordered) (s : ScopeId) (name : String) (value : Value) :
    (store.assign? s name value).isSome = (store.bindingScope? s name).isSome := by
  rw [h.assign?_eq, bindingScope?, Option.isSome_map, Option.isSome_map]

/-- **Writes are seen where they should be, and nowhere else**, in every forest of scopes. An
assignment succeeds exactly if some scope binds the name for the one who assigns. Then the new value
is read wherever the same scope binds the name, every other name is read everywhere as before, and
no name gets another binder. If it fails, the machine goes on with that fault and the world as it
was. A definition is seen from where its scope is on the chain and no nearer one binds the name. And
evaluating a variable gives what is read there, or the fault that there is nothing. -/
theorem writes_reach_observers (steps : List Growth) (s : ScopeId) (name : String)
    (value : Value) :
    let store := grown steps
    ((store.assign? s name value).isSome = true ↔ (store.bindingScope? s name).isSome = true) ∧
      (∀ after, store.assign? s name value = some after → ∀ t other,
        after.get? t other
            = (if other = name ∧ store.bindingScope? t name = store.bindingScope? s name
              then some value else store.get? t other) ∧
          after.bindingScope? t other = store.bindingScope? t other) ∧
      (store.assign? s name value = none → ∀ (w : World) (frames : List Frame) (p : Position),
        w.store = store → Machine.valueStep value (.assignTo name p s) frames w
          = .reply (.error ⟨.undeclaredAssignment name, p⟩) frames w) ∧
      (∀ t other, (store.define s name value).get? t other
        = if other = name ∧ Exposed (store.chain t) s name then some value
          else store.get? t other) ∧
      ∀ (t : ScopeId) (other : String) (w : World) (frames : List Frame) (p : Position),
        w.store = store → Machine.evaluateStep (.var other p) t frames w
          = .replyWith ((store.get? t other).elim (.error ⟨.undefinedVariable other, p⟩) .ok)
              frames w := by
  intro store
  have h : store.Ordered := ordered_grown steps
  refine ⟨?_, ?_, ?_, ?_, ?_⟩
  · rw [h.isSome_assign?]
  · exact fun after hassign t other =>
      ⟨h.get?_assign? hassign t other, h.bindingScope?_assign? hassign t other⟩
  · intro hnone w frames p hw
    unfold Machine.valueStep
    dsimp only
    rw [hw, hnone]
    rfl
  · exact fun t other => h.get?_define s t name other value
  · intro t other w frames p hw
    unfold Machine.evaluateStep
    dsimp only
    rw [hw]
    cases store.get? t other with
    | none => rfl
    | some v => rfl

/-- A global scope that binds `x`, and two scopes in it of which the second binds `x` as well. -/
def siblings : List Growth :=
  [.global, .define 0 "x" (.bool false), .child 0, .child 0, .define 2 "x" .nil]

/-- An assignment from the first of them is seen there and in the global scope, and is hidden from
the second. The name is still found in the global scope. -/
theorem writes_reach_observers_siblings :
    ∃ after, (grown siblings).assign? 1 "x" (.bool true) = some after ∧
      (after.get? 0 "x").map (·.text) = some "true" ∧
      (after.get? 1 "x").map (·.text) = some "true" ∧
      (after.get? 2 "x").map (·.text) = some "nil" ∧
      after.bindingScope? 1 "x" = some 0 := by
  have hsome : (grown siblings).assign? 1 "x" (.bool true) ≠ none := by decide +kernel
  obtain ⟨after, hafter⟩ := Option.ne_none_iff_exists'.mp hsome
  obtain ⟨-, hseen, -, -, -⟩ := writes_reach_observers siblings 1 "x" (.bool true)
  refine ⟨after, hafter, ?_, ?_, ?_, ?_⟩
  · rw [(hseen after hafter 0 "x").1]
    decide +kernel
  · rw [(hseen after hafter 1 "x").1]
    decide +kernel
  · rw [(hseen after hafter 2 "x").1]
    decide +kernel
  · rw [(hseen after hafter 1 "x").2]
    decide +kernel

end Store

end Scripting
