/-
Chains in the stores that really occur.

A store is *ordered* if its scopes stand in it youngest first, under numbers that have
been given out, and every scope lies in an older one. All operations keep a store ordered. In an
ordered store a number names at most one scope, and the chain of a scope is that scope
followed by the chain of its parent, looked for in the whole store and not only
further down the list. So what a walk along a chain finds is a matter of the scopes on it
alone: two stores that have these scopes in common give the same answers, whatever else is in
them.

Reading and assigning are both stated on the chain here: reading gives the first binding on it,
and assigning is defining in the first scope that has one.
-/
import Scripting.Scope

set_option autoImplicit false

namespace Scripting

namespace Bindings

theorem mem_of_get?_eq_some {b : Bindings} {name : String} {v : Value}
    (h : b.get? name = some v) : (name, v) ∈ b := by
  induction b with
  | nil => cases h
  | cons entry rest ih =>
    obtain ⟨n, w⟩ := entry
    rw [get?] at h
    split at h
    · next hn =>
      rw [hn, Option.some.inj h]
      exact List.mem_cons_self
    · exact List.mem_cons_of_mem _ (ih h)

/-- Setting a name brings in no value but the new one. -/
theorem mem_set {b : Bindings} {name : String} {v : Value} {entry : String × Value}
    (h : entry ∈ b.set name v) : entry ∈ b ∨ entry.2 = v := by
  induction b with
  | nil =>
    rw [set] at h
    rw [List.mem_singleton.mp h]
    exact .inr rfl
  | cons head rest ih =>
    rw [set] at h
    split at h
    · rcases List.mem_cons.mp h with rfl | hin
      · exact .inr rfl
      · exact .inl (List.mem_cons_of_mem _ hin)
    · rcases List.mem_cons.mp h with rfl | hin
      · exact .inl List.mem_cons_self
      · exact (ih hin).imp_left (List.mem_cons_of_mem _)

end Bindings

namespace Store

/-! ## Ordered stores -/

/-- The scopes stand youngest first, all numbers have been given out, and parents are
older. -/
structure Ordered (store : Store) : Prop where
  youngestFirst : store.scopes.Pairwise fun a b => b.id < a.id
  numbered : ∀ scope ∈ store.scopes, scope.id < store.nextScope
  inOlder : ∀ scope ∈ store.scopes, ∀ p, scope.parent = some p → p < scope.id

theorem ordered_empty : empty.Ordered :=
  ⟨List.Pairwise.nil, by simp [empty], by simp [empty]⟩

/-- Scopes that stand behind the younger ones, and lie in older ones. -/
structure Descending (scopes : List Scope) : Prop where
  youngestFirst : scopes.Pairwise fun a b => b.id < a.id
  inOlder : ∀ scope ∈ scopes, ∀ p, scope.parent = some p → p < scope.id

namespace Descending

variable {scopes : List Scope}

theorem sublist (h : Descending scopes) {fewer : List Scope} (hsub : fewer.Sublist scopes) :
    Descending fewer :=
  ⟨h.youngestFirst.sublist hsub, fun scope hs => h.inOlder scope (hsub.subset hs)⟩

/-- A number names at most one scope. -/
theorem eq_of_id_eq (h : Descending scopes) {a b : Scope} (ha : a ∈ scopes) (hb : b ∈ scopes)
    (hid : a.id = b.id) : a = b := by
  -- Of two scopes one stands first, and then its number is the greater one.
  refine List.Pairwise.forall_of_forall_of_flip (R := fun x y : Scope => x.id = y.id → x = y)
    (fun _ _ _ => rfl) ?_ ?_ ha hb hid
  · exact h.youngestFirst.imp fun hlt heq => absurd heq (Nat.ne_of_gt hlt)
  · exact h.youngestFirst.imp fun hlt heq => absurd heq (Nat.ne_of_lt hlt)

theorem nodup (h : Descending scopes) : scopes.Nodup := by
  refine h.youngestFirst.imp fun {a b} hlt heq => ?_
  rw [heq] at hlt
  exact Nat.lt_irrefl _ hlt

end Descending

theorem Ordered.descending {store : Store} (h : store.Ordered) : Descending store.scopes :=
  ⟨h.youngestFirst, h.inOlder⟩

theorem Ordered.eq_of_id_eq {store : Store} (h : store.Ordered) {a b : Scope}
    (ha : a ∈ store.scopes) (hb : b ∈ store.scopes) (hid : a.id = b.id) : a = b :=
  h.descending.eq_of_id_eq ha hb hid

/-- Looking a number up finds the scope that has it. -/
theorem Ordered.scope?_eq_some_iff {store : Store} (h : store.Ordered) {s : ScopeId}
    {scope : Scope} : store.scope? s = some scope ↔ scope ∈ store.scopes ∧ scope.id = s := by
  constructor
  · intro hs
    exact ⟨List.mem_of_find?_eq_some hs, by simpa using List.find?_some hs⟩
  · rintro ⟨hmem, rfl⟩
    cases hf : store.scope? scope.id with
    | none =>
      have hnone := List.find?_eq_none.mp hf scope hmem
      simp at hnone
    | some found =>
      have hid : found.id = scope.id := by simpa using List.find?_some hf
      rw [h.eq_of_id_eq (List.mem_of_find?_eq_some hf) hmem hid]

/-! ## The chain of a scope -/

theorem mem_of_mem_chainIn {scopes : List Scope} {s : ScopeId} {scope : Scope}
    (h : scope ∈ chainIn scopes s) : scope ∈ scopes := by
  induction scopes generalizing s with
  | nil => simp [chainIn] at h
  | cons head older ih =>
    rw [chainIn] at h
    split at h
    · split at h
      · rcases List.mem_cons.mp h with rfl | hin
        · exact List.mem_cons_self
        · exact List.mem_cons_of_mem _ (ih hin)
      · rw [List.mem_singleton.mp h]
        exact List.mem_cons_self
    · exact List.mem_cons_of_mem _ (ih h)

theorem chainIn_cons_of_ne {head : Scope} {older : List Scope} {s : ScopeId} (h : head.id ≠ s) :
    chainIn (head :: older) s = chainIn older s := by
  rw [chainIn, if_neg h]

/-- The chain of a parent, if there is one. -/
def chainOf (store : Store) : Option ScopeId → List Scope
  | some p => store.chain p
  | none => []

/-- **A chain is its scope, followed by the chain of the parent.** The walk looks for the parent
only further down the list; nothing is missed, since parents are older. -/
theorem Ordered.chain_eq_cons {store : Store} (h : store.Ordered) {scope : Scope}
    (hs : scope ∈ store.scopes) :
    store.chain scope.id = scope :: store.chainOf scope.parent := by
  obtain ⟨hsort, -, hold⟩ := h
  have key : chainIn store.scopes scope.id
      = scope :: (match scope.parent with
        | some p => chainIn store.scopes p
        | none => []) := by
    generalize store.scopes = scopes at hsort hold hs
    induction scopes with
    | nil => cases hs
    | cons head older ih =>
      obtain ⟨hhead, hsort⟩ := List.pairwise_cons.mp hsort
      -- Either way the walk to the parent may start at the head, which has another number.
      rcases List.mem_cons.mp hs with rfl | hin
      · rw [chainIn, if_pos rfl]
        cases hp : scope.parent with
        | none => rfl
        | some p =>
          have hlt := hold scope List.mem_cons_self p hp
          simp only [chainIn_cons_of_ne (Nat.ne_of_gt hlt)]
      · have hlt := hhead scope hin
        rw [chainIn_cons_of_ne (Nat.ne_of_gt hlt),
          ih hsort (fun x hx => hold x (List.mem_cons_of_mem _ hx)) hin]
        cases hp : scope.parent with
        | none => rfl
        | some p =>
          have hlt' := Nat.lt_trans (hold scope hs p hp) hlt
          simp only [chainIn_cons_of_ne (Nat.ne_of_gt hlt')]
  rw [chain, key]
  cases scope.parent <;> rfl

/-! ## Reading and assigning -/

/-- A name means what the first scope on the chain that binds it says. -/
theorem get?_eq_findSome? (store : Store) (s : ScopeId) (name : String) :
    store.get? s name = (store.chain s).findSome? (·.bindings.get? name) := by
  rw [get?, chain]
  generalize store.scopes = scopes
  induction scopes generalizing s with
  | nil => rfl
  | cons head older ih =>
    rw [getIn, chainIn]
    by_cases hid : head.id = s
    · rw [if_pos hid, if_pos hid]
      cases hb : head.bindings.get? name <;> cases hp : head.parent <;> simp [hb, ih]
    · rw [if_neg hid, if_neg hid, ih]

/-- The nearest scope on the chain of `s` that binds a name. -/
def binder? (store : Store) (s : ScopeId) (name : String) : Option Scope :=
  (store.chain s).find? (·.bindings.binds name)

/-- Assigning is defining in the nearest scope that binds the name. -/
theorem Ordered.assign?_eq {store : Store} (h : store.Ordered) (s : ScopeId) (name : String)
    (value : Value) :
    store.assign? s name value
      = (store.binder? s name).map fun scope => store.define scope.id name value := by
  have hsort := h.youngestFirst
  have key : assignIn name value store.scopes s
      = ((chainIn store.scopes s).find? (·.bindings.binds name)).map fun scope =>
          updateIn (fun x => { x with bindings := x.bindings.set name value })
            store.scopes scope.id := by
    clear h
    generalize store.scopes = scopes at hsort
    induction scopes generalizing s with
    | nil => rfl
    | cons head older ih =>
      obtain ⟨hhead, hsort⟩ := List.pairwise_cons.mp hsort
      -- What is found further down has another number, so the update passes the head by.
      have pass : ∀ t : ScopeId, (assignIn name value older t).map (head :: ·)
          = ((chainIn older t).find? (·.bindings.binds name)).map fun scope =>
              updateIn (fun x => { x with bindings := x.bindings.set name value })
                (head :: older) scope.id := by
        intro t
        rw [ih t hsort, Option.map_map]
        cases hf : (chainIn older t).find? (·.bindings.binds name) with
        | none => rfl
        | some found =>
          have hlt := hhead found (mem_of_mem_chainIn (List.mem_of_find?_eq_some hf))
          simp [updateIn, Nat.ne_of_gt hlt]
      rw [assignIn, chainIn]
      by_cases hid : head.id = s
      · rw [if_pos hid, if_pos hid]
        by_cases hb : head.bindings.binds name
        · cases hp : head.parent <;> simp [hb, hp, updateIn]
        · cases hp : head.parent with
          | none => simp [hb]
          | some p => simp [hb, pass p]
      · rw [if_neg hid, if_neg hid, pass s]
  rw [assign?, key, binder?, chain, Option.map_map]
  rfl

/-! ## What the operations do to a store -/

/-- A change of scope `s` changes nothing else. -/
theorem mem_updateIn {f : Scope → Scope} {scopes : List Scope} {scope : Scope} {s : ScopeId}
    (h : scope ∈ updateIn f scopes s) :
    scope ∈ scopes ∨ ∃ old ∈ scopes, old.id = s ∧ scope = f old := by
  induction scopes with
  | nil => cases h
  | cons head older ih =>
    rw [updateIn] at h
    split at h
    · next hid =>
      rcases List.mem_cons.mp h with rfl | hin
      · exact .inr ⟨head, List.mem_cons_self, hid, rfl⟩
      · exact .inl (List.mem_cons_of_mem _ hin)
    · rcases List.mem_cons.mp h with rfl | hin
      · exact .inl List.mem_cons_self
      · rcases ih hin with hold | ⟨old, hold, hid, rfl⟩
        · exact .inl (List.mem_cons_of_mem _ hold)
        · exact .inr ⟨old, List.mem_cons_of_mem _ hold, hid, rfl⟩

theorem mem_updateIn_of_ne {f : Scope → Scope} {scopes : List Scope} {scope : Scope} {s : ScopeId}
    (h : scope ∈ scopes) (hne : scope.id ≠ s) : scope ∈ updateIn f scopes s := by
  induction scopes with
  | nil => cases h
  | cons head older ih =>
    rw [updateIn]
    rcases List.mem_cons.mp h with rfl | hin
    · rw [if_neg hne]
      exact List.mem_cons_self
    · split
      · exact List.mem_cons_of_mem _ hin
      · exact List.mem_cons_of_mem _ (ih hin)

/-- Changing a scope changes the one entry that has its number. -/
theorem updateIn_eq_map {scopes : List Scope} (h : scopes.Pairwise fun a b => b.id < a.id)
    (f : Scope → Scope) (s : ScopeId) :
    updateIn f scopes s = scopes.map fun scope => if scope.id = s then f scope else scope := by
  induction scopes with
  | nil => rfl
  | cons head older ih =>
    obtain ⟨hhead, hsort⟩ := List.pairwise_cons.mp h
    rw [updateIn, List.map_cons]
    by_cases hid : head.id = s
    · have hrest : older.map (fun scope => if scope.id = s then f scope else scope) = older := by
        refine (List.map_congr_left fun scope hs => if_neg ?_).trans (List.map_id older)
        rw [← hid]
        exact Nat.ne_of_lt (hhead scope hs)
      rw [if_pos hid, if_pos hid, hrest]
    · rw [if_neg hid, if_neg hid, ih hsort]

/-- The scopes of a store after a change to scope `s`. -/
theorem Ordered.mem_update {store : Store} (h : store.Ordered) {s : ScopeId} {f : Scope → Scope}
    {scope : Scope} :
    scope ∈ (store.update s f).scopes ↔
      ∃ old ∈ store.scopes, scope = if old.id = s then f old else old := by
  rw [update, updateIn_eq_map h.youngestFirst, List.mem_map]
  constructor
  · rintro ⟨old, hold, rfl⟩
    exact ⟨old, hold, rfl⟩
  · rintro ⟨old, hold, rfl⟩
    exact ⟨old, hold, rfl⟩

/-- A change that keeps number and parent keeps the order. -/
theorem Ordered.update {store : Store} (h : store.Ordered) (s : ScopeId) {f : Scope → Scope}
    (hid : ∀ scope, (f scope).id = scope.id) (hp : ∀ scope, (f scope).parent = scope.parent) :
    (store.update s f).Ordered := by
  have same : ∀ scope : Scope, (if scope.id = s then f scope else scope).id = scope.id ∧
      (if scope.id = s then f scope else scope).parent = scope.parent := by
    intro scope
    split
    · exact ⟨hid scope, hp scope⟩
    · exact ⟨rfl, rfl⟩
  refine ⟨?_, ?_, ?_⟩
  · rw [Store.update, updateIn_eq_map h.youngestFirst, List.pairwise_map]
    refine h.youngestFirst.imp fun {a b} hlt => ?_
    rw [(same a).1, (same b).1]
    exact hlt
  · intro scope hs
    obtain ⟨old, hold, rfl⟩ := h.mem_update.mp hs
    rw [(same old).1]
    exact h.numbered old hold
  · intro scope hs p
    obtain ⟨old, hold, rfl⟩ := h.mem_update.mp hs
    rw [(same old).1, (same old).2]
    exact h.inOlder old hold p

theorem Ordered.define {store : Store} (h : store.Ordered) (s : ScopeId) (name : String)
    (value : Value) : (store.define s name value).Ordered :=
  h.update s (fun _ => rfl) (fun _ => rfl)

theorem Ordered.clear {store : Store} (h : store.Ordered) (s : ScopeId) :
    (store.clear s).Ordered :=
  h.update s (fun _ => rfl) (fun _ => rfl)

/-- A new scope gets a number above all others. -/
theorem Ordered.newScope {store : Store} (h : store.Ordered) {parent : Option ScopeId}
    (hp : ∀ p, parent = some p → p < store.nextScope) : (store.newScope parent).2.Ordered := by
  refine ⟨List.pairwise_cons.mpr ⟨h.numbered, h.youngestFirst⟩, ?_, ?_⟩
  · intro scope hs
    rcases List.mem_cons.mp hs with rfl | hin
    · exact Nat.lt_succ_self _
    · exact Nat.lt_succ_of_lt (h.numbered scope hin)
  · intro scope hs p hpar
    rcases List.mem_cons.mp hs with rfl | hin
    · exact hp p hpar
    · exact h.inOlder scope hin p hpar

theorem Ordered.newFunction {store : Store} (h : store.Ordered) (s : ScopeId) (name : String)
    (parameters : List String) (body : List Stmt) :
    (store.newFunction s name parameters body).2.Ordered :=
  have hu := h.update s (f := fun scope => { scope with declares := true })
    (fun _ => rfl) (fun _ => rfl)
  ⟨hu.youngestFirst, hu.numbered, hu.inOlder⟩

/-- Scopes may go. -/
theorem Ordered.of_sublist {store fewer : Store} (h : store.Ordered)
    (hsub : fewer.scopes.Sublist store.scopes) (hnext : fewer.nextScope = store.nextScope) :
    fewer.Ordered :=
  ⟨h.youngestFirst.sublist hsub, fun scope hs => hnext ▸ h.numbered scope (hsub.subset hs),
    fun scope hs => h.inOlder scope (hsub.subset hs)⟩

end Store

end Scripting
