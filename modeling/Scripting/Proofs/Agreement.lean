/-
Stores that agree where it matters.

Two runs of one program may differ in what they have given up. What they still have in common is a
*region*: some scopes that are the same in both stores, together with everything that can be come
by from them. The region also says which of its scopes are worked in, so that neither run has left
them, and which functions are in use.

As long as a program works inside of the region, the two stores are as good as the same: a name has
the same meaning in both, assigning to it works in both or in neither, and each
operation that the program can ask for leaves the stores in agreement, on the old region or on one
that has grown by the new scope. Leaving a scope leaves them in agreement on what
is still reached.
-/
import Scripting.Proofs.Operations
import Scripting.Proofs.Reclaim

set_option autoImplicit false

namespace Scripting

/-- Scopes that are in use, those among them that are worked in, and functions that are in use. -/
structure Region where
  live : ScopeId → Prop
  busy : ScopeId → Prop
  knows : Closure → Prop

namespace Region

/-- A value that can be had inside of the region. -/
def Knows (r : Region) (v : Value) : Prop := v.Meets r.knows

/-- A scope all of whose parts are inside of the region. -/
structure Covers (r : Region) (scope : Scope) : Prop where
  parent : ∀ p, scope.parent = some p → r.live p
  bindings : ∀ entry ∈ scope.bindings, r.Knows entry.2
  declares : ∀ f, r.knows f → f.scope = scope.id → scope.declares = true

theorem Covers.knows_of_mem {r : Region} {scope : Scope} (h : r.Covers scope) {f : Closure}
    {s : ScopeId} (hf : f ∈ scope.functionsOf s) : r.knows f ∧ f.scope = s := by
  obtain ⟨⟨name, hmem⟩, hs⟩ := Scope.mem_functionsOf.mp hf
  exact ⟨h.bindings _ hmem, hs⟩

/-- The region grown by scope `s`, which is worked in. -/
def withScope (r : Region) (s : ScopeId) : Region :=
  { r with live := fun t => r.live t ∨ t = s, busy := fun t => r.busy t ∨ t = s }

/-- The region grown by a function. -/
def withFunction (r : Region) (f : Closure) : Region :=
  { r with knows := fun g => r.knows g ∨ g = f }

theorem Knows.withFunction {r : Region} {v : Value} (h : r.Knows v) (f : Closure) :
    (r.withFunction f).Knows v :=
  h.imp fun _ _ hg => .inl hg

/-- What is worked in when scope `s` has been left. -/
def busyBut (r : Region) (s t : ScopeId) : Prop := r.busy t ∧ t ≠ s

/-- What is left of a region when scope `s` has been left and `held` is held. -/
def reached (r : Region) (store : Store) (s : ScopeId) (held : List Value) : Region where
  live := store.Reaches (r.busyBut s) held
  busy := r.busyBut s
  knows f := r.knows f ∧ store.Reaches (r.busyBut s) held f.scope

theorem Knows.reached {r : Region} {v : Value} (h : r.Knows v) {store : Store} {s : ScopeId}
    {held : List Value} (hr : ∀ f, v = .function f → store.Reaches (r.busyBut s) held f.scope) :
    (r.reached store s held).Knows v :=
  h.imp fun f hv hf => ⟨hf, hr f hv⟩

end Region

namespace Store

/-- Two ordered stores that are the same on a region and number alike. -/
structure Agree (r : Region) (store other : Store) : Prop where
  ordered : store.Ordered
  otherOrdered : other.Ordered
  nextScope : other.nextScope = store.nextScope
  nextFunction : other.nextFunction = store.nextFunction
  knowsLive : ∀ f, r.knows f → r.live f.scope
  busyLive : ∀ t, r.busy t → r.live t
  common : ∀ t, r.live t →
    ∃ scope, scope ∈ store.scopes ∧ scope ∈ other.scopes ∧ scope.id = t ∧ r.Covers scope
  /-- What has been left was there, and is not worked in. -/
  vacated : ∀ t ∈ store.vacated, t < store.nextScope ∧ ¬ r.busy t
  otherVacated : ∀ t ∈ other.vacated, t < store.nextScope ∧ ¬ r.busy t

namespace Agree

variable {r : Region} {store other : Store}

theorem symm (h : Agree r store other) : Agree r other store where
  ordered := h.otherOrdered
  otherOrdered := h.ordered
  nextScope := h.nextScope.symm
  nextFunction := h.nextFunction.symm
  knowsLive := h.knowsLive
  busyLive := h.busyLive
  common t ht := by
    obtain ⟨scope, hs, ho, hid, hcov⟩ := h.common t ht
    exact ⟨scope, ho, hs, hid, hcov⟩
  vacated t ht := by
    rw [h.nextScope]
    exact h.otherVacated t ht
  otherVacated t ht := by
    rw [h.nextScope]
    exact h.vacated t ht

/-- A third store does for the other one, if it has all scopes of the region. -/
theorem exchange (h : Agree r store other) {third : Store} (hthird : third.Ordered)
    (hscope : third.nextScope = store.nextScope)
    (hfunction : third.nextFunction = store.nextFunction)
    (hvacated : ∀ t ∈ third.vacated, t < store.nextScope ∧ ¬ r.busy t)
    (hscopes : ∀ scope ∈ store.scopes, r.live scope.id → scope ∈ third.scopes) :
    Agree r store third where
  ordered := h.ordered
  otherOrdered := hthird
  nextScope := hscope
  nextFunction := hfunction
  knowsLive := h.knowsLive
  busyLive := h.busyLive
  common t ht := by
    obtain ⟨scope, hs, -, hid, hcov⟩ := h.common t ht
    exact ⟨scope, hs, hscopes scope hs (hid ▸ ht), hid, hcov⟩
  vacated := h.vacated
  otherVacated := hvacated

/-- A scope of the store with a number of the region is in the other store as well. -/
theorem covers (h : Agree r store other) {scope : Scope} (hs : scope ∈ store.scopes)
    (hl : r.live scope.id) : scope ∈ other.scopes ∧ r.Covers scope := by
  obtain ⟨found, hf, ho, hid, hcov⟩ := h.common scope.id hl
  rw [h.ordered.eq_of_id_eq hs hf hid.symm]
  exact ⟨ho, hcov⟩

/-- The numbers of a region have been given out. -/
theorem lt_nextScope (h : Agree r store other) {s : ScopeId} (hs : r.live s) :
    s < store.nextScope := by
  obtain ⟨scope, hmem, -, rfl, -⟩ := h.common s hs
  exact h.ordered.numbered scope hmem

/-! ## Reading -/

/-- **The chain of a scope is the same in both stores**, and stays inside of the region. The
induction is on the number of the scope, which falls from a scope to its parent. -/
theorem chain (h : Agree r store other) (s : ScopeId) (hs : r.live s) :
    store.chain s = other.chain s ∧
      ∀ scope ∈ store.chain s, scope ∈ store.scopes ∧ r.live scope.id ∧ r.Covers scope := by
  induction s using Nat.strongRecOn with
  | ind s ih =>
    obtain ⟨scope, hmem, hother, rfl, hcov⟩ := h.common s hs
    rw [h.ordered.chain_eq_cons hmem, h.otherOrdered.chain_eq_cons hother]
    have hrest : store.chainOf scope.parent = other.chainOf scope.parent ∧
        ∀ c ∈ store.chainOf scope.parent, c ∈ store.scopes ∧ r.live c.id ∧ r.Covers c := by
      cases hp : scope.parent with
      | none => exact ⟨rfl, fun c hc => by cases hc⟩
      | some p => exact ih p (h.ordered.inOlder scope hmem p hp) (hcov.parent p hp)
    refine ⟨by rw [hrest.1], fun c hc => ?_⟩
    rcases List.mem_cons.mp hc with rfl | hin
    · exact ⟨hmem, hs, hcov⟩
    · exact hrest.2 c hin

/-- A name has the same meaning in both stores, and its value is known. -/
theorem get? (h : Agree r store other) {s : ScopeId} (hs : r.live s) (name : String) :
    other.get? s name = store.get? s name ∧ ∀ v, store.get? s name = some v → r.Knows v := by
  obtain ⟨heq, hall⟩ := h.chain s hs
  rw [get?_eq_findSome?, get?_eq_findSome?, ← heq]
  refine ⟨rfl, fun v hv => ?_⟩
  obtain ⟨scope, hmem, hget⟩ := List.exists_of_findSome?_eq_some hv
  obtain ⟨-, -, hcov⟩ := hall scope hmem
  exact hcov.bindings (name, v) (Bindings.mem_of_get?_eq_some hget)

/-! ## Changing -/

/-- The same change of a scope in both stores, which stays inside of the region. -/
theorem update (h : Agree r store other) (s : ScopeId) {f : Scope → Scope}
    (hid : ∀ scope, (f scope).id = scope.id) (hp : ∀ scope, (f scope).parent = scope.parent)
    (hcov : ∀ scope, r.Covers scope → r.Covers (f scope)) :
    Agree r (store.update s f) (other.update s f) where
  ordered := h.ordered.update s hid hp
  otherOrdered := h.otherOrdered.update s hid hp
  nextScope := h.nextScope
  nextFunction := h.nextFunction
  knowsLive := h.knowsLive
  busyLive := h.busyLive
  vacated := h.vacated
  otherVacated := h.otherVacated
  common t ht := by
    obtain ⟨scope, hs, ho, hsid, hsc⟩ := h.common t ht
    refine ⟨if scope.id = s then f scope else scope, h.ordered.mem_update.mpr ⟨scope, hs, rfl⟩,
      h.otherOrdered.mem_update.mpr ⟨scope, ho, rfl⟩, ?_, ?_⟩
    · split
      · rw [hid, hsid]
      · exact hsid
    · split
      · exact hcov scope hsc
      · exact hsc

theorem define (h : Agree r store other) (s : ScopeId) (name : String) {v : Value}
    (hv : r.Knows v) : Agree r (store.define s name v) (other.define s name v) := by
  refine h.update s (fun _ => rfl) (fun _ => rfl) fun scope hcov => ?_
  refine ⟨hcov.parent, fun entry hentry => ?_, hcov.declares⟩
  rcases Bindings.mem_set hentry with hold | hnew
  · exact hcov.bindings entry hold
  · rw [hnew]
    exact hv

/-- Assigning works in both stores or in neither. -/
theorem assign? (h : Agree r store other) {s : ScopeId} (hs : r.live s) (name : String) {v : Value}
    (hv : r.Knows v) :
    (store.assign? s name v = none ∧ other.assign? s name v = none) ∨
      ∃ store' other', store.assign? s name v = some store' ∧
        other.assign? s name v = some other' ∧ Agree r store' other' := by
  have heq : other.binder? s name = store.binder? s name := by
    rw [binder?, binder?, (h.chain s hs).1]
  -- The chain is the same, so the name is bound at the same place, if at all.
  rw [h.ordered.assign?_eq, h.otherOrdered.assign?_eq, heq]
  cases store.binder? s name with
  | none => exact .inl ⟨rfl, rfl⟩
  | some scope => exact .inr ⟨_, _, rfl, rfl, h.define scope.id name hv⟩

/-- A number that is not given out yet has not been left. -/
theorem fresh {vacated : List ScopeId} (h : ∀ t ∈ vacated, t < store.nextScope ∧ ¬ r.busy t)
    (t : ScopeId) (ht : t ∈ vacated) :
    t < store.nextScope + 1 ∧ ¬ (r.withScope store.nextScope).busy t := by
  obtain ⟨hlt, hbusy⟩ := h t ht
  refine ⟨Nat.lt_succ_of_lt hlt, ?_⟩
  rintro (hold | rfl)
  · exact hbusy hold
  · exact Nat.lt_irrefl _ hlt

/-- A new scope belongs to the region from then on. -/
theorem newScope (h : Agree r store other) {parent : Option ScopeId}
    (hp : ∀ p, parent = some p → r.live p) :
    Agree (r.withScope store.nextScope) (store.newScope parent).2 (other.newScope parent).2 where
  ordered := h.ordered.newScope fun p hpar => h.lt_nextScope (hp p hpar)
  otherOrdered := h.otherOrdered.newScope fun p hpar => h.symm.lt_nextScope (hp p hpar)
  nextScope := congrArg (· + 1) h.nextScope
  nextFunction := h.nextFunction
  knowsLive f hf := .inl (h.knowsLive f hf)
  busyLive t ht := ht.imp_left (h.busyLive t)
  vacated := fresh h.vacated
  otherVacated := fresh h.otherVacated
  common t ht := by
    -- The new scope comes first in both stores; the others are as they were.
    rcases ht with hold | rfl
    · obtain ⟨scope, hs, ho, hid, hcov⟩ := h.common t hold
      exact ⟨scope, List.mem_cons_of_mem _ hs, List.mem_cons_of_mem _ ho, hid,
        fun p hpar => .inl (hcov.parent p hpar), hcov.bindings, hcov.declares⟩
    · refine ⟨⟨store.nextScope, parent, [], false⟩, List.mem_cons_self, ?_, rfl, ?_⟩
      · have hhead : (⟨other.nextScope, parent, [], false⟩ : Scope)
            ∈ (other.newScope parent).2.scopes := List.mem_cons_self
        rwa [h.nextScope] at hhead
      · -- A number not given out yet cannot be that of a scope that declares.
        refine ⟨fun p hpar => .inl (hp p hpar), fun entry hentry => (by cases hentry), ?_⟩
        intro f hf hid
        exact absurd hid (Nat.ne_of_lt (h.lt_nextScope (h.knowsLive f hf)))

/-- Making a function marks its scope as one that declares. -/
theorem newFunction (h : Agree r store other) {s : ScopeId} (hs : r.live s) (name : String)
    (parameters : List String) (body : List Stmt) :
    Agree (r.withFunction ⟨store.nextFunction, name, parameters, body, s⟩)
      (store.newFunction s name parameters body).2
      (other.newFunction s name parameters body).2 := by
  have hmark := h.update s (f := fun scope => { scope with declares := true }) (fun _ => rfl)
    (fun _ => rfl) fun scope hcov => ⟨hcov.parent, hcov.bindings, fun _ _ _ => rfl⟩
  refine ⟨h.ordered.newFunction s name parameters body,
    h.otherOrdered.newFunction s name parameters body, h.nextScope,
    congrArg (· + 1) h.nextFunction, ?_, h.busyLive, ?_, h.vacated, h.otherVacated⟩
  · rintro f (hold | rfl)
    · exact h.knowsLive f hold
    · exact hs
  · intro t ht
    obtain ⟨scope, hmem, hother, hid, hcov⟩ := hmark.common t ht
    refine ⟨scope, hmem, hother, hid, hcov.parent,
      fun entry hentry => (hcov.bindings entry hentry).withFunction _, ?_⟩
    -- The scope itself has just been marked.
    rintro f (hold | rfl) hf
    · exact hcov.declares f hold hf
    · obtain ⟨old, -, heq⟩ := h.ordered.mem_update.mp hmem
      split at heq
      · rw [heq]
      · next hne => exact absurd (by rw [← heq]; exact hf.symm) hne

/-! ## Leaving -/

variable {s : ScopeId} {held : List Value}

/-- Nothing outside of the region is reached from inside. -/
theorem live_of_reaches (h : Agree r store other) {roots : ScopeId → Prop}
    (hroots : ∀ t, roots t → r.live t) (hheld : ∀ v ∈ held, r.Knows v) {t : ScopeId}
    (ht : store.Reaches roots held t) : r.live t := by
  induction ht with
  | root hu => exact hroots _ hu
  | held hf => exact h.knowsLive _ (hheld _ hf)
  | parent _ hc hp ih => exact (h.covers hc ih).2.parent _ hp
  | bound _ hc hf ih =>
    obtain ⟨hknown, rfl⟩ := (h.covers hc ih).2.knows_of_mem hf
    exact h.knowsLive _ hknown

/-- Nothing outside of the region is reached when scope `s` has been left. -/
theorem live_of_reached (h : Agree r store other) (hheld : ∀ v ∈ held, r.Knows v) {t : ScopeId}
    (ht : store.Reaches (r.busyBut s) held t) : r.live t :=
  h.live_of_reaches (fun u hu => h.busyLive u hu.1) hheld ht

/-- The scopes that functions in use were declared in are marked. -/
theorem announced (h : Agree r store other) (hheld : ∀ v ∈ held, r.Knows v) :
    Announced store (r.busyBut s) held := by
  intro scope hmem huse
  obtain ⟨f, hf, hid⟩ : ∃ f, r.knows f ∧ f.scope = scope.id := by
    rcases huse with ⟨f, hf, hid⟩ | ⟨c, hc, hr, hb⟩
    · exact ⟨f, hheld _ hf, hid⟩
    · obtain ⟨f, hf⟩ := bindsFunctionOf_iff.mp hb
      exact ⟨f, (h.covers hc (h.live_of_reached hheld hr)).2.knows_of_mem hf⟩
  exact (h.covers hmem (hid ▸ h.knowsLive f hf)).2.declares f hf hid

/-- **After one store has left a scope, the two still agree on what is reached.** -/
theorem leave (h : Agree r store other) {leaving : Leaving} (hl : leaving.Retains)
    (hs : s < store.nextScope) (hheld : ∀ v ∈ held, r.Knows v) :
    Agree (r.reached store s held) (leaving store (functionsAmong held) s) other where
  ordered := hl.ordered _ s h.ordered
  otherOrdered := h.otherOrdered
  nextScope := by rw [hl.nextScope, h.nextScope]
  nextFunction := by rw [hl.nextFunction, h.nextFunction]
  knowsLive f hf := hf.2
  busyLive t ht := .root ht
  common t ht := by
    -- What is reached lay in the region, so both stores had it, and leaving keeps it.
    obtain ⟨scope, hmem, hother, rfl, hcov⟩ := h.common t (h.live_of_reached hheld ht)
    have hroots : ∀ u, r.busyBut s u → u ≠ s ∧ u ∉ store.vacated :=
      fun u hu => ⟨hu.2, fun hin => (h.vacated u hin).2 hu.1⟩
    refine ⟨scope, hl.keeps h.ordered hroots (h.announced hheld) scope ⟨hmem, ht⟩,
      hother, rfl, fun p hp => .parent ht hmem hp, ?_, fun f hf => hcov.declares f hf.1⟩
    rintro ⟨name, v⟩ hentry
    refine (hcov.bindings _ hentry).reached fun f hf => ?_
    subst hf
    exact .bound ht hmem (Scope.mem_functionsOf.mpr ⟨⟨name, hentry⟩, rfl⟩)
  vacated t ht := by
    rw [hl.nextScope]
    rcases hl.vacated ht with rfl | hold
    · exact ⟨hs, fun hbusy => hbusy.2 rfl⟩
    · exact ⟨(h.vacated t hold).1, fun hbusy => (h.vacated t hold).2 hbusy.1⟩
  otherVacated t ht := by
    rw [hl.nextScope]
    exact ⟨(h.otherVacated t ht).1, fun hbusy => (h.otherVacated t ht).2 hbusy.1⟩

/-- **After both stores have left a scope, each in its own way, they agree on what is reached**: on
all that is worked in but for that scope, and on what is held. -/
theorem leaveBoth (h : Agree r store other) {leaving leaving' : Leaving} (hl : leaving.Retains)
    (hl' : leaving'.Retains) (hs : s < store.nextScope) (hheld : ∀ v ∈ held, r.Knows v) :
    ∃ r', Agree r' (leaving store (functionsAmong held) s)
        (leaving' other (functionsAmong held) s) ∧
      (∀ t, r.busy t → t ≠ s → r'.busy t) ∧ (∀ v ∈ held, r'.Knows v) ∧
      ∀ f, r'.knows f → r.knows f := by
  have hone := h.leave hl hs hheld
  have hknown : ∀ v ∈ held, (r.reached store s held).Knows v :=
    fun v hv => (hheld v hv).reached fun f hf => .held (hf ▸ hv)
  -- What the stores agree on by then is reached from the same scopes, and is kept once more.
  have hs' : s < other.nextScope := by rw [h.nextScope]; exact hs
  refine ⟨_, (hone.symm.leave hl' hs' hknown).symm, fun t ht hne => ⟨⟨ht, hne⟩, hne⟩,
    fun v hv => ?_, fun f hf => hf.1.1⟩
  exact (hknown v hv).reached fun f hf => .held (hf ▸ hv)

end Agree

end Store

end Scripting
