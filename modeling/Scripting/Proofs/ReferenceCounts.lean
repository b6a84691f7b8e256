/-
The references to scopes and functions, counted one by one.

A host's handles and held values, the parents of scopes and the bindings of scopes are all the
references there are. Here they are counted as they stand: a scope by its handles, by the scopes
that lie in it and by the living functions declared in it, a function by the bindings and the held
values that have it. Two things are shown of the operations on a host's scopes.

Whether a scope is released is decided by these counts. The shortcuts that are taken in the
counting (children are looked for among the younger scopes only, and functions of scopes that never
declared one not at all) miss nothing.

Sweeping is what happens when every reference that is given up may be the last one. A *cascade*
removes one scope at a time that no reference is left to, and with the scope the references
that it had. Sweeping is such a cascade, and it goes on to the end. Whatever the host can still come
by is in the store at every stage of a cascade, since it is referred to by something
that the host can come by as well.
-/
import Scripting.Proofs.Agreement
import Scripting.Proofs.Provenance
import Scripting.Scope.Handles

set_option autoImplicit false

namespace Scripting

/-- The function of the program that a value is, if it is one. -/
def Value.function? : Value → Option Closure
  | .function f => some f
  | _ => none

theorem Value.function?_eq_some {v : Value} {f : Closure} :
    v.function? = some f ↔ v = .function f := by
  cases v <;> simp [function?]

/-- The functions of one scope are found by looking for functions first. -/
theorem Value.closureOf?_eq_filter (v : Value) (s : ScopeId) :
    v.closureOf? s = v.function?.filter (·.scope = s) := by
  cases v with
  | function f =>
    by_cases hs : f.scope = s
    · simp [closureOf?, function?, Option.filter, hs]
    · simp [closureOf?, function?, Option.filter, hs]
  | _ => rfl

theorem Scope.functionsOf_eq_filter (scope : Scope) (s : ScopeId) :
    scope.functionsOf s = (scope.bindings.filterMap (·.2.function?)).filter (·.scope = s) := by
  rw [functionsOf, List.filter_filterMap]
  exact List.filterMap_congr fun entry _ => entry.2.closureOf?_eq_filter s

/-- Children are younger, so counting them up to the scope itself counts all. -/
theorem Store.Ordered.children_eq_countP {store : Store} (h : store.Ordered) (s : ScopeId) :
    store.children s = store.scopes.countP (·.parent = some s) := by
  have hsort := h.youngestFirst
  have hold := h.inOlder
  rw [children]
  clear h
  generalize store.scopes = scopes at hsort hold
  induction scopes with
  | nil => rfl
  | cons head older ih =>
    obtain ⟨hhead, hsort⟩ := List.pairwise_cons.mp hsort
    by_cases hid : head.id = s
    -- Counting stops here. This scope and all that follow are too old to lie in it.
    · rw [List.takeWhile_cons_of_neg (by simpa using hid), List.countP_nil, eq_comm,
        List.countP_eq_zero]
      intro c hc hp
      have hlt := hold c hc s (of_decide_eq_true hp)
      rw [← hid] at hlt
      rcases List.mem_cons.mp hc with rfl | hin
      · exact Nat.lt_irrefl _ hlt
      · exact Nat.lt_asymm hlt (hhead c hin)
    · rw [List.takeWhile_cons_of_pos (by simpa using hid), List.countP_cons, List.countP_cons,
        ih hsort fun c hc => hold c (List.mem_cons_of_mem _ hc)]

/-- What is reached in a store is reached in every other one that has all the scopes on the way. -/
theorem Store.Reaches.of_kept {store other : Store} {roots : ScopeId → Prop} {held : List Value}
    (hkept : ∀ c, Kept store roots held c → c ∈ other.scopes) {t : ScopeId}
    (hr : Reaches store roots held t) : Reaches other roots held t := by
  induction hr with
  | root ht => exact .root ht
  | held hf => exact .held hf
  | parent hr hc hp ih => exact .parent ih (hkept _ ⟨hc, hr⟩) hp
  | bound hr hc hf ih => exact .bound ih (hkept _ ⟨hc, hr⟩) hf

/-- From more scopes more is reached. -/
theorem Store.Reaches.mono {store : Store} {roots more : ScopeId → Prop} {held : List Value}
    (hsub : ∀ t, roots t → more t) {t : ScopeId} (hr : Reaches store roots held t) :
    Reaches store more held t := by
  induction hr with
  | root ht => exact .root (hsub _ ht)
  | held hf => exact .held hf
  | parent _ hc hp ih => exact .parent ih hc hp
  | bound _ hc hf ih => exact .bound ih hc hf

namespace Handles

/-! ## Counting -/

/-- All references to functions of the program: those of held values and those of bindings. -/
def references (h : Handles) : List Closure :=
  h.heldValues.filterMap (·.function?) ++
    h.store.scopes.flatMap fun scope => scope.bindings.filterMap (·.2.function?)

/-- How many references there are to a function. -/
def functionCount (h : Handles) (f : Closure) : Nat := h.references.countP (·.id = f.id)

/-- The living functions that were declared in a scope. -/
def functionsIn (h : Handles) (s : ScopeId) : List FunctionId :=
  ((h.references.filter (·.scope = s)).map (·.id)).eraseDups

/-- How many references there are to a scope: its handles, the scopes that lie in it, and the living
functions that were declared in it. -/
def strongCount (h : Handles) (s : ScopeId) : Nat :=
  h.count s + h.store.scopes.countP (·.parent = some s) + (h.functionsIn s).length

/-- How many bindings of a scope are the only reference to a function declared in it. -/
def boundOnlyHere (h : Handles) (s : ScopeId) : Nat :=
  ((h.store.bindings s).filterMap (·.2.function?)).countP fun f =>
    f.scope = s ∧ h.functionCount f = 1

theorem mem_references {h : Handles} {f : Closure} :
    f ∈ h.references ↔ .function f ∈ h.heldValues ∨ h.store.Binds (.function f) := by
  simp only [references, List.mem_append, List.mem_filterMap, List.mem_flatMap,
    Value.function?_eq_some, exists_eq_right]
  rfl

/-- Nothing refers to a scope if there is no handle on it, nothing lies in it, and no living
function was declared in it. -/
theorem strongCount_eq_zero_iff {h : Handles} {s : ScopeId} :
    h.strongCount s = 0 ↔ (∀ entry ∈ h.scopes, entry.2 ≠ s) ∧
      (∀ c ∈ h.store.scopes, c.parent ≠ some s) ∧ ∀ f ∈ h.references, f.scope ≠ s := by
  have hfunctions : (h.functionsIn s).length = 0 ↔ ∀ f ∈ h.references, f.scope ≠ s := by
    rw [List.length_eq_zero_iff, List.eq_nil_iff_forall_not_mem]
    simp only [functionsIn, List.mem_eraseDups, List.mem_map, List.mem_filter, decide_eq_true_eq]
    constructor
    · intro hnone f hf hs
      exact hnone f.id ⟨f, ⟨hf, hs⟩, rfl⟩
    · rintro hnone i ⟨f, ⟨hf, hs⟩, -⟩
      exact hnone f hf hs
  rw [strongCount, Nat.add_eq_zero_iff, Nat.add_eq_zero_iff, hfunctions, count,
    List.countP_eq_zero, List.countP_eq_zero, and_assoc]
  simp only [decide_eq_true_eq, ne_eq]

/-! ## Hosts whose references all lead somewhere -/

/-- Every reference leads to a scope of the store, a scope with a living function is marked as one
that declares, and a number stands for one function. -/
structure Formed (h : Handles) : Prop where
  ordered : h.store.Ordered
  handles : ∀ entry ∈ h.scopes, ∃ scope ∈ h.store.scopes, scope.id = entry.2
  parents : ∀ scope ∈ h.store.scopes, ∀ p, scope.parent = some p →
    ∃ outer ∈ h.store.scopes, outer.id = p
  declared : ∀ f ∈ h.references, ∃ scope ∈ h.store.scopes, scope.id = f.scope ∧
    scope.declares = true
  numbered : ∀ f ∈ h.references, f.id < h.store.nextFunction
  identified : ∀ f ∈ h.references, ∀ g ∈ h.references, f.id = g.id → f = g

namespace Formed

variable {h : Handles}

/-- A scope that a living function was declared in is marked. -/
theorem declares_of_mem (hf : h.Formed) {scope : Scope} (hs : scope ∈ h.store.scopes) {f : Closure}
    (hmem : f ∈ h.references) (hid : f.scope = scope.id) : scope.declares = true := by
  obtain ⟨found, hfound, hfid, hdecl⟩ := hf.declared f hmem
  rwa [hf.ordered.eq_of_id_eq hs hfound (by rw [hfid, hid])]

/-- The references to the functions of a scope that are counted are all there are. -/
theorem capturing_eq (hf : h.Formed) {scope : Scope} (hs : scope ∈ h.store.scopes) :
    h.store.capturing h.heldFunctions scope = h.references.filter (·.scope = scope.id) := by
  by_cases hdecl : scope.declares = true
  · have hheld : ∀ values : List Value, values.filterMap (·.closureOf? scope.id)
        = (values.filterMap (·.function?)).filter (·.scope = scope.id) := by
      intro values
      rw [List.filter_filterMap]
      exact List.filterMap_congr fun v _ => v.closureOf?_eq_filter scope.id
    rw [Store.capturing_of_declares hdecl, references, List.filter_append, heldFunctions,
      functionsAmong, hheld, List.filter_flatMap]
    simp only [Scope.functionsOf_eq_filter]
  · rw [Store.capturing, if_neg hdecl, eq_comm, List.filter_eq_nil_iff]
    intro f hmem hid
    exact hdecl (hf.declares_of_mem hs hmem (of_decide_eq_true hid))

/-- A reference to a function of the scope is counted with those to all functions. -/
theorem countP_capturing_eq (hf : h.Formed) {f : Closure} (hmem : f ∈ h.references) :
    (h.references.filter (·.scope = f.scope)).countP (·.id = f.id) = h.functionCount f := by
  rw [List.countP_filter, functionCount]
  refine List.countP_congr fun g hg => ?_
  simp only [Bool.and_eq_true, decide_eq_true_eq, and_iff_left_iff_imp]
  intro hid
  rw [hf.identified g hg f hmem hid]

/-- The functions of a scope that are bound in it are among the references that are counted. -/
theorem functionsOf_sublist (hf : h.Formed) {scope : Scope} (hs : scope ∈ h.store.scopes) :
    (scope.functionsOf scope.id).Sublist (h.store.capturing h.heldFunctions scope) := by
  by_cases hdecl : scope.declares = true
  · exact Store.functionsOf_sublist_capturing hs hdecl
  · -- Without the mark nothing is counted, but then no such function is bound.
    have hnone : scope.functionsOf scope.id = [] := by
      rw [List.eq_nil_iff_forall_not_mem]
      intro f hmem
      obtain ⟨⟨name, hb⟩, hid⟩ := Scope.mem_functionsOf.mp hmem
      have hbinds : h.store.Binds (.function f) := ⟨scope, hs, _, hb, rfl⟩
      exact hdecl (hf.declares_of_mem hs (mem_references.mpr (.inr hbinds)) hid)
    rw [hnone]
    exact List.nil_sublist _

/-- The functions that a release takes for the scope's own are those bound there and nowhere
else. -/
theorem ownFunctions_eq (hf : h.Formed) {scope : Scope} (hs : scope ∈ h.store.scopes) :
    Store.ownFunctions scope (h.store.capturing h.heldFunctions scope)
      = h.boundOnlyHere scope.id := by
  rw [Store.ownFunctions_eq_countP (hf.functionsOf_sublist hs), boundOnlyHere, Store.bindings,
    hf.ordered.scope?_eq_some_iff.mpr ⟨hs, rfl⟩, hf.capturing_eq hs]
  rw [scope.functionsOf_eq_filter, List.countP_filter]
  refine List.countP_congr fun f hmem => ?_
  obtain ⟨⟨name, v⟩, hentry, hv⟩ := List.mem_filterMap.mp hmem
  have hliving : f ∈ h.references :=
    mem_references.mpr (.inr ⟨scope, hs, (name, v), hentry, Value.function?_eq_some.mp hv⟩)
  simp only [Bool.and_eq_true, decide_eq_true_eq]
  constructor
  · rintro ⟨hcount, hid⟩
    rw [← hid, hf.countP_capturing_eq hliving] at hcount
    exact ⟨hid, hcount⟩
  · rintro ⟨hid, hcount⟩
    rw [← hid, hf.countP_capturing_eq hliving]
    exact ⟨hcount, rfl⟩

/-- **A scope is released when its counts say so**: apart from the one handle, all references to
it are those of functions bound there and nowhere else. -/
theorem release_eq_true_iff (hf : h.Formed) {scope : Scope} (hs : scope ∈ h.store.scopes) :
    (h.release scope.id).1 = true ↔ h.strongCount scope.id = 1 + h.boundOnlyHere scope.id := by
  have hcounts : h.store.isUnreachable (h.count scope.id) h.heldFunctions scope = true ↔
      h.strongCount scope.id = 1 + h.boundOnlyHere scope.id := by
    rw [Store.isUnreachable, decide_eq_true_eq, hf.ownFunctions_eq hs, Store.references,
      hf.ordered.children_eq_countP, Store.distinct, hf.capturing_eq hs, strongCount, functionsIn]
  rw [← hcounts, release, Store.release, hf.ordered.scope?_eq_some_iff.mpr ⟨hs, rfl⟩]
  dsimp only
  split
  · next hcount => exact ⟨fun _ => hcount, fun _ => rfl⟩
  · next hcount =>
    exact ⟨fun hfalse => absurd hfalse Bool.false_ne_true, fun htrue => absurd htrue hcount⟩

end Formed

/-! ## Cascades -/

/-- The host after scope `s` has gone, and with it the references that it had. -/
def without (h : Handles) (s : ScopeId) : Handles :=
  { h with store := { h.store with scopes := h.store.scopes.filter (·.id ≠ s) } }

/-- One scope after the other goes, each when no reference to it is left. -/
inductive Cascade : Handles → Handles → Prop
  | refl (h : Handles) : Cascade h h
  | step {h h' : Handles} (scope : Scope) : scope ∈ h.store.scopes → h.strongCount scope.id = 0 →
      Cascade (h.without scope.id) h' → Cascade h h'

/-- Every scope in the store is referred to. -/
def Settled (h : Handles) : Prop := ∀ scope ∈ h.store.scopes, 0 < h.strongCount scope.id

theorem mem_without {h : Handles} {s : ScopeId} {scope : Scope} :
    scope ∈ (h.without s).store.scopes ↔ scope ∈ h.store.scopes ∧ scope.id ≠ s := by
  simp only [without, List.mem_filter, decide_eq_true_eq]

/-- What goes takes references along, and makes none. -/
theorem mem_references_of_without {h : Handles} {s : ScopeId} {f : Closure}
    (hf : f ∈ (h.without s).references) : f ∈ h.references := by
  rw [mem_references] at hf ⊢
  exact hf.imp_right fun hb => hb.of_subset fun scope hs => (mem_without.mp hs).1

namespace Formed

variable {h h' : Handles}

/-- Removing a scope that nothing refers to leaves no reference that leads nowhere. -/
theorem without (hf : h.Formed) {s : ScopeId} (hzero : h.strongCount s = 0) :
    (h.without s).Formed := by
  obtain ⟨hhandles, hparents, hfunctions⟩ := strongCount_eq_zero_iff.mp hzero
  refine ⟨hf.ordered.of_sublist List.filter_sublist rfl, ?_, ?_, ?_, ?_, ?_⟩
  · intro entry hentry
    obtain ⟨scope, hs, hid⟩ := hf.handles entry hentry
    exact ⟨scope, mem_without.mpr ⟨hs, by rw [hid]; exact hhandles entry hentry⟩, hid⟩
  · intro scope hs p hp
    have hs := (mem_without.mp hs).1
    obtain ⟨outer, houter, rfl⟩ := hf.parents scope hs p hp
    exact ⟨outer, mem_without.mpr ⟨houter, fun hid => hparents scope hs (by rw [hp, hid])⟩, rfl⟩
  · intro f hmem
    have hmem := mem_references_of_without hmem
    obtain ⟨scope, hs, hid, hdecl⟩ := hf.declared f hmem
    exact ⟨scope, mem_without.mpr ⟨hs, by rw [hid]; exact hfunctions f hmem⟩, hid, hdecl⟩
  · exact fun f hmem => hf.numbered f (mem_references_of_without hmem)
  · exact fun f hmem g hmem' =>
      hf.identified f (mem_references_of_without hmem) g (mem_references_of_without hmem')

theorem cascade (hf : h.Formed) (hc : Cascade h h') : h'.Formed := by
  induction hc with
  | refl => exact hf
  | step scope _ hzero _ ih => exact ih (hf.without hzero)

end Formed

/-! ## What is reached stays -/

/-- Scopes that the host has handles on. -/
def HasHandles (h : Handles) (roots : ScopeId → Prop) : Prop :=
  ∀ t, roots t → ∃ entry ∈ h.scopes, entry.2 = t

variable {h h' : Handles} {roots : ScopeId → Prop}

/-- Something refers to a scope that the host can come by. -/
theorem strongCount_ne_zero_of_reaches (hroots : h.HasHandles roots) {t : ScopeId}
    (hr : h.store.Reaches roots h.heldValues t) : h.strongCount t ≠ 0 := by
  intro hzero
  obtain ⟨hhandles, hparents, hfunctions⟩ := strongCount_eq_zero_iff.mp hzero
  cases hr with
  | root ht =>
    obtain ⟨entry, hentry, hs⟩ := hroots _ ht
    exact hhandles entry hentry hs
  | held hf => exact hfunctions _ (mem_references.mpr (.inl hf)) rfl
  | parent _ hc hp => exact hparents _ hc hp
  | bound _ hc hf =>
    obtain ⟨⟨name, hb⟩, hs⟩ := Scope.mem_functionsOf.mp hf
    exact hfunctions _ (mem_references.mpr (.inr ⟨_, hc, _, hb, rfl⟩)) hs

/-- The way to a scope that the host can come by does not lead over one that goes. -/
theorem kept_without (hroots : h.HasHandles roots) {s : ScopeId} (hzero : h.strongCount s = 0)
    {scope : Scope} (hk : h.store.Kept roots h.heldValues scope) :
    (h.without s).store.Kept roots h.heldValues scope := by
  have hstays : ∀ c, h.store.Kept roots h.heldValues c → c ∈ (h.without s).store.scopes := by
    rintro c ⟨hc, hr⟩
    refine mem_without.mpr ⟨hc, ?_⟩
    rintro rfl
    exact strongCount_ne_zero_of_reaches hroots hr hzero
  exact ⟨hstays scope hk, hk.2.of_kept hstays⟩

/-- **A cascade takes no scope away that the host can come by**, at no stage. -/
theorem Cascade.keeps (hc : Cascade h h') (hroots : h.HasHandles roots) {scope : Scope}
    (hk : h.store.Kept roots h.heldValues scope) : scope ∈ h'.store.scopes := by
  induction hc with
  | refl => exact hk.1
  | step gone _ hzero _ ih => exact ih hroots (kept_without hroots hzero hk)

/-- A cascade is a matter of the scopes alone. -/
theorem Cascade.numbers (hc : Cascade h h') : h'.store.nextScope = h.store.nextScope ∧
    h'.store.nextFunction = h.store.nextFunction := by
  induction hc with
  | refl => exact ⟨rfl, rfl⟩
  | step _ _ _ _ ih => exact ih

/-- What the host can come by, as a region of its store. -/
def region (h : Handles) (roots : ScopeId → Prop) : Region where
  live := h.store.Reaches roots h.heldValues
  busy _ := False
  knows f := h.store.Reaches roots h.heldValues f.scope ∧ f ∈ h.references

namespace Formed

theorem exists_of_hasHandles (hf : h.Formed) (hroots : h.HasHandles roots) (t : ScopeId)
    (ht : roots t) : ∃ scope ∈ h.store.scopes, scope.id = t := by
  obtain ⟨entry, hentry, rfl⟩ := hroots t ht
  exact hf.handles entry hentry

/-- What can be come by from scopes of the store is in the store. -/
theorem exists_of_reaches (hf : h.Formed)
    (hroots : ∀ t, roots t → ∃ scope ∈ h.store.scopes, scope.id = t) {t : ScopeId}
    (hr : h.store.Reaches roots h.heldValues t) : ∃ scope ∈ h.store.scopes, scope.id = t := by
  have hdeclared : ∀ f ∈ h.references, ∃ scope ∈ h.store.scopes, scope.id = f.scope := by
    intro f hmem
    obtain ⟨scope, hs, hid, -⟩ := hf.declared f hmem
    exact ⟨scope, hs, hid⟩
  cases hr with
  | root ht => exact hroots _ ht
  | held hfun => exact hdeclared _ (mem_references.mpr (.inl hfun))
  | parent _ hc hp => exact hf.parents _ hc _ hp
  | bound _ hc hfun =>
    obtain ⟨⟨name, hb⟩, rfl⟩ := Scope.mem_functionsOf.mp hfun
    exact hdeclared _ (mem_references.mpr (.inr ⟨_, hc, _, hb, rfl⟩))

/-- A store that still has what the host can come by agrees with the host's on it. A host leaves no
scopes by itself, so those that have been left are out of the question. -/
theorem agree (hf : h.Formed) (hroots : ∀ t, roots t → ∃ scope ∈ h.store.scopes, scope.id = t)
    {other : Store} (ho : other.Ordered) (hscope : other.nextScope = h.store.nextScope)
    (hfunction : other.nextFunction = h.store.nextFunction)
    (hkept : ∀ c, h.store.Kept roots h.heldValues c → c ∈ other.scopes) :
    Store.Agree (h.region roots) { h.store with vacated := [] } { other with vacated := [] } where
  ordered := ⟨hf.ordered.youngestFirst, hf.ordered.numbered, hf.ordered.inOlder⟩
  otherOrdered := ⟨ho.youngestFirst, ho.numbered, ho.inOlder⟩
  nextScope := hscope
  nextFunction := hfunction
  knowsLive f hf := hf.1
  busyLive _ ht := ht.elim
  vacated _ ht := absurd ht List.not_mem_nil
  otherVacated _ ht := absurd ht List.not_mem_nil
  common t ht := by
    obtain ⟨scope, hs, rfl⟩ := hf.exists_of_reaches hroots ht
    refine ⟨scope, hs, hkept scope ⟨hs, ht⟩, rfl, fun p hp => .parent ht hs hp, ?_, ?_⟩
    · rintro ⟨name, v⟩ hentry
      cases v with
      | function f =>
        have hb := Scope.mem_functionsOf.mpr ⟨⟨name, hentry⟩, rfl⟩
        exact ⟨.bound ht hs hb, mem_references.mpr (.inr ⟨scope, hs, _, hentry, rfl⟩)⟩
      | _ => trivial
    · rintro f ⟨-, hmem⟩ hid
      exact hf.declares_of_mem hs hmem hid

/-- The marks of a host's scopes are right for whatever it can come by. -/
theorem announced (hf : h.Formed) : h.store.Announced roots h.heldValues := by
  rintro scope hs (⟨f, hheld, hid⟩ | ⟨c, hc, -, hb⟩)
  · exact hf.declares_of_mem hs (mem_references.mpr (.inl hheld)) hid
  · obtain ⟨f, hmem⟩ := Store.bindsFunctionOf_iff.mp hb
    obtain ⟨⟨name, hentry⟩, hid⟩ := Scope.mem_functionsOf.mp hmem
    exact hf.declares_of_mem hs (mem_references.mpr (.inr ⟨c, hc, _, hentry, rfl⟩)) hid

/-- **At every stage of a cascade the chain of a scope that the host can come by is the
same.** -/
theorem chain_cascade (hf : h.Formed) (hroots : h.HasHandles roots) (hc : Cascade h h')
    {t : ScopeId} (ht : h.store.Reaches roots h.heldValues t) :
    h'.store.chain t = h.store.chain t := by
  have hagree := hf.agree (hf.exists_of_hasHandles hroots) (hf.cascade hc).ordered hc.numbers.1
    hc.numbers.2 fun c hk => hc.keeps hroots hk
  exact (hagree.chain t ht).1.symm

/-! ## Sweeping -/

/-- Whether a scope without handles is referred to is found by looking at the references that can
be. -/
theorem referred_iff (hf : h.Formed) {scope : Scope} (hs : scope ∈ h.store.scopes)
    (hcount : h.count scope.id = 0) :
    Store.Referred (· ∈ h.store.scopes) h.heldFunctions scope ↔ h.strongCount scope.id ≠ 0 := by
  have hhandles : ∀ entry ∈ h.scopes, entry.2 ≠ scope.id := by
    intro entry hentry hid
    exact List.countP_eq_zero.mp hcount entry hentry (decide_eq_true hid)
  rw [ne_eq, strongCount_eq_zero_iff, not_and_or, not_and_or]
  simp only [not_forall, not_not, exists_prop]
  constructor
  · rintro (⟨c, hc, hp⟩ | ⟨-, ⟨f, hheld⟩ | ⟨c, hc, hb⟩⟩)
    · exact .inr (.inl ⟨c, hc, hp⟩)
    · obtain ⟨hheld, hid⟩ := mem_functionsAmong.mp hheld
      exact .inr (.inr ⟨f, mem_references.mpr (.inl hheld), hid⟩)
    · obtain ⟨f, hmem⟩ := Store.bindsFunctionOf_iff.mp hb
      obtain ⟨⟨name, hentry⟩, hid⟩ := Scope.mem_functionsOf.mp hmem
      exact .inr (.inr ⟨f, mem_references.mpr (.inr ⟨c, hc, _, hentry, rfl⟩), hid⟩)
  · rintro (⟨entry, hentry, hid⟩ | ⟨c, hc, hp⟩ | ⟨f, hmem, hid⟩)
    · exact absurd hid (hhandles entry hentry)
    · exact .inl ⟨c, hc, hp⟩
    · refine .inr ⟨hf.declares_of_mem hs hmem hid, ?_⟩
      rcases mem_references.mp hmem with hheld | ⟨c, hc, ⟨name, v⟩, hb, rfl⟩
      · exact .inl ⟨f, mem_functionsAmong.mpr ⟨hheld, hid⟩⟩
      · refine .inr ⟨c, hc, Store.bindsFunctionOf_iff.mpr ⟨f, ?_⟩⟩
        exact Scope.mem_functionsOf.mpr ⟨⟨name, hb⟩, hid⟩

/-- The walk down the list asks the same. -/
theorem isReferred_iff (hf : h.Formed) {before behind : List Scope} {scope : Scope}
    (hscopes : h.store.scopes = before ++ scope :: behind) (hcount : h.count scope.id = 0) :
    Store.isReferred h.heldFunctions before.reverse scope behind = true ↔
      h.strongCount scope.id ≠ 0 := by
  have hs : scope ∈ h.store.scopes := by simp [hscopes]
  have hd := hf.ordered.descending
  rw [← hf.referred_iff hs hcount, hscopes]
  rw [hscopes, ← List.reverse_reverse before] at hd
  rw [hd.isReferred_iff, List.reverse_reverse]

end Formed

/-- The host with other scopes in its store. -/
def withScopes (h : Handles) (scopes : List Scope) : Handles :=
  { h with store := { h.store with scopes := scopes } }

/-- The scopes that stand around the one that goes. -/
theorem without_eq (hord : h.store.Ordered) {before behind : List Scope} {scope : Scope}
    (hscopes : h.store.scopes = before ++ scope :: behind) :
    h.without scope.id = h.withScopes (before ++ behind) := by
  have hd := hord.descending
  have hnodup := hd.nodup
  rw [hscopes] at hd hnodup
  rw [List.nodup_middle, List.nodup_cons] at hnodup
  have hother : ∀ c ∈ before ++ behind, c.id ≠ scope.id := by
    intro c hc hid
    have hin : c ∈ before ++ scope :: behind := by
      rcases List.mem_append.mp hc with hin | hin <;> simp [hin]
    rw [hd.eq_of_id_eq hin (by simp) hid] at hc
    exact hnodup.1 hc
  have hfilter : (before ++ scope :: behind).filter (·.id ≠ scope.id) = before ++ behind := by
    rw [List.filter_append, List.filter_cons_of_neg (by simp), ← List.filter_append]
    exact List.filter_eq_self.mpr fun c hc => decide_eq_true (hother c hc)
  rw [without, withScopes, hscopes, hfilter]

/-- **Sweeping is a cascade that goes on to the end.** Each scope that is removed has no reference
left; the induction is on how many scopes there are. -/
theorem Formed.sweepFrom (hf : h.Formed) (loose : List ScopeId)
    (hloose : ∀ t ∈ loose, h.count t = 0)
    (hall : ∀ scope ∈ h.store.scopes, h.count scope.id = 0 → scope.id ∈ loose) :
    Cascade h (h.withScopes (Store.sweepFrom h.heldFunctions loose h.store.scopes).2) ∧
      (h.withScopes (Store.sweepFrom h.heldFunctions loose h.store.scopes).2).Formed ∧
      (h.withScopes (Store.sweepFrom h.heldFunctions loose h.store.scopes).2).Settled := by
  induction hn : h.store.scopes.length using Nat.strongRecOn generalizing h loose with
  | ind n ih =>
    rcases Store.sweepFrom_cases h.heldFunctions loose h.store.scopes with
      ⟨heq, hnone⟩ | ⟨before, scope, behind, hscopes, hin, hdead, heq⟩
    · have hsame : h.withScopes (Store.sweepFrom h.heldFunctions loose h.store.scopes).2 = h := by
        rw [heq]
        rfl
      rw [hsame]
      refine ⟨.refl h, hf, fun scope hs => Nat.pos_of_ne_zero ?_⟩
      by_cases hcount : h.count scope.id = 0
      · have hin := hall scope hs hcount
        obtain ⟨before, behind, hscopes⟩ := List.append_of_mem hs
        rw [hscopes] at hnone
        have hreferred := Store.isReferred_of_removeDead?_eq_none hnone hin
        rw [List.append_nil] at hreferred
        exact (hf.isReferred_iff hscopes hcount).mp hreferred
      · rw [strongCount]
        omega
    · have hcount := hloose _ hin
      have hzero : h.strongCount scope.id = 0 := by
        by_contra hne
        rw [(hf.isReferred_iff hscopes hcount).mpr hne] at hdead
        cases hdead
      have hwithout := without_eq hf.ordered hscopes
      have hlt : (h.without scope.id).store.scopes.length < n := by
        rw [hwithout, ← hn, hscopes]
        simp [withScopes]
      have hrest := ih _ hlt (hf.without hzero) (loose.erase scope.id)
        (fun t ht => hloose t (List.mem_of_mem_erase ht)) (fun c hc hzero => ?_) rfl
      · rw [hwithout] at hrest
        rw [heq]
        obtain ⟨hcascade, hformed, hsettled⟩ := hrest
        refine ⟨.step scope (by simp [hscopes]) hzero ?_, hformed, hsettled⟩
        rw [hwithout]
        exact hcascade
      · obtain ⟨hc, hne⟩ := mem_without.mp hc
        exact (List.mem_erase_of_ne hne).mpr (hall c hc hzero)

theorem count_of_mem_loose {t : ScopeId} (ht : t ∈ h.loose) : h.count t = 0 :=
  of_decide_eq_true (List.mem_filter.mp ht).2

theorem Formed.tidy (hf : h.Formed) : Cascade h h.tidy ∧ h.tidy.Formed ∧ h.tidy.Settled := by
  refine hf.sweepFrom h.loose (fun t ht => count_of_mem_loose ht) fun scope hs hcount => ?_
  exact List.mem_filter.mpr ⟨List.mem_map_of_mem hs, decide_eq_true hcount⟩

/-- Where everything is referred to there is nothing to remove. -/
theorem Formed.tidy_eq_self (hf : h.Formed) (hsettled : h.Settled) : h.tidy = h := by
  rcases Store.sweepFrom_cases h.heldFunctions h.loose h.store.scopes with
    ⟨heq, -⟩ | ⟨before, scope, behind, hscopes, hin, hdead, -⟩
  · rw [Handles.tidy, Store.sweep, heq]
  · have hpos := hsettled scope (by simp [hscopes])
    rw [(hf.isReferred_iff hscopes (count_of_mem_loose hin)).mpr (Nat.ne_of_gt hpos)] at hdead
    cases hdead

end Handles

end Scripting
