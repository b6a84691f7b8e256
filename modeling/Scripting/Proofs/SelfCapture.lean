/-
Scopes that nothing but their own functions hold.

A function that is declared in a scope refers to it, and is bound in it. When a scope is
left, these functions and the one who leaves may be all that refer to the scope, and only bindings
of the scope may refer to them. Nobody can come by such a scope any more, so it ought to be
released; if it is not, it stays for good, since it never runs out of references.

The release counts the bindings that are the only reference to a function of the scope. A function
that is bound under one name is counted once, as a reference to the scope and as such a
binding. A function that is bound under two names is counted as a reference to the scope, but
neither of its bindings is its only reference. So the counts agree exactly if no function is bound
under two names. How many functions there are and what else is bound makes no difference.

To speak of names, it has to be known that a scope binds no name twice; this is the
invariant of the first part.
-/
import Mathlib.Data.List.Pairwise
import Scripting.Proofs.Hosting

set_option autoImplicit false

namespace Scripting

/-! ## No name is bound twice -/

/-- Setting a name adds it, or leaves the names as they are. -/
theorem Bindings.nodup_set {b : Bindings} (h : (b.map (·.1)).Nodup) (name : String) (v : Value) :
    ((b.set name v).map (·.1)).Nodup := by
  -- What is added stands last, so the names in front are followed on the way there.
  have hmem : ∀ (b : Bindings) (n : String), n ∈ (b.set name v).map (·.1) →
      n = name ∨ n ∈ b.map (·.1) := by
    intro b n hn
    induction b with
    | nil => exact .inl (List.mem_singleton.mp hn)
    | cons entry rest ih =>
      rw [set] at hn
      split at hn
      · exact .inr hn
      · rcases List.mem_cons.mp hn with rfl | hin
        · exact .inr List.mem_cons_self
        · exact (ih hin).imp_right (List.mem_cons_of_mem _)
  induction b with
  | nil => exact List.nodup_singleton name
  | cons entry rest ih =>
    obtain ⟨hnew, hrest⟩ := List.nodup_cons.mp h
    rw [set]
    split
    · exact h
    · next hne =>
      refine List.nodup_cons.mpr ⟨fun hin => ?_, ih hrest⟩
      rcases hmem rest entry.1 hin with heq | hold
      · exact hne heq
      · exact hnew hold

namespace Store

/-- No scope binds a name twice. -/
def NamesOnce (store : Store) : Prop := ∀ scope ∈ store.scopes, (scope.bindings.map (·.1)).Nodup

variable {store : Store}

theorem NamesOnce.of_subset (h : store.NamesOnce) {other : Store}
    (hsub : ∀ scope ∈ other.scopes, scope ∈ store.scopes) : other.NamesOnce :=
  fun scope hs => h scope (hsub scope hs)

theorem NamesOnce.update (h : store.NamesOnce) (s : ScopeId) {f : Scope → Scope}
    (hf : ∀ scope, (scope.bindings.map (·.1)).Nodup → ((f scope).bindings.map (·.1)).Nodup) :
    (store.update s f).NamesOnce := by
  intro scope hs
  rcases mem_updateIn hs with hold | ⟨old, hold, -, rfl⟩
  · exact h scope hold
  · exact hf old (h old hold)

theorem NamesOnce.define (h : store.NamesOnce) (s : ScopeId) (name : String) (v : Value) :
    (store.define s name v).NamesOnce :=
  h.update s fun _ hscope => Bindings.nodup_set hscope name v

theorem NamesOnce.clear (h : store.NamesOnce) (s : ScopeId) : (store.clear s).NamesOnce :=
  h.update s fun _ _ => List.nodup_nil

theorem NamesOnce.newScope (h : store.NamesOnce) (parent : Option ScopeId) :
    (store.newScope parent).2.NamesOnce := by
  intro scope hs
  rcases List.mem_cons.mp hs with rfl | hold
  · exact List.nodup_nil
  · exact h scope hold

theorem NamesOnce.newFunction (h : store.NamesOnce) (s : ScopeId) (name : String)
    (parameters : List String) (body : List Stmt) :
    (store.newFunction s name parameters body).2.NamesOnce := by
  have hmarked := h.update s (f := fun scope => { scope with declares := true }) fun _ => id
  exact hmarked.of_subset fun _ => id

theorem NamesOnce.assign? (h : store.NamesOnce) {other : Store} {s : ScopeId} {name : String}
    {v : Value} (hassign : store.assign? s name v = some other) : other.NamesOnce := by
  obtain ⟨scopes, hscopes, rfl⟩ := Option.map_eq_some_iff.mp hassign
  intro scope hs
  rcases mem_assignIn hscopes hs with hold | ⟨old, hold, heq⟩
  · exact h scope hold
  · rw [heq]
    exact Bindings.nodup_set (h old hold) name v

theorem NamesOnce.release (h : store.NamesOnce) (handles : Nat) (held : ScopeId → List Closure)
    (s : ScopeId) : (store.release handles held s).2.NamesOnce := by
  rcases release_cases held s store handles with heq | ⟨-, -, -, heq⟩ <;> rw [heq]
  · exact h
  · exact h.clear s

end Store

namespace Handles

variable {h : Handles}

theorem namesOnce_tidy (hn : h.store.NamesOnce) : h.tidy.store.NamesOnce :=
  hn.of_subset fun _ hs =>
    (Store.sweepFrom_sublist h.heldFunctions h.loose h.store.scopes).subset hs

theorem namesOnce_supply (hn : h.store.NamesOnce) (value : Supply) :
    (h.supply value).2.store.NamesOnce := by
  cases value with
  | function name => exact (hn.newScope none).newFunction _ name [] []
  | _ => exact hn

/-- **One operation binds no name twice.** -/
theorem namesOnce_perform (hn : h.store.NamesOnce) (operation : Operation) :
    (h.perform operation).store.NamesOnce := by
  -- Each operation changes the store in one way, if its handle is on a scope, and tidies up.
  have hon : ∀ {handle : String} {act : ScopeId → Handles},
      (∀ s, h.scope? handle = some s → (act s).store.NamesOnce) →
      (h.withScope handle act).store.NamesOnce :=
    withScope_of (P := fun h => h.store.NamesOnce) hn
  cases operation with
  | global handle => exact namesOnce_tidy (hn.newScope none)
  | child of handle => exact hon fun s _ => namesOnce_tidy (hn.newScope (some s))
  | share of handle => exact hon fun _ _ => namesOnce_tidy hn
  | drop handle => exact hon fun _ _ => namesOnce_tidy hn
  | define on name value =>
    exact hon fun s _ => namesOnce_tidy ((namesOnce_supply hn value).define s name _)
  | assign on name value =>
    refine hon fun s _ => ?_
    have hsupplied := namesOnce_supply hn value
    rw [Handles.assign]
    split
    · next store hstore => exact namesOnce_tidy (hsupplied.assign? hstore)
    · exact namesOnce_tidy hsupplied
  | declare on name =>
    exact hon fun s _ => namesOnce_tidy ((hn.newFunction s name [] []).define s name _)
  | hold on name key =>
    refine hon fun s _ => ?_
    rw [Handles.hold]
    split
    · exact namesOnce_tidy hn
    · exact hn
  | dropHeld key => exact namesOnce_tidy hn
  | release on =>
    exact hon fun s _ => namesOnce_tidy (hn.release (h.count s) h.heldFunctions s)

theorem namesOnce_performAll (operations : List Operation) :
    (performAll operations).store.NamesOnce :=
  performAll_keeps (P := fun h => h.store.NamesOnce) (fun _ operation hn =>
    namesOnce_perform hn operation) (fun _ hs => absurd hs List.not_mem_nil) operations

/-! ## Scopes that hold themselves -/

/-- One handle is on the scope, and apart from it only functions declared in the scope refer to it;
and only bindings of the scope refer to those. -/
structure SelfHeld (h : Handles) (s : ScopeId) : Prop where
  handle : h.count s = 1
  children : ∀ scope ∈ h.store.scopes, scope.parent ≠ some s
  held : ∀ f, .function f ∈ h.heldValues → f.scope ≠ s
  bound : ∀ scope ∈ h.store.scopes, ∀ name f, (name, .function f) ∈ scope.bindings →
    f.scope = s → scope.id = s

/-- Some function declared in the scope is bound there under two names. -/
def Aliased (h : Handles) (s : ScopeId) : Prop :=
  ∃ f n m, n ≠ m ∧ f.scope = s ∧ (n, .function f) ∈ h.store.bindings s ∧
    (m, .function f) ∈ h.store.bindings s

/-- A scope that holds itself is found by looking at every reference. -/
theorem selfHeld_iff (h : Handles) (s : ScopeId) :
    (h.count s = 1 ∧ (∀ scope ∈ h.store.scopes, scope.parent ≠ some s) ∧
        (∀ v ∈ h.heldValues, (v.closureOf? s).isSome = false) ∧
        ∀ scope ∈ h.store.scopes, scope.id = s ∨ Store.bindsFunctionOf s scope = false) ↔
      h.SelfHeld s := by
  have hfunction : ∀ v : Value, (v.closureOf? s).isSome = false ↔
      ∀ f, v = .function f → f.scope ≠ s := by
    intro v
    rw [Option.isSome_eq_false_iff, Option.isNone_iff_eq_none, Option.eq_none_iff_forall_ne_some]
    simp only [ne_eq, Value.closureOf?_eq_some, not_and]
  constructor
  · rintro ⟨hone, hchildren, hheld, hbound⟩
    refine ⟨hone, hchildren, fun f hf => (hfunction _).mp (hheld _ hf) f rfl, ?_⟩
    intro scope hs name f hentry hid
    have hbinds : Store.bindsFunctionOf s scope = true :=
      Store.bindsFunctionOf_iff.mpr ⟨f, Scope.mem_functionsOf.mpr ⟨⟨name, hentry⟩, hid⟩⟩
    exact (hbound scope hs).resolve_right (by simp [hbinds])
  · rintro ⟨hone, hchildren, hheld, hbound⟩
    refine ⟨hone, hchildren, fun v hv => (hfunction v).mpr ?_, fun scope hs => ?_⟩
    · rintro f rfl
      exact hheld f hv
    · cases hb : Store.bindsFunctionOf s scope with
      | false => exact .inr rfl
      | true =>
        obtain ⟨f, hf⟩ := Store.bindsFunctionOf_iff.mp hb
        obtain ⟨⟨name, hentry⟩, hid⟩ := Scope.mem_functionsOf.mp hf
        exact .inl (hbound scope hs name f hentry hid)

instance (h : Handles) (s : ScopeId) : Decidable (h.SelfHeld s) :=
  decidable_of_iff _ (h.selfHeld_iff s)

/-! ## What the counts come to -/

/-- All references to functions of a scope that holds itself are bindings of the scope. -/
theorem SelfHeld.filter_references {scope : Scope} (hself : h.SelfHeld scope.id) (hf : h.Formed)
    (hs : scope ∈ h.store.scopes) :
    h.references.filter (·.scope = scope.id) = scope.functionsOf scope.id := by
  obtain ⟨before, after, hsplit⟩ := List.append_of_mem hs
  have hsort := hf.ordered.youngestFirst
  rw [hsplit, List.pairwise_append, List.pairwise_cons] at hsort
  obtain ⟨-, ⟨hafter, -⟩, hbefore⟩ := hsort
  -- The other scopes have other numbers, so they bind none of these functions.
  have hnone : ∀ c ∈ h.store.scopes, c.id ≠ scope.id → c.functionsOf scope.id = [] := by
    intro c hc hne
    rw [List.eq_nil_iff_forall_not_mem]
    intro f hmem
    obtain ⟨⟨name, hentry⟩, hid⟩ := Scope.mem_functionsOf.mp hmem
    exact hne (hself.bound c hc name f hentry hid)
  have hothers : ∀ part : List Scope, (∀ c ∈ part, c ∈ h.store.scopes ∧ c.id ≠ scope.id) →
      part.flatMap (fun c => c.functionsOf scope.id) = [] := by
    intro part hpart
    rw [List.flatMap_eq_nil_iff]
    exact fun c hc => hnone c (hpart c hc).1 (hpart c hc).2
  have hheld : (h.heldValues.filterMap (·.function?)).filter (·.scope = scope.id) = [] := by
    rw [List.filter_eq_nil_iff]
    intro f hmem hid
    obtain ⟨v, hv, hfun⟩ := List.mem_filterMap.mp hmem
    rw [Value.function?_eq_some.mp hfun] at hv
    exact hself.held f hv (of_decide_eq_true hid)
  rw [references, List.filter_append, hheld, List.nil_append, List.filter_flatMap]
  simp only [← Scope.functionsOf_eq_filter]
  rw [hsplit, List.flatMap_append, List.flatMap_cons, hothers before, hothers after,
    List.append_nil, List.nil_append]
  · intro c hc
    refine ⟨hsplit ▸ List.mem_append_right _ (List.mem_cons_of_mem _ hc), ?_⟩
    exact Nat.ne_of_lt (hafter c hc)
  · intro c hc
    refine ⟨hsplit ▸ List.mem_append_left _ hc, ?_⟩
    exact Nat.ne_of_gt (hbefore c hc scope List.mem_cons_self)

/-- Counting references that are all different counts each of them. -/
theorem eraseDups_of_nodup {ids : List FunctionId} (h : ids.Nodup) : ids.eraseDups = ids := by
  induction ids with
  | nil => rfl
  | cons i rest ih =>
    obtain ⟨hnew, hrest⟩ := List.nodup_cons.mp h
    have hkept : rest.filter (fun j => !j == i) = rest := by
      refine List.filter_eq_self.mpr fun j hj => ?_
      have hne : j ≠ i := fun heq => hnew (heq ▸ hj)
      simp [hne]
    rw [List.eraseDups_cons, hkept, ih hrest]

/-- **The counts agree exactly if no function is referred to twice.** Each function is one reference
to the scope; it is one binding that is counted if it is the only reference to the function, and
none if there are more. -/
theorem distinct_eq_countP_iff (own : List Closure) :
    Store.distinct own = own.countP (fun f => own.countP (·.id = f.id) = 1) ↔
      (own.map (·.id)).Nodup := by
  have hcount : ∀ i, (own.map (·.id)).count i = own.countP (·.id = i) := by
    intro i
    rw [List.count, List.countP_map]
    rfl
  constructor
  · intro heq
    obtain ⟨-, honce⟩ := Store.known_once_of_counts (List.Sublist.refl own) (n := 0)
      ((Nat.zero_add _).trans heq)
    rw [List.nodup_iff_count_le_one]
    intro i
    by_cases hi : i ∈ own.map (·.id)
    · obtain ⟨f, hf, rfl⟩ := List.mem_map.mp hi
      rw [hcount, (honce f hf).1]
    · rw [List.count_eq_zero_of_not_mem hi]
      exact Nat.zero_le 1
  · intro hnodup
    have hall : ∀ f ∈ own, own.countP (·.id = f.id) = 1 := by
      intro f hf
      rw [← hcount]
      exact List.count_eq_one_of_mem hnodup (List.mem_map_of_mem hf)
    rw [Store.distinct, eraseDups_of_nodup hnodup, List.length_map, eq_comm, List.countP_eq_length]
    exact fun f hf => decide_eq_true (hall f hf)

/-- Bindings with different names have different functions exactly if no function has two names. -/
theorem Formed.nodup_iff_not_aliased {scope : Scope} (hf : h.Formed) (hn : h.store.NamesOnce)
    (hs : scope ∈ h.store.scopes) :
    ((scope.functionsOf scope.id).map (·.id)).Nodup ↔ ¬ h.Aliased scope.id := by
  have hbindings : h.store.bindings scope.id = scope.bindings := by
    rw [Store.bindings, hf.ordered.scope?_eq_some_iff.mpr ⟨hs, rfl⟩]
  have hliving : ∀ name f, (name, .function f) ∈ scope.bindings → f ∈ h.references :=
    fun name f hentry => mem_references.mpr (.inr ⟨scope, hs, _, hentry, rfl⟩)
  rw [Aliased, hbindings, List.Nodup, List.pairwise_map, Scope.functionsOf, List.pairwise_filterMap]
  simp only [Value.closureOf?_eq_some]
  constructor
  · rintro hpairs ⟨f, n, m, hne, hid, hfirst, hsecond⟩
    have hsymm : Std.Symm fun a b : String × Value => ∀ g, a.2 = .function g ∧ g.scope = scope.id →
        ∀ g', b.2 = .function g' ∧ g'.scope = scope.id → g.id ≠ g'.id :=
      ⟨fun a b hab g hg g' hg' heq => hab g' hg' g hg heq.symm⟩
    have hdiffer : (n, Value.function f) ≠ (m, .function f) :=
      fun heq => hne (congrArg Prod.fst heq)
    exact hpairs.forall hfirst hsecond hdiffer f ⟨rfl, hid⟩ f ⟨rfl, hid⟩ rfl
  · intro hnone
    have hnames := hn scope hs
    rw [List.Nodup, List.pairwise_map] at hnames
    refine hnames.imp_of_mem ?_
    rintro ⟨n, v⟩ ⟨m, u⟩ hv hu hne f ⟨hvf, hid⟩ g ⟨hug, -⟩ heq
    dsimp only at hvf hug hne
    subst hvf hug
    -- A number stands for one function, so this one has two names.
    have hsame := hf.identified f (hliving n f hv) g (hliving m g hu) heq
    subst hsame
    exact hnone ⟨f, n, m, hne, hid, hv, hu⟩

/-- **When a scope that holds itself is released.** -/
theorem SelfHeld.release_eq_true_iff {scope : Scope} (hself : h.SelfHeld scope.id) (hf : h.Formed)
    (hn : h.store.NamesOnce) (hs : scope ∈ h.store.scopes) :
    (h.release scope.id).1 = true ↔ ¬ h.Aliased scope.id := by
  have hchildren : h.store.scopes.countP (·.parent = some scope.id) = 0 := by
    rw [List.countP_eq_zero]
    exact fun c hc hp => hself.children c hc (of_decide_eq_true hp)
  have hcapturing : h.store.capturing h.heldFunctions scope = scope.functionsOf scope.id := by
    rw [hf.capturing_eq hs, hself.filter_references hf hs]
  have hfunctions : (h.functionsIn scope.id).length
      = Store.distinct (scope.functionsOf scope.id) := by
    rw [functionsIn, hself.filter_references hf hs, Store.distinct]
  have hown : h.boundOnlyHere scope.id = (scope.functionsOf scope.id).countP
      fun f => (scope.functionsOf scope.id).countP (·.id = f.id) = 1 := by
    rw [← hf.ownFunctions_eq hs, hcapturing, Store.ownFunctions_eq_countP (List.Sublist.refl _)]
  rw [hf.release_eq_true_iff hs, strongCount, hself.handle, hchildren, Nat.add_zero, hfunctions,
    hown, Nat.add_left_cancel_iff, distinct_eq_countP_iff, hf.nodup_iff_not_aliased hn hs]

/-! ## What becomes of the scope -/

/-- A scope that binds a function of its own is in no cascade: that function refers to it. -/
theorem Cascade.mem_of_functionsOf {h h' : Handles} (hc : Cascade h h') {scope : Scope}
    (hs : scope ∈ h.store.scopes) {f : Closure} (hf : f ∈ scope.functionsOf scope.id) :
    scope ∈ h'.store.scopes := by
  induction hc with
  | refl => exact hs
  | step gone _ hzero _ ih =>
    obtain ⟨⟨name, hentry⟩, hid⟩ := Scope.mem_functionsOf.mp hf
    refine ih (mem_without.mpr ⟨hs, fun heq => ?_⟩)
    rw [← heq] at hzero
    obtain ⟨-, -, hfunctions⟩ := strongCount_eq_zero_iff.mp hzero
    exact hfunctions f (mem_references.mpr (.inr ⟨scope, hs, _, hentry, rfl⟩)) hid

theorem Formed.drop (hf : h.Formed) (handle : String) :
    Cascade { h with scopes := remove handle h.scopes } (h.drop handle) ∧
      (h.drop handle).Settled := by
  have hfewer : Formed { h with scopes := remove handle h.scopes } :=
    hf.withHandles fun entry hentry => .inl (List.mem_of_mem_filter hentry)
  exact ⟨hfewer.tidy.1, hfewer.tidy.2.2⟩

/-- The scopes of a cascade are among those it began with. -/
theorem Cascade.subset {h h' : Handles} (hc : Cascade h h') :
    (∀ scope ∈ h'.store.scopes, scope ∈ h.store.scopes) ∧ h'.scopes = h.scopes ∧
      h'.held = h.held := by
  induction hc with
  | refl => exact ⟨fun _ => id, rfl, rfl⟩
  | step gone _ _ _ ih =>
    obtain ⟨hsub, hscopes, hheld⟩ := ih
    exact ⟨fun scope hs => (mem_without.mp (hsub scope hs)).1, hscopes, hheld⟩

/-- Once it is empty and its handle is given up, nothing refers to the scope. -/
theorem SelfHeld.not_mem_drop {handle : String} {s : ScopeId} (hself : h.SelfHeld s)
    (hf : h.Formed) (hs : h.scope? handle = some s) {after : Handles}
    (hc : Cascade (h.emptied s) after) :
    ∀ scope ∈ (after.drop handle).store.scopes, scope.id ≠ s := by
  obtain ⟨hsub, hhandles, hheld⟩ := hc.subset
  have hafter : after.Formed := (hf.clear s).cascade hc
  obtain ⟨hdrop, hsettled⟩ := hafter.drop handle
  obtain ⟨hsub', hhandles', hheld'⟩ := hdrop.subset
  -- Every scope that is left was there before, less its bindings if it is the one that is empty.
  have hold : ∀ c ∈ (after.drop handle).store.scopes, ∃ old ∈ h.store.scopes,
      c = if old.id = s then { old with bindings := [] } else old :=
    fun c hc => hf.ordered.mem_update.mp (hsub c (hsub' c hc))
  rintro scope hscope rfl
  refine Nat.ne_of_gt (hsettled scope hscope) (strongCount_eq_zero_iff.mpr ⟨?_, ?_, ?_⟩)
  · intro entry hentry heq
    rw [hhandles'] at hentry
    obtain ⟨hin, hne⟩ := List.mem_filter.mp hentry
    rw [hhandles] at hin
    have hsame := eq_of_count_eq_one hself.handle hin heq (mem_of_lookup hs) rfl
    exact of_decide_eq_true hne (congrArg Prod.fst hsame)
  · intro c hc hp
    obtain ⟨old, hmem, rfl⟩ := hold c hc
    refine hself.children old hmem ?_
    split at hp <;> exact hp
  · intro f hmem hid
    rcases mem_references.mp hmem with hin | ⟨c, hc, ⟨name, v⟩, hentry, rfl⟩
    · rw [heldValues, hheld', hheld] at hin
      exact hself.held f hin hid
    · obtain ⟨old, hmem, rfl⟩ := hold c hc
      split at hentry
      · cases hentry
      · next hne => exact hne (hself.bound old hmem name f hentry hid)

/-- **A scope that only its own functions hold is released exactly if none of them is bound under
two names**, whatever the host has done before, whatever the names, and however many functions
there are. When it is released its bindings are dropped, and it is gone as soon as
its handle is. When it is not, nothing changes, and the scope stays with all its bindings even after
its handle has gone. -/
theorem own_functions_released (operations : List Operation) (handle : String) (s : ScopeId)
    (hs : (performAll operations).scope? handle = some s)
    (hself : (performAll operations).SelfHeld s) :
    let h := performAll operations
    ((h.release s).1 = true ↔ ¬ h.Aliased s) ∧
      ((h.release s).1 = true → (h.release s).2.store.bindings s = [] ∧
        ∀ scope ∈ ((h.release s).2.drop handle).store.scopes, scope.id ≠ s) ∧
      ((h.release s).1 = false → (h.release s).2 = h ∧
        ∃ scope ∈ h.store.scopes, scope.id = s ∧ scope ∈ (h.drop handle).store.scopes) := by
  intro h
  have hk : h.Kempt := kempt_performAll operations
  obtain ⟨scope, hscope, rfl⟩ := hk.formed.exists_of_scope? hs
  have hiff := hself.release_eq_true_iff hk.formed (namesOnce_performAll operations) hscope
  refine ⟨hiff, ?_⟩
  rcases release_cases hk.formed hscope with ⟨hyes, hcount, hafter⟩ | ⟨hno, hafter⟩
  · have hcascade := (hk.formed.clear scope.id).tidy.1
    rw [hyes, hafter]
    refine ⟨fun _ => ⟨?_, hself.not_mem_drop hk.formed hs hcascade⟩, nofun⟩
    exact (hk.formed.vacated hscope hs hcount hcascade).bindings
  · rw [hno, hafter, hk.formed.tidy_eq_self hk.settled]
    refine ⟨nofun, fun _ => ⟨rfl, scope, hscope, rfl, ?_⟩⟩
    -- The function that has two names keeps the scope, and is kept by it.
    have haliased : h.Aliased scope.id := by
      by_contra hnot
      rw [hiff.mpr hnot] at hno
      cases hno
    obtain ⟨f, n, -, -, hid, hentry, -⟩ := haliased
    rw [Store.bindings, hk.formed.ordered.scope?_eq_some_iff.mpr ⟨hscope, rfl⟩] at hentry
    exact (hk.formed.drop handle).1.mem_of_functionsOf hscope
      (Scope.mem_functionsOf.mpr ⟨⟨n, hentry⟩, hid⟩)

/-- Two functions, one of them rebound, beside another value. -/
def recursivePair : List Operation :=
  [.global "outer", .child "outer" "inner", .declare "inner" "even", .declare "inner" "odd",
    .define "inner" "n" (.literal (.bool true)), .declare "inner" "odd"]

theorem own_functions_released_recursivePair :
    let h := performAll recursivePair
    h.SelfHeld 1 ∧ (h.release 1).1 = true ∧ (h.release 1).2.store.bindings 1 = [] := by
  intro h
  have hs : h.scope? "inner" = some 1 := by decide +kernel
  have hself : h.SelfHeld 1 := by decide +kernel
  have hyes : (h.release 1).1 = true := by decide +kernel
  obtain ⟨-, hreleased, -⟩ := own_functions_released recursivePair "inner" 1 hs hself
  exact ⟨hself, hyes, (hreleased hyes).1⟩

/-- A function with a second name. -/
def secondName : List Operation :=
  [.global "outer", .child "outer" "inner", .declare "inner" "f", .hold "inner" "f" "held",
    .define "inner" "g" (.held "held"), .dropHeld "held"]

/-- **A second name keeps a scope that only its own function holds.** The release is refused, and
the scope stays after its handle has gone. -/
theorem second_name_keeps_scope :
    let h := performAll secondName
    h.scope? "inner" = some 1 ∧ h.SelfHeld 1 ∧ (h.release 1).1 = false ∧
      ((h.release 1).2.store.bindings 1).map (·.1) = ["f", "g"] ∧
      ((h.drop "inner").store.bindings 1).map (·.1) = ["f", "g"] := by
  decide +kernel

end Handles

end Scripting
