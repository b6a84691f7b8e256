/-
What a host can do with scopes, and what a release leaves to everyone else.

A host makes scopes, passes handles on and gives them up, binds names and assigns to them, declares
functions, holds the values of names and gives them up again, and asks for a scope
to be released. Whatever it does, in whatever order, all its references lead somewhere and
nothing is in its store that nothing refers to.

So the counts that a release reads are those of the references that there are. If they say that
only the handle that asks and functions known nowhere else refer to a scope, no way from another
handle or from a held function leads into that scope. Emptying it takes no binding away from
them; and neither does the cascade that follows, since it removes only what nobody can come by.
-/
import Scripting.Proofs.ReferenceCounts

set_option autoImplicit false

namespace Scripting

namespace Handles

/-! ## Operations -/

/-- A value that a host binds a name to: one that it makes, one that it holds, or a function
declared in a scope of its own. -/
inductive Supply where
  | literal (l : Literal)
  | builtin (b : Builtin)
  | held (key : String)
  | function (name : String)

/-- What a host asks for. Scopes are named by handles. -/
inductive Operation where
  | global (handle : String)
  | child (of handle : String)
  | share (of handle : String)
  | drop (handle : String)
  | define (on name : String) (value : Supply)
  | assign (on name : String) (value : Supply)
  | declare (on name : String)
  | hold (on name key : String)
  | dropHeld (key : String)
  | release (on : String)

/-- The value that is meant; a function is made for the purpose. -/
def supply (h : Handles) : Supply → Value × Handles
  | .literal l => (.ofLiteral l, h)
  | .builtin b => (.builtin b, h)
  | .held key => ((h.held? key).getD .nil, h)
  | .function name =>
    let (s, store) := h.store.newScope none
    let (f, store) := store.newFunction s name [] []
    (.function f, { h with store := store })

/-- Do what is asked on the scope of a handle; without one, nothing happens. -/
def withScope (h : Handles) (handle : String) (act : ScopeId → Handles) : Handles :=
  match h.scope? handle with
  | some s => act s
  | none => h

def perform (h : Handles) : Operation → Handles
  | .global handle => h.newScope none handle
  | .child of handle => h.withScope of fun s => h.newScope (some s) handle
  | .share of handle => h.withScope of fun s => h.share s handle
  | .drop handle => h.withScope handle fun _ => h.drop handle
  | .define on name value =>
    h.withScope on fun s => (h.supply value).2.define s name (h.supply value).1
  | .assign on name value =>
    h.withScope on fun s => ((h.supply value).2.assign s name (h.supply value).1).2
  | .declare on name => h.withScope on fun s => h.declare s name
  | .hold on name key => h.withScope on fun s => (h.hold s name key).2
  | .dropHeld key => (h.dropHeld key).2
  | .release on => h.withScope on fun s => (h.release s).2

/-- The host after a number of operations, one after the other. -/
def performAll (operations : List Operation) : Handles := operations.foldl perform empty

/-! ## What single changes keep -/

/-- A value that may get into the store, or be held: a function has a scope and a number of its
own. -/
def Admits (h : Handles) (v : Value) : Prop :=
  ∀ f, v = .function f →
    (∃ scope ∈ h.store.scopes, scope.id = f.scope ∧ scope.declares = true) ∧
      f.id < h.store.nextFunction ∧ ∀ g ∈ h.references, g.id = f.id → g = f

variable {h h' : Handles} {v : Value}

theorem mem_of_lookup {α : Type} {key : String} {x : α} {entries : List (String × α)}
    (hx : entries.lookup key = some x) : (key, x) ∈ entries := by
  obtain ⟨before, after, rfl, -⟩ := List.lookup_eq_some_iff.mp hx
  exact List.mem_append_right _ List.mem_cons_self

theorem admits_of_ne_function (hv : ∀ f, v ≠ .function f) : h.Admits v :=
  fun f hf => absurd hf (hv f)

namespace Formed

theorem admits_of_mem (hf : h.Formed) (hv : ∀ f, v = .function f → f ∈ h.references) :
    h.Admits v := by
  intro f hfun
  have hmem := hv f hfun
  exact ⟨hf.declared f hmem, hf.numbered f hmem, fun g hg hid => hf.identified g hg f hmem hid⟩

theorem admits_of_get? (hf : h.Formed) {s : ScopeId} {name : String}
    (hget : h.store.get? s name = some v) : h.Admits v := by
  refine hf.admits_of_mem fun f hfun => mem_references.mpr (.inr ?_)
  rw [← hfun]
  exact Store.binds_of_get? hget

theorem admits_held (hf : h.Formed) (key : String) : h.Admits ((h.held? key).getD .nil) := by
  refine hf.admits_of_mem fun f hfun => mem_references.mpr (.inl ?_)
  cases hkey : h.held? key with
  | none =>
    rw [hkey] at hfun
    cases hfun
  | some u =>
    rw [hkey] at hfun
    rw [← (hfun : u = .function f)]
    exact List.mem_map_of_mem (mem_of_lookup hkey)

/-- The references stay in order when scopes are kept, no parent is lost, and the only new
reference is one to a value that may be had. -/
theorem of_change (hf : h.Formed) (hord : h'.store.Ordered)
    (hhandles : ∀ entry ∈ h'.scopes, ∃ scope ∈ h.store.scopes, scope.id = entry.2)
    (hkeep : ∀ scope ∈ h.store.scopes, ∃ scope' ∈ h'.store.scopes, scope'.id = scope.id ∧
      (scope.declares = true → scope'.declares = true))
    (hparents : ∀ scope' ∈ h'.store.scopes, ∀ p, scope'.parent = some p →
      ∃ scope ∈ h.store.scopes, scope.id = p)
    (hnext : h.store.nextFunction ≤ h'.store.nextFunction) (hv : h.Admits v)
    (href : ∀ f ∈ h'.references, f ∈ h.references ∨ v = .function f) : h'.Formed where
  ordered := hord
  handles entry hentry := by
    obtain ⟨scope, hs, hid⟩ := hhandles entry hentry
    obtain ⟨scope', hs', hid', -⟩ := hkeep scope hs
    exact ⟨scope', hs', hid'.trans hid⟩
  parents scope' hs' p hp := by
    obtain ⟨scope, hs, hid⟩ := hparents scope' hs' p hp
    obtain ⟨outer, houter, hid', -⟩ := hkeep scope hs
    exact ⟨outer, houter, hid'.trans hid⟩
  declared f hmem := by
    have hold : ∃ scope ∈ h.store.scopes, scope.id = f.scope ∧ scope.declares = true := by
      rcases href f hmem with hold | hnew
      · exact hf.declared f hold
      · exact (hv f hnew).1
    obtain ⟨scope, hs, hid, hdecl⟩ := hold
    obtain ⟨scope', hs', hid', hdecl'⟩ := hkeep scope hs
    exact ⟨scope', hs', hid'.trans hid, hdecl' hdecl⟩
  numbered f hmem := by
    refine Nat.lt_of_lt_of_le ?_ hnext
    rcases href f hmem with hold | hnew
    · exact hf.numbered f hold
    · exact (hv f hnew).2.1
  identified f hmem g hmem' hid := by
    -- The new function has a number that no old one has.
    rcases href f hmem with hold | hnew <;> rcases href g hmem' with hold' | hnew'
    · exact hf.identified f hold g hold' hid
    · exact (hv g hnew').2.2 f hold hid
    · exact ((hv f hnew).2.2 g hold' hid.symm).symm
    · rw [hnew] at hnew'
      cases hnew'
      rfl

/-- Handles come and go, as long as they are on scopes that are there. -/
theorem withHandles (hf : h.Formed) {scopes : List (String × ScopeId)}
    (hin : ∀ entry ∈ scopes, entry ∈ h.scopes ∨ ∃ scope ∈ h.store.scopes, scope.id = entry.2) :
    Formed { h with scopes := scopes } :=
  { hf with
    handles := fun entry hentry => (hin entry hentry).elim (hf.handles entry) id }

/-- Values are held and given up. -/
theorem withHeld (hf : h.Formed) (hv : h.Admits v) {held : List (String × Value)}
    (hin : ∀ entry ∈ held, entry ∈ h.held ∨ entry.2 = v) : Formed { h with held := held } := by
  refine hf.of_change hf.ordered hf.handles
    (fun scope hs => ⟨scope, hs, rfl, id⟩) hf.parents (Nat.le_refl _) hv fun f hmem => ?_
  rcases mem_references.mp hmem with hheld | hbound
  · obtain ⟨entry, hentry, heq⟩ := List.mem_map.mp hheld
    rcases hin entry hentry with hold | hnew
    · refine .inl (mem_references.mpr (.inl ?_))
      rw [← heq]
      exact List.mem_map_of_mem hold
    · exact .inr (hnew.symm.trans heq)
  · exact .inl (mem_references.mpr (.inr hbound))

/-- A scope gets another value, or loses some, or is marked. -/
theorem update (hf : h.Formed) (hv : h.Admits v) (s : ScopeId) {f : Scope → Scope}
    (hid : ∀ scope, (f scope).id = scope.id)
    (hp : ∀ scope, (f scope).parent = scope.parent)
    (hd : ∀ scope, scope.declares = true → (f scope).declares = true)
    (hb : ∀ scope, ∀ entry ∈ (f scope).bindings, entry ∈ scope.bindings ∨ entry.2 = v) :
    Formed { h with store := h.store.update s f } := by
  refine hf.of_change (hf.ordered.update s hid hp) hf.handles ?_ ?_ (Nat.le_refl _) hv ?_
  · intro scope hs
    refine ⟨_, hf.ordered.mem_update.mpr ⟨scope, hs, rfl⟩, ?_⟩
    split
    · exact ⟨hid scope, hd scope⟩
    · exact ⟨rfl, id⟩
  · intro scope' hs' p hpar
    obtain ⟨scope, hs, rfl⟩ := hf.ordered.mem_update.mp hs'
    refine hf.parents scope hs p ?_
    split at hpar
    · rwa [← hp scope]
    · exact hpar
  · intro f hmem
    rcases mem_references.mp hmem with hheld | hbound
    · exact .inl (mem_references.mpr (.inl hheld))
    · have hold : h.store.Binds (.function f) ∨ Value.function f ∈ [v] :=
        hbound.of_update fun scope entry hentry => (hb scope entry hentry).imp_right
          fun heq => List.mem_singleton.mpr heq
      rcases hold with hold | hnew
      · exact .inl (mem_references.mpr (.inr hold))
      · exact .inr (List.mem_singleton.mp hnew).symm

theorem define (hf : h.Formed) (hv : h.Admits v) (s : ScopeId) (name : String) :
    Formed { h with store := h.store.define s name v } :=
  hf.update hv s (fun _ => rfl) (fun _ => rfl) (fun _ => id)
    fun _ _ hentry => Bindings.mem_set hentry

theorem clear (hf : h.Formed) (s : ScopeId) : Formed { h with store := h.store.clear s } :=
  hf.update (v := .nil) (admits_of_ne_function fun _ => nofun) s (fun _ => rfl) (fun _ => rfl)
    (fun _ => id) fun _ _ hentry => absurd hentry List.not_mem_nil

/-- A new scope, in one that is there. -/
theorem newScope (hf : h.Formed) (parent : Option ScopeId)
    (hp : ∀ p, parent = some p → ∃ scope ∈ h.store.scopes, scope.id = p) :
    Formed { h with store := (h.store.newScope parent).2 } := by
  refine hf.of_change (v := .nil) (hf.ordered.newScope fun p hpar => ?_) hf.handles
    (fun scope hs => ⟨scope, List.mem_cons_of_mem _ hs, rfl, id⟩) ?_ (Nat.le_refl _)
    (admits_of_ne_function fun _ => nofun) fun f hmem => .inl ?_
  · obtain ⟨scope, hs, rfl⟩ := hp p hpar
    exact hf.ordered.numbered scope hs
  · intro scope hs p hpar
    rcases List.mem_cons.mp hs with rfl | hold
    · exact hp p hpar
    · exact hf.parents scope hold p hpar
  · rw [mem_references] at hmem ⊢
    refine hmem.imp_right ?_
    rintro ⟨scope, hs, entry, hentry, heq⟩
    rcases List.mem_cons.mp hs with rfl | hold
    · cases hentry
    · exact ⟨scope, hold, entry, hentry, heq⟩

/-- A function is made in a scope that is there; then it may be bound. Its number is a new one. -/
theorem newFunction (hf : h.Formed) {scope : Scope} (hs : scope ∈ h.store.scopes) (name : String)
    (parameters : List String) (body : List Stmt) :
    let made := h.store.newFunction scope.id name parameters body
    Formed { h with store := made.2 } ∧ Admits { h with store := made.2 } (.function made.1) := by
  intro made
  have hmarked := hf.update (v := .nil) (admits_of_ne_function fun _ => nofun) scope.id
    (f := fun scope => { scope with declares := true }) (fun _ => rfl) (fun _ => rfl)
    (fun _ _ => rfl) fun _ _ hentry => .inl hentry
  have href : ∀ f ∈ ({ h with store := made.2 } : Handles).references, f ∈ h.references := by
    intro f hmem
    rw [mem_references] at hmem ⊢
    exact hmem.imp_right fun hb => hb.of_newFunction name parameters body
  have hordered := hf.ordered.newFunction scope.id name parameters body
  refine ⟨{ hmarked with numbered := ?_, ordered := hordered }, ?_⟩
  · exact fun f hmem => Nat.lt_succ_of_lt (hf.numbered f (href f hmem))
  · intro f hfun
    cases hfun
    refine ⟨⟨{ scope with declares := true }, ?_, rfl, rfl⟩, Nat.lt_succ_self _, ?_⟩
    · refine hf.ordered.mem_update.mpr ⟨scope, hs, ?_⟩
      rw [if_pos rfl]
    · intro g hg hid
      exact absurd hid (Nat.ne_of_lt (hf.numbered g (href g hg)))

/-- A value that is supplied may be bound. -/
theorem supply (hf : h.Formed) (value : Supply) :
    (h.supply value).2.Formed ∧ (h.supply value).2.Admits (h.supply value).1 := by
  cases value with
  | literal l =>
    refine ⟨hf, admits_of_ne_function fun f => ?_⟩
    cases l <;> exact nofun
  | builtin b => exact ⟨hf, admits_of_ne_function fun _ => nofun⟩
  | held key => exact ⟨hf, hf.admits_held key⟩
  | function name =>
    have hnew := hf.newScope none fun p hp => by cases hp
    have hin : (⟨h.store.nextScope, none, [], false⟩ : Scope) ∈ (h.store.newScope none).2.scopes :=
      List.mem_cons_self
    exact hnew.newFunction hin name [] []

end Formed

/-! ## What operations keep -/

/-- What is shown for the scope of a handle, and for a host that has no such handle, holds of
what is done. -/
theorem withScope_of {P : Handles → Prop} {handle : String} {act : ScopeId → Handles} (hnone : P h)
    (hsome : ∀ s, h.scope? handle = some s → P (act s)) : P (h.withScope handle act) := by
  rw [withScope]
  split
  · next s hs => exact hsome s hs
  · exact hnone

/-- The handle of a scope is on a scope of the store. -/
theorem Formed.exists_of_scope? (hf : h.Formed) {handle : String} {s : ScopeId}
    (hs : h.scope? handle = some s) : ∃ scope ∈ h.store.scopes, scope.id = s :=
  hf.handles (handle, s) (mem_of_lookup hs)

theorem mem_put {α : Type} {key : String} {x : α} {entries : List (String × α)} {entry : String × α}
    (hin : entry ∈ put key x entries) : entry ∈ entries ∨ entry.2 = x := by
  rcases List.mem_cons.mp hin with rfl | hold
  · exact .inr rfl
  · exact .inl (List.mem_of_mem_filter hold)

/-- What a host refers to is there, and nothing else is. -/
structure Kempt (h : Handles) : Prop where
  formed : h.Formed
  settled : h.Settled

theorem Formed.kempt_tidy (hf : h.Formed) : h.tidy.Kempt :=
  ⟨hf.tidy.2.1, hf.tidy.2.2⟩

theorem Formed.share (hf : h.Formed) {s : ScopeId} (hs : ∃ scope ∈ h.store.scopes, scope.id = s)
    (handle : String) : (h.share s handle).Kempt := by
  refine Formed.kempt_tidy (hf.withHandles fun entry hentry => ?_)
  exact (mem_put hentry).imp_right fun heq => by rwa [heq]

theorem Formed.assign (hf : h.Formed) (hv : h.Admits v) (s : ScopeId) (name : String) :
    (h.assign s name v).2.Kempt := by
  rw [Handles.assign]
  split
  · next store hstore =>
    rw [hf.ordered.assign?_eq] at hstore
    obtain ⟨binder, -, rfl⟩ := Option.map_eq_some_iff.mp hstore
    exact (hf.define hv binder.id name).kempt_tidy
  · exact hf.kempt_tidy

/-- A release empties the scope, or does nothing; what is dead is removed either way. -/
theorem release_cases {scope : Scope} (hf : h.Formed) (hs : scope ∈ h.store.scopes) :
    ((h.release scope.id).1 = true ∧
        h.store.isUnreachable (h.count scope.id) h.heldFunctions scope = true ∧
        (h.release scope.id).2 = { h with store := h.store.clear scope.id }.tidy) ∨
      ((h.release scope.id).1 = false ∧ (h.release scope.id).2 = h.tidy) := by
  rw [release, Store.release, hf.ordered.scope?_eq_some_iff.mpr ⟨hs, rfl⟩]
  dsimp only
  split
  · next hcount => exact .inl ⟨rfl, hcount, rfl⟩
  · exact .inr ⟨rfl, rfl⟩

/-- **One operation keeps a host kempt.** -/
theorem Kempt.perform (hk : h.Kempt) (operation : Operation) : (h.perform operation).Kempt := by
  have hf := hk.formed
  cases operation with
  | global handle =>
    have hnew := hf.newScope none fun p hp => by cases hp
    exact hnew.share ⟨_, List.mem_cons_self, rfl⟩ handle
  | child of handle =>
    refine withScope_of hk fun s hs => ?_
    have hnew := hf.newScope (some s) fun p hp => by
      cases hp
      exact hf.exists_of_scope? hs
    exact hnew.share ⟨_, List.mem_cons_self, rfl⟩ handle
  | share of handle => exact withScope_of hk fun s hs => hf.share (hf.exists_of_scope? hs) handle
  | drop handle =>
    refine withScope_of hk fun s _ => Formed.kempt_tidy (hf.withHandles fun entry hentry => ?_)
    exact .inl (List.mem_of_mem_filter hentry)
  | define on name value =>
    obtain ⟨hf', hv⟩ := hf.supply value
    exact withScope_of hk fun s _ => (hf'.define hv s name).kempt_tidy
  | assign on name value =>
    obtain ⟨hf', hv⟩ := hf.supply value
    exact withScope_of hk fun s _ => hf'.assign hv s name
  | declare on name =>
    refine withScope_of hk fun s hs => ?_
    obtain ⟨scope, hmem, rfl⟩ := hf.exists_of_scope? hs
    obtain ⟨hf', hv⟩ := hf.newFunction hmem name [] []
    exact (hf'.define hv scope.id name).kempt_tidy
  | hold on name key =>
    refine withScope_of hk fun s _ => ?_
    rw [Handles.hold]
    split
    · next v hget =>
      exact Formed.kempt_tidy (hf.withHeld (hf.admits_of_get? hget) fun entry hin => mem_put hin)
    · exact hk
  | dropHeld key =>
    refine Formed.kempt_tidy (hf.withHeld (v := .nil) (admits_of_ne_function fun _ => nofun) ?_)
    exact fun entry hentry => .inl (List.mem_of_mem_filter hentry)
  | release on =>
    refine withScope_of hk fun s hs => ?_
    obtain ⟨scope, hmem, rfl⟩ := hf.exists_of_scope? hs
    rcases release_cases hf hmem with ⟨-, -, hafter⟩ | ⟨-, hafter⟩
    · rw [hafter]
      exact (hf.clear scope.id).kempt_tidy
    · rw [hafter]
      exact hf.kempt_tidy

theorem kempt_empty : empty.Kempt where
  formed := ⟨Store.ordered_empty, nofun, nofun, nofun, nofun, nofun⟩
  settled := nofun

/-- What every operation keeps holds at all times. -/
theorem performAll_keeps {P : Handles → Prop} (hstep : ∀ h operation, P h → P (h.perform operation))
    (hempty : P empty) (operations : List Operation) : P (performAll operations) := by
  have key : ∀ (operations : List Operation) (h : Handles), P h →
      P (operations.foldl Handles.perform h) := by
    intro operations
    induction operations with
    | nil => exact fun h hh => hh
    | cons operation rest ih => exact fun h hh => ih _ (hstep h operation hh)
  exact key operations empty hempty

/-- **A host is kempt at all times.** -/
theorem kempt_performAll (operations : List Operation) : (performAll operations).Kempt :=
  performAll_keeps (fun _ operation hk => hk.perform operation) kempt_empty operations

/-! ## What a release leaves to the others -/

/-- The scopes of the other handles. -/
def others (h : Handles) (handle : String) (t : ScopeId) : Prop :=
  ∃ other, other ≠ handle ∧ h.scope? other = some t

/-- The host when the bindings of scope `s` have just been dropped. -/
def emptied (h : Handles) (s : ScopeId) : Handles := { h with store := h.store.clear s }

/-- What is expected after the release of the scope `s` of a handle: the scope is empty and lies
where it lay, and for all others, and for the functions that they can come by, every name means what
it meant. -/
structure Vacated (h : Handles) (handle : String) (s : ScopeId) (after : Handles) : Prop where
  bindings : after.store.bindings s = []
  chain : ∃ scope outer, h.store.chain s = scope :: outer ∧
    after.store.chain s = { scope with bindings := [] } :: outer
  same : ∀ t, h.store.Reaches (h.others handle) h.heldValues t →
    ∀ name, after.store.get? t name = h.store.get? t name

theorem hasHandles_others (handle : String) : h.HasHandles (h.others handle) := by
  rintro t ⟨other, -, hs⟩
  exact ⟨(other, t), mem_of_lookup hs, rfl⟩

/-- Two handles on a scope are counted as two. -/
theorem eq_of_count_eq_one {s : ScopeId} (hone : h.count s = 1) {entry entry' : String × ScopeId}
    (hin : entry ∈ h.scopes) (hs : entry.2 = s) (hin' : entry' ∈ h.scopes) (hs' : entry'.2 = s) :
    entry = entry' := by
  rw [count, List.countP_eq_length_filter, List.length_eq_one_iff] at hone
  obtain ⟨only, honly⟩ := hone
  have hall : ∀ e ∈ h.scopes, e.2 = s → e = only := by
    intro e he hes
    rw [← List.mem_singleton, ← honly]
    exact List.mem_filter.mpr ⟨he, decide_eq_true hes⟩
  exact (hall entry hin hs).trans (hall entry' hin' hs').symm

/-- With one handle on a scope, the others are on other scopes. -/
theorem ne_of_count_eq_one {handle : String} {s : ScopeId} (hs : h.scope? handle = some s)
    (hone : h.count s = 1) {t : ScopeId} (ht : h.others handle t) : t ≠ s := by
  rintro rfl
  obtain ⟨other, hne, ho⟩ := ht
  have heq := eq_of_count_eq_one hone (mem_of_lookup ho) rfl (mem_of_lookup hs) rfl
  exact hne (congrArg Prod.fst heq)

section Release

variable {handle : String} {scope : Scope}

/-- The scopes that do not depend on the handle: those of the other handles, and the one around the
scope of the handle. -/
def apart (h : Handles) (handle : String) (scope : Scope) (t : ScopeId) : Prop :=
  h.others handle t ∨ scope.parent = some t

/-- **Emptying a scope whose counts agree touches nothing that anyone else can come by.** No way
leads there from another handle, from a held value or from the scope around it. -/
theorem Formed.mem_emptied (hf : h.Formed) (hscope : scope ∈ h.store.scopes)
    (hs : h.scope? handle = some scope.id)
    (hcount : h.store.isUnreachable (h.count scope.id) h.heldFunctions scope = true) {c : Scope}
    (hc : h.store.Kept (h.apart handle scope) h.heldValues c) :
    c ∈ (h.emptied scope.id).store.scopes := by
  have hpos : 1 ≤ h.count scope.id :=
    List.countP_pos_iff.mpr ⟨_, mem_of_lookup hs, decide_eq_true rfl⟩
  -- The counts leave room for no second handle, so the other handles are on other scopes.
  have hone := (hf.ordered.alone_of_isUnreachable hscope hpos hcount).1
  rw [hone] at hcount
  have hroots : ∀ u, h.apart handle scope u → u ≠ scope.id := by
    rintro u (hother | hparent)
    · exact ne_of_count_eq_one hs hone hother
    · exact Nat.ne_of_lt (hf.ordered.inOlder scope hscope u hparent)
  have hne := hc.2.ne_of_isUnreachable hf.ordered (fun d hd => hd.1) hf.announced hroots
    hscope hscope hcount
  refine hf.ordered.mem_update.mpr ⟨c, hc.1, ?_⟩
  rw [if_neg hne]

theorem Formed.chain_emptied (hf : h.Formed) (hscope : scope ∈ h.store.scopes)
    (hs : h.scope? handle = some scope.id)
    (hcount : h.store.isUnreachable (h.count scope.id) h.heldFunctions scope = true) {t : ScopeId}
    (ht : h.store.Reaches (h.apart handle scope) h.heldValues t) :
    (h.emptied scope.id).store.chain t = h.store.chain t := by
  have hroots : ∀ u, h.apart handle scope u → ∃ c ∈ h.store.scopes, c.id = u := by
    rintro u (⟨other, -, ho⟩ | hparent)
    · exact hf.exists_of_scope? ho
    · exact hf.parents scope hscope u hparent
  have hagree := hf.agree hroots (hf.ordered.clear scope.id) rfl rfl
    fun c hc => hf.mem_emptied hscope hs hcount hc
  exact (hagree.chain t ht).1.symm

/-- **Neither the release nor what dies of it takes anything from anyone else**, at any stage of the
cascade that follows. -/
theorem Formed.vacated (hf : h.Formed) (hscope : scope ∈ h.store.scopes)
    (hs : h.scope? handle = some scope.id)
    (hcount : h.store.isUnreachable (h.count scope.id) h.heldFunctions scope = true)
    {after : Handles} (hc : Cascade (h.emptied scope.id) after) :
    h.Vacated handle scope.id after := by
  have hf' : (h.emptied scope.id).Formed := hf.clear scope.id
  let empty : Scope := { scope with bindings := [] }
  have hempty : empty ∈ (h.emptied scope.id).store.scopes := by
    refine hf.ordered.mem_update.mpr ⟨scope, hscope, ?_⟩
    rw [if_pos rfl]
  -- The handle that asked is still there, and keeps the empty scope.
  have hown : (h.emptied scope.id).HasHandles (· = scope.id) := by
    rintro t rfl
    exact ⟨_, mem_of_lookup hs, rfl⟩
  have hstays : empty ∈ after.store.scopes := hc.keeps hown ⟨hempty, .root rfl⟩
  refine ⟨?_, ⟨scope, h.store.chainOf scope.parent, hf.ordered.chain_eq_cons hscope, ?_⟩, ?_⟩
  · rw [Store.bindings, (hf'.cascade hc).ordered.scope?_eq_some_iff.mpr ⟨hstays, rfl⟩]
  · have houter : (h.emptied scope.id).store.chainOf scope.parent
        = h.store.chainOf scope.parent := by
      cases hp : scope.parent with
      | none => rfl
      | some p => exact hf.chain_emptied hscope hs hcount (.root (.inr hp))
    have hchain := hf'.ordered.chain_eq_cons hempty
    rw [hf'.chain_cascade hown hc (.root rfl), ← houter]
    exact hchain
  · intro t ht name
    have hapart : ∀ u, h.store.Reaches (h.others handle) h.heldValues u →
        h.store.Reaches (h.apart handle scope) h.heldValues u := fun u hu => hu.mono fun _ => .inl
    have ht' : (h.emptied scope.id).store.Reaches (h.others handle) h.heldValues t :=
      ht.of_kept fun c hk => hf.mem_emptied hscope hs hcount ⟨hk.1, hapart _ hk.2⟩
    rw [Store.get?_eq_findSome?, Store.get?_eq_findSome?,
      hf'.chain_cascade (hasHandles_others handle) hc ht',
      hf.chain_emptied hscope hs hcount (hapart t ht)]

end Release

/-- **A release takes no binding away from anyone else**, whatever the host has done before. It
is granted exactly when the references say that nobody else knows the scope. Then the bindings
are dropped, and one after the other goes what nothing refers to any more; at every
stage of that, and when it is over, the scope is empty, its chain is intact, and all names mean the
same for everyone else. A release that is not granted changes nothing at all. -/
theorem release_takes_nothing (operations : List Operation) (handle : String) (s : ScopeId)
    (hs : (performAll operations).scope? handle = some s) :
    let h := performAll operations
    ((h.release s).1 = true ↔ h.strongCount s = 1 + h.boundOnlyHere s) ∧
      ((h.release s).1 = true →
        Cascade (h.emptied s) (h.release s).2 ∧ (h.release s).2.Settled ∧
          ∀ after, Cascade (h.emptied s) after → h.Vacated handle s after) ∧
      ((h.release s).1 = false → (h.release s).2 = h) := by
  intro h
  have hk : h.Kempt := kempt_performAll operations
  obtain ⟨scope, hscope, rfl⟩ := hk.formed.exists_of_scope? hs
  refine ⟨hk.formed.release_eq_true_iff hscope, ?_⟩
  rcases release_cases hk.formed hscope with ⟨hyes, hcount, hafter⟩ | ⟨hno, hafter⟩
  · obtain ⟨hcascade, -, hsettled⟩ := (hk.formed.clear scope.id).tidy
    rw [hyes, hafter]
    refine ⟨fun _ => ⟨hcascade, hsettled, fun after hc => ?_⟩, nofun⟩
    exact hk.formed.vacated hscope hs hcount hc
  · rw [hno, hafter, hk.formed.tidy_eq_self hk.settled]
    exact ⟨fun htrue => absurd htrue Bool.false_ne_true, fun _ => rfl⟩

/-- A scope that only its handle and a function bound in it refer to. -/
def secludedScope : List Operation :=
  [.global "outer", .child "outer" "inner", .declare "inner" "f",
    .define "outer" "x" (.literal (.bool true))]

theorem release_takes_nothing_secluded :
    let h := performAll secludedScope
    (h.release 1).1 = true ∧ (h.release 1).2.store.bindings 1 = [] ∧
      ((h.release 1).2.store.get? 0 "x").map (·.text) = some "true" := by
  intro h
  have hs : h.scope? "inner" = some 1 := by decide +kernel
  have hyes : (h.release 1).1 = true := by decide +kernel
  obtain ⟨-, hgranted, -⟩ := release_takes_nothing secludedScope "inner" 1 hs
  obtain ⟨hcascade, -, hall⟩ := hgranted hyes
  have hv := hall _ hcascade
  have ho : h.scope? "outer" = some 0 := by decide +kernel
  refine ⟨hyes, hv.bindings, ?_⟩
  rw [hv.same 0 (.root ⟨"outer", by decide, ho⟩) "x"]
  decide +kernel

end Handles

end Scripting
