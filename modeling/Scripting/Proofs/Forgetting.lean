/-
Forgetting a name.

A store may be taken without one name of one scope. What a machine does to its store can be done
before the name is taken out or afterwards, with the same outcome, as long as it does not concern
that very name in that scope.

This is plain for looking names up and for binding them, but it fails for leaving a scope. What is
given up then is decided by counting references, and a binding that holds a function is a reference
to the scope that the function was declared in. Without it more may be given up: that scope, all
that only that scope referred to, and, where such a dead scope has been the last that referred to
the scope being left, the bindings of the latter.

So two stores are compared, one that has the name and one that may lack more than the name. The
first one *outlasts* the second: each scope that is left in the second is in the first, with the
same bindings but for the name. Leaving a scope in both keeps it that way. What survives in the
second store keeps itself alive there, and it does so in the first, too. The counts are taken for
one scope only. If they agree in the first store, then nobody else refers to the scope there; all
the less in the second one, where they agree as well. If they agree in the second store alone, then
the scope is gone from it altogether when it has been left.
-/
import Scripting.Proofs.Agreement

set_option autoImplicit false

namespace Scripting

/-- The bindings of all other names. -/
def Bindings.without (n : String) (b : Bindings) : Bindings := b.filter (·.1 ≠ n)

/-- The scope without a name, if it is the scope `g`. -/
def Scope.without (g : ScopeId) (n : String) (scope : Scope) : Scope :=
  if scope.id = g then { scope with bindings := scope.bindings.without n } else scope

/-- The references of a scope to functions that were declared in it. -/
def Scope.ownReferences (scope : Scope) : List Closure :=
  if scope.declares then scope.functionsOf scope.id else []

/-- The store without a name of the scope `g`. -/
def Store.without (g : ScopeId) (n : String) (store : Store) : Store :=
  { store with scopes := store.scopes.map (Scope.without g n) }

/-! ## Bindings -/

namespace Bindings

variable {n x y : String} {u : Value} (b : Bindings)

theorem without_cons_of_eq (h : y = n) : without n ((y, u) :: b) = b.without n :=
  List.filter_cons_of_neg (by simpa using h)

theorem without_cons_of_ne (h : y ≠ n) : without n ((y, u) :: b) = (y, u) :: b.without n :=
  List.filter_cons_of_pos (by simpa using h)

/-! ### The name itself -/

theorem get?_without_self : (b.without n).get? n = none := by
  induction b with
  | nil => rfl
  | cons entry rest ih =>
    by_cases hy : entry.1 = n
    · rw [without_cons_of_eq rest hy, ih]
    · rw [without_cons_of_ne rest hy, get?, if_neg hy, ih]

theorem without_set_self (v : Value) : (b.set n v).without n = b.without n := by
  induction b with
  | nil => exact without_cons_of_eq [] rfl
  | cons entry rest ih =>
    rw [set]
    split
    · next hy => rw [without_cons_of_eq rest hy, without_cons_of_eq rest hy]
    · next hy => rw [without_cons_of_ne _ hy, without_cons_of_ne rest hy, ih]

/-! ### Other names -/

variable (h : x ≠ n)

include h

theorem get?_without : (b.without n).get? x = b.get? x := by
  induction b with
  | nil => rfl
  | cons entry rest ih =>
    by_cases hy : entry.1 = n
    · have hyx : entry.1 ≠ x := fun hyx => h (hyx.symm.trans hy)
      rw [without_cons_of_eq rest hy, get?, if_neg hyx, ih]
    · rw [without_cons_of_ne rest hy, get?, get?, ih]

theorem set_without (v : Value) : (b.without n).set x v = (b.set x v).without n := by
  induction b with
  | nil => exact (without_cons_of_ne [] h).symm
  | cons entry rest ih =>
    by_cases hy : entry.1 = n
    · have hyx : entry.1 ≠ x := fun hyx => h (hyx.symm.trans hy)
      rw [without_cons_of_eq rest hy, set, if_neg hyx, without_cons_of_eq _ hy, ih]
    · rw [without_cons_of_ne rest hy, set, set]
      split
      · exact (without_cons_of_ne rest hy).symm
      · rw [without_cons_of_ne _ hy, ih]

end Bindings

/-! ## Scopes -/

namespace Scope

variable (g : ScopeId) (n : String) (scope : Scope)

@[simp] theorem id_without : (scope.without g n).id = scope.id := by
  unfold without
  split <;> rfl

@[simp] theorem parent_without : (scope.without g n).parent = scope.parent := by
  unfold without
  split <;> rfl

@[simp] theorem declares_without : (scope.without g n).declares = scope.declares := by
  unfold without
  split <;> rfl

variable {g n} {x : String}

/-- A change of the bindings that is not noticed without the name. -/
theorem without_bindings {f : Bindings → Bindings}
    (hf : scope.id = g → f (scope.bindings.without n) = (f scope.bindings).without n) :
    { scope.without g n with bindings := f (scope.without g n).bindings }
      = { scope with bindings := f scope.bindings }.without g n := by
  unfold without
  split
  · next hid => exact congrArg (fun b => { scope with bindings := b }) (hf hid)
  · rfl

/-- That a function has been declared in a scope has nothing to do with its names. -/
theorem without_declares :
    { scope.without g n with declares := true } = { scope with declares := true }.without g n := by
  unfold without
  dsimp only
  split <;> rfl

theorem get?_without (h : x ≠ n) :
    (scope.without g n).bindings.get? x = scope.bindings.get? x := by
  unfold without
  split
  · exact Bindings.get?_without _ h
  · rfl

/-- A scope of another number has nothing taken out. -/
theorem without_of_ne (h : scope.id ≠ g) : scope.without g n = scope := if_neg h

/-- What is bound without the name is bound with it. -/
theorem mem_bindings_of_without {scope : Scope} {entry : String × Value}
    (h : entry ∈ (scope.without g n).bindings) : entry ∈ scope.bindings := by
  unfold without at h
  split at h
  · exact List.mem_of_mem_filter h
  · exact h

theorem mem_functionsOf_of_without {scope : Scope} {s : ScopeId} {f : Closure}
    (h : f ∈ (scope.without g n).functionsOf s) : f ∈ scope.functionsOf s := by
  obtain ⟨⟨x, hx⟩, hs⟩ := mem_functionsOf.mp h
  exact mem_functionsOf.mpr ⟨⟨x, mem_bindings_of_without hx⟩, hs⟩

end Scope

/-! ## Stores -/

namespace Store

variable {g s : ScopeId} {n x : String} {v : Value} (store : Store)

theorem mem_without {store : Store} {scope : Scope} :
    scope ∈ (store.without g n).scopes ↔ ∃ old ∈ store.scopes, old.without g n = scope :=
  List.mem_map

/-! ### Reading and assigning -/

/-- A chain goes through the same scopes. -/
theorem chain_without (s : ScopeId) :
    (store.without g n).chain s = (store.chain s).map (Scope.without g n) := by
  unfold chain without
  dsimp only
  generalize store.scopes = scopes
  induction scopes generalizing s with
  | nil => rfl
  | cons scope older ih =>
    rw [List.map_cons, chainIn, chainIn, Scope.id_without, Scope.parent_without]
    split
    · cases scope.parent with
      | none => rfl
      | some p => exact congrArg (scope.without g n :: ·) (ih p)
    · exact ih s

theorem get?_without (h : x ≠ n) : (store.without g n).get? s x = store.get? s x := by
  rw [get?_eq_findSome?, get?_eq_findSome?, chain_without, List.findSome?_map]
  congr 1
  funext scope
  exact scope.get?_without h

/-- Another name is bound in the same place. -/
theorem binder?_without (h : x ≠ n) :
    (store.without g n).binder? s x = (store.binder? s x).map (Scope.without g n) := by
  rw [binder?, binder?, chain_without, List.find?_map]
  congr 2
  funext scope
  rw [Function.comp_apply, Bindings.binds, Bindings.binds, scope.get?_without h]

/-! ### Changing and making -/

variable (s) in
/-- A change of one scope, made without the name. -/
theorem update_without {f : Scope → Scope}
    (hf : ∀ scope, scope.id = s → f (scope.without g n) = (f scope).without g n) :
    (store.without g n).update s f = (store.update s f).without g n := by
  have hscopes : ∀ scopes : List Scope, updateIn f (scopes.map (Scope.without g n)) s
      = (updateIn f scopes s).map (Scope.without g n) := by
    intro scopes
    induction scopes with
    | nil => rfl
    | cons scope older ih =>
      rw [List.map_cons, updateIn, updateIn, Scope.id_without]
      split
      · next hid => rw [hf scope hid, List.map_cons]
      · rw [ih, List.map_cons]
  exact congrArg (fun scopes => { store with scopes := scopes }) (hscopes store.scopes)

/-- Another name is bound, or the name is bound in another scope. -/
theorem define_without (h : x ≠ n ∨ s ≠ g) (v : Value) :
    (store.without g n).define s x v = (store.define s x v).without g n := by
  apply update_without
  intro scope hid
  apply Scope.without_bindings
  intro hg
  exact Bindings.set_without _ (h.resolve_right fun hs => hs (hid.symm.trans hg)) v

/-- Whatever the name is bound to is taken out. -/
theorem without_define_self (v : Value) :
    (store.define g n v).without g n = store.without g n := by
  have hscopes : ∀ scopes : List Scope,
      (updateIn (fun scope => { scope with bindings := scope.bindings.set n v }) scopes g).map
          (Scope.without g n) = scopes.map (Scope.without g n) := by
    intro scopes
    induction scopes with
    | nil => rfl
    | cons scope older ih =>
      rw [updateIn]
      split
      · next hid =>
        rw [List.map_cons, List.map_cons, Scope.without, if_pos hid, Scope.without, if_pos hid]
        dsimp only
        rw [Bindings.without_set_self]
      · rw [List.map_cons, List.map_cons, ih]
  exact congrArg (fun scopes => { store with scopes := scopes }) (hscopes store.scopes)

theorem newScope_without (parent : Option ScopeId) :
    ((store.without g n).newScope parent).2 = (store.newScope parent).2.without g n := by
  -- There is nothing in a new scope that could be taken out.
  have hnew : (⟨store.nextScope, parent, [], false⟩ : Scope).without g n
      = ⟨store.nextScope, parent, [], false⟩ := by
    unfold Scope.without
    split <;> rfl
  unfold newScope without
  dsimp only
  rw [List.map_cons, hnew]

theorem newFunction_without (parameters : List String) (body : List Stmt) :
    ((store.without g n).newFunction s x parameters body).2
      = (store.newFunction s x parameters body).2.without g n := by
  have hmarked := store.update_without s (f := fun scope => { scope with declares := true })
    fun scope _ => scope.without_declares (g := g) (n := n)
  unfold newFunction
  dsimp only
  rw [hmarked]
  rfl

theorem Ordered.without {store : Store} (h : store.Ordered) (g : ScopeId) (n : String) :
    (store.without g n).Ordered := by
  refine ⟨?_, fun scope hscope => ?_, fun scope hscope p hp => ?_⟩
  · refine List.pairwise_map.mpr (h.youngestFirst.imp fun {a b} hlt => ?_)
    rw [Scope.id_without, Scope.id_without]
    exact hlt
  · obtain ⟨old, hold, rfl⟩ := mem_without.mp hscope
    rw [Scope.id_without]
    exact h.numbered old hold
  · obtain ⟨old, hold, rfl⟩ := mem_without.mp hscope
    rw [Scope.parent_without] at hp
    rw [Scope.id_without]
    exact h.inOlder old hold p hp

/-- Without the name no more can be come by. -/
theorem Reaches.of_without {store : Store} {roots : ScopeId → Prop} {held : List Value}
    {t : ScopeId} (h : (store.without g n).Reaches roots held t) : store.Reaches roots held t := by
  induction h with
  | root ht => exact .root ht
  | held hf => exact .held hf
  | parent _ hscope hp ih =>
    obtain ⟨old, hold, rfl⟩ := mem_without.mp hscope
    rw [Scope.id_without] at ih
    rw [Scope.parent_without] at hp
    exact .parent ih hold hp
  | bound _ hscope hf ih =>
    obtain ⟨old, hold, rfl⟩ := mem_without.mp hscope
    rw [Scope.id_without] at ih
    exact .bound ih hold (Scope.mem_functionsOf_of_without hf)

/-! ## The store that has the name lasts longer -/

/-- All that is left in the other store is left in the store, and is the same there but for the
name. -/
structure Outlasts (g : ScopeId) (n : String) (store other : Store) : Prop where
  ordered : store.Ordered
  otherOrdered : other.Ordered
  scopes : ∀ scope ∈ other.scopes, scope ∈ (store.without g n).scopes
  vacated : ∀ scope ∈ other.scopes, scope.id ∈ store.vacated → scope.id ∈ other.vacated

namespace Outlasts

variable {store other : Store}

theorem update (h : Outlasts g n store other) (s : ScopeId) {f : Scope → Scope}
    (hid : ∀ scope, (f scope).id = scope.id) (hp : ∀ scope, (f scope).parent = scope.parent)
    (hf : ∀ scope, scope.id = s → f (scope.without g n) = (f scope).without g n) :
    Outlasts g n (store.update s f) (other.update s f) where
  ordered := h.ordered.update s hid hp
  otherOrdered := h.otherOrdered.update s hid hp
  scopes scope hscope := by
    obtain ⟨old, hold, rfl⟩ := h.otherOrdered.mem_update.mp hscope
    rw [← store.update_without s hf]
    exact (h.ordered.without g n).mem_update.mpr ⟨old, h.scopes old hold, rfl⟩
  vacated scope hscope := by
    obtain ⟨old, hold, rfl⟩ := h.otherOrdered.mem_update.mp hscope
    have hsame : (if old.id = s then f old else old).id = old.id := by
      split
      · exact hid old
      · rfl
    rw [hsame]
    exact h.vacated old hold

theorem define (h : Outlasts g n store other) (hname : x ≠ n ∨ s ≠ g) (v : Value) :
    Outlasts g n (store.define s x v) (other.define s x v) :=
  h.update s (fun _ => rfl) (fun _ => rfl) fun scope hid => scope.without_bindings fun hg =>
    Bindings.set_without _ (hname.resolve_right fun hs => hs (hid.symm.trans hg)) v

theorem newFunction (h : Outlasts g n store other) (s : ScopeId) (name : String)
    (parameters : List String) (body : List Stmt) :
    Outlasts g n (store.newFunction s name parameters body).2
      (other.newFunction s name parameters body).2 :=
  have hmarked := h.update s (f := fun scope => { scope with declares := true }) (fun _ => rfl)
    (fun _ => rfl) fun scope _ => scope.without_declares
  ⟨h.ordered.newFunction s name parameters body, h.otherOrdered.newFunction s name parameters body,
    hmarked.scopes, hmarked.vacated⟩

/-- The new scope is the same in both stores, if it gets the same number. -/
theorem newScope (h : Outlasts g n store other) (hnext : other.nextScope = store.nextScope)
    (hfresh : store.nextScope ∉ store.vacated) {parent : Option ScopeId}
    (hp : ∀ p, parent = some p → p < store.nextScope) :
    Outlasts g n (store.newScope parent).2 (other.newScope parent).2 where
  ordered := h.ordered.newScope hp
  otherOrdered := h.otherOrdered.newScope fun p hpar => hnext ▸ hp p hpar
  scopes scope hscope := by
    rw [← newScope_without]
    rcases List.mem_cons.mp hscope with rfl | hold
    · rw [hnext]
      exact List.mem_cons_self
    · exact List.mem_cons_of_mem _ (h.scopes scope hold)
  vacated scope hscope hin := by
    rcases List.mem_cons.mp hscope with rfl | hold
    · rw [hnext] at hin
      exact absurd hin hfresh
    · exact h.vacated scope hold hin

/-! ### Removing -/

/-- What refers to a scope without the name refers to it with the name. -/
theorem referred_of_without {kept fewer : Scope → Prop} {held : ScopeId → List Closure}
    {scope : Scope} (h : Referred fewer held (scope.without g n))
    (hkept : ∀ c, fewer c → ∃ old, kept old ∧ old.without g n = c) : Referred kept held scope := by
  rw [Referred, Scope.id_without, Scope.declares_without] at h
  rcases h with ⟨c, hc, hp⟩ | ⟨hdecl, hf | ⟨c, hc, hb⟩⟩
  · obtain ⟨old, hold, rfl⟩ := hkept c hc
    exact .inl ⟨old, hold, by rwa [Scope.parent_without] at hp⟩
  · exact .inr ⟨hdecl, .inl hf⟩
  · obtain ⟨old, hold, rfl⟩ := hkept c hc
    obtain ⟨f, hf⟩ := bindsFunctionOf_iff.mp hb
    exact .inr ⟨hdecl, .inr ⟨old, hold,
      bindsFunctionOf_iff.mpr ⟨f, Scope.mem_functionsOf_of_without hf⟩⟩⟩

/-- **Removing what is dead.** Only what survives in the other store has to be in the store before:
it keeps itself alive in both of them. -/
theorem settle_of {held : ScopeId → List Closure} (hs : store.Ordered) (ho : other.Ordered)
    (hscopes : ∀ scope ∈ (other.settle held).scopes, scope ∈ (store.without g n).scopes)
    (hvacated : ∀ scope ∈ (other.settle held).scopes, scope.id ∈ store.vacated →
      scope.id ∈ other.vacated) : Outlasts g n (store.settle held) (other.settle held) where
  ordered := hs.settle held
  otherOrdered := ho.settle held
  scopes scope hscope := by
    let kept : Scope → Prop := fun c =>
      c ∈ store.scopes ∧ c.without g n ∈ (other.settle held).scopes
    -- A survivor that nobody works in is referred to by a survivor.
    have href : ∀ c, kept c → c.id ∈ store.vacated → Referred kept held c := by
      rintro c ⟨-, hin⟩ hloose
      have hother : (c.without g n).id ∈ other.vacated :=
        hvacated _ hin (by rwa [Scope.id_without])
      refine referred_of_without (referred_of_mem_sweepFrom ho.descending hin hother) ?_
      intro d hd
      obtain ⟨old, hold, rfl⟩ := mem_without.mp (hscopes d hd)
      exact ⟨old, ⟨hold, hd⟩, rfl⟩
    obtain ⟨old, hold, rfl⟩ := mem_without.mp (hscopes scope hscope)
    exact mem_without.mpr
      ⟨old, mem_sweepFrom hs.descending (fun c hc => hc.1) href ⟨hold, hscope⟩, rfl⟩
  vacated scope hscope hin :=
    mem_loose_of_mem_sweepFrom ho.descending hscope
      (hvacated scope hscope (store.settle_vacated_subset held hin))

theorem settle (h : Outlasts g n store other) (held : ScopeId → List Closure) :
    Outlasts g n (store.settle held) (other.settle held) :=
  have hsub := (other.settle_sublist held).subset
  settle_of h.ordered h.otherOrdered (fun scope hscope => h.scopes scope (hsub hscope))
    fun scope hscope => h.vacated scope (hsub hscope)

end Outlasts

/-! ### Releasing -/

section Release

variable {store other : Store} {held : ScopeId → List Closure} {scope : Scope}

/-- When nobody else refers to a scope, its counts are a matter of its own bindings. -/
theorem isUnreachable_of_alone (h : store.Ordered) (hscope : scope ∈ store.scopes)
    (hchildren : ∀ c ∈ store.scopes, c.parent ≠ some scope.id)
    (hdecl : scope.declares = true → held scope.id = [] ∧
      ∀ c ∈ store.scopes, c ≠ scope → bindsFunctionOf scope.id c = false) :
    store.isUnreachable 1 held scope
      = decide (distinct scope.ownReferences = ownFunctions scope scope.ownReferences) := by
  have hzero : store.children scope.id = 0 := by
    refine List.countP_eq_zero.mpr fun c hc => ?_
    have hmem := (List.takeWhile_sublist _).subset hc
    simpa using hchildren c hmem
  have hknown : store.capturing held scope = scope.ownReferences := by
    unfold capturing Scope.ownReferences
    split
    · next hd =>
      obtain ⟨hheld, hothers⟩ := hdecl hd
      -- Only the scope itself contributes to the references.
      obtain ⟨before, behind, hsplit⟩ := List.append_of_mem hscope
      have hnone : ∀ c ∈ before ++ behind, c.functionsOf scope.id = [] := by
        intro c hc
        have hne : c ≠ scope := by
          rintro rfl
          have hnodup := h.descending.nodup
          rw [hsplit, List.nodup_middle, List.nodup_cons] at hnodup
          exact hnodup.1 hc
        have hmem : c ∈ store.scopes := by
          rw [hsplit]
          rcases List.mem_append.mp hc with hin | hin
          · exact List.mem_append_left _ hin
          · exact List.mem_append_right _ (List.mem_cons_of_mem _ hin)
        refine List.eq_nil_iff_forall_not_mem.mpr fun f hf => ?_
        have hb := bindsFunctionOf_iff.mpr ⟨f, hf⟩
        rw [hothers c hmem hne] at hb
        cases hb
      rw [hheld, hsplit, List.flatMap_append, List.flatMap_cons,
        List.flatMap_eq_nil_iff.mpr fun c hc => hnone c (List.mem_append_left _ hc),
        List.flatMap_eq_nil_iff.mpr fun c hc => hnone c (List.mem_append_right _ hc),
        List.nil_append, List.nil_append, List.append_nil]
    · rfl
  rw [isUnreachable, hknown, references, hzero, Nat.add_zero]
  simp only [Nat.add_left_cancel_iff]

/-- **If the counts of a scope agree in the store that has the name, then they agree in the other
one**: nobody else refers to the scope there either. -/
theorem Outlasts.isUnreachable (h : Outlasts g n store other) (hne : scope.id ≠ g)
    (hscope : scope ∈ store.scopes) (hother : scope ∈ other.scopes)
    (hcount : store.isUnreachable 1 held scope = true) :
    other.isUnreachable 1 held scope = true := by
  obtain ⟨-, hchildren, hdecl⟩ :=
    h.ordered.alone_of_isUnreachable hscope (Nat.le_refl 1) hcount
  rw [isUnreachable_of_alone h.ordered hscope hchildren hdecl] at hcount
  rw [isUnreachable_of_alone h.otherOrdered hother]
  · exact hcount
  · intro c hc
    obtain ⟨old, hold, rfl⟩ := mem_without.mp (h.scopes c hc)
    rw [Scope.parent_without]
    exact hchildren old hold
  · intro hd
    obtain ⟨hheld, hothers⟩ := hdecl hd
    refine ⟨hheld, fun c hc hcne => ?_⟩
    obtain ⟨old, hold, rfl⟩ := mem_without.mp (h.scopes c hc)
    have hold_ne : old ≠ scope := by
      rintro rfl
      exact hcne (old.without_of_ne hne)
    rw [Bool.eq_false_iff]
    intro hb
    obtain ⟨f, hf⟩ := bindsFunctionOf_iff.mp hb
    have hb' := bindsFunctionOf_iff.mpr ⟨f, Scope.mem_functionsOf_of_without hf⟩
    rw [hothers old hold hold_ne] at hb'
    cases hb'

/-- A scope that is released and left is gone. -/
theorem Ordered.not_mem_of_isUnreachable (h : store.Ordered) (hscope : scope ∈ store.scopes)
    (hcount : store.isUnreachable 1 held scope = true) {c : Scope}
    (hc : c ∈ (((store.clear scope.id).vacate scope.id).settle held).scopes) : c.id ≠ scope.id := by
  intro hid
  obtain ⟨-, hchildren, hdecl⟩ := h.alone_of_isUnreachable hscope (Nat.le_refl 1) hcount
  have hcleared : ∀ d ∈ (((store.clear scope.id).vacate scope.id).settle held).scopes,
      ∃ old ∈ store.scopes, d = if old.id = scope.id then { old with bindings := [] } else old :=
    fun d hd => h.mem_update.mp
      ((settle_sublist held ((store.clear scope.id).vacate scope.id)).subset hd)
  obtain ⟨old, hold, heq⟩ := hcleared c hc
  -- The scope is the one that was cleared, and something would have to refer to it.
  have hsame : old = scope := by
    refine h.eq_of_id_eq hold hscope ?_
    rw [← hid, heq]
    split <;> rfl
  have hdecl' : c.declares = scope.declares := by
    rw [heq, hsame, if_pos rfl]
  have hreferred := referred_of_mem_sweepFrom ((h.clear scope.id).vacate scope.id).descending hc
    (by rw [hid]; exact List.mem_cons_self)
  rw [Referred, hid, hdecl'] at hreferred
  rcases hreferred with ⟨d, hd, hp⟩ | ⟨hd, ⟨f, hf⟩ | ⟨d, hdmem, hb⟩⟩
  · obtain ⟨before, hbefore, rfl⟩ := hcleared d hd
    refine hchildren before hbefore ?_
    rw [← hp]
    split <;> rfl
  · rw [(hdecl hd).1] at hf
    cases hf
  · obtain ⟨before, hbefore, rfl⟩ := hcleared d hdmem
    by_cases hb_id : before.id = scope.id
    · rw [if_pos hb_id] at hb
      cases hb
    · rw [if_neg hb_id] at hb
      have hne : before ≠ scope := fun hsame => hb_id (by rw [hsame])
      rw [(hdecl hd).2 before hbefore hne] at hb
      cases hb

/-- Other scopes are not touched by a release. -/
theorem mem_release_iff {s : ScopeId} (hne : scope.id ≠ s) :
    scope ∈ (store.release 1 held s).2.scopes ↔ scope ∈ store.scopes := by
  rcases release_cases held s store 1 with heq | ⟨-, -, -, heq⟩
  · rw [heq]
  · rw [heq]
    refine ⟨fun hin => ?_, fun hin => mem_updateIn_of_ne hin hne⟩
    rcases mem_updateIn hin with hold | ⟨old, -, hid, rfl⟩
    · exact hold
    · exact absurd hid hne

/-- What a release does to a scope that is there. -/
theorem Ordered.release_eq (h : store.Ordered) (hscope : scope ∈ store.scopes) :
    (store.release 1 held scope.id).2
      = if store.isUnreachable 1 held scope then store.clear scope.id else store := by
  rw [Store.release, h.scope?_eq_some_iff.mpr ⟨hscope, rfl⟩]
  dsimp only
  split <;> rfl

end Release

/-! ### Leaving -/

/-- What survives that a scope is left in the other store comes through the release in the store. If
it is the scope itself, its counts do not agree in the other store, and so they do not agree in the
store. -/
theorem Outlasts.mem_release_of_survives {store other : Store} (h : Outlasts g n store other)
    (hs : s ≠ g) {held : ScopeId → List Closure} {scope : Scope}
    (hscope : scope ∈ (((other.release 1 held s).2.vacate s).settle held).scopes) :
    scope ∈ ((store.release 1 held s).2.without g n).scopes := by
  have hreleased : scope ∈ (other.release 1 held s).2.scopes :=
    (settle_sublist held ((other.release 1 held s).2.vacate s)).subset hscope
  by_cases hid : scope.id = s
  · obtain ⟨old, hold, rfl⟩ : ∃ old ∈ other.scopes, old.id = s := by
      rcases release_cases held s other 1 with heq | ⟨old, hold, -, -⟩
      · exact ⟨scope, heq ▸ hreleased, hid⟩
      · exact ⟨old, h.otherOrdered.scope?_eq_some_iff.mp hold⟩
    obtain ⟨named, hnamed, hwithout⟩ := mem_without.mp (h.scopes old hold)
    have hsame : named = old := by
      rw [← hwithout] at hs ⊢
      rw [Scope.id_without] at hs
      exact (named.without_of_ne hs).symm
    subst hsame
    have hcount' : ¬ other.isUnreachable 1 held named = true := by
      intro hcount'
      rw [h.otherOrdered.release_eq hold, if_pos hcount'] at hscope
      exact h.otherOrdered.not_mem_of_isUnreachable hold hcount' hscope hid
    have hcount : ¬ store.isUnreachable 1 held named = true :=
      fun hcount => hcount' (h.isUnreachable hs hnamed hold hcount)
    rw [h.otherOrdered.release_eq hold, if_neg hcount'] at hreleased
    rw [h.ordered.release_eq hnamed, if_neg hcount]
    exact h.scopes scope hreleased
  · obtain ⟨old, hold, rfl⟩ := mem_without.mp (h.scopes scope ((mem_release_iff hid).mp hreleased))
    rw [Scope.id_without] at hid
    exact mem_without.mpr ⟨old, (mem_release_iff hid).mpr hold, rfl⟩

/-- **Leaving a scope in both stores.** -/
theorem Outlasts.leave {store other : Store} (h : Outlasts g n store other) (hs : s ≠ g)
    (held : ScopeId → List Closure) : Outlasts g n (store.leave held s) (other.leave held s) := by
  have hfirst := h.settle held
  unfold Store.leave
  generalize store.settle held = swept at hfirst
  generalize other.settle held = swept' at hfirst
  have hvacated : (swept.release 1 held s).2.vacated = swept.vacated :=
    (release_nextScope held s swept 1).2.2
  have hvacated' : (swept'.release 1 held s).2.vacated = swept'.vacated :=
    (release_nextScope held s swept' 1).2.2
  refine settle_of ((hfirst.ordered.release held s 1).vacate s)
    ((hfirst.otherOrdered.release held s 1).vacate s)
    (fun scope hscope => hfirst.mem_release_of_survives hs hscope) fun scope hscope hin => ?_
  -- Besides the scope itself, the same scopes have been left before.
  rw [vacate, hvacated] at hin
  rw [vacate, hvacated']
  by_cases hid : scope.id = s
  · rw [hid]
    exact List.mem_cons_self
  · have hold := (mem_release_iff hid).mp
      ((settle_sublist held ((swept'.release 1 held s).2.vacate s)).subset hscope)
    refine List.mem_cons_of_mem _ (hfirst.vacated scope hold ?_)
    exact (List.mem_cons.mp hin).resolve_left hid

end Store

end Scripting
