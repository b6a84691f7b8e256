/-
What giving up scopes cannot take away.

Who holds on to some scopes and some values can come by their chains, by the functions bound in
the scopes of these chains, by the chains of those functions, and so on: these are the scopes that
are *reached*. Giving up a scope is decided without looking for them, by counting references, so
it has to be shown that no reached scope is ever lost or emptied.

For the removal of scopes this is one observation: a reached scope is referred to by another
reached scope or by a held value, unless it is held on to itself. Scopes that keep each other in
this way are never removed, and all the others are: `mem_sweepFrom_iff` says so, and it says all
that there is to say about a sweep. The order in which scopes are removed does not matter.

For the release of scope `s` the counts have to be read. If they agree, there are
exactly as many functions that refer to `s` as functions that are bound in `s` and
nowhere else. Each of the latter is one of the former, so they are the same, and then
no child, no held value and no binding of another scope refers to `s`. A path from elsewhere
cannot enter `s`; and the path that only goes round inside of `s` begins nowhere.
-/
import Mathlib.Data.List.Nodup
import Mathlib.Data.List.Perm.Subperm
import Mathlib.Data.List.TakeWhile
import Scripting.Proofs.Chain
import Scripting.Scope.Release

set_option autoImplicit false

namespace Scripting

theorem Value.closureOf?_eq_some {v : Value} {s : ScopeId} {f : Closure} :
    v.closureOf? s = some f ↔ v = .function f ∧ f.scope = s := by
  cases v with
  | function g =>
    simp only [closureOf?, Value.function.injEq]
    by_cases hg : g.scope = s
    · rw [if_pos hg]
      constructor
      · intro h
        cases h
        exact ⟨rfl, hg⟩
      · rintro ⟨rfl, -⟩
        rfl
    · rw [if_neg hg]
      constructor
      · intro h
        cases h
      · rintro ⟨rfl, hs⟩
        exact absurd hs hg
  | _ => simp [closureOf?]

/-- The functions of scope `s` that a scope binds are those among its values. -/
theorem Scope.mem_functionsOf {scope : Scope} {s : ScopeId} {f : Closure} :
    f ∈ scope.functionsOf s ↔
      (∃ name, (name, Value.function f) ∈ scope.bindings) ∧ f.scope = s := by
  simp only [functionsOf, List.mem_filterMap, Value.closureOf?_eq_some]
  constructor
  · rintro ⟨⟨name, v⟩, hmem, rfl, hs⟩
    exact ⟨⟨name, hmem⟩, hs⟩
  · rintro ⟨⟨name, hmem⟩, hs⟩
    exact ⟨(name, .function f), hmem, rfl, hs⟩

theorem mem_functionsAmong {values : List Value} {s : ScopeId} {f : Closure} :
    f ∈ functionsAmong values s ↔ Value.function f ∈ values ∧ f.scope = s := by
  simp only [functionsAmong, List.mem_filterMap, Value.closureOf?_eq_some]
  constructor
  · rintro ⟨v, hv, rfl, hs⟩
    exact ⟨hv, hs⟩
  · rintro ⟨hv, hs⟩
    exact ⟨_, hv, rfl, hs⟩

namespace Store

theorem bindsFunctionOf_iff {scope : Scope} {s : ScopeId} :
    bindsFunctionOf s scope = true ↔ ∃ f, f ∈ scope.functionsOf s := by
  simp only [bindsFunctionOf, List.any_eq_true, Option.isSome_iff_exists, Scope.functionsOf,
    List.mem_filterMap]
  constructor
  · rintro ⟨entry, hmem, f, hf⟩
    exact ⟨f, entry, hmem, hf⟩
  · rintro ⟨f, entry, hmem, hf⟩
    exact ⟨entry, hmem, f, hf⟩

/-! ## Reaching -/

/-- The scopes that can be come by from the scopes in `roots` and the values that are `held`. -/
inductive Reaches (store : Store) (roots : ScopeId → Prop) (held : List Value) : ScopeId → Prop
  | root {t : ScopeId} : roots t → Reaches store roots held t
  | held {f : Closure} : Value.function f ∈ held → Reaches store roots held f.scope
  | parent {scope : Scope} {p : ScopeId} : Reaches store roots held scope.id →
      scope ∈ store.scopes → scope.parent = some p → Reaches store roots held p
  | bound {scope : Scope} {f : Closure} {s : ScopeId} : Reaches store roots held scope.id →
      scope ∈ store.scopes → f ∈ scope.functionsOf s → Reaches store roots held s

/-- Some of the scopes that are `kept`, or a function that is held, refers to a scope. -/
def Referred (kept : Scope → Prop) (held : ScopeId → List Closure) (scope : Scope) : Prop :=
  (∃ c, kept c ∧ c.parent = some scope.id) ∨
    (scope.declares = true ∧
      ((∃ f, f ∈ held scope.id) ∨ ∃ c, kept c ∧ bindsFunctionOf scope.id c = true))

/-- Every scope that a function in use was declared in is marked as one that declares. -/
def Announced (store : Store) (roots : ScopeId → Prop) (held : List Value) : Prop :=
  ∀ scope ∈ store.scopes,
    ((∃ f, Value.function f ∈ held ∧ f.scope = scope.id) ∨
      ∃ c ∈ store.scopes, Reaches store roots held c.id ∧ bindsFunctionOf scope.id c = true) →
    scope.declares = true

/-- The scopes of a store that are reached. -/
def Kept (store : Store) (roots : ScopeId → Prop) (held : List Value) (scope : Scope) : Prop :=
  scope ∈ store.scopes ∧ Reaches store roots held scope.id

/-- A reached scope that is no root is referred to by a held value or another reached scope. -/
theorem Kept.referred {store : Store} {roots : ScopeId → Prop} {held : List Value} {scope : Scope}
    (h : Kept store roots held scope) (hmark : Announced store roots held)
    (hroot : ¬ roots scope.id) :
    Referred (Kept store roots held) (functionsAmong held) scope := by
  obtain ⟨hmem, hr⟩ := h
  have hmark := hmark scope hmem
  generalize hid : scope.id = t at hr hroot
  cases hr with
  | root ht => exact absurd ht hroot
  | held hf =>
    refine .inr ⟨hmark (.inl ⟨_, hf, hid.symm⟩), .inl ⟨_, mem_functionsAmong.mpr ⟨hf, ?_⟩⟩⟩
    exact hid.symm
  | parent hr hc hp => exact .inl ⟨_, ⟨hc, hr⟩, by rw [hid]; exact hp⟩
  | bound hr hc hf =>
    have hb := bindsFunctionOf_iff.mpr ⟨_, hf⟩
    rw [← hid] at hb
    exact .inr ⟨hmark (.inr ⟨_, hc, hr, hb⟩), .inr ⟨_, ⟨hc, hr⟩, hb⟩⟩

theorem Referred.mono {kept more : Scope → Prop} {held : ScopeId → List Closure} {scope : Scope}
    (h : Referred kept held scope) (hsub : ∀ c, kept c → more c) : Referred more held scope := by
  rcases h with ⟨c, hc, hp⟩ | ⟨hdecl, hf | ⟨c, hc, hb⟩⟩
  · exact .inl ⟨c, hsub c hc, hp⟩
  · exact .inr ⟨hdecl, .inl hf⟩
  · exact .inr ⟨hdecl, .inr ⟨c, hsub c hc, hb⟩⟩

/-! ## Removing scopes -/

/-- Wherever a scope stands, what refers to it is what the walk down the list asks. -/
theorem Descending.isReferred_iff {younger older : List Scope} {scope : Scope}
    (h : Descending (younger.reverse ++ scope :: older)) {held : ScopeId → List Closure} :
    isReferred held younger scope older = true ↔
      Referred (· ∈ younger.reverse ++ scope :: older) held scope := by
  -- A scope that lies in another one is younger, so it has been passed.
  have hpassed : ∀ c ∈ younger.reverse ++ scope :: older, c.parent = some scope.id →
      c ∈ younger := by
    intro c hc hp
    have hlt := h.inOlder c hc _ hp
    rcases List.mem_append.mp hc with hin | hin
    · exact List.mem_reverse.mp hin
    · have hbehind := (List.pairwise_cons.mp (List.pairwise_append.mp h.youngestFirst).2.1).1
      rcases List.mem_cons.mp hin with rfl | hold
      · exact absurd hlt (Nat.lt_irrefl _)
      · exact absurd (Nat.lt_trans hlt (hbehind c hold)) (Nat.lt_irrefl _)
  simp only [isReferred, refersTo, Bool.or_eq_true, Bool.and_eq_true, List.any_eq_true,
    decide_eq_true_eq, Bool.not_eq_true', List.isEmpty_eq_false_iff_exists_mem]
  constructor
  · rintro (⟨c, hc, hp | ⟨hdecl, hb⟩⟩ | ⟨hdecl, hf | ⟨c, hc, hb⟩⟩)
    · exact .inl ⟨c, List.mem_append_left _ (List.mem_reverse.mpr hc), hp⟩
    · exact .inr ⟨hdecl, .inr ⟨c, List.mem_append_left _ (List.mem_reverse.mpr hc), hb⟩⟩
    · exact .inr ⟨hdecl, .inl hf⟩
    · exact .inr ⟨hdecl, .inr ⟨c, List.mem_append_right _ hc, hb⟩⟩
  · rintro (⟨c, hc, hp⟩ | ⟨hdecl, hf | ⟨c, hc, hb⟩⟩)
    · exact .inl ⟨c, hpassed c hc hp, .inl hp⟩
    · exact .inr ⟨hdecl, .inl hf⟩
    · rcases List.mem_append.mp hc with hin | hin
      · exact .inl ⟨c, List.mem_reverse.mp hin, .inr ⟨hdecl, hb⟩⟩
      · exact .inr ⟨hdecl, .inr ⟨c, hin, hb⟩⟩

section Sweep

variable {held : ScopeId → List Closure} {loose : List ScopeId}

/-- What is removed is one scope, a loose one that nothing refers to. -/
theorem removeDead?_eq_some {younger scopes rest : List Scope} {dead : ScopeId}
    (h : removeDead? held loose younger scopes = some (dead, rest)) :
    ∃ before scope behind, scopes = before ++ scope :: behind ∧ scope.id = dead ∧ dead ∈ loose ∧
      isReferred held (before.reverse ++ younger) scope behind = false ∧
      rest = younger.reverse ++ before ++ behind := by
  induction scopes generalizing younger with
  | nil => cases h
  | cons head older ih =>
    rw [removeDead?] at h
    split at h
    · next hdead =>
      cases h
      rw [Bool.and_eq_true, List.contains_iff_mem, Bool.not_eq_true'] at hdead
      exact ⟨[], head, older, rfl, rfl, hdead.1, hdead.2, by rw [List.append_nil]⟩
    · obtain ⟨before, scope, behind, rfl, hid, hloose, hdead, rfl⟩ := ih h
      refine ⟨head :: before, scope, behind, rfl, hid, hloose, ?_, ?_⟩
      · rwa [List.reverse_cons, List.append_assoc]
      · simp

/-- If none is removed, something refers to all loose scopes. -/
theorem isReferred_of_removeDead?_eq_none {younger before behind : List Scope} {scope : Scope}
    (h : removeDead? held loose younger (before ++ scope :: behind) = none)
    (hloose : scope.id ∈ loose) :
    isReferred held (before.reverse ++ younger) scope behind = true := by
  induction before generalizing younger with
  | nil =>
    rw [List.nil_append, removeDead?] at h
    split at h
    · cases h
    · next halive =>
      rw [Bool.and_eq_true, List.contains_iff_mem, Bool.not_eq_true', not_and,
        Bool.not_eq_false] at halive
      exact halive hloose
  | cons head before ih =>
    rw [List.cons_append, removeDead?] at h
    split at h
    · cases h
    · have hreferred := ih h
      rwa [List.reverse_cons, List.append_assoc]

/-- Where every loose scope is referred to, it still is if more is held and if there are more
scopes that may refer to it. -/
theorem removeDead?_eq_none_mono {held' : ScopeId → List Closure} {loose' : List ScopeId}
    {younger younger' scopes : List Scope} (h : removeDead? held loose younger scopes = none)
    (hheld : ∀ t, held t ≠ [] → held' t ≠ [])
    (hloose : ∀ scope ∈ scopes, scope.id ∈ loose' → scope.id ∈ loose)
    (hyounger : younger ⊆ younger') : removeDead? held' loose' younger' scopes = none := by
  induction scopes generalizing younger younger' with
  | nil => rfl
  | cons scope older ih =>
    obtain ⟨hfirst, hrest⟩ := List.forall_mem_cons.mp hloose
    rw [removeDead?] at h ⊢
    split at h
    · cases h
    · next halive =>
      rw [if_neg]
      · exact ih h hrest (List.cons_subset_cons scope hyounger)
      · simp only [Bool.and_eq_true, List.contains_iff_mem, Bool.not_eq_true', not_and,
          Bool.not_eq_false] at halive ⊢
        intro hin
        have hreferred := halive (hfirst hin)
        simp only [isReferred, Bool.or_eq_true, Bool.and_eq_true, List.any_eq_true,
          Bool.not_eq_true', List.isEmpty_eq_false_iff] at hreferred ⊢
        refine hreferred.imp ?_ (And.imp_right (Or.imp_left (hheld _)))
        rintro ⟨c, hc, hrefers⟩
        exact ⟨c, hyounger hc, hrefers⟩

/-- A sweep is over when nothing is dead. -/
theorem sweepFrom_eq_of_none {scopes : List Scope} (h : removeDead? held loose [] scopes = none) :
    sweepFrom held loose scopes = (loose, scopes) := by
  rw [sweepFrom]
  split
  · rfl
  · split
    · rfl
    · next hsome =>
      rw [h] at hsome
      cases hsome

/-- Otherwise it goes on without the dead scope. -/
theorem sweepFrom_eq_of_some {scopes rest : List Scope} {dead : ScopeId}
    (h : removeDead? held loose [] scopes = some (dead, rest)) :
    sweepFrom held loose scopes = sweepFrom held (loose.erase dead) rest := by
  obtain ⟨-, -, -, -, -, hloose, -⟩ := removeDead?_eq_some h
  rw [sweepFrom, if_neg (by rw [List.isEmpty_iff]; exact List.ne_nil_of_mem hloose)]
  split
  · next hnone =>
    rw [h] at hnone
    cases hnone
  · next hsome =>
    rw [h] at hsome
    cases hsome
    rfl

/-- A sweep is over, or it has removed one scope and goes on. -/
theorem sweepFrom_cases (held : ScopeId → List Closure) (loose : List ScopeId)
    (scopes : List Scope) :
    (sweepFrom held loose scopes = (loose, scopes) ∧ removeDead? held loose [] scopes = none) ∨
      ∃ before scope behind, scopes = before ++ scope :: behind ∧ scope.id ∈ loose ∧
        isReferred held before.reverse scope behind = false ∧
        sweepFrom held loose scopes = sweepFrom held (loose.erase scope.id) (before ++ behind) := by
  cases hremove : removeDead? held loose [] scopes with
  | none => exact .inl ⟨sweepFrom_eq_of_none hremove, rfl⟩
  | some removed =>
    obtain ⟨dead, rest⟩ := removed
    have hsweep := sweepFrom_eq_of_some hremove
    obtain ⟨before, scope, behind, rfl, rfl, hloose, hdead, rfl⟩ := removeDead?_eq_some hremove
    rw [List.append_nil] at hdead
    exact .inr ⟨before, scope, behind, rfl, hloose, hdead, hsweep⟩

/-- To follow a sweep, it is enough to say what the end of it is like, and what the removal of one
scope does. -/
theorem sweepFrom_induction {P : List ScopeId → List Scope → List ScopeId × List Scope → Prop}
    (done : ∀ loose scopes, removeDead? held loose [] scopes = none →
      P loose scopes (loose, scopes))
    (remove : ∀ loose before scope behind swept, scope.id ∈ loose →
      isReferred held before.reverse scope behind = false →
      P (loose.erase scope.id) (before ++ behind) swept →
      P loose (before ++ scope :: behind) swept)
    (loose : List ScopeId) (scopes : List Scope) :
    P loose scopes (sweepFrom held loose scopes) := by
  generalize hn : scopes.length = n
  induction n using Nat.strongRecOn generalizing loose scopes with
  | ind n ih =>
    rcases sweepFrom_cases held loose scopes with
      ⟨heq, hdone⟩ | ⟨before, scope, behind, rfl, hloose, hdead, heq⟩
    · rw [heq]
      exact done loose scopes hdone
    · rw [heq]
      refine remove loose before scope behind _ hloose hdead (ih _ ?_ _ _ rfl)
      rw [← hn]
      simp

theorem sweepFrom_sublist (held : ScopeId → List Closure) (loose : List ScopeId)
    (scopes : List Scope) : (sweepFrom held loose scopes).2.Sublist scopes := by
  refine sweepFrom_induction (P := fun _ scopes swept => swept.2.Sublist scopes)
    (fun _ _ _ => .refl _) ?_ loose scopes
  intro _ before scope behind swept _ _ hsub
  exact hsub.trans ((List.sublist_cons_self scope behind).append_left before)

theorem sweepFrom_loose_subset (held : ScopeId → List Closure) (loose : List ScopeId)
    (scopes : List Scope) : (sweepFrom held loose scopes).1 ⊆ loose := by
  refine sweepFrom_induction (P := fun loose _ swept => swept.1 ⊆ loose)
    (fun _ _ _ => List.Subset.refl _) ?_ loose scopes
  intro loose _ scope _ swept _ _ hsub t ht
  exact List.mem_of_mem_erase (hsub ht)

/-- Nothing is dead after a sweep. -/
theorem removeDead?_sweepFrom (held : ScopeId → List Closure) (loose : List ScopeId)
    (scopes : List Scope) :
    removeDead? held (sweepFrom held loose scopes).1 [] (sweepFrom held loose scopes).2 = none :=
  sweepFrom_induction (P := fun _ _ swept => removeDead? held swept.1 [] swept.2 = none)
    (fun _ _ hnone => hnone) (fun _ _ _ _ _ _ _ ih => ih) loose scopes

/-- A scope that somebody works in stays. -/
theorem mem_sweepFrom_of_not_mem {scopes : List Scope} {scope : Scope} (hscope : scope ∈ scopes)
    (hloose : scope.id ∉ loose) : scope ∈ (sweepFrom held loose scopes).2 := by
  revert hscope hloose
  refine sweepFrom_induction
    (P := fun loose scopes swept => scope ∈ scopes → scope.id ∉ loose → scope ∈ swept.2)
    (fun _ _ _ hscope _ => hscope) ?_ loose scopes
  intro loose before dead behind swept hdead _ ih hscope hloose
  refine ih ?_ fun hin => hloose (List.mem_of_mem_erase hin)
  rcases List.mem_append.mp hscope with hin | hin
  · exact List.mem_append_left _ hin
  · rcases List.mem_cons.mp hin with rfl | hin
    · exact absurd hdead hloose
    · exact List.mem_append_right _ hin

/-- A loose scope that is still there is still loose. -/
theorem mem_loose_of_mem_sweepFrom {scopes : List Scope} (h : Descending scopes) {scope : Scope}
    (hscope : scope ∈ (sweepFrom held loose scopes).2) (hloose : scope.id ∈ loose) :
    scope.id ∈ (sweepFrom held loose scopes).1 := by
  revert h hscope hloose
  refine sweepFrom_induction (P := fun loose scopes swept => Descending scopes →
      swept.2.Sublist scopes ∧ (scope ∈ swept.2 → scope.id ∈ loose → scope.id ∈ swept.1))
    (fun _ _ _ _ => ⟨.refl _, fun _ hloose => hloose⟩) ?_ loose scopes |> fun hall h => (hall h).2
  intro loose before dead behind swept _ _ ih h
  have hless := (List.sublist_cons_self dead behind).append_left before
  obtain ⟨hsub, hrest⟩ := ih (h.sublist hless)
  refine ⟨hsub.trans hless, fun hscope hloose => hrest hscope ?_⟩
  -- The scope that was removed had another number.
  refine (List.mem_erase_of_ne fun hid => ?_).mpr hloose
  have hsame : scope = dead :=
    h.eq_of_id_eq (hless.subset (hsub.subset hscope)) (by simp) hid
  have hnot : dead ∉ before ++ behind := by
    have hnodup := h.nodup
    rw [List.nodup_middle, List.nodup_cons] at hnodup
    exact hnodup.1
  exact hnot (hsub.subset (hsame ▸ hscope))

/-- A scope that belongs to some which keep each other: something refers to every loose one of
them, and it is held or is one of them. -/
def Sustained (held : ScopeId → List Closure) (loose : List ScopeId) (scopes : List Scope)
    (scope : Scope) : Prop :=
  ∃ kept : Scope → Prop, kept scope ∧ (∀ c, kept c → c ∈ scopes) ∧
    ∀ c, kept c → c.id ∈ loose → Referred kept held c

/-- **Scopes that keep each other stay.** Whoever refers to a member is a member, so the reason to
stay never goes away before the scope does. -/
theorem mem_sweepFrom {kept : Scope → Prop} {scopes : List Scope} (h : Descending scopes)
    (hin : ∀ c, kept c → c ∈ scopes) (href : ∀ c, kept c → c.id ∈ loose → Referred kept held c)
    {scope : Scope} (hk : kept scope) : scope ∈ (sweepFrom held loose scopes).2 := by
  revert h hin href
  refine sweepFrom_induction (P := fun loose scopes swept => Descending scopes →
      (∀ c, kept c → c ∈ scopes) → (∀ c, kept c → c.id ∈ loose → Referred kept held c) →
      scope ∈ swept.2)
    (fun _ _ _ _ hin _ => hin scope hk) ?_ loose scopes
  intro loose before dead behind swept hloose hdead ih h hin href
  have hnot : ¬ kept dead := by
    intro hkept
    have hreferred := (href dead hkept hloose).mono hin
    rw [← List.reverse_reverse before] at h hreferred
    rw [h.isReferred_iff.mpr hreferred] at hdead
    cases hdead
  refine ih (h.sublist ((List.sublist_cons_self dead behind).append_left before)) ?_ ?_
  · intro c hc
    rcases List.mem_append.mp (hin c hc) with hin | hin
    · exact List.mem_append_left _ hin
    · rcases List.mem_cons.mp hin with rfl | hin
      · exact absurd hc hnot
      · exact List.mem_append_right _ hin
  · exact fun c hc hcl => href c hc (List.mem_of_mem_erase hcl)

/-- When a sweep is over, something refers to every loose scope that is left. -/
theorem referred_of_mem_sweepFrom {scopes : List Scope} (h : Descending scopes) {scope : Scope}
    (hscope : scope ∈ (sweepFrom held loose scopes).2) (hloose : scope.id ∈ loose) :
    Referred (· ∈ (sweepFrom held loose scopes).2) held scope := by
  have hstill := mem_loose_of_mem_sweepFrom h hscope hloose
  revert h hscope hstill
  refine sweepFrom_induction (P := fun _ scopes swept => Descending scopes → scope ∈ swept.2 →
      scope.id ∈ swept.1 → Referred (· ∈ swept.2) held scope) ?_ ?_ loose scopes
  · intro loose scopes hnone h hscope hloose
    obtain ⟨before, behind, rfl⟩ := List.append_of_mem hscope
    have hreferred := isReferred_of_removeDead?_eq_none hnone hloose
    rw [List.append_nil] at hreferred
    rw [← List.reverse_reverse before] at h
    have hall := h.isReferred_iff.mp hreferred
    rwa [List.reverse_reverse] at hall
  · intro loose before dead behind swept _ _ ih h hscope hstill
    exact ih (h.sublist ((List.sublist_cons_self dead behind).append_left before)) hscope hstill

/-- **What a sweep leaves:** the scopes that belong to some which keep each other. -/
theorem mem_sweepFrom_iff {scopes : List Scope} (h : Descending scopes) {scope : Scope} :
    scope ∈ (sweepFrom held loose scopes).2 ↔ Sustained held loose scopes scope := by
  constructor
  · intro hscope
    refine ⟨(· ∈ (sweepFrom held loose scopes).2), hscope, ?_, ?_⟩
    · exact fun c hc => (sweepFrom_sublist held loose scopes).subset hc
    · exact fun c hc hloose => referred_of_mem_sweepFrom h hc hloose
  · rintro ⟨kept, hk, hin, href⟩
    exact mem_sweepFrom h hin href hk

end Sweep

/-! ## Reading the counts -/

/-- **Equal counts.** If the functions of `own` that are known once are as many as all that are
known and `n` more, then `n` is zero, and everything known is known once and is one of `own`. -/
theorem known_once_of_counts {known own : List Closure} (hsub : own.Sublist known) {n : Nat}
    (h : n + distinct known = own.countP fun f => known.countP (·.id = f.id) = 1) :
    n = 0 ∧ ∀ g ∈ known, known.countP (·.id = g.id) = 1 ∧ ∃ f ∈ own, f.id = g.id := by
  let once : List FunctionId :=
    (own.filter fun f => known.countP (·.id = f.id) = 1).map (·.id)
  have hlen : once.length = n + (known.map (·.id)).eraseDups.length := by
    rw [List.length_map, ← List.countP_eq_length_filter, ← h, distinct]
  have hsubset : once ⊆ (known.map (·.id)).eraseDups := by
    intro i hi
    obtain ⟨f, hf, rfl⟩ := List.mem_map.mp hi
    rw [List.mem_eraseDups]
    exact List.mem_map_of_mem (hsub.subset (List.mem_of_mem_filter hf))
  -- A number that stood twice in `once` would be known twice.
  have hnodup : once.Nodup := by
    refine List.nodup_iff_count_le_one.mpr fun i => ?_
    by_cases hi : i ∈ once
    · obtain ⟨f, hf, rfl⟩ := List.mem_map.mp hi
      have hone : known.countP (·.id = f.id) = 1 := by simpa using (List.mem_filter.mp hf).2
      have hle : (own.filter fun f => known.countP (·.id = f.id) = 1).countP (·.id = f.id) ≤ 1 := by
        rw [← hone]
        exact (List.filter_sublist.trans hsub).countP_le
      refine le_trans (le_of_eq ?_) hle
      rw [List.count, List.countP_map]
      rfl
    · rw [List.count_eq_zero_of_not_mem hi]
      exact Nat.zero_le 1
  have hsubperm := List.subperm_of_subset hnodup hsubset
  have hle := hsubperm.length_le
  have hperm := hsubperm.perm_of_length_le (by omega)
  refine ⟨by omega, fun g hg => ?_⟩
  have hg' : g.id ∈ once := hperm.mem_iff.mpr (List.mem_eraseDups.mpr (List.mem_map_of_mem hg))
  obtain ⟨f, hf, hid⟩ := List.mem_map.mp hg'
  obtain ⟨hown, hone⟩ := List.mem_filter.mp hf
  rw [hid] at hone
  exact ⟨by simpa using hone, f, hown, hid⟩

/-- What two different members of a list contribute adds up. -/
theorem countP_add_le_countP_flatMap {α β : Type} {p : β → Bool} {F : α → List β} {xs : List α}
    {a b : α} (ha : a ∈ xs) (hb : b ∈ xs) (hne : a ≠ b) :
    (F a).countP p + (F b).countP p ≤ (xs.flatMap F).countP p := by
  have single : ∀ {ys : List α} {c : α}, c ∈ ys → (F c).countP p ≤ (ys.flatMap F).countP p := by
    intro ys c hc
    obtain ⟨l, r, rfl⟩ := List.append_of_mem hc
    simp only [List.flatMap_append, List.flatMap_cons, List.countP_append]
    omega
  induction xs with
  | nil => cases ha
  | cons x rest ih =>
    rw [List.flatMap_cons, List.countP_append]
    rcases List.mem_cons.mp ha with rfl | ha' <;> rcases List.mem_cons.mp hb with rfl | hb'
    · exact absurd rfl hne
    · have := single hb'
      omega
    · have := single ha'
      omega
    · have := ih ha' hb'
      omega

/-- Children are younger, so counting them up to the scope itself misses none. -/
theorem Ordered.parent_ne_of_children_eq_zero {store : Store} (h : store.Ordered) {s : ScopeId}
    (hzero : store.children s = 0) {c : Scope} (hc : c ∈ store.scopes) : c.parent ≠ some s := by
  intro hp
  have hlt := h.inOlder c hc s hp
  rw [children, List.countP_eq_zero] at hzero
  -- Up to a child there are younger scopes only, so the walk has not come to its end there.
  have hpassed : c ∈ store.scopes.takeWhile fun t => decide (t.id ≠ s) := by
    have hsort := h.youngestFirst
    generalize store.scopes = scopes at hsort hc
    induction scopes with
    | nil => cases hc
    | cons head older ih =>
      obtain ⟨hhead, hsort⟩ := List.pairwise_cons.mp hsort
      rcases List.mem_cons.mp hc with rfl | hin
      · rw [List.takeWhile_cons_of_pos (by simpa using Nat.ne_of_gt hlt)]
        exact List.mem_cons_self
      · have hne := Nat.ne_of_gt (Nat.lt_trans hlt (hhead c hin))
        rw [List.takeWhile_cons_of_pos (by simpa using hne)]
        exact List.mem_cons_of_mem _ (ih hsort hin)
  exact hzero c hpassed (decide_eq_true hp)

/-- The references to the functions of a scope are those that are held and those of bindings. -/
theorem capturing_of_declares {store : Store} {held : ScopeId → List Closure} {scope : Scope}
    (h : scope.declares = true) :
    store.capturing held scope = held scope.id
      ++ store.scopes.flatMap (·.functionsOf scope.id) :=
  if_pos h

/-- The bindings of the scope itself are among them. -/
theorem functionsOf_sublist_capturing {store : Store} {held : ScopeId → List Closure}
    {scope : Scope} (hscope : scope ∈ store.scopes) (h : scope.declares = true) :
    (scope.functionsOf scope.id).Sublist (store.capturing held scope) := by
  obtain ⟨l, r, hsplit⟩ := List.append_of_mem hscope
  rw [capturing_of_declares h, hsplit, List.flatMap_append, List.flatMap_cons]
  exact List.sublist_append_of_sublist_right
    (List.sublist_append_of_sublist_right (List.sublist_append_left _ _))

/-- The case of no references at all is a shortcut only. -/
theorem ownFunctions_eq_countP {scope : Scope} {known : List Closure}
    (h : (scope.functionsOf scope.id).Sublist known) :
    ownFunctions scope known
      = (scope.functionsOf scope.id).countP fun f => known.countP (·.id = f.id) = 1 := by
  rw [ownFunctions]
  split
  · next hempty =>
    rw [List.isEmpty_iff.mp hempty] at h
    rw [List.sublist_nil.mp h, List.countP_nil]
  · rfl

/-- **Nobody else refers to a scope whose counts agree.** Only the one handle is left, nothing
lies in the scope, and no function that was declared in it is held or bound in another scope. -/
theorem Ordered.alone_of_isUnreachable {store : Store} (h : store.Ordered) {handles : Nat}
    {held : ScopeId → List Closure} {scope : Scope} (hscope : scope ∈ store.scopes)
    (hpos : 1 ≤ handles) (hcount : store.isUnreachable handles held scope = true) :
    handles = 1 ∧ (∀ c ∈ store.scopes, c.parent ≠ some scope.id) ∧
      (scope.declares = true →
        held scope.id = [] ∧
          ∀ c ∈ store.scopes, c ≠ scope → bindsFunctionOf scope.id c = false) := by
  have hcount : handles + store.children scope.id + distinct (store.capturing held scope)
      = 1 + ownFunctions scope (store.capturing held scope) := of_decide_eq_true hcount
  by_cases hdecl : scope.declares = true
  · have hown : (scope.functionsOf scope.id).Sublist (store.capturing held scope) :=
      functionsOf_sublist_capturing hscope hdecl
    rw [ownFunctions_eq_countP hown] at hcount
    obtain ⟨hzero, honce⟩ := known_once_of_counts hown
      (n := handles - 1 + store.children scope.id) (by omega)
    rw [capturing_of_declares hdecl] at honce
    refine ⟨by omega, fun c hc => h.parent_ne_of_children_eq_zero (by omega) hc, fun _ => ⟨?_, ?_⟩⟩
    -- A function that is known elsewhere would be known there and in the scope itself: twice.
    · rw [List.eq_nil_iff_forall_not_mem]
      intro g hgk
      obtain ⟨hone, f, hf, hid⟩ := honce g (List.mem_append_left _ hgk)
      have hfk : f ∈ store.scopes.flatMap (·.functionsOf scope.id) :=
        List.mem_flatMap.mpr ⟨scope, hscope, hf⟩
      rw [List.countP_append] at hone
      have h1 := List.countP_pos_iff (p := (·.id = g.id)).mpr ⟨g, hgk, decide_eq_true rfl⟩
      have h2 := List.countP_pos_iff (p := (·.id = g.id)).mpr ⟨f, hfk, decide_eq_true hid⟩
      omega
    · intro c hc hne
      rw [Bool.eq_false_iff]
      intro hb
      obtain ⟨g, hg⟩ := bindsFunctionOf_iff.mp hb
      have hgk : g ∈ store.scopes.flatMap (·.functionsOf scope.id) :=
        List.mem_flatMap.mpr ⟨c, hc, hg⟩
      obtain ⟨hone, f, hf, hid⟩ := honce g (List.mem_append_right _ hgk)
      rw [List.countP_append] at hone
      have h1 := List.countP_pos_iff (p := (·.id = g.id)).mpr ⟨g, hg, decide_eq_true rfl⟩
      have h2 := List.countP_pos_iff (p := (·.id = g.id)).mpr ⟨f, hf, decide_eq_true hid⟩
      have hadd := countP_add_le_countP_flatMap (p := fun k : Closure => decide (k.id = g.id))
        (F := (·.functionsOf scope.id)) hc hscope hne
      omega
  · have hknown : store.capturing held scope = [] := if_neg hdecl
    simp only [hknown, distinct, ownFunctions, List.map_nil, List.eraseDups_nil, List.length_nil,
      List.isEmpty_nil, if_true] at hcount
    exact ⟨by omega, fun c hc => h.parent_ne_of_children_eq_zero (by omega) hc,
      fun hd => absurd hd hdecl⟩

/-! ## Leaving a scope -/

section Parts

variable {store : Store} (held : ScopeId → List Closure) (s : ScopeId)

/-- A release drops the bindings of one scope, or does nothing. -/
theorem release_cases (store : Store) (handles : Nat) :
    (store.release handles held s).2 = store ∨
      ∃ scope, store.scope? s = some scope ∧ store.isUnreachable handles held scope = true ∧
        (store.release handles held s).2 = store.clear s := by
  rw [release]
  cases hscope : store.scope? s with
  | none => exact .inl rfl
  | some scope =>
    dsimp only
    split
    · next hcount => exact .inr ⟨scope, rfl, hcount, rfl⟩
    · exact .inl rfl

theorem Ordered.release (h : store.Ordered) (handles : Nat) :
    (store.release handles held s).2.Ordered := by
  rcases release_cases held s store handles with heq | ⟨-, -, -, heq⟩ <;> rw [heq]
  · exact h
  · exact h.clear s

theorem settle_sublist (store : Store) : (store.settle held).scopes.Sublist store.scopes :=
  sweepFrom_sublist held store.vacated store.scopes

theorem Ordered.settle (h : store.Ordered) : (store.settle held).Ordered :=
  h.of_sublist (store.settle_sublist held) rfl

theorem Ordered.vacate (h : store.Ordered) : (store.vacate s).Ordered :=
  ⟨h.youngestFirst, h.numbered, h.inOlder⟩

theorem settle_vacated_subset (store : Store) : (store.settle held).vacated ⊆ store.vacated :=
  sweepFrom_loose_subset held store.vacated store.scopes

/-- Nothing but scopes is given up, so numbering goes on. -/
theorem release_nextScope (store : Store) (handles : Nat) :
    (store.release handles held s).2.nextScope = store.nextScope ∧
      (store.release handles held s).2.nextFunction = store.nextFunction ∧
      (store.release handles held s).2.vacated = store.vacated := by
  rcases release_cases held s store handles with heq | ⟨-, -, -, heq⟩ <;>
    (rw [heq]; exact ⟨rfl, rfl, rfl⟩)

/-- What is there after a scope has been left was there before; only the scope that was left may
have lost its bindings. -/
theorem mem_leave {scope : Scope} (h : scope ∈ (store.leave held s).scopes) :
    scope ∈ store.scopes ∨
      ∃ old ∈ store.scopes, old.id = s ∧ scope = { old with bindings := [] } := by
  have hreleased : scope ∈ ((store.settle held).release 1 held s).2.scopes :=
    (settle_sublist held (((store.settle held).release 1 held s).2.vacate s)).subset h
  have hsettled := (store.settle_sublist held).subset
  rcases release_cases held s (store.settle held) 1 with heq | ⟨-, -, -, heq⟩
  · rw [heq] at hreleased
    exact .inl (hsettled hreleased)
  · rw [heq] at hreleased
    rcases mem_updateIn hreleased with hold | ⟨old, hold, hid, rfl⟩
    · exact .inl (hsettled hold)
    · exact .inr ⟨old, hsettled hold, hid, rfl⟩

/-- A scope that somebody works in is not touched when another one is left. -/
theorem mem_leave_of_ne {scope : Scope} (h : scope ∈ store.scopes) (hne : scope.id ≠ s)
    (hoccupied : scope.id ∉ store.vacated) : scope ∈ (store.leave held s).scopes := by
  have hsettled : scope ∈ (store.settle held).scopes := mem_sweepFrom_of_not_mem h hoccupied
  have hreleased : scope ∈ ((store.settle held).release 1 held s).2.scopes := by
    rcases release_cases held s (store.settle held) 1 with heq | ⟨-, -, -, heq⟩ <;> rw [heq]
    · exact hsettled
    · exact mem_updateIn_of_ne hsettled hne
  refine mem_sweepFrom_of_not_mem hreleased fun hin => ?_
  rw [vacate, (release_nextScope held s (store.settle held) 1).2.2] at hin
  rcases List.mem_cons.mp hin with heq | hin
  · exact hne heq
  · exact hoccupied (store.settle_vacated_subset held hin)

end Parts

/-- A way of leaving a scope for good, while some functions are held. -/
abbrev Leaving : Type := Store → (ScopeId → List Closure) → ScopeId → Store

/-- Leave scope `s` for good like `leave`, but do not release it: its bindings stay as long as
something refers to it. -/
def leaveUnreleased : Leaving := fun store held s => (store.vacate s).settle held

/-- A way of leaving takes nothing from those who work in other scopes and hold the values that are
held. -/
structure Leaving.Retains (leaving : Leaving) : Prop where
  ordered : ∀ {store : Store} (held : ScopeId → List Closure) (s : ScopeId), store.Ordered →
    (leaving store held s).Ordered
  nextScope : ∀ (store : Store) (held : ScopeId → List Closure) (s : ScopeId),
    (leaving store held s).nextScope = store.nextScope
  nextFunction : ∀ (store : Store) (held : ScopeId → List Closure) (s : ScopeId),
    (leaving store held s).nextFunction = store.nextFunction
  vacated : ∀ {store : Store} {held : ScopeId → List Closure} {s t : ScopeId},
    t ∈ (leaving store held s).vacated → t = s ∨ t ∈ store.vacated
  keeps : ∀ {store : Store} {values : List Value} {s : ScopeId} {roots : ScopeId → Prop},
    store.Ordered → (∀ t, roots t → t ≠ s ∧ t ∉ store.vacated) → Announced store roots values →
    ∀ scope, Kept store roots values scope →
      scope ∈ (leaving store (functionsAmong values) s).scopes

section Keeping

variable {store later : Store} {roots : ScopeId → Prop} {values : List Value} {scope : Scope}

/-- Removing what is dead takes nothing that is reached from scopes that are worked in. `later` is a
store that has all that is reached in `store`. -/
theorem Kept.mem_settle (hk : Kept store roots values scope) (hlater : later.Ordered)
    (hkept : ∀ c, Kept store roots values c → c ∈ later.scopes)
    (hmark : Announced store roots values) (hroots : ∀ t, roots t → t ∉ later.vacated) :
    scope ∈ (later.settle (functionsAmong values)).scopes := by
  refine mem_sweepFrom hlater.descending hkept (fun c hc hloose => ?_) hk
  exact hc.referred hmark fun hroot => hroots _ hroot hloose

/-- **No path enters a scope whose counts agree.** `later` is the store that the counts were
taken from: it has all scopes that are reached in `store`. -/
theorem Reaches.ne_of_isUnreachable {t : ScopeId} (hr : Reaches store roots values t)
    (hlater : later.Ordered) (hkept : ∀ c, Kept store roots values c → c ∈ later.scopes)
    (hmark : Announced store roots values) (hroots : ∀ u, roots u → u ≠ scope.id)
    (hmem : scope ∈ store.scopes) (hmem' : scope ∈ later.scopes)
    (hcount : later.isUnreachable 1 (functionsAmong values) scope = true) : t ≠ scope.id := by
  obtain ⟨-, hparent, hdecl⟩ := hlater.alone_of_isUnreachable hmem' (Nat.le_refl 1) hcount
  induction hr with
  | root hu => exact hroots _ hu
  | held hf =>
    intro hs
    have hnone := (hdecl (hmark scope hmem (.inl ⟨_, hf, hs⟩))).1
    have hin := mem_functionsAmong.mpr ⟨hf, hs⟩
    rw [hnone] at hin
    cases hin
  | parent hr hc hp ih =>
    rintro rfl
    exact hparent _ (hkept _ ⟨hc, hr⟩) hp
  | @bound c f s hr hc hf ih =>
    rintro rfl
    have hb := bindsFunctionOf_iff.mpr ⟨f, hf⟩
    have hd := hmark scope hmem (.inr ⟨c, hc, hr, hb⟩)
    have hne : c ≠ scope := fun heq => ih (by rw [heq])
    rw [(hdecl hd).2 c (hkept c ⟨hc, hr⟩) hne] at hb
    exact absurd hb (by decide)

/-- Dropping the bindings of a scope that nobody can reach changes nothing that is reached. -/
theorem Kept.mem_release {s : ScopeId} (hk : Kept store roots values scope)
    (hlater : later.Ordered) (hsub : ∀ c ∈ later.scopes, c ∈ store.scopes)
    (hkept : ∀ c, Kept store roots values c → c ∈ later.scopes)
    (hmark : Announced store roots values) (hroots : ∀ t, roots t → t ≠ s) :
    scope ∈ (later.release 1 (functionsAmong values) s).2.scopes := by
  rcases release_cases (functionsAmong values) s later 1 with heq | ⟨left, hleft, hcount, heq⟩
  · rw [heq]
    exact hkept scope hk
  · obtain ⟨hmem, rfl⟩ := hlater.scope?_eq_some_iff.mp hleft
    have hne := hk.2.ne_of_isUnreachable hlater hkept hmark hroots (hsub left hmem) hmem hcount
    rw [heq]
    refine hlater.mem_update.mpr ⟨scope, hkept scope hk, ?_⟩
    rw [if_neg hne]

end Keeping

theorem leaveUnreleased_retains : Leaving.Retains leaveUnreleased where
  ordered held s h := (h.vacate s).settle held
  nextScope _ _ _ := rfl
  nextFunction _ _ _ := rfl
  vacated {store held s t} ht := List.mem_cons.mp ((store.vacate s).settle_vacated_subset held ht)
  keeps {store values s roots} h hroots hmark scope hk := by
    refine hk.mem_settle (h.vacate s) (fun c hc => hc.1) hmark fun t ht hin => ?_
    rcases List.mem_cons.mp hin with rfl | hin
    · exact (hroots t ht).1 rfl
    · exact (hroots t ht).2 hin

/-- **Leaving a scope takes nothing from anyone else.** -/
theorem leave_retains : Leaving.Retains leave where
  ordered held s h := (((h.settle held).release held s 1).vacate s).settle held
  nextScope store held s := (release_nextScope held s (store.settle held) 1).1
  nextFunction store held s := (release_nextScope held s (store.settle held) 1).2.1
  vacated {store held s t} ht := by
    refine (List.mem_cons.mp (settle_vacated_subset held _ ht)).imp_right fun hin => ?_
    rw [(release_nextScope held s (store.settle held) 1).2.2] at hin
    exact store.settle_vacated_subset held hin
  keeps {store values s roots} h hroots hmark scope hk := by
    have hswept := h.settle (functionsAmong values)
    have hfirst : ∀ c, Kept store roots values c →
        c ∈ (store.settle (functionsAmong values)).scopes :=
      fun c hc => hc.mem_settle h (fun d hd => hd.1) hmark fun t ht => (hroots t ht).2
    have hsecond : ∀ c, Kept store roots values c →
        c ∈ ((store.settle (functionsAmong values)).release 1 (functionsAmong values) s).2.scopes :=
      fun c hc => hc.mem_release hswept (store.settle_sublist _).subset hfirst hmark
        fun t ht => (hroots t ht).1
    refine hk.mem_settle ((hswept.release _ s 1).vacate s) hsecond hmark fun t ht hin => ?_
    rcases List.mem_cons.mp hin with rfl | hin
    · exact (hroots t ht).1 rfl
    · rw [(release_nextScope _ s _ 1).2.2] at hin
      exact (hroots t ht).2 (store.settle_vacated_subset _ hin)

end Store

end Scripting
