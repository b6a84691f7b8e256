/-
Local code binds nothing outside.

A run makes scopes of its own, for the blocks that it enters and the calls that it makes. It binds
names in these, and it leaves these. In a scope that was there before, the only thing that an
expression, a block or a call can do is to assign to a name that is bound already. This is a matter
of where the machine is about to declare something: in the scopes of the run, or not at all. So what
is carried along a run, besides the numbers of the scopes that it may bind names in, is that
whatever runs in an older scope is tame. A statement that is a declaration itself is the one
exception; it binds its name as its last step.

An older scope can be gone afterwards, as an assignment may have taken the last function that
referred to it. But that is a scope that had been left before: those that somebody works in stay.
-/
import Mathlib.Data.List.Forall2
import Scripting.Proofs.Jobs
import Scripting.Proofs.Nesting
import Scripting.Proofs.Provenance

set_option autoImplicit false

namespace Scripting

/-- Lists that are related one by one, by way of a third. -/
theorem forall₂_trans {α β γ : Type} {R : α → β → Prop} {S : β → γ → Prop} {T : α → γ → Prop}
    (h : ∀ a b c, R a b → S b c → T a c) {as : List α} {bs : List β} {cs : List γ}
    (hab : List.Forall₂ R as bs) (hbc : List.Forall₂ S bs cs) : List.Forall₂ T as cs := by
  induction hab generalizing cs with
  | nil =>
    cases hbc
    exact .nil
  | cons hr _ ih =>
    cases hbc with
    | cons hs hrest => exact .cons (h _ _ _ hr hs) (ih hrest)

/-- What is on the left of such lists has something on the right. -/
theorem forall₂_mem_left {α β : Type} {R : α → β → Prop} {as : List α} {bs : List β}
    (h : List.Forall₂ R as bs) {a : α} (ha : a ∈ as) : ∃ b ∈ bs, R a b := by
  induction h with
  | nil => cases ha
  | cons hr _ ih =>
    rcases List.mem_cons.mp ha with rfl | hin
    · exact ⟨_, List.mem_cons_self, hr⟩
    · obtain ⟨b, hb, hab⟩ := ih hin
      exact ⟨b, List.mem_cons_of_mem _ hb, hab⟩

/-! ## Scopes that keep their names -/

/-- The same scope at a later time: it binds the same names, and only names that were `touched` may
have other values. -/
structure Scope.Like (touched : String → Prop) (scope later : Scope) : Prop where
  id : later.id = scope.id
  parent : later.parent = scope.parent
  bindings : List.Forall₂
    (fun before after => after.1 = before.1 ∧ (after.2 = before.2 ∨ touched before.1))
    scope.bindings later.bindings

namespace Scope.Like

variable {touched more : String → Prop} {scope later last : Scope}

theorem refl (touched : String → Prop) (scope : Scope) : Like touched scope scope :=
  ⟨rfl, rfl, List.forall₂_same.mpr fun _ _ => ⟨rfl, .inl rfl⟩⟩

theorem mono (h : Like touched scope later) (hsub : ∀ name, touched name → more name) :
    Like more scope later :=
  ⟨h.id, h.parent, h.bindings.imp fun _ _ ⟨hname, hvalue⟩ => ⟨hname, hvalue.imp_right (hsub _)⟩⟩

theorem trans (h : Like touched scope later) (h' : Like touched later last) :
    Like touched scope last := by
  refine ⟨h'.id.trans h.id, h'.parent.trans h.parent, ?_⟩
  refine forall₂_trans ?_ h.bindings h'.bindings
  rintro x y z ⟨hxy, hvalue⟩ ⟨hyz, hvalue'⟩
  refine ⟨hyz.trans hxy, ?_⟩
  rcases hvalue' with heq | ht
  · rw [heq]
    exact hvalue
  · rw [hxy] at ht
    exact .inr ht

/-- A name that is bound gets another value. -/
theorem set {name : String} (h : scope.bindings.binds name = true) (v : Value) :
    Like (· = name) scope { scope with bindings := scope.bindings.set name v } := by
  refine ⟨rfl, rfl, ?_⟩
  dsimp only
  generalize scope.bindings = b at h
  induction b with
  | nil => cases h
  | cons entry rest ih =>
    obtain ⟨n, u⟩ := entry
    rw [Bindings.set]
    by_cases hn : n = name
    · rw [if_pos hn]
      refine .cons ⟨rfl, .inr hn⟩ ?_
      exact List.forall₂_same.mpr fun _ _ => ⟨rfl, .inl rfl⟩
    · rw [if_neg hn]
      rw [Bindings.binds, Bindings.get?, if_neg hn] at h
      exact .cons ⟨rfl, .inl rfl⟩ (ih h)

end Scope.Like

namespace Store

/-- Of the scopes numbered below `n`, those that somebody worked in are still there, and each that
is there has kept its names. None of them has been left. -/
structure Keeps (n : ScopeId) (touched : String → Prop) (store later : Store) : Prop where
  like : ∀ after ∈ later.scopes, after.id < n → ∃ scope ∈ store.scopes, scope.Like touched after
  stays : ∀ scope ∈ store.scopes, scope.id < n → scope.id ∉ store.vacated →
    ∃ after ∈ later.scopes, after.id = scope.id
  vacated : ∀ t ∈ later.vacated, t < n → t ∈ store.vacated

variable {n s : ScopeId} {touched more : String → Prop} {store later last : Store}

/-- Where nothing happens to the older scopes but that some of those which had been left go. -/
theorem keeps_of_subset (touched : String → Prop)
    (hold : ∀ scope ∈ later.scopes, scope.id < n → scope ∈ store.scopes)
    (hstays : ∀ scope ∈ store.scopes, scope.id < n → scope.id ∉ store.vacated →
      scope ∈ later.scopes)
    (hvacated : ∀ t ∈ later.vacated, t < n → t ∈ store.vacated) : store.Keeps n touched later where
  like after hafter hlt := ⟨after, hold after hafter hlt, .refl touched after⟩
  stays scope hscope hlt hoccupied := ⟨scope, hstays scope hscope hlt hoccupied, rfl⟩
  vacated := hvacated

theorem Keeps.refl (n : ScopeId) (touched : String → Prop) (store : Store) :
    store.Keeps n touched store :=
  keeps_of_subset touched (fun _ h _ => h) (fun _ h _ _ => h) fun _ h _ => h

theorem Keeps.mono (h : store.Keeps n touched later) (hsub : ∀ name, touched name → more name) :
    store.Keeps n more later where
  like after hafter hlt := by
    obtain ⟨scope, hscope, hlike⟩ := h.like after hafter hlt
    exact ⟨scope, hscope, hlike.mono hsub⟩
  stays := h.stays
  vacated := h.vacated

theorem Keeps.trans (h : store.Keeps n touched later) (h' : later.Keeps n touched last) :
    store.Keeps n touched last where
  like after hafter hlt := by
    obtain ⟨between, hbetween, hlast⟩ := h'.like after hafter hlt
    obtain ⟨scope, hscope, hlater⟩ := h.like between hbetween (hlast.id ▸ hlt)
    exact ⟨scope, hscope, hlater.trans hlast⟩
  stays scope hscope hlt hoccupied := by
    obtain ⟨between, hbetween, hid⟩ := h.stays scope hscope hlt hoccupied
    have hstill : between.id ∉ later.vacated :=
      fun hin => hoccupied (hid ▸ h.vacated _ hin (hid ▸ hlt))
    obtain ⟨after, hafter, hid'⟩ := h'.stays between hbetween (hid ▸ hlt) hstill
    exact ⟨after, hafter, hid'.trans hid⟩
  vacated t ht hlt := h.vacated t (h'.vacated t ht hlt) hlt

/-! ### Changes to younger scopes -/

/-- A change of a younger scope is not seen among the older ones. -/
theorem keeps_update (touched : String → Prop) (store : Store) (hs : n ≤ s) {f : Scope → Scope}
    (hid : ∀ scope, (f scope).id = scope.id) : store.Keeps n touched (store.update s f) := by
  refine keeps_of_subset touched (fun scope hscope hlt => ?_) (fun scope hscope hlt _ => ?_)
    fun _ h _ => h
  · rcases mem_updateIn hscope with hold | ⟨old, -, rfl, rfl⟩
    · exact hold
    · rw [hid] at hlt
      exact absurd hlt (Nat.not_lt.mpr hs)
  · exact mem_updateIn_of_ne hscope fun heq => Nat.not_lt.mpr hs (heq ▸ hlt)

theorem keeps_define (touched : String → Prop) (store : Store) (hs : n ≤ s) (name : String)
    (v : Value) : store.Keeps n touched (store.define s name v) :=
  store.keeps_update touched hs fun _ => rfl

theorem keeps_newFunction (touched : String → Prop) (store : Store) (hs : n ≤ s) (name : String)
    (parameters : List String) (body : List Stmt) :
    store.Keeps n touched (store.newFunction s name parameters body).2 := by
  have hmark := store.keeps_update touched hs
    (f := fun scope => { scope with declares := true }) fun _ => rfl
  exact ⟨hmark.like, hmark.stays, hmark.vacated⟩

theorem keeps_newScope (touched : String → Prop) (store : Store) (hn : n ≤ store.nextScope)
    (parent : Option ScopeId) : store.Keeps n touched (store.newScope parent).2 := by
  refine keeps_of_subset touched (fun scope hscope hlt => ?_)
    (fun scope hscope _ _ => List.mem_cons_of_mem _ hscope) fun _ h _ => h
  rcases List.mem_cons.mp hscope with rfl | hold
  · exact absurd hlt (Nat.not_lt.mpr hn)
  · exact hold

theorem keeps_bindParameters (touched : String → Prop) (store : Store) (hs : n ≤ s)
    (parameters : List String) (arguments : List Value) :
    store.Keeps n touched (Machine.bindParameters store s parameters arguments) := by
  rw [Machine.bindParameters]
  induction parameters.zip arguments generalizing store with
  | nil => exact .refl n touched store
  | cons pair rest ih =>
    rw [List.foldl_cons]
    exact (store.keeps_define touched hs _ _).trans (ih _)

theorem nextScope_bindParameters (parameters : List String) (arguments : List Value)
    (store : Store) :
    (Machine.bindParameters store s parameters arguments).nextScope = store.nextScope := by
  rw [Machine.bindParameters]
  induction parameters.zip arguments generalizing store with
  | nil => rfl
  | cons pair rest ih =>
    rw [List.foldl_cons, ih]
    rfl

/-- With a younger scope, only older scopes that had been left can go. -/
theorem keeps_leave (touched : String → Prop) (store : Store) (hs : n ≤ s)
    (held : ScopeId → List Closure) : store.Keeps n touched (store.leave held s) := by
  refine keeps_of_subset touched (fun scope hscope hlt => ?_)
    (fun scope hscope hlt hoccupied => ?_) fun t ht hlt => ?_
  · rcases mem_leave held s hscope with hold | ⟨old, -, rfl, rfl⟩
    · exact hold
    · exact absurd hlt (Nat.not_lt.mpr hs)
  · exact mem_leave_of_ne held s hscope (fun heq => Nat.not_lt.mpr hs (heq ▸ hlt)) hoccupied
  · rcases leave_retains.vacated ht with rfl | hin
    · exact absurd hlt (Nat.not_lt.mpr hs)
    · exact hin

/-! ### Assigning -/

/-- Assigning changes the value of a name that is bound, and nothing else. -/
theorem like_assign? {name : String} {v : Value} (h : store.assign? s name v = some later) :
    List.Forall₂ (Scope.Like (· = name)) store.scopes later.scopes := by
  have key : ∀ {scopes scopes' : List Scope} {s : ScopeId},
      assignIn name v scopes s = some scopes' →
      List.Forall₂ (Scope.Like (· = name)) scopes scopes' := by
    intro scopes
    induction scopes with
    | nil => exact nofun
    | cons head older ih =>
      intro scopes' s h
      have hpass : ∀ t, (assignIn name v older t).map (head :: ·) = some scopes' →
          List.Forall₂ (Scope.Like (· = name)) (head :: older) scopes' := by
        intro t ht
        obtain ⟨rest, hrest, rfl⟩ := Option.map_eq_some_iff.mp ht
        exact .cons (.refl _ head) (ih hrest)
      rw [assignIn] at h
      split at h
      · split at h
        · next hbinds =>
          cases h
          exact .cons (.set hbinds v) (List.forall₂_same.mpr fun scope _ => .refl _ scope)
        · split at h
          · exact hpass _ h
          · cases h
      · exact hpass _ h
  obtain ⟨scopes', hin, rfl⟩ := Option.map_eq_some_iff.mp h
  exact key hin

theorem keeps_assign? {name : String} {v : Value} (h : store.assign? s name v = some later) :
    store.Keeps n (· = name) later := by
  have hlike := like_assign? h
  obtain ⟨scopes, -, rfl⟩ := Option.map_eq_some_iff.mp h
  refine ⟨fun after hafter _ => ?_, fun scope hscope _ _ => ?_, fun _ ht _ => ht⟩
  · exact forall₂_mem_left hlike.flip hafter
  · obtain ⟨after, hafter, hsame⟩ := forall₂_mem_left hlike hscope
    exact ⟨after, hafter, hsame.id⟩

end Store

/-! ## What a machine is about to bind -/

/-- Whether running code in a scope binds nothing there. -/
def Code.isTame : Code → Bool
  | .statement stmt => stmt.isTame
  | .expression _ => true

theorem Code.isTame_of_part {code part : Code} (h : code.isTame = true)
    (hpart : part ∈ code.parts) : part.isTame = true := by
  cases part with
  | expression e => rfl
  | statement stmt =>
    cases code with
    | expression e => cases e <;> simp [Code.parts] at hpart
    | statement outer =>
      cases outer with
      | cond test yes no p =>
        simp only [Code.parts, List.mem_cons, reduceCtorEq, Code.statement.injEq, List.mem_map,
          Option.mem_toList, false_or, exists_eq_right] at hpart
        rw [Code.isTame, Stmt.isTame, Bool.and_eq_true] at h
        rcases hpart with rfl | rfl
        · exact h.1
        · exact h.2
      | loop test body p =>
        simp only [Code.parts, List.mem_cons, reduceCtorEq, Code.statement.injEq, List.not_mem_nil,
          false_or, or_false] at hpart
        subst hpart
        exact h
      | _ => simp [Code.parts] at hpart

/-- What is run binds names in scopes from number `n` on only, and only such scopes are left. -/
def Bounds.inward (n : ScopeId) : Bounds where
  runs code s := n ≤ s ∨ code.isTame = true
  leaves s := n ≤ s

theorem Bounds.inward_suits {n : ScopeId} {store : Store} (hn : n ≤ store.nextScope) :
    (inward n).Suits store where
  part h hpart := h.imp_right fun htame => Code.isTame_of_part htame hpart
  raised _ _ := trivial
  block _ _ _ := .inl hn
  called _ _ _ := .inl hn
  works := trivial
  leaves := hn

/-- The name that a frame assigns a value to. -/
def Frame.assigns? : Frame → Option String
  | .assignTo name _ _ => some name
  | _ => none

namespace Machine

/-- A machine that binds names only in scopes from number `n` on. -/
structure Inward (n : ScopeId) (m : Machine) : Prop where
  bounded : m.KeepsTo (.inward n)
  numbers : n ≤ m.world.store.nextScope

/-- The name that the next step assigns a value to. -/
def assigning? (m : Machine) : Option String :=
  match m.control, m.frames with
  | .answer (.value _), frame :: _ => frame.assigns?
  | _, _ => none

/-- The names that are assigned to in the first `k` steps. -/
def Assigned (m : Machine) (k : Nat) (name : String) : Prop :=
  ∃ i < k, (m.run i).assigning? = some name

/-! ## Steps -/

/-- **What is bound is bound in younger scopes**, and an older one is changed only by an assignment,
which gives a bound name another value. -/
theorem perform_keeps {n : ScopeId} {effect : Effect} (touched : String → Prop) {w : World}
    (frames : List Frame) (he : effect.KeepsTo (.inward n)) (hn : n ≤ w.store.nextScope)
    (htouched : ∀ name v p s, effect = .assign name v p s → touched name) :
    w.store.Keeps n touched (perform Store.leave effect frames w).world.store ∧
      w.store.nextScope ≤ (perform Store.leave effect frames w).world.store.nextScope := by
  have hnext := Nat.le_refl w.store.nextScope
  have hsame := Store.Keeps.refl n touched w.store
  cases effect with
  | proceed control => exact ⟨hsame, hnext⟩
  | lookUp name p s =>
    simp only [perform]
    split <;> exact ⟨hsame, hnext⟩
  | define name v s =>
    obtain ⟨-, -, initial, p, hs | htame⟩ := he
    · exact ⟨w.store.keeps_define touched hs name v, hnext⟩
    · cases htame
  | assign name v p s =>
    simp only [perform]
    split
    · next store hassign =>
      have hkeeps : w.store.Keeps n touched store :=
        (Store.keeps_assign? hassign).mono fun x hx => hx ▸ htouched name v p s rfl
      obtain ⟨scopes, -, rfl⟩ := Option.map_eq_some_iff.mp hassign
      exact ⟨hkeeps, hnext⟩
    · exact ⟨hsame, hnext⟩
  | declare name parameters body s =>
    obtain ⟨-, p, hs | htame⟩ := he
    · exact ⟨(w.store.keeps_newFunction touched hs name parameters body).trans
        (Store.keeps_define touched _ hs name _), hnext⟩
    · cases htame
  | enterBlock body s => exact ⟨w.store.keeps_newScope touched hn _, Nat.le_succ _⟩
  | call f arguments p =>
    rcases call_cases f arguments p w with ⟨r, used, hcall, -, -⟩ | ⟨g, -, -, -, hcall⟩
    · have hcall : call f arguments p frames w = _ := hcall frames w.store
      rw [perform, hcall]
      exact ⟨hsame, hnext⟩
    · have hcall : call f arguments p frames w = _ := hcall frames w.store
      rw [perform, hcall]
      -- The scope of the call is the next one, so the parameters are bound in a younger scope.
      refine ⟨(w.store.keeps_newScope touched hn _).trans
        (Store.keeps_bindParameters touched _ hn g.parameters arguments), ?_⟩
      exact (Store.nextScope_bindParameters g.parameters arguments _).symm ▸ Nat.le_succ _
  | tell event => exact ⟨hsame, hnext⟩
  | leaveBlock a s =>
    exact ⟨w.store.keeps_leave touched he.2.1 _,
      (Store.leave_retains.nextScope w.store _ s).symm ▸ hnext⟩
  | leaveCall a s =>
    exact ⟨w.store.keeps_leave touched he.2.1 _,
      (Store.leave_retains.nextScope w.store _ s).symm ▸ hnext⟩

/-- **One step.** -/
theorem Inward.step {n : ScopeId} {m : Machine} (h : m.Inward n) :
    m.step.Inward n ∧
      m.world.store.Keeps n (fun name => m.assigning? = some name) m.step.world.store := by
  have hbounded := h.bounded.step (Bounds.inward_suits h.numbers) fun _ _ _ _ _ _ => trivial
  have hkeeps : m.world.store.Keeps n (fun name => m.assigning? = some name) m.step.world.store ∧
      m.world.store.nextScope ≤ m.step.world.store.nextScope := by
    rw [step_eq]
    rcases m.stepLeaving_cases with ⟨mv, below, hmoves, hstep⟩ | ⟨-, hstep⟩
    · rw [hstep]
      obtain ⟨hmv, -⟩ := hmoves.keepsTo (Bounds.inward_suits h.numbers).toSealed h.bounded.control
        h.bounded.frames
      refine perform_keeps _ _ hmv.effect h.numbers fun name v p s he => ?_
      obtain ⟨hcontrol, hframes⟩ := hmoves.of_assign he
      rw [assigning?, hcontrol, hframes]
      rfl
    · rw [hstep]
      exact ⟨.refl .., Nat.le_refl _⟩
  exact ⟨⟨hbounded, Nat.le_trans h.numbers hkeeps.2⟩, hkeeps.1⟩

/-- **A whole run.** -/
theorem Inward.run {n : ScopeId} {m : Machine} (h : m.Inward n) (k : Nat) :
    m.world.store.Keeps n (m.Assigned k) (m.run k).world.store := by
  induction k generalizing m with
  | zero => exact .refl ..
  | succ k ih =>
    obtain ⟨hinward, hkeeps⟩ := h.step
    rw [run_succ]
    refine (hkeeps.mono fun name hname => ?_).trans ((ih hinward).mono ?_)
    · exact ⟨0, Nat.succ_pos k, hname⟩
    · rintro name ⟨i, hi, hname⟩
      refine ⟨i + 1, Nat.succ_lt_succ hi, ?_⟩
      rw [run_succ]
      exact hname

/-! ## Jobs over other frames -/

end Machine

/-! ## Jobs and statements -/

/-- Expressions, blocks and calls. -/
def Job.isLocal : Job → Bool
  | .execute .. => false
  | _ => true

/-- What a job begins with. -/
def Job.effect : Job → Effect
  | .evaluate e s => .proceed (.evaluate e s)
  | .execute stmt s => .proceed (.execute stmt s)
  | .block body s => .enterBlock body s
  | .call f arguments p => .call f arguments p

theorem Job.start_eq (job : Job) (frames : List Frame) (w : World) :
    job.start frames w = Machine.perform Store.leave job.effect frames w := by
  cases job <;> rfl

/-- A job that is local, or a tame statement, binds nothing outside. -/
theorem Job.effect_keepsTo (job : Job) (n : ScopeId)
    (h : ∀ stmt s, job = .execute stmt s → stmt.isTame = true) :
    job.effect.KeepsTo (.inward n) := by
  have hvalues : ∀ v : Value, v.Meets (Bounds.inward n).knows :=
    fun v => v.meets_of_forall fun _ => trivial
  cases job with
  | evaluate e s => exact ⟨trivial, .inr rfl⟩
  | execute stmt s => exact ⟨trivial, .inr (h stmt s rfl)⟩
  | block body s => exact ⟨trivial, .start, .inr rfl⟩
  | call f arguments p =>
    refine ⟨hvalues f, fun v _ => hvalues v, .var "" p, arguments.map fun _ => .var "" p, 0,
      .inr rfl, List.length_map _⟩

/-- **A local job, or a tame statement, keeps the names of all scopes that were there before.** -/
theorem Job.keeps (job : Job) (w : World)
    (h : ∀ stmt s, job = .execute stmt s → stmt.isTame = true) (k : Nat) :
    w.store.Keeps w.store.nextScope ((job.start [] w).Assigned k)
      ((job.start [] w).run k).world.store := by
  have hn := Nat.le_refl w.store.nextScope
  have hvalues : ∀ store : Store, ∀ v, store.Binds v →
      v.Meets (Bounds.inward w.store.nextScope).knows :=
    fun _ v _ => v.meets_of_forall fun _ => trivial
  have heffect := job.effect_keepsTo w.store.nextScope h
  have hnone : ∀ frame ∈ ([] : List Frame), frame.KeepsTo (.inward w.store.nextScope) :=
    fun frame hf => absurd hf List.not_mem_nil
  obtain ⟨hcontrol, hframes⟩ := Machine.perform_keepsTo (Bounds.inward_suits hn) heffect hnone
    (hvalues w.store)
  obtain ⟨hkeeps, hnext⟩ := Machine.perform_keeps ((job.start [] w).Assigned k) [] heffect hn
    fun name v p s heq => by cases job <;> cases heq
  rw [← job.start_eq] at hcontrol hframes hkeeps hnext
  exact hkeeps.trans (Machine.Inward.run ⟨⟨hcontrol, hframes, hvalues _⟩, hnext⟩ k)

end Scripting
