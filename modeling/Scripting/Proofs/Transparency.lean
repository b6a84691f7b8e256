/-
Releasing scopes cannot be noticed.

A session that leaves scopes without releasing them, so that functions declared in a scope keep it
alive for ever, is compared with one that releases them. To a host the two are the same: whatever it
submits, in whatever order with resets between, it sees the same failures, the same
events and the same global names with the same values, and one session takes exactly as many
steps as the other.

Between two submissions the only scope that is worked in is the global one. A reset leaves it, holds
on to nothing, and goes on in a new one.
-/
import Scripting.Proofs.History
import Scripting.Proofs.Lockstep

set_option autoImplicit false

namespace Scripting

/-! ## Sessions with another way of leaving -/

namespace Session

/-- Submit a source text to a machine with another way of leaving scopes. -/
def submitLeaving (leaving : Store.Leaving) (fuel : Nat) (s : Session) (source : String) :
    Option Submission :=
  match s.begin source with
  | .error f => some (s.conclude [] (some f))
  | .ok m =>
    let m := m.runLeaving leaving fuel
    m.result?.map fun _ => s.complete m

/-- Forget everything that was declared, with another way of leaving the old global scope. -/
def resetLeaving (leaving : Store.Leaving) (s : Session) : Session :=
  let (globals, store) := freshGlobals (leaving s.store (fun _ => []) s.globals)
  { s with store := store, globals := globals }

end Session

namespace Engine

/-- What sessions do, with another way of leaving scopes. -/
def leavingBy (leaving : Store.Leaving) : Engine where
  run fuel m := m.runLeaving leaving fuel
  submit := Session.submitLeaving leaving
  reset := Session.resetLeaving leaving

/-- What sessions do, but no scope is ever released. -/
def unreleased : Engine := leavingBy Store.leaveUnreleased

theorem leavingBy_leave : leavingBy Store.leave = standard := by
  have hrun : ∀ fuel (m : Machine), m.runLeaving Store.leave fuel = m.run fuel :=
    fun fuel m => (m.run_eq fuel).symm
  have hsubmit : Session.submitLeaving Store.leave = Session.submit := by
    funext fuel s source
    unfold Session.submitLeaving Session.submit
    cases s.begin source with
    | error f => rfl
    | ok m => simp only [hrun]
  rw [leavingBy, standard, hsubmit]
  congr 1
  funext fuel m
  exact hrun fuel m

end Engine

/-- A program that is started with bonded stores. The one frame there is works in the global
scope. -/
theorem Follows.start {b : Bond} {r : Region} {s : Session} {other : Store}
    (hbond : b.holds r s.store other) (hglobals : r.busy s.globals) {program : List Stmt}
    (hprogram : ∀ stmt ∈ program, ∀ x ∈ stmt.names, b.uses x)
    (hbodies : ∀ f, r.knows f → ∀ stmt ∈ f.body, ∀ x ∈ stmt.names, b.uses x) :
    Follows b s.globals (s.start program) ({ s with store := other }.start program) :=
  ⟨r, other, rfl, ⟨hbond, hglobals,
    List.forall_mem_singleton.mpr (.ofProgram hprogram hglobals fun _ => trivial),
    ⟨fun t ht => (by cases ht), trivial⟩, hbodies⟩, .normal⟩

/-! ## Sessions that can be told apart by their stores only -/

/-- The second session is the first one but for its store, and the stores agree on a region around
the global scope. -/
def Twins (s s' : Session) : Prop :=
  ∃ r other, s' = { s with store := other } ∧ Store.Agree r s.store other ∧ r.busy s.globals

namespace Store.Agree

variable {r : Region} {store other : Store}

theorem bindings (h : Agree r store other) {s : ScopeId} (hs : r.live s) :
    other.bindings s = store.bindings s := by
  obtain ⟨scope, hmem, hother, hid, -⟩ := h.common s hs
  rw [Store.bindings, Store.bindings, h.ordered.scope?_eq_some_iff.mpr ⟨hmem, hid⟩,
    h.otherOrdered.scope?_eq_some_iff.mpr ⟨hother, hid⟩]

/-- Nothing at all is agreed on before the first scope is made. -/
theorem empty : Agree ⟨fun _ => False, fun _ => False, fun _ => False⟩ .empty .empty where
  ordered := ordered_empty
  otherOrdered := ordered_empty
  nextScope := rfl
  nextFunction := rfl
  knowsLive _ hf := hf
  busyLive _ ht := ht
  common _ ht := ht.elim
  vacated _ ht := absurd ht List.not_mem_nil
  otherVacated _ ht := absurd ht List.not_mem_nil

theorem defineBuiltins (h : Agree r store other) (s : ScopeId) :
    Agree r (store.defineBuiltins s) (other.defineBuiltins s) := by
  unfold Store.defineBuiltins
  generalize Builtin.all = builtins
  induction builtins generalizing store other with
  | nil => exact h
  | cons b rest ih => exact ih (h.define s b.name (show r.Knows (.builtin b) from trivial))

/-- A new global scope with the builtins, in both stores. -/
theorem freshGlobals (h : Agree r store other) :
    (Session.freshGlobals other).1 = (Session.freshGlobals store).1 ∧
      Agree (r.withScope (Session.freshGlobals store).1) (Session.freshGlobals store).2
        (Session.freshGlobals other).2 := by
  have hnew : Agree (r.withScope store.nextScope) (store.newScope none).2 (other.newScope none).2 :=
    h.newScope fun p hp => by cases hp
  have hbuiltins := hnew.defineBuiltins store.nextScope
  refine ⟨h.nextScope, ?_⟩
  have hother : (Session.freshGlobals other).2
      = (other.newScope none).2.defineBuiltins other.nextScope := rfl
  rw [hother, h.nextScope]
  exact hbuiltins

end Store.Agree

namespace Twins

variable {s s' : Session}

/-- The store of a session that is its own twin has all that the session uses. -/
theorem inUse (h : Twins s s) : ∃ r, Store.Agree r s.store s.store ∧ r.busy s.globals := by
  obtain ⟨r, other, heq, hagree, hbusy⟩ := h
  have hother : s.store = other := congrArg Session.store heq
  rw [← hother] at hagree
  exact ⟨r, hagree, hbusy⟩

/-- A host sees the same global names with the same values. -/
theorem shownGlobals (h : Twins s s') : s'.shownGlobals = s.shownGlobals := by
  obtain ⟨r, other, rfl, hagree, hbusy⟩ := h
  have hnames : other.names s.globals = s.store.names s.globals := by
    rw [Store.names, Store.names, hagree.bindings (hagree.busyLive _ hbusy)]
  have hget : ∀ name, other.get? s.globals name = s.store.get? s.globals name :=
    fun name => (hagree.get? (hagree.busyLive _ hbusy) name).1
  unfold Session.shownGlobals Session.bindings Session.get?
  dsimp only
  rw [hnames]
  simp only [hget]

theorem setEcho (h : Twins s s') (echo : Bool) : Twins (s.setEcho echo) (s'.setEcho echo) := by
  obtain ⟨r, other, rfl, hagree, hbusy⟩ := h
  exact ⟨r, other, rfl, hagree, hbusy⟩

theorem listen (h : Twins s s') (l : Listener) : Twins (s.listen l) (s'.listen l) := by
  obtain ⟨r, other, rfl, hagree, hbusy⟩ := h
  exact ⟨r, other, rfl, hagree, hbusy⟩

/-- Both sessions start over: of the old stores only the numbering goes on. -/
theorem reset (h : Twins s s') {leaving leaving' : Store.Leaving} (hl : leaving.Retains)
    (hl' : leaving'.Retains) : Twins (s.resetLeaving leaving) (s'.resetLeaving leaving') := by
  obtain ⟨r, other, rfl, hagree, hbusy⟩ := h
  -- The one scope that was worked in is left, and nothing is held.
  have hheld : ∀ v ∈ ([] : List Value), r.Knows v := fun v hv => by cases hv
  obtain ⟨r', hleft, -⟩ := hagree.leaveBoth hl hl'
    (hagree.lt_nextScope (hagree.busyLive _ hbusy)) hheld
  obtain ⟨hglobals, hfresh⟩ := hleft.freshGlobals
  refine ⟨_, _, ?_, hfresh, .inr rfl⟩
  unfold Session.resetLeaving
  dsimp only
  rw [show (fun _ => []) = functionsAmong [] from rfl, hglobals]

/-- Both sessions read a submission alike and set up machines that are in step. -/
theorem begin (h : Twins s s') (source : String) :
    (∃ f, s.begin source = .error f ∧ s'.begin source = .error f) ∨
      ∃ m m', s.begin source = .ok m ∧ s'.begin source = .ok m' ∧
        Follows .agree s.globals m m' := by
  obtain ⟨r, other, rfl, hagree, hbusy⟩ := h
  unfold Session.begin
  cases Session.read source with
  | error f => exact .inl ⟨f, rfl, rfl⟩
  | ok statements =>
    exact .inr ⟨_, _, rfl, rfl, .start (r := r) hagree hbusy (fun _ _ _ _ => trivial)
      fun _ _ _ _ _ _ => trivial⟩

/-- Two machines in step leave behind sessions that can be told apart by their stores only. -/
theorem complete (h : Twins s s') {m m' : Machine} (hm : Follows .agree s.globals m m') :
    Twins (s.complete m).session (s'.complete m').session ∧
      (s'.complete m').failure = (s.complete m).failure ∧
      (s'.complete m').events = (s.complete m).events ∧
      (s'.complete m').heard = (s.complete m).heard := by
  obtain ⟨-, -, rfl, -, -⟩ := h
  obtain ⟨r, other, rfl, hground, -⟩ := hm
  exact ⟨⟨r, other, rfl, hground.bond, hground.baseBusy⟩, rfl, rfl, rfl⟩

/-- Submitting a source text ends in both sessions or in neither, with the same to be seen. -/
theorem submit (h : Twins s s') {leaving leaving' : Store.Leaving} (hl : leaving.Retains)
    (hl' : leaving'.Retains) (fuel : Nat) (source : String) :
    (s.submitLeaving leaving fuel source = none ∧ s'.submitLeaving leaving' fuel source = none) ∨
      ∃ result result', s.submitLeaving leaving fuel source = some result ∧
        s'.submitLeaving leaving' fuel source = some result' ∧
        Twins result.session result'.session ∧ result'.failure = result.failure ∧
        result'.events = result.events ∧ result'.heard = result.heard := by
  unfold Session.submitLeaving
  -- A text that cannot be read runs nothing; otherwise the machines run in step.
  rcases h.begin source with ⟨f, hs, hs'⟩ | ⟨m, m', hs, hs', hm⟩
  · rw [hs, hs']
    obtain ⟨r, other, rfl, hagree, hbusy⟩ := h
    exact .inr ⟨_, _, rfl, rfl, ⟨r, other, rfl, hagree, hbusy⟩, rfl, rfl, rfl⟩
  · rw [hs, hs']
    dsimp only
    have hrun := hm.run fuel (Bond.agree_lasts s.globals hl hl')
    rw [hrun.result?]
    cases (m.runLeaving leaving fuel).result? with
    | none => exact .inl ⟨rfl, rfl⟩
    | some a => exact .inr ⟨_, _, rfl, rfl, h.complete hrun⟩

/-! ## Histories -/

/-- One action. -/
theorem perform (h : Twins s s') {leaving leaving' : Store.Leaving} (hl : leaving.Retains)
    (hl' : leaving'.Retains) (fuel : Nat) (action : Action) :
    ((Engine.leavingBy leaving).perform fuel s action = none ∧
        (Engine.leavingBy leaving').perform fuel s' action = none) ∨
      ∃ seen t t', (Engine.leavingBy leaving).perform fuel s action = some (seen, t) ∧
        (Engine.leavingBy leaving').perform fuel s' action = some (seen, t') ∧ Twins t t' := by
  cases action with
  | submit source =>
    unfold Engine.perform Engine.leavingBy
    dsimp only
    rcases h.submit hl hl' fuel source with ⟨hn, hn'⟩ | ⟨result, result', hr, hr', ht, hf, he, hh⟩
    · rw [hn, hn']
      exact .inl ⟨rfl, rfl⟩
    · rw [hr, hr']
      refine .inr ⟨_, _, _, rfl, ?_, ht⟩
      rw [Option.map_some, hf, he, hh, ht.shownGlobals]
  | setEcho echo =>
    have ht := h.setEcho echo
    refine .inr ⟨_, _, _, rfl, ?_, ht⟩
    rw [Engine.perform, Observation.quiet, ht.shownGlobals]
    rfl
  | listen l =>
    have ht := h.listen l
    refine .inr ⟨_, _, _, rfl, ?_, ht⟩
    rw [Engine.perform, Observation.quiet, ht.shownGlobals]
    rfl
  | reset =>
    have ht := h.reset hl hl'
    refine .inr ⟨_, _, _, rfl, ?_, ht⟩
    rw [Engine.perform, Observation.quiet, Engine.leavingBy]
    dsimp only
    rw [ht.shownGlobals]
    rfl

/-- Any number of actions. -/
theorem performAll (h : Twins s s') {leaving leaving' : Store.Leaving} (hl : leaving.Retains)
    (hl' : leaving'.Retains) (fuel : Nat) (actions : List Action) :
    ((Engine.leavingBy leaving).performAll fuel s actions = none ∧
        (Engine.leavingBy leaving').performAll fuel s' actions = none) ∨
      ∃ seen t t', (Engine.leavingBy leaving).performAll fuel s actions = some (seen, t) ∧
        (Engine.leavingBy leaving').performAll fuel s' actions = some (seen, t') ∧ Twins t t' := by
  induction actions generalizing s s' with
  | nil => exact .inr ⟨[], s, s', rfl, rfl, h⟩
  | cons action actions ih =>
    unfold Engine.performAll
    rcases h.perform hl hl' fuel action with ⟨hn, hn'⟩ | ⟨seen, t, t', hp, hp', ht⟩
    · rw [hn, hn']
      exact .inl ⟨rfl, rfl⟩
    · rw [hp, hp']
      dsimp only
      rcases ih ht with ⟨hn, hn'⟩ | ⟨rest, u, u', hr, hr', hu⟩
      · rw [hn, hn']
        exact .inl ⟨rfl, rfl⟩
      · rw [hr, hr']
        exact .inr ⟨seen :: rest, u, u', rfl, rfl, hu⟩

/-- At every moment of a submission both machines do the same and have the same left to do. -/
theorem watch (h : Twins s s') {leaving leaving' : Store.Leaving} (hl : leaving.Retains)
    (hl' : leaving'.Retains) (source : String) (n : Nat) :
    (Engine.leavingBy leaving').watch s' source n
      = (Engine.leavingBy leaving).watch s source n := by
  unfold Engine.watch Engine.leavingBy
  rcases h.begin source with ⟨f, hs, hs'⟩ | ⟨m, m', hs, hs', hm⟩
  · rw [hs, hs']
  · rw [hs, hs']
    obtain ⟨r, other, heq, -, -⟩ := hm.run n (Bond.agree_lasts s.globals hl hl')
    dsimp only
    rw [heq]
    rfl

/-- Whichever way scopes are left, any actions lead to the same observations and to sessions that
run any submission alike. -/
theorem indistinguishable (h : Twins s s') {leaving leaving' : Store.Leaving}
    (hl : leaving.Retains) (hl' : leaving'.Retains) (fuel : Nat) (actions : List Action) :
    ((Engine.leavingBy leaving).performAll fuel s actions).map (·.1)
        = ((Engine.leavingBy leaving').performAll fuel s' actions).map (·.1) ∧
      ∀ source n,
        ((Engine.leavingBy leaving).performAll fuel s actions).map
            (fun done => (Engine.leavingBy leaving).watch done.2 source n)
          = ((Engine.leavingBy leaving').performAll fuel s' actions).map
            (fun done => (Engine.leavingBy leaving').watch done.2 source n) := by
  rcases h.performAll hl hl' fuel actions with ⟨hn, hn'⟩ | ⟨seen, t, t', hp, hp', ht⟩
  · rw [hn, hn']
    exact ⟨rfl, fun source n => rfl⟩
  · rw [hp, hp']
    refine ⟨rfl, fun source n => ?_⟩
    rw [Option.map_some, Option.map_some, ht.watch hl hl' source n]

end Twins

/-- A new session agrees with itself. -/
theorem Session.new_twins (config : Config) (clock : Nat → Float) :
    Twins (Session.new config clock) (Session.new config clock) :=
  ⟨_, _, rfl, Store.Agree.empty.freshGlobals.2, .inr rfl⟩

/-- **Releasing scopes cannot be noticed.** Any actions on a new session of any configuration, with
any readings of the clock, are performed with the same observations whether scopes are
released or not, and end in as many steps or do not end either way. And if a source text is
submitted after them, then after any number of steps both machines are doing the same and have
the same frames waiting: no look-up and no assignment comes out differently. -/
theorem Session.release_is_invisible (config : Config) (clock : Nat → Float) (fuel : Nat)
    (actions : List Action) :
    (Engine.standard.performAll fuel (Session.new config clock) actions).map (·.1)
        = (Engine.unreleased.performAll fuel (Session.new config clock) actions).map (·.1) ∧
      ∀ source n,
        (Engine.standard.performAll fuel (Session.new config clock) actions).map
            (fun done => Engine.standard.watch done.2 source n)
          = (Engine.unreleased.performAll fuel (Session.new config clock) actions).map
            (fun done => Engine.unreleased.watch done.2 source n) := by
  rw [← Engine.leavingBy_leave, Engine.unreleased]
  exact (Session.new_twins config clock).indistinguishable Store.leave_retains
    Store.leaveUnreleased_retains fuel actions

-- The call leaves a function in `out` that keeps the scope of the call alive, and `f` gets to be
-- bound there. When `out` is given up that scope dies, though it was left long ago; so nobody else
-- knows `f` when the block is left, and the block is released.
example :
    (((Session.new .standard fun _ => 0).submit 100 <|
        "let out fun make() \x7b let y fun set(v) \x7b y = v \x7d out = set set = nil \x7d " ++
          "make()").bind
      (·.session.submit 100 "\x7b fun f() \x7b\x7d out(f) out = nil \x7d")).map
        (·.session.store.scopes.length) = some 1 := by
  decide +kernel

end Scripting
