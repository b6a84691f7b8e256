/-
Reset forgets everything but the listeners and the settings.

A reset leaves a lot behind: scopes that refer to each other in a circle, what is left of calls that
failed, and the numbers that were given to scopes and functions. The session that it leaves is a new
one in another guise, with all of that out of reach: everything that is left over has a number from
before. So whatever is done from there on looks as it does in a new session that is given the same
listeners and goes on with the same clock.
-/
import Scripting.Proofs.GuisedSessions
import Scripting.Proofs.LexicalDepth
import Scripting.Proofs.Positions

set_option autoImplicit false

namespace Scripting

/-! ## Guises that only renumber -/

namespace Guise

/-- Names and positions stay, and nothing has been told. -/
structure Renumbers (g : Guise) : Prop where
  name : g.name = id
  place : g.place = id
  told : g.told = []

namespace Renumbers

variable {g : Guise} (h : g.Renumbers)

include h

theorem map_stmt (program : List Stmt) : program.map g.stmt = program := by
  have hstmt : g.stmt = id := by
    funext stmt
    unfold Guise.stmt
    rw [h.name, h.place]
    exact stmt.recast_id
  rw [hstmt, List.map_id]

theorem map_failure (failure : Option Failure) : failure.map g.failure = failure := by
  have hfault : ∀ fault, g.fault fault = fault := by
    intro fault
    cases fault <;> unfold Guise.fault <;> rw [h.name] <;> rfl
  cases failure with
  | none => rfl
  | some f =>
    cases f with
    | runtime e =>
      change some (Failure.runtime ⟨g.fault e.fault, g.place e.position⟩) = _
      rw [hfault, h.place]
      rfl
    | _ => rfl

theorem name_eq (x : String) : g.name x = x := congrFun h.name x

/-- A submission to the session in another guise looks the same. -/
theorem submit_session (s : Session) (fuel : Nat) (source : String) :
    (g.session s).submit fuel source =
      (s.submit fuel source).map fun r => { r with session := g.session r.session } := by
  rw [Session.submit_eq, Session.submit_eq]
  cases Session.read source with
  | error f => rfl
  | ok program =>
    have hkeeps : ∀ k < fuel, g.KeepsNext ((s.start program).run k) :=
      fun _ _ x _ _ _ _ _ => h.name_eq x
    have hrun := runProgram_session s h.told hkeeps
    rw [h.map_stmt] at hrun
    dsimp only
    rw [hrun, Session.runProgram, Option.map_map]
    refine congrArg (Option.map · _) (funext fun _ => ?_)
    rw [complete_session s h.told, h.map_failure]
    rfl

theorem reset_session (s : Session) : (g.session s).reset = g.session s.reset := by
  have hleave : (g.store s.store).leave (fun _ => []) (s.globals + g.scopes)
      = g.store (s.store.leave (fun _ => []) s.globals) :=
    leave_store (fun _ => rfl) s.store s.globals
  -- A new global scope is made in the guise as well, because the builtins keep their names.
  have hfresh := freshGlobals_store (fun b => h.name_eq b.name)
    (s.store.leave (fun _ => []) s.globals)
  rw [← hleave] at hfresh
  exact congrArg (fun fresh : ScopeId × Store =>
    { g.session s with store := fresh.2, globals := fresh.1 }) hfresh

/-- **One action.** -/
theorem perform_session (s : Session) (fuel : Nat) (action : Action) :
    Engine.standard.perform fuel (g.session s) action =
      (Engine.standard.perform fuel s action).map fun done => (done.1, g.session done.2) := by
  have hshown := fun t => g.shownGlobals_session t h.name
  have hquiet : ∀ t, some (Observation.quiet (g.session t), g.session t)
      = some (Observation.quiet t, g.session t) := by
    intro t
    unfold Observation.quiet
    rw [hshown]
  cases action with
  | submit source =>
    change ((g.session s).submit fuel source).map _ = ((s.submit fuel source).map _).map _
    rw [h.submit_session, Option.map_map, Option.map_map]
    refine congrArg (Option.map · _) (funext fun r => ?_)
    dsimp only [Function.comp_apply]
    rw [hshown]
  | setEcho echo => exact hquiet (s.setEcho echo)
  | listen l => exact hquiet (s.listen l)
  | reset =>
    change some (Observation.quiet (g.session s).reset, (g.session s).reset) = _
    rw [h.reset_session]
    exact hquiet s.reset

/-- **Any number of actions.** -/
theorem performAll_session (s : Session) (fuel : Nat) (actions : List Action) :
    Engine.standard.performAll fuel (g.session s) actions =
      (Engine.standard.performAll fuel s actions).map fun done => (done.1, g.session done.2) := by
  induction actions generalizing s with
  | nil => rfl
  | cons action actions ih =>
    -- The first action is in the same guise, and what comes after it starts from there.
    unfold Engine.performAll
    rw [h.perform_session]
    cases Engine.standard.perform fuel s action with
    | none => rfl
    | some done =>
      change (Engine.standard.performAll fuel (g.session done.2) actions).map _ = _
      rw [ih, Option.map_map, Option.map_map]
      rfl

end Renumbers

end Guise

/-! ## What is left over -/

/-- What is in a store has numbers from before, if the levels of its scopes are known and nothing in
it is dead. -/
theorem Laid.leftover {levels : Levels} {declared : List Site} {store : Store}
    (hl : Laid levels store)
    (hf : ∀ v, store.Binds v → v.Meets (Closure.DeclaredAt levels declared))
    (hvacated : ∀ t ∈ store.vacated, t < store.nextScope)
    (halive : Store.removeDead? (fun _ => []) store.vacated [] store.scopes = none) :
    Leftover store.nextScope store.scopes store.vacated := by
  have hlt : ∀ {t : ScopeId} {level : ScopeId × Nat}, levels[t]? = some level →
      t < store.nextScope := by
    intro t level hlevel
    rw [← hl.length]
    exact (List.getElem?_eq_some_iff.mp hlevel).1
  constructor
  · intro scope hscope
    cases hp : scope.parent with
    | none => exact hlt (hl.globals scope hscope hp)
    | some p =>
      obtain ⟨level, -, hlevel⟩ := hl.inner scope hscope p hp
      exact hlt hlevel
  · intro scope hscope p hp
    obtain ⟨level, hlevel, -⟩ := hl.inner scope hscope p hp
    exact hlt hlevel
  · intro scope hscope entry hentry f hfunction
    obtain ⟨site, p, -, -, hlevel⟩ := hf (.function f) ⟨scope, hscope, entry, hentry, hfunction⟩
    exact hlt hlevel
  · exact hvacated
  · exact halive

namespace Session

variable {s : Session}

/-- What is left of the store when the global scope has been left. -/
def remains (s : Session) : Store := s.store.leave (fun _ => []) s.globals

/-- What is left over has numbers from before. -/
abbrev RemainsOld (s : Session) : Prop :=
  Leftover s.remains.nextScope s.remains.scopes s.remains.vacated

/-- A new session with the settings and the listeners of a session, whose clock goes on with the
next reading. -/
def renewed (s : Session) : Session :=
  s.channel.listeners.foldl listen (Session.new s.config fun n => s.clock (s.readings + n))

theorem foldl_listen (s : Session) (listeners : List Listener) :
    listeners.foldl listen s
      = { s with channel := ⟨s.channel.listeners ++ listeners⟩ } := by
  induction listeners generalizing s with
  | nil =>
    rw [List.append_nil]
    rfl
  | cons l rest ih =>
    rw [List.foldl_cons, ih]
    change { s with channel := ⟨(s.channel.listeners ++ [l]) ++ rest⟩ } = _
    rw [List.append_assoc]
    rfl

/-- What has been before a reset. -/
def before (s : Session) (h : s.RemainsOld) : Guise where
  name := id
  name_injective := fun _ _ h => h
  place := id
  scopes := s.remains.nextScope
  functions := s.remains.nextFunction
  older := s.remains.scopes
  vacated := s.remains.vacated
  leftover := h
  told := []
  readings := (List.range s.readings).map s.clock

theorem before_renumbers (h : s.RemainsOld) : (s.before h).Renumbers := ⟨rfl, rfl, rfl⟩

/-- The clock goes on where it was. -/
theorem clock_before (h : s.RemainsOld) :
    (s.before h).clock (fun n => s.clock (s.readings + n)) = s.clock := by
  funext n
  change (((List.range s.readings).map s.clock)[n]?.getD
    (s.clock (s.readings + (n - ((List.range s.readings).map s.clock).length)))) = s.clock n
  rw [List.length_map, List.length_range, List.getElem?_map]
  by_cases hn : n < s.readings
  · rw [List.getElem?_range hn]
    rfl
  · rw [List.getElem?_eq_none (by rw [List.length_range]; omega), Nat.add_sub_cancel' (by omega)]
    rfl

/-- **A reset session is a new one in another guise.** -/
theorem reset_eq_renewed (h : s.RemainsOld) : s.reset = (s.before h).session s.renewed := by
  -- With nothing in it, the store in this guise is what the reset has left.
  have hempty : (s.before h).store .empty = s.remains := by
    change Store.mk _ (0 + _) (0 + _) _ = _
    rw [Nat.zero_add, Nat.zero_add]
    rfl
  have hfresh := Guise.freshGlobals_store (g := s.before h) (fun _ => rfl) .empty
  have hreadings : 0 + (s.before h).readings.length = s.readings := by
    change 0 + ((List.range s.readings).map s.clock).length = _
    rw [List.length_map, List.length_range, Nat.zero_add]
  rw [hempty] at hfresh
  unfold renewed
  rw [foldl_listen]
  change { s with store := (freshGlobals s.remains).2, globals := (freshGlobals s.remains).1 } = _
  rw [hfresh]
  change _ = Session.mk _ _ _ _ ((s.before h).clock fun n => s.clock (s.readings + n))
    (0 + (s.before h).readings.length)
  rw [clock_before, hreadings]
  rfl

/-- What a session that has been used leaves over when it is reset has numbers from before. -/
theorem leftover_of_performAll {config : Config} {clock : Nat → Float} {fuel : Nat}
    {actions : List Action} {seen : List Observation}
    (h : Engine.standard.performAll fuel (Session.new config clock) actions = some (seen, s)) :
    s.RemainsOld := by
  obtain ⟨submitted, declared, hpast⟩ := past_of_performAll h
  obtain ⟨⟨levels, hcharted⟩, -⟩ := hpast.charted
  obtain ⟨r, hagree, hbusy⟩ := hcharted.inUse
  have hlaid := hcharted.laid.of_outlines (s.store.outlines_leave (fun _ => []) s.globals)
  refine hlaid.leftover (fun v hv => hcharted.functions v hv.of_leave) (fun t ht => ?_)
    (Store.removeDead?_sweepFrom _ _ _)
  rw [Store.leave_retains.nextScope]
  -- The scopes that have been left are the global one and those from earlier programs.
  rcases Store.leave_retains.vacated ht with rfl | hin
  · exact hagree.lt_nextScope (hagree.busyLive _ hbusy)
  · exact (hagree.vacated t hin).1

/-- **Reset forgets everything but the listeners and the settings.** Whatever has been done with a
session, once it is reset it shows the same globals as a new session with its settings and its
listeners whose clock goes on where it was. And whatever is done next, with any bound on the steps,
the same is seen of every action: the same failure, the same events, told to the same listeners, and
the same globals. -/
theorem reset_forgets {config : Config} {clock : Nat → Float} {fuel : Nat}
    {actions : List Action} {seen : List Observation}
    (h : Engine.standard.performAll fuel (Session.new config clock) actions = some (seen, s)) :
    s.reset.shownGlobals = s.renewed.shownGlobals ∧
      ∀ (bound : Nat) (following : List Action),
        (Engine.standard.performAll bound s.reset following).map (·.1)
          = (Engine.standard.performAll bound s.renewed following).map (·.1) := by
  have hleftover := leftover_of_performAll h
  have hrenumbers := before_renumbers hleftover
  rw [reset_eq_renewed hleftover]
  refine ⟨Guise.shownGlobals_session _ _ hrenumbers.name, fun bound following => ?_⟩
  rw [hrenumbers.performAll_session, Option.map_map]
  rfl

/-- A listener, a function that is in a circle with its scope, a call that goes too deep, and an
error inside of a block. -/
def spoiling : List Action :=
  [.listen (.plain "a"), .submit "fun f() \x7b let g = f\n return f() \x7d", .submit "f()",
    .submit "let x = 1\n\x7b let y = f\n z \x7d"]

/-- Both failures are forgotten, and so is what they left behind. -/
theorem reset_forgets_spoiling :
    ∃ seen s, Engine.standard.performAll 200 (Session.new ⟨true, 3⟩ fun _ => 0) spoiling
        = some (seen, s) ∧
      seen.map (·.failure.isSome) = [false, false, true, true] ∧
      s.reset.shownGlobals = s.renewed.shownGlobals ∧
      ∀ bound following,
        (Engine.standard.performAll bound s.reset following).map (·.1)
          = (Engine.standard.performAll bound s.renewed following).map (·.1) := by
  have hended : (Engine.standard.performAll 200 (Session.new ⟨true, 3⟩ fun _ => 0) spoiling).any
      (fun done => done.1.map (·.failure.isSome) == [false, false, true, true]) = true := by
    decide +kernel
  obtain ⟨⟨seen, s⟩, hrun, hfailures⟩ := (Option.any_eq_true _ _).mp hended
  exact ⟨seen, s, hrun, beq_iff_eq.mp hfailures, reset_forgets hrun⟩

end Session

end Scripting
