/-
Sessions in another guise.

A session whose store is put into another guise, and whose clock has been read before, runs programs
in that guise as it runs them as they are. What is told before a failure is the same, a failure is
the same one under other names and at other places, and the session that is left is the session that
would have been left, in the other guise. Its global names correspond, and their values are printed
in the same way.
-/
import Scripting.Proofs.GuisedRuns
import Scripting.Proofs.History

set_option autoImplicit false

namespace Scripting

namespace Session

/-- Run a program that has been read, with at most `fuel` steps; `none` if they are not enough. -/
def runProgram (fuel : Nat) (s : Session) (program : List Stmt) : Option Submission :=
  let m := (s.start program).run fuel
  m.result?.map fun _ => s.complete m

/-- To submit a source text is to run the program that it is read as. -/
theorem submit_eq (fuel : Nat) (s : Session) (source : String) :
    s.submit fuel source =
      match read source with
      | .error f => some (s.conclude [] (some f))
      | .ok program => s.runProgram fuel program := by
  unfold submit begin
  cases read source <;> rfl

theorem shownGlobals_eq (s : Session) :
    s.shownGlobals = (s.store.names s.globals).filterMap fun x =>
      (s.get? x).map fun v => (x, v.text) := by
  unfold Session.shownGlobals bindings
  rw [List.map_filterMap]
  exact List.filterMap_congr fun x _ => Option.map_map ..

end Session

namespace Guise

variable (g : Guise)

/-- The session in another guise. -/
def session (s : Session) : Session where
  config := s.config
  store := g.store s.store
  globals := s.globals + g.scopes
  channel := s.channel
  clock := g.clock s.clock
  readings := s.readings + g.readings.length

/-- The failure in another guise. -/
def failure : Failure → Failure
  | .runtime e => .runtime (g.error e)
  | f => f

/-! ## Programs -/

section Programs

variable {g} (s : Session)

/-- A program starts in another guise, if nothing has been told. -/
theorem start_session (htold : g.told = []) (program : List Stmt) :
    (g.session s).start (program.map g.stmt) = g.machine (s.start program) := by
  have houtput : [] = [] ++ g.told := by rw [htold]; rfl
  exact congrArg (fun output => Machine.reply (.flow .normal)
    [.program (program.map g.stmt) s.config.echo (s.globals + g.scopes)]
    { (g.session s).world with output := output }) houtput

theorem failureOf_machine (m : Machine) :
    Session.failureOf (g.machine m) = (Session.failureOf m).map g.failure := by
  unfold Session.failureOf
  rw [result?_machine]
  cases m.result? with
  | none => rfl
  | some a => cases a <;> rfl

/-- What a machine leaves behind in another guise. -/
theorem complete_session (htold : g.told = []) (m : Machine) :
    (g.session s).complete (g.machine m) =
      (g.session { s with store := m.world.store, readings := m.world.readings }).conclude
        m.world.output.reverse ((Session.failureOf m).map g.failure) := by
  have houtput : (g.machine m).world.output = m.world.output := by
    change m.world.output ++ g.told = _
    rw [htold, List.append_nil]
  unfold Session.complete
  rw [failureOf_machine, houtput]
  rfl

/-- A program is run in another guise: the same machine comes to its result, or none does. -/
theorem runProgram_session (htold : g.told = []) {program : List Stmt} {fuel : Nat}
    (hkeeps : ∀ k < fuel, g.KeepsNext ((s.start program).run k)) :
    (g.session s).runProgram fuel (program.map g.stmt) =
      ((s.start program).run fuel).result?.map fun _ =>
        (g.session s).complete (g.machine ((s.start program).run fuel)) := by
  unfold Session.runProgram
  rw [start_session s htold, run_machine hkeeps]
  dsimp only
  rw [result?_machine, Option.map_map]
  rfl

end Programs

/-! ## New sessions -/

section Fresh

variable {g} (hbuiltin : ∀ b : Builtin, g.name b.name = b.name)

include hbuiltin

theorem defineBuiltins_store (store : Store) (s : ScopeId) :
    (g.store store).defineBuiltins (s + g.scopes) = g.store (store.defineBuiltins s) := by
  unfold Store.defineBuiltins
  induction Builtin.all generalizing store with
  | nil => rfl
  | cons b rest ih =>
    have hfirst : (g.store store).define (s + g.scopes) b.name (.builtin b)
        = g.store (store.define s b.name (.builtin b)) := by
      have hdefine := g.define_store store s b.name (.builtin b)
      rwa [hbuiltin] at hdefine
    rw [List.foldl_cons, List.foldl_cons, hfirst, ih]

theorem freshGlobals_store (store : Store) :
    Session.freshGlobals (g.store store)
      = ((Session.freshGlobals store).1 + g.scopes, g.store (Session.freshGlobals store).2) := by
  have hscope := g.newScope_store store none
  have hbuiltins := defineBuiltins_store hbuiltin (store.newScope none).2 store.nextScope
  exact congrArg (Prod.mk _) ((congrArg (Store.defineBuiltins · _) hscope).trans hbuiltins)

end Fresh

/-! ## Globals -/

section Globals

variable (s : Session)

theorem get?_session (x : String) : (g.session s).get? (g.name x) = (s.get? x).map g.value :=
  g.get?_store s.store s.globals x

theorem keys_session :
    ((g.session s).store.bindings (g.session s).globals).map (·.1)
      = ((s.store.bindings s.globals).map (·.1)).map g.name := by
  have hbindings : (g.session s).store.bindings (g.session s).globals
      = g.bindings (s.store.bindings s.globals) := g.bindings_store s.store s.globals
  rw [hbindings, bindings, List.map_map, List.map_map]
  rfl

/-- What is shown of some global names is the same in another guise. -/
theorem shown_session (names : List String) :
    (names.map g.name).filterMap (fun x => ((g.session s).get? x).map fun v => (x, v.text))
      = (names.filterMap fun x => (s.get? x).map fun v => (x, v.text)).map fun entry =>
          (g.name entry.1, entry.2) := by
  rw [List.filterMap_map, List.map_filterMap]
  refine List.filterMap_congr fun x _ => ?_
  dsimp only [Function.comp_apply]
  rw [get?_session, Option.map_map, Option.map_map]
  refine congrArg (fun f => (s.get? x).map f) (funext fun v => ?_)
  exact congrArg (Prod.mk (g.name x)) (g.text_value v)

/-- The global names correspond, and their values are printed in the same way. -/
theorem shownGlobals_perm :
    (g.session s).shownGlobals.Perm
      (s.shownGlobals.map fun entry => (g.name entry.1, entry.2)) := by
  have hnames : ((g.session s).store.names (g.session s).globals).Perm
      ((s.store.names s.globals).map g.name) := by
    unfold Store.names
    rw [keys_session]
    exact (List.mergeSort_perm _ _).trans ((List.mergeSort_perm _ _).symm.map g.name)
  rw [Session.shownGlobals_eq, Session.shownGlobals_eq, ← shown_session]
  exact hnames.filterMap _

/-- Where names stay as they are, so does their order. -/
theorem shownGlobals_session (hname : g.name = id) :
    (g.session s).shownGlobals = s.shownGlobals := by
  have hnames : (g.session s).store.names (g.session s).globals
      = (s.store.names s.globals).map g.name := by
    unfold Store.names
    rw [keys_session, hname, List.map_id, List.map_id]
  rw [Session.shownGlobals_eq, hnames, shown_session, hname, Session.shownGlobals_eq]
  exact List.map_id _

end Globals

end Guise

end Scripting
