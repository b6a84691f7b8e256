/-
What a host does with a session, and what it gets to see.

A host submits source texts, turns the echo on or off, adds listeners and resets the session. What
it sees of each of these *actions* is an *observation*: the failure that ended a submission, the
events it led to, who was told of them, and the global names with their values as they
are printed.

The parts of a session that run programs and that start over are collected in an *engine*, so that
the same actions can be performed with different ones. `Engine.standard` is what sessions
do.
-/
import Scripting.Session

set_option autoImplicit false

namespace Scripting

/-- What a host can do with a session. -/
inductive Action where
  | submit (source : String)
  | setEcho (echo : Bool)
  | listen (l : Listener)
  | reset

/-- What a host sees of an action. -/
structure Observation where
  failure : Option Failure
  events : List Event
  heard : List (String × Event)
  /-- The global names afterwards, with their values as they are printed. -/
  globals : List (String × String)

/-- The global names with their values as they are printed. -/
def Session.shownGlobals (s : Session) : List (String × String) :=
  s.bindings.map fun (name, v) => (name, v.text)

/-- What can be seen of an action that runs nothing. -/
def Observation.quiet (s : Session) : Observation := ⟨none, [], [], s.shownGlobals⟩

/-- How programs run and how a session starts over. -/
structure Engine where
  run : (fuel : Nat) → Machine → Machine
  submit : (fuel : Nat) → Session → (source : String) → Option Submission
  reset : Session → Session

namespace Engine

/-- What sessions do. -/
def standard : Engine := ⟨Machine.run, Session.submit, Session.reset⟩

/-- Perform an action, with at most `fuel` steps to run a submission. -/
def perform (engine : Engine) (fuel : Nat) (s : Session) : Action → Option (Observation × Session)
  | .submit source =>
    (engine.submit fuel s source).map fun result =>
      (⟨result.failure, result.events, result.heard, result.session.shownGlobals⟩, result.session)
  | .setEcho echo => some (.quiet (s.setEcho echo), s.setEcho echo)
  | .listen l => some (.quiet (s.listen l), s.listen l)
  | .reset => some (.quiet (engine.reset s), engine.reset s)

/-- Perform actions one after the other; `none` if one of them did not end within `fuel` steps. -/
def performAll (engine : Engine) (fuel : Nat) :
    Session → List Action → Option (List Observation × Session)
  | s, [] => some ([], s)
  | s, action :: actions =>
    match engine.perform fuel s action with
    | none => none
    | some (seen, s) => (engine.performAll fuel s actions).map fun (rest, s) => (seen :: rest, s)

/-- What every action keeps, any number of actions keep. -/
theorem performAll_keeps {engine : Engine} {fuel : Nat} {P : Session → Prop}
    (hone : ∀ s action seen t, P s → engine.perform fuel s action = some (seen, t) → P t)
    {s t : Session} {actions : List Action} {seen : List Observation}
    (h : engine.performAll fuel s actions = some (seen, t)) (hs : P s) : P t := by
  induction actions generalizing s seen with
  | nil =>
    cases h
    exact hs
  | cons action actions ih =>
    unfold performAll at h
    cases hfirst : engine.perform fuel s action with
    | none =>
      rw [hfirst] at h
      cases h
    | some done =>
      rw [hfirst] at h
      obtain ⟨⟨rest, t'⟩, hrest, heq⟩ := Option.map_eq_some_iff.mp h
      cases heq
      exact ih hrest (hone s action done.1 done.2 hs hfirst)

/-- What the machine is doing and what waits, `n` steps into a submission; `none` if the source text
cannot be read. -/
def watch (engine : Engine) (s : Session) (source : String) (n : Nat) :
    Option (Control × List Frame) :=
  match s.begin source with
  | .error _ => none
  | .ok m => some ((engine.run n m).control, (engine.run n m).frames)

end Engine

/-! ## What a submission can come to -/

namespace Session

/-- The machine that runs a program that has been read. -/
def start (s : Session) (program : List Stmt) : Machine :=
  .ofProgram program s.config.echo s.globals s.world

/-- Reading a submission fails at one of two stages, or sets a machine up. -/
theorem begin_cases (s : Session) (source : String) :
    (∃ e, tokenize source = .error e ∧ s.begin source = .error (.lex e)) ∨
      (∃ lexemes e, tokenize source = .ok lexemes ∧ Grammar.parse lexemes = .error e ∧
        s.begin source = .error (.parse e)) ∨
      ∃ lexemes statements, tokenize source = .ok lexemes ∧
        Grammar.parse lexemes = .ok statements ∧
        s.begin source = .ok (.ofProgram statements s.config.echo s.globals s.world) := by
  unfold begin read
  cases tokenize source with
  | error e => exact .inl ⟨e, rfl, rfl⟩
  | ok lexemes =>
    right
    dsimp only
    cases hparse : Grammar.parse lexemes with
    | error e => exact .inl ⟨lexemes, e, rfl, hparse, rfl⟩
    | ok statements => exact .inr ⟨lexemes, statements, rfl, hparse, rfl⟩

theorem begin_eq_ok {s : Session} {source : String} {m : Machine} (h : s.begin source = .ok m) :
    ∃ lexemes statements, tokenize source = .ok lexemes ∧ Grammar.parse lexemes = .ok statements ∧
      m = .ofProgram statements s.config.echo s.globals s.world := by
  rcases s.begin_cases source with ⟨e, -, hbegin⟩ | ⟨lexemes, e, -, -, hbegin⟩ |
    ⟨lexemes, statements, hlex, hparse, hbegin⟩ <;> rw [hbegin] at h <;> cases h
  exact ⟨lexemes, statements, hlex, hparse, rfl⟩

/-- A submission that ends could not be read, or its machine came to a result. -/
theorem submit_eq_some {s : Session} {fuel : Nat} {source : String} {r : Submission}
    (h : s.submit fuel source = some r) :
    (∃ f, s.begin source = .error f ∧ r = s.conclude [] (some f)) ∨
      ∃ m a, s.begin source = .ok m ∧ (m.run fuel).result? = some a ∧
        r = s.complete (m.run fuel) := by
  unfold submit at h
  cases hbegin : s.begin source with
  | error f =>
    rw [hbegin] at h
    cases h
    exact .inl ⟨f, rfl, rfl⟩
  | ok m =>
    rw [hbegin] at h
    obtain ⟨a, ha, rfl⟩ := Option.map_eq_some_iff.mp h
    exact .inr ⟨m, a, rfl, ha, rfl⟩

/-- The same by what was read: the text is wrong, or a program was run to a result. -/
theorem read_cases_of_submit {s : Session} {fuel : Nat} {source : String} {r : Submission}
    (h : s.submit fuel source = some r) :
    (∃ f, read source = .error f ∧ r = s.conclude [] (some f)) ∨
      ∃ program, read source = .ok program ∧
        ((s.start program).run fuel).result?.isSome = true ∧
        r = s.complete ((s.start program).run fuel) := by
  cases hread : read source with
  | error f =>
    have hbegin : s.begin source = .error f := by rw [begin, hread]; rfl
    rw [submit, hbegin] at h
    exact .inl ⟨f, rfl, (Option.some.inj h).symm⟩
  | ok program =>
    have hbegin : s.begin source = .ok (s.start program) := by rw [begin, hread]; rfl
    rw [submit, hbegin] at h
    obtain ⟨a, ha, rfl⟩ := Option.map_eq_some_iff.mp h
    exact .inr ⟨program, rfl, Option.isSome_of_eq_some ha, rfl⟩

end Session

end Scripting
