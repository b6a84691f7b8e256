/-
Sessions.

A session is fed one submission after the other. A submission is read as a whole before any
of it is run; then its statements run in the global scope of the session, which keeps
what they declare. A failure ends the submission and is told like any other output. What was
done before it stays.

Running takes as many steps as the program asks for, so it is done in three parts:
`begin` reads a submission and sets up the machine, the machine runs, and `complete` puts what
it left behind into the session. `submit` does all three within a given number of steps.
-/
import Scripting.Machine
import Scripting.Token.Scan
import Scripting.Tree.Grammar

set_option autoImplicit false

namespace Scripting

/-- `SessionConfig`: the settings of a session. -/
structure Config where
  /-- Whether the values of expression statements are told. -/
  echo : Bool
  /-- How many calls may be active at once. -/
  maxCallDepth : Nat
deriving DecidableEq, Repr

/-- The settings when none are given. -/
def Config.standard : Config := ⟨true, 200⟩

/-- A session between two submissions. -/
structure Session where
  config : Config
  store : Store
  /-- The global scope. -/
  globals : ScopeId
  channel : Channel
  /-- The readings of the clock, in order. -/
  clock : Nat → Float
  /-- How many of them have been used. -/
  readings : Nat

/-- What a submission has led to. -/
structure Submission where
  session : Session
  /-- The failure that ended it, if one did. -/
  failure : Option Failure
  /-- What was told, in order. -/
  events : List Event
  /-- Who was told of what, in order. -/
  heard : List (String × Event)

namespace Session

/-- `fresh_globals`: add a global scope with the builtins to a store. -/
def freshGlobals (store : Store) : ScopeId × Store :=
  let (globals, store) := store.newScope none
  (globals, store.defineBuiltins globals)

/-- `with_config`: a session in which nothing has been submitted yet. -/
def new (config : Config) (clock : Nat → Float) : Session :=
  let (globals, store) := freshGlobals .empty
  ⟨config, store, globals, .empty, clock, 0⟩

/-- `register`: add a listener. -/
def listen (s : Session) (l : Listener) : Session := { s with channel := s.channel.register l }

/-- `set_echo`: turn the echo on or off. -/
def setEcho (s : Session) (echo : Bool) : Session :=
  { s with config := { s.config with echo := echo } }

/-- The value of a global name. -/
def get? (s : Session) (name : String) : Option Value := s.store.get? s.globals name

/-- Bind a global name. -/
def define (s : Session) (name : String) (value : Value) : Session :=
  { s with store := s.store.define s.globals name value }

/-- The global names with their values, in order of the names. -/
def bindings (s : Session) : List (String × Value) :=
  (s.store.names s.globals).filterMap fun name => (s.get? name).map (name, ·)

/-- `reset`: forget everything that was declared. The old global scope is left for good. -/
def reset (s : Session) : Session :=
  let (globals, store) := freshGlobals (s.store.leave (fun _ => []) s.globals)
  { s with store := store, globals := globals }

/-! ## Submitting -/

/-- The world that the machine starts in. -/
def world (s : Session) : World where
  store := s.store
  callDepth := 0
  maxCallDepth := s.config.maxCallDepth
  output := []
  clock := s.clock
  readings := s.readings

/-- Read a source text as statements. -/
def read (source : String) : Except Failure (List Stmt) :=
  match tokenize source with
  | .error e => .error (.lex e)
  | .ok lexemes =>
    match Grammar.parse lexemes with
    | .error e => .error (.parse e)
    | .ok statements => .ok statements

/-- Read a submission and set up the machine that runs it. -/
def begin (s : Session) (source : String) : Except Failure Machine :=
  (read source).map fun statements => .ofProgram statements s.config.echo s.globals s.world

/-- Tell events to the listeners, the failure after all the others. -/
def conclude (s : Session) (events : List Event) (failure : Option Failure) : Submission :=
  let events := events ++ (failure.map Event.failure).toList
  let (heard, channel) := s.channel.emitAll events
  ⟨{ s with channel := channel }, failure, events, heard⟩

/-- The failure that a machine ended in. -/
def failureOf (m : Machine) : Option Failure :=
  match m.result? with
  | some (.error e) => some (.runtime e)
  | _ => none

/-- Take over what a machine that has run to its end left behind. -/
def complete (s : Session) (m : Machine) : Submission :=
  conclude { s with store := m.world.store, readings := m.world.readings }
    m.world.output.reverse (failureOf m)

/-- `submit`: read and run a source text, with at most `fuel` steps; `none` if they are not
enough. -/
def submit (fuel : Nat) (s : Session) (source : String) : Option Submission :=
  match s.begin source with
  | .error f => some (s.conclude [] (some f))
  | .ok m =>
    let m := m.run fuel
    m.result?.map fun _ => s.complete m

/-- `evaluate_source`: run a source text on its own. Everything it told, or its failure. -/
def evaluateSource (fuel : Nat) (clock : Nat → Float) (echo : Bool) (source : String) :
    Option (Except Failure (List String)) :=
  (submit fuel (new { Config.standard with echo := echo } clock) source).map fun r =>
    match r.failure with
    | some f => .error f
    | none => .ok ((r.events.filter (!·.isError)).map (·.text))

end Session

end Scripting
