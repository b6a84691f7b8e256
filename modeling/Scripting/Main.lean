/-
The program.

Everything is decided elsewhere; here arguments, files, lines and the time are fetched, and output
is written as it is made. A machine runs a number of steps at a time, and between two such
stretches what it told is shown and its clock is set.
-/
import Scripting.CommandLine
import Std.Time.DateTime.Timestamp

set_option autoImplicit false

namespace Scripting.Program

open Scripting.CommandLine

/-- Show a message. -/
def showMessage (m : Repl.Message) : IO Unit :=
  if m.isError then IO.eprintln m.text else IO.println m.text

/-- The seconds since the beginning of 1970; an earlier time counts as that. -/
def now : IO Float := do
  let t ← Std.Time.Timestamp.now
  return Float.ofNat t.toNanosecondsSinceUnixEpoch.val.toNat / 1000000000

/-- Run a machine to its end, showing what it tells. -/
partial def runMachine (m : Machine) : IO Machine := do
  let t ← now
  let m := { m with world := { m.world with clock := fun _ => t } }.run 20000
  for e in m.world.output.reverse do
    showMessage (.ofEvent e)
  let m := { m with world := { m.world with output := [] } }
  if m.result?.isSome then return m else runMachine m

/-- Submit a source text; the flag tells whether it failed. -/
def submit (s : Session) (source : String) : IO (Bool × Session) := do
  let r ← match s.begin source with
    | .error f => pure (s.conclude [] (some f))
    | .ok m => do
      let m ← runMachine m
      pure (s.complete m)
  for e in r.events do
    showMessage (.ofEvent e)
  return (r.failure.isSome, r.session)

/-- Drive a session with the lines of the standard input. -/
partial def driveLines (input : IO.FS.Stream) (s : Session) (pending : List String) : IO Unit := do
  let line ← input.getLine
  match inputLines line.toList with
  | [] => return
  | line :: _ =>
    let (pending, action) := Repl.step pending line
    match action with
    | .wait => driveLines input s pending
    | .submit source =>
      let (_, s) ← submit s source
      driveLines input s pending
    | .perform .quit => return
    | .perform command =>
      let (s, messages) := command.perform s
      messages.forM showMessage
      driveLines input s pending

/-- The bytes of a file. -/
def readBytes (name : String) : IO (Except ReadFault ByteArray) := do
  match ← (IO.FS.readBinFile name).toBaseIO with
  | .ok bytes => return .ok bytes
  -- The code of a fault comes with either sign.
  | .error (.inappropriateType _ code _) =>
    return .error (if code = 21 || code = 0 - 21 then .isDirectory else .notDirectory)
  | .error (.invalidArgument ..) => return .error .nameTooLong
  | .error _ => return .error .missing

/-- Run scripts one after the other. -/
def submitFiles (s : Session) (failed : Bool) : List String → IO UInt32
  | [] => return if failed then 1 else 0
  | name :: names => do
    match (← readBytes name) >>= scriptText with
    | .error fault =>
      (unreadable name fault).forM showMessage
      return 1
    | .ok source =>
      let (failedHere, s) ← submit s source
      submitFiles s (failed || failedHere) names

/-- Do what the options ask for. -/
def perform (o : Options) : IO UInt32 := do
  let s := Session.new o.config fun _ => 0
  match o.command with
  | some source =>
    let (failed, _) ← submit s source
    return if failed then 1 else 0
  | none =>
    if o.isInteractive then
      (Repl.greeting banner).forM showMessage
      driveLines (← IO.getStdin) s []
      return 0
    else submitFiles s false o.files

end Scripting.Program

/-- Entry point. -/
def main (arguments : List String) : IO UInt32 := do
  match Scripting.CommandLine.readArguments? arguments with
  | none =>
    IO.eprintln "error: the arguments make no sense; try --help"
    return 2
  | some .version =>
    IO.println Scripting.CommandLine.banner
    return 0
  | some .help =>
    Scripting.CommandLine.usage.forM IO.println
    return 0
  | some (.run o) => Scripting.Program.perform o
