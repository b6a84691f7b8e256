/-
The command line.

    sprig                      a session driven line by line
    sprig -c SOURCE            run a source text
    sprig FILE...              run scripts, one after the other, in one session

Arguments are read from the left, and the first that makes no sense ends the reading. A request
for the version or for help takes effect where it stands, whatever follows. Two options that
exclude each other are found only at the end. No option may be given twice.

`run` answers for a whole invocation at once, with the files and the standard input given. The
program itself does the same piece by piece, so that output appears when it is made.
-/
import Scripting.Directory
import Scripting.Repl
import Scripting.Text.Typed

set_option autoImplicit false

namespace Scripting.CommandLine

/-- The name and the version of the program. -/
def banner : String := "sprig 0.1.0"

/-! ## Arguments -/

/-- What the arguments say. -/
structure Options where
  files : List String
  command : Option String
  echo : Bool
  maxCallDepth : Option Nat
  history : Option String
  noHistory : Bool
deriving DecidableEq, Repr

/-- Nothing has been said. -/
def Options.none : Options := ⟨[], .none, false, .none, .none, false⟩

/-- What the program is asked to do. -/
inductive Request where
  | version
  | help
  | run (options : Options)
deriving DecidableEq

/-- Options without a value. -/
inductive Flag where
  | echo | noHistory | version | help
deriving DecidableEq

/-- Options with a value. -/
inductive Setting where
  | command | maxCallDepth | history
deriving DecidableEq

/-- The meaning of a long option. -/
def longOption? : String → Option (Flag ⊕ Setting)
  | "command" => some (.inr .command)
  | "echo" => some (.inl .echo)
  | "max-call-depth" => some (.inr .maxCallDepth)
  | "history" => some (.inr .history)
  | "no-history" => some (.inl .noHistory)
  | "version" => some (.inl .version)
  | "help" => some (.inl .help)
  | _ => none

/-- The meaning of a short option. -/
def shortOption? : Char → Option (Flag ⊕ Setting)
  | 'c' => some (.inr .command)
  | 'e' => some (.inl .echo)
  | 'V' => some (.inl .version)
  | 'h' => some (.inl .help)
  | _ => none

/-- A whole number below `2 ^ 64`, with an optional plus sign. -/
def readLimit? (text : String) : Option Nat :=
  let digits := match text.toList with
    | '+' :: digits => digits
    | digits => digits
  if digits.isEmpty || !digits.all Decimal.isDigit then .none
  else
    let n := Decimal.digitsValue digits
    if n < Nat.pow 2 64 then some n else .none

/-- Note the value of a setting. `none` if it has one already or the value is not of its kind. -/
def Options.set? (o : Options) (s : Setting) (value : String) : Option Options :=
  match s with
  | .command => if o.command.isSome then .none else some { o with command := some value }
  | .maxCallDepth =>
    match o.maxCallDepth, readLimit? value with
    | .none, some n => some { o with maxCallDepth := some n }
    | _, _ => .none
  | .history =>
    if o.history.isSome || value.isEmpty then .none else some { o with history := some value }

/-- Note a file. A path is never empty. -/
def Options.addFile? (o : Options) (file : String) : Option Options :=
  if file.isEmpty then .none else some { o with files := o.files ++ [file] }

/-- Whether an argument can be a value: it does not look like an option. -/
def canBeValue (argument : String) : Bool :=
  match argument.toList with
  | '-' :: _ :: _ => false
  | _ => true

/-- The outcome of one argument: a request that takes effect at once, or more options, and a setting
whose value is still to come. -/
inductive Progress where
  | stop (r : Request)
  | next (o : Options)
  | needs (o : Options) (s : Setting)

/-- Note a flag. -/
def Options.flag? (o : Options) : Flag → Option Progress
  | .echo => if o.echo then .none else some (.next { o with echo := true })
  | .noHistory => if o.noHistory then .none else some (.next { o with noHistory := true })
  | .version => some (.stop .version)
  | .help => some (.stop .help)

/-- The options in one argument of short ones. The value of a setting may follow at once, with
or without an equals sign. -/
def readShort? (o : Options) : List Char → Option Progress
  | [] => some (.next o)
  | c :: rest =>
    match shortOption? c with
    | .none => .none
    | some (.inl flag) =>
      match o.flag? flag with
      | some (.next o) => readShort? o rest
      | other => other
    | some (.inr setting) =>
      match rest with
      | [] => some (.needs o setting)
      | '=' :: value => (o.set? setting (String.ofList value)).map .next
      | value => (o.set? setting (String.ofList value)).map .next

/-- The option in an argument that begins with two hyphens. -/
def readLong? (o : Options) (text : List Char) : Option Progress :=
  let name := text.takeWhile (· ≠ '=')
  match longOption? (String.ofList name), text.drop name.length with
  | some (.inl flag), [] => o.flag? flag
  | some (.inr setting), [] => some (.needs o setting)
  | some (.inr setting), _ :: value => (o.set? setting (String.ofList value)).map .next
  | _, _ => .none

/-- One argument. -/
def readArgument? (o : Options) (argument : String) : Option Progress :=
  match argument.toList with
  | '-' :: '-' :: text => readLong? o text
  | '-' :: c :: cs => readShort? o (c :: cs)
  | _ => (o.addFile? argument).map .next

/-- Whether options that exclude each other are given. -/
def Options.conflict (o : Options) : Bool :=
  (o.command.isSome && !o.files.isEmpty) || (o.history.isSome && o.noHistory)

/-- All arguments, after those already noted. -/
def readFrom? (o : Options) : List String → Option Request
  | [] => if o.conflict then .none else some (.run o)
  -- Whatever follows two bare hyphens is a file.
  | "--" :: files =>
    match files.foldlM Options.addFile? o with
    | some o => if o.conflict then .none else some (.run o)
    | .none => .none
  | argument :: rest =>
    match readArgument? o argument with
    | .none => .none
    | some (.stop r) => some r
    | some (.next o) => readFrom? o rest
    | some (.needs o setting) =>
      match rest with
      | [] => .none
      | value :: rest =>
        if canBeValue value then
          match o.set? setting value with
          | some o => readFrom? o rest
          | .none => .none
        else .none

/-- What the arguments ask for; `none` if they make no sense. -/
def readArguments? (arguments : List String) : Option Request := readFrom? .none arguments

namespace Options

/-- Whether there is nothing to run, so that lines are asked for. -/
def isInteractive (o : Options) : Bool := o.command.isNone && o.files.isEmpty

/-- The settings of the session. -/
def config (o : Options) : Config :=
  ⟨o.isInteractive || o.echo, o.maxCallDepth.getD Config.standard.maxCallDepth⟩

end Options

/-! ## Files and lines -/

/-- The text of a script, from the bytes of its file. -/
def scriptText (bytes : ByteArray) : Except ReadFault String :=
  match String.fromUTF8? bytes with
  | some text => .ok text
  | .none => .error .notText

/-- The messages about a script that cannot be read. -/
def unreadable (file : String) (fault : ReadFault) : List Repl.Message :=
  [⟨true, s!"Error: Failed to read the script '{file}'"⟩, ⟨true, ""⟩, ⟨true, "Caused by:"⟩,
    ⟨true, s!"    {fault.text}"⟩]

/-- A line without the carriage return it ends in. -/
def dropReturn (line : List Char) : List Char :=
  if line.getLast? = some '\r' then line.dropLast else line

/-- The lines of an input. A newline ends a line, together with one carriage return before it;
the last line may do without. Backspaces have taken back what they should. -/
def inputLines (input : List Char) : List String :=
  let line := input.takeWhile (· ≠ '\n')
  match h : input.dropWhile (· ≠ '\n') with
  | [] => if line.isEmpty then [] else [String.ofList (Text.typed line)]
  | _ :: rest =>
    have shorter : rest.length < input.length := by
      have := (List.dropWhile_suffix (l := input) (· ≠ '\n')).length_le
      simp only [h, List.length_cons] at this
      omega
    String.ofList (Text.typed (dropReturn line)) :: inputLines rest
termination_by input.length

/-! ## Whole invocations -/

/-- What an invocation leaves behind: its exit status and what it showed. -/
structure Transcript where
  status : Nat
  messages : List Repl.Message

/-- The messages of one stream, each on a line of its own. -/
def Transcript.stream (t : Transcript) (isError : Bool) : String :=
  String.join ((t.messages.filter (·.isError = isError)).map (·.text ++ "\n"))

/-- Run scripts one after the other. A script that fails does not stop the others, but one that
cannot be read does. -/
def runFiles (fuel : Nat) (directory : Directory) (s : Session) (failed : Bool)
    (shown : List Repl.Message) : List String → Option Transcript
  | [] => some ⟨if failed then 1 else 0, shown⟩
  | name :: names =>
    match directory.read name >>= scriptText with
    | .error fault => some ⟨1, shown ++ unreadable name fault⟩
    | .ok source =>
      match Session.submit fuel s source with
      | .none => .none
      | some r =>
        runFiles fuel directory r.session (failed || r.failure.isSome)
          (shown ++ r.events.map Repl.Message.ofEvent) names

/-- Run what the options ask for. -/
def runOptions (fuel : Nat) (clock : Nat → Float) (directory : Directory)
    (input : String) (o : Options) : Option Transcript :=
  let s := Session.new o.config clock
  match o.command with
  | some source =>
    (Session.submit fuel s source).map fun r =>
      ⟨if r.failure.isSome then 1 else 0, r.events.map Repl.Message.ofEvent⟩
  | .none =>
    if o.isInteractive then
      let greeting := (Repl.greeting banner).reverse
      (Repl.drive fuel s [] greeting (inputLines input.toList)).map (⟨0, ·⟩)
    else runFiles fuel directory s false [] o.files

/-- How the program is used. -/
def usage : List String :=
  ["Usage: sprig [OPTIONS] [FILES]...",
    "",
    "Options:",
    "  -c, --command <SOURCE>     Run the given source",
    "  -e, --echo                 Print the value of every top-level expression statement",
    "      --max-call-depth <N>   Maximum depth of nested function calls",
    "      --history <PATH>       Line history file",
    "      --no-history           Neither load nor save line history",
    "  -h, --help                 Print help",
    "  -V, --version              Print version"]

/-- Answer an invocation: `none` for arguments that make no sense, and else what it leaves
behind, if each submission gets along with `fuel` steps. -/
def run (fuel : Nat) (clock : Nat → Float) (directory : Directory) (input : String)
    (arguments : List String) : Option (Option Transcript) :=
  (readArguments? arguments).map fun
    | .version => some ⟨0, [⟨false, banner⟩]⟩
    | .help => some ⟨0, usage.map (⟨false, ·⟩)⟩
    | .run o => runOptions fuel clock directory input o

end Scripting.CommandLine
