/-
Sessions driven line by line.

Lines are gathered until they are a submission: as long as a string is open, or more brackets
have been opened than closed, the next line belongs to it. A line that begins with a colon where
a submission could begin is a command instead.

What to do with a line depends on the lines before it and not on the session, so `Repl.step`
only says what is to be done.
-/
import Scripting.Session
import Scripting.Text.Blank

set_option autoImplicit false

namespace Scripting.Repl

/-- `MetaCommand`: what a command asks for. -/
inductive Command where
  | help
  | quit
  | reset
  | bindings
  | unknown (name : String)
deriving DecidableEq

/-- The command on a line, if the line begins with a colon. -/
def Command.ofLine? (line : String) : Option Command :=
  match Text.trimmed line.toList with
  | ':' :: name =>
    some <|
      match String.ofList (Text.trimmed name) with
      | "help" => .help
      | "quit" | "exit" => .quit
      | "reset" => .reset
      | "env" => .bindings
      | other => .unknown other
  | _ => none

/-- How many more brackets are opened than closed. -/
def openBrackets (lexemes : List Lexeme) : Int :=
  lexemes.foldl (fun n l =>
    match l.token with
    | .symbol .leftParen | .symbol .leftBrace => n + 1
    | .symbol .rightParen | .symbol .rightBrace => n - 1
    | _ => n) (0 : Int)

/-- `needs_continuation`: whether a text is unfinished. A text with a fault other than an open
string is not: it is submitted, so that the fault is told. -/
def needsMore (source : String) : Bool :=
  match tokenize source with
  | .ok lexemes => 0 < openBrackets lexemes
  | .error e => e.fault = .unterminatedString

/-- What to do with a line. -/
inductive Action where
  /-- Nothing, or nothing yet. -/
  | wait
  | submit (source : String)
  | perform (command : Command)
deriving DecidableEq

/-- Take a line after the `pending` lines of an unfinished submission. -/
def step (pending : List String) (line : String) : List String × Action :=
  match pending, Command.ofLine? line with
  | [], some command => ([], .perform command)
  | _, _ =>
    let lines := pending ++ [line]
    let source := "\n".intercalate lines
    if needsMore source then (lines, .wait)
    else if source.toList.all Text.isBlank then ([], .wait)
    else ([], .submit source)

/-! ## What commands do -/

/-- A line of text for a user, and whether it goes where errors go. -/
structure Message where
  isError : Bool
  text : String
deriving DecidableEq

/-- An event as a message. -/
def Message.ofEvent (e : Event) : Message := ⟨e.isError, e.text⟩

/-- What a user is greeted with. -/
def greeting (banner : String) : List Message :=
  [⟨false, banner⟩, ⟨false, "Type :help for commands, :quit to exit."⟩]

/-- The answer to a call for help. -/
def helpText : List String :=
  ["Commands:",
    "  :help          Show this help",
    "  :env           List the variables and functions defined so far",
    "  :reset         Forget all variables and functions",
    "  :quit, :exit   Leave the REPL",
    "",
    "Statements end at a newline or ';'. Lines with an open '(', '\x7b' or string",
    "continue on the next line. Ctrl-C discards the pending input."]

/-- `describe_bindings`: what a user has bound, one name to a line. Builtins are left out under
whatever name. -/
def describeBindings (s : Session) : List String :=
  s.bindings.filterMap fun (name, v) =>
    match v with
    | .builtin _ => none
    | v => some s!"{name} = {v.text}"

/-- `handle_meta`: do what a command asks for. Quitting is left to the caller. -/
def Command.perform (c : Command) (s : Session) : Session × List Message :=
  match c with
  | .help => (s, helpText.map (⟨false, ·⟩))
  | .quit => (s, [])
  | .reset => (s.reset, [⟨false, "Session reset."⟩])
  | .bindings =>
    match describeBindings s with
    | [] => (s, [⟨false, "(no bindings)"⟩])
    | lines => (s, lines.map (⟨false, ·⟩))
  | .unknown name => (s, [⟨true, s!"Unknown command ':{name}'. Type :help for commands."⟩])

/-! ## Whole inputs -/

/-- Drive a session with lines up to the end or a command to quit, after the messages already
`shown`, of which the last comes first. Each submission has `fuel` steps; `none` if one
needs more. -/
def drive (fuel : Nat) (s : Session) (pending : List String) (shown : List Message) :
    List String → Option (List Message)
  | [] => some shown.reverse
  | line :: lines =>
    let (pending, action) := step pending line
    match action with
    | .wait => drive fuel s pending shown lines
    | .submit source =>
      match Session.submit fuel s source with
      | none => none
      | some r =>
        drive fuel r.session pending ((r.events.map Message.ofEvent).reverse ++ shown) lines
    | .perform .quit => some shown.reverse
    | .perform command =>
      let (s, messages) := command.perform s
      drive fuel s pending (messages.reverse ++ shown) lines

end Scripting.Repl
