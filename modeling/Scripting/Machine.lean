/-
The machine that runs programs.

A state of the machine is what it is doing now, the *control*; what is waiting for that to be
finished, a stack of *frames*, the innermost first; and the *world*, which is all
that outlives the statement being run. A step either begins an expression or a statement,
pushing a frame for what has to be done with its outcome, or hands an *answer* to the
innermost frame. An answer is the value of an expression, the way a statement ended, or an
error. A frame that has no use for an answer is passed by. So a `break` passes what is left of
its block up to its loop, a `return` passes loops and blocks up to its call, and an error
passes everything; only the frames that leave a block or a call see every answer, since the
scope is left however it ends.

The machine needs no stack but its own: programs may nest and call as deep as they like.

The clock is part of the world. Its readings are given in advance, and each use takes the next.
-/
import Scripting.Output
import Scripting.Scope.Release
import Scripting.Value.Builtins
import Scripting.Value.Operators

set_option autoImplicit false

namespace Scripting

/-! ## States -/

/-- `Flow`: how a statement ends when no error stops it. -/
inductive Flow where
  | normal
  | break_
  | continue_
  | return_ (value : Value)

/-- The outcome of an expression or a statement. -/
inductive Answer where
  | value (v : Value)
  | flow (f : Flow)
  | error (e : RuntimeError)

/-- The values that are held while an answer is on its way. -/
def Answer.held : Answer → List Value
  | value v => [v]
  | flow (.return_ v) => [v]
  | _ => []

/-- What the machine is doing. -/
inductive Control where
  | evaluate (e : Expr) (scope : ScopeId)
  | execute (s : Stmt) (scope : ScopeId)
  | answer (a : Answer)

/-- What waits for an answer. -/
inductive Frame where
  /-- Go on with the right operand. -/
  | leftOperand (op : BinaryOperator) (right : Expr) (position : Position) (scope : ScopeId)
  /-- Apply a binary operator. -/
  | rightOperand (op : BinaryOperator) (left : Value) (position : Position)
  /-- Apply a unary operator. -/
  | operand (op : UnaryOperator) (position : Position)
  /-- Assign to a name. -/
  | assignTo (name : String) (position : Position) (scope : ScopeId)
  /-- Go on with the arguments of a call. -/
  | callee (arguments : List Expr) (position : Position) (scope : ScopeId)
  /-- Go on with the remaining arguments; of those `done`, the last comes first. -/
  | argument (callee : Value) (done : List Value) (remaining : List Expr) (position : Position)
    (scope : ScopeId)
  /-- Forget the value of an expression statement. -/
  | discard
  /-- Bind a name. -/
  | declareAs (name : String) (scope : ScopeId)
  /-- Choose a branch. -/
  | branch (yes : Stmt) (no : Option Stmt) (scope : ScopeId)
  /-- Begin a round of `execute_loop`, or end the loop. -/
  | loopTest (test : Expr) (body : Stmt) (scope : ScopeId)
  /-- Print a value. -/
  | printing
  /-- Return a value. -/
  | returning
  /-- Echo a value. -/
  | echoing
  /-- Go on with the next statement. -/
  | sequence (remaining : List Stmt) (scope : ScopeId)
  /-- Go on with the next statement of a program. -/
  | program (remaining : List Stmt) (echo : Bool) (scope : ScopeId)
  /-- Go on with the next round of a loop. -/
  | loopBody (test : Expr) (body : Stmt) (scope : ScopeId)
  /-- Leave the scope of a block: the end of `execute_block`. -/
  | leaveBlock (scope : ScopeId)
  /-- Leave the scope of a call: the end of `call_closure`. -/
  | leaveCall (scope : ScopeId)

/-- The values that wait in a frame. -/
def Frame.values : Frame → List Value
  | rightOperand _ left _ => [left]
  | argument f done _ _ _ => f :: done
  | _ => []

/-- The functions declared in scope `s` that are held while an answer is on its way to some frames,
once for each time. -/
def heldOnTheWay (a : Answer) (frames : List Frame) (s : ScopeId) : List Closure :=
  functionsAmong (a.held ++ frames.flatMap (·.values)) s

/-- What outlives the statement being run: the environments, and what an `Evaluator` has of its
own. -/
structure World where
  store : Store
  /-- How many calls of the program's functions are active. -/
  callDepth : Nat
  /-- How many may be. -/
  maxCallDepth : Nat
  /-- What has been told so far, the latest first. -/
  output : List Event
  /-- The readings of the clock, in order. -/
  clock : Nat → Float
  /-- How many of them have been used. -/
  readings : Nat

/-- A state of the machine. -/
structure Machine where
  control : Control
  frames : List Frame
  world : World

namespace World

/-- Tell an event. -/
def tell (w : World) (e : Event) : World := { w with output := e :: w.output }

/-- Leave a scope with an answer for the frames that are left. -/
def leave (w : World) (a : Answer) (frames : List Frame) (s : ScopeId) : World :=
  { w with store := w.store.leave (heldOnTheWay a frames) s }

end World

namespace Machine

/-! ## Beginning -/

/-- Hand an answer to the frames. -/
def reply (a : Answer) (frames : List Frame) (world : World) : Machine :=
  ⟨.answer a, frames, world⟩

/-- Hand a value, or the error instead of it. -/
def replyWith (r : Except RuntimeError Value) (frames : List Frame) (world : World) : Machine :=
  match r with
  | .ok v => reply (.value v) frames world
  | .error e => reply (.error e) frames world

/-- Fail at `position`. -/
def fail (fault : RuntimeFault) (position : Position) (frames : List Frame) (world : World) :
    Machine :=
  reply (.error ⟨fault, position⟩) frames world

/-- Begin to evaluate an expression. -/
def begin (e : Expr) (scope : ScopeId) (frames : List Frame) (world : World) : Machine :=
  ⟨.evaluate e scope, frames, world⟩

/-- `execute_statements`: run statements one after the other in a scope. -/
def runAll (body : List Stmt) (scope : ScopeId) (frames : List Frame) (world : World) : Machine :=
  reply (.flow .normal) (.sequence body scope :: frames) world

/-- Bind parameters to arguments in the scope of a call, as `call_closure` does first. -/
def bindParameters (store : Store) (scope : ScopeId) (parameters : List String)
    (arguments : List Value) : Store :=
  (parameters.zip arguments).foldl (fun store (name, v) => store.define scope name v) store

/-- `call_value`, and the beginning of `call_closure`. The number of arguments is looked at first,
then, for a function of the program, whether one more call may be active. -/
def call (callee : Value) (arguments : List Value) (position : Position) (frames : List Frame)
    (world : World) : Machine :=
  match callee with
  | .builtin b =>
    if b.arity = arguments.length then
      let world' := if b = .clock then { world with readings := world.readings + 1 } else world
      replyWith (b.apply arguments (world.clock world.readings) position) frames world'
    else fail (.argumentCount b.arity arguments.length) position frames world
  | .function f =>
    if f.parameters.length ≠ arguments.length then
      fail (.argumentCount f.parameters.length arguments.length) position frames world
    else if world.maxCallDepth ≤ world.callDepth then
      fail (.callDepthExceeded world.maxCallDepth) position frames world
    else
      let (scope, store) := world.store.newScope (some f.scope)
      let store := bindParameters store scope f.parameters arguments
      runAll f.body scope (.leaveCall scope :: frames)
        { world with store := store, callDepth := world.callDepth + 1 }
  | other => fail (.notCallable other.kind) position frames world

/-- `eval_call`, after the callee: evaluate the next argument of a call; with none left, call. -/
def nextArgument (callee : Value) (done : List Value) (remaining : List Expr)
    (position : Position) (scope : ScopeId) (frames : List Frame) (world : World) : Machine :=
  match remaining with
  | [] => call callee done.reverse position frames world
  | e :: es => begin e scope (.argument callee done es position scope :: frames) world

/-! ## Steps -/

/-- Begin an expression, by the cases of `evaluate`. -/
def evaluateStep (e : Expr) (scope : ScopeId) (frames : List Frame) (world : World) : Machine :=
  match e with
  | .literal l _ => reply (.value (.ofLiteral l)) frames world
  | .var name position =>
    match world.store.get? scope name with
    | some v => reply (.value v) frames world
    | none => fail (.undefinedVariable name) position frames world
  | .unary op e position => begin e scope (.operand op position :: frames) world
  | .binary op left right position =>
    begin left scope (.leftOperand op right position scope :: frames) world
  | .call f arguments position => begin f scope (.callee arguments position scope :: frames) world
  | .assign name e position => begin e scope (.assignTo name position scope :: frames) world
  | .group e _ => begin e scope frames world

/-- Begin a statement, by the cases of `execute`. A block has a scope of its own, as in
`execute_block`. -/
def executeStep (s : Stmt) (scope : ScopeId) (frames : List Frame) (world : World) : Machine :=
  match s with
  | .expression e _ => begin e scope (.discard :: frames) world
  | .declare name none _ =>
    reply (.flow .normal) frames { world with store := world.store.define scope name .nil }
  | .declare name (some e) _ => begin e scope (.declareAs name scope :: frames) world
  | .block body _ =>
    let (inner, store) := world.store.newScope (some scope)
    runAll body inner (.leaveBlock inner :: frames) { world with store := store }
  | .cond test yes no _ => begin test scope (.branch yes no scope :: frames) world
  | .loop test body _ => begin test scope (.loopTest test body scope :: frames) world
  | .function name parameters body _ =>
    let (f, store) := world.store.newFunction scope name parameters body
    reply (.flow .normal) frames { world with store := store.define scope name (.function f) }
  | .return_ none _ => reply (.flow (.return_ .nil)) frames world
  | .return_ (some e) _ => begin e scope (.returning :: frames) world
  | .print e _ => begin e scope (.printing :: frames) world
  | .break_ _ => reply (.flow .break_) frames world
  | .continue_ _ => reply (.flow .continue_) frames world

/-- Hand a value to a frame. -/
def valueStep (v : Value) (frame : Frame) (frames : List Frame) (world : World) : Machine :=
  match frame with
  | .leftOperand op right position scope =>
    match op.decided? v with
    | some result => reply (.value result) frames world
    | none => begin right scope (.rightOperand op v position :: frames) world
  | .rightOperand op left position => replyWith (op.apply left v position) frames world
  | .operand op position => replyWith (op.apply v position) frames world
  | .assignTo name position scope =>
    match world.store.assign? scope name v with
    | some store => reply (.value v) frames { world with store := store }
    | none => fail (.undeclaredAssignment name) position frames world
  | .callee arguments position scope => nextArgument v [] arguments position scope frames world
  | .argument f done remaining position scope =>
    nextArgument f (v :: done) remaining position scope frames world
  | .discard => reply (.flow .normal) frames world
  | .declareAs name scope =>
    reply (.flow .normal) frames { world with store := world.store.define scope name v }
  | .branch yes no scope =>
    if v.truthy then ⟨.execute yes scope, frames, world⟩
    else
      match no with
      | some s => ⟨.execute s scope, frames, world⟩
      | none => reply (.flow .normal) frames world
  | .loopTest test body scope =>
    if v.truthy then ⟨.execute body scope, .loopBody test body scope :: frames, world⟩
    else reply (.flow .normal) frames world
  | .printing => reply (.flow .normal) frames (world.tell (.print v.text))
  | .returning => reply (.flow (.return_ v)) frames world
  | .echoing => reply (.flow .normal) frames (world.tell (.value v.text))
  | .sequence .. | .program .. | .loopBody .. | .leaveBlock _ | .leaveCall _ =>
    reply (.value v) frames world

/-- Begin the next statement of a program. With `echo`, the value of an expression statement is
told. -/
def nextStatement (remaining : List Stmt) (echo : Bool) (scope : ScopeId) (frames : List Frame)
    (world : World) : Machine :=
  match remaining with
  | [] => reply (.flow .normal) frames world
  | s :: rest =>
    let frames := .program rest echo scope :: frames
    match echo, s with
    | true, .expression e _ => begin e scope (.echoing :: frames) world
    | _, _ => ⟨.execute s scope, frames, world⟩

/-- Hand the end of a statement to a frame. -/
def flowStep (f : Flow) (frame : Frame) (frames : List Frame) (world : World) : Machine :=
  match frame, f with
  | .sequence (s :: rest) scope, .normal =>
    ⟨.execute s scope, .sequence rest scope :: frames, world⟩
  | .program remaining echo scope, .normal => nextStatement remaining echo scope frames world
  | .loopBody test body scope, .normal | .loopBody test body scope, .continue_ =>
    begin test scope (.loopTest test body scope :: frames) world
  | .loopBody .., .break_ => reply (.flow .normal) frames world
  -- A finished list of statements, and every other frame, lets the flow pass.
  | _, f => reply (.flow f) frames world

/-- What an answer becomes at the end of `call_closure`: a call is an expression. -/
def callAnswer : Answer → Answer
  | .flow (.return_ v) => .value v
  | .flow _ => .value .nil
  | a => a

/-- Hand an answer to a frame. -/
def answerStep (a : Answer) (frame : Frame) (frames : List Frame) (world : World) : Machine :=
  match frame, a with
  | .leaveBlock scope, a => reply a frames (world.leave a frames scope)
  | .leaveCall scope, a =>
    reply (callAnswer a) frames
      { world.leave a frames scope with callDepth := world.callDepth - 1 }
  | frame, .value v => valueStep v frame frames world
  | frame, .flow f => flowStep f frame frames world
  | _, .error e => reply (.error e) frames world

/-- The answer of a machine that has nothing left to do. -/
def result? (m : Machine) : Option Answer :=
  match m.control, m.frames with
  | .answer a, [] => some a
  | _, _ => none

/-- One step. A machine that has nothing left to do stays as it is. -/
def step (m : Machine) : Machine :=
  match m.control, m.frames with
  | .evaluate e scope, frames => evaluateStep e scope frames m.world
  | .execute s scope, frames => executeStep s scope frames m.world
  | .answer a, frame :: frames => answerStep a frame frames m.world
  | .answer _, [] => m

/-- At most `fuel` steps, fewer if there is nothing left to do. -/
def run : (fuel : Nat) → Machine → Machine
  | 0, m => m
  | fuel + 1, m =>
    match m.result? with
    | some _ => m
    | none => run fuel m.step

/-! ## Starting -/

/-- `execute_submission`: start a program in a scope. -/
def ofProgram (statements : List Stmt) (echo : Bool) (scope : ScopeId) (world : World) : Machine :=
  reply (.flow .normal) [.program statements echo scope] { world with callDepth := 0 }

end Machine

end Scripting
