/-
What a step does.

A step looks at what the machine is doing and at the innermost frame, and makes a *move* from that:
it asks one thing of the world, the *effect* of the step, and leaves some frames to wait
for the outcome. The world has no part in the choice of the move, and the frames further
below have none either. So a step is described in two halves. `Expr.move`, `Stmt.move` and
`Frame.move` say which move is made; `Effect.perform` says what becomes of it in a world. That the
machine does just that is `step_eq`.

Most invariants of the machine are bounds to what it mentions: the code that it runs, the scopes
that it works in, the functions that it knows, the errors that it fails with. A move keeps to all
such `Bounds` at once, which is shown here, once for all of them; what is left to a module with an
invariant of its own are the few effects.
-/
import Scripting.Machine
import Scripting.Proofs.Operations
import Scripting.Proofs.Reclaim

set_option autoImplicit false

namespace Scripting

/-! ## Code -/

/-- A statement or an expression. -/
inductive Code where
  | statement (s : Stmt)
  | expression (e : Expr)

namespace Code

/-- The parts that stand inside of the same braces. -/
def parts : Code → List Code
  | .expression (.literal ..) | .expression (.var ..) => []
  | .expression (.unary _ e _) | .expression (.assign _ e _) | .expression (.group e _) =>
    [.expression e]
  | .expression (.binary _ left right _) => [.expression left, .expression right]
  | .expression (.call callee arguments _) => .expression callee :: arguments.map .expression
  | .statement (.expression e _) | .statement (.print e _) => [.expression e]
  | .statement (.declare _ initial _) => initial.toList.map .expression
  | .statement (.return_ value _) => value.toList.map .expression
  | .statement (.cond test yes no _) =>
    .expression test :: .statement yes :: no.toList.map .statement
  | .statement (.loop test body _) => [.expression test, .statement body]
  | .statement (.block ..) | .statement (.function ..) | .statement (.break_ _)
  | .statement (.continue_ _) => []

/-- The statements between the braces that belong to a statement. -/
def body : Code → List Stmt
  | .statement (.block body _) | .statement (.function _ _ body _) => body
  | _ => []

end Code

/-! ## Frames -/

namespace Frame

/-- The scopes that a frame will work in or leave. -/
def scopes : Frame → List ScopeId
  | leftOperand _ _ _ s | assignTo _ _ s | callee _ _ s | argument _ _ _ _ s | declareAs _ s
  | branch _ _ s | loopTest _ _ s | sequence _ s | program _ _ s | loopBody _ _ s | leaveBlock s
  | leaveCall s => [s]
  | rightOperand .. | operand .. | discard | printing | returning | echoing => []

/-- The scope that a frame leaves. -/
def left? : Frame → Option ScopeId
  | leaveBlock s | leaveCall s => some s
  | _ => none

/-- Whether a frame ends a call of one of the program's functions. -/
def isCall : Frame → Bool
  | .leaveCall _ => true
  | _ => false

/-- Whether a frame tells the value of an expression statement, or will have that done. -/
def echoes : Frame → Bool
  | .echoing => true
  | .program _ echo _ => echo
  | _ => false

theorem isCall_of_left? {frame : Frame} (h : frame.left? = none) : frame.isCall = false := by
  cases frame <;> first | rfl | cases h

end Frame

/-! ## Moves -/

/-- What a step asks of the world. -/
inductive Effect where
  /-- Nothing: the step goes on at once. -/
  | proceed (control : Control)
  | lookUp (name : String) (p : Position) (s : ScopeId)
  | define (name : String) (v : Value) (s : ScopeId)
  | assign (name : String) (v : Value) (p : Position) (s : ScopeId)
  /-- Make a function and bind its name. -/
  | declare (name : String) (parameters : List String) (body : List Stmt) (s : ScopeId)
  | enterBlock (body : List Stmt) (s : ScopeId)
  | call (f : Value) (arguments : List Value) (p : Position)
  | tell (event : Event)
  | leaveBlock (a : Answer) (s : ScopeId)
  | leaveCall (a : Answer) (s : ScopeId)

/-- An effect, and the frames that wait for what comes of it. -/
structure Move where
  effect : Effect
  pushed : List Frame

namespace Move

/-- Hand an answer on. -/
def answer (a : Answer) : Move := ⟨.proceed (.answer a), []⟩

/-- Begin an expression. -/
def evaluate (e : Expr) (s : ScopeId) (pushed : List Frame) : Move :=
  ⟨.proceed (.evaluate e s), pushed⟩

/-- Begin a statement. -/
def execute (stmt : Stmt) (s : ScopeId) (pushed : List Frame) : Move :=
  ⟨.proceed (.execute stmt s), pushed⟩

end Move

/-- The answer that a result is. -/
def Answer.ofResult : Except RuntimeError Value → Answer
  | .ok v => .value v
  | .error e => .error e

/-- The move that begins an expression. -/
def Expr.move (s : ScopeId) : Expr → Move
  | .literal l _ => .answer (.value (.ofLiteral l))
  | .var name p => ⟨.lookUp name p s, []⟩
  | .unary op e p => .evaluate e s [.operand op p]
  | .binary op left right p => .evaluate left s [.leftOperand op right p s]
  | .call f arguments p => .evaluate f s [.callee arguments p s]
  | .assign name e p => .evaluate e s [.assignTo name p s]
  | .group e _ => .evaluate e s []

/-- The move that begins a statement. -/
def Stmt.move (s : ScopeId) : Stmt → Move
  | .expression e _ => .evaluate e s [.discard]
  | .declare name none _ => ⟨.define name .nil s, []⟩
  | .declare name (some e) _ => .evaluate e s [.declareAs name s]
  | .block body _ => ⟨.enterBlock body s, []⟩
  | .cond test yes no _ => .evaluate test s [.branch yes no s]
  | .loop test body _ => .evaluate test s [.loopTest test body s]
  | .function name parameters body _ => ⟨.declare name parameters body s, []⟩
  | .return_ none _ => .answer (.flow (.return_ .nil))
  | .return_ (some e) _ => .evaluate e s [.returning]
  | .print e _ => .evaluate e s [.printing]
  | .break_ _ => .answer (.flow .break_)
  | .continue_ _ => .answer (.flow .continue_)

/-- The move to the next argument of a call; with none left, the call. -/
def Move.nextArgument (f : Value) (done : List Value) (remaining : List Expr) (p : Position)
    (s : ScopeId) : Move :=
  match remaining with
  | [] => ⟨.call f done.reverse p, []⟩
  | e :: es => .evaluate e s [.argument f done es p s]

/-- The move to the next statement of a program. -/
def Move.nextStatement (remaining : List Stmt) (echo : Bool) (s : ScopeId) : Move :=
  match remaining with
  | [] => .answer (.flow .normal)
  | stmt :: rest =>
    match echo, stmt with
    | true, .expression e _ => .evaluate e s [.echoing, .program rest echo s]
    | _, _ => .execute stmt s [.program rest echo s]

namespace Frame

/-- The move of a frame that takes a value. -/
def valueMove (v : Value) : Frame → Move
  | leftOperand op right p s =>
    match op.decided? v with
    | some u => .answer (.value u)
    | none => .evaluate right s [.rightOperand op v p]
  | rightOperand op left p => .answer (.ofResult (op.apply left v p))
  | operand op p => .answer (.ofResult (op.apply v p))
  | assignTo name p s => ⟨.assign name v p s, []⟩
  | callee arguments p s => .nextArgument v [] arguments p s
  | argument f done remaining p s => .nextArgument f (v :: done) remaining p s
  | discard => .answer (.flow .normal)
  | declareAs name s => ⟨.define name v s, []⟩
  | branch yes no s =>
    if v.truthy then .execute yes s []
    else
      match no with
      | some stmt => .execute stmt s []
      | none => .answer (.flow .normal)
  | loopTest test body s =>
    if v.truthy then .execute body s [.loopBody test body s] else .answer (.flow .normal)
  | printing => ⟨.tell (.print v.text), []⟩
  | returning => .answer (.flow (.return_ v))
  | echoing => ⟨.tell (.value v.text), []⟩
  | sequence .. | program .. | loopBody .. | leaveBlock _ | leaveCall _ => .answer (.value v)

/-- The move of a frame that takes the end of a statement. -/
def flowMove (f : Flow) (frame : Frame) : Move :=
  match frame, f with
  | sequence (stmt :: rest) s, .normal => .execute stmt s [.sequence rest s]
  | program remaining echo s, .normal => .nextStatement remaining echo s
  | loopBody test body s, .normal | loopBody test body s, .continue_ =>
    .evaluate test s [.loopTest test body s]
  | loopBody .., .break_ => .answer (.flow .normal)
  | _, f => .answer (.flow f)

/-- The move of a frame that takes an answer. -/
def move (a : Answer) (frame : Frame) : Move :=
  match frame, a with
  | leaveBlock s, a => ⟨.leaveBlock a s, []⟩
  | leaveCall s, a => ⟨.leaveCall a s, []⟩
  | frame, .value v => frame.valueMove v
  | frame, .flow f => frame.flowMove f
  | _, .error e => .answer (.error e)

end Frame

/-- The move that a machine makes, and the frames that have no part in it. -/
inductive Moves : Control → List Frame → Move → List Frame → Prop
  | evaluate (e : Expr) (s : ScopeId) (below : List Frame) :
      Moves (.evaluate e s) below (e.move s) below
  | execute (stmt : Stmt) (s : ScopeId) (below : List Frame) :
      Moves (.execute stmt s) below (stmt.move s) below
  | answer (a : Answer) (frame : Frame) (below : List Frame) :
      Moves (.answer a) (frame :: below) (frame.move a) below

/-! ## Performing -/

namespace Machine

/-- What becomes of an effect, when scopes are left in the given way. -/
def perform (leaving : Store.Leaving) (effect : Effect) (frames : List Frame) (w : World) :
    Machine :=
  match effect with
  | .proceed control => ⟨control, frames, w⟩
  | .lookUp name p s =>
    match w.store.get? s name with
    | some v => reply (.value v) frames w
    | none => fail (.undefinedVariable name) p frames w
  | .define name v s =>
    reply (.flow .normal) frames { w with store := w.store.define s name v }
  | .assign name v p s =>
    match w.store.assign? s name v with
    | some store => reply (.value v) frames { w with store := store }
    | none => fail (.undeclaredAssignment name) p frames w
  | .declare name parameters body s =>
    let (f, store) := w.store.newFunction s name parameters body
    reply (.flow .normal) frames { w with store := store.define s name (.function f) }
  | .enterBlock body s =>
    let (inner, store) := w.store.newScope (some s)
    runAll body inner (.leaveBlock inner :: frames) { w with store := store }
  | .call f arguments p => call f arguments p frames w
  | .tell event => reply (.flow .normal) frames (w.tell event)
  | .leaveBlock a s =>
    reply a frames { w with store := leaving w.store (heldOnTheWay a frames) s }
  | .leaveCall a s =>
    reply (callAnswer a) frames
      { w with
        store := leaving w.store (heldOnTheWay a frames) s
        callDepth := w.callDepth - 1 }

/-- Make a move above some frames. -/
abbrev make (leaving : Store.Leaving) (mv : Move) (below : List Frame) (w : World) : Machine :=
  perform leaving mv.effect (mv.pushed ++ below) w

/-- One step, when scopes are left in the given way. -/
def stepLeaving (leaving : Store.Leaving) (m : Machine) : Machine :=
  match m.control, m.frames with
  | .evaluate e s, frames => make leaving (e.move s) frames m.world
  | .execute stmt s, frames => make leaving (stmt.move s) frames m.world
  | .answer a, frame :: frames => make leaving (frame.move a) frames m.world
  | .answer _, [] => m

/-- At most `fuel` steps, when scopes are left in the given way. -/
def runLeaving (leaving : Store.Leaving) : (fuel : Nat) → Machine → Machine
  | 0, m => m
  | fuel + 1, m =>
    match m.result? with
    | some _ => m
    | none => runLeaving leaving fuel (m.stepLeaving leaving)

section StepEq

variable (frames : List Frame) (w : World)

theorem replyWith_eq (r : Except RuntimeError Value) :
    replyWith r frames w = reply (.ofResult r) frames w := by
  cases r <;> rfl

theorem evaluateStep_eq (e : Expr) (s : ScopeId) :
    evaluateStep e s frames w = make Store.leave (e.move s) frames w := by
  cases e <;> rfl

theorem executeStep_eq (stmt : Stmt) (s : ScopeId) :
    executeStep stmt s frames w = make Store.leave (stmt.move s) frames w := by
  cases stmt with
  | declare name initial p => cases initial <;> rfl
  | return_ value p => cases value <;> rfl
  | _ => rfl

theorem nextArgument_eq (f : Value) (done : List Value) (remaining : List Expr) (p : Position)
    (s : ScopeId) :
    nextArgument f done remaining p s frames w
      = make Store.leave (.nextArgument f done remaining p s) frames w := by
  cases remaining <;> rfl

theorem valueStep_eq (v : Value) (frame : Frame) :
    valueStep v frame frames w = make Store.leave (frame.valueMove v) frames w := by
  cases frame with
  | leftOperand op right p s =>
    unfold valueStep Frame.valueMove
    dsimp only
    cases op.decided? v <;> rfl
  | rightOperand op left p => exact replyWith_eq frames w _
  | operand op p => exact replyWith_eq frames w _
  | callee arguments p s => exact nextArgument_eq frames w v [] arguments p s
  | argument f done remaining p s => exact nextArgument_eq frames w f (v :: done) remaining p s
  | branch yes no s =>
    unfold valueStep Frame.valueMove
    dsimp only
    split
    · rfl
    · cases no <;> rfl
  | loopTest test body s =>
    unfold valueStep Frame.valueMove
    dsimp only
    split <;> rfl
  | _ => rfl

theorem nextStatement_eq (remaining : List Stmt) (echo : Bool) (s : ScopeId) :
    nextStatement remaining echo s frames w
      = make Store.leave (.nextStatement remaining echo s) frames w := by
  cases remaining with
  | nil => rfl
  | cons stmt rest => cases echo <;> cases stmt <;> rfl

theorem flowStep_eq (f : Flow) (frame : Frame) :
    flowStep f frame frames w = make Store.leave (frame.flowMove f) frames w := by
  cases frame with
  | sequence remaining s => cases remaining <;> cases f <;> rfl
  | program remaining echo s =>
    cases f with
    | normal => exact nextStatement_eq frames w remaining echo s
    | _ => rfl
  | loopBody test body s => cases f <;> rfl
  | _ => rfl

theorem answerStep_eq (a : Answer) (frame : Frame) :
    answerStep a frame frames w = make Store.leave (frame.move a) frames w := by
  -- A frame that leaves a scope does not look at the answer.
  cases hleft : frame.left? with
  | some s => cases frame <;> first | rfl | cases hleft
  | none =>
    cases a with
    | value v =>
      have hvalue := valueStep_eq frames w v frame
      cases frame <;> first | exact hvalue | cases hleft
    | flow f =>
      have hflow := flowStep_eq frames w f frame
      cases frame <;> first | exact hflow | cases hleft
    | error e => cases frame <;> rfl

end StepEq

/-- **The machine makes these moves**, and leaves scopes by `Store.leave`. -/
theorem step_eq (m : Machine) : m.step = m.stepLeaving Store.leave := by
  obtain ⟨control, frames, w⟩ := m
  cases control with
  | evaluate e s => exact evaluateStep_eq frames w e s
  | execute stmt s => exact executeStep_eq frames w stmt s
  | answer a =>
    cases frames with
    | nil => rfl
    | cons frame frames => exact answerStep_eq frames w a frame

theorem stepLeaving_of_moves {control : Control} {frames below : List Frame} {mv : Move}
    (h : Moves control frames mv below) (leaving : Store.Leaving) (w : World) :
    stepLeaving leaving ⟨control, frames, w⟩ = make leaving mv below w := by
  cases h <;> rfl

/-- A machine makes a move, or has nothing left to do and stays as it is. -/
theorem stepLeaving_cases (m : Machine) :
    (∃ mv below, Moves m.control m.frames mv below ∧
        ∀ leaving, m.stepLeaving leaving = make leaving mv below m.world) ∨
      ((∃ a, m.result? = some a) ∧ ∀ leaving, m.stepLeaving leaving = m) := by
  obtain ⟨control, frames, w⟩ := m
  cases control with
  | evaluate e s => exact .inl ⟨_, _, .evaluate e s frames, fun _ => rfl⟩
  | execute stmt s => exact .inl ⟨_, _, .execute stmt s frames, fun _ => rfl⟩
  | answer a =>
    cases frames with
    | nil => exact .inr ⟨⟨a, rfl⟩, fun _ => rfl⟩
    | cons frame frames => exact .inl ⟨_, _, .answer a frame frames, fun _ => rfl⟩

/-- An error passes every frame by, and at the most a scope is left on the way. -/
theorem step_error (e : RuntimeError) (frame : Frame) (frames : List Frame) (w : World) :
    ∃ store depth, step ⟨.answer (.error e), frame :: frames, w⟩
      = reply (.error e) frames { w with store := store, callDepth := depth } := by
  cases frame <;> exact ⟨_, _, rfl⟩

/-! ## Runs as repeated steps -/

section Runs

variable {leaving : Store.Leaving} {m : Machine} {a : Answer}

theorem stepLeaving_of_result? (h : m.result? = some a) : m.stepLeaving leaving = m := by
  unfold result? at h
  unfold stepLeaving
  split at h
  · next hc hf => rw [hc, hf]
  · cases h

theorem runLeaving_of_result? (h : m.result? = some a) (n : Nat) : m.runLeaving leaving n = m := by
  cases n with
  | zero => rfl
  | succ n => rw [runLeaving, h]

/-- A finished machine stays as it is, so a run may be taken as so many steps. -/
theorem runLeaving_succ (leaving : Store.Leaving) (m : Machine) (n : Nat) :
    m.runLeaving leaving (n + 1) = (m.stepLeaving leaving).runLeaving leaving n := by
  rw [runLeaving]
  cases h : m.result? with
  | none => rfl
  | some a => rw [stepLeaving_of_result? h, runLeaving_of_result? h]

/-- What every step keeps, every run keeps. -/
theorem runLeaving_keeps {P : Machine → Prop} (hstep : ∀ m, P m → P (m.stepLeaving leaving))
    (h : P m) (n : Nat) : P (m.runLeaving leaving n) := by
  induction n generalizing m with
  | zero => exact h
  | succ n ih =>
    rw [runLeaving_succ]
    exact ih (hstep m h)

theorem run_eq (m : Machine) (n : Nat) : m.run n = m.runLeaving Store.leave n := by
  induction n generalizing m with
  | zero => rfl
  | succ n ih =>
    rw [run, runLeaving]
    cases m.result? with
    | some a => rfl
    | none => rw [step_eq]; exact ih _

theorem run_of_result? (h : m.result? = some a) (n : Nat) : m.run n = m := by
  rw [run_eq, runLeaving_of_result? h]

theorem run_succ (m : Machine) (n : Nat) : m.run (n + 1) = m.step.run n := by
  rw [run_eq, runLeaving_succ, ← run_eq, step_eq]

theorem run_keeps {P : Machine → Prop} (hstep : ∀ m, P m → P m.step) (h : P m) (n : Nat) :
    P (m.run n) := by
  rw [run_eq]
  exact runLeaving_keeps (fun m hm => step_eq m ▸ hstep m hm) h n

theorem run_add (m : Machine) (n k : Nat) : m.run (n + k) = (m.run n).run k := by
  induction n generalizing m with
  | zero => rw [Nat.zero_add]; rfl
  | succ n ih => rw [Nat.succ_add, run_succ, run_succ, ih]

/-- A run that is over is not changed by more steps. -/
theorem run_of_le {n k : Nat} (h : (m.run n).result? = some a) (hle : n ≤ k) :
    m.run k = m.run n := by
  rw [← Nat.add_sub_cancel' hle, run_add, run_of_result? h]

end Runs

end Machine

/-! ## Bounds -/

/-- Bounds to what a machine mentions. -/
structure Bounds where
  /-- Code that is run in a scope. -/
  runs : Code → ScopeId → Prop := fun _ _ => True
  /-- Scopes that are worked in or left. -/
  works : ScopeId → Prop := fun _ => True
  /-- Scopes that are left. -/
  leaves : ScopeId → Prop := fun _ => True
  /-- Functions that are known. -/
  knows : Closure → Prop := fun _ => True
  /-- Errors that something fails with. -/
  fails : RuntimeError → Prop := fun _ => True
  /-- Whether values of expression statements are told. -/
  echoes : Prop := True

/-- With code its parts are inside of the bounds, and with an expression its errors. -/
structure Bounds.Sealed (b : Bounds) : Prop where
  part {code part : Code} {s : ScopeId} : b.runs code s → part ∈ code.parts → b.runs part s
  raised {e : Expr} {s : ScopeId} {fault : RuntimeFault} : b.runs (.expression e) s →
    e.Raises fault → b.fails ⟨fault, e.position⟩

/-- The machine forgets an expression or a statement as soon as its parts are being run: what is
left of it waits in a frame. This says of a frame that there is such code that it was left by. Of
a call some arguments have been evaluated. -/
def Frame.Waits (runs : Code → ScopeId → Prop) : Frame → Prop
  | leftOperand op right p s => ∃ left, runs (.expression (.binary op left right p)) s
  | rightOperand op _ p => ∃ left right s, runs (.expression (.binary op left right p)) s
  | operand op p => ∃ e s, runs (.expression (.unary op e p)) s
  | assignTo name p s => ∃ e, runs (.expression (.assign name e p)) s
  | callee arguments p s => ∃ f, runs (.expression (.call f arguments p)) s
  | argument _ done remaining p s => ∃ f evaluated,
      runs (.expression (.call f (evaluated ++ remaining) p)) s ∧ evaluated.length = done.length + 1
  | declareAs name s => ∃ e p, runs (.statement (.declare name (some e) p)) s
  | branch yes no s => ∃ test p, runs (.statement (.cond test yes no p)) s
  | loopTest test body s | loopBody test body s => ∃ p, runs (.statement (.loop test body p)) s
  | sequence remaining s | program remaining _ s => ∀ stmt ∈ remaining, runs (.statement stmt) s
  | discard | printing | returning | echoing | leaveBlock _ | leaveCall _ => True

/-- The frame is inside of the bounds. -/
structure Frame.KeepsTo (b : Bounds) (frame : Frame) : Prop where
  code : frame.Waits b.runs
  scopes : ∀ s ∈ frame.scopes, b.works s
  leaves : ∀ s, frame.left? = some s → b.leaves s
  values : ∀ v ∈ frame.values, v.Meets b.knows
  echoes : frame.echoes = true → b.echoes

/-- The answer is inside of the bounds. -/
structure Answer.KeepsTo (b : Bounds) (a : Answer) : Prop where
  held : ∀ v ∈ a.held, v.Meets b.knows
  failed : ∀ e, a = .error e → b.fails e

/-- What the machine is doing is inside of the bounds. -/
def Control.KeepsTo (b : Bounds) : Control → Prop
  | evaluate e s => b.works s ∧ b.runs (.expression e) s
  | execute stmt s => b.works s ∧ b.runs (.statement stmt) s
  | answer a => a.KeepsTo b

/-- What is asked of the world is inside of the bounds. -/
def Effect.KeepsTo (b : Bounds) : Effect → Prop
  | proceed control => control.KeepsTo b
  | lookUp name p s => b.works s ∧ b.runs (.expression (.var name p)) s
  | define name v s => b.works s ∧ v.Meets b.knows ∧
      ∃ initial p, b.runs (.statement (.declare name initial p)) s
  | assign name v p s => b.works s ∧ v.Meets b.knows ∧
      ∃ e, b.runs (.expression (.assign name e p)) s
  | declare name parameters body s => b.works s ∧
      ∃ p, b.runs (.statement (.function name parameters body p)) s
  | enterBlock body s => b.works s ∧ ∃ p, b.runs (.statement (.block body p)) s
  | call f arguments p => f.Meets b.knows ∧ (∀ v ∈ arguments, v.Meets b.knows) ∧
      ∃ callee es s, b.runs (.expression (.call callee es p)) s ∧ es.length = arguments.length
  | tell event => (∃ text, event = .print text) ∨ b.echoes ∧ ∃ text, event = .value text
  | leaveBlock a s | leaveCall a s => b.works s ∧ b.leaves s ∧ a.KeepsTo b

/-- A move inside of the bounds leaves no scope by the frames that it pushes. -/
structure Move.KeepsTo (b : Bounds) (mv : Move) : Prop where
  effect : mv.effect.KeepsTo b
  pushed : ∀ frame ∈ mv.pushed, frame.KeepsTo b
  stays : ∀ frame ∈ mv.pushed, frame.left? = none

section KeepsTo

variable {b : Bounds}

theorem Answer.KeepsTo.value {v : Value} (h : v.Meets b.knows) : (Answer.value v).KeepsTo b :=
  ⟨List.forall_mem_singleton.mpr h, fun e he => by cases he⟩

theorem Answer.KeepsTo.error {e : RuntimeError} (h : b.fails e) : (Answer.error e).KeepsTo b := by
  refine ⟨fun v hv => (by cases hv), fun e' he => ?_⟩
  cases he
  exact h

theorem Answer.KeepsTo.normal : (Answer.flow .normal).KeepsTo b :=
  ⟨fun v hv => (by cases hv), fun e he => (by cases he)⟩

theorem Answer.KeepsTo.ofResult {r : Except RuntimeError Value}
    (hok : ∀ v, r = .ok v → v.Meets b.knows) (herror : FailsOnlyWith b.fails r) :
    (Answer.ofResult r).KeepsTo b := by
  cases r with
  | ok v => exact .value (hok v rfl)
  | error e => exact .error (herror e rfl)

theorem Answer.KeepsTo.callAnswer {a : Answer} (h : a.KeepsTo b) :
    (Machine.callAnswer a).KeepsTo b := by
  cases a with
  | value v => exact h
  | error e => exact h
  | flow f =>
    cases f with
    | return_ v => exact .value (h.held v List.mem_cons_self)
    | _ => exact .value trivial

/-- A frame that waits with code in a scope, and nothing else. -/
theorem Frame.KeepsTo.ofCode {frame : Frame} {s : ScopeId} (hcode : frame.Waits b.runs)
    (hs : b.works s) (hscopes : ∀ t ∈ frame.scopes, t = s) (hleft : frame.left? = none)
    (hvalues : frame.values = []) (hecho : frame.echoes = false) : frame.KeepsTo b where
  code := hcode
  scopes t ht := hscopes t ht ▸ hs
  leaves t ht := by rw [hleft] at ht; cases ht
  values v hv := by rw [hvalues] at hv; cases hv
  echoes he := by rw [hecho] at he; cases he

/-- The statements that are left of a program. -/
theorem Frame.KeepsTo.ofProgram {remaining : List Stmt} {echo : Bool} {s : ScopeId}
    (hcode : ∀ stmt ∈ remaining, b.runs (.statement stmt) s) (hs : b.works s)
    (hecho : echo = true → b.echoes) : (Frame.program remaining echo s).KeepsTo b :=
  ⟨hcode, List.forall_mem_singleton.mpr hs, fun t ht => (by cases ht), fun v hv => (by cases hv),
    hecho⟩

/-- A scope of a block or a call that is left when the time comes. -/
theorem Frame.KeepsTo.ofLeaving {frame : Frame} {s : ScopeId} (hleft : frame.left? = some s)
    (hs : b.works s) (hl : b.leaves s) : frame.KeepsTo b := by
  cases frame <;> cases hleft
  all_goals
    exact ⟨trivial, List.forall_mem_singleton.mpr hs, fun t ht => (by cases ht; exact hl),
      fun v hv => (by cases hv), fun he => (by cases he)⟩

theorem Move.KeepsTo.answer {a : Answer} (h : a.KeepsTo b) : (Move.answer a).KeepsTo b :=
  ⟨h, fun _ hf => absurd hf List.not_mem_nil, fun _ hf => absurd hf List.not_mem_nil⟩

/-- A move that pushes no frame. -/
theorem Move.KeepsTo.alone {effect : Effect} (h : effect.KeepsTo b) : Move.KeepsTo b ⟨effect, []⟩ :=
  ⟨h, fun _ hf => absurd hf List.not_mem_nil, fun _ hf => absurd hf List.not_mem_nil⟩

/-- A move that pushes one frame. -/
theorem Move.KeepsTo.push {effect : Effect} {frame : Frame} (h : effect.KeepsTo b)
    (hframe : frame.KeepsTo b) (hleft : frame.left? = none) : Move.KeepsTo b ⟨effect, [frame]⟩ :=
  ⟨h, List.forall_mem_singleton.mpr hframe, List.forall_mem_singleton.mpr hleft⟩

end KeepsTo

/-! ### Moves keep to bounds -/

section Moves

variable {b : Bounds} (hb : b.Sealed)

include hb

theorem Expr.move_keepsTo {e : Expr} {s : ScopeId} (hs : b.works s)
    (he : b.runs (.expression e) s) : (e.move s).KeepsTo b := by
  have hpart : ∀ code ∈ (Code.expression e).parts, b.runs code s := fun _ hc => hb.part he hc
  -- Every expression with parts begins with the first one; a frame waits with the rest.
  have hpush : ∀ {first : Expr} {frame : Frame}, b.runs (.expression first) s →
      frame.Waits b.runs → (∀ t ∈ frame.scopes, t = s) → frame.left? = none → frame.values = [] →
      frame.echoes = false → (Move.evaluate first s [frame]).KeepsTo b :=
    fun hfirst hcode hscopes hleft hvalues hecho =>
      Move.KeepsTo.push ⟨hs, hfirst⟩ (.ofCode hcode hs hscopes hleft hvalues hecho) hleft
  cases e with
  | literal l p => exact Move.KeepsTo.answer (.value (Value.meets_ofLiteral l))
  | var name p => exact Move.KeepsTo.alone ⟨hs, he⟩
  | unary op e p =>
    exact hpush (hpart _ List.mem_cons_self) ⟨e, s, he⟩ (by simp [Frame.scopes]) rfl rfl rfl
  | binary op left right p =>
    exact hpush (hpart _ List.mem_cons_self) ⟨left, he⟩ (by simp [Frame.scopes]) rfl rfl rfl
  | call f arguments p =>
    exact hpush (hpart _ List.mem_cons_self) ⟨f, he⟩ (by simp [Frame.scopes]) rfl rfl rfl
  | assign name e p =>
    exact hpush (hpart _ List.mem_cons_self) ⟨e, he⟩ (by simp [Frame.scopes]) rfl rfl rfl
  | group e p => exact Move.KeepsTo.alone ⟨hs, hpart _ List.mem_cons_self⟩

theorem Stmt.move_keepsTo {stmt : Stmt} {s : ScopeId} (hs : b.works s)
    (hstmt : b.runs (.statement stmt) s) : (stmt.move s).KeepsTo b := by
  have hpart : ∀ code ∈ (Code.statement stmt).parts, b.runs code s := fun _ hc => hb.part hstmt hc
  have hpush : ∀ {first : Expr} {frame : Frame}, b.runs (.expression first) s →
      frame.Waits b.runs → (∀ t ∈ frame.scopes, t = s) → frame.left? = none → frame.values = [] →
      frame.echoes = false → (Move.evaluate first s [frame]).KeepsTo b :=
    fun hfirst hcode hscopes hleft hvalues hecho =>
      Move.KeepsTo.push ⟨hs, hfirst⟩ (.ofCode hcode hs hscopes hleft hvalues hecho) hleft
  have hflow : ∀ f : Flow, (Answer.flow f).held = [] → (Move.answer (.flow f)).KeepsTo b := by
    intro f hheld
    refine Move.KeepsTo.answer ⟨fun v hv => ?_, fun e he => (by cases he)⟩
    rw [hheld] at hv
    cases hv
  cases stmt with
  | expression e p =>
    exact hpush (hpart _ List.mem_cons_self) trivial (by simp [Frame.scopes]) rfl rfl rfl
  | declare name initial p =>
    cases initial with
    | none => exact Move.KeepsTo.alone ⟨hs, trivial, none, p, hstmt⟩
    | some e =>
      exact hpush (hpart _ List.mem_cons_self) ⟨e, p, hstmt⟩ (by simp [Frame.scopes]) rfl rfl rfl
  | block body p => exact Move.KeepsTo.alone ⟨hs, p, hstmt⟩
  | cond test yes no p =>
    exact hpush (hpart _ List.mem_cons_self) ⟨test, p, hstmt⟩ (by simp [Frame.scopes]) rfl rfl rfl
  | loop test body p =>
    exact hpush (hpart _ List.mem_cons_self) ⟨p, hstmt⟩ (by simp [Frame.scopes]) rfl rfl rfl
  | function name parameters body p => exact Move.KeepsTo.alone ⟨hs, p, hstmt⟩
  | return_ value p =>
    cases value with
    | none =>
      refine Move.KeepsTo.answer ⟨fun v hv => ?_, fun e he => (by cases he)⟩
      rw [List.mem_singleton.mp hv]
      trivial
    | some e =>
      exact hpush (hpart _ List.mem_cons_self) trivial (by simp [Frame.scopes]) rfl rfl rfl
  | print e p =>
    exact hpush (hpart _ List.mem_cons_self) trivial (by simp [Frame.scopes]) rfl rfl rfl
  | break_ p => exact hflow _ rfl
  | continue_ p => exact hflow _ rfl

/-- Of a call with `done` evaluated, the next argument is begun. -/
theorem Move.nextArgument_keepsTo {f : Value} {done : List Value} {callee : Expr}
    {evaluated remaining : List Expr} {p : Position} {s : ScopeId} (hs : b.works s)
    (hf : f.Meets b.knows) (hdone : ∀ v ∈ done, v.Meets b.knows)
    (hcall : b.runs (.expression (.call callee (evaluated ++ remaining) p)) s)
    (hlength : evaluated.length = done.length) :
    (Move.nextArgument f done remaining p s).KeepsTo b := by
  cases remaining with
  | nil =>
    rw [List.append_nil] at hcall
    refine Move.KeepsTo.alone ⟨hf, fun v hv => hdone v (List.mem_reverse.mp hv), ?_⟩
    exact ⟨callee, evaluated, s, hcall, by rw [List.length_reverse, hlength]⟩
  | cons e es =>
    have he : Code.expression e ∈ (Code.expression (.call callee (evaluated ++ e :: es) p)).parts :=
      List.mem_cons_of_mem _ (List.mem_map.mpr ⟨e, by simp, rfl⟩)
    have hnext : evaluated ++ e :: es = (evaluated ++ [e]) ++ es := by simp
    refine Move.KeepsTo.push ⟨hs, hb.part hcall he⟩ ⟨?_, ?_, ?_, ?_, ?_⟩ rfl
    · refine ⟨callee, evaluated ++ [e], hnext ▸ hcall, ?_⟩
      rw [List.length_append, List.length_singleton, hlength]
    · exact List.forall_mem_singleton.mpr hs
    · intro t ht
      cases ht
    · exact List.forall_mem_cons.mpr ⟨hf, hdone⟩
    · intro he
      cases he

/-- Of an expression statement whose value is to be told, only the expression is begun. -/
theorem Move.nextStatement_keepsTo {remaining : List Stmt} {echo : Bool} {s : ScopeId}
    (hs : b.works s) (hall : ∀ stmt ∈ remaining, b.runs (.statement stmt) s)
    (hecho : echo = true → b.echoes) : (Move.nextStatement remaining echo s).KeepsTo b := by
  cases remaining with
  | nil => exact Move.KeepsTo.answer .normal
  | cons stmt rest =>
    obtain ⟨hfirst, hrest⟩ := List.forall_mem_cons.mp hall
    have hprogram : (Frame.program rest echo s).KeepsTo b := .ofProgram hrest hs hecho
    unfold Move.nextStatement
    dsimp only
    split
    · have htelling : Frame.echoing.KeepsTo b :=
        ⟨trivial, fun t ht => (by cases ht), fun t ht => (by cases ht), fun v hv => (by cases hv),
          fun _ => hecho rfl⟩
      refine ⟨⟨hs, hb.part hfirst List.mem_cons_self⟩, ?_, ?_⟩
      · exact List.forall_mem_cons.mpr ⟨htelling, List.forall_mem_singleton.mpr hprogram⟩
      · exact List.forall_mem_cons.mpr ⟨rfl, List.forall_mem_singleton.mpr rfl⟩
    · exact Move.KeepsTo.push ⟨hs, hfirst⟩ hprogram rfl

/-- Whatever a frame makes of a value is for the code that it waits for. -/
theorem Frame.valueMove_keepsTo {frame : Frame} (hframe : frame.KeepsTo b) {v : Value}
    (hv : v.Meets b.knows) : (frame.valueMove v).KeepsTo b := by
  obtain ⟨hcode, hscopes, -, hvalues, hecho⟩ := hframe
  have hvalue : ∀ {u : Value}, u.Meets b.knows → (Move.answer (.value u)).KeepsTo b :=
    fun hu => Move.KeepsTo.answer (.value hu)
  have hnormal : (Move.answer (.flow .normal)).KeepsTo b := Move.KeepsTo.answer .normal
  cases frame with
  | leftOperand op right p s =>
    obtain ⟨left, hnode⟩ := hcode
    unfold valueMove
    dsimp only
    split
    · next u hu =>
      rw [BinaryOperator.eq_of_decided? hu]
      exact hvalue hv
    · have hright : b.runs (.expression right) s :=
        hb.part hnode (List.mem_cons_of_mem _ List.mem_cons_self)
      refine Move.KeepsTo.push ⟨hscopes s List.mem_cons_self, hright⟩ ⟨⟨left, right, s, hnode⟩,
        fun t ht => (by cases ht), fun t ht => (by cases ht), List.forall_mem_singleton.mpr hv,
        fun he => (by cases he)⟩ rfl
  | rightOperand op left p =>
    obtain ⟨first, second, s, hnode⟩ := hcode
    refine Move.KeepsTo.answer (.ofResult (fun u hu => ?_) fun e he => ?_)
    · exact BinaryOperator.apply_meets (hvalues left List.mem_cons_self) hv hu
    · obtain ⟨hraises, rfl⟩ := BinaryOperator.raises_of_apply he
      exact hb.raised hnode (.operation first second _ hraises)
  | operand op p =>
    obtain ⟨e, s, hnode⟩ := hcode
    refine Move.KeepsTo.answer (.ofResult (fun u hu => ?_) fun err herr => ?_)
    · refine Value.meets_of_ne_function fun f hf => ?_
      rw [hf] at hu
      exact UnaryOperator.apply_ne_function op v p f hu
    · obtain ⟨hraises, rfl⟩ := UnaryOperator.raises_of_apply herr e
      exact hb.raised hnode hraises
  | assignTo name p s => exact Move.KeepsTo.alone ⟨hscopes s List.mem_cons_self, hv, hcode⟩
  | callee arguments p s =>
    obtain ⟨f, hnode⟩ := hcode
    have hnone : b.runs (.expression (.call f ([] ++ arguments) p)) s := hnode
    exact Move.nextArgument_keepsTo hb (hscopes s List.mem_cons_self) hv
      (fun u hu => (by cases hu)) hnone rfl
  | argument f done remaining p s =>
    obtain ⟨callee, evaluated, hnode, hlength⟩ := hcode
    obtain ⟨hf, hdone⟩ := List.forall_mem_cons.mp hvalues
    exact Move.nextArgument_keepsTo hb (hscopes s List.mem_cons_self) hf
      (List.forall_mem_cons.mpr ⟨hv, hdone⟩) hnode hlength
  | discard => exact hnormal
  | declareAs name s =>
    obtain ⟨e, p, hnode⟩ := hcode
    exact Move.KeepsTo.alone ⟨hscopes s List.mem_cons_self, hv, some e, p, hnode⟩
  | branch yes no s =>
    obtain ⟨test, p, hnode⟩ := hcode
    have hs := hscopes s List.mem_cons_self
    unfold valueMove
    dsimp only
    split
    · exact Move.KeepsTo.alone
        ⟨hs, hb.part hnode (List.mem_cons_of_mem _ List.mem_cons_self)⟩
    · cases no with
      | some stmt =>
        exact Move.KeepsTo.alone ⟨hs, hb.part hnode
          (List.mem_cons_of_mem _ (List.mem_cons_of_mem _ List.mem_cons_self))⟩
      | none => exact hnormal
  | loopTest test body s =>
    obtain ⟨p, hnode⟩ := hcode
    have hs := hscopes s List.mem_cons_self
    unfold valueMove
    dsimp only
    split
    · exact Move.KeepsTo.push
        ⟨hs, hb.part hnode (List.mem_cons_of_mem _ List.mem_cons_self)⟩
        (.ofCode ⟨p, hnode⟩ hs (by simp [scopes]) rfl rfl rfl) rfl
    · exact hnormal
  | printing => exact Move.KeepsTo.alone (.inl ⟨v.text, rfl⟩)
  | returning =>
    exact Move.KeepsTo.answer ⟨List.forall_mem_singleton.mpr hv, fun e he => (by cases he)⟩
  | echoing => exact Move.KeepsTo.alone (.inr ⟨hecho rfl, v.text, rfl⟩)
  | sequence | program | loopBody | leaveBlock | leaveCall => exact hvalue hv

theorem Frame.flowMove_keepsTo {frame : Frame} (hframe : frame.KeepsTo b) {f : Flow}
    (hf : (Answer.flow f).KeepsTo b) : (frame.flowMove f).KeepsTo b := by
  obtain ⟨hcode, hscopes, -, -, hecho⟩ := hframe
  unfold flowMove
  split
  · obtain ⟨hfirst, hrest⟩ := List.forall_mem_cons.mp hcode
    have hs := hscopes _ List.mem_cons_self
    exact Move.KeepsTo.push ⟨hs, hfirst⟩ (.ofCode hrest hs (by simp [scopes]) rfl rfl rfl) rfl
  · exact Move.nextStatement_keepsTo hb (hscopes _ List.mem_cons_self) hcode hecho
  -- The next round of a loop, after the end of its body or a `continue`.
  iterate 2
    · obtain ⟨p, hnode⟩ := hcode
      have hs := hscopes _ List.mem_cons_self
      exact Move.KeepsTo.push ⟨hs, hb.part hnode List.mem_cons_self⟩
        (.ofCode ⟨p, hnode⟩ hs (by simp [scopes]) rfl rfl rfl) rfl
  · exact Move.KeepsTo.answer .normal
  · exact Move.KeepsTo.answer hf

theorem Frame.move_keepsTo {frame : Frame} (hframe : frame.KeepsTo b) {a : Answer}
    (ha : a.KeepsTo b) : (frame.move a).KeepsTo b := by
  unfold move
  split
  · exact Move.KeepsTo.alone ⟨hframe.scopes _ List.mem_cons_self, hframe.leaves _ rfl, ha⟩
  · exact Move.KeepsTo.alone ⟨hframe.scopes _ List.mem_cons_self, hframe.leaves _ rfl, ha⟩
  · exact Frame.valueMove_keepsTo hb hframe (ha.held _ List.mem_cons_self)
  · exact Frame.flowMove_keepsTo hb hframe ha
  · exact Move.KeepsTo.answer ha

/-- **A move mentions nothing new.** -/
theorem Moves.keepsTo {control : Control} {frames below : List Frame} {mv : Move}
    (h : Moves control frames mv below) (hcontrol : control.KeepsTo b)
    (hframes : ∀ frame ∈ frames, frame.KeepsTo b) :
    mv.KeepsTo b ∧ ∀ frame ∈ below, frame.KeepsTo b := by
  cases h with
  | evaluate e s => exact ⟨Expr.move_keepsTo hb hcontrol.1 hcontrol.2, hframes⟩
  | execute stmt s => exact ⟨Stmt.move_keepsTo hb hcontrol.1 hcontrol.2, hframes⟩
  | answer a frame =>
    obtain ⟨hframe, hbelow⟩ := List.forall_mem_cons.mp hframes
    exact ⟨Frame.move_keepsTo hb hframe hcontrol, hbelow⟩

end Moves

/-! ### Leaving and staying -/

/-- Where any code may run, any frame may wait. -/
theorem Frame.waits_of_forall {runs : Code → ScopeId → Prop} (h : ∀ code s, runs code s)
    (frame : Frame) : frame.Waits runs := by
  have somewhere : Position := .start
  cases frame with
  | leftOperand op right p s => exact ⟨right, h _ _⟩
  | rightOperand op left p =>
    exact ⟨.var "" somewhere, .var "" somewhere, 0, h _ _⟩
  | operand op p => exact ⟨.var "" somewhere, 0, h _ _⟩
  | assignTo name p s => exact ⟨.var name p, h _ _⟩
  | callee arguments p s => exact ⟨.var "" somewhere, h _ _⟩
  | argument f done remaining p s =>
    exact ⟨.var "" p, List.replicate (done.length + 1) (.var "" p), h _ _, List.length_replicate⟩
  | declareAs name s => exact ⟨.var name somewhere, somewhere, h _ _⟩
  | branch yes no s => exact ⟨.var "" somewhere, somewhere, h _ _⟩
  | loopTest test body s => exact ⟨somewhere, h _ _⟩
  | loopBody test body s => exact ⟨somewhere, h _ _⟩
  | sequence remaining s => exact fun stmt _ => h _ _
  | program remaining echo s => exact fun stmt _ => h _ _
  | _ => trivial

/-- Bounds to the scopes that are left and to what is told, and to nothing else. -/
def Bounds.loose (leaves : ScopeId → Prop) (echoes : Prop) : Bounds :=
  { leaves := leaves, echoes := echoes }

section Loose

variable {leaves : ScopeId → Prop} {echoes : Prop}

theorem Bounds.loose_sealed : (loose leaves echoes).Sealed :=
  ⟨fun _ _ => trivial, fun _ _ => trivial⟩

theorem Value.meets_of_forall {P : Closure → Prop} (h : ∀ f, P f) (v : Value) : v.Meets P := by
  cases v with
  | function f => exact h f
  | _ => trivial

theorem Frame.keepsTo_loose {frame : Frame} (hleft : ∀ s, frame.left? = some s → leaves s)
    (hecho : frame.echoes = true → echoes) : frame.KeepsTo (.loose leaves echoes) where
  code := frame.waits_of_forall fun _ _ => trivial
  scopes _ _ := trivial
  leaves := hleft
  values v _ := v.meets_of_forall fun _ => trivial
  echoes := hecho

theorem Answer.keepsTo_loose (a : Answer) : a.KeepsTo (.loose leaves echoes) :=
  ⟨fun v _ => v.meets_of_forall fun _ => trivial, fun _ _ => trivial⟩

theorem Control.keepsTo_loose (control : Control) : control.KeepsTo (.loose leaves echoes) := by
  cases control with
  | answer a => exact a.keepsTo_loose
  | _ => exact ⟨trivial, trivial⟩

end Loose

/-- The scope that an effect leaves. -/
def Effect.left? : Effect → Option ScopeId
  | leaveBlock _ s | leaveCall _ s => some s
  | _ => none

/-- Whether an effect can enter braces: those of a block, or those of a function. -/
def Effect.enters : Effect → Bool
  | enterBlock .. | call (.function _) .. => true
  | _ => false

theorem Effect.KeepsTo.leaves {b : Bounds} {effect : Effect} {s : ScopeId} (h : effect.KeepsTo b)
    (hs : effect.left? = some s) : b.leaves s := by
  cases effect <;> cases hs
  · exact h.2.1
  · exact h.2.1

/-- **A scope is left by the frame that is there for it**, which sees every answer, and by nothing
else. All other moves put frames that leave nothing in the place of at most one such frame. -/
theorem Moves.cases_leaving {control : Control} {frames below : List Frame} {mv : Move}
    (h : Moves control frames mv below) :
    (∃ a s, control = .answer a ∧ frames = .leaveBlock s :: below ∧ mv = ⟨.leaveBlock a s, []⟩) ∨
      (∃ a s, control = .answer a ∧ frames = .leaveCall s :: below ∧ mv = ⟨.leaveCall a s, []⟩) ∨
      (mv.effect.left? = none ∧ (∀ frame ∈ mv.pushed, frame.left? = none) ∧
        (frames = below ∨ ∃ frame, frames = frame :: below ∧ frame.left? = none)) := by
  -- Nothing that is left was the scope of a frame that leaves: the bounds let no scope be left.
  have hnone : ∀ mv : Move, mv.KeepsTo (.loose (fun _ => False) True) →
      mv.effect.left? = none ∧ ∀ frame ∈ mv.pushed, frame.left? = none := by
    intro mv hmv
    refine ⟨?_, hmv.stays⟩
    cases hleft : mv.effect.left? with
    | none => rfl
    | some s => exact (hmv.effect.leaves hleft).elim
  have hb : (Bounds.loose (fun _ => False) True).Sealed := Bounds.loose_sealed
  cases h with
  | evaluate e s =>
    obtain ⟨he, hp⟩ := hnone _ (Expr.move_keepsTo hb trivial trivial)
    exact .inr (.inr ⟨he, hp, .inl rfl⟩)
  | execute stmt s =>
    obtain ⟨he, hp⟩ := hnone _ (Stmt.move_keepsTo hb trivial trivial)
    exact .inr (.inr ⟨he, hp, .inl rfl⟩)
  | answer a frame =>
    cases hleft : frame.left? with
    | none =>
      have hframe : frame.KeepsTo (.loose (fun _ => False) True) :=
        Frame.keepsTo_loose (fun s hs => by rw [hleft] at hs; cases hs) fun _ => trivial
      obtain ⟨he, hp⟩ := hnone _ (Frame.move_keepsTo hb hframe a.keepsTo_loose)
      exact .inr (.inr ⟨he, hp, .inr ⟨frame, rfl, hleft⟩⟩)
    | some s =>
      cases frame <;> cases hleft
      · exact .inl ⟨a, s, rfl, rfl, rfl⟩
      · exact .inr (.inl ⟨a, s, rfl, rfl, rfl⟩)

/-! ### Where effects come from -/

/-- The effects of a frame that takes an answer. A name is bound or assigned to, and a call is made,
by the frame that is there for it; a frame never looks a name up, enters a block or declares a
function. -/
inductive Frame.Yields : Frame → Answer → Effect → Prop
  | proceed (frame : Frame) (a : Answer) (control : Control) : Yields frame a (.proceed control)
  | define (name : String) (s : ScopeId) (v : Value) :
      Yields (.declareAs name s) (.value v) (.define name v s)
  | assign (name : String) (p : Position) (s : ScopeId) (v : Value) :
      Yields (.assignTo name p s) (.value v) (.assign name v p s)
  | callee (p : Position) (s : ScopeId) (v : Value) :
      Yields (.callee [] p s) (.value v) (.call v [] p)
  | argument (f : Value) (done : List Value) (p : Position) (s : ScopeId) (v : Value) :
      Yields (.argument f done [] p s) (.value v) (.call f (v :: done).reverse p)
  | tell (frame : Frame) (a : Answer) (event : Event) : Yields frame a (.tell event)
  | leaveBlock (s : ScopeId) (a : Answer) : Yields (.leaveBlock s) a (.leaveBlock a s)
  | leaveCall (s : ScopeId) (a : Answer) : Yields (.leaveCall s) a (.leaveCall a s)

theorem Frame.yields_valueMove (frame : Frame) (v : Value) :
    frame.Yields (.value v) (frame.valueMove v).effect := by
  cases frame with
  | callee arguments p s =>
    cases arguments with
    | nil => exact .callee ..
    | cons e es => exact .proceed ..
  | argument f done remaining p s =>
    cases remaining with
    | nil => exact .argument ..
    | cons e es => exact .proceed ..
  | leftOperand op right p s =>
    simp only [valueMove]
    split <;> exact .proceed ..
  | branch yes no s =>
    simp only [valueMove]
    split
    · exact .proceed ..
    · cases no <;> exact .proceed ..
  | loopTest test body s =>
    simp only [valueMove]
    split <;> exact .proceed ..
  | assignTo name p s => exact .assign name p s v
  | declareAs name s => exact .define name s v
  | printing => exact .tell ..
  | echoing => exact .tell ..
  | _ => exact .proceed ..

theorem Frame.yields_flowMove (frame : Frame) (f : Flow) :
    frame.Yields (.flow f) (frame.flowMove f).effect := by
  unfold flowMove
  split
  case h_2 remaining echo s =>
    cases remaining with
    | nil => exact .proceed ..
    | cons stmt rest =>
      simp only [Move.nextStatement]
      split <;> exact .proceed ..
  all_goals exact .proceed ..

theorem Frame.yields (frame : Frame) (a : Answer) : frame.Yields a (frame.move a).effect := by
  unfold move
  split
  · exact .leaveBlock _ a
  · exact .leaveCall _ a
  · exact yields_valueMove frame _
  · exact yields_flowMove frame _
  · exact .proceed ..

/-- A function is declared by the statement that does so. -/
theorem Moves.of_declare {control : Control} {frames below : List Frame} {mv : Move}
    (h : Moves control frames mv below) {name : String} {parameters : List String}
    {body : List Stmt} {s : ScopeId} (he : mv.effect = .declare name parameters body s) :
    ∃ p, control = .execute (.function name parameters body p) s := by
  cases h with
  | evaluate e => cases e <;> cases he
  | execute stmt =>
    cases stmt with
    | function name parameters body p =>
      cases he
      exact ⟨p, rfl⟩
    | declare name initial p => cases initial <;> cases he
    | return_ value p => cases value <;> cases he
    | _ => cases he
  | answer a frame =>
    have hyields := frame.yields a
    rw [he] at hyields
    cases hyields

/-- A name is assigned to by the frame that waits for its value. -/
theorem Moves.of_assign {control : Control} {frames below : List Frame} {mv : Move}
    (h : Moves control frames mv below) {name : String} {v : Value} {p : Position} {s : ScopeId}
    (he : mv.effect = .assign name v p s) :
    control = .answer (.value v) ∧ frames = .assignTo name p s :: below := by
  cases h with
  | evaluate e => cases e <;> cases he
  | execute stmt =>
    cases stmt with
    | declare name initial p => cases initial <;> cases he
    | return_ value p => cases value <;> cases he
    | _ => cases he
  | answer a frame =>
    have hyields := frame.yields a
    rw [he] at hyields
    cases hyields
    exact ⟨rfl, rfl⟩

/-! ## Calls -/

/-- The same world with another store. -/
def World.withStore (w : World) (store : Store) : World := { w with store := store }

@[simp] theorem World.withStore_store (w : World) (store : Store) :
    (w.withStore store).store = store := rfl

/-- The same machine with another store. -/
def Machine.withStore (m : Machine) (store : Store) : Machine :=
  { m with world := m.world.withStore store }

namespace Machine

/-- The world in which the body of a function is run, once its parameters have been bound. -/
def entered (g : Closure) (arguments : List Value) (w : World) : World :=
  { w with
    store := bindParameters (w.store.newScope (some g.scope)).2 w.store.nextScope g.parameters
      arguments
    callDepth := w.callDepth + 1 }

/-- A call that is made: the parameters are bound in a new scope, and the body runs in it. -/
theorem call_function {g : Closure} {arguments : List Value} {p : Position} {frames : List Frame}
    {w : World} (harity : g.parameters.length = arguments.length)
    (hdepth : w.callDepth < w.maxCallDepth) :
    call (.function g) arguments p frames w
      = runAll g.body w.store.nextScope (.leaveCall w.store.nextScope :: frames)
          (entered g arguments w) := by
  simp only [call]
  rw [if_neg (not_not.mpr harity), if_neg (Nat.not_le.mpr hdepth)]
  rfl

/-- A call that is refused because too many are active. -/
theorem call_function_too_deep {g : Closure} {arguments : List Value} {p : Position}
    {frames : List Frame} {w : World} (harity : g.parameters.length = arguments.length)
    (hdepth : ¬ w.callDepth < w.maxCallDepth) :
    call (.function g) arguments p frames w
      = fail (.callDepthExceeded w.maxCallDepth) p frames w := by
  simp only [call]
  rw [if_neg (not_not.mpr harity), if_pos (Nat.not_lt.mp hdepth)]

/-- A call that is refused because of the number of arguments. -/
theorem call_function_arity {g : Closure} {arguments : List Value} {p : Position}
    {frames : List Frame} {w : World} (harity : ¬ g.parameters.length = arguments.length) :
    call (.function g) arguments p frames w
      = fail (.argumentCount g.parameters.length arguments.length) p frames w := by
  simp only [call]
  rw [if_pos harity]

/-- **A call answers at once, or enters one of the program's functions.** Which of the two it is and
the answer do not depend on the frames or the store. An answer is no function, and uses at most
readings of the clock up; an error is one of a call. -/
theorem call_cases (f : Value) (arguments : List Value) (p : Position) (w : World) :
    (∃ r used, (∀ frames store, call f arguments p frames (w.withStore store)
          = reply (.ofResult r) frames
              { w.withStore store with readings := w.readings + used }) ∧
        (∀ g, r ≠ .ok (.function g)) ∧
        FailsOnlyWith (fun e => e.fault.OfCall arguments.length ∧ e.position = p) r) ∨
      ∃ g, f = .function g ∧ g.parameters.length = arguments.length ∧
        w.callDepth < w.maxCallDepth ∧
        ∀ frames store, call f arguments p frames (w.withStore store)
          = runAll g.body store.nextScope (.leaveCall store.nextScope :: frames)
              (entered g arguments (w.withStore store)) := by
  have hfault : ∀ fault : RuntimeFault, fault.OfCall arguments.length →
      (∀ frames store, call f arguments p frames (w.withStore store)
        = fail fault p frames (w.withStore store)) →
      ∃ r used, (∀ frames store, call f arguments p frames (w.withStore store)
          = reply (.ofResult r) frames
              { w.withStore store with readings := w.readings + used }) ∧
        (∀ g, r ≠ .ok (.function g)) ∧
        FailsOnlyWith (fun e => e.fault.OfCall arguments.length ∧ e.position = p) r :=
    fun fault hof h => ⟨.error ⟨fault, p⟩, 0, h, fun g hg => (by cases hg), .error ⟨hof, rfl⟩⟩
  cases f with
  | builtin b =>
    left
    by_cases harity : b.arity = arguments.length
    · refine ⟨b.apply arguments (w.clock w.readings) p, if b = .clock then 1 else 0,
        fun frames store => ?_, b.apply_ne_function arguments _ p,
        (b.apply_fails arguments p _).mono fun e he => ⟨he.ofCall.1, he.ofCall.2.1⟩⟩
      simp only [call, if_pos harity, replyWith_eq]
      split <;> rfl
    · exact hfault _ (.argumentCount b.arity) fun frames store => if_neg harity
  | function g =>
    by_cases harity : g.parameters.length = arguments.length
    · by_cases hroom : w.callDepth < w.maxCallDepth
      · exact .inr ⟨g, rfl, harity, hroom, fun frames store => call_function harity hroom⟩
      · exact .inl (hfault _ (.callDepthExceeded w.maxCallDepth)
          fun frames store => call_function_too_deep harity hroom)
    · exact .inl (hfault _ (.argumentCount g.parameters.length)
        fun frames store => call_function_arity harity)
  | _ => exact .inl (hfault _ (.notCallable _) fun frames store => rfl)

/-! ## Changes -/

/-- How a step can get from some frames and a world to others, as far as the frames, the counter of
active calls and what has been told are concerned. -/
inductive Changes : List Frame → World → List Frame → World → Prop
  | none {frames : List Frame} {w : World} : Changes frames w frames w
  | push {frame : Frame} {frames : List Frame} {w : World} : frame.isCall = false →
      Changes frames w (frame :: frames) w
  | pop {frame : Frame} {frames : List Frame} {w : World} : frame.isCall = false →
      Changes (frame :: frames) w frames w
  | store {frames : List Frame} {w : World} (store : Store) :
      Changes frames w frames { w with store := store }
  | reading {frames : List Frame} {w : World} (used : Nat) :
      Changes frames w frames { w with readings := w.readings + used }
  | tell {frames : List Frame} {w : World} (e : Event) : Changes frames w frames (w.tell e)
  /-- A call begins, if one more may be active. -/
  | enter {frames : List Frame} {w : World} (s : ScopeId) : w.callDepth < w.maxCallDepth →
      Changes frames w (.leaveCall s :: frames) { w with callDepth := w.callDepth + 1 }
  /-- A call ends. -/
  | leave {frames : List Frame} {w : World} (s : ScopeId) :
      Changes (.leaveCall s :: frames) w frames { w with callDepth := w.callDepth - 1 }
  | trans {frames frames' frames'' : List Frame} {w w' w'' : World} : Changes frames w frames' w' →
      Changes frames' w' frames'' w'' → Changes frames w frames'' w''

theorem Changes.pushes {pushed frames : List Frame} {w : World}
    (h : ∀ frame ∈ pushed, frame.left? = Option.none) : Changes frames w (pushed ++ frames) w := by
  induction pushed with
  | nil => exact .none
  | cons frame pushed ih =>
    obtain ⟨hframe, hrest⟩ := List.forall_mem_cons.mp h
    exact .trans (ih hrest) (.push (Frame.isCall_of_left? hframe))

theorem call_changes (f : Value) (arguments : List Value) (p : Position) (frames : List Frame)
    (w : World) :
    Changes frames w (call f arguments p frames w).frames (call f arguments p frames w).world := by
  rcases call_cases f arguments p w with ⟨r, used, hcall, -, -⟩ | ⟨g, -, -, hroom, hcall⟩
  · have hcall : call f arguments p frames w = _ := hcall frames w.store
    rw [hcall]
    exact .reading used
  · have hcall : call f arguments p frames w = _ := hcall frames w.store
    rw [hcall]
    -- The call is entered, its parameters are bound, and its body waits to be run.
    apply Changes.trans (.enter w.store.nextScope hroom)
    exact .trans (.store _) (.push rfl)

/-- All effects but that of leaving a call. -/
theorem perform_changes (leaving : Store.Leaving) {effect : Effect} (frames : List Frame)
    (w : World) (h : ∀ a s, effect ≠ .leaveCall a s) :
    Changes frames w (perform leaving effect frames w).frames
      (perform leaving effect frames w).world := by
  cases effect with
  | proceed control => exact .none
  | lookUp name p s =>
    unfold perform
    dsimp only
    split <;> exact .none
  | define name v s => exact .store _
  | assign name v p s =>
    unfold perform
    dsimp only
    split
    · exact .store _
    · exact .none
  | declare name parameters body s => exact .store _
  | enterBlock body s => exact .trans (.store _) (.trans (.push rfl) (.push rfl))
  | call f arguments p => exact call_changes f arguments p frames w
  | tell event => exact .tell event
  | leaveBlock a s => exact .store _
  | leaveCall a s => exact absurd rfl (h a s)

/-- **What a step can do to the frames and the world.** -/
theorem stepLeaving_changes (leaving : Store.Leaving) (m : Machine) :
    Changes m.frames m.world (m.stepLeaving leaving).frames (m.stepLeaving leaving).world := by
  rcases stepLeaving_cases m with ⟨mv, below, hmoves, hstep⟩ | ⟨-, hstep⟩
  · rw [hstep]
    rcases hmoves.cases_leaving with ⟨a, s, -, hf, rfl⟩ | ⟨a, s, -, hf, rfl⟩ | ⟨he, hp, hf⟩
    · rw [hf]
      exact .trans (.pop rfl) (.store _)
    · rw [hf]
      exact .trans (.leave s) (.store _)
    · have hperform : Changes below m.world (make leaving mv below m.world).frames
          (make leaving mv below m.world).world := by
        refine .trans (.pushes hp) (perform_changes leaving _ _ fun a s heq => ?_)
        rw [heq] at he
        cases he
      rcases hf with hf | ⟨frame, hf, hleft⟩
      · rw [hf]
        exact hperform
      · rw [hf]
        exact .trans (.pop (Frame.isCall_of_left? hleft)) hperform
  · rw [hstep]
    exact .none

theorem step_changes (m : Machine) : Changes m.frames m.world m.step.frames m.step.world := by
  rw [step_eq]
  exact stepLeaving_changes Store.leave m

end Machine

end Scripting
