/-
Runs in another guise.

A machine whose code, frames and store are put into another guise takes the same steps: the moves
that it makes are those of the machine as it was, in the other guise, and so is what becomes of
them. What has been told before and the readings of the clock that have been used before are not
looked at again.

Only the declaration of a function asks for something. The name that it binds becomes the name of
the function, so it must be the same in both guises. As long as a machine declares functions under
such names only, every step and so every run commutes with the change.
-/
import Scripting.Proofs.Guises
import Scripting.Proofs.Steps

set_option autoImplicit false

namespace Scripting

namespace Guise

variable (g : Guise)

/-! ## Machines -/

/-- The end of a statement in another guise. -/
def flow : Flow → Flow
  | .return_ v => .return_ (g.value v)
  | other => other

/-- The answer in another guise. -/
def answer : Answer → Answer
  | .value v => .value (g.value v)
  | .flow end_ => .flow (g.flow end_)
  | .error e => .error (g.error e)

/-- What the machine is doing, in another guise. -/
def control : Control → Control
  | .evaluate e s => .evaluate (g.expr e) (s + g.scopes)
  | .execute stmt s => .execute (g.stmt stmt) (s + g.scopes)
  | .answer a => .answer (g.answer a)

/-- The frame in another guise. -/
def frame : Frame → Frame
  | .leftOperand op right p s => .leftOperand op (g.expr right) (g.place p) (s + g.scopes)
  | .rightOperand op left p => .rightOperand op (g.value left) (g.place p)
  | .operand op p => .operand op (g.place p)
  | .assignTo x p s => .assignTo (g.name x) (g.place p) (s + g.scopes)
  | .callee arguments p s => .callee (arguments.map g.expr) (g.place p) (s + g.scopes)
  | .argument f done remaining p s =>
    .argument (g.value f) (done.map g.value) (remaining.map g.expr) (g.place p) (s + g.scopes)
  | .discard => .discard
  | .declareAs x s => .declareAs (g.name x) (s + g.scopes)
  | .branch yes no s => .branch (g.stmt yes) (no.map g.stmt) (s + g.scopes)
  | .loopTest test body s => .loopTest (g.expr test) (g.stmt body) (s + g.scopes)
  | .printing => .printing
  | .returning => .returning
  | .echoing => .echoing
  | .sequence remaining s => .sequence (remaining.map g.stmt) (s + g.scopes)
  | .program remaining echo s => .program (remaining.map g.stmt) echo (s + g.scopes)
  | .loopBody test body s => .loopBody (g.expr test) (g.stmt body) (s + g.scopes)
  | .leaveBlock s => .leaveBlock (s + g.scopes)
  | .leaveCall s => .leaveCall (s + g.scopes)

/-- The readings of the clock behind those that have been used before. -/
def clock (clock : Nat → Float) (n : Nat) : Float :=
  g.readings[n]?.getD (clock (n - g.readings.length))

/-- The world in another guise, behind what has been before. -/
def world (w : World) : World where
  store := g.store w.store
  callDepth := w.callDepth
  maxCallDepth := w.maxCallDepth
  output := w.output ++ g.told
  clock := g.clock w.clock
  readings := w.readings + g.readings.length

/-- The machine in another guise. -/
def machine (m : Machine) : Machine := ⟨g.control m.control, m.frames.map g.frame, g.world m.world⟩

/-! ## Moves -/

/-- What a step asks of the world, in another guise. -/
def effect : Effect → Effect
  | .proceed c => .proceed (g.control c)
  | .lookUp x p s => .lookUp (g.name x) (g.place p) (s + g.scopes)
  | .define x v s => .define (g.name x) (g.value v) (s + g.scopes)
  | .assign x v p s => .assign (g.name x) (g.value v) (g.place p) (s + g.scopes)
  | .declare x parameters body s =>
    .declare (g.name x) (parameters.map g.name) (body.map g.stmt) (s + g.scopes)
  | .enterBlock body s => .enterBlock (body.map g.stmt) (s + g.scopes)
  | .call f arguments p => .call (g.value f) (arguments.map g.value) (g.place p)
  | .tell event => .tell event
  | .leaveBlock a s => .leaveBlock (g.answer a) (s + g.scopes)
  | .leaveCall a s => .leaveCall (g.answer a) (s + g.scopes)

/-- The move in another guise. -/
def move (mv : Move) : Move := ⟨g.effect mv.effect, mv.pushed.map g.frame⟩

theorem ofResult_result (r : Except RuntimeError Value) :
    Answer.ofResult (g.result r) = g.answer (.ofResult r) := by
  cases r <;> rfl

theorem move_expr (e : Expr) (s : ScopeId) :
    (g.expr e).move (s + g.scopes) = g.move (e.move s) := by
  unfold expr
  cases e with
  | literal l p =>
    rw [Expr.recast, Expr.move, ← g.value_ofLiteral]
    rfl
  | call f arguments p =>
    rw [Expr.recast, Expr.recastEach_eq_map]
    rfl
  | _ =>
    rw [Expr.recast]
    rfl

theorem move_stmt (stmt : Stmt) (s : ScopeId) :
    (g.stmt stmt).move (s + g.scopes) = g.move (stmt.move s) := by
  unfold Guise.stmt
  cases stmt with
  | declare x initial p => cases initial <;> (rw [Stmt.recast]; rfl)
  | block body p =>
    rw [Stmt.recast, Stmt.recastEach_eq_map]
    rfl
  | cond test yes no p =>
    rw [Stmt.recast, Stmt.recastIfAny_eq_map]
    rfl
  | function x parameters body p =>
    rw [Stmt.recast, Stmt.recastEach_eq_map]
    rfl
  | return_ value p => cases value <;> (rw [Stmt.recast]; rfl)
  | _ =>
    rw [Stmt.recast]
    rfl

theorem move_nextArgument (f : Value) (done : List Value) (remaining : List Expr) (p : Position)
    (s : ScopeId) :
    Move.nextArgument (g.value f) (done.map g.value) (remaining.map g.expr) (g.place p)
        (s + g.scopes)
      = g.move (.nextArgument f done remaining p s) := by
  cases remaining with
  | nil =>
    unfold Move.nextArgument
    dsimp only [List.map_nil]
    rw [← List.map_reverse]
    rfl
  | cons e es => rfl

theorem move_nextStatement (remaining : List Stmt) (echo : Bool) (s : ScopeId) :
    Move.nextStatement (remaining.map g.stmt) echo (s + g.scopes)
      = g.move (.nextStatement remaining echo s) := by
  cases remaining with
  | nil => rfl
  | cons stmt rest => cases echo <;> cases stmt <;> rfl

/-- A frame takes a value. -/
theorem move_value (v : Value) (frame : Frame) :
    (g.frame frame).valueMove (g.value v) = g.move (frame.valueMove v) := by
  cases frame with
  | leftOperand op right p s =>
    rw [Guise.frame, Frame.valueMove, Frame.valueMove, decided?_value]
    cases op.decided? v <;> rfl
  | rightOperand op left p =>
    rw [Guise.frame, Frame.valueMove, apply_binary, ofResult_result]
    rfl
  | operand op p =>
    rw [Guise.frame, Frame.valueMove, apply_unary, ofResult_result]
    rfl
  | callee arguments p s => exact g.move_nextArgument v [] arguments p s
  | argument f done remaining p s => exact g.move_nextArgument f (v :: done) remaining p s
  | branch yes no s =>
    simp only [Guise.frame, Frame.valueMove, truthy_value]
    split
    · rfl
    · cases no <;> rfl
  | loopTest test body s =>
    rw [Guise.frame, Frame.valueMove, Frame.valueMove, truthy_value]
    split <;> rfl
  | printing =>
    rw [Guise.frame, Frame.valueMove, text_value]
    rfl
  | echoing =>
    rw [Guise.frame, Frame.valueMove, text_value]
    rfl
  | _ => rfl

theorem move_flow (end_ : Flow) (frame : Frame) :
    (g.frame frame).flowMove (g.flow end_) = g.move (frame.flowMove end_) := by
  cases frame with
  | sequence remaining s => cases remaining <;> cases end_ <;> rfl
  | program remaining echo s =>
    cases end_ with
    | normal => exact g.move_nextStatement remaining echo s
    | _ => rfl
  | _ => cases end_ <;> rfl

theorem move_frame (a : Answer) (frame : Frame) :
    (g.frame frame).move (g.answer a) = g.move (frame.move a) := by
  have hvalue := fun v => g.move_value v frame
  have hflow := fun end_ => g.move_flow end_ frame
  -- A frame that leaves a scope takes any answer; the others look at what kind it is.
  cases frame with
  | leaveBlock s => rfl
  | leaveCall s => rfl
  | _ =>
    cases a with
    | value v => exact hvalue v
    | flow end_ => exact hflow end_
    | error e => rfl

/-- **The moves are the same**, in the other guise. -/
theorem moves {control : Control} {frames below : List Frame} {mv : Move}
    (h : Moves control frames mv below) :
    Moves (g.control control) (frames.map g.frame) (g.move mv) (below.map g.frame) := by
  cases h with
  | evaluate e s =>
    rw [← move_expr]
    exact .evaluate _ _ _
  | execute stmt s =>
    rw [← move_stmt]
    exact .execute _ _ _
  | answer a frame =>
    rw [← move_frame]
    exact .answer _ _ _

/-! ## Effects -/

theorem clock_add (clock : Nat → Float) (n : Nat) :
    g.clock clock (n + g.readings.length) = clock n := by
  unfold Guise.clock
  rw [List.getElem?_eq_none (Nat.le_add_left _ _), Nat.add_sub_cancel]
  rfl

theorem held_answer (a : Answer) : (g.answer a).held = a.held.map g.value := by
  cases a with
  | flow end_ => cases end_ <;> rfl
  | _ => rfl

theorem values_frame (frame : Frame) : (g.frame frame).values = frame.values.map g.value := by
  cases frame <;> rfl

theorem callAnswer_answer (a : Answer) :
    Machine.callAnswer (g.answer a) = g.answer (Machine.callAnswer a) := by
  cases a with
  | flow end_ => cases end_ <;> rfl
  | _ => rfl

/-- The same functions are held on the way. -/
theorem heldOnTheWay_add (a : Answer) (frames : List Frame) (s : ScopeId) :
    heldOnTheWay (g.answer a) (frames.map g.frame) (s + g.scopes)
      = (heldOnTheWay a frames s).map g.closure := by
  have hvalues : (frames.map g.frame).flatMap (·.values)
      = (frames.flatMap (·.values)).map g.value := by
    rw [List.flatMap_map, List.map_flatMap]
    congr 1
    funext frame
    exact g.values_frame frame
  unfold heldOnTheWay
  rw [held_answer, hvalues, ← List.map_append, functionsAmong_value]

section Effects

variable (frames : List Frame) (w : World)

theorem call_machine (f : Value) (arguments : List Value) (p : Position) :
    Machine.call (g.value f) (arguments.map g.value) (g.place p) (frames.map g.frame) (g.world w)
      = g.machine (Machine.call f arguments p frames w) := by
  cases f with
  | builtin b =>
    have hnow : (g.world w).clock (g.world w).readings = w.clock w.readings :=
      g.clock_add w.clock w.readings
    have happly := g.apply_builtin arguments p b (w.clock w.readings)
    unfold Machine.call
    dsimp only [value]
    rw [List.length_map, hnow, happly, Machine.replyWith_eq, Machine.replyWith_eq, ofResult_result]
    by_cases harity : b.arity = arguments.length
    · rw [if_pos harity, if_pos harity]
      by_cases hclock : b = .clock
      · have hread : { g.world w with readings := (g.world w).readings + 1 }
            = g.world { w with readings := w.readings + 1 } := by
          unfold world
          dsimp only
          rw [Nat.add_right_comm]
        rw [if_pos hclock, if_pos hclock, hread]
        rfl
      · rw [if_neg hclock, if_neg hclock]
        rfl
    · rw [if_neg harity, if_neg harity]
      rfl
  | function f =>
    have hparameters : (g.closure f).parameters.length = f.parameters.length := List.length_map _
    have hlength : (arguments.map g.value).length = arguments.length := List.length_map _
    by_cases harity : f.parameters.length = arguments.length
    · have harity' : (g.closure f).parameters.length = (arguments.map g.value).length := by
        rw [hparameters, hlength, harity]
      by_cases hroom : w.callDepth < w.maxCallDepth
      · have hroom' : (g.world w).callDepth < (g.world w).maxCallDepth := hroom
        rw [Machine.call_function harity hroom]
        refine (Machine.call_function harity' hroom').trans ?_
        -- The parameters are bound to the same arguments, in a scope that is made as well.
        have hbind := g.bindParameters_store (w.store.newScope (some f.scope)).2 w.store.nextScope
          f.parameters arguments
        rw [← newScope_store] at hbind
        exact congrArg (fun store => Machine.runAll (f.body.map g.stmt)
          (w.store.nextScope + g.scopes)
          (.leaveCall (w.store.nextScope + g.scopes) :: frames.map g.frame)
          { g.world w with store := store, callDepth := w.callDepth + 1 }) hbind
      · have hroom' : ¬ (g.world w).callDepth < (g.world w).maxCallDepth := hroom
        rw [Machine.call_function_too_deep harity hroom]
        exact Machine.call_function_too_deep harity' hroom'
    · have harity' : ¬ (g.closure f).parameters.length = (arguments.map g.value).length := by
        rwa [hparameters, hlength]
      rw [Machine.call_function_arity harity]
      refine (Machine.call_function_arity harity').trans ?_
      rw [hparameters, hlength]
      rfl
  | _ => rfl

/-- A name is bound in the store, and the statement is over. -/
theorem reply_define (store : Store) (s : ScopeId) (x : String) (v : Value) :
    Machine.reply (.flow .normal) (frames.map g.frame)
        { g.world w with store := (g.store store).define (s + g.scopes) (g.name x) (g.value v) }
      = g.machine (Machine.reply (.flow .normal) frames
          { w with store := store.define s x v }) := by
  rw [define_store]
  rfl

/-- The effect declares no function, or one under a name that stays. -/
def Keeps (effect : Effect) : Prop :=
  ∀ x parameters body s, effect = .declare x parameters body s → g.name x = x

variable {g} in
/-- **The same becomes of every effect.** -/
theorem perform_machine {effect : Effect} (hkeeps : g.Keeps effect) :
    Machine.perform Store.leave (g.effect effect) (frames.map g.frame) (g.world w)
      = g.machine (Machine.perform Store.leave effect frames w) := by
  cases effect with
  | proceed c => rfl
  | lookUp x p s =>
    have hget : (g.world w).store.get? (s + g.scopes) (g.name x)
        = (w.store.get? s x).map g.value := g.get?_store w.store s x
    rw [Guise.effect, Machine.perform, Machine.perform, hget]
    cases w.store.get? s x <;> rfl
  | define x v s => exact g.reply_define frames w w.store s x v
  | assign x v p s =>
    have hassign : (g.world w).store.assign? (s + g.scopes) (g.name x) (g.value v)
        = (w.store.assign? s x v).map g.store := g.assign?_store w.store s x v
    rw [Guise.effect, Machine.perform, Machine.perform, hassign]
    cases w.store.assign? s x v <;> rfl
  | declare x parameters body s =>
    -- The name is kept in the function as well, so it has to be one that stays.
    have hx := hkeeps x parameters body s rfl
    have hmade := g.newFunction_store w.store s x parameters body
    have hbound := g.reply_define frames w (w.store.newFunction s x parameters body).2 s x
      (.function ⟨w.store.nextFunction, x, parameters, body, s⟩)
    rw [hx, ← hmade] at hbound
    rw [Guise.effect, hx]
    exact hbound
  | enterBlock body s =>
    have hmade := g.newScope_store w.store (some s)
    exact congrArg (fun store => Machine.runAll (body.map g.stmt) (w.store.nextScope + g.scopes)
      (.leaveBlock (w.store.nextScope + g.scopes) :: frames.map g.frame)
      { g.world w with store := store }) hmade
  | call f arguments p => exact g.call_machine frames w f arguments p
  | tell event => rfl
  | leaveBlock a s =>
    have hleave := leave_store (fun t => g.heldOnTheWay_add a frames t) w.store s
    exact congrArg (fun store => Machine.reply (g.answer a) (frames.map g.frame)
      { g.world w with store := store }) hleave
  | leaveCall a s =>
    have hleave := leave_store (fun t => g.heldOnTheWay_add a frames t) w.store s
    rw [Guise.effect, Machine.perform, callAnswer_answer]
    exact congrArg (fun store => Machine.reply (g.answer (Machine.callAnswer a))
      (frames.map g.frame) { g.world w with store := store, callDepth := w.callDepth - 1 }) hleave

end Effects

/-! ## Runs -/

/-- What the machine does next declares no function, or one under a name that stays. -/
def KeepsNext (m : Machine) : Prop :=
  ∀ x parameters body p s, m.control = .execute (.function x parameters body p) s → g.name x = x

section Runs

variable {g} {m : Machine}

theorem result?_machine (m : Machine) : (g.machine m).result? = m.result?.map g.answer := by
  obtain ⟨control, frames, w⟩ := m
  cases control <;> cases frames <;> rfl

/-- **One step.** -/
theorem step_machine (h : g.KeepsNext m) : (g.machine m).step = g.machine m.step := by
  rw [Machine.step_eq, Machine.step_eq]
  rcases m.stepLeaving_cases with ⟨mv, below, hmoves, hstep⟩ | ⟨⟨a, ha⟩, hstep⟩
  · have hkeeps : g.Keeps mv.effect := by
      intro x parameters body s heffect
      obtain ⟨p, hcontrol⟩ := hmoves.of_declare heffect
      exact h x parameters body p s hcontrol
    have hperform := perform_machine (mv.pushed ++ below) m.world hkeeps
    rw [List.map_append] at hperform
    rw [hstep, ← hperform]
    exact Machine.stepLeaving_of_moves (g.moves hmoves) Store.leave (g.world m.world)
  · have hdone : (g.machine m).result? = some (g.answer a) := by rw [result?_machine, ha]; rfl
    rw [hstep, Machine.stepLeaving_of_result? hdone]

/-- **Whole runs.** -/
theorem run_machine {n : Nat} (h : ∀ k < n, g.KeepsNext (m.run k)) :
    (g.machine m).run n = g.machine (m.run n) := by
  induction n generalizing m with
  | zero => rfl
  | succ n ih =>
    have hlater : ∀ k < n, g.KeepsNext (m.step.run k) := by
      intro k hk
      rw [← Machine.run_succ]
      exact h (k + 1) (Nat.succ_lt_succ hk)
    have hnow : g.KeepsNext m := h 0 (Nat.zero_lt_succ n)
    rw [Machine.run_succ, Machine.run_succ, step_machine hnow, ih hlater]

end Runs

end Guise

end Scripting
