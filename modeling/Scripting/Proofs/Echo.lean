/-
What the echo adds.

With the echo on, an expression statement of a program is begun in another way than with the echo
off: its expression is evaluated at once, and the frame that waits for the value tells it and does
not just forget it. To compare the two, a machine is *muted*: no frame of it echoes, and no value
has been told. Muting commutes with every step but one. Where a statement is begun whose value is to
be told, the muted machine takes one step more, to begin the statement before its expression. So a
muted run is a little longer, but goes through the same states, and ends if the other does.

What has been told before a run is not looked at either, so events may be put behind those that are
kept. This shows that a statement which runs by itself, with no frame that echoes below it, tells no
value. The values that are told are then found one by one along the statements of the program.
-/
import Scripting.Proofs.Reporting

set_option autoImplicit false

namespace Scripting

/-! ## Muting -/

/-- Whether an event is the value of a statement. -/
def Event.isValue (e : Event) : Bool := e.kind = .value

/-- The frame without the echo. -/
def Frame.mute : Frame → Frame
  | .echoing => .discard
  | .program remaining _ s => .program remaining false s
  | frame => frame

/-- The world in which no value has been told, with events told `earlier`, the latest first. -/
def World.mute (earlier : List Event) (w : World) : World :=
  { w with output := w.output.filter (!·.isValue) ++ earlier }

/-- The machine without the echo, with events told `earlier`. -/
def Machine.mute (earlier : List Event) (m : Machine) : Machine :=
  ⟨m.control, m.frames.map Frame.mute, m.world.mute earlier⟩

/-- Nothing is asked of the world in the place of a value that is told. -/
def Effect.mute : Effect → Effect
  | .tell event => if event.isValue then .proceed (.answer (.flow .normal)) else .tell event
  | effect => effect

/-- The move without the echo. -/
def Move.mute (mv : Move) : Move := ⟨mv.effect.mute, mv.pushed.map Frame.mute⟩

section Moves

variable {frame : Frame}

theorem Frame.mute_of_not_echoes (h : frame.echoes = false) : frame.mute = frame := by
  cases frame with
  | echoing => cases h
  | program remaining echo s => exact congrArg (Frame.program remaining · s) h.symm
  | _ => rfl

theorem Frame.values_mute (frame : Frame) : frame.mute.values = frame.values := by
  cases frame <;> rfl

/-- A move that does not echo is muted already. -/
theorem Move.mute_of_keepsTo {leaves : ScopeId → Prop} {mv : Move}
    (h : mv.KeepsTo (.loose leaves False)) : mv.mute = mv := by
  have heffect : mv.effect.mute = mv.effect := by
    have hkeeps := h.effect
    cases heffect : mv.effect with
    | tell event =>
      rw [heffect] at hkeeps
      rcases hkeeps with ⟨text, rfl⟩ | ⟨hfalse, -⟩
      · rfl
      · exact hfalse.elim
    | _ => rfl
  have hpushed : mv.pushed.map Frame.mute = mv.pushed := by
    refine (List.map_congr_left fun frame hframe => ?_).trans (List.map_id mv.pushed)
    exact Frame.mute_of_not_echoes (Bool.eq_false_iff.mpr (h.pushed frame hframe).echoes)
  rw [Move.mute, heffect, hpushed]

/-- A frame that does not echo makes no move that does. -/
theorem Frame.move_mute (h : frame.echoes = false) (a : Answer) :
    frame.mute.move a = (frame.move a).mute := by
  have hkeeps : frame.KeepsTo (.loose (fun _ => True) False) :=
    Frame.keepsTo_loose (fun _ _ => trivial) fun hecho => by rw [h] at hecho; cases hecho
  rw [Frame.mute_of_not_echoes h,
    Move.mute_of_keepsTo (Frame.move_keepsTo Bounds.loose_sealed hkeeps a.keepsTo_loose)]

/-- The muted machine makes the muted move. Only where it begins a statement whose value is to be
told, it does not begin the expression at once. -/
theorem Moves.mute {control : Control} {frames below : List Frame} {mv : Move}
    (h : Moves control frames mv below) :
    Moves control (frames.map Frame.mute) mv.mute (below.map Frame.mute) ∨
      ∃ e p s rest, mv = .evaluate e s [.echoing, .program rest true s] ∧
        Moves control (frames.map Frame.mute)
          (.execute (.expression e p) s [.program rest false s]) (below.map Frame.mute) := by
  have hb : (Bounds.loose (fun _ => True) False).Sealed := Bounds.loose_sealed
  cases h with
  | evaluate e s =>
    rw [Move.mute_of_keepsTo (Expr.move_keepsTo hb trivial trivial)]
    exact .inl (.evaluate e s _)
  | execute stmt s =>
    rw [Move.mute_of_keepsTo (Stmt.move_keepsTo hb trivial trivial)]
    exact .inl (.execute stmt s _)
  | answer a frame =>
    have hanswer := Moves.answer a frame.mute (below.map Frame.mute)
    cases hecho : frame.echoes with
    | false =>
      rw [Frame.move_mute hecho] at hanswer
      exact .inl hanswer
    | true =>
      -- A frame that tells a value forgets it, and a program goes on without the echo.
      cases frame <;> cases hecho
      case echoing.refl => cases a <;> exact .inl hanswer
      case program.refl remaining s =>
        cases a with
        | flow f =>
          cases f with
          | normal =>
            cases remaining with
            | nil => exact .inl hanswer
            | cons stmt rest =>
              cases stmt with
              | expression e p => exact .inr ⟨e, p, s, rest, rfl, hanswer⟩
              | _ => exact .inl hanswer
          | _ => exact .inl hanswer
        | _ => exact .inl hanswer

end Moves

namespace Machine

variable (earlier : List Event) (frames : List Frame) (w : World)

theorem call_mute (f : Value) (arguments : List Value) (p : Position) :
    call f arguments p (frames.map Frame.mute) (w.mute earlier)
      = (call f arguments p frames w).mute earlier := by
  cases f with
  | builtin b =>
    unfold call
    dsimp only [World.mute]
    split
    · rw [replyWith_eq, replyWith_eq]
      split <;> rfl
    · rfl
  | function g =>
    by_cases harity : g.parameters.length = arguments.length
    · by_cases hroom : w.callDepth < w.maxCallDepth
      · rw [call_function harity hroom]
        exact call_function harity hroom
      · rw [call_function_too_deep harity hroom]
        exact call_function_too_deep harity hroom
    · rw [call_function_arity harity, call_function_arity harity]
      rfl
  | _ => rfl

theorem heldOnTheWay_mute (a : Answer) :
    heldOnTheWay a (frames.map Frame.mute) = heldOnTheWay a frames := by
  funext s
  simp only [heldOnTheWay, List.flatMap_map, Frame.values_mute]

/-- What is told is left out, and otherwise the same becomes of a muted effect. -/
theorem perform_mute (effect : Effect) :
    perform Store.leave effect.mute (frames.map Frame.mute) (w.mute earlier)
      = (perform Store.leave effect frames w).mute earlier := by
  cases effect with
  | lookUp name p s =>
    simp only [Effect.mute, perform, World.mute]
    split <;> rfl
  | assign name v p s =>
    simp only [Effect.mute, perform, World.mute]
    split <;> rfl
  | call f arguments p => exact call_mute earlier frames w f arguments p
  | tell event =>
    simp only [Effect.mute]
    split
    · next hvalue => simp [perform, mute, World.mute, World.tell, reply, hvalue]
    · next hvalue => simp [perform, mute, World.mute, World.tell, reply, hvalue]
  | leaveBlock a s =>
    simp only [Effect.mute, perform, heldOnTheWay_mute]
    rfl
  | leaveCall a s =>
    simp only [Effect.mute, perform, heldOnTheWay_mute]
    rfl
  | _ => rfl

theorem result?_mute (m : Machine) : (m.mute earlier).result? = m.result? := by
  obtain ⟨control, frames, w⟩ := m
  cases control <;> cases frames <;> rfl

/-- **One step.** The muted machine takes a step as well, or two. -/
theorem step_mute (m : Machine) :
    (m.mute earlier).step = m.step.mute earlier ∨
      (m.mute earlier).step.step = m.step.mute earlier := by
  rw [step_eq m, step_eq (m.mute earlier)]
  rcases m.stepLeaving_cases with ⟨mv, below, hmoves, hstep⟩ | ⟨⟨a, ha⟩, hstep⟩
  · rw [hstep, make, ← perform_mute, List.map_append]
    rcases hmoves.mute with hmuted | ⟨e, p, s, rest, rfl, hmuted⟩
    · exact .inl (stepLeaving_of_moves hmuted _ _)
    · refine .inr ?_
      rw [mute, stepLeaving_of_moves hmuted]
      rfl
  · rw [hstep, stepLeaving_of_result? ((result?_mute earlier m).trans ha)]
    exact .inl rfl

/-- **Whole runs.** Every state of a run is, muted, one of the muted run, and not an earlier one. -/
theorem run_mute (m : Machine) (n : Nat) :
    ∃ k, n ≤ k ∧ (m.mute earlier).run k = (m.run n).mute earlier := by
  induction n generalizing m with
  | zero => exact ⟨0, Nat.le_refl 0, rfl⟩
  | succ n ih =>
    obtain ⟨k, hk, hrun⟩ := ih m.step
    rcases step_mute earlier m with hone | htwo
    · refine ⟨k + 1, by omega, ?_⟩
      rw [run_succ, run_succ, hone, hrun]
    · refine ⟨k + 2, by omega, ?_⟩
      rw [run_succ, run_succ, run_succ, htwo, hrun]

variable {earlier} {m : Machine} {a : Answer} {w w' : World}

/-- The muted run ends exactly if the other does, with the same answer. -/
theorem endsIn_mute_iff :
    (m.mute earlier).EndsIn a w' ↔ ∃ w, m.EndsIn a w ∧ w' = w.mute earlier := by
  constructor
  · rintro ⟨k, hk⟩
    -- After as many steps, the other run has ended as well: the muted one is never behind it.
    obtain ⟨k', hle, hrun⟩ := run_mute earlier m k
    have hdone : ((m.mute earlier).run k).result? = some a := by
      rw [hk]
      rfl
    rw [run_of_le hdone hle, hk] at hrun
    have hresult : (m.run k).result? = some a := by
      rw [← result?_mute earlier, ← hrun]
      rfl
    refine ⟨_, endsIn_of_result? hresult, ?_⟩
    exact congrArg Machine.world hrun
  · rintro ⟨w, ⟨n, hn⟩, rfl⟩
    obtain ⟨k, -, hrun⟩ := run_mute earlier m n
    refine ⟨k, ?_⟩
    rw [hrun, hn]
    rfl

end Machine

/-! ## What an expression comes to -/

/-- Whether a frame gives a value to the frame beneath it, and not the end of a statement. -/
def Frame.givesValue : Frame → Bool
  | .leftOperand .. | .rightOperand .. | .operand .. | .assignTo .. | .callee .. | .argument ..
  | .leaveCall _ => true
  | _ => false

/-- An answer where a value is waited for, or where the end of a statement is. An error is an answer
to both. -/
def Answer.Serves (value : Bool) : Answer → Prop
  | .value _ => value = true
  | .flow _ => value = false
  | .error _ => True

/-- What the machine is doing leads to such an answer. -/
def Control.Serves (value : Bool) : Control → Prop
  | .evaluate .. => value = true
  | .execute .. => value = false
  | .answer a => a.Serves value

/-- What is asked of the world leads to such an answer. -/
def Effect.Serves (value : Bool) : Effect → Prop
  | .proceed control => control.Serves value
  | .lookUp .. | .assign .. | .call .. | .leaveCall .. => value = true
  | .define .. | .declare .. | .enterBlock .. | .tell _ => value = false
  | .leaveBlock a _ => a.Serves value

/-- The innermost of the frames waits for a value or not, each gives what the next one waits for,
and the last gives what is asked for at the bottom. -/
def Lined (bottom : Bool) : Bool → List Frame → Prop
  | value, [] => value = bottom
  | value, frame :: frames => value = frame.awaitsValue ∧ Lined bottom frame.givesValue frames

section Lined

variable {bottom value : Bool} {frames : List Frame}

/-- What is asked of the world is waited for, if need be by a frame that is pushed. -/
def Move.Serves (bottom : Bool) (frames : List Frame) (mv : Move) : Prop :=
  ∃ value, mv.effect.Serves value ∧ Lined bottom value (mv.pushed ++ frames)

theorem Answer.serves_ofResult (r : Except RuntimeError Value) : (ofResult r).Serves true := by
  cases r with
  | ok v => rfl
  | error e => trivial

theorem Move.nextArgument_serves (h : Lined bottom true frames) (f : Value) (done : List Value)
    (remaining : List Expr) (p : Position) (s : ScopeId) :
    (Move.nextArgument f done remaining p s).Serves bottom frames := by
  cases remaining with
  | nil => exact ⟨true, rfl, h⟩
  | cons e es => exact ⟨true, rfl, rfl, h⟩

theorem Frame.valueMove_serves {frame : Frame} (hframe : frame.awaitsValue = true)
    (h : Lined bottom frame.givesValue frames) (v : Value) :
    (frame.valueMove v).Serves bottom frames := by
  cases frame with
  | leftOperand op right p s =>
    simp only [valueMove]
    split
    · exact ⟨true, rfl, h⟩
    · exact ⟨true, rfl, rfl, h⟩
  | rightOperand op left p => exact ⟨true, Answer.serves_ofResult _, h⟩
  | operand op p => exact ⟨true, Answer.serves_ofResult _, h⟩
  | assignTo name p s => exact ⟨true, rfl, h⟩
  | callee arguments p s => exact Move.nextArgument_serves h v [] arguments p s
  | argument f done remaining p s =>
    exact Move.nextArgument_serves h f (v :: done) remaining p s
  | branch yes no s =>
    simp only [valueMove]
    split
    · exact ⟨false, rfl, h⟩
    · split <;> exact ⟨false, rfl, h⟩
  | loopTest test body s =>
    simp only [valueMove]
    split
    · exact ⟨false, rfl, rfl, h⟩
    · exact ⟨false, rfl, h⟩
  | discard | declareAs | printing | returning | echoing => exact ⟨false, rfl, h⟩
  | sequence | program | loopBody | leaveBlock | leaveCall => cases hframe

theorem Frame.flowMove_serves {frame : Frame} (hframe : frame.awaitsValue = false)
    (h : Lined bottom frame.givesValue frames) (hcall : ∀ s, frame ≠ .leaveCall s) (f : Flow) :
    (frame.flowMove f).Serves bottom frames := by
  cases frame <;> cases hframe
  case sequence.refl remaining s =>
    cases remaining <;> cases f <;> first | exact ⟨false, rfl, h⟩ | exact ⟨false, rfl, rfl, h⟩
  case program.refl remaining echo s =>
    cases f with
    | normal =>
      simp only [flowMove, Move.nextStatement]
      split
      · exact ⟨false, rfl, h⟩
      · split
        · exact ⟨true, rfl, rfl, rfl, h⟩
        · exact ⟨false, rfl, rfl, h⟩
    | _ => exact ⟨false, rfl, h⟩
  case loopBody.refl test body s =>
    cases f with
    | normal | continue_ => exact ⟨true, rfl, rfl, h⟩
    | _ => exact ⟨false, rfl, h⟩
  case leaveBlock.refl s => exact ⟨false, rfl, h⟩
  case leaveCall.refl s => exact absurd rfl (hcall s)

/-- A frame makes of what it waits for what it gives. -/
theorem Frame.move_serves {frame : Frame} {a : Answer} (ha : a.Serves frame.awaitsValue)
    (h : Lined bottom frame.givesValue frames) : (frame.move a).Serves bottom frames := by
  unfold Frame.move
  split
  · exact ⟨false, ha, h⟩
  · exact ⟨true, rfl, h⟩
  · exact Frame.valueMove_serves ha h _
  · next hcall => exact Frame.flowMove_serves ha h hcall _
  · exact ⟨_, trivial, h⟩

/-- **A move** is for what is waited for. -/
theorem Moves.serves {control : Control} {below : List Frame} {mv : Move}
    (h : Moves control frames mv below) (hcontrol : control.Serves value)
    (hframes : Lined bottom value frames) : mv.Serves bottom below := by
  cases h with
  | evaluate e s =>
    cases hcontrol
    cases e with
    | literal | var | group => exact ⟨true, rfl, hframes⟩
    | unary | binary | call | assign => exact ⟨true, rfl, rfl, hframes⟩
  | execute stmt s =>
    cases hcontrol
    cases stmt with
    | declare name initial p =>
      cases initial with
      | none => exact ⟨false, rfl, hframes⟩
      | some e => exact ⟨true, rfl, rfl, hframes⟩
    | return_ result p =>
      cases result with
      | none => exact ⟨false, rfl, hframes⟩
      | some e => exact ⟨true, rfl, rfl, hframes⟩
    | block | function | break_ | continue_ => exact ⟨false, rfl, hframes⟩
    | expression | cond | loop | print => exact ⟨true, rfl, rfl, hframes⟩
  | answer a frame =>
    obtain ⟨rfl, hbelow⟩ := hframes
    exact Frame.move_serves hcontrol hbelow

/-- The machine is doing what is waited for. -/
def Machine.Serves (bottom : Bool) (m : Machine) : Prop :=
  ∃ value, m.control.Serves value ∧ Lined bottom value m.frames

/-- **An effect** comes to what is waited for, or the body of a function is entered, which comes to
a value however it ends. -/
theorem Machine.perform_serves {effect : Effect} (h : effect.Serves value)
    (hframes : Lined bottom value frames) (w : World) :
    (perform Store.leave effect frames w).Serves bottom := by
  cases effect with
  | proceed control => exact ⟨value, h, hframes⟩
  | lookUp name p s =>
    cases h
    simp only [perform]
    split
    · exact ⟨true, rfl, hframes⟩
    · exact ⟨true, trivial, hframes⟩
  | assign name v p s =>
    cases h
    simp only [perform]
    split
    · exact ⟨true, rfl, hframes⟩
    · exact ⟨true, trivial, hframes⟩
  | call f arguments p =>
    cases h
    rcases call_cases f arguments p w with ⟨r, used, hcall, -, -⟩ | ⟨g, -, -, -, hcall⟩
    · have hcall : call f arguments p frames w = _ := hcall frames w.store
      rw [perform, hcall]
      exact ⟨true, Answer.serves_ofResult r, hframes⟩
    · have hcall : call f arguments p frames w = _ := hcall frames w.store
      rw [perform, hcall]
      exact ⟨false, rfl, rfl, rfl, hframes⟩
  | enterBlock body s =>
    cases h
    exact ⟨false, rfl, rfl, rfl, hframes⟩
  | define | declare | tell =>
    cases h
    exact ⟨false, rfl, hframes⟩
  | leaveBlock a s => exact ⟨value, h, hframes⟩
  | leaveCall a s =>
    cases h
    refine ⟨true, ?_, hframes⟩
    cases a with
    | value v => rfl
    | flow f => cases f <;> rfl
    | error e => trivial

/-- **One step.** -/
theorem Machine.Serves.step {m : Machine} (h : m.Serves bottom) : m.step.Serves bottom := by
  rw [step_eq]
  rcases m.stepLeaving_cases with ⟨mv, below, hmoves, hstep⟩ | ⟨-, hstep⟩
  · obtain ⟨value, hcontrol, hframes⟩ := h
    obtain ⟨first, heffect, hpushed⟩ := hmoves.serves hcontrol hframes
    rw [hstep]
    exact perform_serves heffect hpushed m.world
  · rw [hstep]
    exact h

/-- **Expressions.** Whatever functions there are to be called, an expression comes to a value or an
error. -/
theorem Machine.serves_of_endsIn_begin {e : Expr} {s : ScopeId} {w w' : World} {a : Answer}
    (h : (begin e s [] w).EndsIn a w') : a.Serves true := by
  obtain ⟨n, hn⟩ := h
  have hbegin : (begin e s [] w).Serves true := ⟨true, rfl, rfl⟩
  have hrun := run_keeps (P := Serves true) (fun _ hm => hm.step) hbegin n
  rw [hn] at hrun
  obtain ⟨value, ha, rfl⟩ := hrun
  exact ha

end Lined

/-! ## The values that are told -/

/-- The values that have been told, the latest first. -/
def World.values (w : World) : List Event := w.output.filter (·.isValue)

theorem World.values_mute (earlier : List Event) (w : World) :
    (w.mute earlier).values = earlier.filter (·.isValue) := by
  simp [values, mute, List.filter_append, List.filter_filter]

/-- The events of values that are told one after the other. -/
def Event.values (vs : List Value) : List Event := vs.map fun v => .value v.text

namespace Machine

/-- A statement of a program runs to its end, and has these values to tell: its own if it is an
expression statement, and none otherwise. -/
inductive Finishes (s : ScopeId) (w : World) : Stmt → List Value → World → Prop
  | expression {e : Expr} (p : Position) {v : Value} {w' : World} :
      (begin e s [] w).EndsIn (.value v) w' → Finishes s w (.expression e p) [v] w'
  | other {stmt : Stmt} {w' : World} : (∀ e p, stmt ≠ .expression e p) →
      (⟨.execute stmt s, [], w⟩ : Machine).EndsIn (.flow .normal) w' → Finishes s w stmt [] w'

/-- Statements of a program run to their ends one after the other, and have these values to tell. -/
inductive Completes (s : ScopeId) : World → List Stmt → List Value → World → Prop
  | nil {w : World} : Completes s w [] [] w
  | cons {w w' w'' : World} {stmt : Stmt} {rest : List Stmt} {vs vs' : List Value} :
      Finishes s w stmt vs w' → Completes s w' rest vs' w'' →
      Completes s w (stmt :: rest) (vs ++ vs') w''

variable {a b : Answer} {stmt : Stmt} {xs : List Stmt} {s : ScopeId} {w w' : World}

theorem endsIn_reply_cons {frame : Frame} {frames : List Frame} :
    (reply b (frame :: frames) w).EndsIn a w' ↔ (answerStep b frame frames w).EndsIn a w' := by
  rw [← endsIn_step_iff]
  rfl

/-- What is begun with a frame below it that holds no values comes to an answer first, which the
frame then takes. -/
theorem endsIn_begin_iff {e : Expr} {frame : Frame} (hframe : frame.values = []) :
    (begin e s [frame] w).EndsIn a w' ↔
      ∃ b w₁, (begin e s [] w).EndsIn b w₁ ∧ (answerStep b frame [] w₁).EndsIn a w' := by
  have honTop : begin e s [frame] w = (begin e s [] w).onTop [frame] := rfl
  rw [honTop, endsIn_onTop_iff (by simpa using hframe)]
  simp only [endsIn_reply_cons]

/-- With no frame below it that echoes, nothing tells a value, and the muted run does the same. -/
theorem endsIn_alone {control : Control} (h : (⟨control, [], w⟩ : Machine).EndsIn a w') :
    w'.values = w.values ∧ (⟨control, [], w.mute []⟩ : Machine).EndsIn a (w'.mute []) := by
  constructor
  · -- The machine is a muted one, with all that has been told put behind.
    have hbehind : (⟨control, [], w⟩ : Machine)
        = (⟨control, [], { w with output := [] }⟩ : Machine).mute w.output := rfl
    rw [hbehind, endsIn_mute_iff] at h
    obtain ⟨v, -, rfl⟩ := h
    exact v.values_mute w.output
  · have hmuted : (⟨control, [], w.mute []⟩ : Machine)
        = (⟨control, [], w⟩ : Machine).mute [] := rfl
    rw [hmuted]
    exact endsIn_mute_iff.mpr ⟨w', h, rfl⟩

/-- **One statement.** With the echo on it ends normally and has told its value, or it does not end
normally and has told none. -/
theorem endsIn_ofStatement_echo (h : (ofStatement stmt true s w).EndsIn a w') :
    (a = .flow .normal ∧ ∃ vs, Finishes s (w.mute []) stmt vs (w'.mute []) ∧
        w'.values = (Event.values vs).reverse ++ w.values) ∨
      (a ≠ .flow .normal ∧ w'.values = w.values ∧
        (⟨.execute stmt s, [], w.mute []⟩ : Machine).EndsIn a (w'.mute [])) := by
  by_cases hexpression : ∃ e p, stmt = .expression e p
  · obtain ⟨e, p, rfl⟩ := hexpression
    obtain ⟨b, w₁, hb, hecho⟩ := (endsIn_begin_iff rfl).mp h
    obtain ⟨hvalues, hmuted⟩ := endsIn_alone hb
    -- The frame that echoes is alone below the expression: it tells a value and lets errors pass.
    cases b with
    | value v =>
      obtain ⟨rfl, rfl⟩ := endsIn_reply_iff.mp hecho
      refine .inl ⟨rfl, [v], .expression p hmuted, ?_⟩
      rw [← hvalues]
      rfl
    | flow f => cases serves_of_endsIn_begin hb
    | error err =>
      obtain ⟨rfl, rfl⟩ := endsIn_reply_iff.mp hecho
      refine .inr ⟨by simp, hvalues, ?_⟩
      rw [← endsIn_step_iff]
      exact (endsIn_begin_iff rfl).mpr ⟨_, _, hmuted, endsIn_reply_iff.mpr ⟨rfl, rfl⟩⟩
  · have hother : ∀ e p, stmt ≠ .expression e p := fun e p heq => hexpression ⟨e, p, heq⟩
    have halone : ofStatement stmt true s w = ⟨.execute stmt s, [], w⟩ := by
      cases stmt with
      | expression e p => exact absurd rfl (hother e p)
      | _ => rfl
    rw [halone] at h
    obtain ⟨hvalues, hmuted⟩ := endsIn_alone h
    by_cases hnormal : a = .flow .normal
    · subst hnormal
      exact .inl ⟨rfl, [], .other hother hmuted, hvalues⟩
    · exact .inr ⟨hnormal, hvalues, hmuted⟩

/-- **All statements.** With the echo on, the values that a program has told at its end are those of
the expression statements that have run to their ends. -/
theorem endsIn_between_echo (h : (between xs true s w).EndsIn a w') :
    ∃ done rest vs w₁, xs = done ++ rest ∧ Completes s (w.mute []) done vs w₁ ∧
      w'.values = (Event.values vs).reverse ++ w.values ∧
      (rest = [] ∧ a = .flow .normal ∧ w₁ = w'.mute [] ∨
        ∃ stmt after, rest = stmt :: after ∧ a ≠ .flow .normal ∧
          (⟨.execute stmt s, [], w₁⟩ : Machine).EndsIn a (w'.mute [])) := by
  -- The world is not fixed: each statement hands a new one on to those after it.
  induction xs generalizing w with
  | nil =>
    obtain ⟨rfl, rfl⟩ := endsIn_between_nil.mp h
    exact ⟨[], [], [], _, rfl, .nil, rfl, .inl ⟨rfl, rfl, rfl⟩⟩
  | cons stmt xs ih =>
    rw [← endsIn_step_iff, step_between_cons, endsIn_onTop_iff rfl] at h
    obtain ⟨b, w₁, hstmt, hrest⟩ := h
    rcases endsIn_ofStatement_echo hstmt with ⟨rfl, vs, hfinishes, hvalues⟩ |
      ⟨hne, hvalues, hfails⟩
    · obtain ⟨done, rest, vs', w₂, rfl, hcompletes, hmore, hlast⟩ := ih hrest
      refine ⟨stmt :: done, rest, vs ++ vs', w₂, rfl, .cons hfinishes hcompletes, ?_, hlast⟩
      rw [hmore, hvalues]
      simp [Event.values]
    · -- A statement that does not end normally is the last one: the rest is not begun.
      have hpassed : answerStep b (.program xs true s) [] w₁ = reply b [] w₁ := by
        cases b with
        | flow f =>
          cases f with
          | normal => exact absurd rfl hne
          | _ => rfl
        | _ => rfl
      rw [endsIn_reply_cons, hpassed] at hrest
      obtain ⟨rfl, rfl⟩ := endsIn_reply_iff.mp hrest
      exact ⟨[], stmt :: xs, [], _, rfl, .nil, hvalues, .inr ⟨stmt, xs, rfl, hne, hfails⟩⟩

end Machine

/-! ## Listeners -/

namespace Channel

/-- Nobody registers anybody else. -/
def OnlyListens (c : Channel) : Prop := ∀ l ∈ c.listeners, ∀ count, l.registers count = []

variable {c : Channel}

theorem spawned_of_onlyListens {told : List Listener}
    (h : ∀ l ∈ told, ∀ count, l.registers count = []) (count : Nat) : spawned count told = [] := by
  induction told generalizing count with
  | nil => rfl
  | cons l told ih =>
    obtain ⟨hl, htold⟩ := List.forall_mem_cons.mp h
    rw [spawned, hl, List.nil_append]
    exact ih htold _

/-- Then all are told of every event, and the channel stays as it is. -/
theorem emitAll_of_onlyListens (h : c.OnlyListens) (events : List Event) :
    c.emitAll events = (events.flatMap fun e => c.listeners.map (·.tag, e), c) := by
  induction events with
  | nil => rfl
  | cons e es ih =>
    have hemit : c.emit e = (c.listeners.map (·.tag, e), c) := by
      rw [emit_eq, spawned_of_onlyListens h, List.append_nil]
    rw [emitAll_cons, hemit, ih]
    rfl

/-- Leaving events out is leaving out what is heard of them. -/
theorem emitAll_filter (h : c.OnlyListens) (p : Event → Bool) (events : List Event) :
    c.emitAll (events.filter p) = ((c.emitAll events).1.filter (p ·.2), c) := by
  rw [emitAll_of_onlyListens h, emitAll_of_onlyListens h]
  refine Prod.ext ?_ rfl
  dsimp only
  induction events with
  | nil => rfl
  | cons e es ih => by_cases hp : p e = true <;> simp [hp, ih, List.filter_map, Function.comp_def]

end Channel

/-! ## Submissions -/

/-- The second submission is the first one without the echo: it has failed in the same way, told the
events that are not values, and left the same session but for the echo. Those who only listen have
heard of the same events, and nobody else has come to listen. -/
structure Submission.Mutes (c : Channel) (r r' : Submission) : Prop where
  failure : r'.failure = r.failure
  events : r'.events = r.events.filter (!·.isValue)
  session : r'.session = { r.session.setEcho false with channel := r'.session.channel }
  heard : c.OnlyListens →
    r'.heard = r.heard.filter (!·.2.isValue) ∧ r'.session.channel = r.session.channel

namespace Session

/-- With the echo on, a program has told the values of the expression statements that it has
completed: of all, or of those before the one that it failed in. -/
def TellsValues (s : Session) (statements : List Stmt) (r : Submission) : Prop :=
  ∃ done rest vs w, statements = done ++ rest ∧ Machine.Completes s.globals s.world done vs w ∧
    r.events.filter (·.isValue) = Event.values vs ∧
    (rest = [] ∧ r.failure = none ∧ r.session.store = w.store ∨
      ∃ stmt after a w', rest = stmt :: after ∧ a ≠ .flow .normal ∧
        (⟨.execute stmt s.globals, [], w⟩ : Machine).EndsIn a w' ∧
        r.failure = failureOf (.reply a [] w') ∧ r.session.store = w'.store ∧
        (s.store.Canonical → ∃ e, a = .error e))

variable {s : Session} {source : String} {statements : List Stmt} {r r' : Submission}

theorem conclude_mutes (s : Session) (told : List Event) (failure : Option Failure) :
    ((s.setEcho true).conclude told failure).Mutes s.channel
      ((s.setEcho false).conclude (told.filter (!·.isValue)) failure) := by
  have hevents : told.filter (!·.isValue) ++ (failure.map Event.failure).toList
      = (told ++ (failure.map Event.failure).toList).filter (!·.isValue) := by
    rw [List.filter_append]
    cases failure <;> rfl
  refine ⟨rfl, hevents, rfl, fun honly => ?_⟩
  dsimp only [conclude, setEcho]
  rw [hevents, Channel.emitAll_filter honly, Channel.emitAll_of_onlyListens honly]
  exact ⟨rfl, rfl⟩

theorem complete_mutes (s : Session) (a : Answer) (w : World) :
    ((s.setEcho true).complete (.reply a [] w)).Mutes s.channel
      ((s.setEcho false).complete (.reply a [] (w.mute []))) := by
  have htold : (w.mute []).output.reverse = w.output.reverse.filter (!·.isValue) := by
    simp [World.mute]
  unfold complete
  rw [show (Machine.reply a [] (w.mute [])).world.output.reverse = _ from htold]
  exact conclude_mutes { s with store := w.store, readings := w.readings } w.output.reverse _

/-- The machine with the echo off is the one with the echo on, muted. -/
theorem start_setEcho_false (s : Session) (statements : List Stmt) :
    (s.setEcho false).start statements = ((s.setEcho true).start statements).mute [] := rfl

/-- The submission ends with the echo on exactly if it does with the echo off. -/
theorem exists_leadsTo_setEcho_iff :
    (∃ r, (s.setEcho true).LeadsTo source r) ↔ ∃ r, (s.setEcho false).LeadsTo source r := by
  cases hread : read source with
  | error f => simp [leadsTo_of_read_error hread]
  | ok statements =>
    simp only [leadsTo_of_read hread, start_setEcho_false, Machine.endsIn_mute_iff]
    constructor
    · rintro ⟨-, a, w, hend, -⟩
      exact ⟨_, a, _, ⟨w, hend, rfl⟩, rfl⟩
    · rintro ⟨-, a, -, ⟨w, hend, -⟩, -⟩
      exact ⟨_, a, w, hend, rfl⟩

theorem LeadsTo.mutes (h : (s.setEcho true).LeadsTo source r)
    (h' : (s.setEcho false).LeadsTo source r') : r.Mutes s.channel r' := by
  cases hread : read source with
  | error f =>
    obtain rfl := (leadsTo_of_read_error hread).mp h
    obtain rfl := (leadsTo_of_read_error hread).mp h'
    exact conclude_mutes s [] (some f)
  | ok statements =>
    obtain ⟨a, w, hend, rfl⟩ := (leadsTo_of_read hread).mp h
    obtain ⟨a', w', hend', rfl⟩ := (leadsTo_of_read hread).mp h'
    rw [start_setEcho_false, Machine.endsIn_mute_iff] at hend'
    obtain ⟨v, hv, rfl⟩ := hend'
    obtain ⟨rfl, rfl⟩ := hend.unique hv
    exact complete_mutes s a w

/-- A failure is not a value. -/
theorem values_conclude (s : Session) (told : List Event) (failure : Option Failure) :
    (s.conclude told failure).events.filter (·.isValue) = told.filter (·.isValue) := by
  have hevents : (s.conclude told failure).events
      = told ++ (failure.map Event.failure).toList := rfl
  rw [hevents, List.filter_append]
  cases failure <;> simp [Event.isValue, Event.failure]

theorem LeadsTo.tellsValues (hread : read source = .ok statements)
    (h : (s.setEcho true).LeadsTo source r) : s.TellsValues statements r := by
  obtain ⟨a, w', hend, rfl⟩ := (leadsTo_of_read hread).mp h
  obtain ⟨ls, hlex, hparse⟩ := exists_lexemes hread
  have hanswer : s.store.Canonical → a = .flow .normal ∨ ∃ e, a = .error e := by
    intro hs
    have hplaced : ((s.setEcho true).start statements).Placed (.flow .outermost) :=
      Machine.ofProgram_placed hs (Grammar.canonical_of_parse hparse) true s.globals
    exact (hplaced.endsIn hend).1
  obtain ⟨done, rest, vs, w, hstatements, hcompletes, hvalues, hlast⟩ :=
    Machine.endsIn_between_echo hend
  have htold : w'.output.reverse.filter (·.isValue) = Event.values vs := by
    rw [List.filter_reverse, List.reverse_eq_iff]
    exact hvalues.trans (List.append_nil _)
  refine ⟨done, rest, vs, w, hstatements, hcompletes, (values_conclude _ _ _).trans htold, ?_⟩
  rcases hlast with ⟨hrest, rfl, rfl⟩ | ⟨stmt, after, hrest, hne, hfails⟩
  · exact .inl ⟨hrest, rfl, rfl⟩
  · refine .inr ⟨stmt, after, a, _, hrest, hne, hfails, rfl, rfl, fun hs => ?_⟩
    exact (hanswer hs).resolve_left hne

/-- **The echo only adds values.** Take any session and any source text, and submit it with the echo
on and with the echo off. Every state that the machine goes through with the echo on it also goes
through with the echo off, muted, and not earlier. The one submission ends exactly if the other
does. They then fail in the same way or not at all, the two sessions differ in the echo and nothing
else, and the events without the echo are those with it, the values left out; so they are to each
listener, if none registers another. The values with the echo are those of the expression statements
of the program that were completed, in order. -/
theorem echo_only_adds_values (s : Session) (source : String) :
    let on := s.setEcho true
    let off := s.setEcho false
    (∀ statements n, read source = .ok statements →
        ∃ k, n ≤ k ∧ (off.start statements).run k = ((on.start statements).run n).mute []) ∧
      ((∃ r, on.LeadsTo source r) ↔ ∃ r', off.LeadsTo source r') ∧
      ∀ r r', on.LeadsTo source r → off.LeadsTo source r' →
        r.Mutes s.channel r' ∧
          ∀ statements, read source = .ok statements → s.TellsValues statements r := by
  intro on off
  refine ⟨fun statements n _ => ?_, exists_leadsTo_setEcho_iff, fun r r' h h' => ?_⟩
  · exact Machine.run_mute [] (on.start statements) n
  · exact ⟨h.mutes h', fun statements hread => h.tellsValues hread⟩

/-- A function prints before its value is told; the next value is told as well, and then the program
fails. Without the echo there are the line and the failure. -/
theorem echo_adds_two_values :
    ∃ r r' : Submission,
      let s := (Session.new ⟨true, 4⟩ fun _ => 0).listen (.plain "first")
      let source := "fun f() \x7b print \"in\"; return \"out\" \x7d f(); true; b"
      let failure := Event.failure (.runtime ⟨.undefinedVariable "b", ⟨1, 49⟩⟩)
      (s.setEcho true).LeadsTo source r ∧ (s.setEcho false).LeadsTo source r' ∧
        r.events = [.print "in", .value "out", .value "true", failure] ∧
        r'.events = [.print "in", failure] ∧
        r'.heard = [("first", .print "in"), ("first", failure)] ∧ r'.failure = r.failure := by
  let s := (Session.new ⟨true, 4⟩ fun _ => 0).listen (.plain "first")
  let source := "fun f() \x7b print \"in\"; return \"out\" \x7d f(); true; b"
  let failure := Event.failure (.runtime ⟨.undefinedVariable "b", ⟨1, 49⟩⟩)
  have hruns : ((s.setEcho true).submit 60 source).any (fun r =>
      decide (r.events = [.print "in", .value "out", .value "true", failure])
        && decide (r.heard = r.events.map ("first", ·))) = true := by
    decide +kernel
  obtain ⟨r, hr, hdone⟩ := (Option.any_eq_true _ _).mp hruns
  rw [Bool.and_eq_true, decide_eq_true_iff, decide_eq_true_iff] at hdone
  obtain ⟨hevents, hheard⟩ := hdone
  obtain ⟨-, hends, hmutes⟩ := echo_only_adds_values s source
  obtain ⟨r', hr'⟩ := hends.mp ⟨r, 60, hr⟩
  obtain ⟨hmute, -⟩ := hmutes r r' ⟨60, hr⟩ hr'
  have honly : s.channel.OnlyListens := by
    intro l hl count
    obtain rfl := List.mem_singleton.mp hl
    rfl
  refine ⟨r, r', ⟨60, hr⟩, hr', hevents, ?_, ?_, hmute.failure⟩
  · rw [hmute.events, hevents]
    rfl
  · rw [(hmute.heard honly).1, hheard, hevents]
    rfl

end Session

end Scripting
