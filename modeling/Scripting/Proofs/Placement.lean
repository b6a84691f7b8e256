/-
Where a statement stands, and how it can end.

The grammar reads a `return` only inside of a function, and a `break` or a `continue` only inside
of a loop, where a loop around a function does not count. This is what keeps the three of them
from getting to where nothing can be done with them: past a call, or to the end of a program.

The argument gives types to the frames. Each frame *takes* one kind of answer and gives another to
the frame beneath it. Values are one kind; the ends of statements are a kind for each place where
statements may stand. A machine *fits* if what it is doing leads to the kind that the innermost
frame takes, and so on down to the last. A step keeps a machine fitting, provided that the body of
every function may stand in a function; and that holds of all functions because it holds where
they are declared.
-/
import Scripting.Proofs.CallDepth
import Scripting.Proofs.Lossless
import Scripting.Proofs.Provenance

set_option autoImplicit false

namespace Scripting

open Grammar

/-! ## Kinds of answers -/

/-- The value of an expression, or the end of a statement with this `around` it. -/
inductive Awaited where
  | value
  | flow (around : Surroundings)

/-- A statement may end in this way where this is `around` it. -/
def Flow.AllowedIn (around : Surroundings) : Flow → Prop
  | .normal => True
  | .break_ | .continue_ => around.inLoop = true
  | .return_ _ => around.inFunction = true

/-- An answer of a kind. An error is of every kind. -/
def Answer.Fits : Answer → Awaited → Prop
  | .error _, _ => True
  | .value _, .value => True
  | .flow f, .flow around => f.AllowedIn around
  | _, _ => False

/-- What the machine is doing leads to an answer of a kind. -/
def Control.Fits : Control → Awaited → Prop
  | .evaluate _ _, .value => True
  | .execute s _, .flow around => s.Canonical around
  | .answer a, kind => a.Fits kind
  | _, _ => False

/-- A frame takes an answer of the first kind and gives one of the second. -/
inductive Frame.Takes : Frame → Awaited → Awaited → Prop
  | leftOperand (op : BinaryOperator) (right : Expr) (p : Position) (s : ScopeId) :
      Takes (.leftOperand op right p s) .value .value
  | rightOperand (op : BinaryOperator) (left : Value) (p : Position) :
      Takes (.rightOperand op left p) .value .value
  | operand (op : UnaryOperator) (p : Position) : Takes (.operand op p) .value .value
  | assignTo (name : String) (p : Position) (s : ScopeId) : Takes (.assignTo name p s) .value .value
  | callee (arguments : List Expr) (p : Position) (s : ScopeId) :
      Takes (.callee arguments p s) .value .value
  | argument (f : Value) (done : List Value) (remaining : List Expr) (p : Position) (s : ScopeId) :
      Takes (.argument f done remaining p s) .value .value
  | discard (around : Surroundings) : Takes .discard .value (.flow around)
  | declareAs (name : String) (s : ScopeId) (around : Surroundings) :
      Takes (.declareAs name s) .value (.flow around)
  | branch {yes : Stmt} {no : Option Stmt} (s : ScopeId) {around : Surroundings} :
      yes.Canonical around → (∀ stmt, no = some stmt → stmt.Canonical around) →
      Takes (.branch yes no s) .value (.flow around)
  | loopTest (test : Expr) {body : Stmt} (s : ScopeId) {around : Surroundings} :
      body.Canonical around.loopBody → Takes (.loopTest test body s) .value (.flow around)
  | printing (around : Surroundings) : Takes .printing .value (.flow around)
  | echoing (around : Surroundings) : Takes .echoing .value (.flow around)
  | returning {around : Surroundings} : around.inFunction = true →
      Takes .returning .value (.flow around)
  | sequence {remaining : List Stmt} (s : ScopeId) {around : Surroundings} :
      Stmt.AllCanonical around remaining →
      Takes (.sequence remaining s) (.flow around) (.flow around)
  | program {remaining : List Stmt} (echo : Bool) (s : ScopeId) :
      Stmt.AllCanonical .outermost remaining →
      Takes (.program remaining echo s) (.flow .outermost) (.flow .outermost)
  | loopBody (test : Expr) {body : Stmt} (s : ScopeId) {around : Surroundings} :
      body.Canonical around.loopBody →
      Takes (.loopBody test body s) (.flow around.loopBody) (.flow around)
  | leaveBlock (s : ScopeId) (around : Surroundings) :
      Takes (.leaveBlock s) (.flow around) (.flow around)
  /-- A call is an expression, whatever the end of its body. -/
  | leaveCall (s : ScopeId) : Takes (.leaveCall s) (.flow .functionBody) .value

/-- The innermost of the frames takes an answer of a kind, each gives what the next one takes, and
the last gives an answer of the kind `bottom`. -/
inductive Fitting (bottom : Awaited) : Awaited → List Frame → Prop
  | nil : Fitting bottom bottom []
  | cons {frame : Frame} {frames : List Frame} {kind below : Awaited} : frame.Takes kind below →
      Fitting bottom below frames → Fitting bottom kind (frame :: frames)

/-- What the machine is doing and what waits for it fit together. -/
def Machine.Fits (bottom : Awaited) (m : Machine) : Prop :=
  ∃ kind, m.control.Fits kind ∧ Fitting bottom kind m.frames

/-- The body of the function may stand in a function. -/
def Closure.Canonical (f : Closure) : Prop := Stmt.AllCanonical .functionBody f.body

/-! ## Moves -/

/-- What is asked of the world leads to an answer of a kind. -/
def Effect.Fits : Effect → Awaited → Prop
  | .proceed control, kind => control.Fits kind
  | .lookUp .., .value | .assign .., .value => True
  | .define .., .flow _ | .declare .., .flow _ | .tell _, .flow _ => True
  | .enterBlock body _, .flow around => Stmt.AllCanonical around body
  | .call f _ _, .value => f.Meets Closure.Canonical
  | .leaveBlock a _, kind => a.Fits kind
  | .leaveCall a _, .value => a.Fits (.flow .functionBody)
  | _, _ => False

/-- A move leads to an answer of a kind, by way of the frames that it pushes. -/
def Move.Fits (mv : Move) (kind : Awaited) : Prop :=
  ∃ first, mv.effect.Fits first ∧ Fitting kind first mv.pushed

section Moves

variable {around : Surroundings} {kind : Awaited} {s : ScopeId}

theorem Fitting.append {bottom kind first : Awaited} {pushed below : List Frame}
    (h : Fitting kind first pushed) (hbelow : Fitting bottom kind below) :
    Fitting bottom first (pushed ++ below) := by
  induction h with
  | nil => exact hbelow
  | cons htakes _ ih => exact .cons htakes ih

/-- A move that pushes no frame. -/
theorem Move.fits_alone {effect : Effect} (h : effect.Fits kind) : Move.Fits ⟨effect, []⟩ kind :=
  ⟨kind, h, .nil⟩

/-- An expression whose value a frame takes. -/
theorem Move.fits_evaluate {frame : Frame} (h : frame.Takes .value kind) (e : Expr) :
    (Move.evaluate e s [frame]).Fits kind :=
  ⟨.value, trivial, .cons h .nil⟩

/-- A statement whose end a frame takes. -/
theorem Move.fits_execute {frame : Frame} {stmt : Stmt} (hstmt : stmt.Canonical around)
    (h : frame.Takes (.flow around) kind) : (Move.execute stmt s [frame]).Fits kind :=
  ⟨.flow around, hstmt, .cons h .nil⟩

/-- The end of a statement. -/
theorem Move.fits_flow {f : Flow} (h : f.AllowedIn around) :
    (Move.answer (.flow f)).Fits (.flow around) :=
  Move.fits_alone h

theorem Expr.move_fits (e : Expr) (s : ScopeId) : (e.move s).Fits .value := by
  cases e with
  | literal l p => exact Move.fits_alone trivial
  | var name p => exact Move.fits_alone trivial
  | unary op e p => exact Move.fits_evaluate (.operand op p) e
  | binary op left right p => exact Move.fits_evaluate (.leftOperand op right p s) left
  | call f arguments p => exact Move.fits_evaluate (.callee arguments p s) f
  | assign name e p => exact Move.fits_evaluate (.assignTo name p s) e
  | group e p => exact Move.fits_alone trivial

/-- Whatever a canonical statement begins with pushes frames that end as the statement may. -/
theorem Stmt.move_fits {stmt : Stmt} (h : stmt.Canonical around) (s : ScopeId) :
    (stmt.move s).Fits (.flow around) := by
  cases stmt with
  | expression e p => exact Move.fits_evaluate (.discard around) e
  | declare name initial p =>
    cases initial with
    | none => exact Move.fits_alone trivial
    | some e => exact Move.fits_evaluate (.declareAs name s around) e
  | block body p =>
    rw [Stmt.Canonical] at h
    exact Move.fits_alone h
  | cond test yes no p =>
    rw [Stmt.Canonical] at h
    obtain ⟨-, hyes, -, -, -, hno⟩ := h
    have hno' : ∀ stmt, no = some stmt → stmt.Canonical around := by
      rintro stmt rfl
      rw [Stmt.OtherwiseCanonical] at hno
      exact hno.1
    exact Move.fits_evaluate (.branch s hyes hno') test
  | loop test body p =>
    rw [Stmt.Canonical] at h
    exact Move.fits_evaluate (.loopTest test s h.2.1) test
  | function name parameters body p => exact Move.fits_alone trivial
  | return_ value p =>
    cases value with
    | none =>
      rw [Stmt.Canonical] at h
      exact Move.fits_flow h
    | some e =>
      rw [Stmt.Canonical] at h
      exact Move.fits_evaluate (.returning h.1) e
  | print e p => exact Move.fits_evaluate (.printing around) e
  | break_ p =>
    rw [Stmt.Canonical] at h
    exact Move.fits_flow h
  | continue_ p =>
    rw [Stmt.Canonical] at h
    exact Move.fits_flow h

theorem Move.nextArgument_fits {f : Value} (hf : f.Meets Closure.Canonical) (done : List Value)
    (remaining : List Expr) (p : Position) (s : ScopeId) :
    (Move.nextArgument f done remaining p s).Fits .value := by
  cases remaining with
  | nil => exact Move.fits_alone hf
  | cons e es => exact Move.fits_evaluate (.argument f done es p s) e

/-- Only frames that take values get them. -/
theorem Frame.valueMove_fits {frame : Frame} (h : frame.Takes .value kind) {v : Value}
    (hv : v.Meets Closure.Canonical) (hwait : ∀ u ∈ frame.values, u.Meets Closure.Canonical) :
    (frame.valueMove v).Fits kind := by
  have hresult : ∀ r : Except RuntimeError Value, (Move.answer (.ofResult r)).Fits .value := by
    intro r
    cases r <;> exact Move.fits_alone trivial
  cases h with
  | leftOperand op right p s =>
    simp only [Frame.valueMove]
    split
    · exact Move.fits_alone trivial
    · exact Move.fits_evaluate (.rightOperand op v p) right
  | rightOperand op left p => exact hresult _
  | operand op p => exact hresult _
  | assignTo name p s => exact Move.fits_alone trivial
  | callee arguments p s => exact Move.nextArgument_fits hv [] arguments p s
  | argument f done remaining p s =>
    exact Move.nextArgument_fits (hwait f List.mem_cons_self) (v :: done) remaining p s
  | discard => exact Move.fits_flow trivial
  | declareAs name s => exact Move.fits_alone trivial
  | branch s hyes hno =>
    simp only [Frame.valueMove]
    split
    · exact Move.fits_alone hyes
    · split
      · exact Move.fits_alone (hno _ rfl)
      · exact Move.fits_flow trivial
  | loopTest test s hbody =>
    simp only [Frame.valueMove]
    split
    · exact Move.fits_execute hbody (.loopBody test s hbody)
    · exact Move.fits_flow trivial
  | printing => exact Move.fits_alone trivial
  | echoing => exact Move.fits_alone trivial
  | returning hfunction => exact Move.fits_flow hfunction

theorem Move.nextStatement_fits {remaining : List Stmt}
    (h : Stmt.AllCanonical .outermost remaining) (echo : Bool) (s : ScopeId) :
    (Move.nextStatement remaining echo s).Fits (.flow .outermost) := by
  cases remaining with
  | nil => exact Move.fits_flow trivial
  | cons stmt rest =>
    rw [Stmt.AllCanonical] at h
    have hprogram : Fitting (.flow .outermost) (.flow .outermost) [.program rest echo s] :=
      .cons (.program echo s h.2) .nil
    simp only [Move.nextStatement]
    split
    · exact ⟨.value, trivial, .cons (.echoing .outermost) hprogram⟩
    · exact ⟨.flow .outermost, h.1, hprogram⟩

/-- Only frames that take the ends of statements get them. A loop takes the `break` and the
`continue` of its body, so what it gives may stand where the loop stands. -/
theorem Frame.flowMove_fits {frame : Frame} (h : frame.Takes (.flow around) kind) {f : Flow}
    (hf : f.AllowedIn around) (hleft : frame.left? = none) : (frame.flowMove f).Fits kind := by
  cases h with
  | @sequence remaining s _ hremaining =>
    cases remaining with
    | nil => exact Move.fits_flow hf
    | cons stmt rest =>
      cases f with
      | normal =>
        rw [Stmt.AllCanonical] at hremaining
        exact Move.fits_execute hremaining.1 (.sequence s hremaining.2)
      | _ => exact Move.fits_flow hf
  | program echo s hremaining =>
    cases f with
    | normal => exact Move.nextStatement_fits hremaining echo s
    -- Outside of functions and loops there is no other way to end.
    | _ => cases hf
  | loopBody test s hbody =>
    cases f with
    | normal | continue_ => exact Move.fits_evaluate (.loopTest test s hbody) test
    | break_ => exact Move.fits_flow trivial
    | return_ v => exact Move.fits_flow hf
  | leaveBlock s around => cases hleft
  | leaveCall s => cases hleft

/-- A frame that leaves a scope sees every answer; any other lets an error pass. -/
theorem Frame.move_fits {frame : Frame} {taken : Awaited} (h : frame.Takes taken kind) {a : Answer}
    (ha : a.Fits taken) (hheld : ∀ v ∈ a.held, v.Meets Closure.Canonical)
    (hwait : ∀ u ∈ frame.values, u.Meets Closure.Canonical) : (frame.move a).Fits kind := by
  cases hleft : frame.left? with
  | some s =>
    cases h <;> cases hleft
    · exact Move.fits_alone ha
    · exact Move.fits_alone ha
  | none =>
    cases a with
    | value v =>
      cases taken with
      | value =>
        have hvalue := Frame.valueMove_fits h (hheld v List.mem_cons_self) hwait
        cases frame <;> first | exact hvalue | cases hleft
      | flow around => cases ha
    | flow f =>
      cases taken with
      | value => cases ha
      | flow around =>
        have hflow := Frame.flowMove_fits h ha hleft
        cases frame <;> first | exact hflow | cases hleft
    | error e => cases frame <;> first | exact Move.fits_alone trivial | cases hleft

end Moves

/-! ## Steps -/

namespace Machine

variable {bottom kind : Awaited} {frames : List Frame} {w : World}

/-- The statements of a block or a function run where they may stand, and what is left of their
frames is the one that leaves the scope. -/
theorem runAll_fits {body : List Stmt} {around : Surroundings} (h : Stmt.AllCanonical around body)
    (s : ScopeId) {leave : Frame} (hleave : leave.Takes (.flow around) kind)
    (hframes : Fitting bottom kind frames) : (runAll body s (leave :: frames) w).Fits bottom :=
  ⟨.flow around, trivial, .cons (.sequence s h) (.cons hleave hframes)⟩

/-- What becomes of an effect is of the kind that it leads to. -/
theorem perform_fits {effect : Effect} (h : effect.Fits kind)
    (hframes : Fitting bottom kind frames) :
    (perform Store.leave effect frames w).Fits bottom := by
  cases effect with
  | proceed control => exact ⟨kind, h, hframes⟩
  | lookUp name p s =>
    cases kind with
    | flow around => cases h
    | value =>
      simp only [perform]
      split <;> exact ⟨.value, trivial, hframes⟩
  | assign name v p s =>
    cases kind with
    | flow around => cases h
    | value =>
      simp only [perform]
      split <;> exact ⟨.value, trivial, hframes⟩
  | define name v s | declare name parameters body s | tell event =>
    cases kind with
    | value => cases h
    | flow around => exact ⟨.flow around, trivial, hframes⟩
  | enterBlock body s =>
    cases kind with
    | value => cases h
    | flow around => exact runAll_fits h _ (.leaveBlock _ around) hframes
  | call f arguments p =>
    cases kind with
    | flow around => cases h
    | value =>
      rcases call_cases f arguments p w with ⟨r, used, hcall, -, -⟩ | ⟨g, rfl, -, -, hcall⟩
      · have hcall : call f arguments p frames w = _ := hcall frames w.store
        rw [perform, hcall]
        cases r <;> exact ⟨.value, trivial, hframes⟩
      -- The body runs where a function's body may stand, wherever it was declared or is called.
      · have hcall : call (.function g) arguments p frames w = _ := hcall frames w.store
        rw [perform, hcall]
        exact runAll_fits h _ (.leaveCall _) hframes
  | leaveBlock a s => exact ⟨kind, h, hframes⟩
  | leaveCall a s =>
    cases kind with
    | flow around => cases h
    | value =>
      refine ⟨.value, ?_, hframes⟩
      cases a with
      | value v => cases h
      | flow f => cases f <;> trivial
      | error e => trivial

/-- What the machine is doing and what waits for it fit together, and all functions may be called.
-/
structure Placed (bottom : Awaited) (m : Machine) : Prop where
  fits : m.Fits bottom
  functions : m.AllFunctions Closure.Canonical

variable {m : Machine}

theorem Placed.moves_fit (h : m.Placed bottom) {mv : Move} {below : List Frame}
    (hmoves : Moves m.control m.frames mv below) :
    ∃ kind, mv.Fits kind ∧ Fitting bottom kind below := by
  obtain ⟨control, frames, w⟩ := m
  obtain ⟨⟨kind, hcontrol, hframes⟩, hfunctions⟩ := h
  cases hmoves with
  | evaluate e s =>
    cases kind with
    | value => exact ⟨.value, e.move_fits s, hframes⟩
    | flow around => cases hcontrol
  | execute stmt s =>
    cases kind with
    | value => cases hcontrol
    | flow around => exact ⟨.flow around, Stmt.move_fits hcontrol s, hframes⟩
  | answer a frame =>
    cases hframes with
    | cons htakes hbelow =>
      exact ⟨_, Frame.move_fits htakes hcontrol hfunctions.held
        (hfunctions.waiting frame List.mem_cons_self), hbelow⟩

/-- **One step.** A function that is being declared is part of a statement that is canonical where
it stands. -/
theorem Placed.step (h : m.Placed bottom) : m.step.Placed bottom := by
  constructor
  · rw [step_eq]
    rcases m.stepLeaving_cases with ⟨mv, below, hmoves, hstep⟩ | ⟨-, hstep⟩
    · obtain ⟨kind, ⟨first, heffect, hpushed⟩, hbelow⟩ := h.moves_fit hmoves
      rw [hstep]
      exact perform_fits heffect (hpushed.append hbelow)
    · rw [hstep]
      exact h.fits
  · apply h.functions.step
    intro name parameters body p s hc
    obtain ⟨kind, hcontrol, -⟩ := h.fits
    rw [hc] at hcontrol
    cases kind with
    | value => cases hcontrol
    | flow around =>
      have hbody : Stmt.Canonical around (.function name parameters body p) := hcontrol
      rw [Stmt.Canonical] at hbody
      exact hbody.2.2

/-- **Whole runs.** -/
theorem Placed.run (h : m.Placed bottom) (n : Nat) : (m.run n).Placed bottom :=
  run_keeps (fun _ hm => hm.step) h n

/-- The answer of a run is of the kind that the last of the frames gives. -/
theorem Placed.result (h : m.Placed bottom) {a : Answer} (ha : m.result? = some a) :
    a.Fits bottom := by
  obtain ⟨kind, hcontrol, hframes⟩ := h.fits
  unfold result? at ha
  split at ha
  · next hc hf =>
    cases ha
    rw [hf] at hframes
    cases hframes
    rw [hc] at hcontrol
    exact hcontrol
  · cases ha

end Machine

end Scripting
