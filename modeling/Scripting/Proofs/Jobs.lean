/-
Runs inside of runs.

Whatever a program consists of can also be run by itself: an expression, a statement, a block or a
call is a *job*, and a machine can be started on it with nothing waiting for the answer. In the
midst of a program the same job has frames waiting below it. The machine does not look at them
before it has an answer for them, so it takes the same steps as it does by itself, with the frames
left as they are. Only the values that wait in them are held meanwhile, which counts when a scope is
left: so a run above other frames is the run by itself that holds these values
(`run_onTop_holding`), and where none wait it takes just the steps that it takes by itself
(`step_onTop`). What is shown of jobs by themselves therefore holds wherever in a program they are
run.
-/
import Scripting.Proofs.Steps

set_option autoImplicit false

namespace Scripting

/-! ## Holding values -/

/-- Leave scopes in the same way, but hold some more values. -/
def Store.Leaving.holding (leaving : Store.Leaving) (values : List Value) : Store.Leaving :=
  fun store held s => leaving store (fun t => held t ++ functionsAmong values t) s

theorem Store.Leaving.holding_nil (leaving : Store.Leaving) : leaving.holding [] = leaving := by
  funext store held s
  have hheld : (fun t => held t ++ functionsAmong [] t) = held := by
    funext t
    exact List.append_nil _
  rw [holding, hheld]

/-- The functions that are held for some frames, and for others below. -/
theorem heldOnTheWay_append (a : Answer) (frames base : List Frame) :
    heldOnTheWay a (frames ++ base)
      = fun t => heldOnTheWay a frames t ++ functionsAmong (base.flatMap (·.values)) t := by
  funext t
  simp only [heldOnTheWay, functionsAmong, List.flatMap_append, List.filterMap_append,
    List.append_assoc]

namespace Machine

/-- At most `fuel` steps, while some values are held elsewhere. -/
def runHolding (values : List Value) (fuel : Nat) (m : Machine) : Machine :=
  m.runLeaving (Store.Leaving.holding Store.leave values) fuel

/-- With nothing held elsewhere, this is a run. -/
theorem runHolding_nil (fuel : Nat) (m : Machine) : m.runHolding [] fuel = m.run fuel := by
  rw [runHolding, Store.Leaving.holding_nil, run_eq]

/-! ## Frames below -/

/-- The machine with more frames waiting, below all of its own. -/
def onTop (base : List Frame) (m : Machine) : Machine := { m with frames := m.frames ++ base }

section OnTop

variable (leaving : Store.Leaving) (base : List Frame)

theorem call_onTop (f : Value) (arguments : List Value) (p : Position) (frames : List Frame)
    (w : World) :
    call f arguments p (frames ++ base) w = (call f arguments p frames w).onTop base := by
  rcases call_cases f arguments p w with ⟨r, used, hcall, -, -⟩ | ⟨g, -, -, -, hcall⟩
  · exact (hcall (frames ++ base) w.store).trans (congrArg (onTop base) (hcall frames w.store).symm)
  · exact (hcall (frames ++ base) w.store).trans (congrArg (onTop base) (hcall frames w.store).symm)

theorem perform_onTop (effect : Effect) (frames : List Frame) (w : World) :
    perform leaving effect (frames ++ base) w
      = (perform (leaving.holding (base.flatMap (·.values))) effect frames w).onTop base := by
  -- The frames are looked at only when a scope is left, for the values that wait in them.
  cases effect with
  | lookUp name p s =>
    simp only [perform]
    split <;> rfl
  | assign name v p s =>
    simp only [perform]
    split <;> rfl
  | call f arguments p => exact call_onTop base f arguments p frames w
  | leaveBlock a s =>
    simp only [perform, heldOnTheWay_append]
    rfl
  | leaveCall a s =>
    simp only [perform, heldOnTheWay_append]
    rfl
  | _ => rfl

/-- **One step.** Until there is an answer the frames below are not looked at. -/
theorem stepLeaving_onTop {m : Machine} (h : m.result? = none) :
    (m.onTop base).stepLeaving leaving
      = (m.stepLeaving (leaving.holding (base.flatMap (·.values)))).onTop base := by
  rcases m.stepLeaving_cases with ⟨mv, below, hmoves, hstep⟩ | ⟨⟨a, ha⟩, -⟩
  · have habove : Moves m.control (m.frames ++ base) mv (below ++ base) := by
      obtain ⟨control, frames, w⟩ := m
      cases hmoves <;> constructor
    rw [hstep, onTop, stepLeaving_of_moves habove, make, ← List.append_assoc, perform_onTop]
  · rw [ha] at h
    cases h

/-- **Whole runs.** Up to its answer, a machine that runs over other frames is at every moment
where it is by itself while the values of these frames are held, with the frames untouched. -/
theorem run_onTop_holding {m : Machine} {n : Nat}
    (h : ∀ k < n, (m.runHolding (base.flatMap (·.values)) k).result? = none) :
    (m.onTop base).run n = (m.runHolding (base.flatMap (·.values)) n).onTop base := by
  rw [run_eq]
  unfold runHolding at h ⊢
  -- By induction on the steps: there is no answer yet, so the first one is taken above the frames.
  induction n generalizing m with
  | zero => rfl
  | succ n ih =>
    have hnow : m.result? = none := h 0 (Nat.succ_pos n)
    rw [runLeaving_succ, runLeaving_succ, stepLeaving_onTop Store.leave base hnow]
    apply ih
    intro k hk
    rw [← runLeaving_succ]
    exact h (k + 1) (Nat.succ_lt_succ hk)

variable {base} (hbase : base.flatMap (·.values) = [])

include hbase

/-- Where no values wait below, nothing at all changes. -/
theorem step_onTop {m : Machine} (h : m.result? = none) :
    (m.onTop base).step = m.step.onTop base := by
  rw [step_eq, step_eq, stepLeaving_onTop Store.leave base h, hbase, Store.Leaving.holding_nil]

end OnTop

/-! ## The answer for the frames below -/

/-- A machine that is over hands its answer to the frames below. -/
theorem onTop_of_result? {m : Machine} {a : Answer} (h : m.result? = some a) (base : List Frame) :
    m.onTop base = reply a base m.world := by
  obtain ⟨control, frames, w⟩ := m
  cases control with
  | answer b =>
    cases frames with
    | nil =>
      cases h
      rfl
    | cons frame frames => cases h
  | _ => cases h

/-- A machine over other frames is either still on its way to its answer, or has handed it down. -/
theorem run_onTop_cases {base : List Frame} (hbase : base.flatMap (·.values) = []) (m : Machine)
    (k : Nat) :
    (∀ j ≤ k, (m.onTop base).run j = (m.run j).onTop base) ∨
      ∃ i < k, ∃ a, (∀ j ≤ i, (m.onTop base).run j = (m.run j).onTop base) ∧
        (m.run i).result? = some a ∧
        (m.onTop base).run k = (reply a base (m.run i).world).run (k - i) := by
  induction k generalizing m with
  | zero =>
    refine .inl fun j hj => ?_
    rw [Nat.le_zero.mp hj]
    rfl
  | succ k ih =>
    cases hres : m.result? with
    | some a =>
      refine .inr ⟨0, Nat.succ_pos k, a, fun j hj => ?_, hres, ?_⟩
      · rw [Nat.le_zero.mp hj]
        rfl
      · rw [onTop_of_result? hres]
        rfl
    | none =>
      -- Both take a step; whatever is found behind it is found one step later from here.
      have hstep := step_onTop hbase hres
      have hnext : ∀ {i : Nat}, (∀ j ≤ i, (m.step.onTop base).run j = (m.step.run j).onTop base) →
          ∀ j ≤ i + 1, (m.onTop base).run j = (m.run j).onTop base := by
        intro i hreach j hj
        cases j with
        | zero => rfl
        | succ j =>
          rw [run_succ, run_succ, hstep]
          exact hreach j (Nat.le_of_succ_le_succ hj)
      rcases ih m.step with hreach | ⟨i, hi, a, hreach, ha, hrun⟩
      · exact .inl (hnext hreach)
      · refine .inr ⟨i + 1, Nat.succ_lt_succ hi, a, hnext hreach, ?_, ?_⟩
        · rwa [run_succ]
        · rw [run_succ, hstep, hrun, run_succ, Nat.succ_sub_succ]

end Machine

/-! ## Jobs -/

/-- Something that can be run by itself. -/
inductive Job where
  | evaluate (e : Expr) (scope : ScopeId)
  | execute (s : Stmt) (scope : ScopeId)
  /-- Run statements in a new scope inside of `scope`. -/
  | block (body : List Stmt) (scope : ScopeId)
  | call (callee : Value) (arguments : List Value) (position : Position)

/-- The machine that does a job, with `frames` waiting for the answer. -/
def Job.start (job : Job) (frames : List Frame) (w : World) : Machine :=
  match job with
  | evaluate e s => Machine.begin e s frames w
  | execute stmt s => ⟨.execute stmt s, frames, w⟩
  | block body s => Machine.executeStep (.block body .start) s frames w
  | call f arguments p => Machine.call f arguments p frames w

theorem Job.start_onTop (job : Job) (base : List Frame) (w : World) :
    (job.start [] w).onTop base = job.start base w := by
  cases job with
  | call f arguments p => exact (Machine.call_onTop base f arguments p [] w).symm
  | _ => rfl

end Scripting
