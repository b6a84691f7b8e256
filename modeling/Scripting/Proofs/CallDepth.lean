/-
The counter of active calls.

A call of one of the program's functions adds one to the counter when its body begins and takes
one off when the frame that leaves it gets an answer, whatever the answer is. So at every moment
the counter is what it was when the run began plus the number of those frames that have been
pushed since and are still waiting: it is *balanced*. When the run is over none is waiting, and
the counter is back where it was.

Only `call` can push such a frame, and it looks at the counter first. This keeps the counter from
passing the limit, and it is the only reason for which a call is refused as too deep.
-/
import Scripting.Proofs.Jobs

set_option autoImplicit false

namespace Scripting

/-! ## Active calls -/

/-- How many calls of the program's functions are waiting for their bodies. -/
def activeCalls (frames : List Frame) : Nat := frames.countP (·.isCall)

theorem activeCalls_cons {frame : Frame} (h : frame.isCall = false) (frames : List Frame) :
    activeCalls (frame :: frames) = activeCalls frames := by
  unfold activeCalls
  rw [List.countP_cons_of_neg]
  rw [h]
  exact Bool.false_ne_true

theorem activeCalls_leaveCall (s : ScopeId) (frames : List Frame) :
    activeCalls (.leaveCall s :: frames) = activeCalls frames + 1 :=
  List.countP_cons_of_pos rfl

/-- The counter is `base` plus the number of active calls, and within the limit. -/
structure Balanced (limit base : Nat) (frames : List Frame) (w : World) : Prop where
  limited : w.maxCallDepth = limit
  counted : w.callDepth = base + activeCalls frames
  within : w.callDepth ≤ limit

/-- A machine whose counter is balanced. -/
def Machine.Balanced (limit base : Nat) (m : Machine) : Prop :=
  Scripting.Balanced limit base m.frames m.world

section Balanced

variable {limit base : Nat} {frames frames' : List Frame} {w w' : World}

/-- A waiting call has been counted. -/
theorem Balanced.callDepth_pos {s : ScopeId} (h : Balanced limit base (.leaveCall s :: frames) w) :
    0 < w.callDepth := by
  rw [h.counted, activeCalls_leaveCall]
  exact Nat.succ_pos _

/-- **Nothing that a step can do unbalances the counter.** Entering a call is what makes the bound
hold: it is only done if there is room. -/
theorem Balanced.changes (h : Balanced limit base frames w)
    (hc : Machine.Changes frames w frames' w') : Balanced limit base frames' w' := by
  induction hc with
  | none => exact h
  | push hf => exact ⟨h.limited, by rw [activeCalls_cons hf, h.counted], h.within⟩
  | pop hf => exact ⟨h.limited, by rw [h.counted, activeCalls_cons hf], h.within⟩
  | store store => exact ⟨h.limited, h.counted, h.within⟩
  | reading used => exact ⟨h.limited, h.counted, h.within⟩
  | tell e => exact ⟨h.limited, h.counted, h.within⟩
  | enter s hroom =>
    refine ⟨h.limited, ?_, ?_⟩
    · rw [activeCalls_leaveCall, ← Nat.add_assoc, h.counted]
    · rw [← h.limited]
      exact hroom
  | leave s =>
    refine ⟨h.limited, ?_, Nat.le_trans (Nat.sub_le _ _) h.within⟩
    dsimp only
    rw [h.counted, activeCalls_leaveCall, ← Nat.add_assoc, Nat.add_sub_cancel]
  | trans _ _ ih ih' => exact ih' (ih h)

/-- Whole runs keep it balanced, in whichever way scopes are left. -/
theorem Machine.Balanced.runLeaving {m : Machine} (h : m.Balanced limit base)
    (leaving : Store.Leaving) (n : Nat) : (m.runLeaving leaving n).Balanced limit base :=
  Machine.runLeaving_keeps
    (fun m hm => Scripting.Balanced.changes hm (m.stepLeaving_changes leaving)) h n

theorem Machine.Balanced.run {m : Machine} (h : m.Balanced limit base) (n : Nat) :
    (m.run n).Balanced limit base := by
  rw [Machine.run_eq]
  exact h.runLeaving Store.leave n

/-- When nothing is left to do, no call is active. -/
theorem Machine.Balanced.callDepth_eq {m : Machine} (h : m.Balanced limit base) {a : Answer}
    (ha : m.result? = some a) : m.world.callDepth = base := by
  have hframes : m.frames = [] := by
    unfold Machine.result? at ha
    split at ha
    · next hf => exact hf
    · cases ha
  have hcounted := h.counted
  rw [hframes] at hcounted
  exact hcounted

end Balanced

/-! ## Starting -/

theorem Job.start_balanced (job : Job) {w : World} (hw : w.callDepth ≤ w.maxCallDepth) :
    (job.start [] w).Balanced w.maxCallDepth w.callDepth := by
  have h : Balanced w.maxCallDepth w.callDepth [] w := ⟨rfl, rfl, hw⟩
  cases job with
  | evaluate e s => exact h
  | execute stmt s => exact h
  | block body s => exact h.changes (.trans (.store _) (.trans (.push rfl) (.push rfl)))
  | call f arguments p => exact h.changes (Machine.call_changes f arguments p [] w)

theorem Machine.ofProgram_balanced (statements : List Stmt) (echo : Bool) (s : ScopeId)
    (w : World) : (Machine.ofProgram statements echo s w).Balanced w.maxCallDepth 0 where
  limited := rfl
  counted := rfl
  within := Nat.zero_le _

/-! ## Refused calls -/

/-- How many arguments a value takes; `none` if it cannot be called. -/
def Value.arity? : Value → Option Nat
  | .function f => some f.parameters.length
  | .builtin b => some b.arity
  | _ => none

/-- The machine has an error to hand on that tells of too many active calls. -/
def Machine.TooDeep (m : Machine) : Prop :=
  ∃ limit p, m.control = .answer (.error ⟨.callDepthExceeded limit, p⟩)

namespace Machine

variable {frames : List Frame} {w : World}

theorem not_tooDeep_replyWith {r : Except RuntimeError Value}
    (h : FailsOnlyWith (fun e => ∀ limit, e.fault ≠ .callDepthExceeded limit) r) :
    ¬ (replyWith r frames w).TooDeep := by
  rintro ⟨limit, p, hc⟩
  cases r with
  | ok v => cases hc
  | error e =>
    cases hc
    exact h _ rfl limit rfl

/-- Calling a builtin is not counted, and not refused because of the calls that are active. -/
theorem call_builtin (b : Builtin) (arguments : List Value) (p : Position) :
    (call (.builtin b) arguments p frames w).frames = frames ∧
      (call (.builtin b) arguments p frames w).world.callDepth = w.callDepth ∧
      ¬ (call (.builtin b) arguments p frames w).TooDeep := by
  unfold call
  dsimp only
  split
  · refine ⟨?_, ?_, not_tooDeep_replyWith ((b.apply_fails arguments p _).mono fun e he =>
      he.ofCall.2.2)⟩
    · cases b.apply arguments (w.clock w.readings) p <;> rfl
    · cases b.apply arguments (w.clock w.readings) p <;> (split <;> rfl)
  · refine ⟨rfl, rfl, ?_⟩
    rintro ⟨limit, q, hc⟩
    cases hc

/-- **When a call is refused as too deep:** if it is a call of one of the program's functions and
the counter stands at the limit. -/
theorem tooDeep_call_iff (hw : w.callDepth ≤ w.maxCallDepth) {f : Value} {arguments : List Value}
    (harity : f.arity? = some arguments.length) (p : Position) :
    (call f arguments p frames w).TooDeep ↔
      (∃ g, f = .function g) ∧ w.callDepth = w.maxCallDepth := by
  cases f with
  | builtin b =>
    refine ⟨fun h => absurd h (call_builtin b arguments p).2.2, ?_⟩
    rintro ⟨⟨g, hg⟩, -⟩
    cases hg
  | function g =>
    -- The number of arguments is right, so only the counter can be in the way.
    have hlen : g.parameters.length = arguments.length := Option.some.inj harity
    by_cases hroom : w.callDepth < w.maxCallDepth
    · rw [call_function hlen hroom]
      constructor
      · rintro ⟨limit, q, hc⟩
        cases hc
      · rintro ⟨-, heq⟩
        exact absurd heq (Nat.ne_of_lt hroom)
    · rw [call_function_too_deep hlen hroom]
      constructor
      · intro _
        exact ⟨⟨g, rfl⟩, Nat.le_antisymm hw (Nat.not_lt.mp hroom)⟩
      · intro _
        exact ⟨w.maxCallDepth, p, rfl⟩
  | _ => cases harity

end Machine

/-! ## Every moment -/

/-- What the counter says at a moment of a run that began with the counter at `base`. -/
structure Machine.CallsCounted (limit base : Nat) (m : Machine) : Prop where
  /-- The counter goes up with the calls that are active. -/
  counted : m.world.callDepth = base + activeCalls m.frames
  within : m.world.callDepth ≤ limit
  /-- When the run is over, whatever the answer, the counter is back. -/
  ended : ∀ a, m.result? = some a → m.world.callDepth = base
  /-- A call now is refused as too deep for one reason only. -/
  refused : ∀ f arguments p frames, f.arity? = some arguments.length →
    ((Machine.call f arguments p frames m.world).TooDeep ↔
      (∃ g, f = .function g) ∧ m.world.callDepth = limit)
  /-- A call of a builtin now does not count, and is not refused as too deep. -/
  builtins : ∀ b arguments p frames,
    (Machine.call (.builtin b) arguments p frames m.world).frames = frames ∧
      (Machine.call (.builtin b) arguments p frames m.world).world.callDepth = m.world.callDepth ∧
      ¬ (Machine.call (.builtin b) arguments p frames m.world).TooDeep

theorem Machine.Balanced.callsCounted {limit base : Nat} {m : Machine} (h : m.Balanced limit base) :
    m.CallsCounted limit base where
  counted := h.counted
  within := h.within
  ended _ ha := h.callDepth_eq ha
  refused f arguments p frames harity := by
    rw [← h.limited]
    apply Machine.tooDeep_call_iff _ harity
    rw [h.limited]
    exact h.within
  builtins b arguments p frames := Machine.call_builtin b arguments p

/-- **The counter of active calls is balanced.** Run any expression, statement, block or call from
a world whose counter is within the limit. At every moment the counter is what it was plus the
number of calls of the program's functions that are active inside of the run, and within the
limit; when there is an answer, it is what it was. A call with the right number of arguments is
refused as too deep if and only if it is a call of one of the program's functions and the counter
stands at the limit. The same holds with any frames waiting below: up to its answer the run is one
by itself, at the most with values held for them. And it holds of a submission, which begins
and ends at zero. -/
theorem Machine.callDepth_balanced (job : Job) (w : World) (hw : w.callDepth ≤ w.maxCallDepth) :
    (∀ n, ((job.start [] w).run n).CallsCounted w.maxCallDepth w.callDepth) ∧
      (∀ base n, (∀ k < n,
          ((job.start [] w).runHolding (base.flatMap (·.values)) k).result? = none) →
        (job.start base w).run n
            = ((job.start [] w).runHolding (base.flatMap (·.values)) n).onTop base ∧
          ((job.start [] w).runHolding (base.flatMap (·.values)) n).CallsCounted w.maxCallDepth
            w.callDepth) ∧
      ∀ statements echo s n,
        ((ofProgram statements echo s w).run n).CallsCounted w.maxCallDepth 0 := by
  refine ⟨fun n => ?_, fun base n hn => ⟨?_, ?_⟩, fun statements echo s n => ?_⟩
  · exact ((job.start_balanced hw).run n).callsCounted
  · rw [← job.start_onTop base w]
    exact run_onTop_holding base hn
  · exact ((job.start_balanced hw).runLeaving _ n).callsCounted
  · exact ((ofProgram_balanced statements echo s w).run n).callsCounted

/-- `fun f() { f() }` -/
def endless : Closure :=
  ⟨0, "f", [], [.expression (.call (.var "f" ⟨1, 11⟩) [] ⟨1, 12⟩) ⟨1, 11⟩], 0⟩

/-- A world in which one call is active already, of three that may be. -/
def endlessWorld : World where
  store := ⟨[⟨0, none, [("f", .function endless)], true⟩], 1, 1, []⟩
  callDepth := 1
  maxCallDepth := 3
  output := []
  clock _ := 0
  readings := 0

/-- A call of it. -/
def endlessCall : Job := .call (.function endless) [] ⟨1, 1⟩

/-- A frame in which the function itself waits, to be compared with what the call gives. -/
def endlessWaiting : Frame := .rightOperand .equal (.function endless) ⟨1, 3⟩

/-- Two calls inside of the run bring the counter to the limit; the third is refused, and all of
them are taken off again. With a frame waiting below, it is the run that holds the value there. -/
theorem Machine.endless_balanced :
    endlessWorld.callDepth ≤ endlessWorld.maxCallDepth ∧
      (∀ n, ((endlessCall.start [] endlessWorld).run n).CallsCounted 3 1) ∧
      activeCalls ((endlessCall.start [] endlessWorld).run 8).frames = 2 ∧
      (endlessCall.start [endlessWaiting] endlessWorld).run 8
        = ((endlessCall.start [] endlessWorld).runHolding [.function endless] 8).onTop
            [endlessWaiting] ∧
      ((endlessCall.start [] endlessWorld).run 20).world.callDepth = 1 ∧
      ((endlessCall.start [] endlessWorld).run 20).TooDeep := by
  have hw : endlessWorld.callDepth ≤ endlessWorld.maxCallDepth := by decide
  have hbusy : ∀ k < 8, ((endlessCall.start [] endlessWorld).runHolding [.function endless]
      k).result?.isNone = true := by decide
  obtain ⟨hcounted, hbelow, -⟩ := callDepth_balanced endlessCall endlessWorld hw
  refine ⟨hw, hcounted, by decide, (hbelow [endlessWaiting] 8 ?_).1, by decide, ⟨3, ⟨1, 12⟩, rfl⟩⟩
  intro k hk
  exact Option.isNone_iff_eq_none.mp (hbusy k hk)

end Scripting
