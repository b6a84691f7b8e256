/-
Who is told of what.

A listener may register others while it is being told of an event, and how many may depend on how
many there are at that moment, so on what the listeners before it have registered. None of this
reaches the event that is being told: those who are told of it are the ones there were when it
began. `tell_eq` says all that one event does, and from it follows what a run of registrations and
events does. Listeners are known by their place, since nothing is ever put in front of them: the
one at a place is told of every event that begins after it has come, and of no other.
-/
import Mathlib.Data.List.Infix
import Scripting.Output

set_option autoImplicit false

namespace Scripting

namespace Channel

/-! ## One event -/

/-- The listeners that those who are told register one after the other, if there are `count` at
first. Each sees how many there are by then. -/
def spawned (count : Nat) : List Listener → List Listener
  | [] => []
  | l :: told => l.registers count ++ spawned (count + (l.registers count).length) told

theorem foldl_register (c : Channel) (ls : List Listener) :
    ls.foldl register c = ⟨c.listeners ++ ls⟩ := by
  induction ls generalizing c with
  | nil => rw [List.foldl_nil, List.append_nil]
  | cons l ls ih => rw [List.foldl_cons, ih, register, List.append_assoc, List.singleton_append]

/-- **All that one event does.** The listeners are told in order, each once, and what they register
is put behind the listeners there are. By induction on those who are told: each finds what the ones
before it have registered. -/
theorem tell_eq (c : Channel) (told : List Listener) :
    c.tell told = (told.map (·.tag), ⟨c.listeners ++ spawned c.count told⟩) := by
  have hfold : ∀ (tags : List String) (c : Channel),
      told.foldl (fun (r : List String × Channel) l =>
          (r.1 ++ [l.tag], (l.registers r.2.count).foldl register r.2)) (tags, c)
        = (tags ++ told.map (·.tag), ⟨c.listeners ++ spawned c.count told⟩) := by
    induction told with
    | nil =>
      intro tags c
      rw [List.foldl_nil, List.map_nil, spawned, List.append_nil, List.append_nil]
    | cons l told ih =>
      intro tags c
      have hcount : count ⟨c.listeners ++ l.registers c.count⟩
          = c.count + (l.registers c.count).length := List.length_append
      rw [List.foldl_cons, foldl_register, ih, hcount, List.map_cons, spawned, List.append_assoc,
        List.append_assoc, List.singleton_append]
  exact hfold [] c

theorem emit_eq (c : Channel) (e : Event) :
    c.emit e
      = (c.listeners.map (·.tag, e), ⟨c.listeners ++ spawned c.count c.listeners⟩) := by
  rw [emit, tell_eq]
  exact Prod.ext List.map_map rfl

/-! ## Runs -/

/-- What is done to a channel. A listener that is registered may register others when it is told. -/
inductive Step where
  | register (l : Listener)
  | emit (event : Event)

namespace Step

/-- The event that is emitted. -/
def event? : Step → Option Event
  | register _ => none
  | emit event => some event

end Step

/-- Do one step: who is told of what in it, and the channel afterwards. -/
def perform (c : Channel) : Step → List (String × Event) × Channel
  | .register l => ([], c.register l)
  | .emit event => c.emit event

/-- The channel after some steps. -/
def after (c : Channel) : List Step → Channel
  | [] => c
  | s :: steps => (c.perform s).2.after steps

/-- Who is told of what in each of the steps. -/
def calls (c : Channel) : List Step → List (List (String × Event))
  | [] => []
  | s :: steps => (c.perform s).1 :: (c.perform s).2.calls steps

section Runs

variable {c : Channel} {before steps : List Step}

theorem after_append : c.after (before ++ steps) = (c.after before).after steps := by
  induction before generalizing c with
  | nil => rfl
  | cons s before ih => exact ih

theorem calls_append :
    c.calls (before ++ steps) = c.calls before ++ (c.after before).calls steps := by
  induction before generalizing c with
  | nil => rfl
  | cons s before ih => rw [List.cons_append, calls, calls, ih, after, List.cons_append]

theorem length_calls (c : Channel) (steps : List Step) : (c.calls steps).length = steps.length := by
  induction steps generalizing c with
  | nil => rfl
  | cons s steps ih => rw [calls, List.length_cons, List.length_cons, ih]

/-- Who is told in one of the steps. -/
theorem calls_getElem? (s : Step) :
    (c.calls (before ++ s :: steps))[before.length]? = some ((c.after before).perform s).1 := by
  rw [calls_append, ← length_calls c before, List.getElem?_append_right le_rfl, Nat.sub_self]
  rfl

/-- **A step only appends.** -/
theorem listeners_prefix_perform (c : Channel) (s : Step) :
    c.listeners <+: (c.perform s).2.listeners := by
  cases s with
  | register l => exact List.prefix_append _ _
  | emit event =>
    rw [perform, emit_eq]
    exact List.prefix_append _ _

/-- **A run only appends.** By induction on the steps. -/
theorem listeners_prefix_after (c : Channel) (steps : List Step) :
    c.listeners <+: (c.after steps).listeners := by
  induction steps generalizing c with
  | nil => exact List.prefix_rfl
  | cons s steps ih => exact (listeners_prefix_perform c s).trans (ih _)

/-! ## The listener at one place -/

/-- The events of some steps, in order. -/
def eventsOf (steps : List Step) : List Event := steps.filterMap Step.event?

/-- What the listener at place `i` is told in some steps, in order. -/
def heardAt (c : Channel) (i : Nat) (steps : List Step) : List (String × Event) :=
  (c.calls steps).filterMap (·[i]?)

variable {i : Nat} {l : Listener}

/-- In one step the listener at a place is told of the event of the step, if there is one. -/
theorem perform_getElem? (c : Channel) (s : Step) (i : Nat) :
    (c.perform s).1[i]? = c.listeners[i]?.bind fun l => s.event?.map (l.tag, ·) := by
  cases s with
  | register l => simp [perform, Step.event?]
  | emit event =>
    rw [perform, emit_eq, List.getElem?_map]
    cases c.listeners[i]? <;> rfl

theorem heardAt_cons (c : Channel) (i : Nat) (s : Step) (steps : List Step) :
    c.heardAt i (s :: steps)
      = (c.perform s).1[i]?.toList ++ (c.perform s).2.heardAt i steps := by
  rw [heardAt, calls, List.filterMap_cons]
  cases (c.perform s).1[i]? <;> rfl

/-- One that is there is told of every event. By induction on the steps, which leave it where it
is. -/
theorem heardAt_of_present (h : c.listeners[i]? = some l) :
    c.heardAt i steps = (eventsOf steps).map (l.tag, ·) := by
  induction steps generalizing c with
  | nil => rfl
  | cons s steps ih =>
    have hnext : (c.perform s).2.listeners[i]? = some l := by
      obtain ⟨more, hmore⟩ := listeners_prefix_perform c s
      rw [← hmore, List.getElem?_append_left (List.getElem?_eq_some_iff.mp h).1, h]
    rw [heardAt_cons, perform_getElem?, h, ih hnext]
    cases s <;> rfl

/-- One that comes at some time is told of every event after that and of none before. By induction
on the steps, up to the one in which it comes. -/
theorem heardAt_of_comes (h : (c.after steps).listeners[i]? = some l) :
    ∃ before rest, steps = before ++ rest ∧ (c.after before).listeners[i]? = some l ∧
      (∀ earlier, earlier <+: before → earlier ≠ before → (c.after earlier).listeners[i]? = none) ∧
      c.heardAt i steps = (eventsOf rest).map (l.tag, ·) := by
  induction steps generalizing c with
  | nil => exact ⟨[], [], rfl, h, fun earlier he hne => absurd (List.prefix_nil.mp he) hne, rfl⟩
  | cons s steps ih =>
    cases hnow : c.listeners[i]? with
    | some l' =>
      -- Whoever is at the place stays there.
      obtain ⟨more, hmore⟩ := listeners_prefix_after c (s :: steps)
      rw [← hmore, List.getElem?_append_left (List.getElem?_eq_some_iff.mp hnow).1, hnow] at h
      cases h
      exact ⟨[], s :: steps, rfl, hnow, fun earlier he hne => absurd (List.prefix_nil.mp he) hne,
        heardAt_of_present hnow⟩
    | none =>
      obtain ⟨before, rest, rfl, hthere, hfirst, hheard⟩ := ih h
      refine ⟨s :: before, rest, rfl, hthere, fun earlier he hne => ?_, ?_⟩
      · cases earlier with
        | nil => exact hnow
        | cons s' earlier =>
          obtain ⟨rfl, hbefore⟩ := List.cons_prefix_cons.mp he
          exact hfirst earlier hbefore fun heq => hne (congrArg _ heq)
      · rw [heardAt_cons, perform_getElem?, hnow, hheard]
        rfl

end Runs

/-- **Every listener is told of every event once, in order.** Take any steps on a channel, each of
which registers a listener or emits an event, where listeners may register others when they are
told.

In a step that emits, those who are told are the listeners there were before it, each once, in the
order of registration and of the same event. Those whom they register, each seeing how many there
are by then, are put behind them; they are not told in this step, and in every later one that
emits they are. A step that registers a listener tells nobody and puts it behind the others. In
every step the list of listeners grows by appending or stays as it is.

So the listener at any place of the list is told of all the events after the step in which it came,
in their order, and of nothing else. -/
theorem every_listener_told_once (c : Channel) (steps : List Step) :
    (∀ before event rest, steps = before ++ .emit event :: rest →
      (c.calls steps)[before.length]? = some ((c.after before).listeners.map (·.tag, event)) ∧
      (c.after (before ++ [.emit event])).listeners
        = (c.after before).listeners
            ++ spawned (c.after before).count (c.after before).listeners ∧
      ∀ between later rest', rest = between ++ .emit later :: rest' →
        ∃ more, (c.calls steps)[before.length + 1 + between.length]?
          = some (((c.after (before ++ [.emit event])).listeners ++ more).map (·.tag, later))) ∧
    (∀ before l rest, steps = before ++ .register l :: rest →
      (c.calls steps)[before.length]? = some [] ∧
      (c.after (before ++ [.register l])).listeners = (c.after before).listeners ++ [l]) ∧
    (∀ before rest, steps = before ++ rest →
      (c.after before).listeners <+: (c.after steps).listeners) ∧
    ∀ i l, (c.after steps).listeners[i]? = some l →
      ∃ before rest, steps = before ++ rest ∧ (c.after before).listeners[i]? = some l ∧
        (∀ earlier, earlier <+: before → earlier ≠ before →
          (c.after earlier).listeners[i]? = none) ∧
        c.heardAt i steps = (eventsOf rest).map (l.tag, ·) := by
  refine ⟨?_, ?_, ?_, fun i l h => heardAt_of_comes h⟩
  · rintro before event rest rfl
    have hemit : ∀ (before : List Step) (e : Event) (rest : List Step),
        (c.calls (before ++ .emit e :: rest))[before.length]?
          = some ((c.after before).listeners.map (·.tag, e)) := by
      intro before e rest
      rw [calls_getElem?, perform, emit_eq]
    refine ⟨hemit before event rest, ?_, ?_⟩
    · rw [after_append, after, after, perform, emit_eq]
    · rintro between later rest' rfl
      obtain ⟨more, hmore⟩ := listeners_prefix_after (c.after (before ++ [.emit event])) between
      have hlater := hemit (before ++ .emit event :: between) later rest'
      have hplace : (before ++ .emit event :: between).length
          = before.length + 1 + between.length := by
        rw [List.length_append, List.length_cons]
        omega
      have hthen : c.after (before ++ .emit event :: between)
          = (c.after (before ++ [.emit event])).after between := by
        rw [← after_append, List.append_assoc, List.singleton_append]
      rw [hplace, hthen, ← hmore, List.append_assoc, List.cons_append] at hlater
      exact ⟨more, hlater⟩
  · rintro before l rest rfl
    refine ⟨calls_getElem? _, ?_⟩
    rw [after_append]
    rfl
  · rintro before rest rfl
    rw [after_append]
    exact listeners_prefix_after _ _

/-- Of two listeners that each register another as long as there are fewer than three, only the
first one does: the second sees what it has registered. -/
example : Channel.empty.calls
    [.register (.spawning "a" "x" 3), .register (.spawning "b" "y" 3), .emit (.print "1"),
      .emit (.print "2")]
    = [[], [], [("a", .print "1"), ("b", .print "1")],
        [("a", .print "2"), ("b", .print "2"), ("x", .print "2")]] := by
  rfl

end Channel

end Scripting
