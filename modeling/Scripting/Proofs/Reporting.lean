/-
What a submission tells.

While it runs, a program tells what it prints and, with the echo on, the values of statements. It
never tells a failure: the session does that, once and after everything else, and only for the
failure that it returns. A text that cannot be read is not run at all, so all that becomes of it is
the one event.

That a program keeps to this is an invariant of its steps: with the echo off there is no frame that
echoes, because the only frames that do are pushed for the statements of a program with the echo on.
-/
import Scripting.Proofs.Composition
import Scripting.Proofs.Listening

set_option autoImplicit false

namespace Scripting

/-! ## What a program may tell -/

/-- An event that a program may tell, with the echo on or off. -/
def Event.ToldBy (echo : Bool) (e : Event) : Prop :=
  e.kind = .print ∨ e.kind = .value ∧ echo = true

theorem Event.ToldBy.isError {echo : Bool} {e : Event} (h : e.ToldBy echo) : e.isError = false := by
  unfold Event.isError
  rcases h with h | ⟨h, -⟩ <;> rw [h]

/-- No frame echoes unless the echo is on, and nothing else has been told. -/
structure Machine.Reports (echo : Bool) (m : Machine) : Prop where
  keepsTo : m.KeepsTo (.loose (fun _ => True) (echo = true))
  output : ∀ e ∈ m.world.output, e.ToldBy echo

/-! ## Steps -/

/-- The events that an effect tells. -/
def Effect.told : Effect → List Event
  | tell event => [event]
  | _ => []

theorem Effect.KeepsTo.toldBy {leaves : ScopeId → Prop} {echo : Bool} {effect : Effect}
    (h : effect.KeepsTo (.loose leaves (echo = true))) : ∀ e ∈ effect.told, e.ToldBy echo := by
  cases effect with
  | tell event =>
    refine List.forall_mem_singleton.mpr ?_
    rcases h with ⟨text, rfl⟩ | ⟨hecho, text, rfl⟩
    · exact .inl rfl
    · exact .inr ⟨rfl, hecho⟩
  | _ => exact fun e he => absurd he List.not_mem_nil

namespace Machine

/-- The world takes down what it is told, and nothing else. -/
theorem output_perform (leaving : Store.Leaving) (effect : Effect) (frames : List Frame)
    (w : World) : (perform leaving effect frames w).world.output = effect.told ++ w.output := by
  cases effect with
  | lookUp name p s =>
    simp only [perform]
    split <;> rfl
  | assign name v p s =>
    simp only [perform]
    split <;> rfl
  | call f arguments p =>
    rcases call_cases f arguments p w with ⟨r, used, hcall, -, -⟩ | ⟨g, -, -, -, hcall⟩
    · exact congrArg (·.world.output) (hcall frames w.store)
    · exact congrArg (·.world.output) (hcall frames w.store)
  | _ => rfl

variable {echo : Bool} {m : Machine}

/-- **One step.** -/
theorem Reports.step (h : m.Reports echo) : m.step.Reports echo := by
  refine ⟨h.keepsTo.step (Bounds.loose_suits _ _) fun _ _ _ _ _ _ => trivial, ?_⟩
  rw [step_eq]
  rcases m.stepLeaving_cases with ⟨mv, below, hmoves, hstep⟩ | ⟨-, hstep⟩
  · -- A step tells what its move asks for, on top of what has been told.
    obtain ⟨hmv, -⟩ := hmoves.keepsTo Bounds.loose_sealed h.keepsTo.control h.keepsTo.frames
    rw [hstep, make, output_perform]
    exact List.forall_mem_append.mpr ⟨hmv.effect.toldBy, h.output⟩
  · rw [hstep]
    exact h.output

/-- **Whole runs.** -/
theorem Reports.run (h : m.Reports echo) (n : Nat) : (m.run n).Reports echo :=
  run_keeps (P := Reports echo) (fun _ hm => hm.step) h n

theorem ofProgram_reports (statements : List Stmt) (echo : Bool) (s : ScopeId) {w : World}
    (hw : w.output = []) : (ofProgram statements echo s w).Reports echo where
  keepsTo :=
    ⟨Control.keepsTo_loose _,
      List.forall_mem_singleton.mpr (Frame.keepsTo_loose (fun _ _ => trivial) id),
      fun v _ => v.meets_of_forall fun _ => trivial⟩
  output e he := by
    have hnothing : e ∈ w.output := he
    rw [hw] at hnothing
    cases hnothing

end Machine

/-! ## Listeners -/

/-- Each of the events is told in a round of its own, to `first` in this order and then to any
others. -/
inductive Rounds (first : List Listener) : List Event → List (String × Event) → Prop
  | nil : Rounds first [] []
  | cons {e : Event} {es : List Event} {tags : List String} {heard : List (String × Event)} :
      first.map (·.tag) <+: tags → Rounds first es heard →
      Rounds first (e :: es) (tags.map (·, e) ++ heard)

/-- The first of some listeners come first. -/
theorem Rounds.mono {first more : List Listener} {events : List Event}
    {heard : List (String × Event)} (h : Rounds more events heard) (hfirst : first <+: more) :
    Rounds first events heard := by
  induction h with
  | nil => exact .nil
  | cons htags _ ih => exact .cons ((hfirst.map _).trans htags) ih

namespace Channel

/-- Whoever listens from the beginning is told of every event, in order. -/
theorem rounds_emitAll (c : Channel) (events : List Event) :
    Rounds c.listeners events (c.emitAll events).1 ∧
      c.listeners <+: (c.emitAll events).2.listeners := by
  induction events generalizing c with
  | nil => exact ⟨.nil, List.prefix_rfl⟩
  | cons e es ih =>
    obtain ⟨hrounds, hmore⟩ := ih (c.emit e).2
    have hnow : (c.emit e).1 = (c.listeners.map (·.tag)).map (·, e) := by
      rw [emit_eq, List.map_map]
      rfl
    have hkept : c.listeners <+: (c.emit e).2.listeners := c.listeners_prefix_perform (.emit e)
    rw [emitAll_cons, hnow]
    exact ⟨.cons List.prefix_rfl (hrounds.mono hkept), hkept.trans hmore⟩

end Channel

/-! ## Submissions -/

namespace Session

variable {s : Session} {source : String}

/-- Whatever a submission has told after any number of steps. -/
theorem toldBy_of_begin {m : Machine} (h : s.begin source = .ok m) (n : Nat) :
    ∀ e ∈ (m.run n).world.output, e.ToldBy s.config.echo := by
  obtain ⟨lexemes, statements, -, -, rfl⟩ := begin_eq_ok h
  exact ((Machine.ofProgram_reports statements s.config.echo s.globals rfl).run n).output

/-- A text that cannot be read fails at the stage that could not read it, whatever the number of
steps. -/
theorem submit_of_read {f : Failure} (h : read source = .error f) (fuel : Nat) :
    ∃ r, s.submit fuel source = some r ∧ r.failure = some f ∧
      (f.stage = .lex ∨ f.stage = .parse) := by
  have hbegin : s.begin source = .error f := by rw [begin, h]; rfl
  refine ⟨s.conclude [] (some f), by rw [submit, hbegin], rfl, ?_⟩
  rcases s.begin_cases source with ⟨e, -, hcase⟩ | ⟨lexemes, e, -, -, hcase⟩ |
    ⟨lexemes, statements, -, -, hcase⟩ <;> rw [hcase] at hbegin <;> cases hbegin
  · exact .inl rfl
  · exact .inr rfl

theorem stage_failureOf {m : Machine} {f : Failure} (h : failureOf m = some f) :
    f.stage = .runtime := by
  unfold failureOf at h
  split at h
  · cases h
    rfl
  · cases h

/-- What a submission leads to, before the listeners are told: the session, what the program has
told, and the failure. -/
theorem submit_cases {fuel : Nat} {r : Submission} (h : s.submit fuel source = some r) :
    ∃ (t : Session) (told : List Event), r = t.conclude told r.failure ∧
      t.channel = s.channel ∧ (∀ e ∈ told, e.ToldBy s.config.echo) ∧
      ∀ f, r.failure = some f → f.stage ≠ .runtime → told = [] ∧ t = s := by
  rcases submit_eq_some h with ⟨f, -, rfl⟩ | ⟨m, a, hbegin, -, rfl⟩
  · -- A text that cannot be read: no program has run.
    exact ⟨s, [], rfl, rfl, fun e he => absurd he List.not_mem_nil, fun _ _ _ => ⟨rfl, rfl⟩⟩
  · refine ⟨_, _, rfl, rfl, fun e he => ?_, fun f hf hstage => ?_⟩
    · exact toldBy_of_begin hbegin fuel e (List.mem_reverse.mp he)
    · exact absurd (stage_failureOf hf) hstage

/-- **What a submission tells.** Whatever a running program has told at any moment is a line that
it printed or, with the echo on, a value. A text that cannot be read fails with the fault in it.
When a submission has ended, its events are such ones as a program may tell and after them, exactly
if it has failed, the failure, by its stage and its message. Each event is told in a round of its
own to all who listened from the beginning, in order, and nobody stops listening. If the text could
not be read, there is no other event, and but for the listeners the session is the one it was. -/
theorem submit_reports (s : Session) (source : String) :
    (∀ m n, s.begin source = .ok m → ∀ e ∈ (m.run n).world.output, e.ToldBy s.config.echo) ∧
      (∀ f, read source = .error f → ∀ fuel, ∃ r, s.submit fuel source = some r ∧
        r.failure = some f ∧ (f.stage = .lex ∨ f.stage = .parse)) ∧
      ∀ fuel r, s.submit fuel source = some r →
        ((∃ e ∈ r.events, e.isError = true) ↔ r.failure ≠ none) ∧
        Rounds s.channel.listeners r.events r.heard ∧
        s.channel.listeners <+: r.session.channel.listeners ∧
        ∃ told : List Event, (∀ e ∈ told, e.ToldBy s.config.echo) ∧
          r.events = told ++ (r.failure.map fun f => ⟨.error f.stage, f.message⟩).toList ∧
          ∀ f, r.failure = some f → f.stage = .lex ∨ f.stage = .parse →
            told = [] ∧ r.session = { s with channel := r.session.channel } := by
  refine ⟨fun m n hm => toldBy_of_begin hm n, fun f hf fuel => submit_of_read hf fuel,
    fun fuel r hr => ?_⟩
  obtain ⟨t, told, hconclude, hchannel, htold, hunread⟩ := submit_cases hr
  have hevents : r.events = told ++ (r.failure.map Event.failure).toList := by
    conv_lhs => rw [hconclude]
    rfl
  have hheard : r.heard = (s.channel.emitAll r.events).1 := by
    rw [hevents, ← hchannel]
    conv_lhs => rw [hconclude]
    rfl
  have hsession : r.session = { t with channel := (s.channel.emitAll r.events).2 } := by
    rw [hevents, ← hchannel]
    conv_lhs => rw [hconclude]
    rfl
  obtain ⟨hrounds, hlisteners⟩ := s.channel.rounds_emitAll r.events
  refine ⟨?_, by rwa [hheard], by rwa [hsession], told, htold, hevents, fun f hf hstage => ?_⟩
  · rw [hevents]
    cases hfailure : r.failure with
    | none =>
      constructor
      · rintro ⟨e, he, herror⟩
        rw [Option.map_none, Option.toList_none, List.append_nil] at he
        rw [(htold e he).isError] at herror
        cases herror
      · intro h
        exact absurd rfl h
    | some f => simp [Event.failure, Event.isError]
  · have hread : f.stage ≠ .runtime := by rcases hstage with h | h <;> rw [h] <;> decide
    obtain ⟨hnothing, rfl⟩ := hunread f hf hread
    exact ⟨hnothing, by rw [hsession]⟩

/-- A session that echoes, with a listener that brings another one along. -/
def echoingToTwo : Session :=
  (Session.new ⟨true, 4⟩ fun _ => 0).listen (.spawning "first" "second" 2)

/-- A program that prints, echoes and fails tells three events, the last of which is the failure.
After it, a text that ends too early tells one, and nothing is declared. -/
theorem echoingToTwo_reports :
    ∃ r r' told, echoingToTwo.submit 40 "print \"a\"; nil; b" = some r ∧
      r.events = told ++ [⟨.error .runtime,
        "Runtime error on line 1, column 17: Undefined variable 'b'."⟩] ∧
      (∀ e ∈ told, e.ToldBy true) ∧ told.length = 2 ∧
      Rounds echoingToTwo.channel.listeners r.events r.heard ∧
      r.session.submit 0 "let y = nil; nil +" = some r' ∧
      r'.events = [⟨.error .parse, "Parse error on line 1, column 19: Unexpected end of input."⟩] ∧
      r'.session = { r.session with channel := r'.session.channel } := by
  have hruns : (echoingToTwo.submit 40 "print \"a\"; nil; b").any (fun r =>
      decide (r.failure = some (.runtime ⟨.undefinedVariable "b", ⟨1, 17⟩⟩)) &&
      decide (r.events.length = 3) &&
      (r.session.submit 0 "let y = nil; nil +").any fun r' =>
        decide (r'.failure = some (.parse ⟨.unexpectedEndOfInput, ⟨1, 19⟩⟩))) = true := by
    decide +kernel
  obtain ⟨r, hr, hdone⟩ := (Option.any_eq_true _ _).mp hruns
  rw [Bool.and_eq_true, Bool.and_eq_true] at hdone
  obtain ⟨⟨hfailure, hlength⟩, hnext⟩ := hdone
  obtain ⟨r', hr', hfailure'⟩ := (Option.any_eq_true _ _).mp hnext
  obtain ⟨-, hrounds, -, told, htold, hevents, -⟩ := (submit_reports echoingToTwo _).2.2 40 r hr
  obtain ⟨-, -, -, told', -, hevents', hunread⟩ := (submit_reports r.session _).2.2 0 r' hr'
  obtain ⟨rfl, hsame⟩ := hunread _ (of_decide_eq_true hfailure') (.inr rfl)
  rw [of_decide_eq_true hfailure'] at hevents'
  have hmessage : (Failure.runtime ⟨.undefinedVariable "b", ⟨1, 17⟩⟩).message
      = "Runtime error on line 1, column 17: Undefined variable 'b'." := by decide +kernel
  have hmessage' : (Failure.parse ⟨.unexpectedEndOfInput, ⟨1, 19⟩⟩).message
      = "Parse error on line 1, column 19: Unexpected end of input." := by decide +kernel
  have htwo : told.length = 2 := by
    have hthree := of_decide_eq_true hlength
    rw [hevents, of_decide_eq_true hfailure] at hthree
    simpa using hthree
  refine ⟨r, r', told, hr, ?_, htold, htwo, hrounds, hr', ?_, hsame⟩
  · rw [hevents, of_decide_eq_true hfailure, ← hmessage]
    rfl
  · rw [hevents', ← hmessage']
    rfl

end Session

end Scripting
