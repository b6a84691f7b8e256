/-
Raising the limit on active calls.

Two machines that differ in their limits only are in step for as long as the lower limit refuses
no call: nothing but `call` ever looks at it. A refused call is an error, an error ends the
submission, and nothing is told on the way. So a run with the lower limit that does not end in
this error is also the run with the higher one; and a run that does has told nothing but what the
other one had told by then.

The invariant is `Ahead`: either the machines are the same but for the limit, or the first one is
on its way out with the error and has told no more than the second.
-/
import Scripting.Proofs.CallDepth
import Scripting.Proofs.History

set_option autoImplicit false

namespace Scripting

/-! ## What a step leaves of the world -/

/-- A world at a later time: nothing told is taken back, and the limit stays. -/
structure World.Later (w w' : World) : Prop where
  told : w.output <:+ w'.output
  limit : w'.maxCallDepth = w.maxCallDepth

namespace World.Later

variable {w w' w'' : World}

theorem trans (h : w.Later w') (h' : w'.Later w'') : w.Later w'' :=
  ⟨h.told.trans h'.told, by rw [h'.limit, h.limit]⟩

end World.Later

/-- Whatever a step does, the world gets no younger. -/
theorem Machine.Changes.later {frames frames' : List Frame} {w w' : World}
    (h : Machine.Changes frames w frames' w') : w.Later w' := by
  induction h with
  | tell e => exact ⟨List.suffix_cons e _, rfl⟩
  | trans _ _ ih ih' => exact ih.trans ih'
  | _ => exact ⟨List.suffix_refl _, rfl⟩

theorem Machine.step_later (m : Machine) : m.world.Later m.step.world := m.step_changes.later

/-! ## Another limit -/

/-- The same world with another limit. -/
def World.withLimit (w : World) (limit : Nat) : World := { w with maxCallDepth := limit }

/-- The same machine with another limit. -/
def Machine.withLimit (m : Machine) (limit : Nat) : Machine :=
  { m with world := m.world.withLimit limit }

namespace Machine

/-- Of two machines made from `w`, the second one with a higher limit: they are the same but for
that, or the first one has been refused a call and is otherwise as before. -/
def Raised (limit : Nat) (w : World) (m m' : Machine) : Prop :=
  m' = m.withLimit limit ∨ m.TooDeep ∧ m.world = w

section Raised

variable {limit : Nat} {w : World}

/-- The only effect that asks for the limit. -/
theorem call_raised (h : w.maxCallDepth ≤ limit) (f : Value) (arguments : List Value) (p : Position)
    (frames : List Frame) :
    Raised limit w (call f arguments p frames w)
      (call f arguments p frames (w.withLimit limit)) := by
  cases f with
  | builtin b =>
    left
    simp only [call, replyWith_eq]
    split
    · split <;> rfl
    · rfl
  | function g =>
    by_cases harity : g.parameters.length = arguments.length
    · by_cases hroom : w.callDepth < w.maxCallDepth
      · left
        have hroom' : (w.withLimit limit).callDepth < (w.withLimit limit).maxCallDepth :=
          Nat.lt_of_lt_of_le hroom h
        rw [call_function harity hroom, call_function harity hroom']
        rfl
      · right
        rw [call_function_too_deep harity hroom]
        exact ⟨⟨w.maxCallDepth, p, rfl⟩, rfl⟩
    · left
      rw [call_function_arity harity, call_function_arity harity]
      rfl
  | _ => exact .inl rfl

theorem perform_raised (h : w.maxCallDepth ≤ limit) (effect : Effect) (frames : List Frame) :
    Raised limit w (perform Store.leave effect frames w)
      (perform Store.leave effect frames (w.withLimit limit)) := by
  cases effect with
  | call f arguments p => exact call_raised h f arguments p frames
  | lookUp name p s =>
    left
    simp only [perform, World.withLimit]
    split <;> rfl
  | assign name v p s =>
    left
    simp only [perform, World.withLimit]
    split <;> rfl
  | _ => exact .inl rfl

/-- **One step.** -/
theorem step_raised {m : Machine} (h : m.world.maxCallDepth ≤ limit) :
    Raised limit m.world m.step (m.withLimit limit).step := by
  rw [step_eq, step_eq]
  rcases m.stepLeaving_cases with ⟨mv, below, hmoves, hstep⟩ | ⟨⟨a, ha⟩, hstep⟩
  · have hother : (m.withLimit limit).stepLeaving Store.leave
        = make Store.leave mv below (m.world.withLimit limit) := stepLeaving_of_moves hmoves _ _
    rw [hstep, hother]
    exact perform_raised h _ _
  · have hdone : (m.withLimit limit).result? = some a := ha
    rw [hstep, stepLeaving_of_result? hdone]
    exact .inl rfl

end Raised

/-! ## Runs -/

/-- An error is handed on to the end, and nothing is told on the way. -/
theorem TooDeep.step {m : Machine} (h : m.TooDeep) :
    m.step.TooDeep ∧ m.step.world.output = m.world.output := by
  obtain ⟨control, frames, w⟩ := m
  obtain ⟨limit, p, hc⟩ := h
  cases hc
  cases frames with
  | nil => exact ⟨⟨limit, p, rfl⟩, rfl⟩
  | cons frame frames =>
    obtain ⟨store, depth, hstep⟩ := step_error ⟨.callDepthExceeded limit, p⟩ frame frames w
    rw [hstep]
    exact ⟨⟨limit, p, rfl⟩, rfl⟩

/-- The second machine has the higher limit. Either it is the first one but for that, or the first
one has been refused a call and has told no more. -/
def Ahead (limit : Nat) (m m' : Machine) : Prop :=
  (m' = m.withLimit limit ∧ m.world.maxCallDepth ≤ limit) ∨
    (m.TooDeep ∧ m.world.output <:+ m'.world.output)

theorem Ahead.step {limit : Nat} {m m' : Machine} (h : Ahead limit m m') :
    Ahead limit m.step m'.step := by
  rcases h with ⟨rfl, hlimit⟩ | ⟨hdeep, htold⟩
  · rcases step_raised hlimit with hsame | ⟨hdeep, hworld⟩
    · left
      refine ⟨hsame, ?_⟩
      rw [m.step_later.limit]
      exact hlimit
    · right
      refine ⟨hdeep, ?_⟩
      rw [hworld]
      exact (m.withLimit limit).step_later.told
  · right
    obtain ⟨hdeep', hsame⟩ := hdeep.step
    refine ⟨hdeep', ?_⟩
    rw [hsame]
    exact htold.trans m'.step_later.told

/-- **Whole runs.** -/
theorem Ahead.run {limit : Nat} {m m' : Machine} (h : Ahead limit m m') (n : Nat) :
    Ahead limit (m.run n) (m'.run n) := by
  induction n generalizing m m' with
  | zero => exact h
  | succ n ih =>
    rw [run_succ, run_succ]
    exact ih h.step

end Machine

/-! ## Sessions -/

/-- Whether a failure tells of too many active calls. -/
def Failure.isTooDeep : Failure → Bool
  | .runtime ⟨.callDepthExceeded _, _⟩ => true
  | _ => false

theorem Machine.TooDeep.failureOf {m : Machine} (h : m.TooDeep) (hr : m.result?.isSome = true) :
    ∃ f, Session.failureOf m = some f ∧ f.isTooDeep = true := by
  obtain ⟨control, frames, w⟩ := m
  obtain ⟨limit, p, hc⟩ := h
  cases hc
  cases frames with
  | nil => exact ⟨.runtime ⟨.callDepthExceeded limit, p⟩, rfl, rfl⟩
  | cons frame frames => cases hr

namespace Session

/-- The same session with another limit. -/
def withLimit (s : Session) (limit : Nat) : Session :=
  { s with config := { s.config with maxCallDepth := limit } }

variable {s : Session} {limit : Nat}

/-- Both sessions read a submission alike and set up the same machine but for the limit. -/
theorem begin_withLimit (s : Session) (limit : Nat) (source : String) :
    (s.withLimit limit).begin source = (s.begin source).map (·.withLimit limit) := by
  unfold begin
  cases read source with
  | error f => rfl
  | ok statements => rfl

theorem begin_limit {m : Machine} {source : String} (h : s.begin source = .ok m) :
    m.world.maxCallDepth = s.config.maxCallDepth := by
  obtain ⟨lexemes, statements, -, -, rfl⟩ := begin_eq_ok h
  rfl

/-- The machines of both sessions, after as many steps. -/
theorem begin_ahead (hl : s.config.maxCallDepth ≤ limit) {m : Machine} {source : String}
    (h : s.begin source = .ok m) (n : Nat) :
    Machine.Ahead limit (m.run n) ((m.withLimit limit).run n) := by
  apply Machine.Ahead.run
  left
  refine ⟨rfl, ?_⟩
  rw [begin_limit h]
  exact hl

/-- A submission that does not fail as too deep is the same with the higher limit. -/
theorem submit_withLimit (hl : s.config.maxCallDepth ≤ limit) {fuel : Nat} {source : String}
    {r : Submission} (h : s.submit fuel source = some r)
    (hr : ∀ f, r.failure = some f → f.isTooDeep = false) :
    (s.withLimit limit).submit fuel source = some { r with session := r.session.withLimit limit } ∧
      r.session.config = s.config := by
  unfold submit
  rw [begin_withLimit]
  rcases submit_eq_some h with ⟨f, hbegin, rfl⟩ | ⟨m, a, hbegin, ha, rfl⟩
  · rw [hbegin]
    exact ⟨rfl, rfl⟩
  · rw [hbegin]
    -- The run ended without the error, so it was never on its way out with it.
    rcases begin_ahead hl hbegin fuel with ⟨hsame, -⟩ | ⟨hdeep, -⟩
    · dsimp only [Except.map]
      rw [hsame]
      have hresult : ((m.run fuel).withLimit limit).result? = some a := ha
      rw [hresult]
      exact ⟨rfl, rfl⟩
    · obtain ⟨f, hf, htoo⟩ := hdeep.failureOf (by rw [ha]; rfl)
      have hfailure : (s.complete (m.run fuel)).failure = some f := hf
      rw [hr f hfailure] at htoo
      cases htoo

/-- A text that cannot be read calls nothing. -/
theorem not_isTooDeep_of_begin {source : String} {f : Failure} (h : s.begin source = .error f) :
    f.isTooDeep = false := by
  rcases s.begin_cases source with ⟨e, -, hbegin⟩ | ⟨lexemes, e, -, -, hbegin⟩ |
    ⟨lexemes, statements, -, -, hbegin⟩ <;> rw [hbegin] at h <;> cases h <;> rfl

/-- The events of a submission: what the machine told, and then the failure. -/
theorem events_complete (s : Session) (m : Machine) :
    (s.complete m).events
      = m.world.output.reverse ++ ((failureOf m).map Event.failure).toList := rfl

/-- What a submission that fails as too deep told before, is told with the higher limit as well. -/
theorem told_withLimit (hl : s.config.maxCallDepth ≤ limit) {fuel fuel' : Nat} {source : String}
    {r r' : Submission} {f : Failure} (h : s.submit fuel source = some r) (hf : r.failure = some f)
    (htoo : f.isTooDeep = true) (h' : (s.withLimit limit).submit fuel' source = some r') :
    ∃ told, r.events = told ++ [Event.failure f] ∧ told <+: r'.events := by
  rcases submit_eq_some h with ⟨g, hbegin, rfl⟩ | ⟨m, a, hbegin, ha, rfl⟩
  · cases hf
    rw [not_isTooDeep_of_begin hbegin] at htoo
    cases htoo
  · have hbegin' : (s.withLimit limit).begin source = .ok (m.withLimit limit) := by
      rw [begin_withLimit, hbegin]
      rfl
    rcases submit_eq_some h' with ⟨g, herror, -⟩ | ⟨m', a', hm', ha', rfl⟩
    · rw [hbegin'] at herror
      cases herror
    rw [hbegin'] at hm'
    cases hm'
    have hfailure : failureOf (m.run fuel) = some f := hf
    refine ⟨(m.run fuel).world.output.reverse, ?_, ?_⟩
    · rw [events_complete, hfailure]
      rfl
    · -- Both runs are over after the larger number of steps, so they can be compared there.
      have hahead := begin_ahead hl hbegin (max fuel fuel')
      rw [Machine.run_of_le ha (Nat.le_max_left _ _), Machine.run_of_le ha' (Nat.le_max_right _ _)]
        at hahead
      have htold : (m.run fuel).world.output <:+ ((m.withLimit limit).run fuel').world.output := by
        rcases hahead with ⟨hsame, -⟩ | ⟨-, htold⟩
        · rw [hsame]
          exact List.suffix_refl _
        · exact htold
      rw [events_complete]
      exact (List.reverse_prefix.mpr htold).trans (List.prefix_append _ _)

/-! ## Histories -/

/-- No action ended in a failure that tells of too many active calls. -/
def Undisturbed (seen : List Observation) : Prop :=
  ∀ o ∈ seen, ∀ f, o.failure = some f → f.isTooDeep = false

/-- One action. -/
theorem perform_withLimit (hl : s.config.maxCallDepth ≤ limit) {fuel : Nat} {action : Action}
    {seen : Observation} {t : Session}
    (h : Engine.standard.perform fuel s action = some (seen, t))
    (hseen : ∀ f, seen.failure = some f → f.isTooDeep = false) :
    Engine.standard.perform fuel (s.withLimit limit) action = some (seen, t.withLimit limit) ∧
      t.config.maxCallDepth = s.config.maxCallDepth := by
  cases action with
  | submit source =>
    obtain ⟨r, hr, heq⟩ := Option.map_eq_some_iff.mp h
    cases heq
    obtain ⟨hsubmit, hconfig⟩ := submit_withLimit hl hr hseen
    refine ⟨?_, by rw [hconfig]⟩
    have hraised : (s.withLimit limit).submit fuel source = some _ := hsubmit
    show ((s.withLimit limit).submit fuel source).map _ = _
    rw [hraised]
    rfl
  | setEcho echo =>
    cases h
    exact ⟨rfl, rfl⟩
  | listen l =>
    cases h
    exact ⟨rfl, rfl⟩
  | reset =>
    cases h
    exact ⟨rfl, rfl⟩

/-- Any number of actions. -/
theorem performAll_withLimit (hl : s.config.maxCallDepth ≤ limit) {fuel : Nat}
    {actions : List Action} {seen : List Observation} {t : Session}
    (h : Engine.standard.performAll fuel s actions = some (seen, t)) (hseen : Undisturbed seen) :
    Engine.standard.performAll fuel (s.withLimit limit) actions = some (seen, t.withLimit limit) ∧
      t.config.maxCallDepth = s.config.maxCallDepth := by
  induction actions generalizing s seen with
  | nil =>
    cases h
    exact ⟨rfl, rfl⟩
  | cons action actions ih =>
    unfold Engine.performAll at h ⊢
    cases hone : Engine.standard.perform fuel s action with
    | none =>
      rw [hone] at h
      cases h
    | some done =>
      obtain ⟨first, u⟩ := done
      rw [hone] at h
      obtain ⟨⟨rest, t'⟩, hrest, heq⟩ := Option.map_eq_some_iff.mp h
      cases heq
      obtain ⟨hfirst, hlimit⟩ := perform_withLimit hl hone (hseen first List.mem_cons_self)
      have hu : u.config.maxCallDepth ≤ limit := by rw [hlimit]; exact hl
      obtain ⟨hmore, hlimit'⟩ := ih hu hrest fun o ho => hseen o (List.mem_cons_of_mem _ ho)
      rw [hfirst]
      dsimp only
      rw [hmore]
      exact ⟨rfl, by rw [hlimit', hlimit]⟩

/-- **Raising the limit on active calls changes no run that did not come to it.** If any actions
on a session end, and no submission among them fails as too deep, then the session with the higher
limit performs them with the same observations: the same failures, events and global names with
the same values, in as many steps. It is then still the same session but for the limit. If a
submission fails as too deep after that, everything it told before is told first, and in the same
order, by the session with the higher limit. -/
theorem raising_limit (s : Session) (limit : Nat) (hl : s.config.maxCallDepth ≤ limit) (fuel : Nat)
    (actions : List Action) (seen : List Observation) (t : Session)
    (h : Engine.standard.performAll fuel s actions = some (seen, t)) (hseen : Undisturbed seen) :
    Engine.standard.performAll fuel (s.withLimit limit) actions = some (seen, t.withLimit limit) ∧
      ∀ source fuel₁ fuel₂ r r' f, t.submit fuel₁ source = some r → r.failure = some f →
        f.isTooDeep = true → (t.withLimit limit).submit fuel₂ source = some r' →
        ∃ told, r.events = told ++ [Event.failure f] ∧ told <+: r'.events := by
  obtain ⟨hall, hlimit⟩ := performAll_withLimit hl h hseen
  refine ⟨hall, fun source fuel₁ fuel₂ r r' f hr hf htoo hr' => ?_⟩
  apply told_withLimit _ hr hf htoo hr'
  rw [hlimit]
  exact hl

/-- A session in which one call may be active. -/
def oneCall : Session := Session.new ⟨false, 1⟩ fun _ => 0

/-- Two functions, of which the second calls the first, and a call of the first. -/
def twoFunctions : Action :=
  .submit "fun g() \x7b print \"b\" \x7d fun f() \x7b print \"a\"; g() \x7d g()"

/-- With one active call `f` fails after its first line; with two there is a second one. -/
theorem twoFunctions_raised :
    ∃ seen t r r' f, oneCall.config.maxCallDepth ≤ 2 ∧
      Engine.standard.performAll 60 oneCall [twoFunctions] = some (seen, t) ∧ Undisturbed seen ∧
      Engine.standard.performAll 60 (oneCall.withLimit 2) [twoFunctions]
        = some (seen, t.withLimit 2) ∧
      t.submit 60 "f()" = some r ∧ r.failure = some f ∧ f.isTooDeep = true ∧
      (t.withLimit 2).submit 60 "f()" = some r' ∧
      r'.events = [Event.print "a", Event.print "b"] ∧
      ∃ told, r.events = told ++ [Event.failure f] ∧ told <+: r'.events := by
  have hruns : (Engine.standard.performAll 60 oneCall [twoFunctions]).any (fun done =>
      done.1.all (·.failure.all (!·.isTooDeep)) &&
      (done.2.submit 60 "f()").any (·.failure.any (·.isTooDeep)) &&
      ((done.2.withLimit 2).submit 60 "f()").any
        (·.events = [Event.print "a", Event.print "b"])) = true := by decide +kernel
  obtain ⟨⟨seen, t⟩, hall, hdone⟩ := (Option.any_eq_true _ _).mp hruns
  rw [Bool.and_eq_true, Bool.and_eq_true] at hdone
  obtain ⟨⟨hquiet, hlow⟩, hhigh⟩ := hdone
  have hseen : Undisturbed seen := by
    intro o ho f hf
    have hfree := (Option.all_eq_true _ _).mp (List.all_eq_true.mp hquiet o ho) f hf
    rwa [Bool.not_eq_true'] at hfree
  obtain ⟨r, hr, hfailed⟩ := (Option.any_eq_true _ _).mp hlow
  obtain ⟨f, hf, htoo⟩ := (Option.any_eq_true _ _).mp hfailed
  obtain ⟨r', hr', hevents⟩ := (Option.any_eq_true _ _).mp hhigh
  have hl : oneCall.config.maxCallDepth ≤ 2 := by decide
  obtain ⟨hsame, htold⟩ := raising_limit oneCall 2 hl 60 [twoFunctions] seen t hall hseen
  exact ⟨seen, t, r, r', f, hl, hall, hseen, hsame, hr, hf, htoo, hr', of_decide_eq_true hevents,
    htold "f()" 60 60 r r' f hr hf htoo hr'⟩

end Session

end Scripting
