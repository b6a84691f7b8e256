/-
What cannot happen to a session.

A session that is only ever told to submit texts, to turn its echo on or off, to take on listeners
and to start over binds no function but those that the grammar has read. So whatever is submitted
next, the machine that runs it keeps fitting, and its counter of calls balanced, from the first
step to the last. No statement ends in a way that the place it stands at cannot deal with, no call
ends that has not been counted, and a submission that comes to an end has run to its end or fails
with an error of one of the three kinds.
-/
import Scripting.Proofs.History
import Scripting.Proofs.LineSearch
import Scripting.Proofs.LongestMatch
import Scripting.Proofs.Placement

set_option autoImplicit false

namespace Scripting

open Grammar

/-! ## Stores of canonical functions -/

/-- The body of every function that is bound may stand in a function. -/
def Store.Canonical (store : Store) : Prop := ∀ v, store.Binds v → v.Meets Closure.Canonical

theorem Session.canonical_freshGlobals {store : Store} (h : store.Canonical) :
    (Session.freshGlobals store).2.Canonical := by
  intro v hv
  rcases Store.Binds.of_defineBuiltins hv with hold | ⟨b, rfl⟩
  · exact h v hold.of_newScope
  · trivial

theorem Session.canonical_new (config : Config) (clock : Nat → Float) :
    (Session.new config clock).store.Canonical := by
  apply canonical_freshGlobals
  rintro v ⟨scope, hscope, -⟩
  cases hscope

/-! ## Machines that can be started -/

namespace Machine

variable {w : World}

theorem ofProgram_placed (h : w.store.Canonical) {statements : List Stmt}
    (hs : ∀ s ∈ statements, s.Canonical .outermost) (echo : Bool) (scope : ScopeId) :
    (ofProgram statements echo scope w).Placed (.flow .outermost) where
  fits := ⟨.flow .outermost, trivial,
    .cons (.program echo scope (Stmt.allCanonical_iff.mpr hs)) .nil⟩
  functions := allFunctions_of_bound rfl (List.forall_mem_singleton.mpr rfl) h

theorem execute_placed (h : w.store.Canonical) {around : Surroundings} {s : Stmt}
    (hs : s.Canonical around) (scope : ScopeId) :
    Placed (.flow around) ⟨.execute s scope, [], w⟩ where
  fits := ⟨.flow around, hs, .nil⟩
  functions := allFunctions_of_bound rfl (fun _ hframe => absurd hframe List.not_mem_nil) h

end Machine

/-! ## Sessions -/

namespace Session

variable {s : Session} {source : String} {m : Machine}

theorem begin_placed (hs : s.store.Canonical) (h : s.begin source = .ok m) :
    m.Placed (.flow .outermost) := by
  obtain ⟨lexemes, statements, -, hparse, rfl⟩ := begin_eq_ok h
  exact Machine.ofProgram_placed hs (canonical_of_parse hparse) _ _

theorem begin_balanced (h : s.begin source = .ok m) : m.Balanced s.config.maxCallDepth 0 := by
  obtain ⟨lexemes, statements, -, -, rfl⟩ := begin_eq_ok h
  exact Machine.ofProgram_balanced statements s.config.echo s.globals s.world

/-- A submission leaves a canonical store behind. -/
theorem canonical_submit {fuel : Nat} {r : Submission} (hs : s.store.Canonical)
    (h : s.submit fuel source = some r) : r.session.store.Canonical := by
  rcases submit_eq_some h with ⟨f, -, rfl⟩ | ⟨m, a, hbegin, -, rfl⟩
  · exact hs
  · exact ((begin_placed hs hbegin).run fuel).functions.bound

theorem canonical_perform {fuel : Nat} {action : Action} {seen : Observation} {t : Session}
    (hs : s.store.Canonical) (h : Engine.standard.perform fuel s action = some (seen, t)) :
    t.store.Canonical := by
  cases action with
  | submit source =>
    obtain ⟨r, hr, heq⟩ := Option.map_eq_some_iff.mp h
    cases heq
    exact canonical_submit hs hr
  | setEcho echo =>
    cases h
    exact hs
  | listen l =>
    cases h
    exact hs
  | reset =>
    cases h
    exact canonical_freshGlobals fun v hv => hs v hv.of_leave

/-- **Every session that can be reached has a canonical store.** -/
theorem canonical_performAll {config : Config} {clock : Nat → Float} {fuel : Nat}
    {actions : List Action} {seen : List Observation}
    (h : Engine.standard.performAll fuel (Session.new config clock) actions = some (seen, s)) :
    s.store.Canonical :=
  Engine.performAll_keeps (fun _ _ _ _ hs hone => canonical_perform hs hone) h
    (canonical_new config clock)

end Session

/-! ## Every moment of a submission -/

/-- Whether a frame waits for the value of an expression, and not for the end of a statement. -/
def Frame.awaitsValue : Frame → Bool
  | .sequence .. | .program .. | .loopBody .. | .leaveBlock _ | .leaveCall _ => false
  | _ => true

/-- Nothing has got to where it cannot be dealt with. -/
structure Machine.Sound (m : Machine) : Prop where
  /-- Values get to frames that wait for them. -/
  values : ∀ v frame frames, m.control = .answer (.value v) → m.frames = frame :: frames →
    frame.awaitsValue = true
  /-- Ends of statements get to the other frames. -/
  flows : ∀ f frame frames, m.control = .answer (.flow f) → m.frames = frame :: frames →
    frame.awaitsValue = false
  /-- No statement of a program ends by leaving something. -/
  program : ∀ f remaining echo s frames, m.control = .answer (.flow f) →
    m.frames = .program remaining echo s :: frames → f = .normal
  /-- No call ends by leaving a loop, or by going on with one. -/
  call : ∀ f s frames, m.control = .answer (.flow f) → m.frames = .leaveCall s :: frames →
    f ≠ .break_ ∧ f ≠ .continue_
  /-- A call that ends has been counted. -/
  counted : ∀ a s frames, m.control = .answer a → m.frames = .leaveCall s :: frames →
    1 ≤ m.world.callDepth
  /-- When nothing is left to do, the program has run to its end or failed. -/
  result : ∀ a, m.result? = some a → a = .flow .normal ∨ ∃ e, a = .error e

/-- Whatever the grammar reads as a statement, if it is executed in this world, ends as its
surroundings allow, or with an error. -/
def World.Orderly (w : World) : Prop :=
  ∀ room around ts stmt rest,
    (Yields ((Rules.withRoom room).declaration around ts) stmt rest ∨
      Yields ((Rules.withRoom room).statement around ts) stmt rest) →
    ∀ scope n a, (Machine.run n ⟨.execute stmt scope, [], w⟩).result? = some a →
      (∃ f, a = .flow f ∧ f.AllowedIn around) ∨ ∃ e, a = .error e

theorem Flow.eq_normal {f : Flow} (h : f.AllowedIn .outermost) : f = .normal := by
  cases f with
  | normal => rfl
  | _ => cases h

theorem Answer.Fits.cases {a : Answer} {around : Surroundings} (h : a.Fits (.flow around)) :
    (∃ f, a = .flow f ∧ f.AllowedIn around) ∨ ∃ e, a = .error e := by
  cases a with
  | value v => cases h
  | flow f => exact .inl ⟨f, rfl, h⟩
  | error e => exact .inr ⟨e, rfl⟩

namespace Machine

variable {bottom : Awaited} {m : Machine}

/-- The innermost frame takes the answer. -/
theorem Placed.takes (h : m.Placed bottom) {a : Answer} {frame : Frame} {frames : List Frame}
    (hc : m.control = .answer a) (hf : m.frames = frame :: frames) :
    ∃ kind below, frame.Takes kind below ∧ a.Fits kind := by
  obtain ⟨kind, hcontrol, hframes⟩ := h.fits
  rw [hc] at hcontrol
  rw [hf] at hframes
  cases hframes with
  | cons htakes _ => exact ⟨kind, _, htakes, hcontrol⟩

theorem Placed.sound {limit base : Nat} (h : m.Placed (.flow .outermost))
    (hb : m.Balanced limit base) : m.Sound where
  values v frame frames hc hf := by
    obtain ⟨kind, below, htakes, hfits⟩ := h.takes hc hf
    cases kind with
    | value => cases htakes <;> rfl
    | flow around => cases hfits
  flows f frame frames hc hf := by
    obtain ⟨kind, below, htakes, hfits⟩ := h.takes hc hf
    cases kind with
    | value => cases hfits
    | flow around => cases htakes <;> rfl
  program f remaining echo s frames hc hf := by
    obtain ⟨kind, below, htakes, hfits⟩ := h.takes hc hf
    cases htakes
    exact Flow.eq_normal hfits
  call f s frames hc hf := by
    obtain ⟨kind, below, htakes, hfits⟩ := h.takes hc hf
    cases htakes
    constructor <;> rintro rfl <;> cases hfits
  counted a s frames hc hf := by
    unfold Machine.Balanced at hb
    rw [hf] at hb
    exact hb.callDepth_pos
  result a ha := by
    rcases (h.result ha).cases with ⟨f, rfl, hf⟩ | herror
    · exact .inl (by rw [Flow.eq_normal hf])
    · exact .inr herror

theorem Placed.orderly (h : m.Placed bottom) : m.world.Orderly := by
  intro room around ts stmt rest hread scope n a ha
  have hcanonical : stmt.Canonical around := by
    rcases hread with hread | hread
    · exact ((Rules.faithful_withRoom room).declaration hread).canonical
    · exact ((Rules.faithful_withRoom room).statement hread).1.canonical
  exact (((execute_placed h.functions.bound hcanonical scope).run n).result ha).cases

end Machine

/-! ## Strings -/

/-- A string literal has a quote at either end, and what it denotes is between them. -/
theorem munch_string {text : List Char} {m : Munch text} {contents : String}
    (h : munch text = some m) (htoken : m.token = .string contents) :
    m.taken = '"' :: (contents.toList ++ ['"']) := by
  obtain ⟨p, hlongest, hp⟩ := munch_isLongest h
  rw [hp] at htoken
  cases p with
  | string =>
    obtain ⟨inner, -, htaken⟩ := Pattern.mem_string.mp hlongest.mem
    have hcontents : Token.string (String.ofList m.taken.tail.dropLast) = .string contents := htoken
    rw [htaken, List.tail_cons, List.dropLast_concat] at hcontents
    cases hcontents
    rw [htaken, String.toList_ofList]
  | _ => cases htoken

/-! ## Submissions -/

namespace Session

/-- How a submission is concluded: with a failure of the stage that found a fault, or with none. -/
inductive Concluded (s : Session) (fuel : Nat) (source : String) : Option Failure → Prop
  | lex {e : LexError} : tokenize source = .error e → Concluded s fuel source (some (.lex e))
  | parse {lexemes : List Lexeme} {e : ParseError} : tokenize source = .ok lexemes →
      Grammar.parse lexemes = .error e → Concluded s fuel source (some (.parse e))
  | runtime {m : Machine} {e : RuntimeError} : s.begin source = .ok m →
      (m.run fuel).result? = some (.error e) → Concluded s fuel source (some (.runtime e))
  | done {m : Machine} : s.begin source = .ok m → (m.run fuel).result? = some (.flow .normal) →
      Concluded s fuel source none

variable {s : Session} {source : String}

theorem concluded_of_begin {fuel : Nat} {f : Failure} (h : s.begin source = .error f) :
    s.Concluded fuel source (some f) := by
  rcases s.begin_cases source with ⟨e, hlex, hbegin⟩ | ⟨lexemes, e, hlex, hparse, hbegin⟩ |
    ⟨lexemes, statements, -, -, hbegin⟩ <;> rw [hbegin] at h <;> cases h
  · exact .lex hlex
  · exact .parse hlex hparse

/-- A submission that ends is concluded. -/
theorem concluded_submit {fuel : Nat} {r : Submission} (hs : s.store.Canonical)
    (h : s.submit fuel source = some r) : s.Concluded fuel source r.failure := by
  rcases submit_eq_some h with ⟨f, hbegin, rfl⟩ | ⟨m, a, hbegin, ha, rfl⟩
  · exact concluded_of_begin hbegin
  · have hfailure : (s.complete (m.run fuel)).failure = failureOf (m.run fuel) := rfl
    rw [hfailure, failureOf, ha]
    rcases (((begin_placed hs hbegin).run fuel).result ha).cases with ⟨f, rfl, hf⟩ | ⟨e, rfl⟩
    · rw [Flow.eq_normal hf] at ha
      exact .done hbegin ha
    · exact .runtime hbegin ha

/-- A submission ends if the machine that it sets up, if any, comes to a result. -/
theorem exists_submit (h : ∀ m, s.begin source = .ok m → ∃ n a, (m.run n).result? = some a) :
    ∃ fuel r, s.submit fuel source = some r := by
  unfold submit
  cases hbegin : s.begin source with
  | error f => exact ⟨0, _, rfl⟩
  | ok m =>
    obtain ⟨n, a, ha⟩ := h m hbegin
    refine ⟨n, s.complete (m.run n), ?_⟩
    dsimp only
    rw [ha]
    rfl

/-- **No submission can break a session.** Take any session that any actions have led to, and any
text. If running the text comes to an end, the submission ends, and whenever it ends it is
concluded with an error of one of the three kinds or with none. At every moment of the run the
machine is sound: ends of statements get only to where they can be dealt with, and a call that
ends has been counted. Any statement that the grammar reads, executed at any such moment, ends as
the surroundings that it was read with allow, also if it calls functions of earlier submissions.
Every search for an offset among the line starts of the text finds a line; and every string
literal has quotes at both ends that can be taken off. -/
theorem submissions_sound (config : Config) (clock : Nat → Float) (fuel : Nat)
    (actions : List Action) (seen : List Observation) (s : Session)
    (h : Engine.standard.performAll fuel (Session.new config clock) actions = some (seen, s))
    (source : String) :
    ((∀ m, s.begin source = .ok m → ∃ n a, (m.run n).result? = some a) →
        ∃ fuel r, s.submit fuel source = some r) ∧
      (∀ fuel r, s.submit fuel source = some r → s.Concluded fuel source r.failure) ∧
      (∀ m n, s.begin source = .ok m → (m.run n).Sound ∧ (m.run n).world.Orderly) ∧
      (LineIndex.ofText source.toList).FindsLines ∧
      ∀ text m contents, munch text = some m → m.token = .string contents →
        m.taken = '"' :: (contents.toList ++ ['"']) := by
  have hs : s.store.Canonical := canonical_performAll h
  refine ⟨exists_submit, fun fuel r hr => concluded_submit hs hr, fun m n hm => ?_,
    LineIndex.ofText_findsLines _, fun text m contents hm htoken => munch_string hm htoken⟩
  have hplaced := (begin_placed hs hm).run n
  exact ⟨hplaced.sound ((begin_balanced hm).run n), hplaced.orderly⟩

/-- A function with a loop in it that is gone on with and returned from. -/
def countingUp : Action :=
  .submit "fun first(n) \x7b while true \x7b n = n + 1; if n > 2 return n; continue \x7d \x7d"

/-- A later submission calls the function, and comes to its end. -/
theorem countingUp_sound :
    ∃ seen s r m,
      Engine.standard.performAll 20 (Session.new ⟨false, 4⟩ fun _ => 0) [countingUp, .setEcho true]
        = some (seen, s) ∧
      s.submit 200 "first(0)" = some r ∧ r.events = [Event.value "3"] ∧
      s.Concluded 200 "first(0)" r.failure ∧ s.begin "first(0)" = .ok m ∧
      ∀ n, (m.run n).Sound ∧ (m.run n).world.Orderly := by
  have hruns :
      (Engine.standard.performAll 20 (Session.new ⟨false, 4⟩ fun _ => 0)
        [countingUp, .setEcho true]).any (fun done => (done.2.submit 200 "first(0)").any
          fun r => r.failure.isNone && decide (r.events = [Event.value "3"])) = true := by
    decide +kernel
  obtain ⟨⟨seen, s⟩, hall, hdone⟩ := (Option.any_eq_true _ _).mp hruns
  obtain ⟨r, hr, htold⟩ := (Option.any_eq_true _ _).mp hdone
  rw [Bool.and_eq_true] at htold
  obtain ⟨-, hconcluded, hsound, -⟩ := submissions_sound _ _ _ _ _ _ hall "first(0)"
  have hend := hconcluded 200 r hr
  have hnone : r.failure = none := Option.isNone_iff_eq_none.mp htold.1
  rw [hnone] at hend
  cases hend with
  | @done m hbegin hresult =>
    exact ⟨seen, s, r, m, hall, hr, of_decide_eq_true htold.2, hconcluded 200 r hr, hbegin,
      fun n => hsound m n hbegin⟩

end Session

end Scripting
