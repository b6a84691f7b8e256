/-
How lines are put together.

The lines of an input fall into *groups*: a line on its own that is a command, or the lines of a
submission. A submission goes on as long as its lines so far, joined by newlines, are unfinished; if
the input ends before it does, its lines are the last group. There is one way only to split an input
like this, even if a line that looks like a command is allowed to be a submission of its own:
nothing that begins with a command is unfinished.

Taken line by line, every line of a group but the last is waited with, and the last one leads to
what the group asks for. So a session that is driven with the lines is asked to do what the groups
ask for, in their order, up to a command to quit; a group asks the session itself for one thing at
most, which is to submit its text or to start over.
-/
import Scripting.CommandLine
import Scripting.Proofs.History
import Scripting.Proofs.OpenLines

set_option autoImplicit false

namespace Scripting.Repl

/-! ## Groups -/

/-- Lines that are unfinished, and have been so from the first of them on. -/
def Unfinished (lines : List String) : Prop :=
  ∀ front, front <+: lines → front ≠ [] → needsMore ("\n".intercalate front) = true

/-- One line whose trimmed text begins with a colon. -/
def IsCommand (group : List String) : Prop :=
  ∃ line, group = [line] ∧ (Text.trimmed line.toList).head? = some ':'

/-- Lines that are finished by the last of them and not before. -/
def IsFinished (group : List String) : Prop :=
  ∃ pending last, group = pending ++ [last] ∧ Unfinished pending ∧
    needsMore ("\n".intercalate group) = false

/-- Lines split into commands and finished lines; the last group may be unfinished. -/
inductive Splits : List String → List (List String) → Prop
  | done : Splits [] []
  | unfinished {group : List String} : group ≠ [] → Unfinished group → Splits group [group]
  | group {group lines : List String} {groups : List (List String)} :
      IsCommand group ∨ IsFinished group → Splits lines groups →
      Splits (group ++ lines) (group :: groups)

section Unfinished

variable {lines group : List String} {line : String}

theorem unfinished_nil : Unfinished [] := fun _ hfront hne =>
  absurd (List.prefix_nil.mp hfront) hne

theorem unfinished_iff : Unfinished lines ↔
    ∀ n < lines.length, needsMore ("\n".intercalate (lines.take (n + 1))) = true := by
  constructor
  · intro h n hn
    exact h _ (List.take_prefix _ _) (List.ne_nil_of_length_pos (by simp; omega))
  · intro h front hfront hne
    have hlength := List.length_pos_iff.mpr hne
    have hle := hfront.length_le
    have hmore := h (front.length - 1) (by omega)
    rwa [Nat.sub_add_cancel hlength, ← List.prefix_iff_eq_take.mp hfront] at hmore

instance : Decidable (Unfinished lines) := decidable_of_iff' _ unfinished_iff

theorem Unfinished.concat (h : Unfinished lines)
    (hmore : needsMore ("\n".intercalate (lines ++ [line])) = true) :
    Unfinished (lines ++ [line]) := by
  intro front hfront hne
  rcases List.prefix_concat_iff.mp hfront with rfl | hfront
  · exact hmore
  · exact h front hfront hne

end Unfinished

/-! ## Commands -/

theorem exists_ofLine?_iff {line : String} :
    (∃ command, Command.ofLine? line = some command) ↔
      (Text.trimmed line.toList).head? = some ':' := by
  unfold Command.ofLine?
  split
  · next name htrimmed => simp [htrimmed]
  · next hother =>
    constructor
    · rintro ⟨command, h⟩
      cases h
    · intro hcolon
      obtain ⟨name, hname⟩ := List.head?_eq_some_iff.mp hcolon
      exact absurd hname (hother name)

/-- Trimming leaves the first character that is not blank in front. -/
theorem exists_dropWhile_of_trimmed {text : List Char} {c : Char}
    (h : (Text.trimmed text).head? = some c) : ∃ more, text.dropWhile Text.isBlank = c :: more := by
  have hfront : Text.trimmed text <+: text.dropWhile Text.isBlank := by
    rw [← List.reverse_reverse (text.dropWhile Text.isBlank)]
    exact List.reverse_prefix.mpr (List.dropWhile_suffix Text.isBlank)
  obtain ⟨name, hname⟩ := List.head?_eq_some_iff.mp h
  obtain ⟨more, hmore⟩ := hfront
  exact ⟨name ++ more, by rw [← hmore, hname, List.cons_append]⟩

/-- A text that begins like a command is never unfinished, as no token begins with a colon. -/
theorem IsCommand.needsMore {group : List String} (h : IsCommand group) :
    needsMore ("\n".intercalate group) = false := by
  obtain ⟨line, rfl, hcolon⟩ := h
  obtain ⟨more, hmore⟩ := exists_dropWhile_of_trimmed hcolon
  obtain ⟨c, cs, hdrop, hlead, hspace⟩ := exists_leading hmore []
  rw [List.append_nil] at hdrop
  have hfault : tokenize line = .error ⟨.invalidCharacter c,
      Position.start.advanceAll (line.toList.takeWhile isSpace)⟩ := by
    rw [tokenize_eq_readFrom, readFrom_dropWhile, hdrop,
      readFrom_of_unmatched (unmatched_of_munch (munch_eq_none hlead hspace cs))]
  have hjoin : "\n".intercalate [line] = line := rfl
  rw [hjoin, Repl.needsMore, hfault]
  rfl

/-- So a line that is a command would be finished, if it were no command. -/
theorem IsCommand.isFinished {group : List String} (h : IsCommand group) : IsFinished group := by
  have hmore := h.needsMore
  obtain ⟨line, rfl, -⟩ := h
  exact ⟨[], line, rfl, unfinished_nil, hmore⟩

/-! ## There is one way to split lines -/

namespace Splits

variable {lines first first' rest rest' : List String} {groups others : List (List String)}

/-- The first group is found by its end: all that comes before is unfinished, and it is not, unless
it is the last. -/
theorem uncons (h : Splits lines (first :: groups)) :
    ∃ rest, lines = first ++ rest ∧ Splits rest groups ∧ first ≠ [] ∧
      (∀ front, front <+: first → front ≠ [] → front ≠ first →
        needsMore ("\n".intercalate front) = true) ∧
      (needsMore ("\n".intercalate first) = false ∨ rest = []) := by
  cases h with
  | unfinished hne hopen =>
    exact ⟨[], (List.append_nil _).symm, .done, hne, fun f hf h _ => hopen f hf h, .inr rfl⟩
  | group hgroup hrest =>
    obtain ⟨pending, last, rfl, hopen, hends⟩ := hgroup.elim IsCommand.isFinished id
    refine ⟨_, rfl, hrest, by simp, fun front hfront hne hproper => ?_, .inl hends⟩
    exact hopen front ((List.prefix_concat_iff.mp hfront).resolve_left hproper) hne

/-- Of two ways to split the same lines, neither has the shorter first group. -/
theorem first_eq (h : Splits lines (first :: groups)) (h' : Splits lines (first' :: others))
    (hle : first <+: first') : first = first' := by
  obtain ⟨rest, hlines, -, hne, -, hends⟩ := h.uncons
  obtain ⟨rest', hlines', -, -, hopen, -⟩ := h'.uncons
  by_contra hproper
  have hmore := hopen first hle hne hproper
  rcases hends with hends | rfl
  · rw [hends] at hmore
    cases hmore
  · rw [hlines, List.append_nil] at hlines'
    exact hproper (hle.eq_of_length_le (by simp [hlines']))

theorem nil_iff : Splits [] groups ↔ groups = [] := by
  constructor
  · intro h
    cases groups with
    | nil => rfl
    | cons first groups =>
      obtain ⟨rest, hlines, -, hne, -⟩ := h.uncons
      exact absurd (List.append_eq_nil_iff.mp hlines.symm).1 hne
  · rintro rfl
    exact .done

/-- **Lines split in one way only.** -/
theorem unique (h : Splits lines groups) (h' : Splits lines others) : others = groups := by
  induction groups generalizing lines others with
  | nil =>
    cases h
    exact nil_iff.mp h'
  | cons first groups ih =>
    cases others with
    | nil =>
      cases h'
      exact (nil_iff.mp h).symm
    | cons first' others =>
      obtain ⟨rest, hlines, hrest, -⟩ := h.uncons
      obtain ⟨rest', hlines', hrest', -⟩ := h'.uncons
      obtain rfl : first = first' := by
        rcases List.prefix_or_prefix_of_prefix ⟨rest, hlines.symm⟩ ⟨rest', hlines'.symm⟩ with
          hle | hle
        · exact h.first_eq h' hle
        · exact (h'.first_eq h hle).symm
      obtain rfl : rest' = rest := List.append_cancel_left (hlines'.symm.trans hlines)
      rw [ih hrest hrest']

end Splits

/-! ## What a group asks for -/

/-- What is done once a group is complete: a command is performed, and finished lines are submitted
unless they are blank. -/
def request (group : List String) : Action :=
  match group.map Command.ofLine? with
  | [some command] => .perform command
  | _ =>
    let source := "\n".intercalate group
    if needsMore source || source.toList.all Text.isBlank then .wait else .submit source

/-- What is done with the lines of a group, one after the other. -/
def answers (group : List String) : List Action :=
  List.replicate (group.length - 1) .wait ++ [request group]

/-- What a loop does with lines, one after the other. -/
def actions {σ : Type} (step : σ → String → σ × Action) (state : σ) : List String → List Action
  | [] => []
  | line :: lines => (step state line).2 :: actions step (step state line).1 lines

section Request

variable {group pending : List String} {line : String}

theorem request_of_command {command : Command} (h : Command.ofLine? line = some command) :
    request [line] = .perform command := by
  rw [request, List.map_singleton, h]

theorem request_of_source (h : ¬ IsCommand group) :
    request group = if needsMore ("\n".intercalate group) ||
        ("\n".intercalate group).toList.all Text.isBlank then .wait
      else .submit ("\n".intercalate group) := by
  unfold request
  split
  · next command hmap =>
    obtain ⟨line, rfl, hline⟩ := List.map_eq_singleton_iff.mp hmap
    exact absurd ⟨line, rfl, exists_ofLine?_iff.mp ⟨command, hline⟩⟩ h
  · rfl

theorem request_of_unfinished (h : needsMore ("\n".intercalate group) = true) :
    request group = .wait := by
  have hsource : ¬ IsCommand group := by
    intro hcommand
    rw [hcommand.needsMore] at h
    cases h
  rw [request_of_source hsource, h]
  rfl

/-- **One line** leaves the lines unfinished, or it completes a group. -/
theorem step_cases (h : Unfinished pending) (line : String) :
    (Unfinished (pending ++ [line]) ∧ step pending line = (pending ++ [line], .wait)) ∨
    ((IsCommand (pending ++ [line]) ∨ IsFinished (pending ++ [line])) ∧
      step pending line = ([], request (pending ++ [line]))) := by
  by_cases hcommand : IsCommand (pending ++ [line])
  · obtain ⟨line', hline, hcolon⟩ := id hcommand
    obtain ⟨rfl, rfl⟩ : pending = [] ∧ line = line' := by
      cases pending <;> simp_all
    obtain ⟨command, hcolon⟩ := exists_ofLine?_iff.mpr hcolon
    refine .inr ⟨.inl hcommand, ?_⟩
    rw [List.nil_append, request_of_command hcolon]
    unfold step
    rw [hcolon]
  · have hnone : pending = [] → Command.ofLine? line = none := by
      rintro rfl
      refine Option.eq_none_iff_forall_ne_some.mpr fun command hline => hcommand ?_
      exact ⟨line, rfl, exists_ofLine?_iff.mp ⟨command, hline⟩⟩
    rw [step_eq hnone, request_of_source hcommand]
    cases hmore : needsMore ("\n".intercalate (pending ++ [line])) with
    | true => exact .inl ⟨h.concat hmore, rfl⟩
    | false =>
      refine .inr ⟨.inr ⟨pending, line, rfl, h, hmore⟩, ?_⟩
      cases ("\n".intercalate (pending ++ [line])).toList.all Text.isBlank <;> rfl

/-- **All lines** split into groups, and each line is answered as one of its group. -/
theorem exists_splits (h : Unfinished pending) (lines : List String) :
    ∃ groups, Splits (pending ++ lines) groups ∧
      List.replicate pending.length .wait ++ actions step pending lines =
        groups.flatMap answers := by
  induction lines generalizing pending with
  | nil =>
    rw [List.append_nil, actions, List.append_nil]
    by_cases hne : pending = []
    · subst hne
      exact ⟨[], .done, rfl⟩
    · refine ⟨[pending], .unfinished hne h, ?_⟩
      have hlength := List.length_pos_iff.mpr hne
      rw [List.flatMap_singleton, answers,
        request_of_unfinished (h pending (List.prefix_refl _) hne), ← List.replicate_succ']
      congr 1
      omega
  | cons line lines ih =>
    rw [actions, List.append_cons]
    rcases step_cases h line with ⟨hopen, hstep⟩ | ⟨hgroup, hstep⟩ <;> rw [hstep]
    · obtain ⟨groups, hsplits, hanswers⟩ := ih hopen
      refine ⟨groups, hsplits, ?_⟩
      rw [← hanswers, List.length_append, List.length_singleton, List.replicate_succ',
        List.append_assoc]
      rfl
    · obtain ⟨groups, hsplits, hanswers⟩ := ih unfinished_nil
      refine ⟨_, .group hgroup hsplits, ?_⟩
      rw [List.flatMap_cons, ← hanswers, answers, List.length_append, List.length_singleton]
      simp

end Request

/-! ## One text for the lines that wait -/

/-- Keep an unfinished text, and submit any other unless it is blank. -/
def settle (source : String) : String × Action :=
  if needsMore source then (source, .wait)
  else if source.toList.all Text.isBlank then ("", .wait)
  else ("", .submit source)

/-- Take a line after the text of the lines that wait, which is empty if there are none. -/
def stepText (text line : String) : String × Action :=
  if text.isEmpty then
    match Command.ofLine? line with
    | some command => ("", .perform command)
    | none => settle line
  else settle (text ++ "\n" ++ line)

section StepText

variable {pending : List String} {line : String}

theorem settle_eq (h : pending = [] → Command.ofLine? line = none) :
    settle ("\n".intercalate (pending ++ [line])) =
      ("\n".intercalate (step pending line).1, (step pending line).2) := by
  rw [step_eq h, settle]
  split
  · rfl
  · split <;> rfl

theorem intercalate_concat (hne : pending ≠ []) :
    "\n".intercalate (pending ++ [line]) = "\n".intercalate pending ++ "\n" ++ line := by
  apply String.toList_inj.mp
  rw [String.toList_append, String.toList_append, List.append_assoc]
  exact written_append hne (List.cons_ne_nil line [])

/-- An empty text is not unfinished, so an empty text means that no lines wait. -/
theorem Unfinished.isEmpty_eq_false (h : Unfinished pending) (hne : pending ≠ []) :
    ("\n".intercalate pending).isEmpty = false := by
  have hmore := h pending (List.prefix_refl _) hne
  rw [String.isEmpty_eq_false_iff]
  intro hempty
  rw [hempty] at hmore
  exact absurd hmore (by decide +kernel)

/-- **One line** does the same to the lines that wait and to their text. -/
theorem stepText_eq (h : Unfinished pending) (line : String) :
    stepText ("\n".intercalate pending) line =
      ("\n".intercalate (step pending line).1, (step pending line).2) := by
  by_cases hne : pending = []
  · subst hne
    have hempty : ("\n".intercalate []).isEmpty = true := rfl
    rw [stepText, if_pos hempty]
    cases hcommand : Command.ofLine? line with
    | some command =>
      unfold step
      rw [hcommand]
      rfl
    | none =>
      have hnone : ([] : List String) = [] → Command.ofLine? line = none := fun _ => hcommand
      exact settle_eq hnone
  · have hempty : ¬ ("\n".intercalate pending).isEmpty = true := by
      rw [h.isEmpty_eq_false hne]
      exact Bool.false_ne_true
    rw [stepText, if_neg hempty, ← intercalate_concat hne]
    exact settle_eq fun hnil => absurd hnil hne

/-- **All lines** are answered in the same way. -/
theorem actions_stepText (h : Unfinished pending) (lines : List String) :
    actions stepText ("\n".intercalate pending) lines = actions step pending lines := by
  induction lines generalizing pending with
  | nil => rfl
  | cons line lines ih =>
    rw [actions, actions, stepText_eq h]
    dsimp only
    rcases step_cases h line with ⟨hopen, hstep⟩ | ⟨-, hstep⟩ <;> rw [hstep]
    · rw [ih hopen]
    · exact congrArg (_ :: ·) (ih unfinished_nil)

end StepText

/-! ## What the session is asked for -/

/-- Do what is to be done, with at most `fuel` steps to run a submission. -/
def Action.handle (fuel : Nat) (s : Session) : Action → Option (Session × List Message)
  | .wait => some (s, [])
  | .submit source =>
    (s.submit fuel source).map fun r => (r.session, r.events.map Message.ofEvent)
  | .perform command => some (command.perform s)

/-- Do one thing after the other: the session afterwards, and what has been shown. -/
def handleAll (fuel : Nat) : Session → List Action → Option (Session × List Message)
  | s, [] => some (s, [])
  | s, action :: actions => do
    let (s, shown) ← action.handle fuel s
    let (s, more) ← handleAll fuel s actions
    some (s, shown ++ more)

/-- What the session itself is asked for. -/
def Action.call? : Action → Option Scripting.Action
  | .submit source => some (.submit source)
  | .perform .reset => some .reset
  | _ => none

/-- Whether lines are still read afterwards. -/
def Action.goesOn (action : Action) : Bool := action ≠ .perform .quit

/-- What groups ask for, up to a command to quit. -/
def requests (groups : List (List String)) : List Action :=
  (groups.map request).takeWhile Action.goesOn

section Handle

variable (fuel : Nat) (s : Session)

@[simp] theorem handleAll_nil : handleAll fuel s [] = some (s, []) := rfl

@[simp] theorem handleAll_cons (action : Action) (actions : List Action) :
    handleAll fuel s (action :: actions) =
      (action.handle fuel s).bind fun r =>
        (handleAll fuel r.1 actions).map fun r' => (r'.1, r.2 ++ r'.2) := by
  rw [handleAll]
  cases action.handle fuel s with
  | none => rfl
  | some r => cases h : handleAll fuel r.1 actions <;> simp [h]

theorem drive_cons (pending : List String) (shown : List Message) (line : String)
    (lines : List String) :
    drive fuel s pending shown (line :: lines) =
      if (step pending line).2.goesOn then
        ((step pending line).2.handle fuel s).bind fun r =>
          drive fuel r.1 (step pending line).1 (r.2.reverse ++ shown) lines
      else some shown.reverse := by
  rw [drive]
  obtain ⟨pending, action⟩ := step pending line
  cases action with
  | wait => rfl
  | submit source =>
    dsimp only [Action.handle]
    cases s.submit fuel source <;> rfl
  | perform command => cases command <;> rfl

/-- A session is driven with lines by doing what is to be done with each, up to a command to
quit. -/
theorem drive_eq_handleAll (pending : List String) (shown : List Message) (lines : List String) :
    drive fuel s pending shown lines =
      (handleAll fuel s ((actions step pending lines).takeWhile Action.goesOn)).map
        fun r => shown.reverse ++ r.2 := by
  induction lines generalizing s pending shown with
  | nil => simp [drive, actions]
  | cons line lines ih =>
    rw [drive_cons, actions, List.takeWhile_cons]
    split
    · rw [handleAll_cons]
      cases (step pending line).2.handle fuel s with
      | none => rfl
      | some r => simp [ih, Function.comp_def]
    · simp

/-- What is to be done changes the session by one call, or not at all. -/
theorem handle_session (action : Action) :
    (action.handle fuel s).map (·.1) =
      match action.call? with
      | none => some s
      | some call => (Engine.standard.perform fuel s call).map (·.2) := by
  cases action with
  | wait => rfl
  | submit source =>
    dsimp only [Action.handle, Action.call?, Engine.perform, Engine.standard]
    cases s.submit fuel source <;> rfl
  | perform command =>
    cases command with
    | bindings =>
      dsimp only [Action.handle, Action.call?, Command.perform]
      cases describeBindings s <;> rfl
    | _ => rfl

/-- So the session is what the calls make of it. -/
theorem handleAll_session (actions : List Action) :
    (handleAll fuel s actions).map (·.1) =
      (Engine.standard.performAll fuel s (actions.filterMap Action.call?)).map (·.2) := by
  induction actions generalizing s with
  | nil => rfl
  | cons action actions ih =>
    have hone := handle_session fuel s action
    rw [handleAll_cons]
    cases hcall : action.call? with
    | none =>
      rw [hcall] at hone
      obtain ⟨r, hr, rfl⟩ := Option.map_eq_some_iff.mp hone
      rw [List.filterMap_cons_none hcall, hr, ← ih]
      simp [Function.comp_def]
    | some call =>
      simp only [hcall] at hone
      rw [List.filterMap_cons_some hcall, Engine.performAll]
      cases hperform : Engine.standard.perform fuel s call with
      | none =>
        rw [hperform] at hone
        rw [Option.map_eq_none_iff.mp hone]
        rfl
      | some done =>
        rw [hperform] at hone
        obtain ⟨r, hr, hsession⟩ := Option.map_eq_some_iff.mp hone
        have hmore := ih r.1
        rw [hsession] at hmore
        simpa [hr, hsession, Function.comp_def] using hmore

theorem handleAll_replicate_wait (n : Nat) (actions : List Action) :
    handleAll fuel s (List.replicate n .wait ++ actions) = handleAll fuel s actions := by
  induction n with
  | zero => rfl
  | succ n ih =>
    rw [List.replicate_succ, List.cons_append, handleAll_cons]
    simp [Action.handle, ih]

/-- The lines of a group that are waited with do not matter. -/
theorem handleAll_answers (groups : List (List String)) :
    handleAll fuel s ((groups.flatMap answers).takeWhile Action.goesOn) =
      handleAll fuel s (requests groups) := by
  unfold requests
  induction groups generalizing s with
  | nil => rfl
  | cons group groups ih =>
    have hwaits : ∀ action ∈ List.replicate (group.length - 1) Action.wait,
        action.goesOn = true := by
      intro action haction
      rw [List.eq_of_mem_replicate haction]
      rfl
    rw [List.flatMap_cons, answers, List.append_assoc, List.takeWhile_append_of_pos hwaits,
      handleAll_replicate_wait, List.map_cons, List.singleton_append, List.takeWhile_cons,
      List.takeWhile_cons]
    split
    · simp only [handleAll_cons, ih]
    · rfl

end Handle

/-- A program that asks for lines ends with status zero, if it ends. -/
theorem runOptions_status {o : CommandLine.Options} (h : o.isInteractive = true) (fuel : Nat)
    (clock : Nat → Float) (directory : Directory) (input : String) :
    (CommandLine.runOptions fuel clock directory input o).map (·.status) =
      (drive fuel (Session.new o.config clock) [] (greeting CommandLine.banner).reverse
        (CommandLine.inputLines input.toList)).map fun _ => 0 := by
  have hcommand : o.command = none := by
    unfold CommandLine.Options.isInteractive at h
    exact Option.isNone_iff_eq_none.mp (Bool.and_elim_left h)
  unfold CommandLine.runOptions
  rw [hcommand, h]
  dsimp only
  rw [if_pos rfl, Option.map_map]
  rfl

/-- The input is split faithfully. Lines split in one way into commands, finished lines and, at the
end, unfinished ones. Every line is answered once, where it stands: those in front of the last of a
group are waited with, and the last leads to what the group asks for. It makes no difference
whether the lines that wait are kept as lines or as one text that is empty if there are none.

A session that is driven with the lines does what the groups ask for, up to a command to quit, and
is asked itself to submit the text of each group that is finished and not blank and to start over
for each command to do so, and for nothing else. However the submissions end, as long as they do, so
does the program, with status zero. -/
theorem input_split_faithfully (lines : List String) :
    ∃ groups, Splits lines groups ∧ (∀ others, Splits lines others → others = groups) ∧
      actions step [] lines = groups.flatMap answers ∧
      actions stepText "" lines = groups.flatMap answers ∧
      (∀ fuel s shown, drive fuel s [] shown lines =
        (handleAll fuel s (requests groups)).map fun r => shown.reverse ++ r.2) ∧
      (∀ fuel s, (handleAll fuel s (requests groups)).map (·.1) =
        (Engine.standard.performAll fuel s ((requests groups).filterMap Action.call?)).map (·.2)) ∧
      ∀ fuel clock directory input (o : CommandLine.Options), o.isInteractive = true →
        CommandLine.inputLines input.toList = lines →
        (CommandLine.runOptions fuel clock directory input o).map (·.status) =
          (Engine.standard.performAll fuel (Session.new o.config clock)
            ((requests groups).filterMap Action.call?)).map fun _ => 0 := by
  obtain ⟨groups, hsplits, hanswers⟩ := exists_splits unfinished_nil lines
  have hdrive : ∀ fuel s shown, drive fuel s [] shown lines =
      (handleAll fuel s (requests groups)).map fun r => shown.reverse ++ r.2 := by
    intro fuel s shown
    rw [drive_eq_handleAll, ← handleAll_answers, ← hanswers]
    rfl
  refine ⟨groups, hsplits, fun others => hsplits.unique, hanswers, ?_, hdrive,
    fun fuel s => handleAll_session fuel s _, ?_⟩
  · exact (actions_stepText unfinished_nil lines).trans hanswers
  · intro fuel clock directory input o ho hlines
    have hcalls := congrArg (Option.map fun _ => 0)
      (handleAll_session fuel (Session.new o.config clock) (requests groups))
    rw [Option.map_map, Option.map_map] at hcalls
    rw [runOptions_status ho, hlines, hdrive, Option.map_map]
    exact hcalls

/-- The groups of an input in which parentheses and a string are closed on a later line, the string
behind what looks like a command, and lines follow a command to quit. -/
def groupedLines : List (List String) :=
  [["print (\"a\"", "+ \"b\")"], [""], [":env"], ["print \"a", ":quit", "b\""], [":reset"],
    [" :exit"], ["print ("]]

/-- Two groups are submitted, one command starts over, and the rest does not reach the session. -/
theorem groupedLines_faithfully :
    CommandLine.inputLines ("\n".intercalate groupedLines.flatten).toList = groupedLines.flatten ∧
      Splits groupedLines.flatten groupedLines ∧
      (requests groupedLines).filterMap Action.call? =
        [.submit "print (\"a\"\n+ \"b\")", .submit "print \"a\n:quit\nb\"", .reset] ∧
      (CommandLine.runOptions 60 (fun _ => 0) ⟨[]⟩ ("\n".intercalate groupedLines.flatten)
        .none).map (·.status) = some 0 := by
  have hlines : CommandLine.inputLines ("\n".intercalate groupedLines.flatten).toList =
      groupedLines.flatten := by
    decide +kernel
  have hsplits : Splits groupedLines.flatten groupedLines :=
    .group (.inr ⟨["print (\"a\""], "+ \"b\")", rfl, by decide +kernel, by decide +kernel⟩) <|
    .group (.inr ⟨[], "", rfl, by decide +kernel, by decide +kernel⟩) <|
    .group (.inl ⟨":env", rfl, by decide +kernel⟩) <|
    .group (.inr ⟨["print \"a", ":quit"], "b\"", rfl, by decide +kernel, by decide +kernel⟩) <|
    .group (.inl ⟨":reset", rfl, by decide +kernel⟩) <|
    .group (.inl ⟨" :exit", rfl, by decide +kernel⟩) <|
    .unfinished (by decide) (by decide +kernel)
  have hrequests : requests groupedLines =
      [.submit "print (\"a\"\n+ \"b\")", .wait, .perform .bindings,
        .submit "print \"a\n:quit\nb\"", .perform .reset] := by
    decide +kernel
  have hcalls : (requests groupedLines).filterMap Action.call? =
      [.submit "print (\"a\"\n+ \"b\")", .submit "print \"a\n:quit\nb\"", .reset] := by
    rw [hrequests]
    rfl
  obtain ⟨groups, -, hunique, -, -, -, -, hstatus⟩ :=
    input_split_faithfully groupedLines.flatten
  obtain rfl := hunique _ hsplits
  refine ⟨hlines, hsplits, hcalls, ?_⟩
  rw [hstatus _ _ _ _ _ rfl hlines, hcalls]
  decide +kernel

end Scripting.Repl
