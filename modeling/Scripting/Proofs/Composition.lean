/-
Submissions compose.

Put a semicolon on a line of its own between two texts. Read as one text, they have the lexemes and
the statements of the first and then those of the second, further down. Submitted as one text they
do what they do when the second is submitted after the first, unless the first fails: then the
second is not begun.

The statements of the second text stand elsewhere then, and what they say about themselves differs
by that: where they fail, and the bodies of the functions that they declare. Code that was there
before, called by them, stands where it stood. To tell the two apart a run is looked at in which
positions are *labelled*, those of the second text in one way and all others in another. Both
submissions of the second text can be read off this one run, by resolving the labels in two ways.
-/
import Scripting.Proofs.GuisedSessions
import Scripting.Proofs.Positions
import Scripting.Proofs.Seams
import Scripting.Proofs.Sequencing

set_option autoImplicit false

namespace Scripting

open Grammar

/-! ## Labelled positions -/

namespace Position

/-- The label of a place in code that was there before: its line is even. -/
def older (p : Position) : Position := ⟨2 * p.line, p.column⟩

/-- The label of a place in the text that is being run: its line is odd. -/
def newer (p : Position) : Position := ⟨2 * p.line + 1, p.column⟩

/-- The place that a label stands for, if the text that is being run stands `lines` further down. -/
def resolve (lines : Nat) (p : Position) : Position :=
  if p.line % 2 = 0 then ⟨p.line / 2, p.column⟩ else down lines ⟨p.line / 2, p.column⟩

theorem resolve_older (lines : Nat) (p : Position) : p.older.resolve lines = p := by
  simp [resolve, older]

theorem resolve_newer (lines : Nat) (p : Position) : p.newer.resolve lines = p.down lines := by
  have hline : (2 * p.line + 1) / 2 = p.line := by omega
  simp [resolve, newer, hline]

end Position

/-- The machine that runs statements in a session, with labelled positions. -/
def Session.labelled (s : Session) (statements : List Stmt) : Machine :=
  .ofProgram (statements.map (Stmt.relocate .newer)) s.config.echo s.globals
    (s.world.relocate .older [])

/-- The machine that runs a program in a session whose code is labelled as older, with the labels
resolved. -/
theorem Session.relocate_ofProgram (s : Session) (program : List Stmt) {g : Position → Position}
    (hg : ∀ p, g p.older = p) (earlier : List Event) :
    (Machine.ofProgram program s.config.echo s.globals (s.world.relocate .older [])).relocate g
        earlier
      = .ofProgram (program.map (Stmt.relocate g)) s.config.echo s.globals
          { s.world with output := earlier } := by
  have hstore : (s.store.relocate .older).relocate g = s.store := Store.relocate_cancel hg s.store
  change Machine.reply (.flow .normal) [.program (program.map (Stmt.relocate g)) s.config.echo
    s.globals] { s.world with store := (s.store.relocate .older).relocate g, output := earlier } = _
  rw [hstore]
  rfl

/-- With the labels resolved it is the machine that runs the statements further down. -/
theorem Session.relocate_labelled (s : Session) (statements : List Stmt) (lines : Nat)
    (earlier : List Event) :
    (s.labelled statements).relocate (·.resolve lines) earlier
      = .ofProgram (statements.map (Stmt.relocate (·.down lines))) s.config.echo s.globals
          { s.world with output := earlier } := by
  have hstatements : (statements.map (Stmt.relocate .newer)).map (Stmt.relocate (·.resolve lines))
      = statements.map (Stmt.relocate (·.down lines)) := by
    rw [List.map_map]
    refine List.map_congr_left fun stmt _ => ?_
    rw [Function.comp_apply, Stmt.relocate_relocate]
    exact congrArg (Stmt.relocate · stmt) (funext (Position.resolve_newer lines))
  rw [← hstatements]
  exact s.relocate_ofProgram _ (Position.resolve_older lines) earlier

theorem Session.relocate_labelled_zero (s : Session) (statements : List Stmt) :
    (s.labelled statements).relocate (·.resolve 0) []
      = s.start statements := by
  have hstatements : statements.map (Stmt.relocate (·.down 0)) = statements := by
    rw [List.map_congr_left fun stmt _ => stmt.relocate_id, List.map_id']
  rw [s.relocate_labelled, hstatements]
  rfl

/-! ## Runs -/

/-- Nobody sets the clock. -/
theorem Machine.Changes.clock_eq {frames frames' : List Frame} {w w' : World}
    (h : Changes frames w frames' w') : w'.clock = w.clock := by
  induction h with
  | trans _ _ ih ih' => exact ih'.trans ih
  | _ => rfl

theorem Machine.endsIn_relocate_iff {m : Machine} {f : Position → Position} {earlier : List Event}
    {a : Answer} {w : World} :
    (m.relocate f earlier).EndsIn a w ↔
      ∃ b v, m.EndsIn b v ∧ reply a [] w = (reply b [] v).relocate f earlier := by
  constructor
  · rintro ⟨n, hn⟩
    rw [run_relocate] at hn
    have hresult : ((m.run n).relocate f earlier).result? = some a := congrArg result? hn
    rw [result?_relocate] at hresult
    obtain ⟨b, hb, -⟩ := Option.map_eq_some_iff.mp hresult
    refine ⟨b, _, endsIn_of_result? hb, hn.symm.trans ?_⟩
    exact congrArg (Machine.relocate f earlier) (eq_reply_of_result? hb)
  · rintro ⟨b, v, ⟨n, hn⟩, heq⟩
    refine ⟨n, ?_⟩
    rw [run_relocate, hn, heq]

/-! ## Telling in two parts -/

namespace Channel

/-- What has been told already goes before the rest. -/
theorem emitFrom_eq (c : Channel) (told : List (String × Event)) (events : List Event) :
    c.emitFrom told events = (told.reverse ++ (c.emitAll events).1, (c.emitAll events).2) := by
  unfold emitAll
  induction events generalizing c told with
  | nil => simp [emitFrom]
  | cons e es ih =>
    rw [emitFrom, emitFrom]
    dsimp only
    rw [ih, ih _ ((c.emit e).1.reverse ++ [])]
    simp

theorem emitAll_cons (c : Channel) (e : Event) (es : List Event) :
    c.emitAll (e :: es)
      = ((c.emit e).1 ++ ((c.emit e).2.emitAll es).1, ((c.emit e).2.emitAll es).2) := by
  change (c.emit e).2.emitFrom ((c.emit e).1.reverse ++ []) es = _
  rw [emitFrom_eq, List.append_nil, List.reverse_reverse]

theorem emitAll_append (c : Channel) (before after : List Event) :
    c.emitAll (before ++ after)
      = ((c.emitAll before).1 ++ ((c.emitAll before).2.emitAll after).1,
          ((c.emitAll before).2.emitAll after).2) := by
  have hfrom : ∀ (c : Channel) (told : List (String × Event)), c.emitFrom told (before ++ after)
      = (c.emitFrom told before).2.emitFrom (c.emitFrom told before).1.reverse after := by
    induction before with
    | nil => simp [emitFrom]
    | cons e es ih =>
      intro c told
      exact ih _ _
  rw [emitAll, hfrom, emitFrom_eq, List.reverse_reverse]
  rfl

end Channel

/-- The submission told some events, and then its failure if there was one. -/
def Submission.Tells (r : Submission) (told : List Event) (failure : Option Failure) : Prop :=
  r.failure = failure ∧ r.events = told ++ (failure.map Event.failure).toList

/-- The submission after another one, as one submission. -/
def Submission.followedBy (r r' : Submission) : Submission :=
  { r' with events := r.events ++ r'.events, heard := r.heard ++ r'.heard }

namespace Session

/-- Telling some events first and then the others. -/
theorem conclude_append (s : Session) (before after : List Event) (failure : Option Failure) :
    s.conclude (before ++ after) failure
      = (s.conclude before none).followedBy
          ((s.conclude before none).session.conclude after failure) := by
  unfold conclude
  dsimp only [Option.map_none, Option.toList_none]
  rw [List.append_nil, List.append_assoc, Channel.emitAll_append]
  rfl

/-- What a machine tells comes after what was told before it started. -/
theorem complete_relocate (s : Session) (w : World) (f : Position → Position) (m : Machine) :
    let r := s.complete (Machine.reply (.flow .normal) [] w)
    s.complete (m.relocate f w.output) = r.followedBy (r.session.complete (m.relocate f [])) := by
  intro r
  have htold : (m.relocate f w.output).world.output.reverse
      = w.output.reverse ++ (m.relocate f []).world.output.reverse := by
    change (m.world.output ++ w.output).reverse = w.output.reverse ++ (m.world.output ++ []).reverse
    rw [List.append_nil, List.reverse_append]
  rw [complete, htold, conclude_append]
  rfl

/-! ## Submissions that end -/

/-- The submission ends, and this is what it leads to. -/
def LeadsTo (s : Session) (source : String) (r : Submission) : Prop :=
  ∃ fuel, s.submit fuel source = some r

variable {s : Session} {source : String} {ls : List Lexeme} {statements : List Stmt}
  {r : Submission}

theorem leadsTo_iff (hlex : tokenize source = .ok ls) (hparse : parse ls = .ok statements) :
    s.LeadsTo source r ↔
      ∃ a w, (s.start statements).EndsIn a w ∧ r = s.complete (Machine.reply a [] w) := by
  have hbegin : s.begin source = .ok (s.start statements) := by
    rw [begin, read, hlex]
    dsimp only
    rw [hparse]
    rfl
  constructor
  · rintro ⟨fuel, h⟩
    rcases submit_eq_some h with ⟨f, herror, -⟩ | ⟨m, a, hm, ha, rfl⟩
    · rw [hbegin] at herror
      cases herror
    · rw [hbegin] at hm
      cases hm
      exact ⟨a, _, Machine.endsIn_of_result? ha,
        congrArg s.complete (Machine.eq_reply_of_result? ha)⟩
  · rintro ⟨a, w, ⟨n, hn⟩, rfl⟩
    refine ⟨n, ?_⟩
    rw [submit, hbegin]
    dsimp only
    rw [hn]
    rfl

/-- A text is read in two stages. -/
theorem exists_lexemes (h : read source = .ok statements) :
    ∃ ls, tokenize source = .ok ls ∧ parse ls = .ok statements := by
  unfold read at h
  split at h
  · cases h
  · next ls hlex =>
    split at h
    · cases h
    · next hparse =>
      cases h
      exact ⟨ls, hlex, hparse⟩

theorem leadsTo_of_read (h : read source = .ok statements) :
    s.LeadsTo source r ↔
      ∃ a w, (s.start statements).EndsIn a w ∧ r = s.complete (Machine.reply a [] w) := by
  obtain ⟨ls, hlex, hparse⟩ := exists_lexemes h
  exact leadsTo_iff hlex hparse

theorem leadsTo_of_read_error {f : Failure} (h : read source = .error f) :
    s.LeadsTo source r ↔ r = s.conclude [] (some f) := by
  have hsubmit : ∀ fuel, s.submit fuel source = some (s.conclude [] (some f)) := by
    intro fuel
    rw [submit, begin, h]
    rfl
  simp [LeadsTo, hsubmit, eq_comm]

/-- A submission leads to one thing only. -/
theorem LeadsTo.unique (hlex : tokenize source = .ok ls) (hparse : parse ls = .ok statements)
    {r' : Submission} (h : s.LeadsTo source r) (h' : s.LeadsTo source r') : r = r' := by
  obtain ⟨a, w, hend, rfl⟩ := (leadsTo_iff hlex hparse).mp h
  obtain ⟨a', w', hend', rfl⟩ := (leadsTo_iff hlex hparse).mp h'
  obtain ⟨rfl, rfl⟩ := hend.unique hend'
  rfl

/-- A submission that ends has failed or run to its end. -/
theorem LeadsTo.cases (hs : s.store.Canonical) (hlex : tokenize source = .ok ls)
    (hparse : parse ls = .ok statements) (h : s.LeadsTo source r) :
    (∃ e w, (s.start statements).EndsIn (.error e) w ∧
        r = s.complete (Machine.reply (.error e) [] w)) ∨
      ∃ w, (s.start statements).EndsIn (.flow .normal) w ∧
        r = s.complete (Machine.reply (.flow .normal) [] w) := by
  obtain ⟨a, w, hend, rfl⟩ := (leadsTo_iff hlex hparse).mp h
  have hplaced : (s.start statements).Placed (.flow .outermost) :=
    Machine.ofProgram_placed hs (canonical_of_parse hparse) s.config.echo s.globals
  rcases (hplaced.endsIn hend).1 with rfl | ⟨e, rfl⟩
  · exact .inr ⟨w, hend, rfl⟩
  · exact .inl ⟨e, w, hend, rfl⟩

/-- A run leaves the clock, the limit and the counter of calls as they are between submissions. -/
theorem world_of_endsIn {a : Answer} {w : World} (h : (s.start statements).EndsIn a w) :
    w = { (s.complete (Machine.reply a [] w)).session.world with output := w.output } := by
  obtain ⟨n, hn⟩ := h
  have hbalanced : ((s.start statements).run n).Balanced s.config.maxCallDepth 0 :=
    (Machine.ofProgram_balanced statements s.config.echo s.globals s.world).run n
  have hclock : ((s.start statements).run n).world.clock = s.clock :=
    Machine.run_keeps (P := fun m => m.world.clock = s.clock)
      (fun m hm => m.step_changes.clock_eq.trans hm) rfl n
  rw [hn] at hbalanced hclock
  -- The store and the readings go into the session, and the rest of the world is made from it anew.
  have hdepth : w.callDepth = 0 := hbalanced.callDepth_eq rfl
  have hlimit : w.maxCallDepth = s.config.maxCallDepth := hbalanced.limited
  obtain ⟨store, depth, limit, output, clock, readings⟩ := w
  cases hdepth
  cases hlimit
  cases hclock
  rfl

/-- A submission fails exactly if one of its statements does, where those before it have got to; and
what is left behind then is what the failing statement leaves behind. -/
theorem leadsTo_failing_iff (hs : s.store.Canonical) (hlex : tokenize source = .ok ls)
    (hparse : parse ls = .ok statements) {e : RuntimeError} :
    s.LeadsTo source r ∧ r.failure = some (.runtime e) ↔
      ∃ before stmt after w w', statements = before ++ stmt :: after ∧
        (s.start before).EndsIn (.flow .normal) w ∧
        (Machine.ofStatement stmt s.config.echo s.globals w).EndsIn (.error e) w' ∧
        r = s.complete (Machine.reply (.error e) [] w') := by
  have hcanonical := canonical_of_parse hparse
  constructor
  · rintro ⟨hlead, hfailure⟩
    rcases hlead.cases hs hlex hparse with ⟨e', w', hend, rfl⟩ | ⟨w', -, rfl⟩
    · cases hfailure
      obtain ⟨before, stmt, after, w, hsplit, hbefore, hfail⟩ :=
        (Machine.endsIn_between_error_iff (w := s.world) hs hcanonical).mp hend
      exact ⟨before, stmt, after, w, w', hsplit, hbefore, hfail, rfl⟩
    · cases hfailure
  · rintro ⟨before, stmt, after, w, w', hsplit, hbefore, hfail, rfl⟩
    refine ⟨(leadsTo_iff hlex hparse).mpr ⟨.error e, w', ?_, rfl⟩, rfl⟩
    exact (Machine.endsIn_between_error_iff (w := s.world) hs hcanonical).mpr
      ⟨before, stmt, after, w, hsplit, hbefore, hfail⟩

/-! ## The same submission further down -/

/-- Two submissions of the same statements to the same session, the second of them with the text
standing `lines` further down. Both are read off one run with labelled positions. -/
def Shifted (s : Session) (statements : List Stmt) (lines : Nat) (r r' : Submission) : Prop :=
  ∃ a w, (s.labelled statements).EndsIn a w ∧
    r = s.complete ((Machine.reply a [] w).relocate (·.resolve 0) []) ∧
    r' = s.complete ((Machine.reply a [] w).relocate (·.resolve lines) [])

theorem exists_shifted (hlex : tokenize source = .ok ls) (hparse : parse ls = .ok statements)
    (lines : Nat) (h : s.LeadsTo source r) : ∃ r', s.Shifted statements lines r r' := by
  obtain ⟨a, w, hend, rfl⟩ := (leadsTo_iff hlex hparse).mp h
  -- The run of the text is the labelled one with every label resolved to where the text stands.
  rw [← s.relocate_labelled_zero, Machine.endsIn_relocate_iff] at hend
  obtain ⟨b, v, hlabelled, heq⟩ := hend
  exact ⟨_, b, v, hlabelled, congrArg s.complete heq, rfl⟩

/-- Submitting the text where it stands leads to the first of the two. -/
theorem Shifted.leadsTo (hlex : tokenize source = .ok ls) (hparse : parse ls = .ok statements)
    {lines : Nat} {r' : Submission} (h : s.Shifted statements lines r r') : s.LeadsTo source r := by
  obtain ⟨a, w, hlabelled, rfl, -⟩ := h
  rw [leadsTo_iff hlex hparse, ← s.relocate_labelled_zero]
  refine ⟨a.relocate (·.resolve 0), w.relocate (·.resolve 0) [], ?_, rfl⟩
  exact Machine.endsIn_relocate_iff.mpr ⟨a, w, hlabelled, rfl⟩

/-- The same is told, and the failure is the same, at the place that the same label stands for. -/
theorem Shifted.tells {lines : Nat} {r' : Submission} (h : s.Shifted statements lines r r') :
    ∃ (told : List Event) (failure : Option RuntimeError),
      r.Tells told (failure.map fun e => .runtime (e.relocate (·.resolve 0))) ∧
        r'.Tells told (failure.map fun e => .runtime (e.relocate (·.resolve lines))) := by
  obtain ⟨a, w, -, rfl, rfl⟩ := h
  cases a with
  | error e =>
    have hreply : ∀ f, (Machine.reply (.error e) [] w).relocate f []
        = Machine.reply (.error (e.relocate f)) [] (w.relocate f []) := by
      intro f
      rw [Machine.relocate_reply, Answer.relocate_error]
    rw [hreply, hreply]
    refine ⟨w.output.reverse, some e, ⟨rfl, ?_⟩, rfl, ?_⟩ <;>
      exact congrArg (·.reverse ++ _) (List.append_nil w.output)
  | _ =>
    refine ⟨w.output.reverse, none, ⟨rfl, ?_⟩, rfl, ?_⟩ <;>
      exact congrArg (·.reverse ++ _) (List.append_nil w.output)

/-- Where the code of functions stands is not seen when global values are printed. -/
theorem shownGlobals_relocate (s : Session) (f : Position → Position) :
    { s with store := s.store.relocate f }.shownGlobals = s.shownGlobals := by
  have hsession : (Guise.elsewhere f []).session s = { s with store := s.store.relocate f } := rfl
  rw [← hsession]
  exact Guise.shownGlobals_session _ s rfl

/-- The global names are the same, and so are their values as they are printed. -/
theorem Shifted.shownGlobals {lines : Nat} {r' : Submission} (h : s.Shifted statements lines r r') :
    r'.session.shownGlobals = r.session.shownGlobals := by
  obtain ⟨a, w, -, rfl, rfl⟩ := h
  have hshown : ∀ f : Position → Position,
      (s.complete ((Machine.reply a [] w).relocate f [])).session.shownGlobals
        = { s with store := w.store }.shownGlobals :=
    shownGlobals_relocate { s with store := w.store }
  rw [hshown, hshown]

/-! ## Two texts as one -/

section Joined

variable {first second : String} {ls' : List Lexeme} {statements' : List Stmt}
  {r₁ r₂ r₂' : Submission}

/-- Where the first text has run to its end, the machine goes on as the labelled one does. -/
theorem between_of_endsIn {w : World} (h : (s.start statements).EndsIn (.flow .normal) w)
    (lines : Nat) :
    Machine.between (statements'.map (Stmt.relocate (·.down lines))) s.config.echo s.globals w
      = ((s.complete (Machine.reply (.flow .normal) [] w)).session.labelled statements').relocate
          (·.resolve lines) w.output := by
  rw [relocate_labelled]
  exact congrArg (Machine.between _ _ _) (world_of_endsIn h)

/-- If the first text fails, the second is not begun. -/
theorem LeadsTo.joined_of_failure (hs : s.store.Canonical) (hlex : tokenize first = .ok ls)
    (hparse : parse ls = .ok statements) (hlex' : tokenize second = .ok ls')
    (hparse' : parse ls' = .ok statements') (h : s.LeadsTo first r) (hfailure : r.failure ≠ none) :
    s.LeadsTo (first ++ "\n;\n" ++ second) r := by
  have hjoined := parse_joined hlex hparse hlex' hparse'
  rcases h.cases hs hlex hparse with ⟨e, w, hend, rfl⟩ | ⟨w, -, rfl⟩
  · refine (leadsTo_iff (tokenize_joined hlex hparse hlex') hjoined).mpr ⟨.error e, w, ?_, rfl⟩
    exact (Machine.endsIn_between_append (w := s.world) hs (canonical_of_parse hparse)).mpr
      (.inl ⟨e, rfl, hend⟩)
  · exact absurd rfl hfailure

/-- If the first text runs to its end, the second follows. -/
theorem LeadsTo.joined (hs : s.store.Canonical) (hlex : tokenize first = .ok ls)
    (hparse : parse ls = .ok statements) (hlex' : tokenize second = .ok ls')
    (hparse' : parse ls' = .ok statements') (h : s.LeadsTo first r₁) (hnone : r₁.failure = none)
    (hshifted : r₁.session.Shifted statements' (linesBefore first) r₂ r₂') :
    s.LeadsTo (first ++ "\n;\n" ++ second) (r₁.followedBy r₂') := by
  have hjoined := parse_joined hlex hparse hlex' hparse'
  rcases h.cases hs hlex hparse with ⟨e, w, -, rfl⟩ | ⟨w, hend, rfl⟩
  · cases hnone
  · obtain ⟨b, v, hlabelled, -, rfl⟩ := hshifted
    refine (leadsTo_iff (tokenize_joined hlex hparse hlex') hjoined).mpr
      ⟨b.relocate (·.resolve (linesBefore first)),
        v.relocate (·.resolve (linesBefore first)) w.output, ?_, ?_⟩
    · refine (Machine.endsIn_between_append (w := s.world) hs (canonical_of_parse hparse)).mpr
        (.inr ⟨w, hend, ?_⟩)
      rw [between_of_endsIn hend]
      exact Machine.endsIn_relocate_iff.mpr ⟨b, v, hlabelled, rfl⟩
    · exact (s.complete_relocate w _ (Machine.reply b [] v)).symm

/-- Nothing else can come of the two texts. -/
theorem LeadsTo.of_joined (hs : s.store.Canonical) (hlex : tokenize first = .ok ls)
    (hparse : parse ls = .ok statements) (hlex' : tokenize second = .ok ls')
    (hparse' : parse ls' = .ok statements') (h : s.LeadsTo (first ++ "\n;\n" ++ second) r) :
    (s.LeadsTo first r ∧ r.failure ≠ none) ∨
      ∃ r₁ r₂ r₂', s.LeadsTo first r₁ ∧ r₁.failure = none ∧
        r₁.session.Shifted statements' (linesBefore first) r₂ r₂' ∧ r = r₁.followedBy r₂' := by
  have hjoined := parse_joined hlex hparse hlex' hparse'
  obtain ⟨a, w'', hend, rfl⟩ := (leadsTo_iff (tokenize_joined hlex hparse hlex') hjoined).mp h
  rcases (Machine.endsIn_between_append (w := s.world) hs (canonical_of_parse hparse)).mp hend with
    ⟨e, rfl, hfirst⟩ | ⟨w, hfirst, hsecond⟩
  · exact .inl ⟨(leadsTo_iff hlex hparse).mpr ⟨_, _, hfirst, rfl⟩, nofun⟩
  · right
    -- What follows is a labelled run, and this says what the second text leads to by itself.
    rw [between_of_endsIn hfirst, Machine.endsIn_relocate_iff] at hsecond
    obtain ⟨b, v, hlabelled, heq⟩ := hsecond
    refine ⟨_, _, _, (leadsTo_iff hlex hparse).mpr ⟨_, _, hfirst, rfl⟩, rfl,
      ⟨b, v, hlabelled, rfl, rfl⟩, ?_⟩
    rw [heq]
    exact s.complete_relocate w _ (Machine.reply b [] v)

/-- **Submissions compose.** Take any session whose functions have bodies that the grammar can have
read, as those of every session that can be reached have, and any two texts that can be read. With a
semicolon on a line of its own between them they are read as one text, with the lexemes and the
statements of the first and then those of the second, moved down by as many lines as are before it.
If the first text fails, the one text leads to exactly what the first leads to. If the first runs to
its end, the one text leads to what submitting the first and then the second leads to, but for the
second standing further down: the same is told, the same failure ends it, and the global names have
the same values. Nothing else can come of the one text. And what fails in a submission is one of its
statements, in the world that those before it have led to, and what the submission leads to depends
on none after it. -/
theorem submissions_compose (hs : s.store.Canonical) (hlex : tokenize first = .ok ls)
    (hparse : parse ls = .ok statements) (hlex' : tokenize second = .ok ls')
    (hparse' : parse ls' = .ok statements') :
    let lines := linesBefore first
    let joined := first ++ "\n;\n" ++ second
    let lexemes := ls.dropLast ++ seam first :: ls'.map (·.relocate (·.down lines))
    tokenize joined = .ok lexemes ∧
      parse lexemes = .ok (statements ++ statements'.map (·.relocate (·.down lines))) ∧
      (∀ r, s.LeadsTo first r → r.failure ≠ none → s.LeadsTo joined r) ∧
      (∀ r₁ r₂, s.LeadsTo first r₁ → r₁.failure = none → r₁.session.LeadsTo second r₂ →
        ∃ r₂', r₁.session.Shifted statements' lines r₂ r₂' ∧
          s.LeadsTo joined (r₁.followedBy r₂') ∧
          r₂'.session.shownGlobals = r₂.session.shownGlobals ∧
          ∃ (told : List Event) (failure : Option RuntimeError),
            r₂.Tells told (failure.map fun e => .runtime (e.relocate (·.resolve 0))) ∧
              r₂'.Tells told (failure.map fun e => .runtime (e.relocate (·.resolve lines)))) ∧
      (∀ r, s.LeadsTo joined r →
        (s.LeadsTo first r ∧ r.failure ≠ none) ∨
          ∃ r₁ r₂ r₂', s.LeadsTo first r₁ ∧ r₁.failure = none ∧ r₁.session.LeadsTo second r₂ ∧
            r₁.session.Shifted statements' lines r₂ r₂' ∧ r = r₁.followedBy r₂') ∧
      ∀ r e, s.LeadsTo first r ∧ r.failure = some (.runtime e) ↔
        ∃ before stmt after w w', statements = before ++ stmt :: after ∧
          (s.start before).EndsIn (.flow .normal) w ∧
          (Machine.ofStatement stmt s.config.echo s.globals w).EndsIn (.error e) w' ∧
          r = s.complete (Machine.reply (.error e) [] w') := by
  intro lines joined lexemes
  refine ⟨tokenize_joined hlex hparse hlex', parse_joined hlex hparse hlex' hparse',
    fun r h => h.joined_of_failure hs hlex hparse hlex' hparse', fun r₁ r₂ h hnone hsecond => ?_,
    fun r h => ?_, fun r e => leadsTo_failing_iff hs hlex hparse⟩
  · obtain ⟨r₂', hshifted⟩ := exists_shifted hlex' hparse' lines hsecond
    exact ⟨r₂', hshifted, h.joined hs hlex hparse hlex' hparse' hnone hshifted,
      hshifted.shownGlobals, hshifted.tells⟩
  · rcases h.of_joined hs hlex hparse hlex' hparse' with hfailed |
      ⟨r₁, r₂, r₂', hfirst, hnone, hshifted, heq⟩
    · exact .inl hfailed
    · exact .inr ⟨r₁, r₂, r₂', hfirst, hnone, hshifted.leadsTo hlex' hparse', hshifted, heq⟩

end Joined

/-- In a session with a function `f`, the second text calls it, and then fails in a line of its own.
As part of one text it fails three lines further down. -/
theorem submissions_compose_undefined :
    ∃ (s : Session) (r₁ r₂ r₂' : Submission), s.store.Canonical ∧ s.LeadsTo "let a = 1\n" r₁ ∧
      r₁.session.LeadsTo "a = f()\nb" r₂ ∧
      r₂.failure = some (.runtime ⟨.undefinedVariable "b", ⟨2, 1⟩⟩) ∧
      s.LeadsTo "let a = 1\n\n;\na = f()\nb" (r₁.followedBy r₂') ∧
      r₂'.failure = some (.runtime ⟨.undefinedVariable "b", ⟨5, 1⟩⟩) := by
  let new : Session := Session.new ⟨true, 4⟩ fun _ => 0
  have hruns : (new.submit 9 "fun f() \x7b return 2 \x7d").any (fun r₀ =>
      (r₀.session.submit 20 "let a = 1\n").any (fun r₁ => r₁.failure.isNone &&
        (r₁.session.submit 60 "a = f()\nb").any fun r₂ =>
          decide (r₂.failure = some (.runtime ⟨.undefinedVariable "b", ⟨2, 1⟩⟩))) &&
      (r₀.session.submit 90 "let a = 1\n\n;\na = f()\nb").any fun r =>
        decide (r.failure = some (.runtime ⟨.undefinedVariable "b", ⟨5, 1⟩⟩))) = true := by
    decide +kernel
  obtain ⟨r₀, h₀, hrest⟩ := (Option.any_eq_true _ _).mp hruns
  rw [Bool.and_eq_true] at hrest
  obtain ⟨r₁, h₁, hmore⟩ := (Option.any_eq_true _ _).mp hrest.1
  rw [Bool.and_eq_true] at hmore
  obtain ⟨r₂, h₂, hfailure⟩ := (Option.any_eq_true _ _).mp hmore.2
  obtain ⟨r, h, hfailure'⟩ := (Option.any_eq_true _ _).mp hrest.2
  have hs : r₀.session.store.Canonical := canonical_submit (canonical_new _ _) h₀
  obtain ⟨ls, statements, hlex, hparse⟩ : ∃ ls statements,
      tokenize "let a = 1\n" = .ok ls ∧ parse ls = .ok statements :=
    exists_parse (by decide +kernel)
  obtain ⟨ls', statements', hlex', hparse'⟩ : ∃ ls statements,
      tokenize "a = f()\nb" = .ok ls ∧ parse ls = .ok statements :=
    exists_parse (by decide +kernel)
  obtain ⟨htokens, hprogram, -, hjoins, -⟩ := submissions_compose hs hlex hparse hlex' hparse'
  obtain ⟨r₂', -, hjoined, -⟩ :=
    hjoins r₁ r₂ ⟨20, h₁⟩ (Option.isNone_iff_eq_none.mp hmore.1) ⟨60, h₂⟩
  refine ⟨r₀.session, r₁, r₂, r₂', hs, ⟨20, h₁⟩, ⟨60, h₂⟩, of_decide_eq_true hfailure, hjoined, ?_⟩
  rw [← of_decide_eq_true hfailure', LeadsTo.unique htokens hprogram ⟨90, h⟩ hjoined]
  rfl

end Session

end Scripting
