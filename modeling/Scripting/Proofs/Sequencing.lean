/-
Programs run statement by statement.

A program is started with all its statements in one frame, and between two of them the machine is
where it would be if it were started on the rest in the world that has come about. So the run of a
program is made up of the runs of its statements, each by itself. A statement of a program ends
normally or with an error: with nothing around it, it has nothing to leave. An error passes the
frame by, and with it the statements that are left in it.

From this come the two facts of the file. Statements put one list after the other run like the
first list and then, if no error has stopped it, the second. And a program fails exactly if one
of its statements fails after those before it have run to their ends; what the failing statement
leaves behind is what the program leaves behind.
-/
import Scripting.Proofs.Names
import Scripting.Proofs.Safety

set_option autoImplicit false

namespace Scripting

open Grammar

namespace Machine

/-! ## Runs that end -/

/-- The run of the machine comes to an end with this answer and this world. -/
def EndsIn (m : Machine) (a : Answer) (w : World) : Prop := ∃ n, m.run n = reply a [] w

section EndsIn

variable {m : Machine} {a b : Answer} {w w' : World}

theorem eq_reply_of_result? (h : m.result? = some a) : m = reply a [] m.world := by
  have hreply := onTop_of_result? h []
  rwa [onTop, List.append_nil] at hreply

theorem endsIn_of_result? {n : Nat} (h : (m.run n).result? = some a) :
    m.EndsIn a (m.run n).world :=
  ⟨n, eq_reply_of_result? h⟩

/-- It does not matter from where on a run is looked at. -/
theorem endsIn_run_iff (n : Nat) : (m.run n).EndsIn a w ↔ m.EndsIn a w := by
  constructor
  · rintro ⟨k, hk⟩
    refine ⟨n + k, ?_⟩
    rw [run_add, hk]
  · rintro ⟨k, hk⟩
    refine ⟨k, ?_⟩
    -- More steps than it takes do no harm, so it does not matter which are taken first.
    rw [← run_add, Nat.add_comm, run_add, hk]
    exact run_of_result? rfl n

theorem endsIn_step_iff : m.step.EndsIn a w ↔ m.EndsIn a w := by
  have hone : m.run 1 = m.step := run_succ m 0
  rw [← hone]
  exact endsIn_run_iff 1

theorem endsIn_reply_iff : (reply b [] w').EndsIn a w ↔ a = b ∧ w = w' := by
  constructor
  · rintro ⟨n, hn⟩
    rw [run_of_result? (a := b) rfl] at hn
    cases hn
    exact ⟨rfl, rfl⟩
  · rintro ⟨rfl, rfl⟩
    exact ⟨0, rfl⟩

/-- A run ends in one way only. -/
theorem EndsIn.unique (h : m.EndsIn a w) (h' : m.EndsIn b w') : a = b ∧ w = w' := by
  obtain ⟨n, hn⟩ := h'
  rw [← endsIn_run_iff n, hn] at h
  exact endsIn_reply_iff.mp h

/-- A run over other frames in which no values wait ends as these do with its answer. -/
theorem endsIn_onTop_iff {base : List Frame} (hbase : base.flatMap (·.values) = []) :
    (m.onTop base).EndsIn a w ↔ ∃ b w', m.EndsIn b w' ∧ (reply b base w').EndsIn a w := by
  constructor
  · rintro ⟨k, hk⟩
    rcases run_onTop_cases hbase m k with hreach | ⟨i, -, b, -, hb, hrun⟩
    · -- The machine has used up all frames, so there are none below.
      rw [hreach k (Nat.le_refl k)] at hk
      obtain ⟨hframes, rfl⟩ := List.append_eq_nil_iff.mp (congrArg Machine.frames hk)
      rw [onTop, List.append_nil] at hk
      exact ⟨a, w, ⟨k, hk⟩, endsIn_reply_iff.mpr ⟨rfl, rfl⟩⟩
    · exact ⟨b, _, endsIn_of_result? hb, k - i, hrun.symm.trans hk⟩
  · rintro ⟨b, w', ⟨n, hn⟩, hbelow⟩
    rw [← endsIn_run_iff n]
    rcases run_onTop_cases hbase m n with hreach | ⟨i, hi, b', -, hb, hrun⟩
    · rw [hreach n (Nat.le_refl n), hn]
      exact hbelow
    · -- The answer was handed down earlier, and the frames below have gone on with it.
      rw [← run_of_le hb (Nat.le_of_lt hi), hn] at hrun
      rw [← run_of_le hb (Nat.le_of_lt hi), hn] at hb
      cases hb
      rw [hrun]
      exact (endsIn_run_iff (n - i)).mpr hbelow

/-- With nothing around it, a program or a statement ends normally or with an error, and the
functions that are bound then may be called. -/
theorem Placed.endsIn (h : m.Placed (.flow .outermost)) (hend : m.EndsIn a w) :
    (a = .flow .normal ∨ ∃ e, a = .error e) ∧ w.store.Canonical := by
  obtain ⟨n, hn⟩ := hend
  have hplaced := h.run n
  rw [hn] at hplaced
  refine ⟨?_, hplaced.functions.bound⟩
  rcases (hplaced.result rfl).cases with ⟨f, rfl, hf⟩ | herror
  · rw [Flow.eq_normal hf]
    exact .inl rfl
  · exact .inr herror

end EndsIn

/-! ## One statement after the other -/

/-- The machine that runs one statement of a program by itself. -/
def ofStatement (stmt : Stmt) (echo : Bool) (scope : ScopeId) (world : World) : Machine :=
  match echo, stmt with
  | true, .expression e _ => begin e scope [.echoing] world
  | _, _ => ⟨.execute stmt scope, [], world⟩

/-- The machine between two statements of a program. -/
def between (remaining : List Stmt) (echo : Bool) (scope : ScopeId) (world : World) : Machine :=
  reply (.flow .normal) [.program remaining echo scope] world

section Statements

variable {stmt : Stmt} {xs ys : List Stmt} {echo : Bool} {s : ScopeId} {a : Answer}
  {w w' w'' : World}

theorem step_between_cons (stmt : Stmt) (rest : List Stmt) (echo : Bool) (s : ScopeId) (w : World) :
    (between (stmt :: rest) echo s w).step
      = (ofStatement stmt echo s w).onTop [.program rest echo s] := by
  cases echo <;> cases stmt <;> rfl

theorem ofStatement_placed (hw : w.store.Canonical) (hstmt : stmt.Canonical .outermost)
    (echo : Bool) (s : ScopeId) : (ofStatement stmt echo s w).Placed (.flow .outermost) := by
  unfold ofStatement
  split
  · next e p =>
    exact ⟨⟨.value, trivial, .cons (.echoing .outermost) .nil⟩,
      allFunctions_of_bound rfl (List.forall_mem_singleton.mpr rfl) hw⟩
  · exact execute_placed hw hstmt s

theorem between_placed (hw : w.store.Canonical) (hxs : ∀ x ∈ xs, x.Canonical .outermost)
    (echo : Bool) (s : ScopeId) : (between xs echo s w).Placed (.flow .outermost) where
  fits := ⟨.flow .outermost, trivial, .cons (.program echo s (Stmt.allCanonical_iff.mpr hxs)) .nil⟩
  functions := allFunctions_of_bound rfl (List.forall_mem_singleton.mpr rfl) hw

theorem endsIn_between_nil : (between [] echo s w).EndsIn a w' ↔ a = .flow .normal ∧ w' = w := by
  rw [← endsIn_step_iff]
  exact endsIn_reply_iff

/-- A program fails with its first statement, or goes on with the rest where that has ended. -/
theorem endsIn_between_cons (hw : w.store.Canonical) (hstmt : stmt.Canonical .outermost) :
    (between (stmt :: xs) echo s w).EndsIn a w'' ↔
      (∃ e, a = .error e ∧ (ofStatement stmt echo s w).EndsIn (.error e) w'') ∨
        ∃ w', (ofStatement stmt echo s w).EndsIn (.flow .normal) w' ∧
          (between xs echo s w').EndsIn a w'' := by
  rw [← endsIn_step_iff, step_between_cons, endsIn_onTop_iff rfl]
  constructor
  · rintro ⟨b, w', hstatement, hrest⟩
    rcases ((ofStatement_placed hw hstmt echo s).endsIn hstatement).1 with rfl | ⟨e, rfl⟩
    · exact .inr ⟨w', hstatement, hrest⟩
    · rw [← endsIn_step_iff] at hrest
      obtain ⟨rfl, rfl⟩ := endsIn_reply_iff.mp hrest
      exact .inl ⟨e, rfl, hstatement⟩
  · rintro (⟨e, rfl, hstatement⟩ | ⟨w', hstatement, hrest⟩)
    · exact ⟨.error e, w'', hstatement, endsIn_step_iff.mp (endsIn_reply_iff.mpr ⟨rfl, rfl⟩)⟩
    · exact ⟨.flow .normal, w', hstatement, hrest⟩

/-- **Statements after statements.** -/
theorem endsIn_between_append (hw : w.store.Canonical) (hxs : ∀ x ∈ xs, x.Canonical .outermost) :
    (between (xs ++ ys) echo s w).EndsIn a w'' ↔
      (∃ e, a = .error e ∧ (between xs echo s w).EndsIn (.error e) w'') ∨
        ∃ w', (between xs echo s w).EndsIn (.flow .normal) w' ∧
          (between ys echo s w').EndsIn a w'' := by
  -- The world is not fixed: each statement hands a new one on to those after it.
  induction xs generalizing w with
  | nil => simp [endsIn_between_nil]
  | cons x xs ih =>
    obtain ⟨hx, hrest⟩ := List.forall_mem_cons.mp hxs
    have hgo := fun {w' : World} (h : (ofStatement x echo s w).EndsIn (.flow .normal) w') =>
      ih ((ofStatement_placed hw hx echo s).endsIn h).2 hrest
    rw [List.cons_append, endsIn_between_cons hw hx]
    constructor
    · rintro (⟨e, rfl, hone⟩ | ⟨w₁, hone, hmore⟩)
      · exact .inl ⟨e, rfl, (endsIn_between_cons hw hx).mpr (.inl ⟨e, rfl, hone⟩)⟩
      · rcases (hgo hone).mp hmore with ⟨e, rfl, hfail⟩ | ⟨w', hall, hys⟩
        · exact .inl ⟨e, rfl, (endsIn_between_cons hw hx).mpr (.inr ⟨w₁, hone, hfail⟩)⟩
        · exact .inr ⟨w', (endsIn_between_cons hw hx).mpr (.inr ⟨w₁, hone, hall⟩), hys⟩
    · rintro (⟨e, rfl, hfail⟩ | ⟨w', hall, hys⟩)
      · rcases (endsIn_between_cons hw hx).mp hfail with ⟨_, heq, hone⟩ | ⟨w₁, hone, hmore⟩
        · cases heq
          exact .inl ⟨e, rfl, hone⟩
        · exact .inr ⟨w₁, hone, (hgo hone).mpr (.inl ⟨e, rfl, hmore⟩)⟩
      · rcases (endsIn_between_cons hw hx).mp hall with ⟨_, heq, -⟩ | ⟨w₁, hone, hmore⟩
        · cases heq
        · exact .inr ⟨w₁, hone, (hgo hone).mpr (.inr ⟨w', hmore, hys⟩)⟩

/-- **Failing statements.** A program fails exactly if one of its statements does, in the world that
those before it have led to; and it ends in the world that the failing statement has led to. -/
theorem endsIn_between_error_iff (hw : w.store.Canonical)
    (hxs : ∀ x ∈ xs, x.Canonical .outermost) {e : RuntimeError} :
    (between xs echo s w).EndsIn (.error e) w'' ↔
      ∃ before stmt after w', xs = before ++ stmt :: after ∧
        (between before echo s w).EndsIn (.flow .normal) w' ∧
        (ofStatement stmt echo s w').EndsIn (.error e) w'' := by
  constructor
  · intro h
    induction xs generalizing w with
    | nil => cases (endsIn_between_nil.mp h).1
    | cons x xs ih =>
      obtain ⟨hx, hrest⟩ := List.forall_mem_cons.mp hxs
      rcases (endsIn_between_cons hw hx).mp h with ⟨_, heq, hone⟩ | ⟨w₁, hone, hmore⟩
      · cases heq
        exact ⟨[], x, xs, w, rfl, endsIn_between_nil.mpr ⟨rfl, rfl⟩, hone⟩
      · obtain ⟨before, stmt, after, w', rfl, hbefore, hfail⟩ :=
          ih ((ofStatement_placed hw hx echo s).endsIn hone).2 hrest hmore
        exact ⟨x :: before, stmt, after, w', rfl,
          (endsIn_between_cons hw hx).mpr (.inr ⟨w₁, hone, hbefore⟩), hfail⟩
  · rintro ⟨before, stmt, after, w', rfl, hbefore, hfail⟩
    obtain ⟨hearlier, hlater⟩ := List.forall_mem_append.mp hxs
    have hplaced := between_placed hw hearlier echo s
    -- What stands after the failing statement is not looked at.
    rw [endsIn_between_append hw hearlier]
    refine .inr ⟨w', hbefore, ?_⟩
    exact (endsIn_between_cons (hplaced.endsIn hbefore).2 (List.forall_mem_cons.mp hlater).1).mpr
      (.inl ⟨e, rfl, hfail⟩)

end Statements

end Machine

end Scripting
