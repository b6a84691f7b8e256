/-
Variable names do not matter.

Programs are given other names for their variables, different names for different variables. The
names of the builtins stay, since a new session binds them, and so do the names that functions are
declared with, since they are printed. Then everything else is as it was: the programs come to
an end within the same number of steps, tell the same, and fail in the same way at the same places,
where only the name of a variable that is reported is the other one.

The session that runs the programs with other names is the session that runs the programs
as they are, in another guise. What has to be seen to is that no function is ever declared under a
name that changes. Functions may be declared by code that was submitted long ago, so this is an
invariant of sessions: every function stems from a program in which the names of functions stay.
-/
import Scripting.Proofs.GuisedSessions
import Scripting.Proofs.LayoutMeaning
import Scripting.Proofs.LexicalDepth

set_option autoImplicit false

namespace Scripting

/-! ## Other names -/

/-- The statement with other names for its variables. -/
def Stmt.rename (name : String → String) (s : Stmt) : Stmt := s.recast name id

/-- The failure with another name for the variable that it reports. -/
def Failure.rename (name : String → String) : Failure → Failure
  | .runtime ⟨.undefinedVariable x, p⟩ => .runtime ⟨.undefinedVariable (name x), p⟩
  | .runtime ⟨.undeclaredAssignment x, p⟩ => .runtime ⟨.undeclaredAssignment (name x), p⟩
  | f => f

/-- The second submission has led to the same as the first, under other names: the same was told
before the failure, the failure is the same, and the global names correspond, with values that are
printed in the same way. -/
structure Submission.Renamed (name : String → String) (r r' : Submission) : Prop where
  failure : r'.failure = r.failure.map (Failure.rename name)
  told : ∃ told, r.Tells told r.failure ∧ r'.Tells told r'.failure
  globals : r'.session.shownGlobals.Perm
    (r.session.shownGlobals.map fun entry => (name entry.1, entry.2))

/-- Run programs one after the other in a session, each with at most `fuel` steps; `none` if they
are not enough for one of them. -/
def Session.runPrograms (fuel : Nat) : Session → List (List Stmt) → Option (List Submission)
  | _, [] => some []
  | s, program :: programs =>
    (s.runProgram fuel program).bind fun r =>
      (r.session.runPrograms fuel programs).map (r :: ·)

/-! ## The names of functions -/

namespace Stmt

mutual

/-- The names that functions are declared with anywhere in a statement. -/
def functionNames : Stmt → List String
  | .block body _ => functionNamesOfEach body
  | .cond _ yes no _ => yes.functionNames ++ functionNamesIfAny no
  | .loop _ body _ => body.functionNames
  | .function f _ body _ => f :: functionNamesOfEach body
  | _ => []

/-- The second branch of a conditional. -/
def functionNamesIfAny : Option Stmt → List String
  | none => []
  | some s => s.functionNames

/-- Each of some statements. -/
def functionNamesOfEach : List Stmt → List String
  | [] => []
  | s :: ss => s.functionNames ++ functionNamesOfEach ss

end

theorem functionNames_subset_of_mem {s : Stmt} {ss : List Stmt} (h : s ∈ ss) :
    s.functionNames ⊆ functionNamesOfEach ss := by
  induction ss with
  | nil => cases h
  | cons first rest ih =>
    rw [functionNamesOfEach]
    rcases List.mem_cons.mp h with rfl | hin
    · exact List.subset_append_left _ _
    · exact List.Subset.trans (ih hin) (List.subset_append_right _ _)

end Stmt

/-- The names that functions are declared with anywhere in a program. -/
def functionNames (program : List Stmt) : List String := Stmt.functionNamesOfEach program

/-- Functions that are declared somewhere in a program are declared with one of its names. -/
theorem Within.functionNames_subset {program : List Stmt} {k : Nat} {code : Code}
    (h : Within program k code) {s : Stmt} (hs : code = .statement s) :
    s.functionNames ⊆ functionNames program := by
  induction h generalizing s with
  | outermost hmem =>
    cases hs
    exact Stmt.functionNames_subset_of_mem hmem
  | @part k code part _ hpart ih =>
    subst hs
    cases code with
    | expression e => cases e <;> simp [Code.parts] at hpart
    | statement outer =>
      have houter := ih rfl
      cases outer with
      | cond test yes no p =>
        simp only [Code.parts, List.mem_cons, reduceCtorEq, Code.statement.injEq, List.mem_map,
          Option.mem_toList, false_or, exists_eq_right] at hpart
        rw [Stmt.functionNames] at houter
        obtain ⟨hyes, hno⟩ := List.append_subset.mp houter
        rcases hpart with rfl | rfl
        · exact hyes
        · exact hno
      | loop test body p =>
        simp only [Code.parts, List.mem_cons, reduceCtorEq, Code.statement.injEq, List.not_mem_nil,
          or_false, false_or] at hpart
        rw [Stmt.functionNames] at houter
        rw [hpart]
        exact houter
      | _ => simp [Code.parts] at hpart
  | @body k code inner _ hbody ih =>
    cases hs
    cases code with
    | expression e => cases hbody
    | statement outer =>
      have houter := ih rfl
      cases outer with
      | block body p =>
        rw [Stmt.functionNames] at houter
        exact List.Subset.trans (Stmt.functionNames_subset_of_mem hbody) houter
      | function f parameters body p =>
        rw [Stmt.functionNames] at houter
        exact List.Subset.trans (Stmt.functionNames_subset_of_mem hbody)
          (List.cons_subset.mp houter).2
      | _ => cases hbody

/-- The names of functions stay. -/
def KeepsFunctions (name : String → String) (program : List Stmt) : Prop :=
  ∀ f ∈ functionNames program, name f = f

/-! ## Sessions whose functions keep their names -/

namespace Session

variable {name : String → String}

/-- The levels and the sites of the functions of a session are known, and functions keep their names
in all programs that they stem from. -/
structure Kept (name : String → String) (levels : Levels) (declared : List Site) (s : Session) :
    Prop where
  laid : Laid levels s.store
  length : declared.length = s.store.nextFunction
  functions : ∀ v, s.store.Binds v → v.Meets (Closure.DeclaredAt levels declared)
  globals : levels[s.globals]? = some (s.globals, 0)
  sites : ∀ site ∈ declared, KeepsFunctions name site.program

theorem kept_new (name : String → String) (config : Config) (clock : Nat → Float) :
    ∃ levels, (Session.new config clock).Kept name levels [] := by
  obtain ⟨⟨levels, h⟩, -⟩ := (Past.new : Past config clock _ _ _).charted
  exact ⟨levels, h.laid, h.length, h.functions, h.globals, fun _ hsite => by cases hsite⟩

namespace Kept

variable {levels : Levels} {declared : List Site} {s : Session} {program : List Stmt}

/-- Wherever the machine is at, it is in a program in which functions keep their names. -/
theorem sites_after (h : s.Kept name levels declared) (hprogram : KeepsFunctions name program)
    (n : Nat) :
    let t := (Trail.start program s.globals declared).after (s.start program) n
    KeepsFunctions name t.here.program ∧
      ∀ site ∈ t.declared, KeepsFunctions name site.program := by
  intro t
  have hfrom : t.From ((program, s.globals) ::
      declared.map fun site => (site.program, site.globals)) :=
    (Trail.from_start program s.globals fun site hsite =>
      List.mem_map_of_mem hsite).after (s.start program) n
  have hkeeps : ∀ entry ∈ (program, s.globals) ::
      declared.map (fun site => (site.program, site.globals)), KeepsFunctions name entry.1 := by
    intro entry hentry
    rcases List.mem_cons.mp hentry with rfl | hold
    · exact hprogram
    · obtain ⟨site, hsite, rfl⟩ := List.mem_map.mp hold
      exact h.sites site hsite
  exact ⟨hkeeps _ hfrom.here, fun site hsite => hkeeps _ (hfrom.declared site hsite)⟩

/-- No function is declared under a name that changes. -/
theorem keepsNext {g : Guise} (h : s.Kept g.name levels declared)
    (hprogram : KeepsFunctions g.name program) (n : Nat) :
    g.KeepsNext ((s.start program).run n) := by
  intro f parameters body p scope hcontrol
  obtain ⟨more, hfits⟩ := (fits_start h.laid h.length h.functions h.globals program).run n
  have hstands := hfits.control
  rw [hcontrol] at hstands
  refine (h.sites_after hprogram n).1 f (hstands.2.functionNames_subset rfl ?_)
  rw [Stmt.functionNames]
  exact List.mem_cons_self

/-- What a program leaves behind is such a session again. -/
theorem runProgram (h : s.Kept name levels declared) (hprogram : KeepsFunctions name program)
    {fuel : Nat} {r : Submission} (hr : s.runProgram fuel program = some r) :
    ∃ levels declared, r.session.Kept name levels declared := by
  obtain ⟨a, -, rfl⟩ := Option.map_eq_some_iff.mp hr
  obtain ⟨more, hfits⟩ := (fits_start h.laid h.length h.functions h.globals program).run fuel
  exact ⟨levels ++ more, _, hfits.laid, hfits.length, hfits.functions.bound,
    Laid.getElem?_append h.globals, (h.sites_after hprogram fuel).2⟩

end Kept

end Session

/-! ## Submissions in another guise -/

namespace Guise

variable (g : Guise)

/-- The second submission is the first in another guise: the same was told before the failure, and
the failure and the session that is left are those of the first in another guise. -/
structure Likens (r r' : Submission) : Prop where
  failure : r'.failure = r.failure.map g.failure
  told : ∃ told, r.Tells told r.failure ∧ r'.Tells told r'.failure
  session : r'.session = g.session r.session

section Likens

variable {g} (s : Session)

/-- There are as many events to be told, so the same listeners register. -/
theorem conclude_likens (events : List Event) (failure : Option Failure) :
    g.Likens (s.conclude events failure)
      ((g.session s).conclude events (failure.map g.failure)) := by
  have hlength : (events ++ ((failure.map g.failure).map Event.failure).toList).length
      = (events ++ (failure.map Event.failure).toList).length := by
    cases failure <;> simp
  obtain ⟨-, hchannel⟩ := s.channel.emitAll_congr hlength
  exact ⟨rfl, ⟨events, ⟨rfl, rfl⟩, rfl, rfl⟩, congrArg (fun channel =>
    { g.session s with channel := channel }) hchannel⟩

theorem runProgram_likens (htold : g.told = []) {program : List Stmt} {fuel : Nat}
    (hkeeps : ∀ k < fuel, g.KeepsNext ((s.start program).run k)) :
    Option.Rel g.Likens (s.runProgram fuel program)
      ((g.session s).runProgram fuel (program.map g.stmt)) := by
  rw [runProgram_session s htold hkeeps]
  unfold Session.runProgram
  dsimp only
  cases ((s.start program).run fuel).result? with
  | none => exact .none
  | some a =>
    refine .some ?_
    rw [complete_session s htold]
    exact conclude_likens { s with store := _, readings := _ } _ _

end Likens

end Guise

/-! ## Programs with other names -/

/-- Other names, and nothing has been before. -/
def Guise.named (name : String → String) (h : Function.Injective name) : Guise :=
  recasting name h id []

section Renaming

variable {name : String → String} (hinjective : Function.Injective name)

/-- A new session has no other names but those of the builtins. -/
theorem Guise.session_new (hbuiltin : ∀ b : Builtin, name b.name = b.name) (config : Config)
    (clock : Nat → Float) :
    (named name hinjective).session (.new config clock) = .new config clock := by
  have hfresh := freshGlobals_store (g := named name hinjective) hbuiltin .empty
  exact congrArg (fun fresh : ScopeId × Store =>
    Session.mk config fresh.2 fresh.1 .empty clock 0) hfresh.symm

theorem Guise.failure_named (f : Failure) :
    (named name hinjective).failure f = f.rename name := by
  cases f with
  | runtime e =>
    obtain ⟨fault, p⟩ := e
    cases fault <;> rfl
  | _ => rfl

theorem Guise.Likens.renamed {r r' : Submission} (h : (named name hinjective).Likens r r') :
    r.Renamed name r' := by
  refine ⟨?_, h.told, ?_⟩
  · rw [h.failure, funext (failure_named hinjective)]
  · rw [h.session]
    exact shownGlobals_perm _ _

/-- **Any number of programs**, from a session on whose functions keep their names. -/
theorem Session.runPrograms_renamed {levels : Levels} {declared : List Site} {s : Session}
    (h : s.Kept name levels declared) (fuel : Nat) {programs : List (List Stmt)}
    (hprograms : ∀ program ∈ programs, KeepsFunctions name program) :
    Option.Rel (List.Forall₂ (Submission.Renamed name)) (s.runPrograms fuel programs)
      (((Guise.named name hinjective).session s).runPrograms fuel
        (programs.map (·.map (Stmt.rename name)))) := by
  induction programs generalizing s levels declared with
  | nil => exact .some .nil
  | cons program programs ih =>
    obtain ⟨hprogram, hlater⟩ := List.forall_mem_cons.mp hprograms
    have hrun : Option.Rel (Guise.named name hinjective).Likens (s.runProgram fuel program)
        (((Guise.named name hinjective).session s).runProgram fuel
          (program.map (Stmt.rename name))) :=
      Guise.runProgram_likens s rfl fun k _ => h.keepsNext hprogram k
    rw [List.map_cons, runPrograms, runPrograms]
    generalize ((Guise.named name hinjective).session s).runProgram fuel
      (program.map (Stmt.rename name)) = second at hrun ⊢
    cases hfirst : s.runProgram fuel program with
    | none =>
      rw [hfirst] at hrun
      cases hrun
      exact .none
    | some r =>
      rw [hfirst] at hrun
      cases hrun with
      | @some _ r' hlikens =>
        obtain ⟨levels', declared', hkept⟩ := h.runProgram hprogram hfirst
        have hrest := ih hkept hlater
        rw [← hlikens.session] at hrest
        have hcons : ∀ {first second : Option (List Submission)},
            Option.Rel (List.Forall₂ (Submission.Renamed name)) first second →
            Option.Rel (List.Forall₂ (Submission.Renamed name)) (first.map (r :: ·))
              (second.map (r' :: ·)) := by
          intro first second hboth
          cases hboth with
          | none => exact .none
          | some hall => exact .some (.cons (hlikens.renamed hinjective) hall)
        exact hcons hrest

end Renaming

/-- **Variable names do not matter.** Take any programs, and other names for their variables,
different names for different variables, such that builtins and functions keep their names. In a new
session the programs with the other names come to an end within as many steps as the programs as
they were. Each tells the same before it fails, fails in the same way at the same place, but for the
name of the variable that is reported, and leaves the same globals under the other names, with
values that are printed in the same way. -/
theorem Session.variable_names_irrelevant {name : String → String}
    (hinjective : Function.Injective name) (hbuiltin : ∀ b : Builtin, name b.name = b.name)
    {programs : List (List Stmt)}
    (hfunctions : ∀ program ∈ programs, ∀ f ∈ functionNames program, name f = f)
    (config : Config) (clock : Nat → Float) (fuel : Nat) :
    Option.Rel (List.Forall₂ (Submission.Renamed name))
      ((Session.new config clock).runPrograms fuel programs)
      ((Session.new config clock).runPrograms fuel (programs.map (·.map (Stmt.rename name)))) := by
  obtain ⟨levels, hkept⟩ := Session.kept_new name config clock
  have hrun := Session.runPrograms_renamed hinjective hkept fuel hfunctions
  rwa [Guise.session_new hinjective hbuiltin] at hrun

/-- Two variables change their names. -/
def exchanged (x : String) : String :=
  if x = "x" then "y" else if x = "y" then "x" else x

theorem exchanged_injective : Function.Injective exchanged := by
  intro a b h
  unfold exchanged at h
  split at h <;> split at h <;> grind

/-- A parameter and a global variable that change their names with each other, and then an error
that reports one of them. -/
def counting : List (List Stmt) :=
  ["let x = 1\nfun f(y) \x7b x = x + y\n return f \x7d\nf(2)", "print x\ny"].filterMap
    fun source => (Session.read source).toOption

/-- The error reports the other variable. -/
theorem variable_names_irrelevant_counting :
    let new := Session.new ⟨true, 4⟩ fun _ => 0
    ∃ rs rs', new.runPrograms 100 counting = some rs ∧
      new.runPrograms 100 (counting.map (·.map (Stmt.rename exchanged))) = some rs' ∧
      rs.map (·.failure) = [none, some (.runtime ⟨.undefinedVariable "y", ⟨2, 1⟩⟩)] ∧
      List.Forall₂ (Submission.Renamed exchanged) rs rs' := by
  intro new
  have hended : (new.runPrograms 100 counting).any (fun rs => rs.map (·.failure)
      == [none, some (.runtime ⟨.undefinedVariable "y", ⟨2, 1⟩⟩)]) = true := by decide +kernel
  obtain ⟨rs, hrun, hfailures⟩ := (Option.any_eq_true _ _).mp hended
  have hbuiltin : ∀ b : Builtin, exchanged b.name = b.name := by
    intro b
    cases b <;> decide
  have hfunctions : ∀ program ∈ counting, ∀ f ∈ functionNames program, exchanged f = f := by
    decide +kernel
  have hrel := Session.variable_names_irrelevant exchanged_injective hbuiltin hfunctions ⟨true, 4⟩
    (fun _ => 0) 100
  rw [hrun] at hrel
  generalize Session.runPrograms 100 _ (counting.map _) = other at hrel ⊢
  cases hrel with
  | some hall => exact ⟨rs, _, hrun, rfl, beq_iff_eq.mp hfailures, hall⟩

end Scripting
