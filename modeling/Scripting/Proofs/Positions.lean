/-
Running does not look at positions.

A position goes along with the code that stands there, and is handed out when the code fails. That
is all that is ever done with it. So if every piece of code a machine has to do with stood
elsewhere, in the control, in the frames and in the functions of the store, the machine would take
the same steps, and fail where the failing code stands then. Nor does a machine look back at what it
has told: events that were told before it started stay at the end of its output.

A machine with its code elsewhere is a machine in another guise, in which names and numbers are
what they were. So both changes commute with a step, and with a run.
-/
import Scripting.Proofs.GuisedRuns
import Scripting.Proofs.Relocation

set_option autoImplicit false

namespace Scripting

/-! ## Code that stands elsewhere -/

/-- The code stands elsewhere, and events have been told `earlier`, the latest first. -/
def Guise.elsewhere (f : Position → Position) (earlier : List Event) : Guise :=
  recasting id (fun _ _ h => h) f earlier

/-- The store with the bodies of all functions elsewhere. -/
def Store.relocate (f : Position → Position) (store : Store) : Store :=
  (Guise.elsewhere f []).store store

/-- The same fault at another place. -/
def Located.relocate {φ : Type} (f : Position → Position) (e : Located φ) : Located φ :=
  { e with position := f e.position }

/-- The answer with its code elsewhere. -/
def Answer.relocate (f : Position → Position) (a : Answer) : Answer :=
  (Guise.elsewhere f []).answer a

/-- The world with the bodies of all functions elsewhere, and with events told `earlier`, the latest
first. -/
def World.relocate (f : Position → Position) (earlier : List Event) (w : World) : World :=
  { w with store := w.store.relocate f, output := w.output ++ earlier }

/-- The machine with all its code elsewhere, and with events told `earlier`. -/
def Machine.relocate (f : Position → Position) (earlier : List Event) (m : Machine) : Machine :=
  (Guise.elsewhere f earlier).machine m

theorem Guise.error_elsewhere (f : Position → Position) (earlier : List Event) (e : RuntimeError) :
    (elsewhere f earlier).error e = e.relocate f := by
  obtain ⟨fault, p⟩ := e
  cases fault <;> rfl

theorem Answer.relocate_error (f : Position → Position) (e : RuntimeError) :
    (Answer.error e).relocate f = .error (e.relocate f) :=
  congrArg Answer.error (Guise.error_elsewhere f [] e)

theorem Machine.relocate_reply (f : Position → Position) (earlier : List Event) (a : Answer)
    (w : World) :
    (reply a [] w).relocate f earlier = reply (a.relocate f) [] (w.relocate f earlier) := rfl

/-! ### Moving back -/

section Cancel

variable {f g : Position → Position} (h : ∀ p, g (f p) = p)

include h

theorem Guise.value_elsewhere_cancel (v : Value) :
    (elsewhere g []).value ((elsewhere f []).value v) = v := by
  cases v with
  | function c =>
    have hbody : (c.body.map (Stmt.relocate f)).map (Stmt.relocate g) = c.body := by
      refine (List.map_map ..).trans ((List.map_congr_left fun stmt _ => ?_).trans
        (List.map_id c.body))
      rw [Function.comp_apply, Stmt.relocate_relocate, show g ∘ f = id from funext h]
      exact stmt.relocate_id
    change Value.function ⟨c.id, c.name, (c.parameters.map id).map id,
      (c.body.map (Stmt.relocate f)).map (Stmt.relocate g), c.scope⟩ = _
    rw [hbody, List.map_id, List.map_id]
  | _ => rfl

theorem Guise.scope_elsewhere_cancel (scope : Scope) :
    (elsewhere g []).scope ((elsewhere f []).scope scope) = scope := by
  have hbindings : (elsewhere g []).bindings ((elsewhere f []).bindings scope.bindings)
      = scope.bindings := by
    refine (List.map_map ..).trans ((List.map_congr_left fun entry _ => ?_).trans
      (List.map_id scope.bindings))
    exact congrArg (Prod.mk entry.1) (value_elsewhere_cancel h entry.2)
  change { scope with
    parent := (scope.parent.map (· + 0)).map (· + 0)
    bindings := (elsewhere g []).bindings ((elsewhere f []).bindings scope.bindings) } = _
  rw [hbindings]
  obtain ⟨s, parent, bindings, declares⟩ := scope
  cases parent <;> rfl

/-- Code that is moved and moved back is where it was. -/
theorem Store.relocate_cancel (store : Store) : (store.relocate f).relocate g = store := by
  have hscopes : (store.scopes.map (Guise.elsewhere f []).scope).map (Guise.elsewhere g []).scope
      = store.scopes := by
    refine (List.map_map ..).trans ((List.map_congr_left fun scope _ => ?_).trans
      (List.map_id store.scopes))
    exact Guise.scope_elsewhere_cancel h scope
  have hvacated : (store.vacated.map (· + 0)).map (· + 0) = store.vacated :=
    (List.map_id _).trans (List.map_id _)
  change { store with
    scopes := (store.scopes.map (Guise.elsewhere f []).scope ++ []).map
      (Guise.elsewhere g []).scope ++ []
    vacated := (store.vacated.map (· + 0) ++ []).map (· + 0) ++ [] } = _
  rw [List.append_nil, List.append_nil, List.append_nil, List.append_nil, hscopes, hvacated]

end Cancel

/-! ## Runs -/

namespace Machine

variable (f : Position → Position) (earlier : List Event)

/-- **Whole runs.** Code that stands elsewhere runs as it does, and fails where it stands. -/
theorem run_relocate (m : Machine) (n : Nat) :
    (m.relocate f earlier).run n = (m.run n).relocate f earlier :=
  Guise.run_machine fun _ _ _ _ _ _ _ _ => rfl

theorem result?_relocate (m : Machine) :
    (m.relocate f earlier).result? = m.result?.map (Answer.relocate f) :=
  Guise.result?_machine m

end Machine

end Scripting
