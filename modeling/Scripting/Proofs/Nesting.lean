/-
Where code stands in a program.

The parts of a statement or an expression stand where it stands itself, except for the statements of
a block and of a function body: these stand inside of one more pair of braces. So every
statement and every expression of a program stands inside of a number of pairs of braces, which is
what `Within` says.

Of a program that has been read, every statement is canonical wherever it stands. In particular a
branch of a conditional or the body of a loop never declares anything by itself, and neither does a
statement that is made up of such.
-/
import Scripting.Proofs.Lossless
import Scripting.Proofs.Steps

set_option autoImplicit false

namespace Scripting

open Grammar

/-- Code of a program that stands inside of so many pairs of braces. -/
inductive Within (program : List Stmt) : Nat → Code → Prop
  | outermost {s : Stmt} : s ∈ program → Within program 0 (.statement s)
  | part {k : Nat} {code part : Code} : Within program k code → part ∈ code.parts →
      Within program k part
  | body {k : Nat} {code : Code} {s : Stmt} : Within program k code → s ∈ code.body →
      Within program (k + 1) (.statement s)

/-! ## What has been read is canonical -/

/-- Every statement of a canonical program is canonical where it stands. -/
theorem Within.canonical {program : List Stmt} {around : Surroundings}
    (h : ∀ s ∈ program, s.Canonical around) {k : Nat} {code : Code} (hw : Within program k code)
    (s : Stmt) (hs : code = .statement s) : ∃ around, s.Canonical around := by
  induction hw generalizing s with
  | outermost hmem =>
    cases hs
    exact ⟨around, h _ hmem⟩
  | @part k code part _ hpart ih =>
    subst hs
    cases code with
    | expression e => cases e <;> simp [Code.parts] at hpart
    | statement outer =>
      obtain ⟨around', hc⟩ := ih outer rfl
      cases outer with
      | cond test yes no p =>
        simp only [Code.parts, List.mem_cons, reduceCtorEq, Code.statement.injEq, List.mem_map,
          Option.mem_toList, false_or, exists_eq_right] at hpart
        obtain ⟨-, hyes, -, -, -, hno⟩ := hc
        rcases hpart with rfl | hsome
        · exact ⟨around', hyes⟩
        · rw [hsome] at hno
          exact ⟨around', hno.1⟩
      -- In a loop body more is allowed than around the loop, so the surroundings are others.
      | loop test body p =>
        simp only [Code.parts, List.mem_cons, reduceCtorEq, Code.statement.injEq, List.not_mem_nil,
          false_or, or_false] at hpart
        subst hpart
        exact ⟨_, hc.2.1⟩
      | _ => simp [Code.parts] at hpart
  | @body k code inner _ hbody ih =>
    cases hs
    cases code with
    | expression e => cases hbody
    | statement outer =>
      obtain ⟨around', hc⟩ := ih outer rfl
      cases outer with
      | block body p => exact ⟨around', Stmt.allCanonical_iff.mp hc _ hbody⟩
      | function name parameters body p => exact ⟨_, Stmt.allCanonical_iff.mp hc.2.2 _ hbody⟩
      | _ => cases hbody

namespace Stmt

mutual

/-- Whether running a statement in a scope binds nothing there: whatever is declared by it is
declared inside of braces. -/
def isTame : Stmt → Bool
  | .declare .. | .function .. => false
  | .cond _ yes no _ => yes.isTame && isTameIfAny no
  | .loop _ body _ => body.isTame
  | _ => true

/-- The same of a branch that may be missing. -/
def isTameIfAny : Option Stmt → Bool
  | none => true
  | some s => s.isTame

end

/-- The name that a statement declares. -/
def declared? : Stmt → Option String
  | .declare name .. | .function name .. => some name
  | _ => none

/-- **A statement that the grammar allows is tame unless it is a declaration itself**: branches and
loop bodies are no declarations. -/
theorem Canonical.isTame {around : Surroundings} {s : Stmt} (h : s.Canonical around)
    (hd : s.declared? = none) : s.isTame = true := by
  have declared_of_branch : ∀ {t : Stmt}, t.isBranch = true → t.declared? = none := by
    intro t ht
    cases t <;> first | rfl | cases ht
  induction s generalizing around with
  | declare name initial p => cases hd
  | function name parameters body p _ => cases hd
  | cond test yes no p ihyes ihno =>
    obtain ⟨-, hyes, hbranch, -, -, hno⟩ := h
    rw [Stmt.isTame, ihyes hyes (declared_of_branch hbranch), Bool.true_and]
    cases no with
    | none => rfl
    | some s => exact ihno s rfl hno.1 (declared_of_branch hno.2)
  | loop test body p ih =>
    obtain ⟨-, hbody, hbranch, -⟩ := h
    rw [Stmt.isTame]
    exact ih hbody (declared_of_branch hbranch)
  | _ => rfl

end Stmt

end Scripting
