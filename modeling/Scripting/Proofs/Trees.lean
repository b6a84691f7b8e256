/-
Trees, and the same trees with other names and positions.

The parts of an expression or a statement are in lists and options as well, so an induction on trees
has hypotheses about their members.

A tree can be *recast*: every name in it is changed by one function and every position by another.
To relocate a tree is to recast it with the names kept.

The names in a tree are those of variables that are used, assigned to or declared, and those of
functions and their parameters.
-/
import Scripting.Tree

set_option autoImplicit false

namespace Scripting

/-! ## Induction -/

@[elab_as_elim, induction_eliminator]
theorem Expr.induct {motive : Expr → Prop}
    (literal : ∀ v p, motive (.literal v p))
    (var : ∀ name p, motive (.var name p))
    (unary : ∀ op e p, motive e → motive (.unary op e p))
    (binary : ∀ op left right p, motive left → motive right → motive (.binary op left right p))
    (call : ∀ callee arguments p, motive callee → (∀ e ∈ arguments, motive e) →
      motive (.call callee arguments p))
    (assign : ∀ name e p, motive e → motive (.assign name e p))
    (group : ∀ e p, motive e → motive (.group e p)) (e : Expr) : motive e := by
  refine @Expr.rec motive (fun es => ∀ e ∈ es, motive e) literal var unary binary call assign group
    ?_ ?_ e
  · intro e he
    cases he
  · intro e es he hes
    exact List.forall_mem_cons.mpr ⟨he, hes⟩

@[elab_as_elim, induction_eliminator]
theorem Stmt.induct {motive : Stmt → Prop}
    (expression : ∀ e p, motive (.expression e p))
    (declare : ∀ name initial p, motive (.declare name initial p))
    (block : ∀ body p, (∀ s ∈ body, motive s) → motive (.block body p))
    (cond : ∀ test yes no p, motive yes → (∀ s, no = some s → motive s) →
      motive (.cond test yes no p))
    (loop : ∀ test body p, motive body → motive (.loop test body p))
    (function : ∀ name parameters body p, (∀ s ∈ body, motive s) →
      motive (.function name parameters body p))
    (return_ : ∀ value p, motive (.return_ value p))
    (print : ∀ e p, motive (.print e p))
    (break_ : ∀ p, motive (.break_ p))
    (continue_ : ∀ p, motive (.continue_ p)) (s : Stmt) : motive s := by
  -- Statements are also found in lists and as the second branch, which may be missing.
  refine @Stmt.rec motive (fun ss => ∀ s ∈ ss, motive s) (fun no => ∀ s, no = some s → motive s)
    expression declare block cond loop function return_ print break_ continue_ ?_ ?_ ?_ ?_ s
  · intro s hs
    cases hs
  · intro s ss hs hss
    exact List.forall_mem_cons.mpr ⟨hs, hss⟩
  · intro s hs
    cases hs
  · intro s hs s' hs'
    cases hs'
    exact hs

/-! ## Recasting -/

namespace Expr

variable (name : String → String) (place : Position → Position)

mutual

/-- The expression with other names and other positions in it. -/
def recast : Expr → Expr
  | .literal v p => .literal v (place p)
  | .var x p => .var (name x) (place p)
  | .unary op e p => .unary op e.recast (place p)
  | .binary op left right p => .binary op left.recast right.recast (place p)
  | .call callee arguments p => .call callee.recast (recastEach arguments) (place p)
  | .assign x e p => .assign (name x) e.recast (place p)
  | .group e p => .group e.recast (place p)

/-- Each of some expressions. -/
def recastEach : List Expr → List Expr
  | [] => []
  | e :: es => e.recast :: recastEach es

end

@[simp] theorem recastEach_eq_map (es : List Expr) :
    recastEach name place es = es.map (recast name place) := by
  induction es with
  | nil => rfl
  | cons e es ih => rw [recastEach, ih, List.map_cons]

theorem recast_id (e : Expr) : e.recast id id = e := by
  induction e with
  | call callee arguments p ihc iha =>
    rw [recast, ihc, recastEach_eq_map, List.map_congr_left iha, List.map_id']
    rfl
  | _ => simp_all only [recast, id]

theorem recast_recast (name' : String → String) (place' : Position → Position) (e : Expr) :
    (e.recast name place).recast name' place' = e.recast (name' ∘ name) (place' ∘ place) := by
  induction e with
  | call callee arguments p ihc iha =>
    have heach : arguments.map (recast name' place' ∘ recast name place)
        = arguments.map (recast (name' ∘ name) (place' ∘ place)) := List.map_congr_left iha
    simp only [recast, recastEach_eq_map, List.map_map, ihc, heach, Function.comp_apply]
  | _ => simp_all only [recast, Function.comp_apply]

end Expr

namespace Stmt

variable (name : String → String) (place : Position → Position)

mutual

/-- The statement with other names and other positions in it. -/
def recast : Stmt → Stmt
  | .expression e p => .expression (e.recast name place) (place p)
  | .declare x initial p => .declare (name x) (initial.map (·.recast name place)) (place p)
  | .block body p => .block (recastEach body) (place p)
  | .cond test yes no p =>
    .cond (test.recast name place) yes.recast (recastIfAny no) (place p)
  | .loop test body p => .loop (test.recast name place) body.recast (place p)
  | .function f parameters body p =>
    .function (name f) (parameters.map name) (recastEach body) (place p)
  | .return_ value p => .return_ (value.map (·.recast name place)) (place p)
  | .print e p => .print (e.recast name place) (place p)
  | .break_ p => .break_ (place p)
  | .continue_ p => .continue_ (place p)

/-- The second branch of a conditional. -/
def recastIfAny : Option Stmt → Option Stmt
  | none => none
  | some s => some s.recast

/-- Each of some statements. -/
def recastEach : List Stmt → List Stmt
  | [] => []
  | s :: ss => s.recast :: recastEach ss

end

@[simp] theorem recastIfAny_eq_map (no : Option Stmt) :
    recastIfAny name place no = no.map (recast name place) := by
  cases no <;> rw [recastIfAny] <;> rfl

@[simp] theorem recastEach_eq_map (ss : List Stmt) :
    recastEach name place ss = ss.map (recast name place) := by
  induction ss with
  | nil => rfl
  | cons s ss ih => rw [recastEach, ih, List.map_cons]

theorem recast_id (s : Stmt) : s.recast id id = s := by
  have hexpr : ∀ e : Option Expr, e.map (·.recast id id) = e := by
    intro e
    cases e with
    | none => rfl
    | some e => exact congrArg some e.recast_id
  induction s with
  | block body p ih | function f parameters body p ih =>
    simp only [recast, recastEach_eq_map, List.map_congr_left ih, List.map_id', List.map_id, id]
  | cond test yes no p ihy ihn =>
    have hno : no.map (recast id id) = no := by
      cases no with
      | none => rfl
      | some s => exact congrArg some (ihn s rfl)
    rw [recast, recastIfAny_eq_map, test.recast_id, ihy, hno]
    rfl
  | _ => simp_all only [recast, Expr.recast_id, id]

theorem recast_recast (name' : String → String) (place' : Position → Position) (s : Stmt) :
    (s.recast name place).recast name' place' = s.recast (name' ∘ name) (place' ∘ place) := by
  have hexpr : ∀ e : Option Expr, (e.map (·.recast name place)).map (·.recast name' place')
      = e.map (·.recast (name' ∘ name) (place' ∘ place)) := by
    intro e
    cases e with
    | none => rfl
    | some e => exact congrArg some (e.recast_recast name place name' place')
  induction s with
  | block body p ih | function f parameters body p ih =>
    have heach : body.map (recast name' place' ∘ recast name place)
        = body.map (recast (name' ∘ name) (place' ∘ place)) := List.map_congr_left ih
    simp only [recast, recastEach_eq_map, List.map_map, heach, Function.comp_apply]
  | cond test yes no p ihy ihn =>
    have hno : (no.map (recast name place)).map (recast name' place')
        = no.map (recast (name' ∘ name) (place' ∘ place)) := by
      cases no with
      | none => rfl
      | some s => exact congrArg some (ihn s rfl)
    simp only [recast, recastIfAny_eq_map, test.recast_recast name place name' place', ihy, hno,
      Function.comp_apply]
  | _ => simp_all only [recast, Expr.recast_recast, Function.comp_apply]

end Stmt

/-! ## Relocating -/

/-- The expression with every position in it changed by `f`. -/
abbrev Expr.relocate (f : Position → Position) (e : Expr) : Expr := e.recast id f

/-- The statement with every position in it changed by `f`. -/
abbrev Stmt.relocate (f : Position → Position) (s : Stmt) : Stmt := s.recast id f

theorem Stmt.relocate_id (s : Stmt) : s.relocate id = s := s.recast_id

theorem Stmt.relocate_relocate (f g : Position → Position) (s : Stmt) :
    (s.relocate f).relocate g = s.relocate (g ∘ f) := s.recast_recast id f id g

/-! ## Names -/

namespace Expr

mutual

/-- The names that occur in an expression. -/
def names : Expr → List String
  | .literal _ _ => []
  | .var x _ => [x]
  | .unary _ e _ => e.names
  | .binary _ left right _ => left.names ++ right.names
  | .call callee arguments _ => callee.names ++ namesOfEach arguments
  | .assign x e _ => x :: e.names
  | .group e _ => e.names

/-- Each of some expressions. -/
def namesOfEach : List Expr → List String
  | [] => []
  | e :: es => e.names ++ namesOfEach es

end

/-- An expression that may be missing. -/
def namesIfAny : Option Expr → List String
  | none => []
  | some e => e.names

theorem mem_namesOfEach {n : String} {es : List Expr} :
    n ∈ namesOfEach es ↔ ∃ e ∈ es, n ∈ e.names := by
  induction es with
  | nil => simp [namesOfEach]
  | cons e es ih => simp [namesOfEach, ih]

end Expr

namespace Stmt

mutual

/-- The names that occur in a statement: variables that are used, assigned to or declared, and the
names and parameters of functions. -/
def names : Stmt → List String
  | .expression e _ | .print e _ => e.names
  | .declare x initial _ => x :: Expr.namesIfAny initial
  | .block body _ => namesOfEach body
  | .cond test yes no _ => test.names ++ (yes.names ++ namesIfAny no)
  | .loop test body _ => test.names ++ body.names
  | .function f parameters body _ => f :: (parameters ++ namesOfEach body)
  | .return_ value _ => Expr.namesIfAny value
  | .break_ _ | .continue_ _ => []

/-- The second branch of a conditional. -/
def namesIfAny : Option Stmt → List String
  | none => []
  | some s => s.names

/-- Each of some statements. -/
def namesOfEach : List Stmt → List String
  | [] => []
  | s :: ss => s.names ++ namesOfEach ss

end

theorem mem_namesOfEach {n : String} {ss : List Stmt} :
    n ∈ namesOfEach ss ↔ ∃ s ∈ ss, n ∈ s.names := by
  induction ss with
  | nil => simp [namesOfEach]
  | cons s ss ih => simp [namesOfEach, ih]

end Stmt

end Scripting
