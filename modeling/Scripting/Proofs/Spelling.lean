/-
How trees are written.

A tree is written as a row of *marks*: tokens, each with the positions that nodes of the tree
keep of it. The marks add nothing to the tree: parentheses around an expression are written where
the tree has a group and nowhere else. So not every tree can be read back from its marks. The trees
that can are the canonical ones: no operand binds looser than the operator that it stands at, no
part of a statement runs on into what follows it, and what a statement needs around it is there.

How tightly an expression binds is a number: an assignment binds loosest, then come the levels
of the binary operators in their order, the unary operators, and what can be called.
-/
import Scripting.Proofs.Reading
import Scripting.Proofs.Trees

set_option autoImplicit false

namespace Scripting

open Grammar

/-! ## Operators as tokens -/

/-- The token that a unary operator is written with. -/
def UnaryOperator.token : UnaryOperator → Token
  | .negate => .symbol .minus
  | .not => .symbol .bang

theorem UnaryOperator.ofToken?_token (op : UnaryOperator) : ofToken? op.token = some op := by
  cases op <;> rfl

theorem UnaryOperator.eq_token_of_ofToken? {t : Token} {op : UnaryOperator}
    (h : ofToken? t = some op) : t = op.token := by
  unfold ofToken? at h
  split at h <;> cases h <;> rfl

/-- The token that a binary operator is written with. -/
def BinaryOperator.token : BinaryOperator → Token
  | .add => .symbol .plus
  | .subtract => .symbol .minus
  | .multiply => .symbol .star
  | .divide => .symbol .slash
  | .modulo => .symbol .percent
  | .less => .symbol .less
  | .greater => .symbol .greater
  | .lessEqual => .symbol .lessEqual
  | .greaterEqual => .symbol .greaterEqual
  | .equal => .symbol .equalEqual
  | .notEqual => .symbol .bangEqual
  | .and => .keyword .and_
  | .or => .keyword .or_

theorem BinaryOperator.ofToken?_token (op : BinaryOperator) : ofToken? op.token = some op := by
  cases op <;> rfl

theorem BinaryOperator.eq_token_of_ofToken? {t : Token} {op : BinaryOperator}
    (h : ofToken? t = some op) : t = op.token := by
  unfold ofToken? at h
  split at h <;> cases h <;> rfl

/-! ## Marks -/

/-- A token of a written tree, and the positions that nodes of the tree keep of it. -/
structure Mark where
  token : Token
  positions : List Position

namespace Mark

/-- A token that no node keeps the position of. -/
def plain (t : Token) : Mark := ⟨t, []⟩

/-- A token whose position one node keeps. -/
def kept (t : Token) (p : Position) : Mark := ⟨t, [p]⟩

/-- A further node keeps the position of the first of the marks. -/
def stampFirst (p : Position) : List Mark → List Mark
  | [] => []
  | m :: ms => { m with positions := p :: m.positions } :: ms

/-- The token that the marks begin with. -/
def first? (ms : List Mark) : Option Token := ms.head?.map (·.token)

/-- A list in parentheses, of which a node may keep the position of the opening one. -/
def inParentheses (opening : Mark) (items : List (List Mark)) : List Mark :=
  opening :: ([plain (.symbol .comma)].intercalate items ++ [plain (.symbol .rightParen)])

/-- The token is that of the lexeme, and the positions are the lexeme's. -/
def Fits (m : Mark) (l : Lexeme) : Prop := l.token = m.token ∧ ∀ p ∈ m.positions, p = l.position

end Mark

namespace Expr

mutual

/-- An expression as marks. -/
def marks : Expr → List Mark
  | .literal v p => [.kept v.token p]
  | .var name p => [.kept (.identifier name) p]
  | .unary op e p => .kept op.token p :: e.marks
  | .binary op left right p => left.marks ++ .kept op.token p :: right.marks
  | .call callee arguments p =>
    callee.marks ++ Mark.inParentheses (.kept (.symbol .leftParen) p) (marksEach arguments)
  | .assign name e p => .plain (.identifier name) :: .kept (.symbol .equals) p :: e.marks
  | .group e p => .kept (.symbol .leftParen) p :: (e.marks ++ [.plain (.symbol .rightParen)])

/-- Each of some expressions as marks. -/
def marksEach : List Expr → List (List Mark)
  | [] => []
  | e :: es => e.marks :: marksEach es

end

theorem marksEach_eq_map (es : List Expr) : marksEach es = es.map marks := by
  induction es with
  | nil => rfl
  | cons e es ih => rw [marksEach, ih, List.map_cons]

theorem marks_ne_nil (e : Expr) : e.marks ≠ [] := by
  cases e <;> simp [marks, Mark.inParentheses]

end Expr

namespace Stmt

mutual

/-- A statement as marks, with the marks `between` any two statements of a list in it. -/
def marks (between : List Mark) : Stmt → List Mark
  | .expression e p => Mark.stampFirst p e.marks
  | .declare name none p => [.kept (.keyword .let_) p, .plain (.identifier name)]
  | .declare name (some e) p =>
    .kept (.keyword .let_) p :: .plain (.identifier name) :: .plain (.symbol .equals) :: e.marks
  | .block body p =>
    .kept (.symbol .leftBrace) p ::
      (between.intercalate (marksEach between body) ++ [.plain (.symbol .rightBrace)])
  | .cond test yes no p =>
    .kept (.keyword .if_) p :: (test.marks ++ (yes.marks between ++ otherwise between no))
  | .loop test body p => .kept (.keyword .while_) p :: (test.marks ++ body.marks between)
  | .function name parameters body p =>
    .kept (.keyword .fun_) p :: .plain (.identifier name) ::
      (Mark.inParentheses (.plain (.symbol .leftParen))
          (parameters.map fun x => [.plain (.identifier x)]) ++
        .plain (.symbol .leftBrace) ::
          (between.intercalate (marksEach between body) ++ [.plain (.symbol .rightBrace)]))
  | .return_ none p => [.kept (.keyword .return_) p]
  | .return_ (some e) p => .kept (.keyword .return_) p :: e.marks
  | .print e p => .kept (.keyword .print_) p :: e.marks
  | .break_ p => [.kept (.keyword .break_) p]
  | .continue_ p => [.kept (.keyword .continue_) p]

/-- The second branch of a conditional, if there is one. -/
def otherwise (between : List Mark) : Option Stmt → List Mark
  | none => []
  | some s => .plain (.keyword .else_) :: s.marks between

/-- Each of some statements as marks. -/
def marksEach (between : List Mark) : List Stmt → List (List Mark)
  | [] => []
  | s :: ss => s.marks between :: marksEach between ss

end

theorem marks_ne_nil (between : List Mark) (s : Stmt) : s.marks between ≠ [] := by
  cases s with
  | expression e p =>
    obtain ⟨m, ms, he⟩ := List.exists_cons_of_ne_nil e.marks_ne_nil
    simp [marks, he, Mark.stampFirst]
  | declare name initial p => cases initial <;> simp [marks]
  | return_ value p => cases value <;> simp [marks]
  | _ => simp [marks]

/-- The statements of a list as marks. -/
def marksAll (between : List Mark) (ss : List Stmt) : List Mark :=
  between.intercalate (marksEach between ss)

theorem marksAll_nil_cons (s : Stmt) (ss : List Stmt) :
    marksAll [] (s :: ss) = s.marks [] ++ marksAll [] ss := by
  rw [marksAll, marksAll, marksEach]
  cases ss with
  | nil => rw [marksEach, List.intercalate_singleton, List.intercalate_nil, List.append_nil]
  | cons s' ss => rw [marksEach, List.intercalate_cons_cons, List.append_nil]

/-- The token that a statement begins with. -/
def first? (s : Stmt) : Option Token := Mark.first? (s.marks [])

theorem first?_marks (between : List Mark) (s : Stmt) :
    Mark.first? (s.marks between) = s.first? := by
  cases s with
  | declare name initial p => cases initial <;> rfl
  | return_ value p => cases value <;> rfl
  | _ => rfl

end Stmt

/-! ## Binding -/

/-- How tightly the operators of a level bind. -/
def Precedence.tightness (level : Precedence) : Nat := level.rank + 1

/-- How tightly a binary operator binds. -/
def BinaryOperator.tightness (op : BinaryOperator) : Nat := op.precedence.tightness

theorem BinaryOperator.one_le_tightness (op : BinaryOperator) : 1 ≤ op.tightness :=
  Nat.le_add_left 1 _

theorem BinaryOperator.tightness_lt_unary (op : BinaryOperator) :
    op.tightness < Precedence.unary.tightness := by
  cases op <;> decide

/-- The right operands of an operator bind tighter than it. -/
theorem BinaryOperator.tightness_next (op : BinaryOperator) :
    op.precedence.next.tightness = op.tightness + 1 := by
  cases op <;> rfl

theorem Precedence.le_iff_tightness {least : Precedence} {op : BinaryOperator} :
    least ≤ op.precedence ↔ least.tightness ≤ op.tightness := by
  constructor
  · intro h
    exact Nat.succ_le_succ h
  · intro h
    exact Nat.le_of_succ_le_succ h

namespace Expr

/-- How tightly an expression binds, by its outermost part. -/
def tightness : Expr → Nat
  | .assign .. => 0
  | .binary op .. => op.tightness
  | .unary .. => Precedence.unary.tightness
  | .literal .. | .var .. | .call .. | .group .. => Precedence.unary.tightness + 1

mutual

/-- Every operand binds tightly enough where it stands: a right operand tighter than its
operator, a left operand at least as tight. No call has too many arguments. -/
def Canonical : Expr → Prop
  | .literal .. | .var .. => True
  | .unary _ e _ => Precedence.unary.tightness ≤ e.tightness ∧ e.Canonical
  | .binary op left right _ =>
    op.tightness ≤ left.tightness ∧ op.tightness < right.tightness ∧
      left.Canonical ∧ right.Canonical
  | .call callee arguments _ =>
    Precedence.unary.tightness < callee.tightness ∧ arguments.length ≤ maxItems ∧
      callee.Canonical ∧ AllCanonical arguments
  | .assign _ e _ => e.Canonical
  | .group e _ => e.Canonical

/-- All of some expressions are canonical. -/
def AllCanonical : List Expr → Prop
  | [] => True
  | e :: es => e.Canonical ∧ AllCanonical es

end

theorem allCanonical_iff {es : List Expr} : AllCanonical es ↔ ∀ e ∈ es, e.Canonical := by
  induction es with
  | nil => simp [AllCanonical]
  | cons e es ih => rw [AllCanonical, ih, List.forall_mem_cons]

end Expr

namespace Stmt

/-- Whether a statement may be a branch or the body of a loop: declarations may not. -/
def isBranch : Stmt → Bool
  | .declare .. | .function .. => false
  | _ => true

/-- Whether an `else` after a statement would belong to it. -/
def endsOpen : Stmt → Bool
  | .cond _ _ none _ => true
  | .cond _ _ (some s) _ => s.endsOpen
  | .loop _ s _ => s.endsOpen
  | _ => false

/-- A statement does not begin like the rest of an expression in front of it. -/
def StartsApart (s : Stmt) : Prop :=
  s.first? ≠ some (.symbol .leftParen) ∧ s.first? ≠ some (.symbol .minus)

mutual

/-- A statement that the grammar allows where this is `around` it. -/
def Canonical (around : Surroundings) : Stmt → Prop
  | .expression e _ | .print e _ | .declare _ (some e) _ => e.Canonical
  | .declare _ none _ => True
  | .block body _ => AllCanonical around body
  | .cond test yes no _ =>
    test.Canonical ∧ yes.Canonical around ∧ yes.isBranch = true ∧ yes.StartsApart ∧
      (no.isSome = true → yes.endsOpen = false) ∧ OtherwiseCanonical around no
  | .loop test body _ =>
    test.Canonical ∧ body.Canonical around.loopBody ∧ body.isBranch = true ∧ body.StartsApart
  | .function _ parameters body _ =>
    parameters.Nodup ∧ parameters.length ≤ maxItems ∧ AllCanonical .functionBody body
  | .return_ none _ => around.inFunction = true
  | .return_ (some e) _ => around.inFunction = true ∧ e.Canonical
  | .break_ _ | .continue_ _ => around.inLoop = true

/-- The second branch of a conditional, if there is one, is canonical. -/
def OtherwiseCanonical (around : Surroundings) : Option Stmt → Prop
  | none => True
  | some s => s.Canonical around ∧ s.isBranch = true

/-- All of some statements are canonical. -/
def AllCanonical (around : Surroundings) : List Stmt → Prop
  | [] => True
  | s :: ss => s.Canonical around ∧ AllCanonical around ss

end

theorem allCanonical_iff {around : Surroundings} {ss : List Stmt} :
    AllCanonical around ss ↔ ∀ s ∈ ss, s.Canonical around := by
  induction ss with
  | nil => simp [AllCanonical]
  | cons s ss ih => rw [AllCanonical, ih, List.forall_mem_cons]

end Stmt

end Scripting
