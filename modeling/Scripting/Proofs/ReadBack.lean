/-
Written expressions are read back.

A canonical expression is written as lexemes, with something after it that does not go on with
it, and there is room for it. Then reading yields the expression again, up to positions, and leaves
what came after it.

The difficulty is that chains of operators and rows of calls are trees to the left, but are
read from the left: when the loop has come to some operator, what it has read so far is the left
operand of that operator and not the beginning of the tree. So the induction is not about what a
rule returns for an expression. It says where the reading is once the expression has been passed: if
the loop, with that expression in hand and the room that is then left, goes on to yield something,
then the rule yields the same from the start.
-/
import Scripting.Proofs.Room
import Scripting.Proofs.Lossless

set_option autoImplicit false

namespace Scripting

open Grammar

/-! ## Trees without positions -/

namespace Expr

mutual

/-- The expression with every position the same. -/
def unplaced : Expr → Expr
  | .literal v _ => .literal v .start
  | .var name _ => .var name .start
  | .unary op e _ => .unary op e.unplaced .start
  | .binary op left right _ => .binary op left.unplaced right.unplaced .start
  | .call callee arguments _ => .call callee.unplaced (unplacedEach arguments) .start
  | .assign name e _ => .assign name e.unplaced .start
  | .group e _ => .group e.unplaced .start

/-- Each of some expressions with every position the same. -/
def unplacedEach : List Expr → List Expr
  | [] => []
  | e :: es => e.unplaced :: unplacedEach es

end

end Expr

namespace Grammar

/-! ## Room as rules -/

/-- The rules one level further in, where `room` levels fit. -/
def Rules.further : Nat → Option Rules
  | 0 => none
  | room + 1 => some (Rules.withRoom room)

theorem Rules.withRoom_eq_around (room : Nat) :
    Rules.withRoom room = Rules.around (Rules.further room) := by
  cases room <;> rfl

theorem ExpressionRead.withRoom {n : Nat} {ts rest : List Lexeme} {e : Expr}
    (h : ExpressionRead (Rules.further n) ts e rest) :
    Yields ((Rules.withRoom n).expression ts) e rest := by
  rw [Rules.withRoom_eq_around]
  exact h.yields

theorem DeclarationRead.withRoom {n : Nat} {around : Surroundings} {ts rest : List Lexeme}
    {s : Stmt} (h : DeclarationRead (Rules.further n) around ts s rest) :
    Yields ((Rules.withRoom n).declaration around ts) s rest := by
  rw [Rules.withRoom_eq_around]
  exact h.yields

/-! ## Written marks -/

/-- The tokens in front of `rest` are those of the marks. -/
def Written : List Mark → List Lexeme → List Lexeme → Prop
  | [], ts, rest => ts = rest
  | m :: ms, ts, rest => ∃ l after, ts = l :: after ∧ l.token = m.token ∧ Written ms after rest

theorem written_append {ms ms' : List Mark} {ts rest : List Lexeme} :
    Written (ms ++ ms') ts rest ↔ ∃ mid, Written ms ts mid ∧ Written ms' mid rest := by
  induction ms generalizing ts with
  | nil =>
    constructor
    · intro h
      exact ⟨ts, rfl, h⟩
    · rintro ⟨mid, rfl, h⟩
      exact h
  | cons m ms ih =>
    constructor
    · rintro ⟨l, after, rfl, hl, h⟩
      obtain ⟨mid, h, h'⟩ := ih.mp h
      exact ⟨mid, ⟨l, after, rfl, hl, h⟩, h'⟩
    · rintro ⟨mid, ⟨l, after, rfl, hl, h⟩, h'⟩
      exact ⟨l, after, rfl, hl, ih.mpr ⟨mid, h, h'⟩⟩

theorem Written.next? {ms : List Mark} {ts rest : List Lexeme} (h : Written ms ts rest)
    (hms : ms ≠ []) : next? ts = Mark.first? ms := by
  cases ms with
  | nil => exact absurd rfl hms
  | cons m ms =>
    obtain ⟨l, after, rfl, hl, -⟩ := h
    exact congrArg some hl

theorem written_of_map {ms : List Mark} {ts : List Lexeme} {tokens : List Token}
    (h : ts.map (·.token) = ms.map (·.token) ++ tokens) :
    ∃ rest, Written ms ts rest ∧ rest.map (·.token) = tokens := by
  induction ms generalizing ts with
  | nil => exact ⟨ts, rfl, h⟩
  | cons m ms ih =>
    cases ts with
    | nil => cases h
    | cons l ts =>
      rw [List.map_cons, List.map_cons, List.cons_append, List.cons.injEq] at h
      obtain ⟨rest, hwritten, hrest⟩ := ih h.2
      exact ⟨rest, ⟨l, ts, rfl, h.1, hwritten⟩, hrest⟩

/-! ## Written lists -/

section Lists

variable {α β γ : Type} {item : Rule α} {marks : β → List Mark} {f : α → γ} {g : β → γ}

/-- A list in parentheses is read back if each of its items is, before a comma and before the
closing parenthesis. -/
theorem written_items {bs : List β} (hne : bs ≠ [])
    (hitem : ∀ b ∈ bs, ∀ {ts l rest}, l.token = .symbol .comma ∨ l.token = .symbol .rightParen →
      Written (marks b) ts (l :: rest) →
        next? ts ≠ some (.symbol .rightParen) ∧ ∃ a, f a = g b ∧ Yields (item ts) a (l :: rest))
    {ts rest : List Lexeme}
    (hwritten : Written ([Mark.plain (.symbol .comma)].intercalate (bs.map marks) ++
      [.plain (.symbol .rightParen)]) ts rest) :
    next? ts ≠ some (.symbol .rightParen) ∧
      ∃ as : List α, as.map f = bs.map g ∧ ItemsRead item ts as rest := by
  induction bs generalizing ts with
  | nil => exact absurd rfl hne
  | cons b bs ih =>
    obtain ⟨hb, hbs⟩ := List.forall_mem_cons.mp hitem
    cases bs with
    | nil =>
      rw [List.map_singleton, List.intercalate_singleton] at hwritten
      obtain ⟨mid, hwb, l, _, rfl, hl, rfl⟩ := written_append.mp hwritten
      obtain ⟨hnext, a, ha, hread⟩ := hb (.inr hl) hwb
      exact ⟨hnext, [a], by rw [List.map_singleton, List.map_singleton, ha], .last hread hl⟩
    | cons b₂ bs =>
      rw [List.map_cons, List.map_cons, List.intercalate_cons_cons, List.append_assoc,
        List.append_assoc, ← List.map_cons] at hwritten
      obtain ⟨mid, hwb, l, after, rfl, hl, hwbs⟩ := written_append.mp hwritten
      obtain ⟨hnext, a, ha, hread⟩ := hb (.inl hl) hwb
      obtain ⟨-, as, has, hmore⟩ := ih (List.cons_ne_nil _ _) hbs hwbs
      exact ⟨hnext, a :: as, by rw [List.map_cons, ha, has, ← List.map_cons], .more hread hl hmore⟩

theorem written_list {bs : List β}
    (hitem : ∀ b ∈ bs, ∀ {ts l rest}, l.token = .symbol .comma ∨ l.token = .symbol .rightParen →
      Written (marks b) ts (l :: rest) →
        next? ts ≠ some (.symbol .rightParen) ∧ ∃ a, f a = g b ∧ Yields (item ts) a (l :: rest))
    {ts rest : List Lexeme}
    (hwritten : Written ([Mark.plain (.symbol .comma)].intercalate (bs.map marks) ++
      [.plain (.symbol .rightParen)]) ts rest) :
    ∃ as : List α, as.map f = bs.map g ∧ ListRead item ts as rest := by
  cases bs with
  | nil =>
    obtain ⟨close, _, rfl, hclose, rfl⟩ := hwritten
    exact ⟨[], rfl, .none hclose⟩
  | cons b bs =>
    obtain ⟨hnext, as, has, hitems⟩ := written_items (List.cons_ne_nil b bs) hitem hwritten
    exact ⟨as, has, .some hnext hitems⟩

end Lists

end Grammar

/-! ## What a written expression begins with -/

theorem Mark.first?_append {ms ms' : List Mark} (h : ms ≠ []) :
    Mark.first? (ms ++ ms') = Mark.first? ms := by
  cases ms with
  | nil => exact absurd rfl h
  | cons m ms => rfl

theorem Expr.opens (e : Expr) : ∃ t, Mark.first? e.marks = some t ∧ opensExpression t = true := by
  induction e with
  | literal v p =>
    refine ⟨v.token, by rw [marks]; rfl, ?_⟩
    cases v with
    | bool b => cases b <;> rfl
    | number x | string x | nil => rfl
  | var name p | assign name e p _ => exact ⟨.identifier name, by rw [marks]; rfl, rfl⟩
  | unary op e p _ =>
    refine ⟨op.token, by rw [marks]; rfl, ?_⟩
    cases op <;> rfl
  | binary op left right p ihl _ =>
    rw [marks, Mark.first?_append left.marks_ne_nil]
    exact ihl
  | call callee arguments p ihc _ =>
    rw [marks, Mark.first?_append callee.marks_ne_nil]
    exact ihc
  | group e p _ => exact ⟨.symbol .leftParen, by rw [marks]; rfl, rfl⟩

theorem Expr.written_opens {e : Expr} {ts rest : List Lexeme} (h : Written e.marks ts rest) :
    ∃ t, next? ts = some t ∧ opensExpression t = true := by
  rw [h.next? e.marks_ne_nil]
  exact e.opens

/-! ## Passing an expression -/

namespace Grammar

/-- What comes next does not go on with an expression. -/
structure Ends (ts : List Lexeme) : Prop where
  uncalled : next? ts ≠ some (.symbol .leftParen)
  unoperated : nextOperator? ts = none
  unassigned : next? ts ≠ some (.symbol .equals)

theorem Ends.of_cons {l : Lexeme} {ts : List Lexeme} {t : Token} (hl : l.token = t)
    (ht : t ≠ .symbol .leftParen ∧ BinaryOperator.ofToken? t = none ∧ t ≠ .symbol .equals) :
    Ends (l :: ts) := by
  subst hl
  exact ⟨by simpa using ht.1, ht.2.1, by simpa using ht.2.2⟩

end Grammar

namespace Expr

/-- Past a callee, it is the row of calls that goes on. -/
def PassedAsCallee (e : Expr) : Prop :=
  ∀ ⦃n ts rest⦄, e.room ≤ n → Written e.marks ts rest →
    ∃ e', e'.unplaced = e.unplaced ∧ ∀ ⦃v rest'⦄,
      CallsRead (Rules.further (n - e.row)) e' rest v rest' → UnaryRead (Rules.further n) ts v rest'

/-- An operand is read by the rule for operands. -/
def ReadAsOperand (e : Expr) : Prop :=
  ∀ ⦃n ts rest⦄, e.room ≤ n → Written e.marks ts rest → next? rest ≠ some (.symbol .leftParen) →
    ∃ e', e'.unplaced = e.unplaced ∧ UnaryRead (Rules.further n) ts e' rest

/-- Past a left operand, it is the chain of operators that goes on. -/
def PassedAsLeft (e : Expr) : Prop :=
  ∀ ⦃n ts rest⦄ (least : Precedence), least.tightness ≤ e.tightness → e.room ≤ n →
    Written e.marks ts rest → next? rest ≠ some (.symbol .leftParen) →
    (∀ op, nextOperator? rest = some op → op.tightness ≤ e.tightness) →
    ∃ e', e'.unplaced = e.unplaced ∧ ∀ ⦃v rest'⦄,
      OperatorsRead (Rules.further (n - e.chain)) least e' rest v rest' →
        PrecedenceRead (Rules.further n) least ts v rest'

/-- An expression with nothing after it that goes on with it is read as it is. -/
def ReadAsWhole (e : Expr) : Prop :=
  ∀ ⦃n ts rest⦄, e.room ≤ n → Written e.marks ts rest → Ends rest →
    ∃ e', e'.unplaced = e.unplaced ∧ ExpressionRead (Rules.further n) ts e' rest

/-- An expression is read back wherever it binds tightly enough to stand. -/
structure ReadBack (e : Expr) : Prop where
  callee : Precedence.unary.tightness < e.tightness → e.PassedAsCallee
  operand : Precedence.unary.tightness ≤ e.tightness → e.ReadAsOperand
  left : Precedence.or.tightness ≤ e.tightness → e.PassedAsLeft
  whole : e.ReadAsWhole

variable {e : Expr}

theorem chain_eq_zero (h : Precedence.unary.tightness ≤ e.tightness) : e.chain = 0 := by
  cases e with
  | binary op left right p => exact absurd h (Nat.not_le.mpr op.tightness_lt_unary)
  | _ => rfl

/-! ### From tighter to looser places -/

theorem PassedAsCallee.readAsOperand (h : e.PassedAsCallee) : e.ReadAsOperand := by
  intro n ts rest hroom hwritten hnext
  obtain ⟨e', he', hpass⟩ := h hroom hwritten
  exact ⟨e', he', hpass (.done hnext)⟩

theorem ReadAsOperand.passedAsLeft (h : e.ReadAsOperand)
    (htight : Precedence.unary.tightness ≤ e.tightness) : e.PassedAsLeft := by
  intro n ts rest least _ hroom hwritten hnext _
  obtain ⟨e', he', hread⟩ := h hroom hwritten hnext
  refine ⟨e', he', fun v rest' hmore => .intro hread ?_⟩
  rwa [chain_eq_zero htight] at hmore

theorem PassedAsLeft.readAsWhole (h : e.PassedAsLeft)
    (htight : Precedence.or.tightness ≤ e.tightness) : e.ReadAsWhole := by
  intro n ts rest hroom hwritten hends
  obtain ⟨e', he', hpass⟩ := h .or htight hroom hwritten hends.uncalled
    fun op hop => by rw [hends.unoperated] at hop; cases hop
  refine ⟨e', he', .plain (hpass (.done fun op hop => ?_)) hends.unassigned⟩
  rw [hends.unoperated] at hop
  cases hop

theorem ReadBack.of_callee (htight : Precedence.unary.tightness < e.tightness)
    (h : e.PassedAsCallee) : e.ReadBack where
  callee _ := h
  operand _ := h.readAsOperand
  left _ := h.readAsOperand.passedAsLeft (Nat.le_of_lt htight)
  whole := (h.readAsOperand.passedAsLeft (Nat.le_of_lt htight)).readAsWhole
    (Nat.le_trans (by decide) (Nat.le_of_lt htight))

theorem ReadBack.of_operand (htight : e.tightness = Precedence.unary.tightness)
    (h : e.ReadAsOperand) : e.ReadBack where
  callee hlt := absurd hlt (by omega)
  operand _ := h
  left _ := h.passedAsLeft (by omega)
  whole := (h.passedAsLeft (by omega)).readAsWhole (by rw [htight]; decide)

theorem ReadBack.of_left (htight : e.tightness < Precedence.unary.tightness)
    (hor : Precedence.or.tightness ≤ e.tightness) (h : e.PassedAsLeft) : e.ReadBack where
  callee hlt := absurd hlt (by omega)
  operand hle := absurd hle (by omega)
  left _ := h
  whole := h.readAsWhole hor

theorem ReadBack.of_whole (htight : e.tightness = 0) (h : e.ReadAsWhole) : e.ReadBack where
  callee hlt := absurd hlt (by omega)
  operand hle := absurd hle (by rw [htight]; decide)
  left hle := absurd hle (by rw [htight]; decide)
  whole := h

/-! ### One case for each node -/

theorem readBack_literal (v : Literal) (p : Position) : (Expr.literal v p).ReadBack := by
  refine .of_callee (Nat.lt_succ_self _) fun n ts rest _ hwritten => ?_
  rw [marks] at hwritten
  obtain ⟨l, after, rfl, hl, rfl⟩ := hwritten
  exact ⟨.literal v l.position, by simp only [unplaced],
    fun _ _ hmore => .calls (.literal hl) hmore⟩

theorem readBack_var (name : String) (p : Position) : (Expr.var name p).ReadBack := by
  refine .of_callee (Nat.lt_succ_self _) fun n ts rest _ hwritten => ?_
  rw [marks] at hwritten
  obtain ⟨l, after, rfl, hl, rfl⟩ := hwritten
  exact ⟨.var name l.position, by simp only [unplaced], fun _ _ hmore => .calls (.var hl) hmore⟩

theorem readBack_group {e : Expr} (p : Position) (h : e.ReadBack) : (Expr.group e p).ReadBack := by
  refine .of_callee (Nat.lt_succ_self _) fun n ts rest hroom hwritten => ?_
  rw [room] at hroom
  obtain ⟨m, rfl⟩ : ∃ m, n = m + 1 := ⟨n - 1, by omega⟩
  rw [marks] at hwritten
  obtain ⟨l, after, rfl, hl, hwritten⟩ := hwritten
  obtain ⟨mid, he, close, _, rfl, hclose, rfl⟩ := written_append.mp hwritten
  obtain ⟨e', he', hread⟩ := h.whole (Nat.le_of_succ_le_succ hroom) he
    (.of_cons hclose (by decide))
  refine ⟨.group e' l.position, by simp only [unplaced, he'], fun _ _ hmore => ?_⟩
  exact .calls (.group hl rfl hread.withRoom hclose) hmore

theorem readBack_unary {e : Expr} (op : UnaryOperator) (p : Position)
    (htight : Precedence.unary.tightness ≤ e.tightness) (h : e.ReadBack) :
    (Expr.unary op e p).ReadBack := by
  refine .of_operand rfl fun n ts rest hroom hwritten hnext => ?_
  rw [room] at hroom
  obtain ⟨m, rfl⟩ : ∃ m, n = m + 1 := ⟨n - 1, by omega⟩
  rw [marks] at hwritten
  obtain ⟨l, after, rfl, hl, hwritten⟩ := hwritten
  obtain ⟨e', he', hread⟩ := h.operand htight (Nat.le_of_succ_le_succ hroom) hwritten hnext
  have hop : UnaryOperator.ofToken? l.token = some op := by
    rw [hl]
    exact op.ofToken?_token
  refine ⟨.unary op e' l.position, by simp only [unplaced, he'], .operator hop rfl ?_⟩
  rw [Rules.withRoom_eq_around]
  exact hread.yields

theorem readBack_assign {e : Expr} (name : String) (p : Position) (h : e.ReadBack) :
    (Expr.assign name e p).ReadBack := by
  refine .of_whole rfl fun n ts rest hroom hwritten hends => ?_
  rw [room] at hroom
  obtain ⟨m, rfl⟩ : ∃ m, n = m + 1 := ⟨n - 1, by omega⟩
  rw [marks] at hwritten
  obtain ⟨l, _, rfl, hl, equals, after, rfl, (hequals : _ = Token.symbol .equals), hwritten⟩ :=
    hwritten
  obtain ⟨e', he', hread⟩ := h.whole (Nat.le_of_succ_le_succ hroom) hwritten hends
  -- The name is an operand of its own: the `=` after it is no call and no operator.
  refine ⟨.assign name e' equals.position, by simp only [unplaced, he'],
    .assign (.intro (.calls (.var hl) (.done ?_)) (.done fun op hop => ?_)) hequals rfl
      hread.withRoom⟩
  · rw [next?_cons, hequals]
    decide
  · rw [nextOperator?_cons, hequals] at hop
    cases hop

theorem readBack_binary {left right : Expr} (op : BinaryOperator) (p : Position)
    (hltight : op.tightness ≤ left.tightness) (hrtight : op.tightness < right.tightness)
    (hleft : left.ReadBack) (hright : right.ReadBack) :
    (Expr.binary op left right p).ReadBack := by
  refine .of_left op.tightness_lt_unary op.one_le_tightness
    fun n ts rest least hleast hroom hwritten hnext hleads => ?_
  rw [room] at hroom
  rw [marks] at hwritten
  obtain ⟨mid, hwl, l, after, rfl, (hl : l.token = op.token), hwr⟩ := written_append.mp hwritten
  have hop : BinaryOperator.ofToken? l.token = some op := by
    rw [hl]
    exact op.ofToken?_token
  have hleast' : least.tightness ≤ op.tightness := hleast
  have hone := op.one_le_tightness
  obtain ⟨left', hleft', hpass⟩ := hleft.left (Nat.le_trans hone hltight) (n := n) least
    (Nat.le_trans hleast' hltight) (by omega) hwl
    (by rw [next?_cons, hl]; cases op <;> decide)
    (fun op' hop' => by
      rw [nextOperator?_cons, hop] at hop'
      cases hop'
      exact hltight)
  -- The right operand is read one level further in than its operator.
  obtain ⟨m, hm⟩ : ∃ m, n - left.chain = m + 1 := ⟨n - left.chain - 1, by omega⟩
  obtain ⟨right', hright', hpass'⟩ := hright.left (Nat.le_trans hone (Nat.le_of_lt hrtight))
    (n := m) op.precedence.next (by rw [op.tightness_next]; exact hrtight) (by omega) hwr hnext
    (fun op' hop' => Nat.le_trans (hleads op' hop') (Nat.le_of_lt hrtight))
  refine ⟨.binary op left' right' l.position, by simp only [unplaced, hleft', hright'],
    fun v rest' hmore => hpass ?_⟩
  rw [hm]
  -- It ends where the loop goes on: what comes next binds no tighter than the operator.
  have hread : Yields ((Rules.withRoom m).precedence op.precedence.next after) right' rest := by
    rw [Rules.withRoom_eq_around]
    refine yields_precedence.mpr (hpass' (.done fun op' hop' hle => ?_))
    have hlt := Precedence.le_iff_tightness.mp hle
    have hle' : op'.tightness ≤ op.tightness := hleads op' hop'
    rw [op.tightness_next] at hlt
    omega
  refine .operator hop (Precedence.le_iff_tightness.mpr hleast) rfl hread ?_
  rw [chain, ← Nat.sub_sub, hm] at hmore
  rw [Rules.withRoom_eq_around]
  exact yields_operators.mpr hmore

theorem unplacedEach_eq_map (es : List Expr) : unplacedEach es = es.map unplaced := by
  induction es with
  | nil => rfl
  | cons e es ih => rw [unplacedEach, ih, List.map_cons]

/-- The arguments of a call, after the parenthesis that opens them. -/
theorem readBack_arguments {k : Nat} {es : List Expr} (h : ∀ e ∈ es, e.ReadBack)
    (hroom : roomOfAll es ≤ k) {ts rest : List Lexeme}
    (hwritten : Written ([Mark.plain (.symbol .comma)].intercalate (marksEach es) ++
      [.plain (.symbol .rightParen)]) ts rest) :
    ∃ es', es'.map unplaced = es.map unplaced ∧
      ListRead (Rules.withRoom k).expression ts es' rest := by
  rw [marksEach_eq_map] at hwritten
  refine written_list (fun e he ts l rest hl hwe => ?_) hwritten
  constructor
  -- No expression begins with a closing parenthesis, so the list is not taken for an empty one.
  · intro hparen
    obtain ⟨t, ht, hopens⟩ := written_opens hwe
    rw [hparen] at ht
    cases ht
    cases hopens
  · have hends : Ends (l :: rest) := by
      rcases hl with hl | hl
      · exact .of_cons hl (by decide)
      · exact .of_cons hl (by decide)
    obtain ⟨e', he', hread⟩ := (h e he).whole (roomOfAll_le_iff.mp hroom e he) hwe hends
    exact ⟨e', he', hread.withRoom⟩

theorem readBack_call {callee : Expr} {arguments : List Expr} (p : Position)
    (htight : Precedence.unary.tightness < callee.tightness) (hlen : arguments.length ≤ maxItems)
    (hcallee : callee.ReadBack) (harguments : ∀ e ∈ arguments, e.ReadBack) :
    (Expr.call callee arguments p).ReadBack := by
  refine .of_callee (Nat.lt_succ_self _) fun n ts rest hroom hwritten => ?_
  rw [room] at hroom
  rw [marks, Mark.inParentheses] at hwritten
  obtain ⟨mid, hwc, l, after, rfl, hl, hwa⟩ := written_append.mp hwritten
  obtain ⟨callee', hcallee', hpass⟩ := hcallee.callee htight (n := n) (by omega) hwc
  -- The arguments are read one level further in than the call.
  obtain ⟨m, hm⟩ : ∃ m, n - callee.row = m + 1 := ⟨n - callee.row - 1, by omega⟩
  obtain ⟨arguments', hsame, hlist⟩ := readBack_arguments (k := m) harguments (by omega) hwa
  have hlen' : arguments'.length ≤ maxItems := by
    have heq := congrArg List.length hsame
    rw [List.length_map, List.length_map] at heq
    rwa [heq]
  refine ⟨.call callee' arguments' l.position, ?_, fun v rest' hmore => hpass ?_⟩
  · simp only [unplaced, unplacedEach_eq_map, hcallee', hsame]
  · rw [hm]
    refine .call hl rfl hlist hlen' ?_
    rw [row, ← Nat.sub_sub, hm] at hmore
    rw [Rules.withRoom_eq_around]
    exact yields_calls.mpr hmore

/-- **Canonical expressions are read back** wherever they can stand. -/
theorem Canonical.readBack {e : Expr} (h : e.Canonical) : e.ReadBack := by
  induction e with
  | literal v p => exact readBack_literal v p
  | var name p => exact readBack_var name p
  | unary op e p ih =>
    simp only [Canonical] at h
    exact readBack_unary op p h.1 (ih h.2)
  | binary op left right p ihl ihr =>
    simp only [Canonical] at h
    obtain ⟨hl, hr, hleft, hright⟩ := h
    exact readBack_binary op p hl hr (ihl hleft) (ihr hright)
  | call callee arguments p ihc iha =>
    simp only [Canonical, allCanonical_iff] at h
    obtain ⟨htight, hlen, hcallee, harguments⟩ := h
    exact readBack_call p htight hlen (ihc hcallee) fun e he => iha e he (harguments e he)
  | assign name e p ih =>
    simp only [Canonical] at h
    exact readBack_assign name p (ih h)
  | group e p ih =>
    simp only [Canonical] at h
    exact readBack_group p (ih h)

end Expr

end Scripting
