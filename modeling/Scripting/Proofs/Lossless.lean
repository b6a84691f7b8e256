/-
Nothing is lost in reading.

Whatever lexemes a program is read from, its statements written as marks are these lexemes again,
up to the first end of input and without the semicolons, and the statements are canonical. This
is shown rule by rule, each under the same assumption on the rules one level further in, and then
for all levels by induction on the room.

Two rules go on after an expression that has been read, and it is there that trees could be put
together wrongly. What they are given is *pending*: a canonical expression such that the operator
that comes next, if any, does not bind tighter than it. What they return is *finished*: besides,
no operator that they should have read comes next.
-/
import Mathlib.Data.List.Forall2
import Scripting.Proofs.Spelling

set_option autoImplicit false

namespace Scripting

namespace Grammar

/-! ## Marks among semicolons -/

/-- Whether a token is part of a written tree: the separators and the end are not. -/
def isWritten : Token → Bool
  | .symbol .semicolon | .endOfInput => false
  | _ => true

/-- The lexemes in front of `rest` are the marks, with semicolons anywhere between them. -/
inductive Spells : List Mark → List Lexeme → List Lexeme → Prop
  | done {ts : List Lexeme} : Spells [] ts ts
  | mark {m : Mark} {ms : List Mark} {l : Lexeme} {ts rest : List Lexeme} : m.Fits l →
      isWritten l.token = true → Spells ms ts rest → Spells (m :: ms) (l :: ts) rest
  | semicolon {ms : List Mark} {l : Lexeme} {ts rest : List Lexeme} : isSemicolon l = true →
      Spells ms ts rest → Spells ms (l :: ts) rest

namespace Spells

variable {ms more : List Mark} {ts mid rest : List Lexeme} {l : Lexeme} {t : Token}

theorem kept (hl : l.token = t) (ht : isWritten t = true) (h : Spells ms ts rest) :
    Spells (.kept t l.position :: ms) (l :: ts) rest := by
  refine .mark ⟨hl, fun p hp => ?_⟩ (by rwa [hl]) h
  exact List.mem_singleton.mp hp

theorem plain (hl : l.token = t) (ht : isWritten t = true) (h : Spells ms ts rest) :
    Spells (.plain t :: ms) (l :: ts) rest := by
  refine .mark ⟨hl, fun p hp => ?_⟩ (by rwa [hl]) h
  cases hp

theorem trans (h : Spells ms ts mid) (h' : Spells more mid rest) : Spells (ms ++ more) ts rest := by
  induction h with
  | done => exact h'
  | mark hm hl _ ih => exact .mark hm hl (ih h')
  | semicolon hl _ ih => exact .semicolon hl (ih h')

/-- No node has to keep a position. -/
theorem forget {p : Position} (h : Spells (.kept t p :: ms) ts rest) :
    Spells (.plain t :: ms) ts rest := by
  -- Semicolons may stand in front of the mark, so the induction passes them.
  generalize hkept : Mark.kept t p :: ms = kept at h
  induction h with
  | done => cases hkept
  | mark hm hw h _ =>
    cases hkept
    exact .plain hm.1 (by rwa [hm.1] at hw) h
  | semicolon hl _ ih => exact .semicolon hl (ih hkept)

/-- Semicolons in front do not matter. -/
theorem of_dropWhile (h : Spells ms (ts.dropWhile isSemicolon) rest) : Spells ms ts rest := by
  induction ts with
  | nil => exact h
  | cons l ts ih =>
    rw [List.dropWhile_cons] at h
    split at h
    · next hl => exact .semicolon hl (ih h)
    · exact h

/-- Without a semicolon in front, what comes next is the first mark. -/
theorem next?_eq (h : Spells ms ts rest) (hms : ms ≠ [])
    (hnext : next? ts ≠ some (.symbol .semicolon)) : next? ts = Mark.first? ms := by
  cases h with
  | done => exact absurd rfl hms
  | mark hm _ _ =>
    obtain ⟨hl, -⟩ := hm
    rw [next?_cons, hl]
    rfl
  | semicolon hl _ => exact absurd (congrArg some (of_decide_eq_true hl)) hnext

/-- A node may keep the position of the first lexeme too. -/
theorem stampFirst (h : Spells ms (l :: ts) rest) (hl : isSemicolon l = false) :
    Spells (Mark.stampFirst l.position ms) (l :: ts) rest := by
  cases h with
  | done => exact .done
  | mark hm hw h =>
    refine .mark ⟨hm.1, fun p hp => ?_⟩ hw h
    rcases List.mem_cons.mp hp with rfl | hp
    · rfl
    · exact hm.2 p hp
  | semicolon hs _ =>
    rw [hl] at hs
    cases hs

/-- Marks up to the end are the lexemes in front of it that are no semicolons. -/
theorem fits (h : Spells ms ts rest)
    (hend : ∀ l, rest.head? = some l → l.token = .endOfInput) :
    List.Forall₂ Mark.Fits ms ((ts.takeWhile (·.token ≠ .endOfInput)).filter (!isSemicolon ·)) := by
  induction h with
  | @done ts =>
    cases ts with
    | nil => exact .nil
    | cons l ts => simp [hend l rfl]
  | @mark m ms l ts rest hm hw _ ih =>
    have hne : l.token ≠ .endOfInput := by
      intro he
      rw [he] at hw
      cases hw
    have hs : isSemicolon l = false := by
      refine decide_eq_false fun he => ?_
      rw [he] at hw
      cases hw
    rw [List.takeWhile_cons_of_pos (by simpa using hne),
      List.filter_cons_of_pos (by simpa using hs)]
    exact .cons hm (ih hend)
  | @semicolon ms l ts rest hs _ ih =>
    have hne : l.token ≠ .endOfInput := by
      intro he
      rw [isSemicolon, he] at hs
      cases hs
    rw [List.takeWhile_cons_of_pos (by simpa using hne),
      List.filter_cons_of_neg (by simpa using hs)]
    exact ih hend

end Spells

/-! ## What comes first -/

/-- Whether an expression can begin with a token. -/
def opensExpression : Token → Bool
  | .number _ | .string _ | .identifier _ | .keyword .true_ | .keyword .false_ | .keyword .nil_
  | .symbol .leftParen | .symbol .minus | .symbol .bang => true
  | _ => false

theorem isWritten_of_opens {t : Token} (h : opensStatement t = true ∨ opensExpression t = true) :
    isWritten t = true := by
  unfold isWritten
  split
  · exact absurd h (by decide)
  · exact absurd h (by decide)
  · rfl

section Opens

variable {inner : Option Rules} {around : Surroundings} {ts rest : List Lexeme} {e : Expr}

theorem PrimaryRead.opens (h : PrimaryRead inner ts e rest) :
    ∃ t, next? ts = some t ∧ opensExpression t = true := by
  cases h with
  | @literal l rest v hl =>
    refine ⟨_, congrArg some hl, ?_⟩
    cases v with
    | bool b => cases b <;> rfl
    | number x | string x | nil => rfl
  | var hl => exact ⟨_, congrArg some hl, rfl⟩
  | group hl => exact ⟨_, congrArg some hl, rfl⟩

theorem UnaryRead.opens (h : UnaryRead inner ts e rest) :
    ∃ t, next? ts = some t ∧ opensExpression t = true := by
  cases h with
  | @operator l ts op _ _ _ hop =>
    refine ⟨_, congrArg some (UnaryOperator.eq_token_of_ofToken? hop), ?_⟩
    cases op <;> rfl
  | calls hprimary _ => exact hprimary.opens

theorem ExpressionRead.opens (h : ExpressionRead inner ts e rest) :
    ∃ t, next? ts = some t ∧ opensExpression t = true := by
  cases h with
  | plain h =>
    obtain ⟨hunary, -⟩ := h
    exact hunary.opens
  | assign h =>
    obtain ⟨hunary, -⟩ := h
    exact hunary.opens

theorem StatementRead.opens {s : Stmt} (h : StatementRead inner around ts s rest) :
    ∃ t, next? ts = some t ∧ (opensStatement t = true ∨ opensExpression t = true) := by
  cases h with
  | expression _ he =>
    obtain ⟨t, ht, hopens⟩ := he.opens
    exact ⟨t, ht, .inr hopens⟩
  | print hl | block hl | cond hl | condElse hl | loop hl | returnNothing hl | returnValue hl
  | break_ hl | continue_ hl => exact ⟨_, congrArg some hl, .inl rfl⟩

end Opens

/-! ## Expressions -/

/-- An expression has been read from the front of `ts`, and operators may go on from it. -/
structure Pending (least : Nat) (ts : List Lexeme) (e : Expr) (rest : List Lexeme) : Prop where
  spelled : Spells e.marks ts rest
  canonical : e.Canonical
  binds : least ≤ e.tightness
  uncalled : next? rest ≠ some (.symbol .leftParen)
  leads : ∀ op, nextOperator? rest = some op → op.tightness ≤ e.tightness

/-- An expression has been read from the front of `ts`, and no operator from `least` on follows. -/
structure Finished (least : Nat) (ts : List Lexeme) (e : Expr) (rest : List Lexeme) : Prop
    extends Pending least ts e rest where
  stops : ∀ op, nextOperator? rest = some op → op.tightness < least

/-- A callee has been read from the front of `ts`. -/
structure Callable (ts : List Lexeme) (e : Expr) (rest : List Lexeme) : Prop where
  spelled : Spells e.marks ts rest
  canonical : e.Canonical
  binds : Precedence.unary.tightness < e.tightness

/-- A callee with no call after it is an operand. -/
theorem Callable.finished {ts rest : List Lexeme} {e : Expr} (h : Callable ts e rest)
    (hnext : next? rest ≠ some (.symbol .leftParen)) :
    Finished Precedence.unary.tightness ts e rest where
  spelled := h.spelled
  canonical := h.canonical
  binds := Nat.le_of_lt h.binds
  uncalled := hnext
  leads op _ := Nat.le_of_lt (Nat.lt_trans op.tightness_lt_unary h.binds)
  stops op _ := op.tightness_lt_unary

/-- A level is no looser for a looser one. -/
theorem Pending.mono {least least' : Nat} {ts rest : List Lexeme} {e : Expr}
    (h : Pending least ts e rest) (hle : least' ≤ least) : Pending least' ts e rest :=
  { h with binds := Nat.le_trans hle h.binds }

/-! ## Statements -/

/-- A statement has been read from the front of `ts`. -/
structure Stated (around : Surroundings) (ts : List Lexeme) (s : Stmt) (rest : List Lexeme) :
    Prop where
  spelled : Spells (s.marks []) ts rest
  opens : ∃ t, next? ts = some t ∧ isWritten t = true
  canonical : s.Canonical around
  closed : s.endsOpen = true → next? rest ≠ some (.keyword .else_)

/-- What the rules at one level keep of the lexemes. -/
structure Rules.Faithful (rules : Rules) : Prop where
  expression {ts e rest} : Yields (rules.expression ts) e rest → Finished 0 ts e rest
  precedence {least ts e rest} : Yields (rules.precedence least ts) e rest →
    Finished least.tightness ts e rest
  operators {least start left ts e rest} : Yields (rules.operators least left ts) e rest →
    Pending least.tightness start left ts → Finished least.tightness start e rest
  unary {ts e rest} : Yields (rules.unary ts) e rest →
    Finished Precedence.unary.tightness ts e rest
  calls {start callee ts e rest} : Yields (rules.calls callee ts) e rest →
    Callable start callee ts → Finished Precedence.unary.tightness start e rest
  statement {around ts s rest} : Yields (rules.statement around ts) s rest →
    Stated around ts s rest ∧ s.isBranch = true
  declaration {around ts s rest} : Yields (rules.declaration around ts) s rest →
    Stated around ts s rest

/-! ## One level -/

section Level

variable {inner : Option Rules} (hinner : ∀ rules, inner = some rules → rules.Faithful)
variable {around : Surroundings} {ts rest : List Lexeme} {e : Expr} {s : Stmt}

include hinner

theorem PrimaryRead.callable (h : PrimaryRead inner ts e rest) : Callable ts e rest := by
  cases h with
  | @literal l rest v hl =>
    refine ⟨.kept hl ?_ .done, by simp only [Expr.Canonical], Nat.lt_succ_self _⟩
    cases v with
    | bool b => cases b <;> rfl
    | number x | string x | nil => rfl
  | var hl => exact ⟨.kept hl rfl .done, by simp only [Expr.Canonical], Nat.lt_succ_self _⟩
  | group hl hrules he hclose =>
    have hfinished := (hinner _ hrules).expression he
    refine ⟨?_, by simpa only [Expr.Canonical] using hfinished.canonical, Nat.lt_succ_self _⟩
    rw [Expr.marks]
    exact .kept hl rfl (hfinished.spelled.trans (.plain hclose rfl .done))

omit hinner in
/-- The items of a list, with the parenthesis that ends them. -/
theorem ItemsRead.spelled {α : Type} {item : Rule α} {marks : α → List Mark} {good : α → Prop}
    (hitem : ∀ {ts x rest}, Yields (item ts) x rest → Spells (marks x) ts rest ∧ good x)
    {xs : List α} (h : ItemsRead item ts xs rest) :
    Spells ([Mark.plain (.symbol .comma)].intercalate (xs.map marks) ++
      [.plain (.symbol .rightParen)]) ts rest ∧ ∀ x ∈ xs, good x := by
  induction h with
  | last hx hl =>
    obtain ⟨hspelled, hgood⟩ := hitem hx
    refine ⟨?_, by simpa using hgood⟩
    rw [List.map_singleton, List.intercalate_singleton]
    exact hspelled.trans (.plain hl rfl .done)
  | @more ts x l after xs rest hx hl hmore ih =>
    obtain ⟨hspelled, hgood⟩ := hitem hx
    obtain ⟨hspelled', hgood'⟩ := ih
    refine ⟨?_, List.forall_mem_cons.mpr ⟨hgood, hgood'⟩⟩
    have hne : xs.map marks ≠ [] := by
      cases hmore <;> simp
    rw [List.map_cons, List.intercalate_cons_of_ne_nil hne, List.append_assoc, List.append_assoc]
    exact hspelled.trans (.plain hl rfl hspelled')

omit hinner in
theorem ListRead.spelled {α : Type} {item : Rule α} {marks : α → List Mark} {good : α → Prop}
    (hitem : ∀ {ts x rest}, Yields (item ts) x rest → Spells (marks x) ts rest ∧ good x)
    {xs : List α} (h : ListRead item ts xs rest) :
    Spells ([Mark.plain (.symbol .comma)].intercalate (xs.map marks) ++
      [.plain (.symbol .rightParen)]) ts rest ∧ ∀ x ∈ xs, good x := by
  cases h with
  | none hl => exact ⟨.plain hl rfl .done, by simp⟩
  | some _ hread => exact hread.spelled hitem

theorem CallsRead.finished {start : List Lexeme} {callee : Expr}
    (h : CallsRead inner callee ts e rest) (hcallee : Callable start callee ts) :
    Finished Precedence.unary.tightness start e rest := by
  cases h with
  | done hnext => exact hcallee.finished hnext
  | call hl hrules hread hlen hmore =>
    have hfaithful := hinner _ hrules
    obtain ⟨hspelled, hcanonical⟩ := hread.spelled
      fun he => ⟨(hfaithful.expression he).spelled, (hfaithful.expression he).canonical⟩
    refine hfaithful.calls hmore ⟨?_, ?_, Nat.lt_succ_self _⟩
    · rw [Expr.marks, Expr.marksEach_eq_map]
      exact hcallee.spelled.trans (.kept hl rfl hspelled)
    · simp only [Expr.Canonical]
      exact ⟨hcallee.binds, hlen, hcallee.canonical, Expr.allCanonical_iff.mpr hcanonical⟩

theorem UnaryRead.finished (h : UnaryRead inner ts e rest) :
    Finished Precedence.unary.tightness ts e rest := by
  cases h with
  | @operator l ts op rules e rest hop hrules he =>
    have hfinished := (hinner _ hrules).unary he
    have htoken := UnaryOperator.eq_token_of_ofToken? hop
    refine ⟨⟨?_, ?_, Nat.le_refl _, hfinished.uncalled, ?_⟩, hfinished.stops⟩
    · rw [Expr.marks]
      exact .kept htoken (by cases op <;> rfl) hfinished.spelled
    · simp only [Expr.Canonical]
      exact ⟨hfinished.binds, hfinished.canonical⟩
    · intro op' _
      exact Nat.le_of_lt op'.tightness_lt_unary
  | calls hprimary hcalls =>
    exact CallsRead.finished hinner hcalls (PrimaryRead.callable hinner hprimary)

theorem OperatorsRead.finished {least : Precedence} {start : List Lexeme} {left : Expr}
    (h : OperatorsRead inner least left ts e rest)
    (hleft : Pending least.tightness start left ts) :
    Finished least.tightness start e rest := by
  cases h with
  | done hstop =>
    refine ⟨hleft, fun op hop => ?_⟩
    exact Nat.lt_of_not_le fun hle => hstop op hop (Precedence.le_iff_tightness.mpr hle)
  | @operator l ts op rules right after e rest hop hle hrules hright hmore =>
    have hfaithful := hinner _ hrules
    have hr := hfaithful.precedence hright
    have htoken := BinaryOperator.eq_token_of_ofToken? hop
    have htight : op.tightness < right.tightness := by
      have hbinds := hr.binds
      rw [op.tightness_next] at hbinds
      exact hbinds
    -- The operator was next after `left`, so `left` does not bind looser; what the right operand
    -- stopped at does not bind tighter than the operator.
    refine hfaithful.operators hmore ⟨?_, ?_, Precedence.le_iff_tightness.mp hle, hr.uncalled, ?_⟩
    · rw [Expr.marks]
      exact hleft.spelled.trans (.kept htoken (by cases op <;> rfl) hr.spelled)
    · simp only [Expr.Canonical]
      exact ⟨hleft.leads op hop, htight, hleft.canonical, hr.canonical⟩
    · intro op' hop'
      have hstop := hr.stops op' hop'
      rw [op.tightness_next] at hstop
      exact Nat.le_of_lt_succ hstop

theorem PrecedenceRead.finished {least : Precedence} (h : PrecedenceRead inner least ts e rest) :
    Finished least.tightness ts e rest := by
  obtain ⟨hunary, hoperators⟩ := h
  have hleft := (UnaryRead.finished hinner hunary).toPending
  -- An operand binds tighter than any binary operator, whichever level was asked for.
  refine OperatorsRead.finished hinner hoperators (hleft.mono ?_)
  cases least <;> decide

theorem ExpressionRead.finished (h : ExpressionRead inner ts e rest) : Finished 0 ts e rest := by
  cases h with
  | plain htarget hnext =>
    have hfinished := PrecedenceRead.finished hinner htarget
    -- Every operator is of some level, so after the loosest level no operator can follow.
    refine ⟨hfinished.mono (Nat.zero_le _), fun op hop => ?_⟩
    exact absurd (hfinished.stops op hop) (Nat.not_lt.mpr op.one_le_tightness)
  | assign htarget hl hrules he =>
    have hfinished := (hinner _ hrules).expression he
    -- The tree keeps the position of the `=` and not that of the name.
    have hname := (PrecedenceRead.finished hinner htarget).spelled
    rw [Expr.marks] at hname
    refine ⟨⟨?_, by simpa only [Expr.Canonical] using hfinished.canonical, Nat.zero_le _,
      hfinished.uncalled, fun op hop => ?_⟩, hfinished.stops⟩
    · rw [Expr.marks]
      exact hname.forget.trans (.kept hl rfl hfinished.spelled)
    · exact absurd (hfinished.stops op hop) (Nat.not_lt_zero _)

omit hinner in
/-- The statements of a block, with the brace that ends them. -/
theorem BlockRead.spelled {declaration : Rule Stmt}
    (hdeclaration : ∀ {ts s rest}, Yields (declaration ts) s rest → Stated around ts s rest)
    {body : List Stmt} (h : BlockRead declaration ts body rest) :
    Spells (Stmt.marksAll [] body ++ [.plain (.symbol .rightBrace)]) ts rest ∧
      Stmt.AllCanonical around body := by
  induction h with
  | close hdrop hl =>
    refine ⟨.of_dropWhile ?_, by simp only [Stmt.AllCanonical]⟩
    rw [hdrop]
    exact .plain hl rfl .done
  | more hdrop _ _ hs _ ih =>
    have hstated := hdeclaration hs
    obtain ⟨hspelled, hcanonical⟩ := ih
    refine ⟨.of_dropWhile ?_, ?_⟩
    · rw [hdrop, Stmt.marksAll_nil_cons, List.append_assoc]
      exact hstated.spelled.trans hspelled
    · simp only [Stmt.AllCanonical]
      exact ⟨hstated.canonical, hcanonical⟩

omit hinner in
/-- What follows the test of a conditional or a loop does not begin like a part of the test. -/
theorem Stated.startsApart (h : Stated around ts s rest) {start : List Lexeme} {test : Expr}
    (htest : Finished 0 start test ts) : s.StartsApart := by
  obtain ⟨t, ht, hw⟩ := h.opens
  have hnext : next? ts = s.first? := by
    refine h.spelled.next?_eq (s.marks_ne_nil []) fun hsemicolon => ?_
    rw [ht] at hsemicolon
    cases hsemicolon
    cases hw
  constructor
  · rw [← hnext]
    exact htest.uncalled
  · intro hminus
    -- A minus there would have been read as an operator of the test.
    have hop : nextOperator? ts = some .subtract := by
      rw [nextOperator?, hnext, hminus]
      rfl
    exact absurd (htest.stops _ hop) (Nat.not_lt_zero _)

theorem StatementRead.stated (h : StatementRead inner around ts s rest) :
    Stated around ts s rest ∧ s.isBranch = true := by
  have hopens : ∃ t, next? ts = some t ∧ isWritten t = true := by
    obtain ⟨t, ht, hopens⟩ := h.opens
    exact ⟨t, ht, isWritten_of_opens hopens⟩
  cases h with
  | print hl he =>
    have hfinished := ExpressionRead.finished hinner he
    refine ⟨⟨?_, hopens, ?_, fun hopen => by cases hopen⟩, rfl⟩
    · rw [Stmt.marks]
      exact .kept hl rfl hfinished.spelled
    · simpa only [Stmt.Canonical] using hfinished.canonical
  | block hl hrules hbody =>
    obtain ⟨hspelled, hcanonical⟩ := hbody.spelled (hinner _ hrules).declaration
    refine ⟨⟨?_, hopens, ?_, fun hopen => by cases hopen⟩, rfl⟩
    · rw [Stmt.marks]
      exact .kept hl rfl hspelled
    · simpa only [Stmt.Canonical] using hcanonical
  | cond hl htest hrules hyes hnext =>
    have htest' := ExpressionRead.finished hinner htest
    obtain ⟨hyes', hbranch⟩ := (hinner _ hrules).statement hyes
    refine ⟨⟨?_, hopens, ?_, fun _ => hnext⟩, rfl⟩
    · rw [Stmt.marks, Stmt.otherwise, List.append_nil]
      exact .kept hl rfl (htest'.spelled.trans hyes'.spelled)
    · simp only [Stmt.Canonical, Stmt.OtherwiseCanonical]
      exact ⟨htest'.canonical, hyes'.canonical, hbranch, hyes'.startsApart htest',
        fun h => (by cases h), trivial⟩
  | condElse hl htest hrules hyes helse hno =>
    have htest' := ExpressionRead.finished hinner htest
    obtain ⟨hyes', hbranch⟩ := (hinner _ hrules).statement hyes
    obtain ⟨hno', hbranch'⟩ := (hinner _ hrules).statement hno
    refine ⟨⟨?_, hopens, ?_, ?_⟩, rfl⟩
    · rw [Stmt.marks, Stmt.otherwise]
      exact .kept hl rfl (htest'.spelled.trans
        (hyes'.spelled.trans (.plain helse rfl hno'.spelled)))
    · simp only [Stmt.Canonical, Stmt.OtherwiseCanonical]
      refine ⟨htest'.canonical, hyes'.canonical, hbranch, hyes'.startsApart htest', fun _ => ?_,
        hno'.canonical, hbranch'⟩
      -- An `else` follows the first branch, so it cannot have ended open.
      rw [Bool.eq_false_iff]
      intro hopen
      exact hyes'.closed hopen (congrArg some helse)
    · intro hopen
      rw [Stmt.endsOpen] at hopen
      exact hno'.closed hopen
  | loop hl htest hrules hbody =>
    have htest' := ExpressionRead.finished hinner htest
    obtain ⟨hbody', hbranch⟩ := (hinner _ hrules).statement hbody
    refine ⟨⟨?_, hopens, ?_, ?_⟩, rfl⟩
    · rw [Stmt.marks]
      exact .kept hl rfl (htest'.spelled.trans hbody'.spelled)
    · simp only [Stmt.Canonical]
      exact ⟨htest'.canonical, hbody'.canonical, hbranch, hbody'.startsApart htest'⟩
    · intro hopen
      rw [Stmt.endsOpen] at hopen
      exact hbody'.closed hopen
  | returnNothing hl hin hnothing =>
    refine ⟨⟨?_, hopens, ?_, fun hopen => by cases hopen⟩, rfl⟩
    · rw [Stmt.marks]
      exact .kept hl rfl .done
    · simpa only [Stmt.Canonical] using hin
  | returnValue hl hin hnothing he =>
    have hfinished := ExpressionRead.finished hinner he
    refine ⟨⟨?_, hopens, ?_, fun hopen => by cases hopen⟩, rfl⟩
    · rw [Stmt.marks]
      exact .kept hl rfl hfinished.spelled
    · simpa only [Stmt.Canonical] using ⟨hin, hfinished.canonical⟩
  | break_ hl hin =>
    refine ⟨⟨?_, hopens, ?_, fun hopen => by cases hopen⟩, rfl⟩
    · rw [Stmt.marks]
      exact .kept hl rfl .done
    · simpa only [Stmt.Canonical] using hin
  | continue_ hl hin =>
    refine ⟨⟨?_, hopens, ?_, fun hopen => by cases hopen⟩, rfl⟩
    · rw [Stmt.marks]
      exact .kept hl rfl .done
    · simpa only [Stmt.Canonical] using hin
  | expression _ he =>
    have hfinished := ExpressionRead.finished hinner he
    refine ⟨⟨?_, hopens, ?_, fun hopen => by cases hopen⟩, rfl⟩
    · rw [Stmt.marks]
      -- The statement has the position of its first lexeme, whichever node that belongs to.
      refine hfinished.spelled.stampFirst ?_
      obtain ⟨t, ht, hw⟩ := hopens
      refine decide_eq_false fun hsemicolon => ?_
      rw [next?_cons, hsemicolon] at ht
      cases ht
      cases hw
    · simpa only [Stmt.Canonical] using hfinished.canonical

omit hinner in
theorem nameOf_spelled {what : Expectation} {n : String × Position}
    (h : Yields (nameOf what ts) n rest) : Spells [.plain (.identifier n.1)] ts rest ∧ True := by
  obtain ⟨l, rfl, hl, -⟩ := (yields_nameOf what).mp h
  exact ⟨.plain hl rfl .done, trivial⟩

theorem DeclarationRead.stated (h : DeclarationRead inner around ts s rest) :
    Stated around ts s rest := by
  cases h with
  | declare hl hn hnext =>
    refine ⟨?_, ⟨_, congrArg some hl, rfl⟩, by simp only [Stmt.Canonical],
      fun hopen => by cases hopen⟩
    rw [Stmt.marks]
    exact .kept hl rfl (.plain hn rfl .done)
  | initialise hl hn hequals he =>
    have hfinished := ExpressionRead.finished hinner he
    refine ⟨?_, ⟨_, congrArg some hl, rfl⟩, ?_, fun hopen => by cases hopen⟩
    · rw [Stmt.marks]
      exact .kept hl rfl (.plain hn rfl (.plain hequals rfl hfinished.spelled))
    · simpa only [Stmt.Canonical] using hfinished.canonical
  | @function l name opening brace x ts after rest parameters rules body hl hn hopening hread hlen
      hdistinct hbrace hrules hbody =>
    obtain ⟨hparameters, -⟩ := hread.spelled nameOf_spelled
    obtain ⟨hspelled, hcanonical⟩ := hbody.spelled (hinner _ hrules).declaration
    refine ⟨?_, ⟨_, congrArg some hl, rfl⟩, ?_, fun hopen => by cases hopen⟩
    · rw [Stmt.marks, List.map_map]
      refine .kept hl rfl (.plain hn rfl (.plain hopening rfl ?_))
      exact hparameters.trans (.plain hbrace rfl hspelled)
    · simp only [Stmt.Canonical]
      exact ⟨(repeated?_eq_none.mp hdistinct).1, by rwa [List.length_map], hcanonical⟩
  | statement _ _ hs => exact (StatementRead.stated hinner hs).1

/-- What one level keeps of the lexemes, if the levels further in do. -/
theorem Rules.faithful_around : (Rules.around inner).Faithful where
  expression h := ExpressionRead.finished hinner (expressionRead_of_yields h)
  precedence h := PrecedenceRead.finished hinner (yields_precedence.mp h)
  operators h := OperatorsRead.finished hinner (yields_operators.mp h)
  unary h := UnaryRead.finished hinner (unaryRead_of_yields h)
  calls h := CallsRead.finished hinner (yields_calls.mp h)
  statement h := StatementRead.stated hinner (statementRead_of_yields h)
  declaration h := DeclarationRead.stated hinner (declarationRead_of_yields h)

end Level

/-! ## All levels -/

theorem Rules.faithful_withRoom (room : Nat) : (Rules.withRoom room).Faithful := by
  induction room with
  | zero => exact faithful_around fun rules h => by cases h
  | succ room ih =>
    refine faithful_around fun rules h => ?_
    cases h
    exact ih

theorem ProgramRead.spelled {declaration : Rule Stmt} {around : Surroundings}
    (hdeclaration : ∀ {ts s rest}, Yields (declaration ts) s rest → Stated around ts s rest)
    {ts : List Lexeme} {body : List Stmt} (h : ProgramRead declaration ts body) :
    (∃ rest, Spells (Stmt.marksAll [] body) ts rest ∧
      ∀ l, rest.head? = some l → l.token = .endOfInput) ∧ ∀ s ∈ body, s.Canonical around := by
  induction h with
  | close hend => exact ⟨⟨_, .of_dropWhile .done, hend⟩, by simp⟩
  | more hdrop _ hs _ ih =>
    have hstated := hdeclaration hs
    obtain ⟨⟨rest, hspelled, hend⟩, hcanonical⟩ := ih
    refine ⟨⟨rest, .of_dropWhile ?_, hend⟩,
      List.forall_mem_cons.mpr ⟨hstated.canonical, hcanonical⟩⟩
    rw [hdrop, Stmt.marksAll_nil_cons]
    exact hstated.spelled.trans hspelled

/-- Every statement of an accepted program is canonical outside of functions and loops. -/
theorem canonical_of_parse {lexemes : List Lexeme} {statements : List Stmt}
    (h : parse lexemes = .ok statements) : ∀ s ∈ statements, s.Canonical .outermost :=
  ((programFrom_eq_ok.mp h).spelled (Rules.faithful_withRoom maxNesting).declaration).2

/-- **Reading loses nothing and yields only canonical trees.** The statements of an accepted
program, written as marks, are its lexemes one by one up to the first end of input, the semicolons
left out. So each token is there once and in its place, and every position in the tree is that of
its lexeme. Every statement is canonical outside of functions and loops. -/
theorem parse_lossless {lexemes : List Lexeme} {statements : List Stmt}
    (h : parse lexemes = .ok statements) :
    List.Forall₂ Mark.Fits (Stmt.marksAll [] statements)
        ((lexemes.takeWhile (·.token ≠ .endOfInput)).filter (!isSemicolon ·)) ∧
      ∀ s ∈ statements, s.Canonical .outermost := by
  obtain ⟨⟨rest, hspelled, hend⟩, -⟩ :=
    (programFrom_eq_ok.mp h).spelled (Rules.faithful_withRoom maxNesting).declaration
  exact ⟨hspelled.fits hend, canonical_of_parse h⟩

/-- Lines of tokens as lexemes, one for each column. -/
def inLines (lines : List (List Token)) : List Lexeme :=
  lines.zipIdx.flatMap fun line => line.1.zipIdx.map fun t => ⟨t.1, "", ⟨line.2 + 1, t.2 + 1⟩⟩

/-- `if f(x) print -x * y - z else x = y;` -/
def conditionalTokens : List Token :=
  [.keyword .if_, .identifier "f", .symbol .leftParen, .identifier "x", .symbol .rightParen,
    .keyword .print_, .symbol .minus, .identifier "x", .symbol .star, .identifier "y",
    .symbol .minus, .identifier "z", .keyword .else_, .identifier "x", .symbol .equals,
    .identifier "y", .symbol .semicolon, .endOfInput]

/-- The tree of `conditionalTokens` in one line. -/
def conditionalTree : Stmt :=
  .cond (.call (.var "f" ⟨1, 2⟩) [.var "x" ⟨1, 4⟩] ⟨1, 3⟩)
    (.print
      (.binary .subtract
        (.binary .multiply (.unary .negate (.var "x" ⟨1, 8⟩) ⟨1, 7⟩) (.var "y" ⟨1, 10⟩) ⟨1, 9⟩)
        (.var "z" ⟨1, 12⟩) ⟨1, 11⟩)
      ⟨1, 6⟩)
    (some (.expression (.assign "x" (.var "y" ⟨1, 16⟩) ⟨1, 15⟩) ⟨1, 14⟩)) ⟨1, 1⟩

theorem parse_conditionalTokens : parse (inLines [conditionalTokens]) = .ok [conditionalTree] := by
  refine programFrom_eq_ok.mpr (.more rfl (by decide) ⟨⟨_, _, ?_⟩, rfl, rfl, rfl⟩ (.close ?_))
  · decide
  · rintro l ⟨⟩
    rfl

theorem conditional_lossless :
    parse (inLines [conditionalTokens]) = .ok [conditionalTree] ∧
      List.Forall₂ Mark.Fits (Stmt.marksAll [] [conditionalTree])
        (((inLines [conditionalTokens]).takeWhile (·.token ≠ .endOfInput)).filter
          (!isSemicolon ·)) ∧
      ∀ s ∈ [conditionalTree], s.Canonical .outermost :=
  ⟨parse_conditionalTokens, parse_lossless parse_conditionalTokens⟩

end Grammar

end Scripting
