/-
Semicolons after statements.

A semicolon may be put directly behind any statement that holds no other one, wherever that stands
in an accepted program, and the program stays what it is, positions and all. There is one exception:
the first branch of a conditional that has a second one. The rule for conditionals looks for the
`else` directly behind the first branch, a semicolon hides it, and then it is refused where it
stands.

Where a statement stands is said by the marks in front of it. What the semicolon does is shown rule
by rule: behind the last lexeme that a rule takes it is left over, and the loops over the statements
of blocks and programs drop it, unless an `else` comes behind it, which no statement begins with.
-/
import Scripting.Proofs.Lookahead

set_option autoImplicit false

namespace Scripting

/-! ## Statements in statements -/

namespace Stmt

/-- Whether a statement holds no other statement. -/
def isSimple : Stmt → Bool
  | .block .. | .cond .. | .loop .. | .function .. => false
  | .expression .. | .declare .. | .return_ .. | .print .. | .break_ _ | .continue_ _ => true

mutual

/-- The statement `s` stands in another one, with some marks of that in front of it. -/
inductive Occurs (s : Stmt) : List Mark → Stmt → Prop
  | here : Occurs s [] s
  | block {before : List Mark} {body : List Stmt} {p : Position} : OccursIn s before body →
      Occurs s (.kept (.symbol .leftBrace) p :: before) (.block body p)
  | yes {before : List Mark} {test : Expr} {yes : Stmt} {no : Option Stmt} {p : Position} :
      Occurs s before yes →
      Occurs s (.kept (.keyword .if_) p :: (test.marks ++ before)) (.cond test yes no p)
  | no {before : List Mark} {test : Expr} {yes no : Stmt} {p : Position} : Occurs s before no →
      Occurs s
        (.kept (.keyword .if_) p ::
          (test.marks ++ (yes.marks [] ++ .plain (.keyword .else_) :: before)))
        (.cond test yes (some no) p)
  | loop {before : List Mark} {test : Expr} {body : Stmt} {p : Position} : Occurs s before body →
      Occurs s (.kept (.keyword .while_) p :: (test.marks ++ before)) (.loop test body p)
  | function {before : List Mark} {name : String} {parameters : List String} {body : List Stmt}
      {p : Position} : OccursIn s before body →
      Occurs s
        (.kept (.keyword .fun_) p :: .plain (.identifier name) ::
          (Mark.inParentheses (.plain (.symbol .leftParen))
              (parameters.map fun x => [.plain (.identifier x)]) ++
            .plain (.symbol .leftBrace) :: before))
        (.function name parameters body p)

/-- The statement `s` stands in one of a list, with some marks of the list in front of it. -/
inductive OccursIn (s : Stmt) : List Mark → List Stmt → Prop
  | head {before : List Mark} {first : Stmt} {more : List Stmt} : Occurs s before first →
      OccursIn s before (first :: more)
  | tail {before : List Mark} {first : Stmt} {more : List Stmt} : OccursIn s before more →
      OccursIn s (first.marks [] ++ before) (first :: more)

end

end Stmt

namespace Grammar

/-! ## Places -/

/-- The lexemes reach up to the last one that is written as a mark, and no further. -/
structure ReachTo (ms : List Mark) (front : List Lexeme) : Prop where
  fits : List.Forall₂ Mark.Fits ms (front.filter (!isSemicolon ·))
  trimmed : Trimmed front

/-- The lexemes are split behind the last one that is written as a mark. -/
structure Place (ms : List Mark) (ts front left : List Lexeme) : Prop where
  split : ts = front ++ left
  spelled : Spells ms ts left
  trimmed : Trimmed front
  ne_nil : front ≠ []

section Place

variable {ms more : List Mark} {ts mid taken front left rest : List Lexeme}

/-- A place in what is left is a place. -/
theorem Place.behind (h : Place more mid front left) (hspelled : Spells ms ts mid)
    (hts : ts = taken ++ mid) : Place (ms ++ more) ts (taken ++ front) left where
  split := by rw [hts, h.split, List.append_assoc]
  spelled := hspelled.trans h.spelled
  trimmed := h.trimmed.behind h.ne_nil taken
  ne_nil := List.append_ne_nil_of_right_ne_nil taken h.ne_nil

/-- A semicolon at the place is not seen from in front of it. -/
theorem Place.swaps (h : Place ms ts front left) (l : Lexeme) : Swaps ts (front ++ l :: left) := by
  rw [h.split]
  exact .inl (head?_append_of_ne_nil h.ne_nil _ _)

theorem Spells.length_le (h : Spells ms ts rest) : ms.length + rest.length ≤ ts.length := by
  induction h with
  | done => simp
  | mark | semicolon => simp only [List.length_cons]; omega

theorem Spells.reachTo (h : Spells ms ts left) (hts : ts = front ++ left) :
    List.Forall₂ Mark.Fits ms (front.filter (!isSemicolon ·)) := by
  induction h generalizing front with
  | done =>
    obtain rfl : front = [] := by simpa using hts
    exact .nil
  | @mark m ms l ts rest hm hw h ih =>
    have hlen := h.length_le
    obtain ⟨rfl, rfl⟩ | ⟨front, rfl, rfl⟩ := List.cons_eq_append_iff.mp hts
    · simp only [List.length_cons] at hlen
      omega
    · have hl : isSemicolon l = false := decide_eq_false fun hl => by rw [hl] at hw; cases hw
      rw [List.filter_cons_of_pos (by simp [hl])]
      exact .cons hm (ih rfl)
  | @semicolon ms l ts rest hl h ih =>
    have hlen := h.length_le
    obtain ⟨rfl, rfl⟩ | ⟨front, rfl, rfl⟩ := List.cons_eq_append_iff.mp hts
    · simp only [List.length_cons] at hlen
      omega
    · rw [List.filter_cons_of_neg (by simp [hl])]
      exact ih rfl

/-- Only semicolons cannot be added to what reaches up to a mark. -/
theorem Trimmed.eq_nil (h : Trimmed (front ++ rest))
    (hlen : (front ++ rest).countP (!isSemicolon ·) = front.countP (!isSemicolon ·)) :
    rest = [] := by
  rw [List.countP_append] at hlen
  have hall : ∀ l ∈ rest, isSemicolon l = true := by
    simpa using List.countP_eq_zero.mp (show rest.countP (!isSemicolon ·) = 0 by omega)
  by_contra hne
  have hlast := h (rest.getLast hne)
    (by rw [List.getLast?_append_of_ne_nil front hne, List.getLast?_eq_some_getLast hne])
  rw [hall _ (List.getLast_mem hne)] at hlast
  cases hlast

/-- There is one such place. -/
theorem Place.unique (h : Place ms ts front left) {front' left' : List Lexeme}
    (hts : ts = front' ++ left') (hreach : ReachTo ms front') : front' = front ∧ left' = left := by
  have hlen := h.spelled.reachTo h.split |>.length_eq
  have hlen' := hreach.fits.length_eq
  rw [← List.countP_eq_length_filter] at hlen hlen'
  obtain ⟨more, rfl, rfl⟩ | ⟨more, rfl, rfl⟩ :=
    List.append_eq_append_iff.mp (h.split.symm.trans hts)
  · obtain rfl := hreach.trimmed.eq_nil (hlen'.symm.trans hlen)
    simp
  · obtain rfl := h.trimmed.eq_nil (hlen.symm.trans hlen')
    simp

end Place

/-! ## What a semicolon does -/

/-- The fault of a lexeme that stands where no statement begins with it. -/
def refusal (l : Lexeme) : ParseError := ⟨.unexpectedToken l.text, l.position⟩

/-- What a rule that has read a statement does with a semicolon at a place in it. It reads the same
statement, with the semicolon left over if that is behind it; but in front of an `else` it leaves
the semicolon with the `else` behind it, if it has not failed at the `else` already. -/
structure Takes (rule : Rule Stmt) (whole : Stmt) (rest front left : List Lexeme) (l : Lexeme) :
    Prop where
  accepted : next? left ≠ some (.keyword .else_) →
    Yields (rule (front ++ l :: left)) whole rest ∨
      left = rest ∧ Yields (rule (front ++ l :: left)) whole (l :: rest)
  refused {other : Lexeme} {after : List Lexeme} : left = other :: after →
    other.token = .keyword .else_ →
    (∃ less, Yields (rule (front ++ l :: left)) less (l :: left)) ∨
      rule (front ++ l :: left) = .error (refusal other)

/-- A rule in whose statements semicolons may be put. -/
structure Terminable (rule : Rule Stmt) : Prop where
  isLocal : Local fun ts => Yields (rule ts)
  spelled {ts rest : List Lexeme} {whole : Stmt} : Yields (rule ts) whole rest →
    Spells (whole.marks []) ts rest
  refuses {l : Lexeme} : l.token = .keyword .else_ → ∀ ts, rule (l :: ts) = .error (refusal l)
  takes {ts rest : List Lexeme} {whole s : Stmt} {before : List Mark} :
    Yields (rule ts) whole rest → s.isSimple = true → s.Occurs before whole →
    ∃ front left, Place (before ++ s.marks []) ts front left ∧
      ∀ l, isSemicolon l = true → Takes rule whole rest front left l

theorem next?_semicolon {l : Lexeme} (hl : isSemicolon l = true) (ts : List Lexeme) :
    next? (l :: ts) = some (.symbol .semicolon) :=
  congrArg some (of_decide_eq_true hl)

/-- Behind all that a rule takes, the semicolon is left over. -/
theorem takes_here {rule : Rule Stmt} (hlocal : Local fun ts => Yields (rule ts))
    {ts rest : List Lexeme} {s : Stmt} (h : Yields (rule ts) s rest)
    (hspelled : Spells (s.marks []) ts rest) :
    ∃ front left, Place ([] ++ s.marks []) ts front left ∧
      ∀ l, isSemicolon l = true → Takes rule s rest front left l := by
  obtain ⟨taken, rfl, ht, h'⟩ := hlocal h
  refine ⟨taken, rest, ⟨rfl, hspelled, ht, taken_ne_nil h⟩, fun l hl => ?_⟩
  have hyields := h' (l :: rest) (.inr (.inl (next?_semicolon hl rest)))
  exact ⟨fun _ => .inr ⟨rfl, hyields⟩, fun _ _ => .inl ⟨s, hyields⟩⟩

/-- A rule that reads one more thing around a statement passes on what the rule for that does. -/
theorem Takes.lift {rule rule' : Rule Stmt} {part whole : Stmt}
    {rest front front' left : List Lexeme} {l : Lexeme} (h : Takes rule part rest front left l)
    (hsame : ∀ rest', rest' = rest ∨ rest' = l :: rest →
      Yields (rule (front ++ l :: left)) part rest' →
        Yields (rule' (front' ++ l :: left)) whole rest')
    (hless : ∀ less, Yields (rule (front ++ l :: left)) less (l :: left) →
      ∃ less, Yields (rule' (front' ++ l :: left)) less (l :: left))
    (herror : ∀ err, rule (front ++ l :: left) = .error err →
      rule' (front' ++ l :: left) = .error err) : Takes rule' whole rest front' left l where
  accepted hnext := by
    rcases h.accepted hnext with hy | ⟨hleft, hy⟩
    · exact .inl (hsame rest (.inl rfl) hy)
    · exact .inr ⟨hleft, hsame _ (.inr rfl) hy⟩
  refused hleft hother := by
    rcases h.refused hleft hother with ⟨less, hy⟩ | herr
    · exact .inl (hless less hy)
    · exact .inr (herror _ herr)

/-! ## Lists of statements -/

/-- A loop over statements, by what it reads, how it fails and what it takes for the beginning of a
statement. -/
structure Loop (declaration : Rule Stmt) (opens : Token → Prop)
    (reads : List Lexeme → List Stmt → Prop) (fails : List Lexeme → ParseError → Prop) : Prop where
  uncons {ts : List Lexeme} {s : Stmt} {body : List Stmt} : reads ts (s :: body) →
    ∃ l after mid, ts.dropWhile isSemicolon = l :: after ∧ opens l.token ∧
      Yields (declaration (l :: after)) s mid ∧ reads mid body
  cons {ts after mid : List Lexeme} {l : Lexeme} {s : Stmt} {body : List Stmt} :
    ts.dropWhile isSemicolon = l :: after → opens l.token →
    Yields (declaration (l :: after)) s mid →
    reads mid body → reads ts (s :: body)
  semicolon {l : Lexeme} {ts : List Lexeme} {body : List Stmt} : isSemicolon l = true →
    reads ts body → reads (l :: ts) body
  first {ts after : List Lexeme} {l : Lexeme} {err : ParseError} :
    ts.dropWhile isSemicolon = l :: after → opens l.token →
    declaration (l :: after) = .error err → fails ts err
  later {ts after mid : List Lexeme} {l : Lexeme} {s : Stmt} {err : ParseError} :
    ts.dropWhile isSemicolon = l :: after → opens l.token →
    Yields (declaration (l :: after)) s mid →
    fails mid err → fails ts err
  opens_else : opens (.keyword .else_)

theorem blockLoop (declaration : Rule Stmt) (opening : Position) (rest : List Lexeme) :
    Loop declaration (fun t => t ≠ .symbol .rightBrace ∧ t ≠ .endOfInput)
      (fun ts body => BlockRead declaration ts body rest)
      fun ts err => ∀ bound read fits,
        blockFrom declaration opening bound read ts fits = .error err where
  uncons h := by
    cases h with
    | more hdrop hbrace hend hs hmore => exact ⟨_, _, _, hdrop, ⟨hbrace, hend⟩, hs, hmore⟩
  cons hdrop hopens hs hmore := .more hdrop hopens.1 hopens.2 hs hmore
  semicolon {l ts body} hl h := by
    have hdrop := List.dropWhile_cons_of_pos (l := ts) hl
    cases h with
    | close h hbrace => exact .close (hdrop.trans h) hbrace
    | more h hbrace hend hs hmore => exact .more (hdrop.trans h) hbrace hend hs hmore
  first hdrop hopens herr bound read fits :=
    blockFrom_error hdrop hopens.2 opening read fits hopens.1 herr
  later hdrop hopens hs hfails bound read fits := by
    obtain ⟨fits', heq⟩ := blockFrom_eq hdrop hopens.2 opening read fits hopens.1 hs
    rw [heq]
    exact hfails bound _ fits'
  opens_else := by simp

theorem programLoop (declaration : Rule Stmt) :
    Loop declaration (· ≠ .endOfInput) (ProgramRead declaration)
      fun ts err => ∀ read, programFrom declaration read ts = .error err where
  uncons h := by
    cases h with
    | more hdrop hend hs hmore => exact ⟨_, _, _, hdrop, hend, hs, hmore⟩
  cons hdrop hend hs hmore := .more hdrop hend hs hmore
  semicolon {l ts body} hl h := by
    have hdrop := List.dropWhile_cons_of_pos (l := ts) hl
    cases h with
    | close h => exact .close (by rwa [hdrop])
    | more h hend hs hmore => exact .more (hdrop.trans h) hend hs hmore
  first hdrop hend herr read := programFrom_error hdrop hend read herr
  later hdrop hend hs hfails read := by
    rw [programFrom_eq hdrop hend read hs]
    exact hfails _
  opens_else := by simp

/-- In a list of statements the semicolon is dropped, and an `else` behind it is refused. -/
theorem Loop.takes {declaration : Rule Stmt} {opens : Token → Prop}
    {reads : List Lexeme → List Stmt → Prop} {fails : List Lexeme → ParseError → Prop}
    (hloop : Loop declaration opens reads fails) (hdeclaration : Terminable declaration)
    {ts : List Lexeme} {body : List Stmt} {s : Stmt} {before : List Mark} (h : reads ts body)
    (hsimple : s.isSimple = true) (hs : s.OccursIn before body) :
    ∃ front left, Place (before ++ s.marks []) ts front left ∧ ∀ l, isSemicolon l = true →
      (next? left ≠ some (.keyword .else_) → reads (front ++ l :: left) body) ∧
      ∀ other after, left = other :: after → other.token = .keyword .else_ →
        fails (front ++ l :: left) (refusal other) := by
  induction body generalizing ts before with
  | nil => cases hs
  | cons first body ih =>
    obtain ⟨l, after, mid, hdrop, hopens, hfirst, hmore⟩ := hloop.uncons h
    obtain ⟨semicolons, rfl, hdrop'⟩ := exists_of_dropWhile hdrop
    have hskip : Spells [] (semicolons ++ l :: after) (l :: after) :=
      .of_dropWhile (by rw [hdrop]; exact .done)
    cases hs with
    | head hs =>
      obtain ⟨front, left, hplace, htakes⟩ := hdeclaration.takes hfirst hsimple hs
      obtain ⟨l', front, rfl⟩ := List.exists_cons_of_ne_nil hplace.ne_nil
      obtain ⟨rfl, -⟩ := List.cons_eq_cons.mp hplace.split
      refine ⟨_, left, hplace.behind hskip rfl, fun semi hsemi => ?_⟩
      have htake := htakes semi hsemi
      have hdrop'' := hdrop' (front ++ semi :: left)
      rw [List.append_assoc, List.cons_append]
      constructor
      · intro hnext
        rcases htake.accepted hnext with hy | ⟨rfl, hy⟩
        · exact hloop.cons hdrop'' hopens hy hmore
        · exact hloop.cons hdrop'' hopens hy (hloop.semicolon hsemi hmore)
      · rintro other after rfl hother
        rcases htake.refused rfl hother with ⟨less, hy⟩ | herr
        · have hskip' : (semi :: other :: after).dropWhile isSemicolon = other :: after := by
            rw [List.dropWhile_cons_of_pos hsemi,
              List.dropWhile_cons_of_neg (by simp [isSemicolon, hother])]
          exact hloop.later hdrop'' hopens hy (hloop.first hskip' (hother ▸ hloop.opens_else)
            (hdeclaration.refuses hother after))
        · exact hloop.first hdrop'' hopens herr
    | @tail before _ _ hs =>
      obtain ⟨front, left, hplace, heffect⟩ := ih hmore hs
      have hspelled := hskip.trans (hdeclaration.spelled hfirst)
      obtain ⟨taken, htaken, -, hfirst'⟩ := hdeclaration.isLocal hfirst
      rw [htaken] at hfirst
      obtain ⟨l', taken, rfl⟩ := List.exists_cons_of_ne_nil (taken_ne_nil hfirst)
      obtain ⟨rfl, rfl⟩ := List.cons_eq_cons.mp htaken
      rw [List.nil_append] at hspelled
      refine ⟨semicolons ++ l :: taken ++ front, left, ?_, fun semi hsemi => ?_⟩
      · rw [List.append_assoc (first.marks [])]
        exact hplace.behind hspelled (by simp)
      · have hfirst'' := hfirst' _ (hplace.swaps semi)
        have hdrop'' := hdrop' (taken ++ (front ++ semi :: left))
        rw [List.append_assoc, List.append_assoc, List.cons_append]
        obtain ⟨haccepted, hrefused⟩ := heffect semi hsemi
        exact ⟨fun hnext => hloop.cons hdrop'' hopens hfirst'' (haccepted hnext),
          fun other after hleft hother =>
            hloop.later hdrop'' hopens hfirst'' (hrefused other after hleft hother)⟩

/-! ## One level -/

/-- The rules at one level in whose statements semicolons may be put. -/
structure Rules.AllTerminable (rules : Rules) : Prop where
  isLocal : rules.AllLocal
  faithful : rules.Faithful
  statement (around : Surroundings) : Terminable (rules.statement around)
  declaration (around : Surroundings) : Terminable (rules.declaration around)

/-! ### Faults of a part -/

section Fails

variable {inner : Option Rules} {around : Surroundings} {rules : Rules} {l : Lexeme}
  {ts after : List Lexeme} {test : Expr} {err : ParseError}

theorem block_error (hl : l.token = .symbol .leftBrace) (hrules : inner = some rules)
    (herr : rules.block around l.position ts = .error err) :
    statement inner around (l :: ts) = .error err := by
  simp only [statement, hl]
  rw [bind_of_ok (descend_eq_ok.mpr hrules), bind_of_error herr]

theorem yes_error (hl : l.token = .keyword .if_) (htest : ExpressionRead inner ts test after)
    (hrules : inner = some rules) (herr : rules.statement around after = .error err) :
    statement inner around (l :: ts) = .error err := by
  obtain ⟨y, hy, -, rfl⟩ := htest.yields
  simp only [statement, hl]
  rw [bind_of_ok hy, bind_of_ok (descend_eq_ok.mpr hrules), bind_of_error herr]

theorem no_error (hl : l.token = .keyword .if_) (htest : ExpressionRead inner ts test after)
    (hrules : inner = some rules) {yes : Stmt} {other : Lexeme} {between : List Lexeme}
    (hyes : Yields (rules.statement around after) yes (other :: between))
    (hother : other.token = .keyword .else_)
    (herr : rules.statement around between = .error err) :
    statement inner around (l :: ts) = .error err := by
  obtain ⟨y, hy, -, rfl⟩ := htest.yields
  obtain ⟨z, hz, -, hrest⟩ := hyes
  simp only [statement, hl]
  rw [bind_of_ok hy, bind_of_ok (descend_eq_ok.mpr hrules), bind_of_ok hz]
  split
  · next hnil => cases hrest.symm.trans hnil
  · next hcons =>
    cases hrest.symm.trans hcons
    rw [if_pos hother, bind_of_error herr]

theorem loop_error (hl : l.token = .keyword .while_) (htest : ExpressionRead inner ts test after)
    (hrules : inner = some rules) (herr : rules.statement around.loopBody after = .error err) :
    statement inner around (l :: ts) = .error err := by
  obtain ⟨y, hy, -, rfl⟩ := htest.yields
  simp only [statement, hl]
  rw [bind_of_ok hy, bind_of_ok (descend_eq_ok.mpr hrules), bind_of_error herr]

theorem function_error {name opening brace : Lexeme} {x : String}
    {parameters : List (String × Position)} (hl : l.token = .keyword .fun_)
    (hname : name.token = .identifier x) (hopening : opening.token = .symbol .leftParen)
    (hparameters : ListRead (nameOf .parameterName) ts parameters (brace :: after))
    (hlen : parameters.length ≤ maxItems) (hdistinct : repeated? [] parameters = none)
    (hbrace : brace.token = .symbol .leftBrace) (hrules : inner = some rules)
    (herr : rules.block .functionBody brace.position after = .error err) :
    declaration inner around (l :: name :: opening :: ts) = .error err := by
  obtain ⟨n, hn, -, hafterName⟩ := yields_nameOf_cons .functionName hname (opening :: ts)
  obtain ⟨o, ho, -, hopened⟩ := (yields_expect .parameterList).mpr ⟨hafterName, hopening⟩
  rw [← hopened] at hparameters
  obtain ⟨ps, hps, rfl, hafter⟩ := (yields_commaSeparated .parameters).mpr ⟨hparameters, hlen⟩
  obtain ⟨b, hb, rfl, rfl⟩ := (yields_expect .functionBody).mpr ⟨hafter, hbrace⟩
  simp only [declaration, hl, functionDeclaration]
  rw [bind_of_ok hn, bind_of_ok ho, bind_of_ok hps]
  simp only [hdistinct]
  rw [bind_of_ok hb, bind_of_ok (descend_eq_ok.mpr hrules), bind_of_error herr]
  rfl

end Fails

section Level

variable {inner : Option Rules} (hinner : ∀ rules, inner = some rules → rules.AllTerminable)

/-! ### An `else` -/

theorem expression_refuses {l : Lexeme} (hl : l.token = .keyword .else_) (ts : List Lexeme) :
    expression inner (l :: ts) = .error (refusal l) := by
  have hunary : unary inner (l :: ts) = .error (refusal l) := by
    simp only [unary, hl, UnaryOperator.ofToken?, primary, unexpected]
    rfl
  rw [expression, precedence, bind_of_error (bind_of_error hunary _)]

theorem statement_refuses (around : Surroundings) {l : Lexeme} (hl : l.token = .keyword .else_)
    (ts : List Lexeme) : statement inner around (l :: ts) = .error (refusal l) := by
  rw [statement_eq_expression (by rw [hl]; rfl), bind_of_error (expression_refuses hl ts)]

theorem declaration_refuses (around : Surroundings) {l : Lexeme} (hl : l.token = .keyword .else_)
    (ts : List Lexeme) : declaration inner around (l :: ts) = .error (refusal l) := by
  rw [declaration_eq_statement (by simp [hl]) (by simp [hl]), statement_refuses around hl]

/-- A place behind the opening brace of a function. -/
theorem place_behind_parameters {l name opening brace : Lexeme} {x : String}
    {ts after front left : List Lexeme} {parameters : List (String × Position)}
    {before more : List Mark} (hl : l.token = .keyword .fun_) (hname : name.token = .identifier x)
    (hopening : opening.token = .symbol .leftParen)
    (hparameters : ListRead (nameOf .parameterName) ts parameters (brace :: after))
    (hbrace : brace.token = .symbol .leftBrace)
    (hplace : Place (before ++ more) after front left) :
    ∃ taken, Place (.kept (.keyword .fun_) l.position :: .plain (.identifier x) ::
        (Mark.inParentheses (.plain (.symbol .leftParen))
            ((parameters.map (·.1)).map fun y => [.plain (.identifier y)]) ++
          .plain (.symbol .leftBrace) :: before) ++ more)
        (l :: name :: opening :: ts) (l :: name :: opening :: (taken ++ brace :: front)) left ∧
      ∀ semi, ListRead (nameOf .parameterName) (taken ++ brace :: front ++ semi :: left) parameters
        (brace :: (front ++ semi :: left)) := by
  obtain ⟨hlist, -⟩ := hparameters.spelled nameOf_spelled
  obtain ⟨taken, rfl, -, hparameters'⟩ := listRead_local (nameOf_local .parameterName) hparameters
  have hfront : Spells _ (l :: name :: opening :: (taken ++ brace :: after)) after :=
    .kept hl rfl (.plain hname rfl (.plain hopening rfl (hlist.trans (.plain hbrace rfl .done))))
  have hbehind := hplace.behind hfront
    (show _ = l :: name :: opening :: (taken ++ [brace]) ++ after by simp)
  refine ⟨taken, ?_, fun semi => ?_⟩
  · simpa [Mark.inParentheses, Function.comp_def] using hbehind
  · rw [List.append_assoc, List.cons_append]
    exact hparameters' _ (swaps_cons brace _ _)

/-! ### Statements -/

include hinner

theorem Rules.allLocal_of_terminable : (Rules.around inner).AllLocal :=
  allLocal_around fun rules h => (hinner rules h).isLocal

theorem Rules.faithful_of_terminable : (Rules.around inner).Faithful :=
  faithful_around fun rules h => (hinner rules h).faithful

/-- A place behind a keyword and a test. -/
theorem place_behind_test {k : Keyword} {l : Lexeme} {ts after front left : List Lexeme}
    {test : Expr} {before more : List Mark} (hl : l.token = .keyword k)
    (htest : ExpressionRead inner ts test after)
    (hplace : Place (before ++ more) after front left) :
    ∃ taken, Place (.kept (.keyword k) l.position :: (test.marks ++ before) ++ more) (l :: ts)
      (l :: (taken ++ front)) left ∧
      ∀ semi, ExpressionRead inner (taken ++ front ++ semi :: left) test
        (front ++ semi :: left) := by
  have hlocal : ∀ rules, inner = some rules → rules.AllLocal := fun _ h => (hinner _ h).isLocal
  have hspelled := ((Rules.faithful_of_terminable hinner).expression htest.yields).spelled
  obtain ⟨taken, rfl, -, htest'⟩ := expressionRead_local hlocal htest
  refine ⟨taken, ?_, fun semi => ?_⟩
  · rw [List.cons_append, List.append_assoc]
    exact hplace.behind (.kept hl rfl hspelled) (List.cons_append (a := l)).symm
  · rw [List.append_assoc]
    exact htest' _ (hplace.swaps semi)

theorem statement_takes {around : Surroundings} {ts rest : List Lexeme} {whole s : Stmt}
    {before : List Mark} (h : StatementRead inner around ts whole rest)
    (hsimple : s.isSimple = true)
    (hs : s.Occurs before whole) :
    ∃ front left, Place (before ++ s.marks []) ts front left ∧
      ∀ l, isSemicolon l = true → Takes (statement inner around) whole rest front left l := by
  cases hs with
  | here =>
    exact takes_here ((Rules.allLocal_of_terminable hinner).statement around) h.yields
      ((Rules.faithful_of_terminable hinner).statement h.yields).1.spelled
  | block hs =>
    cases h with
    | @block l ts _ rules _ hl hrules hbody =>
      obtain ⟨front, left, hplace, heffect⟩ := (blockLoop _ l.position rest).takes
        ((hinner _ hrules).declaration around) hbody hsimple hs
      refine ⟨[l] ++ front, left, hplace.behind (.kept hl rfl .done) rfl, fun semi hsemi => ?_⟩
      obtain ⟨haccepted, hrefused⟩ := heffect semi hsemi
      exact ⟨fun hnext => .inl (StatementRead.block hl hrules (haccepted hnext)).yields,
        fun hleft hother => .inr (block_error hl hrules (hrefused _ _ hleft hother _ _ _))⟩
  | yes hs =>
    cases h with
    | cond hl htest hrules hyes hnext =>
      obtain ⟨front, left, hplace, htakes⟩ := ((hinner _ hrules).statement around).takes hyes
        hsimple hs
      obtain ⟨taken, hplace', htest'⟩ := place_behind_test hinner hl htest hplace
      refine ⟨_, left, hplace', fun semi hsemi => (htakes semi hsemi).lift ?_ ?_ ?_⟩
      · rintro rest' (rfl | rfl) hy
        · exact (StatementRead.cond hl (htest' semi) hrules hy hnext).yields
        · exact (StatementRead.cond hl (htest' semi) hrules hy
            (by rw [next?_semicolon hsemi]; simp)).yields
      · intro less hy
        exact ⟨_, (StatementRead.cond hl (htest' semi) hrules hy
          (by rw [next?_semicolon hsemi]; simp)).yields⟩
      · exact fun err herr => yes_error hl (htest' semi) hrules herr
    | condElse hl htest hrules hyes hother hno =>
      obtain ⟨front, left, hplace, htakes⟩ := ((hinner _ hrules).statement around).takes hyes
        hsimple hs
      obtain ⟨taken, hplace', htest'⟩ := place_behind_test hinner hl htest hplace
      refine ⟨_, left, hplace', fun semi hsemi => ⟨fun hnext => .inl ?_, fun hleft hother' => ?_⟩⟩
      · rcases (htakes semi hsemi).accepted hnext with hy | ⟨rfl, -⟩
        · exact (StatementRead.condElse hl (htest' semi) hrules hy hother hno).yields
        · exact absurd (congrArg some hother) hnext
      · -- Behind the semicolon the `else` is not found, and the conditional ends there.
        rcases (htakes semi hsemi).refused hleft hother' with ⟨less, hy⟩ | herr
        · exact .inl ⟨_, (StatementRead.cond hl (htest' semi) hrules hy
            (by rw [next?_semicolon hsemi]; simp)).yields⟩
        · exact .inr (yes_error hl (htest' semi) hrules herr)
  | @no _ _ yes _ _ hs =>
    cases h with
    | @condElse l other ts after between _ _ rules _ _ hl htest hrules hyes hother hno =>
      have hstatement := (hinner _ hrules).statement around
      obtain ⟨front, left, hplace, htakes⟩ := hstatement.takes hno hsimple hs
      have hspelled := (hstatement.spelled hyes).trans (.plain hother rfl .done)
      obtain ⟨more, rfl, -, hyes'⟩ := hstatement.isLocal hyes
      have hyes'' (semi : Lexeme) :
          Yields (rules.statement around (more ++ [other] ++ front ++ semi :: left)) yes
            (other :: (front ++ semi :: left)) := by
        rw [List.append_assoc, List.append_assoc]
        exact hyes' _ (swaps_cons other _ _)
      have hbehind := hplace.behind hspelled (List.append_cons more other between)
      rw [← List.append_assoc, List.append_assoc _ [_]] at hbehind
      obtain ⟨taken, hplace', htest'⟩ := place_behind_test hinner hl htest hbehind
      refine ⟨_, left, hplace', fun semi hsemi => (htakes semi hsemi).lift ?_ ?_ ?_⟩
      · exact fun rest' _ hy =>
          (StatementRead.condElse hl (htest' semi) hrules (hyes'' semi) hother hy).yields
      · exact fun less hy =>
          ⟨_, (StatementRead.condElse hl (htest' semi) hrules (hyes'' semi) hother hy).yields⟩
      · exact fun err herr => no_error hl (htest' semi) hrules (hyes'' semi) hother herr
  | loop hs =>
    cases h with
    | loop hl htest hrules hbody =>
      obtain ⟨front, left, hplace, htakes⟩ := ((hinner _ hrules).statement around.loopBody).takes
        hbody hsimple hs
      obtain ⟨taken, hplace', htest'⟩ := place_behind_test hinner hl htest hplace
      refine ⟨_, left, hplace', fun semi hsemi => (htakes semi hsemi).lift ?_ ?_ ?_⟩
      · exact fun rest' _ hy => (StatementRead.loop hl (htest' semi) hrules hy).yields
      · exact fun less hy => ⟨_, (StatementRead.loop hl (htest' semi) hrules hy).yields⟩
      · exact fun err herr => loop_error hl (htest' semi) hrules herr
  | function hs => cases h

theorem statement_terminable (around : Surroundings) : Terminable (statement inner around) where
  isLocal := (Rules.allLocal_of_terminable hinner).statement around
  spelled h := ((Rules.faithful_of_terminable hinner).statement h).1.spelled
  refuses := statement_refuses around
  takes h := statement_takes hinner (statementRead_of_yields h)

/-! ### Declarations -/

theorem declaration_takes {around : Surroundings} {ts rest : List Lexeme} {whole s : Stmt}
    {before : List Mark} (h : DeclarationRead inner around ts whole rest)
    (hsimple : s.isSimple = true) (hs : s.Occurs before whole) :
    ∃ front left, Place (before ++ s.marks []) ts front left ∧
      ∀ l, isSemicolon l = true → Takes (declaration inner around) whole rest front left l := by
  have hlocal := (Rules.allLocal_of_terminable hinner).declaration around
  have hyields := h.yields
  have hstated : Stated around ts whole rest :=
    (Rules.faithful_of_terminable hinner).declaration hyields
  cases h with
  | declare | initialise =>
    cases hs
    exact takes_here hlocal hyields hstated.spelled
  | @function l name opening brace x ts after _ parameters rules _ hl hname hopening hparameters
      hlen hdistinct hbrace hrules hbody =>
    cases hs with
    | here => cases hsimple
    | @function before _ _ _ _ hs =>
      obtain ⟨front, left, hplace, heffect⟩ := (blockLoop _ brace.position rest).takes
        ((hinner _ hrules).declaration .functionBody) hbody hsimple hs
      obtain ⟨taken, hplace', hlist⟩ :=
        place_behind_parameters hl hname hopening hparameters hbrace hplace
      refine ⟨_, left, hplace', fun semi hsemi => ?_⟩
      obtain ⟨haccepted, hrefused⟩ := heffect semi hsemi
      exact ⟨fun hnext => .inl (DeclarationRead.function hl hname hopening (hlist semi) hlen
          hdistinct hbrace hrules (haccepted hnext)).yields,
        fun hleft hother => .inr (function_error hl hname hopening (hlist semi) hlen hdistinct
          hbrace hrules (hrefused _ _ hleft hother _ _ _))⟩
  | statement hlet hfun h =>
    obtain ⟨front, left, hplace, htakes⟩ := statement_takes hinner h hsimple hs
    obtain ⟨l, front, rfl⟩ := List.exists_cons_of_ne_nil hplace.ne_nil
    obtain ⟨rfl, -⟩ := List.cons_eq_cons.mp hplace.split
    refine ⟨_, left, hplace, fun semi hsemi => (htakes semi hsemi).lift ?_ ?_ ?_⟩ <;>
      rw [List.cons_append, declaration_eq_statement hlet hfun]
    · exact fun rest' _ hy => hy
    · exact fun less hy => ⟨less, hy⟩
    · exact fun err herr => herr

theorem declaration_terminable (around : Surroundings) :
    Terminable (declaration inner around) where
  isLocal := (Rules.allLocal_of_terminable hinner).declaration around
  spelled h := ((Rules.faithful_of_terminable hinner).declaration h).spelled
  refuses := declaration_refuses around
  takes h := declaration_takes hinner (declarationRead_of_yields h)

theorem Rules.allTerminable_around : (Rules.around inner).AllTerminable where
  isLocal := allLocal_of_terminable hinner
  faithful := faithful_of_terminable hinner
  statement := statement_terminable hinner
  declaration := declaration_terminable hinner

end Level

/-! ## All levels -/

theorem Rules.allTerminable_withRoom (room : Nat) : (Rules.withRoom room).AllTerminable := by
  induction room with
  | zero => exact allTerminable_around fun rules h => by cases h
  | succ room ih =>
    refine allTerminable_around fun rules h => ?_
    cases h
    exact ih

/-- **Where a semicolon may be put.** A statement that holds no other one stands somewhere in an
accepted program. There is a place directly behind its last lexeme, and a semicolon put there, at
whatever position, changes nothing in the statements, unless an `else` comes next. Then the `else`
is refused. -/
theorem parse_semicolon {ts : List Lexeme} {statements : List Stmt}
    (h : parse ts = .ok statements) {s : Stmt} {before : List Mark}
    (hs : s.OccursIn before statements) (hsimple : s.isSimple = true) :
    (∃ front left, ts = front ++ left ∧ ReachTo (before ++ s.marks []) front) ∧
      ∀ front left, ts = front ++ left → ReachTo (before ++ s.marks []) front →
        ∀ l, isSemicolon l = true →
          (next? left ≠ some (.keyword .else_) → parse (front ++ l :: left) = .ok statements) ∧
          ∀ other after, left = other :: after → other.token = .keyword .else_ →
            parse (front ++ l :: left) = .error ⟨.unexpectedToken other.text, other.position⟩ := by
  obtain ⟨front, left, hplace, heffect⟩ := (programLoop _).takes
    ((Rules.allTerminable_withRoom maxNesting).declaration .outermost) (programFrom_eq_ok.mp h)
    hsimple hs
  refine ⟨⟨front, left, hplace.split, hplace.spelled.reachTo hplace.split, hplace.trimmed⟩, ?_⟩
  intro front' left' hts hreach l hl
  obtain ⟨rfl, rfl⟩ := hplace.unique hts hreach
  obtain ⟨haccepted, hrefused⟩ := heffect l hl
  exact ⟨fun hnext => programFrom_eq_ok.mpr (haccepted hnext),
    fun other after hleft hother => hrefused other after hleft hother []⟩

/-- The lexemes of `if true print 1  else print 2` up to the first number. -/
def firstBranch : List Lexeme :=
  [⟨.keyword .if_, "if", ⟨1, 1⟩⟩, ⟨.keyword .true_, "true", ⟨1, 4⟩⟩,
    ⟨.keyword .print_, "print", ⟨1, 9⟩⟩, ⟨.number 1, "1", ⟨1, 15⟩⟩]

/-- The lexemes of `if true print 1  else print 2` from there up to the second number. -/
def secondBranch : List Lexeme :=
  [⟨.keyword .else_, "else", ⟨1, 18⟩⟩, ⟨.keyword .print_, "print", ⟨1, 23⟩⟩,
    ⟨.number 2, "2", ⟨1, 29⟩⟩]

/-- The tree of `if true print 1  else print 2`. -/
def branchesTree : Stmt :=
  .cond (.literal (.bool true) ⟨1, 4⟩) (.print (.literal (.number 1) ⟨1, 15⟩) ⟨1, 9⟩)
    (some (.print (.literal (.number 2) ⟨1, 29⟩) ⟨1, 23⟩)) ⟨1, 1⟩

theorem parse_branches :
    parse (firstBranch ++ secondBranch ++ [⟨.endOfInput, "", ⟨1, 30⟩⟩]) = .ok [branchesTree] := by
  refine programFrom_eq_ok.mpr (.more rfl (by decide) ⟨⟨_, _, ?_⟩, rfl, rfl, rfl⟩ (.close ?_))
  · decide
  · rintro l ⟨⟩
    rfl

/-- A semicolon behind the second branch. -/
theorem branches_semicolon :
    parse (firstBranch ++ secondBranch ++ [⟨.endOfInput, "", ⟨1, 30⟩⟩]) = .ok [branchesTree] ∧
      (∃ before, Stmt.OccursIn (.print (.literal (.number 2) ⟨1, 29⟩) ⟨1, 23⟩) before
        [branchesTree]) ∧
      parse (firstBranch ++ secondBranch ++
        ⟨.symbol .semicolon, ";", ⟨1, 30⟩⟩ :: [⟨.endOfInput, "", ⟨1, 30⟩⟩])
        = .ok [branchesTree] := by
  have hs : Stmt.OccursIn (.print (.literal (.number 2) ⟨1, 29⟩) ⟨1, 23⟩) _ [branchesTree] :=
    .head (.no .here)
  obtain ⟨-, hplace⟩ := parse_semicolon parse_branches hs rfl
  refine ⟨parse_branches, ⟨_, hs⟩, (hplace _ _ rfl ⟨?_, ?_⟩ _ rfl).1 (by simp)⟩
  · simp [firstBranch, secondBranch, Stmt.marks, Expr.marks, Mark.Fits, Mark.kept, Mark.plain,
      isSemicolon, Literal.token]
  · rintro l ⟨⟩
    rfl

/-- A semicolon is not optional everywhere: behind the first branch it hides the second. -/
theorem semicolon_before_else_refused :
    parse (firstBranch ++ secondBranch ++ [⟨.endOfInput, "", ⟨1, 30⟩⟩]) = .ok [branchesTree] ∧
      (∃ before, Stmt.OccursIn (.print (.literal (.number 1) ⟨1, 15⟩) ⟨1, 9⟩) before
        [branchesTree] ∧
        ReachTo (before ++ Stmt.marks [] (.print (.literal (.number 1) ⟨1, 15⟩) ⟨1, 9⟩))
          firstBranch) ∧
      parse (firstBranch ++ ⟨.symbol .semicolon, ";", ⟨1, 16⟩⟩ ::
        (secondBranch ++ [⟨.endOfInput, "", ⟨1, 30⟩⟩])) =
        .error ⟨.unexpectedToken "else", ⟨1, 18⟩⟩ := by
  refine ⟨parse_branches, ⟨_, .head (.yes .here), ?_, ?_⟩, ?_⟩
  · simp [firstBranch, Stmt.marks, Expr.marks, Mark.Fits, Mark.kept, isSemicolon, Literal.token]
  · rintro l ⟨⟩
    rfl
  · -- What is read is a conditional without a second branch, and then the `else`.
    refine (programFrom_eq rfl (by decide) [] ⟨⟨_, _, ?_⟩, rfl, rfl, rfl⟩).trans
      (programFrom_error rfl (by decide) _ rfl)
    decide

end Grammar

end Scripting
