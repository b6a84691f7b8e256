/-
How the rules of the grammar succeed.

For every rule there is a relation with one constructor for each way in which the rule can
succeed: what the lexemes begin with, which rules one level further in were used on what follows,
what was made of it and what is left. A rule returns something exactly in these ways, so that
whatever is to be shown of accepted lexemes, or of lexemes that are to be accepted, is shown
of the relations and the rules are not looked into again.
-/
import Scripting.Proofs.Results
import Scripting.Tree.Grammar

set_option autoImplicit false

namespace Scripting

/-- The token that a literal is written with. -/
def Literal.token : Literal → Token
  | .number x => .number x
  | .string s => .string s
  | .bool true => .keyword .true_
  | .bool false => .keyword .false_
  | .nil => .keyword .nil_

namespace Grammar

/-- The token that comes next. -/
def next? (ts : List Lexeme) : Option Token := ts.head?.map (·.token)

@[simp] theorem next?_nil : next? [] = none := rfl

@[simp] theorem next?_cons (l : Lexeme) (ts : List Lexeme) : next? (l :: ts) = some l.token := rfl

/-! ## What a rule yields -/

/-- A rule has returned `v` and left `rest`. -/
def Yields {α : Type} {bound : Nat} (x : Except ParseError (Parsed α bound)) (v : α)
    (rest : List Lexeme) : Prop :=
  ∃ y, x = .ok y ∧ y.value = v ∧ y.rest = rest

section Yields

variable {α β : Type} {bound bound' : Nat} {v : α} {w : β} {rest : List Lexeme}

theorem yields_ok {y : Parsed α bound} : Yields (.ok y) v rest ↔ y.value = v ∧ y.rest = rest := by
  constructor
  · rintro ⟨y', hy, hv, hr⟩
    cases hy
    exact ⟨hv, hr⟩
  · rintro ⟨hv, hr⟩
    exact ⟨y, rfl, hv, hr⟩

theorem not_yields_error {e : ParseError} :
    ¬ Yields (.error e : Except ParseError (Parsed α bound)) v rest := by
  rintro ⟨y, hy, -⟩
  cases hy

theorem yields_bind {x : Except ParseError β} {f : β → Except ParseError (Parsed α bound)} :
    Yields (x >>= f) v rest ↔ ∃ a, x = .ok a ∧ Yields (f a) v rest := by
  cases x with
  | error e =>
    constructor
    · intro h
      exact absurd h not_yields_error
    · rintro ⟨a, h, -⟩
      cases h
  | ok a =>
    constructor
    · intro h
      exact ⟨a, rfl, h⟩
    · rintro ⟨a', h, hf⟩
      cases h
      exact hf

end Yields

/-! ## Single lexemes -/

theorem yields_expect {mark : Symbol} (what : Expectation) {ts rest : List Lexeme} {l : Lexeme} :
    Yields (expect mark what ts) l rest ↔ ts = l :: rest ∧ l.token = .symbol mark := by
  cases ts with
  | nil =>
    constructor
    · intro h
      exact absurd h not_yields_error
    · rintro ⟨h, -⟩
      cases h
  | cons l' ts =>
    rw [expect]
    split
    · next hl =>
      rw [yields_ok]
      constructor
      · rintro ⟨rfl, rfl⟩
        exact ⟨rfl, hl⟩
      · rintro ⟨h, -⟩
        cases h
        exact ⟨rfl, rfl⟩
    · next hl =>
      constructor
      · intro h
        exact absurd h not_yields_error
      · rintro ⟨h, hl'⟩
        cases h
        exact absurd hl' hl

theorem yields_nameOf (what : Expectation) {ts rest : List Lexeme} {n : String × Position} :
    Yields (nameOf what ts) n rest ↔
      ∃ l, ts = l :: rest ∧ l.token = .identifier n.1 ∧ l.position = n.2 := by
  cases ts with
  | nil =>
    constructor
    · intro h
      exact absurd h not_yields_error
    · rintro ⟨l, h, -⟩
      cases h
  | cons l ts =>
    rw [nameOf]
    split
    · next name hl =>
      rw [yields_ok]
      constructor
      · rintro ⟨rfl, rfl⟩
        exact ⟨l, rfl, hl, rfl⟩
      · rintro ⟨l', h, hl', hp⟩
        cases h
        rw [hl] at hl'
        cases hl'
        exact ⟨Prod.ext rfl hp, rfl⟩
    · next hl =>
      constructor
      · intro h
        exact absurd h not_yields_error
      · rintro ⟨l', h, hl', -⟩
        cases h
        exact absurd hl' (hl _)

theorem yields_nameOf_cons (what : Expectation) {l : Lexeme} {x : String}
    (hl : l.token = .identifier x) (rest : List Lexeme) :
    Yields (nameOf what (l :: rest)) (x, l.position) rest :=
  (yields_nameOf what).mpr ⟨l, rfl, hl, rfl⟩

theorem descend_eq_ok {inner : Option Rules} {p : Position} {left : List Lexeme} {rules : Rules} :
    descend inner p left = .ok rules ↔ inner = some rules := by
  cases inner with
  | none =>
    constructor
    · intro h
      cases h
    · intro h
      cases h
  | some r =>
    constructor
    · intro h
      cases h
      rfl
    · intro h
      cases h
      rfl

/-! ## Lists -/

/-- How the items of a list that is not empty are read, up to the closing parenthesis. -/
inductive ItemsRead {α : Type} (item : Rule α) : List Lexeme → List α → List Lexeme → Prop
  | last {ts : List Lexeme} {x : α} {l : Lexeme} {rest : List Lexeme} :
      Yields (item ts) x (l :: rest) → l.token = .symbol .rightParen → ItemsRead item ts [x] rest
  | more {ts : List Lexeme} {x : α} {l : Lexeme} {after : List Lexeme} {xs : List α}
      {rest : List Lexeme} : Yields (item ts) x (l :: after) → l.token = .symbol .comma →
      ItemsRead item after xs rest → ItemsRead item ts (x :: xs) rest

theorem itemsRead_of_yields {α : Type} {what : Listing} {item : Rule α} {room : Nat}
    {ts rest : List Lexeme} {xs : List α} (h : Yields (itemsFrom what item room ts) xs rest) :
    ItemsRead item ts xs rest ∧ xs.length ≤ room := by
  induction room generalizing ts xs with
  | zero => exact absurd h not_yields_error
  | succ room ih =>
    rw [itemsFrom] at h
    obtain ⟨x, hx, h⟩ := yields_bind.mp h
    split at h
    · exact absurd h not_yields_error
    · next l after hrest =>
      dsimp only at h
      split at h
      · next hl =>
        obtain ⟨more, hmore, h⟩ := yields_bind.mp h
        obtain ⟨rfl, rfl⟩ := yields_ok.mp h
        obtain ⟨hread, hlen⟩ := ih ⟨more, hmore, rfl, rfl⟩
        exact ⟨.more ⟨x, hx, rfl, hrest⟩ hl hread, Nat.succ_le_succ hlen⟩
      · split at h
        · next hl =>
          obtain ⟨rfl, rfl⟩ := yields_ok.mp h
          exact ⟨.last ⟨x, hx, rfl, hrest⟩ hl, Nat.succ_le_succ (Nat.zero_le room)⟩
        · exact absurd h not_yields_error

theorem ItemsRead.yields {α : Type} (what : Listing) {item : Rule α} {room : Nat}
    {ts rest : List Lexeme} {xs : List α} (h : ItemsRead item ts xs rest)
    (hlen : xs.length ≤ room) : Yields (itemsFrom what item room ts) xs rest := by
  induction h generalizing room with
  | last hx hl =>
    obtain ⟨x, hx, rfl, hrest⟩ := hx
    obtain ⟨room, rfl⟩ : ∃ r, room = r + 1 := ⟨room - 1, by simp at hlen; omega⟩
    rw [itemsFrom]
    refine yields_bind.mpr ⟨x, hx, ?_⟩
    split
    · next hnil => cases hrest.symm.trans hnil
    · next hcons =>
      cases hrest.symm.trans hcons
      rw [if_neg (by rw [hl]; decide), if_pos hl]
      exact yields_ok.mpr ⟨rfl, rfl⟩
  | more hx hl _ ih =>
    obtain ⟨x, hx, rfl, hrest⟩ := hx
    obtain ⟨room, rfl⟩ : ∃ r, room = r + 1 := ⟨room - 1, by simp at hlen; omega⟩
    obtain ⟨more, hmore, rfl, rfl⟩ := ih (Nat.le_of_succ_le_succ hlen)
    rw [itemsFrom]
    refine yields_bind.mpr ⟨x, hx, ?_⟩
    split
    · next hnil => cases hrest.symm.trans hnil
    · next hcons =>
      cases hrest.symm.trans hcons
      rw [if_pos hl]
      exact yields_bind.mpr ⟨more, hmore, yields_ok.mpr ⟨rfl, rfl⟩⟩

/-- How a list in parentheses is read whose opening one has been read. -/
inductive ListRead {α : Type} (item : Rule α) : List Lexeme → List α → List Lexeme → Prop
  | none {l : Lexeme} {rest : List Lexeme} : l.token = .symbol .rightParen →
      ListRead item (l :: rest) [] rest
  | some {ts : List Lexeme} {xs : List α} {rest : List Lexeme} :
      next? ts ≠ some (.symbol .rightParen) → ItemsRead item ts xs rest → ListRead item ts xs rest

theorem yields_commaSeparated {α : Type} (what : Listing) {item : Rule α}
    {ts rest : List Lexeme} {xs : List α} :
    Yields (commaSeparated what item ts) xs rest ↔
      ListRead item ts xs rest ∧ xs.length ≤ maxItems := by
  cases ts with
  | nil =>
    constructor
    · intro h
      obtain ⟨hread, hlen⟩ := itemsRead_of_yields h
      exact ⟨.some (by simp) hread, hlen⟩
    · rintro ⟨_ | ⟨-, hread⟩, hlen⟩
      exact hread.yields what hlen
  | cons l ts =>
    rw [commaSeparated]
    split
    · next hl =>
      rw [yields_ok]
      constructor
      · rintro ⟨rfl, rfl⟩
        exact ⟨.none hl, Nat.zero_le maxItems⟩
      · rintro ⟨_ | ⟨hopen, -⟩, -⟩
        · exact ⟨rfl, rfl⟩
        · exact absurd (congrArg some hl) hopen
    · next hl =>
      constructor
      · intro h
        obtain ⟨hread, hlen⟩ := itemsRead_of_yields h
        exact ⟨.some (by simpa using hl) hread, hlen⟩
      · rintro ⟨hl' | ⟨-, hread⟩, hlen⟩
        · exact absurd hl' hl
        · exact hread.yields what hlen

/-! ## Lists of statements -/

/-- What is left after a statement is shorter than what there was before it. -/
theorem length_rest_lt_of_dropWhile {α : Type} {ts after : List Lexeme} {l : Lexeme}
    (hdrop : ts.dropWhile isSemicolon = l :: after) (s : Parsed α (l :: after).length) :
    s.rest.length < ts.length := by
  have hle := length_dropWhile_le isSemicolon ts
  have hlt := s.rest_lt
  rw [hdrop] at hle
  omega

/-- How the statements of a block are read, up to its closing brace. -/
inductive BlockRead (declaration : Rule Stmt) : List Lexeme → List Stmt → List Lexeme → Prop
  | close {ts : List Lexeme} {l : Lexeme} {rest : List Lexeme} :
      ts.dropWhile isSemicolon = l :: rest → l.token = .symbol .rightBrace →
      BlockRead declaration ts [] rest
  | more {ts : List Lexeme} {l : Lexeme} {after : List Lexeme} {s : Stmt} {mid : List Lexeme}
      {body : List Stmt} {rest : List Lexeme} : ts.dropWhile isSemicolon = l :: after →
      l.token ≠ .symbol .rightBrace → l.token ≠ .endOfInput →
      Yields (declaration (l :: after)) s mid → BlockRead declaration mid body rest →
      BlockRead declaration ts (s :: body) rest

theorem blockRead_of_yields {declaration : Rule Stmt} {opening : Position} {bound : Nat}
    {read statements : List Stmt} {ts rest : List Lexeme} {fits : ts.length ≤ bound}
    (h : Yields (blockFrom declaration opening bound read ts fits) statements rest) :
    ∃ body, statements = read.reverse ++ body ∧ BlockRead declaration ts body rest := by
  -- The rule calls itself on what a statement has left, so the induction is on the length.
  induction hn : ts.length using Nat.strongRecOn generalizing ts read with
  | ind n ih =>
    rw [blockFrom] at h
    split at h
    · exact absurd h not_yields_error
    · next l after hdrop =>
      dsimp only at h
      split at h
      · next hl =>
        obtain ⟨rfl, rfl⟩ := yields_ok.mp h
        exact ⟨[], (List.append_nil _).symm, .close hdrop hl⟩
      · next hbrace =>
        split at h
        · exact absurd h not_yields_error
        · next hend =>
          split at h
          · exact absurd h not_yields_error
          · next s hs =>
            have hlt := length_rest_lt_of_dropWhile hdrop s
            obtain ⟨body, hvalue, hread⟩ := ih _ (hn ▸ hlt) h rfl
            refine ⟨s.value :: body, ?_, .more hdrop hbrace hend ⟨s, hs, rfl, rfl⟩ hread⟩
            rw [hvalue, List.reverse_cons, List.append_assoc]
            rfl

theorem BlockRead.yields {declaration : Rule Stmt} (opening : Position) {bound : Nat}
    {body : List Stmt} {ts rest : List Lexeme} (h : BlockRead declaration ts body rest)
    (read : List Stmt) (fits : ts.length ≤ bound) :
    Yields (blockFrom declaration opening bound read ts fits) (read.reverse ++ body) rest := by
  induction h generalizing read with
  | close hdrop hl =>
    rw [blockFrom]
    split
    · next hnil => cases hdrop.symm.trans hnil
    · next hcons =>
      cases hdrop.symm.trans hcons
      dsimp only
      rw [if_pos hl]
      exact yields_ok.mpr ⟨(List.append_nil _).symm, rfl⟩
  | more hdrop hbrace hend hs _ ih =>
    obtain ⟨s, hs, rfl, rfl⟩ := hs
    rw [blockFrom]
    split
    · next hnil => cases hdrop.symm.trans hnil
    · next hcons =>
      cases hdrop.symm.trans hcons
      dsimp only
      rw [if_neg hbrace, if_neg hend]
      split
      · next he => cases hs.symm.trans he
      · next s' hs' =>
        cases hs.symm.trans hs'
        have hlt := length_rest_lt_of_dropWhile hdrop s
        have hrest := ih (s.value :: read) (Nat.le_of_lt (Nat.lt_of_lt_of_le hlt fits))
        rwa [List.reverse_cons, List.append_assoc, List.singleton_append] at hrest

theorem yields_block {rules : Rules} {around : Surroundings} (opening : Position)
    {ts rest : List Lexeme} {body : List Stmt} :
    Yields (rules.block around opening ts) body rest ↔
      BlockRead (rules.declaration around) ts body rest := by
  constructor
  · intro h
    obtain ⟨body', rfl, hread⟩ := blockRead_of_yields h
    exact hread
  · intro h
    exact h.yields opening [] (Nat.le_refl _)

/-- How the statements of a program are read, up to the end. -/
inductive ProgramRead (declaration : Rule Stmt) : List Lexeme → List Stmt → Prop
  | close {ts : List Lexeme} : (∀ l, (ts.dropWhile isSemicolon).head? = some l →
      l.token = .endOfInput) → ProgramRead declaration ts []
  | more {ts : List Lexeme} {l : Lexeme} {after : List Lexeme} {s : Stmt} {mid : List Lexeme}
      {body : List Stmt} : ts.dropWhile isSemicolon = l :: after → l.token ≠ .endOfInput →
      Yields (declaration (l :: after)) s mid → ProgramRead declaration mid body →
      ProgramRead declaration ts (s :: body)

theorem programRead_of_ok {declaration : Rule Stmt} {read statements : List Stmt}
    {ts : List Lexeme} (h : programFrom declaration read ts = .ok statements) :
    ∃ body, statements = read.reverse ++ body ∧ ProgramRead declaration ts body := by
  induction hn : ts.length using Nat.strongRecOn generalizing ts read with
  | ind n ih =>
    rw [programFrom] at h
    split at h
    · next hdrop =>
      cases h
      refine ⟨[], (List.append_nil _).symm, .close fun l hl => ?_⟩
      rw [hdrop] at hl
      cases hl
    · next l after hdrop =>
      split at h
      · next hl =>
        cases h
        refine ⟨[], (List.append_nil _).symm, .close fun l' hl' => ?_⟩
        rw [hdrop] at hl'
        cases hl'
        exact hl
      · next hend =>
        split at h
        · cases h
        · next s hs =>
          have hlt := length_rest_lt_of_dropWhile hdrop s
          obtain ⟨body, hvalue, hread⟩ := ih _ (hn ▸ hlt) h rfl
          refine ⟨s.value :: body, ?_, .more hdrop hend ⟨s, hs, rfl, rfl⟩ hread⟩
          rw [hvalue, List.reverse_cons, List.append_assoc]
          rfl

theorem ProgramRead.ok {declaration : Rule Stmt} {body : List Stmt} {ts : List Lexeme}
    (h : ProgramRead declaration ts body) (read : List Stmt) :
    programFrom declaration read ts = .ok (read.reverse ++ body) := by
  induction h generalizing read with
  | close hend =>
    rw [programFrom]
    split
    · rw [List.append_nil]
    · next hcons =>
      rw [if_pos (hend _ (by rw [hcons]; rfl)), List.append_nil]
  | more hdrop hend hs _ ih =>
    obtain ⟨s, hs, rfl, rfl⟩ := hs
    rw [programFrom]
    split
    · next hnil => cases hdrop.symm.trans hnil
    · next hcons =>
      cases hdrop.symm.trans hcons
      rw [if_neg hend]
      split
      · next he => cases hs.symm.trans he
      · next s' hs' =>
        cases hs.symm.trans hs'
        have hrest := ih (s.value :: read)
        rwa [List.reverse_cons, List.append_assoc, List.singleton_append] at hrest

theorem programFrom_eq_ok {declaration : Rule Stmt} {statements : List Stmt} {ts : List Lexeme} :
    programFrom declaration [] ts = .ok statements ↔ ProgramRead declaration ts statements := by
  constructor
  · intro h
    obtain ⟨body, rfl, hread⟩ := programRead_of_ok h
    exact hread
  · intro h
    exact h.ok []

/-! ## Expressions -/

/-- How a literal, a name or a group is read. -/
inductive PrimaryRead (inner : Option Rules) : List Lexeme → Expr → List Lexeme → Prop
  | literal {l : Lexeme} {rest : List Lexeme} {v : Literal} : l.token = v.token →
      PrimaryRead inner (l :: rest) (.literal v l.position) rest
  | var {l : Lexeme} {rest : List Lexeme} {name : String} : l.token = .identifier name →
      PrimaryRead inner (l :: rest) (.var name l.position) rest
  | group {l : Lexeme} {ts : List Lexeme} {rules : Rules} {e : Expr} {close : Lexeme}
      {rest : List Lexeme} : l.token = .symbol .leftParen → inner = some rules →
      Yields (rules.expression ts) e (close :: rest) → close.token = .symbol .rightParen →
      PrimaryRead inner (l :: ts) (.group e l.position) rest

theorem primaryRead_of_yields {inner : Option Rules} {ts rest : List Lexeme} {e : Expr}
    (h : Yields (primary inner ts) e rest) : PrimaryRead inner ts e rest := by
  cases ts with
  | nil => exact absurd h not_yields_error
  | cons l ts =>
    rw [primary] at h
    split at h
    · next v hl =>
      obtain ⟨rfl, rfl⟩ := yields_ok.mp h
      exact .literal (v := .number v) hl
    · next v hl =>
      obtain ⟨rfl, rfl⟩ := yields_ok.mp h
      exact .literal (v := .string v) hl
    · next hl =>
      obtain ⟨rfl, rfl⟩ := yields_ok.mp h
      exact .literal (v := .bool true) hl
    · next hl =>
      obtain ⟨rfl, rfl⟩ := yields_ok.mp h
      exact .literal (v := .bool false) hl
    · next hl =>
      obtain ⟨rfl, rfl⟩ := yields_ok.mp h
      exact .literal (v := .nil) hl
    · next name hl =>
      obtain ⟨rfl, rfl⟩ := yields_ok.mp h
      exact .var hl
    · next hl =>
      obtain ⟨rules, hrules, h⟩ := yields_bind.mp h
      obtain ⟨x, hx, h⟩ := yields_bind.mp h
      obtain ⟨close, hclose, h⟩ := yields_bind.mp h
      obtain ⟨rfl, rfl⟩ := yields_ok.mp h
      obtain ⟨hrest, htoken⟩ := (yields_expect _).mp ⟨close, hclose, rfl, rfl⟩
      exact .group hl (descend_eq_ok.mp hrules) ⟨x, hx, rfl, hrest⟩ htoken
    · exact absurd h not_yields_error

theorem PrimaryRead.yields {inner : Option Rules} {ts rest : List Lexeme} {e : Expr}
    (h : PrimaryRead inner ts e rest) : Yields (primary inner ts) e rest := by
  cases h with
  | @literal l rest v hl =>
    cases v with
    | bool b =>
      cases b <;>
      · simp only [primary, hl, Literal.token]
        exact yields_ok.mpr ⟨rfl, rfl⟩
    | number x | string x | nil =>
      simp only [primary, hl, Literal.token]
      exact yields_ok.mpr ⟨rfl, rfl⟩
  | var hl =>
    simp only [primary, hl]
    exact yields_ok.mpr ⟨rfl, rfl⟩
  | group hl hinner hx hclose =>
    obtain ⟨x, hx, rfl, hrest⟩ := hx
    obtain ⟨close, hclose, -, rfl⟩ :=
      (yields_expect .closingParen).mpr ⟨hrest, hclose⟩
    simp only [primary, hl]
    refine yields_bind.mpr ⟨_, descend_eq_ok.mpr hinner, yields_bind.mpr ⟨x, hx, ?_⟩⟩
    exact yields_bind.mpr ⟨close, hclose, yields_ok.mpr ⟨rfl, rfl⟩⟩

/-- How the calls after a callee are read. -/
inductive CallsRead (inner : Option Rules) (callee : Expr) :
    List Lexeme → Expr → List Lexeme → Prop
  | done {ts : List Lexeme} : next? ts ≠ some (.symbol .leftParen) →
      CallsRead inner callee ts callee ts
  | call {l : Lexeme} {ts : List Lexeme} {rules : Rules} {arguments : List Expr}
      {after : List Lexeme} {e : Expr} {rest : List Lexeme} : l.token = .symbol .leftParen →
      inner = some rules → ListRead rules.expression ts arguments after →
      arguments.length ≤ maxItems →
      Yields (rules.calls (.call callee arguments l.position) after) e rest →
      CallsRead inner callee (l :: ts) e rest

theorem yields_calls {inner : Option Rules} {callee e : Expr} {ts rest : List Lexeme} :
    Yields (calls inner callee ts) e rest ↔ CallsRead inner callee ts e rest := by
  constructor
  · intro h
    cases ts with
    | nil =>
      obtain ⟨rfl, rfl⟩ := yields_ok.mp h
      exact .done (by simp)
    | cons l ts =>
      rw [calls] at h
      split at h
      · next hl =>
        obtain ⟨rules, hrules, h⟩ := yields_bind.mp h
        obtain ⟨arguments, hargs, h⟩ := yields_bind.mp h
        obtain ⟨more, hmore, h⟩ := yields_bind.mp h
        obtain ⟨hread, hlen⟩ := (yields_commaSeparated _).mp ⟨arguments, hargs, rfl, rfl⟩
        obtain ⟨rfl, rfl⟩ := yields_ok.mp h
        exact .call hl (descend_eq_ok.mp hrules) hread hlen ⟨more, hmore, rfl, rfl⟩
      · next hl =>
        obtain ⟨rfl, rfl⟩ := yields_ok.mp h
        exact .done (by simpa using hl)
  · intro h
    cases h with
    | done hnext =>
      cases ts with
      | nil => exact yields_ok.mpr ⟨rfl, rfl⟩
      | cons l ts =>
        rw [calls, if_neg (by simpa using hnext)]
        exact yields_ok.mpr ⟨rfl, rfl⟩
    | call hl hinner hread hlen hmore =>
      obtain ⟨arguments, hargs, rfl, rfl⟩ :=
        (yields_commaSeparated .arguments).mpr ⟨hread, hlen⟩
      obtain ⟨more, hmore, rfl, rfl⟩ := hmore
      rw [calls, if_pos hl]
      refine yields_bind.mpr ⟨_, descend_eq_ok.mpr hinner, yields_bind.mpr ⟨_, hargs, ?_⟩⟩
      exact yields_bind.mpr ⟨more, hmore, yields_ok.mpr ⟨rfl, rfl⟩⟩

/-- How an operand is read, with the operators in front of it and the calls after it. -/
inductive UnaryRead (inner : Option Rules) : List Lexeme → Expr → List Lexeme → Prop
  | operator {l : Lexeme} {ts : List Lexeme} {op : UnaryOperator} {rules : Rules} {e : Expr}
      {rest : List Lexeme} : UnaryOperator.ofToken? l.token = some op → inner = some rules →
      Yields (rules.unary ts) e rest → UnaryRead inner (l :: ts) (.unary op e l.position) rest
  | calls {ts after rest : List Lexeme} {callee e : Expr} : PrimaryRead inner ts callee after →
      CallsRead inner callee after e rest → UnaryRead inner ts e rest

theorem unaryRead_of_yields {inner : Option Rules} {ts rest : List Lexeme} {e : Expr}
    (h : Yields (unary inner ts) e rest) : UnaryRead inner ts e rest := by
  cases ts with
  | nil => exact absurd h not_yields_error
  | cons l ts =>
    rw [unary] at h
    split at h
    · next op hop =>
      obtain ⟨rules, hrules, h⟩ := yields_bind.mp h
      obtain ⟨operand, hoperand, h⟩ := yields_bind.mp h
      obtain ⟨rfl, rfl⟩ := yields_ok.mp h
      exact .operator hop (descend_eq_ok.mp hrules) ⟨operand, hoperand, rfl, rfl⟩
    · obtain ⟨callee, hcallee, h⟩ := yields_bind.mp h
      obtain ⟨more, hmore, h⟩ := yields_bind.mp h
      obtain ⟨rfl, rfl⟩ := yields_ok.mp h
      exact .calls (primaryRead_of_yields ⟨callee, hcallee, rfl, rfl⟩)
        (yields_calls.mp ⟨more, hmore, rfl, rfl⟩)

/-- Nothing that a unary operator stands in front of is a literal, a name or a group. -/
theorem PrimaryRead.begins {inner : Option Rules} {ts rest : List Lexeme} {e : Expr}
    (h : PrimaryRead inner ts e rest) :
    ∃ l after, ts = l :: after ∧ UnaryOperator.ofToken? l.token = none := by
  cases h with
  | @literal l rest v hl =>
    refine ⟨l, rest, rfl, ?_⟩
    rw [hl]
    cases v with
    | bool b => cases b <;> rfl
    | number x | string x | nil => rfl
  | var hl => exact ⟨_, _, rfl, by rw [hl]; rfl⟩
  | group hl => exact ⟨_, _, rfl, by rw [hl]; rfl⟩

theorem UnaryRead.yields {inner : Option Rules} {ts rest : List Lexeme} {e : Expr}
    (h : UnaryRead inner ts e rest) : Yields (unary inner ts) e rest := by
  cases h with
  | operator hop hinner hoperand =>
    obtain ⟨operand, hoperand, rfl, rfl⟩ := hoperand
    simp only [unary, hop]
    refine yields_bind.mpr ⟨_, descend_eq_ok.mpr hinner, ?_⟩
    exact yields_bind.mpr ⟨operand, hoperand, yields_ok.mpr ⟨rfl, rfl⟩⟩
  | calls hprimary hcalls =>
    obtain ⟨l, after, rfl, hop⟩ := hprimary.begins
    obtain ⟨callee, hcallee, rfl, rfl⟩ := hprimary.yields
    obtain ⟨more, hmore, rfl, rfl⟩ := yields_calls.mpr hcalls
    simp only [unary, hop]
    refine yields_bind.mpr ⟨callee, hcallee, ?_⟩
    exact yields_bind.mpr ⟨more, hmore, yields_ok.mpr ⟨rfl, rfl⟩⟩

/-- The binary operator that comes next. -/
def nextOperator? (ts : List Lexeme) : Option BinaryOperator :=
  (next? ts).bind BinaryOperator.ofToken?

@[simp] theorem nextOperator?_nil : nextOperator? [] = none := rfl

@[simp] theorem nextOperator?_cons (l : Lexeme) (ts : List Lexeme) :
    nextOperator? (l :: ts) = BinaryOperator.ofToken? l.token := rfl

/-- How the operators after an operand are read. -/
inductive OperatorsRead (inner : Option Rules) (least : Precedence) (left : Expr) :
    List Lexeme → Expr → List Lexeme → Prop
  | done {ts : List Lexeme} : (∀ op, nextOperator? ts = some op → ¬ least ≤ op.precedence) →
      OperatorsRead inner least left ts left ts
  | operator {l : Lexeme} {ts : List Lexeme} {op : BinaryOperator} {rules : Rules} {right : Expr}
      {after : List Lexeme} {e : Expr} {rest : List Lexeme} :
      BinaryOperator.ofToken? l.token = some op → least ≤ op.precedence → inner = some rules →
      Yields (rules.precedence op.precedence.next ts) right after →
      Yields (rules.operators least (.binary op left right l.position) after) e rest →
      OperatorsRead inner least left (l :: ts) e rest

theorem yields_operators {inner : Option Rules} {least : Precedence} {left e : Expr}
    {ts rest : List Lexeme} :
    Yields (operators inner least left ts) e rest ↔ OperatorsRead inner least left ts e rest := by
  constructor
  · intro h
    cases ts with
    | nil =>
      obtain ⟨rfl, rfl⟩ := yields_ok.mp h
      exact .done fun op hop => by cases hop
    | cons l ts =>
      rw [operators] at h
      split at h
      · next hnone =>
        obtain ⟨rfl, rfl⟩ := yields_ok.mp h
        refine .done fun op hop => ?_
        rw [nextOperator?_cons, hnone] at hop
        cases hop
      · next op hop =>
        split at h
        · next hle =>
          obtain ⟨rules, hrules, h⟩ := yields_bind.mp h
          obtain ⟨right, hright, h⟩ := yields_bind.mp h
          obtain ⟨more, hmore, h⟩ := yields_bind.mp h
          obtain ⟨rfl, rfl⟩ := yields_ok.mp h
          exact .operator hop hle (descend_eq_ok.mp hrules) ⟨right, hright, rfl, rfl⟩
            ⟨more, hmore, rfl, rfl⟩
        · next hle =>
          obtain ⟨rfl, rfl⟩ := yields_ok.mp h
          refine .done fun op' hop' => ?_
          rw [nextOperator?_cons, hop] at hop'
          cases hop'
          exact hle
  · intro h
    cases h with
    | done hstop =>
      cases ts with
      | nil => exact yields_ok.mpr ⟨rfl, rfl⟩
      | cons l ts =>
        rw [operators]
        split
        · exact yields_ok.mpr ⟨rfl, rfl⟩
        · next op hop =>
          rw [if_neg (hstop op hop)]
          exact yields_ok.mpr ⟨rfl, rfl⟩
    | operator hop hle hinner hright hmore =>
      obtain ⟨right, hright, rfl, rfl⟩ := hright
      obtain ⟨more, hmore, rfl, rfl⟩ := hmore
      simp only [operators, hop]
      rw [if_pos hle]
      refine yields_bind.mpr ⟨_, descend_eq_ok.mpr hinner, yields_bind.mpr ⟨right, hright, ?_⟩⟩
      exact yields_bind.mpr ⟨more, hmore, yields_ok.mpr ⟨rfl, rfl⟩⟩

/-- How an expression with operators of some level and tighter is read. -/
inductive PrecedenceRead (inner : Option Rules) (least : Precedence) :
    List Lexeme → Expr → List Lexeme → Prop
  | intro {ts after rest : List Lexeme} {left e : Expr} : UnaryRead inner ts left after →
      OperatorsRead inner least left after e rest → PrecedenceRead inner least ts e rest

theorem yields_precedence {inner : Option Rules} {least : Precedence} {ts rest : List Lexeme}
    {e : Expr} :
    Yields (precedence inner least ts) e rest ↔ PrecedenceRead inner least ts e rest := by
  rw [precedence]
  constructor
  · intro h
    obtain ⟨left, hleft, h⟩ := yields_bind.mp h
    obtain ⟨more, hmore, h⟩ := yields_bind.mp h
    obtain ⟨rfl, rfl⟩ := yields_ok.mp h
    exact .intro (unaryRead_of_yields ⟨left, hleft, rfl, rfl⟩)
      (yields_operators.mp ⟨more, hmore, rfl, rfl⟩)
  · rintro ⟨hleft, hmore⟩
    obtain ⟨left, hl, rfl, rfl⟩ := hleft.yields
    obtain ⟨more, hm, rfl, rfl⟩ := yields_operators.mpr hmore
    exact yields_bind.mpr ⟨left, hl, yields_bind.mpr ⟨more, hm, yields_ok.mpr ⟨rfl, rfl⟩⟩⟩

/-- How an expression is read. -/
inductive ExpressionRead (inner : Option Rules) : List Lexeme → Expr → List Lexeme → Prop
  | plain {ts rest : List Lexeme} {e : Expr} : PrecedenceRead inner .or ts e rest →
      next? rest ≠ some (.symbol .equals) → ExpressionRead inner ts e rest
  | assign {ts after rest : List Lexeme} {name : String} {p : Position} {l : Lexeme}
      {rules : Rules} {e : Expr} : PrecedenceRead inner .or ts (.var name p) (l :: after) →
      l.token = .symbol .equals → inner = some rules → Yields (rules.expression after) e rest →
      ExpressionRead inner ts (.assign name e l.position) rest

theorem expressionRead_of_yields {inner : Option Rules} {ts rest : List Lexeme} {e : Expr}
    (h : Yields (expression inner ts) e rest) : ExpressionRead inner ts e rest := by
  rw [expression] at h
  obtain ⟨target, htarget, h⟩ := yields_bind.mp h
  split at h
  · next hrest =>
    obtain ⟨rfl, rfl⟩ := yields_ok.mp h
    exact .plain (yields_precedence.mp ⟨target, htarget, rfl, hrest⟩) (by simp)
  · next l after hrest =>
    dsimp only at h
    split at h
    · next hl =>
      obtain ⟨rules, hrules, h⟩ := yields_bind.mp h
      obtain ⟨value, hvalue, h⟩ := yields_bind.mp h
      -- Whether the left side is a name is asked last, after the value has been read.
      split at h
      · next name p hname =>
        obtain ⟨rfl, rfl⟩ := yields_ok.mp h
        exact .assign (yields_precedence.mp ⟨target, htarget, hname, hrest⟩) hl
          (descend_eq_ok.mp hrules) ⟨value, hvalue, rfl, rfl⟩
      · exact absurd h not_yields_error
    · next hl =>
      obtain ⟨rfl, rfl⟩ := yields_ok.mp h
      exact .plain (yields_precedence.mp ⟨target, htarget, rfl, hrest⟩) (by simpa using hl)

theorem ExpressionRead.yields {inner : Option Rules} {ts rest : List Lexeme} {e : Expr}
    (h : ExpressionRead inner ts e rest) : Yields (expression inner ts) e rest := by
  cases h with
  | plain htarget hnext =>
    obtain ⟨target, ht, rfl, rfl⟩ := yields_precedence.mpr htarget
    rw [expression]
    refine yields_bind.mpr ⟨target, ht, ?_⟩
    split
    · next hrest => exact yields_ok.mpr ⟨rfl, hrest.symm⟩
    · next l after hrest =>
      rw [hrest] at hnext
      rw [if_neg (by simpa using hnext)]
      exact yields_ok.mpr ⟨rfl, hrest.symm⟩
  | assign htarget hl hinner hvalue =>
    obtain ⟨target, htarget, hname, hrest⟩ := yields_precedence.mpr htarget
    obtain ⟨value, hvalue, rfl, rfl⟩ := hvalue
    rw [expression]
    refine yields_bind.mpr ⟨target, htarget, ?_⟩
    split
    · next hnil => cases hrest.symm.trans hnil
    · next hcons =>
      cases hrest.symm.trans hcons
      rw [if_pos hl]
      refine yields_bind.mpr ⟨_, descend_eq_ok.mpr hinner, yields_bind.mpr ⟨value, hvalue, ?_⟩⟩
      split
      · next name' p' hname' =>
        cases hname.symm.trans hname'
        exact yields_ok.mpr ⟨rfl, rfl⟩
      · next hother => exact absurd hname (hother _ _)

/-! ## Statements -/

/-- Whether a token begins a statement other than an expression. -/
def opensStatement : Token → Bool
  | .keyword .print_ | .symbol .leftBrace | .keyword .if_ | .keyword .while_
  | .keyword .return_ | .keyword .break_ | .keyword .continue_ => true
  | _ => false

/-- How a statement that is no declaration is read. -/
inductive StatementRead (inner : Option Rules) (around : Surroundings) :
    List Lexeme → Stmt → List Lexeme → Prop
  | print {l : Lexeme} {ts rest : List Lexeme} {e : Expr} : l.token = .keyword .print_ →
      ExpressionRead inner ts e rest →
      StatementRead inner around (l :: ts) (.print e l.position) rest
  | block {l : Lexeme} {ts rest : List Lexeme} {rules : Rules} {body : List Stmt} :
      l.token = .symbol .leftBrace → inner = some rules →
      BlockRead (rules.declaration around) ts body rest →
      StatementRead inner around (l :: ts) (.block body l.position) rest
  | cond {l : Lexeme} {ts after rest : List Lexeme} {test : Expr} {rules : Rules} {yes : Stmt} :
      l.token = .keyword .if_ → ExpressionRead inner ts test after → inner = some rules →
      Yields (rules.statement around after) yes rest → next? rest ≠ some (.keyword .else_) →
      StatementRead inner around (l :: ts) (.cond test yes none l.position) rest
  | condElse {l other : Lexeme} {ts after between rest : List Lexeme} {test : Expr}
      {rules : Rules} {yes no : Stmt} : l.token = .keyword .if_ →
      ExpressionRead inner ts test after → inner = some rules →
      Yields (rules.statement around after) yes (other :: between) →
      other.token = .keyword .else_ → Yields (rules.statement around between) no rest →
      StatementRead inner around (l :: ts) (.cond test yes (some no) l.position) rest
  | loop {l : Lexeme} {ts after rest : List Lexeme} {test : Expr} {rules : Rules} {body : Stmt} :
      l.token = .keyword .while_ → ExpressionRead inner ts test after → inner = some rules →
      Yields (rules.statement around.loopBody after) body rest →
      StatementRead inner around (l :: ts) (.loop test body l.position) rest
  | returnNothing {l : Lexeme} {ts : List Lexeme} : l.token = .keyword .return_ →
      around.inFunction = true → returnsNothing l.position ts = true →
      StatementRead inner around (l :: ts) (.return_ none l.position) ts
  | returnValue {l : Lexeme} {ts rest : List Lexeme} {e : Expr} : l.token = .keyword .return_ →
      around.inFunction = true → returnsNothing l.position ts = false →
      ExpressionRead inner ts e rest →
      StatementRead inner around (l :: ts) (.return_ (some e) l.position) rest
  | break_ {l : Lexeme} {ts : List Lexeme} : l.token = .keyword .break_ → around.inLoop = true →
      StatementRead inner around (l :: ts) (.break_ l.position) ts
  | continue_ {l : Lexeme} {ts : List Lexeme} : l.token = .keyword .continue_ →
      around.inLoop = true → StatementRead inner around (l :: ts) (.continue_ l.position) ts
  | expression {l : Lexeme} {ts rest : List Lexeme} {e : Expr} : opensStatement l.token = false →
      ExpressionRead inner (l :: ts) e rest →
      StatementRead inner around (l :: ts) (.expression e l.position) rest

/-- A conditional has an `else` exactly if one follows its first branch. -/
theorem statementRead_of_yields_cond {inner : Option Rules} {around : Surroundings} {l : Lexeme}
    {ts rest : List Lexeme} {s : Stmt} (hl : l.token = .keyword .if_)
    (h : Yields (statement inner around (l :: ts)) s rest) :
    StatementRead inner around (l :: ts) s rest := by
  simp only [statement, hl] at h
  obtain ⟨test, htest, h⟩ := yields_bind.mp h
  obtain ⟨rules, hrules, h⟩ := yields_bind.mp h
  obtain ⟨yes, hyes, h⟩ := yields_bind.mp h
  have htest' := expressionRead_of_yields ⟨test, htest, rfl, rfl⟩
  split at h
  · next hrest =>
    obtain ⟨rfl, rfl⟩ := yields_ok.mp h
    exact .cond hl htest' (descend_eq_ok.mp hrules) ⟨yes, hyes, rfl, hrest⟩ (by simp)
  · next e after hrest =>
    split at h
    · next he =>
      obtain ⟨no, hno, h⟩ := yields_bind.mp h
      obtain ⟨rfl, rfl⟩ := yields_ok.mp h
      exact .condElse hl htest' (descend_eq_ok.mp hrules) ⟨yes, hyes, rfl, hrest⟩ he
        ⟨no, hno, rfl, rfl⟩
    · next he =>
      obtain ⟨rfl, rfl⟩ := yields_ok.mp h
      exact .cond hl htest' (descend_eq_ok.mp hrules) ⟨yes, hyes, rfl, hrest⟩ (by simpa using he)

theorem statementRead_of_yields {inner : Option Rules} {around : Surroundings}
    {ts rest : List Lexeme} {s : Stmt} (h : Yields (statement inner around ts) s rest) :
    StatementRead inner around ts s rest := by
  cases ts with
  | nil => exact absurd h not_yields_error
  | cons l ts =>
    by_cases hif : l.token = .keyword .if_
    · exact statementRead_of_yields_cond hif h
    -- One case for each kind of statement, in the order in which the rule asks for them.
    rw [statement] at h
    split at h
    · next hl =>
      obtain ⟨e, he, h⟩ := yields_bind.mp h
      obtain ⟨rfl, rfl⟩ := yields_ok.mp h
      exact .print hl (expressionRead_of_yields ⟨e, he, rfl, rfl⟩)
    · next hl =>
      obtain ⟨rules, hrules, h⟩ := yields_bind.mp h
      obtain ⟨body, hbody, h⟩ := yields_bind.mp h
      obtain ⟨rfl, rfl⟩ := yields_ok.mp h
      exact .block hl (descend_eq_ok.mp hrules) ((yields_block _).mp ⟨body, hbody, rfl, rfl⟩)
    · next hl => exact absurd hl hif
    · next hl =>
      obtain ⟨test, htest, h⟩ := yields_bind.mp h
      obtain ⟨rules, hrules, h⟩ := yields_bind.mp h
      obtain ⟨body, hbody, h⟩ := yields_bind.mp h
      obtain ⟨rfl, rfl⟩ := yields_ok.mp h
      exact .loop hl (expressionRead_of_yields ⟨test, htest, rfl, rfl⟩)
        (descend_eq_ok.mp hrules) ⟨body, hbody, rfl, rfl⟩
    · next hl =>
      split at h
      · exact absurd h not_yields_error
      · next hin =>
        have hfunction : around.inFunction = true := by simpa using hin
        split at h
        · next hnothing =>
          obtain ⟨rfl, rfl⟩ := yields_ok.mp h
          exact .returnNothing hl hfunction hnothing
        · next hvalue =>
          obtain ⟨e, he, h⟩ := yields_bind.mp h
          obtain ⟨rfl, rfl⟩ := yields_ok.mp h
          exact .returnValue hl hfunction (by simpa using hvalue)
            (expressionRead_of_yields ⟨e, he, rfl, rfl⟩)
    · next hl =>
      split at h
      · next hin =>
        obtain ⟨rfl, rfl⟩ := yields_ok.mp h
        exact .break_ hl hin
      · exact absurd h not_yields_error
    · next hl =>
      split at h
      · next hin =>
        obtain ⟨rfl, rfl⟩ := yields_ok.mp h
        exact .continue_ hl hin
      · exact absurd h not_yields_error
    · next hprint hbrace _ hwhile hreturn hbreak hcontinue =>
      obtain ⟨e, he, h⟩ := yields_bind.mp h
      obtain ⟨rfl, rfl⟩ := yields_ok.mp h
      refine .expression ?_ (expressionRead_of_yields ⟨e, he, rfl, rfl⟩)
      unfold opensStatement
      split <;> simp_all

theorem StatementRead.yields {inner : Option Rules} {around : Surroundings}
    {ts rest : List Lexeme} {s : Stmt} (h : StatementRead inner around ts s rest) :
    Yields (statement inner around ts) s rest := by
  cases h with
  | print hl he =>
    obtain ⟨e, hx, rfl, rfl⟩ := he.yields
    simp only [statement, hl]
    exact yields_bind.mpr ⟨e, hx, yields_ok.mpr ⟨rfl, rfl⟩⟩
  | block hl hinner hbody =>
    simp only [statement, hl]
    obtain ⟨body, hbody, rfl, rfl⟩ := (yields_block _).mpr hbody
    refine yields_bind.mpr ⟨_, descend_eq_ok.mpr hinner, ?_⟩
    exact yields_bind.mpr ⟨body, hbody, yields_ok.mpr ⟨rfl, rfl⟩⟩
  | cond hl htest hinner hyes hnext =>
    obtain ⟨test, ht, rfl, rfl⟩ := htest.yields
    obtain ⟨yes, hyes, rfl, rfl⟩ := hyes
    simp only [statement, hl]
    refine yields_bind.mpr ⟨test, ht, yields_bind.mpr ⟨_, descend_eq_ok.mpr hinner, ?_⟩⟩
    refine yields_bind.mpr ⟨yes, hyes, ?_⟩
    split
    · next hrest => exact yields_ok.mpr ⟨rfl, hrest.symm⟩
    · next e after hrest =>
      rw [hrest] at hnext
      rw [if_neg (by simpa using hnext)]
      exact yields_ok.mpr ⟨rfl, hrest.symm⟩
  | condElse hl htest hinner hyes helse hno =>
    obtain ⟨test, ht, rfl, rfl⟩ := htest.yields
    obtain ⟨yes, hyes, rfl, hrest⟩ := hyes
    obtain ⟨no, hno, rfl, rfl⟩ := hno
    simp only [statement, hl]
    refine yields_bind.mpr ⟨test, ht, yields_bind.mpr ⟨_, descend_eq_ok.mpr hinner, ?_⟩⟩
    refine yields_bind.mpr ⟨yes, hyes, ?_⟩
    split
    · next hnil => cases hrest.symm.trans hnil
    · next hcons =>
      cases hrest.symm.trans hcons
      rw [if_pos helse]
      exact yields_bind.mpr ⟨no, hno, yields_ok.mpr ⟨rfl, rfl⟩⟩
  | loop hl htest hinner hbody =>
    obtain ⟨test, ht, rfl, rfl⟩ := htest.yields
    obtain ⟨body, hbody, rfl, rfl⟩ := hbody
    simp only [statement, hl]
    refine yields_bind.mpr ⟨test, ht, yields_bind.mpr ⟨_, descend_eq_ok.mpr hinner, ?_⟩⟩
    exact yields_bind.mpr ⟨body, hbody, yields_ok.mpr ⟨rfl, rfl⟩⟩
  | returnNothing hl hin hnothing =>
    simp only [statement, hl, hin, hnothing]
    exact yields_ok.mpr ⟨rfl, rfl⟩
  | returnValue hl hin hnothing he =>
    obtain ⟨e, hx, rfl, rfl⟩ := he.yields
    simp only [statement, hl, hin, hnothing]
    exact yields_bind.mpr ⟨e, hx, yields_ok.mpr ⟨rfl, rfl⟩⟩
  | break_ hl hin =>
    simp only [statement, hl, hin]
    exact yields_ok.mpr ⟨rfl, rfl⟩
  | continue_ hl hin =>
    simp only [statement, hl, hin]
    exact yields_ok.mpr ⟨rfl, rfl⟩
  | expression hl he =>
    obtain ⟨e, hx, rfl, rfl⟩ := he.yields
    rw [statement]
    -- A token that opens no other statement gets as far as the last case.
    split
    case h_8 => exact yields_bind.mpr ⟨e, hx, yields_ok.mpr ⟨rfl, rfl⟩⟩
    all_goals
      next htoken =>
        rw [htoken] at hl
        cases hl

/-- No parameter repeats another one, or one of those seen before. -/
theorem repeated?_eq_none {seen : List String} {parameters : List (String × Position)} :
    repeated? seen parameters = none ↔
      (parameters.map (·.1)).Nodup ∧ ∀ x ∈ parameters.map (·.1), x ∉ seen := by
  induction parameters generalizing seen with
  | nil => simp [repeated?]
  | cons p ps ih =>
    rw [repeated?, List.map_cons, List.nodup_cons, List.forall_mem_cons]
    split
    · next hp =>
      constructor
      · intro h
        cases h
      · rintro ⟨-, hp', -⟩
        exact absurd hp hp'
    · next hp =>
      rw [ih]
      constructor
      · rintro ⟨hnodup, hseen⟩
        exact ⟨⟨fun hmem => hseen _ hmem List.mem_cons_self, hnodup⟩, hp,
          fun x hx hmem => hseen x hx (List.mem_cons_of_mem _ hmem)⟩
      · rintro ⟨⟨hmem, hnodup⟩, -, hseen⟩
        refine ⟨hnodup, fun x hx hx' => ?_⟩
        rcases List.mem_cons.mp hx' with rfl | hx'
        · exact hmem hx
        · exact hseen x hx hx'

/-- How a declaration or a statement is read. -/
inductive DeclarationRead (inner : Option Rules) (around : Surroundings) :
    List Lexeme → Stmt → List Lexeme → Prop
  | declare {l name : Lexeme} {x : String} {rest : List Lexeme} : l.token = .keyword .let_ →
      name.token = .identifier x → next? rest ≠ some (.symbol .equals) →
      DeclarationRead inner around (l :: name :: rest) (.declare x none l.position) rest
  | initialise {l name equals : Lexeme} {x : String} {ts rest : List Lexeme} {e : Expr} :
      l.token = .keyword .let_ → name.token = .identifier x → equals.token = .symbol .equals →
      ExpressionRead inner ts e rest →
      DeclarationRead inner around (l :: name :: equals :: ts) (.declare x (some e) l.position) rest
  | function {l name opening brace : Lexeme} {x : String} {ts after rest : List Lexeme}
      {parameters : List (String × Position)} {rules : Rules} {body : List Stmt} :
      l.token = .keyword .fun_ → name.token = .identifier x →
      opening.token = .symbol .leftParen →
      ListRead (nameOf .parameterName) ts parameters (brace :: after) →
      parameters.length ≤ maxItems → repeated? [] parameters = none →
      brace.token = .symbol .leftBrace → inner = some rules →
      BlockRead (rules.declaration .functionBody) after body rest →
      DeclarationRead inner around (l :: name :: opening :: ts)
        (.function x (parameters.map (·.1)) body l.position) rest
  | statement {l : Lexeme} {ts rest : List Lexeme} {s : Stmt} : l.token ≠ .keyword .let_ →
      l.token ≠ .keyword .fun_ → StatementRead inner around (l :: ts) s rest →
      DeclarationRead inner around (l :: ts) s rest

theorem declarationRead_of_yields_variable {inner : Option Rules} {around : Surroundings}
    {l : Lexeme} (hl : l.token = .keyword .let_) {ts rest : List Lexeme} {s : Stmt}
    (h : Yields (variableDeclaration inner l.position ts) s rest) :
    DeclarationRead inner around (l :: ts) s rest := by
  rw [variableDeclaration] at h
  obtain ⟨⟨⟨x, p⟩, after, _⟩, hname, h⟩ := yields_bind.mp h
  have hread : Yields (nameOf .variableName ts) (x, p) after := ⟨_, hname, rfl, rfl⟩
  obtain ⟨n, rfl, hn, -⟩ := (yields_nameOf _).mp hread
  dsimp only at h
  split at h
  · obtain ⟨rfl, rfl⟩ := yields_ok.mp h
    exact .declare hl hn (by simp)
  · split at h
    · next hequals =>
      obtain ⟨e, he, h⟩ := yields_bind.mp h
      obtain ⟨rfl, rfl⟩ := yields_ok.mp h
      exact .initialise hl hn hequals (expressionRead_of_yields ⟨e, he, rfl, rfl⟩)
    · next hequals =>
      obtain ⟨rfl, rfl⟩ := yields_ok.mp h
      exact .declare hl hn (by simpa using hequals)

theorem declarationRead_of_yields_function {inner : Option Rules} {around : Surroundings}
    {l : Lexeme} (hl : l.token = .keyword .fun_) {ts rest : List Lexeme} {s : Stmt}
    (h : Yields (functionDeclaration inner l.position ts) s rest) :
    DeclarationRead inner around (l :: ts) s rest := by
  rw [functionDeclaration] at h
  obtain ⟨⟨⟨x, p⟩, afterName, _⟩, hname, h⟩ := yields_bind.mp h
  obtain ⟨⟨opening, afterOpening, _⟩, hopening, h⟩ := yields_bind.mp h
  obtain ⟨parameters, hparameters, h⟩ := yields_bind.mp h
  obtain ⟨hread, hlen⟩ := (yields_commaSeparated _).mp ⟨parameters, hparameters, rfl, rfl⟩
  split at h
  · exact absurd h not_yields_error
  · next hdistinct =>
    obtain ⟨brace, hbrace, h⟩ := yields_bind.mp h
    obtain ⟨rules, hrules, h⟩ := yields_bind.mp h
    obtain ⟨body, hbody, h⟩ := yields_bind.mp h
    obtain ⟨rfl, rfl⟩ := yields_ok.mp h
    obtain ⟨hafter, hbrace'⟩ := (yields_expect _).mp ⟨brace, hbrace, rfl, rfl⟩
    have hopened : Yields (expect .leftParen .parameterList afterName) opening afterOpening :=
      ⟨_, hopening, rfl, rfl⟩
    obtain ⟨rfl, hopening'⟩ := (yields_expect _).mp hopened
    have hnamed : Yields (nameOf .functionName ts) (x, p) (opening :: afterOpening) :=
      ⟨_, hname, rfl, rfl⟩
    obtain ⟨n, rfl, hn, -⟩ := (yields_nameOf _).mp hnamed
    -- The brace is what the list of parameters has left.
    rw [hafter] at hread
    exact .function hl hn hopening' hread hlen hdistinct hbrace' (descend_eq_ok.mp hrules)
      ((yields_block _).mp ⟨body, hbody, rfl, rfl⟩)

theorem declarationRead_of_yields {inner : Option Rules} {around : Surroundings}
    {ts rest : List Lexeme} {s : Stmt} (h : Yields (declaration inner around ts) s rest) :
    DeclarationRead inner around ts s rest := by
  cases ts with
  | nil => exact absurd h not_yields_error
  | cons l ts =>
    rw [declaration] at h
    split at h
    · next hl =>
      obtain ⟨s, hs, h⟩ := yields_bind.mp h
      obtain ⟨rfl, rfl⟩ := yields_ok.mp h
      exact declarationRead_of_yields_variable hl ⟨s, hs, rfl, rfl⟩
    · next hl =>
      obtain ⟨s, hs, h⟩ := yields_bind.mp h
      obtain ⟨rfl, rfl⟩ := yields_ok.mp h
      exact declarationRead_of_yields_function hl ⟨s, hs, rfl, rfl⟩
    · next hlet hfun => exact .statement hlet hfun (statementRead_of_yields h)

theorem yields_variableDeclaration {inner : Option Rules} {name : Lexeme} {x : String}
    {rest : List Lexeme} (p : Position) (hn : name.token = .identifier x)
    (hnext : next? rest ≠ some (.symbol .equals)) :
    Yields (variableDeclaration inner p (name :: rest)) (.declare x none p) rest := by
  obtain ⟨n, hname, hx, hrest⟩ := yields_nameOf_cons .variableName hn rest
  have hx' : n.value.1 = x := congrArg Prod.fst hx
  rw [variableDeclaration]
  refine yields_bind.mpr ⟨n, hname, ?_⟩
  dsimp only
  split
  · next hnil => exact yields_ok.mpr ⟨by rw [hx'], hnil.symm.trans hrest⟩
  · next hcons =>
    rw [← hrest, hcons] at hnext
    rw [if_neg (by simpa using hnext)]
    exact yields_ok.mpr ⟨by rw [hx'], hcons.symm.trans hrest⟩

theorem yields_variableDeclaration_equals {inner : Option Rules} {name equals : Lexeme}
    {x : String} {ts rest : List Lexeme} {e : Expr} (p : Position)
    (hn : name.token = .identifier x) (hequals : equals.token = .symbol .equals)
    (he : ExpressionRead inner ts e rest) :
    Yields (variableDeclaration inner p (name :: equals :: ts)) (.declare x (some e) p) rest := by
  obtain ⟨n, hname, hx, hrest⟩ := yields_nameOf_cons .variableName hn (equals :: ts)
  have hx' : n.value.1 = x := congrArg Prod.fst hx
  obtain ⟨v, hv, rfl, rfl⟩ := he.yields
  rw [variableDeclaration]
  refine yields_bind.mpr ⟨n, hname, ?_⟩
  dsimp only
  split
  · next hnil => cases hrest.symm.trans hnil
  · next hcons =>
    cases hrest.symm.trans hcons
    rw [if_pos hequals]
    exact yields_bind.mpr ⟨v, hv, yields_ok.mpr ⟨by rw [hx'], rfl⟩⟩

theorem DeclarationRead.yields {inner : Option Rules} {around : Surroundings}
    {ts rest : List Lexeme} {s : Stmt} (h : DeclarationRead inner around ts s rest) :
    Yields (declaration inner around ts) s rest := by
  cases h with
  | declare hl hn hnext =>
    obtain ⟨s, hs, hv, hr⟩ := yields_variableDeclaration _ hn hnext
    simp only [declaration, hl]
    exact yields_bind.mpr ⟨s, hs, yields_ok.mpr ⟨hv, hr⟩⟩
  | initialise hl hn hequals he =>
    obtain ⟨s, hs, hv, hr⟩ := yields_variableDeclaration_equals _ hn hequals he
    simp only [declaration, hl]
    exact yields_bind.mpr ⟨s, hs, yields_ok.mpr ⟨hv, hr⟩⟩
  | @function l name opening brace x ts after rest parameters rules body hl hn hopening hread hlen
      hdistinct hbrace hinner hbody =>
    obtain ⟨n, hname, hx, hafterName⟩ := yields_nameOf_cons .functionName hn (opening :: ts)
    obtain ⟨o, hopen, -, hopened⟩ := (yields_expect .parameterList).mpr ⟨hafterName, hopening⟩
    rw [← hopened] at hread
    obtain ⟨ps, hps, rfl, hafter⟩ := (yields_commaSeparated .parameters).mpr ⟨hread, hlen⟩
    obtain ⟨b, hb, rfl, rfl⟩ := (yields_expect .functionBody).mpr ⟨hafter, hbrace⟩
    obtain ⟨body, hb', rfl, rfl⟩ := (yields_block b.value.position).mpr hbody
    have hx' : n.value.1 = x := congrArg Prod.fst hx
    have hs : Yields (functionDeclaration inner l.position (name :: opening :: ts))
        (.function x (ps.value.map (·.1)) body.value l.position) body.rest := by
      rw [functionDeclaration]
      refine yields_bind.mpr ⟨n, hname, yields_bind.mpr ⟨o, hopen, yields_bind.mpr ⟨ps, hps, ?_⟩⟩⟩
      simp only [hdistinct]
      refine yields_bind.mpr ⟨b, hb, yields_bind.mpr ⟨_, descend_eq_ok.mpr hinner, ?_⟩⟩
      exact yields_bind.mpr ⟨body, hb', yields_ok.mpr ⟨by rw [hx'], rfl⟩⟩
    obtain ⟨s, hs, hv, hr⟩ := hs
    simp only [declaration, hl]
    exact yields_bind.mpr ⟨s, hs, yields_ok.mpr ⟨hv, hr⟩⟩
  | statement hlet hfun hs =>
    rw [declaration]
    split
    · next hl => exact absurd hl hlet
    · next hl => exact absurd hl hfun
    · exact hs.yields

end Grammar

end Scripting
