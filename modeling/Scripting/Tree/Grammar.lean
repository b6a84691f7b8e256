/-
Reading lexemes as statements.

    program     = (";" | declaration)*
    declaration = "let" name ("=" expression)?
                | "fun" name "(" names? ")" block
                | statement
    statement   = "print" expression | block | "if" expression statement ("else" statement)?
                | "while" expression statement | "return" expression? | "break" | "continue"
                | expression
    block       = "{" (";" | declaration)* "}"
    expression  = name "=" expression | binary
    binary      = unary (operator unary)*          by precedence, to the left
    unary       = ("-" | "!") unary | primary ("(" expressions? ")")*
    primary     = literal | name | "(" expression ")"

A semicolon may stand between any two statements of a list and is never needed. The value of
a `return` begins on the line of its keyword.

Nesting is limited. Every construct that puts a part one level further in asks for
room, and without any left the reading fails there. So the rules at one level
are built from the rules one level further in, if there are any: `Rules.around` builds
one level, and `Rules.withRoom` as many as there is room for. An operator counts as a level for
the rest of its chain, and so does a call.

Each rule returns what is left of the lexemes, and that this is shorter: this is why the loops
over the statements of a list end. A rule that fails leaves lexemes, too: it stops where the fault
shows, with some of them read and perhaps the next one looked at. The rules are written for any type
of reports, and say with each fault what is left; a report of type `ParseError` drops that, and a
`Refusal` keeps it.
-/
import Scripting.Error
import Scripting.Tree

set_option autoImplicit false

namespace Scripting.Grammar

/-- `MAX_NESTING`: how many levels constructs may be nested. -/
def maxNesting : Nat := 1000

/-- `MAX_ARGUMENTS`: how many parameters a function and how many arguments a call may have. -/
def maxItems : Nat := 255

/-! ## Rules -/

/-- What can be made of a fault, with the lexemes that are left where it shows. -/
class Report (ε : Type) where
  of : ParseError → List Lexeme → ε

/-- A fault alone. -/
instance : Report ParseError := ⟨fun error _ => error⟩

@[simp] theorem report_parseError (error : ParseError) (left : List Lexeme) :
    (Report.of error left : ParseError) = error := rfl

/-- A fault, and the lexemes that are left. -/
structure Refusal where
  error : ParseError
  rest : List Lexeme

instance : Report Refusal := ⟨Refusal.mk⟩

/-- What a rule has read, and fewer than `bound` lexemes that are left. -/
structure Parsed (α : Type) (bound : Nat) where
  value : α
  rest : List Lexeme
  rest_lt : rest.length < bound

/-- A rule that reads at least one lexeme. -/
abbrev Rule (α : Type) (ε : Type := ParseError) : Type :=
  (ts : List Lexeme) → Except ε (Parsed α ts.length)

/-- A rule that may leave everything. -/
abbrev Tail (α : Type) (ε : Type := ParseError) : Type :=
  (ts : List Lexeme) → Except ε (Parsed α (ts.length + 1))

/-- What surrounds a statement, as far as it decides what may stand there: the two flags of
`Nesting`, `in_function` and `in_loop`. Its third part, `depth`, is the room that the rules have. -/
structure Surroundings where
  inFunction : Bool
  inLoop : Bool
deriving DecidableEq, Repr

namespace Surroundings

/-- Around the statements of a program. -/
def outermost : Surroundings := ⟨false, false⟩

/-- `function_body`: a loop outside of the function does not reach into it. -/
def functionBody : Surroundings := ⟨true, false⟩

/-- `loop_body`: a function around the loop stays around its body. -/
def loopBody (s : Surroundings) : Surroundings := { s with inLoop := true }

end Surroundings

/-- The rules at one level of nesting. `operators` and `calls` go on after an expression that has
been read. -/
structure Rules (ε : Type := ParseError) where
  expression : Rule Expr ε
  precedence : Precedence → Rule Expr ε
  operators : Precedence → Expr → Tail Expr ε
  unary : Rule Expr ε
  calls : Expr → Tail Expr ε
  statement : Surroundings → Rule Stmt ε
  declaration : Surroundings → Rule Stmt ε

section Reported

variable {ε : Type} [Report ε]

/-! ## Single lexemes -/

/-- `end_of_input`: the lexemes ended where one was needed, without a lexeme that marks the end. -/
def ranOut : ParseError := ⟨.unexpectedEndOfInput, .start⟩

/-- `unexpected`: the fault of a lexeme that no rule can begin with. -/
def unexpected (l : Lexeme) : ParseError :=
  match l.token with
  | .endOfInput => ⟨.unexpectedEndOfInput, l.position⟩
  | _ => ⟨.unexpectedToken l.text, l.position⟩

/-- `expect`: read a given symbol. -/
def expect (mark : Symbol) (what : Expectation) : Rule Lexeme ε
  | [] => .error (Report.of ranOut [])
  | l :: ts =>
    if l.token = .symbol mark then .ok ⟨l, ts, by simp⟩
    else .error (Report.of ⟨.expectedToken what l.token, l.position⟩ (l :: ts))

/-- `parse_identifier`: read a name. -/
def nameOf (what : Expectation) : Rule (String × Position) ε
  | [] => .error (Report.of ranOut [])
  | l :: ts =>
    match l.token with
    | .identifier name => .ok ⟨(name, l.position), ts, by simp⟩
    | token => .error (Report.of ⟨.expectedToken what token, l.position⟩ (l :: ts))

/-! ## Lists in parentheses -/

/-- Where the next lexeme stands. -/
def nextPosition : List Lexeme → Position
  | [] => .start
  | l :: _ => l.position

/-- The loop of `parse_comma_separated`: at least one and at most `room` items, up to the closing
parenthesis. -/
def itemsFrom {α : Type} (what : Listing) (item : Rule α ε) : (room : Nat) → Rule (List α) ε
  | 0, ts => .error (Report.of ⟨.tooManyItems what maxItems, nextPosition ts⟩ ts)
  | room + 1, ts => do
    let x ← item ts
    match h : x.rest with
    | [] => .error (Report.of ranOut [])
    | l :: after =>
      have hx := x.rest_lt
      if l.token = .symbol .comma then
        let more ← itemsFrom what item room after
        .ok ⟨x.value :: more.value, more.rest, by
          have := more.rest_lt; simp only [h, List.length_cons] at hx; omega⟩
      else if l.token = .symbol .rightParen then
        .ok ⟨[x.value], after, by simp only [h, List.length_cons] at hx; omega⟩
      else .error (Report.of ⟨.expectedToken .commaOrParen l.token, l.position⟩ (l :: after))

/-- `parse_comma_separated`: the items of a list whose opening parenthesis has been read. -/
def commaSeparated {α : Type} (what : Listing) (item : Rule α ε) : Rule (List α) ε
  | [] => itemsFrom what item maxItems []
  | l :: ts =>
    if l.token = .symbol .rightParen then .ok ⟨[], ts, by simp⟩
    else itemsFrom what item maxItems (l :: ts)

/-! ## Lists of statements -/

/-- Whether a lexeme is a semicolon; `skip_semicolons` passes those that come first. -/
def isSemicolon (l : Lexeme) : Bool := l.token = .symbol .semicolon

theorem length_dropWhile_le {α : Type} (p : α → Bool) (xs : List α) :
    (xs.dropWhile p).length ≤ xs.length :=
  (List.dropWhile_suffix p).length_le

/-- The loop of `parse_block`: the statements up to the brace that closes the block opened at
`opening`, after those already `read`, of which the last comes first. -/
def blockFrom (declaration : Rule Stmt ε) (opening : Position) (bound : Nat) (read : List Stmt)
    (ts : List Lexeme) (fits : ts.length ≤ bound) : Except ε (Parsed (List Stmt) bound) :=
  match h : ts.dropWhile isSemicolon with
  | [] => .error (Report.of ⟨.unterminatedBlock, opening⟩ [])
  | l :: after =>
    have shorter : after.length < ts.length := by
      have := length_dropWhile_le isSemicolon ts
      simp only [h, List.length_cons] at this
      omega
    if l.token = .symbol .rightBrace then .ok ⟨read.reverse, after, by omega⟩
    else if l.token = .endOfInput then
      .error (Report.of ⟨.unterminatedBlock, opening⟩ (l :: after))
    else
      match declaration (l :: after) with
      | .error e => .error e
      | .ok s =>
        have left : s.rest.length < ts.length := by
          have := s.rest_lt
          simp only [List.length_cons] at this
          omega
        blockFrom declaration opening bound (s.value :: read) s.rest (by omega)
termination_by ts.length

/-- `parse_block`: the statements of a block whose opening brace, at `opening`, has been read. -/
def Rules.block (rules : Rules ε) (surroundings : Surroundings) (opening : Position) :
    Rule (List Stmt) ε :=
  fun ts => blockFrom (rules.declaration surroundings) opening ts.length [] ts (Nat.le_refl _)

/-- The loop of `parse`: the statements of a program, after those already `read`, of which the last
comes first. Whatever follows the end is not looked at. -/
def programFrom (declaration : Rule Stmt ε) (read : List Stmt) (ts : List Lexeme) :
    Except ε (List Stmt) :=
  match h : ts.dropWhile isSemicolon with
  | [] => .ok read.reverse
  | l :: after =>
    if l.token = .endOfInput then .ok read.reverse
    else
      match declaration (l :: after) with
      | .error e => .error e
      | .ok s =>
        have left : s.rest.length < ts.length := by
          have hs := s.rest_lt
          have := length_dropWhile_le isSemicolon ts
          simp only [h] at this
          omega
        programFrom declaration (s.value :: read) s.rest
termination_by ts.length

/-! ## One level of rules

`inner` are the rules one level further in, or `none` if there is no room for them. -/

/-- `descend`: go one level further in, for the construct at `position`, when `left` is left. -/
def descend (inner : Option (Rules ε)) (position : Position) (left : List Lexeme) :
    Except ε (Rules ε) :=
  match inner with
  | some rules => .ok rules
  | none => .error (Report.of ⟨.tooDeeplyNested maxNesting, position⟩ left)

/-- `parse_primary` and `parse_grouping`: literals, names and groups. -/
def primary (inner : Option (Rules ε)) : Rule Expr ε
  | [] => .error (Report.of ranOut [])
  | l :: ts =>
    match l.token with
    | .number x => .ok ⟨.literal (.number x) l.position, ts, by simp⟩
    | .string s => .ok ⟨.literal (.string s) l.position, ts, by simp⟩
    | .keyword .true_ => .ok ⟨.literal (.bool true) l.position, ts, by simp⟩
    | .keyword .false_ => .ok ⟨.literal (.bool false) l.position, ts, by simp⟩
    | .keyword .nil_ => .ok ⟨.literal .nil l.position, ts, by simp⟩
    | .identifier name => .ok ⟨.var name l.position, ts, by simp⟩
    | .symbol .leftParen => do
      let rules ← descend inner l.position ts
      let e ← rules.expression ts
      let close ← expect .rightParen .closingParen e.rest
      .ok ⟨.group e.value l.position, close.rest, by
        have := e.rest_lt; have := close.rest_lt; simp only [List.length_cons]; omega⟩
    | _ => .error (Report.of (unexpected l) (l :: ts))

/-- `parse_call`: the calls that follow a callee. -/
def calls (inner : Option (Rules ε)) (callee : Expr) : Tail Expr ε
  | [] => .ok ⟨callee, [], by simp⟩
  | l :: ts =>
    if l.token = .symbol .leftParen then do
      let rules ← descend inner l.position ts
      let arguments ← commaSeparated .arguments rules.expression ts
      -- The next call of a row is one level further in, though nothing encloses it.
      let more ← rules.calls (.call callee arguments.value l.position) arguments.rest
      .ok ⟨more.value, more.rest, by
        have := arguments.rest_lt; have := more.rest_lt; simp only [List.length_cons]; omega⟩
    else .ok ⟨callee, l :: ts, by simp⟩

/-- `parse_unary`: unary operators, and what they apply to. -/
def unary (inner : Option (Rules ε)) : Rule Expr ε
  | [] => .error (Report.of ranOut [])
  | l :: ts =>
    match UnaryOperator.ofToken? l.token with
    | some op => do
      let rules ← descend inner l.position ts
      let operand ← rules.unary ts
      .ok ⟨.unary op operand.value l.position, operand.rest, by
        have := operand.rest_lt; simp only [List.length_cons]; omega⟩
    | none => do
      let callee ← primary inner (l :: ts)
      let more ← calls inner callee.value callee.rest
      .ok ⟨more.value, more.rest, by
        have := callee.rest_lt; have := more.rest_lt; omega⟩

/-- The loop of `parse_precedence`: the operators of level `least` and tighter that follow an
operand, with their right operands. -/
def operators (inner : Option (Rules ε)) (least : Precedence) (left : Expr) : Tail Expr ε
  | [] => .ok ⟨left, [], by simp⟩
  | l :: ts =>
    match BinaryOperator.ofToken? l.token with
    | none => .ok ⟨left, l :: ts, by simp⟩
    | some op =>
      if least ≤ op.precedence then do
        let rules ← descend inner l.position ts
        -- The next level up on the right makes operators of one level group to the left.
        let right ← rules.precedence op.precedence.next ts
        let more ← rules.operators least (.binary op left right.value l.position) right.rest
        .ok ⟨more.value, more.rest, by
          have := right.rest_lt; have := more.rest_lt; simp only [List.length_cons]; omega⟩
      else .ok ⟨left, l :: ts, by simp⟩

/-- `parse_precedence`: an expression whose outermost operators are of level `least` or tighter. -/
def precedence (inner : Option (Rules ε)) (least : Precedence) : Rule Expr ε := fun ts => do
  let left ← unary inner ts
  let more ← operators inner least left.value left.rest
  .ok ⟨more.value, more.rest, by have := left.rest_lt; have := more.rest_lt; omega⟩

/-- `parse_expression` and `parse_assignment`. Whether the left side of an assignment can be
assigned to is looked at after its right side has been read. -/
def expression (inner : Option (Rules ε)) : Rule Expr ε := fun ts => do
  let target ← precedence inner .or ts
  match h : target.rest with
  | [] => .ok ⟨target.value, [], by rw [← h]; exact target.rest_lt⟩
  | l :: after =>
    have ht := target.rest_lt
    if l.token = .symbol .equals then do
      let rules ← descend inner l.position after
      let value ← rules.expression after
      match target.value with
      | .var name _ =>
        .ok ⟨.assign name value.value l.position, value.rest, by
          have := value.rest_lt; simp only [h, List.length_cons] at ht; omega⟩
      | other => .error (Report.of ⟨.invalidAssignmentTarget, other.position⟩ value.rest)
    else .ok ⟨target.value, l :: after, by rw [← h]; exact ht⟩

/-- Whether a `return` at `position` has no value: the next lexeme ends the statement, as
`at_statement_end` says, or stands on another line. -/
def returnsNothing (position : Position) : List Lexeme → Bool
  | [] => true
  | l :: _ =>
    l.position.line ≠ position.line || l.token = .symbol .semicolon ||
      l.token = .symbol .rightBrace || l.token = .endOfInput

/-- `parse_statement`, with `parse_conditional` and `parse_loop`: statements other than
declarations. -/
def statement (inner : Option (Rules ε)) (surroundings : Surroundings) : Rule Stmt ε
  | [] => .error (Report.of ranOut [])
  | l :: ts =>
    match l.token with
    | .keyword .print_ => do
      let e ← expression inner ts
      .ok ⟨.print e.value l.position, e.rest, by
        have := e.rest_lt; simp only [List.length_cons]; omega⟩
    | .symbol .leftBrace => do
      let rules ← descend inner l.position ts
      let body ← rules.block surroundings l.position ts
      .ok ⟨.block body.value l.position, body.rest, by
        have := body.rest_lt; simp only [List.length_cons]; omega⟩
    | .keyword .if_ => do
      let test ← expression inner ts
      -- Room is asked for only after the test: a fault in the test comes first.
      let rules ← descend inner l.position test.rest
      let yes ← rules.statement surroundings test.rest
      have shorter : yes.rest.length < ts.length := by
        have := test.rest_lt; have := yes.rest_lt; omega
      match h : yes.rest with
      | [] => .ok ⟨.cond test.value yes.value none l.position, [], by simp⟩
      | e :: after =>
        if e.token = .keyword .else_ then do
          let no ← rules.statement surroundings after
          .ok ⟨.cond test.value yes.value (some no.value) l.position, no.rest, by
            have := no.rest_lt; simp only [h, List.length_cons] at shorter ⊢; omega⟩
        else
          .ok ⟨.cond test.value yes.value none l.position, e :: after, by
            rw [← h]; simp only [List.length_cons]; omega⟩
    | .keyword .while_ => do
      let test ← expression inner ts
      let rules ← descend inner l.position test.rest
      let body ← rules.statement surroundings.loopBody test.rest
      .ok ⟨.loop test.value body.value l.position, body.rest, by
        have := test.rest_lt; have := body.rest_lt; simp only [List.length_cons]; omega⟩
    | .keyword .return_ =>
      if !surroundings.inFunction then
        .error (Report.of ⟨.returnOutsideFunction, l.position⟩ (l :: ts))
      else if returnsNothing l.position ts then .ok ⟨.return_ none l.position, ts, by simp⟩
      else do
        let e ← expression inner ts
        .ok ⟨.return_ (some e.value) l.position, e.rest, by
          have := e.rest_lt; simp only [List.length_cons]; omega⟩
    | .keyword .break_ =>
      if surroundings.inLoop then .ok ⟨.break_ l.position, ts, by simp⟩
      else .error (Report.of ⟨.loopControlOutsideLoop .break_, l.position⟩ (l :: ts))
    | .keyword .continue_ =>
      if surroundings.inLoop then .ok ⟨.continue_ l.position, ts, by simp⟩
      else .error (Report.of ⟨.loopControlOutsideLoop .continue_, l.position⟩ (l :: ts))
    | _ => do
      let e ← expression inner (l :: ts)
      .ok ⟨.expression e.value l.position, e.rest, e.rest_lt⟩

/-- The first parameter whose name an earlier one has. -/
def repeated? (seen : List String) : List (String × Position) → Option (String × Position)
  | [] => none
  | p :: ps => if p.1 ∈ seen then some p else repeated? (p.1 :: seen) ps

/-- `parse_function_declaration`, after the keyword at `start`. -/
def functionDeclaration (inner : Option (Rules ε)) (start : Position) : Rule Stmt ε := fun ts => do
  let name ← nameOf .functionName ts
  let opening ← expect .leftParen .parameterList name.rest
  let parameters ← commaSeparated .parameters (nameOf .parameterName) opening.rest
  match repeated? [] parameters.value with
  | some (parameter, position) =>
    .error (Report.of ⟨.duplicateParameter parameter, position⟩ parameters.rest)
  | none => do
    let brace ← expect .leftBrace .functionBody parameters.rest
    let rules ← descend inner brace.value.position brace.rest
    let body ← rules.block .functionBody brace.value.position brace.rest
    .ok ⟨.function name.value.1 (parameters.value.map (·.1)) body.value start, body.rest, by
      have := name.rest_lt; have := opening.rest_lt; have := parameters.rest_lt
      have := brace.rest_lt; have := body.rest_lt; omega⟩

/-- `parse_variable_declaration`, after the keyword at `start`. -/
def variableDeclaration (inner : Option (Rules ε)) (start : Position) : Rule Stmt ε := fun ts => do
  let name ← nameOf .variableName ts
  have hn := name.rest_lt
  match h : name.rest with
  | [] => .ok ⟨.declare name.value.1 none start, [], by rw [← h]; exact hn⟩
  | l :: after =>
    if l.token = .symbol .equals then do
      let e ← expression inner after
      .ok ⟨.declare name.value.1 (some e.value) start, e.rest, by
        have := e.rest_lt; simp only [h, List.length_cons] at hn; omega⟩
    else .ok ⟨.declare name.value.1 none start, l :: after, by rw [← h]; exact hn⟩

/-- `parse_declaration`: declarations and statements. -/
def declaration (inner : Option (Rules ε)) (surroundings : Surroundings) : Rule Stmt ε
  | [] => .error (Report.of ranOut [])
  | l :: ts =>
    match l.token with
    | .keyword .let_ => do
      let s ← variableDeclaration inner l.position ts
      .ok ⟨s.value, s.rest, by have := s.rest_lt; simp only [List.length_cons]; omega⟩
    | .keyword .fun_ => do
      let s ← functionDeclaration inner l.position ts
      .ok ⟨s.value, s.rest, by have := s.rest_lt; simp only [List.length_cons]; omega⟩
    | _ => statement inner surroundings (l :: ts)

/-! ## All levels -/

namespace Rules

/-- The rules around those one level further in. -/
def around (inner : Option (Rules ε)) : Rules ε where
  expression := Grammar.expression inner
  precedence := Grammar.precedence inner
  operators := Grammar.operators inner
  unary := Grammar.unary inner
  calls := Grammar.calls inner
  statement := Grammar.statement inner
  declaration := Grammar.declaration inner

/-- The rules where `room` more levels fit. -/
def withRoom (room : Nat) (ε : Type := ParseError) [Report ε] : Rules ε :=
  match room with
  | 0 => around none
  | room + 1 => around (some (withRoom room ε))

/-- The rules inside of `depth` levels: a `Nesting` of that `depth`. -/
def atDepth (depth : Nat) (ε : Type := ParseError) [Report ε] : Rules ε :=
  withRoom (maxNesting - depth) ε

/-- The rules outside of every construct. -/
def outermost : Rules := withRoom maxNesting

end Rules

end Reported

/-- `parse`: the statements of a program. -/
def parse (lexemes : List Lexeme) : Except ParseError (List Stmt) :=
  programFrom (Rules.outermost.declaration .outermost) [] lexemes

end Scripting.Grammar
