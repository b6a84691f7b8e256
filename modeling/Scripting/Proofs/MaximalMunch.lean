/-
Reading a text by longest matches.

Reading is a *walk* over the text from its front: each step takes the longest match, leaves it out
or makes a lexeme of it, and goes on behind it. A walk stops at the end of the text, before a
string that is not closed, or before a character at which no pattern matches, and where it stops
decides the outcome. `tokenize` is this walk.

If the text is cut off where a walk has got to, the walk up to there is the same, since a longest
match stays one when less follows it. So all the text before a fault is read without fault.
-/
import Scripting.Proofs.LineCounting
import Scripting.Proofs.LongestMatch

set_option autoImplicit false

namespace Scripting

/-! ## Counting on the way -/

/-- The lexemes of a text that begins at `position`, after those already `read`, of which the last
comes first. Nothing is looked up: the position is moved over each token. -/
def readFrom (position : Position) (read : List Lexeme) (text : List Char) :
    Except LexError (List Lexeme) :=
  match text with
  | [] => .ok (Lexeme.mk .endOfInput "" position :: read).reverse
  | c :: cs =>
    match munch (c :: cs) with
    | none => .error ⟨.invalidCharacter c, position⟩
    | some m =>
      if m.token = .unterminatedString then .error ⟨.unterminatedString, position⟩
      else
        readFrom (position.advanceAll m.taken)
          (if m.token.isSkipped then read else ⟨m.token, String.ofList m.taken, position⟩ :: read)
          m.rest
termination_by text.length
decreasing_by exact m.length_rest_lt

/-- **Looking positions up is counting on the way.** The text that has been passed is `front`, so
the index is asked about the place behind it. By induction on the length of what is left. -/
theorem tokenizeFrom_eq_readFrom (front text : List Char) (read : List Lexeme) :
    tokenizeFrom (.ofText (front ++ text)) (byteLength front) read text
      = readFrom (.behind front) read text := by
  induction hn : text.length using Nat.strongRecOn generalizing front text read with
  | ind n ih =>
    have hplace := LineIndex.position_byteLength front text
    cases text with
    | nil =>
      rw [tokenizeFrom, readFrom, List.append_nil, LineIndex.endPosition_ofText]
    | cons c cs =>
      rw [tokenizeFrom, readFrom, hplace]
      cases hm : munch (c :: cs) with
      | none => rfl
      | some m =>
        dsimp only
        have hlt : m.rest.length < n := hn ▸ m.length_rest_lt
        -- The token is behind the reader now, and front and rest are still the same text.
        have hnext := ih m.rest.length hlt (front ++ m.taken) m.rest
          (if m.token.isSkipped then read
            else ⟨m.token, String.ofList m.taken, .behind front⟩ :: read) rfl
        rw [List.append_assoc, m.taken_append_rest, byteLength_append,
          Position.behind_append] at hnext
        rw [hnext]

theorem tokenize_eq_readFrom (source : String) :
    tokenize source = readFrom .start [] source.toList :=
  tokenizeFrom_eq_readFrom [] source.toList []

/-! ## Walks -/

/-- From a position and the text there to a later position and what is left of the text, with the
lexemes read on the way. -/
inductive Walk : Position → List Char → List Lexeme → Position → List Char → Prop
  | stop (position : Position) (text : List Char) : Walk position text [] position text
  /-- White space and comments are left out. -/
  | skip {position position' : Position} {p : Pattern} {taken rest left : List Char}
      {lexemes : List Lexeme} : Longest (taken ++ rest) p taken → p.isSkipped = true →
      Walk (position.advanceAll taken) rest lexemes position' left →
      Walk position (taken ++ rest) lexemes position' left
  /-- Any other token has the match as its text. -/
  | emit {position position' : Position} {p : Pattern} {taken rest left : List Char}
      {lexemes : List Lexeme} : Longest (taken ++ rest) p taken → p.isSkipped = false →
      p ≠ .unterminatedString → Walk (position.advanceAll taken) rest lexemes position' left →
      Walk position (taken ++ rest) (⟨p.token taken, String.ofList taken, position⟩ :: lexemes)
        position' left

/-- The outcome of a walk that has read some lexemes and got to a position, by the text that is
left there. -/
inductive Outcome (lexemes : List Lexeme) (position : Position) :
    List Char → Except LexError (List Lexeme) → Prop
  | whole : Outcome lexemes position [] (.ok (lexemes ++ [⟨.endOfInput, "", position⟩]))
  | unterminated {left taken : List Char} : Longest left .unterminatedString taken →
      Outcome lexemes position left (.error ⟨.unterminatedString, position⟩)
  | invalid {c : Char} {left : List Char} : Unmatched (c :: left) →
      Outcome lexemes position (c :: left) (.error ⟨.invalidCharacter c, position⟩)

/-- The outcome of reading a text by longest matches. -/
def Reads (text : List Char) (r : Except LexError (List Lexeme)) : Prop :=
  ∃ lexemes position left, Walk .start text lexemes position left ∧ Outcome lexemes position left r

/-! ## The scanner walks -/

theorem readFrom_of_munch (position : Position) (read : List Lexeme) {text : List Char}
    {m : Munch text} (h : munch text = some m) :
    readFrom position read text
      = if m.token = .unterminatedString then .error ⟨.unterminatedString, position⟩
        else readFrom (position.advanceAll m.taken)
          (if m.token.isSkipped then read else ⟨m.token, String.ofList m.taken, position⟩ :: read)
          m.rest := by
  cases text with
  | nil => cases h
  | cons c cs => rw [readFrom, h]

theorem tokenizeFrom_of_munch (index : LineIndex) (offset : Nat) (read : List Lexeme)
    {text : List Char} {m : Munch text} (h : munch text = some m) :
    tokenizeFrom index offset read text
      = if m.token = .unterminatedString then .error ⟨.unterminatedString, index.position offset⟩
        else tokenizeFrom index (offset + byteLength m.taken)
          (if m.token.isSkipped then read
            else ⟨m.token, String.ofList m.taken, index.position offset⟩ :: read)
          m.rest := by
  cases text with
  | nil => cases h
  | cons c cs => rw [tokenizeFrom, h]

section

variable {position : Position} {read : List Lexeme} {taken rest : List Char} {p : Pattern}

/-- One step of the scanner. -/
theorem readFrom_of_longest (h : Longest (taken ++ rest) p taken)
    (hp : p ≠ .unterminatedString) :
    readFrom position read (taken ++ rest)
      = readFrom (position.advanceAll taken)
          (if p.isSkipped then read else ⟨p.token taken, String.ofList taken, position⟩ :: read)
          rest := by
  obtain ⟨m, hm, htaken, hrest, htoken⟩ := h.munch
  rw [readFrom_of_munch position read hm, htaken, hrest, htoken, Pattern.isSkipped_token,
    if_neg (Pattern.token_eq_unterminatedString.not.mpr hp)]

/-- The same step of the scanner that looks positions up. -/
theorem tokenizeFrom_of_longest {index : LineIndex} {offset : Nat}
    (h : Longest (taken ++ rest) p taken) (hp : p ≠ .unterminatedString) :
    tokenizeFrom index offset read (taken ++ rest)
      = tokenizeFrom index (offset + byteLength taken)
          (if p.isSkipped then read
            else ⟨p.token taken, String.ofList taken, index.position offset⟩ :: read)
          rest := by
  obtain ⟨m, hm, htaken, hrest, htoken⟩ := h.munch
  rw [tokenizeFrom_of_munch index offset read hm, htaken, hrest, htoken, Pattern.isSkipped_token,
    if_neg (Pattern.token_eq_unterminatedString.not.mpr hp)]

theorem readFrom_of_unterminated {left : List Char}
    (h : Longest left .unterminatedString taken) :
    readFrom position read left = .error ⟨.unterminatedString, position⟩ := by
  obtain ⟨rest, rfl⟩ := h.front
  obtain ⟨m, hm, -, -, htoken⟩ := h.munch
  rw [readFrom_of_munch position read hm, htoken]
  rfl

theorem readFrom_of_unmatched {c : Char} {left : List Char} (h : Unmatched (c :: left)) :
    readFrom position read (c :: left) = .error ⟨.invalidCharacter c, position⟩ := by
  cases hm : munch (c :: left) with
  | none => rw [readFrom, hm]
  | some m =>
    obtain ⟨p, hp, -⟩ := munch_isLongest hm
    exact absurd hp.front (h p m.taken hp.mem)

end

/-- **The outcome of a walk is that of the scanner.** By induction on the walk. -/
theorem Walk.readFrom_eq {position position' : Position} {text left : List Char}
    {before lexemes : List Lexeme} {r : Except LexError (List Lexeme)}
    (h : Walk position text lexemes position' left)
    (hr : Outcome (before ++ lexemes) position' left r) :
    readFrom position before.reverse text = r := by
  induction h generalizing before with
  | stop position text =>
    rw [List.append_nil] at hr
    cases hr with
    | whole => rw [readFrom, List.reverse_cons, List.reverse_reverse]
    | unterminated hlongest => exact readFrom_of_unterminated hlongest
    | invalid hunmatched => exact readFrom_of_unmatched hunmatched
  | @skip _ _ p _ _ _ _ hlongest hskip _ ih =>
    have hp : p ≠ .unterminatedString := by
      rintro rfl
      cases hskip
    rw [readFrom_of_longest hlongest hp, if_pos hskip]
    exact ih hr
  | emit hlongest hskip hp _ ih =>
    rw [readFrom_of_longest hlongest hp, hskip]
    rw [List.append_cons] at hr
    have hread := ih hr
    rw [List.reverse_concat] at hread
    exact hread

/-- Every walk can go on until it comes to an outcome. By induction on the length of the text. -/
theorem exists_walk (position : Position) (text : List Char) :
    ∃ lexemes position' left, Walk position text lexemes position' left ∧
      ∀ read, ∃ r, Outcome read position' left r := by
  induction hn : text.length using Nat.strongRecOn generalizing position text with
  | ind n ih =>
    cases hm : munch text with
    | none =>
      refine ⟨[], position, text, .stop position text, fun read => ?_⟩
      cases text with
      | nil => exact ⟨_, .whole⟩
      | cons c cs => exact ⟨_, .invalid (unmatched_of_munch hm)⟩
    | some m =>
      obtain ⟨p, hp, -⟩ := munch_isLongest hm
      by_cases hstring : p = .unterminatedString
      · subst hstring
        exact ⟨[], position, text, .stop position text, fun read => ⟨_, .unterminated hp⟩⟩
      · have hlt : m.rest.length < n := by
          rw [← hn]
          exact m.length_rest_lt
        obtain ⟨lexemes, position', left, hwalk, hout⟩ :=
          ih m.rest.length hlt (position.advanceAll m.taken) m.rest rfl
        have hlongest : Longest (m.taken ++ m.rest) p m.taken := by
          rw [m.taken_append_rest]
          exact hp
        cases hskip : p.isSkipped with
        | true =>
          have hall := Walk.skip hlongest hskip hwalk
          rw [m.taken_append_rest] at hall
          exact ⟨_, position', left, hall, hout⟩
        | false =>
          have hall := Walk.emit hlongest hskip hstring hwalk
          rw [m.taken_append_rest] at hall
          exact ⟨_, position', left, hall, hout⟩

/-- **The scanner reads by longest matches.** -/
theorem tokenize_eq_iff {source : String} {r : Except LexError (List Lexeme)} :
    tokenize source = r ↔ Reads source.toList r := by
  constructor
  · rintro rfl
    obtain ⟨lexemes, position, left, hwalk, hout⟩ := exists_walk .start source.toList
    obtain ⟨r, hr⟩ := hout ([] ++ lexemes)
    have hsame : readFrom .start [] source.toList = r := hwalk.readFrom_eq hr
    rw [tokenize_eq_readFrom, hsame]
    exact ⟨lexemes, position, left, hwalk, hr⟩
  · rintro ⟨lexemes, position, left, hwalk, hr⟩
    have hout : Outcome ([] ++ lexemes) position left r := hr
    rw [tokenize_eq_readFrom]
    exact hwalk.readFrom_eq hout

/-! ## Cutting a text off -/

/-- The text that a walk has passed is read by the same walk on its own. -/
theorem Walk.truncate {position position' : Position} {text left : List Char}
    {lexemes : List Lexeme} (h : Walk position text lexemes position' left) :
    ∃ before, text = before ++ left ∧ position' = position.advanceAll before ∧
      Walk position before lexemes position' [] := by
  induction h with
  | stop position text => exact ⟨[], rfl, rfl, .stop position []⟩
  | @skip _ _ _ taken _ left _ hlongest hskip _ ih =>
    obtain ⟨before, rfl, hposition, hwalk⟩ := ih
    refine ⟨taken ++ before, (List.append_assoc _ _ _).symm, ?_, ?_⟩
    · rw [Position.advanceAll_append, hposition]
    · exact .skip (hlongest.truncate (List.prefix_append _ _)) hskip hwalk
  | @emit _ _ _ taken _ left _ hlongest hskip hp _ ih =>
    obtain ⟨before, rfl, hposition, hwalk⟩ := ih
    refine ⟨taken ++ before, (List.append_assoc _ _ _).symm, ?_, ?_⟩
    · rw [Position.advanceAll_append, hposition]
    · exact .emit (hlongest.truncate (List.prefix_append _ _)) hskip hp hwalk

/-- **Reading is maximal munch.** The outcome of `tokenize` is that of the walk that takes the
longest match at each place, a reserved word rather than a name; leaves white space and comments
out; makes a lexeme of every other match, with the match as its text and the token that it
denotes; and stops at the end of the text, at the first place where the longest match is a string
that is not closed, or at the first where no pattern matches. Wherever the walk has got to, so
also at a fault, the text before that place is read without fault, as the lexemes so far and the
end. -/
theorem tokenize_maximal_munch (source : String) :
    (∀ r, tokenize source = r ↔ Reads source.toList r) ∧
      ∀ lexemes position left, Walk .start source.toList lexemes position left →
        ∃ before, source.toList = before ++ left ∧ position = Position.start.advanceAll before ∧
          tokenize (String.ofList before) = .ok (lexemes ++ [⟨.endOfInput, "", position⟩]) := by
  refine ⟨fun r => tokenize_eq_iff, fun lexemes position left h => ?_⟩
  obtain ⟨before, htext, hposition, hwalk⟩ := h.truncate
  refine ⟨before, htext, hposition, ?_⟩
  rw [tokenize_eq_iff, String.toList_ofList]
  exact ⟨lexemes, position, [], hwalk, .whole⟩

/-- A text is read up to the character at which no pattern matches. -/
theorem atSign_unread :
    ∃ before left lexemes, "1 + @ 2".toList = before ++ '@' :: left ∧ Unmatched ('@' :: left) ∧
      tokenize (String.ofList before) = .ok (lexemes ++ [⟨.endOfInput, "", ⟨1, 5⟩⟩]) := by
  obtain ⟨hreads, hbefore⟩ := tokenize_maximal_munch "1 + @ 2"
  have hfault : tokenize "1 + @ 2" = .error ⟨.invalidCharacter '@', ⟨1, 5⟩⟩ := by decide +kernel
  obtain ⟨lexemes, position, left, hwalk, hout⟩ := (hreads _).mp hfault
  cases hout with
  | invalid hunmatched =>
    obtain ⟨before, htext, -, htokens⟩ := hbefore lexemes _ _ hwalk
    exact ⟨before, _, lexemes, htext, hunmatched, htokens⟩

end Scripting
