/-
Where a submission goes on with the next line.

Lines are gathered as long as what they make up is unfinished. Whether it is depends on the newline
that would come next. If that is in white space, the text up to it is unfinished just if it opens
more brackets than it closes; if it is in a string, the text is unfinished. A block comment that is
cut off is none, so if the newline is in one, the front of the comment is read like any other text:
its brackets count, its quotes open strings, and a character that begins no token ends the
submission.

So a program that is given line by line is never cut off where a bracket or a string is open, as
long as no line ends in a block comment whose front would be taken for the end of a submission.
-/
import Scripting.Repl
import Scripting.Proofs.LineBreaks

set_option autoImplicit false

namespace Scripting.Repl

/-! ## Counting brackets -/

/-- What a token adds to the number of brackets that are open. -/
def bracket : Token → Int
  | .symbol .leftParen | .symbol .leftBrace => 1
  | .symbol .rightParen | .symbol .rightBrace => -1
  | _ => 0

theorem openBrackets_eq_foldl (ls : List Lexeme) :
    openBrackets ls = (ls.map (·.token)).foldl (fun n t => n + bracket t) 0 := by
  rw [List.foldl_map, openBrackets]
  congr
  funext n l
  unfold bracket
  split <;> simp [*, Int.sub_eq_add_neg]

theorem foldl_bracket (ts : List Token) (n : Int) :
    ts.foldl (fun n t => n + bracket t) n = n + ts.foldl (fun n t => n + bracket t) 0 := by
  induction ts generalizing n with
  | nil => exact (Int.add_zero n).symm
  | cons t ts ih =>
    rw [List.foldl_cons, List.foldl_cons, ih, ih (0 + bracket t), Int.zero_add, Int.add_assoc]

@[simp] theorem openBrackets_append (ls ls' : List Lexeme) :
    openBrackets (ls ++ ls') = openBrackets ls + openBrackets ls' := by
  rw [openBrackets_eq_foldl, List.map_append, List.foldl_append, foldl_bracket,
    ← openBrackets_eq_foldl, ← openBrackets_eq_foldl]

@[simp] theorem openBrackets_end (p : Position) : openBrackets [⟨.endOfInput, "", p⟩] = 0 := rfl

theorem openBrackets_congr {ls ls' : List Lexeme}
    (h : ls.map (·.token) = ls'.map (·.token)) : openBrackets ls = openBrackets ls' := by
  rw [openBrackets_eq_foldl, openBrackets_eq_foldl, h]

/-! ## Unfinished texts -/

/-- Whether a text is unfinished that comes after so many open brackets. -/
def needsMoreAfter (opened : Int) (source : String) : Bool :=
  match tokenize source with
  | .ok lexemes => 0 < opened + openBrackets lexemes
  | .error e => e.fault = .unterminatedString

theorem needsMoreAfter_zero (source : String) : needsMoreAfter 0 source = needsMore source := by
  unfold needsMoreAfter needsMore
  cases tokenize source with
  | ok lexemes => simp only [Int.zero_add]
  | error e => rfl

/-- With more brackets open there is more to come. -/
theorem needsMoreAfter_mono {n n' : Int} {source : String} (hle : n ≤ n')
    (h : needsMoreAfter n source = true) : needsMoreAfter n' source = true := by
  unfold needsMoreAfter at h ⊢
  cases htokens : tokenize source with
  | ok lexemes =>
    simp only [htokens, decide_eq_true_eq] at h ⊢
    omega
  | error e =>
    rw [htokens] at h
    exact h

theorem tokenize_of_walk {text left : List Char} {ls : List Lexeme} {p : Position}
    {r : Except LexError (List Lexeme)} (h : Walk .start text ls p left)
    (hr : Outcome ls p left r) :
    tokenize (String.ofList text) = r := by
  rw [tokenize_eq_iff, String.toList_ofList]
  exact ⟨ls, p, left, h, hr⟩

/-- What a walk has passed is known by its brackets. -/
theorem needsMoreAfter_walk {text left : List Char} {ls : List Lexeme} {p q : Position}
    (h : Walk p text ls q left) (n : Int) :
    needsMoreAfter n (String.ofList text)
      = needsMoreAfter (n + openBrackets ls) (String.ofList left) := by
  obtain ⟨ms, p', left', hms, hout⟩ := exists_walk .start left
  obtain ⟨ls', q', hls', htokens⟩ := h.elsewhere .start
  obtain ⟨ms', p'', hms', htokens'⟩ := hms.elsewhere q'
  have hwalk := hls'.trans hms'
  obtain ⟨r, hr⟩ := hout ms
  unfold needsMoreAfter
  cases hr with
  | whole =>
    rw [tokenize_of_walk hms .whole, tokenize_of_walk hwalk .whole]
    simp only [openBrackets_append, openBrackets_congr htokens, openBrackets_congr htokens',
      openBrackets_end, Int.add_assoc]
  | unterminated hopen =>
    rw [tokenize_of_walk hms (.unterminated hopen), tokenize_of_walk hwalk (.unterminated hopen)]
  | invalid hunmatched =>
    rw [tokenize_of_walk hms (.invalid hunmatched), tokenize_of_walk hwalk (.invalid hunmatched)]

section

variable {start : Position} {text before inner : List Char} {ls : List Lexeme} {r : Pattern}

/-- At a newline, only the front of the match that it is in is read anew. -/
theorem needsMore_of_breaks (h : Breaks start text before ls inner r) :
    needsMore (String.ofList before) = needsMoreAfter (openBrackets ls) (String.ofList inner) := by
  obtain ⟨p, hwalk⟩ := h.exists_walk
  rw [← needsMoreAfter_zero, needsMoreAfter_walk hwalk, Int.zero_add]

/-- At a newline in white space, brackets decide. -/
theorem needsMore_of_breaks_blank (h : Breaks start text before ls inner .blank) :
    needsMore (String.ofList before) = decide (0 < openBrackets ls) := by
  rw [needsMore_of_breaks h, needsMoreAfter]
  obtain ⟨_, _, outer, _, -, -, -, hlongest, -⟩ := h
  have hspaces : ∀ c ∈ inner, isSpace c = true := fun c hc =>
    (Pattern.mem_blank_iff.mp hlongest.mem).2 c (List.mem_append_left _ hc)
  have htokens : tokenize (String.ofList inner)
      = .ok [⟨.endOfInput, "", Position.start.advanceAll inner⟩] := by
    rw [tokenize_eq_readFrom, String.toList_ofList, ← List.append_nil inner,
      readFrom_spaces .start [] hspaces, readFrom, List.append_nil]
    rfl
  simp [htokens]

/-- At a newline in a string, the string is open. -/
theorem needsMore_of_breaks_string (h : Breaks start text before ls inner .string) :
    needsMore (String.ofList before) = true := by
  rw [needsMore_of_breaks h, needsMoreAfter]
  obtain ⟨_, _, outer, _, -, -, -, hlongest, -⟩ := h
  obtain ⟨contents, hcontents, htaken⟩ := Pattern.mem_string.mp hlongest.mem
  cases inner with
  | nil => cases htaken
  | cons c cs =>
    obtain ⟨rfl, hcs⟩ := List.cons_eq_cons.mp htaken
    have hopen : '"' ∉ cs := by
      obtain ⟨more, rfl, -⟩ | ⟨more, rfl, hmore⟩ := List.append_eq_append_iff.mp hcs
      · exact fun hmem => hcontents (List.mem_append_left _ hmem)
      · cases more with
        | nil => cases hmore
        | cons d ds => simp at hmore
    have hmunch : munch ('"' :: cs) = some (munchString cs) := rfl
    have htokens : tokenize (String.ofList ('"' :: cs))
        = .error ⟨.unterminatedString, .start⟩ := by
      rw [tokenize_eq_readFrom, String.toList_ofList, readFrom_of_munch _ _ hmunch,
        if_pos (munchString_open hopen).2]
    rw [htokens]
    rfl

end

/-! ## Lines that are no commands -/

/-- A colon, or one of the blanks that may stand in front of it. -/
def mayLead (c : Char) : Bool := c = ':' || Text.isBlank c

theorem code_of_mayLead {c : Char} (h : mayLead c = true) :
    c.toNat ≤ 32 ∨ c.toNat = 58 ∨ 133 ≤ c.toNat := by
  rcases (Bool.or_eq_true _ _).mp h with h | h
  · rw [of_decide_eq_true h]
    exact .inr (.inl rfl)
  · simp [Text.isBlank, Text.blankRanges, Text.CodeRanges.has] at h
    omega

theorem le_iff_code {c d : Char} : c ≤ d ↔ c.toNat ≤ d.toNat := Iff.rfl

/-- Of these characters only white space begins a token. -/
theorem munch_eq_none {c : Char} (h : mayLead c = true) (hspace : isSpace c = false)
    (cs : List Char) : munch (c :: cs) = none := by
  have hcode := code_of_mayLead h
  have hname : isNameStart c = false := by
    have hunderscore : c ≠ '_' := by rintro rfl; cases h
    simp [isNameStart, le_iff_code, hunderscore]
    omega
  have hdigit : Decimal.isDigit c = false := by
    simp [Decimal.isDigit, le_iff_code]
    omega
  have hsingle : singleSymbol? c = none := by
    unfold singleSymbol?
    split <;> first | rfl | cases h
  have hdouble : doubleSymbol? c = none := by
    unfold doubleSymbol?
    split <;> first | rfl | cases h
  rw [munch]
  · simp [hspace, hname, hdigit, munchSymbol, hsingle, hdouble]
  · rintro rfl
    cases h
  · rintro rfl
    cases h

/-- Behind the white space in front of a command there is no token. -/
theorem exists_leading {text more : List Char} (h : text.dropWhile Text.isBlank = ':' :: more)
    (rest : List Char) :
    ∃ c cs, (text ++ rest).dropWhile isSpace = c :: cs ∧ mayLead c = true ∧ isSpace c = false := by
  induction text with
  | nil => cases h
  | cons d ds ih =>
    cases hblank : Text.isBlank d with
    | false =>
      rw [List.dropWhile_cons_of_neg (by simp [hblank])] at h
      obtain ⟨rfl, rfl⟩ := List.cons_eq_cons.mp h
      exact ⟨':', ds ++ rest, rfl, rfl, rfl⟩
    | true =>
      cases hspace : isSpace d with
      | false =>
        refine ⟨d, ds ++ rest, ?_, by simp [mayLead, hblank], hspace⟩
        rw [List.cons_append, List.dropWhile_cons_of_neg (by simp [hspace])]
      | true =>
        rw [List.dropWhile_cons_of_pos hblank] at h
        rw [List.cons_append, List.dropWhile_cons_of_pos hspace]
        exact ih h

/-- No line of a program, read from its front, is a command. -/
theorem ofLine?_eq_none {line : String} {rest : List Char} {p q : Position} {ls : List Lexeme}
    (h : Walk p (line.toList ++ rest) ls q []) : Command.ofLine? line = none := by
  unfold Command.ofLine?
  split
  · next name htrimmed =>
    have hfront : ':' :: name <+: line.toList.dropWhile Text.isBlank := by
      rw [← htrimmed, ← List.reverse_reverse (line.toList.dropWhile Text.isBlank)]
      exact List.reverse_prefix.mpr (List.dropWhile_suffix Text.isBlank)
    obtain ⟨more, hmore⟩ := hfront
    obtain ⟨c, cs, hdrop, hlead, hspace⟩ := exists_leading hmore.symm rest
    have hread : readFrom p (List.reverse []) (line.toList ++ rest)
        = .ok ([] ++ ls ++ [⟨.endOfInput, "", q⟩]) := h.readFrom_eq .whole
    rw [readFrom_dropWhile, hdrop,
      readFrom_of_unmatched (unmatched_of_munch (munch_eq_none hlead hspace cs))] at hread
    cases hread
  · rfl

/-! ## Pieces of a program -/

/-- Lines as the text that they make up. -/
def written (lines : List String) : List Char := ("\n".intercalate lines).toList

theorem written_cons (line : String) {lines : List String} (h : lines ≠ []) :
    written (line :: lines) = line.toList ++ '\n' :: written lines := by
  rw [written, written, String.toList_intercalate, List.map_cons,
    List.intercalate_cons_of_ne_nil (List.map_eq_nil_iff.not.mpr h), String.toList_intercalate,
    List.append_assoc]
  rfl

theorem written_append {lines lines' : List String} (h : lines ≠ []) (h' : lines' ≠ []) :
    written (lines ++ lines') = written lines ++ '\n' :: written lines' := by
  induction lines with
  | nil => exact absurd rfl h
  | cons line lines ih =>
    cases lines with
    | nil => exact written_cons line h'
    | cons other lines =>
      rw [List.cons_append, written_cons line (by simp), ih (List.cons_ne_nil _ _),
        written_cons line (List.cons_ne_nil _ _), List.append_assoc, List.cons_append]

theorem ofList_written (lines : List String) :
    String.ofList (written lines) = "\n".intercalate lines :=
  String.ofList_toList

/-- The lines `past` of a text are done with: behind them is white space, and no bracket is open. -/
def Settled (text : List Char) (past : List String) : Prop :=
  past = [] ∨ ∃ ls inner, Breaks .start text (written past) ls inner .blank ∧ openBrackets ls ≤ 0

section Settled

variable {text inner : List Char} {past piece more : List String} {ls : List Lexeme} {r : Pattern}

/-- What comes then is read without fault on its own. -/
theorem Settled.exists_walk {q : Position} (h : Settled text past) (hmore : more ≠ [])
    (htext : text = written (past ++ more)) (hwalk : Walk .start text ls q []) :
    ∃ p ls', Walk p (written more) ls' q [] := by
  subst htext
  cases past with
  | nil => exact ⟨.start, ls, hwalk⟩
  | cons line past =>
    obtain h | ⟨ls', inner, hbreaks, -⟩ := h
    · cases h
    rw [written_append (List.cons_ne_nil _ _) hmore] at hwalk hbreaks
    obtain ⟨p, ls'', -, hwalk'⟩ := hbreaks.walk_behind hwalk (Nat.zero_le _)
    exact ⟨p, ls'', hwalk'⟩

/-- And its newlines are where they were, with no fewer brackets open. -/
theorem Settled.exists_breaks (h : Settled text past) (hpiece : piece ≠ [])
    (htext : text = written (past ++ (piece ++ more)))
    (hbreaks : Breaks .start text (written (past ++ piece)) ls inner r) :
    ∃ p ls' inner', Breaks p (written (piece ++ more)) (written piece) ls' inner' r ∧
      openBrackets ls ≤ openBrackets ls' ∧ (r ≠ .blank → inner' = inner) := by
  subst htext
  cases past with
  | nil => exact ⟨.start, ls, inner, hbreaks, Int.le_refl _, fun _ => rfl⟩
  | cons line past =>
    obtain h | ⟨ls', inner', hpast, hle⟩ := h
    · cases h
    have hne := List.cons_ne_nil line past
    rw [written_append hne (List.append_ne_nil_of_left_ne_nil hpiece more)] at hpast hbreaks
    rw [written_append hne hpiece] at hbreaks
    obtain ⟨p, ls'', inner'', hbreaks', rfl, hinner⟩ := hpast.behind hbreaks
    refine ⟨p, ls'', inner'', hbreaks', ?_, hinner⟩
    rw [openBrackets_append]
    omega

/-- A piece of a program is unfinished, or it can be done with. -/
theorem Settled.unfinished_or_settled (h : Settled text past) (hpiece : piece ≠ [])
    (htext : text = written (past ++ (piece ++ more)))
    (hbreaks : Breaks .start text (written (past ++ piece)) ls inner r)
    (hcomment : r = .blockComment → needsMore ("\n".intercalate (past ++ piece)) = true) :
    needsMore ("\n".intercalate piece) = true ∨ r = .blank ∧ openBrackets ls ≤ 0 := by
  obtain ⟨p, ls', inner', hbreaks', hle, hinner⟩ := h.exists_breaks hpiece htext hbreaks
  rw [← ofList_written] at hcomment ⊢
  obtain rfl | rfl | rfl := hbreaks.pattern
  · rw [needsMore_of_breaks_blank hbreaks', decide_eq_true_eq]
    by_cases hopen : 0 < openBrackets ls'
    · exact .inl hopen
    · exact .inr ⟨rfl, by omega⟩
  · exact .inl (needsMore_of_breaks_string hbreaks')
  · left
    have hwhole := hcomment rfl
    rw [needsMore_of_breaks hbreaks] at hwhole
    rw [needsMore_of_breaks hbreaks', hinner (by simp)]
    exact needsMoreAfter_mono hle hwhole

end Settled

/-! ## Line by line -/

/-- The lines that wait for more after some lines. -/
def pendingAfter (lines : List String) : List String :=
  lines.foldl (fun pending line => (step pending line).1) []

theorem pendingAfter_concat (lines : List String) (line : String) :
    pendingAfter (lines ++ [line]) = (step (pendingAfter lines) line).1 := by
  rw [pendingAfter, List.foldl_append]
  rfl

/-- What is done with a line that is no command. -/
theorem step_eq {pending : List String} {line : String}
    (h : pending = [] → Command.ofLine? line = none) :
    step pending line =
      if needsMore ("\n".intercalate (pending ++ [line])) then (pending ++ [line], .wait)
      else if ("\n".intercalate (pending ++ [line])).toList.all Text.isBlank then ([], .wait)
      else ([], .submit ("\n".intercalate (pending ++ [line]))) := by
  cases pending with
  | nil =>
    unfold step
    rw [h rfl]
  | cons first others => rfl

section Lines

variable {text inner : List Char} {past pending done more : List String} {last : String}
  {ls lexemes : List Lexeme} {r : Pattern} {q : Position}

/-- No line of a program at which a submission begins is a command. -/
theorem Settled.ofLine?_eq_none (h : Settled text past)
    (htext : text = written (past ++ last :: more)) (hwalk : Walk .start text lexemes q []) :
    Command.ofLine? last = none := by
  obtain ⟨p, ls', hwalk'⟩ := h.exists_walk (List.cons_ne_nil last more) htext hwalk
  cases more with
  | nil =>
    have hlast : written [last] = last.toList ++ [] := (List.append_nil _).symm
    rw [hlast] at hwalk'
    exact Repl.ofLine?_eq_none hwalk'
  | cons next more =>
    rw [written_cons last (List.cons_ne_nil next more)] at hwalk'
    exact Repl.ofLine?_eq_none hwalk'

/-- **One line** of a program waits for more, or all the lines so far can be done with. -/
theorem Settled.step (h : Settled text past)
    (htext : text = written (past ++ (pending ++ [last] ++ more)))
    (hwalk : Walk .start text lexemes q [])
    (hbreaks : Breaks .start text (written (past ++ (pending ++ [last]))) ls inner r)
    (hcomment : r = .blockComment →
      needsMore ("\n".intercalate (past ++ (pending ++ [last]))) = true) :
    Repl.step pending last = (pending ++ [last], .wait) ∨
      (Repl.step pending last).1 = [] ∧ r = .blank ∧ openBrackets ls ≤ 0 := by
  have hcommand : pending = [] → Command.ofLine? last = none := by
    rintro rfl
    exact h.ofLine?_eq_none htext hwalk
  rw [step_eq hcommand]
  split
  · exact .inl rfl
  · next hneeds =>
    have hblank := (h.unfinished_or_settled (by simp) htext hbreaks hcomment).resolve_left hneeds
    refine .inr ⟨?_, hblank⟩
    split <;> rfl

/-- **Line by line.** When some lines of a program have been given, those that do not wait for more
are done with. -/
theorem exists_settled (hmore : more ≠ []) (htext : text = written (done ++ more))
    (hwalk : Walk .start text lexemes q [])
    (hcomment : ∀ lines ls inner, lines <+: done →
      Breaks .start text (written lines) ls inner .blockComment →
      needsMore ("\n".intercalate lines) = true) :
    ∃ past, done = past ++ pendingAfter done ∧ Settled text past := by
  induction done using List.reverseRecOn generalizing more with
  | nil => exact ⟨[], rfl, .inl rfl⟩
  | append_singleton done last ih =>
    obtain ⟨past, hdone, hsettled⟩ := ih (List.cons_ne_nil last more)
      (by rw [htext, List.append_assoc, List.singleton_append])
      fun lines ls inner hlines => hcomment lines ls inner (hlines.trans (List.prefix_append _ _))
    have hlines : done ++ [last] = past ++ (pendingAfter done ++ [last]) := by
      rw [← List.append_assoc, ← hdone]
    have hsplit : text = written (done ++ [last]) ++ '\n' :: written more := by
      rw [htext, written_append (by simp) hmore]
    obtain ⟨ls, inner, r, hbreaks, -⟩ := hwalk.exists_breaks hsplit (Nat.zero_le _)
    rw [pendingAfter_concat]
    obtain hwait | ⟨hnone, rfl, hle⟩ := hsettled.step (by rw [htext, hlines, List.append_assoc])
      hwalk (hlines ▸ hbreaks) (by
        rintro rfl
        rw [← hlines]
        exact hcomment _ ls inner (List.prefix_refl _) hbreaks)
    · exact ⟨past, by rw [hwait, hlines], hsettled⟩
    · exact ⟨done ++ [last], by rw [hnone, List.append_nil], .inr ⟨ls, inner, hbreaks, hle⟩⟩

end Lines

/-- **Open lines wait.** Every newline of a text that can be read is in white space, in a string or
in a block comment. The text up to it is unfinished in white space just if more brackets are open
than closed, and always in a string. In a block comment it is unfinished just if the front of the
comment is, read as a text after so many open brackets.

So where the fronts of comments leave what they are in unfinished, a line that ends in a string or
behind an open bracket waits for more, whatever has been submitted before it. -/
theorem open_lines_wait {source : String} {lexemes : List Lexeme}
    (h : tokenize source = .ok lexemes) :
    (∀ before after, source.toList = before ++ '\n' :: after →
      ∃ ls inner r, Breaks .start source.toList before ls inner r ∧ ls <+: lexemes) ∧
    (∀ before ls inner r, Breaks .start source.toList before ls inner r →
      r = .blank ∧ needsMore (String.ofList before) = decide (0 < openBrackets ls) ∨
      r = .string ∧ needsMore (String.ofList before) = true ∨
      r = .blockComment ∧ needsMore (String.ofList before)
        = needsMoreAfter (openBrackets ls) (String.ofList inner)) ∧
    ∀ done last more, source = "\n".intercalate (done ++ last :: more) → more ≠ [] →
      (∀ lines ls inner, lines <+: done ++ [last] →
        Breaks .start source.toList ("\n".intercalate lines).toList ls inner .blockComment →
        needsMore ("\n".intercalate lines) = true) →
      ∀ ls inner r,
        Breaks .start source.toList ("\n".intercalate (done ++ [last])).toList ls inner r →
        r = .string ∨ 0 < openBrackets ls →
        step (pendingAfter done) last = (pendingAfter done ++ [last], .wait) := by
  obtain ⟨ms, rfl, hwalk⟩ := exists_walk_of_tokenize h
  refine ⟨fun before after htext => ?_, fun before ls inner r hbreaks => ?_,
    fun done last more hsource hmore hcomment ls inner r hbreaks hopen => ?_⟩
  · obtain ⟨ls, inner, r, hbreaks, hls⟩ := hwalk.exists_breaks htext (Nat.zero_le _)
    exact ⟨ls, inner, r, hbreaks, hls.trans (List.prefix_append _ _)⟩
  · obtain rfl | rfl | rfl := hbreaks.pattern
    · exact .inl ⟨rfl, needsMore_of_breaks_blank hbreaks⟩
    · exact .inr (.inl ⟨rfl, needsMore_of_breaks_string hbreaks⟩)
    · exact .inr (.inr ⟨rfl, needsMore_of_breaks hbreaks⟩)
  · have htext : source.toList = written (done ++ last :: more) := congrArg String.toList hsource
    obtain ⟨past, hdone, hsettled⟩ := exists_settled (List.cons_ne_nil last more) htext hwalk
      fun lines ls inner hlines => hcomment lines ls inner (hlines.trans (List.prefix_append _ _))
    have hlines : done ++ [last] = past ++ (pendingAfter done ++ [last]) := by
      rw [← List.append_assoc, ← hdone]
    have htext' : source.toList = written (past ++ (pendingAfter done ++ [last] ++ more)) := by
      rw [htext, List.append_cons, hlines, List.append_assoc]
    rw [hlines] at hbreaks
    obtain hwait | ⟨-, rfl, hle⟩ := hsettled.step htext' hwalk hbreaks (by
      rintro rfl
      exact hcomment _ ls inner (hlines ▸ List.prefix_refl _) hbreaks)
    · exact hwait
    · rcases hopen with hstring | hopen
      · cases hstring
      · omega

/-- A bracket is open behind the second of three lines. -/
theorem bracket_line_waits :
    (∃ lexemes, tokenize "print 0\nprint (1\n+ 2)" = .ok lexemes) ∧
      (∃ ls inner, Breaks .start "print 0\nprint (1\n+ 2)".toList "print 0\nprint (1".toList
        ls inner .blank ∧ 0 < openBrackets ls) ∧
      step (pendingAfter ["print 0"]) "print (1" = (["print (1"], .wait) := by
  obtain ⟨lexemes, -, hread, -⟩ : ∃ ls statements,
      tokenize "print 0\nprint (1\n+ 2)" = .ok ls ∧ Grammar.parse ls = .ok statements :=
    exists_parse (by decide +kernel)
  have hbreaks : Breaks .start "print 0\nprint (1\n+ 2)".toList "print 0\nprint (1".toList
      (walkFor 8 .start "print 0\nprint (1\n+ 2)".toList).1 [] .blank :=
    .of_walkFor 8 [] "+ 2)".toList (by decide +kernel) (by decide +kernel) (by decide +kernel) rfl
  have hopen : 0 < openBrackets (walkFor 8 .start "print 0\nprint (1\n+ 2)".toList).1 := by
    decide +kernel
  have hpending : pendingAfter ["print 0"] = [] := by decide +kernel
  obtain ⟨-, -, hlines⟩ := open_lines_wait hread
  refine ⟨⟨lexemes, hread⟩, ⟨_, _, hbreaks, hopen⟩, ?_⟩
  have hwaits := hlines ["print 0"] "print (1" ["+ 2)"] (by decide +kernel) (by simp)
    (fun lines ls inner _ hcomment => absurd hcomment.slash_mem (by decide +kernel)) _ _ _ hbreaks
    (.inr hopen)
  rwa [hpending] at hwaits ⊢

/-- A bracket is open at the newline, but the front of the comment that the newline is in closes
one. -/
theorem comment_closes_bracket :
    (∃ lexemes statements, tokenize "print (1 /* )\n*/ + 2)" = .ok lexemes ∧
      Grammar.parse lexemes = .ok statements) ∧
      (∃ ls inner, Breaks .start "print (1 /* )\n*/ + 2)".toList "print (1 /* )".toList
        ls inner .blockComment ∧ 0 < openBrackets ls) ∧
      needsMore "print (1 /* )" = false ∧
      step [] "print (1 /* )" = ([], .submit "print (1 /* )") := by
  refine ⟨exists_parse (by decide +kernel), ⟨_, "/* )".toList, .of_walkFor 5 "*/".toList
    " + 2)".toList (by decide +kernel) (by decide +kernel) (by decide +kernel) rfl, ?_⟩, ?_, ?_⟩
  · decide +kernel
  · decide +kernel
  · decide +kernel

end Scripting.Repl
