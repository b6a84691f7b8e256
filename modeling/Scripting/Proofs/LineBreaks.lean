/-
Where the newlines of a text are.

A walk over a text comes to each of its newlines inside of a match, and only three patterns have
newlines in their matches: white space, strings and block comments. If a text is cut off at one of
its newlines, the walk up to the match that the newline is in stays what it was, and only the part
of that match in front of the newline is read anew. If a text is begun anew behind a newline in
white space, the rest of the walk stays what it was.
-/
import Scripting.Proofs.Seams

set_option autoImplicit false

namespace Scripting

/-! ## Walks match by match -/

/-- The lexeme of a match, if one is made of it. -/
def Pattern.lexemes (r : Pattern) (taken : List Char) (p : Position) : List Lexeme :=
  if r.isSkipped then [] else [⟨r.token taken, String.ofList taken, p⟩]

namespace Walk

theorem cons {p q : Position} {taken rest left : List Char} {ls : List Lexeme} {r : Pattern}
    (h : Longest (taken ++ rest) r taken) (hr : r ≠ .unterminatedString)
    (hrest : Walk (p.advanceAll taken) rest ls q left) :
    Walk p (taken ++ rest) (r.lexemes taken p ++ ls) q left := by
  unfold Pattern.lexemes
  split
  · next hskip => exact .skip h hskip hrest
  · next hskip => exact .emit h (Bool.eq_false_iff.mpr hskip) hr hrest

/-- A walk stops or passes a match and goes on. -/
theorem induct {motive : ∀ p text ls q left, Walk p text ls q left → Prop}
    (stop : ∀ p text, motive p text [] p text (.stop p text))
    (cons : ∀ p q taken rest left ls r (hlongest : Longest (taken ++ rest) r taken)
      (hr : r ≠ .unterminatedString) (hrest : Walk (p.advanceAll taken) rest ls q left),
      motive (p.advanceAll taken) rest ls q left hrest →
      motive p (taken ++ rest) (r.lexemes taken p ++ ls) q left (.cons hlongest hr hrest))
    {p : Position} {text : List Char} {ls : List Lexeme} {q : Position} {left : List Char}
    (h : Walk p text ls q left) : motive p text ls q left h := by
  induction h with
  | stop p text => exact stop p text
  | skip hlongest hskip hrest ih =>
    have hcons := cons _ _ _ _ _ _ _ hlongest (by rintro rfl; cases hskip) hrest ih
    simpa only [Pattern.lexemes, if_pos hskip, List.nil_append] using hcons
  | emit hlongest hskip hr hrest ih =>
    have hcons := cons _ _ _ _ _ _ _ hlongest hr hrest ih
    simpa only [Pattern.lexemes, hskip, Bool.false_eq_true, if_false, List.singleton_append]
      using hcons

variable {p p' q q' : Position} {text taken rest left left' : List Char} {ls ls' : List Lexeme}
  {r : Pattern}

theorem trans (h : Walk p text ls q left) (h' : Walk q left ls' q' left') :
    Walk p text (ls ++ ls') q' left' := by
  induction h using Walk.induct with
  | stop => exact h'
  | cons p q taken rest left ls r hlongest hr _ ih =>
    rw [List.append_assoc]
    exact .cons hlongest hr (ih h')

/-- What a walk has left is the end of the text. -/
theorem exists_append (h : Walk p text ls q left) : ∃ front, text = front ++ left := by
  obtain ⟨front, htext, -⟩ := h.truncate
  exact ⟨front, htext⟩

theorem length_le (h : Walk p text ls q left) : left.length ≤ text.length := by
  obtain ⟨front, rfl⟩ := h.exists_append
  simp

/-- A walk that begins elsewhere reads the same tokens. -/
theorem elsewhere (h : Walk p text ls q left) (p' : Position) :
    ∃ ls' q', Walk p' text ls' q' left ∧ ls'.map (·.token) = ls.map (·.token) := by
  induction h using Walk.induct generalizing p' with
  | stop p text => exact ⟨[], p', .stop p' text, rfl⟩
  | cons p q taken rest left ls r hlongest hr _ ih =>
    obtain ⟨ls', q', hwalk, htokens⟩ := ih (p'.advanceAll taken)
    refine ⟨_, q', .cons hlongest hr hwalk, ?_⟩
    rw [List.map_append, List.map_append, htokens]
    unfold Pattern.lexemes
    split <;> rfl

/-- The text may end earlier, but not before the place that the walk has come to. -/
theorem cut (h : Walk p text ls q left) (hleft : left' <+: left) :
    ∃ front, text = front ++ left ∧ Walk p (front ++ left') ls q left' := by
  induction h using Walk.induct with
  | stop p text => exact ⟨[], rfl, .stop p left'⟩
  | cons p q taken rest left ls r hlongest hr _ ih =>
    obtain ⟨front, rfl, hwalk⟩ := ih hleft
    refine ⟨taken ++ front, (List.append_assoc _ _ _).symm, ?_⟩
    rw [List.append_assoc]
    exact .cons (hlongest.truncate ((List.prefix_append_right_inj front).mpr hleft)) hr hwalk

/-- What a walk does at a match: it has stopped before it, or it passes it. -/
theorem uncons (hlongest : Longest (taken ++ rest) r taken)
    (h : Walk p (taken ++ rest) ls q left) :
    ls = [] ∧ left = taken ++ rest ∨
      ∃ more, ls = r.lexemes taken p ++ more ∧ Walk (p.advanceAll taken) rest more q left := by
  generalize htext : taken ++ rest = text at h
  induction h using Walk.induct with
  | stop => exact .inl ⟨rfl, rfl⟩
  | cons p q taken' rest' left ls r' hlongest' hr hrest _ =>
    rw [← htext] at hlongest'
    obtain ⟨rfl, rfl⟩ := hlongest.unique hlongest'
    obtain rfl := List.append_cancel_left htext
    exact .inr ⟨ls, rfl, hrest⟩

/-- Of two walks over a text one goes on from where the other has stopped. -/
theorem compare (h : Walk p text ls q left) (h' : Walk p text ls' q' left')
    (hle : left'.length ≤ left.length) : ∃ more, ls' = ls ++ more ∧ Walk q left more q' left' := by
  induction h using Walk.induct generalizing ls' with
  | stop => exact ⟨ls', rfl, h'⟩
  | cons p q taken rest left ls r hlongest _ hrest ih =>
    obtain ⟨-, rfl⟩ | ⟨more, rfl, hmore⟩ := h'.uncons hlongest
    · have hlen := hrest.length_le
      have hpos := List.length_pos_iff.mpr hlongest.ne_nil
      rw [List.length_append] at hle
      omega
    · obtain ⟨more', rfl, hwalk⟩ := ih hmore hle
      exact ⟨more', (List.append_assoc _ _ _).symm, hwalk⟩

/-- Matches that walks over a text come to are one if they overlap. -/
theorem same_match {taken' rest' : List Char} {r' : Pattern} (h : Walk p text ls q (taken ++ rest))
    (h' : Walk p text ls' q' (taken' ++ rest')) (hlongest : Longest (taken ++ rest) r taken)
    (hlongest' : Longest (taken' ++ rest') r' taken') (hlt : rest.length < (taken' ++ rest').length)
    (hlt' : rest'.length < (taken ++ rest).length) :
    ls' = ls ∧ taken' = taken ∧ rest' = rest ∧ r' = r := by
  have hplace : ls' = ls ∧ taken' ++ rest' = taken ++ rest := by
    rcases Nat.le_total (taken' ++ rest').length (taken ++ rest).length with hle | hle
    · obtain ⟨more, rfl, hmore⟩ := h.compare h' hle
      obtain ⟨rfl, hsame⟩ | ⟨_, -, hrest⟩ := hmore.uncons hlongest
      · exact ⟨List.append_nil _, hsame⟩
      · exact absurd hrest.length_le (Nat.not_le.mpr hlt)
    · obtain ⟨more, rfl, hmore⟩ := h'.compare h hle
      obtain ⟨rfl, hsame⟩ | ⟨_, -, hrest⟩ := hmore.uncons hlongest'
      · exact ⟨(List.append_nil _).symm, hsame.symm⟩
      · exact absurd hrest.length_le (Nat.not_le.mpr hlt')
  obtain ⟨hls, hsame⟩ := hplace
  rw [hsame] at hlongest'
  obtain ⟨rfl, rfl⟩ := hlongest.unique hlongest'
  exact ⟨hls, rfl, List.append_cancel_left hsame, rfl⟩

end Walk

/-! ## Newlines -/

/-- The text has a newline right behind `before`. It stands in a match of the pattern, of which
`inner` is in front of it, and a walk over the text comes to that match with the lexemes `ls`. -/
def Breaks (start : Position) (text before : List Char) (ls : List Lexeme) (inner : List Char)
    (r : Pattern) : Prop :=
  ∃ p front outer rest, text = front ++ (inner ++ '\n' :: outer ++ rest) ∧ before = front ++ inner ∧
    Walk start text ls p (inner ++ '\n' :: outer ++ rest) ∧
    Longest (inner ++ '\n' :: outer ++ rest) r (inner ++ '\n' :: outer) ∧ r ≠ .unterminatedString

section Breaks

variable {start : Position} {text before inner after : List Char} {ls : List Lexeme} {r : Pattern}

/-- A newline further behind. -/
theorem Breaks.cons {taken rest : List Char} {q : Pattern}
    (hlongest : Longest (taken ++ rest) q taken) (hq : q ≠ .unterminatedString)
    (h : Breaks (start.advanceAll taken) rest before ls inner r) :
    Breaks start (taken ++ rest) (taken ++ before) (q.lexemes taken start ++ ls) inner r := by
  obtain ⟨p, front, outer, rest', htext, rfl, hwalk, hlongest', hr⟩ := h
  refine ⟨p, taken ++ front, outer, rest', ?_, (List.append_assoc _ _ _).symm,
    .cons hlongest hq hwalk, hlongest', hr⟩
  rw [htext, ← List.append_assoc taken]

/-- Every newline that a walk has passed is in a match. -/
theorem Walk.exists_breaks {q : Position} {left : List Char} (h : Walk start text ls q left)
    (htext : text = before ++ '\n' :: after) (hle : left.length ≤ after.length) :
    ∃ ls' inner r, Breaks start text before ls' inner r ∧ ls' <+: ls := by
  induction h using Walk.induct generalizing before with
  | stop p text =>
    rw [htext, List.length_append, List.length_cons] at hle
    omega
  | cons p q taken rest left ls r hlongest hr hrest ih =>
    have hbehind : ∀ more, before = taken ++ more → rest = more ++ '\n' :: after →
        ∃ ls' inner r', Breaks p (taken ++ rest) before ls' inner r' ∧
          ls' <+: r.lexemes taken p ++ ls := by
      rintro more rfl hmore
      obtain ⟨ls', inner, r', hbreaks, hls'⟩ := ih hmore hle
      exact ⟨_, inner, r', hbreaks.cons hlongest hr, (List.prefix_append_right_inj _).mpr hls'⟩
    obtain ⟨more, hbefore, hrest'⟩ | ⟨more, htaken, hmore⟩ := List.append_eq_append_iff.mp htext
    · exact hbehind more hbefore hrest'
    · cases more with
      | nil => exact hbehind [] (by simpa using htaken.symm) hmore.symm
      | cons c outer =>
        obtain ⟨rfl, rfl⟩ := List.cons_eq_cons.mp hmore
        subst htaken
        exact ⟨[], before, r, ⟨p, [], outer, rest, rfl, rfl, .stop _ _, hlongest, hr⟩,
          List.nil_prefix⟩

/-- Three patterns have newlines in their matches. -/
theorem Breaks.pattern (h : Breaks start text before ls inner r) :
    r = .blank ∨ r = .string ∨ r = .blockComment := by
  obtain ⟨_, _, outer, _, -, -, -, hlongest, hr⟩ := h
  have hruns : r.runsOn = true := by
    by_contra hruns
    exact Pattern.newline_not_mem hlongest.mem (Bool.eq_false_iff.mpr hruns) (by simp)
  cases r with
  | blank => exact .inl rfl
  | string => exact .inr (.inl rfl)
  | blockComment => exact .inr (.inr rfl)
  | unterminatedString => exact absurd rfl hr
  | _ => cases hruns

/-- Block comments begin with a slash. -/
theorem Breaks.slash_mem (h : Breaks start text before ls inner .blockComment) : '/' ∈ text := by
  obtain ⟨_, front, outer, rest, rfl, -, -, hlongest, -⟩ := h
  obtain ⟨contents, -, htaken⟩ := Pattern.mem_blockComment.mp hlongest.mem
  rw [htaken]
  simp

/-- The text up to the newline is read like the whole text as far as the match. -/
theorem Breaks.exists_walk (h : Breaks start text before ls inner r) :
    ∃ p, Walk start before ls p inner := by
  obtain ⟨p, front, outer, rest, htext, rfl, hwalk, -⟩ := h
  have hinner : inner <+: inner ++ '\n' :: outer ++ rest := ⟨_, (List.append_assoc _ _ _).symm⟩
  obtain ⟨front', htext', hwalk'⟩ := hwalk.cut hinner
  obtain rfl := List.append_cancel_right (htext.symm.trans htext')
  exact ⟨p, hwalk'⟩

/-! ## Beginning anew -/

theorem Pattern.mem_blank_iff {w : List Char} :
    w ∈ Pattern.blank.language ↔ w ≠ [] ∧ ∀ c ∈ w, isSpace c = true := by
  rw [Pattern.mem_blank]
  constructor
  · rintro ⟨c, cs, hc, hcs, rfl⟩
    exact ⟨List.cons_ne_nil c cs, List.forall_mem_cons.mpr ⟨hc, hcs⟩⟩
  · rintro ⟨hne, hall⟩
    obtain ⟨c, cs, rfl⟩ := List.exists_cons_of_ne_nil hne
    obtain ⟨hc, hcs⟩ := List.forall_mem_cons.mp hall
    exact ⟨c, cs, hc, hcs, rfl⟩

/-- The end of the longest white space is the longest there. -/
theorem Longest.blank_end {spaces more rest : List Char} {b : Char}
    (h : Longest (spaces ++ b :: more ++ rest) .blank (spaces ++ b :: more)) (hmore : more ≠ []) :
    Longest (more ++ rest) .blank more := by
  obtain ⟨hspaces, hb, hall⟩ : (∀ c ∈ spaces, isSpace c = true) ∧ isSpace b = true ∧
      ∀ c ∈ more, isSpace c = true := by
    simpa [or_imp, forall_and] using (Pattern.mem_blank_iff.mp h.mem).2
  -- Nothing but white space begins there, and with the spaces in front it is a match of the whole.
  have hblank {q : Pattern} {w : List Char} (hmem : w ∈ q.language) (hw : w <+: more ++ rest) :
      q = .blank := by
    obtain ⟨c, cs, rfl⟩ := List.exists_cons_of_ne_nil hmore
    obtain ⟨w', rfl, -⟩ := exists_of_front hmem hw
    have hadmits := Initial.admits_of_mem hmem
    rwa [Initial.of_space (List.forall_mem_cons.mp hall).1] at hadmits
  refine ⟨Pattern.mem_blank_iff.mpr ⟨hmore, hall⟩, List.prefix_append _ _, hmore,
    fun q other hmem hfront => ?_, fun k hk => (hblank hk (List.prefix_append _ _)).symm⟩
  obtain rfl := hblank hmem hfront
  have hlonger : spaces ++ b :: other ∈ Pattern.blank.language :=
    Pattern.mem_blank_iff.mpr ⟨by simp, List.forall_mem_append.mpr ⟨hspaces,
      List.forall_mem_cons.mpr ⟨hb, (Pattern.mem_blank_iff.mp hmem).2⟩⟩⟩
  have hle := h.longest .blank _ hlonger (by
    rw [List.append_assoc, List.cons_append]
    exact (List.prefix_append_right_inj spaces).mpr ((List.prefix_cons_inj b).mpr hfront))
  simp only [List.length_append, List.length_cons] at hle
  omega

/-- A text that begins anew behind a newline in white space is walked over like the whole text. -/
theorem Breaks.walk_behind {ls' : List Lexeme} {q : Position} {left : List Char}
    (h : Breaks start (before ++ '\n' :: after) before ls inner .blank)
    (h' : Walk start (before ++ '\n' :: after) ls' q left) (hle : left.length ≤ after.length) :
    ∃ start' more, ls' = ls ++ more ∧ Walk start' after more q left := by
  obtain ⟨p, front, outer, rest, htext, rfl, hwalk, hlongest, hblank⟩ := h
  obtain rfl : after = outer ++ rest := by simpa using htext
  have hlt : left.length < (inner ++ '\n' :: outer ++ rest).length := by
    simp only [List.length_append, List.length_cons] at hle ⊢
    omega
  obtain ⟨more, rfl, hmore⟩ := hwalk.compare h' (Nat.le_of_lt hlt)
  obtain ⟨-, hleft⟩ | ⟨_, rfl, hrest⟩ := hmore.uncons hlongest
  · rw [hleft] at hlt
    exact absurd hlt (Nat.lt_irrefl _)
  · cases outer with
    | nil => exact ⟨_, more, rfl, hrest⟩
    | cons c cs =>
      rw [List.append_cons, Position.advanceAll_append] at hrest
      exact ⟨_, more, rfl, .cons (hlongest.blank_end (List.cons_ne_nil c cs)) hblank hrest⟩

/-- A newline behind one in white space is in the same place of a text that begins anew there. -/
theorem Breaks.behind {before' inner' : List Char} {ls' : List Lexeme}
    (h : Breaks start (before ++ '\n' :: after) before ls inner .blank)
    (h' : Breaks start (before ++ '\n' :: after) (before ++ '\n' :: before') ls' inner' r) :
    ∃ start' more inner'', Breaks start' after before' more inner'' r ∧ ls' = ls ++ more ∧
      (r ≠ .blank → inner'' = inner') := by
  obtain ⟨p', front', outer', rest', htext', hbefore', hwalk', hlongest', hr⟩ := h'
  rcases Nat.lt_or_ge after.length (inner' ++ '\n' :: outer' ++ rest').length with hgt | hle
  · -- The match begins in front of the first newline, so that is in it too.
    obtain ⟨p, front, outer, rest, htext, rfl, hwalk, hlongest, hblank⟩ := h
    obtain rfl : after = outer ++ rest := by simpa using htext
    have htextlen := congrArg List.length htext'
    have hbeforelen := congrArg List.length hbefore'
    simp only [List.length_append, List.length_cons] at htextlen hbeforelen hgt
    obtain ⟨rfl, htaken, rfl, rfl⟩ := hwalk.same_match hwalk' hlongest hlongest'
      (by simp only [List.length_append, List.length_cons]; omega)
      (by simp only [List.length_append, List.length_cons]; omega)
    have hfront : front = front' := by
      rw [htext, htaken] at htext'
      exact List.append_cancel_right htext'
    have hinner : inner' = inner ++ '\n' :: before' := by simpa [hfront] using hbefore'.symm
    obtain rfl : outer = before' ++ '\n' :: outer' := by simpa [hinner] using htaken.symm
    exact ⟨start, [], before', ⟨start, [], outer', rest', rfl, rfl, .stop _ _,
      hlongest.blank_end (by simp), hblank⟩, (List.append_nil _).symm, fun hne => absurd rfl hne⟩
  · obtain ⟨start', more, rfl, hmore⟩ := h.walk_behind hwalk' hle
    obtain ⟨gap, hgap⟩ := hmore.exists_append
    have hfront : before ++ '\n' :: gap = front' := by
      rw [hgap, ← List.cons_append, ← List.append_assoc] at htext'
      exact List.append_cancel_right htext'
    have hgap' : before' = gap ++ inner' := by simpa [← hfront] using hbefore'
    exact ⟨start', more, inner', ⟨p', gap, outer', rest', hgap, hgap', hmore, hlongest', hr⟩, rfl,
      fun _ => rfl⟩

/-! ## Computing where a newline is -/

/-- Walk over a number of matches, or as far as there are any. -/
def walkFor : Nat → Position → List Char → List Lexeme × Position × List Char
  | 0, p, text => ([], p, text)
  | n + 1, p, text =>
    match munch text with
    | none => ([], p, text)
    | some m =>
      if m.token = .unterminatedString then ([], p, text)
      else
        let walked := walkFor n (p.advanceAll m.taken) m.rest
        if m.token.isSkipped then walked
        else (⟨m.token, String.ofList m.taken, p⟩ :: walked.1, walked.2)

theorem walkFor_walk (n : Nat) (p : Position) (text : List Char) :
    Walk p text (walkFor n p text).1 (walkFor n p text).2.1 (walkFor n p text).2.2 := by
  induction n generalizing p text with
  | zero => exact .stop p text
  | succ n ih =>
    unfold walkFor
    split
    · exact .stop p text
    · next m hm =>
      split
      · exact .stop p text
      · next hstring =>
        obtain ⟨q, hlongest, htoken⟩ := munch_isLongest hm
        have hq : q ≠ .unterminatedString := by
          rintro rfl
          exact hstring htoken
        have hsplit : Longest (m.taken ++ m.rest) q m.taken := by
          rw [m.taken_append_rest]
          exact hlongest
        have hwalk := Walk.cons hsplit hq (ih (p.advanceAll m.taken) m.rest)
        rw [m.taken_append_rest, Pattern.lexemes, ← htoken, ← Pattern.isSkipped_token q m.taken,
          ← htoken] at hwalk
        split at hwalk
        · next hskip =>
          rw [if_pos hskip]
          exact hwalk
        · next hskip =>
          rw [if_neg hskip]
          exact hwalk

/-- Walk as far as the match of the newline, and see what that is. -/
theorem Breaks.of_walkFor (n : Nat) (outer rest : List Char)
    (htext : text = before ++ '\n' :: (outer ++ rest))
    (hleft : (walkFor n start text).2.2 = inner ++ '\n' :: outer ++ rest)
    (hmunch : (munch (inner ++ '\n' :: outer ++ rest)).map (fun m => (m.token, m.taken))
      = some (r.token [], inner ++ '\n' :: outer)) (hr : r.isSkipped = true) :
    Breaks start text before (walkFor n start text).1 inner r := by
  have hwalk := walkFor_walk n start text
  rw [hleft] at hwalk
  obtain ⟨front, hfront⟩ := hwalk.exists_append
  obtain ⟨m, hm, hpair⟩ := Option.map_eq_some_iff.mp hmunch
  obtain ⟨htoken, htaken⟩ := Prod.mk.inj hpair
  obtain ⟨q, hlongest, hq⟩ := munch_isLongest hm
  have hqr : q = r := by
    rw [hq] at htoken
    cases r <;> cases hr <;> cases q <;> cases htoken <;> rfl
  subst hqr
  rw [htaken] at hlongest
  have hsame : before ++ '\n' :: (outer ++ rest) = front ++ inner ++ '\n' :: (outer ++ rest) := by
    rw [← htext, hfront, List.append_assoc, List.append_assoc, List.cons_append]
  have hbefore := List.append_cancel_right hsame
  exact ⟨_, front, outer, rest, hfront, hbefore, hwalk, hlongest, by rintro rfl; cases hr⟩

end Breaks

end Scripting
