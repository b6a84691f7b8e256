/-
Where a block comment ends.

Inside of a comment a star takes the next character with it, unless that is the slash that closes
the comment. So the stars of a run are taken in pairs, and what stands behind the run is
reached by an unpaired star only if their number is odd. A comment ends at the first run of an odd
number of stars that has a slash right behind it; behind an even one the slash is only a character.

A text is taken apart into its leading run of stars, the character behind the run, and the rest:
`afterBlockComment_run` says what reading does with such a piece, and `closingRun_piece` where the
closing runs of the whole text are. The comparison of the two is by induction on the length.
-/
import Mathlib.Algebra.Ring.Parity
import Scripting.Proofs.MaximalMunch

set_option autoImplicit false

namespace Scripting

/-! ## Runs of stars -/

/-- So many stars. -/
def starRun (n : Nat) : List Char := List.replicate n '*'

theorem starRun_succ (n : Nat) : starRun (n + 1) = '*' :: starRun n := List.replicate_succ

/-- A text is a run of stars, or one with another character behind it. -/
theorem exists_starRun (text : List Char) :
    (∃ n, text = starRun n) ∨
      ∃ n c rest, c ≠ '*' ∧ text = starRun n ++ c :: rest := by
  induction text with
  | nil => exact .inl ⟨0, rfl⟩
  | cons d text ih =>
    by_cases hd : d = '*'
    · subst hd
      rcases ih with ⟨n, rfl⟩ | ⟨n, c, rest, hc, rfl⟩
      · exact .inl ⟨n + 1, (starRun_succ n).symm⟩
      · exact .inr ⟨n + 1, c, rest, hc, by rw [starRun_succ, List.cons_append]⟩
    · exact .inr ⟨0, d, text, hd, rfl⟩

/-- What stands behind the stars at the front tells how many there are. -/
theorem starRun_append_inj {n m : Nat} {c d : Char} {rest rest' : List Char} (hc : c ≠ '*')
    (hd : d ≠ '*') (h : starRun n ++ c :: rest = starRun m ++ d :: rest') :
    n = m ∧ c = d ∧ rest = rest' := by
  induction n generalizing m with
  | zero =>
    cases m with
    | zero =>
      cases h
      exact ⟨rfl, rfl, rfl⟩
    | succ m =>
      rw [starRun_succ] at h
      exact absurd (List.cons.inj h).1 hc
  | succ n ih =>
    cases m with
    | zero =>
      rw [starRun_succ] at h
      exact absurd (List.cons.inj h).1.symm hd
    | succ m =>
      rw [starRun_succ, starRun_succ] at h
      obtain ⟨rfl, hrest⟩ := ih (List.cons.inj h).2
      exact ⟨rfl, hrest⟩

/-- A maximal run of stars in a text, of odd length and with a slash right behind it: what stands
in front of the run, the number of its stars, and what is left behind the slash. -/
structure ClosingRun (text front : List Char) (stars : Nat) (rest : List Char) : Prop where
  split : text = front ++ (starRun stars ++ '/' :: rest)
  odd : Odd stars
  maximal : front.getLast? ≠ some '*'

/-- The closing run that begins first. -/
structure FirstClosingRun (text front : List Char) (stars : Nat) (rest : List Char) : Prop
    extends ClosingRun text front stars rest where
  first : ∀ front' stars' rest', ClosingRun text front' stars' rest' →
    front.length ≤ front'.length

/-! ## Closing runs by pieces -/

section Pieces

variable {n : Nat} {c : Char} {rest : List Char}

/-- What stands in front of a maximal run is not a run itself. -/
theorem eq_zero_of_getLast_ne_star {k : Nat} (h : (starRun k).getLast? ≠ some '*') : k = 0 := by
  cases k with
  | zero => rfl
  | succ k =>
    rw [starRun, List.getLast?_replicate, if_neg (Nat.succ_ne_zero k)] at h
    exact absurd rfl h

/-- Stars alone have no slash behind them. -/
theorem not_closingRun_starRun {front left : List Char} {stars : Nat} :
    ¬ ClosingRun (starRun n) front stars left := by
  intro h
  have hin : '/' ∈ starRun n := by
    rw [h.split]
    simp
  exact absurd (List.eq_of_mem_replicate hin) (by decide)

/-- A front of the text ends among its leading stars, or behind the character that follows
them. -/
theorem front_cases {front behind : List Char} (h : front ++ behind = starRun n ++ c :: rest) :
    (∃ k, front = starRun k) ∨
      ∃ front', front = starRun n ++ c :: front' ∧ front' ++ behind = rest := by
  rcases List.append_eq_append_iff.mp h with ⟨more, hstars, -⟩ | ⟨more, rfl, hmore⟩
  · refine .inl ⟨front.length, ?_⟩
    apply List.eq_replicate_iff.mpr ⟨rfl, fun d hd => ?_⟩
    apply List.eq_of_mem_replicate (n := n)
    rw [← starRun, hstars]
    exact List.mem_append_left _ hd
  · cases more with
    | nil => exact .inl ⟨n, List.append_nil _⟩
    | cons d front' =>
      cases hmore
      exact .inr ⟨front', rfl, rfl⟩

/-- **Closing runs by pieces.** Those of a text are its leading run, if it closes, and those of what
stands behind the first other character. -/
theorem closingRun_piece (hc : c ≠ '*') {front left : List Char} {stars : Nat} :
    ClosingRun (starRun n ++ c :: rest) front stars left ↔
      (front = [] ∧ stars = n ∧ Odd n ∧ c = '/' ∧ left = rest) ∨
        ∃ front', front = starRun n ++ c :: front' ∧ ClosingRun rest front' stars left := by
  constructor
  · rintro ⟨hsplit, hodd, hmaximal⟩
    rcases front_cases hsplit.symm with ⟨k, rfl⟩ | ⟨front', rfl, rfl⟩
    · obtain rfl := eq_zero_of_getLast_ne_star hmaximal
      obtain ⟨rfl, hslash, hrest⟩ := starRun_append_inj hc (by decide) hsplit
      exact .inl ⟨rfl, rfl, hodd, hslash, hrest.symm⟩
    · refine .inr ⟨front', rfl, rfl, hodd, fun hlast => hmaximal ?_⟩
      rw [List.getLast?_append, List.getLast?_cons, hlast]
      rfl
  · rintro (⟨rfl, rfl, hodd, rfl, rfl⟩ | ⟨front', rfl, hrun⟩)
    · exact ⟨rfl, hodd, by simp⟩
    · refine ⟨by rw [hrun.split]; simp, hrun.odd, ?_⟩
      rw [List.getLast?_append, List.getLast?_cons]
      cases hlast : front'.getLast? with
      | none => simpa using hc
      | some d =>
        have hd := hrun.maximal
        rw [hlast] at hd
        simpa using hd

/-- A leading run that closes is the first. -/
theorem firstClosingRun_leading (hodd : Odd n) :
    FirstClosingRun (starRun n ++ '/' :: rest) [] n rest where
  split := rfl
  odd := hodd
  maximal := by simp
  first _ _ _ _ := Nat.zero_le _

/-- If the leading run does not close, the first closing run is that of what comes later. -/
theorem FirstClosingRun.behind (hc : c ≠ '*') (hnot : ¬ (Odd n ∧ c = '/'))
    {front left : List Char} {stars : Nat} (h : FirstClosingRun rest front stars left) :
    FirstClosingRun (starRun n ++ c :: rest) (starRun n ++ c :: front) stars left where
  toClosingRun := (closingRun_piece hc).mpr (.inr ⟨front, rfl, h.toClosingRun⟩)
  first front' stars' rest' h' := by
    rcases (closingRun_piece hc).mp h' with ⟨-, -, hodd, hslash, -⟩ | ⟨front'', rfl, hrun⟩
    · exact absurd ⟨hodd, hslash⟩ hnot
    · simpa using h.first front'' stars' rest' hrun

end Pieces

/-! ## Reading by pieces -/

/-- Two stars are taken together. -/
theorem afterBlockComment_pair (rest : List Char) :
    afterBlockComment ('*' :: '*' :: rest) = afterBlockComment rest :=
  afterBlockComment_star (by decide) rest

/-- A comment that goes on with stars only is not closed. By induction, two stars at a time. -/
theorem afterBlockComment_starRun (n : Nat) : afterBlockComment (starRun n) = none := by
  induction n using Nat.twoStepInduction with
  | zero => rfl
  | one => rfl
  | more n ih _ => rw [starRun_succ, starRun_succ, afterBlockComment_pair, ih]

/-- **Reading by pieces.** An odd run with a slash behind it closes the comment; any other run is
passed over with the character behind it. By induction, two stars at a time. -/
theorem afterBlockComment_run {n : Nat} {c : Char} (hc : c ≠ '*') (rest : List Char) :
    afterBlockComment (starRun n ++ c :: rest)
      = if Odd n ∧ c = '/' then some rest else afterBlockComment rest := by
  induction n using Nat.twoStepInduction with
  | zero =>
    rw [if_neg fun h => absurd h.1 (by decide)]
    exact afterBlockComment_cons hc rest
  | one =>
    by_cases hslash : c = '/'
    · subst hslash
      rw [if_pos ⟨odd_one, rfl⟩]
      rfl
    · rw [if_neg fun h => hslash h.2]
      exact afterBlockComment_star hslash rest
  | more n ih _ =>
    have hparity : Odd (n + 2) ↔ Odd n := by
      rw [Nat.odd_add, iff_true_right (by decide : Even 2)]
    rw [starRun_succ, starRun_succ, List.cons_append, List.cons_append, afterBlockComment_pair, ih]
    simp only [hparity]

/-- A comment is closed at the first closing run of what it goes on with, and is not closed if there
is none. By induction on the length, one piece at a time. -/
theorem afterBlockComment_spec (text : List Char) :
    (∃ front stars rest, FirstClosingRun text front stars rest ∧
        afterBlockComment text = some rest) ∨
      (∀ front stars rest, ¬ ClosingRun text front stars rest) ∧
        afterBlockComment text = none := by
  induction hn : text.length using Nat.strongRecOn generalizing text with
  | ind m ih =>
    rcases exists_starRun text with ⟨n, rfl⟩ | ⟨n, c, rest, hc, rfl⟩
    · exact .inr ⟨fun _ _ _ => not_closingRun_starRun, afterBlockComment_starRun n⟩
    · rw [afterBlockComment_run hc]
      by_cases hcloses : Odd n ∧ c = '/'
      · obtain ⟨hodd, rfl⟩ := hcloses
        exact .inl ⟨[], n, rest, firstClosingRun_leading hodd, if_pos ⟨hodd, rfl⟩⟩
      · have hlt : rest.length < m := by
          rw [← hn, List.length_append, List.length_cons]
          omega
        rw [if_neg hcloses]
        rcases ih rest.length hlt rest rfl with ⟨front, stars, left, hfirst, hread⟩ | ⟨hnone, hread⟩
        · exact .inl ⟨_, stars, left, hfirst.behind hc hcloses, hread⟩
        · refine .inr ⟨fun front stars left h => ?_, hread⟩
          rcases (closingRun_piece hc).mp h with ⟨-, -, hodd, hslash, -⟩ | ⟨front', -, hrun⟩
          · exact hcloses ⟨hodd, hslash⟩
          · exact hnone front' stars left hrun

/-! ## The comment -/

/-- The comment that goes on with `front` and is closed behind so many stars. -/
def closedComment (front : List Char) (stars : Nat) : List Char :=
  '/' :: '*' :: (front ++ (starRun stars ++ ['/']))

/-- A block comment stands at the front of a text. -/
def CommentAt (text taken : List Char) : Prop :=
  taken ∈ Pattern.blockComment.language ∧ taken <+: text

/-- What is taken from the front of a text is told by what is left. -/
theorem commentAt_iff {body taken : List Char} :
    CommentAt ('/' :: '*' :: body) taken ↔
      ∃ rest, afterBlockComment body = some rest ∧ taken ++ rest = '/' :: '*' :: body := by
  constructor
  · rintro ⟨hmem, hfront⟩
    obtain ⟨inner, hinner, rfl⟩ := Pattern.mem_blockComment.mp hmem
    have hbody := (List.cons_prefix_cons.mp (List.cons_prefix_cons.mp hfront).2).2
    obtain ⟨rest, hread, rfl⟩ := afterBlockComment_of_front hinner hbody
    exact ⟨rest, hread, by simp⟩
  · rintro ⟨rest, hread, htaken⟩
    obtain ⟨inner, hinner, rfl⟩ := commented_of_afterBlockComment hread
    have hsplit : taken ++ rest = '/' :: '*' :: (inner ++ ['*', '/']) ++ rest := by
      rw [htaken]
      simp
    have htext := List.append_cancel_right hsplit
    exact ⟨Pattern.mem_blockComment.mpr ⟨inner, hinner, htext⟩, rest, htaken⟩

theorem ClosingRun.closedComment_append {body front rest : List Char} {stars : Nat}
    (h : ClosingRun body front stars rest) :
    closedComment front stars ++ rest = '/' :: '*' :: body := by
  rw [h.split]
  simp [closedComment]

/-- A comment that is closed is the longest match. -/
theorem ClosingRun.longest {body front rest : List Char} {stars : Nat}
    (h : ClosingRun body front stars rest) (hread : afterBlockComment body = some rest) :
    Longest ('/' :: '*' :: body) .blockComment (closedComment front stars) := by
  obtain ⟨p, hp, htoken⟩ := blockComment_isLongest hread
  have hcomment : p = .blockComment := by
    cases p <;> first | rfl | cases htoken
  subst hcomment
  -- What is left behind the two comments is the same, so they are.
  obtain ⟨rest', hread', htaken⟩ := commentAt_iff.mp ⟨hp.mem, hp.front⟩
  rw [hread] at hread'
  cases hread'
  have hsame := List.append_cancel_right (htaken.trans h.closedComment_append.symm)
  rwa [hsame] at hp

/-- Where no comment is closed, the slash is the longest match. -/
theorem longest_slash {body : List Char} (hread : afterBlockComment body = none) :
    Longest ('/' :: '*' :: body) (.symbol .slash) ['/'] := by
  have hlongest : (Munch.first (.symbol .slash) 0 '/' ('*' :: body)).IsLongest := by
    apply slash_isLongest
    · intro ds hds
      cases hds
    · intro ds hds
      cases hds
      exact hread
  obtain ⟨p, hp, htoken⟩ := hlongest
  have hslash : p = .symbol .slash := by
    cases p <;> first | cases htoken; rfl | cases htoken
  rwa [hslash] at hp

/-- **Where a block comment ends.** Take a place in a source text that holds the two marks of an
opening comment. A block comment matches there exactly if what stands behind the marks has a maximal
run of an odd number of stars with a slash right behind it. If so, it is the only block comment
there, it ends with the slash behind the first such run, no token there is longer, and the reading
leaves it out and goes on behind it. If not, the longest match is the slash, and the reading makes a
lexeme of it and goes on with the star. -/
theorem blockComment_ends (source : String) (offset : Nat) (body : List Char)
    (h : source.toList.drop offset = '/' :: '*' :: body) :
    ((∃ taken, CommentAt (source.toList.drop offset) taken) ↔
        ∃ front stars rest, ClosingRun body front stars rest) ∧
      ((∃ front stars rest, ClosingRun body front stars rest) →
        ∃ front stars rest, FirstClosingRun body front stars rest ∧
          (∀ taken, CommentAt (source.toList.drop offset) taken ↔
            taken = closedComment front stars) ∧
          Longest (source.toList.drop offset) .blockComment (closedComment front stars) ∧
          ∀ index start read, tokenizeFrom index start read (source.toList.drop offset)
            = tokenizeFrom index (start + byteLength (closedComment front stars)) read rest) ∧
      ((¬ ∃ front stars rest, ClosingRun body front stars rest) →
        Longest (source.toList.drop offset) (.symbol .slash) ['/'] ∧
          ∀ index start read, tokenizeFrom index start read (source.toList.drop offset)
            = tokenizeFrom index (start + 1) (⟨.symbol .slash, "/", index.position start⟩ :: read)
                ('*' :: body)) := by
  rw [h]
  rcases afterBlockComment_spec body with ⟨front, stars, rest, hfirst, hread⟩ | ⟨hnone, hread⟩
  · have hclosing : ∃ front stars rest, ClosingRun body front stars rest :=
      ⟨front, stars, rest, hfirst.toClosingRun⟩
    have htext := hfirst.closedComment_append
    have hlongest := hfirst.longest hread
    refine ⟨⟨fun _ => hclosing, fun _ => ⟨_, commentAt_iff.mpr ⟨rest, hread, htext⟩⟩⟩,
      fun _ => ⟨front, stars, rest, hfirst, fun taken => ⟨fun htaken => ?_, ?_⟩, hlongest,
        fun index start read => ?_⟩, fun hnot => absurd hclosing hnot⟩
    · obtain ⟨rest', hread', htaken⟩ := commentAt_iff.mp htaken
      rw [hread] at hread'
      cases hread'
      exact List.append_cancel_right (htaken.trans htext.symm)
    · rintro rfl
      exact commentAt_iff.mpr ⟨rest, hread, htext⟩
    · rw [← htext] at hlongest ⊢
      exact tokenizeFrom_of_longest hlongest (by decide)
  · have hclosing : ¬ ∃ front stars rest, ClosingRun body front stars rest :=
      fun ⟨front, stars, rest, hrun⟩ => hnone front stars rest hrun
    refine ⟨⟨fun ⟨taken, htaken⟩ => ?_, fun hrun => absurd hrun hclosing⟩,
      fun hrun => absurd hrun hclosing, fun _ => ⟨longest_slash hread, fun index start read => ?_⟩⟩
    · obtain ⟨rest, hread', -⟩ := commentAt_iff.mp htaken
      rw [hread] at hread'
      cases hread'
    · have hlongest : Longest (['/'] ++ '*' :: body) (.symbol .slash) ['/'] := longest_slash hread
      exact tokenizeFrom_of_longest hlongest (by decide)

/-- The two stars behind `x` do not close the comment, the three behind `y` do. -/
theorem blockComment_ends_behind_odd_run :
    "1 /* x **/ y ***/ z".toList.drop 2 = '/' :: '*' :: " x **/ y ***/ z".toList ∧
      ∃ taken, CommentAt ("1 /* x **/ y ***/ z".toList.drop 2) taken := by
  have hplace : "1 /* x **/ y ***/ z".toList.drop 2 = '/' :: '*' :: " x **/ y ***/ z".toList := rfl
  have hrun : ClosingRun " x **/ y ***/ z".toList " x **/ y ".toList 3 " z".toList :=
    ⟨rfl, by decide, by decide⟩
  exact ⟨hplace, (blockComment_ends _ _ _ hplace).1.mpr ⟨_, _, _, hrun⟩⟩

end Scripting
