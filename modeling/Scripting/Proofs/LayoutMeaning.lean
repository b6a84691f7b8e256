/-
What a submission means, however it is laid out.

Where two texts have the same lexemes, they are read as the same statements but for positions, or
refused for the same fault. If they are run in the same session, everything goes the same way: the
same is told, the same values are bound, and if one of them fails, so does the other, in code that
stands where the lexemes with the same index are, or in code that was there before.

Both runs are read off one run, in which the code of the submission is labelled with the indices of
lexemes, and older code with the positions that it has. Each of the two lists of lexemes gives the
labels a meaning.
-/
import Scripting.Proofs.Composition
import Scripting.Proofs.Layout

set_option autoImplicit false

namespace Scripting

open Grammar

/-! ## One tree for two -/

section Common

variable {R : Position → Position → Prop} {f f' : Position → Position}

theorem exists_common_of_forall₂ {α : Type} {V : α → α → Prop} {g g' : α → α} {xs ys : List α}
    (h : List.Forall₂ V xs ys) (hV : ∀ x ∈ xs, ∀ y, V x y → ∃ t, g t = x ∧ g' t = y) :
    ∃ ts : List α, ts.map g = xs ∧ ts.map g' = ys := by
  induction h with
  | nil => exact ⟨[], rfl, rfl⟩
  | cons hxy _ ih =>
    obtain ⟨hx, hxs⟩ := List.forall_mem_cons.mp hV
    obtain ⟨t, rfl, rfl⟩ := hx _ hxy
    obtain ⟨ts, rfl, rfl⟩ := ih hxs
    exact ⟨t :: ts, rfl, rfl⟩

theorem exists_common_of_rel {α : Type} {V : α → α → Prop} {g g' : α → α} {x y : Option α}
    (h : Option.Rel V x y) (hV : ∀ a ∈ x, ∀ b, V a b → ∃ t, g t = a ∧ g' t = b) :
    ∃ t : Option α, t.map g = x ∧ t.map g' = y := by
  cases h with
  | none => exact ⟨none, rfl, rfl⟩
  | some hab =>
    obtain ⟨t, rfl, rfl⟩ := hV _ rfl _ hab
    exact ⟨some t, rfl, rfl⟩

variable (hR : ∀ p p', R p p' → ∃ q, f q = p ∧ f' q = p')

include hR

/-- If every two positions that are related have a label, so have expressions that are alike. -/
theorem Expr.Alike.exists_common {e e' : Expr} (h : e.Alike R e') :
    ∃ t : Expr, t.relocate f = e ∧ t.relocate f' = e' := by
  induction e generalizing e' with
  | literal v p =>
    cases h with
    | literal _ hp =>
      obtain ⟨q, rfl, rfl⟩ := hR _ _ hp
      exact ⟨.literal v q, rfl, rfl⟩
  | var name p =>
    cases h with
    | var _ hp =>
      obtain ⟨q, rfl, rfl⟩ := hR _ _ hp
      exact ⟨.var name q, rfl, rfl⟩
  | unary op e p ih =>
    cases h with
    | unary _ he hp =>
      obtain ⟨q, rfl, rfl⟩ := hR _ _ hp
      obtain ⟨t, rfl, rfl⟩ := ih he
      exact ⟨.unary op t q, rfl, rfl⟩
  | binary op left right p ihl ihr =>
    cases h with
    | binary _ hl hr hp =>
      obtain ⟨q, rfl, rfl⟩ := hR _ _ hp
      obtain ⟨t, rfl, rfl⟩ := ihl hl
      obtain ⟨u, rfl, rfl⟩ := ihr hr
      exact ⟨.binary op t u q, rfl, rfl⟩
  | call callee arguments p ihc iha =>
    cases h with
    | call hc ha hp =>
      obtain ⟨q, rfl, rfl⟩ := hR _ _ hp
      obtain ⟨t, rfl, rfl⟩ := ihc hc
      obtain ⟨ts, rfl, rfl⟩ := exists_common_of_forall₂ ha fun x hx y hxy => iha x hx hxy
      exact ⟨.call t ts q, by simp [relocate, recast], by simp [relocate, recast]⟩
  | assign name e p ih =>
    cases h with
    | assign _ he hp =>
      obtain ⟨q, rfl, rfl⟩ := hR _ _ hp
      obtain ⟨t, rfl, rfl⟩ := ih he
      exact ⟨.assign name t q, rfl, rfl⟩
  | group e p ih =>
    cases h with
    | group he hp =>
      obtain ⟨q, rfl, rfl⟩ := hR _ _ hp
      obtain ⟨t, rfl, rfl⟩ := ih he
      exact ⟨.group t q, rfl, rfl⟩

/-- The same of statements. -/
theorem Stmt.Alike.exists_common {s s' : Stmt} (h : s.Alike R s') :
    ∃ t : Stmt, t.relocate f = s ∧ t.relocate f' = s' := by
  have hvalue : ∀ {e e' : Option Expr}, Option.Rel (Expr.Alike R) e e' →
      ∃ t : Option Expr, t.map (Expr.relocate f) = e ∧ t.map (Expr.relocate f') = e' :=
    fun h => exists_common_of_rel h fun _ _ _ hab => hab.exists_common hR
  induction s generalizing s' with
  | expression e p =>
    cases h with
    | expression he hp =>
      obtain ⟨q, rfl, rfl⟩ := hR _ _ hp
      obtain ⟨t, rfl, rfl⟩ := he.exists_common hR
      exact ⟨.expression t q, rfl, rfl⟩
  | declare name initial p =>
    cases h with
    | declare _ hinitial hp =>
      obtain ⟨q, rfl, rfl⟩ := hR _ _ hp
      obtain ⟨t, rfl, rfl⟩ := hvalue hinitial
      exact ⟨.declare name t q, rfl, rfl⟩
  | block body p ih =>
    cases h with
    | block hbody hp =>
      obtain ⟨q, rfl, rfl⟩ := hR _ _ hp
      obtain ⟨ts, rfl, rfl⟩ := exists_common_of_forall₂ hbody fun x hx y hxy => ih x hx hxy
      exact ⟨.block ts q, by simp [relocate, recast], by simp [relocate, recast]⟩
  | cond test yes no p ihy ihn =>
    cases h with
    | cond htest hyes hno hp =>
      obtain ⟨q, rfl, rfl⟩ := hR _ _ hp
      obtain ⟨t, rfl, rfl⟩ := htest.exists_common hR
      obtain ⟨u, rfl, rfl⟩ := ihy hyes
      obtain ⟨v, rfl, rfl⟩ := exists_common_of_rel hno fun x hx y hxy => ihn x hx hxy
      exact ⟨.cond t u v q, by simp [relocate, recast], by simp [relocate, recast]⟩
  | loop test body p ih =>
    cases h with
    | loop htest hbody hp =>
      obtain ⟨q, rfl, rfl⟩ := hR _ _ hp
      obtain ⟨t, rfl, rfl⟩ := htest.exists_common hR
      obtain ⟨u, rfl, rfl⟩ := ih hbody
      exact ⟨.loop t u q, rfl, rfl⟩
  | function name parameters body p ih =>
    cases h with
    | function _ _ hbody hp =>
      obtain ⟨q, rfl, rfl⟩ := hR _ _ hp
      obtain ⟨ts, rfl, rfl⟩ := exists_common_of_forall₂ hbody fun x hx y hxy => ih x hx hxy
      exact ⟨.function name parameters ts q, by simp [relocate, recast], by simp [relocate, recast]⟩
  | return_ value p =>
    cases h with
    | return_ hv hp =>
      obtain ⟨q, rfl, rfl⟩ := hR _ _ hp
      obtain ⟨t, rfl, rfl⟩ := hvalue hv
      exact ⟨.return_ t q, rfl, rfl⟩
  | print e p =>
    cases h with
    | print he hp =>
      obtain ⟨q, rfl, rfl⟩ := hR _ _ hp
      obtain ⟨t, rfl, rfl⟩ := he.exists_common hR
      exact ⟨.print t q, rfl, rfl⟩
  | break_ p =>
    cases h with
    | break_ hp =>
      obtain ⟨q, rfl, rfl⟩ := hR _ _ hp
      exact ⟨.break_ q, rfl, rfl⟩
  | continue_ p =>
    cases h with
    | continue_ hp =>
      obtain ⟨q, rfl, rfl⟩ := hR _ _ hp
      exact ⟨.continue_ q, rfl, rfl⟩

end Common

/-! ## Labels for two layouts -/

namespace Position

/-- The label of the lexeme with an index. -/
def ofIndex (i : Nat) : Position := ⟨2 * i + 1, 0⟩

/-- The place that a label stands for: that of the lexeme with an index, or one in older code. -/
def lookUp (ls : List Lexeme) (q : Position) : Position :=
  if q.line % 2 = 0 then ⟨q.line / 2, q.column⟩ else placeAt ls (q.line / 2)

theorem lookUp_older (ls : List Lexeme) (p : Position) : p.older.lookUp ls = p := by
  simp [lookUp, older]

theorem lookUp_ofIndex (ls : List Lexeme) (i : Nat) : (ofIndex i).lookUp ls = placeAt ls i := by
  have hindex : (2 * i + 1) / 2 = i := by omega
  simp [lookUp, ofIndex, hindex]

end Position

/-- The same place in older code, or those of two lexemes with the same index. -/
def SameCode (ls ls' : List Lexeme) (p p' : Position) : Prop := p = p' ∨ SamePlace ls ls' p p'

variable {ls ls' : List Lexeme}

theorem sameCode_lookUp (hlength : ls'.length = ls.length) (q : Position) :
    SameCode ls ls' (q.lookUp ls) (q.lookUp ls') := by
  unfold Position.lookUp
  by_cases heven : q.line % 2 = 0
  · rw [if_pos heven, if_pos heven]
    exact .inl rfl
  · rw [if_neg heven, if_neg heven]
    by_cases hin : q.line / 2 < ls.length
    · exact .inr ⟨q.line / 2, hin, rfl, rfl⟩
    · -- A label that is no index of either list stands for the same place in both.
      left
      rw [placeAt, placeAt, List.drop_of_length_le (by omega), List.drop_of_length_le (by omega)]

theorem exists_label {p p' : Position} (h : SamePlace ls ls' p p') :
    ∃ q : Position, q.lookUp ls = p ∧ q.lookUp ls' = p' := by
  obtain ⟨i, -, rfl, rfl⟩ := h
  exact ⟨.ofIndex i, Position.lookUp_ofIndex ls i, Position.lookUp_ofIndex ls' i⟩

/-! ## Submissions that are alike -/

/-- The same failure at places that are related by `R`. -/
inductive Failure.Alike (R : Position → Position → Prop) : Failure → Failure → Prop
  | parse (fault : ParseFault) {p p' : Position} : R p p' →
      Alike R (.parse ⟨fault, p⟩) (.parse ⟨fault, p'⟩)
  | runtime (fault : RuntimeFault) {p p' : Position} : R p p' →
      Alike R (.runtime ⟨fault, p⟩) (.runtime ⟨fault, p'⟩)

/-- The same session but for the positions in the bodies of functions, which are related by `R`:
there is one store for both, with labels that are looked up in two ways. -/
def Session.Alike (R : Position → Position → Prop) (s s' : Session) : Prop :=
  ∃ (store : Store) (f f' : Position → Position), (∀ q, R (f q) (f' q)) ∧
    s.store = store.relocate f ∧ s' = { s with store := store.relocate f' }

/-- Two submissions that have led to the same but for positions, which are related by `R`: the same
was told before the failure, the same listeners were told of it, and the sessions that are left have
the same values, which are printed in the same way. -/
structure Submission.Alike (R : Position → Position → Prop) (r r' : Submission) : Prop where
  failure : Option.Rel (Failure.Alike R) r.failure r'.failure
  told : ∃ told, r.Tells told r.failure ∧ r'.Tells told r'.failure
  heard : r'.heard.map (·.1) = r.heard.map (·.1)
  session : r.session.Alike R r'.session
  globals : r'.session.shownGlobals = r.session.shownGlobals

/-- Who is told, and who registers, does not depend on what the events are. -/
theorem Channel.emitAll_congr (c : Channel) {events events' : List Event}
    (h : events'.length = events.length) :
    (c.emitAll events').1.map (·.1) = (c.emitAll events).1.map (·.1) ∧
      (c.emitAll events').2 = (c.emitAll events).2 := by
  induction events generalizing c events' with
  | nil =>
    rw [List.eq_nil_of_length_eq_zero h]
    exact ⟨rfl, rfl⟩
  | cons e es ih =>
    obtain ⟨e', es', rfl⟩ := List.exists_cons_of_length_eq_add_one h
    have htags : (c.emit e').1.map (·.1) = (c.emit e).1.map (·.1) := by
      simp [emit, Function.comp_def]
    have hchannel : (c.emit e').2 = (c.emit e).2 := rfl
    obtain ⟨hheard, hlast⟩ := ih (c.emit e).2 (Nat.succ.inj h)
    rw [emitAll_cons, emitAll_cons, hchannel, List.map_append, List.map_append, htags, hheard]
    exact ⟨rfl, hlast⟩

namespace Session

variable {R : Position → Position → Prop} {s t t' : Session}

theorem Alike.shownGlobals (h : t.Alike R t') : t'.shownGlobals = t.shownGlobals := by
  obtain ⟨store, f, f', -, hstore, rfl⟩ := h
  have ht : t = { t with store := store.relocate f } := by rw [← hstore]
  rw [ht]
  exact (shownGlobals_relocate { t with store := store } f').trans
    (shownGlobals_relocate { t with store := store } f).symm

/-- Telling the same in sessions that are alike. -/
theorem conclude_alike (h : t.Alike R t') (told : List Event) {failure failure' : Option Failure}
    (hfailure : Option.Rel (Failure.Alike R) failure failure') :
    (t.conclude told failure).Alike R (t'.conclude told failure') := by
  have hglobals := h.shownGlobals
  obtain ⟨store, f, f', hR, hstore, rfl⟩ := h
  have hlength : (told ++ (failure'.map Event.failure).toList).length
      = (told ++ (failure.map Event.failure).toList).length := by
    cases hfailure <;> simp
  obtain ⟨hheard, hchannel⟩ := t.channel.emitAll_congr hlength
  refine ⟨hfailure, ⟨told, ⟨rfl, rfl⟩, rfl, rfl⟩, hheard, ⟨store, f, f', hR, hstore, ?_⟩, hglobals⟩
  dsimp only [conclude]
  rw [hchannel]

/-- What a machine leaves behind, its labels looked up in two ways. -/
theorem complete_alike (s : Session) (a : Answer) (w : World) {f f' : Position → Position}
    (hR : ∀ q, R (f q) (f' q)) :
    (s.complete ((Machine.reply a [] w).relocate f [])).Alike R
      (s.complete ((Machine.reply a [] w).relocate f' [])) := by
  have hsession : { s with store := w.store.relocate f, readings := w.readings }.Alike R
      { s with store := w.store.relocate f', readings := w.readings } :=
    ⟨w.store, f, f', hR, rfl, rfl⟩
  refine conclude_alike hsession (w.output ++ []).reverse ?_
  cases a with
  | error e =>
    refine .some ?_
    rw [Guise.error_elsewhere, Guise.error_elsewhere]
    exact .runtime e.fault (hR e.position)
  | _ => exact .none

theorem alike_self (hR : ∀ p, R p p) (s : Session) : s.Alike R s := by
  have hstore : s.store = (s.store.relocate id).relocate id :=
    (Store.relocate_cancel (fun _ => rfl) s.store).symm
  exact ⟨s.store.relocate id, id, id, hR, hstore, by rw [← hstore]⟩

/-- A submission in terms of the labelled program that it is read as. -/
theorem leadsTo_labelled {source : String} {r : Submission} {program : List Stmt}
    (h : read source = .ok (program.map (Stmt.relocate (·.lookUp ls)))) :
    s.LeadsTo source r ↔ ∃ a w, (Machine.ofProgram program s.config.echo s.globals
        (s.world.relocate .older [])).EndsIn a w ∧
      r = s.complete ((Machine.reply a [] w).relocate (·.lookUp ls) []) := by
  rw [leadsTo_of_read h]
  -- Older code is labelled with its positions, so that looking the labels up undoes it.
  have hstart : s.start (program.map (Stmt.relocate (·.lookUp ls)))
      = (Machine.ofProgram program s.config.echo s.globals
          (s.world.relocate .older [])).relocate (·.lookUp ls) [] :=
    (s.relocate_ofProgram program (Position.lookUp_older ls) []).symm
  rw [hstart]
  constructor
  · rintro ⟨a, w, hend, rfl⟩
    obtain ⟨b, v, hend, heq⟩ := Machine.endsIn_relocate_iff.mp hend
    exact ⟨b, v, hend, congrArg s.complete heq⟩
  · rintro ⟨a, w, hend, rfl⟩
    exact ⟨_, _, Machine.endsIn_relocate_iff.mpr ⟨a, w, hend, rfl⟩, rfl⟩

theorem read_eq {source : String} (hlex : tokenize source = .ok ls) :
    read source = (parse ls).mapError Failure.parse := by
  rw [read, hlex]
  dsimp only
  cases parse ls <;> rfl

section Layouts

variable {source source' : String} (h : SameButLayout ls ls') (hlex : tokenize source = .ok ls)
  (hlex' : tokenize source' = .ok ls')

include h hlex hlex'

/-- Both texts are refused for the same fault, or read as one labelled program. -/
theorem read_cases :
    (∃ fault p p', read source = .error (.parse ⟨fault, p⟩) ∧
        read source' = .error (.parse ⟨fault, p'⟩) ∧ SamePlace ls ls' p p') ∨
      ∃ program : List Stmt, read source = .ok (program.map (Stmt.relocate (·.lookUp ls))) ∧
        read source' = .ok (program.map (Stmt.relocate (·.lookUp ls'))) := by
  have hparse := parse_agree (h.corresponding (R := SamePlace ls ls') fun i hi => ⟨i, hi, rfl, rfl⟩)
  rw [read_eq hlex, read_eq hlex']
  rcases hparse.cases with ⟨statements, statements', hok, hok', hstatements⟩ |
    ⟨fault, p, p', herror, herror', hp⟩
  · right
    -- Every position in one of the trees has a label, the index of the lexeme that it belongs to.
    obtain ⟨program, hprogram, hprogram'⟩ := exists_common_of_forall₂ hstatements
      fun x _ y hxy => hxy.exists_common fun p p' hp => exists_label hp
    exact ⟨program, by rw [hok, hprogram]; rfl, by rw [hok', hprogram']; rfl⟩
  · left
    exact ⟨fault, p, p', by rw [herror]; rfl, by rw [herror']; rfl, hp⟩

theorem exists_leadsTo_iff : (∃ r, s.LeadsTo source r) ↔ ∃ r, s.LeadsTo source' r := by
  rcases read_cases h hlex hlex' with ⟨fault, p, p', hread, hread', -⟩ | ⟨program, hread, hread'⟩
  · simp [leadsTo_of_read_error hread, leadsTo_of_read_error hread']
  · simp only [leadsTo_labelled hread, leadsTo_labelled hread']
    constructor
    · rintro ⟨-, a, w, hend, -⟩
      exact ⟨_, a, w, hend, rfl⟩
    · rintro ⟨-, a, w, hend, -⟩
      exact ⟨_, a, w, hend, rfl⟩

theorem LeadsTo.alike {r r' : Submission} (hr : s.LeadsTo source r) (hr' : s.LeadsTo source' r') :
    r.Alike (SameCode ls ls') r' := by
  rcases read_cases h hlex hlex' with ⟨fault, p, p', hread, hread', hp⟩ | ⟨program, hread, hread'⟩
  · obtain rfl := (leadsTo_of_read_error hread).mp hr
    obtain rfl := (leadsTo_of_read_error hread').mp hr'
    exact conclude_alike (alike_self (fun p => .inl rfl) s) [] (.some (.parse fault (.inr hp)))
  · obtain ⟨a, w, hend, rfl⟩ := (leadsTo_labelled hread).mp hr
    obtain ⟨a', w', hend', rfl⟩ := (leadsTo_labelled hread').mp hr'
    -- Both have come from the one labelled run, and that has only one end.
    obtain ⟨rfl, rfl⟩ := hend.unique hend'
    exact complete_alike s a w (sameCode_lookUp h.length_eq)

end Layouts

/-- **Layout does not matter.** Take two lists of lexemes with the same tokens and texts, the end of
the input last, such that after each `return` the next lexeme is on the same line in both of them or
in neither. Then they are read as the same statements but for positions, or refused for the same
fault, and any two positions in the same place are those of lexemes with the same index. So two
texts with these lexemes, however white space, comments and line breaks are put between them,
mean the same in every session: one of them leads to something exactly if the other does, and what
they lead to differs at most in the positions of code. -/
theorem layout_keeps_meaning (h : SameButLayout ls ls') :
    Agree (SamePlace ls ls') (List.Forall₂ (Stmt.Alike (SamePlace ls ls'))) (parse ls) (parse ls') ∧
      ∀ (s : Session) (source source' : String), tokenize source = .ok ls →
        tokenize source' = .ok ls' →
        ((∃ r, s.LeadsTo source r) ↔ ∃ r', s.LeadsTo source' r') ∧
          ∀ r r', s.LeadsTo source r → s.LeadsTo source' r' → r.Alike (SameCode ls ls') r' := by
  refine ⟨parse_agree (h.corresponding fun i hi => ⟨i, hi, rfl, rfl⟩), ?_⟩
  intro s source source' hlex hlex'
  exact ⟨exists_leadsTo_iff h hlex hlex', fun r r' hr hr' => hr.alike h hlex hlex' hr'⟩

/-- A program on one line and on seven, with a comment: it calls a function that returns something,
and then fails at the same lexeme. -/
theorem one_line_or_seven :
    ∃ (ls ls' : List Lexeme) (r r' : Submission),
      let s := Session.new ⟨true, 4⟩ fun _ => 0
      let source := "fun f(a) \x7b return a \x7d f(nil); b"
      let source' := "fun f ( a )\n\x7b\n  return a // back\n\x7d\nf(nil)\n;\n/* and */ b"
      tokenize source = .ok ls ∧ tokenize source' = .ok ls' ∧ SameButLayout ls ls' ∧
        s.LeadsTo source r ∧ s.LeadsTo source' r' ∧ r.Alike (SameCode ls ls') r' ∧
        r.failure = some (.runtime ⟨.undefinedVariable "b", ⟨1, 31⟩⟩) ∧
        r'.failure = some (.runtime ⟨.undefinedVariable "b", ⟨7, 11⟩⟩) := by
  let s := Session.new ⟨true, 4⟩ fun _ => 0
  let source := "fun f(a) \x7b return a \x7d f(nil); b"
  let source' := "fun f ( a )\n\x7b\n  return a // back\n\x7d\nf(nil)\n;\n/* and */ b"
  have hlexemes : ((tokenize source).toOption.any fun ls =>
      (tokenize source').toOption.any fun ls' => decide (SameButLayout ls ls')) = true := by
    decide +kernel
  have hruns : ((s.submit 60 source).any fun r =>
      decide (r.failure = some (.runtime ⟨.undefinedVariable "b", ⟨1, 31⟩⟩))) = true := by
    decide +kernel
  have hruns' : ((s.submit 60 source').any fun r =>
      decide (r.failure = some (.runtime ⟨.undefinedVariable "b", ⟨7, 11⟩⟩))) = true := by
    decide +kernel
  obtain ⟨ls, hlex, hmore⟩ := exists_ok_of_any hlexemes
  obtain ⟨ls', hlex', hlayout⟩ := exists_ok_of_any hmore
  obtain ⟨r, hr, hfailure⟩ := (Option.any_eq_true _ _).mp hruns
  obtain ⟨r', hr', hfailure'⟩ := (Option.any_eq_true _ _).mp hruns'
  have hsame := of_decide_eq_true hlayout
  obtain ⟨-, hmeaning⟩ := layout_keeps_meaning hsame
  refine ⟨ls, ls', r, r', hlex, hlex', hsame, ⟨60, hr⟩, ⟨60, hr'⟩, ?_,
    of_decide_eq_true hfailure, of_decide_eq_true hfailure'⟩
  exact (hmeaning s source source' hlex hlex').2 r r' ⟨60, hr⟩ ⟨60, hr'⟩

end Session

end Scripting
