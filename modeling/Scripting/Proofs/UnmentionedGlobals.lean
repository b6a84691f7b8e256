/-
Globals that are not mentioned do not matter.

If a name occurs neither in a submission nor in any function that the submission can come by, then
it makes no difference whether the name is bound in the global scope, and to what. The submission
ends in the same way, tells the same events and leaves the same bindings of all other names; and the
name is still bound to its value afterwards.

Two runs are compared, one with the name and one without. Neither asks for the name, so their stores
stay bonded: the store of the second run agrees with the store of the first run, once the name has
been taken out of that, on all that the runs work with. But the name may keep scopes alive that only
its value leads to, so the first store outlasts the second one. A run cannot get to these scopes.
-/
import Scripting.Proofs.Forgetting
import Scripting.Proofs.GlobalScope

set_option autoImplicit false

namespace Scripting

/-! ## Stores with and without the name -/

namespace Store

variable {g s : ScopeId} {n : String}

theorem bindParameters_without (store : Store) (h : s ≠ g) (parameters : List String)
    (arguments : List Value) :
    Machine.bindParameters (store.without g n) s parameters arguments
      = (Machine.bindParameters store s parameters arguments).without g n := by
  unfold Machine.bindParameters
  induction parameters.zip arguments generalizing store with
  | nil => rfl
  | cons entry rest ih =>
    have hfirst := store.define_without (n := n) (x := entry.1) (.inr h) entry.2
    exact (congrArg (fun later => rest.foldl _ later) hfirst).trans (ih _)

theorem Outlasts.bindParameters {store other : Store} (h : Outlasts g n store other) (hs : s ≠ g)
    (parameters : List String) (arguments : List Value) :
    Outlasts g n (Machine.bindParameters store s parameters arguments)
      (Machine.bindParameters other s parameters arguments) := by
  unfold Machine.bindParameters
  induction parameters.zip arguments generalizing store other with
  | nil => exact h
  | cons entry rest ih => exact ih (h.define (.inr hs) entry.2)

end Store

/-- The second store has what can be come by without the name, and the first one outlasts it. -/
structure Region.Forgets (r : Region) (g : ScopeId) (n : String) (store other : Store) : Prop where
  busy : r.busy g
  agree : Store.Agree r (store.without g n) other
  outlasts : Store.Outlasts g n store other

namespace Region.Forgets

variable {r : Region} {g : ScopeId} {n : String} {store other : Store}

theorem define (h : r.Forgets g n store other) {s : ScopeId} {x : String} (hx : x ≠ n) {v : Value}
    (hv : r.Knows v) : r.Forgets g n (store.define s x v) (other.define s x v) := by
  refine ⟨h.busy, ?_, h.outlasts.define (.inl hx) v⟩
  rw [← store.define_without (.inl hx)]
  exact h.agree.define s x hv

/-- Both stores have another name in the same place. -/
theorem assign? (h : r.Forgets g n store other) {s : ScopeId} (hs : r.live s) {x : String}
    (hx : x ≠ n) {v : Value} (hv : r.Knows v) :
    (store.assign? s x v = none ∧ other.assign? s x v = none) ∨
      ∃ store' other', store.assign? s x v = some store' ∧ other.assign? s x v = some other' ∧
        r.Forgets g n store' other' := by
  -- The chains are the same but for the name, so another name is found in the same scope.
  have hbinder : other.binder? s x = (store.binder? s x).map (Scope.without g n) := by
    rw [← store.binder?_without hx, Store.binder?, Store.binder?, (h.agree.chain s hs).1]
  rw [h.outlasts.ordered.assign?_eq, h.outlasts.otherOrdered.assign?_eq, hbinder]
  cases store.binder? s x with
  | none => exact .inl ⟨rfl, rfl⟩
  | some scope =>
    refine .inr ⟨_, _, rfl, rfl, ?_⟩
    dsimp only
    rw [Scope.id_without]
    exact h.define hx hv

theorem newFunction (h : r.Forgets g n store other) {s : ScopeId} (hs : r.live s) (name : String)
    (parameters : List String) (body : List Stmt) :
    (r.withFunction ⟨store.nextFunction, name, parameters, body, s⟩).Forgets g n
      (store.newFunction s name parameters body).2
      (other.newFunction s name parameters body).2 := by
  refine ⟨h.busy, ?_, h.outlasts.newFunction s name parameters body⟩
  rw [← store.newFunction_without]
  exact h.agree.newFunction hs name parameters body

/-- A parameter may have the name: it is bound in another scope. -/
theorem enter (h : r.Forgets g n store other) {parent : ScopeId} (hparent : r.live parent)
    (parameters : List String) {arguments : List Value} (ha : ∀ v ∈ arguments, r.Knows v) :
    (r.withScope store.nextScope).Forgets g n
      (Machine.bindParameters (store.newScope (some parent)).2 store.nextScope parameters arguments)
      (Machine.bindParameters (other.newScope (some parent)).2 store.nextScope parameters
        arguments) := by
  -- The new scope is not the one of the name, and it cannot have been left before.
  have hne : store.nextScope ≠ g := Nat.ne_of_gt (h.agree.lt_nextScope (h.agree.busyLive g h.busy))
  have hfresh : store.nextScope ∉ store.vacated :=
    fun hin => Nat.lt_irrefl _ (h.agree.vacated _ hin).1
  have hparents : ∀ p, some parent = some p → p < store.nextScope := by
    rintro p ⟨⟩
    exact h.agree.lt_nextScope hparent
  refine ⟨.inl h.busy, ?_, ?_⟩
  · rw [← Store.bindParameters_without _ hne, ← store.newScope_without]
    exact h.agree.enter hparent parameters ha
  · exact (h.outlasts.newScope h.agree.nextScope hfresh hparents).bindParameters hne parameters
      arguments

/-- **Leaving a scope in both stores.** What is reached is kept in the second store, and so in the
first one. -/
theorem leave (h : r.Forgets g n store other) {s : ScopeId} (hs : r.busy s) (hne : g ≠ s)
    {held : List Value} (hheld : ∀ v ∈ held, r.Knows v) :
    (r.reached other s held).Forgets g n (store.leave (functionsAmong held) s)
      (other.leave (functionsAmong held) s) := by
  have hlt : s < store.nextScope := h.agree.lt_nextScope (h.agree.busyLive s hs)
  -- The second store decides what stays: the first one may keep more, so the stores change places.
  have hleft := h.agree.symm.leave Store.leave_retains
    (h.agree.symm.lt_nextScope (h.agree.busyLive s hs)) hheld
  have houtlasts := h.outlasts.leave hne.symm (functionsAmong held)
  have hnext : (other.leave (functionsAmong held) s).nextScope = store.nextScope := by
    rw [Store.leave_retains.nextScope]
    exact h.agree.nextScope
  refine ⟨⟨h.busy, hne⟩, (hleft.exchange (houtlasts.ordered.without g n) ?_ ?_ ?_ ?_).symm,
    houtlasts⟩
  · rw [hnext]
    exact Store.leave_retains.nextScope store _ s
  · rw [Store.leave_retains.nextFunction]
    exact (Store.leave_retains.nextFunction store _ s).trans h.agree.nextFunction.symm
  · intro t ht
    rw [hnext]
    rcases Store.leave_retains.vacated ht with rfl | hold
    · exact ⟨hlt, fun hbusy => hbusy.2 rfl⟩
    · exact ⟨(h.agree.vacated t hold).1, fun hbusy => (h.agree.vacated t hold).2 hbusy.1⟩
  · exact fun scope hscope _ => houtlasts.scopes scope hscope

end Region.Forgets

/-- Stores with and without a name of the scope `g`; no other names are used. -/
def Bond.forgetting (g : ScopeId) (n : String) : Bond := ⟨(· ≠ n), fun r => r.Forgets g n⟩

/-- **The bond lasts** while the name is not used. -/
theorem Bond.forgetting_lasts (g : ScopeId) (n : String) :
    (Bond.forgetting g n).Lasts g Store.leave Store.leave where
  busyLive h hs := h.agree.busyLive _ hs
  knowsLive h hf := h.agree.knowsLive _ hf
  lt_nextScope h hs := h.agree.lt_nextScope hs
  nextScope h := h.agree.nextScope
  nextFunction h := h.agree.nextFunction
  get? {r store other s name} h hs hname := by
    rw [← store.get?_without hname]
    exact h.agree.get? hs name
  define h hname hv := h.define hname hv
  assign? h hs hname hv := h.assign? hs hname hv
  newFunction name parameters body h hs := h.newFunction hs name parameters body
  enter parameters _ h hparent ha := h.enter hparent parameters ha
  leave {r store other s held} h hs hne hheld := by
    refine ⟨_, h.leave hs hne hheld, fun t ht hts => ⟨ht, hts⟩, fun v hv => ?_, fun f hf => hf.1⟩
    exact (hheld v hv).reached fun f hf => .held (hf ▸ hv)

/-- A global scope that binds the name to a value. -/
def Scope.Names (n : String) (v : Value) (scope : Scope) : Prop :=
  scope.parent = none ∧ scope.bindings.get? n = some v

/-- The bond, with the name bound to a value in the first store. -/
def Bond.naming (g : ScopeId) (n : String) (v : Value) : Bond :=
  (Bond.forgetting g n).keeping g (Scope.Names n v)

theorem Bond.naming_lasts (g : ScopeId) (n : String) (v : Value) :
    (Bond.naming g n v).Lasts g Store.leave Store.leave := by
  refine (Bond.forgetting_lasts g n).keeping (fun h => h.outlasts.ordered)
    (fun h hbusy hin => (h.agree.vacated g hin).2 hbusy) ⟨fun scope x u hx hscope => ⟨hscope.1, ?_⟩,
      fun scope hscope => hscope⟩
  rw [Bindings.get?_set, if_neg (Ne.symm hx)]
  exact hscope.2

/-! ## Sessions -/

/-- The session with a global name unbound. -/
def Session.forget (s : Session) (n : String) : Session :=
  { s with store := s.store.without s.globals n }

/-- What a submission has led to in two sessions, of which the first one binds a global name and the
second one does not, is the same but for that name. -/
structure Submission.SameWithout (n : String) (v : Value) (r r' : Submission) : Prop where
  failure : r'.failure = r.failure
  events : r'.events = r.events
  heard : r'.heard = r.heard
  /-- The sessions can be told apart by their stores only, and make new scopes and functions under
  the same numbers. -/
  session : r'.session = { r.session with store := r'.session.store }
  nextScope : r'.session.store.nextScope = r.session.store.nextScope
  nextFunction : r'.session.store.nextFunction = r.session.store.nextFunction
  /-- The name is still bound to its value, or unbound. -/
  bound : r.session.get? n = some v
  unbound : r'.session.get? n = none
  /-- Every other global name means the same. -/
  others : ∀ x, x ≠ n → r'.session.get? x = r.session.get? x
  /-- Every scope of the second session is in the first one, with the same bindings of all other
  names. -/
  scopes : ∀ scope ∈ r'.session.store.scopes, scope ∈ (r.session.forget n).store.scopes
  /-- What the first session has more can be come by from the value of the name only. -/
  reached : ∀ scope ∈ (r.session.forget n).store.scopes,
    (r.session.forget n).store.Reaches (· = r.session.globals) [] scope.id →
    scope ∈ r'.session.store.scopes

namespace Session

variable {s : Session} {n : String} {v : Value}

/-- Sessions with bonded stores conclude a submission in the same way. -/
theorem sameWithout_conclude {r : Region} {other : Store}
    (h : (Bond.naming s.globals n v).holds r s.store other) (events : List Event)
    (failure : Option Failure) :
    (s.conclude events failure).SameWithout n v
      ({ s with store := other }.conclude events failure) := by
  obtain ⟨⟨hbusy, hagree, houtlasts⟩, -, hnames⟩ := h
  have hlive := hagree.busyLive _ hbusy
  refine ⟨rfl, rfl, rfl, rfl, hagree.nextScope, hagree.nextFunction,
    hnames.get? houtlasts.ordered fun scope hscope => hscope.2, ?_, fun x hx => ?_,
    houtlasts.scopes, fun scope hscope hreached => ?_⟩
  · -- The global scope has no parent, so it is all that is asked.
    obtain ⟨scope, hscope, hother, hid, -⟩ := hagree.common _ hlive
    obtain ⟨named, hnamed, rfl⟩ := Store.mem_without.mp hscope
    obtain ⟨global, hglobal, hglobalId, hparent, -⟩ := hnames
    have hsame : named = global := by
      refine houtlasts.ordered.eq_of_id_eq hnamed hglobal ?_
      rw [hglobalId, ← hid, Scope.id_without]
    subst hsame
    have hnone : (named.without s.globals n).bindings.get? n = none := by
      rw [Scope.without, if_pos hglobalId]
      exact Bindings.get?_without_self _
    have hchain := houtlasts.otherOrdered.chain_eq_cons hother
    rw [hid, Scope.parent_without, hparent] at hchain
    have hget : other.get? s.globals n = none := by
      rw [Store.get?_eq_findSome?, hchain, List.findSome?_cons, hnone]
      rfl
    exact hget
  · have hget := (hagree.get? hlive x).1
    rw [Store.get?_without _ hx] at hget
    exact hget
  · refine (hagree.covers hscope (hagree.live_of_reaches (fun t ht => ?_)
      (fun u hu => (by cases hu)) hreached)).1
    rw [ht]
    exact hlive

/-- So do sessions whose machines have run in step. -/
theorem sameWithout_complete {m m' : Machine}
    (h : Follows (Bond.naming s.globals n v) s.globals m m') (other : Store) :
    (s.complete m).SameWithout n v ({ s with store := other }.complete m') := by
  obtain ⟨r, left, rfl, hground, -⟩ := h
  exact sameWithout_conclude
    (s := { s with store := m.world.store, readings := m.world.readings }) hground.bond _ _

/-- The region that a session works with when a name is forgotten. -/
def regionWithout (s : Session) (n : String) : Region where
  live := (s.forget n).store.Reaches (· = s.globals) []
  busy := (· = s.globals)
  knows := (s.forget n).Has

section Forget

variable {r : Region} (hagree : Store.Agree r s.store s.store) (hbusy : r.busy s.globals)

include hagree hbusy

/-- What can be come by without the name can be come by with it. -/
theorem live_of_regionWithout {t : ScopeId} (ht : (s.regionWithout n).live t) : r.live t := by
  refine hagree.live_of_reaches (fun u hu => ?_) (fun u hu => (by cases hu)) ht.of_without
  rw [hu]
  exact hagree.busyLive _ hbusy

theorem knows_of_has_forget {f : Closure} (hf : (s.forget n).Has f) : r.knows f := by
  obtain ⟨scope, hscope, hreached, x, hx⟩ := hf
  obtain ⟨old, hold, rfl⟩ := Store.mem_without.mp hscope
  rw [Scope.id_without] at hreached
  exact Rooted.knows_of_has hagree hbusy
    ⟨old, hold, hreached.of_without, x, Scope.mem_bindings_of_without hx⟩

/-- The scopes that can be come by without the name hold nothing that cannot. -/
theorem covers_forget {scope : Scope} (hscope : scope ∈ s.store.scopes) (hcov : r.Covers scope)
    (hreached : (s.regionWithout n).live scope.id) :
    (s.regionWithout n).Covers (scope.without s.globals n) := by
  have hmem : scope.without s.globals n ∈ (s.forget n).store.scopes :=
    Store.mem_without.mpr ⟨scope, hscope, rfl⟩
  have hreached' : (s.forget n).store.Reaches (· = s.globals) []
      (scope.without s.globals n).id := by
    rw [Scope.id_without]
    exact hreached
  refine ⟨fun p hp => .parent hreached' hmem hp, ?_, ?_⟩
  · rintro ⟨x, u⟩ hx
    cases u with
    | function f => exact ⟨_, hmem, hreached', x, hx⟩
    | _ => trivial
  · intro f hf hid
    rw [Scope.id_without] at hid
    rw [Scope.declares_without]
    exact hcov.declares f (knows_of_has_forget hagree hbusy hf) hid

/-- So the store without the name has all that the region asks for. -/
theorem agree_forget :
    Store.Agree (s.regionWithout n) (s.forget n).store (s.forget n).store := by
  have hordered := hagree.ordered.without s.globals n
  have hvacated : ∀ t ∈ s.store.vacated, t < s.store.nextScope ∧ ¬ t = s.globals := by
    intro t ht
    refine ⟨(hagree.vacated t ht).1, ?_⟩
    rintro rfl
    exact (hagree.vacated _ ht).2 hbusy
  refine ⟨hordered, hordered, rfl, rfl, ?_, fun t ht => .root ht, ?_, hvacated, hvacated⟩
  · rintro f ⟨scope, hscope, hreached, x, hx⟩
    exact .bound hreached hscope (Scope.mem_functionsOf.mpr ⟨⟨x, hx⟩, rfl⟩)
  · intro t ht
    obtain ⟨scope, hscope, -, rfl, hcov⟩ :=
      hagree.common t (live_of_regionWithout hagree hbusy ht)
    have hmem : scope.without s.globals n ∈ (s.forget n).store.scopes :=
      Store.mem_without.mpr ⟨scope, hscope, rfl⟩
    exact ⟨_, hmem, hmem, Scope.id_without .., covers_forget hagree hbusy hscope hcov ht⟩

end Forget

/-- **Nothing in a session leads to a name that is forgotten.** -/
theorem naming_define (h : s.Rooted) (n : String) (v : Value) :
    (Bond.naming s.globals n v).holds (s.regionWithout n) (s.define n v).store
      (s.forget n).store := by
  obtain ⟨r, hagree, hbusy⟩ := h.inUse
  have hsame : (s.define n v).store.without s.globals n = (s.forget n).store :=
    s.store.without_define_self v
  have hordered := hagree.ordered.without s.globals n
  have hnamed : (s.define n v).store.HasAt s.globals (Scope.Names n v) := by
    obtain ⟨scope, hscope, hid, hparent⟩ := h.outermost
    refine ⟨_, hagree.ordered.mem_update.mpr ⟨scope, hscope, rfl⟩, ?_⟩
    rw [if_pos hid]
    exact ⟨hid, hparent, by rw [Bindings.get?_set, if_pos rfl]⟩
  refine ⟨⟨rfl, ?_, hagree.ordered.define s.globals n v, hordered, ?_, fun _ _ ht => ht⟩, rfl,
    hnamed⟩
  · rw [hsame]
    exact agree_forget hagree hbusy
  · rw [hsame]
    exact fun scope hscope => hscope

/-- **Globals that are not mentioned do not matter.** In a session that a host can come to have, let
a name be bound to any value, or let it be unbound. If the name occurs neither in a submission nor
in a function that can be come by from the other global names, then the submission ends in both
cases or in neither, with the same failure and the same events. It leaves the same scopes with the
same bindings, but for that name and for scopes that its value alone has kept alive. Where it was
bound it still has its value. -/
theorem unmentioned_global_irrelevant {s : Session} (hs : s.Reachable) (n : String) (v : Value)
    (fuel : Nat) (source : String)
    (hsource : ∀ program, read source = .ok program → ∀ stmt ∈ program, n ∉ stmt.names)
    (hfunctions : ∀ f, (s.forget n).Has f → ∀ stmt ∈ f.body, n ∉ stmt.names) :
    (s.define n v).get? n = some v ∧ (s.forget n).get? n = none ∧
      Option.Rel (Submission.SameWithout n v) ((s.define n v).submit fuel source)
        ((s.forget n).submit fuel source) := by
  have hbond := naming_define hs.rooted n v
  have hbefore := sameWithout_conclude (s := s.define n v) hbond [] none
  refine ⟨hbefore.bound, hbefore.unbound, ?_⟩
  have huses : ∀ {stmts : List Stmt}, (∀ stmt ∈ stmts, n ∉ stmt.names) →
      ∀ stmt ∈ stmts, ∀ x ∈ stmt.names, x ≠ n := by
    rintro stmts hstmts stmt hstmt x hx rfl
    exact hstmts stmt hstmt hx
  have hbegin : ∀ t : Session, t.begin source = (read source).map t.start := fun _ => rfl
  unfold submit
  rw [hbegin, hbegin]
  cases hread : read source with
  | error f => exact .some (sameWithout_conclude (s := s.define n v) hbond [] (some f))
  | ok program =>
    -- The runs stay in step, as neither of them asks for the name.
    have hrun := (Follows.start (s := s.define n v) hbond rfl (huses (hsource program hread))
      fun f hf => huses (hfunctions f hf)).run fuel (Bond.naming_lasts s.globals n v)
    rw [← Machine.run_eq, ← Machine.run_eq] at hrun
    have hafter := sameWithout_complete (s := s.define n v) hrun (s.forget n).store
    have hresult : (((s.forget n).start program).run fuel).result?
        = (((s.define n v).start program).run fuel).result? := hrun.result?
    dsimp only [Except.map]
    rw [hresult]
    cases (((s.define n v).start program).run fuel).result? with
    | none => exact .none
    | some a => exact .some hafter

/-- A function that counts its calls. The scope of the count does not bind it. -/
def ticking : String :=
  "fun first(a, b) \x7b return a \x7d\nfun counter() \x7b\n  let n = 0\n" ++
    "  fun next() \x7b n = n + 1 return n \x7d\n  return first(next, next = nil)\n\x7d\n" ++
    "let tick = counter()"

/-- The function is called and given up, and a scope is left. -/
def tickingOff : String := "print tick() + tick()\ntick = nil\n\x7b let a = 1 \x7d"

/-- A second name for a function that counts its calls. While the first is used, the second is not
noticed, although it alone keeps the scope of the count alive in the end. -/
theorem unmentioned_global_irrelevant_ticking :
    ∃ s v, Reachable s ∧ s.get? "tick" = some v ∧
      ((s.define "spare" v).submit 200 tickingOff).any (fun r =>
        (r.events.map Event.text == ["3", "nil"]) && (r.session.store.scopes.length == 2)) = true ∧
      ((s.forget "spare").submit 200 tickingOff).any (·.session.store.scopes.length == 1) = true ∧
      (s.define "spare" v).get? "spare" = some v ∧ (s.forget "spare").get? "spare" = none ∧
      Option.Rel (Submission.SameWithout "spare" v) ((s.define "spare" v).submit 200 tickingOff)
        ((s.forget "spare").submit 200 tickingOff) := by
  have hchecked : ((Session.new .standard fun _ => 0).submit 200 ticking).any (fun made =>
      (made.session.get? "tick").any fun v =>
        (made.session.forget "spare").store.scopes.all (fun scope =>
          scope.bindings.all fun entry =>
            decide (entry.2.Meets fun f => ∀ stmt ∈ f.body, "spare" ∉ stmt.names)) &&
        ((made.session.define "spare" v).submit 200 tickingOff).any (fun r =>
          (r.events.map Event.text == ["3", "nil"]) && (r.session.store.scopes.length == 2)) &&
        ((made.session.forget "spare").submit 200 tickingOff).any
          (·.session.store.scopes.length == 1)) = true := by
    decide +kernel
  have hread : (read tickingOff).toOption.all
      (fun program => program.all fun stmt => decide ("spare" ∉ stmt.names)) = true := by
    decide +kernel
  obtain ⟨made, hmade, hchecked⟩ := (Option.any_eq_true _ _).mp hchecked
  obtain ⟨v, hget, hchecked⟩ := (Option.any_eq_true _ _).mp hchecked
  rw [Bool.and_eq_true, Bool.and_eq_true] at hchecked
  obtain ⟨⟨hall, hwith⟩, hwithout⟩ := hchecked
  have hreachable := Reachable.submit (.new .standard fun _ => 0) hmade
  refine ⟨made.session, v, hreachable, hget, hwith, hwithout, ?_⟩
  apply unmentioned_global_irrelevant hreachable "spare" v
  · intro program hprogram stmt hstmt
    rw [hprogram] at hread
    exact of_decide_eq_true (List.all_eq_true.mp hread stmt hstmt)
  · -- No function of the session mentions the name, whether it can be come by or not.
    rintro f ⟨scope, hscope, -, x, hentry⟩
    have hscope := List.all_eq_true.mp hall scope hscope
    have hmeets := of_decide_eq_true (List.all_eq_true.mp hscope _ hentry)
    exact hmeets

end Session

end Scripting
