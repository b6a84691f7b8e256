/-
The global scope.

A session works in one scope that nothing it runs ever leaves. So whatever can be said of that scope
lasts for a whole run, if binding names does not change it. This is shown for any bond between the
stores of two runs: the bond may be strengthened by what its base is like.

It is used here to show that the global scope has no parent. A global name then means what the
global scope binds it to, and nothing else.
-/
import Scripting.Proofs.Transparency

set_option autoImplicit false

namespace Scripting

namespace Store

/-- The scope `g` is there, and it is like that. -/
def HasAt (store : Store) (g : ScopeId) (P : Scope → Prop) : Prop :=
  ∃ scope ∈ store.scopes, scope.id = g ∧ P scope

/-! ## What a scope is like -/

section HasAt

variable {store : Store} {g s : ScopeId} {P : Scope → Prop}

theorem HasAt.update (h : store.HasAt g P) (ho : store.Ordered) {f : Scope → Scope}
    (hid : ∀ scope, (f scope).id = scope.id) (hf : s = g → ∀ scope, P scope → P (f scope)) :
    (store.update s f).HasAt g P := by
  obtain ⟨scope, hscope, rfl, hP⟩ := h
  refine ⟨_, ho.mem_update.mpr ⟨scope, hscope, rfl⟩, ?_⟩
  split
  · next hs => exact ⟨hid scope, hf hs.symm scope hP⟩
  · exact ⟨rfl, hP⟩

theorem HasAt.newScope (h : store.HasAt g P) (parent : Option ScopeId) :
    (store.newScope parent).2.HasAt g P := by
  obtain ⟨scope, hscope, hid, hP⟩ := h
  exact ⟨scope, List.mem_cons_of_mem _ hscope, hid, hP⟩

theorem HasAt.leave (h : store.HasAt g P) (hne : g ≠ s) (hg : g ∉ store.vacated)
    (held : ScopeId → List Closure) : (store.leave held s).HasAt g P := by
  obtain ⟨scope, hscope, rfl, hP⟩ := h
  exact ⟨scope, mem_leave_of_ne held s hscope hne hg, rfl, hP⟩

/-- Parameters are bound in another scope. -/
theorem HasAt.bindParameters (h : store.HasAt g P) (ho : store.Ordered) (hne : s ≠ g)
    (parameters : List String) (arguments : List Value) :
    (Machine.bindParameters store s parameters arguments).HasAt g P := by
  unfold Machine.bindParameters
  induction parameters.zip arguments generalizing store with
  | nil => exact h
  | cons entry rest ih =>
    exact ih (h.update ho (fun _ => rfl) fun heq => absurd heq hne) (ho.define s entry.1 entry.2)

theorem HasAt.get? (h : store.HasAt g P) (ho : store.Ordered) {n : String} {v : Value}
    (hP : ∀ scope, P scope → scope.bindings.get? n = some v) : store.get? g n = some v := by
  obtain ⟨scope, hscope, rfl, hscopeP⟩ := h
  rw [get?_eq_findSome?, ho.chain_eq_cons hscope, List.findSome?_cons, hP scope hscopeP]

end HasAt

end Store

/-! ## Bonds that know more of their base -/

/-- A property of scopes that lasts while names in use are bound and functions are declared. -/
structure Scope.Lasting (uses : String → Prop) (P : Scope → Prop) : Prop where
  define : ∀ scope name v, uses name → P scope →
    P { scope with bindings := scope.bindings.set name v }
  declare : ∀ scope, P scope → P { scope with declares := true }

namespace Bond

/-- The bond, and the first store has the scope `g` like that. -/
def keeping (b : Bond) (g : ScopeId) (P : Scope → Prop) : Bond :=
  ⟨b.uses, fun r store other => b.holds r store other ∧ r.busy g ∧ store.HasAt g P⟩

variable {b : Bond} {g : ScopeId} {leaving' : Store.Leaving} {P : Scope → Prop}

/-- **A bond that lasts may be strengthened** by a lasting property of its base. -/
theorem Lasts.keeping (hb : b.Lasts g Store.leave leaving')
    (hordered : ∀ {r store other}, b.holds r store other → store.Ordered)
    (hvacated : ∀ {r store other}, b.holds r store other → r.busy g → g ∉ store.vacated)
    (hP : Scope.Lasting b.uses P) : (b.keeping g P).Lasts g Store.leave leaving' where
  busyLive h := hb.busyLive h.1
  knowsLive h := hb.knowsLive h.1
  lt_nextScope h := hb.lt_nextScope h.1
  nextScope h := hb.nextScope h.1
  nextFunction h := hb.nextFunction h.1
  get? h := hb.get? h.1
  define h hname hv :=
    ⟨hb.define h.1 hname hv, h.2.1, h.2.2.update (hordered h.1) (fun _ => rfl)
      fun _ scope hscope => hP.define scope _ _ hname hscope⟩
  assign? {r store other s name v} h hs hname hv := by
    obtain ⟨hbond, hbusy, hat⟩ := h
    rcases hb.assign? hbond hs hname hv with hnone | ⟨store', other', hown, hother, hafter⟩
    · exact .inl hnone
    · refine .inr ⟨store', other', hown, hother, hafter, hbusy, ?_⟩
      -- Assigning is defining in some scope.
      rw [(hordered hbond).assign?_eq] at hown
      obtain ⟨binder, -, rfl⟩ := Option.map_eq_some_iff.mp hown
      exact hat.update (hordered hbond) (fun _ => rfl)
        fun _ scope hscope => hP.define scope _ _ hname hscope
  newFunction {r store other s} name parameters body h hs := by
    refine ⟨hb.newFunction name parameters body h.1 hs, h.2.1, ?_⟩
    exact h.2.2.update (s := s) (hordered h.1) (f := fun scope => { scope with declares := true })
      (fun _ => rfl) fun _ scope hscope => hP.declare scope hscope
  enter {r store other parent} parameters arguments h hparent ha := by
    obtain ⟨hbond, hbusy, hat⟩ := h
    have hnew : (store.newScope (some parent)).2.Ordered := by
      refine (hordered hbond).newScope fun p hp => ?_
      cases hp
      exact hb.lt_nextScope hbond hparent
    have hne : store.nextScope ≠ g :=
      Nat.ne_of_gt (hb.lt_nextScope hbond (hb.busyLive hbond hbusy))
    exact ⟨hb.enter parameters arguments hbond hparent ha, .inl hbusy,
      (hat.newScope (some parent)).bindParameters hnew hne parameters arguments⟩
  leave {r store other s held} h hs hne hheld := by
    obtain ⟨hbond, hbusy, hat⟩ := h
    obtain ⟨r', hafter, hbusy', hknown, hfewer⟩ := hb.leave hbond hs hne hheld
    exact ⟨r', ⟨hafter, hbusy' g hbusy hne, hat.leave hne (hvacated hbond hbusy) _⟩, hbusy', hknown,
      hfewer⟩

/-- Runs of one machine, in which the base stays as it is. -/
theorem agree_keeping_lasts (hP : Scope.Lasting (fun _ => True) P) :
    (agree.keeping g P).Lasts g Store.leave Store.leave :=
  (agree_lasts g Store.leave_retains Store.leave_retains).keeping (fun h => Store.Agree.ordered h)
    (fun h hbusy hin => (Store.Agree.vacated h g hin).2 hbusy) hP

end Bond

/-! ## Sessions -/

namespace Session

/-- The function is bound in a scope that can be come by from the global one. -/
def Has (s : Session) (f : Closure) : Prop :=
  ∃ scope ∈ s.store.scopes, s.store.Reaches (· = s.globals) [] scope.id ∧
    ∃ x, (x, Value.function f) ∈ scope.bindings

/-- A session that a host can come to have: by submissions and settings, and by binding global names
to values, of which those that are functions can be come by in the session. -/
inductive Reachable : Session → Prop
  | new (config : Config) (clock : Nat → Float) : Reachable (Session.new config clock)
  | submit {s : Session} {fuel : Nat} {source : String} {r : Submission} :
      Reachable s → s.submit fuel source = some r → Reachable r.session
  | define {s : Session} (name : String) {v : Value} : Reachable s → v.Meets s.Has →
      Reachable (s.define name v)
  | setEcho {s : Session} (echo : Bool) : Reachable s → Reachable (s.setEcho echo)
  | listen {s : Session} (l : Listener) : Reachable s → Reachable (s.listen l)
  | reset {s : Session} : Reachable s → Reachable s.reset

/-- All that a session uses is in its store, and the global scope has no parent. -/
structure Rooted (s : Session) : Prop where
  inUse : ∃ r, Store.Agree r s.store s.store ∧ r.busy s.globals
  outermost : s.store.HasAt s.globals fun scope => scope.parent = none

theorem outermost_freshGlobals (store : Store) (h : store.Ordered) :
    (freshGlobals store).2.HasAt (freshGlobals store).1 fun scope => scope.parent = none := by
  have hnew : (store.newScope none).2.HasAt store.nextScope fun scope => scope.parent = none :=
    ⟨_, List.mem_cons_self, rfl, rfl⟩
  have hordered : (store.newScope none).2.Ordered := h.newScope fun p hp => by cases hp
  unfold freshGlobals Store.defineBuiltins
  dsimp only [Store.newScope] at hnew hordered ⊢
  generalize (⟨_, _, _, _⟩ : Store) = made at hnew hordered ⊢
  induction Builtin.all generalizing made with
  | nil => exact hnew
  | cons b rest ih =>
    refine ih _ (hnew.update hordered (fun _ => rfl) fun _ _ hp => hp) ?_
    exact hordered.define _ b.name (.builtin b)

namespace Rooted

variable {s : Session}

theorem twins (h : s.Rooted) : Twins s s := by
  obtain ⟨r, hagree, hbusy⟩ := h.inUse
  exact ⟨r, s.store, rfl, hagree, hbusy⟩

/-- A function that can be come by is known in the region in use. -/
theorem knows_of_has {r : Region} (hagree : Store.Agree r s.store s.store)
    (hbusy : r.busy s.globals) {f : Closure} (hf : s.Has f) : r.knows f := by
  obtain ⟨scope, hscope, hreached, x, hx⟩ := hf
  have hlive : r.live scope.id := by
    refine hagree.live_of_reaches (fun t ht => ?_) (fun v hv => (by cases hv)) hreached
    rw [ht]
    exact hagree.busyLive _ hbusy
  exact (hagree.covers hscope hlive).2.bindings _ hx

theorem define (h : s.Rooted) (name : String) {v : Value} (hv : v.Meets s.Has) :
    (s.define name v).Rooted := by
  obtain ⟨r, hagree, hbusy⟩ := h.inUse
  have hknown : r.Knows v := hv.imp fun f _ hf => knows_of_has hagree hbusy hf
  exact ⟨⟨r, hagree.define s.globals name hknown, hbusy⟩,
    h.outermost.update hagree.ordered (fun _ => rfl) fun _ _ hp => hp⟩

theorem reset (h : s.Rooted) : s.reset.Rooted := by
  obtain ⟨r, hagree, -⟩ := h.inUse
  exact ⟨(h.twins.reset Store.leave_retains Store.leave_retains).inUse,
    outermost_freshGlobals _ (Store.leave_retains.ordered _ _ hagree.ordered)⟩

theorem submit (h : s.Rooted) {fuel : Nat} {source : String} {r : Submission}
    (hr : s.submit fuel source = some r) : r.session.Rooted := by
  rcases read_cases_of_submit hr with ⟨f, -, rfl⟩ | ⟨program, -, -, rfl⟩
  -- Nothing is run.
  · exact ⟨h.inUse, h.outermost⟩
  · obtain ⟨region, hagree, hbusy⟩ := h.inUse
    let b := Bond.agree.keeping s.globals fun scope => scope.parent = none
    -- The machine is compared with itself, which says that it has all that it uses.
    have hbond : b.holds region s.store s.store := ⟨hagree, hbusy, h.outermost⟩
    have hstart : Follows b s.globals (s.start program) (s.start program) :=
      .start hbond hbusy (fun _ _ _ _ => trivial) fun _ _ _ _ _ _ => trivial
    have hrun := hstart.run fuel (Bond.agree_keeping_lasts ⟨fun _ _ _ _ hp => hp, fun _ hp => hp⟩)
    rw [← Machine.run_eq] at hrun
    obtain ⟨after, other, heq, hg, -⟩ := hrun
    have hsame : other = ((s.start program).run fuel).world.store :=
      (congrArg (fun m : Machine => m.world.store) heq).symm
    rw [hsame] at hg
    exact ⟨⟨after, hg.bond.1, hg.baseBusy⟩, hg.bond.2.2⟩

end Rooted

/-- **Every session that a host can come to have is rooted.** -/
theorem Reachable.rooted {s : Session} (h : s.Reachable) : s.Rooted := by
  induction h with
  | new config clock =>
    exact ⟨(new_twins config clock).inUse, outermost_freshGlobals _ Store.ordered_empty⟩
  | submit _ hr ih => exact ih.submit hr
  | define name _ hv ih => exact ih.define name hv
  | setEcho echo _ ih => exact ⟨ih.inUse, ih.outermost⟩
  | listen l _ ih => exact ⟨ih.inUse, ih.outermost⟩
  | reset _ ih => exact ih.reset

end Session

end Scripting
