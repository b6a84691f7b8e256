/-
Machines that differ only in their stores run in step.

Two machines do the same thing in every step, and only their stores may be different. They make the
same moves, as the stores have no part in that; and every effect comes to the same, if the stores
are *bonded*: they look the same names up, find the same values, fail in the same places and tell
the same events. What a bond has to keep up is said once, for each operation on stores. That they
agree on a region is a bond, whichever way each of the machines leaves its scopes, as long as what
is reached is retained.

The invariant has two parts. All that the control and the frames mention is inside of the region
of the bond. And below the frame that leaves a scope nothing works in that scope any
more: the frames there were pushed before it was made.
-/
import Scripting.Proofs.Agreement
import Scripting.Proofs.Steps
import Scripting.Proofs.Trees

set_option autoImplicit false

namespace Scripting

/-! ## The names in code -/

namespace Code

/-- The names that occur in code. -/
def names : Code → List String
  | .statement s => s.names
  | .expression e => e.names

theorem mem_names_of_part {code part : Code} (hpart : part ∈ code.parts) {x : String}
    (hx : x ∈ part.names) : x ∈ code.names := by
  -- The expression that a statement may have.
  have hoptional : ∀ {e : Option Expr}, part ∈ e.toList.map Code.expression →
      x ∈ Expr.namesIfAny e := by
    intro e he
    obtain ⟨found, hfound, rfl⟩ := List.mem_map.mp he
    obtain rfl := Option.mem_toList.mp hfound
    exact hx
  cases code with
  | expression e =>
    cases e with
    | literal | var => cases hpart
    | unary | group =>
      obtain rfl := List.mem_singleton.mp hpart
      exact hx
    | assign name e p =>
      obtain rfl := List.mem_singleton.mp hpart
      exact List.mem_cons_of_mem _ hx
    | binary op left right p =>
      rcases List.mem_cons.mp hpart with rfl | hpart
      · exact List.mem_append_left _ hx
      · obtain rfl := List.mem_singleton.mp hpart
        exact List.mem_append_right _ hx
    | call callee arguments p =>
      rcases List.mem_cons.mp hpart with rfl | hpart
      · exact List.mem_append_left _ hx
      · obtain ⟨e, he, rfl⟩ := List.mem_map.mp hpart
        exact List.mem_append_right _ (Expr.mem_namesOfEach.mpr ⟨e, he, hx⟩)
  | statement s =>
    cases s with
    | expression | print =>
      obtain rfl := List.mem_singleton.mp hpart
      exact hx
    | declare name initial p => exact List.mem_cons_of_mem _ (hoptional hpart)
    | return_ value p => exact hoptional hpart
    | cond test yes no p =>
      rcases List.mem_cons.mp hpart with rfl | hpart
      · exact List.mem_append_left _ hx
      · refine List.mem_append_right _ ?_
        rcases List.mem_cons.mp hpart with rfl | hpart
        · exact List.mem_append_left _ hx
        · obtain ⟨found, hfound, rfl⟩ := List.mem_map.mp hpart
          obtain rfl := Option.mem_toList.mp hfound
          exact List.mem_append_right _ hx
    | loop test body p =>
      rcases List.mem_cons.mp hpart with rfl | hpart
      · exact List.mem_append_left _ hx
      · obtain rfl := List.mem_singleton.mp hpart
        exact List.mem_append_right _ hx
    | block | function | break_ | continue_ => cases hpart

end Code

/-! ## Bonds -/

/-- A relation between the stores of two machines that work in a region and use none but some names.
-/
structure Bond where
  uses : String → Prop
  holds : Region → Store → Store → Prop

/-- What the machines ask of their stores comes to the same, and the bond goes on to hold. The
scope `base` is not left. -/
structure Bond.Lasts (b : Bond) (base : ScopeId) (leaving leaving' : Store.Leaving) : Prop where
  busyLive {r : Region} {store other : Store} {s : ScopeId} : b.holds r store other → r.busy s →
    r.live s
  knowsLive {r : Region} {store other : Store} {f : Closure} : b.holds r store other →
    r.knows f → r.live f.scope
  lt_nextScope {r : Region} {store other : Store} {s : ScopeId} : b.holds r store other →
    r.live s → s < store.nextScope
  nextScope {r : Region} {store other : Store} : b.holds r store other →
    other.nextScope = store.nextScope
  nextFunction {r : Region} {store other : Store} : b.holds r store other →
    other.nextFunction = store.nextFunction
  get? {r : Region} {store other : Store} {s : ScopeId} {name : String} :
    b.holds r store other → r.live s → b.uses name →
    other.get? s name = store.get? s name ∧ ∀ v, store.get? s name = some v → r.Knows v
  define {r : Region} {store other : Store} {s : ScopeId} {name : String} {v : Value} :
    b.holds r store other → b.uses name → r.Knows v →
    b.holds r (store.define s name v) (other.define s name v)
  assign? {r : Region} {store other : Store} {s : ScopeId} {name : String} {v : Value} :
    b.holds r store other → r.live s → b.uses name → r.Knows v →
    (store.assign? s name v = none ∧ other.assign? s name v = none) ∨
      ∃ store' other', store.assign? s name v = some store' ∧
        other.assign? s name v = some other' ∧ b.holds r store' other'
  newFunction {r : Region} {store other : Store} {s : ScopeId} (name : String)
    (parameters : List String) (body : List Stmt) : b.holds r store other → r.live s →
    b.holds (r.withFunction ⟨store.nextFunction, name, parameters, body, s⟩)
      (store.newFunction s name parameters body).2 (other.newFunction s name parameters body).2
  /-- A scope is made, and parameters are bound in it. -/
  enter {r : Region} {store other : Store} {parent : ScopeId} (parameters : List String)
    (arguments : List Value) : b.holds r store other → r.live parent →
    (∀ v ∈ arguments, r.Knows v) →
    b.holds (r.withScope store.nextScope)
      (Machine.bindParameters (store.newScope (some parent)).2 store.nextScope parameters arguments)
      (Machine.bindParameters (other.newScope (some parent)).2 store.nextScope parameters arguments)
  leave {r : Region} {store other : Store} {s : ScopeId} {held : List Value} :
    b.holds r store other → r.busy s → base ≠ s → (∀ v ∈ held, r.Knows v) →
    ∃ r', b.holds r' (leaving store (functionsAmong held) s)
        (leaving' other (functionsAmong held) s) ∧
      (∀ t, r.busy t → t ≠ s → r'.busy t) ∧ (∀ v ∈ held, r'.Knows v) ∧
      ∀ f, r'.knows f → r.knows f

namespace Store.Agree

variable {r : Region} {store other : Store}

theorem bindParameters (h : Agree r store other) (s : ScopeId) (parameters : List String)
    {arguments : List Value} (ha : ∀ v ∈ arguments, r.Knows v) :
    Agree r (Machine.bindParameters store s parameters arguments)
      (Machine.bindParameters other s parameters arguments) := by
  unfold Machine.bindParameters
  have hknown : ∀ entry ∈ parameters.zip arguments, r.Knows entry.2 :=
    fun entry hentry => ha entry.2 (List.of_mem_zip hentry).2
  generalize parameters.zip arguments = entries at hknown
  induction entries generalizing store other with
  | nil => exact h
  | cons entry rest ih =>
    refine ih (h.define s entry.1 (hknown entry List.mem_cons_self)) fun e he => ?_
    exact hknown e (List.mem_cons_of_mem _ he)

theorem enter (h : Agree r store other) {parent : ScopeId} (hparent : r.live parent)
    (parameters : List String) {arguments : List Value} (ha : ∀ v ∈ arguments, r.Knows v) :
    Agree (r.withScope store.nextScope)
      (Machine.bindParameters (store.newScope (some parent)).2 store.nextScope parameters arguments)
      (Machine.bindParameters (other.newScope (some parent)).2 store.nextScope parameters
        arguments) := by
  have hparents : ∀ p, some parent = some p → r.live p := by
    rintro p ⟨⟩
    exact hparent
  exact (h.newScope hparents).bindParameters store.nextScope parameters ha

end Store.Agree

/-- Stores that agree on the region, whatever names are used. -/
def Bond.agree : Bond := ⟨fun _ => True, Store.Agree⟩

/-- **Agreement lasts**, if both ways of leaving retain what is reached. -/
theorem Bond.agree_lasts (base : ScopeId) {leaving leaving' : Store.Leaving}
    (hl : leaving.Retains) (hl' : leaving'.Retains) : Bond.agree.Lasts base leaving leaving' where
  busyLive h hs := Store.Agree.busyLive h _ hs
  knowsLive h hf := Store.Agree.knowsLive h _ hf
  lt_nextScope h hs := Store.Agree.lt_nextScope h hs
  nextScope h := Store.Agree.nextScope h
  nextFunction h := Store.Agree.nextFunction h
  get? h hs _ := Store.Agree.get? h hs _
  define h _ hv := Store.Agree.define h _ _ hv
  assign? h hs _ hv := Store.Agree.assign? h hs _ hv
  newFunction name parameters body h hs := Store.Agree.newFunction h hs name parameters body
  enter parameters _ h hparent ha := Store.Agree.enter h hparent parameters ha
  leave h hs _ hheld := Store.Agree.leaveBoth h hl hl'
    (Store.Agree.lt_nextScope h (Store.Agree.busyLive h _ hs)) hheld

/-! ## The invariant -/

/-- The bounds that a region sets to machines that use none but some names: scopes that are worked
in, and functions that are in use. -/
def Region.bounds (r : Region) (b : Bond) : Bounds where
  runs code _ := ∀ x ∈ code.names, b.uses x
  works := r.busy
  knows := r.knows

theorem Region.bounds_sealed (r : Region) (b : Bond) : (r.bounds b).Sealed where
  part h hpart x hx := h x (Code.mem_names_of_part hpart hx)
  raised _ _ := trivial

/-- A scope is left once: below the frame that does it, nothing works in it. And `base` is not left
at all. -/
def Layered (base : ScopeId) : List Frame → Prop
  | [] => True
  | frame :: frames =>
    (∀ s, frame.left? = some s → base ≠ s ∧ ∀ below ∈ frames, s ∉ below.scopes) ∧
      Layered base frames

theorem Layered.pushes {base : ScopeId} {pushed frames : List Frame} (h : Layered base frames)
    (hpushed : ∀ frame ∈ pushed, frame.left? = none) : Layered base (pushed ++ frames) := by
  induction pushed with
  | nil => exact h
  | cons frame pushed ih =>
    obtain ⟨hframe, hrest⟩ := List.forall_mem_cons.mp hpushed
    exact ⟨fun s hs => (by rw [hframe] at hs; cases hs), ih hrest⟩

/-- The frames and the world of a machine, next to another store for that world. -/
structure Grounded (b : Bond) (base : ScopeId) (r : Region) (other : Store) (frames : List Frame)
    (w : World) : Prop where
  bond : b.holds r w.store other
  baseBusy : r.busy base
  keeps : ∀ frame ∈ frames, frame.KeepsTo (r.bounds b)
  layered : Layered base frames
  /-- The functions in use keep to the names as well. -/
  bodies : ∀ f, r.knows f → ∀ stmt ∈ f.body, ∀ x ∈ stmt.names, b.uses x

/-- The second machine is the first one but for its store, and the stores are bonded by a region
in which both work. -/
def Follows (b : Bond) (base : ScopeId) (m m' : Machine) : Prop :=
  ∃ r other, m' = m.withStore other ∧ Grounded b base r other m.frames m.world ∧
    m.control.KeepsTo (r.bounds b)

section Effects

variable {b : Bond} {base : ScopeId} {r : Region} {other : Store} {frames : List Frame} {w : World}

/-- Another region may do for a frame. -/
theorem Region.keepsTo_of {r' : Region} {frame : Frame} (h : frame.KeepsTo (r.bounds b))
    (hscopes : ∀ s ∈ frame.scopes, r'.busy s) (hvalues : ∀ v ∈ frame.values, r'.Knows v) :
    frame.KeepsTo (r'.bounds b) :=
  ⟨h.code, hscopes, fun _ _ => trivial, hvalues, fun _ => trivial⟩

namespace Grounded

/-- The stores may change, if the bond goes on to hold. -/
theorem store {w' : World} {other' : Store} (h : Grounded b base r other frames w)
    (hs : b.holds r w'.store other') : Grounded b base r other' frames w' :=
  ⟨hs, h.baseBusy, h.keeps, h.layered, h.bodies⟩

theorem reply {a : Answer} (h : Grounded b base r other frames w) (ha : a.KeepsTo (r.bounds b)) :
    Follows b base (Machine.reply a frames w) (Machine.reply a frames (w.withStore other)) :=
  ⟨r, other, rfl, h, ha⟩

variable {leaving leaving' : Store.Leaving} (hb : b.Lasts base leaving leaving')

include hb

/-- Statements are run in a new scope on top of everything: nothing below the frame that leaves it
has to do with it. -/
theorem enter (h : Grounded b base r other frames w) {frame : Frame}
    (hleft : frame.left? = some w.store.nextScope) {body : List Stmt}
    (hbody : ∀ stmt ∈ body, ∀ x ∈ stmt.names, b.uses x) (w' : World) {other' : Store}
    (hbond : b.holds (r.withScope w.store.nextScope) w'.store other') :
    Follows b base (Machine.runAll body w.store.nextScope (frame :: frames) w')
      (Machine.runAll body w.store.nextScope (frame :: frames) (w'.withStore other')) := by
  -- What is worked in has got its number before.
  have hne : ∀ t, r.busy t → t ≠ w.store.nextScope :=
    fun t ht => Nat.ne_of_lt (hb.lt_nextScope h.bond (hb.busyLive h.bond ht))
  have hsequence : (Frame.sequence body w.store.nextScope).KeepsTo
      ((r.withScope w.store.nextScope).bounds b) :=
    .ofCode hbody (.inr rfl) (by simp [Frame.scopes]) rfl rfl rfl
  have hframe : frame.KeepsTo ((r.withScope w.store.nextScope).bounds b) :=
    .ofLeaving hleft (.inr rfl) trivial
  have hold : ∀ g ∈ frames, g.KeepsTo ((r.withScope w.store.nextScope).bounds b) := fun g hg =>
    Region.keepsTo_of (h.keeps g hg) (fun t ht => .inl ((h.keeps g hg).scopes t ht))
      (h.keeps g hg).values
  refine ⟨_, other', rfl, ⟨hbond, .inl h.baseBusy, ?_, ?_, h.bodies⟩, .normal⟩
  · exact List.forall_mem_cons.mpr ⟨hsequence, List.forall_mem_cons.mpr ⟨hframe, hold⟩⟩
  · refine ⟨fun t ht => (by cases ht), fun s hs => ?_, h.layered⟩
    rw [hleft] at hs
    cases hs
    exact ⟨hne base h.baseBusy, fun g hg hin => hne _ ((h.keeps g hg).scopes _ hin) rfl⟩

/-! ## Effects -/

theorem call (h : Grounded b base r other frames w) {f : Value} {arguments : List Value}
    (hf : r.Knows f) (ha : ∀ v ∈ arguments, r.Knows v) (p : Position) :
    Follows b base (Machine.call f arguments p frames w)
      (Machine.call f arguments p frames (w.withStore other)) := by
  rcases Machine.call_cases f arguments p w with ⟨result, used, hcall, hresult, -⟩ |
    ⟨g, rfl, -, -, hcall⟩
  · have hown : Machine.call f arguments p frames w = _ := hcall frames w.store
    rw [hown, hcall frames other]
    have hin : Grounded b base r other frames { w with readings := w.readings + used } :=
      h.store h.bond
    refine hin.reply (.ofResult (fun v hv => Value.meets_of_ne_function fun g hg => ?_)
      fun e he => trivial)
    exact hresult g (hg ▸ hv)
  · have hown : Machine.call (.function g) arguments p frames w = _ := hcall frames w.store
    -- The new scope gets the same number in both stores.
    rw [hown, hcall frames other, hb.nextScope h.bond]
    have hother : Machine.entered g arguments (w.withStore other)
        = (Machine.entered g arguments w).withStore (Machine.bindParameters
            (other.newScope (some g.scope)).2 other.nextScope g.parameters arguments) := rfl
    rw [hother, hb.nextScope h.bond]
    exact h.enter hb rfl (h.bodies g hf) _
      (hb.enter g.parameters arguments h.bond (hb.knowsLive h.bond hf) ha)

/-- **An effect inside of the region comes to the same in both stores**, as long as no scope is
left. -/
theorem perform (h : Grounded b base r other frames w) {effect : Effect}
    (he : effect.KeepsTo (r.bounds b)) (hleft : effect.left? = none) :
    Follows b base (Machine.perform leaving effect frames w)
      (Machine.perform leaving' effect frames (w.withStore other)) := by
  cases effect with
  | proceed control => exact ⟨r, other, rfl, h, he⟩
  | lookUp name p s =>
    obtain ⟨hs, hname⟩ := he
    obtain ⟨heq, hknown⟩ := hb.get? h.bond (hb.busyLive h.bond hs) (hname name List.mem_cons_self)
    simp only [Machine.perform, World.withStore_store, heq]
    cases hget : w.store.get? s name with
    | none => exact h.reply (.error trivial)
    | some v => exact h.reply (.value (hknown v hget))
  | define name v s =>
    obtain ⟨-, hv, initial, p, hname⟩ := he
    exact (h.store (hb.define h.bond (hname name List.mem_cons_self) hv)).reply .normal
  | assign name v p s =>
    obtain ⟨hs, hv, e, hname⟩ := he
    simp only [Machine.perform, World.withStore_store]
    rcases hb.assign? h.bond (hb.busyLive h.bond hs) (hname name List.mem_cons_self) hv with
      ⟨hown, hother⟩ | ⟨store', other', hown, hother, hbond⟩
    · rw [hown, hother]
      exact h.reply (.error trivial)
    · rw [hown, hother]
      exact (h.store hbond).reply (.value hv)
  | declare name parameters body s =>
    obtain ⟨hs, p, hnames⟩ := he
    let f : Closure := ⟨w.store.nextFunction, name, parameters, body, s⟩
    have hbond := hb.newFunction name parameters body h.bond (hb.busyLive h.bond hs)
    have hin : Grounded b base (r.withFunction f) (other.newFunction s name parameters body).2
        frames { w with store := (w.store.newFunction s name parameters body).2 } := by
      refine ⟨hbond, h.baseBusy, fun g hg => ?_, h.layered, ?_⟩
      · exact Region.keepsTo_of (h.keeps g hg) (h.keeps g hg).scopes
          fun v hv => Region.Knows.withFunction ((h.keeps g hg).values v hv) f
      · rintro g (hold | rfl) stmt hstmt x hx
        · exact h.bodies g hold stmt hstmt x hx
        · refine hnames x (List.mem_cons_of_mem _ (List.mem_append_right _ ?_))
          exact Stmt.mem_namesOfEach.mpr ⟨stmt, hstmt, hx⟩
    have hf : (r.withFunction f).Knows (.function f) := .inr rfl
    have hother : Machine.perform leaving' (.declare name parameters body s) frames
          (w.withStore other)
        = Machine.reply (.flow .normal) frames (w.withStore
            ((other.newFunction s name parameters body).2.define s name
              (.function ⟨other.nextFunction, name, parameters, body, s⟩))) := rfl
    -- The new function gets the same number in both stores.
    rw [hother, hb.nextFunction h.bond]
    exact (hin.store (hb.define hin.bond (hnames name List.mem_cons_self) hf)).reply .normal
  | enterBlock body s =>
    obtain ⟨hs, p, hnames⟩ := he
    have hother : Machine.perform leaving' (.enterBlock body s) frames (w.withStore other)
        = Machine.runAll body other.nextScope (.leaveBlock other.nextScope :: frames)
            (w.withStore (other.newScope (some s)).2) := rfl
    rw [hother, hb.nextScope h.bond]
    refine h.enter hb rfl
      (fun stmt hstmt x hx => hnames x (Stmt.mem_namesOfEach.mpr ⟨stmt, hstmt, hx⟩))
      { w with store := (w.store.newScope (some s)).2 } ?_
    exact hb.enter [] [] h.bond (hb.busyLive h.bond hs) fun v hv => by cases hv
  | call f arguments p => exact h.call hb he.1 he.2.1 p
  | tell event =>
    have hin : Grounded b base r other frames (w.tell event) := h.store h.bond
    exact hin.reply .normal
  | leaveBlock a s => cases hleft
  | leaveCall a s => cases hleft

/-! ### Leaving -/

/-- **Both machines leave a scope, each in its own way.** Those who wait hold on to other scopes and
to their values, so the bond is still by all that they work with. -/
theorem leave {frame : Frame} (h : Grounded b base r other (frame :: frames) w) {s : ScopeId}
    (hleft : frame.left? = some s) (hs : r.busy s) {a : Answer} (ha : a.KeepsTo (r.bounds b))
    {w' : World} (hw : w'.store = leaving w.store (heldOnTheWay a frames) s) :
    ∃ r', Grounded b base r' (leaving' other (heldOnTheWay a frames) s) frames w' ∧
      a.KeepsTo (r'.bounds b) := by
  obtain ⟨hbase, hbelow⟩ := h.layered.1 s hleft
  have hkeeps : ∀ g ∈ frames, g.KeepsTo (r.bounds b) :=
    fun g hg => h.keeps g (List.mem_cons_of_mem _ hg)
  have hheld : ∀ v ∈ a.held ++ frames.flatMap (·.values), r.Knows v := by
    intro v hv
    rcases List.mem_append.mp hv with hin | hin
    · exact ha.held v hin
    · obtain ⟨g, hg, hv⟩ := List.mem_flatMap.mp hin
      exact (hkeeps g hg).values v hv
  obtain ⟨r', hbond, hbusy, hknown, hfewer⟩ := hb.leave h.bond hs hbase hheld
  refine ⟨r', ⟨hw ▸ hbond, hbusy base h.baseBusy hbase, fun g hg => ?_, h.layered.2,
    fun f hf => h.bodies f (hfewer f hf)⟩, fun v hv => hknown v (List.mem_append_left _ hv),
    fun _ _ => trivial⟩
  refine Region.keepsTo_of (hkeeps g hg) (fun t ht => hbusy t ((hkeeps g hg).scopes t ht) ?_)
    fun v hv => ?_
  · rintro rfl
    exact hbelow g hg ht
  · exact hknown v (List.mem_append_right _ (List.mem_flatMap.mpr ⟨g, hg, hv⟩))

end Grounded

end Effects

/-! ## Runs -/

section Runs

variable {b : Bond} {base : ScopeId} {leaving leaving' : Store.Leaving}

/-- **One step.** -/
theorem Follows.step {m m' : Machine} (h : Follows b base m m')
    (hb : b.Lasts base leaving leaving') :
    Follows b base (m.stepLeaving leaving) (m'.stepLeaving leaving') := by
  obtain ⟨r, other, rfl, hg, hc⟩ := h
  rcases m.stepLeaving_cases with ⟨mv, below, hmoves, hstep⟩ | ⟨⟨a, ha⟩, hstep⟩
  · obtain ⟨hmv, hbelow⟩ := hmoves.keepsTo (r.bounds_sealed b) hc hg.keeps
    -- The move does not depend on the store, so both machines make the same one.
    have hother : (m.withStore other).stepLeaving leaving'
        = Machine.make leaving' mv below (m.world.withStore other) :=
      Machine.stepLeaving_of_moves hmoves leaving' _
    rw [hstep leaving, hother]
    rcases hmoves.cases_leaving with ⟨a, s, -, hf, rfl⟩ | ⟨a, s, -, hf, rfl⟩ | ⟨heffect, hp, hf⟩
    -- Here the two machines go different ways.
    · rw [hf] at hg
      have hleave : ∃ r', Grounded b base r' (leaving' other (heldOnTheWay a below) s) below
          { m.world with store := leaving m.world.store (heldOnTheWay a below) s } ∧
            a.KeepsTo (r'.bounds b) := hg.leave hb rfl hmv.effect.1 hmv.effect.2.2 rfl
      obtain ⟨r', hg', ha'⟩ := hleave
      exact ⟨r', _, rfl, hg', ha'⟩
    · rw [hf] at hg
      have hleave : ∃ r', Grounded b base r' (leaving' other (heldOnTheWay a below) s) below
          { m.world with
            store := leaving m.world.store (heldOnTheWay a below) s
            callDepth := m.world.callDepth - 1 } ∧
            a.KeepsTo (r'.bounds b) := hg.leave hb rfl hmv.effect.1 hmv.effect.2.2 rfl
      obtain ⟨r', hg', ha'⟩ := hleave
      exact ⟨r', _, rfl, hg', ha'.callAnswer⟩
    · have hlayered : Layered base below := by
        rcases hf with hf | ⟨frame, hf, -⟩
        · exact hf ▸ hg.layered
        · have hl := hg.layered
          rw [hf] at hl
          exact hl.2
      have hin : Grounded b base r other (mv.pushed ++ below) m.world :=
        ⟨hg.bond, hg.baseBusy, List.forall_mem_append.mpr ⟨hmv.pushed, hbelow⟩,
          hlayered.pushes hp, hg.bodies⟩
      exact hin.perform hb hmv.effect heffect
  · have hdone : (m.withStore other).result? = some a := ha
    rw [hstep leaving, Machine.stepLeaving_of_result? hdone]
    exact ⟨r, other, rfl, hg, hc⟩

/-- **Whole runs.** After any number of steps the two machines are still in step. -/
theorem Follows.run (n : Nat) {m m' : Machine} (h : Follows b base m m')
    (hb : b.Lasts base leaving leaving') :
    Follows b base (m.runLeaving leaving n) (m'.runLeaving leaving' n) := by
  induction n generalizing m m' with
  | zero => exact h
  | succ n ih =>
    rw [Machine.runLeaving_succ, Machine.runLeaving_succ]
    exact ih (h.step hb)

/-- Machines in step have come to the same result, or to none. -/
theorem Follows.result? {m m' : Machine} (h : Follows b base m m') : m'.result? = m.result? := by
  obtain ⟨r, other, rfl, -, -⟩ := h
  rfl

end Runs

end Scripting
