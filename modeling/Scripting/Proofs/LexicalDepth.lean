/-
The depth of a scope is the nesting of the code that runs in it.

The levels that scopes were made on say how far below its global scope a scope ought to be. The
scopes that a program can still come by are all in the store, and so is everything on their chains;
so there the chain is as long as the level says, and it ends at the global scope of the
submission that the code came with. This holds at every moment of every submission to a session,
after any submissions and resets, whether they went well or not.
-/
import Scripting.Proofs.Sites
import Scripting.Proofs.Transparency

set_option autoImplicit false

namespace Scripting

/-! ## Chains -/

/-- The scopes around scope `s` are a chain without cycles that ends at the global scope `globals`,
`depth` scopes further out. -/
structure Store.Nested (store : Store) (s globals : ScopeId) (depth : Nat) : Prop where
  head : ((store.chain s).head?.map (·.id)) = some s
  linked : (store.chain s).IsChain fun scope outer => scope.parent = some outer.id
  nodup : ((store.chain s).map (·.id)).Nodup
  length : (store.chain s).length = depth + 1
  outermost : ∃ scope, (store.chain s).getLast? = some scope ∧ scope.id = globals ∧
    scope.parent = none

namespace Store

variable {r : Region} {store : Store} {levels : Levels}

/-- Further out on a chain there are only older scopes. -/
theorem Agree.le_of_mem_chain (h : Agree r store store) {s : ScopeId} (hs : r.live s) {c : Scope}
    (hc : c ∈ store.chain s) : c.id ≤ s := by
  induction s using Nat.strongRecOn with
  | ind s ih =>
    obtain ⟨scope, hmem, -, rfl, hcov⟩ := h.common s hs
    rw [h.ordered.chain_eq_cons hmem] at hc
    rcases List.mem_cons.mp hc with rfl | hin
    · exact Nat.le_refl _
    · cases hp : scope.parent with
      | none =>
        rw [hp] at hin
        cases hin
      | some p =>
        rw [hp] at hin
        have hlt := h.ordered.inOlder scope hmem p hp
        exact Nat.le_of_lt (Nat.lt_of_le_of_lt (ih p hlt (hcov.parent p hp) hin) hlt)

/-- **The chain of a scope that is in use is as long as its level says.** The induction is on the
number of the scope, which falls from a scope to its parent. -/
theorem Agree.nested (h : Agree r store store) (hl : Laid levels store) {s : ScopeId}
    (hs : r.live s) {globals : ScopeId} {depth : Nat}
    (hlevel : levels[s]? = some (globals, depth)) :
    store.Nested s globals depth := by
  induction s using Nat.strongRecOn generalizing globals depth with
  | ind s ih =>
    obtain ⟨scope, hmem, -, rfl, hcov⟩ := h.common s hs
    have hchain := h.ordered.chain_eq_cons hmem
    cases hp : scope.parent with
    | none =>
      rw [hl.globals scope hmem hp] at hlevel
      cases hlevel
      have hone : store.chain scope.id = [scope] := by rw [hchain, hp]; rfl
      refine ⟨?_, ?_, ?_, ?_, scope, ?_, rfl, hp⟩ <;> rw [hone]
      · rfl
      · exact .singleton scope
      · exact List.nodup_singleton _
      · rfl
      · rfl
    | some p =>
      obtain ⟨level, hlevelp, hlevels⟩ := hl.inner scope hmem p hp
      rw [hlevels] at hlevel
      cases hlevel
      have hlt := h.ordered.inOlder scope hmem p hp
      have hlive := hcov.parent p hp
      have hout := ih p hlt hlive hlevelp
      have hcons : store.chain scope.id = scope :: store.chain p := by rw [hchain, hp]; rfl
      obtain ⟨outermost, hlast, hid, hparent⟩ := hout.outermost
      refine ⟨?_, ?_, ?_, ?_, outermost, ?_, hid, hparent⟩ <;> rw [hcons]
      · rfl
      · obtain ⟨outer, houter, hid⟩ := Option.map_eq_some_iff.mp hout.head
        obtain ⟨rest, hrest⟩ := List.head?_eq_some_iff.mp houter
        have hlinked := hout.linked
        rw [hrest] at hlinked ⊢
        exact .cons_cons (by rw [hp, hid]) hlinked
      · -- A scope further out is older, so it is not this one again.
        refine List.nodup_cons.mpr ⟨fun hin => ?_, hout.nodup⟩
        obtain ⟨c, hc, hid⟩ := List.mem_map.mp hin
        exact absurd (h.le_of_mem_chain hlive hc) (by rw [hid]; exact Nat.not_le.mpr hlt)
      · rw [List.length_cons, hout.length]
      · rw [List.getLast?_cons, hlast]
        rfl

end Store

/-! ## What a program can come by -/

namespace Machine

/-- The scopes that a machine works in or goes back to; `base` is the global scope. -/
def roots (base : ScopeId) (m : Machine) (t : ScopeId) : Prop :=
  t = base ∨ t ∈ m.control.scopes ∨ ∃ frame ∈ m.frames, t ∈ frame.scopes

/-- The values that a machine has in hand. -/
def inHand (m : Machine) : List Value := m.control.held ++ m.frames.flatMap (·.values)

/-- A function that a program can come by: it has it in hand, or it is bound in a scope that can be
come by. -/
def Finds (base : ScopeId) (m : Machine) (f : Closure) : Prop :=
  .function f ∈ m.inHand ∨
    ∃ scope ∈ m.world.store.scopes, m.world.store.Reaches (m.roots base) m.inHand scope.id ∧
      ∃ name, (name, .function f) ∈ scope.bindings

end Machine

/-- A machine that is in step with itself has all that it works with in its store. -/
theorem Follows.grounded {b : Bond} {base : ScopeId} {m : Machine} (h : Follows b base m m) :
    ∃ r, Grounded b base r m.world.store m.frames m.world ∧ m.control.KeepsTo (r.bounds b) := by
  obtain ⟨r, other, heq, hg, hc⟩ := h
  have hother : m.world.store = other := congrArg (fun m : Machine => m.world.store) heq
  rw [← hother] at hg
  exact ⟨r, hg, hc⟩

theorem Control.KeepsTo.busy {b : Bond} {r : Region} {control : Control}
    (hc : control.KeepsTo (r.bounds b)) {s : ScopeId} (hs : s ∈ control.scopes) : r.busy s := by
  cases control with
  | answer a => cases hs
  | _ =>
    rw [List.mem_singleton.mp hs]
    exact hc.1

section Grounded

variable {base : ScopeId} {r : Region} {m : Machine}
  (h : Grounded .agree base r m.world.store m.frames m.world)
  (hc : m.control.KeepsTo (r.bounds .agree))

include h hc

theorem Grounded.knows_inHand {v : Value} (hv : v ∈ m.inHand) : r.Knows v := by
  rcases List.mem_append.mp hv with hheld | hwaits
  · cases hm : m.control with
    | answer a =>
      rw [hm] at hheld hc
      exact hc.held v hheld
    | _ =>
      rw [hm] at hheld
      cases hheld
  · obtain ⟨frame, hframe, hin⟩ := List.mem_flatMap.mp hwaits
    exact (h.keeps frame hframe).values v hin

/-- The scope of every function that a program can come by is in use. -/
theorem Grounded.live_of_finds {f : Closure} (hf : m.Finds base f) : r.live f.scope := by
  have hagree : Store.Agree r m.world.store m.world.store := h.bond
  rcases hf with hin | ⟨scope, hmem, hr, name, hb⟩
  · exact hagree.knowsLive f (h.knows_inHand hc hin)
  · have hlive : r.live scope.id := by
      refine hagree.live_of_reaches ?_ (fun v hv => h.knows_inHand hc hv) hr
      rintro t (rfl | hcontrol | ⟨frame, hframe, ht⟩)
      · exact hagree.busyLive _ h.baseBusy
      · exact hagree.busyLive _ (hc.busy hcontrol)
      · exact hagree.busyLive _ ((h.keeps frame hframe).scopes t ht)
    exact hagree.knowsLive f ((hagree.covers hmem hlive).2.bindings _ hb)

end Grounded

/-! ## Sessions -/

namespace Session

/-- What has led to a session: which programs were run, each with the global scope of its time, and
where all functions were declared. -/
inductive Past (config : Config) (clock : Nat → Float) :
    Session → List (List Stmt × ScopeId) → List Site → Prop
  | new : Past config clock (Session.new config clock) [] []
  /-- A text that could not be read. -/
  | unread {s : Session} {submitted : List (List Stmt × ScopeId)} {declared : List Site}
      {source : String} {f : Failure} : Past config clock s submitted declared →
      read source = .error f → Past config clock (s.conclude [] (some f)).session submitted declared
  /-- A program that was run to its end, or up to a failure. -/
  | ran {s : Session} {submitted : List (List Stmt × ScopeId)} {declared : List Site}
      {source : String} {program : List Stmt} (fuel : Nat) :
      Past config clock s submitted declared → read source = .ok program →
      ((s.start program).run fuel).result?.isSome = true →
      Past config clock (s.complete ((s.start program).run fuel)).session
        ((program, s.globals) :: submitted)
        ((Trail.start program s.globals declared).after (s.start program) fuel).declared
  | setEcho {s : Session} {submitted : List (List Stmt × ScopeId)} {declared : List Site}
      (echo : Bool) : Past config clock s submitted declared →
      Past config clock (s.setEcho echo) submitted declared
  | listen {s : Session} {submitted : List (List Stmt × ScopeId)} {declared : List Site}
      (l : Listener) : Past config clock s submitted declared →
      Past config clock (s.listen l) submitted declared
  | reset {s : Session} {submitted : List (List Stmt × ScopeId)} {declared : List Site} :
      Past config clock s submitted declared → Past config clock s.reset submitted declared

/-- Any actions on a new session make a past. -/
theorem past_of_performAll {config : Config} {clock : Nat → Float} {fuel : Nat}
    {actions : List Action} {seen : List Observation} {s : Session}
    (h : Engine.standard.performAll fuel (Session.new config clock) actions = some (seen, s)) :
    ∃ submitted declared, Past config clock s submitted declared := by
  refine Engine.performAll_keeps (P := fun s => ∃ submitted declared,
    Past config clock s submitted declared) ?_ h ⟨[], [], .new⟩
  rintro s action seen t ⟨submitted, declared, hpast⟩ hone
  cases action with
  | submit source =>
    obtain ⟨r, hr, heq⟩ := Option.map_eq_some_iff.mp hone
    cases heq
    rcases read_cases_of_submit hr with ⟨f, hread, rfl⟩ | ⟨program, hread, hended, rfl⟩
    · exact ⟨_, _, .unread hpast hread⟩
    · exact ⟨_, _, .ran fuel hpast hread hended⟩
  | setEcho echo =>
    cases hone
    exact ⟨_, _, .setEcho echo hpast⟩
  | listen l =>
    cases hone
    exact ⟨_, _, .listen l hpast⟩
  | reset =>
    cases hone
    exact ⟨_, _, .reset hpast⟩

/-- The levels and the sites of the functions of a session are known, and what it has in use is in
its store. -/
structure Charted (levels : Levels) (declared : List Site) (s : Session) : Prop where
  laid : Laid levels s.store
  length : declared.length = s.store.nextFunction
  functions : ∀ v, s.store.Binds v → v.Meets (Closure.DeclaredAt levels declared)
  globals : levels[s.globals]? = some (s.globals, 0)
  inUse : ∃ r, Store.Agree r s.store s.store ∧ r.busy s.globals

theorem outlines_defineBuiltins (store : Store) (s : ScopeId) :
    store.Outlines (store.defineBuiltins s) ∧
      (store.defineBuiltins s).nextFunction = store.nextFunction := by
  unfold Store.defineBuiltins
  induction Builtin.all generalizing store with
  | nil => exact ⟨store.outlines_refl, rfl⟩
  | cons b rest ih =>
    obtain ⟨ho, hn⟩ := ih (store.define s b.name (.builtin b))
    exact ⟨(store.outlines_define s b.name _).trans ho, hn⟩

/-- A new global scope is on a level of its own. -/
theorem charted_freshGlobals {levels : Levels} {declared : List Site} {store : Store}
    (hl : Laid levels store) (hd : declared.length = store.nextFunction)
    (hf : ∀ v, store.Binds v → v.Meets (Closure.DeclaredAt levels declared)) :
    let fresh := freshGlobals store
    Laid (levels ++ [(fresh.1, 0)]) fresh.2 ∧ declared.length = fresh.2.nextFunction ∧
      (∀ v, fresh.2.Binds v → v.Meets (Closure.DeclaredAt (levels ++ [(fresh.1, 0)]) declared)) ∧
      (levels ++ [(fresh.1, 0)])[fresh.1]? = some (fresh.1, 0) := by
  intro fresh
  obtain ⟨ho, hn⟩ := outlines_defineBuiltins (store.newScope none).2 store.nextScope
  refine ⟨(hl.newScope (fun _ => rfl) fun p hp => by cases hp).of_outlines ho, hd.trans hn.symm,
    fun v hv => ?_, ?_⟩
  · rcases Store.Binds.of_defineBuiltins hv with hold | ⟨b, rfl⟩
    · have hmeets := hf v hold.of_newScope
      cases v with
      | function f =>
        have hmono := Closure.DeclaredAt.mono hmeets [(fresh.1, 0)] []
        rwa [List.append_nil] at hmono
      | _ => trivial
    · trivial
  · have hlength : levels.length = fresh.1 := hl.length
    rw [← hlength]
    exact List.getElem?_concat_length

/-- The trail of a program that is about to be run fits, if the session's levels and sites are
known. -/
theorem fits_start {levels : Levels} {declared : List Site} {s : Session}
    (hlaid : Laid levels s.store) (hlength : declared.length = s.store.nextFunction)
    (hfunctions : ∀ v, s.store.Binds v → v.Meets (Closure.DeclaredAt levels declared))
    (hglobals : levels[s.globals]? = some (s.globals, 0)) (program : List Stmt) :
    (Trail.start program s.globals declared).Fits levels (s.start program) where
  control := .normal
  frames := .cons (.ofProgram (fun _ hmem => .outermost hmem) hglobals fun _ => trivial) .nil
  laid := hlaid
  length := hlength
  functions := Machine.allFunctions_of_bound rfl (List.forall_mem_singleton.mpr rfl) hfunctions

namespace Charted

variable {levels : Levels} {declared : List Site} {s : Session}

theorem fits (h : s.Charted levels declared) (program : List Stmt) :
    (Trail.start program s.globals declared).Fits levels (s.start program) :=
  fits_start h.laid h.length h.functions h.globals program

theorem twins (h : s.Charted levels declared) : Twins s s := by
  obtain ⟨r, hagree, hbusy⟩ := h.inUse
  exact ⟨r, s.store, rfl, hagree, hbusy⟩

theorem follows (h : s.Charted levels declared) {source : String} {program : List Stmt}
    (hread : read source = .ok program) (n : Nat) :
    Follows .agree s.globals ((s.start program).run n) ((s.start program).run n) := by
  have hbegin : s.begin source = .ok (s.start program) := by rw [begin, hread]; rfl
  rcases h.twins.begin source with ⟨f, hf, -⟩ | ⟨m, m', hm, hm', hfollows⟩
  · rw [hbegin] at hf
    cases hf
  · rw [hbegin] at hm hm'
    cases hm
    cases hm'
    rw [Machine.run_eq]
    exact hfollows.run n (Bond.agree_lasts s.globals Store.leave_retains Store.leave_retains)

/-- What a program leaves behind is charted, with what it has declared. -/
theorem complete (h : s.Charted levels declared) {source : String} {program : List Stmt}
    (hread : read source = .ok program) (n : Nat) :
    ∃ more, (s.complete ((s.start program).run n)).session.Charted (levels ++ more)
      ((Trail.start program s.globals declared).after (s.start program) n).declared := by
  obtain ⟨more, hfits⟩ := (h.fits program).run n
  obtain ⟨r, hg, -⟩ := (h.follows hread n).grounded
  exact ⟨more, hfits.laid, hfits.length, hfits.functions.bound, Laid.getElem?_append h.globals,
    r, hg.bond, hg.baseBusy⟩

end Charted

/-- **Every session with a past is charted**, and its functions come from programs that were
submitted. -/
theorem Past.charted {config : Config} {clock : Nat → Float} {s : Session}
    {submitted : List (List Stmt × ScopeId)} {declared : List Site}
    (h : Past config clock s submitted declared) :
    (∃ levels, s.Charted levels declared) ∧
      ∀ site ∈ declared, (site.program, site.globals) ∈ submitted := by
  -- By induction on what has been done; only a program and a reset change the store.
  induction h with
  | new =>
    have hempty : Laid [] Store.empty := ⟨rfl, nofun, nofun⟩
    have hnone : ∀ v, Store.empty.Binds v → v.Meets (Closure.DeclaredAt [] []) := by
      rintro v ⟨scope, hmem, -⟩
      cases hmem
    obtain ⟨hlaid, hlength, hfunctions, hglobals⟩ := charted_freshGlobals hempty rfl hnone
    exact ⟨⟨_, hlaid, hlength, hfunctions, hglobals, (new_twins config clock).inUse⟩,
      nofun⟩
  | unread _ _ ih =>
    obtain ⟨⟨levels, h⟩, hfrom⟩ := ih
    exact ⟨⟨levels, h.laid, h.length, h.functions, h.globals, h.inUse⟩, hfrom⟩
  | @ran s submitted declared source program fuel _ hread _ ih =>
    obtain ⟨⟨levels, h⟩, hfrom⟩ := ih
    obtain ⟨more, hafter⟩ := h.complete hread fuel
    refine ⟨⟨levels ++ more, hafter⟩, ?_⟩
    exact ((Trail.from_start program s.globals hfrom).after _ fuel).declared
  | setEcho echo _ ih =>
    obtain ⟨⟨levels, h⟩, hfrom⟩ := ih
    exact ⟨⟨levels, h.laid, h.length, h.functions, h.globals, h.inUse⟩, hfrom⟩
  | listen l _ ih =>
    obtain ⟨⟨levels, h⟩, hfrom⟩ := ih
    exact ⟨⟨levels, h.laid, h.length, h.functions, h.globals, h.inUse⟩, hfrom⟩
  | @reset s submitted declared _ ih =>
    obtain ⟨⟨levels, h⟩, hfrom⟩ := ih
    have hnext := Store.leave_retains.nextFunction s.store (fun _ => []) s.globals
    obtain ⟨hlaid, hlength, hfunctions, hglobals⟩ := charted_freshGlobals
      (h.laid.of_outlines (s.store.outlines_leave (fun _ => []) s.globals))
      (h.length.trans hnext.symm) fun v hv => h.functions v hv.of_leave
    exact ⟨⟨_, hlaid, hlength, hfunctions, hglobals,
      (h.twins.reset Store.leave_retains Store.leave_retains).inUse⟩, hfrom⟩

/-- **Scope depth is lexical nesting.** Take a session with any past, and let a program be submitted
to it. At every moment of the run, the code that is being run stands inside of so many pairs of
braces of its program, and the scope that it runs in has a chain of one scope more, without cycles,
that ends at the global scope of the session at the time when that program was submitted. And every
function that the program can come by at that moment, wherever it was declared and however it got
there, has a scope whose chain is one longer than the number of pairs of braces around its
declaration, and ends at the global scope of its submission. -/
theorem scope_depth_eq_nesting {config : Config} {clock : Nat → Float} {s : Session}
    {submitted : List (List Stmt × ScopeId)} {declared : List Site}
    (h : Past config clock s submitted declared) {source : String} {program : List Stmt}
    (hread : read source = .ok program) (n : Nat) :
    let m := (s.start program).run n
    let t := (Trail.start program s.globals declared).after (s.start program) n
    (∀ code ∈ m.control.code, ∀ scope ∈ m.control.scopes,
        Within t.here.program t.here.depth code ∧
          (t.here.program, t.here.globals) ∈ (program, s.globals) :: submitted ∧
          m.world.store.Nested scope t.here.globals t.here.depth) ∧
      ∀ f, m.Finds s.globals f → ∃ site p, t.declared[f.id]? = some site ∧
        Within site.program site.depth (.statement (.function f.name f.parameters f.body p)) ∧
        (site.program, site.globals) ∈ (program, s.globals) :: submitted ∧
        m.world.store.Nested f.scope site.globals site.depth := by
  intro m t
  obtain ⟨⟨levels, hcharted⟩, hfrom⟩ := h.charted
  have hsources : t.From ((program, s.globals) :: submitted) :=
    (Trail.from_start program s.globals hfrom).after _ n
  obtain ⟨more, hfits⟩ := (hcharted.fits program).run n
  obtain ⟨r, hg, hc⟩ := (hcharted.follows hread n).grounded
  have hagree : Store.Agree r m.world.store m.world.store := hg.bond
  refine ⟨fun code hcode scope hscope => ?_, fun f hf => ?_⟩
  · obtain ⟨hcodes, hlevels⟩ := Site.of_control_keepsTo hfits.control
    refine ⟨hcodes code hcode, hsources.here, ?_⟩
    exact hagree.nested hfits.laid (hagree.busyLive _ (hc.busy hscope)) (hlevels scope hscope)
  · have hmeets : f.DeclaredAt (levels ++ more) t.declared := by
      rcases hf with hin | ⟨scope, hmem, -, name, hb⟩
      · rcases List.mem_append.mp hin with hheld | hwaits
        · exact hfits.functions.held _ hheld
        · obtain ⟨frame, hframe, hv⟩ := List.mem_flatMap.mp hwaits
          exact hfits.functions.waiting frame hframe _ hv
      · exact hfits.functions.bound (.function f) ⟨scope, hmem, _, hb, rfl⟩
    obtain ⟨site, p, hsite, hwithin, hlevel⟩ := hmeets
    refine ⟨site, p, hsite, hwithin, hsources.declared site (List.mem_of_getElem? hsite), ?_⟩
    exact hagree.nested hfits.laid (hg.live_of_finds hc hf) hlevel

/-- A function that hands out another one, which is declared inside of it. -/
def handingOut : String := "fun f() \x7b fun g() \x7b return 1 \x7d return g \x7d"

/-- Both functions are called by a later submission; the inner one runs two pairs of braces in, in a
scope with two scopes around it, though it is called from outside. -/
theorem scope_depth_eq_nesting_handingOut :
    ∃ s submitted declared program, Past ⟨true, 4⟩ (fun _ => 0) s submitted declared ∧
      read "f()()" = .ok program ∧
      ∃ n scope,
        let m := (s.start program).run n
        let t := (Trail.start program s.globals declared).after (s.start program) n
        m.control.scopes = [scope] ∧ t.here.depth = 2 ∧
          m.world.store.Nested scope t.here.globals 2 := by
  let new : Session := Session.new ⟨true, 4⟩ fun _ => 0
  have hchecked : (match read handingOut, read "f()()" with
      | .ok first, .ok second =>
        let m := (new.start first).run 9
        let s := (new.complete m).session
        let declared := ((Trail.start first new.globals []).after (new.start first) 9).declared
        m.result?.isSome && (List.range 30).any fun n =>
          ((s.start second).run n).control.scopes.length == 1 &&
            ((Trail.start second s.globals declared).after (s.start second) n).here.depth == 2
      | _, _ => false) = true := by decide +kernel
  split at hchecked
  · next first second hfirst hsecond =>
    rw [Bool.and_eq_true, List.any_eq_true] at hchecked
    obtain ⟨hended, n, -, hdeep⟩ := hchecked
    rw [Bool.and_eq_true, beq_iff_eq, beq_iff_eq, List.length_eq_one_iff] at hdeep
    obtain ⟨⟨scope, hscope⟩, hdepth⟩ := hdeep
    have hnew : Past ⟨true, 4⟩ (fun _ => 0) new [] [] := .new
    have hpast := Past.ran 9 hnew hfirst hended
    refine ⟨_, _, _, second, hpast, hsecond, n, scope, hscope, hdepth, ?_⟩
    obtain ⟨hcode, -⟩ := scope_depth_eq_nesting hpast hsecond n
    have hmem : ∀ c : Control, c.scopes = [scope] → ∃ code, code ∈ c.code := by
      intro c hc
      cases c with
      | answer a => cases hc
      | _ => exact ⟨_, List.mem_cons_self⟩
    obtain ⟨code, hin⟩ := hmem _ hscope
    obtain ⟨-, -, hnested⟩ := hcode code hin scope (hscope ▸ List.mem_cons_self)
    rwa [hdepth] at hnested
  · cases hchecked

end Session

end Scripting
