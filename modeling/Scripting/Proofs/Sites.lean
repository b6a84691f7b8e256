/-
Where the code that is being run stands.

A machine does not remember where its code comes from: a function body looks the same whoever calls
it, and two submissions may contain the same statement. A *trail* is kept beside the machine to
say it. It has a *site*, that is a program, the global scope of its session and a number of pairs of
braces, for the code that is being run, for every frame that waits, and for every function,
the latter where it was declared. The trail follows the steps of the machine: what a frame goes on
with stands where the frame stood, the statements of a block stand one pair of braces further in,
and so does the body of a function that is called, seen from its declaration.

That the trail is right is the invariant of this file. The code of the control and of the frames
stands where the trail says; and a scope is made one level below another exactly when braces are
entered, so that the scope that code runs in is always on the level of the code. On which level a
scope was made is noted in a list; scopes may be removed, but the list only grows.
-/
import Scripting.Proofs.Names
import Scripting.Proofs.Provenance

set_option autoImplicit false

namespace Scripting

/-! ## Trails -/

/-- A place in a program that was submitted when `globals` was the global scope. -/
structure Site where
  program : List Stmt
  globals : ScopeId
  /-- How many pairs of braces are around it. -/
  depth : Nat

/-- The place inside of the next pair of braces. -/
def Site.inner (site : Site) : Site := { site with depth := site.depth + 1 }

/-- The value that a frame calls when it is handed `v`. -/
def Frame.calls? (v : Value) : Frame → Option Value
  | callee [] _ _ => some v
  | argument f _ [] _ _ => some f
  | _ => none

/-- The function of the program that the next step calls. -/
def Machine.called? (m : Machine) : Option Closure :=
  match m.control, m.frames with
  | .answer (.value v), frame :: _ =>
    match frame.calls? v with
    | some (.function f) => some f
    | _ => none
  | _, _ => none

/-- Where the code stands that a machine has to do with. -/
structure Trail where
  /-- The code that is being run. -/
  here : Site
  /-- The code that waits in the frames. -/
  waiting : List Site
  /-- The declarations of the functions made so far. -/
  declared : List Site

namespace Trail

/-- The trail of a program that is about to be run, with functions declared before. -/
def start (program : List Stmt) (globals : ScopeId) (declared : List Site) : Trail :=
  ⟨⟨program, globals, 0⟩, [⟨program, globals, 0⟩], declared⟩

/-- Where the code stands that a machine goes on with in its next step: the statements of a block
one pair of braces further in, the body of a function inside of its declaration, and what a frame
has been waiting with where the frame was pushed. -/
def now (t : Trail) (m : Machine) : Site :=
  match m.control with
  | .execute (.block ..) _ => t.here.inner
  | .evaluate .. | .execute .. => t.here
  | .answer _ =>
    match m.called? with
    | some f => (t.declared[f.id]?.getD t.here).inner
    | none => t.waiting.headD t.here

/-- The sites of the frames that the next step leaves alone. -/
def below (t : Trail) (m : Machine) : List Site :=
  match m.control with
  | .answer _ => t.waiting.tail
  | _ => t.waiting

/-- The trail after the next step of a machine. -/
def next (t : Trail) (m : Machine) : Trail where
  here := t.now m
  waiting := List.replicate (m.step.frames.length - (t.below m).length) (t.now m) ++ t.below m
  declared :=
    match m.control with
    | .execute (.function ..) _ => t.declared ++ [t.here]
    | _ => t.declared

/-- The trail after some steps of a machine. -/
def after (t : Trail) (m : Machine) : Nat → Trail
  | 0 => t
  | n + 1 => (t.next m).after m.step n

end Trail

/-! ## Levels -/

/-- On which level scopes were made, by their numbers: under which global scope, and how far below
it. -/
abbrev Levels : Type := List (ScopeId × Nat)

/-- The level of the scope that code at this site runs in. -/
def Site.level (site : Site) : ScopeId × Nat := (site.globals, site.depth)

/-- The same scopes in the same places at most, whatever they bind. -/
structure Store.Outlines (store later : Store) : Prop where
  nextScope : later.nextScope = store.nextScope
  scopes : ∀ scope ∈ later.scopes, ∃ old ∈ store.scopes, old.id = scope.id ∧
    old.parent = scope.parent

/-- The levels are those of the scopes of a store: a global scope is on its own, and any other is
one below its parent. -/
structure Laid (levels : Levels) (store : Store) : Prop where
  length : levels.length = store.nextScope
  globals : ∀ scope ∈ store.scopes, scope.parent = none → levels[scope.id]? = some (scope.id, 0)
  inner : ∀ scope ∈ store.scopes, ∀ p, scope.parent = some p →
    ∃ level, levels[p]? = some level ∧ levels[scope.id]? = some (level.1, level.2 + 1)

namespace Store

variable {store later : Store} {s : ScopeId}

theorem outlines_refl (store : Store) : store.Outlines store :=
  ⟨rfl, fun scope hs => ⟨scope, hs, rfl, rfl⟩⟩

theorem Outlines.trans {last : Store} (h : store.Outlines later) (h' : later.Outlines last) :
    store.Outlines last := by
  refine ⟨h'.nextScope.trans h.nextScope, fun scope hs => ?_⟩
  obtain ⟨mid, hmid, hid, hp⟩ := h'.scopes scope hs
  obtain ⟨old, hold, hid', hp'⟩ := h.scopes mid hmid
  exact ⟨old, hold, hid'.trans hid, hp'.trans hp⟩

theorem outlines_update (store : Store) (s : ScopeId) {f : Scope → Scope}
    (hid : ∀ scope, (f scope).id = scope.id) (hp : ∀ scope, (f scope).parent = scope.parent) :
    store.Outlines (store.update s f) := by
  refine ⟨rfl, fun scope hs => ?_⟩
  rcases mem_updateIn hs with hold | ⟨old, hold, -, rfl⟩
  · exact ⟨scope, hold, rfl, rfl⟩
  · exact ⟨old, hold, (hid old).symm, (hp old).symm⟩

theorem outlines_define (store : Store) (s : ScopeId) (name : String) (v : Value) :
    store.Outlines (store.define s name v) :=
  store.outlines_update s (fun _ => rfl) fun _ => rfl

theorem outlines_newFunction (store : Store) (s : ScopeId) (name : String)
    (parameters : List String) (body : List Stmt) :
    store.Outlines (store.newFunction s name parameters body).2 :=
  ⟨rfl, (store.outlines_update s (f := fun scope => { scope with declares := true })
    (fun _ => rfl) fun _ => rfl).scopes⟩

theorem outlines_assign? {name : String} {v : Value} (h : store.assign? s name v = some later) :
    store.Outlines later := by
  have hlike := like_assign? h
  obtain ⟨scopes, -, rfl⟩ := Option.map_eq_some_iff.mp h
  refine ⟨rfl, fun scope hs => ?_⟩
  obtain ⟨old, hold, hsame⟩ := forall₂_mem_left hlike.flip hs
  exact ⟨old, hold, hsame.id.symm, hsame.parent.symm⟩

theorem outlines_bindParameters (store : Store) (s : ScopeId) (parameters : List String)
    (arguments : List Value) :
    store.Outlines (Machine.bindParameters store s parameters arguments) := by
  rw [Machine.bindParameters]
  induction parameters.zip arguments generalizing store with
  | nil => exact store.outlines_refl
  | cons entry rest ih => exact (store.outlines_define s entry.1 entry.2).trans (ih _)

theorem outlines_leave (store : Store) (held : ScopeId → List Closure) (s : ScopeId) :
    store.Outlines (store.leave held s) := by
  refine ⟨leave_retains.nextScope store held s, fun scope hs => ?_⟩
  rcases mem_leave held s hs with hold | ⟨old, hold, -, rfl⟩
  · exact ⟨scope, hold, rfl, rfl⟩
  · exact ⟨old, hold, rfl, rfl⟩

/-- Only the declaration of a function takes a number for one. -/
theorem nextFunction_bindParameters (store : Store) (s : ScopeId) (parameters : List String)
    (arguments : List Value) :
    (Machine.bindParameters store s parameters arguments).nextFunction = store.nextFunction := by
  rw [Machine.bindParameters]
  induction parameters.zip arguments generalizing store with
  | nil => rfl
  | cons entry rest ih =>
    rw [List.foldl_cons, ih]
    rfl

end Store

namespace Laid

variable {levels : Levels} {store later : Store}

theorem of_outlines (h : Laid levels store) (ho : store.Outlines later) : Laid levels later := by
  refine ⟨h.length.trans ho.nextScope.symm, fun scope hs hp => ?_, fun scope hs p hp => ?_⟩
  · obtain ⟨old, hold, hid, hparent⟩ := ho.scopes scope hs
    rw [← hid]
    exact h.globals old hold (hparent.trans hp)
  · obtain ⟨old, hold, hid, hparent⟩ := ho.scopes scope hs
    rw [← hid]
    exact h.inner old hold p (hparent.trans hp)

/-- A level stays when others are added. -/
theorem getElem?_append {levels more : Levels} {s : ScopeId} {level : ScopeId × Nat}
    (h : levels[s]? = some level) : (levels ++ more)[s]? = some level := by
  obtain ⟨hlt, -⟩ := List.getElem?_eq_some_iff.mp h
  rwa [List.getElem?_append_left hlt]

/-- A new scope gets a level: its own if it is a global one, and else one below its parent. -/
theorem newScope (h : Laid levels store) {parent : Option ScopeId} {level : ScopeId × Nat}
    (hglobal : parent = none → level = (store.nextScope, 0))
    (hinner : ∀ p, parent = some p → ∃ outer, levels[p]? = some outer ∧
      level = (outer.1, outer.2 + 1)) :
    Laid (levels ++ [level]) (store.newScope parent).2 := by
  have hnew : (levels ++ [level])[store.nextScope]? = some level := by
    rw [← h.length]
    exact List.getElem?_concat_length
  refine ⟨?_, fun scope hs hp => ?_, fun scope hs p hp => ?_⟩
  · rw [List.length_append, List.length_singleton, h.length]
    rfl
  · rcases List.mem_cons.mp hs with rfl | hold
    · rw [hnew, hglobal hp]
    · exact getElem?_append (h.globals scope hold hp)
  · rcases List.mem_cons.mp hs with rfl | hold
    · obtain ⟨outer, houter, rfl⟩ := hinner p hp
      exact ⟨outer, getElem?_append houter, hnew⟩
    · obtain ⟨outer, houter, hscope⟩ := h.inner scope hold p hp
      exact ⟨outer, getElem?_append houter, getElem?_append hscope⟩

end Laid

/-! ## Code at its site -/

/-- The code that is being run. -/
def Control.code : Control → List Code
  | evaluate e _ => [.expression e]
  | execute s _ => [.statement s]
  | answer _ => []

/-- The scope that it is run in. -/
def Control.scopes : Control → List ScopeId
  | evaluate _ s | execute _ s => [s]
  | answer _ => []

/-- Bounds to the code at a site: it stands there, and the scopes that it is run in are on the level
of the site. -/
def Site.bounds (levels : Levels) (site : Site) : Bounds where
  runs code _ := Within site.program site.depth code
  works s := levels[s]? = some site.level

theorem Site.bounds_sealed (levels : Levels) (site : Site) : (site.bounds levels).Sealed :=
  ⟨fun h hpart => .part h hpart, fun _ _ => trivial⟩

/-- The function was declared at the site that is noted for it, and its scope is on the level of
that site. -/
def Closure.DeclaredAt (levels : Levels) (declared : List Site) (f : Closure) : Prop :=
  ∃ site p, declared[f.id]? = some site ∧
    Within site.program site.depth (.statement (.function f.name f.parameters f.body p)) ∧
    levels[f.scope]? = some site.level

namespace Site

variable {levels : Levels} {site : Site}

theorem meets (levels : Levels) (site : Site) (v : Value) : v.Meets (site.bounds levels).knows :=
  v.meets_of_forall fun _ => trivial

/-- Answers are not bound to a place. -/
theorem answer_keepsTo (levels : Levels) (site : Site) (a : Answer) :
    a.KeepsTo (site.bounds levels) :=
  ⟨fun v _ => site.meets levels v, fun _ _ => trivial⟩

/-- More levels change nothing. -/
theorem frame_keepsTo_append {frame : Frame} (h : frame.KeepsTo (site.bounds levels))
    (more : Levels) : frame.KeepsTo (site.bounds (levels ++ more)) :=
  ⟨h.code, fun s hs => Laid.getElem?_append (h.scopes s hs), h.leaves, h.values, h.echoes⟩

/-- Whatever control stands at a site says where its code stands, and on which level its scope
is. -/
theorem of_control_keepsTo {control : Control} (h : control.KeepsTo (site.bounds levels)) :
    (∀ code ∈ control.code, Within site.program site.depth code) ∧
      ∀ s ∈ control.scopes, levels[s]? = some site.level := by
  cases control with
  | answer a =>
    exact ⟨fun _ hc => absurd hc List.not_mem_nil, fun _ hs => absurd hs List.not_mem_nil⟩
  | _ => exact ⟨List.forall_mem_singleton.mpr h.2, List.forall_mem_singleton.mpr h.1⟩

end Site

/-! ## Steps -/

/-- What a step leads to: the machine goes on with code at a site, and what it has pushed on the
rest of the frames stands there as well. The levels are right. -/
structure Resumes (levels : Levels) (site : Site) (rest : List Frame) (m : Machine) : Prop where
  control : m.control.KeepsTo (site.bounds levels)
  frames : ∃ pushed, m.frames = pushed ++ rest ∧
    ∀ frame ∈ pushed, frame.KeepsTo (site.bounds levels)
  laid : Laid levels m.world.store

section Steps

variable {levels : Levels} {site : Site} {frames : List Frame} {w : World}

/-- Scopes are made where braces are entered, and nowhere else. -/
theorem perform_outlines {effect : Effect} (hstays : effect.enters = false) (frames : List Frame)
    (w : World) :
    w.store.Outlines (Machine.perform Store.leave effect frames w).world.store := by
  cases effect with
  | lookUp name p s =>
    simp only [Machine.perform]
    split <;> exact w.store.outlines_refl
  | define name v s => exact w.store.outlines_define s name v
  | assign name v p s =>
    simp only [Machine.perform]
    split
    · next hassign => exact Store.outlines_assign? hassign
    · exact w.store.outlines_refl
  | declare name parameters body s =>
    exact (w.store.outlines_newFunction s name parameters body).trans
      (Store.outlines_define _ s name _)
  | enterBlock body s => cases hstays
  | call f arguments p =>
    rcases Machine.call_cases f arguments p w with ⟨r, used, hcall, -, -⟩ | ⟨g, rfl, -, -, -⟩
    · have hcall : Machine.call f arguments p frames w = _ := hcall frames w.store
      rw [Machine.perform, hcall]
      exact w.store.outlines_refl
    · cases hstays
  | leaveBlock a s => exact w.store.outlines_leave _ s
  | leaveCall a s => exact w.store.outlines_leave _ s
  | _ => exact w.store.outlines_refl

/-- Whether an effect makes a function. -/
def Effect.declares : Effect → Bool
  | .declare .. => true
  | _ => false

theorem perform_nextFunction (effect : Effect) (frames : List Frame) (w : World) :
    (Machine.perform Store.leave effect frames w).world.store.nextFunction
      = if effect.declares then w.store.nextFunction + 1 else w.store.nextFunction := by
  cases effect with
  | lookUp name p s =>
    simp only [Machine.perform]
    split <;> rfl
  | assign name v p s =>
    simp only [Machine.perform]
    split
    · next hassign =>
      obtain ⟨scopes, -, rfl⟩ := Option.map_eq_some_iff.mp hassign
      rfl
    · rfl
  | call f arguments p =>
    rcases Machine.call_cases f arguments p w with ⟨r, used, hcall, -, -⟩ | ⟨g, -, -, -, hcall⟩
    · have hcall : Machine.call f arguments p frames w = _ := hcall frames w.store
      rw [Machine.perform, hcall]
      rfl
    · have hcall : Machine.call f arguments p frames w = _ := hcall frames w.store
      rw [Machine.perform, hcall]
      exact Store.nextFunction_bindParameters _ _ _ _
  | leaveBlock a s => exact Store.leave_retains.nextFunction w.store _ s
  | leaveCall a s => exact Store.leave_retains.nextFunction w.store _ s
  | _ => rfl

/-- A move that enters no braces goes on where it is made. -/
theorem resumes_of_stays (hl : Laid levels w.store) {mv : Move}
    (hmv : mv.KeepsTo (site.bounds levels)) (hstays : mv.effect.enters = false) :
    Resumes levels site frames (Machine.make Store.leave mv frames w) := by
  obtain ⟨hcontrol, hframes⟩ := Machine.perform_keepsTo_of_stays (site.bounds_sealed levels)
    hmv.effect (fun v _ => site.meets levels v) hstays (mv.pushed ++ frames)
  exact ⟨hcontrol, ⟨mv.pushed, hframes, hmv.pushed⟩, hl.of_outlines (perform_outlines hstays _ w)⟩

/-- A new scope for statements between braces: it is one level further in, and so are they. -/
theorem resumes_runAll (hl : Laid levels w.store) {c : Code} {s : ScopeId} {leave : Frame}
    {w' : World} {body : List Stmt} (hc : Within site.program site.depth c) (hbody : c.body = body)
    (hs : levels[s]? = some site.level) (hleft : leave.left? = some w.store.nextScope)
    (ho : (w.store.newScope (some s)).2.Outlines w'.store) :
    Resumes (levels ++ [site.inner.level]) site.inner frames
      (Machine.runAll body w.store.nextScope (leave :: frames) w') := by
  have hnew : (levels ++ [site.inner.level])[w.store.nextScope]? = some site.inner.level := by
    rw [← hl.length]
    exact List.getElem?_concat_length
  have hlaid : Laid (levels ++ [site.inner.level]) (w.store.newScope (some s)).2 := by
    refine hl.newScope nofun fun p hp => ?_
    cases hp
    exact ⟨site.level, hs, rfl⟩
  have hstatements : ∀ stmt ∈ body, Within site.inner.program site.inner.depth (.statement stmt) :=
    fun stmt hmem => .body hc (hbody.symm ▸ hmem)
  have hsequence : (Frame.sequence body w.store.nextScope).KeepsTo
      (site.inner.bounds (levels ++ [site.inner.level])) :=
    .ofCode hstatements hnew (by simp [Frame.scopes]) rfl rfl rfl
  have hleave : leave.KeepsTo (site.inner.bounds (levels ++ [site.inner.level])) :=
    .ofLeaving hleft hnew trivial
  refine ⟨.normal, ⟨[.sequence body w.store.nextScope, leave], rfl, ?_⟩, hlaid.of_outlines ho⟩
  exact List.forall_mem_cons.mpr ⟨hsequence, List.forall_mem_singleton.mpr hleave⟩

/-- A call goes on inside of the declaration of the function, unless it is refused. -/
theorem call_resumes (hl : Laid levels w.store) {declared : List Site} {g : Closure}
    (hg : g.DeclaredAt levels declared) (arguments : List Value) (p : Position) (other : Site) :
    ∃ more, Resumes (levels ++ more) (declared[g.id]?.getD other).inner frames
      (Machine.call (.function g) arguments p frames w) := by
  obtain ⟨site, q, hsite, hwithin, hs⟩ := hg
  rw [hsite, Option.getD_some]
  rcases Machine.call_cases (.function g) arguments p w with
    ⟨r, used, hcall, -, -⟩ | ⟨g', heq, -, -, hcall⟩
  · have hcall : Machine.call (.function g) arguments p frames w = _ := hcall frames w.store
    refine ⟨[], ?_⟩
    rw [hcall, List.append_nil]
    exact ⟨site.inner.answer_keepsTo levels _,
      ⟨[], rfl, fun _ hf => absurd hf List.not_mem_nil⟩, hl⟩
  · have hcall : Machine.call (.function g) arguments p frames w = _ := hcall frames w.store
    cases heq
    refine ⟨[site.inner.level], ?_⟩
    rw [hcall]
    exact resumes_runAll hl hwithin rfl hs rfl (Store.outlines_bindParameters _ _ _ _)

end Steps

/-! ## The trail is right -/

theorem Machine.AllFunctions.mono {P Q : Closure → Prop} {m : Machine} (h : m.AllFunctions P)
    (hsub : ∀ f, P f → Q f) : m.AllFunctions Q where
  held v hv := (h.held v hv).imp fun f _ => hsub f
  waiting frame hf v hv := (h.waiting frame hf v hv).imp fun f _ => hsub f
  bound v hv := (h.bound v hv).imp fun f _ => hsub f

theorem Closure.DeclaredAt.mono {levels : Levels} {declared : List Site} {f : Closure}
    (h : f.DeclaredAt levels declared) (more : Levels) (later : List Site) :
    f.DeclaredAt (levels ++ more) (declared ++ later) := by
  obtain ⟨site, p, hsite, hwithin, hs⟩ := h
  refine ⟨site, p, ?_, hwithin, Laid.getElem?_append hs⟩
  rwa [List.getElem?_append_left (List.getElem?_eq_some_iff.mp hsite).1]

/-- A call of a function of the program: it is held by then. -/
theorem Machine.step_of_called? {m : Machine} {g : Closure} (h : m.called? = some g) :
    ∃ v frame frames arguments p, m.control = .answer (.value v) ∧ m.frames = frame :: frames ∧
      (.function g = v ∨ .function g ∈ frame.values) ∧
      m.step = call (.function g) arguments p frames m.world := by
  obtain ⟨control, frames, w⟩ := m
  cases control with
  | answer a =>
    cases a with
    | value v =>
      cases frames with
      | nil => cases h
      | cons frame frames =>
        unfold called? at h
        dsimp only at h
        split at h
        · next f hcalls =>
          cases h
          cases frame with
          | callee arguments p s =>
            cases arguments with
            | cons e es => cases hcalls
            | nil =>
              cases hcalls
              exact ⟨_, _, frames, _, p, rfl, rfl, .inl rfl, rfl⟩
          | argument f done remaining p s =>
            cases remaining with
            | cons e es => cases hcalls
            | nil =>
              cases hcalls
              exact ⟨v, _, frames, _, p, rfl, rfl, .inr List.mem_cons_self, rfl⟩
          | _ => cases hcalls
        · cases h
    | _ => cases h
  | _ => cases h

/-- What a frame does with an answer calls a function of the program only where `called?` says
so. -/
theorem Machine.stays_of_called?_eq_none {a : Answer} {frame : Frame} {frames : List Frame}
    {w : World} (h : Machine.called? ⟨.answer a, frame :: frames, w⟩ = none) :
    (frame.move a).effect.enters = false := by
  have hyields := frame.yields a
  generalize (frame.move a).effect = effect at hyields
  cases hyields with
  | callee p s v =>
    cases v with
    | function g => cases h
    | _ => rfl
  | argument f done p s v =>
    cases f with
    | function g => cases h
    | _ => rfl
  | _ => rfl

namespace Trail

/-- The code of a machine stands where its trail says, its functions were declared where the trail
says, and the levels are those of its scopes. -/
structure Fits (levels : Levels) (t : Trail) (m : Machine) : Prop where
  control : m.control.KeepsTo (t.here.bounds levels)
  frames : List.Forall₂ (fun frame site => frame.KeepsTo (site.bounds levels)) m.frames t.waiting
  laid : Laid levels m.world.store
  length : t.declared.length = m.world.store.nextFunction
  functions : m.AllFunctions (Closure.DeclaredAt levels t.declared)

/-- The frames that the next step leaves alone. -/
def belowOf (m : Machine) : List Frame :=
  match m.control with
  | .answer _ => m.frames.tail
  | _ => m.frames

/-- With an answer the machine goes on where the frame waits, or in the body of the function that is
called. -/
theorem Fits.resumes_answer {levels : Levels} {t : Trail} {a : Answer} {frames : List Frame}
    {w : World} (h : t.Fits levels ⟨.answer a, frames, w⟩) :
    ∃ more, Resumes (levels ++ more) (t.now ⟨.answer a, frames, w⟩)
      (belowOf ⟨.answer a, frames, w⟩) (Machine.step ⟨.answer a, frames, w⟩) := by
  cases hcalled : Machine.called? ⟨.answer a, frames, w⟩ with
  | some g =>
    have hnow : t.now ⟨.answer a, frames, w⟩ = (t.declared[g.id]?.getD t.here).inner := by
      rw [now, hcalled]
    obtain ⟨v, frame, rest, arguments, p, hc, hf, hg, hstep⟩ := Machine.step_of_called? hcalled
    cases hc
    cases hf
    -- The trail knows where the function stands, whoever calls it.
    have hdeclared : g.DeclaredAt levels t.declared := by
      rcases hg with rfl | hwaits
      · exact h.functions.held _ List.mem_cons_self
      · exact h.functions.waiting frame List.mem_cons_self _ hwaits
    rw [hnow, hstep]
    exact call_resumes h.laid hdeclared arguments p t.here
  | none =>
    refine ⟨[], ?_⟩
    have hnow : t.now ⟨.answer a, frames, w⟩ = t.waiting.headD t.here := by
      rw [now, hcalled]
    rw [List.append_nil, hnow]
    cases frames with
    | nil =>
      exact ⟨Site.answer_keepsTo levels _ a, ⟨[], rfl, fun _ hf => absurd hf List.not_mem_nil⟩,
        h.laid⟩
    | cons frame frames =>
      obtain ⟨site, rest, hframe, -, hwaiting⟩ := List.forall₂_cons_left_iff.mp h.frames
      rw [hwaiting, Machine.step_eq]
      have hmv := Frame.move_keepsTo (site.bounds_sealed levels) hframe
        (site.answer_keepsTo levels a)
      exact resumes_of_stays h.laid hmv (Machine.stays_of_called?_eq_none hcalled)

/-- Whatever the machine does next, it goes on at the site that the trail says. -/
theorem Fits.resumes {levels : Levels} {t : Trail} {m : Machine} (h : t.Fits levels m) :
    ∃ more, Resumes (levels ++ more) (t.now m) (belowOf m) m.step := by
  obtain ⟨control, frames, w⟩ := m
  have hsealed := t.here.bounds_sealed levels
  cases control with
  | evaluate e s =>
    refine ⟨[], ?_⟩
    rw [List.append_nil, Machine.step_eq]
    have hmv := Expr.move_keepsTo hsealed h.control.1 h.control.2
    exact resumes_of_stays h.laid hmv (by cases e <;> rfl)
  | execute stmt s =>
    by_cases hblock : ∃ body p, stmt = .block body p
    · obtain ⟨body, p, rfl⟩ := hblock
      exact ⟨_, resumes_runAll h.laid h.control.2 rfl h.control.1 rfl (Store.outlines_refl _)⟩
    · -- Only a block makes a scope, so no level is added.
      refine ⟨[], ?_⟩
      have hnow : t.now ⟨.execute stmt s, frames, w⟩ = t.here := by
        cases stmt with
        | block body p => exact absurd ⟨body, p, rfl⟩ hblock
        | _ => rfl
      have hstays : (stmt.move s).effect.enters = false := by
        cases stmt with
        | block body p => exact absurd ⟨body, p, rfl⟩ hblock
        | declare name initial p => cases initial <;> rfl
        | return_ value p => cases value <;> rfl
        | _ => rfl
      rw [List.append_nil, hnow, Machine.step_eq]
      exact resumes_of_stays h.laid (Stmt.move_keepsTo hsealed h.control.1 h.control.2) hstays
  | answer a => exact h.resumes_answer

/-- The trail notes every function that is declared. -/
theorem length_declared_next {t : Trail} {m : Machine}
    (h : t.declared.length = m.world.store.nextFunction) :
    (t.next m).declared.length = m.step.world.store.nextFunction := by
  rw [Machine.step_eq]
  rcases m.stepLeaving_cases with ⟨mv, below, hmoves, hstep⟩ | ⟨⟨a, ha⟩, hstep⟩
  · rw [hstep, perform_nextFunction, next]
    cases hd : mv.effect.declares with
    | true =>
      cases heffect : mv.effect <;> rw [heffect] at hd <;> cases hd
      obtain ⟨p, hc⟩ := hmoves.of_declare heffect
      simp only [hc, if_true, List.length_append, List.length_singleton, h]
    | false =>
      -- Only a declaration could make the list longer, and it would make a function.
      split
      · next hc =>
        rw [hc] at hmoves
        cases hmoves
        cases hd
      · exact h
  · rw [hstep, next]
    split
    · next hc =>
      rw [Machine.result?, hc] at ha
      cases ha
    · exact h

/-- **One step.** -/
theorem Fits.step {levels : Levels} {t : Trail} {m : Machine} (h : t.Fits levels m) :
    ∃ more, (t.next m).Fits (levels ++ more) m.step := by
  obtain ⟨more, hr⟩ := h.resumes
  have hbelow : List.Forall₂ (fun frame site => frame.KeepsTo (site.bounds (levels ++ more)))
      (belowOf m) (t.below m) := by
    have hmono := h.frames.imp fun frame site hframe => Site.frame_keepsTo_append hframe more
    unfold belowOf below
    cases m.control with
    | answer a => simpa only [List.drop_one] using List.forall₂_drop 1 hmono
    | _ => exact hmono
  obtain ⟨pushed, hframes, hpushed⟩ := hr.frames
  refine ⟨more, hr.control, ?_, hr.laid, length_declared_next h.length, ?_⟩
  · -- All frames that were pushed get the site of the code that the machine goes on with.
    have hcount : m.step.frames.length - (t.below m).length = pushed.length := by
      rw [hframes, List.length_append, hbelow.length_eq, Nat.add_sub_cancel]
    have htop : List.Forall₂ (fun frame site => frame.KeepsTo (site.bounds (levels ++ more))) pushed
        (List.replicate pushed.length (t.now m)) := by
      clear hframes hcount
      induction pushed with
      | nil => exact .nil
      | cons frame rest ih =>
        rw [List.forall_mem_cons] at hpushed
        exact .cons hpushed.1 (ih hpushed.2)
    rw [next, hcount, hframes]
    exact List.rel_append htop hbelow
  · obtain ⟨later, hlater⟩ : ∃ later, (t.next m).declared = t.declared ++ later := by
      rw [next]
      split
      · exact ⟨_, rfl⟩
      · exact ⟨[], (List.append_nil _).symm⟩
    refine Machine.AllFunctions.step ?_ fun name parameters body p s hc => ?_
    · rw [hlater]
      exact h.functions.mono fun f hf => hf.mono more later
    · -- The new function stands where the code that declares it does.
      have hcontrol := h.control
      rw [hc] at hcontrol
      refine ⟨t.here, p, ?_, hcontrol.2, Laid.getElem?_append hcontrol.1⟩
      rw [next, hc, ← h.length]
      exact List.getElem?_concat_length

/-- **Whole runs.** -/
theorem Fits.run {levels : Levels} {t : Trail} {m : Machine} (h : t.Fits levels m) (n : Nat) :
    ∃ more, (t.after m n).Fits (levels ++ more) (m.run n) := by
  induction n generalizing levels t m with
  | zero =>
    refine ⟨[], ?_⟩
    rw [List.append_nil]
    exact h
  | succ n ih =>
    obtain ⟨more, hstep⟩ := h.step
    obtain ⟨rest, hrun⟩ := ih hstep
    refine ⟨more ++ rest, ?_⟩
    rw [← List.append_assoc, Machine.run_succ]
    exact hrun

/-- Every site that a trail mentions belongs to one of the programs that were submitted. -/
structure From (submitted : List (List Stmt × ScopeId)) (t : Trail) : Prop where
  here : (t.here.program, t.here.globals) ∈ submitted
  waiting : ∀ site ∈ t.waiting, (site.program, site.globals) ∈ submitted
  declared : ∀ site ∈ t.declared, (site.program, site.globals) ∈ submitted

theorem from_start (program : List Stmt) (globals : ScopeId) {declared : List Site}
    {submitted : List (List Stmt × ScopeId)}
    (h : ∀ site ∈ declared, (site.program, site.globals) ∈ submitted) :
    (start program globals declared).From ((program, globals) :: submitted) :=
  ⟨List.mem_cons_self, List.forall_mem_singleton.mpr List.mem_cons_self,
    fun site hsite => List.mem_cons_of_mem _ (h site hsite)⟩

theorem From.next {submitted : List (List Stmt × ScopeId)} {t : Trail} (h : t.From submitted)
    (m : Machine) : (t.next m).From submitted := by
  have hnow : ((t.now m).program, (t.now m).globals) ∈ submitted := by
    unfold now
    split
    · exact h.here
    · exact h.here
    · exact h.here
    · split
      · next f _ =>
        cases hsite : t.declared[f.id]? with
        | none => exact h.here
        | some site => exact h.declared site (List.mem_of_getElem? hsite)
      · cases hw : t.waiting with
        | nil => exact h.here
        | cons site rest => exact h.waiting site (hw ▸ List.mem_cons_self)
  refine ⟨hnow, fun site hsite => ?_, fun site hsite => ?_⟩
  · rcases List.mem_append.mp hsite with hpushed | hbelow
    · rw [List.eq_of_mem_replicate hpushed]
      exact hnow
    · unfold below at hbelow
      split at hbelow
      · exact h.waiting site (List.mem_of_mem_tail hbelow)
      · exact h.waiting site hbelow
  · unfold Trail.next at hsite
    dsimp only at hsite
    split at hsite
    · rcases List.mem_append.mp hsite with hold | hnew
      · exact h.declared site hold
      · rw [List.mem_singleton.mp hnew]
        exact h.here
    · exact h.declared site hsite

theorem From.after {submitted : List (List Stmt × ScopeId)} {t : Trail} (h : t.From submitted)
    (m : Machine) (n : Nat) : (t.after m n).From submitted := by
  induction n generalizing t m with
  | zero => exact h
  | succ n ih => exact ih (h.next m) m.step

end Trail

end Scripting
