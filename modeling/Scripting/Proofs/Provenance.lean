/-
Where functions come from.

The functions that a machine has to do with are bound in its store, wait in its frames, or are in
the answer on its way. No step makes one up: each comes from one of these places, or the machine
is just declaring it. So a property of functions that every declaration provides holds of all
functions at every moment, also of those that earlier submissions have left in the store.

The same is said here of all that bounds can be set to. What a machine mentions comes from what it
mentioned before, from the store, or from the body of a block or a function that is entered.
-/
import Scripting.Proofs.Steps

set_option autoImplicit false

namespace Scripting

/-! ## Values in a store -/

namespace Store

/-- Some scope of the store binds a name to the value. -/
def Binds (store : Store) (v : Value) : Prop :=
  ∃ scope ∈ store.scopes, ∃ entry ∈ scope.bindings, entry.2 = v

variable {store : Store} {u v : Value} {s : ScopeId} {name : String}

theorem binds_of_get? (h : store.get? s name = some v) : store.Binds v := by
  rw [get?_eq_findSome?] at h
  obtain ⟨scope, hmem, hget⟩ := List.exists_of_findSome?_eq_some h
  exact ⟨scope, mem_of_mem_chainIn hmem, (name, v), Bindings.mem_of_get?_eq_some hget, rfl⟩

/-- Fewer scopes bind fewer values. -/
theorem Binds.of_subset {other : Store} (h : other.Binds v)
    (hsub : ∀ scope ∈ other.scopes, scope ∈ store.scopes) : store.Binds v := by
  obtain ⟨scope, hmem, hentry⟩ := h
  exact ⟨scope, hsub scope hmem, hentry⟩

/-- A change of one scope that brings in no values but those in `fresh`. -/
theorem Binds.of_update {f : Scope → Scope} {fresh : List Value} (h : (store.update s f).Binds u)
    (hf : ∀ scope, ∀ entry ∈ (f scope).bindings, entry ∈ scope.bindings ∨ entry.2 ∈ fresh) :
    store.Binds u ∨ u ∈ fresh := by
  obtain ⟨scope, hmem, entry, hentry, rfl⟩ := h
  rcases mem_updateIn hmem with hold | ⟨old, hold, -, rfl⟩
  · exact .inl ⟨scope, hold, entry, hentry, rfl⟩
  · rcases hf old entry hentry with hin | hfresh
    · exact .inl ⟨old, hold, entry, hin, rfl⟩
    · exact .inr hfresh

theorem Binds.of_define (h : (store.define s name v).Binds u) : store.Binds u ∨ u = v := by
  rw [← List.mem_singleton]
  apply h.of_update
  intro scope entry hentry
  rw [List.mem_singleton]
  exact Bindings.mem_set hentry

theorem Binds.of_clear (h : (store.clear s).Binds u) : store.Binds u := by
  have hold : store.Binds u ∨ u ∈ [] := h.of_update fun scope entry hentry => .inl (by cases hentry)
  exact hold.resolve_right List.not_mem_nil

theorem Binds.of_newFunction (name : String) (parameters : List String) (body : List Stmt)
    (h : (store.newFunction s name parameters body).2.Binds u) : store.Binds u := by
  have hmark : (store.update s fun scope => { scope with declares := true }).Binds u := h
  have hold : store.Binds u ∨ u ∈ [] := hmark.of_update fun scope entry hentry => .inl hentry
  exact hold.resolve_right List.not_mem_nil

/-- Assigning changes the list in one place. -/
theorem mem_assignIn {scopes scopes' : List Scope} {scope : Scope}
    (h : assignIn name v scopes s = some scopes') (hmem : scope ∈ scopes') :
    scope ∈ scopes ∨
      ∃ old ∈ scopes, scope = { old with bindings := old.bindings.set name v } := by
  induction scopes generalizing s scopes' with
  | nil => cases h
  | cons head older ih =>
    -- Where the name is not found, the walk goes on behind the head.
    have hpass : ∀ t, (assignIn name v older t).map (head :: ·) = some scopes' →
        scope ∈ head :: older ∨
          ∃ old ∈ head :: older, scope = { old with bindings := old.bindings.set name v } := by
      intro t ht
      obtain ⟨rest, hrest, rfl⟩ := Option.map_eq_some_iff.mp ht
      rcases List.mem_cons.mp hmem with rfl | hin
      · exact .inl List.mem_cons_self
      · rcases ih hrest hin with hold | ⟨old, hold, heq⟩
        · exact .inl (List.mem_cons_of_mem _ hold)
        · exact .inr ⟨old, List.mem_cons_of_mem _ hold, heq⟩
    rw [assignIn] at h
    split at h
    · split at h
      · cases h
        rcases List.mem_cons.mp hmem with rfl | hin
        · exact .inr ⟨head, List.mem_cons_self, rfl⟩
        · exact .inl (List.mem_cons_of_mem _ hin)
      · split at h
        · exact hpass _ h
        · cases h
    · exact hpass _ h

theorem Binds.of_assign? {other : Store} (h : store.assign? s name v = some other)
    (hu : other.Binds u) : store.Binds u ∨ u = v := by
  obtain ⟨scopes, hscopes, rfl⟩ := Option.map_eq_some_iff.mp h
  obtain ⟨scope, hmem, entry, hentry, rfl⟩ := hu
  rcases mem_assignIn hscopes hmem with hold | ⟨old, hold, heq⟩
  · exact .inl ⟨scope, hold, entry, hentry, rfl⟩
  · rw [heq] at hentry
    rcases Bindings.mem_set hentry with hin | hv
    · exact .inl ⟨old, hold, entry, hin, rfl⟩
    · exact .inr hv

theorem Binds.of_newScope {parent : Option ScopeId} (h : (store.newScope parent).2.Binds u) :
    store.Binds u := by
  obtain ⟨scope, hmem, entry, hentry, rfl⟩ := h
  rcases List.mem_cons.mp hmem with rfl | hin
  · cases hentry
  · exact ⟨scope, hin, entry, hentry, rfl⟩

theorem Binds.of_settle {held : ScopeId → List Closure} (h : (store.settle held).Binds u) :
    store.Binds u :=
  h.of_subset fun _ hs => (store.settle_sublist held).subset hs

theorem Binds.of_leave {held : ScopeId → List Closure} (h : (store.leave held s).Binds u) :
    store.Binds u := by
  have hreleased : ((store.settle held).release 1 held s).2.Binds u := h.of_settle
  apply Binds.of_settle
  rcases release_cases held s (store.settle held) 1 with heq | ⟨-, -, -, heq⟩
  · exact heq ▸ hreleased
  · rw [heq] at hreleased
    exact hreleased.of_clear

theorem Binds.of_bindParameters {parameters : List String} {arguments : List Value}
    (h : (Machine.bindParameters store s parameters arguments).Binds u) :
    store.Binds u ∨ u ∈ arguments := by
  unfold Machine.bindParameters at h
  have hin : ∀ entry ∈ parameters.zip arguments, entry.2 ∈ arguments :=
    fun entry hentry => (List.of_mem_zip hentry).2
  generalize parameters.zip arguments = entries at h hin
  induction entries generalizing store with
  | nil => exact .inl h
  | cons entry rest ih =>
    rcases ih h (fun e he => hin e (List.mem_cons_of_mem _ he)) with hdefined | hargument
    · rcases hdefined.of_define with hold | rfl
      · exact .inl hold
      · exact .inr (hin entry List.mem_cons_self)
    · exact .inr hargument

theorem Binds.of_defineBuiltins (h : (store.defineBuiltins s).Binds u) :
    store.Binds u ∨ ∃ b, u = .builtin b := by
  unfold defineBuiltins at h
  generalize Builtin.all = builtins at h
  induction builtins generalizing store with
  | nil => exact .inl h
  | cons b rest ih =>
    rcases ih h with hdefined | hbuiltin
    · rcases hdefined.of_define with hold | rfl
      · exact .inl hold
      · exact .inr ⟨b, rfl⟩
    · exact .inr hbuiltin

end Store

/-! ## What a machine keeps to -/

/-- All that a machine mentions is inside of the bounds, and so are the functions that are bound in
its store. -/
structure Machine.KeepsTo (b : Bounds) (m : Machine) : Prop where
  control : m.control.KeepsTo b
  frames : ∀ frame ∈ m.frames, frame.KeepsTo b
  bound : ∀ v, m.world.store.Binds v → v.Meets b.knows

/-- What a store can add to the code and the scopes in use is inside of the bounds: the next scope,
and code between braces that is run in it. -/
structure Bounds.Suits (b : Bounds) (store : Store) : Prop extends b.Sealed where
  block {body : List Stmt} {p : Position} {s : ScopeId} : b.runs (.statement (.block body p)) s →
    ∀ stmt ∈ body, b.runs (.statement stmt) store.nextScope
  called {f : Closure} : b.knows f → ∀ stmt ∈ f.body, b.runs (.statement stmt) store.nextScope
  works : b.works store.nextScope
  leaves : b.leaves store.nextScope

section Effects

variable {b : Bounds} {frames : List Frame} {w : World} {effect : Effect}

/-- **No function is made up.** What is bound after an effect was bound before, or was in use, or
has just been declared. -/
theorem Machine.perform_bound (he : effect.KeepsTo b)
    (hbound : ∀ v, w.store.Binds v → v.Meets b.knows)
    (hnew : ∀ name parameters body s, effect = .declare name parameters body s →
      b.knows ⟨w.store.nextFunction, name, parameters, body, s⟩) (v : Value)
    (hv : (perform Store.leave effect frames w).world.store.Binds v) : v.Meets b.knows := by
  -- Only a definition, an assignment, a declaration and the parameters of a call bind anything.
  cases effect with
  | proceed control => exact hbound v hv
  | lookUp name p s =>
    simp only [perform] at hv
    split at hv <;> exact hbound v hv
  | define name u s =>
    rcases Store.Binds.of_define hv with hold | rfl
    · exact hbound v hold
    · exact he.2.1
  | assign name u p s =>
    simp only [perform] at hv
    split at hv
    · next hassign =>
      rcases Store.Binds.of_assign? hassign hv with hold | rfl
      · exact hbound v hold
      · exact he.2.1
    · exact hbound v hv
  | declare name parameters body s =>
    rcases Store.Binds.of_define hv with hold | rfl
    · exact hbound v (Store.Binds.of_newFunction name parameters body hold)
    · exact hnew name parameters body s rfl
  | enterBlock body s => exact hbound v (Store.Binds.of_newScope hv)
  | call f arguments p =>
    rcases call_cases f arguments p w with ⟨r, used, hcall, -, -⟩ | ⟨g, -, -, -, hcall⟩
    · have hcall : call f arguments p frames w = _ := hcall frames w.store
      rw [perform, hcall] at hv
      exact hbound v hv
    · have hcall : call f arguments p frames w = _ := hcall frames w.store
      rw [perform, hcall] at hv
      rcases Store.Binds.of_bindParameters hv with hold | hargument
      · exact hbound v hold.of_newScope
      · exact he.2.1 v hargument
  | tell event => exact hbound v hv
  | leaveBlock a s => exact hbound v (Store.Binds.of_leave hv)
  | leaveCall a s => exact hbound v (Store.Binds.of_leave hv)

/-- Statements wait one after the other, and then the scope is left. -/
theorem Machine.runAll_keepsTo {leave : Frame} {body : List Stmt} {s : ScopeId}
    (hbody : ∀ stmt ∈ body, b.runs (.statement stmt) s) (hs : b.works s)
    (hleave : leave.KeepsTo b) (hframes : ∀ frame ∈ frames, frame.KeepsTo b) :
    (runAll body s (leave :: frames) w).control.KeepsTo b ∧
      ∀ frame ∈ (runAll body s (leave :: frames) w).frames, frame.KeepsTo b := by
  have hsequence : (Frame.sequence body s).KeepsTo b :=
    .ofCode hbody hs (by simp [Frame.scopes]) rfl rfl rfl
  exact ⟨.normal, List.forall_mem_cons.mpr ⟨hsequence, List.forall_mem_cons.mpr ⟨hleave, hframes⟩⟩⟩

/-- What is called answers at once, or one of the functions that are known is entered. -/
theorem Machine.call_keepsTo (hb : b.Sealed) {f : Value} {arguments : List Value} {p : Position}
    (he : (Effect.call f arguments p).KeepsTo b) (frames : List Frame) (w : World) :
    (∃ a used, a.KeepsTo b ∧
        call f arguments p frames w = reply a frames { w with readings := w.readings + used }) ∨
      ∃ g, f = .function g ∧ b.knows g ∧ call f arguments p frames w
        = runAll g.body w.store.nextScope (.leaveCall w.store.nextScope :: frames)
            (entered g arguments w) := by
  obtain ⟨hf, -, callee, es, s, hcode, hlength⟩ := he
  rcases call_cases f arguments p w with ⟨r, used, hcall, hr, hfails⟩ | ⟨g, rfl, -, -, hcall⟩
  · refine .inl ⟨.ofResult r, used, .ofResult (fun v hv => ?_) fun e he => ?_, hcall frames w.store⟩
    · exact Value.meets_of_ne_function fun g hg => hr g (hg ▸ hv)
    · obtain ⟨hof, hp⟩ := hfails e he
      rw [← hlength] at hof
      subst hp
      exact hb.raised hcode (.call callee _ hof)
  · exact .inr ⟨g, rfl, hf, hcall frames w.store⟩

/-- What becomes of an effect that enters no braces keeps to the same bounds. -/
theorem Machine.perform_keepsTo_of_stays (hb : b.Sealed) (he : effect.KeepsTo b)
    (hbound : ∀ v, w.store.Binds v → v.Meets b.knows) (hstays : effect.enters = false)
    (frames : List Frame) :
    (perform Store.leave effect frames w).control.KeepsTo b ∧
      (perform Store.leave effect frames w).frames = frames := by
  cases effect with
  | proceed control => exact ⟨he, rfl⟩
  | lookUp name p s =>
    simp only [perform]
    split
    · next v hget => exact ⟨.value (hbound v (Store.binds_of_get? hget)), rfl⟩
    · exact ⟨.error (hb.raised he.2 (.undefined name p)), rfl⟩
  | define name v s => exact ⟨.normal, rfl⟩
  | assign name v p s =>
    obtain ⟨-, hv, e, hcode⟩ := he
    simp only [perform]
    split
    · exact ⟨.value hv, rfl⟩
    · exact ⟨.error (hb.raised hcode (.undeclared name e p)), rfl⟩
  | declare name parameters body s => exact ⟨.normal, rfl⟩
  | enterBlock body s => cases hstays
  | call f arguments p =>
    rcases call_keepsTo hb he frames w with ⟨a, used, ha, hcall⟩ | ⟨g, rfl, -, -⟩
    · rw [perform, hcall]
      exact ⟨ha, rfl⟩
    · cases hstays
  | tell event => exact ⟨.normal, rfl⟩
  | leaveBlock a s => exact ⟨he.2.2, rfl⟩
  | leaveCall a s => exact ⟨he.2.2.callAnswer, rfl⟩

/-- **What becomes of an effect keeps to the bounds**, if they suit the store. -/
theorem Machine.perform_keepsTo (hb : b.Suits w.store) (he : effect.KeepsTo b)
    (hframes : ∀ frame ∈ frames, frame.KeepsTo b)
    (hbound : ∀ v, w.store.Binds v → v.Meets b.knows) :
    (perform Store.leave effect frames w).control.KeepsTo b ∧
      ∀ frame ∈ (perform Store.leave effect frames w).frames, frame.KeepsTo b := by
  have hleave : ∀ {frame : Frame}, frame.left? = some w.store.nextScope → frame.KeepsTo b :=
    fun hleft => .ofLeaving hleft hb.works hb.leaves
  -- Code and a scope come in where braces are entered, and nowhere else.
  cases henters : effect.enters with
  | false =>
    obtain ⟨hcontrol, hsame⟩ := perform_keepsTo_of_stays hb.toSealed he hbound henters frames
    exact ⟨hcontrol, by rwa [hsame]⟩
  | true =>
    cases effect with
    | enterBlock body s =>
      obtain ⟨-, p, hcode⟩ := he
      exact runAll_keepsTo (hb.block hcode) hb.works (hleave rfl) hframes
    | call f arguments p =>
      rcases call_keepsTo hb.toSealed he frames w with ⟨a, used, ha, hcall⟩ | ⟨g, -, hg, hcall⟩
      · rw [perform, hcall]
        exact ⟨ha, hframes⟩
      · rw [perform, hcall]
        exact runAll_keepsTo (hb.called hg) hb.works (hleave rfl) hframes
    | _ => cases henters

end Effects

namespace Machine

variable {b : Bounds} {m : Machine}

/-- **One step.** The function that is being declared, if any, has to be inside of the bounds. -/
theorem KeepsTo.step (h : m.KeepsTo b) (hb : b.Suits m.world.store)
    (hnew : ∀ name parameters body p s, m.control = .execute (.function name parameters body p) s →
      b.knows ⟨m.world.store.nextFunction, name, parameters, body, s⟩) : m.step.KeepsTo b := by
  rw [step_eq]
  rcases m.stepLeaving_cases with ⟨mv, below, hmoves, hstep⟩ | ⟨-, hstep⟩
  · obtain ⟨hmv, hbelow⟩ := hmoves.keepsTo hb.toSealed h.control h.frames
    obtain ⟨hcontrol, hframes⟩ := perform_keepsTo hb hmv.effect
      (List.forall_mem_append.mpr ⟨hmv.pushed, hbelow⟩) h.bound
    rw [hstep]
    refine ⟨hcontrol, hframes, perform_bound hmv.effect h.bound fun name parameters body s he => ?_⟩
    obtain ⟨p, hc⟩ := hmoves.of_declare he
    exact hnew name parameters body p s hc
  · rw [hstep]
    exact h

/-- **Whole runs**, with bounds that suit every store and all functions that are declared. -/
theorem KeepsTo.run (h : m.KeepsTo b) (hb : ∀ store, b.Suits store)
    (hdeclared : ∀ {name parameters body p s} id,
      b.runs (.statement (.function name parameters body p)) s →
        b.knows ⟨id, name, parameters, body, s⟩) (n : Nat) : (m.run n).KeepsTo b := by
  refine run_keeps (P := KeepsTo b) (fun m hm => hm.step (hb _) ?_) h n
  intro name parameters body p s hc
  have hcontrol := hm.control
  rw [hc] at hcontrol
  exact hdeclared _ hcontrol.2

end Machine

theorem Bounds.loose_suits (echoes : Prop) (store : Store) :
    (loose (fun _ => True) echoes).Suits store where
  toSealed := loose_sealed
  block _ _ _ := trivial
  called _ _ _ := trivial
  works := trivial
  leaves := trivial

/-! ## Properties of functions -/

/-- Bounds to the functions that are known, and to nothing else. -/
def Bounds.knowing (P : Closure → Prop) : Bounds := { knows := P }

theorem Bounds.knowing_suits (P : Closure → Prop) (store : Store) : (knowing P).Suits store where
  part _ _ := trivial
  raised _ _ := trivial
  block _ _ _ := trivial
  called _ _ _ := trivial
  works := trivial
  leaves := trivial

/-- The values that the machine holds while it does something. -/
def Control.held : Control → List Value
  | .answer a => a.held
  | _ => []

/-- Every function that a machine has to do with has the property. -/
structure Machine.AllFunctions (P : Closure → Prop) (m : Machine) : Prop where
  held : ∀ v ∈ m.control.held, v.Meets P
  waiting : ∀ frame ∈ m.frames, ∀ v ∈ frame.values, v.Meets P
  bound : ∀ v, m.world.store.Binds v → v.Meets P

namespace Machine

variable {P : Closure → Prop} {m : Machine}

theorem allFunctions_iff : m.AllFunctions P ↔ m.KeepsTo (.knowing P) := by
  refine ⟨fun h => ⟨?_, fun frame hf => ?_, h.bound⟩, fun h => ⟨?_, fun frame hf => ?_, h.bound⟩⟩
  · have hheld := h.held
    cases hc : m.control with
    | answer a =>
      rw [hc] at hheld
      exact ⟨hheld, fun _ _ => trivial⟩
    | _ => exact ⟨trivial, trivial⟩
  · exact ⟨frame.waits_of_forall fun _ _ => trivial, fun _ _ => trivial, fun _ _ => trivial,
      h.waiting frame hf, fun _ => trivial⟩
  · have hcontrol := h.control
    intro v hv
    cases hc : m.control with
    | answer a =>
      rw [hc] at hcontrol hv
      exact hcontrol.held v hv
    | _ =>
      rw [hc] at hv
      cases hv
  · exact (h.frames frame hf).values

/-- Where nothing is held and no values wait, there is only the store. -/
theorem allFunctions_of_bound (hcontrol : m.control.held = [])
    (hframes : ∀ frame ∈ m.frames, frame.values = [])
    (h : ∀ v, m.world.store.Binds v → v.Meets P) : m.AllFunctions P where
  held v hv := by rw [hcontrol] at hv; cases hv
  waiting frame hf v hv := by rw [hframes frame hf] at hv; cases hv
  bound := h

/-- **One step.** If the functions that a machine has to do with have a property, and so has the
one that it is declaring, if any, then after a step they all have it. -/
theorem AllFunctions.step (h : m.AllFunctions P)
    (hnew : ∀ name parameters body p s, m.control = .execute (.function name parameters body p) s →
      P ⟨m.world.store.nextFunction, name, parameters, body, s⟩) : m.step.AllFunctions P :=
  allFunctions_iff.mpr ((allFunctions_iff.mp h).step (Bounds.knowing_suits P _) hnew)

end Machine

end Scripting
