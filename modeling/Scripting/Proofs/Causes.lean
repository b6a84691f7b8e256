/-
Errors stand where their causes do.

A text that has lexemes but is no program is refused at one of its lexemes. A program that fails
while it is run fails at the position of an expression, and of one that can fail in that way: a name
that is not bound is reported where it is used, an operation where its operator is, a call where it
opens. The expression belongs to the program itself, or to the body of a function that
the session has from an earlier one.

The machine forgets an expression as soon as its parts are being evaluated: only its position is
left, in the frame that waits for them. That there is such an expression for every frame, and that
an error comes from one of them, is what `Bounds` say of every step; here they are set to the code
that a submission can get to.
-/
import Scripting.Proofs.History
import Scripting.Proofs.Layout
import Scripting.Proofs.Seams
import Scripting.Proofs.Sites

set_option autoImplicit false

namespace Scripting

/-! ## Lexemes that are refused -/

namespace Grammar

/-- Lexemes that come to an end correspond to themselves. -/
theorem corresponding_self {R : Position → Position → Prop} (ts : List Lexeme) {last : Lexeme}
    (hlast : last.token = .endOfInput) (hR : ∀ l ∈ ts ++ [last], R l.position l.position) :
    Corresponding R (ts ++ [last]) (ts ++ [last]) := by
  induction ts with
  | nil => exact .stop [] [] ⟨rfl, rfl, hR last List.mem_cons_self⟩ hlast
  | cons l ts ih =>
    obtain ⟨hl, hts⟩ := List.forall_mem_cons.mp hR
    by_cases hend : l.token = .endOfInput
    · exact .stop _ _ ⟨rfl, rfl, hl⟩ hend
    · exact .cons ⟨rfl, rfl, hl⟩ hend (fun _ => Iff.rfl) (ih hts)

/-- **Lexemes are refused at one of them**, as all positions that the rules work with are those of
lexemes. -/
theorem exists_lexeme_of_parse_error {ts : List Lexeme} {last : Lexeme} {e : ParseError}
    (hlast : last.token = .endOfInput) (h : parse (ts ++ [last]) = .error e) :
    ∃ l ∈ ts ++ [last], l.position = e.position := by
  let R : Position → Position → Prop := fun p _ => ∃ l ∈ ts ++ [last], l.position = p
  have hself : Corresponding R (ts ++ [last]) (ts ++ [last]) :=
    corresponding_self ts hlast fun l hl => ⟨l, hl, rfl⟩
  have hagree := parse_agree hself
  rw [h] at hagree
  cases hagree with
  | error fault hp => exact hp

end Grammar

/-! ## Code of a session -/

/-- Code that stands between the braces of other code. -/
theorem Within.inside {program : List Stmt} {k j : Nat} {code inner : Code}
    (h : Within program k code) (hinner : Within code.body j inner) :
    Within program (k + 1 + j) inner := by
  induction hinner with
  | outermost hmem => exact .body h hmem
  | part _ hpart ih => exact .part ih hpart
  | body _ hbody ih => exact .body ih hbody

/-- The function is declared somewhere in one of the programs. -/
def Closure.DeclaredIn (programs : List (List Stmt)) (f : Closure) : Prop :=
  ∃ program ∈ programs, ∃ k p,
    Within program k (.statement (.function f.name f.parameters f.body p))

namespace Session

/-- What has led to a session: the programs that were run in it, to their ends or up to a failure.
A host may bind what it likes, if it makes up no functions. -/
inductive Ran : Session → List (List Stmt) → Prop
  | new (config : Config) (clock : Nat → Float) : Ran (Session.new config clock) []
  | submit {s : Session} {programs : List (List Stmt)} {fuel : Nat} {source : String}
      {r : Submission} : Ran s programs → s.submit fuel source = some r →
      Ran r.session ((read source).toOption.toList ++ programs)
  | define {s : Session} {programs : List (List Stmt)} (name : String) {v : Value} :
      Ran s programs → v.Meets (Closure.DeclaredIn programs) → Ran (s.define name v) programs
  | setEcho {s : Session} {programs : List (List Stmt)} (echo : Bool) :
      Ran s programs → Ran (s.setEcho echo) programs
  | listen {s : Session} {programs : List (List Stmt)} (l : Listener) :
      Ran s programs → Ran (s.listen l) programs
  | reset {s : Session} {programs : List (List Stmt)} : Ran s programs → Ran s.reset programs

/-- Code of a program that is submitted to a session, or of the body of a function that the session
has from an earlier program. -/
inductive Runnable (s : Session) (programs : List (List Stmt)) (program : List Stmt) : Code → Prop
  | own {k : Nat} {code : Code} : Within program k code → Runnable s programs program code
  | older {f : Closure} {k : Nat} {code : Code} : s.store.Binds (.function f) →
      f.DeclaredIn programs → Within f.body k code → Runnable s programs program code

/-- A function that can be run, and was declared in one of the programs. -/
def Callable (s : Session) (programs : List (List Stmt)) (program : List Stmt) (f : Closure) :
    Prop :=
  (∀ stmt ∈ f.body, s.Runnable programs program (.statement stmt)) ∧
    f.DeclaredIn (program :: programs)

variable {s : Session} {programs : List (List Stmt)} {program : List Stmt}

/-- Code between the braces of code that can be run. -/
theorem Runnable.body {code : Code} {stmt : Stmt} (h : s.Runnable programs program code)
    (hbody : stmt ∈ code.body) : s.Runnable programs program (.statement stmt) := by
  cases h with
  | own h => exact .own (.body h hbody)
  | older hf hdeclared h => exact .older hf hdeclared (.body h hbody)

/-- A function that is declared while the program runs. -/
theorem callable_of_runnable {name : String} {parameters : List String} {body : List Stmt}
    {p : Position} (id : FunctionId) (scope : ScopeId)
    (h : s.Runnable programs program (.statement (.function name parameters body p))) :
    s.Callable programs program ⟨id, name, parameters, body, scope⟩ := by
  refine ⟨fun _ hmem => h.body hmem, ?_⟩
  cases h with
  | own h => exact ⟨program, List.mem_cons_self, _, _, h⟩
  | older hf hdeclared h =>
    -- The declaration stands in the body of a function that an earlier program declares.
    obtain ⟨earlier, hearlier, k, p, houter⟩ := hdeclared
    exact ⟨earlier, List.mem_cons_of_mem _ hearlier, _, _, houter.inside h⟩

/-- A function that the session has. -/
theorem callable_of_declared {f : Closure} (hf : s.store.Binds (.function f))
    (h : f.DeclaredIn programs) : s.Callable programs program f := by
  refine ⟨fun _ hmem => .older hf h (.outermost hmem), ?_⟩
  obtain ⟨earlier, hearlier, hin⟩ := h
  exact ⟨earlier, List.mem_cons_of_mem _ hearlier, hin⟩

/-- What a run of the program is bound to: code that can be run, functions that can be called, and
errors that an expression among the code can raise, where that stands. -/
def bounds (s : Session) (programs : List (List Stmt)) (program : List Stmt) : Bounds where
  runs code _ := s.Runnable programs program code
  knows := s.Callable programs program
  fails e := ∃ node : Expr, s.Runnable programs program (.expression node) ∧
    node.Raises e.fault ∧ node.position = e.position

/-- Running a program in a session never gets to other code. -/
theorem bounds_suits (store : Store) : (s.bounds programs program).Suits store where
  part hcode hpart := by
    cases hcode with
    | own h => exact .own (.part h hpart)
    | older hf hdeclared h => exact .older hf hdeclared (.part h hpart)
  raised hcode hraises := ⟨_, hcode, hraises, rfl⟩
  block hcode _ hmem := Runnable.body hcode hmem
  called hf _ hmem := hf.1 _ hmem
  works := trivial
  leaves := trivial

/-- A program that is run keeps to its code and to the functions of its session. -/
theorem start_keepsTo (hbound : ∀ v, s.store.Binds v → v.Meets (Closure.DeclaredIn programs))
    (program : List Stmt) (n : Nat) :
    ((s.start program).run n).KeepsTo (s.bounds programs program) := by
  have hstart : (s.start program).KeepsTo (s.bounds programs program) := by
    refine ⟨Answer.KeepsTo.normal, List.forall_mem_singleton.mpr ?_, fun v hv => ?_⟩
    · exact .ofProgram (fun _ hmem => .own (.outermost hmem)) trivial fun _ => trivial
    · exact (hbound v hv).imp fun f hf hdeclared => callable_of_declared (hf ▸ hv) hdeclared
  exact hstart.run bounds_suits (fun id hcode => callable_of_runnable id _ hcode) n

/-- A fresh global scope has only the builtins. -/
theorem meets_of_freshGlobals {P : Closure → Prop} {store : Store}
    (h : ∀ v, store.Binds v → v.Meets P) {v : Value} (hv : (freshGlobals store).2.Binds v) :
    v.Meets P := by
  rcases Store.Binds.of_defineBuiltins hv with hold | ⟨b, rfl⟩
  · exact h v hold.of_newScope
  · trivial

/-- What is wrong with a text is found before anything is run. -/
theorem read_ne_runtime (source : String) (e : RuntimeError) :
    read source ≠ .error (.runtime e) := by
  unfold read
  split
  · exact nofun
  · split
    · exact nofun
    · exact nofun

theorem control_of_failureOf {m : Machine} {e : RuntimeError}
    (h : failureOf m = some (.runtime e)) : m.control = .answer (.error e) := by
  unfold failureOf Machine.result? at h
  split at h
  · next hresult =>
    split at hresult
    · next hcontrol _ =>
      rw [hcontrol]
      cases hresult
      cases h
      rfl
    · cases hresult
  · cases h

/-- **All functions of a session were declared by programs that were run in it.** -/
theorem Ran.declared (h : Ran s programs) :
    ∀ v, s.store.Binds v → v.Meets (Closure.DeclaredIn programs) := by
  induction h with
  | new config clock =>
    have hempty : ∀ v, Store.empty.Binds v → v.Meets (Closure.DeclaredIn []) := by
      rintro v ⟨scope, hmem, -⟩
      cases hmem
    exact fun v hv => meets_of_freshGlobals hempty hv
  | @submit s programs fuel source r _ hsubmit ih =>
    intro v hv
    rcases read_cases_of_submit hsubmit with ⟨f, hread, rfl⟩ | ⟨program, hread, -, rfl⟩
    · rw [hread]
      exact ih v hv
    · rw [hread]
      exact ((start_keepsTo ih program fuel).bound v hv).imp fun f _ hf => hf.2
  | define name _ hmeets ih =>
    intro u hu
    rcases hu.of_define with hold | rfl
    · exact ih u hold
    · exact hmeets
  | setEcho echo _ ih => exact ih
  | listen l _ ih => exact ih
  | reset _ ih => exact fun v hv => meets_of_freshGlobals (fun u hu => ih u hu.of_leave) hv

/-- **Errors stand where their causes do.** A text that has lexemes but cannot be read is refused at
the position of one of them. And if a submission to a session, whatever has led to it, fails while
it is run, the error has the position of an expression that can raise it. The expression belongs to
the program that was submitted, or to the body of a function that the session has from an earlier
one. -/
theorem errors_stand_at_causes :
    (∀ source lexemes e, tokenize source = .ok lexemes → Grammar.parse lexemes = .error e →
      ∃ l ∈ lexemes, l.position = e.position) ∧
    ∀ s programs, Ran s programs → ∀ fuel source r e, s.submit fuel source = some r →
      r.failure = some (.runtime e) →
      ∃ program node, read source = .ok program ∧
        s.Runnable programs program (.expression node) ∧ node.Raises e.fault ∧
        node.position = e.position := by
  constructor
  · intro source lexemes e hlex hparse
    obtain ⟨ls, rfl, -⟩ := exists_walk_of_tokenize hlex
    exact Grammar.exists_lexeme_of_parse_error rfl hparse
  · intro s programs hran fuel source r e hsubmit hfailure
    rcases read_cases_of_submit hsubmit with ⟨f, hread, rfl⟩ | ⟨program, hread, -, rfl⟩
    · cases hfailure
      exact absurd hread (read_ne_runtime source e)
    · have hcontrol := (start_keepsTo hran.declared program fuel).control
      rw [control_of_failureOf hfailure] at hcontrol
      obtain ⟨node, hrunnable, hraises, hposition⟩ := hcontrol.failed e rfl
      exact ⟨program, node, hread, hrunnable, hraises, hposition⟩

/-- The lexemes of `let = 1`. -/
def nameless : List Lexeme :=
  [⟨.keyword .let_, "let", ⟨1, 1⟩⟩, ⟨.symbol .equals, "=", ⟨1, 5⟩⟩, ⟨.number 1, "1", ⟨1, 7⟩⟩,
    ⟨.endOfInput, "", ⟨1, 8⟩⟩]

/-- A function that negates its argument. -/
def negating : String := "fun f(x) \x7b\n  return -x\n\x7d"

/-- A text is refused at its second lexeme; and a call of a function from an earlier submission
fails at an operator on the second line of that submission, not of its own. -/
theorem errors_stand_at_causes_negating :
    (tokenize "let = 1" = .ok nameless ∧ ∃ l ∈ nameless, l.position = ⟨1, 5⟩) ∧
    ∃ s programs, Ran s programs ∧
      ∃ program node, read "f(nil)" = .ok program ∧
        s.Runnable programs program (.expression node) ∧
        node.Raises (.typeMismatch (.notANumber "operand of '-'" .nil)) ∧
        node.position = ⟨2, 10⟩ := by
  let new : Session := Session.new .standard fun _ => 0
  let failed : RuntimeError := ⟨.typeMismatch (.notANumber "operand of '-'" .nil), ⟨2, 10⟩⟩
  obtain ⟨hparse, hrun⟩ := errors_stand_at_causes
  constructor
  · have hlex : tokenize "let = 1" = .ok nameless := by decide +kernel
    have hrefused : Grammar.parse nameless
        = .error ⟨.expectedToken .variableName (.symbol .equals), ⟨1, 5⟩⟩ := by
      rw [Grammar.parse, Grammar.programFrom]
      rfl
    exact ⟨hlex, hparse _ nameless _ hlex hrefused⟩
  · have hchecked : (new.submit 60 negating).any (fun first =>
        (first.session.submit 60 "f(nil)").bind (·.failure) == some (.runtime failed)) = true := by
      decide +kernel
    obtain ⟨first, hfirst, hfailed⟩ := (Option.any_eq_true _ _).mp hchecked
    obtain ⟨second, hsecond, hfailure⟩ := Option.bind_eq_some_iff.mp (eq_of_beq hfailed)
    have hran := Ran.submit (.new .standard fun _ => 0) hfirst
    exact ⟨_, _, hran, hrun _ _ hran 60 _ second failed hsecond hfailure⟩

end Session

end Scripting
