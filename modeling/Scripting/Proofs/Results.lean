/-
Results, and what can go wrong.

The grammar, the builtins and the reader of a session are put together from parts that end in a
result or in an error, where the first error is the last word. Here is, once, what follows from that
for such a part, whatever its errors are: what becomes of a part whose outcome is known, and that
all errors are of one sort if those of the parts are.
-/
set_option autoImplicit false

namespace Scripting

variable {ε α β : Type}

/-! ## A part whose outcome is known -/

theorem bind_of_ok {x : Except ε α} {a : α} (h : x = .ok a) (f : α → Except ε β) :
    x >>= f = f a := by
  rw [h]
  rfl

theorem bind_of_error {x : Except ε α} {e : ε} (h : x = .error e) (f : α → Except ε β) :
    x >>= f = .error e := by
  rw [h]
  rfl

theorem bind_eq_ok {x : Except ε α} {f : α → Except ε β} {b : β} (h : x >>= f = .ok b) :
    ∃ a, x = .ok a ∧ f a = .ok b := by
  cases x with
  | error e => cases h
  | ok a => exact ⟨a, rfl, h⟩

theorem bind_congr_of_ok {x : Except ε α} {f g : α → Except ε β}
    (h : ∀ a, x = .ok a → f a = g a) : x >>= f = x >>= g := by
  cases x with
  | error e => rfl
  | ok a => exact h a rfl

/-- A result that passes a test is there. -/
theorem exists_ok_of_any {x : Except ε α} {test : α → Bool} (h : x.toOption.any test = true) :
    ∃ a, x = .ok a ∧ test a = true := by
  cases x with
  | error e => cases h
  | ok a => exact ⟨a, rfl, h⟩

/-! ## Errors of one sort -/

/-- Whatever goes wrong has the property. -/
def FailsOnlyWith (P : ε → Prop) (x : Except ε α) : Prop := ∀ e, x = .error e → P e

namespace FailsOnlyWith

variable {P : ε → Prop}

theorem ok (a : α) : FailsOnlyWith P (.ok a : Except ε α) := by
  intro e he
  cases he

theorem error {e : ε} (h : P e) : FailsOnlyWith P (.error e : Except ε α) := by
  intro e' he
  cases he
  exact h

theorem bind {x : Except ε α} {f : α → Except ε β} (h : FailsOnlyWith P x)
    (hf : ∀ a, FailsOnlyWith P (f a)) : FailsOnlyWith P (x >>= f) := by
  cases x with
  | error e =>
    intro e' he
    cases he
    exact h e rfl
  | ok a => exact hf a

theorem mono {Q : ε → Prop} {x : Except ε α} (h : FailsOnlyWith P x) (hPQ : ∀ e, P e → Q e) :
    FailsOnlyWith Q x :=
  fun e he => hPQ e (h e he)

end FailsOnlyWith

end Scripting
