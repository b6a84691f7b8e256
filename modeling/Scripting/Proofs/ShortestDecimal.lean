/-
The decimal that stands for a double.

`shortest_contains` says that the search for a short decimal succeeds: what it finds lies in the
rounding interval of the double, so by `Contains.bits_eq` it is rounded back to it. The search tries
the multiples of `10 ^ g` on either side of the double. One of the two is at most half of `10 ^ g`
away. With seventeen digits that is less than the distance to either end of the interval, since a
mantissa is below `2 ^ 53 < 10 ^ 16`; and `2 ^ 52`, whose interval is narrower on one side, is below
`10 ^ 16 / 2`.
-/
import Mathlib.Algebra.Order.Floor.Semifield
import Scripting.Proofs.Rounding

set_option autoImplicit false

namespace Scripting

/-! ## Counting digits -/

namespace Decimal

/-- The number that a decimal stands for. -/
def value (d : Decimal) : ℚ := d.digits * 10 ^ d.exponent

theorem digitCount_eq {n : Nat} (hn : n ≠ 0) : digitCount n = Nat.log 10 n + 1 := by
  have hle : digitCount n ≤ Nat.log 10 n + 1 :=
    (Nat.length_toDigits_le_iff (by decide) (by omega)).mpr (Nat.lt_pow_succ_log_self (by decide) n)
  have hpos : 0 < digitCount n := Nat.length_toDigits_pos
  by_cases hlog : Nat.log 10 n = 0
  · omega
  · have hnot : ¬digitCount n ≤ Nat.log 10 n := fun h =>
      absurd ((Nat.length_toDigits_le_iff (by decide) (by omega)).mp h)
        (Nat.pow_log_le_self 10 hn).not_gt
    omega

theorem log_value {d : Decimal} (h : d.digits ≠ 0) :
    Int.log 10 d.value = digitCount d.digits + d.exponent - 1 := by
  have hpos : (0 : ℚ) < d.value := by
    unfold value
    positivity
  have hlow : (10 : ℚ) ^ Nat.log 10 d.digits ≤ d.digits := by
    exact_mod_cast Nat.pow_log_le_self 10 h
  have hhigh : (d.digits : ℚ) < 10 ^ (Nat.log 10 d.digits + 1) := by
    exact_mod_cast Nat.lt_pow_succ_log_self (by decide) d.digits
  have h₁ : (Nat.log 10 d.digits : ℤ) + d.exponent ≤ Int.log 10 d.value := by
    rw [← Int.zpow_le_iff_le_log (by decide) hpos, zpow_add₀ (by norm_num), zpow_natCast]
    exact mul_le_mul_of_nonneg_right hlow (by positivity)
  have h₂ : Int.log 10 d.value < ((Nat.log 10 d.digits + 1 : Nat) : ℤ) + d.exponent := by
    rw [← Int.lt_zpow_iff_log_lt (by decide) hpos, zpow_add₀ (by norm_num), zpow_natCast]
    exact mul_lt_mul_of_pos_right hhigh (by positivity)
  rw [digitCount_eq h]
  omega

end Decimal

namespace RoundingInterval

open Binary64 Decimal

/-- **The leading digit.** The exponent of the center's first digit is its decimal logarithm. -/
theorem leadingExponent_eq (i : RoundingInterval) (hcenter : 0 < i.center) :
    i.leadingExponent = Int.log 10 ((i.center : ℚ) * 2 ^ i.exponent) := by
  have hvalue := cast_mul_div i.center 2 i.exponent
  rw [Nat.cast_ofNat] at hvalue
  have hnum : 0 < i.center * 2 ^ i.exponent.toNat := by positivity
  have hden : 0 < 2 ^ (-i.exponent).toNat := by positivity
  unfold leadingExponent
  simp only [Nat.pow_eq]
  rw [← hvalue]
  generalize i.center * 2 ^ i.exponent.toNat = num at *
  generalize 2 ^ (-i.exponent).toNat = den at *
  have hnumQ : (0 : ℚ) < num := by exact_mod_cast hnum
  have hdenQ : (0 : ℚ) < den := by exact_mod_cast hden
  split
  case isTrue hle =>
    have hone : (1 : ℚ) ≤ num / den := by
      rw [one_le_div hdenQ]
      exact_mod_cast hle
    rw [Int.log_of_one_le_right 10 hone, Nat.floor_div_eq_div,
      digitCount_eq (Nat.div_pos hle hden).ne']
    omega
  case isFalse hlt =>
    have hquotient : (den - 1) / num ≠ 0 := (Nat.div_pos (by omega) hnum).ne'
    have hlow := Nat.pow_log_le_self 10 hquotient
    have hhigh := Nat.lt_pow_succ_log_self (b := 10) (by decide) ((den - 1) / num)
    rw [digitCount_eq hquotient]
    rw [Nat.le_div_iff_mul_le hnum] at hlow
    rw [Nat.div_lt_iff_lt_mul hnum] at hhigh
    generalize Nat.log 10 ((den - 1) / num) = k at *
    have hx : (0 : ℚ) < num / den := by positivity
    have h₁ : -((k + 1 : Nat) : ℤ) ≤ Int.log 10 ((num : ℚ) / den) := by
      rw [← Int.zpow_le_iff_le_log (by decide) hx, zpow_neg, zpow_natCast, le_div_iff₀ hdenQ,
        inv_mul_le_iff₀ (by positivity)]
      have hle : den ≤ 10 ^ (k + 1) * num := Nat.le_of_pred_lt hhigh
      exact_mod_cast hle
    have h₂ : Int.log 10 ((num : ℚ) / den) < -(k : ℤ) := by
      rw [← Int.lt_zpow_iff_log_lt (by decide) hx, zpow_neg, zpow_natCast, div_lt_iff₀ hdenQ,
        lt_inv_mul_iff₀ (by positivity)]
      have hlt : 10 ^ k * num < den := by omega
      exact_mod_cast hlt
    omega

/-! ## Multiples of a power of ten -/

variable (i : RoundingInterval) (g : Int)

theorem unit_pos : 0 < i.unit g := by
  simp only [unit, Nat.pow_eq]
  positivity

theorem scale_eq : (i.scale g : ℚ) = i.unit g * (2 ^ i.exponent / 10 ^ g) := by
  rw [zpow_eq_div, zpow_eq_div 10]
  simp only [scale, unit, Nat.pow_eq]
  push_cast
  field_simp

/-- Whole numbers of quarter units and of `10 ^ g`, compared. -/
theorem mul_scale_le_iff (a n : Nat) :
    a * i.scale g ≤ n * i.unit g ↔ (a : ℚ) * 2 ^ i.exponent ≤ n * 10 ^ g := by
  have hunit : (0 : ℚ) < i.unit g := by exact_mod_cast i.unit_pos g
  rw [← @Nat.cast_le ℚ, Nat.cast_mul, Nat.cast_mul, scale_eq, mul_left_comm, mul_comm (n : ℚ),
    mul_le_mul_iff_right₀ hunit, mul_div_assoc', div_le_iff₀ (by positivity)]

theorem mul_unit_le_iff (a n : Nat) :
    n * i.unit g ≤ a * i.scale g ↔ n * 10 ^ g ≤ (a : ℚ) * 2 ^ i.exponent := by
  have hunit : (0 : ℚ) < i.unit g := by exact_mod_cast i.unit_pos g
  rw [← @Nat.cast_le ℚ, Nat.cast_mul, Nat.cast_mul, scale_eq, mul_left_comm, mul_comm (n : ℚ),
    mul_le_mul_iff_right₀ hunit, mul_div_assoc', le_div_iff₀ (by positivity)]

/-- The test on whole numbers decides whether a decimal lies in the interval. -/
theorem holds_iff (n : Nat) : i.holds g n = true ↔ i.Contains (n * 10 ^ g) := by
  unfold holds
  dsimp only
  split
  case isTrue hclosed =>
    rw [Bool.and_eq_true, decide_eq_true_iff, decide_eq_true_iff, mul_scale_le_iff, mul_unit_le_iff]
    exact ⟨fun h => ⟨h.1, h.2, fun hopen => by simp [hclosed] at hopen⟩, fun h => ⟨h.1, h.2⟩⟩
  case isFalse hopen =>
    rw [Bool.and_eq_true, decide_eq_true_iff, decide_eq_true_iff, ← not_le, ← not_le,
      mul_scale_le_iff, mul_unit_le_iff, not_le, not_le]
    exact ⟨fun h => ⟨h.1.le, h.2.le, fun _ => h⟩, fun h => h.3 (by simpa using hopen)⟩

variable {i g}

theorem holds_of_onGrid? {n : Nat} (h : i.onGrid? g = some n) : i.holds g n = true := by
  unfold onGrid? at h
  dsimp only at h
  split at h
  case h_1 hbelow habove =>
    cases h
    split
    · exact hbelow
    · exact habove
  case h_2 hbelow _ =>
    cases h
    exact hbelow
  case h_3 _ habove =>
    cases h
    exact habove
  case h_4 => cases h

/-- **A fine grid has a point inside.** If half of `10 ^ g` is less than the distance from the
center to either end, one of the multiples next to the center is in the interval. -/
theorem isSome_onGrid? (hlower : (10 : ℚ) ^ g < 2 * ((i.center - i.lower) * 2 ^ i.exponent))
    (hupper : (10 : ℚ) ^ g < 2 * ((i.upper - i.center) * 2 ^ i.exponent)) :
    (i.onGrid? g).isSome = true := by
  have hpos : (0 : ℚ) < 10 ^ g := by positivity
  have hbelow := Nat.div_mul_le_self (i.center * i.scale g) (i.unit g)
  have habove := Nat.lt_div_mul_add (a := i.center * i.scale g) (i.unit_pos g)
  rw [← Nat.succ_mul, ← not_le] at habove
  unfold onGrid?
  dsimp only
  generalize i.center * i.scale g / i.unit g = n at hbelow habove ⊢
  rw [mul_unit_le_iff] at hbelow
  rw [mul_unit_le_iff, not_le, Nat.cast_succ] at habove
  -- The nearer of the two multiples is the one inside.
  have hone : i.holds g n = true ∨ i.holds g (n + 1) = true := by
    rw [holds_iff, holds_iff, Nat.cast_succ]
    by_cases hnear : 2 * (i.center * 2 ^ i.exponent - n * 10 ^ g) ≤ (10 : ℚ) ^ g
    · have h₁ : (i.lower : ℚ) * 2 ^ i.exponent < n * 10 ^ g := by linarith
      have h₂ : n * 10 ^ g < (i.upper : ℚ) * 2 ^ i.exponent := by linarith
      exact .inl ⟨h₁.le, h₂.le, fun _ => ⟨h₁, h₂⟩⟩
    · have h₁ : (i.lower : ℚ) * 2 ^ i.exponent < (n + 1) * 10 ^ g := by linarith
      have h₂ : (n + 1) * 10 ^ g < (i.upper : ℚ) * 2 ^ i.exponent := by linarith
      exact .inr ⟨h₁.le, h₂.le, fun _ => ⟨h₁, h₂⟩⟩
  rcases hone with h | h
  · rw [h]
    cases i.holds g (n + 1) <;> rfl
  · rw [h]
    cases i.holds g n <;> rfl

/-! ## The search -/

/-- **The search stops inside.** If the grid has a point in the interval at some step, the decimal
that the search returns is in the interval. -/
theorem searchFrom_contains {steps : Nat} (k : Nat) (hk : k < steps)
    (h : (i.onGrid? (g - k)).isSome = true) : i.Contains (i.searchFrom steps g).value := by
  induction steps generalizing g k with
  | zero => omega
  | succ steps ih =>
    unfold searchFrom
    cases hgrid : i.onGrid? g with
    | some n => exact (holds_iff i g n).mp (holds_of_onGrid? hgrid)
    | none =>
      -- Nothing was found here, so the point is further on.
      cases k with
      | zero =>
        rw [Nat.cast_zero, sub_zero, hgrid] at h
        cases h
      | succ k =>
        apply ih k (by omega)
        rw [sub_sub, add_comm]
        exact_mod_cast h

/-- A full ten may drop its zero. -/
theorem value_dropZero {d : Decimal} (h : d.digits % 10 = 0) :
    Decimal.value ⟨d.digits / 10, d.exponent + 1⟩ = d.value := by
  have hten : d.digits = d.digits / 10 * 10 := by omega
  unfold Decimal.value
  rw [hten, Nat.mul_div_cancel _ (by decide), zpow_add_one₀ (by norm_num)]
  push_cast
  ring

variable {m : Nat} {q : Int}

/-- Seventeen digits are enough: the grid of the seventeenth digit is fine enough for the interval
of any double. -/
theorem isSome_onGrid?_ofParts (hm : 0 < m) (hmantissa : m < 2 ^ 53) :
    ((ofParts m q).onGrid? ((ofParts m q).leadingExponent - 16)).isSome = true := by
  have hcenter : ((ofParts m q).center : ℚ) = 4 * m := by
    show ((4 * m : Nat) : ℚ) = 4 * m
    push_cast
    rfl
  have hupper : ((ofParts m q).upper : ℚ) = 4 * m + 2 := by
    show ((4 * m + 2 : Nat) : ℚ) = 4 * m + 2
    push_cast
    rfl
  have hlower := lower_ofParts (q := q) hm
  have hmQ : (0 : ℚ) < m := by exact_mod_cast hm
  have hmax : (m : ℚ) < 2 ^ 53 := by exact_mod_cast hmantissa
  have hunit : (0 : ℚ) < 2 ^ (ofParts m q).exponent := by positivity
  -- Sixteen places below the leading digit, a step is at most the center divided by `10 ^ 16`.
  have hgrid : (10 : ℚ) ^ ((ofParts m q).leadingExponent - 16) * 10 ^ 16
      ≤ 4 * m * 2 ^ (ofParts m q).exponent := by
    rw [leadingExponent_eq _ (show 0 < 4 * m by omega), hcenter, ← zpow_natCast,
      ← zpow_add₀ (by norm_num)]
    have := Int.zpow_log_le_self (R := ℚ) (b := 10) (r := 4 * m * 2 ^ (ofParts m q).exponent)
      (by decide) (by positivity)
    simpa using this
  apply isSome_onGrid?
  · rw [hcenter, hlower]
    split
    case isTrue hdense =>
      have htwo : (m : ℚ) = 2 ^ 52 := by exact_mod_cast hdense.1
      rw [htwo] at hgrid ⊢
      linarith
    case isFalse =>
      nlinarith
  · rw [hcenter, hupper]
    nlinarith

/-- **A short decimal is found.** The decimal shown for a double lies in its interval. -/
theorem shortest_contains (hm : 0 < m) (hmantissa : m < 2 ^ 53) :
    (ofParts m q).Contains (ofParts m q).shortest.value := by
  have hfound : (ofParts m q).Contains
      ((ofParts m q).searchFrom 17 (ofParts m q).leadingExponent).value :=
    searchFrom_contains 16 (by decide) (isSome_onGrid?_ofParts hm hmantissa)
  unfold shortest
  dsimp only
  split
  · rwa [value_dropZero ‹_›]
  · exact hfound

/-! ## Rounding it back -/

/-- The numbers that round to a finite double have an exponent of ten between -324 and 308. -/
theorem Contains.bounds {x : ℚ} (hm : 0 < m) (hlegal : Legal m q)
    (h : (ofParts m q).Contains x) : (10 : ℚ) ^ (-324 : ℤ) < x ∧ x < 10 ^ (309 : ℤ) := by
  obtain ⟨hlow, hhigh, -, -⟩ := h.units hm
  have hone : (1 : ℚ) ≤ m := by exact_mod_cast hm
  have hmax : (m : ℚ) + 1 ≤ 2 ^ 53 := by exact_mod_cast hlegal.mantissa
  have hpos : (0 : ℚ) < 2 ^ q := by positivity
  rw [zpow_neg, ← div_eq_mul_inv] at hlow hhigh
  rw [le_div_iff₀ hpos] at hlow
  rw [div_le_iff₀ hpos] at hhigh
  constructor
  · have hpowers : (2 : ℚ) ^ 1075 < 10 ^ 324 := by
      exact_mod_cast show 2 ^ 1075 < 10 ^ 324 by decide +kernel
    calc (10 : ℚ) ^ (-324 : ℤ) = (10 ^ 324)⁻¹ := by rw [zpow_neg, zpow_ofNat]
      _ < (2 ^ 1075)⁻¹ := inv_strictAnti₀ (by positivity) hpowers
      _ = 2 ^ (minExponent - 1) := by
          rw [show minExponent - 1 = -1075 from rfl, zpow_neg, zpow_ofNat]
      _ = 1 / 2 * 2 ^ minExponent := by
          rw [zpow_sub_one₀ two_ne_zero, one_div, mul_comm]
      _ ≤ 1 / 2 * 2 ^ q :=
          mul_le_mul_of_nonneg_left (zpow_le_zpow_right₀ one_le_two hlegal.least) (by norm_num)
      _ ≤ x := by nlinarith
  · have hpowers : (2 : ℚ) ^ 53 * 2 ^ 971 < 10 ^ 309 := by
      exact_mod_cast show 2 ^ 53 * 2 ^ 971 < 10 ^ 309 by decide +kernel
    calc x < 2 ^ 53 * 2 ^ q := by nlinarith
      _ ≤ 2 ^ 53 * 2 ^ (971 : ℤ) :=
          mul_le_mul_of_nonneg_left (zpow_le_zpow_right₀ one_le_two hlegal.greatest) (by norm_num)
      _ < 10 ^ (309 : ℤ) := by
          rw [zpow_ofNat, zpow_ofNat]
          exact hpowers

/-- **The way back.** A decimal in the interval of a double is rounded to it. -/
theorem Contains.bits_eq {d : Decimal} (hm : 0 < m) (hlegal : Legal m q)
    (h : (ofParts m q).Contains d.value) : d.bits = magnitude m q := by
  have hpos := h.pos hm
  obtain ⟨hlow, hhigh⟩ := h.bounds hm hlegal
  have hdigits : d.digits ≠ 0 := by
    intro hzero
    simp [Decimal.value, hzero] at hpos
  have htop := Decimal.log_value hdigits
  have h₁ : -324 ≤ Int.log 10 d.value := (Int.zpow_le_iff_le_log (by decide) hpos).mp hlow.le
  have h₂ : Int.log 10 d.value < 309 := (Int.lt_zpow_iff_log_lt (by decide) hpos).mp hhigh
  unfold Decimal.bits
  dsimp only
  rw [if_neg hdigits, if_neg (by omega), if_neg (by omega)]
  apply Contains.nearest_eq (Nat.pow_pos (by decide)) hm hlegal
  rw [Nat.pow_eq, cast_mul_div]
  exact h

end RoundingInterval

end Scripting
