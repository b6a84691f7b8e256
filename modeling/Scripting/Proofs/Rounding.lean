/-
Rounding a fraction to a double.

A finite magnitude is `m · 2 ^ q` with `m` and `q` in the ranges that `Legal` gives, and its bit
pattern is `magnitude m q`. The reals that round to it are an interval around it: half a unit to
either side, except that below a power of two the doubles lie twice as dense. `nearest_eq` says that
`nearest` agrees with this. Whatever fraction lies in the interval of `m · 2 ^ q` is taken to
`magnitude m q`, the ends included where `m` is even.

The arithmetic runs over whole numbers and the statements are about rationals, so each part of the
computation first gets its meaning: `log2Floor` is the binary logarithm, a shift is a power of two,
`roundDiv` gives the whole number within half a unit.
-/
import Mathlib.Algebra.Order.Field.Power
import Mathlib.Data.Int.Log
import Mathlib.Data.Rat.Floor
import Mathlib.Tactic.FieldSimp
import Mathlib.Tactic.Linarith
import Mathlib.Tactic.NormNum
import Mathlib.Tactic.Positivity
import Mathlib.Tactic.Ring
import Scripting.Number.Shortest

set_option autoImplicit false

namespace Scripting

namespace Binary64

/-! ## Whole quotients -/

/-- **Rounding a quotient.** What lies within a half of `k` is rounded to `k`; at exactly a half,
`k` has to be even. -/
theorem roundDiv_eq {num den k : Nat} (hden : 0 < den) (hlow : 2 * k * den ≤ 2 * num + den)
    (hhigh : 2 * num ≤ (2 * k + 1) * den)
    (hodd : k % 2 = 1 → 2 * k * den < 2 * num + den ∧ 2 * num < (2 * k + 1) * den) :
    roundDiv num den = k := by
  have hnum := Nat.div_add_mod num den
  have hrest := Nat.mod_lt num hden
  unfold roundDiv
  dsimp only
  generalize num / den = f at hnum ⊢
  generalize num % den = r at hnum hrest ⊢
  have hlt : ∀ {a b : Nat}, a * den < b * den → a < b := fun h => Nat.lt_of_mul_lt_mul_right h
  cases hcompare : compare (2 * r) den with
  | lt =>
    rw [Nat.compare_eq_lt] at hcompare
    have h₁ : 2 * k < 2 * f + 2 := hlt (by nlinarith)
    have h₂ : 2 * f < 2 * k + 2 := hlt (by nlinarith)
    show f = k
    omega
  | eq =>
    rw [Nat.compare_eq_eq] at hcompare
    have h₁ : 2 * k < 2 * f + 3 := hlt (by nlinarith)
    have h₂ : 2 * f < 2 * k + 1 := hlt (by nlinarith)
    show f + f % 2 = k
    -- The quotient is half way between `f` and `f + 1`, and `k` is the even one of them.
    have heven : k % 2 = 0 := by
      by_contra hne
      obtain ⟨hl, hh⟩ := hodd (by omega)
      have h₃ : 2 * k < 2 * f + 2 := hlt (by nlinarith)
      have h₄ : 2 * f + 1 < 2 * k + 1 := hlt (by nlinarith)
      omega
    omega
  | gt =>
    rw [Nat.compare_eq_gt] at hcompare
    have h₁ : 2 * k < 2 * f + 3 := hlt (by nlinarith)
    have h₂ : 2 * f + 1 < 2 * k + 1 := hlt (by nlinarith)
    show f + 1 = k
    omega

/-- A power with a whole exponent as a fraction, one side of which is one. -/
theorem zpow_eq_div (b : ℚ) (e : Int) : b ^ e = b ^ e.toNat / b ^ (-e).toNat := by
  obtain ⟨n, rfl | rfl⟩ := Int.eq_nat_or_neg e
  · rw [Int.toNat_neg_natCast, Int.toNat_natCast, pow_zero, div_one, zpow_natCast]
  · rw [neg_neg, Int.toNat_natCast, Int.toNat_neg_natCast, pow_zero, zpow_neg, zpow_natCast,
      one_div]

/-- A whole number times a power, as the fraction that is computed. -/
theorem cast_mul_div (n b : Nat) (e : Int) :
    ((n * b ^ e.toNat : Nat) : ℚ) / ((b ^ (-e).toNat : Nat) : ℚ) = n * b ^ e := by
  rw [zpow_eq_div]
  push_cast
  exact mul_div_assoc _ _ _

/-- A shift to one side or the other is a power of two. -/
theorem cast_shiftLeft_div (num den : Nat) (q : Int) :
    ((num <<< (-q).toNat : Nat) : ℚ) / ((den <<< q.toNat : Nat) : ℚ)
      = (num : ℚ) / den * 2 ^ (-q) := by
  rw [Nat.shiftLeft_eq, Nat.shiftLeft_eq, zpow_eq_div, neg_neg]
  push_cast
  exact mul_div_mul_comm _ _ _ _

/-- Comparing a shifted numerator with a shifted denominator. -/
theorem shiftLeft_le_iff {num den : Nat} (hden : 0 < den) (e : Int) :
    den <<< e.toNat ≤ num <<< (-e).toNat ↔ (2 : ℚ) ^ e ≤ (num : ℚ) / den := by
  have hpos : (0 : ℚ) < ((den <<< e.toNat : Nat) : ℚ) := by
    rw [Nat.shiftLeft_eq]
    positivity
  rw [← @Nat.cast_le ℚ, ← one_le_div hpos, cast_shiftLeft_div, zpow_neg,
    ← div_eq_mul_inv, one_le_div (by positivity)]

/-- `log2Floor` is the binary logarithm, rounded down. -/
theorem log2Floor_eq {num den : Nat} (hnum : 0 < num) (hden : 0 < den) :
    log2Floor num den = Int.log 2 ((num : ℚ) / den) := by
  have hx : (0 : ℚ) < (num : ℚ) / den := by positivity
  have hnumLow : (2 : ℚ) ^ num.log2 ≤ num := by exact_mod_cast Nat.log2_self_le hnum.ne'
  have hnumHigh : (num : ℚ) < 2 ^ (num.log2 + 1) := by exact_mod_cast Nat.lt_log2_self
  have hdenLow : (2 : ℚ) ^ den.log2 ≤ den := by exact_mod_cast Nat.log2_self_le hden.ne'
  have hdenHigh : (den : ℚ) < 2 ^ (den.log2 + 1) := by exact_mod_cast Nat.lt_log2_self
  unfold log2Floor
  dsimp only
  generalize num.log2 = a at *
  generalize den.log2 = b at *
  have hbelow : (a : ℤ) - b - 1 ≤ Int.log 2 ((num : ℚ) / den) := by
    rw [← Int.zpow_le_iff_le_log Nat.one_lt_two hx, le_div_iff₀ (by positivity)]
    calc ((2 : ℕ) : ℚ) ^ ((a : ℤ) - b - 1) * den
        ≤ 2 ^ ((a : ℤ) - b - 1) * 2 ^ (b + 1) := by
          push_cast
          gcongr
      _ = 2 ^ a := by
          rw [← zpow_natCast, ← zpow_add₀ two_ne_zero, ← zpow_natCast]
          congr 1
          push_cast
          ring
      _ ≤ num := hnumLow
  have habove : Int.log 2 ((num : ℚ) / den) < (a : ℤ) - b + 1 := by
    rw [← Int.lt_zpow_iff_log_lt Nat.one_lt_two hx, div_lt_iff₀ (by positivity)]
    calc (num : ℚ) < 2 ^ (a + 1) := hnumHigh
      _ = 2 ^ ((a : ℤ) - b + 1) * 2 ^ b := by
          rw [← zpow_natCast, ← zpow_natCast, ← zpow_add₀ two_ne_zero]
          congr 1
          push_cast
          ring
      _ ≤ ((2 : ℕ) : ℚ) ^ ((a : ℤ) - b + 1) * den := by
          push_cast
          gcongr
  have hiff := Int.zpow_le_iff_le_log Nat.one_lt_two (x := (a : ℤ) - b) hx
  rw [Nat.cast_two, ← shiftLeft_le_iff hden] at hiff
  split <;> omega

/-- Rounding at the exponent `q`: `k` units of `2 ^ q` are what lies within half a unit of them. -/
theorem roundDiv_shiftLeft {num den k : Nat} {q : Int} {t : ℚ} (hden : 0 < den)
    (ht : (num : ℚ) / den * 2 ^ (-q) = t) (hlow : k - 1 / 2 ≤ t) (hhigh : t ≤ k + 1 / 2)
    (hodd : k % 2 = 1 → k - 1 / 2 < t ∧ t < k + 1 / 2) :
    roundDiv (num <<< (-q).toNat) (den <<< q.toNat) = k := by
  have hpos : 0 < den <<< q.toNat := by
    rw [Nat.shiftLeft_eq]
    positivity
  rw [← cast_shiftLeft_div] at ht
  generalize num <<< (-q).toNat = n at ht ⊢
  generalize den <<< q.toNat = d at ht hpos ⊢
  have hd : (0 : ℚ) < d := by exact_mod_cast hpos
  have hn : (n : ℚ) = t * d := (div_eq_iff hd.ne').mp ht
  apply roundDiv_eq hpos
  · have hle : (2 * k * d : ℚ) ≤ 2 * n + d := by nlinarith
    exact_mod_cast hle
  · have hle : (2 * n : ℚ) ≤ (2 * k + 1) * d := by nlinarith
    exact_mod_cast hle
  · intro hk
    obtain ⟨hl, hh⟩ := hodd hk
    have h₁ : (2 * k * d : ℚ) < 2 * n + d := by nlinarith
    have h₂ : (2 * n : ℚ) < (2 * k + 1) * d := by nlinarith
    exact ⟨by exact_mod_cast h₁, by exact_mod_cast h₂⟩

/-- Where a number stands among the powers of two, in units of `2 ^ q`. -/
theorem units_lt_iff {x : ℚ} (hx : 0 < x) (q : Int) (k : Nat) :
    x * 2 ^ (-q) < 2 ^ k ↔ Int.log 2 x < q + k := by
  rw [← Int.lt_zpow_iff_log_lt Nat.one_lt_two hx, zpow_neg, ← div_eq_mul_inv,
    div_lt_iff₀ (by positivity), Nat.cast_two, add_comm, zpow_add₀ two_ne_zero, zpow_natCast]

/-! ## The finite magnitudes -/

/-- `m · 2 ^ q` is the magnitude of a finite double, with the least possible `q`. -/
structure Legal (m : Nat) (q : Int) : Prop where
  mantissa : m < 2 ^ 53
  least : minExponent ≤ q
  greatest : q ≤ 971
  normal : m < 2 ^ 52 → q = minExponent

/-- The bit pattern of `m · 2 ^ q`. -/
def magnitude (m : Nat) (q : Int) : Nat := (q - minExponent).toNat * Nat.pow 2 52 + m

theorem Legal.magnitude_lt {m : Nat} {q : Int} (h : Legal m q) : magnitude m q < infinityBits := by
  have hleast := h.least
  have hgreatest := h.greatest
  have hmantissa := h.mantissa
  simp only [magnitude, infinityBits, minExponent, Nat.pow_eq] at *
  omega

end Binary64

/-! ## Rounding intervals -/

namespace RoundingInterval

open Binary64

variable {m : Nat} {q : Int}

/-- A number between the ends of the interval; at an end, only if the ends belong to it. -/
structure Contains (i : RoundingInterval) (x : ℚ) : Prop where
  lower_le : i.lower * 2 ^ i.exponent ≤ x
  le_upper : x ≤ i.upper * 2 ^ i.exponent
  inside : i.closed = false → i.lower * 2 ^ i.exponent < x ∧ x < i.upper * 2 ^ i.exponent

theorem lower_ofParts (hm : 0 < m) :
    ((ofParts m q).lower : ℚ) = 4 * m - (if m = 2 ^ 52 ∧ minExponent < q then 1 else 2) := by
  show ((4 * m - (if m = Nat.pow 2 52 ∧ minExponent < q then 1 else 2) : Nat) : ℚ) = _
  rw [Nat.pow_eq]
  split
  · rw [Nat.cast_sub (by omega)]
    push_cast
    rfl
  · rw [Nat.cast_sub (by omega)]
    push_cast
    rfl

/-- The bounds of an interval in units of `2 ^ q`. -/
theorem Contains.units {x : ℚ} (hm : 0 < m) (h : (ofParts m q).Contains x) :
    m - 1 / 2 ≤ x * 2 ^ (-q) ∧ x * 2 ^ (-q) ≤ m + 1 / 2 ∧
      (m % 2 = 1 → m - 1 / 2 < x * 2 ^ (-q) ∧ x * 2 ^ (-q) < m + 1 / 2) ∧
      (m = 2 ^ 52 → minExponent < q → m - 1 / 4 ≤ x * 2 ^ (-q)) := by
  have hpos : (0 : ℚ) < 2 ^ q := by positivity
  have hunit : (2 : ℚ) ^ (ofParts m q).exponent = 2 ^ q / 4 := by
    show (2 : ℚ) ^ (q - 2) = 2 ^ q / 4
    rw [zpow_sub₀ two_ne_zero]
    norm_num
  have hupper : ((ofParts m q).upper : ℚ) = 4 * m + 2 := by
    show ((4 * m + 2 : Nat) : ℚ) = 4 * m + 2
    push_cast
    rfl
  obtain ⟨hlow, hhigh, hinside⟩ := h
  rw [hunit, lower_ofParts hm] at hlow hinside
  rw [hunit, hupper] at hhigh
  rw [hupper] at hinside
  rw [zpow_neg, ← div_eq_mul_inv]
  generalize (2 : ℚ) ^ q = u at *
  simp only [le_div_iff₀ hpos, div_le_iff₀ hpos, lt_div_iff₀ hpos, div_lt_iff₀ hpos]
  refine ⟨?_, by linarith, ?_, ?_⟩
  · split at hlow <;> linarith
  · intro hodd
    obtain ⟨hl, hh⟩ := hinside (decide_eq_false (by omega))
    refine ⟨?_, by linarith⟩
    split at hl <;> linarith
  · intro htwo hq
    rw [if_pos ⟨htwo, hq⟩] at hlow
    linarith

theorem Contains.pos {x : ℚ} (hm : 0 < m) (h : (ofParts m q).Contains x) : 0 < x := by
  have hone : (1 : ℚ) ≤ m := by exact_mod_cast hm
  have hunits := (h.units hm).1
  have hpos : (0 : ℚ) < x * 2 ^ (-q) := by linarith
  exact pos_of_mul_pos_left hpos (by positivity)

/-- **Rounding is right.** A fraction in the interval of `m · 2 ^ q` is rounded to it. -/
theorem Contains.nearest_eq {num den : Nat} (hden : 0 < den) (hm : 0 < m) (hlegal : Legal m q)
    (h : (ofParts m q).Contains (num / den)) : nearest num den = magnitude m q := by
  have hx := h.pos hm
  obtain ⟨hlow, hhigh, hodd, hdense⟩ := h.units hm
  have hlt := units_lt_iff hx q
  have hnum : num ≠ 0 := by
    rintro rfl
    simp at hx
  have hmantissa : (m : ℚ) + 1 ≤ 2 ^ 53 := by exact_mod_cast hlegal.mantissa
  have habove := (hlt 53).mp (by linarith)
  have hfinite := hlegal.magnitude_lt
  unfold nearest
  rw [if_neg hnum, log2Floor_eq (Nat.pos_of_ne_zero hnum) hden]
  dsimp only
  generalize ht : (num : ℚ) / den * 2 ^ (-q) = t at *
  generalize Int.log 2 ((num : ℚ) / den) = e at *
  by_cases hbelow : t < 2 ^ 52 ∧ minExponent < q
  · -- Below a power of two the unit is half as large, and the rounded mantissa is `2 ^ 53`.
    obtain ⟨hbelow, hq⟩ := hbelow
    have htwo : m = 2 ^ 52 := by
      have hle : m < 2 ^ 52 + 1 := by
        have : (m : ℚ) < 2 ^ 52 + 1 := by linarith
        exact_mod_cast this
      have hnormal := mt hlegal.normal hq.ne'
      omega
    have hnear := hdense htwo hq
    subst htwo
    have hexponent : max minExponent (e - 52) = q - 1 := by
      have h₁ := (hlt 52).mp hbelow
      have h₂ := mt (hlt 51).mpr (by push_cast at hnear ⊢; linarith)
      omega
    have hround : roundDiv (num <<< (-(q - 1)).toNat) (den <<< (q - 1).toNat) = 2 ^ 53 := by
      have hdouble : (num : ℚ) / den * 2 ^ (-(q - 1)) = 2 * t := by
        rw [neg_sub, sub_eq_add_neg, zpow_add₀ two_ne_zero, ← ht]
        ring
      apply roundDiv_shiftLeft hden hdouble
      · push_cast at hnear ⊢
        linarith
      · push_cast
        linarith
      · intro hk
        omega
    rw [hexponent, hround]
    simp only [magnitude, Nat.pow_eq] at hfinite ⊢
    omega
  · have hexponent : max minExponent (e - 52) = q := by
      have hleast := hlegal.least
      by_cases h₁ : t < 2 ^ 52
      · have h₂ := (hlt 52).mp h₁
        have h₃ : ¬minExponent < q := fun h₃ => hbelow ⟨h₁, h₃⟩
        omega
      · have h₂ := mt (hlt 52).mpr h₁
        omega
    rw [hexponent, roundDiv_shiftLeft hden ht hlow hhigh hodd]
    exact Nat.min_eq_right hfinite.le

end RoundingInterval
end Scripting
