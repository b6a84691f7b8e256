/-
Doubles and their bit patterns.

A double is determined by its bits: building one from the bits of `x` gives `x` again. For a finite
double the bits are a sign and a magnitude, and the parts it is taken into are a legal mantissa and
exponent with that magnitude. Its absolute value has the same magnitude and no sign.

All of this rests on what it means to unpack a bit pattern into sign, exponent and mantissa and to
pack them again.
-/
import Scripting.Proofs.Rounding

set_option autoImplicit false

namespace Scripting

open Float.Model Float.Model.UnpackedFloat

/-! ## Packing and unpacking -/

theorem toBitVec_ofBitVec (sign : BitVec 1) : (Sign.ofBitVec sign).toBitVec = sign := by
  revert sign
  decide

/-- The three fields make up the whole pattern. -/
theorem packComponents_unpack (b : BitVec Format.binary64.numBits) :
    packComponents .binary64 (Sign.ofBitVec (unpackSign b)) (unpackExponent b) (unpackMantissa b)
      = b := by
  have hsign : unpackSign b = BitVec.extractLsb 63 63 b := rfl
  simp only [packComponents, toBitVec_ofBitVec, hsign, unpackExponent, unpackMantissa,
    BitVec.extractLsb]
  ext i hi
  grind

/-- The implicit leading bit of a mantissa. -/
theorem toNat_one_append (mantissa : BitVec 52) :
    (1#1 ++ mantissa).toNat = 2 ^ 52 + mantissa.toNat := by
  rw [BitVec.toNat_append, ← Nat.shiftLeft_add_eq_or_of_lt mantissa.isLt]
  rfl

/-- What three fields stand for. -/
inductive Unpacks (sign : BitVec 1) (exponent : BitVec 11) (mantissa : BitVec 52) :
    UnpackedFloat → Prop
  | infinity : exponent = -1#11 → mantissa = 0#52 →
      Unpacks sign exponent mantissa (.infinity (Sign.ofBitVec sign))
  | nan : exponent = -1#11 → mantissa ≠ 0#52 → Unpacks sign exponent mantissa .notANumber
  | zero : exponent = 0#11 → mantissa = 0#52 →
      Unpacks sign exponent mantissa (.zero (Sign.ofBitVec sign))
  | subnormal (hm : 0 < mantissa.toNat) : exponent = 0#11 →
      Unpacks sign exponent mantissa (.finite (Sign.ofBitVec sign) mantissa.toNat (-1074) hm)
  | normal (hm : 0 < (1#1 ++ mantissa).toNat) : exponent ≠ -1#11 → exponent ≠ 0#11 →
      Unpacks sign exponent mantissa
        (.finite (Sign.ofBitVec sign) (1#1 ++ mantissa).toNat ((exponent.toNat : Int) - 1075) hm)

theorem unpacks (b : BitVec Format.binary64.numBits) :
    Unpacks (unpackSign b) (unpackExponent b) (unpackMantissa b)
      (UnpackedFloat.unpack .binary64 b) := by
  unfold UnpackedFloat.unpack
  dsimp only
  by_cases hmax : unpackExponent b = -1#11
  · rw [if_pos hmax]
    by_cases hnone : unpackMantissa b = 0#52
    · rw [if_pos hnone]
      exact .infinity hmax hnone
    · rw [if_neg hnone]
      exact .nan hmax hnone
  · rw [if_neg hmax]
    by_cases hleast : unpackExponent b = 0#11
    · rw [if_pos hleast]
      by_cases hnone : unpackMantissa b = 0#52
      · rw [dif_pos hnone]
        exact .zero hleast hnone
      · rw [dif_neg hnone, hleast]
        exact .subnormal _ rfl
    · rw [if_neg hleast]
      exact .normal _ hmax hleast

/-- The fields leave no choice. -/
theorem Unpacks.unique {sign : BitVec 1} {exponent : BitVec 11} {mantissa : BitVec 52}
    {u u' : UnpackedFloat} (h : Unpacks sign exponent mantissa u)
    (h' : Unpacks sign exponent mantissa u') : u = u' := by
  have hpos : mantissa = 0#52 → ¬0 < mantissa.toNat := by
    intro hnone
    rw [hnone]
    decide
  cases h with
  | infinity hmax hnone =>
    cases h' with
    | infinity => rfl
    | nan _ h' => exact absurd hnone h'
    | zero h' | subnormal _ h' => exact absurd (hmax.symm.trans h') (by decide)
    | normal _ h' => exact absurd hmax h'
  | nan hmax hsome =>
    cases h' with
    | infinity _ h' => exact absurd h' hsome
    | nan => rfl
    | zero h' | subnormal _ h' => exact absurd (hmax.symm.trans h') (by decide)
    | normal _ h' => exact absurd hmax h'
  | zero hleast hnone =>
    cases h' with
    | infinity h' | nan h' => exact absurd (hleast.symm.trans h') (by decide)
    | zero => rfl
    | subnormal h' => exact absurd h' (hpos hnone)
    | normal _ _ h' => exact absurd hleast h'
  | subnormal hm hleast =>
    cases h' with
    | infinity h' | nan h' => exact absurd (hleast.symm.trans h') (by decide)
    | zero _ h' => exact absurd hm (hpos h')
    | subnormal => rfl
    | normal _ _ h' => exact absurd hleast h'
  | normal _ hmax hleast =>
    cases h' with
    | infinity h' | nan h' => exact absurd h' hmax
    | zero h' | subnormal _ h' => exact absurd h' hleast
    | normal => rfl

/-- The absolute value is what the same fields stand for with the sign cleared. -/
theorem Unpacks.abs {sign : BitVec 1} {exponent : BitVec 11} {mantissa : BitVec 52}
    {u : UnpackedFloat} (h : Unpacks sign exponent mantissa u) :
    Unpacks 0#1 exponent mantissa u.abs := by
  cases h with
  | infinity hmax hnone => exact .infinity hmax hnone
  | nan hmax hsome => exact .nan hmax hsome
  | zero hleast hnone => exact .zero hleast hnone
  | subnormal hm hleast => exact .subnormal hm hleast
  | normal hm hmax hleast => exact .normal hm hmax hleast

theorem pack_finite_subnormal {sign : Sign} {mantissa : BitVec 52} (hm : 0 < mantissa.toNat) :
    UnpackedFloat.pack .binary64 (.finite sign mantissa.toNat (-1074) hm)
      = packComponents .binary64 sign 0 mantissa := by
  have hlt := mantissa.isLt
  have hsize : mantissa.toNat.log2 + 1 ≠ 53 := by
    have hlog := (Nat.log2_lt hm.ne').mpr hlt
    omega
  unfold UnpackedFloat.pack
  dsimp only
  rw [if_neg (by decide),
    if_neg (show mantissa.toNat.log2 + 1 ≠ Format.binary64.mantissaBits from hsize),
    BitVec.ofNat_toNat, BitVec.setWidth_eq]
  rfl

theorem pack_finite_normal {sign : Sign} {exponent : BitVec 11} {mantissa : BitVec 52}
    (he : exponent.toNat < 2047) (hm : 0 < (1#1 ++ mantissa).toNat) :
    UnpackedFloat.pack .binary64
        (.finite sign (1#1 ++ mantissa).toNat ((exponent.toNat : Int) - 1075) hm)
      = packComponents .binary64 sign exponent mantissa := by
  have hlt := mantissa.isLt
  have hlog : (1#1 ++ mantissa).toNat.log2 = 52 := by
    rw [Nat.log2_eq_iff hm.ne', toNat_one_append]
    omega
  have hbiased : ((exponent.toNat : Int) - 1075 + 1023 + 52).toNat = exponent.toNat := by omega
  unfold UnpackedFloat.pack
  dsimp only
  rw [show (Format.binary64.exponentBias : Int) = 1023 from rfl, Nat.cast_ofNat, hbiased, hlog,
    if_neg (by omega), if_pos (show 52 + 1 = Format.binary64.mantissaBits from rfl),
    toNat_one_append]
  congr 1
  · rw [BitVec.ofNat_toNat, BitVec.setWidth_eq]
  · apply BitVec.eq_of_toNat_eq
    rw [BitVec.toNat_ofNat, Nat.add_mod_left, Nat.mod_eq_of_lt hlt]

theorem pack_unpack {b : BitVec Format.binary64.numBits} (h : Format.binary64.Valid b) :
    UnpackedFloat.pack .binary64 (UnpackedFloat.unpack .binary64 b) = b := by
  have hwhole := packComponents_unpack b
  have hvalid := h.eq_packedNaN
  have hlt : (unpackExponent b).toNat < 2048 := (unpackExponent b).isLt
  have hunpacks := unpacks b
  generalize UnpackedFloat.unpack .binary64 b = u at hunpacks ⊢
  cases hunpacks with
  | infinity hmax hnone | zero hmax hnone =>
    rw [hmax, hnone] at hwhole
    exact hwhole
  | nan hmax hsome => exact (hvalid hmax hsome).symm
  | subnormal hm hleast =>
    rw [hleast] at hwhole
    exact (pack_finite_subnormal hm).trans hwhole
  | normal hm hmax _ =>
    apply (pack_finite_normal _ hm).trans hwhole
    have hne : (unpackExponent b).toNat ≠ 2047 := fun h => hmax (BitVec.eq_of_toNat_eq h)
    show (unpackExponent b).toNat < 2047
    omega

/-- A double is determined by its bits. -/
theorem ofBits_toBits (x : Float) : Float.ofBits x.toBits = x := by
  obtain ⟨bits, hvalid⟩ := x
  have hpacked : UInt64.ofBitVec (UnpackedFloat.pack .binary64 (UnpackedFloat.unpack .binary64
      bits.toBitVec)) = bits := by
    rw [pack_unpack hvalid]
  show Float.ofModel (Float.Model.ofBits bits) = _
  rw [Float.ofModel.injEq, Float.Model.mk.injEq]
  exact hpacked

/-! ## Sign and magnitude -/

namespace Binary64

variable {x : Float} (bits : UInt64)

theorem toNat_unpackExponent :
    (@unpackExponent .binary64 bits.toBitVec).toNat = bits.toNat / 2 ^ 52 % 2 ^ 11 := by
  unfold unpackExponent
  rw [BitVec.toNat_cast, BitVec.extractLsb_toNat, Nat.shiftRight_eq_div_pow]
  rfl

theorem toNat_unpackMantissa :
    (@unpackMantissa .binary64 bits.toBitVec).toNat = bits.toNat % 2 ^ 52 := by
  unfold unpackMantissa
  rw [BitVec.toNat_cast, BitVec.extractLsb_toNat, Nat.shiftRight_zero]
  rfl

theorem toNat_unpackSign :
    (@unpackSign .binary64 bits.toBitVec).toNat = bits.toNat / 2 ^ 63 := by
  have hlt := bits.toNat_lt
  show (BitVec.extractLsb 63 63 bits.toBitVec).toNat = _
  rw [BitVec.extractLsb_toNat, Nat.shiftRight_eq_div_pow, Nat.mod_eq_of_lt]
  · rfl
  · show bits.toNat / 2 ^ 63 < 2
    omega

/-- A double is finite if its exponent bits are not all ones. -/
theorem isFinite_iff : x.isFinite = true ↔ x.toBits.toNat / 2 ^ 52 % 2 ^ 11 ≠ 2047 := by
  rw [← toNat_unpackExponent]
  show (UnpackedFloat.unpack .binary64 x.toBits.toBitVec).isFinite = true ↔ _
  have hunpacks := unpacks x.toBits.toBitVec
  generalize UnpackedFloat.unpack .binary64 x.toBits.toBitVec = u at hunpacks ⊢
  generalize @unpackExponent .binary64 x.toBits.toBitVec = exponent at hunpacks ⊢
  cases hunpacks with
  | infinity hmax | nan hmax =>
    subst hmax
    exact iff_of_false Bool.false_ne_true fun hne => hne rfl
  | zero hleast | subnormal _ hleast =>
    subst hleast
    exact iff_of_true rfl (by decide)
  | normal _ hmax _ =>
    exact iff_of_true rfl fun h => hmax (BitVec.eq_of_toNat_eq h)

/-- The absolute value has the sign bit cleared. -/
theorem abs_eq (x : Float) : x.abs = ofMagnitude false (x.toBits.toNat % 2 ^ 63) := by
  have hbits : (UInt64.ofNat (x.toBits.toNat % 2 ^ 63)).toNat = x.toBits.toNat % 2 ^ 63 := by
    rw [UInt64.toNat_ofNat', Nat.mod_eq_of_lt (by omega)]
  show Float.ofModel (Float.Model.pack (UnpackedFloat.unpack .binary64 x.toBits.toBitVec).abs)
    = Float.ofModel (Float.Model.pack (UnpackedFloat.unpack .binary64
      (UInt64.ofNat (x.toBits.toNat % 2 ^ 63)).toBitVec))
  have hmantissa : @unpackMantissa .binary64 (UInt64.ofNat (x.toBits.toNat % 2 ^ 63)).toBitVec
      = @unpackMantissa .binary64 x.toBits.toBitVec := by
    apply BitVec.eq_of_toNat_eq
    rw [toNat_unpackMantissa, toNat_unpackMantissa, hbits]
    omega
  have hexponent : @unpackExponent .binary64 (UInt64.ofNat (x.toBits.toNat % 2 ^ 63)).toBitVec
      = @unpackExponent .binary64 x.toBits.toBitVec := by
    apply BitVec.eq_of_toNat_eq
    rw [toNat_unpackExponent, toNat_unpackExponent, hbits]
    omega
  have hsign : @unpackSign .binary64 (UInt64.ofNat (x.toBits.toNat % 2 ^ 63)).toBitVec = 0#1 := by
    apply BitVec.eq_of_toNat_eq
    rw [toNat_unpackSign, hbits]
    exact Nat.div_eq_of_lt (Nat.mod_lt _ (by decide))
  have hcleared := unpacks (UInt64.ofNat (x.toBits.toNat % 2 ^ 63)).toBitVec
  rw [hmantissa, hexponent, hsign] at hcleared
  rw [(unpacks x.toBits.toBitVec).abs.unique hcleared]

theorem ofMagnitude_toBits (x : Float) :
    ofMagnitude (decide (2 ^ 63 ≤ x.toBits.toNat)) (x.toBits.toNat % 2 ^ 63) = x := by
  have hlt := x.toBits.toNat_lt
  have hbits : (if decide (2 ^ 63 ≤ x.toBits.toNat) then Nat.pow 2 63 + x.toBits.toNat % 2 ^ 63
      else x.toBits.toNat % 2 ^ 63) = x.toBits.toNat := by
    rw [Nat.pow_eq]
    split
    case isTrue h =>
      have h := of_decide_eq_true h
      omega
    case isFalse h =>
      have h := of_decide_eq_false (Bool.eq_false_of_not_eq_true h)
      omega
  unfold ofMagnitude
  rw [hbits, UInt64.ofNat_toNat, ofBits_toBits]

theorem parts_of_isFinite (h : x.isFinite = true) :
    ∃ m q, parts x = .finite (decide (2 ^ 63 ≤ x.toBits.toNat)) m q ∧ Legal m q ∧
      magnitude m q = x.toBits.toNat % 2 ^ 63 := by
  have hlt := x.toBits.toNat_lt
  have hexponent := isFinite_iff.mp h
  unfold parts
  simp only [Nat.pow_eq, if_neg hexponent]
  by_cases hzero : x.toBits.toNat / 2 ^ 52 % 2 ^ 11 = 0
  · rw [if_pos hzero]
    refine ⟨_, _, rfl, ⟨by omega, le_rfl, by decide, fun _ => rfl⟩, ?_⟩
    unfold magnitude
    rw [sub_self, Int.toNat_zero]
    omega
  · rw [if_neg hzero]
    refine ⟨_, _, rfl, ⟨by omega, ?_, by omega, fun h => by omega⟩, ?_⟩
    · unfold minExponent
      omega
    · unfold magnitude minExponent
      rw [Nat.pow_eq]
      omega

end Binary64

end Scripting
