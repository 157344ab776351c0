import Planetarium.Decimal.Binary
import Mathlib

/-!
# When a product is infinite

A product of doubles is taken apart from them: their exact product is cut to 53 bits, and the
number is infinite if its exponent is then past the greatest there is.  So a factor below one half
never makes a finite number infinite, and an infinite one stays infinite unless the factor is zero
(`isInfinite_mul`).
-/
namespace Planetarium.Decimal
open Float.Model (Format totalExponent)
open Float.Model.UnpackedFloat

attribute [local instance] natPow

variable {s t : Sign} {m n : Nat} {e f : Int}

/-! ## Doubles by their bits -/

/-- Infinities have all bits of the exponent and none of the mantissa. -/
theorem isInf_unpack (b : BitVec Format.binary64.numBits) :
    (unpack .binary64 b).isInf ↔ unpackExponent b = -1#11 ∧ unpackMantissa b = 0#52 := by
  rw [unpack]
  split
  · split <;> simp [isInf, *]
  · rename_i hexponent
    split
    · split <;> simp [isInf, *]
    · simp [isInf, show ¬ unpackExponent b = 2047#11 from hexponent]

/-- What is no number has all bits of the exponent and some of the mantissa. -/
theorem isNaN_unpack (b : BitVec Format.binary64.numBits) :
    (unpack .binary64 b).isNaN ↔ unpackExponent b = -1#11 ∧ unpackMantissa b ≠ 0#52 := by
  rw [unpack]
  split
  · split <;> simp [isNaN, *]
  · rename_i hexponent
    split
    · split <;> simp [isNaN, *]
    · simp [isNaN, show ¬ unpackExponent b = 2047#11 from hexponent]

theorem isInf_unpack_packComponents (s : Sign) (exponent : BitVec 11) (mantissa : BitVec 52) :
    (unpack .binary64 (packComponents .binary64 s exponent mantissa)).isInf ↔
      exponent = -1#11 ∧ mantissa = 0#52 := by
  rw [isInf_unpack, unpackExponent_packComponents, unpackMantissa_packComponents]

/-- A number is infinite just if its bits but for the sign are those of infinity. -/
theorem isInfinite_iff_bits (x : Float) :
    isInfinite x ↔ x.toBits.toNat % signBit = infinityBits := by
  simp only [isInfinite, Binary.ofFloat]
  by_cases hnan : infinityBits < x.toBits.toNat % signBit
  · simp [if_pos hnan, Nat.ne_of_gt hnan]
  · by_cases hinf : x.toBits.toNat % signBit = infinityBits
    · simp [hinf]
    · simp [if_neg hnan, hinf]

/-- The exponent of a double has all bits. -/
theorem unpackExponent_toBits (x : Float) :
    @unpackExponent .binary64 x.toModel.toBits.toBitVec = -1#11 ↔
      x.toBits.toNat / 2 ^ 52 % 2 ^ 11 = 2047 := by
  have hbits : x.toBits = x.toModel.toBits := rfl
  rw [unpackExponent, ← BitVec.toNat_inj, ← Nat.shiftRight_eq_div_pow]
  simp [hbits]

/-- The mantissa of a double has no bits. -/
theorem unpackMantissa_toBits (x : Float) :
    @unpackMantissa .binary64 x.toModel.toBits.toBitVec = 0#52 ↔ x.toBits.toNat % 2 ^ 52 = 0 := by
  have hbits : x.toBits = x.toModel.toBits := rfl
  rw [unpackMantissa, ← BitVec.toNat_inj]
  simp [hbits]

/-- So is it in its parts. -/
theorem isInfinite_iff (x : Float) : isInfinite x ↔ x.toModel.unpack.isInf := by
  have hinf := isInf_unpack x.toModel.toBits.toBitVec
  rw [unpackExponent_toBits, unpackMantissa_toBits] at hinf
  refine (isInfinite_iff_bits x).trans (Iff.trans ?_ hinf.symm)
  rw [show signBit = 2 ^ 63 from rfl, show infinityBits = 2047 * 2 ^ 52 from rfl]
  omega

theorem ofFloat_eq_nan_iff (x : Float) : Binary.ofFloat x = .nan ↔ x.isNaN := by
  have hnan := isNaN_unpack x.toModel.toBits.toBitVec
  rw [ne_eq, unpackExponent_toBits, unpackMantissa_toBits] at hnan
  have hbits : Binary.ofFloat x = .nan ↔ infinityBits < x.toBits.toNat % signBit := by
    simp only [Binary.ofFloat]
    split
    · simp [*]
    · split <;> simp [*]
  refine hbits.trans (Iff.trans ?_ hnan.symm)
  rw [show signBit = 2 ^ 63 from rfl, show infinityBits = 2047 * 2 ^ 52 from rfl]
  omega

/-! ## Packing -/

/-- A number in parts becomes an infinity when it is packed. -/
def Overflows : Float.Model.UnpackedFloat → Prop
  | .infinity _ => True
  | .finite _ _ e _ => 972 ≤ e
  | .zero _ | .notANumber => False

/-- The exponent with which a finite number is packed. -/
def packedExponent (m : Nat) (e : Int) : BitVec 11 :=
  if m.log2 + 1 = 53 then BitVec.ofNat 11 (e + 1075).toNat else 0#11

theorem packedExponent_ne (h : e < 972) : packedExponent m e ≠ -1#11 := by
  unfold packedExponent
  split
  · intro hones
    have hnat := congrArg BitVec.toNat hones
    rw [BitVec.toNat_ofNat, Nat.mod_eq_of_lt (by omega)] at hnat
    change _ = 2047 at hnat
    omega
  · decide

/-- What is packed is infinite from an exponent on, and finite below it. -/
theorem pack_finite (h : 0 < m) : pack .binary64 (.finite s m e h) =
    if 972 ≤ e then packedInfinity .binary64 s
    else packComponents .binary64 s (packedExponent m e) (BitVec.ofNat 52 m) := by
  have hbias : ((Format.binary64.exponentBias : Nat) : Int) = 1023 := rfl
  have hbits : ((Format.binary64.mantissaBitsWithoutImplicit : Nat) : Int) = 52 := rfl
  have hcut : 2048 ≤ (e + 1075).toNat + 1 ↔ 972 ≤ e := by omega
  rw [pack, hbias, hbits, show e + 1023 + 52 = e + 1075 by omega]
  rw [packedExponent, apply_ite (packComponents Format.binary64 s · _)]
  exact ite_congr (propext hcut) (fun _ => rfl) fun _ => rfl

/-- What is packed and opened again is infinite just if it overflows. -/
theorem isInf_unpack_pack (u : Float.Model.UnpackedFloat) :
    (unpack .binary64 (pack .binary64 u)).isInf ↔ Overflows u := by
  cases u with
  | infinity s => exact iff_of_true ((isInf_unpack_packComponents ..).mpr ⟨rfl, rfl⟩) trivial
  | notANumber =>
    exact iff_of_false (fun h => absurd ((isInf_unpack_packComponents ..).mp h).2 (by decide)) nofun
  | zero s =>
    exact iff_of_false (fun h => absurd ((isInf_unpack_packComponents ..).mp h).1 (by decide)) nofun
  | finite s m e h =>
    rw [pack_finite, Overflows]
    split
    · rename_i he
      exact iff_of_true ((isInf_unpack_packComponents ..).mpr ⟨rfl, rfl⟩) he
    · rename_i he
      refine iff_of_false (fun h => ?_) he
      exact packedExponent_ne (by omega) ((isInf_unpack_packComponents ..).mp h).1

/-- What is unpacked from a double has 53 bits at most and no greater exponent than there is. -/
theorem bounds_of_unpack {b : BitVec Format.binary64.numBits} {h : 0 < m}
    (hb : unpack .binary64 b = .finite s m e h) : m < 2 ^ (53 : Nat) ∧ e ≤ 971 := by
  have hexponent : (unpackExponent b).toNat < 2048 := (unpackExponent b).isLt
  have hmantissa : (unpackMantissa b).toNat < 2 ^ 52 := (unpackMantissa b).isLt
  have hwhole : (1#1 ++ unpackMantissa b).toNat < 2 ^ 53 := (1#1 ++ unpackMantissa b).isLt
  have hbias : ((Format.binary64.exponentBias : Nat) : Int) = 1023 := rfl
  have hbits : ((Format.binary64.mantissaBitsWithoutImplicit : Nat) : Int) = 52 := rfl
  rw [unpack, hbias, hbits] at hb
  split at hb
  · split at hb <;> cases hb
  · rename_i hones
    have hne : (unpackExponent b).toNat ≠ 2047 := fun h => hones (BitVec.eq_of_toNat_eq h)
    split at hb
    · rename_i hzero
      have hnat : (unpackExponent b).toNat = 0 := congrArg BitVec.toNat hzero
      split at hb
      · cases hb
      · obtain ⟨-, rfl, rfl⟩ := Float.Model.UnpackedFloat.finite.inj hb
        exact ⟨by omega, by omega⟩
    · obtain ⟨-, rfl, rfl⟩ := Float.Model.UnpackedFloat.finite.inj hb
      exact ⟨hwhole, by omega⟩

/-! ## Rounding -/

theorem mantissa_shiftRight (k : Nat) (x : ExtendedMantissa) :
    (x >>> k).mantissa = x.mantissa / 2 ^ k := by
  induction k with
  | zero => exact (Nat.div_one _).symm
  | succ k ih =>
    change (x >>> k).mantissa / 2 = _
    rw [ih, Nat.div_div_eq_div_mul, Nat.pow_succ]

/-- Rounding a significand adds at most one. -/
theorem roundedMantissa_le (x : ExtendedMantissa) : x.roundedMantissa ≤ x.mantissa + 1 := by
  obtain ⟨mantissa, round, sticky⟩ := x
  cases round <;> cases sticky <;>
    simp [ExtendedMantissa.roundedMantissa, ExtendedMantissa.accuracy, Accuracy.roundToNearestEven]
  omega

theorem targetExponent_eq (k : Int) :
    Format.binary64.targetExponent k = max (k - 53) (-1074) := rfl

theorem exponent_shiftToTargetExponent (a : Accuracy) :
    (shiftToTargetExponent .binary64 m e a).2 = max e (max (m.log2 + 1 + e - 53) (-1074)) := by
  rw [shiftToTargetExponent, shiftToExponent, targetExponent_eq, totalExponent]
  dsimp only
  omega

theorem mantissa_shiftToTargetExponent_lt :
    (shiftToTargetExponent .binary64 m e .exact).1.mantissa < 2 ^ (53 : Nat) := by
  rw [shiftToTargetExponent, shiftToExponent, targetExponent_eq, totalExponent, mantissa_shiftRight]
  change m / _ < _
  rw [Nat.div_lt_iff_lt_mul (Nat.two_pow_pos _), ← Nat.pow_add]
  refine Nat.lt_of_lt_of_le Nat.lt_log2_self (Nat.pow_le_pow_right (by decide) ?_)
  omega

/-- A number below half of the greatest power of two stays finite when it is rounded. -/
theorem not_overflows_roundWithAccuracy (he : e ≤ 970) (htotal : totalExponent m e ≤ 1023) :
    ¬ Overflows (roundWithAccuracy .binary64 s m e .exact) := by
  have hfirst := exponent_shiftToTargetExponent (m := m) (e := e) .exact
  have hmantissa := mantissa_shiftToTargetExponent_lt (m := m) (e := e)
  rw [totalExponent] at htotal
  rw [roundWithAccuracy]
  generalize shiftToTargetExponent .binary64 m e .exact = first at hfirst hmantissa
  obtain ⟨x, k⟩ := first
  -- rounding up may take one more bit, which is shifted out again
  have hsecond := exponent_shiftToTargetExponent (m := x.roundedMantissa) (e := k) .exact
  have hrounded := roundedMantissa_le x
  dsimp only at hfirst hmantissa ⊢
  generalize shiftToTargetExponent .binary64 x.roundedMantissa k .exact = second at hsecond
  obtain ⟨y, l⟩ := second
  dsimp only at hsecond ⊢
  have hlog : x.roundedMantissa.log2 ≤ 53 := by
    by_cases hzero : x.roundedMantissa = 0
    · simp [hzero]
    · exact Nat.le_of_lt_succ ((Nat.log2_lt hzero).mpr (by omega))
  split
  · exact id
  · rw [Overflows]
    omega

/-! ## Products -/

/-- A factor that is not zero and below one half keeps finite numbers finite and infinite ones
infinite. -/
theorem isInfinite_mul {y : Float} {h : 0 < n} (x : Float)
    (hy : y.toModel.unpack = .finite t n f h) (hsmall : f ≤ -54) :
    isInfinite (x * y) = isInfinite x := by
  rw [Bool.eq_iff_iff, isInfinite_iff, isInfinite_iff]
  change (unpack .binary64
    (pack .binary64 (mul .binary64 x.toModel.unpack y.toModel.unpack))).isInf ↔ _
  rw [isInf_unpack_pack, hy]
  cases hx : x.toModel.unpack with
  | infinity s => exact iff_of_true trivial rfl
  | notANumber => exact iff_of_false nofun nofun
  | zero s => exact iff_of_false nofun nofun
  | finite s m e hm =>
    refine iff_of_false ?_ nofun
    obtain ⟨hn, hf⟩ := bounds_of_unpack hy
    obtain ⟨hmlt, he⟩ := bounds_of_unpack hx
    have hne : m * n ≠ 0 := Nat.ne_of_gt (Nat.mul_pos hm h)
    have hlog : (m * n).log2 < 106 := by
      rw [Nat.log2_lt hne, show 106 = 53 + 53 from rfl, Nat.pow_add]
      exact Nat.mul_lt_mul'' hmlt hn
    refine not_overflows_roundWithAccuracy (by omega) ?_
    rw [totalExponent]
    omega

/-- What is no number is not infinite. -/
theorem not_isInfinite_of_isNaN {x : Float} (h : x.isNaN) : isInfinite x = false := by
  rw [isInfinite, (ofFloat_eq_nan_iff x).mpr h]

end Planetarium.Decimal
