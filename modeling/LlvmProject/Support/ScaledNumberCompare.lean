import LlvmProject.Support.ScaledNumberRounding
import Mathlib.Data.Sign.Basic

namespace LlvmProject

open BitVec hiding cast_ofNat succ_mul zero_mul
open Nat

namespace ScaledNumbers

open BinaryRounding

/-!
# Comparing scaled numbers

The floors of the logarithms decide unless they are equal.  If they are, the scales differ by
less than the width of the digits, and one of the numbers is shifted to the scale of the other:
what is shifted out only matters if the rest is equal.
-/

variable {W : Nat}

/-- The logarithm is off by the scale from the position of the highest digit. -/
theorem getLgFloor_eq {Digits : BitVec W} (nonzero : Digits ≠ 0#W)
    (Scale : Int) : getLgFloor Digits Scale = some (Scale + (Digits.toNat.size - 1 : Nat)) := by
  have sizeLe := size_le_width Digits
  have sizePos := size_pos.mpr (pos_of_ne_zero nonzero)
  have floor : W - countLeadingZeros Digits - 1 = Digits.toNat.size - 1 := by
    rw [countLeadingZeros]
    omega
  rw [getLgFloor, getLgImpl, if_neg nonzero, floor]
  dsimp only
  by_cases power : Digits.setWidth 64 = 1#64 <<< (Digits.toNat.size - 1)
  · rw [if_pos power, Option.map_some, if_neg (by decide : ¬ (0 : Int) > 0), sub_zero]
  · have more : Digits.toNat.size - 1 >= 1 := by
      by_contra single
      have size : Digits.toNat.size = 1 := by omega
      have small : Digits.toNat < 2 := by
        have below := lt_size_self Digits.toNat
        rwa [size] at below
      have one : Digits.toNat = 1 := le_antisymm (le_of_lt_succ small)
        (pos_of_ne_zero nonzero)
      refine power (eq_of_toNat_eq ?_)
      rw [size, toNat_setWidth, one]
      rfl
    rw [if_neg power, if_pos more, Option.map_some]
    by_cases up : Digits.setWidth 64 &&& (1#64 <<< (Digits.toNat.size - 1 - 1)) ≠ 0#64
    · rw [if_pos up, if_pos up, if_pos (by decide : (1 : Int) > 0), add_sub_cancel_right]
    · rw [if_neg up, if_neg up, if_neg (by decide : ¬ (-1 : Int) > 0), add_zero, sub_zero]

/-- The sign as an integer. -/
def sign (value : ℚ) : Int := (SignType.sign value : SignType)

theorem sign_of_lt {a b : ℚ} (less : a < b) : sign (a - b) = -1 := by
  rw [sign, sign_neg (sub_neg.mpr less)]
  rfl

theorem sign_of_gt {a b : ℚ} (greater : b < a) : sign (a - b) = 1 := by
  rw [sign, sign_pos (sub_pos.mpr greater)]
  rfl

theorem compareImpl_eq (L R : BitVec 64) {ScaleDiff : Nat} (small : ScaleDiff < 64) :
    compareImpl L R ScaleDiff = some (sign (L.toNat - R.toNat * 2 ^ ScaleDiff)) := by
  have power := Nat.two_pow_pos ScaleDiff
  have shifted : (L >>> ScaleDiff).toNat = L.toNat / 2 ^ ScaleDiff := by
    rw [toNat_ushiftRight, shiftRight_eq_div_pow]
  have prod : (R.toNat : ℚ) * 2 ^ ScaleDiff = ((R.toNat * 2 ^ ScaleDiff : Nat) : ℚ) := by
    rw [cast_mul, cast_pow, cast_ofNat]
  rw [compareImpl, if_pos ⟨Int.natCast_nonneg _, by omega⟩, Int.toNat_natCast, prod]
  dsimp only
  by_cases less : L >>> ScaleDiff < R
  · have below : L.toNat < R.toNat * 2 ^ ScaleDiff := by
      rw [lt_def, shifted] at less
      exact (div_lt_iff_lt_mul power).mp less
    rw [if_pos less, sign_of_lt (cast_lt.mpr below)]
  · rw [if_neg less]
    rw [lt_def, shifted, not_lt, le_div_iff_mul_le power] at less
    by_cases greater : L >>> ScaleDiff > R
    · have above : R.toNat * 2 ^ ScaleDiff < L.toNat := by
        rw [gt_iff_lt, lt_def, shifted] at greater
        have enough := (le_div_iff_mul_le power).mp (succ_le_of_lt greater)
        rw [succ_mul] at enough
        omega
      rw [if_pos greater, sign_of_gt (cast_lt.mpr above)]
    · rw [if_neg greater]
      have same : L.toNat / 2 ^ ScaleDiff = R.toNat := by
        rw [gt_iff_lt, lt_def, shifted, not_lt] at greater
        exact le_antisymm greater ((le_div_iff_mul_le power).mpr less)
      have back : (L >>> ScaleDiff <<< ScaleDiff).toNat = R.toNat * 2 ^ ScaleDiff := by
        rw [toNat_shiftLeft, shifted, same, Nat.shiftLeft_eq,
          mod_eq_of_lt (lt_of_le_of_lt less L.isLt)]
      have rest : L > L >>> ScaleDiff <<< ScaleDiff ↔ R.toNat * 2 ^ ScaleDiff < L.toNat := by
        rw [gt_iff_lt, lt_def, back]
      by_cases more : R.toNat * 2 ^ ScaleDiff < L.toNat
      · rw [if_pos (rest.mpr more), sign_of_gt (cast_lt.mpr more)]
      · have equal : L.toNat = R.toNat * 2 ^ ScaleDiff :=
          le_antisymm (Nat.le_of_not_lt more) less
        rw [if_neg fun shiftedOut => more (rest.mp shiftedOut), <- equal, sub_self, sign, sign_zero]
        rfl

/-- Scaling both sides does not change the sign of their difference. -/
theorem sign_scale (value : ℚ) (scale : Int) : sign (value * 2 ^ scale) = sign value := by
  have power : (0 : ℚ) < 2 ^ scale := zpow_pos two_pos scale
  rw [sign, sign, sign_mul, sign_pos power, mul_one]

section Logarithm

variable {x y : BitVec W} {scale scale' : Int}

theorem scaled_lt_of_log_lt (nonzero : y ≠ 0#W)
    (less : scale + (x.toNat.size - 1 : Nat) < scale' + (y.toNat.size - 1 : Nat)) :
    (x.toNat : ℚ) * 2 ^ scale < y.toNat * 2 ^ scale' := by
  have above : (x.toNat : ℚ) < 2 ^ x.toNat.size := by
    exact_mod_cast lt_size_self x.toNat
  have below : (2 : ℚ) ^ (y.toNat.size - 1) <= y.toNat := by
    exact_mod_cast two_pow_size_le nonzero
  have pos := size_pos.mpr (pos_of_ne_zero nonzero)
  calc (x.toNat : ℚ) * 2 ^ scale < 2 ^ x.toNat.size * 2 ^ scale :=
        mul_lt_mul_of_pos_right above (zpow_pos two_pos scale)
    _ = 2 ^ ((x.toNat.size : Int) + scale) := by
        rw [zpow_add₀ two_ne_zero, zpow_natCast]
    _ <= 2 ^ (((y.toNat.size - 1 : Nat) : Int) + scale') := zpow_le_zpow_right₀ one_le_two
        (by omega)
    _ = 2 ^ (y.toNat.size - 1) * 2 ^ scale' := by
        rw [zpow_add₀ two_ne_zero, zpow_natCast]
    _ <= y.toNat * 2 ^ scale' := mul_le_mul_of_nonneg_right below (zpow_pos two_pos scale').le

end Logarithm

theorem compare_eq (narrow : W <= 64) (LDigits : BitVec W) (LScale : Int) (RDigits : BitVec W)
    (RScale : Int) : compare LDigits LScale RDigits RScale =
      some (sign (LDigits.toNat * 2 ^ LScale - RDigits.toNat * 2 ^ RScale)) := by
  have extend : ∀ x : BitVec W, (x.setWidth 64).toNat = x.toNat := fun x => by
    rw [toNat_setWidth, mod_eq_of_lt (lt_of_lt_of_le x.isLt (Nat.pow_le_pow_right two_pos narrow))]
  have valuePos : ∀ {x : BitVec W} (scale : Int), x ≠ 0#W -> (0 : ℚ) < x.toNat * 2 ^ scale :=
    fun scale nonzero => mul_pos (cast_pos.mpr (pos_of_ne_zero nonzero))
      (zpow_pos two_pos scale)
  rw [compare]
  by_cases zeroL : LDigits = 0#W
  · rw [if_pos zeroL, zeroL, toNat_zero, cast_zero, zero_mul]
    by_cases zeroR : RDigits = 0#W
    · rw [if_neg (not_not.mpr zeroR), zeroR, toNat_zero, cast_zero, zero_mul, sub_zero,
        sign, sign_zero]
      rfl
    · rw [if_pos zeroR, sign_of_lt (valuePos RScale zeroR)]
  · rw [if_neg zeroL]
    by_cases zeroR : RDigits = 0#W
    · rw [if_pos zeroR, zeroR, toNat_zero, cast_zero, zero_mul, sign_of_gt (valuePos LScale zeroL)]
    · rw [if_neg zeroR, getLgFloor_eq zeroL, getLgFloor_eq zeroR]
      simp only [Option.bind_eq_bind, Option.bind_some]
      by_cases same : LScale + (LDigits.toNat.size - 1 : Nat) =
          RScale + (RDigits.toNat.size - 1 : Nat)
      · rw [if_neg (not_not.mpr same)]
        have sizeL := size_le_width LDigits
        have sizeR := size_le_width RDigits
        have positiveL := size_pos.mpr (pos_of_ne_zero zeroL)
        have positiveR := size_pos.mpr (pos_of_ne_zero zeroR)
        by_cases less : LScale < RScale
        · rcases Int.le.dest (Int.le_of_lt less) with ⟨d, rfl⟩
          have back : (LDigits.toNat : ℚ) * 2 ^ LScale - RDigits.toNat * 2 ^ (LScale + d) =
              (LDigits.toNat - RDigits.toNat * 2 ^ d) * 2 ^ LScale := by
            rw [zpow_add₀ two_ne_zero, zpow_natCast]
            ring
          rw [if_pos less, add_sub_cancel_left, compareImpl_eq _ _ (by omega), extend, extend,
            back, sign_scale]
        · rcases Int.le.dest (Int.le_of_not_gt less) with ⟨d, rfl⟩
          have back : (LDigits.toNat : ℚ) * 2 ^ (RScale + d) - RDigits.toNat * 2 ^ RScale =
              -(RDigits.toNat - LDigits.toNat * 2 ^ d) * 2 ^ RScale := by
            rw [zpow_add₀ two_ne_zero, zpow_natCast]
            ring
          rw [if_neg less, add_sub_cancel_left, compareImpl_eq _ _ (by omega), extend, extend,
            back, sign_scale, Option.map_some, sign, sign, Left.sign_neg, SignType.coe_neg]
      · rw [if_pos same]
        rcases Int.lt_or_gt_of_ne same with less | greater
        · rw [if_pos less, sign_of_lt (scaled_lt_of_log_lt zeroR less)]
          rfl
        · rw [if_neg (not_lt_of_gt greater), sign_of_gt (scaled_lt_of_log_lt zeroL greater)]
          rfl

/-- Products and quotients are exact or correctly rounded, and comparison is exact. -/
theorem scaledNumbers_correct (width : W = 32 ∨ W = 64) (L R : BitVec W) :
    CorrectlyRounded W ((L.toNat : ℚ) * R.toNat) (getProduct L R).1.toNat (getProduct L R).2 ∧
      (L ≠ 0#W -> R ≠ 0#W -> ∃ D S, getQuotient L R = some (D, S) ∧
        CorrectlyRounded W ((L.toNat : ℚ) / R.toNat) D.toNat S) ∧
      ∀ ls rs : Int, compare L ls R rs =
        some (sign ((L.toNat : ℚ) * 2 ^ ls - R.toNat * 2 ^ rs)) := by
  refine ⟨getProduct_correct width L R, fun nonzero divisor => ?_, fun ls rs => ?_⟩
  · rcases getQuotient_correct width nonzero divisor with ⟨D, S, run, correct, -⟩
    exact ⟨D, S, run, correct⟩
  · exact compare_eq (by omega) L ls R rs

/-- The largest number and the largest odd number below it, for digits of 64 bits. -/
theorem scaledNumbers_correct_large :
    CorrectlyRounded 64 (((0xffffffffffffffff#64).toNat : ℚ) * (0xfffffffffffffffd#64).toNat)
        (getProduct (0xffffffffffffffff#64) (0xfffffffffffffffd#64)).1.toNat
        (getProduct (0xffffffffffffffff#64) (0xfffffffffffffffd#64)).2 ∧
      (∃ D S, getQuotient (0xffffffffffffffff#64) (0xfffffffffffffffd#64) = some (D, S) ∧
        CorrectlyRounded 64
          (((0xffffffffffffffff#64).toNat : ℚ) / (0xfffffffffffffffd#64).toNat) D.toNat S) ∧
      ∀ ls rs : Int, compare (0xffffffffffffffff#64) ls (0xfffffffffffffffd#64) rs =
        some (sign (((0xffffffffffffffff#64).toNat : ℚ) * 2 ^ ls -
          (0xfffffffffffffffd#64).toNat * 2 ^ rs)) := by
  have correct := scaledNumbers_correct (.inr rfl) (0xffffffffffffffff#64)
    (0xfffffffffffffffd#64)
  exact ⟨correct.1, correct.2.1 (by decide) (by decide), correct.2.2⟩

end ScaledNumbers
end LlvmProject
