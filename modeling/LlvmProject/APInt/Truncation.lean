import LlvmProject.Library.TrailingZeros
import Mathlib.Data.BitVec

namespace LlvmProject

open BitVec Nat

namespace APInt

/-!
# Truncations

Arithmetic commutes with the truncation to fewer bits.  The trailing zeros of
a value are what a division by a power of two can remove without loss.
-/

open TrailingZeros

variable {V W : Nat}

/-- Truncation keeps sums and products. -/
def truncation (narrow : V <= W) : BitVec W →+* BitVec V where
  toFun x := x.setWidth V
  map_zero' := setWidth_zero V W
  map_one' := setWidth_ofNat_of_le narrow 1
  map_add' x y := setWidth_add x y narrow
  map_mul' x y := setWidth_mul x y narrow

theorem setWidth_sub_mul (narrow : V <= W) (x y z : BitVec W) :
    (x - y * z).setWidth V = x.setWidth V - y.setWidth V * z.setWidth V :=
  (map_sub (truncation narrow) x (y * z)).trans
    (congrArg (x.setWidth V - ·) (map_mul (truncation narrow) y z))

theorem udiv_mul_add_umod (x y : BitVec W) : x / y * y + x % y = x := by
  apply eq_of_toNat_eq
  have recompose : x.toNat / y.toNat * y.toNat + x.toNat % y.toNat = x.toNat :=
    div_add_mod' x.toNat y.toNat
  rw [toNat_add, toNat_mul, toNat_udiv, toNat_umod, mod_add_mod, recompose, mod_eq_of_lt x.isLt]

/-! ## Trailing zeros -/

/-- The number of zero bits below the lowest set bit. -/
def countTrailingZeros (x : BitVec W) : Nat := trailingZeros W x.toNat

variable {d : BitVec W}

theorem toNat_lshr_countTrailingZeros :
    (d >>> countTrailingZeros d).toNat * 2 ^ countTrailingZeros d = d.toNat := by
  rw [toNat_ushiftRight, shiftRight_eq_div_pow]
  exact Nat.div_mul_cancel (pow_trailingZeros_dvd W d.toNat)

theorem countTrailingZeros_pos (wide : 0 < W) (even : d.getLsbD 0 = false) :
    0 < countTrailingZeros d := by
  refine trailingZeros_pos wide ?_
  rw [<- testBit_toNat, testBit_zero, decide_eq_false_iff_not] at even
  omega

theorem countTrailingZeros_lt (nonzero : d ≠ 0) : countTrailingZeros d < W := by
  have pos : 0 < d.toNat := pos_of_ne_zero fun zero => nonzero (eq_of_toNat_eq zero)
  have power : 2 ^ countTrailingZeros d <= d.toNat :=
    le_of_dvd pos (pow_trailingZeros_dvd W d.toNat)
  exact (Nat.pow_lt_pow_iff_right (by decide)).mp (lt_of_le_of_lt power d.isLt)

theorem odd_lshr_countTrailingZeros (nonzero : d ≠ 0) :
    (d >>> countTrailingZeros d).toNat % 2 = 1 := by
  rw [toNat_ushiftRight, shiftRight_eq_div_pow]
  exact odd_div_pow_trailingZeros (countTrailingZeros_lt nonzero)

end APInt
end LlvmProject
