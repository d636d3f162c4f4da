import Mathlib.Data.BitVec

namespace LlvmProject

open BitVec
namespace SignedRange

/-!
# Ranges of signed numbers

A number is in a range of signed numbers if its distance to the low end,
without the sign, is at most the length of the range.
-/

variable {W : Nat}

/-- The distance from a number to one above it. -/
theorem toNat_sub_of_le {low x : BitVec W} (le : low.toInt <= x.toInt) :
    ((x - low).toNat : Int) = x.toInt - low.toInt := by
  have lowLt := low.isLt
  have xLt := x.isLt
  rw [toInt_eq_toNat_cond, toInt_eq_toNat_cond] at le
  rw [toInt_eq_toNat_cond, toInt_eq_toNat_cond]
  by_cases order : low <= x
  · rw [BitVec.toNat_sub_of_le order]
    rw [le_def] at order
    split at le <;> split at le <;> simp only [*, if_true, if_false] <;> omega
  · rw [BitVec.not_le] at order
    rw [BitVec.toNat_sub_of_lt order]
    rw [lt_def] at order
    split at le <;> split at le <;> simp only [*, if_true, if_false] <;> omega

/-- The distance from a number to one below it, around the end. -/
theorem toNat_sub_of_lt {low x : BitVec W} (lt : x.toInt < low.toInt) :
    ((x - low).toNat : Int) = x.toInt - low.toInt + 2 ^ W := by
  have lowLt := low.isLt
  have xLt := x.isLt
  have power : ((2 ^ W : Nat) : Int) = 2 ^ W := by push_cast; rfl
  rw [toInt_eq_toNat_cond, toInt_eq_toNat_cond] at lt
  rw [toInt_eq_toNat_cond, toInt_eq_toNat_cond, <- power]
  by_cases order : low <= x
  · rw [BitVec.toNat_sub_of_le order]
    rw [le_def] at order
    split at lt <;> split at lt <;> simp only [*, if_true, if_false] <;> omega
  · rw [BitVec.not_le] at order
    rw [BitVec.toNat_sub_of_lt order]
    rw [lt_def] at order
    split at lt <;> split at lt <;> simp only [*, if_true, if_false] <;> omega

/-- A number is in a range if it is as near to the low end as the high end. -/
theorem sub_le_sub_iff {low high : BitVec W} (nonempty : low.toInt <= high.toInt) (x : BitVec W) :
    (x - low).toNat <= (high - low).toNat ↔ low.toInt <= x.toInt ∧ x.toInt <= high.toInt := by
  have length := toNat_sub_of_le nonempty
  by_cases le : low.toInt <= x.toInt
  · have distance := toNat_sub_of_le le
    omega
  · have distance := toNat_sub_of_lt (Int.not_le.mp le)
    have highLt := two_mul_toInt_lt (x := high)
    have leX := le_two_mul_toInt (x := x)
    omega

/-! ## Neighbours -/

theorem toInt_ofInt_of_between {low high : BitVec W} {n : Int} (le : low.toInt <= n)
    (le' : n <= high.toInt) : (BitVec.ofInt W n).toInt = n := by
  have lowBound := le_two_mul_toInt (x := low)
  have highBound := two_mul_toInt_lt (x := high)
  rw [toInt_ofInt]
  refine Int.bmod_eq_of_le_mul_two ?_ ?_
  · push_cast
    omega
  · push_cast
    omega

/-- A number above another one has a predecessor. -/
theorem toInt_sub_one {x y : BitVec W} (less : y.toInt < x.toInt) : (x - 1).toInt = x.toInt - 1 := by
  have predecessor : BitVec.ofInt W (x.toInt - 1) = x - 1 := by
    rw [Int.sub_eq_add_neg, BitVec.ofInt_add, BitVec.ofInt_toInt, BitVec.ofInt_neg, sub_eq_add_neg]
    rfl
  rw [<- predecessor]
  exact toInt_ofInt_of_between (by omega : y.toInt <= _) (by omega : _ <= x.toInt)

end SignedRange
end LlvmProject
