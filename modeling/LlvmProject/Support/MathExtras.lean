import Mathlib.Data.Nat.Size
import LlvmProject.Library.Unsigned

namespace LlvmProject
namespace MathExtras

/-!
# Powers of two

`NextPowerOf2` fills all bits below the leading one and adds one, and
`Log2_32_Ceil` counts leading zeros.  Both are told here by powers of two.
-/

open Unsigned Nat

/-- `NextPowerOf2`, on 64-bit numbers. -/
def NextPowerOf2 (A : Nat) : Nat :=
  let A := A ||| A >>> 1
  let A := A ||| A >>> 2
  let A := A ||| A >>> 4
  let A := A ||| A >>> 8
  let A := A ||| A >>> 16
  let A := A ||| A >>> 32
  (A + 1) % 2 ^ 64

/-- `countLeadingZeros` of a 32-bit number. -/
def countLeadingZeros (Val : Nat) : Nat := 32 - Val.size

def Log2_32_Ceil (Value : Nat) : Nat := 32 - countLeadingZeros (wrapSub Value 1)

/-- All bits within a distance above a bit. -/
def BitsAbove (A d i : Nat) : Prop := ∃ j < d, A.testBit (i + j) = true

/-- One step fills twice the distance. -/
theorem bitsAbove_shift {A B d : Nat} (filled : ∀ i, B.testBit i = true ↔ BitsAbove A d i)
    (i : Nat) : (B ||| B >>> d).testBit i = true ↔ BitsAbove A (2 * d) i := by
  rw [testBit_or, testBit_shiftRight, Bool.or_eq_true, filled, filled]
  constructor
  · rintro (⟨j, near, isSet⟩ | ⟨j, near, isSet⟩)
    · exact ⟨j, by omega, isSet⟩
    · exact ⟨d + j, by omega, by rwa [show i + (d + j) = d + i + j by omega]⟩
  · rintro ⟨j, near, isSet⟩
    by_cases first : j < d
    · exact .inl ⟨j, first, isSet⟩
    · exact .inr ⟨j - d, by omega, by rwa [show d + i + (j - d) = i + j by omega]⟩

theorem bitsAbove_all {A i : Nat} (small : A < 2 ^ 64) : BitsAbove A 64 i ↔ i < A.size := by
  rw [lt_size]
  constructor
  · rintro ⟨j, _, isSet⟩
    exact (Nat.pow_le_pow_right (by omega) (le_add_right i j)).trans
      (ge_two_pow_of_testBit isSet)
  · intro large
    rcases exists_ge_and_testBit_of_ge_two_pow large with ⟨n, above, isSet⟩
    have inside : n < 64 := by
      by_contra outside
      have less : A < 2 ^ n := small.trans_le (Nat.pow_le_pow_right (by omega) (by omega))
      rw [Nat.testBit_lt_two_pow less] at isSet
      cases isSet
    exact ⟨n - i, by omega, by rwa [show i + (n - i) = n by omega]⟩

/-- The power of two above a number. -/
theorem NextPowerOf2_eq {A : Nat} (small : A < 2 ^ 63) : NextPowerOf2 A = 2 ^ A.size := by
  have start : ∀ i, A.testBit i = true ↔ BitsAbove A 1 i := by
    intro i
    constructor
    · exact fun isSet => ⟨0, by omega, isSet⟩
    · rintro ⟨j, near, isSet⟩
      rwa [show i + j = i by omega] at isSet
  have filled := bitsAbove_shift (bitsAbove_shift (bitsAbove_shift (bitsAbove_shift
    (bitsAbove_shift (bitsAbove_shift start)))))
  have ones : NextPowerOf2 A = (2 ^ A.size - 1 + 1) % 2 ^ 64 := by
    rw [NextPowerOf2]
    congr 2
    apply eq_of_testBit_eq
    intro i
    rw [Bool.eq_iff_iff, testBit_two_pow_sub_one, decide_eq_true_iff]
    exact (filled i).trans (bitsAbove_all (small.trans (by omega)))
  have size : A.size <= 63 := size_le.mpr small
  have bound : 2 ^ A.size <= 2 ^ 63 := Nat.pow_le_pow_right (by omega) size
  have pos := Nat.two_pow_pos A.size
  rw [ones, Nat.sub_add_cancel pos, Nat.mod_eq_of_lt (by omega)]

/-- `NextPowerOf2` of a number less one is the first power of two that is not below it. -/
theorem NextPowerOf2_sub_one {A : Nat} (pos : 0 < A) (small : A <= 2 ^ 30) :
    ∃ k ≤ 30, NextPowerOf2 (wrapSub A 1) = 2 ^ k ∧ A <= 2 ^ k ∧ ∀ j, A <= 2 ^ j -> k <= j := by
  rw [wrapSub_of_le (by omega) pos, NextPowerOf2_eq (by omega)]
  have above := lt_size_self (A - 1)
  refine ⟨(A - 1).size, size_le.mpr (by omega), rfl, by omega, fun j below => ?_⟩
  exact size_le.mpr (by omega)

theorem Log2_32_Ceil_spec {Value k : Nat} (pos : 0 < Value) (small : Value <= 2 ^ k)
    (bound : k <= 31) : Log2_32_Ceil Value <= k ∧ Value <= 2 ^ Log2_32_Ceil Value := by
  have largest : 2 ^ k <= 2 ^ 31 := Nat.pow_le_pow_right (by omega) bound
  have size : (Value - 1).size <= k := size_le.mpr (by omega)
  have above := lt_size_self (Value - 1)
  have value : Log2_32_Ceil Value = (Value - 1).size := by
    have few : (Value - 1).size <= 32 := by omega
    rw [Log2_32_Ceil, countLeadingZeros, wrapSub_of_le (by omega) (show 1 <= Value from pos),
      Nat.sub_sub_self few]
  rw [value]
  exact ⟨size, by omega⟩

end MathExtras
end LlvmProject
