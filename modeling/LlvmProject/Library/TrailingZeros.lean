import Mathlib.Tactic.Ring

namespace LlvmProject

open Nat
namespace TrailingZeros

/-!
# Trailing zeros

The number of zero bits below the lowest set bit of a number, looking at no
more than the given number of bits.  A number that is zero in all of them
counts as many zeros as there are bits.
-/

/-- The zero bits at the bottom of the lowest `width` bits. -/
def trailingZeros : Nat -> Nat -> Nat
  | 0, _ => 0
  | width + 1, x => if x % 2 = 1 then 0 else trailingZeros width (x / 2) + 1

theorem trailingZeros_le (width x : Nat) : trailingZeros width x <= width := by
  induction width generalizing x with
  | zero => exact le_refl 0
  | succ width ih =>
    rw [trailingZeros]
    by_cases odd : x % 2 = 1
    · rw [if_pos odd]
      exact zero_le _
    · rw [if_neg odd]
      exact succ_le_succ (ih (x / 2))

theorem pow_trailingZeros_dvd (width x : Nat) : 2 ^ trailingZeros width x ∣ x := by
  induction width generalizing x with
  | zero => exact one_dvd x
  | succ width ih =>
    rw [trailingZeros]
    by_cases odd : x % 2 = 1
    · rw [if_pos odd]
      exact one_dvd x
    · rw [if_neg odd, pow_succ']
      have even : x = 2 * (x / 2) := by omega
      nth_rewrite 2 [even]
      exact mul_dvd_mul_left 2 (ih (x / 2))

theorem trailingZeros_pos {width x : Nat} (wide : 0 < width) (even : x % 2 = 0) :
    0 < trailingZeros width x := by
  cases width with
  | zero => exact absurd wide (lt_irrefl 0)
  | succ width =>
    rw [trailingZeros, if_neg (by omega)]
    exact succ_pos _

theorem trailingZeros_of_odd {width x : Nat} (odd : x % 2 = 1) : trailingZeros width x = 0 := by
  cases width with
  | zero => rfl
  | succ width => exact if_pos odd

/-- Nothing even is left above the trailing zeros, unless they fill the
width. -/
theorem odd_div_pow_trailingZeros {width x : Nat} (within : trailingZeros width x < width) :
    x / 2 ^ trailingZeros width x % 2 = 1 := by
  induction width generalizing x with
  | zero => exact absurd within (not_lt_zero _)
  | succ width ih =>
    rw [trailingZeros] at within ⊢
    by_cases odd : x % 2 = 1
    · rw [if_pos odd, pow_zero, Nat.div_one]
      exact odd
    · rw [if_neg odd] at within ⊢
      rw [pow_succ', <- Nat.div_div_eq_div_mul]
      exact ih (lt_of_succ_lt_succ within)

end TrailingZeros
end LlvmProject
