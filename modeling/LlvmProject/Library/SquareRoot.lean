import Mathlib.Analysis.Real.Sqrt

namespace LlvmProject

open Nat
namespace SquareRoot

/-!
# Integer square roots

A step of Newton's method with truncating divisions does not fall below the integer square
root, and lowers every number above it.  Rounding to the nearest integer decides between the
integer square root and its successor; the middle between them is never a square root.
-/

/-- A step of Newton's method. -/
def newton (n x : Nat) : Nat := (n / x + x) / 2

theorem sqrt_le_newton {n x : Nat} (pos : 0 < x) : n.sqrt <= newton n x := by
  rw [newton, le_div_iff_mul_le (by decide)]
  by_cases large : 2 * n.sqrt <= x
  · exact (mul_comm _ _).le.trans (large.trans (le_add_left x (n / x)))
  · have quot : 2 * n.sqrt - x <= n / x := by
      rw [le_div_iff_mul_le pos]
      have square := Nat.sqrt_le' n
      zify [Nat.le_of_not_le large] at square ⊢
      nlinarith [sq_nonneg ((n.sqrt : Int) - x)]
    omega

theorem newton_lt {n x : Nat} (above : n.sqrt < x) : newton n x < x := by
  have pos : 0 < x := zero_lt_of_lt above
  have quot : n / x < x := (div_lt_iff_lt_mul pos).mpr (sqrt_lt.mp above)
  rw [newton, div_lt_iff_lt_mul (by decide)]
  omega

/-- No integer is nearer to the square root. -/
def IsNearest (n r : Nat) : Prop := ∀ k : Int, |√(n : ℝ) - r| <= |√(n : ℝ) - k|

theorem isNearest_iff_half {n r : Nat} : IsNearest n r ↔ |√(n : ℝ) - r| <= 1 / 2 := by
  constructor
  · intro nearest
    exact (nearest (round √(n : ℝ))).trans (abs_sub_round _)
  · intro half k
    by_cases same : k = r
    · rw [same, Int.cast_natCast]
    · have apart : (1 : ℝ) <= |(k : ℝ) - r| := by
        have ne : (1 : Int) <= |k - r| := Int.one_le_abs (sub_ne_zero.mpr same)
        exact_mod_cast ne
      have triangle := abs_sub_le (k : ℝ) √(n : ℝ) r
      rw [abs_sub_comm (k : ℝ) √(n : ℝ)] at triangle
      linarith

/-- Being nearest in terms of squares. -/
theorem isNearest_iff {n r : Nat} : IsNearest n r ↔ n <= r ^ 2 + r ∧ (r = 0 ∨ r ^ 2 < n + r) := by
  rw [isNearest_iff_half, abs_le, and_comm]
  refine and_congr ?_ ?_
  · rw [sub_le_iff_le_add', Real.sqrt_le_left (by positivity)]
    constructor
    · intro square
      have expanded : (n : ℝ) < r ^ 2 + r + 1 := by nlinarith
      have cast : n < r ^ 2 + r + 1 := by exact_mod_cast expanded
      omega
    · intro square
      have cast : (n : ℝ) <= r ^ 2 + r := by exact_mod_cast square
      nlinarith
  · rw [neg_le_sub_iff_le_add]
    by_cases zero : r = 0
    · rw [zero]
      refine iff_of_true ?_ (.inl rfl)
      have root := Real.sqrt_nonneg (n : ℝ)
      push_cast
      linarith
    · have one : (1 : ℝ) <= r := by exact_mod_cast one_le_iff_ne_zero.mpr zero
      rw [or_iff_right zero, <- sub_le_iff_le_add, Real.le_sqrt' (by linarith)]
      constructor
      · intro square
        have expanded : (r : ℝ) ^ 2 < n + r := by nlinarith
        exact_mod_cast expanded
      · intro square
        have cast : (r : ℝ) ^ 2 + 1 <= n + r := by exact_mod_cast square
        nlinarith

theorem isNearest_sqrt_iff {n : Nat} : IsNearest n n.sqrt ↔ n <= n.sqrt ^ 2 + n.sqrt := by
  have below := Nat.sqrt_le' n
  rw [isNearest_iff, and_iff_left]
  rcases Nat.eq_zero_or_pos n.sqrt with zero | pos
  · exact .inl zero
  · right
    omega

theorem isNearest_succ_sqrt_iff {n : Nat} : IsNearest n (n.sqrt + 1) ↔ n.sqrt ^ 2 + n.sqrt < n := by
  have above := lt_succ_sqrt' n
  have expanded : (n.sqrt + 1) ^ 2 = n.sqrt ^ 2 + 2 * n.sqrt + 1 := by ring
  rw [succ_eq_add_one, expanded] at above
  rw [isNearest_iff, expanded]
  omega

end SquareRoot
end LlvmProject
