import Mathlib.Algebra.Order.Ring.Nat
import Mathlib.Data.Nat.Size

namespace LlvmProject

open Nat

namespace RestoringDivision

/-!
# Division one bit at a time

The dividend is read from its top bit down.  What has been read is the
quotient of the dividend by a power of two; its remainder by the divisor,
doubled and joined with the next bit, is compared with the divisor.  The
comparison is the next bit of the quotient.
-/

variable {x y t : Nat}

/-- The remainder so far, doubled, with the next bit of the dividend. -/
def window (x y t : Nat) : Nat := 2 * (x / 2 ^ (t + 1) % y) + x / 2 ^ t % 2

theorem div_two_pow_succ (x t : Nat) : x / 2 ^ t = 2 * (x / 2 ^ (t + 1)) + x / 2 ^ t % 2 := by
  rw [pow_succ, <- Nat.div_div_eq_div_mul]
  exact (div_add_mod (x / 2 ^ t) 2).symm

/-- What has been read, in terms of the window. -/
theorem div_two_pow_eq_window (x y t : Nat) :
    x / 2 ^ t = y * (2 * (x / 2 ^ (t + 1) / y)) + window x y t := by
  have recompose : y * (x / 2 ^ (t + 1) / y) + x / 2 ^ (t + 1) % y = x / 2 ^ (t + 1) :=
    div_add_mod _ y
  rw [window, div_two_pow_succ x t]
  nth_rewrite 1 [<- recompose]
  rw [mul_add, mul_left_comm, add_assoc, <- div_two_pow_succ]

theorem window_lt (pos : 0 < y) : window x y t < 2 * y := by
  have rem := mod_lt (x / 2 ^ (t + 1)) pos
  have bit := mod_lt (x / 2 ^ t) two_pos
  rw [window]
  omega

/-- The comparison is the next bit of the quotient, and a subtraction leaves
the next remainder. -/
theorem step_below (below : window x y t < y) :
    x / 2 ^ t / y = 2 * (x / 2 ^ (t + 1) / y) ∧ x / 2 ^ t % y = window x y t := by
  rw [div_two_pow_eq_window x y t]
  constructor
  · rw [mul_add_div (zero_lt_of_lt below), div_eq_of_lt below, add_zero]
  · rw [mul_add_mod, mod_eq_of_lt below]

theorem step_reached (reached : y <= window x y t) (pos : 0 < y) :
    x / 2 ^ t / y = 2 * (x / 2 ^ (t + 1) / y) + 1 ∧ x / 2 ^ t % y = window x y t - y := by
  rcases Nat.exists_eq_add_of_le reached with ⟨rest, split⟩
  have next : rest < y := by
    have bound := window_lt (x := x) (t := t) pos
    omega
  rw [div_two_pow_eq_window x y t, split, Nat.add_sub_cancel_left]
  constructor
  · rw [mul_add_div pos, add_div_left rest pos, div_eq_of_lt next]
  · rw [mul_add_mod, add_mod_left, mod_eq_of_lt next]

/-- The first bits, fewer than the divisor has, are the first remainder. -/
theorem div_two_pow_lt (nonzero : y ≠ 0) (aligned : x.size + 1 <= t + y.size) : x / 2 ^ t < y := by
  have pos : 0 < y.size := Nat.size_pos.mpr (pos_of_ne_zero nonzero)
  have power : 2 ^ (y.size - 1) <= y := Nat.lt_size.mp (sub_lt pos one_pos)
  refine lt_of_lt_of_le (Nat.div_lt_of_lt_mul ?_) power
  calc x < 2 ^ x.size := lt_size_self x
    _ <= 2 ^ (t + (y.size - 1)) := Nat.pow_le_pow_right two_pos (by omega)
    _ = 2 ^ t * 2 ^ (y.size - 1) := pow_add ..

end RestoringDivision
end LlvmProject
