import Mathlib.Algebra.Order.Ring.Nat

namespace LlvmProject
namespace Unsigned

/-!
# Arithmetic of 32-bit unsigned numbers

Unsigned numbers are the natural numbers below `2 ^ 32`, and every operation on
them wraps around.  A mask of a power of two less one is a remainder.
-/

/-- Reduce to 32 bits. -/
def wrap (x : Nat) : Nat := x % 2 ^ 32

def wrapAdd (a b : Nat) : Nat := wrap (a + b)

def wrapSub (a b : Nat) : Nat := wrap (a + 2 ^ 32 - b)

def wrapMul (a b : Nat) : Nat := wrap (a * b)

theorem wrap_of_lt {x : Nat} (small : x < 2 ^ 32) : wrap x = x := Nat.mod_eq_of_lt small

theorem wrapAdd_of_lt {a b : Nat} (small : a + b < 2 ^ 32) : wrapAdd a b = a + b := wrap_of_lt small

theorem wrapMul_of_lt {a b : Nat} (small : a * b < 2 ^ 32) : wrapMul a b = a * b := wrap_of_lt small

theorem wrapSub_of_le {a b : Nat} (small : a < 2 ^ 32) (below : b <= a) : wrapSub a b = a - b := by
  rw [wrapSub, wrap]
  omega

theorem pow_lt {k : Nat} (small : k < 32) : 2 ^ k < 2 ^ 32 := Nat.pow_lt_pow_right (by omega) small

theorem pow_le {k : Nat} (small : k < 32) : 2 ^ k <= 2 ^ 31 :=
  Nat.pow_le_pow_right (by omega) (by omega)

/-- The mask of a power-of-two table. -/
theorem and_sub_one {k : Nat} (x : Nat) (small : k < 32) : x &&& wrapSub (2 ^ k) 1 = x % 2 ^ k := by
  rw [wrapSub_of_le (pow_lt small) (Nat.two_pow_pos k), Nat.and_two_pow_sub_one_eq_mod]

/-- Wrapping around does not change the slot of a power-of-two table. -/
theorem add_and_sub_one {k : Nat} (a b : Nat) (small : k < 32) :
    wrapAdd a b &&& wrapSub (2 ^ k) 1 = (a + b) % 2 ^ k := by
  rw [and_sub_one _ small, wrapAdd, wrap, Nat.mod_mod_of_dvd _ (Nat.pow_dvd_pow 2 (le_of_lt small))]

end Unsigned
end LlvmProject
