import Mathlib.Tactic.Linarith
import Mathlib.Tactic.Ring

namespace LlvmProject

open Nat Int

namespace Reciprocal

/-!
# Division by multiplication with a scaled reciprocal

A multiplier `m` stands for the reciprocal of `d` at the scale `P` when
`m * d = P + e` for a small excess `e`.  Then `m * n / P` is `n / d` as long
as the excess, multiplied by `n`, does not reach the gap between `n` and the
next multiple of `d`.  The tightest numerators are those just below a multiple
of `d`; one of them, the critical value, decides for all numerators up to the
next one.

The scale of such a multiplier is found by doubling.  Quotient and remainder
of the doubled number follow from those of the number itself.
-/

/-! ## Quotients through a multiplier -/

section Quotient

variable {d m e P n : Nat}

section

variable (reciprocal : m * d = P + e)
include reciprocal

/-- A multiple of the multiplier, at the scale of the divisor. -/
private theorem scaled_product : m * n * d = P * (n / d * d) + (n % d * P + e * n) := by
  have split := div_add_mod n d
  calc m * n * d = m * d * n := by ring
    _ = P * n + e * n := by rw [reciprocal]; ring
    _ = P * (d * (n / d) + n % d) + e * n := by rw [split]
    _ = P * (n / d * d) + (n % d * P + e * n) := by ring

theorem quotient_mul_le (pos : 0 < d) : n / d * P <= m * n := by
  refine le_of_mul_le_mul_right ?_ pos
  calc n / d * P * d = P * (n / d * d) := by ring
    _ <= m * n * d := by
      rw [scaled_product reciprocal]
      exact le_add_right _ _

/-- With a positive excess the multiple lies strictly above the quotient. -/
theorem quotient_mul_lt (rounded : 0 < e) (numerator : 0 < n) : n / d * P < m * n := by
  refine Nat.lt_of_mul_lt_mul_right (a := d) ?_
  have excess := mul_pos rounded numerator
  calc n / d * P * d = P * (n / d * d) := by ring
    _ < m * n * d := by
      rw [scaled_product reciprocal]
      omega

theorem mul_le_succ_quotient (pos : 0 < d)
    (small : n % d * P + e * n <= d * P) : m * n <= (n / d + 1) * P := by
  refine le_of_mul_le_mul_right ?_ pos
  calc m * n * d = P * (n / d * d) + (n % d * P + e * n) := scaled_product reciprocal
    _ <= P * (n / d * d) + d * P := Nat.add_le_add_left small _
    _ = (n / d + 1) * P * d := by ring

/-- Multiplication by the reciprocal divides. -/
theorem mul_div_eq (pos : 0 < d) (small : n % d * P + e * n < d * P) : m * n / P = n / d := by
  refine Nat.div_eq_of_lt_le (quotient_mul_le reciprocal pos) ?_
  refine Nat.lt_of_mul_lt_mul_right (a := d) ?_
  calc m * n * d = P * (n / d * d) + (n % d * P + e * n) := scaled_product reciprocal
    _ < P * (n / d * d) + d * P := Nat.add_lt_add_left small _
    _ = (n / d + 1) * P * d := by ring

end

end Quotient

/-! ## The critical value -/

section Critical

variable {d c e P n : Nat}

/-- Let `c` be one less than a multiple of `d`.  If the excess is small at `c`,
it is small at every numerator below `c + d`. -/
theorem small_of_critical (pos : 0 < d) (below : d ∣ c + 1) (critical : e * c < P)
    (inside : n < c + d) : n % d * P + e * n < d * P := by
  have rem := mod_lt n pos
  by_cases low : n <= c
  · have scaled : (n % d + 1) * P <= d * P := mul_le_mul_right P rem
    have excess : e * n <= e * c := mul_le_mul_left e low
    rw [add_mul, one_mul] at scaled
    omega
  · obtain ⟨offset, rfl⟩ := Nat.exists_eq_add_of_lt (Nat.lt_of_not_le low)
    have residue : (c + offset + 1) % d = offset := by
      rw [add_right_comm, add_mod, mod_eq_zero_of_dvd below, zero_add, mod_mod,
        mod_eq_of_lt (by omega)]
    have reached : d <= c + 1 := le_of_dvd (succ_pos c) below
    have scaled : (offset + 2) * P <= d * P := mul_le_mul_right P (by omega)
    have excess : e * (offset + 1) <= e * c := mul_le_mul_left e (by omega)
    rw [residue]
    calc offset * P + e * (c + offset + 1) = offset * P + (e * c + e * (offset + 1)) := by ring
      _ < offset * P + (P + P) := by omega
      _ = (offset + 2) * P := by ring
      _ <= d * P := scaled

/-- The complement of a remainder is the least number that completes `P` to a
multiple of `d`. -/
theorem complement_le {gap : Nat} (pos : 0 < gap) (completed : d ∣ P + gap) : d - P % d <= gap := by
  have multiple : d ∣ P % d + gap := by
    rw [dvd_iff_mod_eq_zero, mod_add_mod]
    exact mod_eq_zero_of_dvd completed
  have reached := le_of_dvd (by omega) multiple
  omega

end Critical

/-- The test of the search, on quotient and remainder of the scale by the
critical value. -/
theorem unfinished_iff {c e P : Nat} (pos : 0 < c) :
    P / c < e ∨ (P / c = e ∧ P % c = 0) ↔ P <= c * e := by
  have rem := mod_lt P pos
  have split := div_add_mod P c
  constructor
  · rintro (below | ⟨rfl, exact⟩)
    · have next : c * (P / c + 1) <= c * e := mul_le_mul_left c below
      rw [mul_add, mul_one] at next
      omega
    · omega
  · intro within
    rcases lt_trichotomy (P / c) e with below | rfl | above
    · exact .inl below
    · exact .inr ⟨rfl, by omega⟩
    · have next : c * (e + 1) <= c * (P / c) := mul_le_mul_left c above
      rw [mul_add, mul_one] at next
      omega

/-! ## Signed quotients -/

/-- Rounding down and adding the sign bit rounds toward zero. -/
theorem signed_mul_div {d m e P : Nat} (reciprocal : m * d = P + e) (pos : 0 < d) (rounded : 0 < e)
    (scale : 0 < P) (n : Int) (up : 0 <= n -> n.natAbs % d * P + e * n.natAbs < d * P)
    (down : n < 0 -> n.natAbs % d * P + e * n.natAbs <= d * P) :
    n * m / P + (if n * m / P < 0 then 1 else 0) = n.tdiv d := by
  have scaleInt : (0 : Int) < P := natCast_pos.mpr scale
  rcases Int.lt_or_le n 0 with neg | nonnegative
  · obtain ⟨k, rfl⟩ := eq_negSucc_of_lt_zero neg
    have small := down neg
    rw [natAbs_negSucc] at small
    have lower := quotient_mul_lt reciprocal rounded (succ_pos k)
    have upper := mul_le_succ_quotient reciprocal pos small
    have lowerInt : (((k + 1) / d : Nat) : Int) * P < m * (k + 1) := by exact_mod_cast lower
    have upperInt : (m : Int) * (k + 1) <= (((k + 1) / d : Nat) + 1) * P := by exact_mod_cast upper
    have floor : negSucc k * (m : Int) / P = negSucc ((k + 1) / d) := by
      refine (ediv_eq_iff_of_pos scaleInt).mpr ?_
      rw [negSucc_eq, negSucc_eq]
      constructor <;> linarith
    rw [floor, if_pos (negSucc_lt_zero _), negSucc_eq, negSucc_eq, Int.neg_tdiv]
    have quot : ((k : Int) + 1).tdiv d = ((k + 1) / d : Nat) := rfl
    rw [quot]
    ring
  · obtain ⟨k, rfl⟩ := eq_ofNat_of_zero_le nonnegative
    have small := up nonnegative
    rw [natAbs_natCast] at small
    have floor : (k : Int) * (m : Int) / P = (k / d : Nat) := by
      rw [<- mul_div_eq reciprocal pos small, mul_comm m k]
      rfl
    rw [floor, if_neg (not_lt.mpr (natCast_nonneg _))]
    exact add_zero _

/-! ## Doubling -/

section Doubling

variable (x c bit : Nat)

/-- Quotient and remainder after appending a bit to the dividend. -/
theorem double_div_mod (pos : 0 < c) (isBit : bit <= 1) :
    (2 * x + bit) / c =
        (if c <= 2 * (x % c) + bit then 2 * (x / c) + 1 else 2 * (x / c)) ∧
      (2 * x + bit) % c =
        if c <= 2 * (x % c) + bit then 2 * (x % c) + bit - c else 2 * (x % c) + bit := by
  have rem := mod_lt x pos
  have split := div_add_mod x c
  by_cases full : c <= 2 * (x % c) + bit
  · rw [if_pos full, if_pos full]
    refine (Nat.div_mod_unique pos).mpr ⟨?_, by omega⟩
    have twice : c * (2 * (x / c) + 1) = 2 * (c * (x / c)) + c := by ring
    omega
  · rw [if_neg full, if_neg full]
    refine (Nat.div_mod_unique pos).mpr ⟨?_, by omega⟩
    have twice : c * (2 * (x / c)) = 2 * (c * (x / c)) := by ring
    omega

end Doubling

end Reciprocal
end LlvmProject
