import Mathlib.Algebra.Order.Field.Power
import Mathlib.Algebra.Order.Round
import Mathlib.Data.Nat.Cast.Order.Field
import Mathlib.Tactic.Positivity
import Mathlib.Tactic.Ring

namespace LlvmProject

open Nat

namespace BinaryRounding

/-!
# Rounding to a number of binary digits

A value is representable if it is a number of so many digits, scaled by a power of two.  Any
other positive value is rounded at the scale at which it has that many digits before the point,
to the nearest integer, and up if there are two.

A quotient of natural numbers is rounded by looking at the quotient with remainder only: it says
what the digits are, whether they are exact, and which way to round.
-/

variable {K : Type*} [Field K] [LinearOrder K] [IsStrictOrderedRing K]

/-- The value has so many digits. -/
def Representable (width : Nat) (value : K) : Prop :=
  ∃ (digits : Nat) (scale : Int), digits < 2 ^ width ∧ value = digits * 2 ^ scale

variable [FloorRing K]

/-- Of a positive value as many leading digits are kept, rounded to nearest with ties away from
zero. -/
def RoundsTo (width : Nat) (value rounded : K) : Prop :=
  ∃ scale : Int, 2 ^ (width - 1) <= value / 2 ^ scale ∧ value / 2 ^ scale < 2 ^ width ∧
    rounded = round (value / 2 ^ scale) * 2 ^ scale

/-- The digits and the scale are the value if possible, and else the value rounded. -/
structure CorrectlyRounded (width : Nat) (value : K) (digits : Nat) (scale : Int) : Prop where
  exact : Representable width value -> digits * 2 ^ scale = value
  normalised : ¬ Representable width value -> 2 ^ (width - 1) <= digits
  rounded : ¬ Representable width value -> RoundsTo width value (digits * 2 ^ scale)

omit [IsStrictOrderedRing K] in
theorem CorrectlyRounded.of_eq {width digits : Nat} {value : K} {scale : Int}
    (fits : digits < 2 ^ width) (same : digits * 2 ^ scale = value) :
    CorrectlyRounded width value digits scale where
  exact _ := same
  normalised unrepresentable := absurd ⟨digits, scale, fits, same.symm⟩ unrepresentable
  rounded unrepresentable := absurd ⟨digits, scale, fits, same.symm⟩ unrepresentable

/-! ## Quotients -/

section Quotients

variable {N d : Nat}

/-- A quotient rounded to nearest, from the quotient with remainder. -/
def roundedQuotient (N d : Nat) : Nat := N / d + if d <= 2 * (N % d) then 1 else 0

theorem cast_div_add_mod (pos : 0 < d) : (N : K) / d = (N / d : Nat) + (N % d : Nat) / d := by
  have divisor : (0 : K) < d := cast_pos.mpr pos
  have split : ((d * (N / d) + N % d : Nat) : K) = N := congrArg Nat.cast (div_add_mod N d)
  rw [cast_add, cast_mul] at split
  rw [<- split]
  field_simp

theorem round_cast_div (pos : 0 < d) : round ((N : K) / d) = (roundedQuotient N d : Int) := by
  have divisor : (0 : K) < d := cast_pos.mpr pos
  have below : ((N % d : Nat) : K) < d := cast_lt.mpr (mod_lt N pos)
  rw [round_eq, Int.floor_eq_iff, cast_div_add_mod pos, roundedQuotient]
  by_cases half : d <= 2 * (N % d)
  · have halfCast : (d : K) <= 2 * (N % d : Nat) := by exact_mod_cast half
    have lower : (1 : K) / 2 <= (N % d : Nat) / d := by
      rw [div_le_div_iff₀ two_pos divisor]
      linarith
    have upper : ((N % d : Nat) : K) / d < 1 := (div_lt_one divisor).mpr below
    rw [if_pos half, Int.cast_natCast, cast_add, cast_one]
    constructor
    · linarith
    · linarith
  · have halfCast : (2 : K) * (N % d : Nat) < d := by exact_mod_cast Nat.lt_of_not_le half
    have lower : (0 : K) <= (N % d : Nat) / d := by positivity
    have upper : ((N % d : Nat) : K) / d < 1 / 2 := by
      rw [div_lt_div_iff₀ divisor two_pos]
      linarith
    rw [if_neg half, Int.cast_natCast, add_zero]
    constructor
    · linarith
    · linarith

omit [IsStrictOrderedRing K] in
/-- A quotient that fills the digits is representable only if nothing remains. -/
theorem mod_eq_zero_of_representable {width : Nat} {e : Int} (pos : 0 < d) (full : 2 ^ (width - 1)
    <= N / d) (representable : Representable width ((N : K) / d * 2 ^ e)) : N % d = 0 := by
  have divisor : (d : K) ≠ 0 := cast_ne_zero.mpr (ne_of_gt pos)
  rcases representable with ⟨digits, scale, bound, same⟩
  rcases le_or_gt e scale with above | below
  · rcases Int.le.dest above with ⟨k, rfl⟩
    rw [zpow_add₀ two_ne_zero, <- mul_assoc, mul_right_comm, zpow_natCast] at same
    have quot : (N : K) / d = digits * 2 ^ k := mul_right_cancel₀ (zpow_ne_zero e two_ne_zero) same
    rw [div_eq_iff divisor] at quot
    have prod : N = digits * 2 ^ k * d := by exact_mod_cast quot
    rw [prod]
    exact mul_mod_left _ d
  · rcases Int.le.dest (Int.add_one_le_of_lt below) with ⟨k, rfl⟩
    have sum : scale + 1 + (k : Int) = ((k + 1 : Nat) : Int) + scale := by omega
    rw [sum, zpow_add₀ two_ne_zero, <- mul_assoc, zpow_natCast] at same
    have quot : (N : K) / d * 2 ^ (k + 1) = digits :=
      mul_right_cancel₀ (zpow_ne_zero scale two_ne_zero) same
    rw [div_mul_eq_mul_div, div_eq_iff divisor] at quot
    have prod : N * 2 ^ (k + 1) = digits * d := by exact_mod_cast quot
    -- The digits would have to be twice the quotient, which fills them already.
    have doubled : 2 ^ width <= digits := by
      have wide : 2 ^ width <= 2 ^ (width - 1) * 2 := by
        rw [<- pow_succ]
        exact Nat.pow_le_pow_right two_pos (by omega)
      have least : 2 ^ (width - 1) * d <= N := (le_div_iff_mul_le pos).mp full
      refine le_of_mul_le_mul_right ?_ pos
      calc 2 ^ width * d <= 2 ^ (width - 1) * 2 * d := mul_le_mul_right d wide
        _ = 2 ^ (width - 1) * d * 2 := mul_right_comm _ _ _
        _ <= N * 2 ^ (k + 1) := Nat.mul_le_mul least (Nat.le_self_pow (succ_ne_zero k) 2)
        _ = digits * d := prod
    exact absurd bound (Nat.not_lt_of_le doubled)

theorem CorrectlyRounded.of_division {width digits : Nat} {value : K} {scale e : Int}
    (pos : 0 < d) (isValue : N / d * 2 ^ e = value) (full : 2 ^ (width - 1) <= N / d)
    (fits : N / d < 2 ^ width) (normalised : 2 ^ (width - 1) <= digits)
    (same : (digits : K) * 2 ^ scale = roundedQuotient N d * 2 ^ e) :
    CorrectlyRounded width value digits scale where
  exact representable := by
    rw [<- isValue] at representable ⊢
    have whole := mod_eq_zero_of_representable pos full representable
    rw [same, roundedQuotient, whole, if_neg (by omega), add_zero,
      cast_div_add_mod pos, whole, cast_zero, zero_div, add_zero]
  normalised _ := normalised
  rounded _ := by
    have divisor : (0 : K) < d := cast_pos.mpr pos
    have quot : value / 2 ^ e = N / d := by
      rw [<- isValue, mul_div_cancel_right₀ _ (zpow_ne_zero e two_ne_zero)]
    refine ⟨e, ?_, ?_, ?_⟩
    · rw [quot, le_div_iff₀ divisor]
      exact_mod_cast (le_div_iff_mul_le pos).mp full
    · rw [quot, div_lt_iff₀ divisor]
      exact_mod_cast (div_lt_iff_lt_mul pos).mp fits
    · rw [same, quot, round_cast_div pos, Int.cast_natCast]

end Quotients

end BinaryRounding
end LlvmProject
