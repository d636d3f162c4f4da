import LlvmProject.APInt.MultiplicativeInverse
import Mathlib.Algebra.Order.Ring.Int
import Mathlib.Data.Int.ModEq

namespace LlvmProject

open BitVec hiding add_mul zero_mul
open Int

namespace APInt

/-!
# The coefficients of Euclid's algorithm

Beside the registers, which are taken modulo a power of two, the exact coefficients are
followed.  Consecutive ones have opposite signs, and weighted with the other remainder their
magnitudes add up to the modulus.  So the magnitude of a coefficient of a remainder that is
not the last one is at most half of the modulus, and its register is read as it is.
-/

variable {W : Nat}

/-- The states of the loop: the remainders, the registers of their coefficients, and the exact
coefficients. -/
inductive Reaches (a modulo : BitVec W) :
    BitVec W -> BitVec W -> BitVec W -> BitVec W -> Int -> Int -> Prop
  | start : Reaches a modulo modulo a 0 1 0 1
  | step {r r' t t' : BitVec W} {T T' : Int} (unfinished : r' ≠ 0)
      (before : Reaches a modulo r r' t t' T T') :
      Reaches a modulo r' (r % r') t' (t - t' * (r / r')) T' (T - T' * (r / r').toNat)

/-- What is known about the exact coefficients. -/
structure Balanced (a m r r' : Nat) (T T' : Int) : Prop where
  decreasing : r' < r
  opposite : T * T' <= 0
  balance : T.natAbs * r' + T'.natAbs * r = m
  half : 2 * T.natAbs <= m
  first : T * a ≡ r [ZMOD m]
  second : T' * a ≡ r' [ZMOD m]

section Balance

variable {a m r r' : Nat} {T T' : Int}

theorem Balanced.start (below : a < m) : Balanced a m m a 0 1 where
  decreasing := below
  opposite := by decide
  balance := by simp
  half := Nat.zero_le m
  first := by
    rw [zero_mul]
    exact (Int.modEq_zero_iff_dvd.mpr (dvd_refl _)).symm
  second := by rw [one_mul]

/-- The magnitude of the next coefficient is a sum of magnitudes. -/
theorem natAbs_sub_mul (opposite : T * T' <= 0) (q : Nat) :
    (T - T' * q).natAbs = T.natAbs + T'.natAbs * q := by
  rw [<- natAbs_natCast q, <- natAbs_mul, natAbs_natCast]
  have prod : (0 : Int) <= q := natCast_nonneg q
  rcases Int.le_total 0 T' with pos | neg
  · have right : 0 <= T' * q := mul_nonneg pos prod
    by_cases zero : T' = 0
    · rw [zero]
      simp
    · have left : T <= 0 := by
        by_contra above
        have more := mul_pos (Int.lt_of_not_ge above) (lt_of_le_of_ne pos (Ne.symm zero))
        omega
      omega
  · have right : T' * q <= 0 := mul_nonpos_of_nonpos_of_nonneg neg prod
    by_cases zero : T' = 0
    · rw [zero]
      simp
    · have left : 0 <= T := by
        by_contra above
        have more := mul_pos_of_neg_of_neg (Int.lt_of_not_ge above) (lt_of_le_of_ne neg zero)
        omega
      omega

section

variable (balanced : Balanced a m r r' T T')
include balanced

theorem Balanced.bound : T'.natAbs <= m := by
  have whole := balanced.balance
  have pos : 0 < r := Nat.zero_lt_of_lt balanced.decreasing
  have factor := Nat.le_mul_of_pos_right T'.natAbs pos
  omega

theorem Balanced.half_second (unfinished : r' ≠ 0) : 2 * T'.natAbs <= m := by
  have whole := balanced.balance
  have less := balanced.decreasing
  have two : 2 <= r := by omega
  have factor := Nat.mul_le_mul_left T'.natAbs two
  omega

theorem Balanced.step (unfinished : r' ≠ 0) :
    Balanced a m r' (r % r') T' (T - T' * (r / r' : Nat)) where
  decreasing := Nat.mod_lt r (pos_of_ne_zero unfinished)
  opposite := by
    have square : 0 <= T' * T' * (r / r' : Nat) := mul_nonneg (mul_self_nonneg T')
        (natCast_nonneg _)
    have expanded : T' * (T - T' * (r / r' : Nat)) = T * T' - T' * T' * (r / r' : Nat) := by ring
    rw [expanded]
    have neg := balanced.opposite
    omega
  balance := by
    have parts := Nat.div_add_mod r r'
    rw [natAbs_sub_mul balanced.opposite, <- balanced.balance]
    calc T'.natAbs * (r % r') + (T.natAbs + T'.natAbs * (r / r')) * r'
        = T.natAbs * r' + T'.natAbs * (r' * (r / r') + r % r') := by ring
      _ = T.natAbs * r' + T'.natAbs * r := by rw [parts]
  half := balanced.half_second unfinished
  first := balanced.second
  second := by
    have rem : ((r % r' : Nat) : Int) = r - r' * (r / r' : Nat) := by
      rw [natCast_mod, natCast_div, emod_def]
    have expanded : (T - T' * (r / r' : Nat)) * a = T * a - T' * a * (r / r' : Nat) := by ring
    rw [expanded, rem]
    exact balanced.first.sub (balanced.second.mul_right _)

/-- The product that is subtracted is at most the modulus. -/
theorem Balanced.product_le (unfinished : r' ≠ 0) : (T' * (r / r' : Nat)).natAbs <= m := by
  have next := (balanced.step unfinished).bound
  rw [natAbs_sub_mul balanced.opposite] at next
  rw [natAbs_mul, natAbs_natCast]
  omega

end

end Balance

section Registers

variable {a modulo r r' t t' : BitVec W} {T T' : Int}

theorem Reaches.balanced (reaches : Reaches a modulo r r' t t' T T') (below : a < modulo) :
    Balanced a.toNat modulo.toNat r.toNat r'.toNat T T' := by
  induction reaches with
  | start => exact Balanced.start below
  | @step r r' t t' T T' unfinished before ih =>
    have nonzero : r'.toNat ≠ 0 := fun zero => unfinished (eq_of_toNat_eq zero)
    rw [toNat_umod, toNat_udiv]
    exact ih.step nonzero

/-- The registers hold the coefficients modulo the power of two. -/
theorem Reaches.registers (reaches : Reaches a modulo r r' t t' T T') :
    t = BitVec.ofInt W T ∧ t' = BitVec.ofInt W T' := by
  induction reaches with
  | start => exact ⟨by simp, by simp⟩
  | @step r r' t t' T T' unfinished before ih =>
    refine ⟨ih.2, ?_⟩
    rw [Int.sub_eq_add_neg, ofInt_add, ofInt_neg, ofInt_mul, <- ih.1, <- ih.2,
      ofInt_natCast, BitVec.ofNat_toNat, setWidth_eq, sub_eq_add_neg]

/-- A register is read as it is if its coefficient is at most half of a number of the width. -/
theorem toInt_ofInt_of_half {m : Nat} (small : m < 2 ^ W) (half : 2 * T.natAbs <= m) :
    (BitVec.ofInt W T).toInt = T := by
  have cast : ((2 ^ W : Nat) : Int) = 2 ^ W := by push_cast; rfl
  rw [toInt_ofInt, bmod_eq_of_le] <;> omega

/-- The last remainder that is not zero and its coefficient are reached. -/
theorem reaches_inverseLoop (reaches : Reaches a modulo r r' t t' T T') :
    ∃ last T T', Reaches a modulo (inverseLoop r r' t t').1 0 (inverseLoop r r' t t').2 last
      T T' := by
  fun_induction inverseLoop generalizing T T' with
  | case1 r t t' => exact ⟨t', T, T', reaches⟩
  | case2 r r' t t' unfinished ih =>
    exact ih (reaches.step unfinished)

end Registers

/-! ## The inverse -/

section Inverse

variable {a modulo : BitVec W}

/-- The coefficient of the greatest common divisor of coprime numbers, made positive by adding the
modulus, is the inverse. -/
theorem inverse_of_half {t : BitVec W} {T : Int} (exact : t = BitVec.ofInt W T) (half : 2 * T.natAbs
    <= modulo.toNat) (unit : T * a.toNat ≡ 1 [ZMOD modulo.toNat]) (pos : 0 < modulo.toNat) :
    (if t.msb then t + modulo else t) < modulo ∧
      a.toNat * (if t.msb then t + modulo else t).toNat ≡ 1 [MOD modulo.toNat] := by
  have small := modulo.isLt
  have read : t.toInt = T := exact ▸ toInt_ofInt_of_half small half
  rw [<- natCast_modEq_iff, lt_def]
  push_cast
  rw [mul_comm]
  by_cases neg : t.msb = true
  · have sign : T < 0 := by
      rw [<- read]
      exact BitVec.toInt_neg_iff.mpr (msb_eq_true_iff_two_mul_ge.mp neg)
    have shifted : (t + modulo).toNat = (T + modulo.toNat).toNat := by
      have sum : t + modulo = BitVec.ofNat W (T + modulo.toNat).toNat := by
        have whole : ((T + modulo.toNat).toNat : Int) = T + modulo.toNat :=
          toNat_of_nonneg (by omega)
        rw [<- ofInt_natCast, whole, ofInt_add, <- exact, ofInt_natCast,
          BitVec.ofNat_toNat, setWidth_eq]
      rw [sum, toNat_ofNat, Nat.mod_eq_of_lt (by omega)]
    rw [if_pos neg, shifted]
    refine ⟨by omega, ?_⟩
    rw [toNat_of_nonneg (by omega), add_mul]
    have multiple : (modulo.toNat : Int) * a.toNat ≡ 0 [ZMOD modulo.toNat] :=
      Int.modEq_zero_iff_dvd.mpr (dvd_mul_right _ _)
    simpa using unit.add multiple
  · have value : (t.toNat : Int) = T := by
      rw [<- toInt_eq_toNat_of_msb (Bool.eq_false_of_not_eq_true neg), read]
    rw [if_neg neg, value]
    exact ⟨by omega, unit⟩

end Inverse

end APInt
end LlvmProject
