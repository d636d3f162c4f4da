import Mathlib.Tactic.Ring

namespace LlvmProject

open Nat

/-!
# Scaling by a branch probability

A number of 64 bits is multiplied by one of 32 bits and divided by another one.  The product has
three digits to the base `2 ^ 32`, which are carried by hand, and is divided in two steps of a
long division.  The result is the largest number if the quotient has more than 64 bits.
-/

/-! ## The code -/

/-- The assertion that `D` is not zero fails in `none`. -/
def scale (Num : UInt64) (N D : UInt32) : Option UInt64 :=
  if D = 0 then none
  -- fast path for multiplying by 1.0
  else if Num = 0 ∨ D = N then some Num
  else
    let ProductHigh := (Num >>> 32) * N.toUInt64
    let ProductLow := (Num &&& 0xffffffff) * N.toUInt64
    let Upper32 := (ProductHigh >>> 32).toUInt32
    let Lower32 := (ProductLow &&& 0xffffffff).toUInt32
    let Mid32Partial := (ProductHigh &&& 0xffffffff).toUInt32
    let Mid32 := (Mid32Partial.toUInt64 + (ProductLow >>> 32)).toUInt32
    let Upper32 := Upper32 + if Mid32 < Mid32Partial then 1 else 0
    if Upper32 >= D then some 0xffffffffffffffff
    else
      let Rem := (Upper32.toUInt64 <<< 32) ||| Mid32.toUInt64
      let UpperQ := Rem / D.toUInt64
      if UpperQ > 0xffffffff then some 0xffffffffffffffff
      else
        let Rem := ((Rem % D.toUInt64) <<< 32) ||| Lower32.toUInt64
        let LowerQ := Rem / D.toUInt64
        let Q := (UpperQ <<< 32) + LowerQ
        if Q < LowerQ then some 0xffffffffffffffff else some Q

structure BranchProbability where
  N : UInt32
  D : UInt32
  denominator : 0 < D
  le_one : N <= D

namespace BranchProbability

def scale (this : BranchProbability) (Num : UInt64) : Option UInt64 :=
  LlvmProject.scale Num this.N this.D

def scaleByInverse (this : BranchProbability) (Num : UInt64) : Option UInt64 :=
  LlvmProject.scale Num this.D this.N

/-! ## Words of 32 bits -/

theorem toNat_high (x : UInt64) : (x >>> 32).toNat = x.toNat / 2 ^ 32 := by
  rw [UInt64.toNat_shiftRight]
  exact shiftRight_eq_div_pow x.toNat 32

theorem toNat_low (x : UInt64) : (x &&& 0xffffffff).toNat = x.toNat % 2 ^ 32 := by
  rw [UInt64.toNat_and]
  exact and_two_pow_sub_one_eq_mod x.toNat 32

theorem toNat_join {high : UInt64} (low : UInt32) (small : high.toNat < 2 ^ 32) :
    ((high <<< 32) ||| low.toUInt64).toNat = high.toNat * 2 ^ 32 + low.toNat := by
  have shifted : (high <<< 32).toNat = 2 ^ 32 * high.toNat := by
    rw [UInt64.toNat_shiftLeft]
    change high.toNat <<< 32 % 2 ^ 64 = 2 ^ 32 * high.toNat
    rw [Nat.shiftLeft_eq, mod_eq_of_lt (by omega), mul_comm]
  rw [UInt64.toNat_or, shifted, UInt32.toNat_toUInt64, <- two_pow_add_eq_or_of_lt low.toNat_lt,
    mul_comm]

/-- A product of two words is one of 64 bits. -/
theorem toNat_product {x : UInt64} (N : UInt32) (small : x.toNat < 2 ^ 32) :
    (x * N.toUInt64).toNat = x.toNat * N.toNat ∧
      x.toNat * N.toNat <= (2 ^ 32 - 1) * (2 ^ 32 - 1) := by
  have bound : x.toNat * N.toNat <= (2 ^ 32 - 1) * (2 ^ 32 - 1) :=
    Nat.mul_le_mul (by omega) (by have below := N.toNat_lt; omega)
  refine ⟨?_, bound⟩
  rw [UInt64.toNat_mul, UInt32.toNat_toUInt64]
  exact mod_eq_of_lt (by omega)

/-! ## The digits of the product -/

/-- The three digits, of which the upper one takes the carry. -/
theorem digits_eq (high : Nat) {low : Nat} (lowBound : low <= (2 ^ 32 - 1) * (2 ^ 32 - 1)) :
    (high / 2 ^ 32 + if (high % 2 ^ 32 + low / 2 ^ 32) % 2 ^ 32 < high % 2 ^ 32 then 1 else 0)
          * 2 ^ 64 +
        (high % 2 ^ 32 + low / 2 ^ 32) % 2 ^ 32 * 2 ^ 32 + low % 2 ^ 32 =
      high * 2 ^ 32 + low := by
  split <;> omega

/-- Two steps of the long division of `U * 2 ^ 64 + M * 2 ^ 32 + L`. -/
theorem two_steps {U M L D : Nat} (pos : 0 < D) (below : U < D) (middle : M < 2 ^ 32)
    (lower : L < 2 ^ 32) :
    (U * 2 ^ 32 + M) / D < 2 ^ 32 ∧
      ((U * 2 ^ 32 + M) % D * 2 ^ 32 + L) / D < 2 ^ 32 ∧
      (U * 2 ^ 64 + M * 2 ^ 32 + L) / D =
        (U * 2 ^ 32 + M) / D * 2 ^ 32 + ((U * 2 ^ 32 + M) % D * 2 ^ 32 + L) / D := by
  have digit {R X : Nat} (small : R < D) (word : X < 2 ^ 32) : (R * 2 ^ 32 + X) / D < 2 ^ 32 := by
    refine Nat.div_lt_of_lt_mul ?_
    calc R * 2 ^ 32 + X < (R + 1) * 2 ^ 32 := by omega
      _ <= D * 2 ^ 32 := Nat.mul_le_mul_right _ small
  refine ⟨digit below middle, digit (mod_lt _ pos) lower, ?_⟩
  have whole := div_add_mod (U * 2 ^ 32 + M) D
  have prod : U * 2 ^ 64 + M * 2 ^ 32 + L =
      (U * 2 ^ 32 + M) % D * 2 ^ 32 + L + D * ((U * 2 ^ 32 + M) / D * 2 ^ 32) := by
    calc U * 2 ^ 64 + M * 2 ^ 32 + L = (U * 2 ^ 32 + M) * 2 ^ 32 + L := by ring
      _ = (D * ((U * 2 ^ 32 + M) / D) + (U * 2 ^ 32 + M) % D) * 2 ^ 32 + L := by rw [whole]
      _ = _ := by ring
  rw [prod, add_mul_div_left _ _ pos, add_comm]

/-! ## Scaling -/

theorem scale_spec (Num : UInt64) (N : UInt32) {D : UInt32} (pos : D ≠ 0) :
    ∃ Q, LlvmProject.scale Num N D = some Q ∧
      Q.toNat = min (Num.toNat * N.toNat / D.toNat) (2 ^ 64 - 1) := by
  have denominator : 0 < D.toNat := pos_of_ne_zero fun zero =>
    pos (UInt32.toNat_inj.mp zero)
  have largest : Num.toNat <= 2 ^ 64 - 1 := le_sub_one_of_lt Num.toNat_lt
  rw [LlvmProject.scale, if_neg pos]
  by_cases fast : Num = 0 ∨ D = N
  · refine ⟨Num, if_pos fast, ?_⟩
    rcases fast with rfl | rfl
    · rw [UInt64.toNat_zero, zero_mul, Nat.zero_div, Nat.zero_min]
    · rw [Nat.mul_div_cancel _ denominator, min_eq_left largest]
  rw [if_neg fast]
  have highWord : (Num >>> 32).toNat < 2 ^ 32 := by
    rw [toNat_high]
    omega
  have lowWord : (Num &&& 0xffffffff).toNat < 2 ^ 32 := by
    rw [toNat_low]
    omega
  rcases toNat_product N highWord with ⟨highValue, highBound⟩
  rcases toNat_product N lowWord with ⟨lowValue, lowBound⟩
  have prod : Num.toNat * N.toNat = (Num >>> 32).toNat * N.toNat * 2 ^ 32 +
      (Num &&& 0xffffffff).toNat * N.toNat := by
    have split := div_add_mod Num.toNat (2 ^ 32)
    rw [toNat_high, toNat_low]
    calc Num.toNat * N.toNat
        = (2 ^ 32 * (Num.toNat / 2 ^ 32) + Num.toNat % 2 ^ 32) * N.toNat := by rw [split]
      _ = _ := by ring
  rw [<- highValue] at highBound prod
  rw [<- lowValue] at lowBound prod
  rw [prod, <- digits_eq _ lowBound]
  generalize (Num >>> 32) * N.toUInt64 = ProductHigh at *
  generalize (Num &&& 0xffffffff) * N.toUInt64 = ProductLow at *
  dsimp only
  have mid_eq : (ProductHigh &&& 0xffffffff).toUInt32.toNat = ProductHigh.toNat % 2 ^ 32 := by
    rw [UInt64.toNat_toUInt32, toNat_low, mod_mod]
  have lower_eq : (ProductLow &&& 0xffffffff).toUInt32.toNat = ProductLow.toNat % 2 ^ 32 := by
    rw [UInt64.toNat_toUInt32, toNat_low, mod_mod]
  have middle_eq : ((ProductHigh &&& 0xffffffff).toUInt32.toUInt64 +
      (ProductLow >>> 32)).toUInt32.toNat =
        (ProductHigh.toNat % 2 ^ 32 + ProductLow.toNat / 2 ^ 32) % 2 ^ 32 := by
    rw [UInt64.toNat_toUInt32, UInt64.toNat_add, UInt32.toNat_toUInt64, mid_eq, toNat_high]
    omega
  have upper_eq : ((ProductHigh >>> 32).toUInt32 +
      if ((ProductHigh &&& 0xffffffff).toUInt32.toUInt64 + (ProductLow >>> 32)).toUInt32 <
        (ProductHigh &&& 0xffffffff).toUInt32 then 1 else 0).toNat =
        ProductHigh.toNat / 2 ^ 32 +
          if (ProductHigh.toNat % 2 ^ 32 + ProductLow.toNat / 2 ^ 32) % 2 ^ 32 <
            ProductHigh.toNat % 2 ^ 32 then 1 else 0 := by
    rw [UInt32.toNat_add, UInt64.toNat_toUInt32, toNat_high, <- middle_eq, <- mid_eq]
    simp only [UInt32.lt_iff_toNat_lt]
    split
    · rw [UInt32.toNat_one]
      omega
    · rw [UInt32.toNat_zero]
      omega
  generalize ((ProductHigh >>> 32).toUInt32 +
      if ((ProductHigh &&& 0xffffffff).toUInt32.toUInt64 + (ProductLow >>> 32)).toUInt32 <
        (ProductHigh &&& 0xffffffff).toUInt32 then 1 else 0) = Upper32 at upper_eq ⊢
  generalize ((ProductHigh &&& 0xffffffff).toUInt32.toUInt64 +
      (ProductLow >>> 32)).toUInt32 = Mid32 at middle_eq ⊢
  generalize (ProductLow &&& 0xffffffff).toUInt32 = Lower32 at lower_eq ⊢
  rw [<- upper_eq, <- middle_eq, <- lower_eq]
  by_cases saturated : Upper32 >= D
  · refine ⟨_, if_pos saturated, ?_⟩
    have above : D.toNat <= Upper32.toNat := saturated
    have large : 2 ^ 64 <=
        (Upper32.toNat * 2 ^ 64 + Mid32.toNat * 2 ^ 32 + Lower32.toNat) / D.toNat := by
      rw [Nat.le_div_iff_mul_le denominator]
      calc 2 ^ 64 * D.toNat <= 2 ^ 64 * Upper32.toNat := Nat.mul_le_mul_left _ above
        _ <= _ := by omega
    rw [min_eq_right (by omega)]
    rfl
  · rw [if_neg saturated]
    have below : Upper32.toNat < D.toNat := Nat.lt_of_not_le saturated
    rcases two_steps denominator below Mid32.toNat_lt Lower32.toNat_lt with
      ⟨upperQ, lowerQ, quot⟩
    have rem : ((Upper32.toUInt64 <<< 32) ||| Mid32.toUInt64).toNat =
        Upper32.toNat * 2 ^ 32 + Mid32.toNat := by
      exact toNat_join _ (show Upper32.toUInt64.toNat < 2 ^ 32 from Upper32.toNat_lt)
    generalize (Upper32.toUInt64 <<< 32) ||| Mid32.toUInt64 = Rem at rem ⊢
    have upper : (Rem / D.toUInt64).toNat = Rem.toNat / D.toNat := UInt64.toNat_div ..
    rw [<- rem] at upperQ lowerQ quot
    have small : ¬Rem / D.toUInt64 > 0xffffffff := by
      rw [gt_iff_lt, UInt64.lt_iff_toNat_lt, upper]
      exact Nat.not_lt_of_le (le_sub_one_of_lt upperQ)
    rw [if_neg small]
    have rem' : ((Rem % D.toUInt64) <<< 32 ||| Lower32.toUInt64).toNat =
        Rem.toNat % D.toNat * 2 ^ 32 + Lower32.toNat := by
      have reduced : (Rem % D.toUInt64).toNat = Rem.toNat % D.toNat := UInt64.toNat_mod ..
      have less := mod_lt Rem.toNat denominator
      rw [toNat_join, reduced]
      rw [reduced]
      exact less.trans D.toNat_lt
    generalize (Rem % D.toUInt64) <<< 32 ||| Lower32.toUInt64 = Rem' at rem' ⊢
    have lower : (Rem' / D.toUInt64).toNat = Rem'.toNat / D.toNat := UInt64.toNat_div ..
    rw [<- rem'] at lowerQ quot
    have sum : ((Rem / D.toUInt64) <<< 32 + Rem' / D.toUInt64).toNat =
        Rem.toNat / D.toNat * 2 ^ 32 + Rem'.toNat / D.toNat := by
      rw [UInt64.toNat_add, lower, UInt64.toNat_shiftLeft, upper]
      change ((Rem.toNat / D.toNat) <<< 32 % 2 ^ 64 + Rem'.toNat / D.toNat) % 2 ^ 64 = _
      rw [Nat.shiftLeft_eq]
      omega
    have noWrap : ¬(Rem / D.toUInt64) <<< 32 + Rem' / D.toUInt64 < Rem' / D.toUInt64 := by
      rw [UInt64.lt_iff_toNat_lt, sum, lower]
      omega
    refine ⟨_, if_neg noWrap, ?_⟩
    rw [sum, quot, min_eq_left (by omega)]

end BranchProbability

/-- Scaling by a fraction, by a probability and by its inverse is exact; what does not fit is the
largest number. -/
theorem scale_exact (Num : UInt64) (N D : UInt32) (pos : D ≠ 0) :
    (∃ Q, scale Num N D = some Q ∧ Q.toNat = min (Num.toNat * N.toNat / D.toNat) (2 ^ 64 - 1)) ∧
    ∀ P : BranchProbability,
      (∃ Q, P.scale Num = some Q ∧ Q.toNat = min (Num.toNat * P.N.toNat / P.D.toNat) (2 ^ 64 - 1)) ∧
      (P.N ≠ 0 -> ∃ Q, P.scaleByInverse Num = some Q ∧
        Q.toNat = min (Num.toNat * P.D.toNat / P.N.toNat) (2 ^ 64 - 1)) :=
  ⟨BranchProbability.scale_spec Num N pos, fun P =>
    ⟨BranchProbability.scale_spec Num P.N fun zero => by
      have denominator := P.denominator
      rw [zero] at denominator
      exact absurd denominator (by decide),
    fun nonzero => BranchProbability.scale_spec Num P.D nonzero⟩⟩

/-- The product of the largest numbers. -/
theorem scale_exact_largest :
    (∃ Q, scale 0xffffffffffffffff 0xffffffff 1 = some Q ∧ Q.toNat = 2 ^ 64 - 1) ∧
      (1 : UInt32) ≠ 0 :=
  ⟨(scale_exact 0xffffffffffffffff 0xffffffff 1 (by decide)).1, by decide⟩

end LlvmProject
