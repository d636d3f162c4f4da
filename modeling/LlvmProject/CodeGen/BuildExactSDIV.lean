import LlvmProject.APInt.Truncation
import LlvmProject.CodeGen.SelectionDAG
import Mathlib.Tactic.LinearCombination

namespace LlvmProject

open BitVec hiding two_mul zero_mul

/-!
# Exact signed division by a constant

A numerator that is known to be a multiple of the divisor is divided by an
arithmetic shift, which takes the power of two out of both, and a product with the
multiplicative inverse of the odd factor that is left.

The inverse is found by Newton's method.  What is missing to one is squared in every
round, so a power of two that divides it becomes the square of this power, and
nothing is missing as soon as the power reaches the width.
-/

open APInt TrailingZeros Nat

variable {W : Nat}

/-- The loop that calculates the inverse, `while ((t = d*xn) != 1)`. -/
def exactInverse (d : BitVec W) : Nat -> BitVec W -> Option (BitVec W)
  | 0, _ => none
  | fuel + 1, xn =>
    let t := d * xn
    if t ≠ 1 then exactInverse d fuel (xn * (BitVec.ofNat W 2 - t)) else some xn

/-- Given an exact SDIV by a constant, create a multiplication with the multiplicative
inverse of the constant. -/
def BuildExactSDIV (fuel : Nat) (d : BitVec W) : Option (SDValue W) :=
  if d = 0 then none  -- Division by zero!
  else
    -- Shift the value upfront if it is even, so the LSB is one.
    let ShAmt := countTrailingZeros d
    let Op1 := if ShAmt ≠ 0 then SDValue.shift .SRA .operand ShAmt else .operand
    let d := if ShAmt ≠ 0 then d.sshiftRight ShAmt else d
    (exactInverse d fuel d).map fun xn => .node .MUL Op1 (.constant xn) 0

/-! ## Newton's method -/

section Newton

variable {d xn : BitVec W} {k : Nat}

/-- The product with the divisor is one up to a multiple of `2 ^ k`. -/
def InverseUpTo (d : BitVec W) (k : Nat) (xn : BitVec W) : Prop := ∃ c, 1 - d * xn = 2 ^ k * c

theorem two_pow_eq_zero (wide : W <= k) : (2 : BitVec W) ^ k = 0 := by
  apply eq_of_toNat_eq
  have cast : (2 : BitVec W) ^ k = ((2 ^ k : Nat) : BitVec W) := by push_cast; rfl
  rw [cast, <- Nat.sub_add_cancel wide, pow_add]
  exact (toNat_ofNat _ _).trans (mul_mod_left _ _)

theorem InverseUpTo.exact (upTo : InverseUpTo d k xn) (wide : W <= k) : d * xn = 1 := by
  rcases upTo with ⟨c, missing⟩
  rw [two_pow_eq_zero wide, zero_mul] at missing
  exact (sub_eq_zero.mp missing).symm

/-- An odd number is its own inverse up to a multiple of eight. -/
theorem InverseUpTo.start (odd : d.toNat % 2 = 1) : InverseUpTo d 3 d := by
  rcases even_mul_succ_self (d.toNat / 2) with ⟨j, half⟩
  have value : d = ((2 * (d.toNat / 2) + 1 : Nat) : BitVec W) := by
    have split : 2 * (d.toNat / 2) + 1 = d.toNat := by omega
    rw [split]
    exact (BitVec.setWidth_eq d).symm.trans (BitVec.ofNat_toNat W d).symm
  have prod : (((d.toNat / 2 : Nat) : BitVec W)) * ((d.toNat / 2 : Nat) + 1) = j + j := by
    exact_mod_cast congrArg (Nat.cast (R := BitVec W)) half
  refine ⟨-(j : BitVec W), ?_⟩
  rw [value]
  push_cast
  linear_combination (-4) * prod

theorem InverseUpTo.step (upTo : InverseUpTo d k xn) :
    InverseUpTo d (2 * k) (xn * (2 - d * xn)) := by
  rcases upTo with ⟨c, missing⟩
  refine ⟨c * c, ?_⟩
  calc 1 - d * (xn * (2 - d * xn)) = (1 - d * xn) * (1 - d * xn) := by ring
    _ = 2 ^ (2 * k) * (c * c) := by rw [missing, two_mul, pow_add]; ring

theorem exactInverse_of_upTo {fuel : Nat} (upTo : InverseUpTo d (k + 1) xn)
    (enough : W <= k + 1 + fuel) :
    ∃ inverse, exactInverse d (fuel + 1) xn = some inverse ∧ d * inverse = 1 := by
  induction fuel generalizing k xn with
  | zero =>
    have done := upTo.exact enough
    exact ⟨xn, if_neg (not_not_intro done), done⟩
  | succ fuel ih =>
    rw [exactInverse]
    by_cases done : d * xn = 1
    · exact ⟨xn, if_neg (not_not_intro done), done⟩
    · rw [if_pos done]
      have next : InverseUpTo d (2 * k + 1 + 1) _ := upTo.step
      exact ih next (by omega)

/-- The loop terminates with the inverse of an odd number. -/
theorem exactInverse_odd {fuel : Nat} (odd : d.toNat % 2 = 1) (enough : W <= fuel) :
    ∃ inverse, exactInverse d fuel d = some inverse ∧ d * inverse = 1 := by
  cases fuel with
  | zero =>
    have noBits : W = 0 := le_zero.mp enough
    have zero : d.toNat = 0 := by
      subst noBits
      exact lt_one_iff.mp d.isLt
    omega
  | succ fuel => exact exactInverse_of_upTo (InverseUpTo.start odd) (by omega)

end Newton

/-! ## The quotient -/

section Quotient

variable {d n : BitVec W}

/-- The shift loses no bit of the divisor. -/
theorem toInt_sshiftRight_ctz (d : BitVec W) :
    (d.sshiftRight (countTrailingZeros d)).toInt * 2 ^ countTrailingZeros d = d.toInt := by
  have low : ((2 ^ countTrailingZeros d : Nat) : Int) ∣ d.toNat :=
    Int.natCast_dvd_natCast.mpr (pow_trailingZeros_dvd W d.toNat)
  have high : ((2 ^ countTrailingZeros d : Nat) : Int) ∣ (2 ^ W : Nat) :=
    Int.natCast_dvd_natCast.mpr (pow_dvd_pow 2 (trailingZeros_le W d.toNat))
  have divides : ((2 ^ countTrailingZeros d : Nat) : Int) ∣ d.toInt := by
    rw [BitVec.toInt_eq_toNat_cond]
    split
    · exact low
    · exact Int.dvd_sub low high
  rw [toInt_sshiftRight, Int.shiftRight_eq_div_pow]
  exact_mod_cast Int.ediv_mul_cancel divides

/-- Shifted by the trailing zeros, the lowest bit is one. -/
theorem odd_sshiftRight_ctz (nonzero : d ≠ 0) :
    (d.sshiftRight (countTrailingZeros d)).toNat % 2 = 1 := by
  have inside := countTrailingZeros_lt nonzero
  have logical := odd_lshr_countTrailingZeros nonzero
  have sameBit : (d.sshiftRight (countTrailingZeros d)).getLsbD 0 =
      (d >>> countTrailingZeros d).getLsbD 0 := by
    rw [getLsbD_sshiftRight, getLsbD_ushiftRight, add_zero, if_pos inside]
    simp [ne_of_gt (zero_lt_of_lt inside)]
  rw [<- testBit_toNat, <- testBit_toNat, testBit_zero, testBit_zero, decide_eq_decide] at sameBit
  exact sameBit.mpr logical

/-- The shift divides a multiple of the divisor by the power of two in the divisor. -/
theorem sshiftRight_multiple {q : Int} (multiple : n.toInt = d.toInt * q) :
    n.sshiftRight (countTrailingZeros d) =
      d.sshiftRight (countTrailingZeros d) * BitVec.ofInt W q := by
  have exact : (n.sshiftRight (countTrailingZeros d)).toInt =
      (d.sshiftRight (countTrailingZeros d)).toInt * q := by
    have shifted : n.toInt =
        (d.sshiftRight (countTrailingZeros d)).toInt * q * 2 ^ countTrailingZeros d := by
      rw [multiple, <- toInt_sshiftRight_ctz d]
      ring
    rw [toInt_sshiftRight, Int.shiftRight_eq_div_pow, shifted]
    push_cast
    exact Int.mul_ediv_cancel _ (pow_ne_zero _ two_ne_zero)
  rw [<- ofInt_toInt (x := n.sshiftRight _), exact, ofInt_mul, ofInt_toInt]

/-- What the emitted shift and product make of a multiple of the divisor. -/
theorem sshiftRight_mul_inverse {xn : BitVec W} (nonzero : d ≠ 0)
    (inverse : d.sshiftRight (countTrailingZeros d) * xn = 1) (multiple : d.toInt ∣ n.toInt) :
    n.sshiftRight (countTrailingZeros d) * xn = BitVec.ofInt W (n.toInt / d.toInt) := by
  rcases multiple with ⟨q, multiple⟩
  have divisor : d.toInt ≠ 0 := fun zero =>
    nonzero (eq_of_toInt_eq (zero.trans toInt_zero.symm))
  rw [multiple, Int.mul_ediv_cancel_left q divisor, sshiftRight_multiple multiple]
  linear_combination BitVec.ofInt W q * inverse

end Quotient

/-! ## The expansion -/

section Expansion

variable {d : BitVec W}

/-- The numerator as it enters the product. -/
def exactNumerator (d : BitVec W) : SDValue W :=
  if countTrailingZeros d ≠ 0 then .shift .SRA .operand (countTrailingZeros d) else .operand

theorem eval_exactNumerator (nonzero : d ≠ 0) (n : BitVec W) :
    (exactNumerator d).eval n = some (n.sshiftRight (countTrailingZeros d)) := by
  unfold exactNumerator
  by_cases even : countTrailingZeros d ≠ 0
  · rw [if_pos even]
    exact SDValue.eval_shift .SRA rfl (countTrailingZeros_lt nonzero)
  · rw [if_neg even, not_not.mp even, sshiftRight_zero]
    rfl

/-- A shift by zero is left out of the expansion, but would not change it. -/
theorem BuildExactSDIV_eq (nonzero : d ≠ 0) (fuel : Nat) :
    BuildExactSDIV fuel d =
      (exactInverse (d.sshiftRight (countTrailingZeros d)) fuel
        (d.sshiftRight (countTrailingZeros d))).map
          fun xn => .node .MUL (exactNumerator d) (.constant xn) 0 := by
  unfold BuildExactSDIV exactNumerator
  rw [if_neg nonzero]
  by_cases even : countTrailingZeros d ≠ 0
  · simp only [if_pos even]
  · simp only [not_not.mp even, sshiftRight_zero, ite_self]

end Expansion

end LlvmProject
