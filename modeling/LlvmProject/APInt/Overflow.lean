import Mathlib.Data.BitVec
import Mathlib.Data.Nat.Size
import Mathlib.Tactic.Linarith

namespace LlvmProject

open Bool hiding not_iff_not not_or
open BitVec hiding mul_zero neg_neg not_or sub_eq_add_neg zero_mul
open Nat

namespace APInt
namespace Overflow

/-!
# Arithmetic that reports overflow

Each operation returns a value of the width of its operands, and whether the
mathematical result does not fit in it.  Sums are judged by the signs, products by
dividing back, and left shifts by counting the bits that may be lost.  A shift by the
width or more is always reported, also that of zero.

Products, quotients and sums are those of bit-vectors.  An operand is read as signed or
as unsigned, and so is the result.
-/

variable {W : Nat}

/-! ## Operations -/

def isNonNegative (x : BitVec W) : Bool := !x.msb

def isMinSignedValue (x : BitVec W) : Bool := x == intMin W

def isAllOnesValue (x : BitVec W) : Bool := x == BitVec.allOnes W

def countLeadingZeros (x : BitVec W) : Nat := W - x.toNat.size

def countLeadingOnes (x : BitVec W) : Nat := countLeadingZeros (~~~x)

def ugt (x RHS : BitVec W) : Bool := !x.ult RHS && x != RHS

/-- The bound is truncated to the width. -/
def ugeNat (x : BitVec W) (RHS : Nat) : Bool := !x.ult (BitVec.ofNat W RHS)

def ugtNat (x : BitVec W) (RHS : Nat) : Bool := ugt x (BitVec.ofNat W RHS)

def sadd_ov (x RHS : BitVec W) : BitVec W × Bool :=
  let Res := x + RHS
  (Res, isNonNegative x == isNonNegative RHS && isNonNegative Res != isNonNegative x)

def uadd_ov (x RHS : BitVec W) : BitVec W × Bool :=
  let Res := x + RHS
  (Res, Res.ult RHS)

def ssub_ov (x RHS : BitVec W) : BitVec W × Bool :=
  let Res := x - RHS
  (Res, isNonNegative x != isNonNegative RHS && isNonNegative Res != isNonNegative x)

def usub_ov (x RHS : BitVec W) : BitVec W × Bool :=
  let Res := x - RHS
  (Res, ugt Res x)

def sdiv_ov (x RHS : BitVec W) : BitVec W × Bool :=
  (x.sdiv RHS, isMinSignedValue x && isAllOnesValue RHS)

def smul_ov (x RHS : BitVec W) : BitVec W × Bool :=
  let Res := x * RHS
  (Res, if x != 0 && RHS != 0 then Res.sdiv RHS != x || Res.sdiv x != RHS else false)

def umul_ov (x RHS : BitVec W) : BitVec W × Bool :=
  let Res := x * RHS
  (Res, if x != 0 && RHS != 0 then Res / RHS != x || Res / x != RHS else false)

def sshl_ov (x ShAmt : BitVec W) : BitVec W × Bool :=
  if ugeNat ShAmt W then (0, true)
  else (x <<< ShAmt,
    if isNonNegative x then ugeNat ShAmt (countLeadingZeros x)
    else ugeNat ShAmt (countLeadingOnes x))

def ushl_ov (x ShAmt : BitVec W) : BitVec W × Bool :=
  if ugeNat ShAmt W then (0, true)
  else (x <<< ShAmt, ugtNat ShAmt (countLeadingZeros x))

/-! ## Specification -/

def FitsSigned (W : Nat) (z : Int) : Prop := -2 ^ (W - 1) <= z ∧ z < 2 ^ (W - 1)

def FitsUnsigned (W : Nat) (z : Int) : Prop := 0 <= z ∧ z < 2 ^ W

/-- The answer is the integer modulo `2 ^ W`, and overflow is reported exactly when the
integer is not allowed. -/
structure Exact (allowed : Prop) (z : Int) (answer : BitVec W × Bool) : Prop where
  result : answer.1 = BitVec.ofInt W z
  overflow : answer.2 = true ↔ ¬ allowed

variable {x y : BitVec W}

theorem fitsSigned_toInt (x : BitVec W) : FitsSigned W x.toInt := ⟨le_toInt x, toInt_lt⟩

theorem toInt_ofInt (pos : 0 < W) {z : Int} (fits : FitsSigned W z) :
    (BitVec.ofInt W z).toInt = z :=
  toInt_ofInt_eq_self pos fits.1 fits.2

/-! ## Sums and differences -/

theorem sadd_ov_exact (x y : BitVec W) :
    Exact (FitsSigned W (x.toInt + y.toInt)) (x.toInt + y.toInt) (sadd_ov x y) where
  result := by rw [BitVec.ofInt_add, BitVec.ofInt_toInt, BitVec.ofInt_toInt, sadd_ov]
  overflow := by
    have flag : (sadd_ov x y).2 = x.saddOverflow y := by
      rw [saddOverflow_eq, sadd_ov, isNonNegative, isNonNegative, isNonNegative]
      cases x.msb <;> cases y.msb <;> cases (x + y).msb <;> rfl
    rw [flag, saddOverflow, FitsSigned]
    simp
    omega

theorem ssub_ov_exact (x y : BitVec W) :
    Exact (FitsSigned W (x.toInt - y.toInt)) (x.toInt - y.toInt) (ssub_ov x y) where
  result := by
    rw [sub_eq_add_neg, BitVec.ofInt_add, BitVec.ofInt_neg, BitVec.ofInt_toInt, BitVec.ofInt_toInt,
      ssub_ov, sub_eq_add_neg]
  overflow := by
    have flag : (ssub_ov x y).2 = x.ssubOverflow y := by
      rw [ssubOverflow_eq, ssub_ov, isNonNegative, isNonNegative, isNonNegative]
      cases x.msb <;> cases y.msb <;> cases (x - y).msb <;> rfl
    rw [flag, ssubOverflow, FitsSigned]
    simp
    omega

theorem uadd_ov_exact (x y : BitVec W) :
    Exact (FitsUnsigned W (x.toNat + y.toNat)) (x.toNat + y.toNat) (uadd_ov x y) where
  result := by
    rw [BitVec.ofInt_add, BitVec.ofInt_natCast, BitVec.ofInt_natCast, BitVec.ofNat_toNat,
      BitVec.ofNat_toNat, BitVec.setWidth_eq, BitVec.setWidth_eq, uadd_ov]
  overflow := by
    have xLt := x.isLt
    have yLt := y.isLt
    have power : ((2 ^ W : Nat) : Int) = 2 ^ W := by push_cast; rfl
    rw [uadd_ov, FitsUnsigned, BitVec.ult, decide_eq_true_iff, toNat_add, <- power]
    by_cases small : x.toNat + y.toNat < 2 ^ W
    · rw [mod_eq_of_lt small]
      omega
    · rw [mod_eq_sub_mod (Nat.le_of_not_lt small), mod_eq_of_lt (by omega)]
      omega

theorem usub_ov_exact (x y : BitVec W) :
    Exact (FitsUnsigned W (x.toNat - y.toNat)) (x.toNat - y.toNat) (usub_ov x y) where
  result := by
    rw [sub_eq_add_neg, BitVec.ofInt_add, BitVec.ofInt_neg, BitVec.ofInt_natCast,
      BitVec.ofInt_natCast, BitVec.ofNat_toNat, BitVec.ofNat_toNat, BitVec.setWidth_eq,
      BitVec.setWidth_eq, usub_ov, sub_eq_add_neg]
  overflow := by
    have xLt := x.isLt
    have yLt := y.isLt
    have power : ((2 ^ W : Nat) : Int) = 2 ^ W := by push_cast; rfl
    have greater : (usub_ov x y).2 = true ↔ x.toNat < (x - y).toNat := by
      rw [usub_ov, ugt, and_eq_true, not_eq_true', bne_iff_ne, BitVec.ult,
        decide_eq_false_iff_not, <- toNat_ne_iff_ne]
      omega
    rw [greater, FitsUnsigned, toNat_sub, <- power]
    by_cases small : x.toNat < y.toNat
    · rw [mod_eq_of_lt (by omega)]
      omega
    · have wrapped : 2 ^ W - y.toNat + x.toNat = x.toNat - y.toNat + 2 ^ W := by omega
      rw [wrapped, add_mod_right, mod_eq_of_lt (by omega)]
      omega

/-! ## Quotients and products -/

theorem toInt_sdiv (x : BitVec W) {y : BitVec W} (other : ¬(x = intMin W ∧ y = BitVec.allOnes W)) :
    (x.sdiv y).toInt = x.toInt.tdiv y.toInt := by
  apply toInt_sdiv_of_ne_or_ne
  rw [neg_one_eq_allOnes]
  exact not_and_or.mp other

theorem toInt_allOnes (pos : 0 < W) : (BitVec.allOnes W).toInt = -1 := by
  rw [BitVec.toInt_allOnes, if_pos pos]

theorem sdiv_ov_exact (pos : 0 < W) (x y : BitVec W) :
    Exact (FitsSigned W (x.toInt.tdiv y.toInt)) (x.toInt.tdiv y.toInt) (sdiv_ov x y) where
  result := by
    apply BitVec.eq_of_toInt_eq
    rw [BitVec.toInt_ofInt, sdiv_ov, BitVec.toInt_sdiv]
  overflow := by
    have flag : (sdiv_ov x y).2 = true ↔ x = intMin W ∧ y = BitVec.allOnes W := by
      rw [sdiv_ov, isMinSignedValue, isAllOnesValue, and_eq_true, beq_iff_eq, beq_iff_eq]
    rw [flag]
    constructor
    · rintro ⟨rfl, rfl⟩ fits
      rw [toInt_intMin_of_pos pos, toInt_allOnes pos, Int.tdiv_neg, Int.neg_tdiv,
        neg_neg, Int.tdiv_one] at fits
      exact lt_irrefl _ fits.2
    · intro overflows
      by_contra other
      rw [<- toInt_sdiv x other] at overflows
      exact overflows (fitsSigned_toInt _)

theorem umul_ov_exact (x y : BitVec W) :
    Exact (FitsUnsigned W (x.toNat * y.toNat)) (x.toNat * y.toNat) (umul_ov x y) where
  result := by
    rw [BitVec.ofInt_mul, BitVec.ofInt_natCast, BitVec.ofInt_natCast, BitVec.ofNat_toNat,
      BitVec.ofNat_toNat, BitVec.setWidth_eq, BitVec.setWidth_eq, umul_ov]
  overflow := by
    have fits : FitsUnsigned W (x.toNat * y.toNat) ↔ x.toNat * y.toNat < 2 ^ W := by
      rw [FitsUnsigned, <- Int.natCast_mul, and_iff_right (Int.natCast_nonneg _)]
      exact_mod_cast Iff.rfl
    rw [fits, umul_ov]
    by_cases zero : x = 0 ∨ y = 0
    · have prod : x.toNat * y.toNat = 0 := by
        rcases zero with rfl | rfl
        · exact zero_mul _
        · exact mul_zero _
      have skipped : ¬((x != 0 && y != 0) = true) := by
        rw [and_eq_true, bne_iff_ne, bne_iff_ne, <- not_or]
        exact not_not_intro zero
      rw [if_neg skipped, prod]
      simp
    · rw [not_or] at zero
      have checked : (x != 0 && y != 0) = true := by
        rw [and_eq_true, bne_iff_ne, bne_iff_ne]
        exact zero
      have xPos : 0 < x.toNat := pos_of_ne_zero fun h => zero.1 (eq_of_toNat_eq h)
      have yPos : 0 < y.toNat := pos_of_ne_zero fun h => zero.2 (eq_of_toNat_eq h)
      rw [if_pos checked, or_eq_true, bne_iff_ne, bne_iff_ne, <- not_and_or, not_iff_not,
        <- toNat_inj, <- toNat_inj, toNat_udiv, toNat_udiv, toNat_mul]
      constructor
      · rintro ⟨back, -⟩
        -- the quotient is too small if anything is cut off the product
        have scaled := div_mul_le_self (x.toNat * y.toNat % 2 ^ W) y.toNat
        rw [back] at scaled
        exact scaled.trans_lt (mod_lt _ (Nat.two_pow_pos W))
      · intro small
        rw [mod_eq_of_lt small]
        exact ⟨Nat.mul_div_cancel _ yPos, Nat.mul_div_cancel_left _ xPos⟩

/-- A value that is congruent to a product and gives one factor back is the product. -/
theorem eq_mul_of_tdiv_eq {r x y N : Int} (back : r.tdiv y = x)
    (small : 2 * y.natAbs <= N.natAbs) (nonzero : y ≠ 0) (congruent : N ∣ r - x * y) :
    r = x * y := by
  have rem : r - x * y = r.tmod y := by rw [Int.tmod_def, back, mul_comm y]
  rw [rem] at congruent
  have below := mod_lt r.natAbs (Int.natAbs_pos.mpr nonzero)
  have zero := Int.eq_zero_of_dvd_of_natAbs_lt_natAbs congruent (by rw [Int.natAbs_tmod]; omega)
  omega

theorem sdiv_mul_right (pos : 0 < W) (nonzero : y.toInt ≠ 0)
    (value : (x * y).toInt = x.toInt * y.toInt) : (x * y).sdiv y = x := by
  have other : ¬(x * y = intMin W ∧ y = BitVec.allOnes W) := by
    rintro ⟨least, rfl⟩
    rw [least, toInt_intMin_of_pos pos, toInt_allOnes pos] at value
    have bound := toInt_lt (x := x)
    omega
  apply BitVec.eq_of_toInt_eq
  rw [toInt_sdiv _ other, value, Int.mul_tdiv_cancel _ nonzero]

/-- The two divisions give the factors back exactly when the product fits. -/
theorem sdiv_mul_iff (pos : 0 < W)
    (wide : ¬(W = 1 ∧ x = BitVec.allOnes W ∧ y = BitVec.allOnes W)) (xNonzero : x.toInt ≠ 0)
    (yNonzero : y.toInt ≠ 0) (prod : x * y = BitVec.ofInt W (x.toInt * y.toInt)) :
    ((x * y).sdiv y = x ∧ (x * y).sdiv x = y) ↔ FitsSigned W (x.toInt * y.toInt) := by
  constructor
  · rintro ⟨backX, backY⟩
    by_cases least : x * y = intMin W ∧ y = BitVec.allOnes W
    · -- the other division is that of the least value by itself
      exfalso
      rw [least.1, least.2, <- neg_one_eq_allOnes, intMin_sdiv_neg_one] at backX
      rw [least.1, <- backX] at backY
      by_cases single : W = 1
      · subst single
        exact wide ⟨rfl, backX.symm, least.2⟩
      · have other : intMin W ≠ BitVec.allOnes W := by
          intro same
          have least := congrArg BitVec.toInt same
          rw [toInt_intMin_of_pos pos, toInt_allOnes pos, neg_inj] at least
          rcases Nat.exists_eq_add_of_le' (show 2 <= W by omega) with ⟨k, rfl⟩
          have power : (2 : Int) ^ (k + 2 - 1) = 2 * 2 ^ k := Int.pow_succ' ..
          omega
        have value := toInt_sdiv (intMin W) (fun both => other both.2)
        rw [backY, least.2, toInt_allOnes pos, Int.tdiv_self (backX ▸ xNonzero)] at value
        exact absurd value (by decide)
    · have value := toInt_sdiv (x * y) least
      rw [backX] at value
      have congruent : ((2 ^ W : Nat) : Int) ∣ (x * y).toInt - x.toInt * y.toInt := by
        rw [prod, BitVec.toInt_ofInt]
        exact Int.dvd_bmod_sub_self
      have small : 2 * y.toInt.natAbs <= ((2 ^ W : Nat) : Int).natAbs := by
        have low := le_toInt y
        have high := toInt_lt (x := y)
        have power : ((2 ^ W : Nat) : Int) = 2 * 2 ^ (W - 1) := by
          rw [<- Int.pow_succ', Nat.sub_add_cancel pos]
          push_cast
          rfl
        omega
      have same := eq_mul_of_tdiv_eq value.symm small yNonzero congruent
      rw [<- same]
      exact fitsSigned_toInt _
  · intro fits
    have value : (x * y).toInt = x.toInt * y.toInt := by rw [prod, toInt_ofInt pos fits]
    refine ⟨sdiv_mul_right pos yNonzero value, ?_⟩
    rw [mul_comm] at value ⊢
    exact sdiv_mul_right pos xNonzero (value.trans (Int.mul_comm _ _))

/-- Two factors of one bit that are both `-1` have a product that does not fit, and
divide back. -/
theorem smul_ov_exact (pos : 0 < W)
    (wide : ¬(W = 1 ∧ x = BitVec.allOnes W ∧ y = BitVec.allOnes W)) :
    Exact (FitsSigned W (x.toInt * y.toInt)) (x.toInt * y.toInt) (smul_ov x y) where
  result := by rw [BitVec.ofInt_mul, BitVec.ofInt_toInt, BitVec.ofInt_toInt, smul_ov]
  overflow := by
    have prod : x * y = BitVec.ofInt W (x.toInt * y.toInt) := by
      rw [BitVec.ofInt_mul, BitVec.ofInt_toInt, BitVec.ofInt_toInt]
    rw [smul_ov]
    by_cases zero : x = 0 ∨ y = 0
    · have fits : FitsSigned W (x.toInt * y.toInt) := by
        have power : (0 : Int) < 2 ^ (W - 1) := Int.pow_pos (by decide)
        rcases zero with rfl | rfl
        · rw [ofNat_eq_ofNat, toInt_zero, zero_mul]
          exact ⟨by omega, power⟩
        · rw [ofNat_eq_ofNat, toInt_zero, mul_zero]
          exact ⟨by omega, power⟩
      have skipped : ¬((x != 0 && y != 0) = true) := by
        rw [and_eq_true, bne_iff_ne, bne_iff_ne, <- not_or]
        exact not_not_intro zero
      rw [if_neg skipped]
      simp [fits]
    · rw [not_or] at zero
      have checked : (x != 0 && y != 0) = true := by
        rw [and_eq_true, bne_iff_ne, bne_iff_ne]
        exact zero
      rw [if_pos checked, or_eq_true, bne_iff_ne, bne_iff_ne, <- not_and_or, not_iff_not]
      have nonzero : ∀ {v : BitVec W}, v ≠ 0 -> v.toInt ≠ 0 := fun ne value =>
        ne (BitVec.eq_of_toInt_eq (by rw [value, ofNat_eq_ofNat, toInt_zero]))
      exact sdiv_mul_iff pos wide (nonzero zero.1) (nonzero zero.2) prod

/-! ## Left shifts -/

theorem ugeNat_iff {n : Nat} (x : BitVec W)
    (small : n <= W) : ugeNat x n = true ↔ n <= x.toNat := by
  rw [ugeNat, BitVec.ult, not_eq_true', decide_eq_false_iff_not, toNat_ofNat,
    mod_eq_of_lt (small.trans_lt Nat.lt_two_pow_self), not_lt]

theorem ugtNat_iff {n : Nat} (x : BitVec W) (small : n <= W) : ugtNat x n = true ↔ n < x.toNat := by
  have bound : n % 2 ^ W = n := mod_eq_of_lt (small.trans_lt Nat.lt_two_pow_self)
  rw [ugtNat, ugt, and_eq_true, BitVec.ult, not_eq_true', decide_eq_false_iff_not,
    bne_iff_ne, <- toNat_ne_iff_ne, toNat_ofNat, bound]
  omega

theorem countLeadingZeros_le (x : BitVec W) : countLeadingZeros x <= W := sub_le _ _

theorem ofInt_two_pow (s : Nat) : BitVec.ofInt W (2 ^ s) = twoPow W s := by
  apply eq_of_toNat_eq
  have cast : (2 ^ s : Int) = ((2 ^ s : Nat) : Int) := by push_cast; rfl
  rw [cast, BitVec.ofInt_natCast, toNat_ofNat, toNat_twoPow]

theorem ofInt_mul_two_pow {z : Int} (same : BitVec.ofInt W z = x) (s : Nat) :
    BitVec.ofInt W (z * 2 ^ s) = x <<< s := by
  rw [BitVec.ofInt_mul, same, ofInt_two_pow, shiftLeft_eq_mul_twoPow]

/-- What a shift of a number of at most `size` bits may be. -/
theorem mul_two_pow_lt_iff {m s n : Nat} (small : s <= n) : m * 2 ^ s < 2 ^ n ↔ m.size + s <=
    n := by
  have split : 2 ^ n = 2 ^ (n - s) * 2 ^ s := by rw [<- pow_add, Nat.sub_add_cancel small]
  rw [split, Nat.mul_lt_mul_right (Nat.two_pow_pos s), <- size_le]
  omega

theorem ushl_ov_exact (x ShAmt : BitVec W) :
    Exact (ShAmt.toNat < W ∧ FitsUnsigned W (x.toNat * 2 ^ ShAmt.toNat))
      (x.toNat * 2 ^ ShAmt.toNat) (ushl_ov x ShAmt) := by
  have value : BitVec.ofInt W (x.toNat * 2 ^ ShAmt.toNat) = x <<< ShAmt.toNat :=
    ofInt_mul_two_pow (by rw [BitVec.ofInt_natCast, BitVec.ofNat_toNat, BitVec.setWidth_eq]) _
  rw [ushl_ov]
  by_cases far : W <= ShAmt.toNat
  · rw [if_pos ((ugeNat_iff ShAmt le_rfl).mpr far)]
    exact ⟨by rw [value, shiftLeft_eq_zero far]; rfl, by simp [Nat.not_lt.mpr far]⟩
  · have near : ShAmt.toNat < W := Nat.lt_of_not_le far
    rw [if_neg (mt (ugeNat_iff ShAmt le_rfl).mp far)]
    refine ⟨value.symm, ?_⟩
    have fits : FitsUnsigned W (x.toNat * 2 ^ ShAmt.toNat) ↔ x.toNat * 2 ^ ShAmt.toNat < 2 ^ W := by
      rw [FitsUnsigned, and_iff_right (by positivity)]
      exact_mod_cast Iff.rfl
    have bits : x.toNat.size <= W := size_le.mpr x.isLt
    rw [ugtNat_iff _ (countLeadingZeros_le x), fits, mul_two_pow_lt_iff near.le, countLeadingZeros]
    omega

theorem sshl_ov_exact (pos : 0 < W) (x ShAmt : BitVec W) :
    Exact (ShAmt.toNat < W ∧ FitsSigned W (x.toInt * 2 ^ ShAmt.toNat))
      (x.toInt * 2 ^ ShAmt.toNat) (sshl_ov x ShAmt) := by
  have value : BitVec.ofInt W (x.toInt * 2 ^ ShAmt.toNat) = x <<< ShAmt.toNat :=
    ofInt_mul_two_pow BitVec.ofInt_toInt _
  rw [sshl_ov]
  by_cases far : W <= ShAmt.toNat
  · rw [if_pos ((ugeNat_iff ShAmt le_rfl).mpr far)]
    exact ⟨by rw [value, shiftLeft_eq_zero far]; rfl, by simp [Nat.not_lt.mpr far]⟩
  · have near : ShAmt.toNat < W := Nat.lt_of_not_le far
    rw [if_neg (mt (ugeNat_iff ShAmt le_rfl).mp far)]
    refine ⟨value.symm, ?_⟩
    rw [and_iff_right near]
    have power : (0 : Int) < 2 ^ ShAmt.toNat := Int.pow_pos (by decide)
    have half : (0 : Int) < 2 ^ (W - 1) := Int.pow_pos (by decide)
    cases sign : x.msb with
    | false =>
      have nonneg : x.toInt = x.toNat := toInt_eq_toNat_of_msb sign
      have fits : FitsSigned W (x.toInt * 2 ^ ShAmt.toNat) ↔
          x.toNat * 2 ^ ShAmt.toNat < 2 ^ (W - 1) := by
        have low : (-2 ^ (W - 1) : Int) <= x.toNat * 2 ^ ShAmt.toNat := by
          have : (0 : Int) <= x.toNat * 2 ^ ShAmt.toNat := by positivity
          omega
        rw [FitsSigned, nonneg, and_iff_right low]
        exact_mod_cast Iff.rfl
      have bits : x.toNat.size <= W := size_le.mpr x.isLt
      simp only [isNonNegative, sign, Bool.not_false, if_true]
      rw [ugeNat_iff _ (countLeadingZeros_le x), fits, mul_two_pow_lt_iff (by omega),
        countLeadingZeros]
      omega
    | true =>
      have neg : x.toInt = -(((~~~x).toNat : Int) + 1) := by
        have xLt := x.isLt
        rw [toInt_eq_msb_cond, sign, if_pos rfl, toNat_not]
        omega
      have fits : FitsSigned W (x.toInt * 2 ^ ShAmt.toNat) ↔
          ((~~~x).toNat + 1) * 2 ^ ShAmt.toNat <= 2 ^ (W - 1) := by
        rw [FitsSigned, neg, neg_mul, neg_le_neg_iff, and_iff_left]
        · exact_mod_cast Iff.rfl
        · have : (0 : Int) <= ((~~~x).toNat + 1) * 2 ^ ShAmt.toNat := by positivity
          omega
      have bits : (~~~x).toNat.size <= W := size_le.mpr (~~~x).isLt
      have split : 2 ^ (W - 1) = 2 ^ (W - 1 - ShAmt.toNat) * 2 ^ ShAmt.toNat := by
        rw [<- pow_add, Nat.sub_add_cancel (by omega)]
      simp only [isNonNegative, sign, Bool.not_true, Bool.false_eq_true, if_false]
      rw [countLeadingOnes, ugeNat_iff _ (countLeadingZeros_le _), fits, split,
        Nat.mul_le_mul_right_iff (Nat.two_pow_pos _), succ_le_iff, <- size_le, countLeadingZeros]
      omega

/-! ## All operations -/

/-- Every operation returns the result modulo `2 ^ W`.  Sums, differences, products and
quotients report overflow exactly when the result does not fit; a left shift also
reports every shift by the width or more. -/
theorem operations_exact (pos : 0 < W) (x y : BitVec W) :
    (Exact (FitsSigned W (x.toInt + y.toInt)) (x.toInt + y.toInt) (sadd_ov x y) ∧
      Exact (FitsUnsigned W (x.toNat + y.toNat)) (x.toNat + y.toNat) (uadd_ov x y) ∧
      Exact (FitsSigned W (x.toInt - y.toInt)) (x.toInt - y.toInt) (ssub_ov x y) ∧
      Exact (FitsUnsigned W (x.toNat - y.toNat)) (x.toNat - y.toNat) (usub_ov x y)) ∧
    ((y ≠ 0 ->
        Exact (FitsSigned W (x.toInt.tdiv y.toInt)) (x.toInt.tdiv y.toInt) (sdiv_ov x y)) ∧
      (¬(W = 1 ∧ x = BitVec.allOnes W ∧ y = BitVec.allOnes W) ->
        Exact (FitsSigned W (x.toInt * y.toInt)) (x.toInt * y.toInt) (smul_ov x y)) ∧
      Exact (FitsUnsigned W (x.toNat * y.toNat)) (x.toNat * y.toNat) (umul_ov x y)) ∧
    Exact (y.toNat < W ∧ FitsSigned W (x.toInt * 2 ^ y.toNat)) (x.toInt * 2 ^ y.toNat)
      (sshl_ov x y) ∧
    Exact (y.toNat < W ∧ FitsUnsigned W (x.toNat * 2 ^ y.toNat)) (x.toNat * 2 ^ y.toNat)
      (ushl_ov x y) := by
  refine ⟨⟨sadd_ov_exact x y, uadd_ov_exact x y, ssub_ov_exact x y, usub_ov_exact x y⟩,
    ⟨fun _ => sdiv_ov_exact pos x y, smul_ov_exact pos, umul_ov_exact x y⟩, ?_⟩
  exact ⟨sshl_ov_exact pos x y, ushl_ov_exact x y⟩

/-- The product of `-128` and `-1` is the least value again, and reported. -/
theorem smul_ov_least : (smul_ov (-128#8) (-1#8)).2 = true := by
  have exact' := (operations_exact (by decide) (-128#8) (-1#8)).2.1.2.1 (by decide)
  exact exact'.overflow.mpr fun fits => absurd fits.2 (by decide)

/-- Zero shifted by the width is zero, which fits, and is reported. -/
theorem sshl_ov_zero_not_exact :
    ¬Exact (FitsSigned 8 ((0#8).toInt * 2 ^ 8)) ((0#8).toInt * 2 ^ 8) (sshl_ov 0#8 8#8) := by
  intro exact'
  exact exact'.overflow.mp rfl ⟨by decide, by decide⟩

-- A product of two bits is not reported, although `1` is no signed value of one bit.
example : smul_ov 1#1 1#1 = (1#1, false) := by decide

end Overflow
end APInt
end LlvmProject
