import LlvmProject.APInt.Magic
import LlvmProject.CodeGen.SelectionDAG

namespace LlvmProject

open BitVec

/-!
# Signed division by a constant

`BuildSDIV` replaces a signed division by a constant by the high half of a
signed product, a correction by the numerator where the multiplier does not
fit in the signed range, an arithmetic shift, and the addition of the sign
bit, which turns rounding down into rounding toward zero.
-/

open APInt

variable {W : Nat}

/-- The value is negative. -/
def APInt.isNegative (x : BitVec W) : Bool := x.msb

/-- The value is positive, and not zero. -/
def APInt.isStrictlyPositive (x : BitVec W) : Bool := !x.msb && x != 0

/-- Correct the product by the numerator: it is added for `d > 0` and `m < 0`,
and subtracted for `d < 0` and `m > 0`. -/
def correctSDIV (Divisor m : BitVec W) (Q : SDValue W) : SDValue W × List (SDValue W) :=
  let added :=
    if isStrictlyPositive Divisor && isNegative m then
      let Q := SDValue.node .ADD Q .operand 0
      (Q, [Q])
    else (Q, [])
  if isNegative Divisor && isStrictlyPositive m then
    let Q := SDValue.node .SUB added.1 .operand 0
    (Q, added.2 ++ [Q])
  else added

/-- Shift right algebraic if the shift value is nonzero. -/
def shiftSDIV (s : Nat) (Q : SDValue W) : SDValue W × List (SDValue W) :=
  if s > 0 then
    let Q := SDValue.shift .SRA Q s
    (Q, [Q])
  else (Q, [])

/-- Given a signed division by a constant, return an expression that generates
the same value by multiplying by a magic number. -/
def BuildSDIV (target : TargetLowering) (IsAfterLegalization : Bool) (fuel : Nat)
    (Divisor : BitVec W) : Option (Expansion W) :=
  if target.isTypeLegal = false then some (.empty [])
  else do
    let magics <- magic fuel Divisor
    match highProduct target IsAfterLegalization .MULHS .SMUL_LOHI .operand magics.m with
    | none => return .empty []
    | some Q =>
      let corrected := correctSDIV Divisor magics.m Q
      let shifted := shiftSDIV magics.s corrected.1
      -- Extract the sign bit and add it to the quotient.
      let T := SDValue.shift .SRL shifted.1 (W - 1)
      return .sequence (.node .ADD shifted.1 T 0) (corrected.2 ++ shifted.2 ++ [T])

/-- The target has what the expansion needs. -/
def TargetLowering.expandsSDIV (target : TargetLowering) (IsAfterLegalization : Bool) : Bool :=
  target.isTypeLegal && target.supportsHigh IsAfterLegalization .MULHS .SMUL_LOHI

/-! ## The arithmetic of the emitted nodes -/

section Arithmetic

variable {magics : ms W} {d : BitVec W} {mult : Nat}

/-- The product after the correction, as the emitted nodes compute it. -/
def correctedProduct (d m n : BitVec W) : BitVec W :=
  if isStrictlyPositive d && isNegative m then mulhs n m + n
  else if isNegative d && isStrictlyPositive m then mulhs n m - n
  else mulhs n m

/-- The numerator with the sign that makes the divisor positive. -/
def signedNumerator (d n : BitVec W) : Int := if d.msb then -n.toInt else n.toInt

theorem isStrictlyPositive_of_nonzero {x : BitVec W} (nonzero : x ≠ 0) :
    isStrictlyPositive x = !isNegative x := by
  rw [isStrictlyPositive, isNegative, bne_iff_ne.mpr nonzero, Bool.and_true]

/-- A multiple of the range moves out of the high half. -/
theorem mulhs_of_toInt {m n : BitVec W} (value shift : Int)
    (known : m.toInt = value + shift * 2 ^ W) :
    mulhs n m = BitVec.ofInt W (n.toInt * value / 2 ^ W) + BitVec.ofInt W (n.toInt * shift) := by
  have pos : (2 : Int) ^ W ≠ 0 := by positivity
  have prod : n.toInt * m.toInt = n.toInt * value + n.toInt * shift * 2 ^ W := by
    rw [known]
    ring
  rw [mulhs, prod, Int.add_mul_ediv_right _ _ pos, ofInt_add]

/-- For a positive divisor a multiplier that reads as negative lacks the range
once; the numerator is added for it. -/
theorem mulhs_positive {m n : BitVec W} (known : m = BitVec.ofInt W mult) (fits : mult < 2 ^ W) :
    (if isNegative m then mulhs n m + n else mulhs n m) =
      BitVec.ofInt W (n.toInt * mult / 2 ^ W) := by
  have bits : m.toNat = mult := by
    rw [known, ofInt_natCast, toNat_ofNat, Nat.mod_eq_of_lt fits]
  have range : ((2 ^ W : Nat) : Int) = 2 ^ W := by push_cast; rfl
  have value := toInt_eq_msb_cond m
  rw [bits, range] at value
  rw [isNegative]
  rcases Bool.eq_false_or_eq_true m.msb with neg | nonnegative
  · rw [if_pos neg] at value ⊢
    rw [mulhs_of_toInt mult (-1) (by rw [value]; ring), mul_neg, mul_one, ofInt_neg, ofInt_toInt]
    exact neg_add_cancel_right _ n
  · rw [if_neg (by rw [nonnegative]; decide)] at value ⊢
    rw [mulhs, value]

/-- For a negative divisor a multiplier that reads as positive has the range
once too much; the numerator is subtracted for it. -/
theorem mulhs_negative {m n : BitVec W} (known : m = BitVec.ofInt W (-mult))
    (pos : 0 < mult) (fits : mult < 2 ^ W) :
    (if isStrictlyPositive m then mulhs n m - n else mulhs n m) =
      BitVec.ofInt W (-n.toInt * mult / 2 ^ W) := by
  have bits : m.toNat = 2 ^ W - mult := by
    rw [known, ofInt_neg, ofInt_natCast, toNat_neg, toNat_ofNat,
      Nat.mod_eq_of_lt fits, Nat.mod_eq_of_lt (by omega)]
  have nonzero : m ≠ 0 := by
    intro zero
    rw [zero] at bits
    change 0 = 2 ^ W - mult at bits
    omega
  have range : ((2 ^ W : Nat) : Int) = 2 ^ W := by push_cast; rfl
  have value := toInt_eq_msb_cond m
  rw [bits, Nat.cast_sub fits.le, range] at value
  have prod : n.toInt * -(mult : Int) = -n.toInt * mult := by ring
  rw [isStrictlyPositive_of_nonzero nonzero, isNegative]
  rcases Bool.eq_false_or_eq_true m.msb with neg | nonnegative
  · rw [if_pos neg] at value
    rw [if_neg (by rw [neg]; decide), mulhs, value, <- prod]
    congr 3
    ring
  · rw [if_neg (by rw [nonnegative]; decide)] at value
    rw [if_pos (by rw [nonnegative]; rfl), mulhs_of_toInt (-mult) 1 (by rw [value]; ring),
      mul_one, ofInt_toInt, prod]
    exact add_sub_cancel _ _

/-- The correction completes the product to that with the whole multiplier. -/
theorem correctedProduct_eq (divides : magics.Divides d mult) (nonzero : d ≠ 0) (n : BitVec W) :
    correctedProduct d magics.m n = BitVec.ofInt W (signedNumerator d n * mult / 2 ^ W) := by
  have known := divides.m
  rw [correctedProduct, isStrictlyPositive_of_nonzero nonzero, signedNumerator]
  rcases Bool.eq_false_or_eq_true d.msb with neg | nonnegative
  · have sign : isNegative d = true := neg
    rw [if_pos neg] at known ⊢
    rw [sign, Bool.not_true, Bool.false_and, Bool.true_and, if_neg Bool.false_ne_true]
    exact mulhs_negative known divides.multiplier_pos divides.multiplier_lt
  · have sign : isNegative d = false := nonnegative
    have notNegative : ¬ d.msb = true := by rw [nonnegative]; decide
    rw [if_neg notNegative] at known ⊢
    rw [sign, Bool.not_false, Bool.true_and, Bool.false_and, if_neg Bool.false_ne_true]
    exact mulhs_positive known divides.multiplier_lt

theorem toInt_correctedProduct (divides : magics.Divides d mult) (nonzero : d ≠ 0) (n : BitVec W) :
    (correctedProduct d magics.m n).toInt = signedNumerator d n * mult / 2 ^ W := by
  have wide : 0 < W := Nat.zero_lt_of_lt divides.shift_lt
  have pos : (0 : Int) < 2 ^ W := by positivity
  have half : (0 : Int) < 2 ^ (W - 1) := by positivity
  have below : (mult : Int) < 2 ^ W := by exact_mod_cast divides.multiplier_lt
  have above : (0 : Int) < mult := by exact_mod_cast divides.multiplier_pos
  have lower := le_toInt n
  have upper := toInt_lt (x := n)
  have low : -2 ^ (W - 1) <= signedNumerator d n := by
    rw [signedNumerator]
    split_ifs <;> omega
  have high : signedNumerator d n <= 2 ^ (W - 1) := by
    rw [signedNumerator]
    split_ifs <;> omega
  rw [correctedProduct_eq divides nonzero]
  apply toInt_ofInt_eq_self wide
  · rw [Int.le_ediv_iff_mul_le pos]
    nlinarith
  · rw [Int.ediv_lt_iff_lt_mul pos]
    nlinarith

theorem add_signBit (x : BitVec W) (wide : 0 < W) :
    x + x >>> (W - 1) = BitVec.ofInt W (x.toInt + if x.toInt < 0 then 1 else 0) := by
  have bit : x >>> (W - 1) = BitVec.ofInt W (if x.toInt < 0 then 1 else 0) := by
    rw [<- setWidth_eq (x >>> (W - 1)), <- ofNat_toNat, toNat_lshr_signBit x wide, msb_eq_toInt]
    by_cases neg : x.toInt < 0
    · rw [decide_eq_true neg, if_pos neg]
      exact (ofInt_natCast W 1).symm
    · rw [decide_eq_false neg, if_neg neg]
      exact (ofInt_natCast W 0).symm
  rw [ofInt_add, ofInt_toInt, bit]

theorem shifted_sum (divides : magics.Divides d mult) (nonzero : d ≠ 0) (notMinusOne : d ≠ -1)
    (n : BitVec W) :
    (correctedProduct d magics.m n).sshiftRight magics.s +
        (correctedProduct d magics.m n).sshiftRight magics.s >>> (W - 1) = n.sdiv d := by
  have wide : 0 < W := Nat.zero_lt_of_lt divides.shift_lt
  have quot := divides.divides n _ rfl
  have shifted : ((correctedProduct d magics.m n).sshiftRight magics.s).toInt =
      signedNumerator d n * mult / (2 ^ (W + magics.s) : Nat) := by
    rw [toInt_sshiftRight, toInt_correctedProduct divides nonzero,
      Int.shiftRight_eq_div_pow, pow_add]
    push_cast
    exact Int.ediv_ediv_of_nonneg (by positivity)
  rw [add_signBit _ wide, shifted]
  have meaning : (n.sdiv d).toInt = n.toInt.tdiv d.toInt :=
    toInt_sdiv_of_ne_or_ne n d (.inr notMinusOne)
  rw [<- ofInt_toInt (x := n.sdiv d), meaning, <- quot]
  rfl

end Arithmetic

/-! ## Correctness -/

section Correctness

variable (target : TargetLowering) (IsAfterLegalization : Bool)

theorem eval_correctSDIV {d m n : BitVec W} {Q : SDValue W} (known : Q.eval n = some (mulhs n m)) :
    (correctSDIV d m Q).1.eval n = some (correctedProduct d m n) := by
  have numerator : SDValue.operand.eval n = some n := rfl
  unfold correctSDIV correctedProduct
  cases add : isStrictlyPositive d && isNegative m with
  | true =>
    -- A positive divisor is not negative, so nothing is subtracted.
    have pos := (Bool.and_eq_true_iff.mp add).1
    have sign : isNegative d = false := Bool.not_eq_true' _ |>.mp (Bool.and_eq_true_iff.mp pos).1
    simp only [if_true, sign, Bool.false_and, Bool.false_eq_true, if_false]
    exact SDValue.eval_node .ADD 0 known numerator
  | false =>
    simp only [Bool.false_eq_true, if_false]
    cases isNegative d && isStrictlyPositive m with
    | true => exact SDValue.eval_node .SUB 0 known numerator
    | false => exact known

theorem eval_shiftSDIV {n x : BitVec W} {Q : SDValue W} {s : Nat} (known : Q.eval n = some x)
    (within : s < W) : (shiftSDIV s Q).1.eval n = some (x.sshiftRight s) := by
  unfold shiftSDIV
  by_cases shifts : s > 0
  · rw [if_pos shifts]
    exact SDValue.eval_shift .SRA known within
  · rw [if_neg shifts, Nat.eq_zero_of_not_pos shifts, sshiftRight_zero]
    exact known

/-- Whatever the target offers, the expansion of a signed division by `d`
computes the quotient of every numerator by `d`, rounded toward zero; the
search for the magic number ends, and the expansion is empty only if the
target lacks the nodes. -/
theorem BuildSDIV_computes (wide : 3 <= W) (d : BitVec W) (notZero : d ≠ 0) (notOne : d ≠ 1)
    (notMinusOne : d ≠ -1) (fuel : Nat) (enough : W <= fuel) :
    (∃ magics, magic fuel d = some magics) ∧
      ∃ expansion, BuildSDIV target IsAfterLegalization fuel d = some expansion ∧
        expansion.Computes (target.expandsSDIV IsAfterLegalization) (fun n => n.sdiv d) := by
  rcases magic_spec wide notZero notOne notMinusOne enough with
    ⟨magics, mult, found, divides⟩
  refine ⟨⟨magics, found⟩, ?_⟩
  unfold BuildSDIV TargetLowering.expandsSDIV
  cases legal : target.isTypeLegal with
  | false => exact ⟨_, rfl, rfl⟩
  | true =>
    simp only [Bool.true_eq_false, if_false, found, Option.bind_eq_bind, Option.bind_some,
      Bool.true_and]
    rcases highProduct_cases target IsAfterLegalization .operand magics.m
        fun _ => (rfl : ISD.apply _ _ _ .SMUL_LOHI = ISD.apply _ _ _ .MULHS) with
      ⟨missing, lacking⟩ | ⟨prod, built, supported, meaning⟩
    · rw [missing]
      exact ⟨_, rfl, lacking⟩
    · rw [built]
      refine ⟨_, rfl, Expansion.computes_sequence supported fun n => ?_⟩
      have corrected := eval_correctSDIV (d := d) (meaning n n rfl)
      have shifted := eval_shiftSDIV corrected divides.shift_lt
      have signBit := SDValue.eval_shift .SRL shifted (show W - 1 < W by omega)
      rw [SDValue.eval_node .ADD 0 shifted signBit]
      exact congrArg some (shifted_sum divides notZero notMinusOne n)

/-- The least divisor at eight bits, whose absolute value is half of the
range. -/
theorem BuildSDIV_computes_intMin :
    (∃ magics, magic 8 (intMin 8) = some magics) ∧
      ∃ expansion, BuildSDIV ⟨true, fun _ => true, fun _ => true⟩ true 8 (intMin 8) =
          some expansion ∧
        expansion.Computes true (fun n => n.sdiv (intMin 8)) :=
  BuildSDIV_computes ⟨true, fun _ => true, fun _ => true⟩ true (by decide) (intMin 8)
    (by decide) (by decide) (by decide) 8 (by decide)

end Correctness

end LlvmProject
