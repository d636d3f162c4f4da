import LlvmProject.APInt.Magicu
import LlvmProject.APInt.Truncation
import LlvmProject.CodeGen.SelectionDAG

namespace LlvmProject

open BitVec Nat

/-!
# Unsigned division by a constant

`BuildUDIV` replaces a division by a constant by the high half of a product
with the magic number and a shift.  A multiplier of one bit more than the
width needs a fixup.  For even divisors the fixup is avoided by shifting the
numerator first: the shifted numerator has leading zeros, and its magic number
fits.

The expansion gives up unless the type is legal, and when the target has no
node for the high half of a product.
-/

open APInt TrailingZeros

variable {W : Nat}

/-- The second half of `BuildUDIV`: the product, the shift and the fixup. -/
def multiplyUDIV (target : TargetLowering) (IsAfterLegalization : Bool) (Q : SDValue W)
    (magics : mu W) (Created : List (SDValue W)) : Expansion W :=
  match highProduct target IsAfterLegalization .MULHU .UMUL_LOHI Q magics.m with
  | none => .empty Created
  | some Q =>
    if magics.a = false then
      if magics.s < W then .sequence (.shift .SRL Q magics.s) (Created ++ [Q])
      else .assertion "We shouldn't generate an undefined shift!"
    else
      let difference := SDValue.node .SUB .operand Q 0
      let half := SDValue.shift .SRL difference 1
      let NPQ := SDValue.node .ADD half Q 0
      .sequence (.shift .SRL NPQ (magics.s - 1)) (Created ++ [Q, difference, half, NPQ])

/-- Given a division by a constant, return an expression that generates the
same value by multiplying by a magic number. -/
def BuildUDIV (target : TargetLowering) (IsAfterLegalization : Bool) (fuel : Nat)
    (Divisor : BitVec W) : Option (Expansion W) :=
  if target.isTypeLegal = false then some (.empty [])
  else do
    let magics <- magicu fuel Divisor 0
    -- If the divisor is even, shifting the numerator avoids the fixup.
    if magics.a = true ∧ Divisor.getLsbD 0 = false then
      let Shift := countTrailingZeros Divisor
      let Q := SDValue.shift .SRL .operand Shift
      let magics <- magicu fuel (Divisor >>> Shift) Shift
      if magics.a = true then return .assertion "Should use cheap fixup now"
      return multiplyUDIV target IsAfterLegalization Q magics [Q]
    return multiplyUDIV target IsAfterLegalization .operand magics []

/-- The target has what the expansion needs. -/
def TargetLowering.expandsUDIV (target : TargetLowering) (IsAfterLegalization : Bool) : Bool :=
  target.isTypeLegal && target.supportsHigh IsAfterLegalization .MULHU .UMUL_LOHI

/-! ## The arithmetic of the emitted nodes -/

section Arithmetic

variable {magics : mu W} {d : BitVec W} {numerators mult : Nat}

theorem toNat_mulhu (x y : BitVec W) : (mulhu x y).toNat = x.toNat * y.toNat / 2 ^ W := by
  rw [mulhu, toNat_ofNat, mod_eq_of_lt]
  exact Nat.div_lt_of_lt_mul (Nat.mul_lt_mul'' x.isLt y.isLt)

section

variable (divides : magics.Divides d numerators mult)
include divides

/-- A multiplier that fits shifts by less than the width. -/
theorem APInt.mu.Divides.shift_lt (fits : mult < 2 ^ W) : magics.s < W := by
  have scale : 2 ^ (W + magics.s) < 2 ^ (W + W) :=
    calc 2 ^ (W + magics.s) <= mult * d.toNat := divides.scale_le
      _ < 2 ^ W * 2 ^ W := Nat.mul_lt_mul'' fits d.isLt
      _ = 2 ^ (W + W) := (pow_add ..).symm
  have exponents := (Nat.pow_lt_pow_iff_right (by decide)).mp scale
  omega

/-- Product and shift, without fixup. -/
theorem APInt.mu.Divides.toNat_product
    (fits : mult < 2 ^ W) {x : BitVec W} (numerator : x.toNat <= numerators) :
    (mulhu x magics.m >>> magics.s).toNat = x.toNat / d.toNat := by
  rw [toNat_ushiftRight, toNat_mulhu, shiftRight_eq_div_pow, divides.m,
    toNat_ofNat, mod_eq_of_lt fits, Nat.div_div_eq_div_mul, <- pow_add,
    mul_comm x.toNat, divides.divides x.toNat numerator]

/-- The fixup adds the numerator, which the lowest bits of the multiplier
leave out, to the product without overflow. -/
theorem APInt.mu.Divides.toNat_fixup (large : 2 ^ W <=
    mult) (bounded : mult < 2 ^ (W + 1)) {n : BitVec W} (numerator : n.toNat <= numerators) :
    ((((n - mulhu n magics.m) >>> 1) + mulhu n magics.m) >>> (magics.s - 1)).toNat =
      n.toNat / d.toNat := by
  obtain ⟨low, rfl⟩ := Nat.exists_eq_add_of_le large
  have lowFits : low < 2 ^ W := by
    rw [Nat.pow_succ] at bounded
    omega
  have fits := n.isLt
  have pos := divides.shift_pos large
  have prod : (mulhu n magics.m).toNat = n.toNat * low / 2 ^ W := by
    rw [toNat_mulhu, divides.m, toNat_ofNat, add_mod_left, mod_eq_of_lt lowFits]
  have below : n.toNat * low / 2 ^ W <= n.toNat :=
    Nat.div_le_of_le_mul (by rw [Nat.mul_comm]; exact Nat.mul_le_mul_right _ lowFits.le)
  have quot : (n.toNat * low / 2 ^ W + n.toNat) / 2 ^ magics.s = n.toNat / d.toNat := by
    rw [<- divides.divides n.toNat numerator, Nat.pow_add, <- Nat.div_div_eq_div_mul, Nat.add_mul,
      Nat.mul_comm low, Nat.add_comm (2 ^ W * n.toNat), add_mul_div_left _ _ (Nat.two_pow_pos W)]
  have difference : (n - mulhu n magics.m).toNat = n.toNat - n.toNat * low / 2 ^ W := by
    rw [BitVec.toNat_sub_of_le (le_def.mpr (prod ▸ below)), prod]
  have average : (((n - mulhu n magics.m) >>> 1) + mulhu n magics.m).toNat =
      (n.toNat * low / 2 ^ W + n.toNat) / 2 := by
    rw [toNat_add, toNat_ushiftRight, difference, prod, shiftRight_one]
    generalize n.toNat * low / 2 ^ W = high at *
    rw [mod_eq_of_lt (by omega)]
    omega
  rw [toNat_ushiftRight, average, shiftRight_eq_div_pow, Nat.div_div_eq_div_mul,
    <- Nat.pow_succ', succ_eq_add_one, Nat.sub_add_cancel pos, quot]

end

end Arithmetic

/-! ## Correctness -/

section Correctness

variable (target : TargetLowering) (IsAfterLegalization : Bool)

/-- The sequence without fixup, on a numerator prepared by `Q`. -/
theorem multiplyUDIV_fits {magics : mu W} {d : BitVec W} {numerators mult : Nat}
    (divides : magics.Divides d numerators mult) (fits : mult < 2 ^ W)
    (Q : SDValue W) (prepare : BitVec W -> BitVec W) (known : ∀ n, Q.eval n = some (prepare n))
    (bounded : ∀ n, (prepare n).toNat <= numerators) (Created : List (SDValue W)) :
    (multiplyUDIV target IsAfterLegalization Q magics Created).Computes
      (target.supportsHigh IsAfterLegalization .MULHU .UMUL_LOHI) (fun n => prepare n / d) := by
  have noFixup : magics.a = false := by
    rw [<- Bool.not_eq_true, divides.a]
    omega
  have within := divides.shift_lt fits
  rcases highProduct_cases target IsAfterLegalization Q magics.m
      fun _ => (rfl : ISD.apply _ _ _ .UMUL_LOHI = ISD.apply _ _ _ .MULHU) with
    ⟨missing, lacking⟩ | ⟨prod, built, supported, meaning⟩
  · rw [multiplyUDIV, missing]
    exact lacking
  · rw [multiplyUDIV, built]
    simp only [noFixup, if_true, if_pos within]
    refine Expansion.computes_sequence supported fun n => ?_
    rw [SDValue.eval_shift .SRL (meaning n _ (known n)) within]
    exact congrArg some (eq_of_toNat_eq
      ((divides.toNat_product fits (bounded n)).trans toNat_udiv.symm))

theorem multiplyUDIV_fixup {magics : mu W} {d : BitVec W} {numerators mult : Nat} (divides :
    magics.Divides d numerators mult) (large : 2 ^ W <= mult) (bounded : mult < 2 ^ (W + 1))
    (all : ∀ n : BitVec W, n.toNat <= numerators) (wide : 1 < W) (Created : List (SDValue W)) :
    (multiplyUDIV target IsAfterLegalization .operand magics Created).Computes
      (target.supportsHigh IsAfterLegalization .MULHU .UMUL_LOHI) (fun n => n / d) := by
  have fixup : magics.a ≠ false := by
    rw [Bool.ne_false_iff]
    exact divides.a.mpr large
  have within : magics.s - 1 < W := by
    have bound := divides.shift_le
    omega
  rcases highProduct_cases target IsAfterLegalization .operand magics.m
      fun _ => (rfl : ISD.apply _ _ _ .UMUL_LOHI = ISD.apply _ _ _ .MULHU) with
    ⟨missing, lacking⟩ | ⟨prod, built, supported, meaning⟩
  · rw [multiplyUDIV, missing]
    exact lacking
  · rw [multiplyUDIV, built]
    simp only [if_neg fixup]
    refine Expansion.computes_sequence supported fun n => ?_
    have high := meaning n n rfl
    have difference := SDValue.eval_node .SUB 0 (rfl : SDValue.operand.eval n = some n) high
    have half := SDValue.eval_shift .SRL difference wide
    have sum := SDValue.eval_node .ADD 0 half high
    rw [SDValue.eval_shift .SRL sum within]
    exact congrArg some (eq_of_toNat_eq
      ((divides.toNat_fixup large bounded (all n)).trans toNat_udiv.symm))

/-! ## The shifted numerator -/

section Shifted

variable {d : BitVec W}

/-- Shifting numerator and divisor keeps the quotient. -/
theorem lshr_udiv_lshr (n : BitVec W) :
    (n >>> countTrailingZeros d) / (d >>> countTrailingZeros d) = n / d := by
  apply eq_of_toNat_eq
  rw [toNat_udiv, toNat_udiv, toNat_ushiftRight, shiftRight_eq_div_pow,
    Nat.div_div_eq_div_mul, mul_comm, toNat_lshr_countTrailingZeros]

theorem lshr_le_lshr_allOnes (n : BitVec W) (amount : Nat) :
    n >>> amount <= BitVec.allOnes W >>> amount := by
  rw [le_def, toNat_ushiftRight, toNat_ushiftRight,
    shiftRight_eq_div_pow, shiftRight_eq_div_pow, toNat_allOnes]
  exact Nat.div_le_div_right (le_sub_one_of_lt n.isLt)

end Shifted

/-- The even divisors that would need the fixup: the second search finds a
multiplier that fits. -/
theorem BuildUDIV_even {d : BitVec W} (nonzero : d ≠ 0) (notPower : ∀ k, d.toNat ≠ 2 ^ k)
    (even : d.getLsbD 0 = false) {fuel : Nat} (enough : W < fuel) :
    ∃ magics, magicu fuel (d >>> countTrailingZeros d) (countTrailingZeros d) = some magics ∧
      magics.a = false ∧
      ∀ Created, (multiplyUDIV target IsAfterLegalization
        (.shift .SRL .operand (countTrailingZeros d)) magics Created).Computes
          (target.supportsHigh IsAfterLegalization .MULHU .UMUL_LOHI) (fun n => n / d) := by
  have within := countTrailingZeros_lt nonzero
  have shifted := toNat_lshr_countTrailingZeros (d := d)
  have shiftedNonzero : d >>> countTrailingZeros d ≠ 0 := by
    intro zero
    refine nonzero (eq_of_toNat_eq (shifted.symm.trans ?_))
    rw [zero]
    exact zero_mul _
  have shiftedNotPower : ∀ k, (d >>> countTrailingZeros d).toNat ≠ 2 ^ k := by
    intro k power
    rw [power, <- pow_add] at shifted
    exact notPower _ shifted.symm
  rcases magicu_spec within.le (lshr_le_lshr_allOnes d (countTrailingZeros d)) shiftedNonzero
      shiftedNotPower enough with ⟨magics, mult, found, divides, _, fits⟩
  have smaller := fits (countTrailingZeros_pos (by omega) even)
  refine ⟨magics, found, ?_, fun Created => ?_⟩
  · rw [<- Bool.not_eq_true, divides.a]
    omega
  · have computes := multiplyUDIV_fits target IsAfterLegalization divides smaller
      (.shift .SRL .operand (countTrailingZeros d)) _
      (fun n => SDValue.eval_shift .SRL rfl within)
      (fun n => le_def.mp (lshr_le_lshr_allOnes n _)) Created
    have same : (fun n => ISDShift.apply n (countTrailingZeros d) .SRL /
        d >>> countTrailingZeros d) = fun n => n / d := funext lshr_udiv_lshr
    rwa [same] at computes

/-- Whatever the target offers, the expansion of a division by `d` computes
the quotient of every numerator by `d`, with no failed assertion, and it is
empty only if the target lacks the nodes. -/
theorem BuildUDIV_computes (d : BitVec W) (nonzero : d ≠ 0)
    (notPower : ∀ k, d.toNat ≠ 2 ^ k) (fuel : Nat) (enough : W < fuel) :
    ∃ expansion, BuildUDIV target IsAfterLegalization fuel d = some expansion ∧
      expansion.Computes (target.expandsUDIV IsAfterLegalization) (fun n => n / d) := by
  have wide : 1 < W := by
    by_contra narrow
    have fits : d.toNat < 2 ^ 1 :=
      lt_of_lt_of_le d.isLt (Nat.pow_le_pow_right (by decide) (by omega))
    have one := notPower 0
    exact nonzero (eq_of_toNat_eq (show d.toNat = 0 by omega))
  have all : ∀ n : BitVec W, n <= BitVec.allOnes W >>> 0 := by
    intro n
    have shifted := lshr_le_lshr_allOnes n 0
    rwa [ushiftRight_zero n] at shifted
  unfold BuildUDIV TargetLowering.expandsUDIV
  cases legal : target.isTypeLegal with
  | false => exact ⟨_, rfl, rfl⟩
  | true =>
    rcases magicu_spec (zero_le W) (all d) nonzero notPower enough with
      ⟨magics, mult, found, divides, bounded, _⟩
    simp only [Bool.true_eq_false, if_false, found, Option.bind_eq_bind, Option.bind_some,
      Bool.true_and]
    by_cases shifts : magics.a = true ∧ d.getLsbD 0 = false
    · rcases BuildUDIV_even target IsAfterLegalization nonzero notPower shifts.2 enough with
        ⟨cheap, foundCheap, noFixup, computes⟩
      simp only [if_pos shifts, foundCheap, Option.bind_some, noFixup, Bool.false_eq_true, if_false]
      exact ⟨_, rfl, computes _⟩
    · rw [if_neg shifts]
      refine ⟨_, rfl, ?_⟩
      by_cases fits : mult < 2 ^ W
      · exact multiplyUDIV_fits target IsAfterLegalization divides fits .operand id
          (fun _ => rfl) all []
      · exact multiplyUDIV_fixup target IsAfterLegalization divides (Nat.le_of_not_lt fits)
          bounded all wide []

/-- The divisor 14 at eight bits takes the path of the even divisors. -/
theorem BuildUDIV_computes_fourteen :
    ∃ expansion, BuildUDIV ⟨true, fun _ => true, fun _ => true⟩ true 9 (14 : BitVec 8) =
        some expansion ∧
      expansion.Computes true (fun n => n / 14) := by
  refine BuildUDIV_computes ⟨true, fun _ => true, fun _ => true⟩ true 14 (by decide)
    (fun k power => ?_) 9 (by decide)
  change 14 = 2 ^ k at power
  rcases k with _ | _ | k
  · exact absurd power (by decide)
  · exact absurd power (by decide)
  · rw [pow_add] at power
    omega

end Correctness

end LlvmProject
