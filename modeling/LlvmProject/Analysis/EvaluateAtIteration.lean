import LlvmProject.APInt.MultiplicativeInverse
import LlvmProject.Library.ChainOfRecurrences
import Mathlib.Data.Nat.Prime.Basic

namespace LlvmProject

/-!
# Scalar expressions

Scalar evolution builds its expressions through constructors that simplify on
the way.  What an expression looks like is therefore left open: an instance of
the structure below has expressions of every width, their values in an
environment, and constructors of which only the value of the result is known.
-/

namespace IntegerType

/-- Maximum number of bits that can be specified. -/
def MAX_INT_BITS : Nat := 2 ^ 23 - 1

/-- The assertions on the width of a type. -/
def get (NumBits : Nat) : Except String Unit :=
  if NumBits < 1 then .error "bitwidth too small"
  else if MAX_INT_BITS < NumBits then .error "bitwidth too large"
  else .ok ()

theorem get_ok {NumBits : Nat} (pos : 0 < NumBits) (bounded : NumBits <= MAX_INT_BITS) :
    get NumBits = .ok () := by
  rw [get, if_neg (not_lt.mpr pos), if_neg (not_lt.mpr bounded)]

theorem get_error {NumBits : Nat} (pos : 0 < NumBits) (large : MAX_INT_BITS < NumBits) :
    get NumBits = .error "bitwidth too large" := by
  rw [get, if_neg (not_lt.mpr pos), if_pos large]

end IntegerType

/-- Expressions, their values, and constructors that keep values.  A division
by zero has no value, so nothing is known of its result. -/
structure ScalarEvolution where
  SCEV : Nat -> Type
  Environment : Type
  eval {W : Nat} : Environment -> SCEV W -> BitVec W
  getConstant {W : Nat} : BitVec W -> SCEV W
  getTruncateOrZeroExtend {V : Nat} (expression : SCEV V) (W : Nat) : SCEV W
  getAddExpr {W : Nat} : SCEV W -> SCEV W -> SCEV W
  getMinusSCEV {W : Nat} : SCEV W -> SCEV W -> SCEV W
  getMulExpr {W : Nat} : SCEV W -> SCEV W -> SCEV W
  getUDivExpr {W : Nat} : SCEV W -> SCEV W -> SCEV W
  eval_getConstant {W : Nat} (env : Environment) (value : BitVec W) :
    eval env (getConstant value) = value
  eval_getTruncateOrZeroExtend {V W : Nat} (env : Environment) (x : SCEV V) :
    eval env (getTruncateOrZeroExtend x W) = (eval env x).setWidth W
  eval_getAddExpr {W : Nat} (env : Environment) (x y : SCEV W) :
    eval env (getAddExpr x y) = eval env x + eval env y
  eval_getMinusSCEV {W : Nat} (env : Environment) (x y : SCEV W) :
    eval env (getMinusSCEV x y) = eval env x - eval env y
  eval_getMulExpr {W : Nat} (env : Environment) (x y : SCEV W) :
    eval env (getMulExpr x y) = eval env x * eval env y
  eval_getUDivExpr {W : Nat} (env : Environment) (x y : SCEV W)
    (nonzero : eval env y ≠ 0) :
    eval env (getUDivExpr x y) = eval env x / eval env y

/-- Constructors that fold everything: an expression is its value. -/
def ScalarEvolution.constantFolding : ScalarEvolution where
  SCEV W := BitVec W
  Environment := Unit
  eval _ value := value
  getConstant value := value
  getTruncateOrZeroExtend value W := value.setWidth W
  getAddExpr x y := x + y
  getMinusSCEV x y := x - y
  getMulExpr x y := x * y
  getUDivExpr x y := x / y
  eval_getConstant _ _ := rfl
  eval_getTruncateOrZeroExtend _ _ := rfl
  eval_getAddExpr _ _ _ := rfl
  eval_getMinusSCEV _ _ _ := rfl
  eval_getMulExpr _ _ _ := rfl
  eval_getUDivExpr _ _ _ _ := rfl

instance {W : Nat} : DecidableEq (ScalarEvolution.constantFolding.SCEV W) :=
  inferInstanceAs (DecidableEq (BitVec W))

/-- A chain of recurrences: its start and the elements after it. -/
structure ScalarEvolution.SCEVAddRecExpr (SE : ScalarEvolution) (W : Nat) where
  start : SE.SCEV W
  steps : List (SE.SCEV W)

/-- The values of the elements. -/
def ScalarEvolution.SCEVAddRecExpr.values {SE : ScalarEvolution} {W : Nat}
    (env : SE.Environment) (AddRec : SE.SCEVAddRecExpr W) : List (BitVec W) :=
  (AddRec.start :: AddRec.steps).map (SE.eval env)

end LlvmProject

namespace LlvmProject

/-!
## The value of a chain of recurrences at an iteration

The closed form of a chain multiplies each element by a binomial coefficient.
The coefficient is a falling factorial divided by a factorial.  The power of
two in the factorial is removed by a division at a width that is larger by as
many bits, the odd rest by its inverse.

The factors of the factorial are registers of the result's width.  A factor
from `2^W` on loses its upper bits there, and the factor `2^W` itself is lost
as a whole: the odd rest becomes zero, has no inverse, and the coefficient is
zero.  So the elements from that index on do not count.
-/

open APInt ChainOfRecurrences Nat List

namespace ScalarEvolution

/-! ## The factorial -/

/-- One factor: its odd part is multiplied, its factors of two are counted. -/
def oddFactorialStep {W : Nat} (state : BitVec W × Nat) (i : Nat) : BitVec W × Nat :=
  let Mult := BitVec.ofNat W i
  let TwoFactors := countTrailingZeros Mult
  (state.1 * (Mult >>> TwoFactors), state.2 + TwoFactors)

/-- The loop for `K! / 2^T` and `T`.  The factors below three are one factor
of two. -/
def oddFactorial (W K : Nat) : BitVec W × Nat := (range' 3 (K - 2)).foldl oddFactorialStep (1, 1)

/-- The first factor that its register loses as a whole. -/
def lostFactor (W : Nat) : Nat := max 4 (2 ^ W)

section Factorial

variable {W i K : Nat}

theorem oddFactorial_succ (large : 2 <= K) :
    oddFactorial W (K + 1) = oddFactorialStep (oddFactorial W K) (K + 1) := by
  have count : K + 1 - 2 = (K - 2) + 1 := by omega
  have last : 3 + (K - 2) = K + 1 := by omega
  rw [oddFactorial, count, range'_1_concat, foldl_concat, last, oddFactorial]

theorem split_factor (pos : 0 < i) (fits : i % 2 = 1 ∨ i < 2 ^ W) :
    ∃ odd, odd % 2 = 1 ∧ i = 2 ^ countTrailingZeros (BitVec.ofNat W i) * odd ∧
      BitVec.ofNat W i >>> countTrailingZeros (BitVec.ofNat W i) = BitVec.ofNat W odd := by
  by_cases odd : i % 2 = 1
  · have none : countTrailingZeros (BitVec.ofNat W i) = 0 := by
      cases W with
      | zero => rfl
      | succ W =>
        refine TrailingZeros.trailingZeros_of_odd ?_
        rw [BitVec.toNat_ofNat, Nat.mod_mod_of_dvd i (Nat.pow_dvd_pow 2 (Nat.succ_pos W))]
        exact odd
    exact ⟨i, odd, by rw [none, pow_zero, one_mul], by rw [none, BitVec.ushiftRight_zero]⟩
  · have below := fits.resolve_left odd
    have register : (BitVec.ofNat W i).toNat = i := mod_eq_of_lt below
    have nonzero : BitVec.ofNat W i ≠ 0 := by
      intro zero
      rw [zero] at register
      exact absurd register.symm (ne_of_gt pos)
    refine ⟨_, odd_lshr_countTrailingZeros nonzero, ?_, ?_⟩
    · have prod := toNat_lshr_countTrailingZeros (d := BitVec.ofNat W i)
      rw [register, mul_comm] at prod
      exact prod.symm
    · rw [BitVec.ofNat_toNat, BitVec.setWidth_eq]

theorem oddFactorial_spec (large : 2 <= K) (below : K < lostFactor W) :
    ∃ odd, odd % 2 = 1 ∧ K.factorial = 2 ^ (oddFactorial W K).2 * odd ∧
      (oddFactorial W K).1 = BitVec.ofNat W odd := by
  induction K, large using le_induction with
  | base => exact ⟨1, rfl, rfl, rfl⟩
  | succ K large ih =>
    rcases ih (lt_of_succ_lt below) with ⟨rest, restOdd, prod, register⟩
    have fits : (K + 1) % 2 = 1 ∨ K + 1 < 2 ^ W := by
      rw [lostFactor] at below
      omega
    rcases split_factor (i := K + 1) (by omega) fits with ⟨odd, isOdd, factor, shifted⟩
    rw [oddFactorial_succ large, oddFactorialStep]
    refine ⟨rest * odd, ?_, ?_, ?_⟩
    · rw [mul_mod, restOdd, isOdd]
    · rw [factorial_succ, prod, pow_add]
      nth_rewrite 1 [factor]
      ring
    · rw [shifted, register, <- BitVec.ofNat_mul]

theorem pow_dvd_lostFactor (W : Nat) : 2 ^ W ∣ lostFactor W := by
  by_cases narrow : W <= 2
  · have bound : 2 ^ W <= 4 := Nat.pow_le_pow_right (by decide) narrow
    rw [lostFactor, max_eq_left bound]
    exact Nat.pow_dvd_pow 2 narrow
  · have bound : 4 <= 2 ^ W := Nat.pow_le_pow_right two_pos (by omega : 2 <= W)
    rw [lostFactor, max_eq_right bound]

theorem four_le_lostFactor (W : Nat) : 4 <= lostFactor W := le_max_left 4 (2 ^ W)

theorem oddFactorial_lost (lost : lostFactor W <= K) : (oddFactorial W K).1 = 0 := by
  induction K, lost using le_induction with
  | base =>
    have four := four_le_lostFactor W
    have step := oddFactorial_succ (W := W) (K := lostFactor W - 1) (by omega)
    have zero : BitVec.ofNat W (lostFactor W) = 0 := by
      apply BitVec.eq_of_toNat_eq
      rw [BitVec.toNat_ofNat, mod_eq_zero_of_dvd (pow_dvd_lostFactor W)]
      rfl
    rw [Nat.sub_add_cancel (by omega)] at step
    rw [step, oddFactorialStep, zero]
    exact (congrArg (_ * ·) BitVec.zero_ushiftRight).trans (mul_zero _)
  | succ K lost ih =>
    have four := four_le_lostFactor W
    rw [oddFactorial_succ (by omega), oddFactorialStep, ih]
    exact zero_mul _

theorem twoFactors_bounds (K : Nat) :
    1 <= (oddFactorial W K).2 ∧ (oddFactorial W K).2 <= 1 + W * K := by
  induction K with
  | zero => exact ⟨le_refl 1, le_add_right 1 _⟩
  | succ K ih =>
    by_cases large : 2 <= K
    · have step := TrailingZeros.trailingZeros_le W (BitVec.ofNat W (K + 1)).toNat
      rw [oddFactorial_succ large, oddFactorialStep, countTrailingZeros, mul_succ]
      omega
    · rw [oddFactorial, (by omega : K + 1 - 2 = 0)]
      exact ⟨le_refl 1, le_add_right 1 _⟩

end Factorial

/-! ## The coefficient -/

variable (SE : ScalarEvolution)

/-- The loop for the product of `K` falling factors. -/
def fallingProduct {V : Nat} (It : SE.SCEV V) (K CalculationBits : Nat) :
    SE.SCEV CalculationBits :=
  (range' 1 (K - 1)).foldl
    (fun Dividend i =>
      let S := SE.getMinusSCEV It (SE.getConstant (BitVec.ofNat V i))
      SE.getMulExpr Dividend (SE.getTruncateOrZeroExtend S CalculationBits))
    (SE.getTruncateOrZeroExtend It CalculationBits)

/-- Compute BC(It, K).  The result has width `W`.  Assume, K > 0. -/
def BinomialCoefficient {V : Nat} (It : SE.SCEV V) (K W : Nat) :
    Except String (Option (SE.SCEV W)) :=
  if K = 1 then .ok (some (SE.getTruncateOrZeroExtend It W))
  -- Protection from insane SCEVs.
  else if K > 1000 then .ok none
  else do
    let (OddFactorial, T) := oddFactorial W K
    let CalculationBits := W + T
    let DivFactor := BitVec.twoPow CalculationBits T
    let Mod := BitVec.intMin (W + 1)
    let MultiplyFactor <- multiplicativeInverse (OddFactorial.setWidth (W + 1)) Mod
    IntegerType.get CalculationBits
    let Dividend := SE.fallingProduct It K CalculationBits
    let DivResult := SE.getUDivExpr Dividend (SE.getConstant DivFactor)
    return some (SE.getMulExpr (SE.getConstant (MultiplyFactor.setWidth W))
      (SE.getTruncateOrZeroExtend DivResult W))

/-- The loop of `evaluateAtIteration` from the operand at index `i` on.  No
expression means that the value could not be computed. -/
def addTerms {V W : Nat} (It : SE.SCEV V) :
    Nat -> SE.SCEV W -> List (SE.SCEV W) -> Except String (Option (SE.SCEV W))
  | _, Result, [] => .ok (some Result)
  | i, Result, operand :: rest => do
    match <- SE.BinomialCoefficient It i W with
    | none => return none
    | some Coeff => addTerms It (i + 1) (SE.getAddExpr Result (SE.getMulExpr operand Coeff)) rest

/-- Return the value of this chain of recurrences at the specified iteration
number. -/
def SCEVAddRecExpr.evaluateAtIteration {SE : ScalarEvolution} {V W : Nat}
    (AddRec : SE.SCEVAddRecExpr W) (It : SE.SCEV V) : Except String (Option (SE.SCEV W)) :=
  SE.addTerms It 1 AddRec.start AddRec.steps

/-- The calculation of the coefficient has a type. -/
def HasCalculationType (W K : Nat) : Prop :=
  K <= 1 ∨ ¬ 2 ^ (IntegerType.MAX_INT_BITS + 1 - W) ∣ K.factorial

section Coefficient

variable {SE} {V W K : Nat} (env : SE.Environment) (It : SE.SCEV V)

/-- A subtraction that wraps follows a factor that is zero. -/
theorem eval_fallingProduct (pos : 0 < K) (CalculationBits : Nat) :
    SE.eval env (SE.fallingProduct It K CalculationBits) =
      BitVec.ofNat CalculationBits ((SE.eval env It).toNat.descFactorial K) := by
  induction K, pos using le_induction with
  | base =>
    rw [descFactorial_one, BitVec.ofNat_toNat]
    exact SE.eval_getTruncateOrZeroExtend env It
  | succ K pos ih =>
    have count : K + 1 - 1 = (K - 1) + 1 := by omega
    have last : 1 + (K - 1) = K := by omega
    rw [fallingProduct, count, range'_1_concat, foldl_concat, last, <- fallingProduct,
      SE.eval_getMulExpr, ih, SE.eval_getTruncateOrZeroExtend,
      SE.eval_getMinusSCEV, SE.eval_getConstant, descFactorial_succ]
    by_cases within : K <= (SE.eval env It).toNat
    · have register : (BitVec.ofNat V K).toNat = K :=
        mod_eq_of_lt (lt_of_le_of_lt within (SE.eval env It).isLt)
      have difference : (SE.eval env It - BitVec.ofNat V K).toNat = (SE.eval env It).toNat - K := by
        rw [BitVec.toNat_sub_of_le (BitVec.le_def.mpr (register.symm ▸ within)), register]
      rw [<- BitVec.ofNat_toNat, difference, <- BitVec.ofNat_mul, mul_comm]
    · rw [descFactorial_eq_zero_iff_lt.mpr (Nat.lt_of_not_le within), mul_zero]
      exact zero_mul _

theorem twoPow_ne_zero {bits i : Nat} (within : i < bits) : BitVec.twoPow bits i ≠ 0 := by
  intro zero
  have value := congrArg BitVec.toNat zero
  rw [BitVec.toNat_twoPow_of_lt within] at value
  exact absurd value (ne_of_gt (Nat.two_pow_pos i))

/-- The division at the larger width. -/
theorem setWidth_ofNat_udiv_twoPow (W T x : Nat) :
    (BitVec.ofNat (W + T) x / BitVec.twoPow (W + T) T).setWidth W = BitVec.ofNat W (x / 2 ^ T) := by
  cases W with
  | zero => exact Subsingleton.elim _ _
  | succ W =>
    have power : (BitVec.twoPow (W + 1 + T) T).toNat = 2 ^ T := by
      rw [BitVec.toNat_twoPow]
      exact mod_eq_of_lt (Nat.pow_lt_pow_right (by decide) (by omega))
    apply BitVec.eq_of_toNat_eq
    rw [BitVec.toNat_setWidth, BitVec.toNat_udiv, power, BitVec.toNat_ofNat, BitVec.toNat_ofNat,
      add_comm (W + 1) T, pow_add, mod_mul_right_div_self, mod_mod]

theorem exact_division {n odd T : Nat} {inverse : BitVec (W + 1)} (prod : K.factorial = 2 ^ T *
    odd) (unit : inverse.setWidth W * ((BitVec.ofNat W odd).setWidth (W + 1)).setWidth W = 1) :
    inverse.setWidth W * BitVec.ofNat W (n.descFactorial K / 2 ^ T) =
      BitVec.ofNat W (n.choose K) := by
  have quot : n.descFactorial K / 2 ^ T = odd * n.choose K := by
    rw [descFactorial_eq_factorial_mul_choose, prod, mul_assoc,
      Nat.mul_div_cancel_left _ (Nat.two_pow_pos T)]
  rw [BitVec.setWidth_setWidth_of_le _ (Nat.le_succ W), BitVec.setWidth_eq] at unit
  rw [quot, BitVec.ofNat_mul, <- BitVec.mul_assoc, unit]
  exact one_mul _

theorem setWidth_intMin (W : Nat) : (BitVec.intMin (W + 1)).setWidth W = 0 := by
  apply BitVec.eq_of_toNat_eq
  rw [BitVec.toNat_setWidth, BitVec.toNat_intMin, Nat.add_sub_cancel,
    mod_eq_of_lt (Nat.pow_lt_pow_succ (by decide)), mod_self]
  rfl

theorem setWidth_lt_intMin (x : BitVec W) : x.setWidth (W + 1) < BitVec.intMin (W + 1) := by
  apply BitVec.lt_def.mpr
  rw [BitVec.toNat_setWidth_of_le (Nat.le_succ W), BitVec.toNat_intMin, Nat.add_sub_cancel,
    mod_eq_of_lt (Nat.pow_lt_pow_succ (by decide))]
  exact x.isLt

/-- The inverse of the odd part of a factorial exists. -/
theorem multiplicativeInverse_odd {odd : Nat} (isOdd : odd % 2 = 1) :
    ∃ inverse, multiplicativeInverse ((BitVec.ofNat W odd).setWidth (W + 1))
        (BitVec.intMin (W + 1)) = .ok inverse ∧
      inverse.setWidth W * ((BitVec.ofNat W odd).setWidth (W + 1)).setWidth W = 1 := by
  cases W with
  | zero =>
    refine ⟨0, ?_, Subsingleton.elim _ _⟩
    rw [BitVec.eq_nil (BitVec.ofNat 0 odd)]
    exact multiplicativeInverse_zero (by decide)
  | succ W =>
    refine multiplicativeInverse_spec (by omega) (Nat.le_succ _) (setWidth_lt_intMin _)
      (setWidth_intMin _) ?_
    have stillOdd : odd % 2 ^ (W + 1) % 2 = 1 := by
      rw [Nat.mod_mod_of_dvd odd (Nat.pow_dvd_pow 2 (Nat.succ_pos W))]
      exact isOdd
    rw [BitVec.toNat_intMin, Nat.add_sub_cancel,
      mod_eq_of_lt (Nat.pow_lt_pow_succ (by decide)),
      BitVec.toNat_setWidth_of_le (Nat.le_succ _), BitVec.toNat_ofNat]
    exact Coprime.pow_left _ (coprime_two_left.mpr (odd_iff.mpr stillOdd))

/-- What the coefficient is: zero from the lost factor on. -/
def coefficient (W n K : Nat) : BitVec W :=
  if K < lostFactor W then BitVec.ofNat W (n.choose K) else 0

/-- The multiplier and the power of two, whether the factorial is exact or
lost. -/
theorem exists_multiplyFactor (n : Nat) (large : 2 <= K) :
    ∃ inverse, multiplicativeInverse ((oddFactorial W K).1.setWidth (W + 1))
        (BitVec.intMin (W + 1)) = .ok inverse ∧
      inverse.setWidth W * BitVec.ofNat W (n.descFactorial K / 2 ^ (oddFactorial W K).2) =
        coefficient W n K := by
  by_cases below : K < lostFactor W
  · rcases oddFactorial_spec large below with ⟨odd, isOdd, prod, register⟩
    rcases multiplicativeInverse_odd (W := W) isOdd with ⟨inverse, computed, unit⟩
    refine ⟨inverse, register ▸ computed, ?_⟩
    rw [coefficient, if_pos below]
    exact exact_division prod unit
  · have zero := oddFactorial_lost (Nat.le_of_not_lt below)
    refine ⟨0, ?_, ?_⟩
    · rw [zero, BitVec.ofNat_eq_ofNat, BitVec.setWidth_zero]
      have pos := setWidth_lt_intMin (0 : BitVec W)
      rw [BitVec.ofNat_eq_ofNat, BitVec.setWidth_zero] at pos
      exact multiplicativeInverse_zero pos
    · rw [coefficient, if_neg below, BitVec.ofNat_eq_ofNat, BitVec.setWidth_zero]
      exact zero_mul _

theorem factorial_lt_two_pow (bounded : K <= 1000) : K.factorial < 2 ^ (10 * K + 1) := by
  calc K.factorial <= K ^ K := factorial_le_pow K
    _ <= (2 ^ 10) ^ K := Nat.pow_le_pow_left (by omega) K
    _ = 2 ^ (10 * K) := (pow_mul ..).symm
    _ < 2 ^ (10 * K + 1) := Nat.pow_lt_pow_succ (by decide)

theorem hasCalculationType_iff (large : 2 <= K) (bounded : K <= 1000) :
    HasCalculationType W K ↔ W + (oddFactorial W K).2 <= IntegerType.MAX_INT_BITS := by
  have limit : IntegerType.MAX_INT_BITS = 8388607 := rfl
  rw [HasCalculationType, or_iff_right (by omega)]
  by_cases below : K < lostFactor W
  · rcases oddFactorial_spec large below with ⟨odd, isOdd, prod, register⟩
    have coprime : Coprime (2 ^ (IntegerType.MAX_INT_BITS + 1 - W)) odd :=
      Coprime.pow_left _ (coprime_two_left.mpr (odd_iff.mpr isOdd))
    rw [prod, coprime.dvd_mul_right, pow_dvd_pow_iff_le_right (by decide)]
    omega
  · have narrow : W < 10 := by
      have power : 2 ^ W < 2 ^ 10 := by
        have := le_max_right 4 (2 ^ W)
        rw [lostFactor] at below
        omega
      exact (Nat.pow_lt_pow_iff_right (by decide)).mp power
    have factors := (twoFactors_bounds (W := W) K).2
    have prod : W * K <= 9 * 1000 := Nat.mul_le_mul (by omega) bounded
    have small := factorial_lt_two_pow bounded
    refine ⟨fun _ => by omega, fun _ divides => ?_⟩
    have power := Nat.le_of_dvd (factorial_pos K) divides
    have exponents := (Nat.pow_lt_pow_iff_right (by decide)).mp (lt_of_le_of_lt power small)
    omega

theorem BinomialCoefficient_eq (large : 2 <= K) (bounded : K <= 1000) {inverse : BitVec (W + 1)}
    (computed : multiplicativeInverse ((oddFactorial W K).1.setWidth (W + 1)) (BitVec.intMin (W +
    1)) = .ok inverse) :
    SE.BinomialCoefficient It K W =
      (IntegerType.get (W + (oddFactorial W K).2)).bind fun _ =>
        .ok (some (SE.getMulExpr (SE.getConstant (inverse.setWidth W))
          (SE.getTruncateOrZeroExtend
            (SE.getUDivExpr (SE.fallingProduct It K (W + (oddFactorial W K).2))
              (SE.getConstant (BitVec.twoPow (W + (oddFactorial W K).2) (oddFactorial W K).2))) W))) := by
  rw [BinomialCoefficient, if_neg (by omega), if_neg (by omega)]
  exact congrArg (Except.bind · _) computed

theorem BinomialCoefficient_ok (pos : 0 < K) (bounded : K <= 1000)
    (hasType : HasCalculationType W K) :
    ∃ Coeff, SE.BinomialCoefficient It K W = .ok (some Coeff) ∧
      SE.eval env Coeff = coefficient W (SE.eval env It).toNat K := by
  by_cases one : K = 1
  · refine ⟨_, if_pos one, ?_⟩
    rw [SE.eval_getTruncateOrZeroExtend, coefficient, one,
      if_pos (lt_of_lt_of_le (by decide) (four_le_lostFactor W)), choose_one_right,
      BitVec.ofNat_toNat]
  · have large : 2 <= K := by omega
    rcases exists_multiplyFactor (W := W) (SE.eval env It).toNat large with
      ⟨inverse, computed, exact⟩
    have fits := (hasCalculationType_iff large bounded).mp hasType
    have factors := (twoFactors_bounds (W := W) K).1
    rw [BinomialCoefficient_eq It large bounded computed, IntegerType.get_ok (by omega) fits]
    refine ⟨_, rfl, ?_⟩
    cases W with
    | zero => exact Subsingleton.elim _ _
    | succ W =>
      rw [SE.eval_getMulExpr, SE.eval_getConstant, SE.eval_getTruncateOrZeroExtend,
        SE.eval_getUDivExpr, SE.eval_getConstant, eval_fallingProduct env It pos,
        setWidth_ofNat_udiv_twoPow, exact]
      rw [SE.eval_getConstant]
      exact twoPow_ne_zero (by omega)

theorem BinomialCoefficient_error (large : 2 <= K) (bounded : K <= 1000)
    (noType : ¬ HasCalculationType W K) :
    SE.BinomialCoefficient It K W = .error "bitwidth too large" := by
  rcases exists_multiplyFactor (W := W) 0 large with ⟨inverse, computed, -⟩
  have excess := mt (hasCalculationType_iff large bounded).mpr noType
  rw [BinomialCoefficient_eq It large bounded computed,
    IntegerType.get_error (by omega) (Nat.lt_of_not_le excess)]
  rfl

theorem HasCalculationType.mono {K K' : Nat} (hasType : HasCalculationType W K') (le : K <= K') :
    HasCalculationType W K := by
  rcases hasType with small | fits
  · exact .inl (le.trans small)
  · exact .inr fun divides => fits (divides.trans (factorial_dvd_factorial le))

/-! ## The sum -/

/-- The sum, if the last coefficient has a type: the elements below the lost
factor, weighted by their binomial coefficients. -/
theorem addTerms_ok (rest : List (SE.SCEV W)) {i : Nat} (pos : 0 < i) (bounded : i + rest.length <=
    1001) (hasType : HasCalculationType W (i + rest.length - 1)) (Result : SE.SCEV W) :
    ∃ sum, SE.addTerms It i Result rest = .ok (some sum) ∧
      SE.eval env sum = SE.eval env Result +
        binomialSum (SE.eval env It).toNat i
          ((rest.map (SE.eval env)).take (lostFactor W - i)) := by
  induction rest generalizing i Result with
  | nil => exact ⟨Result, rfl, by rw [map_nil, take_nil, binomialSum, add_zero]⟩
  | cons operand rest ih =>
    rw [length_cons] at bounded hasType
    rcases BinomialCoefficient_ok env It pos (by omega)
      (hasType.mono (by omega)) with ⟨Coeff, computed, value⟩
    rcases ih (i := i + 1) (by omega) (by omega)
      (hasType.mono (by omega)) (SE.getAddExpr Result (SE.getMulExpr operand Coeff)) with
      ⟨sum, rest_computed, sum_value⟩
    refine ⟨sum, ?_, ?_⟩
    · rw [addTerms, computed]
      exact rest_computed
    · rw [sum_value, SE.eval_getAddExpr, SE.eval_getMulExpr, value, coefficient, map_cons]
      by_cases below : i < lostFactor W
      · have count : lostFactor W - i = lostFactor W - (i + 1) + 1 := by omega
        rw [if_pos below, count, take_succ_cons, binomialSum, add_assoc, nsmul_eq_mul,
          BitVec.natCast_eq_ofNat, mul_comm]
      · have none : lostFactor W - i = 0 := by omega
        have noneAfter : lostFactor W - (i + 1) = 0 := by omega
        rw [if_neg below, none, noneAfter, take_zero, take_zero, binomialSum,
          binomialSum, add_zero, mul_zero, add_zero]

theorem addTerms_error (someEnvironment : SE.Environment) (rest : List (SE.SCEV W))
    {i : Nat} (pos : 0 < i) (bounded : i + rest.length <= 1001) (noType : ¬ HasCalculationType
    W (i + rest.length - 1)) (hasType : HasCalculationType W (i - 1)) (Result : SE.SCEV W) :
    SE.addTerms It i Result rest = .error "bitwidth too large" := by
  induction rest generalizing i Result with
  | nil => exact absurd hasType noType
  | cons operand rest ih =>
    rw [length_cons] at bounded noType
    rw [addTerms]
    by_cases here : HasCalculationType W i
    · rcases BinomialCoefficient_ok someEnvironment It pos (by omega) here with
        ⟨Coeff, computed, -⟩
      rw [computed]
      have count : i + (rest.length + 1) - 1 = i + 1 + rest.length - 1 := by omega
      exact ih (i := i + 1) (by omega) (by omega) (count ▸ noType) here _
    · have large : 2 <= i := by
        by_contra small
        exact here (.inl (by omega))
      rw [BinomialCoefficient_error It large (by omega) here]
      rfl

end Coefficient

/-- The expression for an iteration exists if the calculation of the last
coefficient has a type.  It has the value of the recurrence exactly if the
elements from the lost factor on add nothing to that value. -/
theorem SCEVAddRecExpr.evaluateAtIteration_exact_iff {SE : ScalarEvolution} {V W : Nat}
    (env : SE.Environment) (AddRec : SE.SCEVAddRecExpr W) (It : SE.SCEV V)
    (bounded : AddRec.steps.length <= 1000) :
    (∃ result, AddRec.evaluateAtIteration It = .ok (some result) ∧
        SE.eval env result = value (SE.eval env It).toNat (AddRec.values env)) ↔
      HasCalculationType W AddRec.steps.length ∧
        binomialSum (SE.eval env It).toNat (lostFactor W)
          ((AddRec.values env).drop (lostFactor W)) = 0 := by
  by_cases hasType : HasCalculationType W AddRec.steps.length
  · have last : 1 + AddRec.steps.length - 1 = AddRec.steps.length := by omega
    rcases addTerms_ok env It AddRec.steps Nat.one_pos (by omega)
      (last.symm ▸ hasType) AddRec.start with ⟨sum, computed, sumValue⟩
    have counted : SE.eval env sum = binomialSum (SE.eval env It).toNat 0
        ((AddRec.values env).take (lostFactor W)) := by
      have four := four_le_lostFactor W
      have count : lostFactor W = lostFactor W - 1 + 1 := by omega
      rw [sumValue, count, values, map_cons, take_succ_cons, binomialSum,
        Nat.choose_zero_right, one_nsmul, Nat.add_sub_cancel]
    have split := binomialSum_take_add_drop (SE.eval env It).toNat 0 (lostFactor W)
      (AddRec.values env)
    rw [zero_add] at split
    rw [and_iff_right hasType, value_eq_binomialSum, <- split]
    constructor
    · rintro ⟨result, returned, exact⟩
      have same : sum = result := Option.some.inj (Except.ok.inj (computed.symm.trans returned))
      rw [<- same, counted] at exact
      exact left_eq_add.mp exact
    · intro nothing
      exact ⟨sum, computed, by rw [nothing, add_zero, counted]⟩
  · refine iff_of_false ?_ fun both => hasType both.1
    rintro ⟨result, returned, -⟩
    have last : 1 + AddRec.steps.length - 1 = AddRec.steps.length := by omega
    have failed := addTerms_error It env AddRec.steps Nat.one_pos (by omega)
      (last.symm ▸ hasType) (Or.inl (zero_le 1)) AddRec.start
    cases failed.symm.trans returned

/-- The chain `{5,+,3,+,2}` over eight bits. -/
def quadraticChain : constantFolding.SCEVAddRecExpr 8 := ⟨5#8, [3#8, 2#8]⟩

theorem SCEVAddRecExpr.evaluateAtIteration_exact_iff_quadratic :
    ∃ result, quadraticChain.evaluateAtIteration (7#16 : BitVec 16) = .ok (some result) ∧
      constantFolding.eval () result = value 7 (quadraticChain.values ()) := by
  refine (evaluateAtIteration_exact_iff () quadraticChain (7#16 : BitVec 16) (by decide)).mpr ?_
  refine ⟨.inr fun divides => ?_, rfl⟩
  have power : 2 ^ (IntegerType.MAX_INT_BITS + 1 - 8) <= 2 ^ 1 := Nat.le_of_dvd (by decide) divides
  exact absurd ((Nat.pow_le_pow_iff_right (by decide)).mp power) (by decide)

/-- The chain `{0,+,0,+,0,+,0,+,1}` over one bit. -/
def lostChain : constantFolding.SCEVAddRecExpr 1 := ⟨0#1, [0#1, 0#1, 0#1, 1#1]⟩

/-- After four steps the chain has the value one.  The register of the fourth
factor loses it, and the expression has the value zero. -/
theorem SCEVAddRecExpr.evaluateAtIteration_lost :
    ¬ ∃ result, lostChain.evaluateAtIteration (4#8 : BitVec 8) = .ok (some result) ∧
      constantFolding.eval () result = value 4 (lostChain.values ()) := by
  rintro ⟨result, returned, exact⟩
  have zero : (lostChain.evaluateAtIteration (4#8 : BitVec 8)).toOption =
      some (some (constantFolding.getConstant 0#1)) := by
    decide +kernel
  rw [returned] at zero
  have same := Option.some.inj (Option.some.inj zero)
  rw [same] at exact
  exact absurd exact (by decide)

end ScalarEvolution
end LlvmProject
