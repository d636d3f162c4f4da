import LlvmProject.Library.BinaryRounding
import LlvmProject.Support.ScaledNumber
import Mathlib.Data.Rat.Floor

namespace LlvmProject

open BitVec hiding add_mul add_sub_cancel cast_ofNat mul_add mul_succ mul_zero zero_mul
open Nat

namespace ScaledNumbers

open BinaryRounding

/-!
# Products and quotients of scaled numbers are rounded correctly

Each function computes a quotient with remainder whose quotient fills the digits, and rounds up
if the remainder is at least half of the divisor.  For a product the divisor is the power of two
by which it is shifted.  The long division keeps its partial quotient and the rest of the
dividend as such a quotient with remainder, of a number that doubles in each round.
-/

variable {W : Nat}

/-! ## Digits -/

section Digits

variable {x : BitVec W}

theorem pos_of_ne_zero (nonzero : x ≠ 0#W) : 0 < x.toNat :=
  Nat.pos_of_ne_zero fun zero => nonzero (eq_of_toNat_eq zero)

theorem size_le_width (x : BitVec W) : x.toNat.size <= W := size_le.mpr x.isLt

theorem two_pow_size_le (nonzero : x ≠ 0#W) : 2 ^ (x.toNat.size - 1) <= x.toNat := by
  have pos := Nat.size_pos.mpr (pos_of_ne_zero nonzero)
  exact lt_size.mp (sub_lt pos one_pos)

/-- A value without its lowest digits, so that all digits of the width are in use. -/
theorem two_pow_le_div (nonzero : x ≠ 0#W) {k V : Nat} (size : x.toNat.size = V + k)
    (wide : 0 < V) : 2 ^ (V - 1) <= x.toNat / 2 ^ k ∧ x.toNat / 2 ^ k < 2 ^ V := by
  constructor
  · rw [Nat.le_div_iff_mul_le (Nat.two_pow_pos k), <- pow_add]
    have exponent : V - 1 + k = x.toNat.size - 1 := by omega
    rw [exponent]
    exact two_pow_size_le nonzero
  · rw [Nat.div_lt_iff_lt_mul (Nat.two_pow_pos k), <- pow_add, <- size]
    exact lt_size_self _

/-- The digit at a position is set if what lies below it is at least half of what can. -/
theorem and_shiftLeft_ne_zero_iff {k : Nat} (within : k < W) :
    x &&& (1#W <<< k) ≠ 0#W ↔ 2 ^ k <= x.toNat % 2 ^ (k + 1) := by
  have set : x &&& (1#W <<< k) ≠ 0#W ↔ x.toNat.testBit k = true := by
    rw [<- twoPow_eq, and_twoPow, testBit_toNat]
    cases bit : x.getLsbD k with
    | false => simp
    | true =>
      rw [if_pos rfl]
      refine iff_of_true (fun zero => ?_) rfl
      have value := congrArg BitVec.toNat zero
      rw [toNat_twoPow_of_lt within] at value
      exact absurd value (Nat.ne_of_gt (Nat.two_pow_pos k))
  rw [set, testBit_eq_decide_div_mod_eq, decide_eq_true_eq, mod_pow_succ]
  have below := mod_lt x.toNat (Nat.two_pow_pos k)
  rcases mod_two_eq_zero_or_one (x.toNat / 2 ^ k) with digit | digit
  · rw [digit, mul_zero]
    omega
  · rw [digit, mul_one]
    omega

end Digits

/-! ## Rounding up -/

section Rounded

variable {Digits : BitVec W} {Scale : Int} {ShouldRound : Bool}

/-- Rounding up adds one to the digits, also if that carries out of them. -/
theorem getRounded_value (wide : 0 < W) :
    ((getRounded Digits Scale ShouldRound).1.toNat : ℚ) *
        2 ^ (getRounded Digits Scale ShouldRound).2 =
      (Digits.toNat + if ShouldRound then 1 else 0 : Nat) * 2 ^ Scale := by
  cases ShouldRound with
  | false => rfl
  | true =>
    rw [getRounded, if_pos rfl, if_pos rfl]
    have one : (1#W).toNat = 1 := toNat_one wide
    have sum : (Digits + 1#W).toNat = (Digits.toNat + 1) % 2 ^ W := by
      rw [BitVec.toNat_add, one]
    by_cases overflow : Digits + 1#W = 0#W
    · have full : Digits.toNat + 1 = 2 ^ W := by
        rw [overflow, toNat_zero] at sum
        have bound := Digits.isLt
        exact le_antisymm bound (le_of_dvd (succ_pos _)
          (dvd_of_mod_eq_zero sum.symm))
      have power : (1#W <<< (W - 1)).toNat = 2 ^ (W - 1) := by
        rw [<- twoPow_eq, toNat_twoPow_of_lt (sub_lt wide one_pos)]
      rw [if_pos overflow, full, power, zpow_add_one₀ two_ne_zero]
      have halves : 2 ^ W = 2 ^ (W - 1) * 2 := by
        rw [<- Nat.pow_succ, succ_eq_add_one, sub_one_add_one (Nat.ne_of_gt wide)]
      rw [halves, cast_mul]
      push_cast
      ring
    · have small : Digits.toNat + 1 < 2 ^ W := by
        refine lt_of_le_of_ne Digits.isLt fun full => overflow (eq_of_toNat_eq ?_)
        rw [sum, toNat_zero]
        exact (congrArg (· % 2 ^ W) full).trans (mod_self _)
      rw [if_neg overflow, sum, mod_eq_of_lt small]

theorem getRounded_full (wide : 0 < W) (full : 2 ^ (W - 1) <= Digits.toNat) :
    2 ^ (W - 1) <= (getRounded Digits Scale ShouldRound).1.toNat := by
  cases ShouldRound with
  | false => exact full
  | true =>
    rw [getRounded, if_pos rfl]
    by_cases overflow : Digits + 1#W = 0#W
    · rw [if_pos overflow, <- twoPow_eq, toNat_twoPow_of_lt (sub_lt wide one_pos)]
    · rw [if_neg overflow, BitVec.toNat_add, toNat_one wide]
      refine le_trans full ?_
      refine le_trans (le_succ _) (le_of_eq (mod_eq_of_lt ?_).symm)
      refine lt_of_le_of_ne Digits.isLt fun top => overflow (eq_of_toNat_eq ?_)
      rw [BitVec.toNat_add, toNat_one wide, toNat_zero]
      exact (congrArg (· % 2 ^ W) top).trans (mod_self _)

theorem getRounded_scale (Digits : BitVec W) (Scale : Int) (ShouldRound : Bool) :
    Scale <= (getRounded Digits Scale ShouldRound).2 ∧
      (getRounded Digits Scale ShouldRound).2 <= Scale + 1 := by
  rw [getRounded]
  split
  · dsimp only
    split
    · exact ⟨Int.le_add_of_nonneg_right (by decide), le_rfl⟩
    · exact ⟨le_rfl, Int.le_add_of_nonneg_right (by decide)⟩
  · exact ⟨le_rfl, Int.le_add_of_nonneg_right (by decide)⟩

/-- The digits of a quotient that fills the width, rounded by its remainder. -/
theorem getRounded_correct (wide : 0 < W) {N d : Nat} {value : ℚ} (pos : 0 < d)
    (isValue : N / d * 2 ^ Scale = value) (digits : Digits.toNat = N / d)
    (full : 2 ^ (W - 1) <= Digits.toNat) (half : ShouldRound = true ↔ d <= 2 * (N % d)) :
    CorrectlyRounded W value (getRounded Digits Scale ShouldRound).1.toNat
      (getRounded Digits Scale ShouldRound).2 := by
  refine CorrectlyRounded.of_division pos isValue (digits ▸ full) (digits ▸ Digits.isLt)
    (getRounded_full wide full) ?_
  rw [getRounded_value wide, roundedQuotient, digits]
  simp only [half]

end Rounded

/-! ## Adjusting to fewer digits -/

theorem getAdjusted_of_lt {Digits : BitVec 64} {Scale : Int} (narrow : W <= 64)
    (fits : Digits.toNat < 2 ^ W) :
    getAdjusted W Digits Scale = (Digits.setWidth W, Scale) := by
  have power : 2 ^ W <= 2 ^ 64 := Nat.pow_le_pow_right two_pos narrow
  have mask : (2 ^ W - 1) % 2 ^ 64 = 2 ^ W - 1 :=
    mod_eq_of_lt (lt_of_lt_of_le (sub_lt (Nat.two_pow_pos W) one_pos) power)
  refine if_pos (.inr ?_)
  rw [le_def, toNat_setWidth, toNat_allOnes, mask]
  exact le_sub_one_of_lt fits

/-- If the quotient itself is cut off, its highest digit that is lost decides, whatever remains of
the division. -/
theorem half_iff {N d k : Nat} (pos : 0 < d) :
    d * 2 ^ (k + 1) <= 2 * (N % (d * 2 ^ (k + 1))) ↔ 2 ^ k <= N / d % 2 ^ (k + 1) := by
  rw [mod_mul]
  have rem := mod_lt N pos
  generalize N / d % 2 ^ (k + 1) = digits
  have double : d * 2 ^ (k + 1) = 2 * (d * 2 ^ k) := by rw [pow_succ]; ring
  rw [double, Nat.mul_le_mul_left_iff two_pos]
  constructor
  · intro enough
    by_contra few
    have most : d * (digits + 1) <= d * 2 ^ k := Nat.mul_le_mul_left d (Nat.lt_of_not_le few)
    rw [mul_succ] at most
    omega
  · intro enough
    exact le_trans (Nat.mul_le_mul_left d enough) (le_add_left _ _)

/-- The digits of a quotient that may be longer than the width. -/
theorem getAdjusted_correct (wide : 0 < W) {Digits : BitVec 64} {Scale : Int} {N d : Nat}
    {value : ℚ} (pos : 0 < d) (isValue : N / d * 2 ^ Scale = value)
    (digits : Digits.toNat = N / d) (long : 2 ^ W <= Digits.toNat) :
    CorrectlyRounded W value (getAdjusted W Digits Scale).1.toNat
      (getAdjusted W Digits Scale).2 := by
  have narrow : W < 64 := (Nat.pow_lt_pow_iff_right one_lt_two).mp
    (lt_of_le_of_lt long Digits.isLt)
  have nonzero : Digits ≠ 0#64 := by
    intro zero
    rw [zero] at long
    exact absurd long (Nat.not_le_of_lt (Nat.two_pow_pos W))
  have size : W < Digits.toNat.size := lt_size.mpr long
  have sizeLe := size_le_width Digits
  have tooLong : ¬ (W = 64 ∨ Digits <= (allOnes W).setWidth 64) := by
    rintro (same | le)
    · omega
    · rw [le_def, toNat_setWidth, toNat_allOnes] at le
      have small := mod_le (2 ^ W - 1) (2 ^ 64)
      have pow := Nat.two_pow_pos W
      omega
  rcases Nat.exists_eq_add_of_lt size with ⟨k, sizeIs⟩
  have shift : 64 - W - countLeadingZeros Digits = k + 1 := by
    rw [countLeadingZeros]
    omega
  rw [getAdjusted, if_neg tooLong, shift]
  have range := two_pow_le_div nonzero (V := W) (k := k + 1) (by omega) wide
  have shifted : ((Digits >>> (k + 1)).setWidth W).toNat = N / (d * 2 ^ (k + 1)) := by
    rw [toNat_setWidth, toNat_ushiftRight, shiftRight_eq_div_pow,
      mod_eq_of_lt range.2, digits, Nat.div_div_eq_div_mul]
  refine getRounded_correct wide (mul_pos pos (Nat.two_pow_pos (k + 1))) ?_ shifted ?_ ?_
  · rw [<- isValue, zpow_add₀ two_ne_zero, zpow_natCast, cast_mul, cast_pow]
    have divisor : (d : ℚ) ≠ 0 := cast_ne_zero.mpr (Nat.ne_of_gt pos)
    field_simp
    push_cast
    ring
  · rw [shifted, <- Nat.div_div_eq_div_mul, <- digits]
    exact range.1
  · rw [decide_eq_true_eq, half_iff pos, Nat.add_sub_cancel, <- digits]
    exact and_shiftLeft_ne_zero_iff (by omega)

/-! ## Scales -/

/-- The scale can be stored as one of a scaled number. -/
def ScaleFits (Scale : Int) : Prop := -32768 <= Scale ∧ Scale <= 32767

theorem getAdjusted_scale (Digits : BitVec 64) (Scale : Int) :
    Scale <= (getAdjusted W Digits Scale).2 ∧ (getAdjusted W Digits Scale).2 <= Scale + 65 := by
  rw [getAdjusted]
  split
  · exact ⟨le_rfl, by omega⟩
  · have rounded := getRounded_scale
      ((Digits >>> (64 - W - countLeadingZeros Digits)).setWidth W)
      (Scale + (64 - W - countLeadingZeros Digits : Nat))
      (Digits &&& (1#64 <<< (64 - W - countLeadingZeros Digits - 1)) ≠ 0#64)
    dsimp only
    omega

/-! ## Products -/

section Products

variable {LHS RHS N : BitVec 64} {s : BitVec 64 × BitVec 64}

theorem toNat_getU : (getU N).toNat = N.toNat / 2 ^ 32 := by
  rw [getU, toNat_ushiftRight, shiftRight_eq_div_pow]

theorem toNat_getL : (getL N).toNat = N.toNat % 2 ^ 32 := by
  rw [getL, toNat_and]
  exact and_two_pow_sub_one_eq_mod N.toNat 32

theorem halves (N : BitVec 64) : (getU N).toNat * 2 ^ 32 + (getL N).toNat = N.toNat := by
  rw [toNat_getU, toNat_getL]
  exact div_add_mod' N.toNat (2 ^ 32)

theorem getU_lt : (getU N).toNat < 2 ^ 32 := by
  have bound := N.isLt
  rw [toNat_getU]
  omega

theorem getL_lt : (getL N).toNat < 2 ^ 32 := by
  rw [toNat_getL]
  exact mod_lt _ (by decide)

/-- The value of two 64-bit digits, the upper one first. -/
def pairValue (s : BitVec 64 × BitVec 64) : Nat := s.1.toNat * 2 ^ 64 + s.2.toNat

theorem pairValue_addWithCarry (fits : pairValue s + N.toNat * 2 ^ 32 < 2 ^ 128) :
    pairValue (addWithCarry s N) = pairValue s + N.toNat * 2 ^ 32 := by
  have upper := s.1.isLt
  have lower := s.2.isLt
  have upperHalf := getU_lt (N := N)
  have lowerHalf := getL_lt (N := N)
  have moved : (getL N <<< 32).toNat = (getL N).toNat * 2 ^ 32 := by
    rw [toNat_shiftLeft, Nat.shiftLeft_eq, mod_eq_of_lt (by omega)]
  have newLower : (s.2 + (getL N <<< 32)).toNat =
      (s.2.toNat + (getL N).toNat * 2 ^ 32) % 2 ^ 64 := by
    rw [BitVec.toNat_add, moved]
  rw [<- halves N] at fits ⊢
  simp only [pairValue] at fits ⊢
  simp only [addWithCarry, lt_def, newLower]
  by_cases carry : 2 ^ 64 <= s.2.toNat + (getL N).toNat * 2 ^ 32
  · have wraps : (s.2.toNat + (getL N).toNat * 2 ^ 32) % 2 ^ 64 < s.2.toNat := by omega
    have newUpper : (s.1 + (getU N + 1#64)).toNat = s.1.toNat + ((getU N).toNat + 1) := by
      rw [BitVec.toNat_add, BitVec.toNat_add, toNat_ofNat]
      omega
    rw [if_pos wraps, newUpper]
    clear moved newLower newUpper
    omega
  · have stays : ¬ (s.2.toNat + (getL N).toNat * 2 ^ 32) % 2 ^ 64 < s.2.toNat := by omega
    have newUpper : (s.1 + (getU N + 0#64)).toNat = s.1.toNat + (getU N).toNat := by
      rw [BitVec.toNat_add, BitVec.add_zero]
      omega
    rw [if_neg stays, newUpper]
    clear moved newLower newUpper
    omega

theorem toNat_mul_of_lt {a b : BitVec 64} (left : a.toNat < 2 ^ 32) (right : b.toNat < 2 ^ 32) :
    (a * b).toNat = a.toNat * b.toNat := by
  rw [toNat_mul]
  refine mod_eq_of_lt (lt_of_lt_of_le (mul_lt_mul'' left right) (by decide))

/-- The four products of halves add up to the product. -/
theorem pairValue_crossProducts : pairValue (crossProducts LHS RHS) = LHS.toNat * RHS.toNat := by
  have bound : LHS.toNat * RHS.toNat < 2 ^ 128 :=
    lt_of_lt_of_le (mul_lt_mul'' LHS.isLt RHS.isLt) (by decide)
  have expand : (getU LHS).toNat * (getU RHS).toNat * 2 ^ 64 +
        (getL LHS).toNat * (getL RHS).toNat +
      (getU LHS).toNat * (getL RHS).toNat * 2 ^ 32 +
      (getL LHS).toNat * (getU RHS).toNat * 2 ^ 32 = LHS.toNat * RHS.toNat := by
    rw [<- halves LHS, <- halves RHS]
    ring
  have start : pairValue (getU LHS * getU RHS, getL LHS * getL RHS) =
      (getU LHS).toNat * (getU RHS).toNat * 2 ^ 64 + (getL LHS).toNat * (getL RHS).toNat := by
    rw [pairValue, toNat_mul_of_lt getU_lt getU_lt, toNat_mul_of_lt getL_lt getL_lt]
  have first := pairValue_addWithCarry (s := (getU LHS * getU RHS, getL LHS * getL RHS))
    (N := getU LHS * getL RHS)
  rw [start, toNat_mul_of_lt getU_lt getL_lt] at first
  have second := pairValue_addWithCarry
    (s := addWithCarry (getU LHS * getU RHS, getL LHS * getL RHS) (getU LHS * getL RHS))
    (N := getL LHS * getU RHS)
  rw [toNat_mul_of_lt getL_lt getU_lt, first (by omega)] at second
  exact (second (by omega)).trans expand

/-- The two digits without the lowest ones, if what is left fits into one digit. -/
theorem pairValue_div {k z : Nat} (size : s.1.toNat.size = k) (zeros : k + z = 64) :
    (if z ≠ 0 then (s.1 <<< z) ||| (s.2 >>> k) else s.1).toNat = pairValue s / 2 ^ k := by
  have lower := s.2.isLt
  have power : 2 ^ 64 = 2 ^ z * 2 ^ k := by rw [<- pow_add, add_comm, zeros]
  have quot : pairValue s / 2 ^ k = s.1.toNat * 2 ^ z + s.2.toNat / 2 ^ k := by
    rw [pairValue, power, <- mul_assoc, add_comm,
      add_mul_div_right _ _ (Nat.two_pow_pos k), add_comm]
  rw [quot]
  by_cases none : z = 0
  · rw [if_neg (not_not.mpr none), none, pow_zero, mul_one]
    have all : k = 64 := by omega
    rw [all, div_eq_of_lt lower, add_zero]
  · have upper : s.1.toNat * 2 ^ z < 2 ^ 64 := by
      rw [power, mul_comm (2 ^ z)]
      refine mul_lt_mul_of_pos_right ?_ (Nat.two_pow_pos z)
      rw [<- size]
      exact lt_size_self _
    have small : s.2.toNat / 2 ^ k < 2 ^ z := by
      rw [Nat.div_lt_iff_lt_mul (Nat.two_pow_pos k), <- power]
      exact lower
    rw [if_pos none, toNat_or, toNat_shiftLeft, toNat_ushiftRight, shiftRight_eq_div_pow,
      Nat.shiftLeft_eq, mod_eq_of_lt upper, <- Nat.shiftLeft_eq, <- shiftLeft_add_eq_or_of_lt small]

theorem multiply64_correct (LHS RHS : BitVec 64) :
    CorrectlyRounded 64 ((LHS.toNat : ℚ) * RHS.toNat) (multiply64 LHS RHS).1.toNat
      (multiply64 LHS RHS).2 := by
  have value : ((pairValue (crossProducts LHS RHS) : Nat) : ℚ) = LHS.toNat * RHS.toNat := by
    rw [pairValue_crossProducts, cast_mul]
  rw [multiply64, <- value]
  generalize crossProducts LHS RHS = s
  by_cases empty : s.1 = 0#64
  · rw [if_pos empty]
    refine CorrectlyRounded.of_eq s.2.isLt ?_
    rw [pairValue, empty, toNat_zero, zero_mul, zero_add, zpow_zero, mul_one]
  · rw [if_neg empty]
    have sizeLe := size_le_width s.1
    have sizePos := Nat.size_pos.mpr (pos_of_ne_zero empty)
    rcases Nat.exists_eq_add_of_lt sizePos with ⟨k, size⟩
    rw [zero_add] at size
    have zeros : k + 1 + countLeadingZeros s.1 = 64 := by
      rw [countLeadingZeros]
      omega
    have shift : 64 - countLeadingZeros s.1 = k + 1 := by omega
    have digits := pairValue_div size zeros
    have multiple : pairValue s % 2 ^ (k + 1) = s.2.toNat % 2 ^ (k + 1) := by
      have power : 2 ^ 64 = 2 ^ countLeadingZeros s.1 * 2 ^ (k + 1) := by
        rw [<- pow_add, add_comm, zeros]
      rw [pairValue, power, <- mul_assoc, mul_add_mod']
    simp only [shift]
    refine getRounded_correct (by decide) (Nat.two_pow_pos (k + 1)) ?_ digits ?_ ?_
    · rw [zpow_natCast, cast_pow, cast_ofNat, div_mul_cancel₀ _ (pow_ne_zero (k + 1) two_ne_zero)]
    · rw [digits, Nat.le_div_iff_mul_le (Nat.two_pow_pos (k + 1))]
      have top := two_pow_size_le empty
      rw [size, Nat.add_sub_cancel] at top
      calc 2 ^ (64 - 1) * 2 ^ (k + 1) = 2 ^ k * 2 ^ 64 := by
            rw [<- pow_add, <- pow_add]
            congr 1
            omega
        _ <= s.1.toNat * 2 ^ 64 := mul_le_mul_right _ top
        _ <= pairValue s := le_add_right _ _
    · rw [decide_eq_true_eq, Nat.add_sub_cancel, and_iff_right (succ_ne_zero k),
        and_shiftLeft_ne_zero_iff (by omega), multiple, pow_succ]
      omega

theorem getProduct_correct (width : W = 32 ∨ W = 64) (LHS RHS : BitVec W) :
    CorrectlyRounded W ((LHS.toNat : ℚ) * RHS.toNat) (getProduct LHS RHS).1.toNat
      (getProduct LHS RHS).2 := by
  have fits : ∀ x : BitVec W, x.toNat < 2 ^ 64 := fun x =>
    lt_of_lt_of_le x.isLt (Nat.pow_le_pow_right two_pos (by omega))
  have extend : ∀ x : BitVec W, (x.setWidth 64).toNat = x.toNat := fun x => by
    rw [toNat_setWidth, mod_eq_of_lt (fits x)]
  rw [getProduct]
  by_cases short : W <= 32 ∨ LHS.toNat <= UINT32_MAX ∧ RHS.toNat <= UINT32_MAX
  · have small : LHS.toNat < 2 ^ 32 ∧ RHS.toNat < 2 ^ 32 := by
      rcases short with narrow | small
      · have power : 2 ^ W <= 2 ^ 32 := Nat.pow_le_pow_right two_pos narrow
        exact ⟨lt_of_lt_of_le LHS.isLt power, lt_of_lt_of_le RHS.isLt power⟩
      · rw [UINT32_MAX] at small
        omega
    have prod : (LHS.setWidth 64 * RHS.setWidth 64).toNat = LHS.toNat * RHS.toNat := by
      rw [toNat_mul_of_lt (by rw [extend]; exact small.1) (by rw [extend]; exact small.2), extend,
        extend]
    have value : (((LHS.setWidth 64 * RHS.setWidth 64).toNat : Nat) : ℚ) =
        LHS.toNat * RHS.toNat := by
      rw [prod, cast_mul]
    rw [if_pos short, <- value]
    by_cases small : (LHS.setWidth 64 * RHS.setWidth 64).toNat < 2 ^ W
    · rw [getAdjusted_of_lt (by omega) small]
      refine CorrectlyRounded.of_eq (isLt _) ?_
      rw [toNat_setWidth, mod_eq_of_lt small, zpow_zero, mul_one]
    · refine getAdjusted_correct (by omega) one_pos ?_ (Nat.div_one _).symm
        (Nat.le_of_not_lt small)
      rw [cast_one, div_one, zpow_zero, mul_one]
  · rw [if_neg short]
    have same : W = 64 := by omega
    subst same
    simp only [setWidth_eq]
    exact multiply64_correct LHS RHS

end Products

/-! ## Quotients -/

section Quotients

/-- A remainder is at least the half of a divisor, rounded up, if twice as much reaches it. -/
theorem getHalf_le_iff {x N : BitVec 64} : x >= getHalf N ↔ N.toNat <= 2 * x.toNat := by
  have bound := N.isLt
  have bit : (N &&& 1#64).toNat = N.toNat % 2 := by
    rw [toNat_and]
    exact and_two_pow_sub_one_eq_mod N.toNat 1
  have half : (getHalf N).toNat = N.toNat / 2 + N.toNat % 2 := by
    rw [getHalf, BitVec.toNat_add, toNat_ushiftRight, shiftRight_eq_div_pow, bit, pow_one]
    omega
  rw [ge_iff_le, le_def, half]
  omega

theorem shiftLeadingZeros_spec {Dividend : BitVec 64} (nonzero : Dividend ≠ 0#64) (Shift : Int) :
    2 ^ 63 <= (shiftLeadingZeros Dividend Shift).1.toNat ∧
      ((shiftLeadingZeros Dividend Shift).1.toNat : ℚ) *
          2 ^ (shiftLeadingZeros Dividend Shift).2 = Dividend.toNat * 2 ^ Shift ∧
      Shift - 63 <= (shiftLeadingZeros Dividend Shift).2 ∧
      (shiftLeadingZeros Dividend Shift).2 <= Shift := by
  have sizePos := Nat.size_pos.mpr (pos_of_ne_zero nonzero)
  have sizeLe := size_le_width Dividend
  have least := two_pow_size_le nonzero
  have zeros : countLeadingZeros Dividend + Dividend.toNat.size = 64 := Nat.sub_add_cancel sizeLe
  have top : 2 ^ 63 <= Dividend.toNat * 2 ^ countLeadingZeros Dividend := by
    calc 2 ^ 63 = 2 ^ (Dividend.toNat.size - 1) * 2 ^ countLeadingZeros Dividend := by
          rw [<- pow_add]
          congr 1
          omega
      _ <= _ := mul_le_mul_right _ least
  have fits : Dividend.toNat * 2 ^ countLeadingZeros Dividend < 2 ^ 64 := by
    calc _ < 2 ^ Dividend.toNat.size * 2 ^ countLeadingZeros Dividend :=
          mul_lt_mul_of_pos_right (lt_size_self _) (Nat.two_pow_pos _)
      _ = 2 ^ 64 := by
          rw [<- pow_add]
          congr 1
          omega
  rw [shiftLeadingZeros]
  by_cases none : countLeadingZeros Dividend = 0
  · rw [none, pow_zero, mul_one] at top
    rw [if_neg (not_not.mpr none)]
    exact ⟨top, rfl, by omega, le_rfl⟩
  · have shifted : (Dividend <<< countLeadingZeros Dividend).toNat =
        Dividend.toNat * 2 ^ countLeadingZeros Dividend := by
      rw [toNat_shiftLeft, Nat.shiftLeft_eq, mod_eq_of_lt fits]
    rw [if_pos none]
    refine ⟨by rwa [shifted], ?_, by omega, by omega⟩
    rw [shifted, cast_mul, cast_pow, cast_ofNat, mul_assoc, <- zpow_natCast,
      <- zpow_add₀ two_ne_zero, add_sub_cancel]

theorem shiftTrailingZeros_spec {Divisor : BitVec 64} (nonzero : Divisor ≠ 0#64) (Shift : Int) :
    (shiftTrailingZeros Divisor Shift).1 ≠ 0#64 ∧
      ((shiftTrailingZeros Divisor Shift).1.toNat : ℚ) *
          2 ^ (Shift - (shiftTrailingZeros Divisor Shift).2) = Divisor.toNat ∧
      Shift - 63 <= (shiftTrailingZeros Divisor Shift).2 ∧
      (shiftTrailingZeros Divisor Shift).2 <= Shift := by
  have bound := APInt.countTrailingZeros_lt nonzero
  rw [shiftTrailingZeros]
  by_cases none : APInt.countTrailingZeros Divisor = 0
  · rw [if_neg (not_not.mpr none), sub_self, zpow_zero, mul_one]
    exact ⟨nonzero, rfl, by omega, le_rfl⟩
  · rw [if_pos none]
    have odd := APInt.odd_lshr_countTrailingZeros nonzero
    refine ⟨fun zero => ?_, ?_, by omega, by omega⟩
    · exact absurd (congrArg (BitVec.toNat · % 2) zero) (by rw [odd]; decide)
    · rw [sub_sub_cancel, zpow_natCast]
      exact_mod_cast APInt.toNat_lshr_countTrailingZeros (d := Divisor)

/-- Quotients of 32-bit digits. -/
theorem divide32_correct {Dividend Divisor : BitVec 32} (nonzero : Dividend ≠ 0#32)
    (divisor : Divisor ≠ 0#32) :
    ∃ D S, divide32 Dividend Divisor = some (D, S) ∧
      CorrectlyRounded 32 ((Dividend.toNat : ℚ) / Divisor.toNat) D.toNat S ∧ ScaleFits S := by
  have extend : ∀ x : BitVec 32, (x.setWidth 64).toNat = x.toNat := fun x => by
    rw [toNat_setWidth, mod_eq_of_lt (lt_trans x.isLt (by decide))]
  have nonzero64 : Dividend.setWidth 64 ≠ 0#64 := by
    intro zero
    have value := congrArg BitVec.toNat zero
    rw [extend] at value
    exact absurd (pos_of_ne_zero nonzero) (by rw [value]; decide)
  have pos := pos_of_ne_zero divisor
  rcases shiftLeadingZeros_spec nonzero64 0 with ⟨top, value, lower, upper⟩
  rw [divide32, if_neg (not_or.mpr ⟨nonzero, divisor⟩)]
  rw [extend, zpow_zero, mul_one] at value
  generalize shiftLeadingZeros (Dividend.setWidth 64) 0 = shifted
    at top value lower upper ⊢
  rcases shifted with ⟨Dividend64, Shift⟩
  simp only at top value lower upper
  have isValue : (Dividend64.toNat : ℚ) / Divisor.toNat * 2 ^ Shift =
      Dividend.toNat / Divisor.toNat := by
    rw [div_mul_eq_mul_div, value]
  have quot : (Dividend64 / Divisor.setWidth 64).toNat = Dividend64.toNat / Divisor.toNat := by
    rw [toNat_udiv, extend]
  by_cases long : (Dividend64 / Divisor.setWidth 64).toNat > UINT32_MAX
  · have scale := getAdjusted_scale (W := 32) (Dividend64 / Divisor.setWidth 64) Shift
    have correct := getAdjusted_correct (W := 32) (by decide) pos isValue quot long
    refine ⟨_, _, ?_, correct, by omega, by omega⟩
    exact if_pos long
  · have bound : (Dividend64 / Divisor.setWidth 64).toNat < 2 ^ 32 := by
      rw [UINT32_MAX] at long
      omega
    have narrow : ((Dividend64 / Divisor.setWidth 64).setWidth 32).toNat =
        Dividend64.toNat / Divisor.toNat := by
      rw [toNat_setWidth, mod_eq_of_lt bound, quot]
    have full : 2 ^ (32 - 1) <= ((Dividend64 / Divisor.setWidth 64).setWidth 32).toNat := by
      rw [narrow, Nat.le_div_iff_mul_le pos]
      have small := Divisor.isLt
      omega
    have half : decide (Dividend64 % Divisor.setWidth 64 >= getHalf (Divisor.setWidth 64)) = true ↔
        Divisor.toNat <= 2 * (Dividend64.toNat % Divisor.toNat) := by
      rw [decide_eq_true_eq, getHalf_le_iff, toNat_umod, extend]
    have correct := getRounded_correct (by decide) pos isValue narrow full half
    have scale := getRounded_scale ((Dividend64 / Divisor.setWidth 64).setWidth 32) Shift
      (Dividend64 % Divisor.setWidth 64 >= getHalf (Divisor.setWidth 64))
    refine ⟨_, _, ?_, correct, by omega, by omega⟩
    exact if_neg long

/-! ## Long division -/

variable {Divisor : BitVec 64} {value : ℚ} {division : Division}

/-- The number whose quotient and remainder the loop has got so far. -/
def Division.numerator (Divisor : BitVec 64) (division : Division) : Nat :=
  division.Quotient.toNat * Divisor.toNat + division.Dividend.toNat

/-- The quotient and the rest of the dividend are those of a division with the right value. -/
structure Division.Valid (Divisor : BitVec 64) (value : ℚ) (division : Division) : Prop where
  below : division.Dividend.toNat < Divisor.toNat
  same : (division.numerator Divisor : ℚ) / Divisor.toNat * 2 ^ division.Shift = value

theorem shiftRight_63_eq_zero_iff {x : BitVec 64} : x >>> 63 = 0#64 ↔ x.toNat < 2 ^ 63 := by
  rw [<- toNat_inj, toNat_ushiftRight, shiftRight_eq_div_pow, toNat_zero, Nat.div_eq_zero_iff]
  exact or_iff_right (by decide)

/-- A round doubles the number that is divided. -/
theorem numerator_divideStep (below : division.Dividend.toNat < Divisor.toNat)
    (room : division.Quotient >>> 63 = 0#64) :
    (divideStep Divisor division).numerator Divisor = 2 * division.numerator Divisor ∧
      (divideStep Divisor division).Dividend.toNat < Divisor.toNat := by
  have bound := Divisor.isLt
  rw [shiftRight_63_eq_zero_iff] at room
  have quot : (division.Quotient <<< 1).toNat = 2 * division.Quotient.toNat := by
    rw [toNat_shiftLeft, Nat.shiftLeft_eq]
    omega
  have dividend : (division.Dividend <<< 1).toNat = 2 * division.Dividend.toNat % 2 ^ 64 := by
    rw [toNat_shiftLeft, Nat.shiftLeft_eq, pow_one, mul_comm]
  have reached : (division.Dividend >>> 63 ≠ 0#64 ∨ Divisor <= division.Dividend <<< 1) ↔
      Divisor.toNat <= 2 * division.Dividend.toNat := by
    rw [Ne, shiftRight_63_eq_zero_iff, le_def, dividend]
    omega
  rw [divideStep]
  by_cases enough : Divisor.toNat <= 2 * division.Dividend.toNat
  · have next : (division.Quotient <<< 1 ||| 1#64).toNat = 2 * division.Quotient.toNat + 1 := by
      have bits := shiftLeft_add_eq_or_of_lt (i := 1) (b := 1) (by decide)
        division.Quotient.toNat
      rw [Nat.shiftLeft_eq, pow_one, mul_comm] at bits
      rw [toNat_or, quot, bits]
      rfl
    have rest : (division.Dividend <<< 1 - Divisor).toNat =
        2 * division.Dividend.toNat - Divisor.toNat := by
      rw [toNat_sub, dividend]
      omega
    rw [if_pos (reached.mpr enough)]
    simp only [Division.numerator, next, rest]
    constructor
    · rw [add_mul, one_mul, mul_assoc, mul_add]
      omega
    · omega
  · have rest : (division.Dividend <<< 1).toNat = 2 * division.Dividend.toNat := by
      rw [dividend]
      omega
    rw [if_neg fun either => enough (reached.mp either)]
    simp only [Division.numerator, quot, rest]
    constructor
    · rw [mul_assoc, mul_add]
    · omega

theorem divideStep_shift (Divisor : BitVec 64) (division : Division) :
    (divideStep Divisor division).Shift = division.Shift - 1 := by
  rw [divideStep]
  split <;> rfl

theorem Division.Valid.step (valid : division.Valid Divisor value)
    (room : division.Quotient >>> 63 = 0#64) :
    (divideStep Divisor division).Valid Divisor value := by
  have doubled := numerator_divideStep valid.below room
  refine ⟨doubled.2, ?_⟩
  rw [doubled.1, divideStep_shift, <- valid.same, cast_mul, cast_ofNat, zpow_sub_one₀ two_ne_zero]
  ring

/-- The loop ends: as long as the quotient is not full, the number that is divided doubles. -/
theorem divideLoop_spec {rounds : Nat} (valid : division.Valid Divisor value)
    (few : rounds <= 128) (large : 2 ^ (128 - rounds) <= division.numerator Divisor) :
    ∃ final, divideLoop Divisor rounds division = some final ∧ final.Valid Divisor value ∧
      (2 ^ 63 <= final.Quotient.toNat ∨ final.Dividend = 0#64) ∧
      division.Shift - rounds <= final.Shift ∧ final.Shift <= division.Shift := by
  induction rounds generalizing division with
  | zero =>
    have quot := division.Quotient.isLt
    have divisor := Divisor.isLt
    have small : division.numerator Divisor < 2 ^ 128 := by
      calc division.numerator Divisor
          < division.Quotient.toNat * Divisor.toNat + Divisor.toNat :=
            Nat.add_lt_add_left valid.below _
        _ = (division.Quotient.toNat + 1) * Divisor.toNat := (succ_mul _ _).symm
        _ <= 2 ^ 64 * 2 ^ 64 := Nat.mul_le_mul quot (le_of_lt divisor)
    exact absurd large (Nat.not_le_of_lt small)
  | succ rounds ih =>
    rw [divideLoop]
    by_cases again : division.Quotient >>> 63 = 0#64 ∧ division.Dividend ≠ 0#64
    · have doubled := (numerator_divideStep valid.below again.1).1
      have larger : 2 ^ (128 - rounds) <= (divideStep Divisor division).numerator Divisor := by
        have exponent : 128 - rounds = 128 - (rounds + 1) + 1 := by omega
        rw [doubled, exponent, pow_succ']
        exact Nat.mul_le_mul_left 2 large
      have shift := divideStep_shift Divisor division
      rcases ih (valid.step again.1) (le_of_succ_le few) larger with
        ⟨final, run, validFinal, stops, lower, upper⟩
      rw [if_pos again]
      exact ⟨final, run, validFinal, stops, by omega, by omega⟩
    · rw [if_neg again]
      refine ⟨division, rfl, valid, ?_, by omega, le_rfl⟩
      rw [shiftRight_63_eq_zero_iff] at again
      by_cases full : 2 ^ 63 <= division.Quotient.toNat
      · exact .inl full
      · exact .inr (not_not.mp fun rest => again ⟨Nat.lt_of_not_le full, rest⟩)

/-- Quotients of 64-bit digits: the loop ends, and the digits that it leaves are rounded. -/
theorem divide64_correct {Dividend Divisor : BitVec 64} (nonzero : Dividend ≠ 0#64)
    (divisor : Divisor ≠ 0#64) :
    ∃ D S, divide64 Dividend Divisor = some (D, S) ∧
      CorrectlyRounded 64 ((Dividend.toNat : ℚ) / Divisor.toNat) D.toNat S ∧ ScaleFits S := by
  rcases shiftTrailingZeros_spec divisor 0 with ⟨divisor', valueDivisor, lower, upper⟩
  rw [divide64, if_neg (not_or.mpr ⟨nonzero, divisor⟩), <- valueDivisor]
  generalize shiftTrailingZeros Divisor 0 = shifted at divisor' lower upper ⊢
  rcases shifted with ⟨Divisor', Shift⟩
  simp only [zero_sub] at divisor' lower upper ⊢
  have pos := pos_of_ne_zero divisor'
  have value : (Dividend.toNat : ℚ) / (Divisor'.toNat * 2 ^ (-Shift)) =
      Dividend.toNat * 2 ^ Shift / Divisor'.toNat := by
    rw [zpow_neg, <- div_eq_mul_inv, div_div_eq_mul_div]
  rw [value]
  by_cases power : Divisor' = 1#64
  · rw [if_pos power, power]
    refine ⟨_, _, rfl, CorrectlyRounded.of_eq Dividend.isLt ?_, by omega, by omega⟩
    rw [toNat_ofNat, one_mod_two_pow (by decide), cast_one, div_one]
  · rcases shiftLeadingZeros_spec nonzero Shift with ⟨top, valueDividend, lower', upper'⟩
    rw [if_neg power, <- valueDividend]
    generalize shiftLeadingZeros Dividend Shift = shifted at top lower' upper' ⊢
    rcases shifted with ⟨Dividend', Shift'⟩
    simp only at top lower' upper' ⊢
    have recompose : Division.numerator Divisor'
        ⟨Dividend' / Divisor', Dividend' % Divisor', Shift'⟩ = Dividend'.toNat := by
      rw [Division.numerator, toNat_udiv, toNat_umod, div_add_mod']
    have valid : Division.Valid Divisor' (Dividend'.toNat * 2 ^ Shift' / Divisor'.toNat)
        ⟨Dividend' / Divisor', Dividend' % Divisor', Shift'⟩ := by
      refine ⟨?_, ?_⟩
      · rw [toNat_umod]
        exact mod_lt _ pos
      · rw [recompose, div_mul_eq_mul_div]
    rcases @divideLoop_spec Divisor' _ _ 65 valid (by decide)
        (by rw [recompose]; exact top) with
      ⟨final, run, validFinal, stops, lowerFinal, upperFinal⟩
    have scale := getRounded_scale final.Quotient final.Shift (final.Dividend >= getHalf Divisor')
    simp only at lowerFinal upperFinal
    have quot : final.Quotient.toNat = final.numerator Divisor' / Divisor'.toNat := by
      rw [Division.numerator, add_comm, add_mul_div_right _ _ pos,
        div_eq_of_lt validFinal.below, zero_add]
    have rem : final.numerator Divisor' % Divisor'.toNat = final.Dividend.toNat := by
      rw [Division.numerator, add_comm, add_mul_mod_self_right, mod_eq_of_lt validFinal.below]
    have correct : CorrectlyRounded 64 ((Dividend'.toNat : ℚ) * 2 ^ Shift' / Divisor'.toNat)
        (getRounded final.Quotient final.Shift (final.Dividend >= getHalf Divisor')).1.toNat
        (getRounded final.Quotient final.Shift (final.Dividend >= getHalf Divisor')).2 := by
      rcases stops with full | nothing
      · refine getRounded_correct (by decide) pos validFinal.same quot full ?_
        rw [decide_eq_true_eq, getHalf_le_iff, rem]
      · have down : ¬ (final.Dividend >= getHalf Divisor') := by
          rw [getHalf_le_iff, nothing, toNat_zero]
          omega
        rw [getRounded, if_neg (by rwa [decide_eq_true_eq])]
        refine CorrectlyRounded.of_eq final.Quotient.isLt ?_
        rw [<- validFinal.same, Division.numerator, nothing, toNat_zero, add_zero,
          cast_mul, mul_div_cancel_right₀ _ (cast_ne_zero.mpr (Nat.ne_of_gt pos))]
    refine ⟨_, _, ?_, correct, by omega, by omega⟩
    rw [run]
    rfl

theorem getQuotient_correct (width : W = 32 ∨ W = 64) {Dividend Divisor : BitVec W}
    (nonzero : Dividend ≠ 0#W) (divisor : Divisor ≠ 0#W) :
    ∃ D S, getQuotient Dividend Divisor = some (D, S) ∧
      CorrectlyRounded W ((Dividend.toNat : ℚ) / Divisor.toNat) D.toNat S ∧ ScaleFits S := by
  rw [getQuotient, if_neg nonzero, if_neg divisor]
  rcases width with rfl | rfl
  · rcases divide32_correct nonzero divisor with ⟨D, S, run, correct⟩
    rw [if_neg (by decide), setWidth_eq, setWidth_eq, run]
    exact ⟨D, S, by rw [Option.map_some, setWidth_eq], correct⟩
  · rcases divide64_correct nonzero divisor with ⟨D, S, run, correct⟩
    rw [if_pos rfl, setWidth_eq, setWidth_eq, run]
    exact ⟨D, S, by rw [Option.map_some, setWidth_eq], correct⟩

end Quotients

end ScaledNumbers
end LlvmProject
