import Mathlib.Data.Nat.Factorization.Basic
import Mathlib.Tactic.Ring

namespace LlvmProject

open BitVec hiding and_comm not_not
open Nat

namespace AArch64_AM

/-!
# Logical immediates

The operand of a logical instruction repeats an element of `2 ^ m` bits, which is a rotated run of
ones.  Its encoding has the size, the rotation and the length of the run.  A failing assertion
gives no result.
-/

/-! ## The code -/

def isMask_64 (Value : BitVec 64) : Bool := decide (Value ≠ 0) && decide ((Value + 1) &&& Value = 0)

def isShiftedMask_64 (Value : BitVec 64) : Bool := isMask_64 ((Value - 1) ||| Value)

def countTrailingZeros (Value : BitVec 64) : Nat := Value.ctz.toNat

def countTrailingOnes (Value : BitVec 64) : Nat := countTrailingZeros (~~~Value)

def countLeadingOnes (Value : BitVec 64) : Nat := (~~~Value).clz.toNat

def countLeadingZeros (Value : Nat) : Nat := if Value = 0 then 32 else 31 - Value.log2

def ror (elt : BitVec 64) (size : Nat) : BitVec 64 := ((elt &&& 1) <<< (size - 1)) ||| (elt >>> 1)

/-- The loop that halves the size.  The fuel is the width of the register. -/
def elementSize (Imm : BitVec 64) : Nat -> Nat -> Nat
  | 0, Size => Size
  | fuel + 1, Size =>
    let half := Size / 2
    let Mask := (1#64 <<< half) - 1
    if Imm &&& Mask ≠ (Imm >>> half) &&& Mask then half * 2
    else if half > 2 then elementSize Imm fuel half
    else half

/-- Ones above the bit of the size, and the length below; the size is an `unsigned`. -/
def NImms (Size CTO : Nat) : Nat := (((2 ^ 32 - 1 - (Size - 1)) <<< 1) % 2 ^ 32) ||| (CTO - 1)

def encode (Size I CTO : Nat) : Nat :=
  let Immr := (Size - I) &&& (Size - 1)
  let N := ((NImms Size CTO >>> 6) &&& 1) ^^^ 1
  (N <<< 12) ||| (Immr <<< 6) ||| (NImms Size CTO &&& 0x3f)

/-- The encoding, if there is one. -/
def processLogicalImmediate (Imm : BitVec 64) (RegSize : Nat) : Option (Option Nat) :=
  if Imm = 0 ∨ Imm = allOnes 64 ∨
      RegSize ≠ 64 ∧ (Imm >>> RegSize ≠ 0 ∨ Imm = 0xffffffff) then some none
  else
    let Size := elementSize Imm RegSize RegSize
    let Mask := allOnes 64 >>> (64 - Size)
    let Elt := Imm &&& Mask
    if isShiftedMask_64 Elt then
      let I := countTrailingZeros Elt
      let CTO := countTrailingOnes (Elt >>> I)
      if I < 64 ∧ Size > I then some (some (encode Size I CTO)) else none
    else
      let Filled := Elt ||| ~~~Mask
      if !isShiftedMask_64 (~~~Filled) then some none
      else
        let CLO := countLeadingOnes Filled
        let I := 64 - CLO
        let CTO := CLO + countTrailingOnes Filled - (64 - Size)
        if Size > I then some (some (encode Size I CTO)) else none

def rors (size : Nat) : Nat -> BitVec 64 -> BitVec 64
  | 0, pattern => pattern
  | R + 1, pattern => rors size R (ror pattern size)

/-- The loop that doubles the pattern.  The fuel is more than the number of the steps. -/
def replicateTo (regSize : Nat) : Nat -> Nat -> BitVec 64 -> Option (BitVec 64)
  | 0, _, _ => none
  | fuel + 1, size, pattern =>
    if size ≠ regSize then replicateTo regSize fuel (size * 2) (pattern ||| (pattern <<< size))
    else some pattern

/-- The logarithm of the size, from two fields of an encoding. -/
def lenOf (N imms : Nat) : Int := 31 - (countLeadingZeros ((N <<< 6) ||| (0x3f ^^^ imms)) : Int)

def decodeLogicalImmediate (val regSize : Nat) : Option (BitVec 64) :=
  let N := val >>> 12 &&& 1
  let immr := val >>> 6 &&& 0x3f
  let imms := val &&& 0x3f
  if (regSize = 64 ∨ N = 0) ∧ 0 <= lenOf N imms then
    let size := 1 <<< (lenOf N imms).toNat
    let R := immr &&& (size - 1)
    let S := imms &&& (size - 1)
    if S ≠ size - 1 then replicateTo regSize regSize size (rors size R ((1#64 <<< (S + 1)) - 1))
    else none
  else none

def isValidDecodeLogicalImmediate (val regSize : Nat) : Bool :=
  let N := val >>> 12 &&& 1
  let imms := val &&& 0x3f
  if regSize = 32 ∧ N ≠ 0 then false
  else if lenOf N imms < 0 then false
  else
    let size := 1 <<< (lenOf N imms).toNat
    let S := imms &&& (size - 1)
    decide (S ≠ size - 1)

/-! ## The operands -/

/-- The value repeats an element of some size, which is a run of ones from the lowest bit on,
rotated to the right. -/
def Repeats (v : BitVec 64) (RegSize size ones r : Nat) : Prop :=
  ∀ j, v.getLsbD j = decide (j < RegSize ∧ (j % size + r) % size < ones)

/-- The element has two, four, or up to 64 bits, and the run is not empty and not all of it. -/
def IsLogicalImmediate (Imm : BitVec 64) (RegSize : Nat) : Prop :=
  ∃ m ones r, 1 <= m ∧ 2 ^ m <= RegSize ∧ 0 < ones ∧ ones < 2 ^ m ∧ r < 2 ^ m ∧
    Repeats Imm RegSize (2 ^ m) ones r

theorem Repeats.ext {v w : BitVec 64} {RegSize size ones r : Nat}
    (first : Repeats v RegSize size ones r) (second : Repeats w RegSize size ones r) : v = w :=
  eq_of_getLsbD_eq fun j _ => (first j).trans (second j).symm

/-! ## Shifted masks -/

theorem or_pred (i q : Nat) :
    (2 ^ i * (2 * q + 1) - 1) ||| (2 ^ i * (2 * q + 1)) = 2 ^ i * (2 * q + 2) - 1 := by
  have pos := Nat.two_pow_pos i
  have whole : 2 ^ i * (2 * q + 1) = 2 ^ (i + 1) * q + 2 ^ i := by ring
  have less : 2 ^ i * (2 * q + 1) - 1 = 2 ^ (i + 1) * q + (2 ^ i - 1) := by omega
  have filled : 2 ^ i * (2 * q + 2) - 1 = 2 ^ (i + 1) * q + (2 ^ (i + 1) - 1) := by
    have double : 2 ^ i * (2 * q + 2) = 2 ^ (i + 1) * q + 2 ^ (i + 1) := by ring
    have double' := Nat.two_pow_pos (i + 1)
    omega
  have power : 2 ^ i < 2 ^ (i + 1) := Nat.pow_lt_pow_succ (by decide)
  rw [filled, less, whole]
  refine eq_of_testBit_eq fun j => ?_
  rw [Nat.testBit_or, testBit_two_pow_mul_add _ (by omega), testBit_two_pow_mul_add _ power,
    testBit_two_pow_mul_add _ (by omega)]
  split
  · rw [testBit_two_pow_sub_one, testBit_two_pow, testBit_two_pow_sub_one, <- Bool.decide_or]
    exact decide_eq_decide.mpr (by omega)
  · rw [Bool.or_self]

theorem isMask_64_iff (Value : BitVec 64) :
    isMask_64 Value = true ↔ ∃ n, 0 < n ∧ Value.toNat + 1 = 2 ^ n := by
  have bound := Value.isLt
  have power : (Value.toNat + 1).isPowerOfTwo ∧ Value ≠ 0 ↔
      ∃ n, 0 < n ∧ Value.toNat + 1 = 2 ^ n := by
    constructor
    · rintro ⟨⟨n, same⟩, nonzero⟩
      refine ⟨n, pos_of_ne_zero ?_, same⟩
      rintro rfl
      exact nonzero (eq_of_toNat_eq (by simpa using same))
    · rintro ⟨n, pos, same⟩
      refine ⟨⟨n, same⟩, ?_⟩
      rintro rfl
      have more := Nat.pow_lt_pow_right (show 1 < 2 by decide) pos
      simp at same
      omega
  rw [<- power, isMask_64, Bool.and_eq_true, decide_eq_true_eq, decide_eq_true_eq, and_comm]
  refine and_congr_left fun _ => ?_
  rw [<- and_sub_one_eq_zero_iff_isPowerOfTwo (show Value.toNat + 1 ≠ 0 by omega),
    <- toNat_inj, toNat_and, toNat_add, Nat.add_sub_cancel,
    show (1 : BitVec 64).toNat = 1 from rfl]
  by_cases full : Value.toNat + 1 = 2 ^ 64
  · have all : Value.toNat = 2 ^ 64 - 1 := by omega
    rw [all]
    decide
  · rw [mod_eq_of_lt (by omega)]
    rfl

/-- The bits from one position to another are set. -/
def Run (x : BitVec 64) (i k : Nat) : Prop := ∀ j, x.getLsbD j = decide (i <= j ∧ j < k)

variable {x : BitVec 64}

theorem run_of_toNat {i n : Nat} (value : x.toNat = 2 ^ i * (2 ^ n - 1)) : Run x i (i + n) := by
  intro j
  rw [<- testBit_toNat, value, testBit_two_pow_mul, testBit_two_pow_sub_one, <- Bool.decide_and]
  exact decide_eq_decide.mpr (by omega)

theorem Run.toNat {i k : Nat} (run : Run x i k) : x.toNat = 2 ^ i * (2 ^ (k - i) - 1) := by
  refine eq_of_testBit_eq fun j => ?_
  rw [testBit_toNat, run j, testBit_two_pow_mul, testBit_two_pow_sub_one, <- Bool.decide_and]
  exact decide_eq_decide.mpr (by omega)

theorem isShiftedMask_64_iff (nonzero : x ≠ 0) :
    isShiftedMask_64 x = true ↔ ∃ i k, i < k ∧ Run x i k := by
  have pos : 0 < x.toNat := pos_of_ne_zero fun zero => nonzero (eq_of_toNat_eq zero)
  have pred : (x - 1).toNat = x.toNat - 1 := by
    have bound := x.isLt
    rw [toNat_sub, show (1 : BitVec 64).toNat = 1 from rfl]
    omega
  rw [isShiftedMask_64, isMask_64_iff, toNat_or, pred]
  constructor
  · rintro ⟨n, -, mask⟩
    rcases exists_eq_two_pow_mul_odd (ne_of_gt pos) with ⟨i, odd, ⟨q, rfl⟩, value⟩
    have power := Nat.two_pow_pos i
    rw [value, or_pred, Nat.sub_add_cancel (mul_pos power (succ_pos _))] at mask
    have later : i < n := by
      refine (Nat.pow_lt_pow_iff_right (show 1 < 2 by decide)).mp ?_
      rw [<- mask]
      exact lt_mul_of_one_lt_right power (by omega)
    refine ⟨i, i + (n - i), by omega, run_of_toNat ?_⟩
    rw [value]
    congr 1
    have split : 2 ^ n = 2 ^ i * 2 ^ (n - i) := by rw [<- pow_add, Nat.add_sub_cancel' later.le]
    rw [split] at mask
    have rest := Nat.eq_of_mul_eq_mul_left power mask
    omega
  · rintro ⟨i, k, order, run⟩
    have value := run.toNat
    rcases Nat.exists_eq_add_of_lt order with ⟨n, rfl⟩
    have odd : 2 ^ (i + n + 1 - i) - 1 = 2 * (2 ^ n - 1) + 1 := by
      have power := Nat.two_pow_pos n
      rw [show i + n + 1 - i = n + 1 by omega, pow_succ]
      omega
    have power := Nat.two_pow_pos (i + n + 1)
    refine ⟨i + n + 1, succ_pos _, ?_⟩
    rw [value, odd, or_pred, show 2 * (2 ^ n - 1) + 2 = 2 * 2 ^ n by
      have := Nat.two_pow_pos n; omega,
      show 2 ^ i * (2 * 2 ^ n) = 2 ^ (i + n + 1) by ring, Nat.sub_add_cancel power]

theorem ctz_eq {n : Nat} (zeros : ∀ j < n, x.getLsbD j = false)
    (one : x.getLsbD n = true) : x.ctz.toNat = n := by
  have nonzero : x ≠ 0 := by
    rintro rfl
    simp at one
  rcases Nat.lt_trichotomy x.ctz.toNat n with early | same | late
  · have set := getLsbD_true_ctz_of_ne_zero nonzero
    rw [zeros _ early] at set
    cases set
  · exact same
  · rw [getLsbD_false_of_lt_ctz late] at one
    cases one

theorem clz_eq {k : Nat} (inside : k < 64) (one : x.getLsbD k = true)
    (zeros : ∀ j > k, x.getLsbD j = false) : x.clz.toNat = 63 - k := by
  have nonzero : x ≠ 0 := by
    rintro rfl
    simp at one
  have set := getLsbD_true_clz_of_ne_zero (by decide) nonzero
  have small : 63 - x.clz.toNat <= k := by
    by_contra above
    rw [zeros _ (by omega)] at set
    cases set
  by_contra other
  have upper := @toNat_lt_two_pow_sub_clz _ x
  have clear := testBit_lt_two_pow (lt_of_lt_of_le upper
    (Nat.pow_le_pow_right (by decide) (show 64 - x.clz.toNat <= k by omega)))
  rw [testBit_toNat, one] at clear
  cases clear

/-! ## The size of the element -/

theorem lowMask_bit {half : Nat} (inside : half < 64) (j : Nat) :
    ((1#64 <<< half) - 1).getLsbD j = decide (j < half) := by
  have power : 2 ^ half < 2 ^ 64 := Nat.pow_lt_pow_right (by decide) inside
  have pos := Nat.two_pow_pos half
  have value : ((1#64 <<< half) - 1).toNat = 2 ^ 0 * (2 ^ half - 1) := by
    rw [toNat_sub, toNat_shiftLeft, show (1#64).toNat = 1 from rfl,
      Nat.shiftLeft_eq, one_mul, mod_eq_of_lt power]
    change (2 ^ 64 - 1 + 2 ^ half) % 2 ^ 64 = _
    omega
  rw [run_of_toNat value]
  exact decide_eq_decide.mpr (by omega)

variable {Imm : BitVec 64}

/-- The comparison of the halves of an element. -/
theorem halves_iff {half : Nat} (inside : half < 64) :
    Imm &&& ((1#64 <<< half) - 1) = (Imm >>> half) &&& ((1#64 <<< half) - 1) ↔
      ∀ j < half, Imm.getLsbD j = Imm.getLsbD (half + j) := by
  constructor
  · intro same j low
    have bit := congrArg (getLsbD · j) same
    simpa only [getLsbD_and, getLsbD_ushiftRight, lowMask_bit inside, low,
      decide_true, Bool.and_true] using bit
  · intro same
    refine eq_of_getLsbD_eq fun j _ => ?_
    rw [getLsbD_and, getLsbD_and, lowMask_bit inside, getLsbD_ushiftRight]
    by_cases low : j < half
    · rw [same j low]
    · simp [low]

/-- The bits repeat, and those of an element of more than two bits do not. -/
def Element (Imm : BitVec 64) (RegSize m : Nat) : Prop :=
  (∀ j < RegSize, Imm.getLsbD j = Imm.getLsbD (j % 2 ^ m)) ∧
    (m = 1 ∨ ∃ j < 2 ^ (m - 1), Imm.getLsbD j ≠ Imm.getLsbD (2 ^ (m - 1) + j))

theorem elementSize_spec {RegSize fuel m : Nat} (enough : m < fuel) (inside : m < 6) (pos : 0 < m)
    (repeats : ∀ j < RegSize, Imm.getLsbD j = Imm.getLsbD (j % 2 ^ (m + 1))) :
    ∃ n, 0 < n ∧ n <= m + 1 ∧ elementSize Imm fuel (2 ^ (m + 1)) = 2 ^ n ∧
      Element Imm RegSize n := by
  induction m generalizing fuel with
  | zero => cases pos
  | succ m ih =>
    rcases Nat.exists_eq_add_of_lt enough with ⟨more, rfl⟩
    have half : 2 ^ (m + 1 + 1) / 2 = 2 ^ (m + 1) := by
      rw [pow_succ]
      exact Nat.mul_div_cancel _ (by decide)
    have small : 2 ^ (m + 1) < 64 := Nat.pow_lt_pow_right (show 1 < 2 by decide) inside
    rw [elementSize, half]
    by_cases differ : ∀ j < 2 ^ (m + 1), Imm.getLsbD j = Imm.getLsbD (2 ^ (m + 1) + j)
    · rw [if_neg (by rw [not_not, halves_iff small]; exact differ)]
      have halved : ∀ j < RegSize, Imm.getLsbD j = Imm.getLsbD (j % 2 ^ (m + 1)) := by
        intro j low
        have dvd : 2 ^ (m + 1) ∣ 2 ^ (m + 1 + 1) := pow_dvd_pow 2 (le_succ _)
        rw [repeats j low, <- mod_mod_of_dvd j dvd]
        have bound := mod_lt j (Nat.two_pow_pos (m + 1 + 1))
        generalize j % 2 ^ (m + 1 + 1) = k at bound
        rcases lt_or_ge k (2 ^ (m + 1)) with lower | upper
        · rw [mod_eq_of_lt lower]
        · rw [pow_succ] at bound
          rw [mod_eq_sub_mod upper, mod_eq_of_lt (by omega),
            differ (k - 2 ^ (m + 1)) (by omega), Nat.add_sub_cancel' upper]
      rcases Nat.eq_zero_or_pos m with rfl | more_bits
      · exact ⟨1, one_pos, le_succ 1, if_neg (lt_irrefl 2), halved, .inl rfl⟩
      · have two : 2 ^ (m + 1) > 2 := Nat.pow_lt_pow_right (show 1 < 2 by decide)
          (show 1 < m + 1 by omega)
        rw [if_pos two]
        rcases ih (show m < m + 1 + more by omega) (by omega) more_bits halved with
          ⟨n, pos, le, same, element⟩
        exact ⟨n, pos, le_succ_of_le le, same, element⟩
    · rw [if_pos (by rw [Ne, halves_iff small]; exact differ)]
      push Not at differ
      exact ⟨m + 1 + 1, succ_pos _, le_refl _, (pow_succ ..).symm, repeats, .inr differ⟩

/-! ## Decoding -/

theorem rors_bits {size ones : Nat} (inside : size <= 64) (pos : 0 < size) {pattern : BitVec 64}
    {k : Nat} (R : Nat)
    (bits : ∀ j, pattern.getLsbD j = decide (j < size ∧ (j + k) % size < ones)) (j : Nat) :
    (rors size R pattern).getLsbD j = decide (j < size ∧ (j + (k + R)) % size < ones) := by
  induction R generalizing pattern k with
  | zero => exact bits j
  | succ R ih =>
    rw [rors, ih (k := k + 1), show k + 1 + R = k + (R + 1) by omega]
    intro j
    have one : ∀ i, (1 : BitVec 64).getLsbD i = decide (i = 0) := by
      intro i
      simp [getLsbD_one]
    rw [ror, getLsbD_or, getLsbD_shiftLeft, getLsbD_and, one, bits, getLsbD_ushiftRight, bits]
    rcases Nat.lt_trichotomy (j + 1) size with low | top | high
    · rw [show 1 + j + k = j + (k + 1) by omega]
      simp [show j < size - 1 by omega, show 1 + j < size by omega, show j < size by omega]
    · have last : (j + (k + 1)) % size = k % size := by
        rw [show j + (k + 1) = k + size by omega, add_mod_right]
      rw [last]
      simp [show ¬j < size - 1 by omega, show ¬1 + j < size by omega, show j < size by omega,
        show j - (size - 1) = 0 by omega, show j < 64 by omega, pos]
    · simp [show ¬1 + j < size by omega, show ¬j < size by omega, show j - (size - 1) ≠ 0 by omega]

theorem replicateTo_bits {regSize size : Nat} {f : Nat -> Bool} (inside : regSize <= 64) (d : Nat)
    {fuel cur : Nat} (enough : d < fuel) (reached : cur * 2 ^ d = regSize)
    (pos : 0 < cur) (whole : size ∣ cur) {pattern : BitVec 64}
    (bits : ∀ j, pattern.getLsbD j = (decide (j < cur) && f (j % size))) :
    ∃ v, replicateTo regSize fuel cur pattern = some v ∧
      ∀ j, v.getLsbD j = (decide (j < regSize) && f (j % size)) := by
  induction d generalizing fuel cur pattern with
  | zero =>
    rcases Nat.exists_eq_add_of_lt enough with ⟨more, rfl⟩
    rw [pow_zero, mul_one] at reached
    subst reached
    exact ⟨pattern, by rw [replicateTo, if_neg (by simp)], bits⟩
  | succ d ih =>
    rcases Nat.exists_eq_add_of_lt enough with ⟨more, rfl⟩
    have power := Nat.two_pow_pos d
    have room : cur * 2 <= regSize := by
      rw [<- reached, pow_succ]
      exact mul_le_mul_left cur (by omega)
    rw [replicateTo, if_pos (by omega)]
    refine ih (by omega) (by rw [<- reached, pow_succ]; ring) (by omega)
      (whole.trans (dvd_mul_right _ _)) fun j => ?_
    rw [getLsbD_or, getLsbD_shiftLeft, bits, bits]
    rcases lt_or_ge j cur with low | high
    · simp [low, show j < cur * 2 by omega]
    · have same : (j - cur) % size = j % size := by
        rcases whole with ⟨c, rfl⟩
        conv_rhs => rw [<- Nat.sub_add_cancel high, add_mul_mod_self_left]
      rw [same]
      rcases lt_or_ge j (cur * 2) with here | beyond
      · simp [show ¬j < cur by omega, show j < 64 by omega, here, show j - cur < cur by omega]
      · simp [show ¬j < cur by omega, show ¬j < cur * 2 by omega, show ¬j - cur < cur by omega]

/-- An encoding with a size, a rotation and a length is decoded to what they mean. -/
theorem decode_eq {val regSize n m : Nat} (width : regSize = 2 ^ n) (inside : n <= 6) (allowed :
    regSize = 64 ∨ val >>> 12 &&& 1 = 0) (len : lenOf (val >>> 12 &&& 1) (val &&& 0x3f) = m) (fits :
    m <= n) (short : (val &&& 0x3f) % 2 ^ m ≠ 2 ^ m - 1) :
    ∃ v, decodeLogicalImmediate val regSize = some v ∧
      Repeats v regSize (2 ^ m) ((val &&& 0x3f) % 2 ^ m + 1) ((val >>> 6 &&& 0x3f) % 2 ^ m) := by
  have power := Nat.two_pow_pos m
  have small : 2 ^ m <= 2 ^ n := Nat.pow_le_pow_right (by decide) fits
  have large : 2 ^ n <= 64 := Nat.pow_le_pow_right (show 0 < 2 by decide) inside
  have bound := mod_lt (val &&& 0x3f) power
  have whole : 2 ^ m * 2 ^ (n - m) = regSize := by
    rw [width, <- pow_add, Nat.add_sub_cancel' fits]
  have enough : n - m < regSize := by
    have more := Nat.lt_two_pow_self (n := n)
    omega
  have run : ∀ j, ((1#64 <<< ((val &&& 0x3f) % 2 ^ m + 1)) - 1).getLsbD j =
      decide (j < 2 ^ m ∧ (j + 0) % 2 ^ m < (val &&& 0x3f) % 2 ^ m + 1) := by
    intro j
    rw [lowMask_bit (by omega)]
    refine decide_eq_decide.mpr ⟨fun low => ⟨by omega, ?_⟩, fun ⟨low, less⟩ => ?_⟩
    · rw [add_zero, mod_eq_of_lt (by omega)]
      exact low
    · rwa [add_zero, mod_eq_of_lt low] at less
  have rotated := rors_bits (by omega) power ((val >>> 6 &&& 0x3f) % 2 ^ m) run
  simp only [zero_add] at rotated
  rw [decodeLogicalImmediate]
  dsimp only
  rw [if_pos ⟨allowed, by omega⟩, len, Int.toNat_natCast, one_shiftLeft,
    and_two_pow_sub_one_eq_mod, and_two_pow_sub_one_eq_mod, if_pos short]
  rcases replicateTo_bits (f := fun j => decide ((j + (val >>> 6 &&& 0x3f) % 2 ^ m) % 2 ^ m <
    (val &&& 0x3f) % 2 ^ m + 1)) (by omega) (n - m) enough whole power (dvd_refl _) (fun j => by
        rw [rotated, Bool.decide_and]
        by_cases low : j < 2 ^ m
        · rw [mod_eq_of_lt low]
        · rw [decide_eq_false low, Bool.false_and, Bool.false_and]) with ⟨v, ran, bits⟩
  exact ⟨v, ran, fun j => by rw [bits, Bool.decide_and]⟩

/-! ## Encoding -/

theorem fields_encode {N Immr imms : Nat} (single : N < 2) (rotation : Immr < 64)
    (length : imms < 64) :
    let val := (N <<< 12) ||| (Immr <<< 6) ||| imms
    val >>> 12 &&& 1 = N ∧ val >>> 6 &&& 0x3f = Immr ∧ val &&& 0x3f = imms := by
  have value : (N <<< 12) ||| (Immr <<< 6) ||| imms = N * 4096 + Immr * 64 + imms := by
    have low : Immr <<< 6 + imms = Immr <<< 6 ||| imms := shiftLeft_add_eq_or_of_lt length Immr
    have inside : Immr <<< 6 + imms < 2 ^ 12 := by
      rw [Nat.shiftLeft_eq]
      omega
    rw [Nat.or_assoc, <- low, <- shiftLeft_add_eq_or_of_lt inside, Nat.shiftLeft_eq,
        Nat.shiftLeft_eq]
    omega
  dsimp only
  rw [value, show (1 : Nat) = 2 ^ 1 - 1 from rfl, show 0x3f = 2 ^ 6 - 1 from rfl]
  simp only [and_two_pow_sub_one_eq_mod, shiftRight_eq_div_pow]
  omega

/-- What the fields are for a size and a length. -/
def Fields (N imms m CTO : Nat) : Prop :=
  N < 2 ∧ (m = 6 ∨ N = 0) ∧ imms % 2 ^ m = CTO - 1 ∧ lenOf N imms = m

instance (N imms m CTO : Nat) : Decidable (Fields N imms m CTO) :=
  inferInstanceAs (Decidable (_ ∧ _ ∧ _ ∧ _))

theorem fields_table : ∀ m < 7, 0 < m -> ∀ CTO < 2 ^ m, 0 < CTO ->
    Fields (((NImms (2 ^ m) CTO >>> 6) &&& 1) ^^^ 1) (NImms (2 ^ m) CTO &&& 0x3f) m CTO := by
  decide +kernel

theorem decode_encode {regSize n m I CTO : Nat} (width : regSize = 2 ^ n) (inside : n <= 6)
    (fits : m <= n) (pos : 0 < m) (some_one : 0 < CTO) (some_zero : CTO < 2 ^ m) :
    ∃ v, decodeLogicalImmediate (encode (2 ^ m) I CTO) regSize = some v ∧
      Repeats v regSize (2 ^ m) CTO ((2 ^ m - I) % 2 ^ m) := by
  rcases fields_table m (by omega) pos CTO some_zero some_one with
    ⟨single, none, length, size⟩
  have small : 2 ^ m <= 2 ^ 6 := Nat.pow_le_pow_right (by decide) (by omega)
  have bound := mod_lt (2 ^ m - I) (Nat.two_pow_pos m)
  have fields : encode (2 ^ m) I CTO >>> 12 &&& 1 = ((NImms (2 ^ m) CTO >>> 6) &&& 1) ^^^ 1 ∧
      encode (2 ^ m) I CTO >>> 6 &&& 0x3f = (2 ^ m - I) % 2 ^ m ∧
      encode (2 ^ m) I CTO &&& 0x3f = NImms (2 ^ m) CTO &&& 0x3f := by
    rw [encode, and_two_pow_sub_one_eq_mod]
    exact fields_encode single (by omega) (lt_succ_of_le and_le_right)
  rcases fields with ⟨first, second, third⟩
  have allowed : regSize = 64 ∨ encode (2 ^ m) I CTO >>> 12 &&& 1 = 0 := by
    rw [first]
    rcases none with six | zero
    · left
      rw [width, show n = 6 by omega]
      rfl
    · exact .inr zero
  rcases decode_eq width inside allowed (by rw [first, third]; exact size) fits
    (by rw [third, length]; omega) with ⟨v, ran, bits⟩
  rw [third, length, Nat.sub_add_cancel some_one, second, mod_mod] at bits
  exact ⟨v, ran, bits⟩

/-! ## Elements -/

/-- A place in the element, from the end of the run on. -/
theorem rotated_lt {size I t CTO : Nat} (place : I < size) (low : t < size) :
    (t + (size - I) % size) % size < CTO ↔ if I <= t then t - I < CTO else t + size - I < CTO := by
  rw [add_mod_mod]
  split_ifs with after
  · rw [show t + (size - I) = t - I + size by omega, add_mod_right, mod_eq_of_lt (by omega)]
  · rw [mod_eq_of_lt (by omega), Nat.add_sub_assoc place.le]

/-- The bits of an element repeat those of a run, or of the places between two. -/
theorem Repeats.of_element {RegSize m I CTO : Nat} (place : I < 2 ^ m)
    (element : Element Imm RegSize m) (inside : ∀ j ≥ RegSize, Imm.getLsbD j = false) (bits : ∀ t <
    2 ^ m, Imm.getLsbD t = decide (if I <= t then t - I < CTO else t + 2 ^ m - I < CTO)) :
    Repeats Imm RegSize (2 ^ m) CTO ((2 ^ m - I) % 2 ^ m) := by
  intro j
  by_cases low : j < RegSize
  · have bound := mod_lt j (Nat.two_pow_pos m)
    rw [element.1 j low, bits _ bound]
    exact decide_eq_decide.mpr (by rw [rotated_lt place bound]; simp [low])
  · rw [inside j (Nat.le_of_not_lt low)]
    simp [low]

/-- The bit at a distance from the start of the run. -/
theorem Repeats.bit_at {v : BitVec 64} {RegSize size ones r : Nat} (fits : size <= RegSize)
    (place : r < size) (bits : Repeats v RegSize size ones r) (t : Nat) :
    v.getLsbD ((t + (size - r)) % size) = decide (t % size < ones) := by
  have bound := mod_lt (t + (size - r)) (show 0 < size by omega)
  rw [bits, mod_mod, mod_add_mod, show t + (size - r) + r = t + size by omega, add_mod_right]
  exact decide_eq_decide.mpr (and_iff_right (by omega))

theorem Repeats.size_eq {RegSize m n ones r : Nat}
    (element : Element Imm RegSize n) (fits : 2 ^ m <= RegSize) (fits' : 2 ^ n <= RegSize)
    (some_bit : 0 < m) (pos : 0 < n) (some_one : 0 < ones) (some_zero : ones < 2 ^ m)
    (place : r < 2 ^ m) (bits : Repeats Imm RegSize (2 ^ m) ones r) : m = n := by
  rcases Nat.lt_trichotomy m n with less | same | more
  · rcases element.2 with one | ⟨j, low, differ⟩
    · omega
    · have half : 2 ^ n = 2 ^ (n - 1) * 2 := by
        rw [<- Nat.pow_succ, succ_eq_add_one, Nat.sub_add_cancel pos]
      have dvd : 2 ^ m ∣ 2 ^ (n - 1) := pow_dvd_pow 2 (by omega)
      have same : (2 ^ (n - 1) + j) % 2 ^ m = j % 2 ^ m := by
        rcases dvd with ⟨c, whole⟩
        rw [whole, add_comm, add_mul_mod_self_left]
      rw [bits, bits, same] at differ
      refine absurd (decide_eq_decide.mpr ?_) differ
      exact and_congr_left fun _ => iff_of_true (by omega) (by omega)
  · exact same
  · have half : 2 ^ m = 2 ^ (m - 1) * 2 := by
      rw [<- Nat.pow_succ, succ_eq_add_one, Nat.sub_add_cancel some_bit]
    have dvd : 2 ^ n ∣ 2 ^ (m - 1) := pow_dvd_pow 2 (by omega)
    have pos' := Nat.two_pow_pos (m - 1)
    -- The bit at a distance from the start of the run, and the one half an element behind it.
    have shifted (t : Nat) : t % 2 ^ m < ones ↔ (t + 2 ^ (m - 1)) % 2 ^ m < ones := by
      have same : ((t + 2 ^ (m - 1) + (2 ^ m - r)) % 2 ^ m) % 2 ^ n =
          ((t + (2 ^ m - r)) % 2 ^ m) % 2 ^ n := by
        have dvd' : 2 ^ n ∣ 2 ^ m := pow_dvd_pow 2 more.le
        rw [mod_mod_of_dvd _ dvd', mod_mod_of_dvd _ dvd']
        rcases dvd with ⟨c, whole⟩
        rw [whole, show t + 2 ^ n * c + (2 ^ m - r) = t + (2 ^ m - r) + 2 ^ n * c by omega,
          add_mul_mod_self_left]
      have bound := mod_lt (t + (2 ^ m - r)) (Nat.two_pow_pos m)
      have bound' := mod_lt (t + 2 ^ (m - 1) + (2 ^ m - r)) (Nat.two_pow_pos m)
      rw [<- decide_eq_decide, <- bits.bit_at fits place, <- bits.bit_at fits place,
        element.1 _ (by omega), <- same, <- element.1 _ (by omega)]
    have first := (shifted 0).mp (by rwa [zero_mod])
    rw [zero_add, mod_eq_of_lt (by omega)] at first
    have last := (shifted (2 ^ (m - 1) - 1)).mp (by
      rw [mod_eq_of_lt (by omega)]
      omega)
    rw [mod_eq_of_lt (by omega)] at last
    omega

/-- Some bits of the register are set and some are not, and none above it. -/
def Mixed (Imm : BitVec 64) (RegSize : Nat) : Prop :=
  (∀ j ≥ RegSize, Imm.getLsbD j = false) ∧ (∃ j < RegSize, Imm.getLsbD j = true) ∧
    ∃ j < RegSize, Imm.getLsbD j = false

theorem rejected_iff {RegSize : Nat} (width : RegSize = 32 ∨ RegSize = 64) :
    (Imm = 0 ∨ Imm = allOnes 64 ∨
      RegSize ≠ 64 ∧ (Imm >>> RegSize ≠ 0 ∨ Imm = 0xffffffff)) ↔ ¬Mixed Imm RegSize := by
  have low : Run 0xffffffff 0 32 := run_of_toNat (i := 0) (n := 32) rfl
  constructor
  · rintro reject ⟨inside, ⟨j, -, one⟩, k, short, zero⟩
    rcases reject with rfl | rfl | ⟨narrow, outside | rfl⟩
    · simp at one
    · rw [getLsbD_allOnes, decide_eq_false_iff_not] at zero
      omega
    · refine outside (eq_of_getLsbD_eq fun j _ => ?_)
      rw [getLsbD_ushiftRight, inside _ (le_add_right _ _), ofNat_eq_ofNat, getLsbD_zero]
    · rw [low, decide_eq_false_iff_not] at zero
      omega
  · intro uniform
    by_contra accepted
    push Not at accepted
    rcases accepted with ⟨some_one, some_zero, narrow⟩
    have inside : ∀ j ≥ RegSize, Imm.getLsbD j = false := by
      intro j high
      by_cases wide : RegSize = 64
      · exact getLsbD_of_ge Imm j (by omega)
      · have shifted := congrArg (getLsbD · (j - RegSize)) (narrow wide).1
        simpa [getLsbD_ushiftRight, Nat.add_sub_cancel' high] using shifted
    refine uniform ⟨inside, ?_, ?_⟩
    · by_contra none
      push Not at none
      refine some_one (eq_of_getLsbD_eq fun j _ => ?_)
      rw [ofNat_eq_ofNat, getLsbD_zero]
      by_cases short : j < RegSize
      · exact Bool.eq_false_iff.mpr (none j short)
      · exact inside j (by omega)
    · by_contra none
      push Not at none
      rcases width with rfl | rfl
      · refine (narrow (by decide)).2 (eq_of_getLsbD_eq fun j _ => ?_)
        rw [low]
        by_cases short : j < 32
        · simp [none j short, short]
        · simp [inside j (by omega), short]
      · refine some_zero (eq_of_getLsbD_eq fun j short => ?_)
        rw [getLsbD_allOnes]
        simp [none j short, short]

theorem IsLogicalImmediate.mixed {RegSize : Nat}
    (logical : IsLogicalImmediate Imm RegSize) : Mixed Imm RegSize := by
  rcases logical with ⟨m, ones, r, -, fits, some_one, some_zero, place, bits⟩
  have power := Nat.two_pow_pos m
  have bound (t : Nat) : t % 2 ^ m < RegSize := lt_of_lt_of_le (mod_lt _ power) fits
  refine ⟨fun j high => ?_, ⟨_, bound _, (bits.bit_at fits place 0).trans ?_⟩,
    ⟨_, bound _, (bits.bit_at fits place (2 ^ m - 1)).trans ?_⟩⟩
  · rw [bits]
    simp [not_lt.mpr high]
  · rw [zero_mod]
    exact decide_eq_true some_one
  · rw [mod_eq_of_lt (by omega), decide_eq_false_iff_not]
    omega

/-- An operand has no encoding, or one with the element that it repeats. -/
def Processed (Imm : BitVec 64) (RegSize : Nat) : Prop :=
  processLogicalImmediate Imm RegSize = some none ∧ ¬IsLogicalImmediate Imm RegSize ∨
    ∃ m I CTO, 0 < m ∧ 2 ^ m <= RegSize ∧ I < 2 ^ m ∧ 0 < CTO ∧ CTO < 2 ^ m ∧
      processLogicalImmediate Imm RegSize = some (some (encode (2 ^ m) I CTO)) ∧
      Repeats Imm RegSize (2 ^ m) CTO ((2 ^ m - I) % 2 ^ m)

/-- A run ends where the bits that can be set do. -/
theorem Run.top {i k size : Nat} (run : Run x i k) (order : i < k)
    (below : ∀ j ≥ size, x.getLsbD j = false) : k <= size := by
  by_contra above
  have last := run (k - 1)
  rw [below _ (by omega), eq_comm, decide_eq_false_iff_not] at last
  omega

theorem processed {RegSize n : Nat} (power : RegSize = 2 ^ n) (width : n = 5 ∨ n = 6)
    (Imm : BitVec 64) : Processed Imm RegSize := by
  have registers : RegSize = 32 ∨ RegSize = 64 := by
    rcases width with rfl | rfl <;> simp [power]
  rw [Processed, processLogicalImmediate]
  by_cases mixed : Mixed Imm RegSize
  swap
  · rw [if_pos ((rejected_iff registers).mpr mixed)]
    exact .inl ⟨rfl, fun logical => mixed logical.mixed⟩
  rw [if_neg (by rw [rejected_iff registers, not_not]; exact mixed)]
  rcases mixed with ⟨inside, ⟨a, a_low, one⟩, b, b_low, zero⟩
  have start : 2 ^ (n - 1 + 1) = RegSize := by rw [Nat.sub_add_cancel (by omega), power]
  rcases elementSize_spec (show n - 1 < RegSize by rcases width with rfl | rfl <;> simp [power])
    (by omega) (by omega) (fun j low => by rw [start, mod_eq_of_lt low]) with
    ⟨m, pos, le, same, element⟩
  have fits : 2 ^ m <= RegSize := start ▸ Nat.pow_le_pow_right (by decide) le
  have small : 2 ^ m <= 64 := by omega
  rw [start] at same
  rw [same]
  rw [element.1 a a_low] at one
  rw [element.1 b b_low] at zero
  have a_in := mod_lt a (Nat.two_pow_pos m)
  have b_in := mod_lt b (Nat.two_pow_pos m)
  generalize a % 2 ^ m = a at one a_in
  generalize b % 2 ^ m = b at zero b_in
  have mask : ∀ j, (allOnes 64 >>> (64 - 2 ^ m)).getLsbD j = decide (j < 2 ^ m) := by
    intro j
    rw [getLsbD_ushiftRight, getLsbD_allOnes]
    exact decide_eq_decide.mpr (by omega)
  dsimp only
  generalize allOnes 64 >>> (64 - 2 ^ m) = Mask at mask ⊢
  have set : ∀ j, (Imm &&& Mask).getLsbD j = (decide (j < 2 ^ m) && Imm.getLsbD j) := by
    intro j
    rw [getLsbD_and, mask, Bool.and_comm]
  have clear : ∀ j, (~~~(Imm &&& Mask ||| ~~~Mask)).getLsbD j =
      (decide (j < 2 ^ m) && !Imm.getLsbD j) := by
    intro j
    rw [getLsbD_not, getLsbD_or, getLsbD_not, set, mask]
    by_cases low : j < 2 ^ m
    · simp [low, show j < 64 by omega]
    · simp [low]
  generalize Imm &&& Mask = Elt at set clear ⊢
  generalize Elt ||| ~~~Mask = Filled at clear ⊢
  have some_set : Elt ≠ 0 := by
    rintro rfl
    have bit := set a
    rw [one] at bit
    simp [a_in] at bit
  have some_clear : ~~~Filled ≠ 0 := by
    intro none
    have bit := clear b
    rw [none, zero] at bit
    simp [b_in] at bit
  by_cases shifted : isShiftedMask_64 Elt = true
  · rw [if_pos shifted]
    rcases (isShiftedMask_64_iff some_set).mp shifted with ⟨i, k, order, run⟩
    have top : k <= 2 ^ m := run.top order fun j high => by simp [set, not_lt.mpr high]
    have bits (t : Nat) (low : t < 2 ^ m) : Imm.getLsbD t = decide (i <= t ∧ t < k) := by
      rw [<- run, set, decide_eq_true low, Bool.true_and]
    have short : k - i < 2 ^ m := by
      rw [bits b b_in, decide_eq_false_iff_not] at zero
      omega
    have zeros : countTrailingZeros Elt = i :=
      ctz_eq (fun j low => by simp [run j, not_le.mpr low]) (by simp [run i, order])
    have ones : countTrailingOnes (Elt >>> i) = k - i :=
      ctz_eq (fun j low => by
        simp [getLsbD_not, getLsbD_ushiftRight, run (i + j), show i + j < k by omega])
        (by simp [run (i + (k - i)), show ¬i + (k - i) < k by omega, show k - i < 64 by omega])
    rw [zeros, ones, if_pos ⟨by omega, by omega⟩]
    refine .inr ⟨m, i, k - i, pos, fits, by omega, by omega, short, rfl,
      Repeats.of_element (by omega) element inside fun t low => ?_⟩
    rw [bits t low]
    exact decide_eq_decide.mpr (by split_ifs <;> omega)
  rw [if_neg shifted]
  by_cases shifted' : isShiftedMask_64 (~~~Filled) = true
  · rw [shifted', Bool.not_true, if_neg Bool.false_ne_true]
    rcases (isShiftedMask_64_iff some_clear).mp shifted' with ⟨i, k, order, run⟩
    have top : k <= 2 ^ m := run.top order fun j high => by simp [clear, not_lt.mpr high]
    have bits (t : Nat) (low : t < 2 ^ m) : Imm.getLsbD t = decide (¬(i <= t ∧ t < k)) := by
      rw [decide_not, <- run, clear, decide_eq_true low, Bool.true_and, Bool.not_not]
    -- A run of zeros up to the end leaves a run of ones, which is shifted.
    have short : k < 2 ^ m := by
      by_contra last
      refine shifted ((isShiftedMask_64_iff some_set).mpr ⟨0, i, ?_, fun j => ?_⟩)
      · rw [bits a a_in, decide_eq_true_eq] at one
        omega
      · rw [set]
        by_cases low : j < 2 ^ m
        · rw [bits j low, decide_eq_true low, Bool.true_and]
          exact decide_eq_decide.mpr (by omega)
        · rw [decide_eq_false low, Bool.false_and, eq_comm, decide_eq_false_iff_not]
          omega
    have leading : countLeadingOnes Filled = 63 - (k - 1) :=
      clz_eq (by omega) ((run (k - 1)).trans (decide_eq_true (by omega))) fun j high =>
        (run j).trans (decide_eq_false (by omega))
    have trailing : countTrailingOnes Filled = i :=
      ctz_eq (fun j low => by simp [run j, not_le.mpr low]) (by simp [run i, order])
    rw [leading, trailing, show 64 - (63 - (k - 1)) = k by omega,
      show 63 - (k - 1) + i - (64 - 2 ^ m) = 2 ^ m - k + i by omega, if_pos short]
    refine .inr ⟨m, k, 2 ^ m - k + i, pos, fits, short, by omega, by omega, rfl,
      Repeats.of_element short element inside fun t low => ?_⟩
    rw [bits t low]
    exact decide_eq_decide.mpr (by split_ifs <;> omega)
  · rw [Bool.not_eq_true] at shifted'
    rw [shifted', Bool.not_false, if_pos rfl]
    refine .inl ⟨rfl, ?_⟩
    rintro ⟨m', ones, r, some_bit, fits', some_one, some_zero, place, bits⟩
    cases bits.size_eq element fits' fits some_bit pos some_one some_zero place
    have turn (t : Nat) (low : t < 2 ^ m) : Imm.getLsbD t =
        decide (if t + r < 2 ^ m then t + r < ones else t + r - 2 ^ m < ones) := by
      rw [bits, mod_eq_of_lt low]
      refine decide_eq_decide.mpr ((and_iff_right (by omega)).trans ?_)
      split_ifs with inner
      · rw [mod_eq_of_lt inner]
      · rw [mod_eq_sub_mod (by omega), mod_eq_of_lt (by omega)]
    by_cases wraps : 0 < r ∧ r < ones
    · refine Bool.eq_false_iff.mp shifted' ((isShiftedMask_64_iff some_clear).mpr
        ⟨ones - r, 2 ^ m - r, by omega, fun j => ?_⟩)
      rw [clear]
      by_cases low : j < 2 ^ m
      · rw [turn j low, decide_eq_true low, Bool.true_and, <- decide_not]
        exact decide_eq_decide.mpr (by split_ifs <;> omega)
      · rw [decide_eq_false low, Bool.false_and, eq_comm, decide_eq_false_iff_not]
        omega
    · refine shifted ((isShiftedMask_64_iff some_set).mpr
        ⟨(if r = 0 then 0 else 2 ^ m - r), (if r = 0 then 0 else 2 ^ m - r) + ones, by omega,
          fun j => ?_⟩)
      rw [set]
      by_cases low : j < 2 ^ m
      · rw [turn j low, decide_eq_true low, Bool.true_and]
        exact decide_eq_decide.mpr (by split_ifs <;> omega)
      · rw [decide_eq_false low, Bool.false_and, eq_comm, decide_eq_false_iff_not]
        split_ifs <;> omega

/-! ## Exactness -/

theorem Repeats.logical {v : BitVec 64} {RegSize m ones r : Nat} (pos : 0 < m)
    (fits : 2 ^ m <= RegSize) (some_one : 0 < ones) (some_zero : ones < 2 ^ m) (place : r < 2 ^ m)
    (bits : Repeats v RegSize (2 ^ m) ones r) : IsLogicalImmediate v RegSize :=
  ⟨m, ones, r, pos, fits, some_one, some_zero, place, bits⟩

/-- Exactly the logical immediates have an encoding, and it is decoded to them.  What is decoded
has an encoding with the same meaning. -/
def Exact (RegSize : Nat) : Prop :=
  (∀ Imm, ∃ result, processLogicalImmediate Imm RegSize = some result ∧
    (result.isSome = true ↔ IsLogicalImmediate Imm RegSize) ∧
    ∀ e, result = some e -> decodeLogicalImmediate e RegSize = some Imm) ∧
  ∀ val, isValidDecodeLogicalImmediate val RegSize = true ->
    ∃ v e, decodeLogicalImmediate val RegSize = some v ∧
      processLogicalImmediate v RegSize = some (some e) ∧
      decodeLogicalImmediate e RegSize = some v

theorem process_exact {RegSize n : Nat} (power : RegSize = 2 ^ n) (width : n = 5 ∨ n = 6)
    (Imm : BitVec 64) : ∃ result, processLogicalImmediate Imm RegSize = some result ∧
      (result.isSome = true ↔ IsLogicalImmediate Imm RegSize) ∧
      ∀ e, result = some e -> decodeLogicalImmediate e RegSize = some Imm := by
  rcases processed power width Imm with ⟨rejected, other⟩ |
    ⟨m, I, CTO, pos, fits, place, some_one, some_zero, accepted, bits⟩
  · exact ⟨none, rejected, iff_of_false Bool.false_ne_true other, nofun⟩
  · refine ⟨_, accepted, iff_of_true rfl (bits.logical pos fits some_one some_zero
      (mod_lt _ (Nat.two_pow_pos m))), ?_⟩
    rintro e ⟨⟩
    have le : m <= n := (Nat.pow_le_pow_iff_right (by decide)).mp (power ▸ fits)
    rcases decode_encode (I := I) power (by omega) le pos some_one some_zero with
      ⟨v, decoded, same⟩
    rw [decoded, same.ext bits]

theorem lenOf_table : ∀ N < 2, ∀ imms < 64, 0 <= lenOf N imms -> lenOf N imms <= 5 + N := by
  decide +kernel

theorem decode_exact {RegSize n : Nat} (power : RegSize = 2 ^ n) (width : n = 5 ∨ n = 6) {val : Nat}
    (valid : isValidDecodeLogicalImmediate val RegSize = true) :
    ∃ v e, decodeLogicalImmediate val RegSize = some v ∧
      processLogicalImmediate v RegSize = some (some e) ∧
      decodeLogicalImmediate e RegSize = some v := by
  rw [isValidDecodeLogicalImmediate] at valid
  dsimp only at valid
  split_ifs at valid with wide neg
  rw [decide_eq_true_eq, one_shiftLeft, and_two_pow_sub_one_eq_mod] at valid
  have single : val >>> 12 &&& 1 < 2 := lt_succ_of_le and_le_right
  have range := lenOf_table _ single (val &&& 0x3f) (lt_succ_of_le and_le_right)
    (not_lt.mp neg)
  have len : lenOf (val >>> 12 &&& 1) (val &&& 0x3f) =
      (lenOf (val >>> 12 &&& 1) (val &&& 0x3f)).toNat := by omega
  generalize (lenOf (val >>> 12 &&& 1) (val &&& 0x3f)).toNat = m at valid len
  have allowed : RegSize = 64 ∨ val >>> 12 &&& 1 = 0 := by
    rcases width with rfl | rfl
    · right
      by_contra some_n
      exact wide ⟨power, some_n⟩
    · exact .inl power
  have le : m <= n := by
    rcases width with rfl | rfl
    · rcases allowed with same | zero
      · rw [power] at same
        cases same
      · omega
    · omega
  have pos : 0 < m := by
    by_contra zero
    rw [show m = 0 by omega] at valid
    exact valid (mod_one _)
  have bound := mod_lt (val &&& 0x3f) (Nat.two_pow_pos m)
  rcases decode_eq power (by omega) allowed len le valid with ⟨v, decoded, bits⟩
  have logical := bits.logical pos (power ▸ Nat.pow_le_pow_right (by decide) le)
    (succ_pos _) (by omega) (mod_lt _ (Nat.two_pow_pos m))
  rcases process_exact power width v with ⟨result, ran, answers, back⟩
  rcases Option.isSome_iff_exists.mp (answers.mpr logical) with ⟨e, rfl⟩
  exact ⟨v, e, decoded, ran, back e rfl⟩

/-- Logical immediates of both widths are encoded and decoded exactly. -/
theorem logicalImmediates_exact : Exact 32 ∧ Exact 64 :=
  ⟨⟨process_exact (n := 5) rfl (.inl rfl), fun _ => decode_exact (n := 5) rfl (.inl rfl)⟩,
    process_exact (n := 6) rfl (.inr rfl), fun _ => decode_exact (n := 6) rfl (.inr rfl)⟩

end AArch64_AM
end LlvmProject
