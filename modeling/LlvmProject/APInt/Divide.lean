import LlvmProject.APInt.KnuthQuotient
import LlvmProject.APInt.Multiply
import Mathlib.Data.List.DropRight

namespace LlvmProject

open List Nat

/-!
# Unsigned division

`divide` splits the words of both operands into 32-bit digits, drops the zero
digits at the top, and divides by short division when one digit is left of the
divisor and by `KnuthDiv` otherwise.  `udiv`, `urem` and `udivrem` treat the
degenerate cases first.  A failed assertion is `none`.

The out-parameters of `udivrem` may have any width before the call.  Most
paths overwrite them with integers of the width of the operands, but the
assignments `Quotient = 0` and the like keep the width they find.
-/

/-- The 32-bit digits of an array of words. -/
def splitWords : List UInt64 -> List UInt32
  | [] => []
  | tmp :: words => tmp.toUInt32 :: (tmp >>> 32).toUInt32 :: splitWords words

/-- The words of an array of digits. -/
def joinDigits : List UInt32 -> List UInt64
  | low :: high :: digits => (low.toUInt64 ||| (high.toUInt64 <<< 32)) :: joinDigits digits
  | _ => []

/-- The loops that lower `n` and `m` while the highest digit is zero. -/
def dropHighZeros (digits : List UInt32) : List UInt32 := digits.rdropWhile (· == 0)

/-- One digit of short division, and the new remainder. -/
def shortDivisionStep (divisor remainder u : UInt32) : UInt32 × UInt32 :=
  let partial_dividend := (remainder.toUInt64 <<< 32) ||| u.toUInt64
  if partial_dividend = 0 then (0, 0)
  else if partial_dividend < divisor.toUInt64 then (0, partial_dividend.toUInt32)
  else if partial_dividend = divisor.toUInt64 then (1, 0)
  else
    let q := (partial_dividend / divisor.toUInt64).toUInt32
    (q, (partial_dividend - (q * divisor).toUInt64).toUInt32)

/-- Divide by a single digit, from the highest digit down. -/
def shortDivision (divisor : UInt32) : UInt32 -> List UInt32 -> List UInt32 × UInt32
  | remainder, [] => ([], remainder)
  | remainder, u :: us =>
    let step := shortDivisionStep divisor remainder u
    let rest := shortDivision divisor step.2 us
    (step.1 :: rest.1, rest.2)

/-- Fill an array up with zero digits. -/
def zeroExtend (length : Nat) (digits : List UInt32) : List UInt32 :=
  digits ++ List.replicate (length - digits.length) 0

/-- Divide the words of `lhs` by those of `rhs`, which is not larger and not
zero.  The result is the words of the quotient and of the remainder. -/
def divide (lhs rhs : List UInt64) : List UInt64 × List UInt64 :=
  let U := splitWords lhs
  let V := splitWords rhs
  let u := dropHighZeros U
  let v := dropHighZeros V
  let result :=
    if v.length = 1 then
      let short := shortDivision (v.headD 0) 0 u.reverse
      (short.1.reverse, [short.2])
    else KnuthDiv u v
  (joinDigits (zeroExtend U.length result.1), joinDigits (zeroExtend V.length result.2))

/-! ## Digits and words -/

@[simp] theorem length_splitWords (words : List UInt64) :
    (splitWords words).length = 2 * words.length := by
  induction words with
  | nil => rfl
  | cons word words ih =>
    simp only [splitWords, length_cons, ih]
    omega

theorem digitsValue_splitWords (words : List UInt64) :
    digitsValue (splitWords words) = wordsValue words := by
  induction words with
  | nil => rfl
  | cons word words ih =>
    rw [splitWords, digitsValue_cons, digitsValue_cons, wordsValue_cons, ih,
      toNat_highDigit, UInt64.toNat_toUInt32]
    omega

@[simp] theorem length_joinDigits (count : Nat) (digits : List UInt32)
    (even : digits.length = 2 * count) : (joinDigits digits).length = count := by
  induction count generalizing digits with
  | zero => rw [length_eq_zero_iff.mp even]; rfl
  | succ count ih =>
    rcases digits with _ | ⟨low, _ | ⟨high, digits⟩⟩
    · simp at even
    · simp at even
      omega
    · rw [joinDigits, length_cons, ih digits]
      simp only [length_cons] at even
      omega

theorem wordsValue_joinDigits (count : Nat) (digits : List UInt32)
    (even : digits.length = 2 * count) : wordsValue (joinDigits digits) = digitsValue digits := by
  induction count generalizing digits with
  | zero => rw [length_eq_zero_iff.mp even]; rfl
  | succ count ih =>
    rcases digits with _ | ⟨low, _ | ⟨high, digits⟩⟩
    · simp at even
    · simp at even
      omega
    · have joined := toNat_joined high low
      rw [UInt64.or_comm] at joined
      have rest : digits.length = 2 * count := by
        simp only [length_cons] at even
        omega
      rw [joinDigits, wordsValue_cons, ih digits rest, joined, digitsValue_cons, digitsValue_cons]
      ring

private theorem digitsValue_replicate (count : Nat) : digitsValue (List.replicate count 0) = 0 := by
  rw [digitsValue, map_replicate]
  exact ofDigits_replicate_zero

@[simp] theorem digitsValue_zeroExtend (length : Nat) (digits : List UInt32) :
    digitsValue (zeroExtend length digits) = digitsValue digits := by
  rw [zeroExtend, digitsValue_append, digitsValue_replicate, mul_zero, add_zero]

theorem length_zeroExtend {length : Nat} {digits : List UInt32} (le : digits.length <= length) :
    (zeroExtend length digits).length = length := by
  rw [zeroExtend, length_append, length_replicate]
  omega

theorem digitsValue_dropHighZeros (digits : List UInt32) :
    digitsValue (dropHighZeros digits) = digitsValue digits := by
  unfold dropHighZeros
  induction digits using List.reverseRecOn with
  | nil => rfl
  | append_singleton digits last ih =>
    rw [rdropWhile_concat]
    by_cases zero : last = 0
    · simp [zero, ih, digitsValue_append]
    · simp [zero]

theorem length_dropHighZeros_le (digits : List UInt32) :
    (dropHighZeros digits).length <= digits.length :=
  (List.rdropWhile_prefix _ _).length_le

theorem dropHighZeros_top (digits : List UInt32) (nonzero : digitsValue digits ≠ 0) :
    (dropHighZeros digits).getD ((dropHighZeros digits).length - 1) 0 ≠ 0 := by
  have nonempty : dropHighZeros digits ≠ [] := by
    intro empty
    rw [<- digitsValue_dropHighZeros, empty] at nonzero
    exact nonzero rfl
  have last := rdropWhile_last_not _ digits nonempty
  have place : (dropHighZeros digits).length - 1 < (dropHighZeros digits).length := by
    have positive := length_pos_iff.mpr nonempty
    omega
  rw [getD_eq_getElem _ _ place, <- getLast_eq_getElem nonempty]
  simpa [dropHighZeros] using last

/-! ## Short division -/

/-- Each step divides the remainder and the next digit. -/
private theorem shortDivisionStep_spec {divisor remainder : UInt32} (u : UInt32)
    (below : remainder.toNat < divisor.toNat) :
    (shortDivisionStep divisor remainder u).1.toNat * divisor.toNat +
        (shortDivisionStep divisor remainder u).2.toNat = remainder.toNat * 2 ^ 32 + u.toNat ∧
      (shortDivisionStep divisor remainder u).2.toNat < divisor.toNat := by
  have dividendEq := toNat_joined remainder u
  have uLt := u.toNat_lt
  have divisorLt := divisor.toNat_lt
  unfold shortDivisionStep
  generalize (remainder.toUInt64 <<< 32) ||| u.toUInt64 = dividend at *
  have quotientLt : dividend.toNat / divisor.toNat < 2 ^ 32 := by
    refine Nat.div_lt_of_lt_mul ?_
    calc dividend.toNat < 2 ^ 32 * (remainder.toNat + 1) := by omega
      _ <= divisor.toNat * 2 ^ 32 := by rw [mul_comm]; exact Nat.mul_le_mul_right _ below
  simp only [<- UInt64.toNat_inj, UInt64.lt_iff_toNat_lt, UInt32.toNat_toUInt64, UInt64.toNat_zero]
  split
  next zero => simp only [UInt32.toNat_zero]; omega
  next =>
    split
    next small =>
      rw [toNat_toUInt32 (small.trans divisorLt)]
      simp only [UInt32.toNat_zero]
      omega
    next =>
      split
      next equal => simp only [UInt32.toNat_one, UInt32.toNat_zero]; omega
      next =>
        have split := div_add_mod' dividend.toNat divisor.toNat
        have remainderLt := mod_lt dividend.toNat (zero_lt_of_lt below)
        have digit : (dividend / divisor.toUInt64).toUInt32.toNat =
            dividend.toNat / divisor.toNat := by
          rw [toNat_toUInt32 (by rwa [UInt64.toNat_div, UInt32.toNat_toUInt64]),
            UInt64.toNat_div, UInt32.toNat_toUInt64]
        have rest : (dividend - ((dividend / divisor.toUInt64).toUInt32 *
            divisor).toUInt64).toUInt32.toNat = dividend.toNat % divisor.toNat := by
          have dividendLt := dividend.toNat_lt
          rw [UInt64.toNat_toUInt32, UInt64.toNat_sub, UInt32.toNat_toUInt64, UInt32.toNat_mul,
            digit]
          generalize dividend.toNat / divisor.toNat * divisor.toNat = prod at *
          omega
        simp only [digit, rest]
        omega

theorem shortDivision_spec {divisor : UInt32} (us : List UInt32) {remainder : UInt32}
    (below : remainder.toNat < divisor.toNat) :
    digitsValue (shortDivision divisor remainder us).1.reverse * divisor.toNat +
        (shortDivision divisor remainder us).2.toNat =
      remainder.toNat * (2 ^ 32) ^ us.length + digitsValue us.reverse ∧
    (shortDivision divisor remainder us).2.toNat < divisor.toNat ∧
    (shortDivision divisor remainder us).1.length = us.length := by
  induction us generalizing remainder with
  | nil => simpa [shortDivision] using below
  | cons u us ih =>
    obtain ⟨step, nextBelow⟩ := shortDivisionStep_spec u below
    obtain ⟨rest, restBelow, restLength⟩ := ih nextBelow
    refine ⟨?_, restBelow, by simp [shortDivision, restLength]⟩
    simp only [shortDivision]
    rw [reverse_cons, reverse_cons, digitsValue_append, digitsValue_append, length_reverse,
      length_reverse, restLength, length_cons, pow_succ (2 ^ 32) us.length]
    simp only [digitsValue_cons, digitsValue_nil, mul_zero, add_zero]
    linear_combination rest + (2 ^ 32) ^ us.length * step

/-! ## Division of word arrays -/

theorem weight_le_of_top {digits : List UInt32} (top : digits.getD (digits.length - 1) 0 ≠ 0) :
    (2 ^ 32) ^ (digits.length - 1) <= digitsValue digits := by
  have nonzero : (digits.getD (digits.length - 1) 0).toNat ≠ 0 :=
    fun same => top (UInt32.toNat_inj.mp same)
  rw [toNat_getD] at nonzero
  by_contra small
  rw [div_eq_of_lt (Nat.lt_of_not_le small)] at nonzero
  exact nonzero rfl

/-- A divisor of one digit needs no estimate. -/
theorem addBacksBelowTop_of_digitCount {x y : Nat} (single : digitCount y = 1) :
    addBacksBelowTop x y = 0 := by
  rw [addBacksBelowTop, excesses, countP_eq_zero]
  intro window _
  rw [decide_eq_true_iff, single]
  refine not_lt.mpr ((min_le_right _ _).trans ?_)
  simp

/-- A quotient of one digit has no position below the highest one. -/
theorem addBacksBelowTop_of_digitCount_le {x y : Nat} (le : digitCount x <= digitCount y) :
    addBacksBelowTop x y = 0 := by
  rw [addBacksBelowTop, divisionWindows, Nat.sub_eq_zero_of_le le]
  simp [LongDivision.windows, excesses]

theorem addBacksBelowTop_of_le {x y : Nat} (le : x <= y) : addBacksBelowTop x y = 0 := by
  refine addBacksBelowTop_of_digitCount_le ?_
  unfold digitCount
  by_cases zero : x = 0
  · simp [zero]
  · have monotone := (le_log2 (by omega : y ≠ 0)).mpr ((log2_self_le zero).trans le)
    omega

/-- Operands of one word never need an add-back below the highest position. -/
theorem addBacksBelowTop_of_lt_word {x y : Nat} (xLt : x < 2 ^ 64) : addBacksBelowTop x y = 0 := by
  by_cases single : digitCount y = 1
  · exact addBacksBelowTop_of_digitCount single
  · refine addBacksBelowTop_of_digitCount_le ?_
    have countX : digitCount x <= 2 := by
      unfold digitCount
      by_cases zero : x = 0
      · simp [zero]
      · have below := (log2_lt zero).mpr xLt
        omega
    have countY : 1 <= digitCount y := le_add_left _ _
    omega

/-- What both kinds of division return for operands without zero digits at the
top. -/
structure Divides (u v : List UInt32) (result : List UInt32 × List UInt32) : Prop where
  quotient : digitsValue result.1 = digitsValue u / digitsValue v ↔
    addBacksBelowTop (digitsValue u) (digitsValue v) <= 1
  remainder : addBacksBelowTop (digitsValue u) (digitsValue v) <= 1 ->
    digitsValue result.2 = digitsValue u % digitsValue v
  length_quotient : result.1.length <= u.length
  length_remainder : result.2.length = v.length
  quotient_le : digitsValue result.1 <= digitsValue u
  remainder_le : digitsValue result.2 <= digitsValue u

section Divide

variable {u v : List UInt32}

theorem shortDivision_divides (single : v.length = 1) (topV : v.getD (v.length - 1) 0 ≠ 0) :
    Divides u v ((shortDivision (v.headD 0) 0 u.reverse).1.reverse,
      [(shortDivision (v.headD 0) 0 u.reverse).2]) := by
  obtain ⟨divisor, rfl⟩ := length_eq_one_iff.mp single
  have nonzero : 0 < divisor.toNat := pos_of_ne_zero fun same => topV (UInt32.toNat_inj.mp same)
  have count := digitCount_digitsValue topV
  have exact := addBacksBelowTop_of_digitCount (x := digitsValue u) count
  obtain ⟨recompose, remainderLt, length⟩ := shortDivision_spec u.reverse
    (show (0 : UInt32).toNat < divisor.toNat from nonzero)
  rw [UInt32.toNat_zero, zero_mul, zero_add, reverse_reverse] at recompose
  have divisorValue : digitsValue [divisor] = divisor.toNat := by simp
  rw [headD_cons]
  have quotient : digitsValue (shortDivision divisor 0 u.reverse).1.reverse =
      digitsValue u / divisor.toNat := by
    rw [<- recompose, add_comm, add_mul_div_right _ _ nonzero, div_eq_of_lt remainderLt, zero_add]
  have remainder : (shortDivision divisor 0 u.reverse).2.toNat = digitsValue u % divisor.toNat := by
    rw [<- recompose, add_comm, add_mul_mod_self_right, mod_eq_of_lt remainderLt]
  refine ⟨?_, fun _ => ?_, ?_, rfl, ?_, ?_⟩
  · rw [exact, divisorValue, quotient]
    exact iff_of_true rfl (zero_le _)
  · simpa [divisorValue] using remainder
  · simp [length]
  · rw [quotient]
    exact Nat.div_le_self _ _
  · simpa [remainder] using mod_le _ _

private theorem KnuthDiv_divides (twoDigits : 2 <= v.length) (room : v.length <= u.length)
    (topU : u.getD (u.length - 1) 0 ≠ 0) (topV : v.getD (v.length - 1) 0 ≠ 0) :
    Divides u v (KnuthDiv u v) := by
  obtain ⟨quotient, remainder⟩ := KnuthDiv_spec twoDigits room topU topV
  obtain ⟨lengthQuotient, lengthRemainder⟩ := length_KnuthDiv room
  have weightLe := weight_le_of_top topU
  refine ⟨quotient, remainder, by omega, lengthRemainder, ?_, ?_⟩
  · have bound := digitsValue_lt (KnuthDiv u v).1
    have power : (2 ^ 32) ^ (KnuthDiv u v).1.length <= (2 ^ 32) ^ (u.length - 1) :=
      Nat.pow_le_pow_right (by decide) (by omega)
    omega
  · by_cases same : u.length = v.length
    · have exact := addBacksBelowTop_of_digitCount_le (x := digitsValue u) (y := digitsValue v)
        (by rw [digitCount_digitsValue topU, digitCount_digitsValue topV, same])
      rw [remainder (by omega)]
      exact mod_le _ _
    · have bound := digitsValue_lt (KnuthDiv u v).2
      have power : (2 ^ 32) ^ (KnuthDiv u v).2.length <= (2 ^ 32) ^ (u.length - 1) :=
        Nat.pow_le_pow_right (by decide) (by omega)
      omega

end Divide

/-- What `divide` does with the digits without zeros at the top. -/
def divideDigits (u v : List UInt32) : List UInt32 × List UInt32 :=
  if v.length = 1 then
    ((shortDivision (v.headD 0) 0 u.reverse).1.reverse, [(shortDivision (v.headD 0) 0 u.reverse).2])
  else KnuthDiv u v

/-- The words of the results have the values of their digits. -/
theorem divide_words {lhs rhs : List UInt64} (divides : Divides (dropHighZeros (splitWords lhs))
    (dropHighZeros (splitWords rhs)) (divideDigits (dropHighZeros (splitWords lhs)) (dropHighZeros
    (splitWords rhs)))) :
    (divide lhs rhs).1.length = lhs.length ∧ (divide lhs rhs).2.length = rhs.length ∧
    wordsValue (divide lhs rhs).1 = digitsValue (divideDigits (dropHighZeros (splitWords lhs))
      (dropHighZeros (splitWords rhs))).1 ∧
    wordsValue (divide lhs rhs).2 = digitsValue (divideDigits (dropHighZeros (splitWords lhs))
      (dropHighZeros (splitWords rhs))).2 := by
  have lengthU := length_dropHighZeros_le (splitWords lhs)
  have lengthV := length_dropHighZeros_le (splitWords rhs)
  have words : divide lhs rhs =
      (joinDigits (zeroExtend (splitWords lhs).length (divideDigits
        (dropHighZeros (splitWords lhs)) (dropHighZeros (splitWords rhs))).1),
      joinDigits (zeroExtend (splitWords rhs).length (divideDigits
        (dropHighZeros (splitWords lhs)) (dropHighZeros (splitWords rhs))).2)) := rfl
  rw [words]
  generalize divideDigits (dropHighZeros (splitWords lhs)) (dropHighZeros (splitWords rhs)) =
    result at *
  have evenQ : (zeroExtend (splitWords lhs).length result.1).length = 2 * lhs.length := by
    rw [length_zeroExtend (divides.length_quotient.trans lengthU), length_splitWords]
  have evenR : (zeroExtend (splitWords rhs).length result.2).length = 2 * rhs.length := by
    rw [length_zeroExtend (divides.length_remainder.trans_le lengthV), length_splitWords]
  rw [length_joinDigits _ _ evenQ, length_joinDigits _ _ evenR, wordsValue_joinDigits _ _ evenQ,
    wordsValue_joinDigits _ _ evenR, digitsValue_zeroExtend, digitsValue_zeroExtend]
  exact ⟨rfl, rfl, rfl, rfl⟩

/-- `divide` on the words of two numbers, the divisor being nonzero and not
larger than the dividend. -/
theorem divide_spec (lhs rhs : List UInt64) (nonzero : wordsValue rhs ≠ 0)
    (le : wordsValue rhs <= wordsValue lhs) :
    (divide lhs rhs).1.length = lhs.length ∧ (divide lhs rhs).2.length = rhs.length ∧
    wordsValue (divide lhs rhs).1 <= wordsValue lhs ∧
    wordsValue (divide lhs rhs).2 <= wordsValue lhs ∧
    (wordsValue (divide lhs rhs).1 = wordsValue lhs / wordsValue rhs ↔
      addBacksBelowTop (wordsValue lhs) (wordsValue rhs) <= 1) ∧
    (addBacksBelowTop (wordsValue lhs) (wordsValue rhs) <= 1 ->
      wordsValue (divide lhs rhs).2 = wordsValue lhs % wordsValue rhs) := by
  have valueU := digitsValue_dropHighZeros (splitWords lhs)
  have valueV := digitsValue_dropHighZeros (splitWords rhs)
  have topU := dropHighZeros_top (splitWords lhs) (by rw [digitsValue_splitWords]; omega)
  have topV := dropHighZeros_top (splitWords rhs) (by rwa [digitsValue_splitWords])
  rw [digitsValue_splitWords] at valueU valueV
  have divides : Divides (dropHighZeros (splitWords lhs)) (dropHighZeros (splitWords rhs))
      (divideDigits (dropHighZeros (splitWords lhs)) (dropHighZeros (splitWords rhs))) := by
    unfold divideDigits
    generalize dropHighZeros (splitWords lhs) = u at *
    generalize dropHighZeros (splitWords rhs) = v at *
    split
    next single => exact shortDivision_divides single topV
    next several =>
      have positive := length_pos_of_top topV
      refine KnuthDiv_divides (by omega) ?_ topU topV
      by_contra short
      have weightLe := weight_le_of_top topV
      have bound := digitsValue_lt u
      have power : (2 ^ 32) ^ u.length <= (2 ^ 32) ^ (v.length - 1) :=
        Nat.pow_le_pow_right (by decide) (by omega)
      omega
  rcases divide_words divides with ⟨lengthQ, lengthR, valueQ, valueR⟩
  rw [valueQ, valueR, <- valueU, <- valueV]
  exact ⟨lengthQ, lengthR, divides.quotient_le, divides.remainder_le, divides.quotient,
    divides.remainder⟩

/-- Dividing by a single digit is exact, also when the dividend is the smaller number. -/
theorem divide_digit (lhs : List UInt64) {divisor : UInt64} (nonzero : divisor.toNat ≠ 0)
    (digit : divisor.toNat < 2 ^ 32) :
    (divide lhs [divisor]).1.length = lhs.length ∧ (divide lhs [divisor]).2.length = 1 ∧
    wordsValue (divide lhs [divisor]).1 = wordsValue lhs / divisor.toNat ∧
    wordsValue (divide lhs [divisor]).2 = wordsValue lhs % divisor.toNat := by
  have value : wordsValue [divisor] = divisor.toNat := by
    rw [wordsValue_cons, wordsValue_nil, mul_zero, add_zero]
  have valueU := digitsValue_dropHighZeros (splitWords lhs)
  have valueV := digitsValue_dropHighZeros (splitWords [divisor])
  have topV := dropHighZeros_top (splitWords [divisor]) (by rwa [digitsValue_splitWords, value])
  rw [digitsValue_splitWords] at valueU valueV
  rw [value] at valueV
  have single : (dropHighZeros (splitWords [divisor])).length = 1 := by
    have weightLe := weight_le_of_top topV
    have positive := length_pos_of_top topV
    by_contra several
    have power : (2 ^ 32) ^ 1 <= (2 ^ 32) ^ ((dropHighZeros (splitWords [divisor])).length - 1) :=
      Nat.pow_le_pow_right (by decide) (by omega)
    omega
  have divides := shortDivision_divides (u := dropHighZeros (splitWords lhs)) single topV
  have exact := addBacksBelowTop_of_digitCount (x := wordsValue lhs) (y := divisor.toNat)
    (by rw [<- valueV, digitCount_digitsValue topV, single])
  have digits : divideDigits (dropHighZeros (splitWords lhs)) (dropHighZeros (splitWords [divisor])) =
      _ := if_pos single
  rw [<- digits] at divides
  rcases divide_words divides with ⟨lengthQ, lengthR, valueQ, valueR⟩
  have few : addBacksBelowTop (digitsValue (dropHighZeros (splitWords lhs)))
      (digitsValue (dropHighZeros (splitWords [divisor]))) <= 1 := by
    rw [valueU, valueV, exact]
    exact zero_le 1
  rw [valueQ, valueR, divides.quotient.mpr few, divides.remainder few, valueU, valueV]
  exact ⟨lengthQ, lengthR, rfl, rfl⟩

namespace APInt

variable {W : Nat}

/-! ## Comparison -/

/-- Compare two arrays of one length, from the most significant word down. -/
def wordsLess : List UInt64 -> List UInt64 -> Bool
  | x :: xs, y :: ys => if x > y then false else if x < y then true else wordsLess xs ys
  | _, _ => false

/-- Unsigned comparison. -/
def ult (x y : APInt W) : Bool :=
  if x.isSingleWord then x.VAL < y.VAL
  else
    let n1 := x.getActiveBits
    let n2 := y.getActiveBits
    if n1 < n2 then true
    else if n2 < n1 then false
    else if n1 <= 64 ∧ n2 <= 64 then x.VAL < y.VAL
    else
      let topWord := whichWord (max n1 n2 - 1)
      wordsLess (x.pVal.take (topWord + 1)).reverse (y.pVal.take (topWord + 1)).reverse

/-- `EqualSlowCase`. -/
def equalSlowCase (x y : APInt W) : Bool :=
  let n1 := x.getActiveBits
  let n2 := y.getActiveBits
  if n1 ≠ n2 then false
  else if n1 <= 64 then x.VAL == y.VAL
  else x.pVal.take (whichWord (n1 - 1) + 1) == y.pVal.take (whichWord (n1 - 1) + 1)

private theorem wordsLess_iff (xs ys : List UInt64) (length : xs.length = ys.length) :
    wordsLess xs ys = true ↔ wordsValue xs.reverse < wordsValue ys.reverse := by
  induction xs generalizing ys with
  | nil =>
    rw [length_eq_zero_iff.mp length.symm]
    simp [wordsLess]
  | cons x xs ih =>
    rcases ys with _ | ⟨y, ys⟩
    · simp at length
    · have sameLen : xs.length = ys.length := succ.inj length
      have xsLt := wordsValue_lt xs.reverse
      have ysLt := wordsValue_lt ys.reverse
      rw [length_reverse] at xsLt ysLt
      rw [reverse_cons, reverse_cons, wordsValue_append, wordsValue_append,
        length_reverse, length_reverse, <- sameLen]
      rw [<- sameLen] at ysLt
      simp only [wordsLess, wordsValue_cons, wordsValue_nil, mul_zero, add_zero,
        gt_iff_lt, UInt64.lt_iff_toNat_lt]
      split
      next greater =>
        have step := mul_le_mul_left ((2 ^ 64) ^ xs.length) (succ_le_of_lt greater)
        rw [mul_succ] at step
        simp only [Bool.false_eq_true, false_iff]
        omega
      next notGreater =>
        split
        next less =>
          have step := mul_le_mul_left ((2 ^ 64) ^ xs.length) (succ_le_of_lt less)
          rw [mul_succ] at step
          simp only [true_iff]
          omega
        next notLess =>
          have same : x.toNat = y.toNat := by omega
          rw [ih ys sameLen, same]
          omega

theorem VAL_eq_mod (x : APInt W) : x.VAL.toNat = x.toNat % 2 ^ 64 := by
  have nonempty : x.pVal ≠ [] := by
    intro empty
    have length := x.length_pVal
    rw [empty, length_nil] at length
    exact absurd (getNumWords_pos x.positive) (by omega)
  obtain ⟨word, words, equation⟩ := exists_cons_of_ne_nil nonempty
  have wordLt := word.toNat_lt
  rw [VAL, toNat, equation, headD_cons, wordsValue_cons]
  omega

private theorem toNat_eq_VAL_of_activeBits (x : APInt W) (small : x.getActiveBits <= 64) :
    x.toNat = x.VAL.toNat := by
  rw [getActiveBits_eq_size] at small
  rw [VAL_eq_mod, mod_eq_of_lt (size_le.mp small)]

private theorem wordsValue_take_activeBits (x : APInt W) :
    wordsValue (x.pVal.take (whichWord (x.getActiveBits - 1) + 1)) = x.toNat := by
  rw [wordsValue_take, <- pow_mul]
  refine mod_eq_of_lt (size_le.mp ?_)
  change x.toNat.size <= _
  rw [getActiveBits_eq_size, whichWord]
  omega

theorem ult_iff (x y : APInt W) : x.ult y = true ↔ x.toNat < y.toNat := by
  unfold ult
  by_cases single : W <= 64
  · rw [if_pos (by simpa [isSingleWord] using single), decide_eq_true_iff,
      UInt64.lt_iff_toNat_lt, <- x.toNat_eq_VAL single, <- y.toNat_eq_VAL single]
  · rw [if_neg (by simpa [isSingleWord] using single)]
    have monotone {left right : APInt W} (fewer : left.getActiveBits < right.getActiveBits) :
        left.toNat < right.toNat := by
      rw [getActiveBits_eq_size, getActiveBits_eq_size] at fewer
      by_contra notLess
      exact absurd (size_le_size (Nat.le_of_not_lt notLess)) (Nat.not_le_of_lt fewer)
    simp only
    split
    next fewer => simpa using monotone fewer
    next notFewer =>
      split
      next more => simpa using (monotone more).le
      next notMore =>
        have same : x.getActiveBits = y.getActiveBits := by omega
        split
        next small =>
          rw [decide_eq_true_iff, UInt64.lt_iff_toNat_lt, x.toNat_eq_VAL_of_activeBits small.1,
            y.toNat_eq_VAL_of_activeBits small.2]
        next =>
          rw [wordsLess_iff _ _ (by simp [x.length_pVal, y.length_pVal]), reverse_reverse,
            reverse_reverse, same, max_self, y.wordsValue_take_activeBits, <- same,
            x.wordsValue_take_activeBits]

theorem equalSlowCase_iff (x y : APInt W) : x.equalSlowCase y = true ↔ x = y := by
  unfold equalSlowCase
  constructor
  · intro equal
    simp only at equal
    split at equal
    next => exact absurd equal Bool.false_ne_true
    next sameBits =>
      have same : x.getActiveBits = y.getActiveBits := not_not.mp sameBits
      split at equal
      next small =>
        apply ext_toNat
        rw [x.toNat_eq_VAL_of_activeBits small, y.toNat_eq_VAL_of_activeBits (same ▸ small),
          beq_iff_eq.mp equal]
      next =>
        apply ext_toNat
        have words := congrArg wordsValue (beq_iff_eq.mp equal)
        rwa [x.wordsValue_take_activeBits, same, y.wordsValue_take_activeBits] at words
  · rintro rfl
    simp

/-! ## The division operators -/

/-- An integer of the width of `this` with a given low word. -/
def ofUInt64 (this : APInt W) (val : UInt64) : APInt W := this.copyBack [val]

/-- Store words in cleared memory; the unused bits have to be clear. -/
def store (this : APInt W) (words : List UInt64) (fitsIn : words.length <= getNumWords W)
    (clear : wordsValue words < 2 ^ W) : APInt W where
  pVal := words ++ List.replicate (getNumWords W - words.length) 0
  length_pVal := by
    rw [length_append, length_replicate]
    omega
  unusedClear := by
    rwa [wordsValue_append, wordsValue_replicate_zero, mul_zero, add_zero]
  positive := this.positive
  fits := this.fits

@[simp] theorem toNat_store (this : APInt W) (words : List UInt64)
    (fitsIn : words.length <= getNumWords W) (clear : wordsValue words < 2 ^ W) :
    (this.store words fitsIn clear).toNat = wordsValue words := by
  rw [toNat, store, wordsValue_append, wordsValue_replicate_zero, mul_zero, add_zero]

/-- The words of an integer up to its highest one bit. -/
def activeWords (x : APInt W) : List UInt64 := x.pVal.take x.usedWords

theorem divide_fits (x y : APInt W) (positive : y.toNat ≠ 0) (le : y.toNat <= x.toNat) :
    ((divide x.activeWords y.activeWords).1.length <= getNumWords W ∧
      wordsValue (divide x.activeWords y.activeWords).1 < 2 ^ W) ∧
    ((divide x.activeWords y.activeWords).2.length <= getNumWords W ∧
      wordsValue (divide x.activeWords y.activeWords).2 < 2 ^ W) := by
  have valueX : wordsValue x.activeWords = x.toNat := x.wordsValue_take_usedWords
  have valueY : wordsValue y.activeWords = y.toNat := y.wordsValue_take_usedWords
  obtain ⟨lengthQ, lengthR, quotientLe, remainderLe, _⟩ :=
    divide_spec x.activeWords y.activeWords (by rwa [valueY])
      (by rwa [valueX, valueY])
  have bound := x.toNat_lt
  have lengthX : x.activeWords.length = x.usedWords := x.length_take_usedWords
  have lengthY : y.activeWords.length = y.usedWords := y.length_take_usedWords
  have wordsX := x.usedWords_le
  have wordsY := y.usedWords_le
  omega

/-- `udiv`. -/
def udiv (x y : APInt W) : Option (APInt W) :=
  if x.isSingleWord then
    if y.VAL = 0 then none else some (x.ofUInt64 (x.VAL / y.VAL))
  else
    if zero : y.usedWords = 0 then none
    else if x.usedWords = 0 then some (x.ofUInt64 0)
    else if less : x.usedWords < y.usedWords ∨ x.ult y = true then some (x.ofUInt64 0)
    else if x.equalSlowCase y then some (x.ofUInt64 1)
    else if x.usedWords = 1 ∧ y.usedWords = 1 then some (x.ofUInt64 (x.VAL / y.VAL))
    else
      have ready := x.divide_fits y (mt y.usedWords_eq_zero_iff.mpr zero)
        (Nat.le_of_not_lt fun lt => less (Or.inr ((x.ult_iff y).mpr lt)))
      some (x.store (divide x.activeWords y.activeWords).1 ready.1.1 ready.1.2)

/-- `urem`. -/
def urem (x y : APInt W) : Option (APInt W) :=
  if x.isSingleWord then
    if y.VAL = 0 then none else some (x.ofUInt64 (x.VAL % y.VAL))
  else
    if zero : y.usedWords = 0 then none
    else if x.usedWords = 0 then some (x.ofUInt64 0)
    else if less : x.usedWords < y.usedWords ∨ x.ult y = true then some x
    else if x.equalSlowCase y then some (x.ofUInt64 0)
    else if x.usedWords = 1 then some (x.ofUInt64 (x.VAL % y.VAL))
    else
      have ready := x.divide_fits y (mt y.usedWords_eq_zero_iff.mpr zero)
        (Nat.le_of_not_lt fun lt => less (Or.inr ((x.ult_iff y).mpr lt)))
      some (x.store (divide x.activeWords y.activeWords).2 ready.2.1 ready.2.2)

/-- An integer together with its width, as an out-parameter holds it. -/
abbrev Sized : Type := Σ BitWidth, APInt BitWidth

/-- Assignment of a word to an integer of any width. -/
def assign (out : Sized) (val : UInt64) : Sized := ⟨out.1, out.2.ofUInt64 val⟩

/-- `udivrem`.  The out-parameters are given with the values they have before
the call. -/
def udivrem (LHS RHS : APInt W) (Quotient Remainder : Sized) : Option (Sized × Sized) :=
  if LHS.isSingleWord then
    if RHS.VAL = 0 then none
    else some (⟨W, LHS.ofUInt64 (LHS.VAL / RHS.VAL)⟩, ⟨W, LHS.ofUInt64 (LHS.VAL % RHS.VAL)⟩)
  else
    if LHS.usedWords = 0 then some (assign Quotient 0, assign Remainder 0)
    else if less : LHS.usedWords < RHS.usedWords ∨ LHS.ult RHS = true then
      some (assign Quotient 0, ⟨W, LHS⟩)
    else if LHS.equalSlowCase RHS then some (assign Quotient 1, assign Remainder 0)
    else if LHS.usedWords = 1 ∧ RHS.usedWords = 1 then
      some (⟨W, LHS.ofUInt64 (LHS.VAL / RHS.VAL)⟩, ⟨W, LHS.ofUInt64 (LHS.VAL % RHS.VAL)⟩)
    else if zero : RHS.usedWords = 0 then none
    else
      have ready := LHS.divide_fits RHS (mt RHS.usedWords_eq_zero_iff.mpr zero)
        (Nat.le_of_not_lt fun lt => less (Or.inr ((LHS.ult_iff RHS).mpr lt)))
      some (⟨W, LHS.store (divide LHS.activeWords RHS.activeWords).1 ready.1.1 ready.1.2⟩,
        ⟨W, LHS.store (divide LHS.activeWords RHS.activeWords).2 ready.2.1 ready.2.2⟩)

/-! ## Exactness of division -/

/-- All three operators return the quotient and the remainder as integers of
the width of the operands. -/
def DividesExactly (x y : APInt W) (Quotient Remainder : Sized) : Prop :=
  ∃ q r : APInt W, x.udiv y = some q ∧ x.urem y = some r ∧
    x.udivrem y Quotient Remainder = some (⟨W, q⟩, ⟨W, r⟩) ∧
    x.toNat = q.toNat * y.toNat + r.toNat ∧ r.toNat < y.toNat

/-- The out-parameters have the width of the operands where `udivrem` does not
change it. -/
def KeepsWidths (x y : APInt W) (Quotient Remainder : Sized) : Prop :=
  64 < W -> (x.toNat <= y.toNat -> Quotient.1 = W) ∧
    (x.toNat = 0 ∨ x.toNat = y.toNat -> Remainder.1 = W)

private theorem quotient_remainder_iff {x y q r : Nat} (nonzero : y ≠ 0) :
    x = q * y + r ∧ r < y ↔ q = x / y ∧ r = x % y := by
  constructor
  · rintro ⟨rfl, below⟩
    rw [add_comm, add_mul_div_right _ _ (pos_of_ne_zero nonzero),
      div_eq_of_lt below, add_mul_mod_self_right, mod_eq_of_lt below, zero_add]
    exact ⟨rfl, rfl⟩
  · rintro ⟨rfl, rfl⟩
    exact ⟨(div_add_mod' x y).symm, mod_lt _ (pos_of_ne_zero nonzero)⟩

/-- When the results are known, exactness is a statement about them. -/
private theorem dividesExactly_iff {x y q r : APInt W} {Quotient Remainder : Sized}
    {outs : Sized × Sized} (nonzero : y.toNat ≠ 0) (quotient : x.udiv y = some q)
    (remainder : x.urem y = some r) (both : x.udivrem y Quotient Remainder = some outs) :
    DividesExactly x y Quotient Remainder ↔
      (q.toNat = x.toNat / y.toNat ∧ r.toNat = x.toNat % y.toNat) ∧ outs = (⟨W, q⟩, ⟨W, r⟩) := by
  unfold DividesExactly
  rw [quotient, remainder, both]
  simp only [Option.some.injEq]
  constructor
  · rintro ⟨_, _, rfl, rfl, same, exact⟩
    exact ⟨(quotient_remainder_iff nonzero).mp exact, same⟩
  · rintro ⟨exact, same⟩
    exact ⟨q, r, rfl, rfl, same, (quotient_remainder_iff nonzero).mpr exact⟩

theorem toNat_ofUInt64 (this : APInt W) {val : UInt64} (valLt : val.toNat < 2 ^ W) :
    (this.ofUInt64 val).toNat = val.toNat := by
  rw [ofUInt64, toNat_copyBack, wordsValue_cons, wordsValue_nil, mul_zero, add_zero,
    mod_eq_of_lt valLt]

/-- Dividing the low words divides values that have no others. -/
private theorem oneWord_results {x y : APInt W} (xWord : x.toNat = x.VAL.toNat)
    (yWord : y.toNat = y.VAL.toNat) :
    (x.ofUInt64 (x.VAL / y.VAL)).toNat = x.toNat / y.toNat ∧
      (x.ofUInt64 (x.VAL % y.VAL)).toNat = x.toNat % y.toNat := by
  have bound := x.toNat_lt
  rw [toNat_ofUInt64, toNat_ofUInt64, UInt64.toNat_div, UInt64.toNat_mod, xWord, yWord]
  · exact ⟨rfl, rfl⟩
  · rw [UInt64.toNat_mod, <- xWord]
    exact (mod_le _ _).trans_lt bound
  · rw [UInt64.toNat_div, <- xWord]
    exact (Nat.div_le_self _ _).trans_lt bound

private theorem lt_of_fewer_words {x y : APInt W} (fewer : x.usedWords < y.usedWords) :
    x.toNat < y.toNat := by
  have valueX := x.wordsValue_take_usedWords
  have boundX := wordsValue_lt (x.pVal.take x.usedWords)
  rw [valueX, length_take_usedWords] at boundX
  unfold usedWords whichWord at fewer boundX
  rw [getActiveBits_eq_size, getActiveBits_eq_size] at *
  by_contra notLess
  have sizeLe := size_le_size (Nat.le_of_not_lt notLess)
  split at fewer <;> split at fewer <;> omega

private theorem less_iff (x y : APInt W) :
    x.usedWords < y.usedWords ∨ x.ult y = true ↔ x.toNat < y.toNat := by
  rw [ult_iff]
  exact ⟨fun either => either.elim lt_of_fewer_words id, .inr⟩

private theorem toNat_eq_VAL_of_usedWords {x : APInt W} (atMostOne : x.usedWords <= 1) :
    x.toNat = x.VAL.toNat := by
  refine x.toNat_eq_VAL_of_activeBits ?_
  unfold usedWords whichWord at atMostOne
  split at atMostOne <;> omega

private theorem assign_eq_iff (x : APInt W) (out : Sized) (val : UInt64) :
    assign out val = ⟨W, x.ofUInt64 val⟩ ↔ out.1 = W := by
  rcases out with ⟨BitWidth, before⟩
  constructor
  · intro same
    exact congrArg Sigma.fst same
  · rintro rfl
    have value : before.ofUInt64 val = x.ofUInt64 val :=
      ext_toNat (by rw [ofUInt64, ofUInt64, toNat_copyBack, toNat_copyBack])
    rw [assign, value]

/-- Where the numbers are right, the widths decide. -/
private theorem dividesExactly_iff_widths {x y q r : APInt W} {Quotient Remainder : Sized} {outs :
    Sized × Sized} (nonzero : y.toNat ≠ 0) (quotient : x.udiv y = some q) (remainder : x.urem y =
    some r) (both : x.udivrem y Quotient Remainder = some outs) (exact : q.toNat = x.toNat / y.toNat
    ∧ r.toNat = x.toNat % y.toNat) (few : addBacksBelowTop x.toNat y.toNat = 0) (widths : outs =
    (⟨W, q⟩, ⟨W, r⟩) ↔ KeepsWidths x y Quotient Remainder) :
    DividesExactly x y Quotient Remainder ↔
      addBacksBelowTop x.toNat y.toNat <= 1 ∧ KeepsWidths x y Quotient Remainder := by
  rw [dividesExactly_iff nonzero quotient remainder both, few, widths]
  exact ⟨fun held => ⟨zero_le 1, held.2⟩, fun held => ⟨exact, held.2⟩⟩

section Branches

variable {x y : APInt W} {Quotient Remainder : Sized}

/-- The statement proved for every path of the three operators. -/
private def Characterised (x y : APInt W) (Quotient Remainder : Sized) : Prop :=
  DividesExactly x y Quotient Remainder ↔
    addBacksBelowTop x.toNat y.toNat <= 1 ∧ KeepsWidths x y Quotient Remainder

section

variable (nonzero : y.toNat ≠ 0)
include nonzero

private theorem characterised_single (single : W <= 64) : Characterised x y Quotient Remainder := by
  have isSingle : x.isSingleWord = true := by simpa [isSingleWord] using single
  have yVal : ¬ y.VAL = 0 := by
    intro same
    rw [y.toNat_eq_VAL single, same] at nonzero
    exact nonzero rfl
  exact dividesExactly_iff_widths nonzero (by simp only [udiv, isSingle, if_true, yVal, if_false])
    (by simp only [urem, isSingle, if_true, yVal, if_false])
    (by simp only [udivrem, isSingle, if_true, yVal, if_false])
    (oneWord_results (x.toNat_eq_VAL single) (y.toNat_eq_VAL single))
    (addBacksBelowTop_of_lt_word
      (x.toNat_lt.trans_le (Nat.pow_le_pow_right (by decide) single)))
    (iff_of_true rfl fun several => absurd single (Nat.not_le_of_lt several))

section

variable (several : 64 < W)
include several

private theorem characterised_zero
    (zeroX : x.usedWords = 0) : Characterised x y Quotient Remainder := by
  have isSeveral : x.isSingleWord = false := by simpa [isSingleWord] using several
  have zeroY : ¬ y.usedWords = 0 := mt y.usedWords_eq_zero_iff.mp nonzero
  have valueX := x.usedWords_eq_zero_iff.mp zeroX
  have zero : (x.ofUInt64 0).toNat = 0 := x.toNat_ofUInt64 (Nat.two_pow_pos W)
  have quotient : x.udiv y = some (x.ofUInt64 0) := by simp [udiv, isSeveral, zeroX, zeroY]
  have remainder : x.urem y = some (x.ofUInt64 0) := by simp [urem, isSeveral, zeroX, zeroY]
  have both : x.udivrem y Quotient Remainder = some (assign Quotient 0, assign Remainder 0) := by
    simp [udivrem, isSeveral, zeroX]
  refine dividesExactly_iff_widths nonzero quotient remainder both (by rw [zero, valueX]; simp)
    (addBacksBelowTop_of_le (by omega)) ?_
  rw [Prod.mk.injEq, assign_eq_iff, assign_eq_iff]
  simp [KeepsWidths, several, valueX]

private theorem characterised_less
    (nonzeroX : x.usedWords ≠ 0) (less : x.usedWords < y.usedWords ∨ x.ult y = true) :
    Characterised x y Quotient Remainder := by
  have isSeveral : x.isSingleWord = false := by simpa [isSingleWord] using several
  have zeroY : ¬ y.usedWords = 0 := mt y.usedWords_eq_zero_iff.mp nonzero
  have below := (less_iff x y).mp less
  have valueX := mt x.usedWords_eq_zero_iff.mpr nonzeroX
  have zero : (x.ofUInt64 0).toNat = 0 := x.toNat_ofUInt64 (Nat.two_pow_pos W)
  have quotient : x.udiv y = some (x.ofUInt64 0) := by
    simp [udiv, isSeveral, nonzeroX, zeroY, less]
  have remainder : x.urem y = some x := by simp [urem, isSeveral, nonzeroX, zeroY, less]
  have both : x.udivrem y Quotient Remainder = some (assign Quotient 0, ⟨W, x⟩) := by
    simp [udivrem, isSeveral, nonzeroX, less]
  refine dividesExactly_iff_widths nonzero quotient remainder both
    (by rw [zero, div_eq_of_lt below, mod_eq_of_lt below]; simp)
    (addBacksBelowTop_of_le below.le) ?_
  rw [Prod.mk.injEq, assign_eq_iff]
  simp [KeepsWidths, several, below.le, below.ne, valueX]

private theorem characterised_equal (equal : x = y) : Characterised x y Quotient Remainder := by
  subst equal
  have isSeveral : x.isSingleWord = false := by simpa [isSingleWord] using several
  have nonzeroX : ¬ x.usedWords = 0 := mt x.usedWords_eq_zero_iff.mp nonzero
  have notLess := mt (less_iff x x).mp (lt_irrefl _)
  have sameWords := (x.equalSlowCase_iff x).mpr rfl
  have zero : (x.ofUInt64 0).toNat = 0 := x.toNat_ofUInt64 (Nat.two_pow_pos W)
  have one : (x.ofUInt64 1).toNat = 1 := x.toNat_ofUInt64 (Nat.one_lt_two_pow x.positive.ne')
  have quotient : x.udiv x = some (x.ofUInt64 1) := by
    simp only [udiv, isSeveral, nonzeroX, notLess, sameWords, Bool.false_eq_true, if_false,
      dif_neg, not_false_eq_true, if_true]
  have remainder : x.urem x = some (x.ofUInt64 0) := by
    simp only [urem, isSeveral, nonzeroX, notLess, sameWords, Bool.false_eq_true, if_false,
      dif_neg, not_false_eq_true, if_true]
  have both : x.udivrem x Quotient Remainder = some (assign Quotient 1, assign Remainder 0) := by
    simp only [udivrem, isSeveral, nonzeroX, notLess, sameWords, Bool.false_eq_true, if_false,
      dif_neg, not_false_eq_true, if_true]
  refine dividesExactly_iff_widths nonzero quotient remainder both
    (by rw [one, zero, Nat.div_self (pos_of_ne_zero nonzero), mod_self]; simp)
    (addBacksBelowTop_of_le le_rfl) ?_
  rw [Prod.mk.injEq, assign_eq_iff, assign_eq_iff]
  simp [KeepsWidths, several]

private theorem characterised_oneWord (above : y.toNat < x.toNat) (oneWord : x.usedWords = 1) :
    Characterised x y Quotient Remainder := by
  have isSeveral : x.isSingleWord = false := by simpa [isSingleWord] using several
  have zeroY : ¬ y.usedWords = 0 := mt y.usedWords_eq_zero_iff.mp nonzero
  have notLess := mt (less_iff x y).mp above.not_gt
  have notEqual : ¬ x.equalSlowCase y = true := by
    rw [equalSlowCase_iff]
    rintro rfl
    exact lt_irrefl _ above
  have oneWordY : y.usedWords = 1 := by
    have fewer : ¬ x.usedWords < y.usedWords := fun fewer => notLess (.inl fewer)
    omega
  have notUlt : ¬ x.ult y = true := fun less => notLess (.inr less)
  have quotient : x.udiv y = some (x.ofUInt64 (x.VAL / y.VAL)) := by
    simp [udiv, isSeveral, notUlt, notEqual, oneWord, oneWordY]
  have remainder : x.urem y = some (x.ofUInt64 (x.VAL % y.VAL)) := by
    simp [urem, isSeveral, notUlt, notEqual, oneWord, oneWordY]
  have both : x.udivrem y Quotient Remainder =
      some (⟨W, x.ofUInt64 (x.VAL / y.VAL)⟩, ⟨W, x.ofUInt64 (x.VAL % y.VAL)⟩) := by
    simp [udivrem, isSeveral, notUlt, notEqual, oneWord, oneWordY]
  have small : x.toNat < 2 ^ 64 := by
    rw [toNat_eq_VAL_of_usedWords oneWord.le]
    exact x.VAL.toNat_lt
  refine dividesExactly_iff_widths nonzero quotient remainder both
    (oneWord_results (toNat_eq_VAL_of_usedWords oneWord.le)
      (toNat_eq_VAL_of_usedWords oneWordY.le)) (addBacksBelowTop_of_lt_word small)
    (iff_of_true rfl fun _ => ⟨fun le => absurd le above.not_ge, fun either => ?_⟩)
  rcases either with zero | same <;> omega

private theorem characterised_long (above : y.toNat < x.toNat) (long : x.usedWords ≠ 1) :
    Characterised x y Quotient Remainder := by
  have isSeveral : x.isSingleWord = false := by simpa [isSingleWord] using several
  have nonzeroX : ¬ x.usedWords = 0 := by
    rw [usedWords_eq_zero_iff]
    omega
  have zeroY : ¬ y.usedWords = 0 := mt y.usedWords_eq_zero_iff.mp nonzero
  have notLess := mt (less_iff x y).mp above.not_gt
  have notEqual : ¬ x.equalSlowCase y = true := by
    rw [equalSlowCase_iff]
    rintro rfl
    exact lt_irrefl _ above
  obtain ⟨⟨fitsQ, clearQ⟩, fitsR, clearR⟩ := x.divide_fits y nonzero above.le
  have quotient : x.udiv y =
      some (x.store (divide x.activeWords y.activeWords).1 fitsQ clearQ) := by
    simp only [udiv, isSeveral, zeroY, nonzeroX, notLess, notEqual, long,
      Bool.false_eq_true, if_false, dif_neg, not_false_eq_true, false_and]
  have remainder : x.urem y =
      some (x.store (divide x.activeWords y.activeWords).2 fitsR clearR) := by
    simp only [urem, isSeveral, zeroY, nonzeroX, notLess, notEqual, long,
      Bool.false_eq_true, if_false, dif_neg, not_false_eq_true]
  have both : x.udivrem y Quotient Remainder =
      some (⟨W, x.store (divide x.activeWords y.activeWords).1 fitsQ clearQ⟩,
        ⟨W, x.store (divide x.activeWords y.activeWords).2 fitsR clearR⟩) := by
    simp only [udivrem, isSeveral, zeroY, nonzeroX, notLess, notEqual, long,
      Bool.false_eq_true, if_false, dif_neg, not_false_eq_true, false_and]
  have valueX : wordsValue x.activeWords = x.toNat := x.wordsValue_take_usedWords
  have valueY : wordsValue y.activeWords = y.toNat := y.wordsValue_take_usedWords
  obtain ⟨_, _, _, _, quotientIff, remainderEq⟩ :=
    divide_spec x.activeWords y.activeWords (by rwa [valueY])
      (by rw [valueX, valueY]; exact above.le)
  rw [valueX, valueY] at quotientIff remainderEq
  have widths : KeepsWidths x y Quotient Remainder := fun _ =>
    ⟨fun le => absurd le above.not_ge, fun either => by rcases either with zero | same <;> omega⟩
  unfold Characterised
  rw [dividesExactly_iff nonzero quotient remainder both, toNat_store, toNat_store, quotientIff]
  exact ⟨fun held => ⟨held.1.1, widths⟩, fun held => ⟨⟨held.1, remainderEq held.1⟩, rfl⟩⟩

end

end

end Branches

/-- Division is exact if and only if at most one position below the highest
one needs an add-back, and the out-parameters have the right width where they
keep it. -/
theorem dividesExactly_iff_addBacks (x y : APInt W) (Quotient Remainder : Sized)
    (nonzero : y.toNat ≠ 0) :
    DividesExactly x y Quotient Remainder ↔
      addBacksBelowTop x.toNat y.toNat <= 1 ∧ KeepsWidths x y Quotient Remainder := by
  by_cases single : W <= 64
  · exact characterised_single nonzero single
  have several : 64 < W := Nat.lt_of_not_le single
  by_cases zeroX : x.usedWords = 0
  · exact characterised_zero nonzero several zeroX
  rcases lt_trichotomy x.toNat y.toNat with below | same | above
  · exact characterised_less nonzero several zeroX ((less_iff x y).mpr below)
  · exact characterised_equal nonzero several (ext_toNat same)
  · by_cases oneWord : x.usedWords = 1
    · exact characterised_oneWord nonzero several above oneWord
    · exact characterised_long nonzero several above oneWord

/-- A dividend whose division by `addBackDivisor` adds back at one position
below the highest one. -/
def onceAddedBack : APInt 160 :=
  ⟨[0x7ffffffd00000002, 0x7fffffff80000000, 0], by decide, by decide, by decide, by decide⟩

/-- The same dividend with one more digit, which adds back at two positions. -/
def twiceAddedBack : APInt 160 :=
  ⟨[0x0000000200000000, 0x800000007ffffffd, 0x7fffffff], by decide, by decide, by decide, by decide⟩

def addBackDivisor : APInt 160 :=
  ⟨[0x00000000ffffffff, 0x80000000, 0], by decide, by decide, by decide, by decide⟩

theorem dividesExactly_onceAddedBack :
    DividesExactly onceAddedBack addBackDivisor ⟨160, onceAddedBack⟩ ⟨160, onceAddedBack⟩ := by
  refine (dividesExactly_iff_addBacks _ _ _ _ (by decide +kernel)).mpr ⟨by decide +kernel, ?_⟩
  exact fun _ => ⟨fun _ => rfl, fun _ => rfl⟩

/-- Division is not exact: the second missed borrow leaves a quotient that is
too large by one. -/
theorem division_not_exact :
    ¬ ∀ (W : Nat) (x y : APInt W) (Quotient Remainder : Sized), y.toNat ≠ 0 ->
      Quotient.1 = W -> Remainder.1 = W -> DividesExactly x y Quotient Remainder := by
  intro exact
  have excess : (twiceAddedBack.udiv addBackDivisor).map toNat =
      some (twiceAddedBack.toNat / addBackDivisor.toNat + 1) := by decide +kernel
  obtain ⟨q, r, quotient, _, _, divides⟩ := exact 160 twiceAddedBack addBackDivisor
    ⟨160, twiceAddedBack⟩ ⟨160, twiceAddedBack⟩ (by decide +kernel) rfl rfl
  have right := ((quotient_remainder_iff (by decide +kernel)).mp divides).1
  rw [quotient, Option.map_some, Option.some.injEq, right] at excess
  omega

end APInt
end LlvmProject
