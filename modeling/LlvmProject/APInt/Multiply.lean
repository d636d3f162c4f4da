import LlvmProject.APInt.Words
import LlvmProject.Library.Schoolbook

namespace LlvmProject

open List Nat Schoolbook

/-!
# Multiplication of word arrays

`mul` is the schoolbook method on 64-bit words.  The product of two words is
assembled from four products of 32-bit halves, and a carry out of the 64-bit
sum of the middle terms is detected after the fact, from the sum being zero.
The arrays of the source become lists: `mul_1` and the inner loop of `mul`
walk over the words of `x`, and the words of `dest` from position `i` on are
the window of row `i`.

The first half of the module is the code, the second half relates it to the
schoolbook method with a leak.  The middle sum is below `2^64 + 2^32`, and
the test recognises an overflow only when the wrapped sum is exactly zero.
-/

/-- One position of the inner loops: the word product of `x` and `y` plus the
incoming carry, as a result word and the carry of the next position. -/
def mulDigit (carry x y : UInt64) : UInt64 × UInt64 :=
  let ly := y &&& 0xffffffff
  let hy := y >>> 32
  let lx := x &&& 0xffffffff
  let hx := x >>> 32
  -- 0: no carry, 1: has carry, 2: no carry and the calculation result is 0
  let resul := carry + lx * ly
  let hasCarry : UInt8 := if resul < carry then 1 else 0
  let carry := hx * ly + (resul >>> 32) + (if hasCarry ≠ 0 then (1 : UInt64) <<< 32 else 0)
  let hasCarry : UInt8 := if carry = 0 ∧ hasCarry ≠ 0 then 1 else if carry = 0 then 2 else 0
  let carry := carry + ((lx * hy) &&& 0xffffffff)
  let resul := (carry <<< 32) ||| (resul &&& 0xffffffff)
  (resul,
    (if (carry = 0 ∧ hasCarry ≠ 2) ∨ hasCarry = 1 then (1 : UInt64) <<< 32 else 0) +
      (carry >>> 32) + ((lx * hy) >>> 32) + hx * hy)

/-- Multiply all words of `x` by `y`.  The result is the words of `dest` and
the carry out of the multiplication. -/
def mul_1 (y : UInt64) : UInt64 -> List UInt64 -> List UInt64 × UInt64
  | carry, [] => ([], carry)
  | carry, x :: xs =>
    let digit := mulDigit carry x y
    let rest := mul_1 y digit.2 xs
    (digit.1 :: rest.1, rest.2)

/-- The inner loop of `mul`: add the multiple of `x` to the window of `dest`
and store the last carry above it. -/
def mulInner (y : UInt64) : UInt64 -> List UInt64 -> List UInt64 -> List UInt64
  | carry, _, [] => [carry]
  | carry, dest, x :: xs =>
    let digit := mulDigit carry x y
    let sum := dest.headD 0 + digit.1
    sum :: mulInner y (digit.2 + (if sum < digit.1 then 1 else 0)) dest.tail xs

/-- The outer loop of `mul`.  After a row the lowest word of its window is
final. -/
def mulOuter (x : List UInt64) : List UInt64 -> List UInt64 -> List UInt64
  | dest, [] => dest
  | dest, y :: ys =>
    let next := mulInner y 0 dest x
    next.headD 0 :: mulOuter x next.tail ys

/-- Multiply two word arrays; the second one is not empty. -/
def mul (x : List UInt64) : List UInt64 -> List UInt64
  | [] => []
  | y :: ys =>
    let first := mul_1 y 0 x
    let dest := first.1 ++ [first.2]
    dest.headD 0 :: mulOuter x dest.tail ys

/-! ## One position -/

/-- The sum of the middle terms of a word product, `2^32` being its unit. -/
def middleSum (carry x y : Nat) : Nat :=
  x / 2 ^ 32 * (y % 2 ^ 32) + (carry + x % 2 ^ 32 * (y % 2 ^ 32)) / 2 ^ 32 +
    x % 2 ^ 32 * (y / 2 ^ 32) % 2 ^ 32

/-- The carry is lost when the middle sum runs past `2^64`. -/
def lostCarry : Leak := fun carry x y =>
  if 2 ^ 64 < middleSum carry x y then 2 ^ 32 else 0

theorem lostCarry_le (carry x y : Nat) : lostCarry carry x y <= 2 ^ 32 := by
  unfold lostCarry
  split <;> omega

/-- A number splits into its low and high half. -/
private theorem halves (x : Nat) : x = x % 2 ^ 32 + 2 ^ 32 * (x / 2 ^ 32) :=
  (mod_add_div x (2 ^ 32)).symm

private theorem product_eq (x y : Nat) :
    x * y = x % 2 ^ 32 * (y % 2 ^ 32) +
      2 ^ 32 * (x / 2 ^ 32 * (y % 2 ^ 32) + x % 2 ^ 32 * (y / 2 ^ 32)) +
      2 ^ 64 * (x / 2 ^ 32 * (y / 2 ^ 32)) := by
  conv_lhs => rw [halves x, halves y]
  ring

/-- The middle sum is what a position adds above its low half word. -/
theorem middleSum_spec (carry x y : Nat) :
    carry + x * y = (carry + x % 2 ^ 32 * (y % 2 ^ 32)) % 2 ^ 32 +
      2 ^ 32 * middleSum carry x y +
      2 ^ 64 * (x % 2 ^ 32 * (y / 2 ^ 32) / 2 ^ 32 + x / 2 ^ 32 * (y / 2 ^ 32)) := by
  rw [product_eq x y]
  unfold middleSum
  omega

theorem lostCarry_within (carry x y : Nat) : 2 ^ 64 * lostCarry carry x y <= carry + x * y := by
  have spec := middleSum_spec carry x y
  unfold lostCarry
  split <;> omega

private theorem toNat_low (x : UInt64) : (x &&& 0xffffffff).toNat = x.toNat % 2 ^ 32 := by
  rw [UInt64.toNat_and]
  exact and_two_pow_sub_one_eq_mod x.toNat 32

private theorem toNat_high (x : UInt64) : (x >>> 32).toNat = x.toNat / 2 ^ 32 := by
  rw [UInt64.toNat_shiftRight]
  exact shiftRight_eq_div_pow x.toNat 32

private theorem half_mul_le {left right : Nat} (leftLt : left < 2 ^ 32) (rightLt : right < 2 ^ 32) :
    left * right <= (2 ^ 32 - 1) * (2 ^ 32 - 1) :=
  Nat.mul_le_mul (by omega) (by omega)

private theorem toNat_half_mul {left right : UInt64} (leftLt : left.toNat < 2 ^ 32)
    (rightLt : right.toNat < 2 ^ 32) : (left * right).toNat = left.toNat * right.toNat := by
  rw [UInt64.toNat_mul, mod_eq_of_lt]
  exact (half_mul_le leftLt rightLt).trans_lt (by norm_num)

/-- The result word of a position joins the low halves of two sums. -/
private theorem toNat_join (high low : UInt64) :
    ((high <<< 32) ||| (low &&& 0xffffffff)).toNat =
      2 ^ 32 * (high.toNat % 2 ^ 32) + low.toNat % 2 ^ 32 := by
  have shifted : (high <<< 32).toNat = (high.toNat % 2 ^ 32) <<< 32 := by
    rw [UInt64.toNat_shiftLeft]
    change high.toNat <<< 32 % 2 ^ 64 = _
    rw [Nat.shiftLeft_eq, Nat.shiftLeft_eq]
    omega
  rw [UInt64.toNat_or, shifted, toNat_low,
    <- shiftLeft_add_eq_or_of_lt (mod_lt _ (by decide)), Nat.shiftLeft_eq,
    mul_comm]

private theorem add_lt_left_iff (left right : UInt64) :
    left + right < left ↔ 2 ^ 64 <= left.toNat + right.toNat := by
  have leftLt := left.toNat_lt
  have rightLt := right.toNat_lt
  rw [UInt64.lt_iff_toNat_lt, UInt64.toNat_add]
  omega

/-- The first sum of a position with its carry: together they are exact, and
the carry flag of the source is the one that a wrapped sum leaves. -/
private theorem carryStage (carry : UInt64) {prod high : UInt64} (productLe : prod.toNat <= (2
    ^ 32 - 1) * (2 ^ 32 - 1)) (highLe : high.toNat <= (2 ^ 32 - 1) * (2 ^ 32 - 1)) :
    (high + ((carry + prod) >>> 32) +
        (if (if carry + prod < carry then (1 : UInt8) else 0) ≠ 0 then
          (1 : UInt64) <<< 32 else 0)).toNat =
      high.toNat + (carry.toNat + prod.toNat) / 2 ^ 32 := by
  have carryLt := carry.toNat_lt
  have unit : ((1 : UInt64) <<< 32).toNat = 2 ^ 32 := rfl
  rw [UInt64.toNat_add, UInt64.toNat_add, toNat_high, UInt64.toNat_add]
  by_cases overflow : carry + prod < carry
  · have wrapped := (add_lt_left_iff carry prod).mp overflow
    rw [if_pos overflow, if_pos (by decide), unit]
    omega
  · have exact := mt (add_lt_left_iff carry prod).mpr overflow
    rw [if_neg overflow, if_neg (by decide), UInt64.toNat_zero]
    omega

/-- The three-valued flag of the source recognises exactly one overflowing
middle sum. -/
private theorem carryFlag {carry prod middle addend : UInt64}
    (noneAtZero : middle = 0 -> ¬ carry + prod < carry) (addendLt : addend.toNat < 2 ^ 32) :
    let hasCarry : UInt8 :=
      if middle = 0 ∧ (if carry + prod < carry then (1 : UInt8) else 0) ≠ 0 then 1
      else if middle = 0 then 2 else 0
    ((middle + addend = 0 ∧ hasCarry ≠ 2) ∨ hasCarry = 1) ↔
      middle.toNat + addend.toNat = 2 ^ 64 := by
  have middleLt := middle.toNat_lt
  by_cases zero : middle = 0
  · have bound : middle.toNat + addend.toNat ≠ 2 ^ 64 := by
      rw [zero, UInt64.toNat_zero]
      omega
    have flag : (if carry + prod < carry then (1 : UInt8) else 0) = 0 := if_neg (noneAtZero zero)
    simp [zero, flag] at bound ⊢
    omega
  · have nonzero : middle.toNat ≠ 0 := fun same => zero (UInt64.toNat_inj.mp same)
    simp only [zero, false_and, if_false]
    rw [<- UInt64.toNat_inj, UInt64.toNat_add, UInt64.toNat_zero]
    constructor
    · rintro (⟨wrapped, _⟩ | never)
      · omega
      · exact absurd never (by decide)
    · intro sum
      exact .inl ⟨by omega, by decide⟩

/-- A position whose carry does not exceed the multiplier computes the exact
digit, and the exact carry less the lost one. -/
theorem mulDigit_spec {carry x y : UInt64} (carryLe : carry.toNat <= y.toNat) :
    (mulDigit carry x y).1.toNat = (carry.toNat + x.toNat * y.toNat) % 2 ^ 64 ∧
      (mulDigit carry x y).2.toNat =
        (carry.toNat + x.toNat * y.toNat) / 2 ^ 64 - lostCarry carry.toNat x.toNat y.toNat := by
  have spec := middleSum_spec carry.toNat x.toNat y.toNat
  have within := lostCarry_within carry.toNat x.toNat y.toNat
  have quotientLe := total_div_le carryLe x.toNat_lt (Nat.two_pow_pos 64)
  have yLt := y.toNat_lt
  unfold Schoolbook.total at quotientLe
  have lxEq := toNat_low x
  have lyEq := toNat_low y
  have hxEq := toNat_high x
  have hyEq := toNat_high y
  simp only [mulDigit]
  generalize x &&& 0xffffffff = lx at *
  generalize y &&& 0xffffffff = ly at *
  generalize x >>> 32 = hx at *
  generalize y >>> 32 = hy at *
  have lxLt : lx.toNat < 2 ^ 32 := by rw [lxEq]; exact mod_lt _ (by decide)
  have lyLt : ly.toNat < 2 ^ 32 := by rw [lyEq]; exact mod_lt _ (by decide)
  have hxLt : hx.toNat < 2 ^ 32 := by have := x.toNat_lt; omega
  have hyLt : hy.toNat < 2 ^ 32 := by omega
  have stage := carryStage carry
    (show (lx * ly).toNat <= _ by rw [toNat_half_mul lxLt lyLt]; exact half_mul_le lxLt lyLt)
    (show (hx * ly).toNat <= _ by rw [toNat_half_mul hxLt lyLt]; exact half_mul_le hxLt lyLt)
  have noneAtZero : hx * ly + ((carry + lx * ly) >>> 32) +
      (if (if carry + lx * ly < carry then (1 : UInt8) else 0) ≠ 0 then
        (1 : UInt64) <<< 32 else 0) = 0 -> ¬ carry + lx * ly < carry := by
    intro zero overflow
    have wrapped := (add_lt_left_iff carry (lx * ly)).mp overflow
    rw [zero, UInt64.toNat_zero] at stage
    omega
  rw [toNat_half_mul lxLt lyLt, toNat_half_mul hxLt lyLt] at stage
  generalize hx * ly + ((carry + lx * ly) >>> 32) +
    (if (if carry + lx * ly < carry then (1 : UInt8) else 0) ≠ 0 then
      (1 : UInt64) <<< 32 else 0) = middle at *
  have addendEq := toNat_low (lx * hy)
  rw [toNat_half_mul lxLt hyLt] at addendEq
  have flag := carryFlag noneAtZero
    (show ((lx * hy) &&& 0xffffffff).toNat < 2 ^ 32 by omega)
  simp only [addendEq] at flag
  have middleEq : middleSum carry.toNat x.toNat y.toNat =
      middle.toNat + lx.toNat * hy.toNat % 2 ^ 32 := by
    rw [middleSum, stage, lxEq, lyEq, hxEq, hyEq]
  have unit : ((1 : UInt64) <<< 32).toNat = 2 ^ 32 := rfl
  have highLe := half_mul_le hxLt hyLt
  have crossLe := half_mul_le lxLt hyLt
  have middleLt := middle.toNat_lt
  simp only [toNat_join, UInt64.toNat_add, toNat_high, toNat_half_mul hxLt hyLt,
    toNat_half_mul lxLt hyLt, toNat_half_mul lxLt lyLt, apply_ite UInt64.toNat, unit,
    UInt64.toNat_zero, addendEq, flag]
  rw [<- lxEq, <- lyEq, <- hyEq, <- hxEq] at spec
  unfold lostCarry at within ⊢
  rw [middleEq] at spec within ⊢
  constructor
  · omega
  · split <;> split <;> omega

/-! ## Whole arrays -/

private theorem headD_map_toNat (words : List UInt64) :
    (words.map UInt64.toNat).headD 0 = (words.headD 0).toNat := by
  cases words <;> rfl

/-- One step of the inner loop is one position of the leaking row. -/
private theorem mulInner_position {carry y : UInt64} (x dest : UInt64)
    (carryLe : carry.toNat <= y.toNat) : let digit := mulDigit carry x y
    let total := Schoolbook.total carry.toNat x.toNat y.toNat dest.toNat
    (dest + digit.1).toNat = total % 2 ^ 64 ∧
      (digit.2 + (if dest + digit.1 < digit.1 then 1 else 0)).toNat =
        total / 2 ^ 64 - lostCarry carry.toNat x.toNat y.toNat ∧
      total / 2 ^ 64 <= y.toNat := by
  obtain ⟨low, high⟩ := mulDigit_spec (x := x) carryLe
  have within := lostCarry_within carry.toNat x.toNat y.toNat
  have quotientLe := total_div_le carryLe x.toNat_lt dest.toNat_lt
  have yLt := y.toNat_lt
  have destLt := dest.toNat_lt
  have swap := add_lt_left_iff (mulDigit carry x y).1 dest
  rw [UInt64.add_comm] at swap
  unfold Schoolbook.total at quotientLe ⊢
  simp only
  rw [UInt64.toNat_add, UInt64.toNat_add, apply_ite UInt64.toNat, UInt64.toNat_one,
    UInt64.toNat_zero, low, high]
  simp only [swap, low]
  refine ⟨by omega, ?_, quotientLe⟩
  split <;> omega

/-- The inner loop computes a row of the leaking method. -/
theorem map_mulInner (y carry : UInt64) (dest xs : List UInt64) (carryLe : carry.toNat <= y.toNat) :
    (mulInner y carry dest xs).map UInt64.toNat =
      Schoolbook.row (2 ^ 64) lostCarry y.toNat carry.toNat (dest.map UInt64.toNat)
        (xs.map UInt64.toNat) := by
  induction xs generalizing carry dest with
  | nil => rfl
  | cons x xs ih =>
    obtain ⟨low, high, quotientLe⟩ := mulInner_position x (dest.headD 0) carryLe
    simp only [mulInner, List.map_cons, Schoolbook.row, headD_map_toNat]
    rw [ih _ _ (by rw [high]; exact (sub_le _ _).trans quotientLe), low, high, map_tail]

/-- The first row, which finds no earlier words. -/
theorem map_mul_1 (y carry : UInt64) (xs : List UInt64) (carryLe : carry.toNat <= y.toNat) :
    ((mul_1 y carry xs).1 ++ [(mul_1 y carry xs).2]).map UInt64.toNat =
      Schoolbook.row (2 ^ 64) lostCarry y.toNat carry.toNat [] (xs.map UInt64.toNat) := by
  induction xs generalizing carry with
  | nil => rfl
  | cons x xs ih =>
    obtain ⟨low, high⟩ := mulDigit_spec (x := x) carryLe
    have quotientLe := total_div_le carryLe x.toNat_lt
      (Nat.two_pow_pos 64)
    simp only [Schoolbook.total, add_zero] at quotientLe
    simp only [mul_1, cons_append, List.map_cons, Schoolbook.row, Schoolbook.total,
      headD_nil, tail_nil, add_zero]
    rw [ih _ (by rw [high]; exact (sub_le _ _).trans quotientLe), low, high]

theorem map_mulOuter (xs dest ys : List UInt64) :
    (mulOuter xs dest ys).map UInt64.toNat =
      rows (2 ^ 64) lostCarry (xs.map UInt64.toNat) (dest.map UInt64.toNat)
        (ys.map UInt64.toNat) := by
  induction ys generalizing dest with
  | nil => rfl
  | cons y ys ih =>
    have row := map_mulInner y 0 dest xs (zero_le _)
    rw [UInt64.toNat_zero] at row
    simp only [mulOuter, List.map_cons, rows]
    rw [ih, <- row, headD_map_toNat, map_tail]

/-- `mul` is the schoolbook method with the leak of its carry detection. -/
theorem map_mul_words (xs ys : List UInt64) :
    (mul xs ys).map UInt64.toNat =
      rows (2 ^ 64) lostCarry (xs.map UInt64.toNat) [] (ys.map UInt64.toNat) := by
  cases ys with
  | nil => rfl
  | cons y ys =>
    have row := map_mul_1 y 0 xs (zero_le _)
    rw [UInt64.toNat_zero] at row
    simp only [mul, List.map_cons, rows]
    rw [map_mulOuter, <- row, headD_map_toNat, map_tail]

namespace APInt

variable {W : Nat}

/-- Clear all words, copy `dest` back and clear the unused bits. -/
def copyBack (this : APInt W) (dest : List UInt64) : APInt W :=
  let wordsToCopy := if dest.length >= getNumWords W then getNumWords W else dest.length
  this.withWords (dest.take wordsToCopy ++ List.replicate (getNumWords W - wordsToCopy) 0) (by
    rw [length_append, length_take, length_replicate]
    simp only [wordsToCopy]
    split <;> omega)

/-- The source's `operator*=`. -/
def mulAssign (x y : APInt W) : APInt W :=
  if x.isSingleWord then
    x.copyBack [x.VAL * y.VAL]
  else if x.usedWords = 0 then
    x
  else if y.usedWords = 0 then
    x.copyBack []
  else
    x.copyBack (mul (x.pVal.take x.usedWords) (y.pVal.take y.usedWords))

/-- The source's `operator*`. -/
def mul (x y : APInt W) : APInt W :=
  if x.isSingleWord then x.copyBack [x.VAL * y.VAL] else x.mulAssign y

/-- The weight of the carries that the multiplication of the source would lose
at the positions of the exact schoolbook multiplication. -/
def lostCarries (x y : APInt W) : Nat :=
  2 ^ 64 * rowsLoss (2 ^ 64) exactly lostCarry
    ((x.pVal.take x.usedWords).map UInt64.toNat) [] ((y.pVal.take y.usedWords).map UInt64.toNat)

@[simp] theorem toNat_copyBack (this : APInt W) (dest : List UInt64) :
    (this.copyBack dest).toNat = wordsValue dest % 2 ^ W := by
  have positive := this.positive
  unfold copyBack
  rw [toNat_withWords, wordsValue_append, wordsValue_replicate_zero, mul_zero, add_zero]
  by_cases long : dest.length >= getNumWords W
  · rw [if_pos long, wordsValue_take, <- pow_mul]
    refine mod_mod_of_dvd _ (pow_dvd_pow 2 ?_)
    unfold getNumWords
    omega
  · rw [if_neg long, take_length]

/-- The carries that the multiplication of the source really loses. -/
private def carriesLost (x y : APInt W) : Nat :=
  2 ^ 64 * rowsLoss (2 ^ 64) lostCarry lostCarry
    ((x.pVal.take x.usedWords).map UInt64.toNat) [] ((y.pVal.take y.usedWords).map UInt64.toNat)

/-- The computed words fall short of the product by the lost carries. -/
private theorem wordsValue_mul (x y : APInt W) :
    wordsValue (LlvmProject.mul (x.pVal.take x.usedWords) (y.pVal.take y.usedWords)) +
      x.carriesLost y = x.toNat * y.toNat := by
  have prod := ofDigits_rows lostCarry_within (Nat.two_pow_pos 64)
    ((x.pVal.take x.usedWords).map UInt64.toNat) []
    ((y.pVal.take y.usedWords).map UInt64.toNat) (zero_le _)
  rw [ofDigits_nil, zero_add] at prod
  rw [wordsValue, map_mul_words, carriesLost, prod, <- x.wordsValue_take_usedWords,
    <- y.wordsValue_take_usedWords]
  rfl

/-- The real losses and those counted on the exact multiplication vanish
modulo the width together. -/
private theorem dvd_carriesLost_iff (x y : APInt W) (several : 64 < W) :
    2 ^ W ∣ x.carriesLost y ↔ 2 ^ W ∣ x.lostCarries y := by
  have fits := x.fits
  have wordsLe := y.usedWords_le
  have count : getNumWords W < 2 ^ 32 := by unfold getNumWords; omega
  have weight : 2 ^ W = 2 ^ 64 * 2 ^ (W - 64) := by
    rw [<- pow_add]
    congr 1
    omega
  have few : ((y.pVal.take y.usedWords).map UInt64.toNat).length * 2 ^ 32 < 2 ^ 64 := by
    rw [length_map, length_take_usedWords]
    omega
  unfold carriesLost lostCarries
  rw [weight, Nat.mul_dvd_mul_iff_left (Nat.two_pow_pos 64),
    Nat.mul_dvd_mul_iff_left (Nat.two_pow_pos 64)]
  refine dvd_rowsLoss_iff lostCarry_le _ _ few (by decide)
    (n := getNumWords W - 2) ?_ ?_
  · rw [<- pow_mul]
    refine pow_dvd_pow 2 ?_
    unfold getNumWords
    omega
  · rw [<- pow_mul]
    refine pow_dvd_pow 2 ?_
    unfold getNumWords
    omega

/-- A number that falls short of another is congruent to it exactly when the
difference is a multiple of the modulus. -/
private theorem mod_eq_iff_dvd (modulus : Nat) {computed lost prod : Nat}
    (sum : computed + lost = prod) :
    computed % modulus = prod % modulus ↔ modulus ∣ lost := by
  rw [<- sum]
  constructor
  · intro same
    exact (modEq_zero_iff_dvd.mp (Nat.ModEq.add_left_cancel' computed
      (show computed + lost ≡ computed + 0 [MOD modulus] from same.symm)))
  · rintro ⟨quot, rfl⟩
    exact (add_mul_mod_self_left _ _ _).symm

theorem mulAssign_eq_iff (x y : APInt W) :
    (x.mulAssign y).toNat = x.toNat * y.toNat % 2 ^ W ↔ 2 ^ W ∣ x.lostCarries y := by
  by_cases single : W <= 64
  · refine iff_of_true ?_ ?_
    · rw [mulAssign, if_pos (by simpa [isSingleWord] using single), toNat_copyBack,
        x.toNat_eq_VAL single, y.toNat_eq_VAL single, wordsValue_cons, wordsValue_nil,
        mul_zero, add_zero, UInt64.toNat_mul]
      exact mod_mod_of_dvd _ (pow_dvd_pow 2 single)
    · exact (pow_dvd_pow 2 single).mul_right _
  · have several : 64 < W := Nat.lt_of_not_le single
    have exactness := mod_eq_iff_dvd (2 ^ W) (wordsValue_mul x y)
    rw [<- dvd_carriesLost_iff x y several, <- exactness, mulAssign,
      if_neg (by simpa [isSingleWord] using single)]
    have prod := wordsValue_mul x y
    by_cases xZero : x.usedWords = 0
    · have value := x.usedWords_eq_zero_iff.mp xZero
      rw [value, zero_mul] at prod ⊢
      rw [if_pos xZero, (Nat.add_eq_zero_iff.mp prod).1]
      simp [value]
    · by_cases yZero : y.usedWords = 0
      · have value := y.usedWords_eq_zero_iff.mp yZero
        rw [value, mul_zero] at prod ⊢
        rw [if_neg xZero, if_pos yZero, (Nat.add_eq_zero_iff.mp prod).1]
        simp
      · rw [if_neg xZero, if_neg yZero, toNat_copyBack]

theorem mul_eq_mulAssign (x y : APInt W) : x.mul y = x.mulAssign y := by
  unfold mul mulAssign
  split <;> rfl

/-- Both multiplication operators return the product modulo `2 ^ W` exactly
when the carries lost along the exact multiplication cancel modulo `2 ^ W`. -/
theorem mul_exact_iff (x y : APInt W) :
    ((x.mul y).toNat = x.toNat * y.toNat % 2 ^ W ∧
      (x.mulAssign y).toNat = x.toNat * y.toNat % 2 ^ W) ↔ 2 ^ W ∣ x.lostCarries y := by
  rw [mul_eq_mulAssign, and_self, mulAssign_eq_iff]

/-- A factor whose second position has a middle sum of `2^64 + 4`. -/
def leakyFactor : APInt 192 :=
  ⟨[0xffffffffffffffff, 0xfffffffffffffffd, 0], by decide, by decide, by decide, by decide⟩

def leakyMultiplier : APInt 192 :=
  ⟨[0xfffffffdffffffff, 0, 0], by decide, by decide, by decide, by decide⟩

/-- Multiplication is not exact: the product of two 192-bit values comes out
short by `2^160`. -/
theorem mul_not_exact :
    ¬ ∀ (W : Nat) (x y : APInt W), (x.mul y).toNat = x.toNat * y.toNat % 2 ^ W := by
  intro exact
  have short : (leakyFactor.mul leakyMultiplier).toNat + 2 ^ 160 =
      leakyFactor.toNat * leakyMultiplier.toNat % 2 ^ 192 := by decide +kernel
  rw [exact] at short
  omega

end APInt
end LlvmProject
