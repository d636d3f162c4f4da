import LlvmProject.APInt.Bignum

namespace LlvmProject

open Nat hiding shiftLeft shiftRight
open List Option

namespace Bignum

open APInt.Shifts

/-!
# Multiplication of bignums is exact

A step of the inner loop loses nothing: a product of parts, a carry and a part of the destination
together fit into two parts.  A row that has to end early overflows if it has a carry left, or if
the multiplier and the parts that it did not reach are not zero.
-/

/-! ## Parts -/

section Parts

section

variable (part : UInt64)

theorem toNat_lowHalf : (lowHalf part).toNat = part.toNat % 2 ^ 32 := by
  rw [lowHalf, UInt64.toNat_and]
  exact and_two_pow_sub_one_eq_mod part.toNat 32

theorem toNat_highHalf : (highHalf part).toNat = part.toNat / 2 ^ 32 := by
  rw [highHalf, shiftRight, UInt64.toNat_shiftRight, toNat_amount (by decide),
    shiftRight_eq_div_pow]

theorem lowHalf_lt : (lowHalf part).toNat < 2 ^ 32 := by
  rw [toNat_lowHalf]
  exact mod_lt _ (by decide)

theorem highHalf_lt : (highHalf part).toNat < 2 ^ 32 := by
  have bound := part.toNat_lt
  rw [toNat_highHalf]
  omega

theorem highHalf_mul_add : (highHalf part).toNat * 2 ^ 32 + (lowHalf part).toNat = part.toNat := by
  rw [toNat_highHalf, toNat_lowHalf]
  exact div_add_mod' part.toNat (2 ^ 32)

end

theorem toNat_mul_of_halves {a b : UInt64} (left : a.toNat < 2 ^ 32) (right : b.toNat < 2 ^ 32) :
    (a * b).toNat = a.toNat * b.toNat := by
  rw [UInt64.toNat_mul]
  exact mod_eq_of_lt (lt_of_lt_of_le (mul_lt_mul'' left right) (by decide))

/-- The value of a low and a high part. -/
def pairValue (pair : UInt64 × UInt64) : Nat := pair.1.toNat + 2 ^ 64 * pair.2.toNat

theorem pairValue_addLow (pair : UInt64 × UInt64) (addend : UInt64)
    (fits : pairValue pair + addend.toNat < 2 ^ 128) :
    pairValue (addLow pair addend) = pairValue pair + addend.toNat := by
  have low := pair.1.toNat_lt
  have high := pair.2.toNat_lt
  have added := addend.toNat_lt
  simp only [pairValue] at fits
  have sum : (pair.1 + addend).toNat = (pair.1.toNat + addend.toNat) % 2 ^ 64 :=
    UInt64.toNat_add _ _
  by_cases carries : pair.1 + addend < pair.1
  · have wraps : 2 ^ 64 <= pair.1.toNat + addend.toNat := by
      rw [UInt64.lt_iff_toNat_lt, sum] at carries
      omega
    have next : (pair.2 + 1).toNat = pair.2.toNat + 1 := by
      rw [UInt64.toNat_add, UInt64.toNat_one]
      omega
    rw [pairValue, addLow, if_pos carries, pairValue]
    dsimp only
    rw [sum, next]
    omega
  · have stays : pair.1.toNat + addend.toNat < 2 ^ 64 := by
      rw [UInt64.lt_iff_toNat_lt, sum] at carries
      omega
    rw [pairValue, addLow, if_neg carries, pairValue]
    dsimp only
    rw [sum]
    omega

theorem pairValue_addMiddle (pair : UInt64 × UInt64) (addend : UInt64)
    (fits : pairValue pair + addend.toNat * 2 ^ 32 < 2 ^ 128) :
    pairValue (addMiddle pair addend) = pairValue pair + addend.toNat * 2 ^ 32 := by
  have split := highHalf_mul_add addend
  have high := pair.2.toNat_lt
  have upper := highHalf_lt addend
  have lower := lowHalf_lt addend
  have shifted : (shiftLeft addend 32).toNat = (lowHalf addend).toNat * 2 ^ 32 := by
    rw [shiftLeft, UInt64.toNat_shiftLeft, toNat_amount (by decide), shiftLeft_eq, toNat_lowHalf]
    omega
  simp only [pairValue] at fits
  have next : (pair.2 + highHalf addend).toNat = pair.2.toNat + (highHalf addend).toNat := by
    rw [UInt64.toNat_add]
    omega
  have moved : pairValue (pair.1, pair.2 + highHalf addend) + (lowHalf addend).toNat * 2 ^ 32 =
      pairValue pair + addend.toNat * 2 ^ 32 := by
    simp only [pairValue, next]
    omega
  rw [addMiddle, pairValue_addLow _ _ (by rw [shifted, moved]; exact fits), shifted, moved]

theorem pairValue_multiplyPart (srcPart mult carry : UInt64) :
    pairValue (multiplyPart srcPart mult carry) = srcPart.toNat * mult.toNat + carry.toNat := by
  rw [multiplyPart]
  by_cases zero : mult = 0 ∨ srcPart = 0
  · have prod : srcPart.toNat * mult.toNat = 0 := by
      rcases zero with rfl | rfl
      · exact mul_zero _
      · exact zero_mul _
    rw [if_pos zero, prod, pairValue, UInt64.toNat_zero, mul_zero, add_zero, zero_add]
  · have bound : srcPart.toNat * mult.toNat + carry.toNat < 2 ^ 128 := by
      have prod : srcPart.toNat * mult.toNat <= (2 ^ 64 - 1) * (2 ^ 64 - 1) :=
        Nat.mul_le_mul (Nat.le_sub_one_of_lt srcPart.toNat_lt)
          (Nat.le_sub_one_of_lt mult.toNat_lt)
      have small := carry.toNat_lt
      omega
    have expand : (lowHalf srcPart).toNat * (lowHalf mult).toNat +
          2 ^ 64 * ((highHalf srcPart).toNat * (highHalf mult).toNat) +
        (lowHalf srcPart).toNat * (highHalf mult).toNat * 2 ^ 32 +
        (highHalf srcPart).toNat * (lowHalf mult).toNat * 2 ^ 32 = srcPart.toNat * mult.toNat := by
      rw [<- highHalf_mul_add srcPart, <- highHalf_mul_add mult]
      ring
    have start : pairValue (lowHalf srcPart * lowHalf mult,
        highHalf srcPart * highHalf mult) =
          (lowHalf srcPart).toNat * (lowHalf mult).toNat +
            2 ^ 64 * ((highHalf srcPart).toNat * (highHalf mult).toNat) := by
      rw [pairValue, toNat_mul_of_halves (lowHalf_lt _) (lowHalf_lt _),
        toNat_mul_of_halves (highHalf_lt _) (highHalf_lt _)]
    have first := toNat_mul_of_halves (lowHalf_lt srcPart) (highHalf_lt mult)
    have second := toNat_mul_of_halves (highHalf_lt srcPart) (lowHalf_lt mult)
    rw [if_neg zero]
    dsimp only
    generalize (lowHalf srcPart * lowHalf mult, highHalf srcPart * highHalf mult) = pair at start ⊢
    have firstSum := pairValue_addMiddle pair (lowHalf srcPart * highHalf mult)
      (by rw [first, start]; omega)
    generalize addMiddle pair (lowHalf srcPart * highHalf mult) = pair' at firstSum ⊢
    have secondSum := pairValue_addMiddle pair' (highHalf srcPart * lowHalf mult)
      (by rw [second, firstSum, first, start]; omega)
    generalize addMiddle pair' (highHalf srcPart * lowHalf mult) = pair'' at secondSum ⊢
    rw [second, firstSum, first, start, expand] at secondSum
    rw [pairValue_addLow _ _ (by rw [secondSum]; exact bound), secondSum]

end Parts

/-! ## A row -/

section Row

variable {mult carry : UInt64} {add : Bool} {dst src : List UInt64} {n : Nat}

/-- What the destination contributes to a row. -/
def addedValue (add : Bool) (dst : List UInt64) : Nat := if add then wordsValue dst else 0

/-- A step of the inner loop loses nothing. -/
theorem pairValue_step (add : Bool) (srcPart mult carry part : UInt64) :
    pairValue (if add then addLow (multiplyPart srcPart mult carry) part
        else multiplyPart srcPart mult carry) =
      srcPart.toNat * mult.toNat + carry.toNat + if add then part.toNat else 0 := by
  have prod := pairValue_multiplyPart srcPart mult carry
  cases add with
  | false => exact prod
  | true =>
    have bound : srcPart.toNat * mult.toNat <= (2 ^ 64 - 1) * (2 ^ 64 - 1) :=
      Nat.mul_le_mul (Nat.le_sub_one_of_lt srcPart.toNat_lt)
        (Nat.le_sub_one_of_lt mult.toNat_lt)
    have carryLt := carry.toNat_lt
    have partLt := part.toNat_lt
    rw [if_pos rfl, if_pos rfl, pairValue_addLow _ _ (by rw [prod]; omega), prod]

theorem multiplyLoop_spec (inDst : n <= dst.length) (inSrc : n <= src.length) :
    ∃ dst' carry', multiplyLoop mult add n carry dst src = some (dst', carry') ∧
      dst'.length = dst.length ∧ dst'.drop n = dst.drop n ∧
      wordsValue (dst'.take n) + (2 ^ 64) ^ n * carry'.toNat =
        addedValue add (dst.take n) + mult.toNat * wordsValue (src.take n) + carry.toNat := by
  induction n generalizing carry dst src with
  | zero =>
    refine ⟨dst, carry, by rw [multiplyLoop], rfl, rfl, ?_⟩
    rw [take_zero, take_zero, addedValue, wordsValue_nil, ite_self]
    omega
  | succ n ih =>
    cases dst with
    | nil => exact absurd inDst (not_succ_le_zero n)
    | cons part dst =>
    cases src with
    | nil => exact absurd inSrc (not_succ_le_zero n)
    | cons srcPart src =>
    have step := pairValue_step add srcPart mult carry part
    generalize hsum : (if add then addLow (multiplyPart srcPart mult carry) part
      else multiplyPart srcPart mult carry) = sum at step
    rcases @ih sum.2 dst src (le_of_succ_le_succ inDst)
      (le_of_succ_le_succ inSrc) with ⟨dst', carry', run, length, rest, value⟩
    refine ⟨sum.1 :: dst', carry', ?_, ?_, rest, ?_⟩
    · rw [multiplyLoop]
      simp only [hsum, run]
      rfl
    · rw [length_cons, length_cons, length]
    · have added : addedValue add (part :: dst.take n) =
          (if add then part.toNat else 0) + 2 ^ 64 * addedValue add (dst.take n) := by
        cases add with
        | false => rfl
        | true => exact wordsValue_cons part (dst.take n)
      rw [take_succ_cons, take_succ_cons, take_succ_cons, wordsValue_cons, wordsValue_cons, added]
      simp only [pairValue] at step
      rw [pow_succ]
      linear_combination 2 ^ 64 * value + step

theorem unsigned_of_lt {m : Nat} (small : m < 2 ^ 32) : unsigned m = m := mod_eq_of_lt small

/-- A row into a destination with room for the carry. -/
theorem tcMultiplyPart_full (small : src.length + 1 < 2 ^ 32) (room : src.length < dst.length) :
    ∃ dst', tcMultiplyPart dst src mult 0 src.length (unsigned (src.length + 1)) true =
        some (dst', false) ∧
      dst'.length = dst.length ∧ wordsValue (dst'.take (src.length + 1)) =
        wordsValue (dst.take src.length) + mult.toNat * wordsValue src := by
  rcases @multiplyLoop_spec mult 0 true dst src src.length (le_of_lt room)
    (le_refl _) with ⟨dst', carry', run, length, -, value⟩
  have inside : src.length < dst'.length := by rwa [length]
  refine ⟨dst'.set src.length carry', ?_, by rw [length_set, length], ?_⟩
  · rw [tcMultiplyPart, unsigned_of_lt small, if_pos (le_refl _),
      if_neg (Nat.not_lt_of_le (le_succ _))]
    simp only [run, bind_eq_bind, bind_some, lt_succ_self, if_true, inside,
      and_self, Option.pure_def]
  · have split : (dst'.set src.length carry').take (src.length + 1) =
        dst'.take src.length ++ [carry'] := by
      rw [take_add_one, take_set_of_le (le_refl _), getElem?_set_self inside]
      rfl
    rw [split, wordsValue_append, wordsValue_cons, wordsValue_nil, mul_zero, add_zero,
      length_take, min_eq_left (le_of_lt inside), value, addedValue, if_pos rfl,
      take_length, UInt64.toNat_zero, add_zero]

theorem any_ne_zero_iff (words : List UInt64) :
    words.any (· ≠ 0) = true ↔ wordsValue words ≠ 0 := by
  induction words with
  | nil => simp
  | cons part words ih =>
    have first : part ≠ 0 ↔ part.toNat ≠ 0 := by
      rw [Ne, <- UInt64.toNat_inj, UInt64.toNat_zero]
    rw [any_cons, Bool.or_eq_true, ih, decide_eq_true_eq, first, wordsValue_cons]
    omega

/-- A row into a destination that is not wider than the source. -/
theorem tcMultiplyPart_narrow (small : src.length + 1 < 2 ^ 32)
    (narrow : dst.length <= src.length) : ∃ dst' overflow,
      tcMultiplyPart dst src mult 0 src.length dst.length true = some (dst', overflow) ∧
      dst'.length = dst.length ∧
      wordsValue dst' = (wordsValue dst + mult.toNat * wordsValue src) % (2 ^ 64) ^ dst.length ∧
      (overflow = true ↔ (2 ^ 64) ^ dst.length <=
        wordsValue dst + mult.toNat * wordsValue src) := by
  rcases @multiplyLoop_spec mult 0 true dst src dst.length (le_refl _) narrow with
    ⟨dst', carry', run, length, -, value⟩
  have rows : (if dst.length < src.length then dst.length else src.length) = dst.length := by
    split <;> omega
  -- What does not fit are the last carry and the product with the parts not reached.
  have total : wordsValue dst + mult.toNat * wordsValue src =
      wordsValue dst' + (2 ^ 64) ^ dst.length *
        (carry'.toNat + mult.toNat * wordsValue (src.drop dst.length)) := by
    have split := wordsValue_append (src.take dst.length) (src.drop dst.length)
    rw [take_append_drop, length_take, min_eq_left narrow] at split
    rw [take_of_length_le (le_of_eq length), addedValue, if_pos rfl, take_length,
      UInt64.toNat_zero, add_zero] at value
    rw [split, mul_add, <- add_assoc, <- value]
    ring
  have low : wordsValue dst' < (2 ^ 64) ^ dst.length := length ▸ wordsValue_lt dst'
  refine ⟨dst', decide (carry' ≠ 0) || (decide (mult ≠ 0) &&
    (src.drop dst.length).any (· ≠ 0)), ?_, length, ?_, ?_⟩
  · rw [tcMultiplyPart, unsigned_of_lt small, if_pos (le_succ_of_le narrow)]
    simp only [rows, run, bind_eq_bind, bind_some, lt_irrefl, if_false,
      Option.pure_def, take_length]
    by_cases carried : carry' = 0
    · rw [if_neg (not_not_intro carried), decide_eq_false (not_not_intro carried), Bool.false_or]
    · rw [if_pos carried, decide_eq_true carried, Bool.true_or]
  · rw [total, add_mul_mod_self_left, mod_eq_of_lt low]
  · have carryZero : carry' ≠ 0 ↔ carry'.toNat ≠ 0 := by
      rw [Ne, <- UInt64.toNat_inj, UInt64.toNat_zero]
    have multiplierZero : mult ≠ 0 ↔ mult.toNat ≠ 0 := by
      rw [Ne, <- UInt64.toNat_inj, UInt64.toNat_zero]
    rw [Bool.or_eq_true, Bool.and_eq_true, any_ne_zero_iff, decide_eq_true_eq,
      decide_eq_true_eq, carryZero, multiplierZero, <- mul_ne_zero_iff, total]
    generalize mult.toNat * wordsValue (src.drop dst.length) = unreached
    have positive : 0 < (2 ^ 64) ^ dst.length := Nat.pow_pos (by decide)
    constructor
    · intro lost
      have step : (2 ^ 64) ^ dst.length * 1 <=
          (2 ^ 64) ^ dst.length * (carry'.toNat + unreached) :=
        mul_le_mul_left _ (by omega)
      omega
    · intro large
      by_contra none
      have zero : carry'.toNat + unreached = 0 := by omega
      rw [zero, mul_zero] at large
      omega

end Row

/-! ## All rows -/

section Rows

variable {k m low x : Nat}

theorem mod_mul_of_lt (below : low < k) : (low + k * x) % (k * m) = low + k * (x % m) := by
  rw [mod_mul, add_mul_mod_self_left, mod_eq_of_lt below,
    add_mul_div_left _ _ (zero_lt_of_lt below), div_eq_of_lt below, zero_add]

theorem mul_le_iff_of_lt (below : low < k) : k * m <= low + k * x ↔ m <= x := by
  have positive := zero_lt_of_lt below
  rw [mul_comm, <- le_div_iff_mul_le positive, add_mul_div_left _ _ positive,
    div_eq_of_lt below, zero_add]

theorem tcSet_zero {parts : Nat} (positive : 0 < parts) :
    tcSet 0 parts = some (replicate parts 0) := by
  cases parts with
  | zero => exact absurd positive (lt_irrefl 0)
  | succ parts => rfl

theorem wordsValue_take_succ {words : List UInt64} {i : Nat} {part : UInt64}
    (entry : words[i]? = some part) :
    wordsValue (words.take (i + 1)) = wordsValue (words.take i) + (2 ^ 64) ^ i * part.toNat := by
  rcases List.getElem?_eq_some_iff.mp entry with ⟨inside, -⟩
  rw [take_add_one, entry, wordsValue_append, length_take, min_eq_left (le_of_lt inside),
    toList_some, wordsValue_cons, wordsValue_nil, mul_zero, add_zero]

/-- The value of an array that is cut in two. -/
theorem wordsValue_split {words : List UInt64} {i : Nat} (inside : i <= words.length) :
    wordsValue words = wordsValue (words.take i) + (2 ^ 64) ^ i * wordsValue (words.drop i) := by
  have split := wordsValue_append (words.take i) (words.drop i)
  rwa [take_append_drop, length_take, min_eq_left inside] at split

/-- A row of `tcMultiply` adds a multiple of the first operand. -/
theorem multiplyRow_spec {parts i : Nat} (lhs rhs : Bignum parts) (small : parts + 1 < 2 ^ 32)
    {mult : UInt64} (entry : rhs.words[i]? = some mult) {dst : List UInt64}
    (length : dst.length = parts) (overflow : Bool) :
    ∃ dst' overflow', multiplyRow lhs.words rhs.words parts (dst, overflow) i =
        some (dst', overflow || overflow') ∧
      dst'.length = parts ∧
      wordsValue dst' = (wordsValue dst + (2 ^ 64) ^ i * (mult.toNat * lhs.value)) %
        (2 ^ 64) ^ parts ∧
      (overflow' = true ↔ (2 ^ 64) ^ parts <=
        wordsValue dst + (2 ^ 64) ^ i * (mult.toNat * lhs.value)) := by
  rcases List.getElem?_eq_some_iff.mp entry with ⟨inRhs, -⟩
  rw [rhs.length_words] at inRhs
  have below : i <= dst.length := by omega
  have rest : (dst.drop i).length = parts - i := by rw [length_drop, length]
  have taken : (dst.take i).length = i := by rw [length_take, min_eq_left below]
  have low : wordsValue (dst.take i) < (2 ^ 64) ^ i := by
    have bound := wordsValue_lt (dst.take i)
    rwa [taken] at bound
  have power : (2 ^ 64) ^ parts = (2 ^ 64) ^ i * (2 ^ 64) ^ (parts - i) := by
    rw [<- pow_add, Nat.add_sub_cancel' (le_of_lt inRhs)]
  have total : wordsValue dst + (2 ^ 64) ^ i * (mult.toNat * lhs.value) =
      wordsValue (dst.take i) +
        (2 ^ 64) ^ i * (wordsValue (dst.drop i) + mult.toNat * lhs.value) := by
    rw [wordsValue_split below, mul_add, add_assoc]
  rcases @tcMultiplyPart_narrow mult (dst.drop i) lhs.words
    (by rw [lhs.length_words]; exact small)
    (by rw [rest, lhs.length_words]; exact sub_le _ _) with
    ⟨window, overflow', run, windowLength, windowValue, overflows⟩
  rw [rest, lhs.length_words] at run
  rw [rest] at windowLength windowValue overflows
  refine ⟨dst.take i ++ window, overflow', ?_, ?_, ?_, ?_⟩
  · simp only [multiplyRow, entry, run, bind_eq_bind, bind_some, Option.pure_def]
  · rw [length_append, taken, windowLength, Nat.add_sub_cancel' (le_of_lt inRhs)]
  · rw [wordsValue_append, taken, windowValue, total, power, mod_mul_of_lt low]
    rfl
  · rw [overflows, total, power, mul_le_iff_of_lt low]
    rfl

/-- What the rows so far have computed. -/
theorem multiplyRows_spec {parts : Nat} (lhs rhs : Bignum parts) (small : parts + 1 < 2 ^ 32)
    {i : Nat} (inside : i <= parts) :
    ∃ dst overflow, (range i).foldlM (multiplyRow lhs.words rhs.words parts)
        (replicate parts 0, false) = some (dst, overflow) ∧
      dst.length = parts ∧
      wordsValue dst = lhs.value * wordsValue (rhs.words.take i) % (2 ^ 64) ^ parts ∧
      (overflow = true ↔ (2 ^ 64) ^ parts <= lhs.value * wordsValue (rhs.words.take i)) := by
  induction i with
  | zero =>
    have positive : 0 < (2 ^ 64) ^ parts := Nat.pow_pos (by decide)
    refine ⟨replicate parts 0, false, rfl, length_replicate, ?_, ?_⟩
    · rw [wordsValue_replicate_zero, take_zero, wordsValue_nil, mul_zero, zero_mod]
    · rw [take_zero, wordsValue_nil, mul_zero]
      exact ⟨fun never => absurd never Bool.false_ne_true,
        fun never => absurd positive (Nat.not_lt_of_le never)⟩
  | succ i ih =>
    rcases ih (le_of_succ_le inside) with
      ⟨dst, overflow, run, length, value, overflows⟩
    have inRhs : i < rhs.words.length := by rwa [rhs.length_words]
    obtain ⟨mult, entry⟩ : ∃ mult, rhs.words[i]? = some mult := ⟨_, getElem?_eq_getElem inRhs⟩
    rcases multiplyRow_spec lhs rhs small entry length overflow with
      ⟨dst', overflow', row, length', value', overflows'⟩
    have prod : lhs.value * wordsValue (rhs.words.take (i + 1)) =
        lhs.value * wordsValue (rhs.words.take i) + (2 ^ 64) ^ i * (mult.toNat * lhs.value) := by
      rw [wordsValue_take_succ entry]
      ring
    refine ⟨dst', overflow || overflow', ?_, length', ?_, ?_⟩
    · rw [range_succ, foldlM_append, run, bind_eq_bind, bind_some, foldlM_cons, row]
      rfl
    · rw [value', value, prod, mod_add_mod]
    · rw [Bool.or_eq_true, overflows, overflows', prod, value]
      by_cases large : (2 ^ 64) ^ parts <= lhs.value * wordsValue (rhs.words.take i)
      · exact ⟨fun _ => le_add_right_of_le large, fun _ => .inl large⟩
      · rw [mod_eq_of_lt (Nat.lt_of_not_le large), or_iff_right large]

/-- A row of the full product adds a multiple of the second operand. -/
theorem fullMultiplyRow_spec {lhs rhs dst : List UInt64} {n : Nat} {mult : UInt64}
    (small : rhs.length + 1 < 2 ^ 32) (entry : lhs[n]? = some mult)
    (length : dst.length = lhs.length + rhs.length) :
    ∃ dst', fullMultiplyRow lhs rhs rhs.length dst n = some dst' ∧
      dst'.length = lhs.length + rhs.length ∧
      wordsValue (dst'.take (rhs.length + (n + 1))) = wordsValue (dst.take (rhs.length + n)) +
        (2 ^ 64) ^ n * (mult.toNat * wordsValue rhs) := by
  rcases List.getElem?_eq_some_iff.mp entry with ⟨inLhs, -⟩
  have taken : (dst.take n).length = n := by
    rw [length_take, Nat.min_eq_left (by omega)]
  have rest : (dst.drop n).length = lhs.length + rhs.length - n := by
    rw [length_drop, length]
  rcases @tcMultiplyPart_full mult (dst.drop n) rhs small (by omega) with
    ⟨window, run, windowLength, windowValue⟩
  have before : wordsValue (dst.take (rhs.length + n)) =
      wordsValue (dst.take n) + (2 ^ 64) ^ n * wordsValue ((dst.drop n).take rhs.length) := by
    rw [add_comm rhs.length n, take_add, wordsValue_append, taken]
  refine ⟨dst.take n ++ window, ?_, ?_, ?_⟩
  · simp only [fullMultiplyRow, entry, run, bind_eq_bind, bind_some, Option.pure_def]
  · rw [length_append, taken, windowLength, rest]
    omega
  · have place : rhs.length + (n + 1) = n + (rhs.length + 1) := by omega
    rw [place, take_append, taken, take_of_length_le (by rw [taken]; omega),
      Nat.add_sub_cancel_left, wordsValue_append, taken, windowValue, before, Nat.mul_add,
      add_assoc]

/-- What the rows of the full product have computed so far. -/
theorem fullMultiplyRows_spec {lhs rhs start : List UInt64} {n : Nat}
    (small : rhs.length + 1 < 2 ^ 32) (length : start.length = lhs.length + rhs.length)
    (clear : wordsValue (start.take rhs.length) = 0) (inside : n <= lhs.length) :
    ∃ dst, (range n).foldlM (fullMultiplyRow lhs rhs rhs.length) start = some dst ∧
      dst.length = lhs.length + rhs.length ∧
      wordsValue (dst.take (rhs.length + n)) = wordsValue (lhs.take n) * wordsValue rhs := by
  induction n with
  | zero =>
    refine ⟨start, rfl, length, ?_⟩
    rw [add_zero, clear, take_zero, wordsValue_nil, zero_mul]
  | succ n ih =>
    rcases ih (le_of_succ_le inside) with ⟨dst, run, fullLength, value⟩
    obtain ⟨mult, entry⟩ : ∃ mult, lhs[n]? = some mult := ⟨_, getElem?_eq_getElem inside⟩
    rcases fullMultiplyRow_spec small entry fullLength with ⟨dst', row, length', value'⟩
    refine ⟨dst', ?_, length', ?_⟩
    · rw [range_succ, foldlM_append, run, bind_eq_bind, bind_some, foldlM_cons, row]
      rfl
    · rw [value', value, wordsValue_take_succ entry, add_mul, mul_assoc]

theorem fullMultiply_spec {dst lhs rhs : List UInt64} (positive : 0 < rhs.length)
    (someRow : 0 < lhs.length) (fits : lhs.length + rhs.length < 2 ^ 32)
    (length : dst.length = lhs.length + rhs.length) :
    ∃ dst', fullMultiply dst lhs rhs lhs.length rhs.length =
        some (dst', lhs.length + rhs.length -
          if wordsValue lhs * wordsValue rhs < (2 ^ 64) ^ (lhs.length + rhs.length - 1) then 1
          else 0) ∧
      dst'.length = lhs.length + rhs.length ∧
      wordsValue dst' = wordsValue lhs * wordsValue rhs := by
  have startLength : (replicate rhs.length 0 ++ dst.drop rhs.length).length =
      lhs.length + rhs.length := by
    rw [length_append, length_replicate, length_drop]
    omega
  have clear : wordsValue ((replicate rhs.length 0 ++ dst.drop rhs.length).take
      rhs.length) = 0 := by
    rw [take_left' length_replicate, wordsValue_replicate_zero]
  rcases fullMultiplyRows_spec (by omega) startLength clear (le_refl _) with
    ⟨dst', run, length', value⟩
  rw [take_length, take_of_length_le (by omega)] at value
  obtain ⟨top, entry⟩ : ∃ top, dst'[lhs.length + rhs.length - 1]? = some top :=
    ⟨_, getElem?_eq_getElem (by omega)⟩
  -- The number of parts is less by one if the product fits into the parts below the top.
  have topZero : top = 0 ↔
      wordsValue lhs * wordsValue rhs < (2 ^ 64) ^ (lhs.length + rhs.length - 1) := by
    have whole := wordsValue_take_succ entry
    have below := wordsValue_lt (dst'.take (lhs.length + rhs.length - 1))
    rw [length_take, Nat.min_eq_left (by omega)] at below
    rw [take_of_length_le (by omega), value] at whole
    rw [whole, <- UInt64.toNat_inj, UInt64.toNat_zero]
    constructor
    · intro zero
      rwa [zero, mul_zero, add_zero]
    · intro fitsBelow
      by_contra nonzero
      have large := Nat.le_mul_of_pos_right ((2 ^ 64) ^ (lhs.length + rhs.length - 1))
        (pos_of_ne_zero nonzero)
      omega
  refine ⟨dst', ?_, length', value⟩
  simp only [fullMultiply, tcSet_zero positive, run, unsigned_of_lt fits, entry, topZero,
    bind_eq_bind, bind_some, Option.pure_def]

end Rows

/-! ## Products -/

/-- The product in the width of the operands is reduced to it, and the result tells whether that
changed it. -/
def MultiplyExact {parts : Nat} (lhs rhs : Bignum parts) : Prop :=
  ∃ dst overflow, tcMultiply lhs rhs = some (dst, overflow) ∧ dst.length = parts ∧
    wordsValue dst = lhs.value * rhs.value % (2 ^ 64) ^ parts ∧
    (overflow = true ↔ (2 ^ 64) ^ parts <= lhs.value * rhs.value)

/-- The full product is exact.  The number of parts that is returned is enough for it, and is less
than the number of parts of the destination, by one, whenever that many are enough. -/
def FullMultiplyExact {lhsParts rhsParts : Nat} (dst : Bignum (lhsParts + rhsParts))
    (lhs : Bignum lhsParts) (rhs : Bignum rhsParts) : Prop :=
  ∃ dst' count, tcFullMultiply dst lhs rhs = some (dst', count) ∧
    dst'.length = lhsParts + rhsParts ∧ wordsValue dst' = lhs.value * rhs.value ∧
    lhs.value * rhs.value < (2 ^ 64) ^ count ∧
    count = lhsParts + rhsParts -
      if lhs.value * rhs.value < (2 ^ 64) ^ (lhsParts + rhsParts - 1) then 1 else 0

/-- The number of parts must not be the largest number that can be stored, because one more is
computed of it. -/
theorem multiplyExact_iff {parts : Nat} (lhs rhs : Bignum parts) :
    MultiplyExact lhs rhs ↔ parts + 1 < 2 ^ 32 := by
  have positive := lhs.positive
  have fits := lhs.fits
  constructor
  · rintro ⟨dst, overflow, run, -⟩
    by_contra large
    have last : unsigned (parts + 1) = 0 := by
      have parts_eq : parts = 2 ^ 32 - 1 := by omega
      rw [parts_eq]
      rfl
    have first : multiplyRow lhs.words rhs.words parts (replicate parts 0, false) 0 = none := by
      have fails : ∀ mult, tcMultiplyPart (replicate parts 0) lhs.words mult 0
          parts (parts - 0) true = none := by
        intro mult
        rw [tcMultiplyPart, last, if_neg (by omega)]
      rw [multiplyRow]
      cases rhs.words[0]? with
      | none => rfl
      | some mult =>
        simp only [drop_zero, fails, bind_eq_bind, bind_some, bind_none]
    obtain ⟨rest, split⟩ : ∃ rest, range parts = 0 :: rest := by
      cases parts with
      | zero => exact absurd positive (lt_irrefl 0)
      | succ parts => exact ⟨_, range_succ_eq_map⟩
    rw [tcMultiply, tcSet_zero positive, bind_eq_bind, bind_some, split, foldlM_cons, first] at run
    exact absurd run (by simp)
  · intro small
    rcases multiplyRows_spec lhs rhs small (le_refl parts) with
      ⟨dst, overflow, run, length, value, overflows⟩
    rw [take_of_length_le (le_of_eq rhs.length_words)] at value overflows
    refine ⟨dst, overflow, ?_, length, value, overflows⟩
    rw [tcMultiply, tcSet_zero positive, bind_eq_bind, bind_some, run]

theorem value_lt {parts : Nat} (x : Bignum parts) : x.value < (2 ^ 64) ^ parts := by
  have bound := wordsValue_lt x.words
  rwa [x.length_words] at bound

theorem fullMultiplyExact {lhsParts rhsParts : Nat} (dst : Bignum (lhsParts + rhsParts))
    (lhs : Bignum lhsParts) (rhs : Bignum rhsParts) : FullMultiplyExact dst lhs rhs := by
  have bound : lhs.value * rhs.value <
      (2 ^ 64) ^ (lhsParts + rhsParts - if lhs.value * rhs.value <
        (2 ^ 64) ^ (lhsParts + rhsParts - 1) then 1 else 0) := by
    split
    · assumption
    · rw [Nat.sub_zero, pow_add]
      exact mul_lt_mul'' (value_lt lhs) (value_lt rhs)
  have fits := dst.fits
  have prod : wordsValue rhs.words * wordsValue lhs.words = lhs.value * rhs.value := mul_comm _ _
  by_cases wider : lhsParts > rhsParts
  · rcases @fullMultiply_spec dst.words rhs.words lhs.words
      (by rw [lhs.length_words]; exact lhs.positive)
      (by rw [rhs.length_words]; exact rhs.positive)
      (by rw [lhs.length_words, rhs.length_words]; omega)
      (by rw [lhs.length_words, rhs.length_words, dst.length_words]; omega) with
      ⟨dst', run, length, value⟩
    rw [lhs.length_words, rhs.length_words, prod, add_comm rhsParts] at run
    refine ⟨dst', _, ?_, ?_, value.trans prod, bound, rfl⟩
    · rw [tcFullMultiply, if_pos wider, run]
    · rw [length, lhs.length_words, rhs.length_words, add_comm]
  · rcases @fullMultiply_spec dst.words lhs.words rhs.words
      (by rw [rhs.length_words]; exact rhs.positive)
      (by rw [lhs.length_words]; exact lhs.positive)
      (by rw [lhs.length_words, rhs.length_words]; omega)
      (by rw [lhs.length_words, rhs.length_words, dst.length_words]) with
      ⟨dst', run, length, value⟩
    rw [lhs.length_words, rhs.length_words] at run
    refine ⟨dst', _, ?_, ?_, value, bound, rfl⟩
    · rw [tcFullMultiply, if_neg wider, run]
      rfl
    · rw [length, lhs.length_words, rhs.length_words]

end Bignum
end LlvmProject
