import LlvmProject.APInt.BignumMultiply

namespace LlvmProject

open Nat hiding shiftLeft shiftRight testBit_mul_two_pow testBit_or
open List Bool Option

namespace Bignum

open APInt.Shifts

/-!
# Division of bignums

The divisor is shifted to the top of the array and then back, one bit at a time.  What has been
subtracted of the dividend is the divisor times the bits that are set in the quotient, and what is
left is less than the divisor shifted by one bit more.  That holds from the start if the shift
reached the top of the array.

The shift is computed from two numbers of bits as `unsigned int`.  Both may be too large for that
type: a divisor may have a number of bits that is taken for zero, so that the division does
nothing, and a shift may be too small, so that the quotient has too few bits.
-/

/-! ## Values of arrays -/

section Values

variable {words lhs rhs : List UInt64} {parts count i n : Nat} {f : Nat -> UInt64}

theorem getElem?_word (inside : i < words.length) : words[i]? = some (word words i) := by
  rw [word, getD_eq_getElem?_getD, List.getElem?_eq_getElem inside, getD_some]

theorem wordsValue_array {X : Nat}
    (bits : ∀ i j, i < parts -> j < 64 -> (f i).toNat.testBit j = X.testBit (64 * i + j)) :
    wordsValue (array parts f) = X % (2 ^ 64) ^ parts := by
  refine eq_of_testBit_eq fun p => ?_
  have split := div_add_mod p 64
  have inWord := mod_lt p (show 64 > 0 by decide)
  rw [<- pow_mul, testBit_mod_two_pow, <- split, testBit_wordsValue _ inWord]
  by_cases inside : p / 64 < parts
  · rw [word_array inside, bits _ _ inside inWord, decide_eq_true (by omega), Bool.true_and]
  · rw [word_of_le (by rw [length_array]; omega), UInt64.toNat_zero, zero_testBit,
      decide_eq_false (by omega), Bool.false_and]

section

variable (length : words.length = parts)
include length

theorem length_tcShiftLeft : (tcShiftLeft words parts count).length = parts := by
  rw [tcShiftLeft]
  split
  · exact length_array _ _
  · exact length

theorem wordsValue_tcShiftLeft :
    wordsValue (tcShiftLeft words parts count) =
      wordsValue words * 2 ^ count % (2 ^ 64) ^ parts := by
  rw [tcShiftLeft]
  by_cases none : count = 0
  · have bound := length ▸ wordsValue_lt words
    rw [if_neg (not_not_intro none), none, pow_zero, mul_one, mod_eq_of_lt bound]
  rw [if_pos none]
  have split := div_add_mod count 64
  have remainder := mod_lt count (show 64 > 0 by decide)
  refine wordsValue_array fun i j inside inWord => ?_
  rw [testBit_mul_two_pow]
  by_cases low : i >= count / 64
  · rw [if_pos low]
    by_cases whole : count % 64 = 0
    · have place : 64 * i + j - count = 64 * (i - count / 64) + j := by omega
      rw [if_neg (not_not_intro whole), decide_eq_true (by omega), Bool.true_and, place,
        testBit_wordsValue words inWord]
    · rw [if_pos whole]
      by_cases high : i >= count / 64 + 1
      · rcases Nat.exists_eq_add_of_le high with ⟨k, rfl⟩
        have upper : count / 64 + 1 + k - count / 64 = k + 1 := by omega
        have place : 64 * (count / 64 + 1 + k) + j - count =
            64 * (k + 1) + j - count % 64 := by omega
        rw [if_pos high, upper, Nat.add_sub_cancel,
          testBit_leftWindow (pos_of_ne_zero whole) remainder inWord,
          decide_eq_true (by omega), Bool.true_and, place]
      · have same : i - count / 64 = 0 := by omega
        have place : 64 * i + j - count = j - count % 64 := by omega
        have reached : decide (count <= 64 * i + j) = decide (count % 64 <= j) :=
          decide_eq_decide.mpr (by omega)
        rw [if_neg high, same, testBit_lowestWord remainder inWord, place, reached]
  · rw [if_neg low, UInt64.toNat_zero, zero_testBit, decide_eq_false (by omega), Bool.false_and]

theorem length_tcShiftRight : (tcShiftRight words parts count).length = parts := by
  rw [tcShiftRight]
  split
  · exact length_array _ _
  · exact length

theorem wordsValue_tcShiftRight :
    wordsValue (tcShiftRight words parts count) = wordsValue words / 2 ^ count := by
  have bound : wordsValue words / 2 ^ count < (2 ^ 64) ^ parts :=
    lt_of_le_of_lt (div_le_self _ _) (length ▸ wordsValue_lt words)
  rw [tcShiftRight]
  by_cases none : count = 0
  · rw [if_neg (not_not_intro none), none, pow_zero, Nat.div_one]
  rw [if_pos none, <- mod_eq_of_lt bound]
  have split := div_add_mod count 64
  have remainder := mod_lt count (show 64 > 0 by decide)
  refine wordsValue_array fun i j inside inWord => ?_
  rw [<- shiftRight_eq_div_pow, Nat.testBit_shiftRight]
  by_cases beyond : i + count / 64 >= parts
  · have place : count + (64 * i + j) =
        64 * ((count + (64 * i + j)) / 64) + (count + (64 * i + j)) % 64 :=
      (div_add_mod _ 64).symm
    rw [if_pos beyond, place, testBit_wordsValue words (mod_lt _ (by decide)),
      word_of_le (by omega), UInt64.toNat_zero, zero_testBit, zero_testBit]
  rw [if_neg beyond]
  by_cases whole : count % 64 = 0
  · have place : count + (64 * i + j) = 64 * (i + count / 64) + j := by omega
    rw [if_neg (not_not_intro whole), place, testBit_wordsValue words inWord]
  · have place : count + (64 * i + j) = 64 * (i + count / 64) + (count % 64 + j) := by omega
    have window := testBit_window words (i + count / 64) (pos_of_ne_zero whole) remainder
      inWord
    rw [if_pos whole, place, <- window]
    by_cases last : i + count / 64 + 1 < parts
    · rw [if_pos last]
    · have nothing : shiftLeft 0 (64 - count % 64) = 0 := UInt64.zero_shiftLeft
      rw [if_neg last, @word_of_le words (i + count / 64 + 1) (by omega), nothing, UInt64.or_zero]

end

/-- The number of significant bits, as an `unsigned int`, is one more than the number of the most
significant set bit. -/
theorem unsigned_tcMSB_add_one (inside : n <= words.length) :
    unsigned (tcMSB words n + 1) = unsigned (wordsValue (words.take n)).size := by
  induction n with
  | zero =>
    rw [take_zero, wordsValue_nil, size_zero, tcMSB]
    decide
  | succ n ih =>
    rw [wordsValue_take_succ (getElem?_word inside), tcMSB]
    by_cases zero : word words n = 0
    · rw [if_neg (not_not_intro zero), ih (le_of_succ_le inside), zero,
        UInt64.toNat_zero, mul_zero, add_zero]
    · have nonzero : (word words n).toNat ≠ 0 := fun same => zero (UInt64.toNat_inj.mp same)
      have low := wordsValue_lt (words.take n)
      rw [length_take, min_eq_left (le_of_succ_le inside), <- pow_mul] at low
      have leading := APInt.countLeadingZeros64_add_size (word words n)
      have positive : 0 < (word words n).toNat.size := size_pos.mpr (pos_of_ne_zero nonzero)
      have flipped : ∀ m < 64, m ^^^ 63 = 63 - m := by decide
      rw [if_pos zero, <- pow_mul, APInt.size_add_mul low nonzero, partMSB, if_neg zero,
        flipped _ (by omega), unsigned, unsigned, unsigned]
      omega

theorem tcCompare_nonneg_iff (inLhs : n <= lhs.length) (inRhs : n <= rhs.length) :
    tcCompare lhs rhs n >= 0 ↔ wordsValue (rhs.take n) <= wordsValue (lhs.take n) := by
  induction n with
  | zero => exact ⟨fun _ => le_refl 0, fun _ => Int.le_refl 0⟩
  | succ n ih =>
    have lowLhs := wordsValue_lt (lhs.take n)
    have lowRhs := wordsValue_lt (rhs.take n)
    rw [length_take, min_eq_left (le_of_succ_le inLhs)] at lowLhs
    rw [length_take, min_eq_left (le_of_succ_le inRhs)] at lowRhs
    rw [wordsValue_take_succ (getElem?_word inLhs), wordsValue_take_succ (getElem?_word inRhs),
      tcCompare]
    have weight : ∀ {a b : UInt64}, a < b ->
        (2 ^ 64) ^ n * a.toNat + (2 ^ 64) ^ n <= (2 ^ 64) ^ n * b.toNat := fun {a b} less =>
      mul_le_mul_left ((2 ^ 64) ^ n) (UInt64.lt_iff_toNat_lt.mp less)
    by_cases same : word lhs n = word rhs n
    · rw [if_pos same, same, add_le_add_iff_right]
      exact ih (le_of_succ_le inLhs) (le_of_succ_le inRhs)
    · rw [if_neg same]
      by_cases greater : word lhs n > word rhs n
      · have gap := weight greater
        rw [if_pos greater]
        exact ⟨fun _ => by omega, fun _ => by decide⟩
      · have less : word lhs n < word rhs n := by
          rw [UInt64.lt_iff_toNat_lt]
          rw [gt_iff_lt, UInt64.lt_iff_toNat_lt] at greater
          rw [<- UInt64.toNat_inj] at same
          omega
        have gap := weight less
        rw [if_neg greater]
        exact ⟨fun never => absurd never (by decide), fun never => absurd never (by omega)⟩

/-- A part of a difference, and the borrow that it leaves. -/
theorem subtract_part (l r : UInt64) (c : Bool) :
    (if c then l - (r + 1) else l - r).toNat + r.toNat + c.toNat = l.toNat + 2 ^ 64 *
      (if c then decide ((if c then l - (r + 1) else l - r) >= l)
        else decide ((if c then l - (r + 1) else l - r) > l)).toNat := by
  have left := l.toNat_lt
  have right := r.toNat_lt
  cases c with
  | false =>
    simp only [false_eq_true, if_false, toNat_false, gt_iff_lt,
      UInt64.lt_iff_toNat_lt, UInt64.toNat_sub]
    by_cases borrows : l.toNat < r.toNat
    · rw [decide_eq_true (by omega), toNat_true]
      omega
    · rw [decide_eq_false (by omega), toNat_false]
      omega
  | true =>
    simp only [if_true, toNat_true, ge_iff_le, UInt64.le_iff_toNat_le, UInt64.toNat_sub,
      UInt64.toNat_add, UInt64.toNat_one]
    by_cases borrows : l.toNat < r.toNat + 1
    · rw [decide_eq_true (by omega), toNat_true]
      omega
    · rw [decide_eq_false (by omega), toNat_false]
      omega

theorem tcSubtract_spec {c : Bool} (length : lhs.length = rhs.length) :
    (tcSubtract lhs rhs c).1.length = lhs.length ∧
      wordsValue (tcSubtract lhs rhs c).1 + wordsValue rhs + c.toNat =
        wordsValue lhs + (2 ^ 64) ^ lhs.length * (tcSubtract lhs rhs c).2.toNat := by
  induction lhs generalizing rhs c with
  | nil =>
    cases rhs with
    | nil => exact ⟨rfl, by simp [tcSubtract]⟩
    | cons r rhs => exact absurd length (by simp)
  | cons l lhs ih =>
    cases rhs with
    | nil => exact absurd length (by simp)
    | cons r rhs =>
    have part := subtract_part l r c
    rw [tcSubtract]
    dsimp only
    generalize (if c then l - (r + 1) else l - r) = difference at part ⊢
    generalize (if c then decide (difference >= l) else decide (difference > l)) = borrow
      at part ⊢
    rcases @ih rhs borrow (succ.inj length) with ⟨restLength, rest⟩
    refine ⟨by rw [length_cons, length_cons, restLength], ?_⟩
    rw [wordsValue_cons, wordsValue_cons, wordsValue_cons, length_cons, pow_succ]
    linear_combination part + 2 ^ 64 * rest

/-- A difference that needs no borrow. -/
theorem wordsValue_tcSubtract (length : lhs.length = rhs.length)
    (ordered : wordsValue rhs <= wordsValue lhs) :
    wordsValue (tcSubtract lhs rhs false).1 + wordsValue rhs = wordsValue lhs := by
  rcases @tcSubtract_spec lhs rhs false length with ⟨sameLen, difference⟩
  have bound := wordsValue_lt (tcSubtract lhs rhs false).1
  rw [sameLen] at bound
  have right := wordsValue_lt rhs
  rw [<- length] at right
  rw [toNat_false, add_zero] at difference
  cases borrow : (tcSubtract lhs rhs false).2 with
  | false => rw [difference, borrow, toNat_false, mul_zero, add_zero]
  | true =>
    rw [borrow, toNat_true, mul_one] at difference
    omega

end Values

/-! ## The loop -/

section Loop

variable {parts rhs old bound k : Nat} {state : DivideState}

theorem toNat_shiftLeft_one {a : Nat} (small : a < 64) : (shiftLeft 1 a).toNat = 2 ^ a := by
  have inWord : 2 ^ a < 2 ^ 64 := Nat.pow_lt_pow_right (by decide) small
  rw [shiftLeft, UInt64.toNat_shiftLeft, toNat_amount small, UInt64.toNat_one, one_shiftLeft,
    mod_eq_of_lt inWord]

/-- Setting a bit of the quotient. -/
theorem wordsValue_setBits {words : List UInt64} (inside : k / 64 < words.length) :
    wordsValue (setBits words (k / 64) (shiftLeft 1 (k % 64))) = wordsValue words ||| 2 ^ k := by
  refine eq_of_testBit_eq fun p => ?_
  have inWord := mod_lt p (show 64 > 0 by decide)
  have small := mod_lt k (show 64 > 0 by decide)
  have place := div_add_mod p 64
  rw [Nat.testBit_or, testBit_two_pow, <- place, testBit_wordsValue _ inWord,
    testBit_wordsValue _ inWord, word_setBits inside, place]
  by_cases same : k / 64 = p / 64
  · have reached : decide (k % 64 = p % 64) = decide (k = p) :=
      decide_eq_decide.mpr (by omega)
    rw [if_pos same, testBit_or, toNat_shiftLeft_one small, testBit_two_pow, reached]
  · rw [if_neg same, decide_eq_false (by omega), Bool.or_false]

/-- The bits of the quotient from the shift count on are found. -/
structure Divided (parts rhs old bound k : Nat) (quot remainder : List UInt64) : Prop where
  length_quotient : quot.length = parts
  length_remainder : remainder.length = parts
  aligned : 2 ^ k ∣ wordsValue quot
  bounded : wordsValue quot + 2 ^ k <= 2 ^ bound
  equation : old = wordsValue quot * rhs + wordsValue remainder
  reduced : old < rhs * 2 ^ bound -> wordsValue remainder < rhs * 2 ^ k

/-- The divisor and the mask are shifted by the shift count. -/
structure Cursor (parts rhs k : Nat) (state : DivideState) : Prop where
  length_srhs : state.srhs.length = parts
  shifted : wordsValue state.srhs = rhs * 2 ^ k
  n_eq : state.n = k / 64
  mask_eq : state.mask = shiftLeft 1 (k % 64)
  inside : k < 64 * parts

theorem subtractRound_spec (cursor : Cursor parts rhs k state)
    (divided : Divided parts rhs old bound (k + 1) state.lhs state.remainder) :
    Cursor parts rhs k (subtractRound parts state) ∧
      Divided parts rhs old bound k (subtractRound parts state).lhs
        (subtractRound parts state).remainder := by
  rcases divided with
    ⟨length_quotient, length_remainder, aligned, bounded, equation, reduced⟩
  have compare := tcCompare_nonneg_iff (le_of_eq length_remainder.symm)
    (le_of_eq cursor.length_srhs.symm)
  rw [take_of_length_le (le_of_eq cursor.length_srhs),
    take_of_length_le (le_of_eq length_remainder), cursor.shifted] at compare
  have double : 2 ^ (k + 1) = 2 ^ k + 2 ^ k := by rw [pow_succ, mul_two]
  have step : rhs * 2 ^ (k + 1) = rhs * 2 ^ k + rhs * 2 ^ k := by rw [double, mul_add]
  rw [subtractRound]
  by_cases large : tcCompare state.remainder state.srhs parts >= 0
  · rw [if_pos large]
    rw [compare] at large
    have difference := wordsValue_tcSubtract
      (length_remainder.trans cursor.length_srhs.symm) (by rw [cursor.shifted]; exact large)
    have sameLen := (@tcSubtract_spec state.remainder state.srhs false
      (length_remainder.trans cursor.length_srhs.symm)).1
    have below : 2 ^ k < 2 ^ (k + 1) := Nat.pow_lt_pow_right (by decide) (lt_succ_self k)
    have inside : k / 64 < state.lhs.length := by
      have inside := cursor.inside
      omega
    -- The bit is not set in a multiple of twice its value.
    have added : wordsValue (setBits state.lhs state.n state.mask) =
        wordsValue state.lhs + 2 ^ k := by
      rcases aligned with ⟨multiple, same⟩
      rw [cursor.n_eq, cursor.mask_eq, wordsValue_setBits inside, same,
        two_pow_add_eq_or_of_lt below]
    rw [cursor.shifted] at difference
    refine ⟨⟨cursor.length_srhs, cursor.shifted, cursor.n_eq, cursor.mask_eq, cursor.inside⟩, ?_⟩
    constructor
    · exact (length_setBits _ _ _).trans length_quotient
    · exact sameLen.trans length_remainder
    · dsimp only
      rw [added]
      exact Nat.dvd_add ((pow_dvd_pow 2 (le_succ k)).trans aligned) (dvd_refl _)
    · dsimp only
      rw [added]
      omega
    · dsimp only
      rw [added, equation, <- difference]
      ring
    · intro fits
      have before := reduced fits
      dsimp only
      omega
  · rw [if_neg large]
    rw [compare] at large
    refine ⟨cursor, length_quotient, length_remainder,
      (pow_dvd_pow 2 (le_succ k)).trans aligned, by omega, equation, fun _ => by omega⟩

theorem shiftRound_spec (cursor : Cursor parts rhs (k + 1) state) :
    Cursor parts rhs k (shiftRound parts state) ∧
      (shiftRound parts state).lhs = state.lhs ∧
      (shiftRound parts state).remainder = state.remainder := by
  have halved : wordsValue (tcShiftRight state.srhs parts 1) = rhs * 2 ^ k := by
    rw [wordsValue_tcShiftRight cursor.length_srhs, cursor.shifted, pow_one, pow_succ,
      <- mul_assoc, Nat.mul_div_cancel _ (by decide)]
  have length := @length_tcShiftRight state.srhs parts 1 cursor.length_srhs
  have inside : k < 64 * parts := lt_of_succ_lt cursor.inside
  have small := mod_lt (k + 1) (show 64 > 0 by decide)
  have maskValue : (shiftRight state.mask 1).toNat = 2 ^ ((k + 1) % 64) / 2 := by
    rw [cursor.mask_eq, shiftRight, UInt64.toNat_shiftRight, toNat_amount (by decide),
      toNat_shiftLeft_one small, shiftRight_eq_div_pow, pow_one]
  rw [shiftRound]
  by_cases lowest : (k + 1) % 64 = 0
  · have empty : shiftRight state.mask 1 = 0 := by
      rw [<- UInt64.toNat_inj, maskValue, lowest]
      rfl
    have last : k % 64 = 63 := by omega
    have next : state.n - 1 = k / 64 := by
      rw [cursor.n_eq]
      omega
    rw [if_pos empty]
    exact ⟨⟨length, halved, next, by rw [last], inside⟩, rfl, rfl⟩
  · have lower : (k + 1) % 64 = k % 64 + 1 := by omega
    have moved : shiftRight state.mask 1 = shiftLeft 1 (k % 64) := by
      rw [<- UInt64.toNat_inj, maskValue, lower, pow_succ, Nat.mul_div_cancel _ (by decide),
        toNat_shiftLeft_one (mod_lt k (by decide))]
    have nonzero : shiftRight state.mask 1 ≠ 0 := by
      rw [moved, Ne, <- UInt64.toNat_inj, toNat_shiftLeft_one (mod_lt k (by decide))]
      exact (Nat.two_pow_pos _).ne'
    have same : state.n = k / 64 := by
      rw [cursor.n_eq]
      omega
    rw [if_neg nonzero]
    exact ⟨⟨length, halved, same, moved, inside⟩, rfl, rfl⟩

/-- The loop finds the bits of the quotient from the shift count down to zero. -/
theorem divideLoop_spec (cursor : Cursor parts rhs k state)
    (divided : Divided parts rhs old bound (k + 1) state.lhs state.remainder) :
    Divided parts rhs old bound 0 (divideLoop parts k state).lhs
      (divideLoop parts k state).remainder := by
  induction k generalizing state with
  | zero => exact (subtractRound_spec cursor divided).2
  | succ k ih =>
    rcases subtractRound_spec cursor divided with ⟨nextCursor, nextDivided⟩
    rcases shiftRound_spec nextCursor with ⟨shifted, sameQuotient, sameRemainder⟩
    refine ih shifted ?_
    rw [sameQuotient, sameRemainder]
    exact nextDivided

end Loop

/-! ## Quotients -/

section Quotients

variable {parts : Nat} (lhs rhs remainder : Bignum parts)

/-- The shift that takes the divisor to the top of the array, as an `unsigned int`. -/
def shiftOf : Nat := unsigned (64 * parts - rhs.value.size)

theorem unsigned_tcMSB : unsigned (tcMSB rhs.words parts + 1) = unsigned rhs.value.size := by
  rw [unsigned_tcMSB_add_one (le_of_eq rhs.length_words.symm),
    take_of_length_le (le_of_eq rhs.length_words), value]

theorem size_value_le : rhs.value.size <= 64 * parts := by
  rw [size_le, pow_mul]
  exact value_lt rhs

/-- A divisor that is not taken for zero is divided by, with as many bits as the shift allows. -/
theorem tcDivide_spec (counted : unsigned rhs.value.size ≠ 0) :
    ∃ quot remainder', tcDivide lhs rhs remainder = some (quot, remainder', false) ∧
      Divided parts rhs.value lhs.value (shiftOf rhs + 1) 0 quot remainder' := by
  have size := size_value_le rhs
  have some_bits : 0 < rhs.value.size := by
    refine pos_of_ne_zero fun none => counted ?_
    rw [none]
    rfl
  have shift_le : shiftOf rhs <= 64 * parts - rhs.value.size := mod_le _ _
  have shift_eq : unsigned (unsigned (parts * 64) + 2 ^ 32 - unsigned rhs.value.size) =
      shiftOf rhs := by
    rw [shiftOf, unsigned, unsigned, unsigned, unsigned]
    omega
  have shifted : wordsValue (tcShiftLeft rhs.words parts (shiftOf rhs)) =
      rhs.value * 2 ^ shiftOf rhs := by
    have inArray : rhs.value * 2 ^ shiftOf rhs < (2 ^ 64) ^ parts := by
      calc rhs.value * 2 ^ shiftOf rhs < 2 ^ rhs.value.size * 2 ^ shiftOf rhs :=
            mul_lt_mul_of_pos_right (lt_size_self _) (Nat.two_pow_pos _)
        _ = 2 ^ (rhs.value.size + shiftOf rhs) := (pow_add _ _ _).symm
        _ <= 2 ^ (64 * parts) := Nat.pow_le_pow_right two_pos (by omega)
        _ = (2 ^ 64) ^ parts := pow_mul _ _ _
    rw [wordsValue_tcShiftLeft rhs.length_words]
    exact mod_eq_of_lt inArray
  have cursor : Cursor parts rhs.value (shiftOf rhs)
      ⟨List.replicate parts 0, lhs.words, tcShiftLeft rhs.words parts (shiftOf rhs),
        shiftOf rhs / 64, shiftLeft 1 (shiftOf rhs % 64)⟩ :=
    ⟨length_tcShiftLeft rhs.length_words, shifted, rfl, rfl, by omega⟩
  have start : Divided parts rhs.value lhs.value (shiftOf rhs + 1) (shiftOf rhs + 1)
      (List.replicate parts 0) lhs.words := by
    have zero := wordsValue_replicate_zero parts
    refine ⟨length_replicate, lhs.length_words, ?_, ?_, ?_, fun small => small⟩
    · rw [zero]
      exact dvd_zero _
    · rw [zero, zero_add]
    · rw [zero, zero_mul, zero_add, value]
  refine ⟨_, _, ?_, divideLoop_spec cursor start⟩
  rw [tcDivide]
  simp only [unsigned_tcMSB, counted, if_false, shift_eq, tcSet_zero lhs.positive,
    bind_eq_bind, bind_some, Option.pure_def]

/-- A divisor that is taken for zero leaves everything as it is. -/
theorem tcDivide_of_size (uncounted : unsigned rhs.value.size = 0) :
    tcDivide lhs rhs remainder = some (lhs.words, remainder.words, true) := by
  rw [tcDivide]
  simp only [unsigned_tcMSB, uncounted, if_true]

/-- A divisor of zero is reported and leaves the operands as they are.  Otherwise the quotient and
the remainder are found. -/
def DivideExact : Prop :=
  ∃ lhs' remainder' isZero, tcDivide lhs rhs remainder = some (lhs', remainder', isZero) ∧
    lhs'.length = parts ∧ remainder'.length = parts ∧
    if rhs.value = 0 then isZero = true ∧ lhs' = lhs.words ∧ remainder' = remainder.words
    else isZero = false ∧ lhs.value = rhs.value * wordsValue lhs' + wordsValue remainder' ∧
      wordsValue remainder' < rhs.value

/-- The divisor is zero, or its number of bits is not taken for zero and the dividend is less than
the divisor shifted by one bit more than the shift. -/
def DivideFits : Prop :=
  rhs.value = 0 ∨ (unsigned rhs.value.size ≠ 0 ∧ lhs.value < rhs.value * 2 ^ (shiftOf rhs + 1))

theorem divideExact_iff : DivideExact lhs rhs remainder ↔ DivideFits lhs rhs := by
  by_cases zero : rhs.value = 0
  · have uncounted : unsigned rhs.value.size = 0 := by
      rw [zero, size_zero]
      rfl
    refine ⟨fun _ => .inl zero, fun _ => ⟨_, _, _, tcDivide_of_size lhs rhs remainder uncounted,
      lhs.length_words, remainder.length_words, ?_⟩⟩
    rw [if_pos zero]
    exact ⟨rfl, rfl, rfl⟩
  by_cases counted : unsigned rhs.value.size = 0
  · constructor
    · rintro ⟨lhs', remainder', isZero, run, -, -, divided⟩
      rw [tcDivide_of_size lhs rhs remainder counted, some.injEq] at run
      rw [if_neg zero, <- (Prod.mk.inj (Prod.mk.inj run).2).2] at divided
      exact absurd divided.1 (by decide)
    · rintro (none | fits)
      · exact absurd none zero
      · exact absurd counted fits.1
  rcases tcDivide_spec lhs rhs remainder counted with ⟨quot, remainder', run, divided⟩
  have equation := divided.equation
  have bounded := divided.bounded
  have reduced := divided.reduced
  rw [pow_zero] at bounded
  rw [pow_zero, mul_one] at reduced
  constructor
  · rintro ⟨lhs', remainder'', isZero, run', -, -, exact'⟩
    rw [run, some.injEq] at run'
    have same := Prod.mk.inj (Prod.mk.inj run').2
    rw [if_neg zero, <- same.1] at exact'
    refine .inr ⟨counted, ?_⟩
    calc lhs.value = wordsValue quot * rhs.value + wordsValue remainder' := equation
      _ < wordsValue quot * rhs.value + rhs.value := Nat.add_lt_add_left exact'.2.2 _
      _ = (wordsValue quot + 1) * rhs.value := (succ_mul _ _).symm
      _ <= 2 ^ (shiftOf rhs + 1) * rhs.value := mul_le_mul_right _ bounded
      _ = rhs.value * 2 ^ (shiftOf rhs + 1) := mul_comm _ _
  · rintro (none | fits)
    · exact absurd none zero
    · refine ⟨quot, remainder', false, run, divided.length_quotient,
        divided.length_remainder, ?_⟩
      rw [if_neg zero]
      exact ⟨rfl, by rw [equation, mul_comm], reduced fits.2⟩

end Quotients

/-! ## All routines -/

/-- The routines are exact exactly if the number of parts is not the largest one and the number of
bits of the division is not a problem. -/
theorem tcRoutines_exact_iff {parts lhsParts rhsParts : Nat} (lhs rhs remainder : Bignum parts)
    (left : Bignum lhsParts) (right : Bignum rhsParts) (dst : Bignum (lhsParts + rhsParts)) :
    (FullMultiplyExact dst left right ∧ MultiplyExact lhs rhs ∧ DivideExact lhs rhs remainder) ↔
      (parts + 1 < 2 ^ 32 ∧ DivideFits lhs rhs) := by
  rw [multiplyExact_iff, divideExact_iff]
  exact and_iff_right (fullMultiplyExact dst left right)

/-- The number all of whose bits are set. -/
def allOnes (parts : Nat) (positive : 0 < parts) (fits : parts < 2 ^ 32) : Bignum parts :=
  ⟨List.replicate parts 0xffffffffffffffff, length_replicate, positive, fits⟩

theorem wordsValue_replicate_ones (count : Nat) :
    wordsValue (List.replicate count 0xffffffffffffffff) + 1 = (2 ^ 64) ^ count := by
  induction count with
  | zero => rfl
  | succ count ih =>
    have last : (0xffffffffffffffff : UInt64).toNat = 2 ^ 64 - 1 := rfl
    have power : (2 ^ 64 : Nat) ^ (count + 1) = (2 ^ 64) ^ count * 2 ^ 64 := pow_succ _ _
    rw [List.replicate_succ, wordsValue_cons, last, power, <- ih]
    omega

/-- If the number of bits of an array is a multiple of `2 ^ 32`, the largest number is taken for
zero. -/
theorem not_divideExact_allOnes {parts : Nat} (positive : 0 < parts) (fits : parts < 2 ^ 32)
    (wraps : unsigned (64 * parts) = 0) (lhs remainder : Bignum parts) :
    ¬ DivideExact lhs (allOnes parts positive fits) remainder := by
  have value_eq : (allOnes parts positive fits).value + 1 = 2 ^ (64 * parts) := by
    rw [pow_mul]
    exact wordsValue_replicate_ones parts
  have size : (allOnes parts positive fits).value.size = 64 * parts := by
    refine le_antisymm (size_value_le _) ?_
    have enough : 64 * parts - 1 < (allOnes parts positive fits).value.size := by
      rw [lt_size]
      have half : 2 ^ (64 * parts - 1) < 2 ^ (64 * parts) :=
        Nat.pow_lt_pow_right (by decide) (by omega)
      omega
    omega
  rw [divideExact_iff]
  rintro (zero | counted)
  · have large : 2 ^ 1 <= 2 ^ (64 * parts) := Nat.pow_le_pow_right two_pos (by omega)
    omega
  · exact counted.1 (by rw [size, wraps])

/-- A divisor of `2 ^ 26` parts whose bits are all set is reported to be zero. -/
theorem tcDivide_not_exact :
    ¬ DivideExact (allOnes (2 ^ 26) (by decide) (by decide))
      (allOnes (2 ^ 26) (by decide) (by decide)) (allOnes (2 ^ 26) (by decide) (by decide)) :=
  not_divideExact_allOnes (by decide) (by decide) (by decide) _ _

end Bignum
end LlvmProject
