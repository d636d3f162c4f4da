import LlvmProject.APInt.Shifts

namespace LlvmProject

open BitVec Nat List

namespace APInt
namespace Shifts

/-!
# The bits of a shifted word array

A bit of an array is one of a word.  Two neighbouring words that are shifted towards each other
give 64 bits of the array that start within the lower word, which is all that the shifts need:
each word of a result is such a window, or lies beyond the operand.
-/

variable {W : Nat}

/-! ## Bits of words -/

section Words

variable {a b : UInt64} {amount j : Nat}

theorem toNat_amount (small : amount < 64) : (UInt64.ofNat amount).toNat % 64 = amount := by
  rw [UInt64.toNat_ofNat', mod_eq_of_lt (lt_trans small (by decide)), mod_eq_of_lt small]

theorem testBit_shiftLeft (small : amount < 64) (inWord : j < 64) :
    (shiftLeft a amount).toNat.testBit j =
      (decide (amount <= j) && a.toNat.testBit (j - amount)) := by
  rw [shiftLeft, UInt64.toNat_shiftLeft, toNat_amount small, testBit_mod_two_pow,
    Nat.testBit_shiftLeft, decide_eq_true inWord, Bool.true_and]

theorem testBit_shiftRight (small : amount < 64) :
    (shiftRight a amount).toNat.testBit j = a.toNat.testBit (amount + j) := by
  rw [shiftRight, UInt64.toNat_shiftRight, toNat_amount small, Nat.testBit_shiftRight]

theorem testBit_or : (a ||| b).toNat.testBit j = (a.toNat.testBit j || b.toNat.testBit j) := by
  rw [UInt64.toNat_or, Nat.testBit_or]

theorem testBit_ones (inWord : j < 64) : (0xffffffffffffffff : UInt64).toNat.testBit j = true := by
  have mask : (0xffffffffffffffff : UInt64).toNat = 2 ^ 64 - 1 := rfl
  rw [mask, testBit_two_pow_sub_one, decide_eq_true inWord]

theorem testBit_onesFrom (small : amount < 64) (inWord : j < 64) :
    (onesFrom amount).toNat.testBit j = decide (amount <= j) := by
  rw [onesFrom, testBit_shiftLeft small inWord, testBit_ones (by omega), Bool.and_true]

theorem testBit_of_le (beyond : 64 <= j) : a.toNat.testBit j = false :=
  testBit_lt_two_pow (lt_of_lt_of_le a.toNat_lt (Nat.pow_le_pow_right two_pos beyond))

end Words

/-! ## Bits of arrays -/

section Arrays

variable {words : List UInt64} {count i j p : Nat} {value : Nat -> UInt64}

theorem testBit_wordsValue (words : List UInt64) (inWord : j < 64) :
    (wordsValue words).testBit (64 * i + j) = (word words i).toNat.testBit j := by
  induction words generalizing i with
  | nil => rw [wordsValue_nil, zero_testBit, word, getD_nil, UInt64.toNat_zero, zero_testBit]
  | cons first rest ih =>
    rw [wordsValue_cons, add_comm, testBit_two_pow_mul_add _ first.toNat_lt]
    cases i with
    | zero =>
      rw [if_pos (by omega), Nat.mul_zero, Nat.zero_add]
      rfl
    | succ i =>
      have place : 64 * (i + 1) + j - 64 = 64 * i + j := by omega
      rw [if_neg (by omega), place, ih]
      rfl

theorem word_array (inside : i < count) : word (array count value) i = value i := by
  rw [word, array, getD_eq_getElem?_getD, getElem?_map, getElem?_range inside]
  rfl

theorem word_of_le (beyond : words.length <= i) : word words i = 0 := by
  rw [word, getD_eq_default _ _ beyond]

theorem testBit_window (words : List UInt64) (i : Nat) (positive : 0 < amount)
    (small : amount < 64) (inWord : j < 64) :
    (shiftRight (word words i) amount |||
        shiftLeft (word words (i + 1)) (64 - amount)).toNat.testBit j =
      (wordsValue words).testBit (64 * i + (amount + j)) := by
  rw [testBit_or, testBit_shiftRight small, testBit_shiftLeft (by omega) inWord]
  by_cases low : amount + j < 64
  · rw [decide_eq_false (by omega), Bool.false_and, Bool.or_false, testBit_wordsValue words low]
  · have place : 64 * i + (amount + j) = 64 * (i + 1) + (amount + j - 64) := by omega
    have inner : j - (64 - amount) = amount + j - 64 := by omega
    rw [testBit_of_le (by omega), Bool.false_or, decide_eq_true (by omega), Bool.true_and, inner,
      place, testBit_wordsValue words (by omega)]

end Arrays

/-! ## Values of results -/

variable {p : Nat}

theorem div_lt_getNumWords (inside : p < W) : p / 64 < getNumWords W := by
  rw [getNumWords]
  omega

variable {words : List UInt64}

/-- A result is known once the bits of its words are. -/
theorem toNat_withWords_eq (x : APInt W) (full : words.length = getNumWords W)
    {value : Nat} (bits : ∀ i j, j < 64 -> 64 * i + j < W -> (word words i).toNat.testBit j =
    value.testBit (64 * i + j)) : (x.withWords words full).toNat = value % 2 ^ W := by
  rw [toNat_withWords]
  refine eq_of_testBit_eq fun p => ?_
  rw [testBit_mod_two_pow, testBit_mod_two_pow]
  by_cases inside : p < W
  · have split := div_add_mod p 64
    have inWord := mod_lt p (show 64 > 0 by decide)
    rw [<- split, testBit_wordsValue words inWord, bits _ _ inWord (by omega)]
  · rw [decide_eq_false inside, Bool.false_and, Bool.false_and]

theorem toNat_ofWord (x : APInt W) (val : UInt64) :
    (ofWord x val false).toNat = val.toNat % 2 ^ W := by
  rw [ofWord, toNat_withWords, wordsValue_cons, Bool.false_and, if_neg Bool.false_ne_true,
    wordsValue_replicate_zero, Nat.mul_zero, Nat.add_zero]

theorem two_pow_dvd (single : W <= 64) : 2 ^ W ∣ 2 ^ 64 := pow_dvd_pow 2 single

/-! ## Left shift -/

section Left

variable {s : Nat}

theorem testBit_leftWindow {i j : Nat} (positive : 0 < s) (small : s < 64) (inWord : j < 64) :
    (shiftLeft (word words (i + 1)) s ||| shiftRight (word words i) (64 - s)).toNat.testBit j =
      (wordsValue words).testBit (64 * (i + 1) + j - s) := by
  have window := testBit_window words i (show 0 < 64 - s by omega) (by omega) inWord
  have back : 64 - (64 - s) = s := by omega
  have place : 64 * i + (64 - s + j) = 64 * (i + 1) + j - s := by omega
  rw [back, place, testBit_or, Bool.or_comm] at window
  rw [testBit_or, window]

theorem testBit_lowestWord {j : Nat} (small : s < 64) (inWord : j < 64) :
    (shiftLeft (word words 0) s).toNat.testBit j =
      (decide (s <= j) && (wordsValue words).testBit (j - s)) := by
  have first := testBit_wordsValue words (i := 0) (j := j - s) (by omega)
  rw [Nat.mul_zero, Nat.zero_add] at first
  rw [testBit_shiftLeft small inWord, first]

theorem word_shlNear_succ {carry : UInt64} {i : Nat}
    (inside : i + 1 < words.length) : word (shlNear s carry words) (i + 1) =
      (shiftLeft (word words (i + 1)) s ||| shiftRight (word words i) (64 - s)) := by
  induction words generalizing carry i with
  | nil => exact absurd inside (not_lt_zero _)
  | cons first rest ih =>
    cases i with
    | zero =>
      cases rest with
      | nil => exact absurd inside (lt_irrefl 1)
      | cons second rest => rfl
    | succ i => exact ih (lt_of_succ_lt_succ inside)

theorem word_shlNear_zero {carry : UInt64} (inside : 0 < words.length) :
    word (shlNear s carry words) 0 = (shiftLeft (word words 0) s ||| carry) := by
  cases words with
  | nil => exact absurd inside (lt_irrefl 0)
  | cons first rest => rfl

/-- The bits of a shifted value. -/
theorem testBit_mul_two_pow (X s p : Nat) :
    (X * 2 ^ s).testBit p = (decide (s <= p) && X.testBit (p - s)) := by
  rw [<- Nat.shiftLeft_eq, Nat.testBit_shiftLeft]

theorem toNat_shlSlowCase (x : APInt W) (below : s < W) :
    (shlSlowCase x s).toNat = x.toNat * 2 ^ s % 2 ^ W := by
  rw [shlSlowCase, if_neg (Nat.ne_of_lt below)]
  by_cases none : s = 0
  · rw [if_pos none, none, pow_zero, mul_one, mod_eq_of_lt x.toNat_lt]
  rw [if_neg none]
  by_cases near : s < 64
  · rw [if_pos near]
    refine toNat_withWords_eq x _ fun i j inWord inside => ?_
    have index : i < x.pVal.length := by
      have bound := div_lt_getNumWords inside
      rw [x.length_pVal]
      omega
    rw [testBit_mul_two_pow]
    cases i with
    | zero =>
      rw [word_shlNear_zero index, Nat.mul_zero, Nat.zero_add, testBit_or, UInt64.toNat_zero,
        zero_testBit, Bool.or_false, testBit_lowestWord near inWord]
      rfl
    | succ i =>
      rw [word_shlNear_succ index, testBit_leftWindow (pos_of_ne_zero none) near inWord,
        decide_eq_true (by omega), Bool.true_and]
      rfl
  rw [if_neg near]
  have split := div_add_mod s 64
  have rem := mod_lt s (show 64 > 0 by decide)
  by_cases whole : s % 64 = 0
  · rw [if_pos whole]
    refine toNat_withWords_eq x _ fun i j inWord inside => ?_
    rw [testBit_mul_two_pow, word_array (by have := div_lt_getNumWords inside; omega)]
    by_cases low : i < s / 64
    · rw [if_pos low, UInt64.toNat_zero, zero_testBit, decide_eq_false (by omega), Bool.false_and]
    · have place : 64 * i + j - s = 64 * (i - s / 64) + j := by omega
      rw [if_neg low, decide_eq_true (by omega), Bool.true_and, place]
      exact (testBit_wordsValue x.pVal inWord).symm
  · rw [if_neg whole]
    refine toNat_withWords_eq x _ fun i j inWord inside => ?_
    rw [testBit_mul_two_pow, word_array (by have := div_lt_getNumWords inside; omega)]
    by_cases high : i > s / 64
    · rcases Nat.exists_eq_add_of_lt high with ⟨k, rfl⟩
      have upper : s / 64 + k + 1 - s / 64 = k + 1 := by omega
      have place : 64 * (s / 64 + k + 1) + j - s = 64 * (k + 1) + j - s % 64 := by omega
      rw [if_pos high, upper, Nat.add_sub_cancel,
        testBit_leftWindow (pos_of_ne_zero whole) rem inWord,
        decide_eq_true (by omega), Bool.true_and, place]
      rfl
    · rw [if_neg high]
      by_cases same : i = s / 64
      · have place : 64 * i + j - s = j - s % 64 := by omega
        have reached : decide (s <= 64 * i + j) = decide (s % 64 <= j) :=
          decide_eq_decide.mpr (by omega)
        rw [if_pos same, testBit_lowestWord rem inWord, place, reached]
        rfl
      · rw [if_neg same, UInt64.toNat_zero, zero_testBit, decide_eq_false (by omega),
          Bool.false_and]

theorem shl_spec (x : APInt W) (below : s < W) :
    ∃ y, shl x s = some y ∧ y.toNat = x.toNat * 2 ^ s % 2 ^ W := by
  rw [shl, if_pos (le_of_lt below), isSingleWord]
  by_cases single : W <= 64
  · rw [if_pos (decide_eq_true single), if_neg (Nat.not_le_of_lt below)]
    refine ⟨_, rfl, ?_⟩
    rw [toNat_ofWord, shiftLeft, UInt64.toNat_shiftLeft, toNat_amount (by omega),
      mod_mod_of_dvd _ (two_pow_dvd single), Nat.shiftLeft_eq, toNat_eq_VAL x single]
  · rw [if_neg (by rwa [decide_eq_true_eq])]
    exact ⟨_, rfl, toNat_shlSlowCase x below⟩

end Left

/-! ## Logical right shift -/

section Right

variable {s : Nat}

theorem word_lshrNear {i : Nat} (inside : i < words.length) :
    word (lshrNear s words).1 i =
        (shiftRight (word words i) s ||| shiftLeft (word words (i + 1)) (64 - s)) := by
  induction words generalizing i with
  | nil => exact absurd inside (not_lt_zero _)
  | cons first rest ih =>
    cases i with
    | zero =>
      cases rest with
      | nil =>
        have nothing : shiftLeft 0 (64 - s) = 0 := UInt64.zero_shiftLeft
        exact congrArg (shiftRight first s ||| ·) nothing.symm
      | cons second rest => rfl
    | succ i => exact ih (lt_of_succ_lt_succ inside)

/-- The highest word of the operand has nothing above it. -/
theorem testBit_breakWord (x : APInt W) {i j : Nat} (positive : 0 < s) (small : s < 64)
    (inWord : j < 64) (last : getNumWords W <= i + 1) :
    (shiftRight (word x.pVal i) s).toNat.testBit j = x.toNat.testBit (64 * i + (s + j)) := by
  have window := testBit_window x.pVal i positive small inWord
  have above : word x.pVal (i + 1) = 0 := word_of_le (by rwa [x.length_pVal])
  have nothing : shiftLeft 0 (64 - s) = 0 := UInt64.zero_shiftLeft
  rw [above, nothing, UInt64.or_zero] at window
  exact window

theorem toNat_lshr (x : APInt W) (below : s < W) : (lshr x s).toNat = x.toNat / 2 ^ s := by
  have bound : x.toNat / 2 ^ s < 2 ^ W := lt_of_le_of_lt (Nat.div_le_self _ _) x.toNat_lt
  have target : ∀ p, (x.toNat / 2 ^ s).testBit p = x.toNat.testBit (s + p) := fun p => by
    rw [<- shiftRight_eq_div_pow, Nat.testBit_shiftRight]
  rw [lshr, isSingleWord]
  by_cases single : W <= 64
  · rw [if_pos (decide_eq_true single), if_neg (Nat.not_le_of_lt below), toNat_ofWord, shiftRight,
      UInt64.toNat_shiftRight, toNat_amount (by omega), shiftRight_eq_div_pow,
      <- toNat_eq_VAL x single, mod_eq_of_lt bound]
  rw [if_neg (by rwa [decide_eq_true_eq]), if_neg (Nat.not_le_of_lt below)]
  by_cases none : s = 0
  · rw [if_pos none, none, pow_zero, Nat.div_one]
  rw [if_neg none, <- mod_eq_of_lt bound]
  have length := x.length_pVal
  by_cases near : s < 64
  · rw [if_pos near]
    refine toNat_withWords_eq x _ fun i j inWord inside => ?_
    have index := div_lt_getNumWords inside
    have place : s + (64 * i + j) = 64 * i + (s + j) := by omega
    rw [target, place, word_lshrNear (by omega),
      testBit_window _ _ (pos_of_ne_zero none) near inWord]
    rfl
  rw [if_neg near]
  have split := div_add_mod s 64
  have rem := mod_lt s (show 64 > 0 by decide)
  by_cases whole : s % 64 = 0
  · rw [if_pos whole]
    refine toNat_withWords_eq x _ fun i j inWord inside => ?_
    have index := div_lt_getNumWords inside
    have place : s + (64 * i + j) = 64 * (i + s / 64) + j := by omega
    rw [word_array (by omega), target, place]
    by_cases low : i < getNumWords W - s / 64
    · rw [if_pos low]
      exact (testBit_wordsValue x.pVal inWord).symm
    · have beyond := testBit_wordsValue x.pVal (i := i + s / 64) inWord
      rw [word_of_le (by omega)] at beyond
      rw [if_neg low]
      exact beyond.symm
  · rw [if_neg whole]
    refine toNat_withWords_eq x _ fun i j inWord inside => ?_
    have index := div_lt_getNumWords inside
    have place : s + (64 * i + j) = 64 * (i + s / 64) + (s % 64 + j) := by omega
    rw [word_array (by omega), target, place]
    by_cases low : i < getNumWords W - s / 64 - 1
    · rw [if_pos low, testBit_window _ _ (pos_of_ne_zero whole) rem inWord]
      rfl
    · have last := testBit_breakWord x (i := i + s / 64) (pos_of_ne_zero whole) rem inWord
        (by omega)
      rw [if_neg low, <- last]
      by_cases same : i = getNumWords W - s / 64 - 1
      · rw [if_pos same, same]
      · have nothing : shiftRight 0 (s % 64) = 0 := UInt64.zero_shiftRight
        rw [if_neg same, word_of_le (by omega), nothing]

end Right

/-! ## Arithmetic right shift -/

section Signed

variable {s : Nat}

theorem bit_eq (x : APInt W) (inside : p < W) : bit x p = x.toNat.testBit p := by
  have inWord := mod_lt p (show 64 > 0 by decide)
  have read : (if x.isSingleWord then x.VAL else word x.pVal (whichWord p)) =
      word x.pVal (p / 64) := by
    rw [isSingleWord]
    by_cases single : W <= 64
    · have first : p / 64 = 0 := div_eq_of_lt (lt_of_lt_of_le inside single)
      rw [if_pos (decide_eq_true single), first, x.pVal_eq_singleton single]
      rfl
    · rw [if_neg (by rwa [decide_eq_true_eq])]
      rfl
  have one : ((1 : UInt64) <<< UInt64.ofNat (p % 64)).toNat = 2 ^ (p % 64) := by
    rw [UInt64.toNat_shiftLeft, toNat_amount inWord, UInt64.toNat_one, Nat.shiftLeft_eq,
      one_mul, mod_eq_of_lt (Nat.pow_lt_pow_right one_lt_two inWord)]
  have value : ((1 <<< UInt64.ofNat (p % 64)) &&& word x.pVal (p / 64)).toNat =
      2 ^ (p % 64) * ((word x.pVal (p / 64)).toNat.testBit (p % 64)).toNat := by
    rw [UInt64.toNat_and, one, two_pow_and]
  have bits := testBit_wordsValue x.pVal (i := p / 64) inWord
  rw [div_add_mod] at bits
  rw [bit, read, toNat, bits, Bool.eq_iff_iff, bne_iff_ne, Ne, <- UInt64.toNat_inj, value,
    UInt64.toNat_zero]
  cases (word x.pVal (p / 64)).toNat.testBit (p % 64) with
  | false => exact iff_of_false (fun nonzero => nonzero rfl) Bool.false_ne_true
  | true =>
    exact iff_of_true (ne_of_gt (mul_pos (Nat.two_pow_pos _) one_pos)) rfl

theorem isNegative_eq (x : APInt W) : isNegative x = x.toNat.testBit (W - 1) :=
  bit_eq x (sub_lt x.positive one_pos)

theorem testBit_of_width_le (x : APInt W) (beyond : W <= p) : x.toNat.testBit p = false :=
  testBit_lt_two_pow (lt_of_lt_of_le x.toNat_lt (Nat.pow_le_pow_right two_pos beyond))

theorem word_setBits {val : List UInt64} {k i : Nat} {bits : UInt64} (inside : k < val.length) :
    word (setBits val k bits) i = if k = i then word val i ||| bits else word val i := by
  rw [word, word, setBits, getD_eq_getElem?_getD, getD_eq_getElem?_getD, List.getElem?_modify]
  by_cases same : k = i
  · subst same
    simp only [if_true, List.getElem?_eq_getElem inside, Option.map_eq_map, Option.map_some,
      Option.getD_some]
  · simp only [if_neg same, Option.map_eq_map, Option.map_id']

theorem testBit_ashrMoved (x : APInt W) (below : s < W) {fillValue : UInt64} {i j : Nat}
    (inWord : j < 64) (low : i <= getNumWords W - 1 - s / 64) :
    (word (ashrMoved x.pVal (getNumWords W) (s / 64) (s % 64) (getNumWords W - 1 - s / 64)
      fillValue) i).toNat.testBit j = x.toNat.testBit (s + (64 * i + j)) := by
  have positive := getNumWords_pos x.positive
  have split := div_add_mod s 64
  have rem := mod_lt s (show 64 > 0 by decide)
  rw [ashrMoved, word_array (by omega), if_neg (Nat.not_lt_of_le low)]
  by_cases whole : s % 64 = 0
  · have place : s + (64 * i + j) = 64 * (i + s / 64) + j := by omega
    rw [if_pos whole, place]
    exact (testBit_wordsValue x.pVal inWord).symm
  · have place : s + (64 * i + j) = 64 * (i + s / 64) + (s % 64 + j) := by omega
    rw [if_neg whole, place]
    by_cases inner : i < getNumWords W - 1 - s / 64
    · rw [if_pos inner, testBit_window _ _ (pos_of_ne_zero whole) rem inWord]
      rfl
    · have same : getNumWords W - 1 - s / 64 = i := by omega
      have index := div_lt_getNumWords below
      rw [if_neg inner, same, testBit_breakWord x (pos_of_ne_zero whole) rem inWord (by omega)]

/-- The sign is extended to exactly the bits that come from beyond the width. -/
theorem testBit_ashrSigned (x : APInt W) (below : s < W) {val : List UInt64} {i j : Nat}
    (length : val.length = getNumWords W) (inWord : j < 64) :
    (word (ashrSigned val (s % 64) (getNumWords W - 1 - s / 64)
        (if W % 64 = 0 then 64 else W % 64)) i).toNat.testBit j =
      ((word val i).toNat.testBit j ||
        decide (i <= getNumWords W - 1 - s / 64 ∧ W <= s + (64 * i + j))) := by
  have positive := x.positive
  have split := div_add_mod s 64
  have rem := mod_lt s (show 64 > 0 by decide)
  have index := div_lt_getNumWords below
  have width : W = 64 * (getNumWords W - 1) + if W % 64 = 0 then 64 else W % 64 := by
    rw [getNumWords]
    split_ifs <;> omega
  have used : 0 < (if W % 64 = 0 then 64 else W % 64) ∧
      (if W % 64 = 0 then 64 else W % 64) <= 64 := by
    split_ifs <;> omega
  generalize (if W % 64 = 0 then 64 else W % 64) = bitsInWord at width used ⊢
  have inside : getNumWords W - 1 - s / 64 < val.length := by omega
  rw [ashrSigned]
  by_cases whole : s % 64 = 0
  · rw [if_pos whole]
    by_cases full : bitsInWord < 64
    · rw [if_pos full, word_setBits inside]
      by_cases here : getNumWords W - 1 - s / 64 = i
      · rw [if_pos here, testBit_or, testBit_onesFrom full inWord]
        congr 1
        exact decide_eq_decide.mpr (by omega)
      · rw [if_neg here, decide_eq_false (by omega), Bool.or_false]
    · rw [if_neg full, decide_eq_false (by omega), Bool.or_false]
  · rw [if_neg whole]
    by_cases wide : s % 64 > bitsInWord
    · rw [if_pos wide]
      by_cases more : getNumWords W - 1 - s / 64 > 0
      · rw [if_pos more, word_setBits (by rwa [length_setBits]), word_setBits (by omega)]
        by_cases here : getNumWords W - 1 - s / 64 = i
        · rw [if_pos here, if_neg (by omega), testBit_or, testBit_ones inWord,
            decide_eq_true (by omega), Bool.or_true]
        · rw [if_neg here]
          by_cases before : getNumWords W - 1 - s / 64 - 1 = i
          · rw [if_pos before, testBit_or, testBit_onesFrom (by omega) inWord]
            congr 1
            exact decide_eq_decide.mpr (by omega)
          · rw [if_neg before, decide_eq_false (by omega), Bool.or_false]
      · rw [if_neg more, word_setBits inside]
        by_cases here : getNumWords W - 1 - s / 64 = i
        · rw [if_pos here, testBit_or, testBit_ones inWord, decide_eq_true (by omega), Bool.or_true]
        · rw [if_neg here, decide_eq_false (by omega), Bool.or_false]
    · rw [if_neg wide, word_setBits inside]
      by_cases here : getNumWords W - 1 - s / 64 = i
      · rw [if_pos here, testBit_or, testBit_onesFrom (by omega) inWord]
        congr 1
        exact decide_eq_decide.mpr (by omega)
      · rw [if_neg here, decide_eq_false (by omega), Bool.or_false]

/-- The bits of an integer as a bit-vector. -/
def toBitVec (x : APInt W) : BitVec W := BitVec.ofNat W x.toNat

@[simp] theorem toNat_toBitVec (x : APInt W) : (toBitVec x).toNat = x.toNat := by
  rw [toBitVec, toNat_ofNat, mod_eq_of_lt x.toNat_lt]

theorem getLsbD_toBitVec (x : APInt W) (p : Nat) : (toBitVec x).getLsbD p = x.toNat.testBit p := by
  rw [<- testBit_toNat, toNat_toBitVec]

theorem toBitVec_inj {x y : APInt W} : toBitVec x = toBitVec y ↔ x = y := by
  constructor
  · intro same
    refine ext_toNat ?_
    rw [<- toNat_toBitVec, <- toNat_toBitVec, same]
  · exact congrArg toBitVec

/-- The bits of an arithmetic shift, within the width. -/
theorem testBit_sshiftRight (x : APInt W) (inside : p < W) :
    ((toBitVec x).sshiftRight s).toNat.testBit p =
      if s + p < W then x.toNat.testBit (s + p) else x.toNat.testBit (W - 1) := by
  rw [testBit_toNat, getLsbD_sshiftRight, decide_eq_false (Nat.not_le_of_lt inside),
    Bool.not_false, Bool.true_and, getLsbD_toBitVec, msb_eq_getLsbD_last, getLsbD_toBitVec]

theorem testBit_ashrWords (x : APInt W) (below : s < W) {i j : Nat} (inWord : j < 64)
    (inside : 64 * i + j < W) : (word (ashrWords x s) i).toNat.testBit j =
      if s + (64 * i + j) < W then x.toNat.testBit (s + (64 * i + j))
      else x.toNat.testBit (W - 1) := by
  have split := div_add_mod s 64
  have rem := mod_lt s (show 64 > 0 by decide)
  have index := div_lt_getNumWords inside
  have count : W <= 64 * getNumWords W := by
    rw [getNumWords]
    omega
  rw [ashrWords, isNegative_eq]
  by_cases low : i <= getNumWords W - 1 - s / 64
  · by_cases neg : x.toNat.testBit (W - 1) = true
    · rw [if_pos neg, testBit_ashrSigned x below (by rw [ashrMoved, length_array]) inWord,
        testBit_ashrMoved x below inWord low, neg]
      by_cases kept : s + (64 * i + j) < W
      · rw [if_pos kept, decide_eq_false (by omega), Bool.or_false]
      · rw [if_neg kept, decide_eq_true (by omega), Bool.or_true]
    · rw [if_neg neg, testBit_ashrMoved x below inWord low]
      by_cases kept : s + (64 * i + j) < W
      · rw [if_pos kept]
      · rw [if_neg kept, testBit_of_width_le x (Nat.le_of_not_lt kept),
          Bool.eq_false_of_not_eq_true neg]
  · have filled : ∀ fillValue : UInt64, word (ashrMoved x.pVal (getNumWords W) (s / 64) (s % 64)
        (getNumWords W - 1 - s / 64) fillValue) i = fillValue := fun fillValue => by
      rw [ashrMoved, word_array (by omega), if_pos (Nat.lt_of_not_le low)]
    have lost : ¬ s + (64 * i + j) < W := by omega
    by_cases neg : x.toNat.testBit (W - 1) = true
    · rw [if_neg lost, if_pos neg, if_pos neg,
        testBit_ashrSigned x below (by rw [ashrMoved, length_array]) inWord, filled,
        testBit_ones inWord, Bool.true_or, neg]
    · rw [if_neg lost, if_neg neg, if_neg neg, filled, UInt64.toNat_zero,
        zero_testBit, Bool.eq_false_of_not_eq_true neg]

/-- The sign of a value of one word is that of the word, once it is moved to its top. -/
theorem testBit_signedWord (x : APInt W) (single : W <= 64) (inside : p < W) :
    (((x.VAL.toBitVec <<< (64 - W)).sshiftRight (64 - W)).sshiftRight s).toNat.testBit p =
      if s + p < W then x.toNat.testBit (s + p) else x.toNat.testBit (W - 1) := by
  have extended : ∀ q < 64, ((x.VAL.toBitVec <<< (64 - W)).sshiftRight (64 - W)).getLsbD q =
      if q < W then x.toNat.testBit q else x.toNat.testBit (W - 1) := by
    intro q inWord
    have value : ∀ k < W, (x.VAL.toBitVec <<< (64 - W)).getLsbD (64 - W + k) =
        x.toNat.testBit k := by
      intro k within
      rw [getLsbD_shiftLeft, decide_eq_true (by omega), decide_eq_false (by omega),
        Nat.add_sub_cancel_left, Bool.not_false, Bool.true_and, Bool.true_and,
        toNat_eq_VAL x single]
      rfl
    have top : 64 - 1 = 64 - W + (W - 1) := by
      have positive := x.positive
      omega
    rw [getLsbD_sshiftRight, decide_eq_false (Nat.not_le_of_lt inWord), Bool.not_false,
      Bool.true_and, msb_eq_getLsbD_last, top, value _ (sub_lt x.positive one_pos)]
    by_cases within : q < W
    · rw [if_pos within, if_pos (by omega), value q within]
    · rw [if_neg within, if_neg (by omega)]
  rw [testBit_toNat, getLsbD_sshiftRight, decide_eq_false (by omega),
    Bool.not_false, Bool.true_and, msb_eq_getLsbD_last]
  by_cases inWord : s + p < 64
  · rw [if_pos inWord, extended _ inWord]
  · have lost : ¬ s + p < W := by omega
    rw [if_neg inWord, extended _ (by decide), if_neg lost]
    by_cases whole : 64 - 1 < W
    · have last : W - 1 = 64 - 1 := by omega
      rw [if_pos whole, last]
    · rw [if_neg whole]

theorem ashr_spec (x : APInt W) (below : s < W) :
    ∃ y, ashr x s = some y ∧ toBitVec y = (toBitVec x).sshiftRight s := by
  rw [ashr, if_pos (le_of_lt below)]
  by_cases none : s = 0
  · refine ⟨x, by rw [if_pos none], ?_⟩
    rw [none, sshiftRight_zero]
  rw [if_neg none, isSingleWord]
  have bound := ((toBitVec x).sshiftRight s).isLt
  by_cases single : W <= 64
  · rw [if_pos (decide_eq_true single), if_neg (Nat.ne_of_lt below)]
    refine ⟨_, rfl, eq_of_toNat_eq ?_⟩
    rw [toNat_toBitVec, toNat_ofWord]
    refine eq_of_testBit_eq fun p => ?_
    rw [testBit_mod_two_pow]
    by_cases inside : p < W
    · rw [decide_eq_true inside, Bool.true_and, testBit_sshiftRight x inside]
      exact testBit_signedWord x single inside
    · rw [decide_eq_false inside, Bool.false_and, testBit_lt_two_pow
        (lt_of_lt_of_le bound (Nat.pow_le_pow_right two_pos (Nat.le_of_not_lt inside)))]
  · rw [if_neg (by rwa [decide_eq_true_eq]), if_neg (Nat.ne_of_lt below)]
    refine ⟨_, rfl, eq_of_toNat_eq ?_⟩
    rw [toNat_toBitVec, <- mod_eq_of_lt bound]
    refine toNat_withWords_eq x _ fun i j inWord inside => ?_
    rw [testBit_ashrWords x below inWord inside, testBit_sshiftRight x inside]

end Signed

end Shifts
end APInt
end LlvmProject
