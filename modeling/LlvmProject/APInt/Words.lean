import Mathlib.Data.Nat.Digits.Defs
import Mathlib.Data.Nat.Bitwise
import Mathlib.Data.Nat.Size

namespace LlvmProject

open List Nat

/-!
# Arbitrary precision integers as arrays of words

An `APInt` of width `BitWidth` is an array of 64-bit words, the least
significant one first.  A value of at most 64 bits is kept in a single word,
`VAL` in the source; here it is the only element of the array.  Two facts
about the representation are fields of the structure: the array has exactly
the words its width needs, and the bits of the last word that the width does
not use are clear.  The width itself is positive and is an `unsigned`.

`toNat` is the value of the array.  The counting functions are the loops of
the source over the words, and the lemmas about them are stated for the
value.
-/

/-- `APINT_BITS_PER_WORD`. -/
def apintBitsPerWord : Nat := 64

/-- Number of words that hold an integer of the given width. -/
def getNumWords (BitWidth : Nat) : Nat := (BitWidth + 64 - 1) / 64

/-- Value of an array of words. -/
def wordsValue (words : List UInt64) : Nat := ofDigits (2 ^ 64) (words.map UInt64.toNat)

/-- The word position of a bit. -/
def whichWord (bitPosition : Nat) : Nat := bitPosition / 64

/-- Number of zero bits above the highest one bit of a word. -/
def countLeadingZeros64 (word : UInt64) : Nat := if word = 0 then 64 else 63 - word.toNat.log2

/-- An integer of a fixed width. -/
@[ext] structure APInt (BitWidth : Nat) where
  pVal : List UInt64
  length_pVal : pVal.length = getNumWords BitWidth
  unusedClear : wordsValue pVal < 2 ^ BitWidth
  positive : 0 < BitWidth
  fits : BitWidth < 2 ^ 32
deriving DecidableEq

/-! ## Values of word arrays -/

@[simp] theorem wordsValue_nil : wordsValue [] = 0 := rfl

@[simp] theorem wordsValue_cons (word : UInt64) (words : List UInt64) :
    wordsValue (word :: words) = word.toNat + 2 ^ 64 * wordsValue words := by
  simp [wordsValue, ofDigits_cons]

theorem wordsValue_append (low high : List UInt64) :
    wordsValue (low ++ high) = wordsValue low + (2 ^ 64) ^ low.length * wordsValue high := by
  rw [wordsValue, map_append, ofDigits_append, length_map]
  rfl

private theorem mem_map_toNat_lt (words : List UInt64) :
    ∀ digit ∈ words.map UInt64.toNat, digit < 2 ^ 64 := by
  intro digit mem
  rcases mem_map.mp mem with ⟨word, _, rfl⟩
  exact word.toNat_lt

theorem wordsValue_lt (words : List UInt64) : wordsValue words < (2 ^ 64) ^ words.length := by
  have bound := ofDigits_lt_base_pow_length (by decide) (mem_map_toNat_lt words)
  rwa [length_map] at bound

@[simp] theorem wordsValue_replicate_zero (count : Nat) :
    wordsValue (List.replicate count 0) = 0 := by
  rw [wordsValue, map_replicate]
  exact ofDigits_replicate_zero

/-- Dropping the words above a position is reduction modulo its weight. -/
theorem wordsValue_take (words : List UInt64) (count : Nat) :
    wordsValue (words.take count) = wordsValue words % (2 ^ 64) ^ count := by
  rw [wordsValue, map_take]
  exact (ofDigits_mod_pow_eq_ofDigits_take count (by decide) _ (mem_map_toNat_lt words)).symm

theorem getNumWords_pos {BitWidth : Nat} (positive : 0 < BitWidth) : 0 < getNumWords BitWidth := by
  unfold getNumWords
  omega

/-! ## Unused bits -/

/-- Mask out the bits of the last word that the width does not use. -/
def clearUnusedBits (BitWidth : Nat) (words : List UInt64) : List UInt64 :=
  let wordBits := BitWidth % 64
  if wordBits = 0 then
    words
  else
    let mask := (0xffffffffffffffff : UInt64) >>> (UInt64.ofNat (64 - wordBits))
    words.modify (getNumWords BitWidth - 1) (fun word => word &&& mask)

@[simp] theorem length_clearUnusedBits (BitWidth : Nat) (words : List UInt64) :
    (clearUnusedBits BitWidth words).length = words.length := by
  unfold clearUnusedBits
  by_cases aligned : BitWidth % 64 = 0 <;> simp [aligned]

private theorem modify_last (low : List UInt64) (last : UInt64) (f : UInt64 -> UInt64) :
    (low ++ [last]).modify low.length f = low ++ [f last] := by
  induction low with
  | nil => rfl
  | cons word low ih =>
    rw [List.cons_append, length_cons, modify_succ_cons, ih, List.cons_append]

private theorem exists_last {BitWidth : Nat} {words : List UInt64} (positive : 0 < BitWidth)
    (full : words.length = getNumWords BitWidth) : ∃ low last, words = low ++ [last] := by
  have nonempty : words ≠ [] := by
    intro empty
    have pos := getNumWords_pos positive
    rw [<- full, empty] at pos
    exact absurd pos (lt_irrefl 0)
  exact ⟨words.dropLast, words.getLast nonempty, (dropLast_concat_getLast nonempty).symm⟩

private theorem toNat_and_mask (word : UInt64) {wordBits : Nat} (nonzero : wordBits ≠ 0)
    (below : wordBits < 64) :
    (word &&& (0xffffffffffffffff : UInt64) >>> (UInt64.ofNat (64 - wordBits))).toNat =
      word.toNat % 2 ^ wordBits := by
  have shift : (UInt64.ofNat (64 - wordBits)).toNat % 64 = 64 - wordBits := by
    rw [UInt64.toNat_ofNat']
    omega
  have mask : (2 ^ 64 - 1) >>> (64 - wordBits) = 2 ^ wordBits - 1 := by
    rw [shiftRight_eq_div_pow]
    have weight : 2 ^ 64 = 2 ^ wordBits * 2 ^ (64 - wordBits) := by
      rw [<- pow_add]
      congr 1
      omega
    have low : 0 < 2 ^ (64 - wordBits) := Nat.two_pow_pos _
    have high : 0 < 2 ^ wordBits := Nat.two_pow_pos _
    rw [weight]
    refine Nat.div_eq_of_lt_le ?_ ?_
    · rw [Nat.sub_mul]
      omega
    · rw [succ_mul, Nat.sub_mul]
      have weightLe : 2 ^ (64 - wordBits) <= 2 ^ wordBits * 2 ^ (64 - wordBits) :=
        Nat.le_mul_of_pos_left _ high
      omega
  rw [UInt64.toNat_and, UInt64.toNat_shiftRight, shift]
  change word.toNat &&& (2 ^ 64 - 1) >>> (64 - wordBits) = _
  rw [mask, and_two_pow_sub_one_eq_mod]

theorem wordsValue_clearUnusedBits {BitWidth : Nat} {words : List UInt64}
    (positive : 0 < BitWidth) (full : words.length = getNumWords BitWidth) :
    wordsValue (clearUnusedBits BitWidth words) = wordsValue words % 2 ^ BitWidth := by
  have bound := wordsValue_lt words
  rw [full] at bound
  unfold clearUnusedBits
  by_cases aligned : BitWidth % 64 = 0
  · have width : BitWidth = 64 * getNumWords BitWidth := by
      unfold getNumWords
      omega
    simp only [aligned, if_true]
    rw [mod_eq_of_lt]
    calc wordsValue words < (2 ^ 64) ^ getNumWords BitWidth := bound
      _ = 2 ^ BitWidth := by rw [<- pow_mul, <- width]
  · simp only [aligned, if_false]
    obtain ⟨low, last, rfl⟩ := exists_last positive full
    rw [length_append, length_singleton] at full
    have place : getNumWords BitWidth - 1 = low.length := by omega
    have width : BitWidth = 64 * low.length + BitWidth % 64 := by
      unfold getNumWords at full
      omega
    have weight : 2 ^ BitWidth = (2 ^ 64) ^ low.length * 2 ^ (BitWidth % 64) := by
      conv_lhs => rw [width]
      rw [pow_add, pow_mul]
    have lowLt := wordsValue_lt low
    rw [place, modify_last, weight]
    simp only [wordsValue_append, wordsValue_cons, wordsValue_nil, mul_zero, add_zero,
      toNat_and_mask last aligned (mod_lt BitWidth (by decide))]
    rw [mod_mul, add_mul_mod_self_left, mod_eq_of_lt lowLt,
      add_mul_div_left _ _ (Nat.pow_pos (by decide)), div_eq_of_lt lowLt, zero_add]

namespace APInt

variable {W : Nat}

/-- The unsigned value of an integer. -/
def toNat (x : APInt W) : Nat := wordsValue x.pVal

theorem toNat_lt (x : APInt W) : x.toNat < 2 ^ W := x.unusedClear

/-- Store an array of words in an integer of the width of `this`. -/
def withWords (this : APInt W) (words : List UInt64) (full : words.length = getNumWords W) :
    APInt W where
  pVal := clearUnusedBits W words
  length_pVal := by rw [length_clearUnusedBits, full]
  unusedClear := by
    rw [wordsValue_clearUnusedBits this.positive full]
    exact mod_lt _ (Nat.two_pow_pos W)
  positive := this.positive
  fits := this.fits

@[simp] theorem toNat_withWords (this : APInt W) (words : List UInt64)
    (full : words.length = getNumWords W) :
    (this.withWords words full).toNat = wordsValue words % 2 ^ W :=
  wordsValue_clearUnusedBits this.positive full

/-- `BitWidth <= APINT_BITS_PER_WORD`. -/
def isSingleWord (_x : APInt W) : Bool := W <= 64

/-- The word of a value that has only one. -/
def VAL (x : APInt W) : UInt64 := x.pVal.headD 0

theorem pVal_eq_singleton (x : APInt W) (single : W <= 64) : x.pVal = [x.VAL] := by
  have length : x.pVal.length = 1 := by
    have positive := x.positive
    rw [x.length_pVal]
    unfold getNumWords
    omega
  rcases length_eq_one_iff.mp length with ⟨word, words⟩
  rw [VAL, words]
  rfl

theorem toNat_eq_VAL (x : APInt W) (single : W <= 64) : x.toNat = x.VAL.toNat := by
  rw [toNat, x.pVal_eq_singleton single]
  simp

/-- An integer is determined by its value. -/
theorem ext_toNat {x y : APInt W} (same : x.toNat = y.toNat) : x = y := by
  have words : x.pVal = y.pVal := by
    have mapped := ofDigits_inj_of_len_eq (by decide)
      (by rw [length_map, length_map, x.length_pVal, y.length_pVal])
      (mem_map_toNat_lt x.pVal) (mem_map_toNat_lt y.pVal) same
    exact (List.map_inj_right (fun _ _ => UInt64.toNat_inj.mp)).mp mapped
  exact APInt.ext words

/-! ## Active bits -/

/-- Zero bits of the words above the highest nonzero one, the most significant
word first. -/
def countLeadingZeroWords : List UInt64 -> Nat
  | [] => 0
  | word :: lower =>
    if word = 0 then 64 + countLeadingZeroWords lower else countLeadingZeros64 word

/-- The loop for values of several words.  The last word is treated apart,
because bits above the width do not count. -/
def countLeadingZerosSlowCase (x : APInt W) : Nat :=
  let BitsInMSW := if W % 64 = 0 then 64 else W % 64
  let MSWMask : UInt64 :=
    if W % 64 = 0 then 0xffffffffffffffff else (1 <<< UInt64.ofNat (W % 64)) - 1
  match x.pVal.reverse with
  | [] => 0
  | last :: lower =>
    let MSW := last &&& MSWMask
    if MSW ≠ 0 then countLeadingZeros64 MSW - (64 - BitsInMSW)
    else BitsInMSW + countLeadingZeroWords lower

/-- Zero bits above the highest one bit. -/
def countLeadingZeros (x : APInt W) : Nat :=
  if x.isSingleWord then countLeadingZeros64 x.VAL - (64 - W) else x.countLeadingZerosSlowCase

/-- Bits of a value without its leading zeros. -/
def getActiveBits (x : APInt W) : Nat := W - x.countLeadingZeros

private theorem size_eq_log2 {n : Nat} (nonzero : n ≠ 0) : n.size = n.log2 + 1 :=
  le_antisymm (size_le.mpr lt_log2_self) (lt_size.mpr (log2_self_le nonzero))

/-- Digits below a nonzero number do not change where its highest bit is. -/
theorem size_add_mul {low high k : Nat} (lowLt : low < 2 ^ k) (nonzero : high ≠ 0) :
    (low + 2 ^ k * high).size = k + high.size := by
  refine le_antisymm (size_le.mpr ?_) ?_
  · have highLt : high + 1 <= 2 ^ high.size := lt_size_self high
    calc low + 2 ^ k * high < 2 ^ k * (high + 1) := by rw [mul_succ]; omega
      _ <= 2 ^ k * 2 ^ high.size := mul_le_mul_left _ highLt
      _ = 2 ^ (k + high.size) := (pow_add 2 k high.size).symm
  · rw [size_eq_log2 nonzero, <- add_assoc]
    refine lt_size.mpr ?_
    calc 2 ^ (k + high.log2) = 2 ^ k * 2 ^ high.log2 := pow_add 2 k _
      _ <= 2 ^ k * high := mul_le_mul_left _ (log2_self_le nonzero)
      _ <= low + 2 ^ k * high := le_add_left _ _

theorem countLeadingZeros64_add_size (word : UInt64) :
    countLeadingZeros64 word + word.toNat.size = 64 := by
  unfold countLeadingZeros64
  by_cases zero : word = 0
  · simp [zero]
  · have nonzero : word.toNat ≠ 0 := fun same => zero (UInt64.toNat_inj.mp same)
    have below : word.toNat.log2 < 64 := (log2_lt nonzero).mpr word.toNat_lt
    rw [if_neg zero, size_eq_log2 nonzero]
    omega

private theorem countLeadingZeroWords_add_size (words : List UInt64) :
    countLeadingZeroWords words + (wordsValue words.reverse).size = 64 * words.length := by
  induction words with
  | nil => simp [countLeadingZeroWords]
  | cons word lower ih =>
    have lowLt := wordsValue_lt lower.reverse
    rw [length_reverse, <- pow_mul] at lowLt
    rw [reverse_cons, wordsValue_append, length_reverse, <- pow_mul,
      length_cons, countLeadingZeroWords]
    by_cases zero : word = 0
    · simp only [zero, if_true, wordsValue_cons, wordsValue_nil, UInt64.toNat_zero,
        mul_zero, add_zero]
      omega
    · have nonzero : word.toNat ≠ 0 := fun same => zero (UInt64.toNat_inj.mp same)
      simp only [zero, if_false, wordsValue_cons, wordsValue_nil, mul_zero, add_zero]
      rw [size_add_mul lowLt nonzero]
      have word := countLeadingZeros64_add_size word
      omega

private theorem and_MSWMask {last : UInt64} (clear : last.toNat < 2 ^ (W % 64)) :
    last &&& ((1 <<< UInt64.ofNat (W % 64)) - 1) = last := by
  have below := mod_lt W (show 64 > 0 by decide)
  have shift : (UInt64.ofNat (W % 64)).toNat % 64 = W % 64 := by
    rw [UInt64.toNat_ofNat']
    omega
  have powerLt : 2 ^ (W % 64) < 2 ^ 64 := Nat.pow_lt_pow_right (by decide) below
  have power : ((1 : UInt64) <<< UInt64.ofNat (W % 64)).toNat = 2 ^ (W % 64) := by
    rw [UInt64.toNat_shiftLeft, shift, UInt64.toNat_one, shiftLeft_eq, one_mul,
      mod_eq_of_lt powerLt]
  have mask : ((1 <<< UInt64.ofNat (W % 64)) - 1 : UInt64).toNat = 2 ^ (W % 64) - 1 := by
    rw [UInt64.toNat_sub_of_le, power]
    · rfl
    · rw [UInt64.le_iff_toNat_le, power]
      exact Nat.one_le_two_pow
  apply UInt64.toNat_inj.mp
  rw [UInt64.toNat_and, mask, and_two_pow_sub_one_eq_mod, mod_eq_of_lt clear]

private theorem countLeadingZerosSlowCase_add_size (x : APInt W) :
    x.countLeadingZerosSlowCase + x.toNat.size = W := by
  have bound := x.unusedClear
  have full := x.length_pVal
  have positive := x.positive
  obtain ⟨low, last, words⟩ := exists_last positive full
  have lowLt := wordsValue_lt low
  rw [<- pow_mul] at lowLt
  rw [words, length_append, length_singleton] at full
  unfold getNumWords at full
  rw [words, wordsValue_append] at bound
  simp only [wordsValue_cons, wordsValue_nil, mul_zero, add_zero, <- pow_mul] at bound
  have lastLe : 2 ^ (64 * low.length) * last.toNat < 2 ^ W := (le_add_left _ _).trans_lt bound
  have rest := countLeadingZeroWords_add_size low.reverse
  rw [reverse_reverse, length_reverse] at rest
  unfold countLeadingZerosSlowCase toNat
  rw [words, List.reverse_append, wordsValue_append]
  simp only [reverse_singleton, singleton_append, wordsValue_cons, wordsValue_nil,
    mul_zero, add_zero, <- pow_mul]
  have masked : last &&& (if W % 64 = 0 then (0xffffffffffffffff : UInt64) else
      (1 <<< UInt64.ofNat (W % 64)) - 1) = last := by
    by_cases aligned : W % 64 = 0
    · rw [if_pos aligned]
      exact UInt64.and_neg_one
    · rw [if_neg aligned]
      refine and_MSWMask ?_
      refine Nat.lt_of_mul_lt_mul_left (a := 2 ^ (64 * low.length)) ?_
      rw [<- pow_add]
      convert lastLe using 2
      omega
  rw [masked]
  by_cases zero : last = 0
  · simp only [zero, ne_eq, not_true, if_false, UInt64.toNat_zero, mul_zero, add_zero]
    by_cases aligned : W % 64 = 0
    · rw [if_pos aligned]
      omega
    · rw [if_neg aligned]
      omega
  · have nonzero : last.toNat ≠ 0 := fun same => zero (UInt64.toNat_inj.mp same)
    have word := countLeadingZeros64_add_size last
    have sizeLe : 64 * low.length + last.toNat.size <= W := by
      rw [<- size_add_mul lowLt nonzero]
      exact size_le.mpr bound
    simp only [zero, ne_eq, not_false_eq_true, if_true]
    rw [size_add_mul lowLt nonzero]
    by_cases aligned : W % 64 = 0
    · rw [if_pos aligned]
      omega
    · rw [if_neg aligned]
      omega

theorem countLeadingZeros_add_size (x : APInt W) : x.countLeadingZeros + x.toNat.size = W := by
  have bound := x.toNat_lt
  unfold countLeadingZeros
  by_cases single : x.isSingleWord
  · have width : W <= 64 := by simpa [isSingleWord] using single
    have word := countLeadingZeros64_add_size x.VAL
    have sizeLe : x.toNat.size <= W := size_le.mpr bound
    rw [if_pos single]
    rw [x.toNat_eq_VAL width] at sizeLe ⊢
    omega
  · rw [if_neg single]
    exact x.countLeadingZerosSlowCase_add_size

/-- The active bits of a value are its binary length. -/
theorem getActiveBits_eq_size (x : APInt W) : x.getActiveBits = x.toNat.size := by
  have zeros := x.countLeadingZeros_add_size
  unfold getActiveBits
  omega

/-- Number of words up to the highest one bit. -/
def usedWords (x : APInt W) : Nat :=
  if x.getActiveBits = 0 then 0 else whichWord (x.getActiveBits - 1) + 1

/-- The words above the used ones are zero. -/
theorem wordsValue_take_usedWords (x : APInt W) :
    wordsValue (x.pVal.take x.usedWords) = x.toNat := by
  rw [wordsValue_take]
  refine mod_eq_of_lt ?_
  rw [<- pow_mul]
  refine size_le.mp ?_
  change x.toNat.size <= _
  unfold usedWords whichWord
  rw [getActiveBits_eq_size]
  split <;> omega

theorem usedWords_eq_zero_iff (x : APInt W) : x.usedWords = 0 ↔ x.toNat = 0 := by
  unfold usedWords
  rw [getActiveBits_eq_size]
  split
  next empty => exact ⟨fun _ => size_eq_zero.mp empty, fun _ => rfl⟩
  next nonempty => exact ⟨fun never => by omega, fun zero => by simp [zero] at nonempty⟩

theorem usedWords_le (x : APInt W) : x.usedWords <= getNumWords W := by
  have sizeLe : x.toNat.size <= W := size_le.mpr x.toNat_lt
  unfold usedWords whichWord getNumWords
  rw [getActiveBits_eq_size]
  split <;> omega

@[simp] theorem length_take_usedWords (x : APInt W) :
    (x.pVal.take x.usedWords).length = x.usedWords := by
  rw [length_take, x.length_pVal]
  exact min_eq_left x.usedWords_le

end APInt
end LlvmProject
