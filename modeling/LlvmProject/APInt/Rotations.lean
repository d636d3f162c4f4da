import LlvmProject.APInt.ShiftBits

namespace LlvmProject

open BitVec Nat

namespace APInt
namespace Shifts

/-!
# Rotations by amounts of arbitrary precision

A rotation is the disjunction of two shifts, by an amount that is taken modulo the width.  An
amount that is itself an integer of the width is first limited to the width, so every larger one
rotates by nothing.
-/

variable {W : Nat}

/-! ## Disjunction -/

theorem wordsValue_or (x y : APInt W) :
    wordsValue (array (getNumWords W) fun i => word x.pVal i ||| word y.pVal i) =
      x.toNat ||| y.toNat := by
  refine eq_of_testBit_eq fun p => ?_
  have inWord := mod_lt p (show 64 > 0 by decide)
  rw [<- div_add_mod p 64, Nat.testBit_or, testBit_wordsValue _ inWord, toNat, toNat,
    testBit_wordsValue _ inWord, testBit_wordsValue _ inWord, <- testBit_or]
  by_cases inside : p / 64 < getNumWords W
  · rw [word_array inside]
  · rw [word_of_le (by rw [length_array]; omega), word_of_le (by rw [x.length_pVal]; omega),
      word_of_le (by rw [y.length_pVal]; omega)]
    rfl

def OrSlowCase (x RHS : APInt W) : APInt W where
  pVal := array (getNumWords W) fun i => word x.pVal i ||| word RHS.pVal i
  length_pVal := length_array _ _
  unusedClear := by
    rw [wordsValue_or]
    exact or_lt_two_pow x.toNat_lt RHS.toNat_lt
  positive := x.positive
  fits := x.fits

/-- The bitwise disjunction. -/
def or (x RHS : APInt W) : APInt W :=
  if x.isSingleWord then ofWord x (x.VAL ||| RHS.VAL) false else OrSlowCase x RHS

theorem toNat_or (x y : APInt W) : (or x y).toNat = x.toNat ||| y.toNat := by
  rw [or, isSingleWord]
  by_cases single : W <= 64
  · have bound := or_lt_two_pow x.toNat_lt y.toNat_lt
    rw [if_pos (decide_eq_true single), toNat_ofWord, UInt64.toNat_or, <- toNat_eq_VAL x single,
      <- toNat_eq_VAL y single, mod_eq_of_lt bound]
  · rw [if_neg (by rwa [decide_eq_true_eq])]
    exact wordsValue_or x y

/-! ## Rotations -/

/-- Rotate left. -/
def rotl (x : APInt W) (rotateAmt : Nat) : Option (APInt W) :=
  let rotateAmt := rotateAmt % W
  if rotateAmt = 0 then some x
  else do
    let shifted <- shl x rotateAmt
    return or shifted (lshr x (W - rotateAmt))

/-- Rotate right. -/
def rotr (x : APInt W) (rotateAmt : Nat) : Option (APInt W) :=
  let rotateAmt := rotateAmt % W
  if rotateAmt = 0 then some x
  else do
    let shifted <- shl x (W - rotateAmt)
    return or (lshr x rotateAmt) shifted

def rotlBy (x rotateAmt : APInt W) : Option (APInt W) := rotl x (getLimitedValue rotateAmt W)

def rotrBy (x rotateAmt : APInt W) : Option (APInt W) := rotr x (getLimitedValue rotateAmt W)

/-! ## The bits of a result -/

section Bits

variable {s : Nat}

theorem shl_bits (x : APInt W) (below : s < W) :
    ∃ y, shl x s = some y ∧ toBitVec y = toBitVec x <<< s := by
  rcases shl_spec x below with ⟨y, run, value⟩
  refine ⟨y, run, eq_of_toNat_eq ?_⟩
  rw [toNat_toBitVec, value, toNat_shiftLeft, toNat_toBitVec, Nat.shiftLeft_eq]

theorem lshr_bits (x : APInt W) (below : s < W) : toBitVec (lshr x s) = toBitVec x >>> s := by
  refine eq_of_toNat_eq ?_
  rw [toNat_toBitVec, toNat_lshr x below, toNat_ushiftRight, toNat_toBitVec, shiftRight_eq_div_pow]

theorem or_bits (x y : APInt W) : toBitVec (or x y) = toBitVec x ||| toBitVec y := by
  refine eq_of_toNat_eq ?_
  rw [toNat_toBitVec, toNat_or, BitVec.toNat_or, toNat_toBitVec, toNat_toBitVec]

theorem rotateLeft_of_mod {r : Nat} (none : r % W = 0) (x : BitVec W) : x.rotateLeft r = x := by
  rw [rotateLeft_def, none, BitVec.shiftLeft_zero, Nat.sub_zero,
    ushiftRight_eq_zero (le_refl W), BitVec.or_zero]

theorem rotateRight_of_mod {r : Nat} (none : r % W = 0) (x : BitVec W) : x.rotateRight r = x := by
  rw [rotateRight_def, none, ushiftRight_zero, Nat.sub_zero,
    shiftLeft_eq_zero (le_refl W), BitVec.or_zero]

theorem rotl_spec (x : APInt W) (r : Nat) :
    ∃ y, rotl x r = some y ∧ toBitVec y = (toBitVec x).rotateLeft r := by
  have rem := mod_lt r x.positive
  rw [rotl]
  by_cases none : r % W = 0
  · exact ⟨x, if_pos none, (rotateLeft_of_mod none _).symm⟩
  · rcases shl_bits x rem with ⟨y, run, bits⟩
    refine ⟨or y (lshr x (W - r % W)), ?_, ?_⟩
    · simp only [if_neg none, run]
      rfl
    · rw [or_bits, bits, lshr_bits x (by omega), rotateLeft_def]

theorem rotr_spec (x : APInt W) (r : Nat) :
    ∃ y, rotr x r = some y ∧ toBitVec y = (toBitVec x).rotateRight r := by
  have rem := mod_lt r x.positive
  rw [rotr]
  by_cases none : r % W = 0
  · exact ⟨x, if_pos none, (rotateRight_of_mod none _).symm⟩
  · rcases shl_bits x (s := W - r % W) (by omega) with ⟨y, run, bits⟩
    refine ⟨or (lshr x (r % W)) y, ?_, ?_⟩
    · simp only [if_neg none, run]
      rfl
    · rw [or_bits, bits, lshr_bits x rem, rotateRight_def]

theorem rotateRight_rotateLeft (x : BitVec W) (r : Nat) : (x.rotateLeft r).rotateRight r = x := by
  refine eq_of_getLsbD_eq fun p inside => ?_
  have rem := mod_lt r (lt_of_le_of_lt (zero_le p) inside)
  rw [getLsbD_rotateRight]
  by_cases low : p < W - r % W
  · rw [decide_eq_true low, cond_true, getLsbD_rotateLeft, decide_eq_false (by omega),
      cond_false, decide_eq_true (by omega), Bool.true_and, Nat.add_sub_cancel_left]
  · have back : W - r % W + (p - (W - r % W)) = p := by omega
    rw [decide_eq_false low, cond_false, decide_eq_true inside, Bool.true_and,
      getLsbD_rotateLeft, decide_eq_true (by omega), cond_true, back]

/-- The signed value is that of the bits. -/
theorem toInt_eq (x : APInt W) : x.toInt = (toBitVec x).toInt := by
  have halves : 2 ^ W = 2 * 2 ^ (W - 1) := by
    rw [<- pow_succ', succ_eq_add_one, sub_one_add_one (Nat.ne_of_gt x.positive)]
  rw [toInt, signBit, toInt_eq_toNat_cond, toNat_toBitVec]
  by_cases neg : 2 ^ (W - 1) <= x.toNat
  · rw [if_pos (decide_eq_true neg), if_neg (by omega)]
    push_cast
    rfl
  · rw [if_neg (by rwa [decide_eq_true_eq]), if_pos (by omega)]

end Bits

/-! ## Amounts of arbitrary precision -/

theorem getLimitedValue_eq (x : APInt W) {Limit : Nat} (small : Limit < 2 ^ 64) :
    getLimitedValue x Limit = min x.toNat Limit := by
  have value : x.VAL.toNat = x.toNat % 2 ^ 64 := by
    have nonempty := getNumWords_pos x.positive
    rw [<- x.length_pVal] at nonempty
    rcases List.exists_cons_of_length_pos nonempty with ⟨first, rest, words⟩
    rw [VAL, toNat, words, wordsValue_cons, add_mul_mod_self_left, mod_eq_of_lt first.toNat_lt]
    rfl
  have long : x.toNat.size > 64 ↔ 2 ^ 64 <= x.toNat := Nat.lt_size
  rw [getLimitedValue, getActiveBits_eq_size, value]
  split_ifs with limited
  · rw [long] at limited
    omega
  · rw [long] at limited
    omega

/-- A shift by an amount below the width is exact. -/
def ShiftsExact (x : APInt W) : Prop :=
  ∀ s < W, (∃ y, shl x s = some y ∧ y.toNat = x.toNat * 2 ^ s % 2 ^ W) ∧
    (lshr x s).toNat = x.toNat / 2 ^ s ∧
    ∃ y, ashr x s = some y ∧ y.toInt = x.toInt / 2 ^ s

/-- An amount of the width of the operand is as good as its value. -/
def AmountsExact (x : APInt W) : Prop :=
  ∀ amount : APInt W, amount.toNat < W -> shlBy x amount = shl x amount.toNat ∧
    lshrBy x amount = lshr x amount.toNat ∧ ashrBy x amount = ashr x amount.toNat

/-- The rotations go by the amount modulo the width, and one undoes the other. -/
def RotatesBy (x r : APInt W) : Prop :=
  ∃ left right back, rotlBy x r = some left ∧ rotrBy x r = some right ∧
    rotrBy left r = some back ∧ toBitVec left = (toBitVec x).rotateLeft (r.toNat % W) ∧
    toBitVec right = (toBitVec x).rotateRight (r.toNat % W) ∧ back = x

theorem shiftsExact (x : APInt W) : ShiftsExact x := by
  intro s below
  refine ⟨shl_spec x below, toNat_lshr x below, ?_⟩
  rcases ashr_spec x below with ⟨y, run, bits⟩
  refine ⟨y, run, ?_⟩
  rw [toInt_eq, bits, toInt_sshiftRight, Int.shiftRight_eq_div_pow, toInt_eq]
  norm_cast

theorem amountsExact (x : APInt W) : AmountsExact x := by
  intro amount below
  have wide : W < 2 ^ 64 := lt_trans x.fits (by decide)
  have limited : getLimitedValue amount W = amount.toNat := by
    rw [getLimitedValue_eq amount wide, min_eq_left (le_of_lt below)]
  rw [shlBy, lshrBy, ashrBy, limited]
  exact ⟨rfl, rfl, rfl⟩

/-- An amount above the width is taken for the width, and does not rotate. -/
theorem rotatesBy_iff (x r : APInt W) :
    RotatesBy x r ↔ r.toNat <= W ∨ (toBitVec x).rotateLeft (r.toNat % W) = toBitVec x := by
  have wide : W < 2 ^ 64 := lt_trans x.fits (by decide)
  rcases rotl_spec x (getLimitedValue r W) with ⟨left, runLeft, bitsLeft⟩
  rcases rotr_spec x (getLimitedValue r W) with ⟨right, runRight, bitsRight⟩
  rcases rotr_spec left (getLimitedValue r W) with ⟨back, runBack, bitsBack⟩
  have undone : back = x := by
    rw [bitsLeft, rotateRight_rotateLeft] at bitsBack
    exact toBitVec_inj.mp bitsBack
  have exact : RotatesBy x r ↔ toBitVec left = (toBitVec x).rotateLeft (r.toNat % W) ∧
      toBitVec right = (toBitVec x).rotateRight (r.toNat % W) := by
    constructor
    · rintro ⟨left', right', back', runLeft', runRight', -, exactLeft, exactRight, -⟩
      rw [Option.some.inj (runLeft.symm.trans runLeft'),
        Option.some.inj (runRight.symm.trans runRight')]
      exact ⟨exactLeft, exactRight⟩
    · rintro ⟨exactLeft, exactRight⟩
      exact ⟨left, right, back, runLeft, runRight, runBack, exactLeft, exactRight, undone⟩
  rw [exact, bitsLeft, bitsRight, getLimitedValue_eq r wide, rotateLeft_mod_eq_rotateLeft,
    rotateRight_mod_eq_rotateRight]
  by_cases within : r.toNat <= W
  · rw [min_eq_left within]
    exact iff_of_true ⟨rfl, rfl⟩ (.inl within)
  · have unchanged : (toBitVec x).rotateLeft W = toBitVec x ∧
        (toBitVec x).rotateRight W = toBitVec x :=
      ⟨rotateLeft_of_mod (mod_self W) _, rotateRight_of_mod (mod_self W) _⟩
    rw [min_eq_right (Nat.le_of_not_le within), unchanged.1, unchanged.2]
    constructor
    · exact fun both => .inr both.1.symm
    · intro either
      have fixed := either.resolve_left within
      refine ⟨fixed.symm, ?_⟩
      have undo := rotateRight_rotateLeft (toBitVec x) r.toNat
      rw [fixed] at undo
      exact undo.symm

/-- Shifts are exact, and rotations are exact if and only if the amount does not exceed the width or
does not matter. -/
theorem shifts_rotations_exact_iff (x r : APInt W) :
    (ShiftsExact x ∧ AmountsExact x ∧ RotatesBy x r) ↔
      r.toNat <= W ∨ (toBitVec x).rotateLeft (r.toNat % W) = toBitVec x := by
  rw [and_iff_right (shiftsExact x), and_iff_right (amountsExact x), rotatesBy_iff]

/-- A number of eight bits. -/
def eightBits (value : UInt64) (small : value.toNat < 2 ^ 8) : APInt 8 where
  pVal := [value]
  length_pVal := rfl
  unusedClear := by
    rw [wordsValue_cons, wordsValue_nil, Nat.mul_zero, Nat.add_zero]
    exact small
  positive := by decide
  fits := by decide

/-- A rotation of one by nine leaves it as it is. -/
theorem shifts_rotations_not_exact :
    ¬ (ShiftsExact (eightBits 1 (by decide)) ∧ AmountsExact (eightBits 1 (by decide)) ∧
      RotatesBy (eightBits 1 (by decide)) (eightBits 9 (by decide))) := by
  rintro ⟨-, -, rotates⟩
  rw [rotatesBy_iff] at rotates
  revert rotates
  decide

/-! ## Shifts by value -/

end Shifts
end APInt
end LlvmProject
