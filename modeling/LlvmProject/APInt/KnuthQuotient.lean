import LlvmProject.APInt.KnuthLoop

namespace LlvmProject

open List Nat

open LongDivision

/-!
# Knuth's division of whole numbers

The operands are shifted before the loop and the remainder is shifted back
after it.  `addBacksBelowTop` counts the positions at which the exact long
division of two numbers meets a trial digit that is too large; it is a
function of the numbers alone, and decides whether `KnuthDiv` returns their
quotient.
-/

/-! ## Normalisation -/

section Shift

variable {shift : UInt32}

private theorem toNat_complement (small : shift.toNat < 32) :
    (32 - shift).toNat % 32 = (32 - shift.toNat) % 32 := by
  have thirtyTwo : (32 : UInt32).toNat = 32 := rfl
  have le : shift <= 32 := UInt32.le_iff_toNat_le.mpr (by omega)
  rw [UInt32.toNat_sub_of_le _ _ le, thirtyTwo]

private theorem shiftedDigit (u carry : UInt32) (nonzero : shift.toNat ≠ 0)
    (small : shift.toNat < 32) (carryLt : carry.toNat < 2 ^ shift.toNat) :
    ((u <<< shift) ||| carry).toNat + 2 ^ 32 * (u >>> (32 - shift)).toNat =
        u.toNat * 2 ^ shift.toNat + carry.toNat ∧
      (u >>> (32 - shift)).toNat < 2 ^ shift.toNat := by
  have uLt := u.toNat_lt
  have weight : 2 ^ 32 = 2 ^ shift.toNat * 2 ^ (32 - shift.toNat) := by
    rw [<- pow_add]
    congr 1
    omega
  have low : (u <<< shift).toNat = (u.toNat % 2 ^ (32 - shift.toNat)) <<< shift.toNat := by
    rw [UInt32.toNat_shiftLeft, Nat.mod_eq_of_lt small, Nat.shiftLeft_eq, Nat.shiftLeft_eq,
      weight, mul_comm u.toNat, mul_mod_mul_left, mul_comm]
  have high : (u >>> (32 - shift)).toNat = u.toNat / 2 ^ (32 - shift.toNat) := by
    rw [UInt32.toNat_shiftRight, toNat_complement small,
      Nat.mod_eq_of_lt (show 32 - shift.toNat < 32 by omega), shiftRight_eq_div_pow]
  have split := div_add_mod u.toNat (2 ^ (32 - shift.toNat))
  constructor
  · rw [UInt32.toNat_or, low, high, <- Nat.shiftLeft_add_eq_or_of_lt carryLt, Nat.shiftLeft_eq,
      weight]
    linear_combination 2 ^ shift.toNat * split
  · rw [high]
    refine Nat.div_lt_of_lt_mul ?_
    rw [mul_comm, <- weight]
    exact uLt

@[simp] theorem length_shiftDigits (carry : UInt32) (us : List UInt32) :
    (shiftDigits shift carry us).1.length = us.length := by
  induction us generalizing carry with
  | nil => rfl
  | cons u us ih => simp [shiftDigits, ih]

theorem digitsValue_shiftDigits (nonzero : shift.toNat ≠ 0) (small : shift.toNat < 32)
    (carry : UInt32) (us : List UInt32) (carryLt : carry.toNat < 2 ^ shift.toNat) :
    digitsValue (shiftDigits shift carry us).1 +
        (2 ^ 32) ^ us.length * (shiftDigits shift carry us).2.toNat =
      digitsValue us * 2 ^ shift.toNat + carry.toNat := by
  induction us generalizing carry with
  | nil => simp [shiftDigits]
  | cons u us ih =>
    obtain ⟨digit, nextLt⟩ := shiftedDigit u carry nonzero small carryLt
    have rest := ih _ nextLt
    simp only [shiftDigits, digitsValue_cons, length_cons]
    linear_combination digit + 2 ^ 32 * rest

theorem digitsValue_normalise (small : shift.toNat < 32) (digits : List UInt32) :
    digitsValue ((normalise shift digits).1 ++ [(normalise shift digits).2]) =
      digitsValue digits * 2 ^ shift.toNat := by
  unfold normalise
  by_cases zero : shift = 0
  · simp [zero, digitsValue_append]
  · have nonzero : shift.toNat ≠ 0 := fun same => zero (UInt32.toNat_inj.mp same)
    have shifted := digitsValue_shiftDigits nonzero small 0 digits (Nat.two_pow_pos _)
    rw [if_pos zero, digitsValue_append, length_shiftDigits]
    simpa using shifted

@[simp] theorem length_normalise (digits : List UInt32) :
    (normalise shift digits).1.length = digits.length := by
  unfold normalise
  split <;> simp

private theorem unshiftedDigit (u : UInt32) {carry : UInt32} {bits : Nat} (nonzero : shift.toNat ≠
    0) (small : shift.toNat < 32) (carryEq : carry.toNat = bits * 2 ^ (32 - shift.toNat)) :
    ((u >>> shift) ||| carry).toNat = u.toNat / 2 ^ shift.toNat + carry.toNat ∧
      (u <<< (32 - shift)).toNat = u.toNat % 2 ^ shift.toNat * 2 ^ (32 - shift.toNat) := by
  have uLt := u.toNat_lt
  have weight : 2 ^ 32 = 2 ^ shift.toNat * 2 ^ (32 - shift.toNat) := by
    rw [<- pow_add]
    congr 1
    omega
  have lowLt : u.toNat / 2 ^ shift.toNat < 2 ^ (32 - shift.toNat) := by
    refine Nat.div_lt_of_lt_mul ?_
    rw [<- weight]
    exact uLt
  constructor
  · rw [UInt32.toNat_or, UInt32.toNat_shiftRight, Nat.mod_eq_of_lt small, shiftRight_eq_div_pow,
      carryEq, <- Nat.shiftLeft_eq, Nat.or_comm, <- Nat.shiftLeft_add_eq_or_of_lt lowLt, add_comm]
  · rw [UInt32.toNat_shiftLeft, toNat_complement small,
      Nat.mod_eq_of_lt (show 32 - shift.toNat < 32 by omega), Nat.shiftLeft_eq, weight,
      mul_mod_mul_right]

@[simp] theorem length_unnormalise (carry : UInt32) (us : List UInt32) :
    (unnormalise shift carry us).length = us.length := by
  induction us generalizing carry with
  | nil => rfl
  | cons u us ih => simp [unnormalise, ih]

/-- Shifting the digits back divides the number. -/
theorem digitsValue_unnormalise (nonzero : shift.toNat ≠ 0) (small : shift.toNat < 32)
    (us : List UInt32) {carry : UInt32} {bits : Nat} (bitsLt : bits < 2 ^ shift.toNat)
    (carryEq : carry.toNat = bits * 2 ^ (32 - shift.toNat)) :
    digitsValue (unnormalise shift carry us).reverse =
      (bits * (2 ^ 32) ^ us.length + digitsValue us.reverse) / 2 ^ shift.toNat := by
  induction us generalizing carry bits with
  | nil => simp [unnormalise, div_eq_of_lt bitsLt]
  | cons u us ih =>
    obtain ⟨digit, nextEq⟩ := unshiftedDigit u nonzero small carryEq
    have weight : 2 ^ 32 = 2 ^ shift.toNat * 2 ^ (32 - shift.toNat) := by
      rw [<- pow_add]
      congr 1
      omega
    have split := div_add_mod u.toNat (2 ^ shift.toNat)
    have total : bits * (2 ^ 32) ^ (us.length + 1) +
        (digitsValue us.reverse + (2 ^ 32) ^ us.length * u.toNat) =
        2 ^ shift.toNat * ((2 ^ 32) ^ us.length *
          (u.toNat / 2 ^ shift.toNat + bits * 2 ^ (32 - shift.toNat))) +
        (u.toNat % 2 ^ shift.toNat * (2 ^ 32) ^ us.length + digitsValue us.reverse) := by
      rw [pow_succ (2 ^ 32) us.length]
      linear_combination bits * (2 ^ 32) ^ us.length * weight - (2 ^ 32) ^ us.length * split
    rw [unnormalise, reverse_cons, reverse_cons, digitsValue_append,
      digitsValue_append, length_reverse, length_reverse, length_unnormalise,
      ih (mod_lt _ (Nat.two_pow_pos _)) nextEq, length_cons]
    simp only [digitsValue_cons, digitsValue_nil, mul_zero, add_zero]
    rw [total, mul_add_div (Nat.two_pow_pos _), digit, carryEq, add_comm]

end Shift

/-! ## The whole division -/

/-- Number of 32-bit digits of a number. -/
def digitCount (x : Nat) : Nat := x.log2 / 32 + 1

/-- The shift that sets the top bit of the highest digit. -/
def normalisingShift (y : Nat) : Nat := 31 - y.log2 % 32

/-- The windows of the long division of `x` by `y`, both shifted. -/
def divisionWindows (x y : Nat) : List Nat :=
  let dividend := x * 2 ^ normalisingShift y
  let m := digitCount x - digitCount y
  windows (2 ^ 32) (y * 2 ^ normalisingShift y) (dividend / (2 ^ 32) ^ m)
    ((List.range m).map fun j => dividend / (2 ^ 32) ^ j % 2 ^ 32).reverse

/-- Number of positions below the highest one at which the trial digit of the
division of `x` by `y` is too large. -/
def addBacksBelowTop (x y : Nat) : Nat :=
  excesses (digitCount y) (y * 2 ^ normalisingShift y) (divisionWindows x y).tail

section Whole

variable {u v : List UInt32}

/-- A number is its highest digit above lower ones. -/
private theorem highestDigit (digits : List UInt32) :
    digitsValue digits / (2 ^ 32) ^ (digits.length - 1) =
      (digits.getD (digits.length - 1) 0).toNat := by
  rw [toNat_getD, Nat.mod_eq_of_lt]
  refine Nat.div_lt_of_lt_mul ?_
  rw [<- pow_succ]
  exact (digitsValue_lt digits).trans_le (Nat.pow_le_pow_right (by decide) (by omega))

private theorem toNat_ne_zero {digit : UInt32} (nonzero : digit ≠ 0) : digit.toNat ≠ 0 :=
  fun same => nonzero (UInt32.toNat_inj.mp same)

variable {digits : List UInt32}

private theorem log2_digitsValue (top : digits.getD (digits.length - 1) 0 ≠ 0) :
    (digitsValue digits).log2 =
      32 * (digits.length - 1) + (digits.getD (digits.length - 1) 0).toNat.log2 := by
  have nonzero := toNat_ne_zero top
  have weight : 0 < (2 ^ 32) ^ (digits.length - 1) := Nat.pow_pos (by decide)
  have quot := highestDigit digits
  have valueNonzero : digitsValue digits ≠ 0 := by
    intro zero
    rw [zero, Nat.zero_div] at quot
    exact nonzero quot.symm
  have lower := log2_self_le nonzero
  have upper : (digits.getD (digits.length - 1) 0).toNat <
      2 ^ ((digits.getD (digits.length - 1) 0).toNat.log2 + 1) := Nat.lt_log2_self
  rw [<- quot, Nat.le_div_iff_mul_le weight] at lower
  rw [<- quot, div_lt_iff_lt_mul weight] at upper
  rw [quot, <- pow_mul, <- pow_add] at lower upper
  refine (log2_eq_iff valueNonzero).mpr ⟨?_, ?_⟩
  · rwa [add_comm]
  · rwa [show 32 * (digits.length - 1) + (digits.getD (digits.length - 1) 0).toNat.log2 + 1 =
      (digits.getD (digits.length - 1) 0).toNat.log2 + 1 + 32 * (digits.length - 1) by omega]

private theorem log2_digit_lt (digit : UInt32) (nonzero : digit ≠ 0) : digit.toNat.log2 < 32 :=
  (log2_lt (toNat_ne_zero nonzero)).mpr digit.toNat_lt

theorem length_pos_of_top (top : digits.getD (digits.length - 1) 0 ≠ 0) : 0 < digits.length := by
  rcases digits with _ | ⟨digit, digits⟩
  · exact absurd rfl top
  · exact succ_pos _

theorem digitCount_digitsValue (top : digits.getD (digits.length - 1) 0 ≠ 0) :
    digitCount (digitsValue digits) = digits.length := by
  have topLt := log2_digit_lt _ top
  have positive := length_pos_of_top top
  rw [digitCount, log2_digitsValue top]
  omega

/-- The shift of `D1` is the one that the value of the divisor needs. -/
private theorem toNat_shift (top : v.getD (v.length - 1) 0 ≠ 0) :
    (UInt32.ofNat (countLeadingZeros32 (v.getD (v.length - 1) 0))).toNat =
      normalisingShift (digitsValue v) := by
  have topLt := log2_digit_lt _ top
  rw [UInt32.toNat_ofNat', countLeadingZeros32, if_neg top, normalisingShift, log2_digitsValue top]
  omega

theorem normalisingShift_lt (y : Nat) : normalisingShift y < 32 := by
  unfold normalisingShift
  omega

/-- Normalising the divisor sets its top bit and shifts nothing out. -/
private theorem normalised_divisor (twoDigits : 2 <= v.length) (top : v.getD (v.length - 1) 0 ≠ 0)
    {shift : UInt32} (shiftEq : shift.toNat = normalisingShift (digitsValue v)) :
    Normalised (normalise shift v).1 ∧
      digitsValue (normalise shift v).1 = digitsValue v * 2 ^ normalisingShift (digitsValue v) := by
  have shiftLt : shift.toNat < 32 := by rw [shiftEq]; exact normalisingShift_lt _
  have whole := digitsValue_normalise shiftLt v
  have topLt := log2_digit_lt _ top
  have log2Eq := log2_digitsValue top
  have shiftValue : normalisingShift (digitsValue v) =
      31 - (v.getD (v.length - 1) 0).toNat.log2 := by
    rw [normalisingShift, log2Eq]
    omega
  have upper : digitsValue v < 2 ^ ((digitsValue v).log2 + 1) := Nat.lt_log2_self
  have valueNonzero : digitsValue v ≠ 0 := by
    intro zero
    have quot := highestDigit v
    rw [zero, Nat.zero_div] at quot
    exact toNat_ne_zero top quot.symm
  have lower := log2_self_le valueNonzero
  have shiftedLt : digitsValue v * 2 ^ shift.toNat < (2 ^ 32) ^ v.length := by
    calc digitsValue v * 2 ^ shift.toNat
        < 2 ^ ((digitsValue v).log2 + 1) * 2 ^ shift.toNat :=
          mul_lt_mul_of_pos_right upper (Nat.two_pow_pos _)
      _ = (2 ^ 32) ^ v.length := by
          rw [<- pow_add, <- pow_mul, shiftEq, shiftValue, log2Eq]
          congr 1
          omega
  have shiftedGe : 2 ^ 31 * (2 ^ 32) ^ (v.length - 1) <= digitsValue v * 2 ^ shift.toNat := by
    calc 2 ^ 31 * (2 ^ 32) ^ (v.length - 1)
        = 2 ^ (digitsValue v).log2 * 2 ^ shift.toNat := by
          rw [<- pow_add, <- pow_mul, <- pow_add, shiftEq, shiftValue, log2Eq]
          congr 1
          omega
      _ <= digitsValue v * 2 ^ shift.toNat := mul_le_mul_right _ lower
  have value : digitsValue (normalise shift v).1 = digitsValue v * 2 ^ shift.toNat := by
    have taken := digitsValue_take ((normalise shift v).1 ++ [(normalise shift v).2]) v.length
    rw [whole, Nat.mod_eq_of_lt shiftedLt] at taken
    have sameLen : (normalise shift v).1.length = v.length := length_normalise v
    rwa [<- sameLen, take_left] at taken
  refine ⟨⟨by rwa [length_normalise], ?_⟩, by rw [value, shiftEq]⟩
  rw [<- highestDigit, value, length_normalise, Nat.le_div_iff_mul_le (Nat.pow_pos (by decide))]
  exact shiftedGe

/-- The digits below a position, from the highest one down. -/
private theorem map_take_reverse (digits : List UInt32) {count : Nat}
    (le : count <= digits.length) : (digits.take count).reverse.map UInt32.toNat =
      ((List.range count).map fun j => digitsValue digits / (2 ^ 32) ^ j % 2 ^ 32).reverse := by
  rw [map_reverse]
  congr 1
  refine ext_getElem (by simp [le]) fun j left right => ?_
  simp only [getElem_map, getElem_take, getElem_range, <- toNat_getD]
  rw [getD_eq_getElem]

private theorem digitsValue_remainder {shift : UInt32} (small : shift.toNat < 32) {rem : Nat} (value
    : digitsValue digits = rem * 2 ^ shift.toNat) :
    digitsValue (if shift ≠ 0 then unnormalise shift 0 digits.reverse else digits.reverse).reverse =
      rem := by
  by_cases zero : shift = 0
  · rw [if_neg (not_not_intro zero), reverse_reverse, value, zero]
    exact mul_one _
  · rw [if_pos zero, digitsValue_unnormalise (toNat_ne_zero zero) small digits.reverse
      (Nat.two_pow_pos _) (show (0 : UInt32).toNat = 0 * _ by rw [zero_mul]; rfl),
      reverse_reverse, zero_mul, zero_add, value,
      Nat.mul_div_cancel _ (Nat.two_pow_pos _)]

private theorem windows_eq_cons {V window : Nat} (below : List Nat) :
    windows (2 ^ 32) V window below = window :: (windows (2 ^ 32) V window below).tail := by
  cases below <;> rfl

/-- The list of digits is split at position `m` without loss. -/
private theorem ofDigits_split (digits : List UInt32) {m : Nat} (le : m <= digits.length) :
    digitsValue (digits.drop m) * (2 ^ 32) ^ ((digits.take m).reverse.map UInt32.toNat).length +
        Nat.ofDigits (2 ^ 32) ((digits.take m).reverse.map UInt32.toNat).reverse =
      digitsValue digits := by
  have split := digitsValue_append (digits.take m) (digits.drop m)
  rw [take_append_drop, length_take, min_eq_left le] at split
  rw [split, length_map, length_reverse, length_take, min_eq_left le,
    <- map_reverse, reverse_reverse, mul_comm, add_comm]
  rfl

private theorem map_eq_quotientDigits_iff {V window : Nat} {below : List Nat}
    (positive : 0 < V) (windowLt : window < 2 ^ 32 * V)
    (belowLt : ∀ digit ∈ below, digit < 2 ^ 32) (length : digits.length = below.length + 1) :
    digits.map UInt32.toNat = quotientDigits (2 ^ 32) V window below ↔
      digitsValue digits.reverse =
        (window * (2 ^ 32) ^ below.length + Nat.ofDigits (2 ^ 32) below.reverse) / V := by
  rw [<- ofDigits_quotientDigits positive, digitsValue, map_reverse]
  constructor
  · intro same
    rw [same]
  · intro same
    have reversed := Nat.ofDigits_inj_of_len_eq (by decide) (by simp [length]) (by
      intro digit mem
      rcases mem_map.mp (mem_reverse.mp mem) with ⟨word, _, rfl⟩
      exact word.toNat_lt) (by
      intro digit mem
      exact quotientDigits_lt positive windowLt belowLt digit (mem_reverse.mp mem)) same
    exact reverse_inj.mp reversed

/-- `KnuthDiv` returns the quotient exactly when it adds back at most once
below the highest position, and then its remainder is right, too. -/
theorem KnuthDiv_spec (twoDigits : 2 <= v.length) (room : v.length <= u.length)
    (topU : u.getD (u.length - 1) 0 ≠ 0) (topV : v.getD (v.length - 1) 0 ≠ 0) :
    (digitsValue (KnuthDiv u v).1 = digitsValue u / digitsValue v ↔
      addBacksBelowTop (digitsValue u) (digitsValue v) <= 1) ∧
    (addBacksBelowTop (digitsValue u) (digitsValue v) <= 1 ->
      digitsValue (KnuthDiv u v).2 = digitsValue u % digitsValue v) := by
  have shiftEq := toNat_shift topV
  have shiftLt := normalisingShift_lt (digitsValue v)
  obtain ⟨normal, divisorEq⟩ := normalised_divisor twoDigits topV shiftEq
  simp only [KnuthDiv]
  generalize UInt32.ofNat (countLeadingZeros32 (v.getD (v.length - 1) 0)) = shift at *
  rw [<- shiftEq] at shiftLt
  have dividendEq := digitsValue_normalise shiftLt u
  set spilled := (normalise shift u).1 ++ [(normalise shift u).2] with spilledDef
  have spilledLength : spilled.length = u.length + 1 := by simp [spilledDef]
  set m := u.length - v.length with mDef
  have mLe : m <= spilled.length := by omega
  have normalLength : (normalise shift v).1.length = v.length := length_normalise v
  have windowLength : (spilled.drop m).length = (normalise shift v).1.length + 1 := by
    rw [length_drop]
    omega
  have windowEq := digitsValue_drop spilled m
  rw [dividendEq] at windowEq
  have windowLt : digitsValue (spilled.drop m) < 2 ^ 32 * digitsValue (normalise shift v).1 := by
    rw [windowEq]
    refine Nat.div_lt_of_lt_mul ?_
    calc digitsValue u * 2 ^ shift.toNat < (2 ^ 32) ^ u.length * 2 ^ 31 :=
          Nat.mul_lt_mul_of_lt_of_le (digitsValue_lt u)
            (Nat.pow_le_pow_right (by decide) (by omega)) (Nat.two_pow_pos _)
      _ = (2 ^ 32) ^ m * (2 ^ 32 * (2 ^ 31 * (2 ^ 32) ^ (v.length - 1))) := by
          rw [<- mul_assoc (2 ^ 32), mul_comm (2 ^ 32) (2 ^ 31), mul_assoc (2 ^ 31),
            <- pow_succ', mul_left_comm, <- pow_add, mul_comm]
          congr 2
          omega
      _ <= (2 ^ 32) ^ m * (2 ^ 32 * digitsValue (normalise shift v).1) := by
          rw [<- normalLength]
          exact mul_le_mul_left _ (mul_le_mul_left _ normal.value_ge)
  have outcome := knuthLoop_spec normal (spilled.take m).reverse windowLength windowLt
  simp only at outcome
  set loop := knuthLoop (normalise shift v).1 (spilled.drop m) (spilled.take m).reverse
    with loopDef
  have shiftedWindows : windows (2 ^ 32) (digitsValue (normalise shift v).1)
      (digitsValue (spilled.drop m)) ((spilled.take m).reverse.map UInt32.toNat) =
      divisionWindows (digitsValue u) (digitsValue v) := by
    rw [divisionWindows, digitCount_digitsValue topU, digitCount_digitsValue topV,
      map_take_reverse spilled mLe, divisorEq, windowEq, dividendEq, shiftEq]
  have budget : excesses (normalise shift v).1.length (digitsValue (normalise shift v).1)
      (windows (2 ^ 32) (digitsValue (normalise shift v).1) (digitsValue (spilled.drop m))
        ((spilled.take m).reverse.map UInt32.toNat)) <=
      1 + (if Excessive (2 ^ 32) (normalise shift v).1.length
        (digitsValue (normalise shift v).1) (digitsValue (spilled.drop m)) then 1 else 0) ↔
      addBacksBelowTop (digitsValue u) (digitsValue v) <= 1 := by
    rw [addBacksBelowTop, <- shiftedWindows, digitCount_digitsValue topV, <- divisorEq,
      <- normalLength, windows_eq_cons, excesses_cons, tail_cons]
    omega
  have positive := normal.positive
  have dividend := ofDigits_split spilled mLe
  have belowLt : ∀ digit ∈ (spilled.take m).reverse.map UInt32.toNat, digit < 2 ^ 32 := by
    intro digit mem
    rcases mem_map.mp mem with ⟨word, _, rfl⟩
    exact word.toNat_lt
  have digitsIff := map_eq_quotientDigits_iff positive windowLt belowLt
    (show loop.1.length = _ by simp [loopDef])
  rw [dividend, dividendEq, divisorEq, shiftEq,
    Nat.mul_div_mul_right _ _ (Nat.two_pow_pos _)] at digitsIff
  have remainderEq := finalRemainder_eq (b := 2 ^ 32) positive (digitsValue (spilled.drop m))
    ((spilled.take m).reverse.map UInt32.toNat)
  rw [dividend, dividendEq] at remainderEq
  refine ⟨?_, fun within => ?_⟩
  · rw [<- digitsIff, <- budget, <- divisorEq]
    exact outcome.digits
  · refine digitsValue_remainder shiftLt ?_
    rw [<- normalLength, outcome.rest (budget.mpr within), remainderEq, divisorEq, shiftEq,
      mul_mod_mul_right]

theorem length_KnuthDiv (room : v.length <= u.length) :
    (KnuthDiv u v).1.length = u.length - v.length + 1 ∧ (KnuthDiv u v).2.length = v.length := by
  simp only [KnuthDiv]
  constructor
  · rw [length_reverse, length_knuthLoop, length_reverse, length_take,
      length_append, length_normalise, length_singleton]
    omega
  · rw [length_reverse, apply_ite List.length, length_unnormalise, length_reverse, length_take,
      length_knuthLoop_snd, length_drop, length_append, length_reverse, length_take, length_append,
      length_normalise, length_singleton, ite_self]
    omega

end Whole

end LlvmProject
