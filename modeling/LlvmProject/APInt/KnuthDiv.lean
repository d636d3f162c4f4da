import LlvmProject.APInt.Words
import LlvmProject.Library.LongDivision

namespace LlvmProject

open Bool hiding ofNat toNat
open List UInt32 Nat

open LongDivision

/-!
# Knuth's algorithm D on 32-bit digits

`KnuthDiv` divides a number `u` of `m + n` digits by a number `v` of `n`
digits.  Both are shifted until the top bit of `v` is set, and the digits of
the quotient are computed from the highest position `m` down.  At position
`j` the source works on the digits of `u` from `j` on; here they are a list,
and the digits below are a second list, the highest one first.

The multiply-and-subtract step `D4` propagates each borrow to the digits above
the window as far as it goes, and remembers it as negative only when it leaves
the highest digit.  The add-back step `D6` restores the window but not the
digits above it.
-/

/-- Value of an array of 32-bit digits. -/
def digitsValue (digits : List UInt32) : Nat := ofDigits (2 ^ 32) (digits.map toNat)

/-- Number of zero bits above the highest one bit of a digit. -/
def countLeadingZeros32 (digit : UInt32) : Nat := if digit = 0 then 32 else 31 - digit.toNat.log2

/-- `D1`: shift all digits left; the bits shifted out of one digit enter the
next. -/
def shiftDigits (shift : UInt32) : UInt32 -> List UInt32 -> List UInt32 × UInt32
  | carry, [] => ([], carry)
  | carry, u :: us =>
    let rest := shiftDigits shift (u >>> (32 - shift)) us
    (((u <<< shift) ||| carry) :: rest.1, rest.2)

/-- `D1`: the digits are left alone when the divisor is already normalised. -/
def normalise (shift : UInt32) (digits : List UInt32) : List UInt32 × UInt32 :=
  if shift ≠ 0 then shiftDigits shift 0 digits else (digits, 0)

/-- `D3`: estimate a quotient digit from three digits `u0 u1 u2` of the
dividend and two digits `v0 v1` of the divisor. -/
def trialQuotient (u0 u1 u2 v0 v1 : UInt32) : UInt64 :=
  let b : UInt64 := 0x100000000
  let dividend := (u0.toUInt64 <<< 32) + u1.toUInt64
  let qp := dividend / v0.toUInt64
  let rp := dividend % v0.toUInt64
  if qp = b ∨ qp * v1.toUInt64 > b * rp + u2.toUInt64 then
    let qp := qp - 1
    let rp := rp + v0.toUInt64
    if rp < b ∧ (qp = b ∨ qp * v1.toUInt64 > b * rp + u2.toUInt64) then qp - 1 else qp
  else qp

/-- `D4`: borrow from the digits to the left until one of them is not zero. -/
def borrowLeft : Bool -> List UInt32 -> List UInt32 × Bool
  | false, us => (us, false)
  | true, [] => ([], true)
  | true, u :: us =>
    let rest := borrowLeft (u == 0) us
    ((u - 1) :: rest.1, rest.2)

/-- `D4`: subtract `qp` times the divisor.  The flag is `isNeg`. -/
def multiplySubtract (qp : UInt64) : List UInt32 -> List UInt32 -> List UInt32 × Bool
  | v :: vs, u0 :: u1 :: us =>
    let u_tmp := (u1.toUInt64 <<< 32) ||| u0.toUInt64
    let subtrahend := qp * v.toUInt64
    let result := u_tmp - subtrahend
    let above := borrowLeft (subtrahend > u_tmp) us
    let rest := multiplySubtract qp vs ((result >>> 32).toUInt32 :: above.1)
    (result.toUInt32 :: rest.1, above.2 || rest.2)
  | _, us => (us, false)

/-- `D6`: add the divisor to the window.  The last carry is added to the top
digit of the window, and its own carry is dropped. -/
def addBack : Bool -> List UInt32 -> List UInt32 -> List UInt32
  | carry, v :: vs, u :: us =>
    let limit := min u v
    let sum := u + (v + (if carry then 1 else 0))
    sum :: addBack (sum < limit || (carry && sum == limit)) vs us
  | carry, [], u :: us => (u + (if carry then 1 else 0)) :: us
  | _, _, [] => []

/-- One pass of the loop: the new digits from position `j` on and the quotient
digit. -/
def knuthStep (v u : List UInt32) : List UInt32 × UInt32 :=
  let n := v.length
  let qp := trialQuotient (u.getD n 0) (u.getD (n - 1) 0) (u.getD (n - 2) 0)
    (v.getD (n - 1) 0) (v.getD (n - 2) 0)
  let difference := multiplySubtract qp v u
  if difference.2 then (addBack false v difference.1, qp.toUInt32 - 1)
  else (difference.1, qp.toUInt32)

/-- The loop over the positions: the quotient digits, the highest one first,
and the digits left in `u`. -/
def knuthLoop (v : List UInt32) : List UInt32 -> List UInt32 -> List UInt32 × List UInt32
  | u, [] => ([(knuthStep v u).2], (knuthStep v u).1)
  | u, digit :: below =>
    let rest := knuthLoop v (digit :: (knuthStep v u).1) below
    ((knuthStep v u).2 :: rest.1, rest.2)

/-- `D8`: shift the remainder back, from its highest digit down. -/
def unnormalise (shift : UInt32) : UInt32 -> List UInt32 -> List UInt32
  | _, [] => []
  | carry, u :: us =>
    ((u >>> shift) ||| carry) :: unnormalise shift (u <<< (32 - shift)) us

/-- Divide `u` by `v`, which has at least two digits and a nonzero highest
one.  The result is the digits of the quotient and of the remainder. -/
def KnuthDiv (u v : List UInt32) : List UInt32 × List UInt32 :=
  let n := v.length
  let m := u.length - n
  let shift := ofNat (countLeadingZeros32 (v.getD (n - 1) 0))
  let normalU := normalise shift u
  let normalV := (normalise shift v).1
  let spilled := normalU.1 ++ [normalU.2]
  let result := knuthLoop normalV (spilled.drop m) (spilled.take m).reverse
  let rem := (result.2.take n).reverse
  (result.1.reverse, (if shift ≠ 0 then unnormalise shift 0 rem else rem).reverse)

/-! ## Values of digit arrays -/

@[simp] theorem digitsValue_nil : digitsValue [] = 0 := rfl

@[simp] theorem digitsValue_cons (digit : UInt32) (digits : List UInt32) :
    digitsValue (digit :: digits) = digit.toNat + 2 ^ 32 * digitsValue digits := by
  simp [digitsValue, ofDigits_cons]

theorem digitsValue_append (low high : List UInt32) :
    digitsValue (low ++ high) = digitsValue low + (2 ^ 32) ^ low.length * digitsValue high := by
  rw [digitsValue, map_append, ofDigits_append, length_map]
  rfl

section

variable (digits : List UInt32)

private theorem mem_map_digit_lt : ∀ digit ∈ digits.map toNat, digit < 2 ^ 32 := by
  intro digit mem
  rcases mem_map.mp mem with ⟨word, _, rfl⟩
  exact word.toNat_lt

theorem digitsValue_lt : digitsValue digits < (2 ^ 32) ^ digits.length := by
  have bound := ofDigits_lt_base_pow_length (by decide) (mem_map_digit_lt digits)
  rwa [length_map] at bound

theorem digitsValue_take (count : Nat) :
    digitsValue (digits.take count) = digitsValue digits % (2 ^ 32) ^ count := by
  rw [digitsValue, map_take]
  exact (ofDigits_mod_pow_eq_ofDigits_take count (by decide) _ (mem_map_digit_lt digits)).symm

theorem digitsValue_drop (count : Nat) :
    digitsValue (digits.drop count) = digitsValue digits / (2 ^ 32) ^ count := by
  rw [digitsValue, map_drop]
  exact (ofDigits_div_pow_eq_ofDigits_drop count (by decide) _ (mem_map_digit_lt digits)).symm

theorem toNat_getD (place : Nat) :
    (digits.getD place 0).toNat = digitsValue digits / (2 ^ 32) ^ place % 2 ^ 32 := by
  rw [<- digitsValue_drop]
  cases suffix : digits.drop place with
  | nil =>
    have beyond : digits.length <= place := drop_eq_nil_iff.mp suffix
    rw [getD_eq_default _ _ beyond]
    rfl
  | cons digit rest =>
    have first : digits.getD place 0 = digit := by
      have head := congrArg (fun list => list.getD 0 0) suffix
      simpa [getD_eq_getElem?_getD] using head
    have digitLt := digit.toNat_lt
    rw [first, digitsValue_cons]
    omega

end

/-- Two digits make a word. -/
theorem toNat_joined (high low : UInt32) :
    ((high.toUInt64 <<< 32) ||| low.toUInt64).toNat = low.toNat + 2 ^ 32 * high.toNat := by
  have lowLt := low.toNat_lt
  have highLt := high.toNat_lt
  have shifted : (high.toUInt64 <<< 32).toNat = high.toNat <<< 32 := by
    rw [UInt64.toNat_shiftLeft, toNat_toUInt64]
    change high.toNat <<< 32 % 2 ^ 64 = _
    rw [shiftLeft_eq]
    omega
  rw [UInt64.toNat_or, shifted, toNat_toUInt64, <- shiftLeft_add_eq_or_of_lt lowLt, shiftLeft_eq]
  omega

theorem toNat_highDigit (word : UInt64) : (word >>> 32).toUInt32.toNat = word.toNat / 2 ^ 32 := by
  have wordLt := word.toNat_lt
  rw [UInt64.toNat_toUInt32, UInt64.toNat_shiftRight]
  change word.toNat >>> 32 % 2 ^ 32 = _
  rw [shiftRight_eq_div_pow]
  omega

theorem toNat_toUInt32 {word : UInt64} (wordLt : word.toNat < 2 ^ 32) :
    word.toUInt32.toNat = word.toNat := by
  rw [UInt64.toNat_toUInt32, mod_eq_of_lt wordLt]

/-! ## The trial quotient -/

/-- The test of `D3` does not overflow. -/
private theorem tooLarge_iff (qp rp : UInt64) (u2 v1 : UInt32) (qpLe : qp.toNat <= 2 ^ 32 + 1)
    (rpLt : rp.toNat < 2 ^ 32) :
    (qp = 0x100000000 ∨ qp * v1.toUInt64 > 0x100000000 * rp + u2.toUInt64) ↔
      (qp.toNat = 2 ^ 32 ∨ 2 ^ 32 * rp.toNat + u2.toNat < qp.toNat * v1.toNat) := by
  have u2Lt := u2.toNat_lt
  have v1Lt := v1.toNat_lt
  have prod : qp.toNat * v1.toNat <= (2 ^ 32 + 1) * (2 ^ 32 - 1) := Nat.mul_le_mul qpLe (by omega)
  have base : (0x100000000 : UInt64).toNat = 2 ^ 32 := rfl
  rw [gt_iff_lt, UInt64.lt_iff_toNat_lt, UInt64.toNat_add, UInt64.toNat_mul, UInt64.toNat_mul,
    toNat_toUInt64, toNat_toUInt64, <- UInt64.toNat_inj, base,
    mod_eq_of_lt (show qp.toNat * v1.toNat < 2 ^ 64 by omega),
    mod_eq_of_lt (show 2 ^ 32 * rp.toNat < 2 ^ 64 by omega),
    mod_eq_of_lt (show 2 ^ 32 * rp.toNat + u2.toNat < 2 ^ 64 by omega)]

/-- `D3` computes the estimate from three digits by two. -/
theorem toNat_trialQuotient {u0 u1 u2 v0 v1 : UInt32} (normalised : 2 ^ 31 <= v0.toNat) (window :
    (u0.toNat * 2 ^ 32 + u1.toNat) * 2 ^ 32 + u2.toNat < 2 ^ 32 * (v0.toNat * 2 ^ 32 + v1.toNat +
    1)) :
    (trialQuotient u0 u1 u2 v0 v1).toNat =
      min (2 ^ 32 - 1) (((u0.toNat * 2 ^ 32 + u1.toNat) * 2 ^ 32 + u2.toNat) /
        (v0.toNat * 2 ^ 32 + v1.toNat)) := by
  have u0Lt := u0.toNat_lt
  have u1Lt := u1.toNat_lt
  have u2Lt := u2.toNat_lt
  have v0Lt := v0.toNat_lt
  have v1Lt := v1.toNat_lt
  have qpLe := top_estimate_le v1Lt (by omega) window
  have dividendEq : ((u0.toUInt64 <<< 32) + u1.toUInt64).toNat = u0.toNat * 2 ^ 32 + u1.toNat := by
    rw [UInt64.toNat_add, UInt64.toNat_shiftLeft, toNat_toUInt64, toNat_toUInt64]
    change (u0.toNat <<< 32 % 2 ^ 64 + u1.toNat) % 2 ^ 64 = _
    rw [shiftLeft_eq]
    omega
  have split := (div_add_mod (u0.toNat * 2 ^ 32 + u1.toNat) v0.toNat).symm
  have rpLt := mod_lt (u0.toNat * 2 ^ 32 + u1.toNat) (show v0.toNat > 0 by omega)
  rw [corrected_estimate u2Lt v1Lt (by omega) split rpLt window]
  unfold trialQuotient
  simp only
  have qpEq : (((u0.toUInt64 <<< 32) + u1.toUInt64) / v0.toUInt64).toNat =
      (u0.toNat * 2 ^ 32 + u1.toNat) / v0.toNat := by
    rw [UInt64.toNat_div, dividendEq, toNat_toUInt64]
  have rpEq : (((u0.toUInt64 <<< 32) + u1.toUInt64) % v0.toUInt64).toNat =
      (u0.toNat * 2 ^ 32 + u1.toNat) % v0.toNat := by
    rw [UInt64.toNat_mod, dividendEq, toNat_toUInt64]
  generalize ((u0.toUInt64 <<< 32) + u1.toUInt64) / v0.toUInt64 = qp at *
  generalize ((u0.toUInt64 <<< 32) + u1.toUInt64) % v0.toUInt64 = rp at *
  generalize (u0.toNat * 2 ^ 32 + u1.toNat) / v0.toNat = quot at *
  generalize (u0.toNat * 2 ^ 32 + u1.toNat) % v0.toNat = rem at *
  subst qpEq rpEq
  simp only [tooLarge_iff qp rp u2 v1 qpLe (by omega)]
  by_cases first : qp.toNat = 2 ^ 32 ∨ 2 ^ 32 * rp.toNat + u2.toNat < qp.toNat * v1.toNat
  · have qpPositive : 1 <= qp.toNat := by
      rcases first with equal | exceeds
      · omega
      · exact Nat.pos_of_ne_zero (fun zero => by simp [zero] at exceeds)
    have lowerEq : (qp - 1).toNat = qp.toNat - 1 :=
      UInt64.toNat_sub_of_le _ _ (UInt64.le_iff_toNat_le.mpr qpPositive)
    have raisedEq : (rp + v0.toUInt64).toNat = rp.toNat + v0.toNat := by
      rw [UInt64.toNat_add, toNat_toUInt64]
      omega
    have below : rp + v0.toUInt64 < 0x100000000 ↔ rp.toNat + v0.toNat < 2 ^ 32 := by
      rw [UInt64.lt_iff_toNat_lt, raisedEq]
      rfl
    have second : rp + v0.toUInt64 < 0x100000000 ∧ (qp - 1 = 0x100000000 ∨
        (qp - 1) * v1.toUInt64 > 0x100000000 * (rp + v0.toUInt64) + u2.toUInt64) ↔
        rp.toNat + v0.toNat < 2 ^ 32 ∧ (qp.toNat - 1 = 2 ^ 32 ∨
          2 ^ 32 * (rp.toNat + v0.toNat) + u2.toNat < (qp.toNat - 1) * v1.toNat) := by
      rw [below]
      refine and_congr_right fun small => ?_
      rw [tooLarge_iff _ _ u2 v1 (by omega) (by omega), lowerEq, raisedEq]
    rw [if_pos first, if_pos first]
    simp only [second]
    split
    next again =>
      have lowerPositive : 1 <= (qp - 1).toNat := by
        rcases again.2 with equal | exceeds
        · omega
        · exact Nat.pos_of_ne_zero (fun zero => by simp [<- lowerEq, zero] at exceeds)
      have oneLe : (1 : UInt64) <= qp - 1 := UInt64.le_iff_toNat_le.mpr lowerPositive
      rw [UInt64.toNat_sub_of_le _ _ oneLe, lowerEq]
      rfl
    next => exact lowerEq
  · rw [if_neg first, if_neg first]

/-! ## Multiply and subtract -/

@[simp] theorem length_borrowLeft (borrow : Bool) (us : List UInt32) :
    (borrowLeft borrow us).1.length = us.length := by
  induction us generalizing borrow with
  | nil => cases borrow <;> rfl
  | cons u us ih => cases borrow <;> simp [borrowLeft, ih]

/-- A borrow takes one from the digits to the left, and leaves them only when
they are all zero. -/
theorem digitsValue_borrowLeft (borrow : Bool) (us : List UInt32) :
    digitsValue (borrowLeft borrow us).1 + borrow.toNat =
      digitsValue us + (borrowLeft borrow us).2.toNat * (2 ^ 32) ^ us.length := by
  induction us generalizing borrow with
  | nil => cases borrow <;> simp [borrowLeft]
  | cons u us ih =>
    cases borrow with
    | false => simp [borrowLeft]
    | true =>
      have rest := ih (u == 0)
      have uLt := u.toNat_lt
      have below : (u - 1).toNat + 1 = u.toNat + (u == 0).toNat * 2 ^ 32 := by
        by_cases zero : u = 0
        · subst zero
          rfl
        · have nonzero : u.toNat ≠ 0 := fun same => zero (UInt32.toNat_inj.mp same)
          have oneLe : (1 : UInt32) <= u := le_iff_toNat_le.mpr (pos_of_ne_zero nonzero)
          rw [UInt32.toNat_sub_of_le _ _ oneLe, beq_false_of_ne zero]
          simp only [toNat_one, toNat_false]
          omega
      simp only [borrowLeft, digitsValue_cons, length_cons, toNat_true]
      linear_combination 2 ^ 32 * rest + below

@[simp] theorem length_multiplySubtract (qp : UInt64) (vs us : List UInt32) :
    (multiplySubtract qp vs us).1.length = us.length := by
  induction vs generalizing us with
  | nil => rcases us with _ | ⟨u0, _ | ⟨u1, us⟩⟩ <;> rfl
  | cons v vs ih =>
    rcases us with _ | ⟨u0, _ | ⟨u1, us⟩⟩
    · rfl
    · rfl
    · simp [multiplySubtract, ih]

private theorem positionDifference (qp : UInt64) (u0 u1 v : UInt32) (qpLt : qp.toNat < 2 ^ 32) :
    let u_tmp := (u1.toUInt64 <<< 32) ||| u0.toUInt64
    let subtrahend := qp * v.toUInt64
    (u_tmp - subtrahend).toUInt32.toNat + 2 ^ 32 * ((u_tmp - subtrahend) >>> 32).toUInt32.toNat +
        qp.toNat * v.toNat =
      u0.toNat + 2 ^ 32 * u1.toNat + 2 ^ 64 * (decide (subtrahend > u_tmp)).toNat := by
  have u0Lt := u0.toNat_lt
  have u1Lt := u1.toNat_lt
  have vLt := v.toNat_lt
  have productLt : qp.toNat * v.toNat < 2 ^ 64 := by
    calc qp.toNat * v.toNat <= (2 ^ 32 - 1) * (2 ^ 32 - 1) := Nat.mul_le_mul (by omega) (by omega)
      _ < 2 ^ 64 := by norm_num
  have joined := toNat_joined u1 u0
  have prod : (qp * v.toUInt64).toNat = qp.toNat * v.toNat := by
    rw [UInt64.toNat_mul, toNat_toUInt64, mod_eq_of_lt productLt]
  simp only
  rw [toNat_highDigit, UInt64.toNat_toUInt32, UInt64.toNat_sub, joined, prod]
  by_cases exceeds : qp * v.toUInt64 > (u1.toUInt64 <<< 32) ||| u0.toUInt64
  · rw [decide_eq_true exceeds, toNat_true]
    rw [gt_iff_lt, UInt64.lt_iff_toNat_lt, joined, prod] at exceeds
    omega
  · rw [decide_eq_false exceeds, toNat_false]
    rw [gt_iff_lt, UInt64.lt_iff_toNat_lt, joined, prod] at exceeds
    omega

/-- `D4` subtracts, and counts a multiple of the weight above the highest
digit for every borrow that leaves it. -/
theorem digitsValue_multiplySubtract {qp : UInt64} (qpLt : qp.toNat < 2 ^ 32)
    (vs us : List UInt32) (room : vs.length < us.length) :
    ∃ borrows, digitsValue (multiplySubtract qp vs us).1 + qp.toNat * digitsValue vs =
        digitsValue us + borrows * (2 ^ 32) ^ us.length ∧
      ((multiplySubtract qp vs us).2 = true ↔ borrows ≠ 0) := by
  induction vs generalizing us with
  | nil => exact ⟨0, by rcases us with _ | ⟨u0, _ | ⟨u1, us⟩⟩ <;> simp [multiplySubtract]⟩
  | cons v vs ih =>
    rcases us with _ | ⟨u0, _ | ⟨u1, us⟩⟩
    · simp at room
    · simp at room
    · have place := positionDifference qp u0 u1 v qpLt
      simp only at place
      have above := digitsValue_borrowLeft
        (qp * v.toUInt64 > (u1.toUInt64 <<< 32) ||| u0.toUInt64) us
      simp only [multiplySubtract]
      generalize decide (qp * v.toUInt64 > (u1.toUInt64 <<< 32) ||| u0.toUInt64) = borrow at *
      obtain ⟨borrows, difference, flag⟩ := ih
        (((((u1.toUInt64 <<< 32) ||| u0.toUInt64) - qp * v.toUInt64) >>> 32).toUInt32 ::
          (borrowLeft borrow us).1) (by
            simp only [length_cons, length_borrowLeft] at room ⊢
            omega)
      refine ⟨borrows + (borrowLeft borrow us).2.toNat, ?_, ?_⟩
      · simp only [digitsValue_cons, length_cons, length_borrowLeft] at difference ⊢
        linear_combination 2 ^ 32 * difference + place + 2 ^ 64 * above
      · rw [or_eq_true, flag]
        cases (borrowLeft borrow us).2 <;> simp

/-! ## Add back -/

@[simp] theorem length_addBack (carry : Bool) (vs us : List UInt32) :
    (addBack carry vs us).length = us.length := by
  induction us generalizing carry vs with
  | nil => cases vs <;> rfl
  | cons u us ih => cases vs <;> simp [addBack, ih]

private theorem addDigit (u v : UInt32) (carry : Bool) :
    let sum := u + (v + (if carry then 1 else 0))
    sum.toNat + 2 ^ 32 * (sum < min u v || (carry && sum == min u v)).toNat =
      u.toNat + v.toNat + carry.toNat := by
  have uLt := u.toNat_lt
  have vLt := v.toNat_lt
  have limit : (min u v).toNat = min u.toNat v.toNat := by
    change (if u <= v then u else v).toNat = _
    by_cases le : u <= v
    · rw [if_pos le, min_eq_left (le_iff_toNat_le.mp le)]
    · have ge := le_of_lt (Nat.lt_of_not_le (mt le_iff_toNat_le.mpr le))
      rw [if_neg le, min_eq_right ge]
  have sumEq : (u + (v + (if carry then 1 else 0))).toNat =
      (u.toNat + v.toNat + carry.toNat) % 2 ^ 32 := by
    rw [UInt32.toNat_add, UInt32.toNat_add]
    cases carry
    · simp
    · simp
      omega
  simp only
  generalize u + (v + (if carry then 1 else 0)) = sum at *
  have below : (decide (sum < min u v) : Bool) = decide (sum.toNat < min u.toNat v.toNat) := by
    rw [decide_eq_decide, lt_iff_toNat_lt, limit]
  have equal : (sum == min u v) = decide (sum.toNat = min u.toNat v.toNat) := by
    rw [Bool.eq_iff_iff, beq_iff_eq, decide_eq_true_iff, <- UInt32.toNat_inj, limit]
  rw [below, equal, sumEq]
  cases carry with
  | false =>
    rw [Bool.false_and, Bool.or_false, toNat_false, add_zero]
    by_cases wraps : u.toNat + v.toNat < 2 ^ 32
    · rw [decide_eq_false (by omega), toNat_false]
      omega
    · rw [decide_eq_true (by omega), toNat_true]
      omega
  | true =>
    rw [Bool.true_and, toNat_true, <- decide_or]
    by_cases wraps : u.toNat + v.toNat + 1 < 2 ^ 32
    · rw [decide_eq_false (by omega), toNat_false]
      omega
    · rw [decide_eq_true (by omega), toNat_true]
      omega

/-- `D6` adds the divisor to the window modulo its weight and leaves the
digits above it alone. -/
theorem digitsValue_addBack (carry : Bool) (vs us : List UInt32) (room : vs.length < us.length) :
    digitsValue (addBack carry vs us) =
      (digitsValue us + digitsValue vs + carry.toNat) % (2 ^ 32) ^ (vs.length + 1) +
        (2 ^ 32) ^ (vs.length + 1) * (digitsValue us / (2 ^ 32) ^ (vs.length + 1)) := by
  induction vs generalizing us carry with
  | nil =>
    rcases us with _ | ⟨u, us⟩
    · simp at room
    · have uLt := u.toNat_lt
      have sum : (u + (if carry then 1 else 0)).toNat = (u.toNat + carry.toNat) % 2 ^ 32 := by
        rw [UInt32.toNat_add]
        cases carry <;> simp
      simp only [addBack, digitsValue_cons, sum, digitsValue_nil, length_nil, zero_add, pow_one]
      omega
  | cons v vs ih =>
    rcases us with _ | ⟨u, us⟩
    · simp at room
    · have digit := addDigit u v carry
      simp only [addBack, digitsValue_cons] at digit ⊢
      generalize (decide (u + (v + (if carry then 1 else 0)) < min u v) ||
        (carry && u + (v + (if carry then 1 else 0)) == min u v)) = next at *
      have sumLt := (u + (v + (if carry then 1 else 0))).toNat_lt
      have uLt := u.toNat_lt
      rw [ih next us (by simpa using room), length_cons,
        pow_succ' (2 ^ 32) (vs.length + 1),
        <- Nat.div_div_eq_div_mul, add_mul_div_left _ _ (by decide),
        div_eq_of_lt uLt, zero_add, mod_mul]
      have total : u.toNat + 2 ^ 32 * digitsValue us + (v.toNat + 2 ^ 32 * digitsValue vs) +
          carry.toNat = (u + (v + (if carry then 1 else 0))).toNat +
            2 ^ 32 * (digitsValue us + digitsValue vs + next.toNat) := by
        linear_combination -digit
      rw [total, add_mul_mod_self_left, mod_eq_of_lt sumLt,
        add_mul_div_left _ _ (by decide), div_eq_of_lt sumLt, zero_add]
      ring

end LlvmProject
