import LlvmProject.APInt.ShiftBits

namespace LlvmProject

/-!
# Bignums

The routines on arrays of parts that floating point arithmetic is built on.  A part of a product
is computed from its halves and added in with a test for overflow.  Division subtracts multiples
of the divisor, shifted by one bit less each time.

Numbers of parts and of bits are of type `unsigned int`.  The number of parts of an array is at
least one and can be stored in that type, but the number of its bits may not fit.  A failed
assertion, or an access beyond the end of an array, is `none`.
-/

/-- An array of parts, the least significant one first. -/
structure Bignum (parts : Nat) where
  words : List UInt64
  length_words : words.length = parts
  positive : 0 < parts
  fits : parts < 2 ^ 32

namespace Bignum

open APInt.Shifts (word array shiftLeft shiftRight setBits)

/-- Reduction to an `unsigned int`. -/
def unsigned (n : Nat) : Nat := n % 2 ^ 32

/-- The value of an array. -/
def value {parts : Nat} (x : Bignum parts) : Nat := wordsValue x.words

/-! ## Parts -/

/-- Returns the value of the lower half of a part. -/
def lowHalf (part : UInt64) : UInt64 := part &&& 0xffffffff

/-- Returns the value of the upper half of a part. -/
def highHalf (part : UInt64) : UInt64 := shiftRight part 32

/-- The bit number of the most significant set bit of a part, all ones if it has none. -/
def partMSB (part : UInt64) : Nat :=
  if part = 0 then 2 ^ 32 - 1 else countLeadingZeros64 part ^^^ 63

/-- Sets the least significant part to the input value, and zeroes out higher parts. -/
def tcSet (part : UInt64) (parts : Nat) : Option (List UInt64) :=
  if parts > 0 then some (part :: List.replicate (parts - 1) 0) else none

/-- The bit number of the most significant set bit of a number, all ones if it has none. -/
def tcMSB (words : List UInt64) : Nat -> Nat
  | 0 => 2 ^ 32 - 1
  | n + 1 =>
    if word words n ≠ 0 then unsigned (partMSB (word words n) + n * 64) else tcMSB words n

/-- Comparison of the lowest parts. -/
def tcCompare (lhs rhs : List UInt64) : Nat -> Int
  | 0 => 0
  | parts + 1 =>
    if word lhs parts = word rhs parts then tcCompare lhs rhs parts
    else if word lhs parts > word rhs parts then 1
    else -1

/-- Subtraction with a borrow; returns the borrow flag too. -/
def tcSubtract : List UInt64 -> List UInt64 -> Bool -> List UInt64 × Bool
  | l :: dst, r :: rhs, c =>
    let part := if c then l - (r + 1) else l - r
    let rest := tcSubtract dst rhs (if c then decide (part >= l) else decide (part > l))
    (part :: rest.1, rest.2)
  | dst, _, c => (dst, c)

/-- Shift a bignum left.  The parts are written from the highest one on, so that those that are
read still have their old values. -/
def tcShiftLeft (dst : List UInt64) (parts count : Nat) : List UInt64 :=
  if count ≠ 0 then
    -- Jump is the inter-part jump; shift is is intra-part shift.
    let jump := count / 64
    let shift := count % 64
    array parts fun i =>
      if i >= jump then
        if shift ≠ 0 then
          if i >= jump + 1 then
            shiftLeft (word dst (i - jump)) shift |||
              shiftRight (word dst (i - jump - 1)) (64 - shift)
          else shiftLeft (word dst (i - jump)) shift
        else word dst (i - jump)
      else 0
  else dst

/-- Shift a bignum right; the parts are written from the lowest one on. -/
def tcShiftRight (dst : List UInt64) (parts count : Nat) : List UInt64 :=
  if count ≠ 0 then
    let jump := count / 64
    let shift := count % 64
    array parts fun i =>
      if i + jump >= parts then 0
      else if shift ≠ 0 then
        if i + jump + 1 < parts then
          shiftRight (word dst (i + jump)) shift |||
            shiftLeft (word dst (i + jump + 1)) (64 - shift)
        else shiftRight (word dst (i + jump)) shift
      else word dst (i + jump)
  else dst

/-! ## Multiplication -/

/-- Add to the low part of a pair, and carry into the high part. -/
def addLow (pair : UInt64 × UInt64) (addend : UInt64) : UInt64 × UInt64 :=
  (pair.1 + addend, if pair.1 + addend < pair.1 then pair.2 + 1 else pair.2)

/-- Add a product of halves to the middle of a pair. -/
def addMiddle (pair : UInt64 × UInt64) (mid : UInt64) : UInt64 × UInt64 :=
  addLow (pair.1, pair.2 + highHalf mid) (shiftLeft mid 32)

/-- The low and the high part of the product of two parts, and a carry. -/
def multiplyPart (srcPart mult carry : UInt64) : UInt64 × UInt64 :=
  if mult = 0 ∨ srcPart = 0 then (carry, 0)
  else
    let pair := (lowHalf srcPart * lowHalf mult, highHalf srcPart * highHalf mult)
    let pair := addMiddle pair (lowHalf srcPart * highHalf mult)
    let pair := addMiddle pair (highHalf srcPart * lowHalf mult)
    addLow pair carry

/-- The loop over the parts; returns the last carry too. -/
def multiplyLoop (mult : UInt64) (add : Bool) :
    Nat -> UInt64 -> List UInt64 -> List UInt64 -> Option (List UInt64 × UInt64)
  | 0, carry, dst, _ => some (dst, carry)
  | n + 1, carry, part :: dst, srcPart :: src => do
    let prod := multiplyPart srcPart mult carry
    let sum := if add then addLow prod part else prod
    let (dst, carry) <- multiplyLoop mult add n sum.2 dst src
    return (sum.1 :: dst, carry)
  | _ + 1, _, _, _ => none

/-- The product of a bignum and a part, to which the destination is added, and whether it
overflows. -/
def tcMultiplyPart (dst src : List UInt64) (mult carry : UInt64) (srcParts dstParts : Nat)
    (add : Bool) : Option (List UInt64 × Bool) :=
  if dstParts <= unsigned (srcParts + 1) then do
    let n := if dstParts < srcParts then dstParts else srcParts
    let (dst, carry) <- multiplyLoop mult add n carry dst src
    if n < dstParts then
      -- Full multiplication, there is no overflow.
      if n + 1 = dstParts ∧ n < dst.length then return (dst.set n carry, false)
      else none
    else if carry ≠ 0 then return (dst, true)
    else return (dst, decide (mult ≠ 0) && ((src.take srcParts).drop n).any (· ≠ 0))
  else none

/-- A row of the product in the width of the operands. -/
def multiplyRow (lhs rhs : List UInt64) (parts : Nat) (state : List UInt64 × Bool) (i : Nat) :
    Option (List UInt64 × Bool) := do
  let mult <- rhs[i]?
  let (window, overflow) <- tcMultiplyPart (state.1.drop i) lhs mult 0 parts (parts - i) true
  return (state.1.take i ++ window, state.2 || overflow)

/-- The product in the width of the operands, and whether it overflows. -/
def tcMultiply {parts : Nat} (lhs rhs : Bignum parts) : Option (List UInt64 × Bool) := do
  let dst <- tcSet 0 parts
  (List.range parts).foldlM (multiplyRow lhs.words rhs.words parts) (dst, false)

/-- A row of the full product. -/
def fullMultiplyRow (lhs rhs : List UInt64) (rhsParts : Nat) (dst : List UInt64) (n : Nat) :
    Option (List UInt64) := do
  let mult <- lhs[n]?
  let (window, _) <- tcMultiplyPart (dst.drop n) rhs mult 0 rhsParts
    (unsigned (rhsParts + 1)) true
  return dst.take n ++ window

/-- The product in a width that is enough for it, if the first operand is not the wider one, and
the number of parts that it needs. -/
def fullMultiply (dst lhs rhs : List UInt64) (lhsParts rhsParts : Nat) :
    Option (List UInt64 × Nat) := do
  let low <- tcSet 0 rhsParts
  let dst <- (List.range lhsParts).foldlM (fullMultiplyRow lhs rhs rhsParts)
    (low ++ dst.drop rhsParts)
  let n := unsigned (lhsParts + rhsParts)
  let top <- dst[n - 1]?
  return (dst, n - if top = 0 then 1 else 0)

/-- The product in the width that is the sum of the widths of the operands. -/
def tcFullMultiply {lhsParts rhsParts : Nat} (dst : Bignum (lhsParts + rhsParts))
    (lhs : Bignum lhsParts) (rhs : Bignum rhsParts) : Option (List UInt64 × Nat) :=
  -- Put the narrower number on the LHS for less loops below.
  if lhsParts > rhsParts then fullMultiply dst.words rhs.words lhs.words rhsParts lhsParts
  else fullMultiply dst.words lhs.words rhs.words lhsParts rhsParts

/-! ## Division -/

/-- The variables of the loop. -/
structure DivideState where
  lhs : List UInt64
  remainder : List UInt64
  srhs : List UInt64
  n : Nat
  mask : UInt64

/-- Subtract the shifted divisor if the remainder is not less, and add that to the total. -/
def subtractRound (parts : Nat) (state : DivideState) : DivideState :=
  if tcCompare state.remainder state.srhs parts >= 0 then
    { state with
      remainder := (tcSubtract state.remainder state.srhs false).1
      lhs := setBits state.lhs state.n state.mask }
  else state

/-- Go on to the next lower bit. -/
def shiftRound (parts : Nat) (state : DivideState) : DivideState :=
  let srhs := tcShiftRight state.srhs parts 1
  let mask := shiftRight state.mask 1
  if mask = 0 then { state with srhs := srhs, mask := shiftLeft 1 63, n := state.n - 1 }
  else { state with srhs := srhs, mask := mask }

/-- The loop, which ends at the shift count zero. -/
def divideLoop (parts : Nat) : Nat -> DivideState -> DivideState
  | 0, state => subtractRound parts state
  | shiftCount + 1, state =>
    divideLoop parts shiftCount (shiftRound parts (subtractRound parts state))

/-- Division with remainder; returns what is stored in the first operand and in the remainder, and
whether the divisor was found to be zero. -/
def tcDivide {parts : Nat} (lhs rhs remainder : Bignum parts) :
    Option (List UInt64 × List UInt64 × Bool) :=
  let shiftCount := unsigned (tcMSB rhs.words parts + 1)
  if shiftCount = 0 then some (lhs.words, remainder.words, true)
  else do
    let shiftCount := unsigned (unsigned (parts * 64) + 2 ^ 32 - shiftCount)
    let srhs := tcShiftLeft rhs.words parts shiftCount
    let zero <- tcSet 0 parts
    let state := divideLoop parts shiftCount
      ⟨zero, lhs.words, srhs, shiftCount / 64, shiftLeft 1 (shiftCount % 64)⟩
    return (state.lhs, state.remainder, false)

end Bignum
end LlvmProject
