import LlvmProject.APInt.Strings

namespace LlvmProject

open List
namespace APInt
namespace Shifts

/-!
# Shifts and rotations of word arrays

A shift by less than a word carries bits from one word to the next, one by whole words moves
them, and any other combines two neighbouring words.  An arithmetic shift sets the sign bits
afterwards, in the last word that holds bits of the operand and in the word below it.

A shift of a word by its width or more is not executed.  Arrays are given word by word; a failed
assertion is `none`.
-/

variable {W : Nat}

/-! ## Words -/

def shiftLeft (word : UInt64) (amount : Nat) : UInt64 := word <<< UInt64.ofNat amount

def shiftRight (word : UInt64) (amount : Nat) : UInt64 := word >>> UInt64.ofNat amount

/-- All bits of a word from a position on. -/
def onesFrom (amount : Nat) : UInt64 := shiftLeft 0xffffffffffffffff amount

/-- A word of an array. -/
def word (pVal : List UInt64) (i : Nat) : UInt64 := pVal.getD i 0

/-- An array that is given word by word. -/
def array (count : Nat) (value : Nat -> UInt64) : List UInt64 := (range count).map value

theorem length_array (count : Nat) (value : Nat -> UInt64) : (array count value).length =
    count := by
  rw [array, length_map, length_range]

/-! ## Values of one word -/

/-- The constructor from one word. -/
def ofWord (this : APInt W) (val : UInt64) (isSigned : Bool) : APInt W :=
  let fill : UInt64 := if isSigned && decide (2 ^ 63 <= val.toNat) then 0xffffffffffffffff else 0
  this.withWords (val :: replicate (getNumWords W - 1) fill) (by
    have positive := getNumWords_pos this.positive
    rw [length_cons, length_replicate]
    omega)

/-- The bit at a position. -/
def bit (x : APInt W) (bitPosition : Nat) : Bool :=
  ((1 <<< UInt64.ofNat (bitPosition % 64)) &&&
    if x.isSingleWord then x.VAL else word x.pVal (whichWord bitPosition)) != 0

def isNegative (x : APInt W) : Bool := bit x (W - 1)

/-- The value, or the limit if that is less. -/
def getLimitedValue (x : APInt W) (Limit : Nat) : Nat :=
  if x.getActiveBits > 64 ∨ x.VAL.toNat > Limit then Limit else x.VAL.toNat

/-! ## Left shift -/

/-- The loop that shifts an array to the left by less than a word, from the lowest word on. -/
def shlNear (shiftAmt : Nat) : UInt64 -> List UInt64 -> List UInt64
  | _, [] => []
  | carry, pVal :: rest =>
    (shiftLeft pVal shiftAmt ||| carry) :: shlNear shiftAmt (shiftRight pVal (64 - shiftAmt)) rest

theorem length_shlNear (shiftAmt : Nat) (carry : UInt64) (words : List UInt64) :
    (shlNear shiftAmt carry words).length = words.length := by
  induction words generalizing carry with
  | nil => rfl
  | cons pVal rest ih =>
    rw [shlNear, length_cons, length_cons, ih]

def shlSlowCase (x : APInt W) (shiftAmt : Nat) : APInt W :=
  if shiftAmt = W then ofWord x 0 false
  else if shiftAmt = 0 then x
  else if shiftAmt < 64 then
    x.withWords (shlNear shiftAmt 0 x.pVal) ((length_shlNear _ _ _).trans x.length_pVal)
  else
    let wordShift := shiftAmt % 64
    let offset := shiftAmt / 64
    -- If we are shifting whole words, just move whole words.
    if wordShift = 0 then
      x.withWords
        (array (getNumWords W) fun i => if i < offset then 0 else word x.pVal (i - offset))
        (length_array _ _)
    else
      x.withWords
        (array (getNumWords W) fun i =>
          if i > offset then
            shiftLeft (word x.pVal (i - offset)) wordShift |||
              shiftRight (word x.pVal (i - offset - 1)) (64 - wordShift)
          else if i = offset then shiftLeft (word x.pVal 0) wordShift
          else 0)
        (length_array _ _)

/-- Left-shift function. -/
def shl (x : APInt W) (shiftAmt : Nat) : Option (APInt W) :=
  if shiftAmt <= W then
    some <|
      if x.isSingleWord then
        if shiftAmt >= W then ofWord x 0 false else ofWord x (shiftLeft x.VAL shiftAmt) false
      else shlSlowCase x shiftAmt
  else none

/-! ## Logical right shift -/

/-- The loop that shifts an array to the right by less than a word, from the highest word on; also
what it carries over to the next word. -/
def lshrNear (Shift : Nat) : List UInt64 -> List UInt64 × UInt64
  | [] => ([], 0)
  | Tmp :: rest =>
    let above := lshrNear Shift rest
    ((shiftRight Tmp Shift ||| above.2) :: above.1, shiftLeft Tmp (64 - Shift))

theorem length_lshrNear (Shift : Nat) (words : List UInt64) :
    (lshrNear Shift words).1.length = words.length := by
  induction words with
  | nil => rfl
  | cons Tmp rest ih =>
    rw [lshrNear, length_cons, length_cons, ih]

/-- Logical right-shift function. -/
def lshr (x : APInt W) (shiftAmt : Nat) : APInt W :=
  if x.isSingleWord then
    if shiftAmt >= W then ofWord x 0 false else ofWord x (shiftRight x.VAL shiftAmt) false
  else if shiftAmt >= W then ofWord x 0 false
  else if shiftAmt = 0 then x
  else if shiftAmt < 64 then
    x.withWords (lshrNear shiftAmt x.pVal).1 ((length_lshrNear _ _).trans x.length_pVal)
  else
    let wordShift := shiftAmt % 64
    let offset := shiftAmt / 64
    -- If we are shifting whole words, just move whole words.
    if wordShift = 0 then
      x.withWords
        (array (getNumWords W) fun i =>
          if i < getNumWords W - offset then word x.pVal (i + offset) else 0)
        (length_array _ _)
    else
      let breakWord := getNumWords W - offset - 1
      x.withWords
        (array (getNumWords W) fun i =>
          if i < breakWord then
            shiftRight (word x.pVal (i + offset)) wordShift |||
              shiftLeft (word x.pVal (i + offset + 1)) (64 - wordShift)
          else if i = breakWord then shiftRight (word x.pVal (breakWord + offset)) wordShift
          else 0)
        (length_array _ _)

/-! ## Arithmetic right shift -/

/-- Set bits of a word of an array. -/
def setBits (val : List UInt64) (i : Nat) (bits : UInt64) : List UInt64 :=
  val.modify i fun word => word ||| bits

theorem length_setBits (val : List UInt64) (i : Nat) (bits : UInt64) :
    (setBits val i bits).length = val.length := length_modify _ _ _

/-- The words up to the break word, and the fill value above it. -/
def ashrMoved (pVal : List UInt64) (count offset wordShift breakWord : Nat) (fillValue : UInt64) :
    List UInt64 :=
  array count fun i =>
    if i > breakWord then fillValue
    else if wordShift = 0 then word pVal (i + offset)
    else if i < breakWord then
      shiftRight (word pVal (i + offset)) wordShift |||
        shiftLeft (word pVal (i + offset + 1)) (64 - wordShift)
    else shiftRight (word pVal (breakWord + offset)) wordShift

/-- Deal with sign extension in the break word, and possibly the word before it. -/
def ashrSigned (val : List UInt64) (wordShift breakWord bitsInWord : Nat) : List UInt64 :=
  if wordShift = 0 then
    if bitsInWord < 64 then setBits val breakWord (onesFrom bitsInWord) else val
  else if wordShift > bitsInWord then
    let val :=
      if breakWord > 0 then setBits val (breakWord - 1) (onesFrom (64 - (wordShift - bitsInWord)))
      else val
    setBits val breakWord 0xffffffffffffffff
  else setBits val breakWord (onesFrom (bitsInWord - wordShift))

theorem length_ashrSigned (val : List UInt64) (wordShift breakWord bitsInWord : Nat) :
    (ashrSigned val wordShift breakWord bitsInWord).length = val.length := by
  rw [ashrSigned]
  split_ifs <;> simp only [length_setBits]

/-- The words of an arithmetic shift by less than the width. -/
def ashrWords (x : APInt W) (shiftAmt : Nat) : List UInt64 :=
  let wordShift := shiftAmt % 64
  let offset := shiftAmt / 64
  let breakWord := getNumWords W - 1 - offset
  let bitsInWord := if W % 64 = 0 then 64 else W % 64
  let moved := ashrMoved x.pVal (getNumWords W) offset wordShift breakWord
    (if isNegative x then 0xffffffffffffffff else 0)
  if isNegative x then ashrSigned moved wordShift breakWord bitsInWord else moved

theorem length_ashrWords (x : APInt W) (shiftAmt : Nat) :
    (ashrWords x shiftAmt).length = getNumWords W := by
  rw [ashrWords]
  split_ifs <;> simp only [length_ashrSigned, ashrMoved, length_array]

/-- Arithmetic right-shift function. -/
def ashr (x : APInt W) (shiftAmt : Nat) : Option (APInt W) :=
  if shiftAmt <= W then
    some <|
      if shiftAmt = 0 then x
      else if x.isSingleWord then
        if shiftAmt = W then ofWord x 0 false
        else
          let SignBit := 64 - W
          ofWord x ⟨((x.VAL.toBitVec <<< SignBit).sshiftRight SignBit).sshiftRight shiftAmt⟩ false
      else if shiftAmt = W then
        if isNegative x then ofWord x 0xffffffffffffffff true else ofWord x 0 false
      else x.withWords (ashrWords x shiftAmt) (length_ashrWords x shiftAmt)
  else none

/-! ## Amounts of arbitrary precision -/

def shlBy (x shiftAmt : APInt W) : Option (APInt W) := shl x (getLimitedValue shiftAmt W)

def lshrBy (x shiftAmt : APInt W) : APInt W := lshr x (getLimitedValue shiftAmt W)

def ashrBy (x shiftAmt : APInt W) : Option (APInt W) := ashr x (getLimitedValue shiftAmt W)

end Shifts
end APInt
end LlvmProject
