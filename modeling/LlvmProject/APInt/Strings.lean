import LlvmProject.APInt.Divide
import Mathlib.Data.Int.ModEq

namespace LlvmProject

/-!
# Integers as strings

Reading a string scales the value by the radix and adds the next digit, and takes the
two's complement at the end if there is a minus sign.  Printing takes the digits off from
the lowest one, by shifts or by divisions.

Multiplication and division by the radix are those of the word arrays.  The other
operators are given by their values.  A failed assertion, and a run past the end of the
buffer of digits, is `none`; lengths of strings do not overflow `size_t`.
-/

/-- The lowest words of a number. -/
def wordsOf : Nat -> Nat -> List UInt64
  | 0, _ => []
  | count + 1, n => UInt64.ofNat n :: wordsOf count (n / 2 ^ 64)

namespace APInt

variable {W : Nat}

/-- An integer of the width of `this`, its value taken modulo the width. -/
def withValue (this : APInt W) (n : Nat) : APInt W := this.copyBack (wordsOf (getNumWords W) n)

/-- The integer zero of a width, which has to be positive. -/
def zero (numBits : Nat) : Option (APInt numBits) :=
  if bounds : 0 < numBits ∧ numBits < 2 ^ 32 then
    some ⟨List.replicate (getNumWords numBits) 0, List.length_replicate,
      by rw [wordsValue_replicate_zero]; exact Nat.two_pow_pos numBits, bounds.1, bounds.2⟩
  else none

/-- The sign bit is set. -/
def signBit (x : APInt W) : Bool := decide (2 ^ (W - 1) <= x.toNat)

/-- The value in two's complement. -/
def toInt (x : APInt W) : Int := if x.signBit then x.toNat - 2 ^ W else x.toNat

def flipAllBits (x : APInt W) : APInt W := x.withValue (2 ^ W - 1 - x.toNat)

def decrement (x : APInt W) : APInt W := x.withValue (x.toNat + (2 ^ W - 1))

def increment (x : APInt W) : APInt W := x.withValue (x.toNat + 1)

def shl (x : APInt W) (shiftAmt : Nat) : Option (APInt W) :=
  if shiftAmt <= W then some (x.withValue (x.toNat * 2 ^ shiftAmt)) else none

def lshr (x : APInt W) (shiftAmt : Nat) : APInt W := x.withValue (x.toNat / 2 ^ shiftAmt)

/-- The binary logarithm, all ones for zero. -/
def logBase2 (x : APInt W) : Nat := (W + 2 ^ 32 - 1 - x.countLeadingZeros) % 2 ^ 32

end APInt

/-! ## Reading -/

/-- The radixes of the assertions. -/
def radixes : List Nat := [10, 8, 16, 2, 36]

/-- The difference of a character to the first of its kind, as an `unsigned`. -/
def charDistance (cdigit first : Char) : Nat := (cdigit.toNat + 2 ^ 32 - first.toNat) % 2 ^ 32

/-- A utility function that converts a character to a digit, all ones if it is none. -/
def getDigit (cdigit : Char) (radix : Nat) : Nat :=
  let decimal (radix : Nat) :=
    if charDistance cdigit '0' < radix then charDistance cdigit '0' else 2 ^ 32 - 1
  if radix = 16 ∨ radix = 36 then
    if charDistance cdigit '0' <= 9 then charDistance cdigit '0'
    else if charDistance cdigit 'A' <= radix - 11 then charDistance cdigit 'A' + 10
    else if charDistance cdigit 'a' <= radix - 11 then charDistance cdigit 'a' + 10
    else decimal 10
  else decimal radix

/-- The string without its sign; `none` if there is only a sign. -/
def withoutSign (str : List Char) : Option (List Char) :=
  match str with
  | [] => none  -- Invalid string length
  | c :: rest =>
    if c = '-' ∨ c = '+' then
      if rest = [] then none else some rest
    else some str

/-- The assertions about the number of digits. -/
def digitsFit (numbits radix slen : Nat) : Prop :=
  (slen <= numbits ∨ radix ≠ 2) ∧ ((slen - 1) * 3 <= numbits ∨ radix ≠ 8) ∧
    ((slen - 1) * 4 <= numbits ∨ radix ≠ 16) ∧ ((slen - 1) * 64 / 22 <= numbits ∨ radix ≠ 10)

instance (numbits radix slen : Nat) : Decidable (digitsFit numbits radix slen) := by
  unfold digitsFit
  infer_instance

namespace APInt

variable {W : Nat}

/-- The shift that takes the place of a multiplication by the radix, if there is one. -/
def radixShift (radix : Nat) : Nat :=
  if radix = 16 then 4 else if radix = 8 then 3 else if radix = 2 then 1 else 0

/-- One round of the digit traversal loop. -/
def readDigit (radix slen : Nat) (this : APInt W) (c : Char) : Option (APInt W) :=
  let shift := radixShift radix
  let digit := getDigit c radix
  if ¬digit < radix then none  -- Invalid character in digit string
  else
    let scaled :=
      if slen > 1 then
        if shift ≠ 0 then this.shl shift else some (this.mulAssign (this.withValue radix))
      else some this
    scaled.map fun scaled => scaled.withValue (scaled.toNat + digit)

/-- Read an integer of the given width. -/
def fromString (numbits : Nat) (str : List Char) (radix : Nat) : Option (APInt numbits) := do
  let start <- zero numbits
  let digits <- withoutSign str
  let isNeg := str.head? = some '-'
  let slen := digits.length
  if radix ∈ radixes ∧ digitsFit numbits radix slen then
    let value <- digits.foldlM (readDigit radix slen) start
    return if isNeg then value.decrement.flipAllBits else value
  else none

/-- The number of bits needed to read the string. -/
def getBitsNeeded (str : List Char) (radix : Nat) : Option Nat := do
  let digits <- withoutSign str
  let isNegative := if str.head? = some '-' then 1 else 0
  let slen := digits.length
  if radix ∉ radixes then none
  else if radix = 2 then return (slen + isNegative) % 2 ^ 32
  else if radix = 8 then return (slen * 3 + isNegative) % 2 ^ 32
  else if radix = 16 then return (slen * 4 + isNegative) % 2 ^ 32
  else
    -- Compute a sufficient number of bits that is always large enough but might be too large.
    let enough :=
      (if radix = 10 then (if slen = 1 then 4 else slen * 64 / 18)
        else (if slen = 1 then 7 else slen * 16 / 3)) % 2 ^ 32
    let tmp <- fromString enough digits radix
    let log := tmp.logBase2
    -- If the log is infinite, assume we need just bit.
    if log = 2 ^ 32 - 1 then return isNegative + 1
    else return (isNegative + log + 1) % 2 ^ 32

/-! ## Printing -/

/-- The characters of the digits. -/
def Digits : List Char := "0123456789ABCDEFGHIJKLMNOPQRSTUVWXYZ".toList

def digitChar (digit : Nat) : Char := Digits.getD digit '0'

/-- The prefix of a C literal; `none` for a radix that has none. -/
def Prefix (Radix : Nat) : Option (List Char) :=
  if Radix = 2 then some "0b".toList
  else if Radix = 8 then some "0".toList
  else if Radix = 10 then some []
  else if Radix = 16 then some "0x".toList
  else none

/-- The loop that fills the buffer of a single word from its end. -/
def fillBuffer (Radix : Nat) : Nat -> Nat -> List Char -> Option (List Char)
  | room, N, Buf =>
    if N = 0 then some Buf
    else
      match room with
      | 0 => none
      | room + 1 => fillBuffer Radix room (N / Radix) (digitChar (N % Radix) :: Buf)

/-- Take the lowest digit off by a shift. -/
def shiftOut (Radix : Nat) (Tmp : APInt W) : Nat × APInt W :=
  let ShiftAmt := if Radix = 16 then 4 else if Radix = 8 then 3 else 1
  let MaskAmt := UInt64.ofNat (Radix - 1)
  ((Tmp.VAL &&& MaskAmt).toNat, Tmp.lshr ShiftAmt)

/-- Take the lowest digit off by a division. -/
def divideOut (Radix : Nat) (Tmp : APInt W) : Nat × APInt W :=
  let result := divide Tmp.pVal [UInt64.ofNat Radix]
  ((result.2.headD 0).toNat, Tmp.copyBack result.1)

/-- The loop that inserts the digits of several words backward. -/
def pushDigits (Radix : Nat) (takeOut : APInt W -> Nat × APInt W) :
    Nat -> APInt W -> List Char -> Option (List Char)
  | fuel, Tmp, Str =>
    if Tmp.toNat = 0 then some Str
    else
      match fuel with
      | 0 => none
      | fuel + 1 =>
        let out := takeOut Tmp
        if ¬out.1 < Radix then none  -- divide failed
        else pushDigits Radix takeOut fuel out.2 (Str ++ [digitChar out.1])

/-- Print an integer. -/
def toString (x : APInt W) (Radix : Nat) (Signed formatAsCLiteral : Bool) : Option (List Char) :=
  if Radix ∉ radixes then none
  else do
    let Prefix <- if formatAsCLiteral then Prefix Radix else some []
    if x.toNat = 0 then return Prefix ++ ['0']
    else if x.isSingleWord then
      let I := x.toInt
      let sign := if Signed ∧ I < 0 then ['-'] else []
      let N := if ¬Signed then x.toNat else if I >= 0 then I.toNat else ((-I) % 2 ^ 64).toNat
      return sign ++ Prefix ++ (<- fillBuffer Radix 65 N [])
    else
      let neg := Signed && x.signBit
      let Tmp := if neg then x.flipAllBits.increment else x
      let sign := if neg then ['-'] else []
      let takeOut := if Radix = 2 ∨ Radix = 8 ∨ Radix = 16 then shiftOut Radix else divideOut Radix
      return sign ++ Prefix ++ (<- pushDigits Radix takeOut W Tmp []).reverse

end APInt
end LlvmProject

namespace LlvmProject

open List Option Nat Nat Schoolbook

/-!
## Reading integers

A string of digits denotes a number, or its negation if it starts with a minus sign.
What is read at a width is this number modulo the width, as long as the width passes the
assertions about the number of digits.
-/

/-! ## The radix as an operand -/

/-- A multiplier of half a word loses no carry. -/
theorem lostCarry_small {carry x y : Nat} (carryLe : carry <= y) (xLt : x < 2 ^ 64)
    (half : y < 2 ^ 32) : lostCarry carry x y = 0 := by
  have high : x / 2 ^ 32 * y <= (2 ^ 32 - 1) * y := mul_le_mul_right y (by omega)
  have low : x % 2 ^ 32 * y <= (2 ^ 32 - 1) * y := mul_le_mul_right y (by omega)
  have middle : middleSum carry x y <= 2 ^ 64 := by
    rw [middleSum, mod_eq_of_lt half, div_eq_of_lt half, mul_zero, zero_mod]
    omega
  exact if_neg (not_lt.mpr middle)

theorem ofDigits_rowLosses_small {carry y : Nat} (xs : List Nat) (half : y < 2 ^ 32)
    (words : ∀ x ∈ xs, x < 2 ^ 64) (carryLe : carry <= y) :
    ofDigits (2 ^ 64)
      (rowLosses (2 ^ 64) exactly lostCarry y carry [] xs) = 0 := by
  induction xs generalizing carry with
  | nil => rfl
  | cons x xs ih =>
    have xLt := words x mem_cons_self
    have next : total carry x y 0 / 2 ^ 64 <= y := total_div_le carryLe xLt (Nat.two_pow_pos 64)
    have rest := ih
      (fun other mem => words other (mem_cons_of_mem x mem)) next
    rw [rowLosses, ofDigits_cons, lostCarry_small carryLe xLt half]
    simpa [exactly] using rest

namespace APInt

variable {W : Nat}

theorem usedWords_le_one {y : APInt W} (half : y.toNat < 2 ^ 32) : y.usedWords <= 1 := by
  have size : y.toNat.size <= 32 := size_le.mpr half
  unfold usedWords whichWord
  rw [getActiveBits_eq_size]
  split <;> omega

/-- Multiplication by half a word is exact. -/
theorem toNat_mulAssign_small (x : APInt W) {y : APInt W} (half : y.toNat < 2 ^ 32) :
    (x.mulAssign y).toNat = x.toNat * y.toNat % 2 ^ W := by
  refine (x.mulAssign_eq_iff y).mpr ?_
  have value := y.wordsValue_take_usedWords
  have short : (y.pVal.take y.usedWords).length <= 1 := by
    rw [length_take_usedWords]
    exact usedWords_le_one half
  have words : ∀ word ∈ (x.pVal.take x.usedWords).map UInt64.toNat, word < 2 ^ 64 := by
    intro word mem
    rcases List.mem_map.mp mem with ⟨source, _, rfl⟩
    exact source.toNat_lt
  unfold lostCarries
  generalize y.pVal.take y.usedWords = mult at value short ⊢
  rcases mult with _ | ⟨word, _ | ⟨second, rest⟩⟩
  · exact dvd_zero _
  · have wordHalf : word.toNat < 2 ^ 32 := by
      rw [wordsValue_cons, wordsValue_nil, Nat.mul_zero, add_zero] at value
      rwa [value]
    have losses := ofDigits_rowLosses_small _ wordHalf words (zero_le _)
    rw [map_singleton, rowsLoss, losses, rowsLoss, Nat.mul_zero, Nat.mul_zero]
    exact dvd_zero _
  · simp at short

end APInt

/-! ## Values -/

theorem wordsValue_wordsOf (count n : Nat) :
    wordsValue (wordsOf count n) = n % (2 ^ 64) ^ count := by
  induction count generalizing n with
  | zero => rw [wordsOf, wordsValue_nil, pow_zero, mod_one]
  | succ count ih =>
    have split := mod_mul (x := n) (a := 2 ^ 64) (b := (2 ^ 64) ^ count)
    rw [wordsOf, wordsValue_cons, ih, UInt64.toNat_ofNat', <- split, <- pow_succ']

namespace APInt

variable {W : Nat}

@[simp] theorem toNat_withValue (this : APInt W) (n : Nat) :
    (this.withValue n).toNat = n % 2 ^ W := by
  rw [withValue, toNat_copyBack, wordsValue_wordsOf, <- pow_mul]
  refine mod_mod_of_dvd _ (pow_dvd_pow 2 ?_)
  unfold getNumWords
  omega

theorem toNat_withValue_of_lt (this : APInt W) {n : Nat} (small : n < 2 ^ W) :
    (this.withValue n).toNat = n := by
  rw [toNat_withValue, mod_eq_of_lt small]

theorem zero_spec {numBits : Nat} (wide : 0 < numBits) (narrow : numBits < 2 ^ 32) :
    ∃ start, zero numBits = some start ∧ start.toNat = 0 :=
  ⟨_, dif_pos ⟨wide, narrow⟩, wordsValue_replicate_zero _⟩

end APInt

/-! ## Numerals -/

/-- The value of a character as a digit: the decimal digits, then the letters of either
case. -/
def digitValue (c : Char) : Option Nat :=
  if '0' <= c ∧ c <= '9' then some (c.toNat - '0'.toNat)
  else if 'A' <= c ∧ c <= 'Z' then some (c.toNat - 'A'.toNat + 10)
  else if 'a' <= c ∧ c <= 'z' then some (c.toNat - 'a'.toNat + 10)
  else none

/-- The character is a digit of the radix. -/
def IsDigit (radix : Nat) (c : Char) : Prop := ∃ digit < radix, digitValue c = some digit

/-- The string after its sign. -/
def unsignedPart : List Char -> List Char
  | [] => []
  | first :: rest => if first = '-' ∨ first = '+' then rest else first :: rest

/-- An optional sign and at least one digit of the radix. -/
def IsNumeral (radix : Nat) (str : List Char) : Prop :=
  unsignedPart str ≠ [] ∧ ∀ c ∈ unsignedPart str, IsDigit radix c

/-- The number that digits denote. -/
def magnitude (radix : Nat) (digits : List Char) : Nat :=
  digits.foldl (fun value c => value * radix + (digitValue c).getD 0) 0

/-- The integer that a string denotes. -/
def denotes (radix : Nat) (str : List Char) : Int :=
  if str.head? = some '-' then -(magnitude radix (unsignedPart str) : Int)
  else magnitude radix (unsignedPart str)

section Numerals

variable {radix : Nat} {c : Char} {str : List Char}

theorem withoutSign_of_isNumeral (numeral : IsNumeral radix str) :
    withoutSign str = some (unsignedPart str) := by
  rcases numeral with ⟨nonempty, _⟩
  cases str with
  | nil => exact absurd rfl nonempty
  | cons first rest =>
    simp only [unsignedPart] at nonempty
    simp only [withoutSign, unsignedPart]
    by_cases sign : first = '-' ∨ first = '+'
    · rw [if_pos sign] at nonempty
      rw [if_pos sign, if_pos sign, if_neg nonempty]
    · rw [if_neg sign, if_neg sign]

theorem char_le_iff (a b : Char) : a <= b ↔ a.toNat <= b.toNat := Iff.rfl

theorem getDigit_of_isDigit (known : radix ∈ radixes) {digit : Nat} (small : digit < radix)
    (value : digitValue c = some digit) : getDigit c radix = digit := by
  have zeroCode : '0'.toNat = 48 := rfl
  have nineCode : '9'.toNat = 57 := rfl
  have upperACode : 'A'.toNat = 65 := rfl
  have upperZCode : 'Z'.toNat = 90 := rfl
  have lowerACode : 'a'.toNat = 97 := rfl
  have lowerZCode : 'z'.toNat = 122 := rfl
  simp only [radixes, mem_cons, not_mem_nil, or_false] at known
  simp only [digitValue, char_le_iff, zeroCode, nineCode, upperACode, upperZCode, lowerACode,
    lowerZCode] at value
  unfold getDigit charDistance
  simp only [zeroCode, upperACode, lowerACode]
  split_ifs at value <;> simp only [Option.some.injEq] at value <;>
    split_ifs <;> omega

theorem magnitude_snoc (digits : List Char) (c : Char) :
    magnitude radix (digits ++ [c]) = magnitude radix digits * radix + (digitValue c).getD 0 := by
  rw [magnitude, magnitude, foldl_append]
  rfl

/-- A numeral is less than the power of the radix by its length. -/
theorem magnitude_lt {digits : List Char} (valid : ∀ c ∈ digits, IsDigit radix c) :
    magnitude radix digits < radix ^ digits.length := by
  induction digits using List.reverseRecOn with
  | nil => exact one_pos
  | append_singleton digits c ih =>
    have before := ih fun d mem => valid d (mem_append_left _ mem)
    rcases valid c (mem_append_right _ mem_cons_self) with ⟨digit, small, value⟩
    have prod : (magnitude radix digits + 1) * radix <= radix ^ digits.length * radix :=
      mul_le_mul_right radix before
    rw [magnitude_snoc, value, getD_some, length_append, length_singleton, pow_succ]
    rw [add_one_mul] at prod
    omega

end Numerals

/-! ## The digit traversal loop -/

namespace APInt

section Loop

variable {W radix slen : Nat} {c : Char} {digits : List Char} {this : APInt W}

theorem radix_bounds (known : radix ∈ radixes) : 2 <= radix ∧ radix <= 36 := by
  simp only [radixes, mem_cons, not_mem_nil, or_false] at known
  omega

theorem radixShift_spec (known : radix ∈ radixes) :
    radixShift radix = 0 ∨ radix = 2 ^ radixShift radix := by
  revert radix
  decide

/-- The assertions leave room for the shift if there are several digits. -/
theorem radixShift_le (fit : digitsFit W radix slen) (several : slen > 1) :
    radixShift radix <= W := by
  unfold digitsFit at fit
  unfold radixShift
  split_ifs <;> omega

section

variable (known : radix ∈ radixes) (fit : digitsFit W radix slen)
include known fit

theorem scaled_spec (several : slen > 1) :
    ∃ scaled : APInt W,
      (if radixShift radix ≠ 0 then this.shl (radixShift radix)
        else some (this.mulAssign (this.withValue radix))) = some scaled ∧
      scaled.toNat = this.toNat * radix % 2 ^ W := by
  by_cases shifts : radixShift radix ≠ 0
  · have power := (radixShift_spec known).resolve_left shifts
    refine ⟨this.withValue (this.toNat * 2 ^ radixShift radix), ?_, ?_⟩
    · rw [if_pos shifts, shl, if_pos (radixShift_le fit several)]
    · rw [toNat_withValue, <- power]
  · refine ⟨_, if_neg shifts, ?_⟩
    have half : (this.withValue radix).toNat < 2 ^ 32 := by
      rw [toNat_withValue]
      exact lt_of_le_of_lt (mod_le _ _)
        (lt_of_le_of_lt (radix_bounds known).2 (by decide))
    rw [toNat_mulAssign_small this half, toNat_withValue, mul_mod_mod]

theorem readDigit_spec (valid : IsDigit radix c) (single : slen > 1 ∨ this.toNat = 0) :
    ∃ next, readDigit radix slen this c = some next ∧
      next.toNat = (this.toNat * radix + (digitValue c).getD 0) % 2 ^ W := by
  rcases valid with ⟨digit, small, value⟩
  have read := getDigit_of_isDigit known small value
  unfold readDigit
  rw [read, if_neg (not_not_intro small), value, getD_some]
  by_cases several : slen > 1
  · rcases @scaled_spec W radix slen this known fit several with ⟨scaled, found, exact⟩
    refine ⟨scaled.withValue (scaled.toNat + digit), ?_, ?_⟩
    · simp only [if_pos several, found, map_some]
    · rw [toNat_withValue, exact, mod_add_mod]
  · have zero := single.resolve_left several
    refine ⟨this.withValue (this.toNat + digit), ?_, ?_⟩
    · simp only [if_neg several, map_some]
    · rw [toNat_withValue, zero, zero_mul]

/-- The loop reads the digits modulo the width. -/
theorem foldlM_readDigit_spec (valid : ∀ c ∈ digits, IsDigit radix c) (value : Nat) (start :
    this.toNat = value % 2 ^ W) (single : slen > 1 ∨ digits.length <= 1 ∧ this.toNat = 0) :
    ∃ result, digits.foldlM (readDigit radix slen) this = some result ∧
      result.toNat =
        digits.foldl (fun value c => value * radix + (digitValue c).getD 0) value % 2 ^ W := by
  induction digits generalizing this value with
  | nil => exact ⟨this, rfl, start⟩
  | cons c digits ih =>
    rcases readDigit_spec known fit (valid c mem_cons_self)
        (single.imp_right And.right) with ⟨next, found, exact⟩
    have nextValue : next.toNat = (value * radix + (digitValue c).getD 0) % 2 ^ W := by
      rw [exact, start, add_mod, mod_mul_mod, <- add_mod]
    have validRest : ∀ d ∈ digits, IsDigit radix d := fun d mem => valid d (mem_cons_of_mem c mem)
    rw [foldlM_cons, found, bind_eq_bind, bind_some]
    by_cases several : slen > 1
    · exact ih validRest _ nextValue (.inl several)
    · have last := (single.resolve_left several).1
      rw [length_cons] at last
      rw [length_eq_zero_iff.mp (show digits.length = 0 by omega)]
      exact ⟨next, rfl, nextValue⟩

end

end Loop

/-! ## Reading a numeral -/

section Reading

variable {W radix : Nat} {str : List Char}

/-- The negation that ends the reading of a negative number. -/
theorem toNat_decrement_flipAllBits (x : APInt W) :
    x.decrement.flipAllBits.toNat = (2 ^ W - x.toNat) % 2 ^ W := by
  have bound := x.toNat_lt
  rw [flipAllBits, decrement, toNat_withValue, toNat_withValue]
  by_cases zero : x.toNat = 0
  · rw [zero, zero_add, Nat.sub_zero, mod_self,
      mod_eq_of_lt (sub_lt (Nat.two_pow_pos W) one_pos), Nat.sub_self, zero_mod]
  · have before : (x.toNat + (2 ^ W - 1)) % 2 ^ W = x.toNat - 1 := by
      rw [show x.toNat + (2 ^ W - 1) = x.toNat - 1 + 2 ^ W by omega, add_mod_right,
        mod_eq_of_lt (by omega)]
    rw [before, show 2 ^ W - 1 - (x.toNat - 1) = 2 ^ W - x.toNat by omega]

theorem neg_emod_eq {m r N : Nat} (residue : r = m % N) (pos : 0 < N) :
    (((N - r) % N : Nat) : Int) = -(m : Int) % (N : Int) := by
  have small : r <= N := residue ▸ le_of_lt (mod_lt m pos)
  have whole : ((N : Int) - r) ≡ 0 - m [ZMOD N] := by
    refine Int.ModEq.sub (Int.modEq_zero_iff_dvd.mpr (dvd_refl _)) ?_
    rw [residue, Int.natCast_mod]
    exact Int.mod_modEq _ _
  rw [Int.natCast_mod, Int.ofNat_sub small, <- zero_sub]
  exact whole

/-- What is read is the denoted number modulo the width. -/
theorem fromString_spec (known : radix ∈ radixes) (numeral : IsNumeral radix str)
    (wide : 0 < W) (narrow : W < 2 ^ 32) (fit : digitsFit W radix (unsignedPart str).length) :
    ∃ result, fromString W str radix = some result ∧
      (result.toNat : Int) = denotes radix str % (2 ^ W : Nat) := by
  rcases zero_spec wide narrow with ⟨start, started, isZero⟩
  have single :
      (unsignedPart str).length > 1 ∨ (unsignedPart str).length <= 1 ∧ start.toNat = 0 := by
    omega
  rcases foldlM_readDigit_spec known fit numeral.2 0 (by rw [isZero, zero_mod]) single with
    ⟨value, read, exact⟩
  have valueNat : value.toNat = magnitude radix (unsignedPart str) % 2 ^ W := exact
  unfold fromString denotes
  simp only [started, withoutSign_of_isNumeral numeral, bind_eq_bind, bind_some,
    if_pos (And.intro known fit), read]
  by_cases neg : str.head? = some '-'
  · rw [if_pos neg, if_pos neg]
    refine ⟨_, rfl, ?_⟩
    rw [toNat_decrement_flipAllBits]
    exact neg_emod_eq valueNat (Nat.two_pow_pos W)
  · rw [if_neg neg, if_neg neg]
    refine ⟨_, rfl, ?_⟩
    rw [valueNat, Int.natCast_mod]

/-- Reading fails if the width does not pass the assertions. -/
theorem fromString_eq_none (numeral : IsNumeral radix str)
    (misfit : ¬(0 < W ∧ W < 2 ^ 32 ∧ digitsFit W radix (unsignedPart str).length)) :
    fromString W str radix = none := by
  unfold fromString zero
  rw [withoutSign_of_isNumeral numeral]
  by_cases bounds : 0 < W ∧ W < 2 ^ 32
  · have unfit : ¬(radix ∈ radixes ∧ digitsFit W radix (unsignedPart str).length) :=
      fun both => misfit ⟨bounds.1, bounds.2, both.2⟩
    simp only [dif_pos bounds, bind_eq_bind, bind_some, if_neg unfit]
  · simp only [dif_neg bounds, bind_eq_bind, bind_none]

end Reading

end APInt

end LlvmProject
