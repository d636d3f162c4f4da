import Mathlib.Data.List.Basic
import Mathlib.Data.List.TakeWhile
import Mathlib.Algebra.Order.Ring.Nat

namespace LlvmProject

/-!
# Reading data of a section

Each function reads at an offset and gives what it read and the offset behind it.  No
read goes beyond the data, so that offsets do not wrap around.
-/

/-- The data of a section that is addressed by 32-bit offsets. -/
structure DataExtractor where
  Data : List UInt8
  IsLittleEndian : Bool
  AddressSize : UInt32
  addressable : Data.length < 2 ^ 32
  addressSize : AddressSize ∈ [1, 2, 4, 8]

namespace DataExtractor

theorem addressSize_eight : (8 : UInt32) ∈ [1, 2, 4, 8] := by decide

variable (de : DataExtractor)

def isValidOffset (offset : UInt32) : Bool := offset.toNat < de.Data.length

/-- Whether there are `length` bytes at the offset, for a positive `length`. -/
def isValidOffsetForDataOfSize (offset length : UInt32) : Bool :=
  offset <= offset + length && de.isValidOffset (offset + length - 1)

/-- The number that bytes denote, the lowest first. -/
def littleEndian (bytes : List UInt8) : Nat :=
  bytes.foldr (fun byte high => byte.toNat + 256 * high) 0

/-- An unsigned number of `size` bytes; zero, and no advance, if there are not as many. -/
def getU (size offset : UInt32) : Nat × UInt32 :=
  if de.isValidOffsetForDataOfSize offset size then
    let bytes := (de.Data.drop offset.toNat).take size.toNat
    (littleEndian (if de.IsLittleEndian then bytes else bytes.reverse), offset + size)
  else (0, offset)

def getU8 (offset : UInt32) : UInt8 × UInt32 :=
  let read := de.getU 1 offset
  (UInt8.ofNat read.1, read.2)

def getU16 (offset : UInt32) : UInt16 × UInt32 :=
  let read := de.getU 2 offset
  (UInt16.ofNat read.1, read.2)

def getU32 (offset : UInt32) : UInt32 × UInt32 :=
  let read := de.getU 4 offset
  (UInt32.ofNat read.1, read.2)

/-- `getUnsigned` of the size of an address. -/
def getAddress (offset : UInt32) : UInt64 × UInt32 :=
  let read := de.getU de.AddressSize offset
  (UInt64.ofNat read.1, read.2)

/-- The characters up to a NUL; nothing, and no advance, if there is none. -/
def getCStr (offset : UInt32) : Option (List UInt8) × UInt32 :=
  let rest := de.Data.drop offset.toNat
  let chars := rest.takeWhile (· ≠ 0)
  if chars.length < rest.length then
    (some chars, UInt32.ofNat (offset.toNat + chars.length + 1))
  else (none, offset)

/-- What the loop over the bytes of a number has read. -/
structure LEB128 where
  result : UInt64
  shift : UInt32
  byte : UInt8

theorem toNat_add_one {offset : UInt32} (valid : offset.toNat < de.Data.length) :
    (offset + 1).toNat = offset.toNat + 1 := by
  have small := de.addressable
  rw [UInt32.toNat_add, show (1 : UInt32).toNat = 1 from rfl]
  exact Nat.mod_eq_of_lt (by omega)

/-- The loop of `getULEB128` and `getSLEB128`.  A shift by 64 or more, which the language
leaves open, is by the remainder modulo 64. -/
def lebLoop (read : LEB128) (offset : UInt32) : LEB128 × UInt32 :=
  if valid : offset.toNat < de.Data.length then
    let byte := de.Data[offset.toNat]
    let result := read.result ||| ((byte &&& 0x7f).toUInt64 <<< read.shift.toUInt64)
    let next : LEB128 := ⟨result, read.shift + 7, byte⟩
    if byte &&& 0x80 = 0 then (next, offset + 1) else lebLoop next (offset + 1)
  else (read, offset)
termination_by de.Data.length - offset.toNat
decreasing_by
  rw [toNat_add_one de valid]
  omega

def getULEB128 (offset : UInt32) : UInt64 × UInt32 :=
  if de.Data = [] then (0, offset)
  else
    let read := de.lebLoop ⟨0, 0, 0⟩ offset
    (read.1.result, read.2)

def getSLEB128 (offset : UInt32) : Int64 × UInt32 :=
  if de.Data = [] then (0, offset)
  else
    let read := de.lebLoop ⟨0, 0, 0⟩ offset
    -- the sign bit of a byte is its second high order bit
    let result :=
      if read.1.shift < 64 && read.1.byte &&& 0x40 ≠ 0 then
        read.1.result ||| -((1 : UInt64) <<< read.1.shift.toUInt64)
      else read.1.result
    (result.toInt64, read.2)

/-! ## Where the reads end -/

variable {de : DataExtractor} {offset offset' : UInt32}

/-- A read does not go back, and it ends within the data or where it began. -/
def Advances (de : DataExtractor) (offset offset' : UInt32) : Prop :=
  offset.toNat <= offset'.toNat ∧ (offset'.toNat <= de.Data.length ∨ offset' = offset)

theorem Advances.refl (de : DataExtractor) (offset : UInt32) : Advances de offset offset :=
  ⟨le_refl _, .inr rfl⟩

theorem Advances.trans {first second third : UInt32} (before : Advances de first second)
    (after : Advances de second third) : Advances de first third := by
  refine ⟨before.1.trans after.1, ?_⟩
  rcases after.2 with within | same
  · exact .inl within
  · rw [same]
    exact before.2

theorem Advances.of_valid (valid : offset.toNat < de.Data.length) :
    Advances de offset (offset + 1) := by
  have next := toNat_add_one de valid
  exact ⟨by omega, .inl (by omega)⟩

theorem isValidOffsetForDataOfSize_iff {length : UInt32} (pos : 0 < length.toNat) :
    de.isValidOffsetForDataOfSize offset length = true ↔
      offset.toNat + length.toNat <= de.Data.length := by
  have small := de.addressable
  have first := offset.toNat_lt
  have second := length.toNat_lt
  rw [isValidOffsetForDataOfSize, isValidOffset, Bool.and_eq_true, decide_eq_true_iff,
    decide_eq_true_iff, UInt32.le_iff_toNat_le, UInt32.toNat_sub, UInt32.toNat_add,
    show (1 : UInt32).toNat = 1 from rfl]
  omega

theorem getU_advances {size : UInt32} (pos : 0 < size.toNat) (offset : UInt32) :
    Advances de offset (de.getU size offset).2 := by
  have small := de.addressable
  rw [getU]
  split
  · next valid =>
      rw [isValidOffsetForDataOfSize_iff pos] at valid
      have sum : (offset + size).toNat = offset.toNat + size.toNat := by
        rw [UInt32.toNat_add]
        exact Nat.mod_eq_of_lt (by omega)
      have end_le : (offset + size).toNat <= de.Data.length := by omega
      exact ⟨by show offset.toNat <= (offset + size).toNat; omega, .inl end_le⟩
  · exact Advances.refl de offset

theorem getU8_advances (offset : UInt32) : Advances de offset (de.getU8 offset).2 :=
  getU_advances (by decide) offset

theorem getU16_advances (offset : UInt32) : Advances de offset (de.getU16 offset).2 :=
  getU_advances (by decide) offset

theorem getAddress_advances (offset : UInt32) : Advances de offset (de.getAddress offset).2 := by
  apply getU_advances
  have size := de.addressSize
  simp only [List.mem_cons, List.not_mem_nil, or_false] at size
  rcases size with same | same | same | same <;> rw [same] <;> decide

theorem getCStr_some {chars : List UInt8} (read : de.getCStr offset = (some chars, offset')) :
    offset.toNat < offset'.toNat ∧ offset'.toNat <= de.Data.length := by
  have small := de.addressable
  simp only [getCStr] at read
  split at read
  · next found =>
      cases read
      rw [List.length_drop] at found
      rw [UInt32.toNat_ofNat', Nat.mod_eq_of_lt (by omega)]
      omega
  · cases read

theorem getCStr_advances (offset : UInt32) : Advances de offset (de.getCStr offset).2 := by
  cases read : de.getCStr offset with
  | mk chars offset' =>
    cases chars with
    | some chars =>
      have bounds := getCStr_some read
      exact ⟨le_of_lt bounds.1, .inl bounds.2⟩
    | none =>
      simp only [getCStr] at read
      split at read
      · cases read
      · cases read
        exact Advances.refl de offset

theorem lebLoop_advances (read : LEB128) (offset : UInt32) :
    Advances de offset (de.lebLoop read offset).2 := by
  fun_induction lebLoop de read offset with
  | case1 read offset valid => exact Advances.of_valid valid
  | case2 read offset valid _ _ _ _ ih =>
    exact (Advances.of_valid valid).trans ih
  | case3 read offset => exact Advances.refl de offset

theorem getULEB128_advances (offset : UInt32) : Advances de offset (de.getULEB128 offset).2 := by
  rw [getULEB128]
  split
  · exact Advances.refl de offset
  · exact lebLoop_advances _ offset

theorem getSLEB128_advances (offset : UInt32) : Advances de offset (de.getSLEB128 offset).2 := by
  rw [getSLEB128]
  split
  · exact Advances.refl de offset
  · exact lebLoop_advances _ offset

theorem getU8_of_valid (valid : offset.toNat < de.Data.length) :
    de.getU8 offset = (de.Data[offset.toNat], offset + 1) := by
  have one : (de.Data.drop offset.toNat).take (1 : UInt32).toNat = [de.Data[offset.toNat]] := by
    rw [List.drop_eq_getElem_cons valid]
    rfl
  have fits : de.isValidOffsetForDataOfSize offset 1 = true := by
    rw [isValidOffsetForDataOfSize_iff (by decide)]
    exact valid
  rw [getU8, getU, if_pos fits, one]
  cases de.IsLittleEndian <;> simp [littleEndian]

theorem getU8_of_not_valid (beyond : de.Data.length <= offset.toNat) :
    de.getU8 offset = (0, offset) := by
  have missing : ¬de.isValidOffsetForDataOfSize offset 1 = true := by
    rw [isValidOffsetForDataOfSize_iff (by decide), show (1 : UInt32).toNat = 1 from rfl]
    omega
  rw [getU8, getU, if_neg missing]
  rfl

end DataExtractor
end LlvmProject
