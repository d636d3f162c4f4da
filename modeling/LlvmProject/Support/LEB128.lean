import LlvmProject.DebugInfo.DataExtractor
import Mathlib.Tactic.Ring

namespace LlvmProject

open UInt64 hiding mul_one mul_zero one_mul
open List Nat DataExtractor

/-!
# Little endian numbers with base 128

A number is written in groups of seven bits, the lowest first; each byte but the last
has its high bit set.  `DataExtractor` reads back the numbers that are written.
-/

/-! ## Writing -/

/-- The bytes of an unsigned number, without padding. -/
def encodeULEB128 (Value : Nat) : List UInt8 :=
  let Byte := Value % 128
  if Value / 128 ≠ 0 then UInt8.ofNat (Byte + 128) :: encodeULEB128 (Value / 128)
  else [UInt8.ofNat Byte]
termination_by Value
decreasing_by omega

/-- The bytes of a signed number; the division rounds down, as an arithmetic shift. -/
def encodeSLEB128 (Value : Int) : List UInt8 :=
  let Byte := (Value % 128).toNat
  if (Value / 128 = 0 ∧ Byte < 64) ∨ (Value / 128 = -1 ∧ 64 <= Byte) then [UInt8.ofNat Byte]
  else UInt8.ofNat (Byte + 128) :: encodeSLEB128 (Value / 128)
termination_by Value.natAbs
decreasing_by omega

/-! ## Groups of seven bits -/

namespace LEB128

/-- Each byte but the last has its high bit set. -/
def Terminated : List UInt8 -> Prop
  | [] => False
  | [byte] => byte.toNat < 128
  | byte :: next :: bytes => 128 <= byte.toNat ∧ Terminated (next :: bytes)

/-- The number that the groups denote. -/
def groups : List UInt8 -> Nat
  | [] => 0
  | byte :: bytes => byte.toNat % 128 + 128 * groups bytes

theorem toNat_ofNat_of_lt {n : Nat} (small : n < 256) : (UInt8.ofNat n).toNat = n := by
  rw [UInt8.toNat_ofNat']
  exact mod_eq_of_lt small

variable {bytes : List UInt8}

theorem Terminated.cons {byte : UInt8} (continues : 128 <= byte.toNat)
    (terminated : Terminated bytes) : Terminated (byte :: bytes) := by
  cases bytes with
  | nil => exact absurd terminated id
  | cons next bytes => exact ⟨continues, terminated⟩

theorem encodeULEB128_spec (Value : Nat) :
    Terminated (encodeULEB128 Value) ∧ groups (encodeULEB128 Value) = Value := by
  induction Value using Nat.strongRecOn with
  | ind Value ih =>
    rw [encodeULEB128]
    by_cases more : Value / 128 ≠ 0
    · rcases ih (Value / 128) (by omega) with ⟨terminated, value⟩
      have byte := toNat_ofNat_of_lt (show Value % 128 + 128 < 256 by omega)
      rw [if_pos more]
      refine ⟨terminated.cons (by omega), ?_⟩
      rw [groups, value, byte]
      omega
    · have byte := toNat_ofNat_of_lt (show Value % 128 < 256 by omega)
      rw [if_neg more]
      refine ⟨?_, ?_⟩
      · show (UInt8.ofNat (Value % 128)).toNat < 128
        omega
      · rw [groups, groups, byte]
        omega

theorem length_encodeULEB128_le (k : Nat) {Value : Nat} (bound : Value < 128 ^ (k + 1)) :
    (encodeULEB128 Value).length <= k + 1 := by
  induction k generalizing Value with
  | zero =>
    rw [encodeULEB128, if_neg (by omega)]
    exact le_refl _
  | succ k ih =>
    rw [encodeULEB128]
    split
    · rw [length_cons]
      have quot : Value / 128 < 128 ^ (k + 1) := by
        apply Nat.div_lt_of_lt_mul
        rwa [<- pow_succ']
      have rest := ih quot
      omega
    · exact succ_le_succ (zero_le _)

/-- The last group has its sign bit set. -/
def negative : List UInt8 -> Bool
  | [] => false
  | [byte] => 64 <= byte.toNat % 128
  | _ :: next :: bytes => negative (next :: bytes)

theorem negative_cons (byte : UInt8) (some : bytes ≠ []) :
    negative (byte :: bytes) = negative bytes := by
  cases bytes with
  | nil => exact absurd rfl some
  | cons next bytes => rfl

theorem Terminated.ne_nil (terminated : Terminated bytes) : bytes ≠ [] := by
  rintro rfl
  exact terminated

/-- The signed number that the groups denote. -/
def signed (bytes : List UInt8) : Int :=
  groups bytes - if negative bytes then 128 ^ bytes.length else 0

theorem signed_cons (byte : UInt8) (some : bytes ≠ []) :
    signed (byte :: bytes) = byte.toNat % 128 + 128 * signed bytes := by
  rw [signed, signed, negative_cons byte some, groups, length_cons, Int.pow_succ]
  push_cast
  cases negative bytes <;> simp only [if_true, Bool.false_eq_true, if_false] <;> ring

theorem encodeSLEB128_spec (Value : Int) :
    Terminated (encodeSLEB128 Value) ∧ signed (encodeSLEB128 Value) = Value := by
  induction size : Value.natAbs using Nat.strongRecOn generalizing Value with
  | ind n ih =>
    rw [encodeSLEB128]
    by_cases last : (Value / 128 = 0 ∧ (Value % 128).toNat < 64) ∨
        (Value / 128 = -1 ∧ 64 <= (Value % 128).toNat)
    · have byte := toNat_ofNat_of_lt (show (Value % 128).toNat < 256 by omega)
      rw [if_pos last]
      constructor
      · show (UInt8.ofNat (Value % 128).toNat).toNat < 128
        omega
      · have mask : (Value % 128).toNat % 128 = (Value % 128).toNat := by omega
        simp only [signed, negative, groups, byte, mask, length_singleton, decide_eq_true_iff]
        rcases last with ⟨quot, small⟩ | ⟨quot, large⟩
        · rw [if_neg (Nat.not_le.mpr small)]
          omega
        · rw [if_pos large]
          omega
    · rcases ih (Value / 128).natAbs (by omega) (Value / 128) rfl with
        ⟨terminated, value⟩
      have byte := toNat_ofNat_of_lt (show (Value % 128).toNat + 128 < 256 by omega)
      rw [if_neg last]
      refine ⟨terminated.cons (by omega), ?_⟩
      rw [signed_cons _ terminated.ne_nil, value, byte]
      omega

theorem length_encodeSLEB128_le (k : Nat) {Value : Int}
    (low : -(64 * 128 ^ k) <= Value) (high : Value < 64 * 128 ^ k) :
    (encodeSLEB128 Value).length <= k + 1 := by
  induction k generalizing Value with
  | zero =>
    rw [encodeSLEB128, if_pos (by omega)]
    exact le_refl _
  | succ k ih =>
    rw [encodeSLEB128]
    split
    · exact succ_le_succ (zero_le _)
    · rw [length_cons]
      rw [Int.pow_succ] at low high
      have rest : (encodeSLEB128 (Value / 128)).length <= k + 1 := ih (by omega) (by omega)
      omega

/-! ## Reading -/

section Reading

variable {de : DataExtractor} {offset : UInt32} {rest : List UInt8}

/-- The bytes stand at the offset, in front of others. -/
def StandsAt (de : DataExtractor) (offset : UInt32) (bytes rest : List UInt8) : Prop :=
  de.Data.drop offset.toNat = bytes ++ rest

theorem StandsAt.head {byte : UInt8}
    (stands : StandsAt de offset (byte :: bytes) rest) :
    ∃ valid : offset.toNat < de.Data.length, de.Data[offset.toNat] = byte ∧
      StandsAt de (offset + 1) bytes rest := by
  have valid : offset.toNat < de.Data.length := by
    by_contra beyond
    rw [StandsAt, drop_eq_nil_of_le (Nat.not_lt.mp beyond)] at stands
    cases stands
  rw [StandsAt, drop_eq_getElem_cons valid] at stands
  have both := List.cons.inj stands
  refine ⟨valid, both.1, ?_⟩
  rw [StandsAt, toNat_add_one de valid]
  exact both.2

theorem toNat_and_7f (byte : UInt8) : (byte &&& 0x7f).toNat = byte.toNat % 128 := by
  rw [UInt8.toNat_and]
  exact and_two_pow_sub_one_eq_mod byte.toNat 7

theorem and_80_eq_zero_iff (byte : UInt8) : byte &&& 0x80 = 0 ↔ byte.toNat < 128 := by
  have all : ∀ n : Fin 256, UInt8.ofNat n.val &&& 0x80 = 0 ↔ n.val < 128 := by decide +kernel
  have here := all ⟨byte.toNat, byte.toNat_lt⟩
  rwa [UInt8.ofNat_toNat] at here

theorem and_40_ne_zero_iff (byte : UInt8) : byte &&& 0x40 ≠ 0 ↔ 64 <= byte.toNat % 128 := by
  have all : ∀ n : Fin 256, UInt8.ofNat n.val &&& 0x40 ≠ 0 ↔ 64 <= n.val % 128 := by decide +kernel
  have here := all ⟨byte.toNat, byte.toNat_lt⟩
  rwa [UInt8.ofNat_toNat] at here

theorem toNat_shift {i : Nat} (small : 7 * i < 64) :
    (UInt32.ofNat (7 * i)).toUInt64.toNat = 7 * i := by
  rw [UInt32.toNat_toUInt64, UInt32.toNat_ofNat', mod_eq_of_lt (by omega)]

/-- A group is entered above those that are read before. -/
theorem or_shiftLeft {result : UInt64} {byte : UInt8} {i : Nat} (shift : 7 * i < 64)
    (below : result.toNat < 2 ^ (7 * i)) (fits : byte.toNat % 128 * 2 ^ (7 * i) < 2 ^ 64) :
    result ||| ((byte &&& 0x7f).toUInt64 <<< (UInt32.ofNat (7 * i)).toUInt64) =
      result + ofNat (byte.toNat % 128 * 2 ^ (7 * i)) := by
  have sum : result.toNat + byte.toNat % 128 * 2 ^ (7 * i) < 2 ^ 64 := by
    have divides : 2 ^ 64 = 2 ^ (64 - 7 * i) * 2 ^ (7 * i) := by
      rw [<- pow_add]
      congr 1
      omega
    have room : byte.toNat % 128 < 2 ^ (64 - 7 * i) := by
      rw [divides] at fits
      exact Nat.lt_of_mul_lt_mul_right fits
    calc result.toNat + byte.toNat % 128 * 2 ^ (7 * i)
        < 2 ^ (7 * i) + byte.toNat % 128 * 2 ^ (7 * i) := Nat.add_lt_add_right below _
      _ = (byte.toNat % 128 + 1) * 2 ^ (7 * i) := by ring
      _ <= 2 ^ (64 - 7 * i) * 2 ^ (7 * i) := Nat.mul_le_mul_right _ room
      _ = 2 ^ 64 := divides.symm
  apply UInt64.toNat_inj.mp
  rw [UInt64.toNat_or, UInt64.toNat_shiftLeft, toNat_shift shift, mod_eq_of_lt shift,
    UInt8.toNat_toUInt64, toNat_and_7f, Nat.shiftLeft_eq, mod_eq_of_lt fits, UInt64.toNat_add,
    toNat_ofNat', mod_eq_of_lt fits, mod_eq_of_lt sum, mul_comm, Nat.or_comm,
    <- two_pow_add_eq_or_of_lt below, add_comm]

theorem lebLoop_read (terminated : Terminated bytes)
    (stands : StandsAt de offset bytes rest) {read : DataExtractor.LEB128} {i : Nat}
    (shift : read.shift = UInt32.ofNat (7 * i)) (below : read.result.toNat < 2 ^ (7 * i))
    (room : 7 * (i + bytes.length) < 71) (fits : groups bytes * 2 ^ (7 * i) < 2 ^ 64) :
    ∃ last, de.lebLoop read offset =
      (⟨read.result + ofNat (groups bytes * 2 ^ (7 * i)),
        UInt32.ofNat (7 * (i + bytes.length)), last⟩, offset + UInt32.ofNat bytes.length) ∧
      (64 <= last.toNat % 128 ↔ negative bytes = true) := by
  induction bytes generalizing offset read i with
  | nil => exact absurd terminated id
  | cons byte bytes ih =>
    rcases stands.head with ⟨valid, here, further⟩
    rw [length_cons] at room
    have small : 7 * i < 64 := by omega
    have value : groups (byte :: bytes) * 2 ^ (7 * i) =
        byte.toNat % 128 * 2 ^ (7 * i) + groups bytes * 2 ^ (7 * (i + 1)) := by
      rw [groups, show 7 * (i + 1) = 7 * i + 7 by ring, Nat.pow_add]
      ring
    rw [value] at fits
    have first : byte.toNat % 128 * 2 ^ (7 * i) < 2 ^ 64 := by omega
    have entered := or_shiftLeft small below first
    have next : read.shift + 7 = UInt32.ofNat (7 * (i + 1)) := by
      rw [shift, show 7 * (i + 1) = 7 * i + 7 by ring, UInt32.ofNat_add]
      rfl
    rw [lebLoop, dif_pos valid]
    dsimp only
    rw [here, shift, entered, <- shift, next]
    cases bytes with
    | nil =>
      have ends : byte.toNat < 128 := terminated
      rw [if_pos ((and_80_eq_zero_iff byte).mpr ends)]
      refine ⟨byte, ?_, ?_⟩
      · rw [value, groups, Nat.zero_mul, Nat.add_zero]
        rfl
      · rw [negative, decide_eq_true_iff]
    | cons second bytes =>
      rw [if_neg (by rw [and_80_eq_zero_iff]; exact Nat.not_lt.mpr terminated.1)]
      have above : (read.result + ofNat (byte.toNat % 128 * 2 ^ (7 * i))).toNat <
          2 ^ (7 * (i + 1)) := by
        have group : byte.toNat % 128 + 1 <= 128 := by omega
        rw [UInt64.toNat_add, toNat_ofNat', mod_eq_of_lt first]
        calc (read.result.toNat + byte.toNat % 128 * 2 ^ (7 * i)) % 2 ^ 64
            <= read.result.toNat + byte.toNat % 128 * 2 ^ (7 * i) := mod_le _ _
          _ < 2 ^ (7 * i) + byte.toNat % 128 * 2 ^ (7 * i) := Nat.add_lt_add_right below _
          _ = (byte.toNat % 128 + 1) * 2 ^ (7 * i) := by ring
          _ <= 128 * 2 ^ (7 * i) := Nat.mul_le_mul_right _ group
          _ = 2 ^ (7 * (i + 1)) := by rw [show 7 * (i + 1) = 7 + 7 * i by ring, Nat.pow_add]
      have rest : i + 1 + (second :: bytes).length = i + ((second :: bytes).length + 1) := by ring
      let reached : DataExtractor.LEB128 :=
        ⟨read.result + ofNat (byte.toNat % 128 * 2 ^ (7 * i)), UInt32.ofNat (7 * (i + 1)), byte⟩
      have shifted : reached.shift = UInt32.ofNat (7 * (i + 1)) := rfl
      rcases ih terminated.2 further shifted above (by rwa [rest])
        (by omega) with ⟨last, ran, sign⟩
      dsimp only [reached] at ran
      refine ⟨last, ?_, sign⟩
      have offsets : offset + UInt32.ofNat ((second :: bytes).length + 1) =
          offset + 1 + UInt32.ofNat (second :: bytes).length := by
        rw [UInt32.ofNat_add, UInt32.add_comm (UInt32.ofNat _), UInt32.add_assoc]
        rfl
      have length : (byte :: second :: bytes).length = (second :: bytes).length + 1 := rfl
      rw [ran, value, UInt64.ofNat_add, rest, length, offsets, UInt64.add_assoc]

theorem lebLoop_read_first (terminated : Terminated bytes)
    (stands : StandsAt de offset bytes rest) (short : bytes.length <= 10)
    (fits : groups bytes < 2 ^ 64) :
    ∃ last, de.lebLoop ⟨0, 0, 0⟩ offset =
      (⟨ofNat (groups bytes), UInt32.ofNat (7 * bytes.length), last⟩,
        offset + UInt32.ofNat bytes.length) ∧
      (64 <= last.toNat % 128 ↔ negative bytes = true) := by
  let start : DataExtractor.LEB128 := ⟨0, 0, 0⟩
  have shift : start.shift = UInt32.ofNat (7 * 0) := rfl
  have below : start.result.toNat < 2 ^ (7 * 0) := one_pos
  have room : 7 * (0 + bytes.length) < 71 := by omega
  have fits' : groups bytes * 2 ^ (7 * 0) < 2 ^ 64 := by rwa [mul_zero, pow_zero, mul_one]
  rcases lebLoop_read terminated stands shift below room fits' with ⟨last, ran, sign⟩
  refine ⟨last, ?_, sign⟩
  dsimp only [start] at ran
  rw [mul_zero, pow_zero, mul_one, Nat.zero_add, UInt64.zero_add] at ran
  exact ran

theorem getULEB128_encode {Value : Nat} (small : Value < 2 ^ 64)
    (stands : StandsAt de offset (encodeULEB128 Value) rest) :
    de.getULEB128 offset = (ofNat Value, offset + UInt32.ofNat (encodeULEB128 Value).length) := by
  rcases encodeULEB128_spec Value with ⟨terminated, value⟩
  have short : (encodeULEB128 Value).length <= 10 := length_encodeULEB128_le 9 (by omega)
  have some : de.Data ≠ [] := by
    intro empty
    rw [StandsAt, empty, drop_nil] at stands
    exact terminated.ne_nil (append_eq_nil_iff.mp stands.symm).1
  rcases lebLoop_read_first terminated stands (by omega) (by rw [value]; exact small) with
    ⟨last, ran, _⟩
  rw [getULEB128, if_neg some, ran, value]

/-- A number below `2 ^ s` with all bits from there on set. -/
theorem or_neg_shiftLeft {g s : Nat} (below : g < 2 ^ s) (small : s < 64) :
    ofNat g ||| -((1 : UInt64) <<< (UInt32.ofNat s).toUInt64) = ofInt ((g : Int) - 2 ^ s) := by
  have bound : 2 ^ s < 2 ^ 64 := Nat.pow_lt_pow_right (by decide) small
  have one : ((1 : UInt64) <<< (UInt32.ofNat s).toUInt64).toNat = 2 ^ s := by
    rw [UInt64.toNat_shiftLeft, UInt32.toNat_toUInt64, UInt32.toNat_ofNat',
      mod_eq_of_lt (show s < 2 ^ 32 by omega), mod_eq_of_lt small, Nat.shiftLeft_eq,
      show (1 : UInt64).toNat = 1 from rfl, one_mul, mod_eq_of_lt bound]
  apply UInt64.toNat_inj.mp
  have high : 2 ^ 64 - 2 ^ s = 2 ^ s * (2 ^ (64 - s) - 1) := by
    rw [Nat.mul_sub, <- pow_add, mul_one]
    congr 2
    omega
  have rem : (((g : Int) - 2 ^ s) % 2 ^ 64).toNat = 2 ^ 64 - 2 ^ s + g := by
    have cast : ((2 : Int) ^ s) = ((2 ^ s : Nat) : Int) := by push_cast; rfl
    rw [cast]
    omega
  have small' : 2 ^ 64 - 2 ^ s + g < 2 ^ 64 := by omega
  rw [UInt64.toNat_or, toNat_neg, one, toNat_ofNat', ofInt, rem,
    toNat_ofNat', mod_eq_of_lt small', mod_eq_of_lt (show g < 2 ^ 64 by omega),
    show UInt64.size = 2 ^ 64 from rfl, mod_eq_of_lt (show 2 ^ 64 - 2 ^ s < 2 ^ 64 by
      have := Nat.two_pow_pos s
      omega), high, Nat.or_comm, <- two_pow_add_eq_or_of_lt below]

theorem groups_lt (bytes : List UInt8) : groups bytes < 2 ^ (7 * bytes.length) := by
  induction bytes with
  | nil => exact one_pos
  | cons byte bytes ih =>
    rw [groups, length_cons, show 7 * (bytes.length + 1) = 7 + 7 * bytes.length by ring, pow_add]
    omega

/-- A signed number of at most nine bytes is read back. -/
theorem getSLEB128_encode {Value : Int} (low : -(64 * 128 ^ 8) <= Value)
    (high : Value < 64 * 128 ^ 8) (stands : StandsAt de offset (encodeSLEB128 Value) rest) :
    ∃ number, de.getSLEB128 offset =
      (number, offset + UInt32.ofNat (encodeSLEB128 Value).length) ∧
      number.toUInt64 = ofInt Value := by
  rcases encodeSLEB128_spec Value with ⟨terminated, value⟩
  have short : (encodeSLEB128 Value).length <= 9 := length_encodeSLEB128_le 8 low high
  have below := groups_lt (encodeSLEB128 Value)
  have bound : 2 ^ (7 * (encodeSLEB128 Value).length) <= 2 ^ 63 :=
    Nat.pow_le_pow_right (by decide) (by omega)
  have some : de.Data ≠ [] := by
    intro empty
    rw [StandsAt, empty, drop_nil] at stands
    exact terminated.ne_nil (append_eq_nil_iff.mp stands.symm).1
  rcases lebLoop_read_first terminated stands (by omega) (by omega) with ⟨last, ran, sign⟩
  have shift : UInt32.ofNat (7 * (encodeSLEB128 Value).length) < 64 := by
    rw [UInt32.lt_iff_toNat_lt, UInt32.toNat_ofNat', mod_eq_of_lt (by omega)]
    show 7 * (encodeSLEB128 Value).length < 64
    omega
  rw [getSLEB128, if_neg some, ran]
  refine ⟨_, rfl, ?_⟩
  dsimp only
  rw [toUInt64_toInt64]
  cases isNegative : negative (encodeSLEB128 Value) with
  | true =>
    have bit := (and_40_ne_zero_iff last).mpr (sign.mpr isNegative)
    rw [if_pos (by rw [decide_eq_true shift, decide_eq_true bit]; rfl),
      or_neg_shiftLeft below (by omega)]
    rw [signed, isNegative, if_pos rfl, show (128 : Int) = 2 ^ 7 by norm_num, <- pow_mul] at value
    exact congrArg ofInt value
  | false =>
    have bit : ¬last &&& 0x40 ≠ 0 := by
      rw [and_40_ne_zero_iff, sign, isNegative]
      exact Bool.false_ne_true
    rw [if_neg (by rw [decide_eq_false bit, Bool.and_false]; exact Bool.false_ne_true)]
    rw [signed, isNegative, if_neg Bool.false_ne_true, sub_zero] at value
    have cast : ofInt (groups (encodeSLEB128 Value) : Int) =
        ofNat (groups (encodeSLEB128 Value)) := by
      rw [ofInt]
      congr 1
      omega
    exact cast.symm.trans (congrArg ofInt value)

end Reading

/-! ## Sequences of numbers -/

theorem Terminated.eq_of_append (first : Terminated bytes) {bytes' rest rest' : List UInt8}
    (second : Terminated bytes') (same : bytes ++ rest = bytes' ++ rest') : bytes = bytes' := by
  induction bytes generalizing bytes' with
  | nil => exact absurd first id
  | cons byte bytes ih =>
    cases bytes' with
    | nil => exact absurd second id
    | cons byte' bytes' =>
      rcases List.cons.inj same with ⟨rfl, tails⟩
      cases bytes <;> cases bytes'
      · rfl
      · exact absurd second.1 (Nat.not_le.mpr first)
      · exact absurd first.1 (Nat.not_le.mpr second)
      · rw [ih first.2 second.2 tails]

theorem flatMap_injective {α : Type} {encode : α -> List UInt8}
    (terminated : ∀ v, Terminated (encode v)) (injective : Function.Injective encode) :
    Function.Injective (List.flatMap encode) := by
  intro values
  induction values with
  | nil =>
    rintro (_ | ⟨v, values'⟩) same
    · rfl
    · exact absurd (append_eq_nil_iff.mp same.symm).1 (terminated v).ne_nil
  | cons v values ih =>
    rintro (_ | ⟨v', values'⟩) same
    · exact absurd (append_eq_nil_iff.mp same).1 (terminated v).ne_nil
    · rw [flatMap_cons, flatMap_cons] at same
      have heads := (terminated v).eq_of_append (terminated v') same
      rw [heads] at same
      rw [injective heads, ih (append_cancel_left same)]

/-- The bytes of numbers written one after the other can be read in one way only. -/
theorem encodings_uniquely_decodable :
    Function.Injective (List.flatMap encodeULEB128) ∧
      Function.Injective (List.flatMap encodeSLEB128) :=
  ⟨flatMap_injective (fun v => (encodeULEB128_spec v).1)
    (Function.LeftInverse.injective fun v => (encodeULEB128_spec v).2),
  flatMap_injective (fun v => (encodeSLEB128_spec v).1)
    (Function.LeftInverse.injective fun v => (encodeSLEB128_spec v).2)⟩

end LEB128
end LlvmProject
