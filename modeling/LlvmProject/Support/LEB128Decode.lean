import LlvmProject.Support.LEB128
import Mathlib.Tactic.IntervalCases

namespace LlvmProject

open Nat List

/-!
# Decoding little endian numbers with base 128

`decodeULEB128` and `decodeSLEB128` read from a pointer, which is the list of the
bytes from it on.  A read past the last byte has no result.  Neither has a shift
that the language leaves undefined: one of a 64-bit number by 64 or more, and in
`decodeSLEB128`, which shifts an `int`, one by 32 or more or beyond the largest
`int`.
-/

namespace LEB128

/-- The bytes of the number at the front, and those behind it. -/
def split : List UInt8 -> Option (List UInt8 × List UInt8)
  | [] => none
  | byte :: p =>
    if 128 <= byte then (split p).map fun (bytes, rest) => (byte :: bytes, rest)
    else some ([byte], p)

variable {p bytes rest : List UInt8}

theorem split_eq_some : split p = some (bytes, rest) ↔ p = bytes ++ rest ∧ Terminated bytes := by
  induction p generalizing bytes with
  | nil =>
    refine iff_of_false nofun ?_
    rintro ⟨empty, terminated⟩
    exact terminated.ne_nil (append_eq_nil_iff.mp empty.symm).1
  | cons byte p ih =>
    rw [split]
    split
    · rename_i more
      have continues : 128 <= byte.toNat := more
      rw [Option.map_eq_some_iff]
      constructor
      · rintro ⟨⟨bytes', rest'⟩, found, same⟩
        rcases Prod.mk.inj same with ⟨rfl, rfl⟩
        rcases ih.mp found with ⟨rfl, terminated⟩
        exact ⟨rfl, terminated.cons continues⟩
      · rintro ⟨same, terminated⟩
        rcases bytes with _ | ⟨first, _ | ⟨second, bytes⟩⟩
        · exact absurd terminated id
        · rcases cons.inj same with ⟨rfl, -⟩
          exact absurd terminated (not_lt.mpr continues)
        · rcases cons.inj same with ⟨rfl, tail⟩
          exact ⟨_, ih.mpr ⟨tail, terminated.2⟩, rfl⟩
    · rename_i last
      have ends : byte.toNat < 128 := not_le.mp last
      rw [Option.some.injEq, Prod.mk.injEq]
      constructor
      · rintro ⟨rfl, rfl⟩
        exact ⟨rfl, ends⟩
      · rintro ⟨same, terminated⟩
        rcases bytes with _ | ⟨first, _ | ⟨second, bytes⟩⟩
        · exact absurd terminated id
        · rcases cons.inj same with ⟨rfl, tail⟩
          exact ⟨rfl, tail⟩
        · rcases cons.inj same with ⟨rfl, -⟩
          exact absurd terminated.1 (not_le.mpr ends)

theorem split_append (terminated : Terminated bytes) : split (bytes ++ rest) = some (bytes, rest) :=
  split_eq_some.mpr ⟨rfl, terminated⟩

end LEB128

/-! ## Unsigned numbers -/

def decodeULEB128.loop (Value : UInt64) (Shift : Nat) : List UInt8 -> Option (UInt64 × List UInt8)
  | [] => none
  | byte :: p =>
    if 64 <= Shift then none
    else
      let Value := Value + ((byte &&& 0x7f).toUInt64 <<< UInt64.ofNat Shift)
      if 128 <= byte then decodeULEB128.loop Value (Shift + 7) p else some (Value, p)

/-- The number at the pointer and the pointer behind it. -/
def decodeULEB128 (p : List UInt8) : Option (UInt64 × List UInt8) := decodeULEB128.loop 0 0 p

/-! ## Signed numbers -/

/-- The bits of the `int64_t` are those of `Value`. -/
def decodeSLEB128.loop (Value : UInt64) (Shift : Nat) : List UInt8 -> Option (Int × List UInt8)
  | [] => none
  | Byte :: p =>
    let shifted := (Byte &&& 0x7f).toNat <<< Shift
    if 32 <= Shift ∨ 2 ^ 31 <= shifted then none
    else
      let Value := Value ||| UInt64.ofNat shifted
      if 128 <= Byte then decodeSLEB128.loop Value (Shift + 7) p
      -- sign extend negative numbers
      else if Byte &&& 0x40 ≠ 0 then
        some ((Value ||| ((-1 : UInt64) <<< UInt64.ofNat (Shift + 7))).toInt64.toInt, p)
      else some (Value.toInt64.toInt, p)

def decodeSLEB128 (p : List UInt8) : Option (Int × List UInt8) := decodeSLEB128.loop 0 0 p

/-! ## What they read -/

namespace LEB128

variable {p bytes rest : List UInt8}

theorem shiftLeft_eq (byte : UInt8) {Shift : Nat} (small : Shift < 64) :
    (byte &&& 0x7f).toUInt64 <<< UInt64.ofNat Shift =
      UInt64.ofNat (byte.toNat % 128 * 2 ^ Shift) := by
  apply UInt64.toNat_inj.mp
  rw [UInt64.toNat_shiftLeft, UInt64.toNat_ofNat', mod_eq_of_lt (show Shift < 2 ^ 64 by omega),
    mod_eq_of_lt small, UInt8.toNat_toUInt64, toNat_and_7f, Nat.shiftLeft_eq,
    UInt64.toNat_ofNat']

theorem decodeULEB128_loop_eq (terminated : Terminated bytes) (Value : UInt64) (i : Nat) :
    decodeULEB128.loop Value (7 * i) (bytes ++ rest) =
      if i + bytes.length <= 10 then
        some (Value + UInt64.ofNat (groups bytes * 2 ^ (7 * i)), rest) else none := by
  induction bytes generalizing Value i with
  | nil => exact absurd terminated id
  | cons byte bytes ih =>
    rw [cons_append, decodeULEB128.loop, length_cons]
    by_cases small : 7 * i < 64
    · have value : groups (byte :: bytes) * 2 ^ (7 * i) =
          byte.toNat % 128 * 2 ^ (7 * i) + groups bytes * 2 ^ (7 * (i + 1)) := by
        rw [groups, show 7 * (i + 1) = 7 * i + 7 by ring, pow_add]
        ring
      rw [if_neg (not_le.mpr small), value]
      dsimp only
      rw [shiftLeft_eq byte small, UInt64.ofNat_add, <- UInt64.add_assoc]
      cases bytes with
      | nil =>
        have ends : byte.toNat < 128 := terminated
        rw [if_neg (show ¬ 128 <= byte from not_le.mpr ends),
          length_nil,
          if_pos (show i + (0 + 1) <= 10 by omega), groups, zero_mul]
        simp
      | cons second bytes =>
        have further := ih terminated.2
          (Value + UInt64.ofNat (byte.toNat % 128 * 2 ^ (7 * i))) (i + 1)
        rw [if_pos (show 128 <= byte from terminated.1), show 7 * i + 7 = 7 * (i + 1) by ring,
          further, add_right_comm i 1]
        rfl
    · rw [if_pos (not_lt.mp small), if_neg (by omega)]

theorem decodeULEB128_loop_none (missing : split p = none) (Value : UInt64) (Shift : Nat) :
    decodeULEB128.loop Value Shift p = none := by
  induction p generalizing Value Shift with
  | nil => rfl
  | cons byte p ih =>
    rw [split] at missing
    by_cases more : 128 <= byte
    · rw [if_pos more, Option.map_eq_none_iff] at missing
      rw [decodeULEB128.loop]
      split
      · rfl
      · exact ih missing _ _
    · rw [if_neg more] at missing
      exact nomatch missing

/-- Up to ten bytes are read, to 64 bits. -/
theorem decodeULEB128_eq (p : List UInt8) :
    decodeULEB128 p = (split p).bind fun (bytes, rest) =>
      if bytes.length <= 10 then some (UInt64.ofNat (groups bytes), rest) else none := by
  cases found : split p with
  | none => exact decodeULEB128_loop_none found 0 0
  | some pair =>
    rcases pair with ⟨bytes, rest⟩
    rcases split_eq_some.mp found with ⟨rfl, terminated⟩
    rw [decodeULEB128, show 0 = 7 * 0 from rfl, decodeULEB128_loop_eq terminated, zero_add,
      mul_zero, pow_zero, mul_one, UInt64.zero_add]
    rfl

/-- The group is entered above those that are read before. -/
theorem or_group {Value : UInt64} {group i : Nat} (below : Value.toNat < 2 ^ (7 * i))
    (fits : group * 2 ^ (7 * i) < 2 ^ 31) :
    (Value ||| UInt64.ofNat (group <<< (7 * i))).toNat = Value.toNat + group * 2 ^ (7 * i) := by
  rw [UInt64.toNat_or, UInt64.toNat_ofNat', Nat.shiftLeft_eq, mod_eq_of_lt (by omega),
    mul_comm group, Nat.or_comm, <- Nat.two_pow_add_eq_or_of_lt below, add_comm]

theorem toInt_toInt64 (Value : UInt64) :
    Value.toInt64.toInt = if Value.toNat < 2 ^ 63 then (Value.toNat : Int)
      else Value.toNat - 2 ^ 64 := by
  show Value.toBitVec.toInt = _
  rw [BitVec.toInt_eq_toNat_cond]
  apply if_congr _ rfl rfl
  show 2 * Value.toNat < 2 ^ 64 ↔ _
  omega

/-- The last byte enters the sign above the groups. -/
theorem signExtend_eq {Value : UInt64} {s : Nat} (below : Value.toNat < 2 ^ s) (small : s < 63) :
    (Value ||| ((-1 : UInt64) <<< UInt64.ofNat s)).toInt64.toInt = (Value.toNat : Int) - 2 ^ s := by
  have bound : 2 ^ s < 2 ^ 63 := Nat.pow_lt_pow_right (by decide) small
  have high : ((-1 : UInt64) <<< UInt64.ofNat s).toNat = 2 ^ s * (2 ^ (64 - s) - 1) := by
    have whole : 2 ^ s * 2 ^ (64 - s) = 2 ^ 64 := by
      rw [<- Nat.pow_add]
      congr 1
      omega
    have pos : 0 < 2 ^ s := Nat.two_pow_pos s
    have prod : (2 ^ 64 - 1) * 2 ^ s = (2 ^ 64 - 2 ^ s) + 2 ^ 64 * (2 ^ s - 1) := by
      rw [Nat.sub_mul, Nat.mul_sub]
      have large : 2 ^ 64 * 1 <= 2 ^ 64 * 2 ^ s := mul_le_mul_left _ pos
      omega
    rw [UInt64.toNat_shiftLeft, UInt64.toNat_ofNat', mod_eq_of_lt (show s < 2 ^ 64 by omega),
      mod_eq_of_lt (show s < 64 by omega), show (-1 : UInt64).toNat = 2 ^ 64 - 1 from rfl,
      Nat.shiftLeft_eq, prod, add_mul_mod_self_left, mod_eq_of_lt (by omega),
      Nat.mul_sub, whole, Nat.mul_one]
  have sum : (Value ||| ((-1 : UInt64) <<< UInt64.ofNat s)).toNat =
      2 ^ 64 - 2 ^ s + Value.toNat := by
    have whole : 2 ^ s * (2 ^ (64 - s) - 1) = 2 ^ 64 - 2 ^ s := by
      rw [Nat.mul_sub, <- Nat.pow_add, Nat.mul_one]
      congr 2
      omega
    rw [UInt64.toNat_or, high, Nat.or_comm, <- Nat.two_pow_add_eq_or_of_lt below, whole]
  have cast : ((2 : Int) ^ s) = ((2 ^ s : Nat) : Int) := by push_cast; rfl
  rw [toInt_toInt64, sum, if_neg (by omega), cast]
  omega

theorem add_group_lt {n i : Nat} (byte : UInt8) (below : n < 2 ^ (7 * i)) :
    n + byte.toNat % 128 * 2 ^ (7 * i) < 2 ^ (7 * (i + 1)) := by
  have group : byte.toNat % 128 + 1 <= 128 := by omega
  calc n + byte.toNat % 128 * 2 ^ (7 * i)
      < 2 ^ (7 * i) + byte.toNat % 128 * 2 ^ (7 * i) := Nat.add_lt_add_right below _
    _ = (byte.toNat % 128 + 1) * 2 ^ (7 * i) := by ring
    _ <= 128 * 2 ^ (7 * i) := mul_le_mul_right _ group
    _ = 2 ^ (7 * (i + 1)) := by rw [show 7 * (i + 1) = 7 + 7 * i by ring, Nat.pow_add]

/-- Below the fifth group a lower one cannot make the number too large. -/
theorem lt_two_pow_31_iff (byte : UInt8) (group : Nat) {i : Nat} (low : i <= 3) :
    group * 2 ^ (7 * (i + 1)) < 2 ^ 31 ↔
      byte.toNat % 128 * 2 ^ (7 * i) + group * 2 ^ (7 * (i + 1)) < 2 ^ 31 := by
  have bound : byte.toNat % 128 < 128 := mod_lt _ (by decide)
  generalize byte.toNat % 128 = b at bound
  interval_cases i <;> omega

theorem decodeSLEB128_loop_eq (terminated : Terminated bytes) {Value : UInt64} {i : Nat}
    (below : Value.toNat < 2 ^ (7 * i)) :
    decodeSLEB128.loop Value (7 * i) (bytes ++ rest) =
      if i + bytes.length <= 5 ∧ groups bytes * 2 ^ (7 * i) < 2 ^ 31 then
        some (Value.toNat + signed bytes * 2 ^ (7 * i), rest) else none := by
  induction bytes generalizing Value i with
  | nil => exact absurd terminated id
  | cons byte bytes ih =>
    rw [cons_append, decodeSLEB128.loop, length_cons]
    dsimp only
    rw [toNat_and_7f, Nat.shiftLeft_eq]
    have value : groups (byte :: bytes) * 2 ^ (7 * i) =
        byte.toNat % 128 * 2 ^ (7 * i) + groups bytes * 2 ^ (7 * (i + 1)) := by
      rw [groups, show 7 * (i + 1) = 7 * i + 7 by ring, pow_add]
      ring
    by_cases undefined : 32 <= 7 * i ∨ 2 ^ 31 <= byte.toNat % 128 * 2 ^ (7 * i)
    · rw [if_pos undefined, if_neg]
      rintro ⟨short, small⟩
      rcases undefined with late | large
      · omega
      · omega
    · rcases not_or.mp undefined with ⟨early, small⟩
      have entered := or_group below (not_le.mp small)
      have above := add_group_lt byte below
      rw [if_neg undefined]
      rw [Nat.shiftLeft_eq] at entered
      rw [<- entered] at above
      cases bytes with
      | nil =>
        have ends : byte.toNat < 128 := terminated
        have whole : i + (([] : List UInt8).length + 1) <= 5 ∧
            groups [byte] * 2 ^ (7 * i) < 2 ^ 31 := by
          refine ⟨show i + 1 <= 5 by omega, ?_⟩
          rw [value, groups]
          omega
        have number : signed [byte] = byte.toNat % 128 -
            if 64 <= byte.toNat % 128 then 128 else 0 := by
          simp [signed, groups, negative]
        rw [if_neg (show ¬ 128 <= byte from not_le.mpr ends), if_pos whole, number]
        by_cases sign : 64 <= byte.toNat % 128
        · rw [if_pos ((and_40_ne_zero_iff byte).mpr sign), if_pos sign,
            show 7 * i + 7 = 7 * (i + 1) by ring, signExtend_eq above (by omega), entered,
            show 7 * (i + 1) = 7 * i + 7 by ring, pow_add]
          congr 2
          push_cast
          ring
        · have pos : (Value |||
              UInt64.ofNat (byte.toNat % 128 * 2 ^ (7 * i))).toNat < 2 ^ 63 :=
            above.trans_le (Nat.pow_le_pow_right (by decide) (by omega))
          rw [if_neg (mt (and_40_ne_zero_iff byte).mp sign), if_neg sign, toInt_toInt64,
            if_pos pos, entered, Int.sub_zero]
          congr 2
      | cons second bytes =>
        have further := ih terminated.2 (i := i + 1) above
        rw [if_pos (show 128 <= byte from terminated.1), show 7 * i + 7 = 7 * (i + 1) by ring,
          further, entered, signed_cons byte terminated.2.ne_nil]
        apply if_congr
        · rw [value, add_right_comm i 1, add_assoc i]
          exact and_congr_right fun short => lt_two_pow_31_iff byte _ (by
            rw [length_cons] at short
            omega)
        · rw [show 7 * (i + 1) = 7 * i + 7 by ring, pow_add]
          congr 2
          push_cast
          ring
        · rfl

theorem decodeSLEB128_loop_none (missing : split p = none) (Value : UInt64) (Shift : Nat) :
    decodeSLEB128.loop Value Shift p = none := by
  induction p generalizing Value Shift with
  | nil => rfl
  | cons byte p ih =>
    rw [split] at missing
    by_cases more : 128 <= byte
    · rw [if_pos more, Option.map_eq_none_iff] at missing
      rw [decodeSLEB128.loop]
      dsimp only
      rw [if_pos more, ih missing, ite_self]
    · rw [if_neg more] at missing
      exact nomatch missing

/-- Up to five bytes are read, to a number whose groups fit an `int`. -/
theorem decodeSLEB128_eq (p : List UInt8) :
    decodeSLEB128 p = (split p).bind fun (bytes, rest) =>
      if bytes.length <= 5 ∧ groups bytes < 2 ^ 31 then some (signed bytes, rest) else none := by
  cases found : split p with
  | none => exact decodeSLEB128_loop_none found 0 0
  | some pair =>
    rcases pair with ⟨bytes, rest⟩
    rcases split_eq_some.mp found with ⟨rfl, terminated⟩
    have below : (0 : UInt64).toNat < 2 ^ (7 * 0) := one_pos
    rw [decodeSLEB128, show 0 = 7 * 0 from rfl, decodeSLEB128_loop_eq terminated below,
      zero_add, mul_zero, pow_zero, pow_zero, mul_one, mul_one]
    simp

end LEB128
end LlvmProject
