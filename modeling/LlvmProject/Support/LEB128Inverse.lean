import LlvmProject.Support.LEB128Decode

namespace LlvmProject

open List

/-!
# Writing and reading numbers with base 128

`encodeULEB128` can pad a number with further groups, which are zero; `getULEB128Size` and
`getSLEB128Size` count the groups of a number without writing them.  What is written is read back
as long as the decoders do not shift too far: `decodeULEB128` reads ten groups, and
`decodeSLEB128` reads what an `int` can hold.
-/

open LEB128

/-! ## Padding and sizes -/

/-- The groups of the number; the last one ends it only if there is no padding. -/
def encodeULEB128Padded.groups (Value Padding : Nat) : List UInt8 :=
  let Byte := Value % 128
  if Value / 128 ≠ 0 then
    UInt8.ofNat (Byte + 128) :: encodeULEB128Padded.groups (Value / 128) Padding
  else if Padding ≠ 0 then [UInt8.ofNat (Byte + 128)]
  else [UInt8.ofNat Byte]
termination_by Value
decreasing_by omega

/-- The bytes of an unsigned number with padding. -/
def encodeULEB128Padded (Value Padding : Nat) : List UInt8 :=
  encodeULEB128Padded.groups Value Padding ++
    -- pad with 0x80 and emit a null byte at the end
    if Padding ≠ 0 then replicate (Padding - 1) 0x80 ++ [0x00] else []

def getULEB128Size (Value : Nat) : Nat :=
  if Value / 128 ≠ 0 then getULEB128Size (Value / 128) + 1 else 1
termination_by Value
decreasing_by omega

/-- An endless loop has no result. -/
def getSLEB128Size.loop (Sign Value : Int) : Option Nat :=
  let Byte := BitVec.ofInt 32 (Value % 128)
  let IsMore := Value / 128 ≠ Sign ∨ (Byte ^^^ BitVec.ofInt 32 Sign) &&& 0x40 ≠ 0
  if IsMore then
    if Value / 128 = Value then none
    else (getSLEB128Size.loop Sign (Value / 128)).map (· + 1)
  else some 1
termination_by Value.natAbs
decreasing_by omega

def getSLEB128Size (Value : Int) : Option Nat := getSLEB128Size.loop (Value >>> (63 : Nat)) Value

namespace LEB128

/-! ## Sizes -/

theorem length_encodeULEB128 (Value : Nat) :
    (encodeULEB128 Value).length = getULEB128Size Value := by
  induction Value using Nat.strongRecOn with
  | ind Value ih =>
    rw [encodeULEB128, getULEB128Size]
    by_cases more : Value / 128 ≠ 0
    · rw [if_pos more, if_pos more, length_cons, ih _ (by omega)]
    · rw [if_neg more, if_neg more, length_singleton]

theorem sign_bit (b : Nat) (group : b < 128) :
    ((BitVec.ofInt 32 b ^^^ BitVec.ofInt 32 0) &&& 0x40 ≠ 0 ↔ 64 <= b) ∧
      ((BitVec.ofInt 32 b ^^^ BitVec.ofInt 32 (-1)) &&& 0x40 ≠ 0 ↔ b < 64) := by
  have all : ∀ b < 128, ((BitVec.ofInt 32 (b : Nat) ^^^ BitVec.ofInt 32 0) &&& 0x40 ≠ 0 ↔ 64 <= b) ∧
      ((BitVec.ofInt 32 b ^^^ BitVec.ofInt 32 (-1)) &&& 0x40 ≠ 0 ↔ b < 64) := by decide +kernel
  exact all b group

theorem getSLEB128Size_loop (Sign Value : Int)
    (sign : Sign = 0 ∧ 0 <= Value ∨ Sign = -1 ∧ Value < 0) :
    getSLEB128Size.loop Sign Value = some (encodeSLEB128 Value).length := by
  induction size : Value.natAbs using Nat.strongRecOn generalizing Value with
  | ind n ih =>
    have group : ((Value % 128).toNat : Int) = Value % 128 := by omega
    have below : (Value % 128).toNat < 128 := by omega
    have more : (Value / 128 ≠ Sign ∨
          (BitVec.ofInt 32 (Value % 128) ^^^ BitVec.ofInt 32 Sign) &&& 0x40 ≠ 0) ↔
        ¬((Value / 128 = 0 ∧ (Value % 128).toNat < 64) ∨
          (Value / 128 = -1 ∧ 64 <= (Value % 128).toNat)) := by
      rw [<- group]
      rcases sign with ⟨rfl, nonnegative⟩ | ⟨rfl, negative⟩
      · rw [(sign_bit _ below).1]
        omega
      · rw [(sign_bit _ below).2]
        omega
    rw [getSLEB128Size.loop, encodeSLEB128]
    by_cases last : (Value / 128 = 0 ∧ (Value % 128).toNat < 64) ∨
        (Value / 128 = -1 ∧ 64 <= (Value % 128).toNat)
    · rw [if_neg (not_not_intro last ∘ more.mp), if_pos last, length_singleton]
    · rw [if_pos (more.mpr last), if_neg last, if_neg (by omega), length_cons,
        ih _ (by omega) (Value / 128) (by omega) rfl, Option.map_some]

/-! ## Padding -/

theorem encodeULEB128Padded_zero (Value : Nat) :
    encodeULEB128Padded Value 0 = encodeULEB128 Value := by
  rw [encodeULEB128Padded, if_neg (not_not_intro rfl), append_nil]
  induction Value using Nat.strongRecOn with
  | ind Value ih =>
    rw [encodeULEB128Padded.groups, encodeULEB128]
    by_cases more : Value / 128 ≠ 0
    · rw [if_pos more, if_pos more, ih _ (by omega)]
    · rw [if_neg more, if_neg more, if_neg (not_not_intro rfl)]

theorem padding_spec (n : Nat) :
    Terminated (replicate n 0x80 ++ [0x00]) ∧ groups (replicate n 0x80 ++ [0x00]) = 0 := by
  induction n with
  | zero => exact ⟨show (0x00 : UInt8).toNat < 128 by decide, rfl⟩
  | succ n ih =>
    rw [replicate_succ, cons_append]
    refine ⟨ih.1.cons (by decide), ?_⟩
    rw [groups, ih.2]
    rfl

theorem encodeULEB128Padded_spec (Value Padding : Nat) :
    Terminated (encodeULEB128Padded Value Padding) ∧
      groups (encodeULEB128Padded Value Padding) = Value ∧
      (encodeULEB128Padded Value Padding).length = getULEB128Size Value + Padding := by
  by_cases padded : Padding ≠ 0
  · rw [encodeULEB128Padded, if_pos padded]
    rcases padding_spec (Padding - 1) with ⟨terminated, zero⟩
    have added : (replicate (Padding - 1) (0x80 : UInt8) ++ [0x00]).length = Padding := by
      rw [length_append, length_replicate, length_singleton]
      omega
    generalize replicate (Padding - 1) (0x80 : UInt8) ++ [0x00] = zeros at *
    induction Value using Nat.strongRecOn with
    | ind Value ih =>
      have byte := toNat_ofNat_of_lt (show Value % 128 + 128 < 256 by omega)
      rw [encodeULEB128Padded.groups, getULEB128Size]
      by_cases more : Value / 128 ≠ 0
      · rcases ih (Value / 128) (by omega) with ⟨terminated', value, length⟩
        rw [if_pos more, if_pos more, cons_append]
        refine ⟨terminated'.cons (by omega), ?_, ?_⟩
        · rw [groups, value, byte]
          omega
        · rw [length_cons, length]
          omega
      · rw [if_neg more, if_neg more, if_pos padded, cons_append, nil_append]
        refine ⟨terminated.cons (by omega), ?_, ?_⟩
        · rw [groups, zero, byte]
          omega
        · rw [length_cons, added, add_comm]
  · rw [not_not] at padded
    rw [padded, encodeULEB128Padded_zero, length_encodeULEB128]
    exact ⟨(encodeULEB128_spec Value).1, (encodeULEB128_spec Value).2, rfl⟩

/-! ## Inverse -/

theorem decodeULEB128_encode (Value Padding : Nat) (rest : List UInt8) :
    decodeULEB128 (encodeULEB128Padded Value Padding ++ rest) =
      if getULEB128Size Value + Padding <= 10 then some (UInt64.ofNat Value, rest) else none := by
  rcases encodeULEB128Padded_spec Value Padding with ⟨terminated, value, length⟩
  rw [decodeULEB128_eq, split_append terminated]
  dsimp only [Option.bind_some]
  rw [length, value]

theorem le_groups_of_negative {bytes : List UInt8} (last : negative bytes = true) :
    64 * 128 ^ (bytes.length - 1) <= groups bytes := by
  induction bytes with
  | nil => exact absurd last Bool.false_ne_true
  | cons byte bytes ih =>
    cases bytes with
    | nil =>
      have large : 64 <= byte.toNat % 128 := of_decide_eq_true last
      rw [groups, groups]
      simpa using large
    | cons second bytes =>
      have rest := ih last
      rw [groups, length_cons, Nat.add_sub_cancel, length_cons, pow_succ]
      rw [length_cons, Nat.add_sub_cancel] at rest
      omega

/-- Four groups, or five of a number that an `int` can hold. -/
theorem encodeSLEB128_fits_iff (Value : Int) :
    ((encodeSLEB128 Value).length <= 5 ∧ groups (encodeSLEB128 Value) < 2 ^ 31) ↔
      -2 ^ 27 <= Value ∧ Value < 2 ^ 31 := by
  rcases encodeSLEB128_spec Value with ⟨terminated, value⟩
  have below := groups_lt (encodeSLEB128 Value)
  rw [pow_mul, show 2 ^ 7 = 128 from rfl] at below
  rw [signed] at value
  cases last : negative (encodeSLEB128 Value) with
  | false =>
    rw [last, if_neg Bool.false_ne_true, sub_zero] at value
    constructor
    · intro fits
      omega
    · intro range
      exact ⟨length_encodeSLEB128_le 4 (by omega) (by omega), by omega⟩
  | true =>
    have large := le_groups_of_negative last
    rw [last, if_pos rfl] at value
    have some : (encodeSLEB128 Value).length ≠ 0 := fun empty =>
      terminated.ne_nil (length_eq_zero_iff.mp empty)
    have width : (128 : Int) ^ (encodeSLEB128 Value).length =
        ((128 ^ (encodeSLEB128 Value).length : Nat) : Int) := by push_cast; rfl
    rw [width] at value
    constructor
    · rintro ⟨short, small⟩
      generalize (encodeSLEB128 Value).length = n at *
      interval_cases n <;> omega
    · rintro ⟨low, high⟩
      have short := length_encodeSLEB128_le 3 (show -(64 * 128 ^ 3) <= Value by omega)
        (show Value < 64 * 128 ^ 3 by omega)
      generalize (encodeSLEB128 Value).length = n at *
      refine ⟨by omega, ?_⟩
      interval_cases n <;> omega

theorem decodeSLEB128_encode (Value : Int) (rest : List UInt8) :
    decodeSLEB128 (encodeSLEB128 Value ++ rest) =
      if -2 ^ 27 <= Value ∧ Value < 2 ^ 31 then some (Value, rest) else none := by
  rcases encodeSLEB128_spec Value with ⟨terminated, value⟩
  rw [decodeSLEB128_eq, split_append terminated]
  dsimp only [Option.bind_some]
  rw [value]
  exact if_congr (encodeSLEB128_fits_iff Value) rfl rfl

end LEB128

/-- Reading a signed number gives back what was written exactly if the groups can be shifted as an
`int`, and reading an unsigned one if it has at most ten groups with its padding.  The sizes are
those of what is written. -/
theorem leb128_inverse_iff (Signed : Int64) (Unsigned : UInt64) (Padding : UInt32) :
    ((∀ rest, decodeSLEB128 (encodeSLEB128 Signed.toInt ++ rest) = some (Signed.toInt, rest)) ↔
      -2 ^ 27 <= Signed.toInt ∧ Signed.toInt < 2 ^ 31) ∧
    ((∀ rest, decodeULEB128 (encodeULEB128Padded Unsigned.toNat Padding.toNat ++ rest) =
        some (Unsigned, rest)) ↔
      getULEB128Size Unsigned.toNat + Padding.toNat <= 10) ∧
    getSLEB128Size Signed.toInt = some (encodeSLEB128 Signed.toInt).length ∧
    getULEB128Size Unsigned.toNat = (encodeULEB128Padded Unsigned.toNat 0).length := by
  refine ⟨?_, ?_, ?_, ?_⟩
  · simp only [decodeSLEB128_encode]
    constructor
    · intro reads
      by_contra outside
      have read := reads []
      rw [if_neg outside] at read
      cases read
    · intro inside rest
      rw [if_pos inside]
  · simp only [decodeULEB128_encode, UInt64.ofNat_toNat]
    constructor
    · intro reads
      by_contra outside
      have read := reads []
      rw [if_neg outside] at read
      cases read
    · intro inside rest
      rw [if_pos inside]
  · have low := Signed.le_toInt
    have high := Signed.toInt_lt
    refine getSLEB128Size_loop _ _ ?_
    rw [Int.shiftRight_eq_div_pow]
    omega
  · rw [encodeULEB128Padded_zero, length_encodeULEB128]

/-- The fifth group of `2 ^ 31` is eight, and `8 << 28` is not an `int`. -/
theorem leb128_not_inverse :
    decodeSLEB128 (encodeSLEB128 (Int64.ofInt (2 ^ 31)).toInt ++ []) ≠
      some ((Int64.ofInt (2 ^ 31)).toInt, []) := by
  have value : (Int64.ofInt (2 ^ 31)).toInt = 2 ^ 31 := by decide
  rw [value, decodeSLEB128_encode, if_neg (by decide)]
  exact nofun

end LlvmProject
