import LlvmProject.Object.MachORebaseEntry

namespace LlvmProject

open Option Nat

namespace MachO

/-!
# Bind tables

The regular table, the lazy one, whose entries stand alone with an end between
them, and the weak one, where a symbol that is defined elsewhere without being
weak makes an item of its own.
-/

/-! ## Signed operands -/

/-- A signed number behind an opcode. -/
structure SignedOperand where
  value : Int
  fits : Bool
  rest : List UInt8

/-- More than five bytes cannot be decoded, nor groups that do not fit an `int`. -/
def SignedOperand.sleb (p : List UInt8) : Option SignedOperand :=
  (LEB128.split p).map fun (bytes, rest) =>
    ⟨LEB128.signed bytes, bytes.length <= 5 ∧ LEB128.groups bytes < 2 ^ 31, rest⟩

theorem SignedOperand.sleb_rest {p : List UInt8} {n : SignedOperand} (read : sleb p = some n) :
    n.rest.length <= p.length := by
  rw [sleb, map_eq_some_iff] at read
  rcases read with ⟨⟨bytes, rest⟩, found, rfl⟩
  rw [(LEB128.split_eq_some.mp found).1, List.length_append]
  exact le_add_left _ _

/-! ## The iterator -/

inductive BindOpcode where
  | DONE
  | SET_DYLIB_ORDINAL_IMM
  | SET_DYLIB_ORDINAL_ULEB
  | SET_DYLIB_SPECIAL_IMM
  | SET_SYMBOL_TRAILING_FLAGS_IMM
  | SET_TYPE_IMM
  | SET_ADDEND_SLEB
  | SET_SEGMENT_AND_OFFSET_ULEB
  | ADD_ADDR_ULEB
  | DO_BIND
  | DO_BIND_ADD_ADDR_ULEB
  | DO_BIND_ADD_ADDR_IMM_SCALED
  | DO_BIND_ULEB_TIMES_SKIPPING_ULEB

def BIND_OPCODE_MASK : UInt8 := 0xF0
def BIND_IMMEDIATE_MASK : UInt8 := 0x0F
def BIND_SYMBOL_FLAGS_NON_WEAK_DEFINITION : UInt8 := 0x8

def BindOpcode.ofByte : UInt8 -> Option BindOpcode
  | 0x00 => some DONE
  | 0x10 => some SET_DYLIB_ORDINAL_IMM
  | 0x20 => some SET_DYLIB_ORDINAL_ULEB
  | 0x30 => some SET_DYLIB_SPECIAL_IMM
  | 0x40 => some SET_SYMBOL_TRAILING_FLAGS_IMM
  | 0x50 => some SET_TYPE_IMM
  | 0x60 => some SET_ADDEND_SLEB
  | 0x70 => some SET_SEGMENT_AND_OFFSET_ULEB
  | 0x80 => some ADD_ADDR_ULEB
  | 0x90 => some DO_BIND
  | 0xA0 => some DO_BIND_ADD_ADDR_ULEB
  | 0xB0 => some DO_BIND_ADD_ADDR_IMM_SCALED
  | 0xC0 => some DO_BIND_ULEB_TIMES_SKIPPING_ULEB
  | _ => none

/-- `MachOBindEntry::Kind`. -/
inductive Kind where
  | Regular
  | Lazy
  | Weak
  deriving DecidableEq

/-- The numbers of type `int` and `int64_t` are their values. -/
structure BindFields where
  SymbolName : List UInt8
  Ordinal : Int
  Flags : UInt32
  Addend : Int
  BindType : UInt8
  deriving DecidableEq

abbrev MachOBindEntry := OpcodeEntry BindFields

namespace MachOBindEntry

/-- The symbol at the pointer, and the pointer behind its end. -/
def symbol : List UInt8 -> Option (List UInt8 × List UInt8)
  | [] => none
  | c :: Ptr => if c = 0 then some ([], Ptr) else (symbol Ptr).map fun (s, p) => (c :: s, p)

def readSLEB128 (e : MachOBindEntry) : Option (Int × MachOBindEntry) :=
  (decodeSLEB128 e.Ptr).map fun (Result, Ptr) => (Result, { e with Ptr })

/-- `if (TableKind == Kind::Lazy) Malformed = true`. -/
def malformedIfLazy (TableKind : Kind) (e : MachOBindEntry) : MachOBindEntry :=
  if TableKind = .Lazy then { e with Malformed := true } else e

/-- The switch of `moveNext`. -/
def step (TableKind : Kind) (e : MachOBindEntry) (Byte : UInt8) :
    Option (MachOBindEntry × Bool) :=
  let ImmValue := Byte &&& BIND_IMMEDIATE_MASK
  match BindOpcode.ofByte (Byte &&& BIND_OPCODE_MASK) with
  | some .DONE =>
    -- lazy bindings have a DONE between entries, which is ignored but behind the last one
    if TableKind = .Lazy ∧ e.Ptr.any (· ≠ 0) then some (e, true) else some (e.moveToEnd, false)
  | some .SET_DYLIB_ORDINAL_IMM =>
    some ({ e with fields := { e.fields with Ordinal := ImmValue.toNat } }, true)
  | some .SET_DYLIB_ORDINAL_ULEB =>
    e.readULEB128.map fun (Result, e) =>
      ({ e with fields := { e.fields with Ordinal := Result.toUInt32.toInt32.toInt } }, true)
  | some .SET_DYLIB_SPECIAL_IMM =>
    if ImmValue ≠ 0 then
      let SignExtended := (BIND_OPCODE_MASK ||| ImmValue).toInt8
      some ({ e with fields := { e.fields with Ordinal := SignExtended.toInt } }, true)
    else some ({ e with fields := { e.fields with Ordinal := 0 } }, true)
  | some .SET_SYMBOL_TRAILING_FLAGS_IMM =>
    (symbol e.Ptr).map fun (SymbolName, Ptr) =>
      let e := { e with Ptr, fields := { e.fields with Flags := ImmValue.toUInt32, SymbolName } }
      (e, !(TableKind = .Weak ∧ ImmValue &&& BIND_SYMBOL_FLAGS_NON_WEAK_DEFINITION ≠ 0))
  | some .SET_TYPE_IMM => some ({ e with fields := { e.fields with BindType := ImmValue } }, true)
  | some .SET_ADDEND_SLEB =>
    (readSLEB128 e).map fun (Result, e) =>
      (malformedIfLazy TableKind { e with fields := { e.fields with Addend := Result } }, true)
  | some .SET_SEGMENT_AND_OFFSET_ULEB =>
    ({ e with SegmentIndex := ImmValue.toUInt32 } : MachOBindEntry).readULEB128.map
      fun (Result, e) => ({ e with SegmentOffset := Result }, true)
  | some .ADD_ADDR_ULEB =>
    e.readULEB128.map fun (Result, e) =>
      ({ e with SegmentOffset := e.SegmentOffset + Result }, true)
  | some .DO_BIND =>
    some ({ e with
      AdvanceAmount := e.PointerSize.toUInt64
      RemainingLoopCount := 0 }, false)
  | some .DO_BIND_ADD_ADDR_ULEB =>
    e.readULEB128.map fun (Result, e) =>
      (malformedIfLazy TableKind { e with
        AdvanceAmount := Result + e.PointerSize.toUInt64
        RemainingLoopCount := 0 }, false)
  | some .DO_BIND_ADD_ADDR_IMM_SCALED =>
    some (malformedIfLazy TableKind { e with
      AdvanceAmount := ImmValue.toUInt64 * e.PointerSize.toUInt64 + e.PointerSize.toUInt64
      RemainingLoopCount := 0 }, false)
  | some .DO_BIND_ULEB_TIMES_SKIPPING_ULEB =>
    e.readULEB128.bind fun (Result, e) =>
      ({ e with RemainingLoopCount := Result - 1 } : MachOBindEntry).readULEB128.map
        fun (Result, e) =>
          (malformedIfLazy TableKind { e with
            AdvanceAmount := Result + e.PointerSize.toUInt64 }, false)
  | none => some ({ e with Malformed := true }, true)

/-! ## What the switch reads -/

variable {e e' : MachOBindEntry} {TableKind : Kind} {PointerSize : UInt8}

theorem readSLEB128_eq (e : MachOBindEntry) :
    readSLEB128 e = (SignedOperand.sleb e.Ptr).bind fun n =>
      if n.fits then some (n.value, { e with Ptr := n.rest }) else none := by
  rw [readSLEB128, LEB128.decodeSLEB128_eq, SignedOperand.sleb]
  cases LEB128.split e.Ptr with
  | none => rfl
  | some found =>
    rcases found with ⟨bytes, rest⟩
    rw [bind_some, map_some, bind_some]
    dsimp only
    by_cases fits : bytes.length <= 5 ∧ LEB128.groups bytes < 2 ^ 31
    · rw [if_pos fits, if_pos (decide_eq_true fits)]
      rfl
    · rw [if_neg fits, if_neg (by rw [decide_eq_true_iff]; exact fits)]
      rfl

theorem symbol_rest {p s rest : List UInt8} (read : symbol p = some (s, rest)) :
    rest.length <= p.length := by
  induction p generalizing s with
  | nil => exact nomatch read
  | cons c p ih =>
    rw [symbol] at read
    split at read
    · cases read
      exact le_succ _
    · rcases map_eq_some_iff.mp read with ⟨⟨s', rest'⟩, found, same⟩
      cases same
      exact (ih found).trans (le_succ _)

theorem malformedIfLazy_Ptr : (malformedIfLazy TableKind e).Ptr = e.Ptr := by
  rw [malformedIfLazy]
  split <;> rfl

theorem malformedIfLazy_Done : (malformedIfLazy TableKind e).Done = e.Done := by
  rw [malformedIfLazy]
  split <;> rfl

theorem step_advances (TableKind : Kind) (e : MachOBindEntry) (Byte : UInt8) (e' : MachOBindEntry)
    (more : Bool) (ran : step TableKind e Byte = some (e', more)) :
    e'.Ptr.length <= e.Ptr.length := by
  rw [step] at ran
  dsimp only at ran
  cases opcode : BindOpcode.ofByte (Byte &&& BIND_OPCODE_MASK) with
  | none =>
    rw [opcode] at ran
    cases ran
    exact le_refl _
  | some opcode' =>
    rw [opcode] at ran
    cases opcode' with
    | DONE =>
      dsimp only at ran
      split at ran
      · cases ran; exact le_refl _
      · cases ran; exact zero_le _
    | SET_DYLIB_SPECIAL_IMM =>
      dsimp only at ran
      split at ran
      · cases ran; exact le_refl _
      · cases ran; exact le_refl _
    | SET_DYLIB_ORDINAL_IMM | SET_TYPE_IMM | DO_BIND =>
      cases ran
      exact le_refl _
    | DO_BIND_ADD_ADDR_IMM_SCALED =>
      cases ran
      rw [malformedIfLazy_Ptr]
    | SET_SYMBOL_TRAILING_FLAGS_IMM =>
      rcases map_eq_some_iff.mp ran with ⟨⟨s, rest⟩, found, same⟩
      cases same
      exact symbol_rest found
    | SET_ADDEND_SLEB =>
      rcases map_eq_some_iff.mp ran with ⟨⟨Result, e''⟩, found, same⟩
      cases same
      rw [malformedIfLazy_Ptr]
      rw [readSLEB128_eq, bind_eq_some_iff] at found
      rcases found with ⟨n, read, found⟩
      split at found
      · cases found
        exact SignedOperand.sleb_rest read
      · exact nomatch found
    | SET_DYLIB_ORDINAL_ULEB | SET_SEGMENT_AND_OFFSET_ULEB | ADD_ADDR_ULEB =>
      rcases map_eq_some_iff.mp ran with ⟨⟨Result, e''⟩, read, same⟩
      cases same
      have shorter := OpcodeEntry.readULEB128_advances read
      exact shorter
    | DO_BIND_ADD_ADDR_ULEB =>
      rcases map_eq_some_iff.mp ran with ⟨⟨Result, e''⟩, read, same⟩
      cases same
      rw [malformedIfLazy_Ptr]
      have shorter := OpcodeEntry.readULEB128_advances read
      exact shorter
    | DO_BIND_ULEB_TIMES_SKIPPING_ULEB =>
      rcases bind_eq_some_iff.mp ran with ⟨⟨Count, counted⟩, first, ran⟩
      rcases map_eq_some_iff.mp ran with ⟨⟨Result, e''⟩, second, same⟩
      cases same
      rw [malformedIfLazy_Ptr]
      have shorter := OpcodeEntry.readULEB128_advances first
      have shorter' := OpcodeEntry.readULEB128_advances second
      exact shorter'.trans shorter

def opcodes (TableKind : Kind) : OpcodeEntry.Opcodes BindFields :=
  ⟨step TableKind, step_advances TableKind⟩

/-- `MachOBindEntry(Bytes, is64Bit, BK)`. -/
def new (Bytes : List UInt8) (is64Bit : Bool) : MachOBindEntry :=
  OpcodeEntry.new Bytes is64Bit
    { SymbolName := [], Ordinal := 0, Flags := 0, Addend := 0, BindType := 0 }

def moveToFirst (TableKind : Kind) (Opcodes : List UInt8) (e : MachOBindEntry) :
    Option MachOBindEntry :=
  OpcodeEntry.moveToFirst (opcodes TableKind) Opcodes e

def moveNext (TableKind : Kind) (e : MachOBindEntry) : Option MachOBindEntry :=
  OpcodeEntry.moveNext (opcodes TableKind) e

/-! ## The meaning of the opcodes -/

/-- The operations of a bind table for pointers of the given size. -/
def read (TableKind : Kind) (PointerSize : Nat) (Byte : UInt8) (p : List UInt8) :
    Option (Reading BindFields) :=
  let imm := Byte &&& BIND_IMMEDIATE_MASK
  match BindOpcode.ofByte (Byte &&& BIND_OPCODE_MASK) with
  | some .DONE =>
    if TableKind = .Lazy ∧ p.any (· ≠ 0) then some ⟨.set id, true, p⟩ else some ⟨.done, true, p⟩
  | some .SET_DYLIB_ORDINAL_IMM =>
    some ⟨.set fun fields => { fields with Ordinal := imm.toNat }, true, p⟩
  | some .SET_DYLIB_ORDINAL_ULEB =>
    (Operand.uleb p).map fun n =>
      ⟨.set fun fields => { fields with Ordinal := (n.value : Int).bmod (2 ^ 32) }, n.fits, n.rest⟩
  | some .SET_DYLIB_SPECIAL_IMM =>
    let ordinal : Int := if imm = 0 then 0 else imm.toNat - 16
    some ⟨.set fun fields => { fields with Ordinal := ordinal }, true, p⟩
  | some .SET_SYMBOL_TRAILING_FLAGS_IMM =>
    (symbol p).map fun (SymbolName, rest) =>
      let update := fun fields : BindFields => { fields with Flags := imm.toUInt32, SymbolName }
      if TableKind = .Weak ∧ imm &&& BIND_SYMBOL_FLAGS_NON_WEAK_DEFINITION ≠ 0 then
        ⟨.mark update, true, rest⟩
      else ⟨.set update, true, rest⟩
  | some .SET_TYPE_IMM => some ⟨.set fun fields => { fields with BindType := imm }, true, p⟩
  | some .SET_ADDEND_SLEB =>
    if TableKind = .Lazy then none
    else (SignedOperand.sleb p).map fun n =>
      ⟨.set fun fields => { fields with Addend := n.value }, n.fits, n.rest⟩
  | some .SET_SEGMENT_AND_OFFSET_ULEB =>
    (Operand.uleb p).map fun n => ⟨.seek imm.toUInt32 n.value, n.fits, n.rest⟩
  | some .ADD_ADDR_ULEB => (Operand.uleb p).map fun n => ⟨.add n.value, n.fits, n.rest⟩
  | some .DO_BIND => some ⟨.times 1 PointerSize, true, p⟩
  | some .DO_BIND_ADD_ADDR_ULEB =>
    if TableKind = .Lazy then none
    else (Operand.uleb p).map fun n => ⟨.times 1 (n.value + PointerSize), n.fits, n.rest⟩
  | some .DO_BIND_ADD_ADDR_IMM_SCALED =>
    if TableKind = .Lazy then none
    else some ⟨.times 1 (imm.toNat * PointerSize + PointerSize), true, p⟩
  | some .DO_BIND_ULEB_TIMES_SKIPPING_ULEB =>
    if TableKind = .Lazy then none
    else (Operand.count p).bind fun n => (Operand.uleb n.rest).map fun skip =>
      ⟨.times n.value (skip.value + PointerSize), n.fits && skip.fits, skip.rest⟩
  | none => none

/-- An operation of a single reading reports an item at most 2^64 - 1 times, and the reading
does not go back. -/
theorem read_spec {TableKind : Kind} {PointerSize : Nat} {Byte : UInt8} {p : List UInt8}
    {reading : Reading BindFields} (reads : read TableKind PointerSize Byte p = some reading) :
    reading.rest.length <= p.length ∧
      ∀ count dist, reading.operation = .times count dist -> count < 2 ^ 64 := by
  rw [read] at reads
  dsimp only at reads
  cases opcode : BindOpcode.ofByte (Byte &&& BIND_OPCODE_MASK) with
  | none =>
    rw [opcode] at reads
    exact nomatch reads
  | some opcode' =>
    rw [opcode] at reads
    cases opcode' with
    | DONE =>
      dsimp only at reads
      split at reads
      · cases reads; exact ⟨le_refl _, nofun⟩
      · cases reads; exact ⟨le_refl _, nofun⟩
    | SET_DYLIB_ORDINAL_IMM | SET_DYLIB_SPECIAL_IMM | SET_TYPE_IMM =>
      cases reads
      exact ⟨le_refl _, nofun⟩
    | SET_DYLIB_ORDINAL_ULEB | SET_SEGMENT_AND_OFFSET_ULEB | ADD_ADDR_ULEB =>
      rcases map_eq_some_iff.mp reads with ⟨n, found, rfl⟩
      exact ⟨Operand.uleb_rest found, nofun⟩
    | SET_SYMBOL_TRAILING_FLAGS_IMM =>
      rcases map_eq_some_iff.mp reads with ⟨⟨s, rest⟩, found, rfl⟩
      dsimp only
      split
      · exact ⟨symbol_rest found, nofun⟩
      · exact ⟨symbol_rest found, nofun⟩
    | SET_ADDEND_SLEB =>
      rcases ite_none_left_eq_some.mp reads with ⟨-, reads⟩
      rcases map_eq_some_iff.mp reads with ⟨n, found, rfl⟩
      exact ⟨SignedOperand.sleb_rest found, nofun⟩
    | DO_BIND =>
      cases reads
      refine ⟨le_refl _, fun count dist same => ?_⟩
      cases same
      decide
    | DO_BIND_ADD_ADDR_ULEB =>
      rcases ite_none_left_eq_some.mp reads with ⟨-, reads⟩
      rcases map_eq_some_iff.mp reads with ⟨n, found, rfl⟩
      refine ⟨Operand.uleb_rest found, fun count dist same => ?_⟩
      cases same
      decide
    | DO_BIND_ADD_ADDR_IMM_SCALED =>
      rcases ite_none_left_eq_some.mp reads with ⟨-, reads⟩
      cases reads
      refine ⟨le_refl _, fun count dist same => ?_⟩
      cases same
      decide
    | DO_BIND_ULEB_TIMES_SKIPPING_ULEB =>
      rcases ite_none_left_eq_some.mp reads with ⟨-, reads⟩
      rcases bind_eq_some_iff.mp reads with ⟨n, found, reads⟩
      rcases map_eq_some_iff.mp reads with ⟨skip, found', rfl⟩
      rcases Operand.count_eq_some.mp found with ⟨read, small⟩
      refine ⟨(Operand.uleb_rest found').trans (Operand.uleb_rest read), fun count dist same => ?_⟩
      cases same
      exact small

def format (TableKind : Kind) (PointerSize : UInt8) : Format BindFields :=
  ⟨read TableKind PointerSize.toNat, fun _ _ _ reads => (read_spec reads).1⟩

/-! ## The switch runs the operations -/

theorem special_ordinal (Byte : UInt8) (some : Byte &&& BIND_IMMEDIATE_MASK ≠ 0) :
    (BIND_OPCODE_MASK ||| (Byte &&& BIND_IMMEDIATE_MASK)).toInt8.toInt =
      ((Byte &&& BIND_IMMEDIATE_MASK).toNat : Int) - 16 := by
  have all : ∀ n : Fin 256, UInt8.ofNat n.val &&& BIND_IMMEDIATE_MASK ≠ 0 ->
      (BIND_OPCODE_MASK ||| (UInt8.ofNat n.val &&& BIND_IMMEDIATE_MASK)).toInt8.toInt =
        ((UInt8.ofNat n.val &&& BIND_IMMEDIATE_MASK).toNat : Int) - 16 := by
    decide +kernel
  have here := all ⟨Byte.toNat, Byte.toNat_lt⟩
  rw [UInt8.ofNat_toNat] at here
  exact here some

theorem malformedIfLazy_eq (notLazy : TableKind ≠ .Lazy) : malformedIfLazy TableKind e = e :=
  if_neg notLazy

theorem step_run {Byte : UInt8} {reading : Reading BindFields} (size : e.PointerSize = PointerSize)
    (reads : read TableKind PointerSize.toNat Byte e.Ptr = some reading) :
    step TableKind e Byte =
      if reading.fits then some (({ e with Ptr := reading.rest } : MachOBindEntry).run
        reading.operation) else none := by
  subst size
  rw [step]
  rw [read] at reads
  dsimp only at reads ⊢
  cases opcode : BindOpcode.ofByte (Byte &&& BIND_OPCODE_MASK) with
  | none =>
    rw [opcode] at reads
    exact nomatch reads
  | some opcode' =>
    rw [opcode] at reads
    cases opcode' with
    | DONE =>
      dsimp only at reads ⊢
      split at reads
      · rename_i more
        cases reads
        exact if_pos more
      · rename_i last
        cases reads
        exact if_neg last
    | SET_DYLIB_ORDINAL_IMM | SET_TYPE_IMM => cases reads; rfl
    | SET_DYLIB_SPECIAL_IMM =>
      cases reads
      dsimp only
      by_cases zero : Byte &&& BIND_IMMEDIATE_MASK = 0
      · rw [if_neg (not_not_intro zero)]
        simp [OpcodeEntry.run, zero]
      · rw [if_pos zero, special_ordinal Byte zero]
        simp [OpcodeEntry.run, zero]
    | SET_DYLIB_ORDINAL_ULEB =>
      rcases map_eq_some_iff.mp reads with ⟨n, found, rfl⟩
      dsimp only
      rw [OpcodeEntry.readULEB128_eq, found, bind_some]
      cases n.fits with
      | false => rfl
      | true => simp [OpcodeEntry.run]
    | SET_SYMBOL_TRAILING_FLAGS_IMM =>
      rcases map_eq_some_iff.mp reads with ⟨⟨s, rest⟩, found, rfl⟩
      dsimp only
      rw [found, map_some]
      split
      · rename_i marks
        simp [OpcodeEntry.run, marks]
      · rename_i marks
        simp [OpcodeEntry.run, marks]
    | SET_ADDEND_SLEB =>
      rcases ite_none_left_eq_some.mp reads with ⟨notLazy, reads⟩
      rcases map_eq_some_iff.mp reads with ⟨n, found, rfl⟩
      dsimp only
      rw [readSLEB128_eq, found, bind_some]
      cases n.fits with
      | false => rfl
      | true => simp [OpcodeEntry.run, malformedIfLazy_eq notLazy]
    | SET_SEGMENT_AND_OFFSET_ULEB =>
      rcases map_eq_some_iff.mp reads with ⟨n, found, rfl⟩
      dsimp only
      rw [OpcodeEntry.readULEB128_eq]
      dsimp only
      rw [found, bind_some]
      cases n.fits <;> rfl
    | ADD_ADDR_ULEB =>
      rcases map_eq_some_iff.mp reads with ⟨n, found, rfl⟩
      dsimp only
      rw [OpcodeEntry.readULEB128_eq, found, bind_some]
      cases n.fits <;> rfl
    | DO_BIND =>
      cases reads
      simp [OpcodeEntry.run]
    | DO_BIND_ADD_ADDR_ULEB =>
      rcases ite_none_left_eq_some.mp reads with ⟨notLazy, reads⟩
      rcases map_eq_some_iff.mp reads with ⟨n, found, rfl⟩
      dsimp only
      rw [OpcodeEntry.readULEB128_eq, found, bind_some]
      cases n.fits with
      | false => rfl
      | true => simp [OpcodeEntry.run, malformedIfLazy_eq notLazy, UInt64.ofNat_add]
    | DO_BIND_ADD_ADDR_IMM_SCALED =>
      rcases ite_none_left_eq_some.mp reads with ⟨notLazy, reads⟩
      cases reads
      simp [OpcodeEntry.run, malformedIfLazy_eq notLazy, UInt64.ofNat_add, UInt64.ofNat_mul]
    | DO_BIND_ULEB_TIMES_SKIPPING_ULEB =>
      rcases ite_none_left_eq_some.mp reads with ⟨notLazy, reads⟩
      rcases bind_eq_some_iff.mp reads with ⟨n, found, reads⟩
      rcases map_eq_some_iff.mp reads with ⟨skip, found', rfl⟩
      dsimp only
      rw [OpcodeEntry.readULEB128_eq, (Operand.count_eq_some.mp found).1, bind_some]
      cases n.fits with
      | false => rfl
      | true =>
        rw [if_pos rfl, bind_some]
        dsimp only
        rw [OpcodeEntry.readULEB128_eq]
        dsimp only
        rw [found', bind_some]
        cases skip.fits with
        | false => rfl
        | true => simp [OpcodeEntry.run, malformedIfLazy_eq notLazy, UInt64.ofNat_add]

theorem step_bogus {Byte : UInt8} {more : Bool} (missing : read TableKind PointerSize.toNat Byte
    e.Ptr = none) (ran : step TableKind e Byte = some (e', more)) :
    e'.Done = e.Done ∧ (more = true -> e'.Malformed = true) := by
  rw [step] at ran
  rw [read] at missing
  dsimp only at ran missing
  cases opcode : BindOpcode.ofByte (Byte &&& BIND_OPCODE_MASK) with
  | none =>
    rw [opcode] at ran
    cases ran
    exact ⟨rfl, fun _ => rfl⟩
  | some opcode' =>
    rw [opcode] at ran missing
    cases opcode' with
    | DONE =>
      dsimp only at missing
      split at missing
      · exact nomatch missing
      · exact nomatch missing
    | SET_DYLIB_ORDINAL_IMM | SET_TYPE_IMM | DO_BIND | SET_DYLIB_SPECIAL_IMM =>
      exact nomatch missing
    | SET_DYLIB_ORDINAL_ULEB | SET_SEGMENT_AND_OFFSET_ULEB | ADD_ADDR_ULEB =>
      rcases map_eq_some_iff.mp ran with ⟨pair, found, -⟩
      rw [OpcodeEntry.readULEB128_eq] at found
      exact nomatch (congrArg (Option.bind · _) (map_eq_none_iff.mp missing)).symm.trans
        found
    | SET_SYMBOL_TRAILING_FLAGS_IMM =>
      rcases map_eq_some_iff.mp ran with ⟨pair, found, -⟩
      exact nomatch (map_eq_none_iff.mp missing).symm.trans found
    | SET_ADDEND_SLEB =>
      rcases map_eq_some_iff.mp ran with ⟨⟨Result, e''⟩, found, same⟩
      dsimp only at missing
      cases same
      split at missing
      · rename_i isLazy
        rcases map_eq_some_iff.mp found with ⟨pair, -, same⟩
        cases same
        exact ⟨malformedIfLazy_Done, fun _ => by rw [malformedIfLazy, if_pos isLazy]⟩
      · rw [readSLEB128_eq, map_eq_none_iff.mp missing] at found
        exact nomatch found
    | DO_BIND_ADD_ADDR_ULEB =>
      rcases map_eq_some_iff.mp ran with ⟨⟨Result, e''⟩, found, same⟩
      cases same
      have done := OpcodeEntry.readULEB128_done found
      exact ⟨malformedIfLazy_Done.trans done, nofun⟩
    | DO_BIND_ADD_ADDR_IMM_SCALED =>
      cases ran
      exact ⟨malformedIfLazy_Done, nofun⟩
    | DO_BIND_ULEB_TIMES_SKIPPING_ULEB =>
      rcases bind_eq_some_iff.mp ran with ⟨⟨Count, counted⟩, first, ran⟩
      rcases map_eq_some_iff.mp ran with ⟨⟨Result, e''⟩, second, same⟩
      cases same
      have done := OpcodeEntry.readULEB128_done first
      have done' := OpcodeEntry.readULEB128_done second
      exact ⟨malformedIfLazy_Done.trans (done'.trans done), nofun⟩

theorem implements (TableKind : Kind) (PointerSize : UInt8) :
    OpcodeEntry.Implements (opcodes TableKind) (format TableKind PointerSize) PointerSize where
  run := step_run
  bogus _ := step_bogus
  count reads operation := (read_spec reads).2 _ _ operation

end MachOBindEntry

/-! ## Both tables -/

/-- The iteration over a rebase table ends and reports exactly its items. -/
def RebaseExact (Opcodes : List UInt8) (is64Bit : Bool) : Prop :=
  ∃ e, MachORebaseEntry.moveToFirst Opcodes (MachORebaseEntry.new Opcodes is64Bit) = some e ∧
    e.Yields MachORebaseEntry.opcodes ((MachORebaseEntry.format (if is64Bit then 8 else 4)).items
      Opcodes ⟨0, 0, { RebaseType := 0 }⟩)

/-- The iteration over a bind table ends and reports exactly its items. -/
def BindExact (TableKind : Kind) (Opcodes : List UInt8) (is64Bit : Bool) : Prop :=
  ∃ e, MachOBindEntry.moveToFirst TableKind Opcodes (MachOBindEntry.new Opcodes is64Bit) = some e ∧
    e.Yields (MachOBindEntry.opcodes TableKind)
      ((MachOBindEntry.format TableKind (if is64Bit then 8 else 4)).items Opcodes
        ⟨0, 0, { SymbolName := [], Ordinal := 0, Flags := 0, Addend := 0, BindType := 0 }⟩)

/-- Both iterations are exact on the bytes that can be followed, and only there. -/
theorem tables_exact_iff (Opcodes : List UInt8) (is64Bit : Bool) :
    (RebaseExact Opcodes is64Bit ↔
      (MachORebaseEntry.format (if is64Bit then 8 else 4)).Followed Opcodes true 0 0) ∧
    ∀ TableKind, BindExact TableKind Opcodes is64Bit ↔
      (MachOBindEntry.format TableKind (if is64Bit then 8 else 4)).Followed Opcodes true 0 0 := by
  constructor
  · exact OpcodeEntry.moveToFirst_iff (MachORebaseEntry.implements _) Opcodes is64Bit _ rfl
  · intro TableKind
    exact OpcodeEntry.moveToFirst_iff (MachOBindEntry.implements TableKind _) Opcodes is64Bit _ rfl

/-- A loop of no entries is taken for one of 2^64. -/
theorem rebase_zero_times_not_exact : ¬ RebaseExact [0x11, 0x22, 0x10, 0x50, 0x00] true := by
  intro exact
  have iff := OpcodeEntry.moveToFirst_iff (MachORebaseEntry.implements 8)
  have followed := (iff _ true _ rfl).mp exact
  have kind : (MachORebaseEntry.format 8).read 0x11 [0x22, 0x10, 0x50, 0x00] =
      some ⟨.set fun _ => ⟨1⟩, true, [0x22, 0x10, 0x50, 0x00]⟩ := rfl
  have place : (MachORebaseEntry.format 8).read 0x22 [0x10, 0x50, 0x00] =
      some ⟨.seek 2 16, true, [0x50, 0x00]⟩ := rfl
  have loop : (MachORebaseEntry.format 8).read 0x50 [0x00] = some ⟨.times 0 8, true, [0x00]⟩ := rfl
  rw [Format.followed_some kind, Format.followed_some place, Format.followed_some loop] at followed
  exact followed.2.2.2.1.false

end MachO
end LlvmProject
