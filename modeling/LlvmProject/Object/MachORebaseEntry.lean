import LlvmProject.Object.OpcodeRuns

namespace LlvmProject

open Option

namespace MachO

/-!
# Rebase tables
-/

/-! ## Operands -/

/-- A number behind an opcode, whether it can be decoded, and the bytes behind it. -/
structure Operand where
  value : Nat
  fits : Bool
  rest : List UInt8

/-- An unsigned operand.  More than ten bytes cannot be decoded to 64 bits. -/
def Operand.uleb (p : List UInt8) : Option Operand :=
  (LEB128.split p).map fun (bytes, rest) => ⟨LEB128.groups bytes, bytes.length <= 10, rest⟩

/-- How often an item is reported, a number of 64 bits. -/
def Operand.count (p : List UInt8) : Option Operand := (uleb p).filter fun n => n.value < 2 ^ 64

theorem Operand.uleb_rest {p : List UInt8} {n : Operand} (read : uleb p = some n) :
    n.rest.length <= p.length := by
  rw [uleb, map_eq_some_iff] at read
  rcases read with ⟨⟨bytes, rest⟩, found, rfl⟩
  rw [(LEB128.split_eq_some.mp found).1, List.length_append]
  exact Nat.le_add_left _ _

theorem Operand.count_eq_some {p : List UInt8} {n : Operand} :
    count p = some n ↔ uleb p = some n ∧ n.value < 2 ^ 64 := by
  rw [count, filter_eq_some_iff, decide_eq_true_iff]

theorem OpcodeEntry.readULEB128_eq {F : Type} (e : OpcodeEntry F) :
    e.readULEB128 = (Operand.uleb e.Ptr).bind fun n =>
      if n.fits then some (.ofNat n.value, { e with Ptr := n.rest }) else none := by
  rw [readULEB128, LEB128.decodeULEB128_eq, Operand.uleb]
  cases LEB128.split e.Ptr with
  | none => rfl
  | some found =>
    rw [bind_some, map_some, bind_some]
    by_cases short : found.1.length <= 10
    · simp [short]
    · simp [short]

theorem OpcodeEntry.readULEB128_advances {F : Type} {e e' : OpcodeEntry F} {Result : UInt64}
    (read : e.readULEB128 = some (Result, e')) : e'.Ptr.length <= e.Ptr.length := by
  rw [readULEB128_eq, bind_eq_some_iff] at read
  rcases read with ⟨n, found, read⟩
  split at read
  · cases read
    exact Operand.uleb_rest found
  · exact nomatch read

theorem OpcodeEntry.readULEB128_done {F : Type} {e e' : OpcodeEntry F} {Result : UInt64}
    (read : e.readULEB128 = some (Result, e')) : e'.Done = e.Done := by
  rcases map_eq_some_iff.mp read with ⟨pair, -, same⟩
  cases same
  rfl

/-! ## The iterator -/

inductive RebaseOpcode where
  | DONE
  | SET_TYPE_IMM
  | SET_SEGMENT_AND_OFFSET_ULEB
  | ADD_ADDR_ULEB
  | ADD_ADDR_IMM_SCALED
  | DO_REBASE_IMM_TIMES
  | DO_REBASE_ULEB_TIMES
  | DO_REBASE_ADD_ADDR_ULEB
  | DO_REBASE_ULEB_TIMES_SKIPPING_ULEB

def REBASE_OPCODE_MASK : UInt8 := 0xF0
def REBASE_IMMEDIATE_MASK : UInt8 := 0x0F

def RebaseOpcode.ofByte : UInt8 -> Option RebaseOpcode
  | 0x00 => some DONE
  | 0x10 => some SET_TYPE_IMM
  | 0x20 => some SET_SEGMENT_AND_OFFSET_ULEB
  | 0x30 => some ADD_ADDR_ULEB
  | 0x40 => some ADD_ADDR_IMM_SCALED
  | 0x50 => some DO_REBASE_IMM_TIMES
  | 0x60 => some DO_REBASE_ULEB_TIMES
  | 0x70 => some DO_REBASE_ADD_ADDR_ULEB
  | 0x80 => some DO_REBASE_ULEB_TIMES_SKIPPING_ULEB
  | _ => none

structure RebaseFields where
  RebaseType : UInt8
  deriving DecidableEq

abbrev MachORebaseEntry := OpcodeEntry RebaseFields

namespace MachORebaseEntry

/-- The switch of `moveNext`. -/
def step (e : MachORebaseEntry) (Byte : UInt8) : Option (MachORebaseEntry × Bool) :=
  let ImmValue := Byte &&& REBASE_IMMEDIATE_MASK
  match RebaseOpcode.ofByte (Byte &&& REBASE_OPCODE_MASK) with
  | some .DONE => some (e.moveToEnd, false)
  | some .SET_TYPE_IMM => some ({ e with fields := { RebaseType := ImmValue } }, true)
  | some .SET_SEGMENT_AND_OFFSET_ULEB =>
    ({ e with SegmentIndex := ImmValue.toUInt32 } : MachORebaseEntry).readULEB128.map
      fun (Result, e) => ({ e with SegmentOffset := Result }, true)
  | some .ADD_ADDR_ULEB =>
    e.readULEB128.map fun (Result, e) =>
      ({ e with SegmentOffset := e.SegmentOffset + Result }, true)
  | some .ADD_ADDR_IMM_SCALED =>
    some ({ e with
      SegmentOffset := e.SegmentOffset + ImmValue.toUInt64 * e.PointerSize.toUInt64 }, true)
  | some .DO_REBASE_IMM_TIMES =>
    some ({ e with
      AdvanceAmount := e.PointerSize.toUInt64
      RemainingLoopCount := ImmValue.toUInt64 - 1 }, false)
  | some .DO_REBASE_ULEB_TIMES =>
    ({ e with AdvanceAmount := e.PointerSize.toUInt64 } : MachORebaseEntry).readULEB128.map
      fun (Result, e) => ({ e with RemainingLoopCount := Result - 1 }, false)
  | some .DO_REBASE_ADD_ADDR_ULEB =>
    e.readULEB128.map fun (Result, e) =>
      ({ e with
        AdvanceAmount := Result + e.PointerSize.toUInt64
        RemainingLoopCount := 0 }, false)
  | some .DO_REBASE_ULEB_TIMES_SKIPPING_ULEB =>
    e.readULEB128.bind fun (Result, e) =>
      ({ e with RemainingLoopCount := Result - 1 } : MachORebaseEntry).readULEB128.map
        fun (Result, e) =>
          ({ e with AdvanceAmount := Result + e.PointerSize.toUInt64 }, false)
  | none => some ({ e with Malformed := true }, true)

theorem step_advances (e : MachORebaseEntry) (Byte : UInt8) (e' : MachORebaseEntry) (more : Bool)
    (ran : step e Byte = some (e', more)) : e'.Ptr.length <= e.Ptr.length := by
  rw [step] at ran
  dsimp only at ran
  cases opcode : RebaseOpcode.ofByte (Byte &&& REBASE_OPCODE_MASK) with
  | none =>
    rw [opcode] at ran
    cases ran
    exact Nat.le_refl _
  | some opcode' =>
    rw [opcode] at ran
    cases opcode' with
    | DONE => cases ran; exact Nat.zero_le _
    | SET_TYPE_IMM | ADD_ADDR_IMM_SCALED | DO_REBASE_IMM_TIMES =>
      cases ran
      exact Nat.le_refl _
    | SET_SEGMENT_AND_OFFSET_ULEB | ADD_ADDR_ULEB | DO_REBASE_ULEB_TIMES
    | DO_REBASE_ADD_ADDR_ULEB =>
      rcases map_eq_some_iff.mp ran with ⟨⟨Result, e''⟩, read, same⟩
      cases same
      have shorter := OpcodeEntry.readULEB128_advances read
      exact shorter
    | DO_REBASE_ULEB_TIMES_SKIPPING_ULEB =>
      rcases bind_eq_some_iff.mp ran with ⟨⟨Count, counted⟩, first, ran⟩
      rcases map_eq_some_iff.mp ran with ⟨⟨Result, e''⟩, second, same⟩
      cases same
      have shorter := OpcodeEntry.readULEB128_advances first
      have shorter' := OpcodeEntry.readULEB128_advances second
      exact shorter'.trans shorter

def opcodes : OpcodeEntry.Opcodes RebaseFields := ⟨step, step_advances⟩

/-- `MachORebaseEntry(Bytes, is64Bit)`. -/
def new (Bytes : List UInt8) (is64Bit : Bool) : MachORebaseEntry :=
  OpcodeEntry.new Bytes is64Bit { RebaseType := 0 }

def moveToFirst (Opcodes : List UInt8) (e : MachORebaseEntry) : Option MachORebaseEntry :=
  OpcodeEntry.moveToFirst opcodes Opcodes e

def moveNext (e : MachORebaseEntry) : Option MachORebaseEntry := OpcodeEntry.moveNext opcodes e

/-! ## The meaning of the opcodes -/

/-- The operations of a rebase table for pointers of the given size. -/
def read (PointerSize : Nat) (Byte : UInt8) (p : List UInt8) : Option (Reading RebaseFields) :=
  let imm := Byte &&& REBASE_IMMEDIATE_MASK
  match RebaseOpcode.ofByte (Byte &&& REBASE_OPCODE_MASK) with
  | some .DONE => some ⟨.done, true, p⟩
  | some .SET_TYPE_IMM => some ⟨.set fun _ => ⟨imm⟩, true, p⟩
  | some .SET_SEGMENT_AND_OFFSET_ULEB =>
    (Operand.uleb p).map fun n => ⟨.seek imm.toUInt32 n.value, n.fits, n.rest⟩
  | some .ADD_ADDR_ULEB => (Operand.uleb p).map fun n => ⟨.add n.value, n.fits, n.rest⟩
  | some .ADD_ADDR_IMM_SCALED => some ⟨.add (imm.toNat * PointerSize), true, p⟩
  | some .DO_REBASE_IMM_TIMES => some ⟨.times imm.toNat PointerSize, true, p⟩
  | some .DO_REBASE_ULEB_TIMES =>
    (Operand.count p).map fun n => ⟨.times n.value PointerSize, n.fits, n.rest⟩
  | some .DO_REBASE_ADD_ADDR_ULEB =>
    (Operand.uleb p).map fun n => ⟨.times 1 (n.value + PointerSize), n.fits, n.rest⟩
  | some .DO_REBASE_ULEB_TIMES_SKIPPING_ULEB =>
    (Operand.count p).bind fun n => (Operand.uleb n.rest).map fun skip =>
      ⟨.times n.value (skip.value + PointerSize), n.fits && skip.fits, skip.rest⟩
  | none => none

theorem read_advances (PointerSize : Nat) (Byte : UInt8) (p : List UInt8)
    (reading : Reading RebaseFields) (reads : read PointerSize Byte p = some reading) :
    reading.rest.length <= p.length := by
  rw [read] at reads
  split at reads
  · cases reads; exact le_refl _
  · cases reads; exact le_refl _
  · rcases map_eq_some_iff.mp reads with ⟨n, found, rfl⟩
    exact Operand.uleb_rest found
  · rcases map_eq_some_iff.mp reads with ⟨n, found, rfl⟩
    exact Operand.uleb_rest found
  · cases reads; exact le_refl _
  · cases reads; exact le_refl _
  · rcases map_eq_some_iff.mp reads with ⟨n, found, rfl⟩
    exact Operand.uleb_rest (Operand.count_eq_some.mp found).1
  · rcases map_eq_some_iff.mp reads with ⟨n, found, rfl⟩
    exact Operand.uleb_rest found
  · rcases bind_eq_some_iff.mp reads with ⟨n, found, reads⟩
    rcases map_eq_some_iff.mp reads with ⟨skip, found', rfl⟩
    exact (Operand.uleb_rest found').trans (Operand.uleb_rest (Operand.count_eq_some.mp found).1)
  · exact nomatch reads

def format (PointerSize : UInt8) : Format RebaseFields :=
  ⟨read PointerSize.toNat, read_advances PointerSize.toNat⟩

/-! ## The switch runs the operations -/

variable {PointerSize : UInt8}

theorem step_run {e : MachORebaseEntry} {Byte : UInt8} {reading : Reading RebaseFields}
    (size : e.PointerSize = PointerSize)
    (reads : read PointerSize.toNat Byte e.Ptr = some reading) : step e Byte =
      if reading.fits then some (({ e with Ptr := reading.rest } : MachORebaseEntry).run
        reading.operation) else none := by
  subst size
  rw [step]
  rw [read] at reads
  dsimp only at reads ⊢
  cases opcode : RebaseOpcode.ofByte (Byte &&& REBASE_OPCODE_MASK) with
  | none =>
    rw [opcode] at reads
    exact nomatch reads
  | some opcode' =>
    rw [opcode] at reads
    cases opcode' with
    | DONE => cases reads; rfl
    | SET_TYPE_IMM => cases reads; rfl
    | ADD_ADDR_IMM_SCALED =>
      cases reads
      simp [OpcodeEntry.run, UInt64.ofNat_mul]
    | DO_REBASE_IMM_TIMES =>
      cases reads
      simp [OpcodeEntry.run]
    | SET_SEGMENT_AND_OFFSET_ULEB =>
      rcases map_eq_some_iff.mp reads with ⟨n, found, rfl⟩
      dsimp only
      rw [OpcodeEntry.readULEB128_eq]
      dsimp only
      rw [found, bind_some]
      cases n.fits <;> rfl
    | ADD_ADDR_ULEB =>
      rcases map_eq_some_iff.mp reads with ⟨n, found, rfl⟩
      dsimp only
      rw [OpcodeEntry.readULEB128_eq, found, bind_some]
      cases n.fits <;> rfl
    | DO_REBASE_ULEB_TIMES =>
      rcases map_eq_some_iff.mp reads with ⟨n, found, rfl⟩
      dsimp only
      rw [OpcodeEntry.readULEB128_eq]
      dsimp only
      rw [(Operand.count_eq_some.mp found).1, bind_some]
      cases n.fits <;> simp [OpcodeEntry.run]
    | DO_REBASE_ADD_ADDR_ULEB =>
      rcases map_eq_some_iff.mp reads with ⟨n, found, rfl⟩
      dsimp only
      rw [OpcodeEntry.readULEB128_eq, found, bind_some]
      cases n.fits <;> simp [OpcodeEntry.run, UInt64.ofNat_add]
    | DO_REBASE_ULEB_TIMES_SKIPPING_ULEB =>
      rcases bind_eq_some_iff.mp reads with ⟨n, found, reads⟩
      rcases map_eq_some_iff.mp reads with ⟨skip, found', rfl⟩
      dsimp only
      rw [OpcodeEntry.readULEB128_eq, (Operand.count_eq_some.mp found).1, bind_some]
      cases n.fits with
      | false => rfl
      | true =>
        rw [if_pos rfl, bind_some]
        dsimp only
        rw [OpcodeEntry.readULEB128_eq]
        dsimp only
        rw [found', bind_some]
        cases skip.fits <;> simp [OpcodeEntry.run, UInt64.ofNat_add]

theorem step_bogus {e e' : MachORebaseEntry} {Byte : UInt8} {more : Bool}
    (missing : read PointerSize.toNat Byte e.Ptr = none) (ran : step e Byte = some (e', more)) :
    e'.Done = e.Done ∧ (more = true -> e'.Malformed = true) := by
  rw [step] at ran
  rw [read] at missing
  dsimp only at ran missing
  cases opcode : RebaseOpcode.ofByte (Byte &&& REBASE_OPCODE_MASK) with
  | none =>
    rw [opcode] at ran
    cases ran
    exact ⟨rfl, fun _ => rfl⟩
  | some opcode' =>
    rw [opcode] at ran missing
    cases opcode' with
    | DONE | SET_TYPE_IMM | ADD_ADDR_IMM_SCALED | DO_REBASE_IMM_TIMES => exact nomatch missing
    | SET_SEGMENT_AND_OFFSET_ULEB | ADD_ADDR_ULEB =>
      rcases map_eq_some_iff.mp ran with ⟨pair, found, -⟩
      rw [OpcodeEntry.readULEB128_eq] at found
      exact nomatch (congrArg (Option.bind · _) (map_eq_none_iff.mp missing)).symm.trans
        found
    | DO_REBASE_ULEB_TIMES | DO_REBASE_ADD_ADDR_ULEB =>
      rcases map_eq_some_iff.mp ran with ⟨⟨Result, e''⟩, found, same⟩
      cases same
      have done := OpcodeEntry.readULEB128_done found
      exact ⟨done, nofun⟩
    | DO_REBASE_ULEB_TIMES_SKIPPING_ULEB =>
      rcases bind_eq_some_iff.mp ran with ⟨⟨Count, counted⟩, first, ran⟩
      rcases map_eq_some_iff.mp ran with ⟨⟨Result, e''⟩, second, same⟩
      cases same
      have done := OpcodeEntry.readULEB128_done first
      have done' := OpcodeEntry.readULEB128_done second
      exact ⟨done'.trans done, nofun⟩

theorem read_count {Byte : UInt8} {p : List UInt8} {reading : Reading RebaseFields}
    {count dist : Nat} (reads : read PointerSize.toNat Byte p = some reading)
    (operation : reading.operation = .times count dist) : count < 2 ^ 64 := by
  rw [read] at reads
  split at reads
  · cases reads; exact nomatch operation
  · cases reads; exact nomatch operation
  · rcases map_eq_some_iff.mp reads with ⟨n, found, rfl⟩
    exact nomatch operation
  · rcases map_eq_some_iff.mp reads with ⟨n, found, rfl⟩
    exact nomatch operation
  · cases reads; exact nomatch operation
  · cases reads
    cases operation
    exact (UInt8.toNat_lt _).trans (by decide)
  · rcases map_eq_some_iff.mp reads with ⟨n, found, rfl⟩
    cases operation
    exact (Operand.count_eq_some.mp found).2
  · rcases map_eq_some_iff.mp reads with ⟨n, found, rfl⟩
    cases operation
    decide
  · rcases bind_eq_some_iff.mp reads with ⟨n, found, reads⟩
    rcases map_eq_some_iff.mp reads with ⟨skip, found', rfl⟩
    cases operation
    exact (Operand.count_eq_some.mp found).2
  · exact nomatch reads

theorem implements (PointerSize : UInt8) :
    OpcodeEntry.Implements opcodes (format PointerSize) PointerSize where
  run := step_run
  bogus _ := step_bogus
  count := read_count

end MachORebaseEntry
end MachO
end LlvmProject
