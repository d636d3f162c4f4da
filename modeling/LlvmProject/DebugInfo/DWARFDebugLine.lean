import LlvmProject.DebugInfo.DataExtractor
import Mathlib.Data.List.Sort

namespace LlvmProject

open DataExtractor
namespace DWARFDebugLine

/-!
# The line table of a compilation unit

The header of a line table is followed by a program of opcodes, each of which changes
the registers of a state machine or appends a row.  There is no result when a header
makes `reserve` or a division fail.  The loop over the opcodes need not end; `fuel`
bounds its iterations.
-/

/-! ## The header -/

structure FileNameEntry where
  Name : Option (List UInt8)
  DirIdx : UInt64
  ModTime : UInt64
  Length : UInt64

structure Prologue where
  TotalLength : UInt32 := 0
  Version : UInt16 := 0
  PrologueLength : UInt32 := 0
  MinInstLength : UInt8 := 0
  MaxOpsPerInst : UInt8 := 0
  DefaultIsStmt : UInt8 := 0
  LineBase : Int8 := 0
  LineRange : UInt8 := 0
  OpcodeBase : UInt8 := 0
  StandardOpcodeLengths : List UInt8 := []
  IncludeDirectories : List (List UInt8) := []
  FileNames : List FileNameEntry := []

/-- Some bytes, one after another. -/
def readLengths (de : DataExtractor) : Nat -> UInt32 -> List UInt8 × UInt32
  | 0, offset => ([], offset)
  | n + 1, offset =>
    let read := de.getU8 offset
    let others := readLengths de n read.2
    (read.1 :: others.1, others.2)

/-- The names up to an empty one or the end of the header. -/
def readDirectories (de : DataExtractor) (end_prologue_offset offset : UInt32)
    (IncludeDirectories : List (List UInt8)) : List (List UInt8) × UInt32 :=
  if offset < end_prologue_offset then
    match _read : de.getCStr offset with
    | (some (c :: s), offset) =>
      readDirectories de end_prologue_offset offset (IncludeDirectories ++ [c :: s])
    | (_, offset) => (IncludeDirectories, offset)
  else (IncludeDirectories, offset)
termination_by de.Data.length - offset.toNat
decreasing_by
  have bounds := getCStr_some _read
  omega

/-- The numbers that follow the name of a file. -/
def readFileNameEntry (de : DataExtractor) (Name : Option (List UInt8)) (offset : UInt32) :
    FileNameEntry × UInt32 :=
  let DirIdx := de.getULEB128 offset
  let ModTime := de.getULEB128 DirIdx.2
  let Length := de.getULEB128 ModTime.2
  (⟨Name, DirIdx.1, ModTime.1, Length.1⟩, Length.2)

theorem readFileNameEntry_advances (de : DataExtractor) (Name : Option (List UInt8))
    (offset : UInt32) :
    Advances de offset (readFileNameEntry de Name offset).2 :=
  ((getULEB128_advances _).trans (getULEB128_advances _)).trans
    (getULEB128_advances _)

def readFileNames (de : DataExtractor) (end_prologue_offset offset : UInt32)
    (FileNames : List FileNameEntry) : List FileNameEntry × UInt32 :=
  if offset < end_prologue_offset then
    match _read : de.getCStr offset with
    | (some (c :: name), offset) =>
      let fileEntry := readFileNameEntry de (some (c :: name)) offset
      readFileNames de end_prologue_offset fileEntry.2 (FileNames ++ [fileEntry.1])
    | (_, offset) => (FileNames, offset)
  else (FileNames, offset)
termination_by de.Data.length - offset.toNat
decreasing_by
  have bounds := getCStr_some _read
  have advances := readFileNameEntry_advances de (some (c :: name)) offset
  have further := advances.1
  rename_i outer _
  show de.Data.length - (readFileNameEntry de (some (c :: name)) offset).2.toNat <
    de.Data.length - outer.toNat
  omega

/-- The header, whether it is accepted, and where it ends. -/
def Prologue.parse (de : DataExtractor) (offset : UInt32) : Option (Bool × Prologue × UInt32) :=
  let TotalLength := de.getU32 offset
  let Version := de.getU16 TotalLength.2
  if Version.1 < 2 then
    some (false, { TotalLength := TotalLength.1, Version := Version.1 }, Version.2)
  else
    let PrologueLength := de.getU32 Version.2
    let end_prologue_offset := PrologueLength.1 + PrologueLength.2
    let MinInstLength := de.getU8 PrologueLength.2
    let MaxOpsPerInst := if Version.1 >= 4 then de.getU8 MinInstLength.2 else (0, MinInstLength.2)
    let DefaultIsStmt := de.getU8 MaxOpsPerInst.2
    let LineBase := de.getU8 DefaultIsStmt.2
    let LineRange := de.getU8 LineBase.2
    let OpcodeBase := de.getU8 LineRange.2
    -- `reserve (OpcodeBase - 1)`
    if OpcodeBase.1 = 0 then none
    else
      let StandardOpcodeLengths := readLengths de (OpcodeBase.1.toNat - 1) OpcodeBase.2
      let IncludeDirectories := readDirectories de end_prologue_offset StandardOpcodeLengths.2 []
      let FileNames := readFileNames de end_prologue_offset IncludeDirectories.2 []
      some (FileNames.2 = end_prologue_offset,
        { TotalLength := TotalLength.1
          Version := Version.1
          PrologueLength := PrologueLength.1
          MinInstLength := MinInstLength.1
          MaxOpsPerInst := MaxOpsPerInst.1
          DefaultIsStmt := DefaultIsStmt.1
          LineBase := LineBase.1.toInt8
          LineRange := LineRange.1
          OpcodeBase := OpcodeBase.1
          StandardOpcodeLengths := StandardOpcodeLengths.1
          IncludeDirectories := IncludeDirectories.1
          FileNames := FileNames.1 },
        FileNames.2)

/-! ## The state machine -/

structure Row where
  Address : UInt64
  Line : UInt32
  Column : UInt16
  File : UInt16
  Isa : UInt8
  Discriminator : UInt32
  IsStmt : Bool
  BasicBlock : Bool
  EndSequence : Bool
  PrologueEnd : Bool
  EpilogueBegin : Bool

def Row.reset (default_is_stmt : Bool) : Row :=
  ⟨0, 1, 0, 1, 0, 0, default_is_stmt, false, false, false, false⟩

/-- Called after a row is appended to the matrix. -/
def Row.postAppend (row : Row) : Row :=
  { row with BasicBlock := false, PrologueEnd := false, EpilogueBegin := false }

structure Sequence where
  LowPC : UInt64
  HighPC : UInt64
  FirstRowIndex : UInt32
  LastRowIndex : UInt32
  Empty : Bool

def Sequence.reset : Sequence := ⟨0, 0, 0, 0, true⟩

def Sequence.isValid (sequence : Sequence) : Bool :=
  !sequence.Empty && sequence.LowPC < sequence.HighPC &&
    sequence.FirstRowIndex < sequence.LastRowIndex

structure LineTable where
  Prologue : Prologue
  Rows : List Row
  Sequences : List Sequence

structure ParsingState where
  LineTable : LineTable
  RowNumber : UInt32
  Row : Row
  Sequence : Sequence

namespace ParsingState

def resetRowAndSequence (State : ParsingState) : ParsingState :=
  { State with
    Row := Row.reset (State.LineTable.Prologue.DefaultIsStmt ≠ 0)
    Sequence := Sequence.reset }

def appendRowToMatrix (State : ParsingState) : ParsingState :=
  -- record the beginning of an instruction sequence
  let begun :=
    if State.Sequence.Empty then
      { State.Sequence with
        Empty := false, LowPC := State.Row.Address, FirstRowIndex := State.RowNumber }
    else State.Sequence
  let RowNumber := State.RowNumber + 1
  let Rows := State.LineTable.Rows ++ [State.Row]
  if State.Row.EndSequence then
    -- record the end of an instruction sequence
    let ended := { begun with HighPC := State.Row.Address, LastRowIndex := RowNumber }
    { LineTable :=
        { State.LineTable with
          Rows := Rows
          Sequences :=
            if ended.isValid then State.LineTable.Sequences ++ [ended]
            else State.LineTable.Sequences }
      RowNumber := RowNumber
      Row := State.Row.postAppend
      Sequence := Sequence.reset }
  else
    { LineTable := { State.LineTable with Rows := Rows }
      RowNumber := RowNumber
      Row := State.Row.postAppend
      Sequence := begun }

theorem appendRowToMatrix_Prologue (State : ParsingState) :
    State.appendRowToMatrix.LineTable.Prologue = State.LineTable.Prologue := by
  unfold appendRowToMatrix
  dsimp only
  cases State.Row.EndSequence <;> rfl

theorem appendRowToMatrix_Rows (State : ParsingState) :
    State.appendRowToMatrix.LineTable.Rows = State.LineTable.Rows ++ [State.Row] := by
  unfold appendRowToMatrix
  dsimp only
  cases State.Row.EndSequence <;> rfl

theorem appendRowToMatrix_Row (State : ParsingState) :
    State.appendRowToMatrix.Row = State.Row.postAppend := by
  unfold appendRowToMatrix
  dsimp only
  cases State.Row.EndSequence <;> rfl

def advanceAddress (State : ParsingState) (delta : UInt64) : ParsingState :=
  { State with Row := { State.Row with Address := State.Row.Address + delta } }

def advanceLine (State : ParsingState) (delta : UInt32) : ParsingState :=
  { State with Row := { State.Row with Line := State.Row.Line + delta } }

end ParsingState

/-! ## The opcodes -/

def DW_LNS_copy : UInt8 := 0x01
def DW_LNS_advance_pc : UInt8 := 0x02
def DW_LNS_advance_line : UInt8 := 0x03
def DW_LNS_set_file : UInt8 := 0x04
def DW_LNS_set_column : UInt8 := 0x05
def DW_LNS_negate_stmt : UInt8 := 0x06
def DW_LNS_set_basic_block : UInt8 := 0x07
def DW_LNS_const_add_pc : UInt8 := 0x08
def DW_LNS_fixed_advance_pc : UInt8 := 0x09
def DW_LNS_set_prologue_end : UInt8 := 0x0a
def DW_LNS_set_epilogue_begin : UInt8 := 0x0b
def DW_LNS_set_isa : UInt8 := 0x0c

def DW_LNE_end_sequence : UInt8 := 0x01
def DW_LNE_set_address : UInt8 := 0x02
def DW_LNE_define_file : UInt8 := 0x03
def DW_LNE_set_discriminator : UInt8 := 0x04

/-- The relocations of the section: the width and the value of the one at an offset. -/
abbrev RelocAddrMap := UInt64 -> Option (UInt8 × Int64)

/-- An extended opcode, from the length on. -/
def extendedOpcode (de : DataExtractor) (RMap : RelocAddrMap) (State : ParsingState)
    (ext_offset : UInt32) : ParsingState × UInt32 :=
  let len := de.getULEB128 ext_offset
  let arg_size := (len.1 - (len.2 - ext_offset).toUInt64).toUInt32
  let sub_opcode := de.getU8 len.2
  let offset := sub_opcode.2
  if sub_opcode.1 = DW_LNE_end_sequence then
    (({ State with Row := { State.Row with EndSequence := true } } :
      ParsingState).appendRowToMatrix.resetRowAndSequence, offset)
  else if sub_opcode.1 = DW_LNE_set_address then
    let addr := de.getAddress offset
    let Address :=
      match RMap offset.toUInt64 with
      | some R => addr.1 + R.2.toUInt64
      | none => addr.1
    ({ State with Row := { State.Row with Address := Address } }, addr.2)
  else if sub_opcode.1 = DW_LNE_define_file then
    let Name := de.getCStr offset
    let fileEntry := readFileNameEntry de Name.1 Name.2
    let Prologue := State.LineTable.Prologue
    ({ State with
        LineTable :=
          { State.LineTable with
            Prologue := { Prologue with FileNames := Prologue.FileNames ++ [fileEntry.1] } } },
      fileEntry.2)
  else if sub_opcode.1 = DW_LNE_set_discriminator then
    let Discriminator := de.getULEB128 offset
    ({ State with Row := { State.Row with Discriminator := Discriminator.1.toUInt32 } },
      Discriminator.2)
  else (State, offset + arg_size)

/-- The operands of an unknown opcode. -/
def skipOperands (de : DataExtractor) : Nat -> UInt32 -> UInt32
  | 0, offset => offset
  | n + 1, offset => skipOperands de n (de.getULEB128 offset).2

/-- The quotient of the adjusted opcode, times the length of an instruction. -/
def addressAdvance (Prologue : Prologue) (adjust_opcode : UInt8) : Option UInt64 :=
  if Prologue.LineRange = 0 then none
  else some ((adjust_opcode / Prologue.LineRange).toUInt64 * Prologue.MinInstLength.toUInt64)

def standardOpcode (de : DataExtractor) (State : ParsingState) (opcode : UInt8)
    (offset : UInt32) : Option (ParsingState × UInt32) :=
  let Prologue := State.LineTable.Prologue
  if opcode = DW_LNS_copy then some (State.appendRowToMatrix, offset)
  else if opcode = DW_LNS_advance_pc then
    let operand := de.getULEB128 offset
    some (State.advanceAddress (operand.1 * Prologue.MinInstLength.toUInt64), operand.2)
  else if opcode = DW_LNS_advance_line then
    let operand := de.getSLEB128 offset
    some (State.advanceLine operand.1.toUInt64.toUInt32, operand.2)
  else if opcode = DW_LNS_set_file then
    let operand := de.getULEB128 offset
    some ({ State with Row := { State.Row with File := operand.1.toUInt16 } }, operand.2)
  else if opcode = DW_LNS_set_column then
    let operand := de.getULEB128 offset
    some ({ State with Row := { State.Row with Column := operand.1.toUInt16 } }, operand.2)
  else if opcode = DW_LNS_negate_stmt then
    some ({ State with Row := { State.Row with IsStmt := !State.Row.IsStmt } }, offset)
  else if opcode = DW_LNS_set_basic_block then
    some ({ State with Row := { State.Row with BasicBlock := true } }, offset)
  else if opcode = DW_LNS_const_add_pc then
    (addressAdvance Prologue (255 - Prologue.OpcodeBase)).map fun addr_offset =>
      (State.advanceAddress addr_offset, offset)
  else if opcode = DW_LNS_fixed_advance_pc then
    let operand := de.getU16 offset
    some (State.advanceAddress operand.1.toUInt64, operand.2)
  else if opcode = DW_LNS_set_prologue_end then
    some ({ State with Row := { State.Row with PrologueEnd := true } }, offset)
  else if opcode = DW_LNS_set_epilogue_begin then
    some ({ State with Row := { State.Row with EpilogueBegin := true } }, offset)
  else if opcode = DW_LNS_set_isa then
    let operand := de.getULEB128 offset
    some ({ State with Row := { State.Row with Isa := operand.1.toUInt8 } }, operand.2)
  else
    (Prologue.StandardOpcodeLengths[opcode.toNat - 1]?).map fun opcode_length =>
      (State, skipOperands de opcode_length.toNat offset)

def specialOpcode (State : ParsingState) (opcode : UInt8) : Option ParsingState :=
  let Prologue := State.LineTable.Prologue
  let adjust_opcode := opcode - Prologue.OpcodeBase
  (addressAdvance Prologue adjust_opcode).map fun addr_offset =>
    let line_offset := Prologue.LineBase.toInt + (adjust_opcode % Prologue.LineRange).toNat
    ((State.advanceLine (UInt32.ofInt line_offset)).advanceAddress addr_offset).appendRowToMatrix

/-- One iteration of the loop. -/
def iteration (de : DataExtractor) (RMap : RelocAddrMap) (State : ParsingState)
    (offset : UInt32) : Option (ParsingState × UInt32) :=
  let opcode := de.getU8 offset
  if opcode.1 = 0 then some (extendedOpcode de RMap State opcode.2)
  else if opcode.1 < State.LineTable.Prologue.OpcodeBase then
    standardOpcode de State opcode.1 opcode.2
  else (specialOpcode State opcode.1).map fun State => (State, opcode.2)

def opcodeLoop (de : DataExtractor) (RMap : RelocAddrMap) (end_offset : UInt32) :
    Nat -> ParsingState -> UInt32 -> Option (ParsingState × UInt32)
  | 0, State, offset => if offset < end_offset then none else some (State, offset)
  | fuel + 1, State, offset =>
    if offset < end_offset then
      (iteration de RMap State offset).bind fun next =>
        opcodeLoop de RMap end_offset fuel next.1 next.2
    else some (State, offset)

/-- Parse the header and all rows: the result, the table and the offset. -/
def LineTable.parse (de : DataExtractor) (RMap : RelocAddrMap) (fuel : Nat)
    (debug_line_offset : UInt32) : Option (Bool × LineTable × UInt32) :=
  (Prologue.parse de debug_line_offset).bind fun header =>
    let table : LineTable := ⟨header.2.1, [], []⟩
    if header.1 then
      let end_offset := debug_line_offset + header.2.1.TotalLength + 4
      let State : ParsingState :=
        ⟨table, 0, Row.reset (header.2.1.DefaultIsStmt ≠ 0), Sequence.reset⟩
      (opcodeLoop de RMap end_offset fuel State header.2.2).map fun last =>
        (end_offset ≠ 0,
          { last.1.LineTable with
            Sequences := last.1.LineTable.Sequences.insertionSort fun LHS RHS =>
              LHS.LowPC <= RHS.LowPC },
          last.2)
    else some (false, table, debug_line_offset)

end DWARFDebugLine
end LlvmProject
