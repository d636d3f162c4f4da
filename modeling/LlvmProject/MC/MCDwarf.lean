import LlvmProject.DebugInfo.DWARFDebugLineTotal
import LlvmProject.Support.LEB128
import Mathlib.Data.UInt

namespace LlvmProject

open List UInt64 DataExtractor

namespace MCDwarf

/-!
# Writing and reading a line table

`Encode` chooses the opcodes for a step of the line and the address.  The loop of
`DWARFDebugLine` makes one row of each step, and one that ends the sequence of the last.
-/

open DWARFDebugLine
open LEB128 (StandsAt)

/-! ## The encoder -/

def DWARF2_LINE_OPCODE_BASE : UInt64 := 13

def DWARF2_LINE_BASE : Int := -5

def DWARF2_LINE_RANGE : UInt64 := 14

/-- The address skip amount of a special opcode, in units of the instruction length. -/
def SPECIAL_ADDR (op : UInt64) : UInt64 := (op - DWARF2_LINE_OPCODE_BASE) / DWARF2_LINE_RANGE

/-- The maximum address skip amount that can be encoded with a special opcode. -/
def MAX_SPECIAL_ADDR_DELTA : UInt64 := SPECIAL_ADDR 255

def INT64_MAX : Int := 2 ^ 63 - 1

def ScaleAddrDelta (MinInsnLength : UInt8) (AddrDelta : UInt64) : UInt64 :=
  if MinInsnLength = 1 then AddrDelta else AddrDelta / MinInsnLength.toUInt64

/-- The opcodes of the end of a sequence. -/
def encodeEnd (AddrDelta : UInt64) : List UInt8 :=
  (if AddrDelta = MAX_SPECIAL_ADDR_DELTA then [DW_LNS_const_add_pc]
    else if AddrDelta ≠ 0 then DW_LNS_advance_pc :: encodeULEB128 AddrDelta.toNat
    else []) ++ [0, 1, DW_LNE_end_sequence]

/-- The opcodes of a step whose biased line `Temp` is in the range of the special ones. -/
def encodeStep (NeedCopy : Bool) (LineDelta : Int) (Temp AddrDelta : UInt64) : List UInt8 :=
  -- use `DW_LNS_copy` instead of a "line +0, addr +0" special opcode
  if LineDelta = 0 ∧ AddrDelta = 0 then [DW_LNS_copy]
  else
    let Temp := Temp + DWARF2_LINE_OPCODE_BASE
    let advance := DW_LNS_advance_pc :: (encodeULEB128 AddrDelta.toNat ++
      if NeedCopy then [DW_LNS_copy] else [Temp.toUInt8])
    -- avoid overflow when `AddrDelta` is large
    if AddrDelta < 256 + MAX_SPECIAL_ADDR_DELTA then
      let Opcode := Temp + AddrDelta * DWARF2_LINE_RANGE
      if Opcode <= 255 then [Opcode.toUInt8]
      else
        let Opcode := Temp + (AddrDelta - MAX_SPECIAL_ADDR_DELTA) * DWARF2_LINE_RANGE
        if Opcode <= 255 then [DW_LNS_const_add_pc, Opcode.toUInt8] else advance
    else advance

/-- Encode a pair of line and address delta; `LineDelta` is an `int64_t`. -/
def Encode (MinInsnLength : UInt8) (LineDelta : Int) (AddrDelta : UInt64) : List UInt8 :=
  let AddrDelta := ScaleAddrDelta MinInsnLength AddrDelta
  if LineDelta = INT64_MAX then encodeEnd AddrDelta
  else
    -- bias the line delta by the base
    let Temp := ofInt (LineDelta - DWARF2_LINE_BASE)
    if DWARF2_LINE_RANGE <= Temp then
      DW_LNS_advance_line :: (encodeSLEB128 LineDelta ++
        encodeStep true 0 (ofInt (0 - DWARF2_LINE_BASE)) AddrDelta)
    else encodeStep false LineDelta Temp AddrDelta

/-! ## Runs of the loop -/

variable {de : DataExtractor} {RMap : RelocAddrMap} {State : ParsingState}
  {offset end_offset : UInt32} {MinInst : UInt8} {bytes rest : List UInt8}

/-- The loop comes from one state and offset to another. -/
def RunsTo (de : DataExtractor) (RMap : RelocAddrMap) (end_offset : UInt32)
    (s t : ParsingState × UInt32) : Prop :=
  ∃ n, ∀ fuel, opcodeLoop de RMap end_offset (n + fuel) s.1 s.2 =
    opcodeLoop de RMap end_offset fuel t.1 t.2

theorem RunsTo.refl (s : ParsingState × UInt32) : RunsTo de RMap end_offset s s :=
  ⟨0, fun fuel => by rw [zero_add]⟩

theorem RunsTo.trans {s t u : ParsingState × UInt32} (first : RunsTo de RMap end_offset s t)
    (second : RunsTo de RMap end_offset t u) : RunsTo de RMap end_offset s u := by
  rcases first with ⟨n, first⟩
  rcases second with ⟨m, second⟩
  refine ⟨n + m, fun fuel => ?_⟩
  rw [add_assoc, first, second]

theorem RunsTo.of_iteration {s t : ParsingState × UInt32} (within : s.2 < end_offset)
    (ran : iteration de RMap s.1 s.2 = some t) : RunsTo de RMap end_offset s t := by
  refine ⟨1, fun fuel => ?_⟩
  rw [add_comm, opcodeLoop, if_pos within, ran, Option.bind_some]

/-- The header that fits the encoder. -/
structure Encoded (MinInst : UInt8) (Prologue : Prologue) : Prop where
  base : Prologue.OpcodeBase = 13
  line : Prologue.LineBase = -5
  range : Prologue.LineRange = 14
  length : Prologue.MinInstLength = MinInst

/-- The bytes stand at the offset, in front of others, and end before the end. -/
structure Placed (de : DataExtractor) (end_offset offset : UInt32) (bytes rest : List UInt8) :
    Prop where
  stands : StandsAt de offset bytes rest
  within : offset.toNat + bytes.length <= end_offset.toNat

theorem Placed.head {byte : UInt8} (placed : Placed de end_offset offset (byte :: bytes) rest) :
    offset < end_offset ∧ de.getU8 offset = (byte, offset + 1) ∧
      StandsAt de (offset + 1) bytes rest := by
  rcases placed.stands.head with ⟨valid, here, further⟩
  have within := placed.within
  rw [length_cons] at within
  refine ⟨?_, ?_, further⟩
  · rw [UInt32.lt_iff_toNat_lt]
    omega
  · rw [getU8_of_valid valid, here]

theorem Placed.append {first second : List UInt8}
    (placed : Placed de end_offset offset (first ++ second) rest) :
    Placed de end_offset offset first (second ++ rest) ∧
      Placed de end_offset (offset + UInt32.ofNat first.length) second rest := by
  have within := placed.within
  have small := end_offset.toNat_lt
  rw [length_append] at within
  have sum : (offset + UInt32.ofNat first.length).toNat = offset.toNat + first.length := by
    rw [UInt32.toNat_add, UInt32.toNat_ofNat', Nat.mod_eq_of_lt (show first.length < 2 ^ 32 by omega),
      Nat.mod_eq_of_lt (by omega)]
  have stands := placed.stands
  rw [StandsAt, append_assoc] at stands
  refine ⟨⟨stands, by omega⟩, ?_, by omega⟩
  rw [StandsAt, sum, <- drop_drop, stands, drop_left]

/-- Reading the opcodes has the effect on the state. -/
def Does (MinInst : UInt8) (code : List UInt8) (effect : ParsingState -> ParsingState) : Prop :=
  ∀ (de : DataExtractor) (RMap : RelocAddrMap) (end_offset : UInt32) (State : ParsingState)
    (offset : UInt32) (rest : List UInt8), Encoded MinInst State.LineTable.Prologue ->
    Placed de end_offset offset code rest ->
    RunsTo de RMap end_offset (State, offset)
        (effect State, offset + UInt32.ofNat code.length) ∧
      Encoded MinInst (effect State).LineTable.Prologue

theorem Does.append {first second : List UInt8} {before after : ParsingState -> ParsingState}
    (does : Does MinInst first before) (next : Does MinInst second after) :
    Does MinInst (first ++ second) fun State => after (before State) := by
  intro de RMap end_offset State offset rest encoded placed
  rcases does de RMap end_offset State offset _ encoded placed.append.1 with ⟨ran, encoded'⟩
  rcases next de RMap end_offset _ _ rest encoded' placed.append.2 with ⟨ran', encoded''⟩
  rw [UInt32.add_assoc, <- UInt32.ofNat_add, <- length_append] at ran'
  exact ⟨ran.trans ran', encoded''⟩

/-! ## The opcodes -/

theorem does_standard {opcode : UInt8} {operand : List UInt8}
    {effect : ParsingState -> ParsingState} (some_opcode : opcode ≠ 0) (standard : opcode < 13)
    (ran : ∀ (de : DataExtractor) (State : ParsingState) (offset : UInt32) (rest : List UInt8),
    Encoded MinInst State.LineTable.Prologue -> StandsAt de offset operand rest -> standardOpcode
    de State opcode offset = some (effect State, offset + UInt32.ofNat operand.length))
    (kept : ∀ State, (effect State).LineTable.Prologue = State.LineTable.Prologue) :
    Does MinInst (opcode :: operand) effect := by
  intro de RMap end_offset State offset rest encoded placed
  rcases placed.head with ⟨within, read, further⟩
  refine ⟨RunsTo.of_iteration within ?_, by rwa [kept]⟩
  have length : offset + UInt32.ofNat (opcode :: operand).length =
      offset + 1 + UInt32.ofNat operand.length := by
    rw [length_cons, UInt32.ofNat_add, UInt32.add_comm (UInt32.ofNat _), UInt32.add_assoc]
    rfl
  simp only [iteration, read, if_neg some_opcode]
  rw [encoded.base, if_pos standard, ran de State (offset + 1) rest encoded further, length]

theorem does_copy (MinInst : UInt8) :
    Does MinInst [DW_LNS_copy] ParsingState.appendRowToMatrix :=
  does_standard (by decide) (by decide)
    (fun _ _ offset _ _ _ => congrArg (fun o => some (_, o)) (UInt32.add_zero offset).symm)
    ParsingState.appendRowToMatrix_Prologue

theorem does_advance_pc (MinInst : UInt8) (delta : UInt64) :
    Does MinInst (DW_LNS_advance_pc :: encodeULEB128 delta.toNat) fun State =>
      State.advanceAddress (delta * MinInst.toUInt64) := by
  refine does_standard (by decide) (by decide) ?_ fun _ => rfl
  intro de State offset rest encoded stands
  have read := LEB128.getULEB128_encode delta.toNat_lt stands
  have ran : standardOpcode de State DW_LNS_advance_pc offset =
      some (State.advanceAddress
        ((de.getULEB128 offset).1 * State.LineTable.Prologue.MinInstLength.toUInt64),
        (de.getULEB128 offset).2) := rfl
  rw [ran, read, encoded.length, UInt64.ofNat_toNat]

theorem does_advance_line (MinInst : UInt8) {delta : Int} (low : -(64 * 128 ^ 8) <= delta)
    (high : delta < 64 * 128 ^ 8) :
    Does MinInst (DW_LNS_advance_line :: encodeSLEB128 delta) fun State =>
      State.advanceLine (UInt32.ofInt delta) := by
  refine does_standard (by decide) (by decide) ?_ fun _ => rfl
  intro de State offset rest encoded stands
  rcases LEB128.getSLEB128_encode low high stands with ⟨number, read, value⟩
  have ran : standardOpcode de State DW_LNS_advance_line offset =
      some (State.advanceLine (de.getSLEB128 offset).1.toUInt64.toUInt32,
        (de.getSLEB128 offset).2) := rfl
  have narrow : (ofInt delta).toUInt32 = UInt32.ofInt delta := by
    apply UInt32.toNat_inj.mp
    rw [UInt64.toNat_toUInt32, ofInt, UInt32.ofInt, toNat_ofNat', UInt32.toNat_ofNat']
    omega
  rw [ran, read, value, narrow]

theorem does_const_add_pc (MinInst : UInt8) :
    Does MinInst [DW_LNS_const_add_pc] fun State =>
      State.advanceAddress (MAX_SPECIAL_ADDR_DELTA * MinInst.toUInt64) := by
  refine does_standard (by decide) (by decide) ?_ fun _ => rfl
  intro de State offset rest encoded _
  have ran : standardOpcode de State DW_LNS_const_add_pc offset =
      (addressAdvance State.LineTable.Prologue (255 - State.LineTable.Prologue.OpcodeBase)).map
        fun addr_offset => (State.advanceAddress addr_offset, offset) := rfl
  rw [ran, addressAdvance, encoded.range, encoded.base, encoded.length, if_neg (by decide),
    Option.map_some]
  exact congrArg (fun o => some (_, o)) (UInt32.add_zero offset).symm

/-- A row is appended after the line and the address are advanced. -/
def step (LineDelta : Int) (AddrDelta : UInt64) (State : ParsingState) : ParsingState :=
  ((State.advanceLine (UInt32.ofInt LineDelta)).advanceAddress AddrDelta).appendRowToMatrix

theorem step_Prologue (LineDelta : Int) (AddrDelta : UInt64) (State : ParsingState) :
    (step LineDelta AddrDelta State).LineTable.Prologue = State.LineTable.Prologue :=
  ParsingState.appendRowToMatrix_Prologue _

theorem does_special (MinInst : UInt8) {opcode : UInt8} {line address : Nat} (biased : line < 14)
    (composed : opcode.toNat = line + 13 + address * 14) :
    Does MinInst [opcode] (step ((line : Int) - 5) (UInt64.ofNat address * MinInst.toUInt64)) := by
  intro de RMap end_offset State offset rest encoded placed
  rcases placed.head with ⟨within, read, _⟩
  refine ⟨RunsTo.of_iteration within ?_, by rwa [step_Prologue]⟩
  have byte := opcode.toNat_lt
  have some_opcode : opcode ≠ 0 := by
    rintro rfl
    have zero : (0 : UInt8).toNat = 0 := rfl
    omega
  have special : ¬opcode < 13 := by
    rw [UInt8.lt_iff_toNat_lt, composed]
    show ¬line + 13 + address * 14 < 13
    omega
  have adjusted : (opcode - 13).toNat = line + address * 14 := by
    rw [UInt8.toNat_sub, composed]
    show (2 ^ 8 - 13 + (line + 13 + address * 14)) % 2 ^ 8 = line + address * 14
    omega
  have quot : ((opcode - 13) / 14).toUInt64 = UInt64.ofNat address := by
    apply UInt64.toNat_inj.mp
    rw [UInt8.toNat_toUInt64, UInt8.toNat_div, adjusted, toNat_ofNat']
    show (line + address * 14) / 14 = address % 2 ^ 64
    omega
  have rem : ((opcode - 13) % 14).toNat = line := by
    rw [UInt8.toNat_mod, adjusted]
    show (line + address * 14) % 14 = line
    omega
  simp only [iteration, read, if_neg some_opcode]
  rw [encoded.base, if_neg special, specialOpcode, addressAdvance, encoded.range, encoded.base,
    encoded.length, encoded.line, if_neg (by decide), Option.map_some, Option.map_some, quot,
    rem]
  have base : (-5 : Int8).toInt + (line : Int) = (line : Int) - 5 := by
    show -5 + (line : Int) = line - 5
    omega
  rw [base]
  rfl

/-- The end of the sequence is a row of its own, and the registers are reset. -/
def endSequence (State : ParsingState) : ParsingState :=
  ({ State with Row := { State.Row with EndSequence := true } } :
    ParsingState).appendRowToMatrix.resetRowAndSequence

theorem does_end (MinInst : UInt8) : Does MinInst [0, 1, DW_LNE_end_sequence] endSequence := by
  intro de RMap end_offset State offset rest encoded placed
  rcases placed.head with ⟨within, read, further⟩
  have one : encodeULEB128 1 = [1] := by
    rw [encodeULEB128]
    rfl
  have written : StandsAt de (offset + 1) (encodeULEB128 1) (DW_LNE_end_sequence :: rest) := by
    rw [one]
    exact further
  rcases further.head with ⟨_, _, further⟩
  rcases further.head with ⟨valid, here, _⟩
  refine ⟨RunsTo.of_iteration within ?_, ?_⟩
  · have length : de.getULEB128 (offset + 1) = (1, offset + 1 + 1) := by
      rw [LEB128.getULEB128_encode (by decide) written, one]
      rfl
    have opcode : de.getU8 (offset + 1 + 1) = (DW_LNE_end_sequence, offset + 1 + 1 + 1) := by
      rw [getU8_of_valid valid, here]
    simp only [iteration, read, if_pos, extendedOpcode, length, opcode]
    rw [UInt32.add_assoc, UInt32.add_assoc]
    rfl
  · rw [endSequence]
    have kept := ParsingState.appendRowToMatrix_Prologue
      { State with Row := { State.Row with EndSequence := true } }
    rw [ParsingState.resetRowAndSequence, kept]
    exact encoded

/-! ## The pairs -/

theorem Does.congr {code : List UInt8} {effect other : ParsingState -> ParsingState}
    (does : Does MinInst code effect) (same : ∀ State, effect State = other State) :
    Does MinInst code other := by
  rwa [<- funext same]

theorem step_advanceAddress (LineDelta : Int) (first second : UInt64) (State : ParsingState) :
    step LineDelta second (State.advanceAddress first) = step LineDelta (first + second) State := by
  rw [step, step, ParsingState.advanceLine, ParsingState.advanceLine, ParsingState.advanceAddress,
    ParsingState.advanceAddress, ParsingState.advanceAddress]
  dsimp only
  rw [add_assoc]

theorem step_advanceLine (first second : Int) (AddrDelta : UInt64) (State : ParsingState) :
    step second AddrDelta (State.advanceLine (UInt32.ofInt first)) =
      step (first + second) AddrDelta State := by
  rw [step, step, ParsingState.advanceLine, ParsingState.advanceLine, ParsingState.advanceLine]
  dsimp only
  rw [UInt32.add_assoc, UInt32.ofInt_add]

theorem appendRowToMatrix_eq_step (State : ParsingState) :
    State.appendRowToMatrix = step 0 0 State := by
  have line : State.Row.Line + UInt32.ofInt 0 = State.Row.Line := UInt32.add_zero _
  have address : State.Row.Address + 0 = State.Row.Address := add_zero _
  rw [step, ParsingState.advanceLine, line, ParsingState.advanceAddress, address]

/-- Each of the encodings of a step whose biased line is in range appends one row. -/
theorem does_encodeStep (MinInst : UInt8) (NeedCopy : Bool) {line : Nat} (AddrDelta : UInt64)
    (inRange : line < 14) (copied : NeedCopy = true -> line = 5) :
    Does MinInst (encodeStep NeedCopy ((line : Int) - 5) (UInt64.ofNat line) AddrDelta)
      (step ((line : Int) - 5) (AddrDelta * MinInst.toUInt64)) := by
  have special : ∀ {opcode : UInt8} {address : Nat}, opcode.toNat = line + 13 + address * 14 ->
      Does MinInst [opcode] (step ((line : Int) - 5) (UInt64.ofNat address * MinInst.toUInt64)) :=
    fun composed => does_special MinInst inRange composed
  have biased : (UInt64.ofNat line + DWARF2_LINE_OPCODE_BASE).toNat = line + 13 := by
    rw [UInt64.toNat_add, toNat_ofNat']
    show (line % 2 ^ 64 + 13) % 2 ^ 64 = line + 13
    omega
  have opcode : ∀ addr : UInt64, addr.toNat < 273 ->
      (UInt64.ofNat line + DWARF2_LINE_OPCODE_BASE + addr * DWARF2_LINE_RANGE).toNat =
        line + 13 + addr.toNat * 14 := by
    intro addr small
    rw [UInt64.toNat_add, UInt64.toNat_mul, biased]
    show (line + 13 + addr.toNat * 14 % 2 ^ 64) % 2 ^ 64 = line + 13 + addr.toNat * 14
    omega
  have byte : ∀ addr : UInt64, addr.toNat < 273 ->
      UInt64.ofNat line + DWARF2_LINE_OPCODE_BASE + addr * DWARF2_LINE_RANGE <= 255 ->
      (UInt64.ofNat line + DWARF2_LINE_OPCODE_BASE + addr * DWARF2_LINE_RANGE).toUInt8.toNat =
        line + 13 + addr.toNat * 14 := by
    intro addr small fits
    have value := opcode addr small
    rw [le_iff_toNat_le, value] at fits
    rw [toNat_toUInt8, value]
    exact Nat.mod_eq_of_lt (Nat.lt_succ_of_le fits)
  have advance : Does MinInst (DW_LNS_advance_pc :: (encodeULEB128 AddrDelta.toNat ++
      if NeedCopy then [DW_LNS_copy]
      else [(UInt64.ofNat line + DWARF2_LINE_OPCODE_BASE).toUInt8]))
      (step ((line : Int) - 5) (AddrDelta * MinInst.toUInt64)) := by
    rw [<- cons_append]
    cases NeedCopy with
    | true =>
      refine ((does_advance_pc MinInst AddrDelta).append (does_copy MinInst)).congr ?_
      intro State
      rw [copied rfl, appendRowToMatrix_eq_step, step_advanceAddress, add_zero]
      rfl
    | false =>
      have plain : (UInt64.ofNat line + DWARF2_LINE_OPCODE_BASE).toUInt8.toNat =
          line + 13 + 0 * 14 := by
        rw [toNat_toUInt8, biased]
        omega
      refine ((does_advance_pc MinInst AddrDelta).append (special plain)).congr ?_
      intro State
      rw [step_advanceAddress]
      congr 1
      exact (congrArg _ (zero_mul)).trans (add_zero _)
  rw [encodeStep]
  split
  · next none =>
      refine (does_copy MinInst).congr ?_
      intro State
      rw [none.1, none.2, zero_mul, appendRowToMatrix_eq_step]
  dsimp only
  split
  · next small =>
      have limit : AddrDelta.toNat < 273 := UInt64.lt_iff_toNat_lt.mp small
      split
      · next fits =>
          have composed := special (byte AddrDelta limit fits)
          rwa [UInt64.ofNat_toNat] at composed
      · next large =>
          rw [le_iff_toNat_le, opcode AddrDelta limit] at large
          have enough : 17 <= AddrDelta.toNat := by
            by_contra less
            apply large
            show line + 13 + AddrDelta.toNat * 14 <= 255
            omega
          have rest : (AddrDelta - MAX_SPECIAL_ADDR_DELTA).toNat = AddrDelta.toNat - 17 :=
            UInt64.toNat_sub_of_le _ _ (le_iff_toNat_le.mpr enough)
          split
          · next fits =>
              have composed := special (byte (AddrDelta - MAX_SPECIAL_ADDR_DELTA) (by omega) fits)
              rw [UInt64.ofNat_toNat] at composed
              refine ((does_const_add_pc MinInst).append composed).congr ?_
              intro State
              rw [step_advanceAddress, <- add_mul, add_comm, sub_add_cancel]
          · exact advance
  · exact advance

variable {AddrDelta : UInt64}

theorem scaled (multiple : MinInst.toNat ∣ AddrDelta.toNat) :
    ScaleAddrDelta MinInst AddrDelta * MinInst.toUInt64 = AddrDelta := by
  rw [ScaleAddrDelta]
  split
  · next one =>
      rw [one]
      exact UInt64.mul_one AddrDelta
  · apply UInt64.toNat_inj.mp
    rw [UInt64.toNat_mul, UInt64.toNat_div, UInt8.toNat_toUInt64, Nat.div_mul_cancel multiple]
    exact Nat.mod_eq_of_lt AddrDelta.toNat_lt

/-- A pair of lines of 32 bits and of an address appends one row. -/
theorem does_Encode {LineDelta : Int} (low : -2 ^ 32 < LineDelta) (high : LineDelta < 2 ^ 32)
    (multiple : MinInst.toNat ∣ AddrDelta.toNat) :
    Does MinInst (Encode MinInst LineDelta AddrDelta) (step LineDelta AddrDelta) := by
  have notEnd : LineDelta ≠ INT64_MAX := by
    rw [INT64_MAX]
    omega
  have whole := scaled multiple
  rw [Encode, if_neg notEnd]
  dsimp only
  split
  · have advanced : Does MinInst (DW_LNS_advance_line :: encodeSLEB128 LineDelta) fun State =>
        State.advanceLine (UInt32.ofInt LineDelta) :=
      does_advance_line MinInst (by omega) (by omega)
    have inRange : 5 < 14 := by decide
    have copied := does_encodeStep MinInst true (ScaleAddrDelta MinInst AddrDelta) inRange
      (fun _ => rfl)
    refine (advanced.append copied).congr ?_
    intro State
    rw [whole]
    refine (step_advanceLine LineDelta _ AddrDelta State).trans ?_
    rw [show LineDelta + ((5 : Nat) - 5 : Int) = LineDelta by omega]
  · next inRange =>
      have biased : ofInt (LineDelta - DWARF2_LINE_BASE) =
          UInt64.ofNat ((LineDelta - DWARF2_LINE_BASE) % 2 ^ 64).toNat := rfl
      have bound : ((LineDelta - DWARF2_LINE_BASE) % 2 ^ 64).toNat < 14 := by
        rw [le_iff_toNat_le, biased, toNat_ofNat'] at inRange
        have range : DWARF2_LINE_RANGE.toNat = 14 := rfl
        omega
      have line : LineDelta = (((LineDelta - DWARF2_LINE_BASE) % 2 ^ 64).toNat : Int) - 5 := by
        rw [DWARF2_LINE_BASE] at bound ⊢
        omega
      have once := does_encodeStep MinInst false (ScaleAddrDelta MinInst AddrDelta) bound
        (fun copied => absurd copied (by decide))
      rw [<- line, whole] at once
      exact once

theorem does_Encode_end (multiple : MinInst.toNat ∣ AddrDelta.toNat) :
    Does MinInst (Encode MinInst INT64_MAX AddrDelta) fun State =>
      endSequence (State.advanceAddress AddrDelta) := by
  have whole := scaled multiple
  rw [Encode, if_pos rfl, encodeEnd]
  split
  · next most =>
      have advanced := (does_const_add_pc MinInst).append (does_end MinInst)
      rwa [<- most, whole] at advanced
  · split
    · have advanced := (does_advance_pc MinInst (ScaleAddrDelta MinInst AddrDelta)).append
        (does_end MinInst)
      rwa [whole] at advanced
    · next none =>
        have zero : AddrDelta = 0 := by
          rw [<- whole, not_not.mp none, zero_mul]
        refine (does_end MinInst).congr ?_
        intro State
        rw [zero, ParsingState.advanceAddress, add_zero]

/-- The bytes of a sequence of pairs. -/
def encodePairs (MinInst : UInt8) (pairs : List (Int × UInt64)) : List UInt8 :=
  pairs.flatMap fun pair => Encode MinInst pair.1 pair.2

/-- A pair whose line is the difference of two lines and whose address is a number of
instructions. -/
structure Encodable (MinInst : UInt8) (pair : Int × UInt64) : Prop where
  low : -2 ^ 32 < pair.1
  high : pair.1 < 2 ^ 32
  multiple : MinInst.toNat ∣ pair.2.toNat

theorem does_encodePairs {pairs : List (Int × UInt64)}
    (encodable : ∀ pair ∈ pairs, Encodable MinInst pair) :
    Does MinInst (encodePairs MinInst pairs) fun State =>
      pairs.foldl (fun State pair => step pair.1 pair.2 State) State := by
  induction pairs with
  | nil =>
    intro de RMap end_offset State offset rest encoded _
    refine ⟨?_, encoded⟩
    have same : offset + UInt32.ofNat (encodePairs MinInst []).length = offset :=
      UInt32.add_zero offset
    rw [same]
    exact RunsTo.refl _
  | cons pair pairs ih =>
    have first := encodable pair mem_cons_self
    have others := ih fun pair inside =>
      encodable pair (mem_cons_of_mem _ inside)
    exact (does_Encode first.low first.high first.multiple).append others

/-- The row that a pair appends: the running sums, with the registers of the row that the
sequence starts from. -/
def rowAfter (Row : Row) (pairs : List (Int × UInt64)) (k : Nat) : DWARFDebugLine.Row :=
  { (if k = 0 then Row else Row.postAppend) with
    Line := Row.Line + UInt32.ofInt (((pairs.take (k + 1)).map Prod.fst).sum)
    Address := Row.Address + ((pairs.take (k + 1)).map Prod.snd).sum }

theorem step_Row (LineDelta : Int) (AddrDelta : UInt64) (State : ParsingState) :
    (step LineDelta AddrDelta State).Row =
      { State.Row.postAppend with
        Line := State.Row.Line + UInt32.ofInt LineDelta
        Address := State.Row.Address + AddrDelta } :=
  ParsingState.appendRowToMatrix_Row _

theorem step_Rows (LineDelta : Int) (AddrDelta : UInt64) (State : ParsingState) :
    (step LineDelta AddrDelta State).LineTable.Rows = State.LineTable.Rows ++
      [{ State.Row with
        Line := State.Row.Line + UInt32.ofInt LineDelta
        Address := State.Row.Address + AddrDelta }] :=
  ParsingState.appendRowToMatrix_Rows _

theorem rowAfter_cons (State : ParsingState) (pair : Int × UInt64) (pairs : List (Int × UInt64))
    (k : Nat) :
    rowAfter (step pair.1 pair.2 State).Row pairs k = rowAfter State.Row (pair :: pairs) (k + 1) := by
  rw [rowAfter, rowAfter, step_Row, if_neg (Nat.succ_ne_zero k), take_succ_cons, map_cons,
    map_cons, sum_cons, sum_cons, UInt32.ofInt_add, UInt32.add_assoc, add_assoc]
  by_cases zero : k = 0
  · rw [if_pos zero]
  · rw [if_neg zero]
    rfl

theorem foldl_step_Rows (State : ParsingState) (pairs : List (Int × UInt64)) :
    (pairs.foldl (fun State pair => step pair.1 pair.2 State) State).LineTable.Rows =
      State.LineTable.Rows ++ (List.range pairs.length).map (rowAfter State.Row pairs) := by
  induction pairs generalizing State with
  | nil => exact (append_nil _).symm
  | cons pair pairs ih =>
    have first : rowAfter State.Row (pair :: pairs) 0 =
        { State.Row with
          Line := State.Row.Line + UInt32.ofInt pair.1
          Address := State.Row.Address + pair.2 } := by
      rw [rowAfter, if_pos rfl, take_succ_cons, take_zero, map_singleton,
        map_singleton, sum_singleton, sum_singleton]
    rw [foldl_cons, ih, step_Rows, length_cons,
      range_succ_eq_map, map_cons, map_map, first, append_assoc]
    congr 1
    apply congrArg (List.cons _)
    exact map_congr_left fun k _ => rowAfter_cons State pair pairs k

theorem foldl_step_Prologue (State : ParsingState) (pairs : List (Int × UInt64)) :
    (pairs.foldl (fun State pair => step pair.1 pair.2 State) State).LineTable.Prologue =
      State.LineTable.Prologue := by
  induction pairs generalizing State with
  | nil => rfl
  | cons pair pairs ih =>
    rw [foldl_cons, ih, step_Prologue]

/-- The registers behind the pairs. -/
def rowBehind (Row : Row) (pairs : List (Int × UInt64)) : DWARFDebugLine.Row :=
  { (if pairs = [] then Row else Row.postAppend) with
    Line := Row.Line + UInt32.ofInt ((pairs.map Prod.fst).sum)
    Address := Row.Address + (pairs.map Prod.snd).sum }

section

variable (State : ParsingState)

theorem foldl_step_Row (pairs : List (Int × UInt64)) :
    (pairs.foldl (fun State pair => step pair.1 pair.2 State) State).Row =
      rowBehind State.Row pairs := by
  induction pairs generalizing State with
  | nil =>
    rw [rowBehind, if_pos rfl]
    change State.Row =
      { State.Row with Line := State.Row.Line + 0, Address := State.Row.Address + 0 }
    rw [UInt32.add_zero, add_zero]
  | cons pair pairs ih =>
    rw [foldl_cons, ih, rowBehind, rowBehind, step_Row, if_neg (cons_ne_nil pair pairs), map_cons,
      map_cons, sum_cons, sum_cons, UInt32.ofInt_add, UInt32.add_assoc, add_assoc]
    by_cases none : pairs = []
    · rw [if_pos none]
    · rw [if_neg none]
      rfl

theorem endSequence_Rows :
    (endSequence State).LineTable.Rows =
      State.LineTable.Rows ++ [{ State.Row with EndSequence := true }] :=
  ParsingState.appendRowToMatrix_Rows _

theorem endSequence_Prologue :
    (endSequence State).LineTable.Prologue = State.LineTable.Prologue :=
  ParsingState.appendRowToMatrix_Prologue _

theorem endSequence_Row :
    (endSequence State).Row = Row.reset (State.LineTable.Prologue.DefaultIsStmt ≠ 0) := by
  rw [<- endSequence_Prologue State]
  rfl

end

/-- The loop reads back what `Encode` writes: one row for each pair with the running sums,
then the row that ends the sequence, after which the registers are reset. -/
theorem opcodeLoop_Encode {pairs : List (Int × UInt64)} {last : UInt64} (encodable : ∀ pair ∈ pairs,
    Encodable MinInst pair) (multiple : MinInst.toNat ∣ last.toNat) (encoded : Encoded MinInst
    State.LineTable.Prologue) (stands : StandsAt de offset (encodePairs MinInst pairs ++ Encode
    MinInst INT64_MAX last) rest) (ends : offset.toNat + (encodePairs MinInst pairs ++ Encode
    MinInst INT64_MAX last).length = end_offset.toNat) :
    ∃ bound Final, (∀ fuel, bound <= fuel ->
        opcodeLoop de RMap end_offset fuel State offset = some (Final, end_offset)) ∧
      Final.LineTable.Rows =
        State.LineTable.Rows ++ (List.range pairs.length).map (rowAfter State.Row pairs) ++
          [{ rowBehind State.Row pairs with
            Address := (rowBehind State.Row pairs).Address + last, EndSequence := true }] ∧
      Final.LineTable.Prologue = State.LineTable.Prologue ∧
      Final.Row = Row.reset (State.LineTable.Prologue.DefaultIsStmt ≠ 0) ∧
      Final.Sequence = Sequence.reset := by
  have placed : Placed de end_offset offset _ rest := ⟨stands, le_of_eq ends⟩
  have does := (does_encodePairs encodable).append (does_Encode_end multiple)
  rcases does de RMap end_offset State offset rest encoded placed with ⟨⟨bound, ran⟩, _⟩
  have arrived : offset + UInt32.ofNat
      (encodePairs MinInst pairs ++ Encode MinInst INT64_MAX last).length = end_offset := by
    have small := end_offset.toNat_lt
    apply UInt32.toNat_inj.mp
    rw [UInt32.toNat_add, UInt32.toNat_ofNat']
    omega
  refine ⟨bound, endSequence ((pairs.foldl (fun State pair => step pair.1 pair.2 State)
    State).advanceAddress last), ?_, ?_, ?_, ?_, ?_⟩
  · intro fuel enough
    have whole := ran (fuel - bound)
    rw [Nat.add_sub_cancel' enough, arrived] at whole
    rw [whole]
    cases fuel - bound <;> exact if_neg (UInt32.lt_irrefl end_offset)
  · rw [endSequence_Rows, ParsingState.advanceAddress, foldl_step_Rows, foldl_step_Row]
  · rw [endSequence_Prologue, ParsingState.advanceAddress, foldl_step_Prologue]
  · rw [endSequence_Row, ParsingState.advanceAddress, foldl_step_Prologue]
  · rfl

/-- A special opcode, an advance of the line, an advance of the address, and the end. -/
def exampleBytes : List UInt8 := [47, 3, 0xe4, 0, 1, 2, 0xe8, 7, 18, 8, 0, 1, 1]

def exampleState : ParsingState :=
  ⟨⟨{ OpcodeBase := 13, LineBase := -5, LineRange := 14, MinInstLength := 1 }, [], []⟩, 0,
    Row.reset true, Sequence.reset⟩

def exampleData : DataExtractor := ⟨exampleBytes, true, 8, by decide, addressSize_eight⟩

theorem exampleBytes_eq : exampleBytes =
    encodePairs 1 [(1, 2), (100, 0), (0, 1000)] ++ Encode 1 INT64_MAX 17 := by
  have line : encodeSLEB128 100 = [0xe4, 0] := by
    rw [encodeSLEB128, encodeSLEB128]
    rfl
  have address : encodeULEB128 1000 = [0xe8, 7] := by
    rw [encodeULEB128, encodeULEB128]
    rfl
  have second : Encode 1 100 0 = [3, 0xe4, 0, 1] := congrArg (fun bytes => 3 :: (bytes ++ [1])) line
  have third : Encode 1 0 1000 = [2, 0xe8, 7, 18] :=
    congrArg (fun bytes => 2 :: (bytes ++ [18])) address
  rw [encodePairs, flatMap_cons, flatMap_cons, flatMap_cons, second, third]
  rfl

theorem opcodeLoop_Encode_three :
    ∃ bound Final, (∀ fuel, bound <= fuel ->
        opcodeLoop exampleData (fun _ => none) 13 fuel exampleState 0 = some (Final, 13)) ∧
      Final.LineTable.Rows =
        exampleState.LineTable.Rows ++
          (List.range 3).map (rowAfter exampleState.Row [(1, 2), (100, 0), (0, 1000)]) ++
          [{ rowBehind exampleState.Row [(1, 2), (100, 0), (0, 1000)] with
            Address := (rowBehind exampleState.Row [(1, 2), (100, 0), (0, 1000)]).Address + 17
            EndSequence := true }] ∧
      Final.LineTable.Prologue = exampleState.LineTable.Prologue ∧
      Final.Row = Row.reset (exampleState.LineTable.Prologue.DefaultIsStmt ≠ 0) ∧
      Final.Sequence = Sequence.reset := by
  have stands : StandsAt exampleData 0
      (encodePairs 1 [(1, 2), (100, 0), (0, 1000)] ++ Encode 1 INT64_MAX 17) [] := by
    rw [<- exampleBytes_eq]
    rfl
  have header : Encoded 1 exampleState.LineTable.Prologue := ⟨rfl, rfl, rfl, rfl⟩
  refine opcodeLoop_Encode ?_ (by decide) header stands ?_
  · intro pair inside
    simp only [mem_cons, not_mem_nil, or_false] at inside
    rcases inside with rfl | rfl | rfl <;> exact ⟨by decide, by decide, by decide⟩
  · rw [<- exampleBytes_eq]
    rfl

end MCDwarf
end LlvmProject
