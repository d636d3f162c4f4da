import LlvmProject.DebugInfo.DWARFDebugLine

namespace LlvmProject

open Option DataExtractor

namespace DWARFDebugLine

/-!
# When the parser is total

An iteration of the loop goes forward when there is a byte at its offset, it divides by
a line range that is not zero, and the length of an unknown extended opcode does not
lead back.  The parser is total exactly when the number of opcodes in the header lets
`reserve` succeed and all iterations that it comes to are such.
-/

open DataExtractor (Advances)

variable {de : DataExtractor} {RMap : RelocAddrMap} {State : ParsingState}
  {offset end_offset : UInt32}

/-! ## The single iteration -/

theorem lebLoop_of_not_valid (read : DataExtractor.LEB128)
    (beyond : de.Data.length <= offset.toNat) : de.lebLoop read offset = (read, offset) := by
  rw [lebLoop, dif_neg (Nat.not_lt.mpr beyond)]

theorem getULEB128_of_not_valid (beyond : de.Data.length <= offset.toNat) :
    de.getULEB128 offset = (0, offset) := by
  rw [getULEB128, lebLoop_of_not_valid _ beyond]
  split <;> rfl

theorem skipOperands_advances (n : Nat) (offset : UInt32) :
    Advances de offset (skipOperands de n offset) := by
  induction n generalizing offset with
  | zero => exact Advances.refl de offset
  | succ n ih =>
    exact (getULEB128_advances offset).trans (ih _)

/-- The extended opcodes with a meaning. -/
def isKnown (sub_opcode : UInt8) : Bool :=
  sub_opcode = DW_LNE_end_sequence || sub_opcode = DW_LNE_set_address ||
    sub_opcode = DW_LNE_define_file || sub_opcode = DW_LNE_set_discriminator

/-- Where an unknown extended opcode leads: its length is counted from behind the length
on, and the opcode is counted once more if it is within the data. -/
def skipTarget (de : DataExtractor) (ext_offset : UInt32) : UInt32 :=
  let len := de.getULEB128 ext_offset
  ext_offset + len.1.toUInt32 + (if len.2.toNat < de.Data.length then 1 else 0)

theorem extendedOpcode_known (known : isKnown (de.getU8 (de.getULEB128 offset).2).1 = true) :
    Advances de offset (extendedOpcode de RMap State offset).2 := by
  have sub : Advances de offset (de.getU8 (de.getULEB128 offset).2).2 :=
    (getULEB128_advances offset).trans (getU8_advances _)
  simp only [isKnown, Bool.or_eq_true, decide_eq_true_iff] at known
  simp only [extendedOpcode]
  split
  · exact sub
  · split
    · exact sub.trans (getAddress_advances _)
    · split
      · have Name : Advances de _ _ :=
          getCStr_advances (de.getU8 (de.getULEB128 offset).2).2
        exact sub.trans (Name.trans (readFileNameEntry_advances de
          (de.getCStr (de.getU8 (de.getULEB128 offset).2).2).1 _))
      · split
        · exact sub.trans (getULEB128_advances _)
        · rename_i first second third fourth
          rcases known with ((one | two) | three) | four
          · exact absurd one first
          · exact absurd two second
          · exact absurd three third
          · exact absurd four fourth

theorem extendedOpcode_unknown (unknown : isKnown (de.getU8 (de.getULEB128 offset).2).1 = false) :
    (extendedOpcode de RMap State offset).2 = skipTarget de offset := by
  simp only [isKnown, Bool.or_eq_false_iff, decide_eq_false_iff_not] at unknown
  have behind : (de.getU8 (de.getULEB128 offset).2).2 =
      (de.getULEB128 offset).2 +
        (if (de.getULEB128 offset).2.toNat < de.Data.length then 1 else 0) := by
    by_cases valid : (de.getULEB128 offset).2.toNat < de.Data.length
    · rw [getU8_of_valid valid, if_pos valid]
    · rw [getU8_of_not_valid (Nat.not_lt.mp valid), if_neg valid, UInt32.add_zero]
  simp only [extendedOpcode, if_neg unknown.1.1.1, if_neg unknown.1.1.2, if_neg unknown.1.2,
    if_neg unknown.2]
  rw [behind, skipTarget, UInt64.toUInt32_sub, UInt32.toUInt32_toUInt64]
  grind

/-- An opcode that divides by the line range. -/
def divides (Prologue : Prologue) (opcode : UInt8) : Bool :=
  Prologue.OpcodeBase <= opcode || opcode = DW_LNS_const_add_pc

theorem addressAdvance_isSome_iff (Prologue : Prologue) (adjust_opcode : UInt8) :
    (∃ addr_offset, addressAdvance Prologue adjust_opcode = some addr_offset) ↔
      Prologue.LineRange ≠ 0 := by
  rw [addressAdvance]
  by_cases zero : Prologue.LineRange = 0
  · rw [if_pos zero]
    exact ⟨fun found => absurd found.choose_spec (by simp), fun some => absurd zero some⟩
  · rw [if_neg zero]
    exact ⟨fun _ => zero, fun _ => ⟨_, rfl⟩⟩

/-- The number of the lengths in the header. -/
def LengthsFit (Prologue : Prologue) : Prop :=
  Prologue.StandardOpcodeLengths.length + 1 = Prologue.OpcodeBase.toNat

theorem exists_some_ite {β : Type*} {cond : Prop} [Decidable cond] {first second : Option β}
    {property : β -> Prop} (pos : cond -> ∃ x, first = some x ∧ property x)
    (neg : ¬cond -> ∃ x, second = some x ∧ property x) :
    ∃ x, (if cond then first else second) = some x ∧ property x := by
  by_cases holds : cond
  · rw [if_pos holds]
    exact pos holds
  · rw [if_neg holds]
    exact neg holds

/-- A standard opcode goes forward, unless it divides by zero. -/
theorem standardOpcode_advances {opcode : UInt8} (lengths : LengthsFit State.LineTable.Prologue)
    (standard : opcode < State.LineTable.Prologue.OpcodeBase) (some_opcode : opcode ≠ 0)
    (range : opcode = DW_LNS_const_add_pc -> State.LineTable.Prologue.LineRange ≠ 0) :
    ∃ next, standardOpcode de State opcode offset = some next ∧ Advances de offset next.2 := by
  have here := Advances.refl de offset
  unfold standardOpcode
  dsimp only
  refine exists_some_ite (fun _ => ⟨_, rfl, here⟩) fun _ => ?_
  refine exists_some_ite (fun _ => ⟨_, rfl, getULEB128_advances offset⟩) fun _ => ?_
  refine exists_some_ite (fun _ => ⟨_, rfl, getSLEB128_advances offset⟩) fun _ => ?_
  refine exists_some_ite (fun _ => ⟨_, rfl, getULEB128_advances offset⟩) fun _ => ?_
  refine exists_some_ite (fun _ => ⟨_, rfl, getULEB128_advances offset⟩) fun _ => ?_
  refine exists_some_ite (fun _ => ⟨_, rfl, here⟩) fun _ => ?_
  refine exists_some_ite (fun _ => ⟨_, rfl, here⟩) fun _ => ?_
  refine exists_some_ite (fun isConst => ?_) fun _ => ?_
  · rcases (addressAdvance_isSome_iff _ _).mpr (range isConst) with ⟨_, found⟩
    rw [found]
    exact ⟨_, rfl, here⟩
  refine exists_some_ite (fun _ => ⟨_, rfl, getU16_advances offset⟩) fun _ => ?_
  refine exists_some_ite (fun _ => ⟨_, rfl, here⟩) fun _ => ?_
  refine exists_some_ite (fun _ => ⟨_, rfl, here⟩) fun _ => ?_
  refine exists_some_ite (fun _ => ⟨_, rfl, getULEB128_advances offset⟩) fun _ => ?_
  have pos : 0 < opcode.toNat := pos_of_ne_zero fun zero => some_opcode (UInt8.toNat_inj.mp zero)
  rw [UInt8.lt_iff_toNat_lt] at standard
  unfold LengthsFit at lengths
  have inside : opcode.toNat - 1 < State.LineTable.Prologue.StandardOpcodeLengths.length := by
    omega
  rw [List.getElem?_eq_getElem inside]
  exact ⟨_, rfl, skipOperands_advances _ offset⟩

/-- An iteration of the loop that goes forward, or beyond the end. -/
def Progresses (de : DataExtractor) (RMap : RelocAddrMap) (end_offset : UInt32)
    (s : ParsingState × UInt32) : Prop :=
  ∃ next, iteration de RMap s.1 s.2 = some next ∧ (s.2 < next.2 ∨ end_offset <= next.2)

/-- There is an opcode at the offset, it does not divide by zero, and if it is unknown
its length leads forward. -/
def Sound (de : DataExtractor) (Prologue : Prologue) (end_offset offset : UInt32) : Prop :=
  ∃ opcode, de.Data[offset.toNat]? = some opcode ∧
    (opcode ≠ 0 -> divides Prologue opcode = true -> Prologue.LineRange ≠ 0) ∧
    (opcode = 0 -> isKnown (de.getU8 (de.getULEB128 (offset + 1)).2).1 = false ->
      offset < skipTarget de (offset + 1) ∨ end_offset <= skipTarget de (offset + 1))

theorem progresses_iff (lengths : LengthsFit State.LineTable.Prologue)
    (within : offset < end_offset) :
    Progresses de RMap end_offset (State, offset) ↔
      Sound de State.LineTable.Prologue end_offset offset := by
  by_cases valid : offset.toNat < de.Data.length
  · have found : de.Data[offset.toNat]? = some de.Data[offset.toNat] :=
      List.getElem?_eq_getElem valid
    have next := toNat_add_one de valid
    have forward : ∀ {last}, Advances de (offset + 1) last -> offset < last := by
      intro last advances
      have bound := advances.1
      rw [UInt32.lt_iff_toNat_lt]
      omega
    simp only [Progresses, Sound, iteration, getU8_of_valid valid, found,
      some.injEq, exists_eq_left']
    by_cases extended : de.Data[offset.toNat] = 0
    · rw [if_pos extended]
      cases known : isKnown (de.getU8 (de.getULEB128 (offset + 1)).2).1 with
      | true =>
        constructor
        · exact fun _ => ⟨fun some => absurd extended some, fun _ never => by cases never⟩
        · exact fun _ => ⟨_, rfl, .inl (forward (extendedOpcode_known known))⟩
      | false =>
        have target : (extendedOpcode de RMap State (offset + 1)).2 =
            skipTarget de (offset + 1) := extendedOpcode_unknown known
        constructor
        · rintro ⟨last, same, progress⟩
          cases same
          rw [target] at progress
          exact ⟨fun some => absurd extended some, fun _ _ => progress⟩
        · rintro ⟨_, lands⟩
          exact ⟨_, rfl, by rw [target]; exact lands extended rfl⟩
    · rw [if_neg extended]
      by_cases standard : de.Data[offset.toNat] < State.LineTable.Prologue.OpcodeBase
      · rw [if_pos standard]
        have dividing : divides State.LineTable.Prologue de.Data[offset.toNat] = true ↔
            de.Data[offset.toNat] = DW_LNS_const_add_pc := by
          rw [divides, Bool.or_eq_true, decide_eq_true_iff, decide_eq_true_iff]
          exact ⟨fun either => either.resolve_left (UInt8.not_le.mpr standard), .inr⟩
        rw [dividing]
        constructor
        · rintro ⟨last, ran, _⟩
          refine ⟨fun _ isConst => ?_, fun zero => absurd zero extended⟩
          rw [isConst] at ran
          have mapped : (addressAdvance State.LineTable.Prologue
              (255 - State.LineTable.Prologue.OpcodeBase)).map
                (fun addr_offset => (State.advanceAddress addr_offset, offset + 1)) = some last :=
            ran
          rcases map_eq_some_iff.mp mapped with ⟨addr_offset, advance, _⟩
          exact (addressAdvance_isSome_iff _ _).mp ⟨addr_offset, advance⟩
        · rintro ⟨range, _⟩
          have advancing : ∃ last, standardOpcode de State de.Data[offset.toNat] (offset + 1) =
              some last ∧ Advances de (offset + 1) last.2 :=
            standardOpcode_advances lengths standard extended (range extended)
          rcases advancing with ⟨last, ran, advances⟩
          exact ⟨last, ran, .inl (forward advances)⟩
      · rw [if_neg standard]
        have dividing : divides State.LineTable.Prologue de.Data[offset.toNat] = true := by
          rw [divides, Bool.or_eq_true, decide_eq_true_iff]
          exact .inl (UInt8.not_lt.mp standard)
        constructor
        · rintro ⟨last, ran, _⟩
          refine ⟨fun _ _ => ?_, fun zero => absurd zero extended⟩
          rcases map_eq_some_iff.mp ran with ⟨appended, special, _⟩
          rcases map_eq_some_iff.mp special with ⟨addr_offset, advance, _⟩
          exact (addressAdvance_isSome_iff _ _).mp ⟨addr_offset, advance⟩
        · rintro ⟨range, _⟩
          rcases (addressAdvance_isSome_iff State.LineTable.Prologue
            (de.Data[offset.toNat] - State.LineTable.Prologue.OpcodeBase)).mpr
            (range extended dividing) with ⟨addr_offset, advance⟩
          have ran : ∃ appended, specialOpcode State de.Data[offset.toNat] = some appended := by
            rw [specialOpcode, advance]
            exact ⟨_, rfl⟩
          rcases ran with ⟨appended, ran⟩
          rw [ran]
          exact ⟨_, rfl, .inl (forward (Advances.refl de (offset + 1)))⟩
  · have missing : de.Data[offset.toNat]? = none := List.getElem?_eq_none (Nat.not_lt.mp valid)
    have beyond := Nat.not_lt.mp valid
    constructor
    · rintro ⟨last, ran, progress⟩
      have stays : last.2 = offset := by
        simp only [iteration, getU8_of_not_valid beyond, if_true] at ran
        rw [<- some.inj ran, extendedOpcode_unknown]
        · rw [skipTarget, getULEB128_of_not_valid beyond, if_neg valid]
          exact (UInt32.add_zero _).trans (UInt32.add_zero _)
        · rw [getULEB128_of_not_valid beyond, getU8_of_not_valid beyond]
          rfl
      rw [stays] at progress
      rcases progress with never | never
      · exact absurd never (UInt32.lt_irrefl _)
      · exact absurd within (UInt32.not_lt.mpr never)
    · rintro ⟨opcode, found, _⟩
      rw [missing] at found
      cases found

/-! ## The header stays -/

/-- The header without the files, to which the program can add. -/
def withoutFiles (Prologue : Prologue) : DWARFDebugLine.Prologue := { Prologue with FileNames := [] }

theorem fields_of_withoutFiles {first second : Prologue}
    (same : withoutFiles first = withoutFiles second) :
    first.LineRange = second.LineRange ∧ first.OpcodeBase = second.OpcodeBase ∧
      first.StandardOpcodeLengths = second.StandardOpcodeLengths := by
  simp only [withoutFiles, Prologue.mk.injEq] at same
  exact ⟨same.2.2.2.2.2.2.2.1, same.2.2.2.2.2.2.2.2.1, same.2.2.2.2.2.2.2.2.2.1⟩

theorem of_ite_some {β : Type*} {cond property : Prop} [Decidable cond]
    {first second : Option β} {x : β} (found : (if cond then first else second) = some x)
    (pos : first = some x -> property) (neg : second = some x -> property) : property := by
  by_cases holds : cond
  · rw [if_pos holds] at found
    exact pos found
  · rw [if_neg holds] at found
    exact neg found

theorem standardOpcode_Prologue {opcode : UInt8} {next : ParsingState × UInt32}
    (ran : standardOpcode de State opcode offset = some next) :
    next.1.LineTable.Prologue = State.LineTable.Prologue := by
  have kept : ∀ {s : ParsingState × UInt32}, some s = some next ->
      s.1.LineTable.Prologue = State.LineTable.Prologue ->
      next.1.LineTable.Prologue = State.LineTable.Prologue := by
    rintro s same kept
    rw [<- some.inj same, kept]
  unfold standardOpcode at ran
  dsimp only at ran
  refine of_ite_some ran (fun found => kept found (ParsingState.appendRowToMatrix_Prologue State)) fun ran => ?_
  refine of_ite_some ran (fun found => kept found rfl) fun ran => ?_
  refine of_ite_some ran (fun found => kept found rfl) fun ran => ?_
  refine of_ite_some ran (fun found => kept found rfl) fun ran => ?_
  refine of_ite_some ran (fun found => kept found rfl) fun ran => ?_
  refine of_ite_some ran (fun found => kept found rfl) fun ran => ?_
  refine of_ite_some ran (fun found => kept found rfl) fun ran => ?_
  refine of_ite_some ran (fun found => ?_) fun ran => ?_
  · rcases map_eq_some_iff.mp found with ⟨_, _, same⟩
    rw [<- same]
    rfl
  refine of_ite_some ran (fun found => kept found rfl) fun ran => ?_
  refine of_ite_some ran (fun found => kept found rfl) fun ran => ?_
  refine of_ite_some ran (fun found => kept found rfl) fun ran => ?_
  refine of_ite_some ran (fun found => kept found rfl) fun ran => ?_
  rcases map_eq_some_iff.mp ran with ⟨_, _, same⟩
  rw [<- same]

theorem extendedOpcode_Prologue (ext_offset : UInt32) :
    withoutFiles (extendedOpcode de RMap State ext_offset).1.LineTable.Prologue =
      withoutFiles State.LineTable.Prologue := by
  simp only [extendedOpcode]
  split
  · exact congrArg withoutFiles (ParsingState.appendRowToMatrix_Prologue _)
  · split
    · rfl
    · split
      · rfl
      · split <;> rfl

theorem iteration_Prologue {next : ParsingState × UInt32}
    (ran : iteration de RMap State offset = some next) :
    withoutFiles next.1.LineTable.Prologue = withoutFiles State.LineTable.Prologue := by
  simp only [iteration] at ran
  refine of_ite_some ran (fun found => ?_) fun ran => ?_
  · rw [<- some.inj found]
    exact extendedOpcode_Prologue _
  · refine of_ite_some ran (fun found => ?_) fun ran => ?_
    · rw [standardOpcode_Prologue found]
    · rcases map_eq_some_iff.mp ran with ⟨appended, special, same⟩
      rcases map_eq_some_iff.mp special with ⟨_, _, same'⟩
      rw [<- same, <- same']
      exact congrArg withoutFiles (ParsingState.appendRowToMatrix_Prologue _)

/-! ## The run of the loop -/

/-- The states that the loop comes to. -/
inductive Visits (de : DataExtractor) (RMap : RelocAddrMap) (end_offset : UInt32)
    (s : ParsingState × UInt32) : ParsingState × UInt32 -> Prop
  | start : Visits de RMap end_offset s s
  | next {t u : ParsingState × UInt32} : Visits de RMap end_offset s t -> t.2 < end_offset ->
      iteration de RMap t.1 t.2 = some u -> Visits de RMap end_offset s u

theorem Visits.header {s t : ParsingState × UInt32} (visits : Visits de RMap end_offset s t) :
    withoutFiles t.1.LineTable.Prologue = withoutFiles s.1.LineTable.Prologue := by
  induction visits with
  | start => rfl
  | next _ _ ran ih => exact (iteration_Prologue ran).trans ih

theorem opcodeLoop_ends {s : ParsingState × UInt32} (progress : ∀ t, Visits de RMap end_offset s t
    -> t.2 < end_offset -> Progresses de RMap end_offset t) :
    ∃ fuel result, opcodeLoop de RMap end_offset fuel s.1 s.2 = some result := by
  have bounded : ∀ n t, Visits de RMap end_offset s t -> end_offset.toNat - t.2.toNat < n ->
      ∃ fuel result, opcodeLoop de RMap end_offset fuel t.1 t.2 = some result := by
    intro n
    induction n with
    | zero => exact fun t _ bound => absurd bound (Nat.not_lt_zero _)
    | succ n ih =>
      intro t visits bound
      by_cases within : t.2 < end_offset
      · rcases progress t visits within with ⟨next, ran, forward⟩
        have rest : ∃ fuel result,
            opcodeLoop de RMap end_offset fuel next.1 next.2 = some result := by
          rcases forward with forward | beyond
          · apply ih next (visits.next within ran)
            rw [UInt32.lt_iff_toNat_lt] at within forward
            omega
          · exact ⟨0, next, if_neg (UInt32.not_lt.mpr beyond)⟩
        rcases rest with ⟨fuel, result, last⟩
        refine ⟨fuel + 1, result, ?_⟩
        rw [opcodeLoop, if_pos within, ran, bind_some, last]
      · exact ⟨0, t, if_neg within⟩
  exact bounded _ s Visits.start (Nat.lt_succ_self _)

/-! ## The whole parse -/

/-- The version in the header. -/
def headerVersion (de : DataExtractor) (offset : UInt32) : UInt16 :=
  (de.getU16 (de.getU32 offset).2).1

/-- The number of the first special opcode in the header. -/
def headerOpcodeBase (de : DataExtractor) (offset : UInt32) : UInt8 :=
  let PrologueLength := de.getU32 (de.getU16 (de.getU32 offset).2).2
  let MinInstLength := de.getU8 PrologueLength.2
  let MaxOpsPerInst :=
    if headerVersion de offset >= 4 then (de.getU8 MinInstLength.2).2 else MinInstLength.2
  let LineRange := de.getU8 (de.getU8 (de.getU8 MaxOpsPerInst).2).2
  (de.getU8 LineRange.2).1

theorem length_readLengths (n : Nat) (offset : UInt32) :
    (readLengths de n offset).1.length = n := by
  induction n generalizing offset with
  | zero => rfl
  | succ n ih => exact congrArg (· + 1) (ih _)

/-- The header can be read unless `reserve` fails, and its lengths fit if it is accepted. -/
theorem Prologue.parse_spec (de : DataExtractor) (offset : UInt32) :
    ((∃ header, Prologue.parse de offset = some header) ↔
      headerVersion de offset < 2 ∨ headerOpcodeBase de offset ≠ 0) ∧
    ∀ header, Prologue.parse de offset = some header -> header.1 = true ->
    LengthsFit header.2.1 := by
  unfold Prologue.parse
  dsimp only
  by_cases old : (de.getU16 (de.getU32 offset).2).1 < 2
  · rw [if_pos old]
    refine ⟨⟨fun _ => .inl old, fun _ => ⟨_, rfl⟩⟩, ?_⟩
    rintro header same accepted
    rw [<- some.inj same] at accepted
    cases accepted
  · rw [if_neg old]
    have base : (de.getU8 (de.getU8 (de.getU8 (de.getU8
        (if (de.getU16 (de.getU32 offset).2).1 >= 4 then
          de.getU8 (de.getU8 (de.getU32 (de.getU16 (de.getU32 offset).2).2).2).2
        else (0, (de.getU8 (de.getU32 (de.getU16 (de.getU32 offset).2).2).2).2)).2).2).2).2).1 =
        headerOpcodeBase de offset := by
      unfold headerOpcodeBase headerVersion
      dsimp only
      split <;> rfl
    rw [base]
    by_cases zero : headerOpcodeBase de offset = 0
    · rw [if_pos zero]
      constructor
      · constructor
        · exact fun found => absurd found.choose_spec (by simp)
        · rintro (never | never)
          · exact absurd never old
          · exact absurd zero never
      · rintro header never
        cases never
    · rw [if_neg zero]
      refine ⟨⟨fun _ => .inr zero, fun _ => ⟨_, rfl⟩⟩, ?_⟩
      rintro header same _
      rw [<- some.inj same, LengthsFit]
      dsimp only
      rw [length_readLengths]
      have pos : 0 < (headerOpcodeBase de offset).toNat :=
        pos_of_ne_zero fun none => zero (UInt8.toNat_inj.mp none)
      omega

/-- The state in which the loop begins, and where the table ends. -/
def startState (header : Bool × Prologue × UInt32) : ParsingState × UInt32 :=
  (⟨⟨header.2.1, [], []⟩, 0, Row.reset (header.2.1.DefaultIsStmt ≠ 0), Sequence.reset⟩, header.2.2)

def endOffset (debug_line_offset : UInt32) (header : Bool × Prologue × UInt32) : UInt32 :=
  debug_line_offset + header.2.1.TotalLength + 4

/-- An iteration of the loop that the parser comes to. -/
def Comes (de : DataExtractor) (RMap : RelocAddrMap) (offset : UInt32)
    (header : Bool × Prologue × UInt32) (s : ParsingState × UInt32) : Prop :=
  Prologue.parse de offset = some header ∧ header.1 = true ∧
    Visits de RMap (endOffset offset header) (startState header) s ∧ s.2 < endOffset offset header

/-- The parser ends without a division by zero, and each iteration of its loop goes
forward or ends the loop. -/
structure Total (de : DataExtractor) (RMap : RelocAddrMap) (offset : UInt32) : Prop where
  ends : ∃ fuel result, LineTable.parse de RMap fuel offset = some result
  progresses : ∀ header s, Comes de RMap offset header s ->
    Progresses de RMap (endOffset offset header) s

/-- The parser is total exactly when the header is old or has opcodes, and there is a sound
opcode wherever the loop comes to. -/
theorem parse_total_iff (de : DataExtractor) (RMap : RelocAddrMap) (offset : UInt32) :
    Total de RMap offset ↔
      (headerVersion de offset < 2 ∨ headerOpcodeBase de offset ≠ 0) ∧
        ∀ header s, Comes de RMap offset header s ->
          Sound de header.2.1 (endOffset offset header) s.2 := by
  rcases Prologue.parse_spec de offset with ⟨reads, lengths⟩
  have each : ∀ header s, Comes de RMap offset header s ->
      (Progresses de RMap (endOffset offset header) s ↔
        Sound de header.2.1 (endOffset offset header) s.2) := by
    rintro header ⟨State, here⟩ ⟨parsed, accepted, visits, within⟩
    have same : State.LineTable.Prologue.LineRange = header.2.1.LineRange ∧
        State.LineTable.Prologue.OpcodeBase = header.2.1.OpcodeBase ∧
        State.LineTable.Prologue.StandardOpcodeLengths = header.2.1.StandardOpcodeLengths :=
      fields_of_withoutFiles visits.header
    have fit : LengthsFit State.LineTable.Prologue := by
      have begins := lengths header parsed accepted
      unfold LengthsFit at begins ⊢
      rwa [same.2.1, same.2.2]
    rw [progresses_iff fit within]
    unfold Sound divides
    rw [same.1, same.2.1]
  constructor
  · rintro ⟨⟨fuel, result, parsed⟩, progresses⟩
    refine ⟨reads.mp ?_, fun header s comes => (each header s comes).mp (progresses header s comes)⟩
    rw [LineTable.parse] at parsed
    rcases bind_eq_some_iff.mp parsed with ⟨header, found, _⟩
    exact ⟨header, found⟩
  · rintro ⟨readable, sound⟩
    have progresses : ∀ header s, Comes de RMap offset header s ->
        Progresses de RMap (endOffset offset header) s := fun header s comes =>
      (each header s comes).mpr (sound header s comes)
    refine ⟨?_, progresses⟩
    rcases reads.mpr readable with ⟨header, found⟩
    cases accepted : header.1 with
    | false =>
      refine ⟨0, (false, ⟨header.2.1, [], []⟩, offset), ?_⟩
      rw [LineTable.parse, found, bind_some]
      dsimp only
      rw [accepted]
      rfl
    | true =>
      rcases opcodeLoop_ends (s := startState header) fun t visits within =>
        progresses header t ⟨found, accepted, visits, within⟩ with ⟨fuel, last, ran⟩
      have parsed : ∃ result, LineTable.parse de RMap fuel offset = some result := by
        rw [LineTable.parse, found, bind_some]
        dsimp only
        rw [accepted, if_pos rfl]
        exact ⟨_, map_eq_some_iff.mpr ⟨last, ran, rfl⟩⟩
      exact ⟨fuel, parsed⟩

/-- A table of sixteen bytes with the line range 0 and one special opcode. -/
def zeroLineRange : DataExtractor :=
  ⟨[12, 0, 0, 0, 2, 0, 5, 0, 0, 0, 1, 1, 0, 0, 1, 1], true, 8, by decide, addressSize_eight⟩

theorem Prologue.parse_zeroLineRange : ∃ header, Prologue.parse zeroLineRange 0 = some header ∧
    header.1 = true ∧ header.2.1.LineRange = 0 ∧ header.2.1.OpcodeBase = 1 ∧
      header.2.2 = 15 ∧ endOffset 0 header = 16 := by
  have directories : ∀ names, readDirectories zeroLineRange 15 15 names = (names, 15) := by
    intro names
    rw [readDirectories, if_neg (by decide)]
  have files : ∀ names, readFileNames zeroLineRange 15 15 names = (names, 15) := by
    intro names
    rw [readFileNames, if_neg (by decide)]
  have parsed : Prologue.parse zeroLineRange 0 = some
      (decide ((readFileNames zeroLineRange 15 (readDirectories zeroLineRange 15 15 []).2 []).2 = 15),
        ⟨12, 2, 5, 1, 0, 1, 0, 0, 1, [], (readDirectories zeroLineRange 15 15 []).1,
          (readFileNames zeroLineRange 15 (readDirectories zeroLineRange 15 15 []).2 []).1⟩,
        (readFileNames zeroLineRange 15 (readDirectories zeroLineRange 15 15 []).2 []).2) := rfl
  rw [directories, files] at parsed
  exact ⟨_, parsed, rfl, rfl, rfl, rfl, by decide⟩

theorem zeroLineRange_fails : ¬Total zeroLineRange (fun _ => none) 0 := by
  intro total
  rcases Prologue.parse_zeroLineRange with ⟨header, parsed, accepted, range, base, start, last⟩
  have sound := ((parse_total_iff zeroLineRange (fun _ => none) 0).mp total).2 header
    (startState header) ⟨parsed, accepted, Visits.start, by rw [startState, start, last]; decide⟩
  rcases sound with ⟨opcode, found, divisor, _⟩
  rw [show (startState header).2 = 15 from start] at found
  have one : opcode = 1 := (some.inj found).symm
  refine divisor (by rw [one]; decide) ?_ range
  rw [divides, base, one]
  decide

end DWARFDebugLine
end LlvmProject
