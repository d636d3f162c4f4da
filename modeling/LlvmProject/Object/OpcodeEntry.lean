import LlvmProject.Support.LEB128Decode

namespace LlvmProject
namespace MachO

/-!
# Iterators over compressed tables

`MachORebaseEntry` and `MachOBindEntry` unpack a table while they go through it.
Both repeat an entry as often as the last opcode says, advance the offset before
the next entry, and then run opcodes up to the next one that makes an entry.
What they share is stated once here, for any further fields `F` and any meaning
of the opcodes.

`Ptr` is the bytes from the pointer to the end of the opcodes.  Reading at the
end has no result, so that `readULEB128` never passes it and does not set
`Malformed`.
-/

structure OpcodeEntry (F : Type) where
  Ptr : List UInt8
  SegmentOffset : UInt64
  SegmentIndex : UInt32
  RemainingLoopCount : UInt64
  AdvanceAmount : UInt64
  PointerSize : UInt8
  Malformed : Bool
  Done : Bool
  fields : F
  deriving DecidableEq

/-- What an iterator reports. -/
structure TableItem (F : Type) where
  segmentIndex : UInt32
  segmentOffset : UInt64
  fields : F
  deriving DecidableEq

namespace OpcodeEntry

variable {F : Type}

def item (e : OpcodeEntry F) : TableItem F := ⟨e.SegmentIndex, e.SegmentOffset, e.fields⟩

def moveToEnd (e : OpcodeEntry F) : OpcodeEntry F :=
  { e with Ptr := [], RemainingLoopCount := 0, Done := true }

/-- `operator==` with the entry that `moveToEnd` made. -/
def AtEnd (e : OpcodeEntry F) : Prop := e.Ptr = [] ∧ e.RemainingLoopCount = 0 ∧ e.Done = true

instance (e : OpcodeEntry F) : Decidable e.AtEnd := inferInstanceAs (Decidable (_ ∧ _))

def readULEB128 (e : OpcodeEntry F) : Option (UInt64 × OpcodeEntry F) :=
  (decodeULEB128 e.Ptr).map fun (Result, Ptr) => (Result, { e with Ptr })

/-- The body of the loop of `moveNext` behind the byte of the opcode, and whether
the loop goes on.  It does not go back. -/
structure Opcodes (F : Type) where
  step : OpcodeEntry F -> UInt8 -> Option (OpcodeEntry F × Bool)
  advances : ∀ e Byte e' more, step e Byte = some (e', more) -> e'.Ptr.length <= e.Ptr.length

/-- `while (More && !Malformed)`. -/
def loop (opcodes : Opcodes F) (e : OpcodeEntry F) : Option (OpcodeEntry F) :=
  if e.Malformed then some e
  else
    match bytes : e.Ptr with
    | [] => none
    | Byte :: Ptr =>
      match ran : opcodes.step { e with Ptr } Byte with
      | none => none
      | some (e', false) => some e'
      | some (e', true) =>
        have : e'.Ptr.length < e.Ptr.length := by
          rw [bytes]
          exact Nat.lt_succ_of_le (opcodes.advances _ _ _ _ ran)
        loop opcodes e'
termination_by e.Ptr.length

def moveNext (opcodes : Opcodes F) (e : OpcodeEntry F) : Option (OpcodeEntry F) :=
  let e := { e with SegmentOffset := e.SegmentOffset + e.AdvanceAmount }
  if e.RemainingLoopCount ≠ 0 then
    some { e with RemainingLoopCount := e.RemainingLoopCount - 1 }
  else if e.Ptr = [] then some { e with Done := true }
  else loop opcodes e

/-- The entry before `moveToFirst`. -/
def new (Bytes : List UInt8) (is64Bit : Bool) (fields : F) : OpcodeEntry F where
  Ptr := Bytes
  SegmentOffset := 0
  SegmentIndex := 0
  RemainingLoopCount := 0
  AdvanceAmount := 0
  PointerSize := if is64Bit then 8 else 4
  Malformed := false
  Done := false
  fields := fields

def moveToFirst (opcodes : Opcodes F) (Opcodes : List UInt8) (e : OpcodeEntry F) :
    Option (OpcodeEntry F) :=
  moveNext opcodes { e with Ptr := Opcodes }

/-- The iteration from the entry to the end terminates, and it reports the items. -/
inductive Yields (opcodes : Opcodes F) : OpcodeEntry F -> List (TableItem F) -> Prop where
  | atEnd {e : OpcodeEntry F} (ended : e.AtEnd) : Yields opcodes e []
  | next {e e' : OpcodeEntry F} {items : List (TableItem F)} (more : ¬ e.AtEnd)
      (moved : e.moveNext opcodes = some e') (further : Yields opcodes e' items) :
      Yields opcodes e (e.item :: items)

end OpcodeEntry
end MachO
end LlvmProject

namespace LlvmProject
namespace MachO

/-!
## The meaning of opcodes

A format reads one operation at a time from the bytes.  The items of a table are
those that its operations report, up to the end of the table or the first
operation that cannot be read.
-/

/-- What an opcode does: it sets fields, the segment or the offset, reports items
at equal distances or one item alone, or ends the table. -/
inductive Operation (F : Type) where
  | set (update : F -> F)
  | seek (segment : UInt32) (offset : Nat)
  | add (dist : Nat)
  | times (count dist : Nat)
  | mark (update : F -> F)
  | done

namespace Operation

variable {F : Type}

/-- The items that the operation reports. -/
def reports (here : TableItem F) : Operation F -> List (TableItem F)
  | times count dist => (List.range count).map fun i =>
    { here with segmentOffset := here.segmentOffset + .ofNat (i * dist) }
  | mark update => [{ here with fields := update here.fields }]
  | _ => []

/-- Where the operation leaves the table. -/
def next (here : TableItem F) : Operation F -> TableItem F
  | set update => { here with fields := update here.fields }
  | seek segment offset => { here with segmentIndex := segment, segmentOffset := .ofNat offset }
  | add dist => { here with segmentOffset := here.segmentOffset + .ofNat dist }
  | times count dist =>
    { here with segmentOffset := here.segmentOffset + .ofNat (count * dist) }
  | mark update => { here with fields := update here.fields }
  | done => here

def ends : Operation F -> Bool
  | done => true
  | _ => false

end Operation

/-- An operation, whether its operands can be decoded, and the bytes behind it. -/
structure Reading (F : Type) where
  operation : Operation F
  fits : Bool
  rest : List UInt8

/-- How the operation behind an opcode byte is read.  None is read from an unknown
opcode or from operands that are not complete. -/
structure Format (F : Type) where
  read : UInt8 -> List UInt8 -> Option (Reading F)
  advances : ∀ Byte p reading, read Byte p = some reading -> reading.rest.length <= p.length

namespace Format

variable {F : Type} (format : Format F)

/-- The items that the bytes report from a position on. -/
def items (bytes : List UInt8) (here : TableItem F) : List (TableItem F) :=
  match bytes with
  | [] => []
  | Byte :: p =>
    match reads : format.read Byte p with
    | none => []
    | some reading =>
      have : reading.rest.length <= p.length := format.advances _ _ _ reads
      reading.operation.reports here ++
        if reading.operation.ends then []
        else items reading.rest (reading.operation.next here)
termination_by bytes.length

/-- The bytes can be followed: every operation can be read and its operands decoded,
no operation reports its items zero times, and the last one ends the table or
reports items.  Behind a single item the distance of the last operation is added
once more, and no item is reported before the displacement is gone. -/
def Followed (bytes : List UInt8) (reported : Bool) (dist displacement : UInt64) : Prop :=
  match bytes with
  | [] => reported = true
  | Byte :: p =>
    match reads : format.read Byte p with
    | none => False
    | some reading =>
      have : reading.rest.length <= p.length := format.advances _ _ _ reads
      reading.fits = true ∧ match reading.operation with
      | .set _ => Followed reading.rest false dist displacement
      | .seek _ _ => Followed reading.rest false dist 0
      | .add _ => Followed reading.rest false dist displacement
      | .times count next =>
        0 < count ∧ displacement = 0 ∧ Followed reading.rest true (.ofNat next) 0
      | .mark _ => displacement = 0 ∧ Followed reading.rest true dist dist
      | .done => True
termination_by bytes.length
decreasing_by all_goals exact Nat.lt_succ_of_le this

variable {format} {Byte : UInt8} {p : List UInt8} {reading : Reading F} {here : TableItem F}
variable {reported : Bool} {dist displacement : UInt64}

theorem items_nil : format.items [] here = [] := by rw [items]

theorem items_none (missing : format.read Byte p = none) : format.items (Byte :: p) here = [] := by
  rw [items]
  split
  · rfl
  · rename_i reads
    exact nomatch missing.symm.trans reads

theorem items_some (reads : format.read Byte p = some reading) :
    format.items (Byte :: p) here = reading.operation.reports here ++
      if reading.operation.ends then []
      else format.items reading.rest (reading.operation.next here) := by
  rw [items]
  split
  · rename_i missing
    exact nomatch missing.symm.trans reads
  · rename_i reads'
    cases reads'.symm.trans reads
    rfl

theorem items_next (reads : format.read Byte p = some reading)
    (goes : reading.operation.ends = false) : format.items (Byte :: p) here =
      reading.operation.reports here ++
        format.items reading.rest (reading.operation.next here) := by
  rw [items_some reads, goes, if_neg Bool.false_ne_true]

theorem followed_nil : format.Followed [] reported dist displacement ↔ reported = true := by
  rw [Followed]

theorem followed_none (missing : format.read Byte p = none) :
    ¬ format.Followed (Byte :: p) reported dist displacement := by
  rw [Followed]
  split
  · exact id
  · rename_i reads
    exact nomatch missing.symm.trans reads

theorem followed_some (reads : format.read Byte p = some reading) :
    format.Followed (Byte :: p) reported dist displacement ↔
      reading.fits = true ∧ match reading.operation with
      | .set _ => format.Followed reading.rest false dist displacement
      | .seek _ _ => format.Followed reading.rest false dist 0
      | .add _ => format.Followed reading.rest false dist displacement
      | .times count next =>
        0 < count ∧ displacement = 0 ∧ format.Followed reading.rest true (.ofNat next) 0
      | .mark _ => displacement = 0 ∧ format.Followed reading.rest true dist dist
      | .done => True := by
  rw [Followed]
  split
  · rename_i missing
    exact nomatch missing.symm.trans reads
  · rename_i reads'
    cases reads'.symm.trans reads
    rfl

theorem followed_cons : format.Followed (Byte :: p) true dist displacement ↔
    format.Followed (Byte :: p) false dist displacement := by
  cases reads : format.read Byte p with
  | none => exact iff_of_false (followed_none reads) (followed_none reads)
  | some reading => rw [followed_some reads, followed_some reads]

end Format

/-! ## Opcodes and their meaning -/

namespace OpcodeEntry

variable {F : Type}

/-- The entry after the operation, and whether the loop goes on. -/
def run (e : OpcodeEntry F) : Operation F -> OpcodeEntry F × Bool
  | .set update => ({ e with fields := update e.fields }, true)
  | .seek segment offset =>
    ({ e with SegmentIndex := segment, SegmentOffset := .ofNat offset }, true)
  | .add dist => ({ e with SegmentOffset := e.SegmentOffset + .ofNat dist }, true)
  | .times count dist =>
    ({ e with RemainingLoopCount := .ofNat count - 1, AdvanceAmount := .ofNat dist }, false)
  | .mark update => ({ e with fields := update e.fields }, false)
  | .done => (e.moveToEnd, false)

/-- The opcodes run the operations that the format reads.  Where it reads none, they
fail or report an item from which the iteration does not come back. -/
structure Implements (opcodes : Opcodes F) (format : Format F) (PointerSize : UInt8) : Prop where
  run {e : OpcodeEntry F} {Byte : UInt8} {reading : Reading F} (size : e.PointerSize = PointerSize)
    (reads : format.read Byte e.Ptr = some reading) : opcodes.step e Byte =
      if reading.fits then some (({ e with Ptr := reading.rest } : OpcodeEntry F).run
        reading.operation) else none
  bogus {e e' : OpcodeEntry F} {Byte : UInt8} {more : Bool} (size : e.PointerSize = PointerSize)
    (missing : format.read Byte e.Ptr = none) (ran : opcodes.step e Byte = some (e', more)) :
    e'.Done = e.Done ∧ (more = true -> e'.Malformed = true)
  count {Byte : UInt8} {p : List UInt8} {reading : Reading F} {count dist : Nat}
    (reads : format.read Byte p = some reading)
    (operation : reading.operation = .times count dist) : count < 2 ^ 64

end OpcodeEntry
end MachO
end LlvmProject
