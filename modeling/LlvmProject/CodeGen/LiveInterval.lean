import LlvmProject.Library.IntervalList

namespace LlvmProject

open Function
namespace LiveInterval

/-!
# Live ranges

The segments of a live range are in a vector, or in a set while a range is first computed.
The calculations are written once for both.  An iterator is the segments before it, the
nearest one first, and those from it on.  A failing assertion gives no result.
-/

open IntervalList (Interval)

/-! ## Slots

Slots are numbered along the index list, with four slots to an entry. -/

namespace SlotIndex

def isDead (i : Nat) : Prop := i % 4 = 3

def getDeadSlot (i : Nat) : Nat := i / 4 * 4 + 3

def getNextSlot (i : Nat) : Nat := i + 1

/-- The first entry has no entry before it. -/
def getPrevSlot (i : Nat) : Option Nat := if i = 0 then none else some (i - 1)

def isSameInstr (A B : Nat) : Prop := A / 4 = B / 4

def isEarlierInstr (A B : Nat) : Prop := A / 4 < B / 4

instance (i : Nat) : Decidable (isDead i) := inferInstanceAs (Decidable (i % 4 = 3))

instance (A B : Nat) : Decidable (isSameInstr A B) := inferInstanceAs (Decidable (A / 4 = B / 4))

instance (A B : Nat) : Decidable (isEarlierInstr A B) := inferInstanceAs (Decidable (A / 4 < B / 4))

end SlotIndex

/-- The address of a value number. -/
abbrev VNInfoPtr := Nat

def nullptr : VNInfoPtr := 0

/-- The slot is invalid if the value is unused. -/
structure VNInfo where
  id : Nat
  defSlot : Option Nat

/-- The value of the interval is `valno`. -/
abbrev Segment := Interval Nat VNInfoPtr

def containsInterval (S : Segment) (Start End : Nat) : Prop :=
  (S.start <= Start ∧ Start < S.stop) ∧ S.start < End ∧ End <= S.stop

instance (S : Segment) (Start End : Nat) : Decidable (containsInterval S Start End) :=
  inferInstanceAs (Decidable ((S.start <= Start ∧ Start < S.stop) ∧ S.start < End ∧ End <= S.stop))

/-- The order of the set. -/
def less (A B : Segment) : Prop := A.start < B.start ∨ A.start = B.start ∧ A.stop < B.stop

instance (A B : Segment) : Decidable (less A B) :=
  inferInstanceAs (Decidable (A.start < B.start ∨ A.start = B.start ∧ A.stop < B.stop))

structure Iterator where
  before : List Segment
  after : List Segment

namespace Iterator

def segments (I : Iterator) : List Segment := I.before.reverse ++ I.after

def ofIndex (segments : List Segment) (n : Nat) : Iterator :=
  ⟨(segments.take n).reverse, segments.drop n⟩

/-- The first segment with the property, or the end. -/
def first (segments : List Segment) (p : Segment -> Bool) : Iterator :=
  ⟨(segments.takeWhile fun S => !p S).reverse, segments.dropWhile fun S => !p S⟩

end Iterator

/-! ## The two containers -/

/-- The methods in which the calculations on a vector and on a set differ. -/
structure CalcLiveRangeUtil where
  find : List Segment -> Nat -> Option Iterator
  findInsertPos : List Segment -> Segment -> Iterator
  insertAtEnd : List Segment -> Segment -> List Segment
  insert : Iterator -> Segment -> Iterator

/-- The number of the first segment that ends after the position.  The fuel is the number of
the segments. -/
def findLoop (segments : List Segment) (Pos : Nat) : Nat -> Nat -> Nat -> Option Nat
  | 0, _, _ => none
  | fuel + 1, I, Len =>
    let Mid := Len >>> 1
    (segments[I + Mid]?).bind fun S =>
      let next := if Pos < S.stop then (I, Mid) else (I + (Mid + 1), Len - (Mid + 1))
      if next.2 ≠ 0 then findLoop segments Pos fuel next.1 next.2 else some next.1

def find (segments : List Segment) (Pos : Nat) : Option Nat :=
  match segments.getLast? with
  | none => some 0
  | some last =>
    if last.stop <= Pos then some segments.length
    else findLoop segments Pos segments.length 0 segments.length

def CalcLiveRangeUtilVector : CalcLiveRangeUtil where
  find segments Pos := (find segments Pos).map (Iterator.ofIndex segments)
  findInsertPos segments S := Iterator.first segments fun other => S.start < other.start
  insertAtEnd segments S := segments ++ [S]
  insert I S := ⟨I.before, S :: I.after⟩

/-- A segment is inserted where it belongs, if there is no equivalent one. -/
def setInsert (segments : List Segment) (S : Segment) : Iterator :=
  let I := Iterator.first segments fun other => ¬less other S
  match I.after with
  | [] => ⟨I.before, [S]⟩
  | other :: after => if less S other then ⟨I.before, S :: other :: after⟩ else I

def CalcLiveRangeUtilSet : CalcLiveRangeUtil where
  find segments Pos :=
    let I := Iterator.first segments fun other =>
      less ⟨Pos, SlotIndex.getNextSlot Pos, nullptr⟩ other
    match I.before with
    | [] => some I
    | PrevI :: before => if Pos < PrevI.stop then some ⟨before, PrevI :: I.after⟩ else some I
  findInsertPos segments S :=
    let I := Iterator.first segments fun other => less S other
    match I.after with
    | [] => I
    | other :: after => if ¬S.start < other.start then ⟨other :: I.before, after⟩ else I
  insertAtEnd segments S := (setInsert segments S).segments
  insert I S := setInsert I.segments S

/-! ## Extending a segment -/

/-- The last segment that is merged, which the values allow, and those after it. -/
def mergeTo (ValNo : VNInfoPtr) (NewEnd : Nat) :
    Segment -> List Segment -> Option (Segment × List Segment)
  | last, [] => some (last, [])
  | last, MergeTo :: rest =>
    if MergeTo.stop <= NewEnd then
      if MergeTo.value = ValNo then mergeTo ValNo NewEnd MergeTo rest else none
    else some (last, MergeTo :: rest)

/-- The segment after a longer one is joined to it if they touch. -/
def joinNext (S : Segment) : List Segment -> Segment × List Segment
  | [] => (S, [])
  | MergeTo :: rest =>
    if MergeTo.start <= S.stop ∧ MergeTo.value = S.value then
      ({ S with stop := MergeTo.stop }, rest)
    else (S, MergeTo :: rest)

def extendSegmentEndTo (I : Iterator) (NewEnd : Nat) : Option Iterator :=
  match I.after with
  | [] => none
  | S :: after =>
    (mergeTo S.value NewEnd S after).map fun (last, rest) =>
      let joined := joinNext { S with stop := max NewEnd last.stop } rest
      ⟨I.before, joined.1 :: joined.2⟩

/-- Where the new start is after the start of a segment: that one, those before it, and the one
after it.  There is none at the beginning. -/
def mergeFrom (ValNo : VNInfoPtr) (NewStart : Nat) :
    Segment -> List Segment -> Option (Option (Segment × List Segment × Segment))
  | _, [] => some none
  | MergeTo, prev :: before =>
    if MergeTo.value = ValNo then
      if NewStart <= prev.start then mergeFrom ValNo NewStart prev before
      else some (some (prev, before, MergeTo))
    else none

/-- At the beginning the iterator stays at its segment. -/
def extendSegmentStartTo (I : Iterator) (NewStart : Nat) : Option Iterator :=
  match I.after with
  | [] => none
  | S :: after =>
    (mergeFrom S.value NewStart S I.before).map fun
      | none => ⟨[], { S with start := NewStart } :: after⟩
      | some (MergeTo, before, next) =>
        if NewStart <= MergeTo.stop ∧ MergeTo.value = S.value then
          ⟨before, { MergeTo with stop := S.stop } :: after⟩
        else ⟨MergeTo :: before, { next with start := NewStart, stop := S.stop } :: after⟩

/-! ## The calculations -/

/-- A segment that does not extend the one before its position. -/
def addBefore (impl : CalcLiveRangeUtil) (I : Iterator) (S : Segment) : Option Iterator :=
  match I.after with
  | [] => some (impl.insert I S)
  | next :: _ =>
    if S.value = next.value then
      if next.start <= S.stop then
        (extendSegmentStartTo I S.start).bind fun I =>
          match I.after with
          | [] => none
          | grown :: _ => if grown.stop < S.stop then extendSegmentEndTo I S.stop else some I
      else some (impl.insert I S)
    else if S.stop <= next.start then some (impl.insert I S)
    else none

/-- The iterator is at the segment that has the new one. -/
def addSegment (impl : CalcLiveRangeUtil) (segments : List Segment) (S : Segment) :
    Option Iterator :=
  let I := impl.findInsertPos segments S
  match I.before with
  | [] => addBefore impl I S
  | B :: before =>
    if S.value = B.value then
      if B.start <= S.start ∧ S.start <= B.stop then
        extendSegmentEndTo ⟨before, B :: I.after⟩ S.stop
      else addBefore impl I S
    else if B.stop <= S.start then addBefore impl I S
    else none

/-- The value that is live before the use in its block, or null. -/
def extendInBlock (impl : CalcLiveRangeUtil) (segments : List Segment)
    (StartIdx Use : Nat) : Option (VNInfoPtr × List Segment) :=
  if segments = [] then some (nullptr, segments)
  else
    (SlotIndex.getPrevSlot Use).bind fun prev =>
      let I := impl.findInsertPos segments ⟨prev, Use, nullptr⟩
      match I.before with
      | [] => some (nullptr, segments)
      | B :: before =>
        if B.stop <= StartIdx then some (nullptr, segments)
        else if B.stop < Use then
          (extendSegmentEndTo ⟨before, B :: I.after⟩ Use).map fun I => (B.value, I.segments)
        else some (B.value, segments)

/-! ## Live ranges with their values -/

structure LiveRange where
  segments : List Segment
  valnos : List VNInfoPtr
  info : VNInfoPtr -> VNInfo
  /-- The address of the next value number. -/
  allocator : VNInfoPtr

namespace LiveRange

variable (LR : LiveRange)

def getNextValue (defSlot : Nat) : VNInfoPtr × LiveRange :=
  (LR.allocator,
    { LR with
      valnos := LR.valnos ++ [LR.allocator]
      info := update LR.info LR.allocator ⟨LR.valnos.length, some defSlot⟩
      allocator := LR.allocator + 1 })

def isUnused (VNI : VNInfoPtr) : Bool := (LR.info VNI).defSlot = none

def createDeadDef (impl : CalcLiveRangeUtil) (Def : Nat) : Option (VNInfoPtr × LiveRange) :=
  if SlotIndex.isDead Def then none
  else
    (impl.find LR.segments Def).bind fun I =>
      let next := LR.getNextValue Def
      let dead : Segment := ⟨Def, SlotIndex.getDeadSlot Def, next.1⟩
      match I.after with
      | [] => some (next.1, { next.2 with segments := impl.insertAtEnd LR.segments dead })
      | S :: after =>
        if SlotIndex.isSameInstr Def S.start then
          if (LR.info S.value).defSlot = some S.start then
            let Def := min Def S.start
            if Def ≠ S.start then
              some (S.value, { LR with
                segments := Iterator.segments ⟨I.before, { S with start := Def } :: after⟩
                info := update LR.info S.value
                  { LR.info S.value with defSlot := some Def } })
            else some (S.value, LR)
          else none
        else if SlotIndex.isEarlierInstr Def S.start then
          some (next.1, { next.2 with segments := (impl.insert I dead).segments })
        else none

/-- The largest value number is taken out, with the unused ones below it.  Another one is
marked. -/
def markValNoForDeletion (ValNo : VNInfoPtr) : LiveRange :=
  if (LR.info ValNo).id + 1 = LR.valnos.length then
    { LR with valnos := (LR.valnos.dropLast.reverse.dropWhile LR.isUnused).reverse }
  else
    { LR with info := update LR.info ValNo { LR.info ValNo with defSlot := none } }

def removeSegment (Start End : Nat) (RemoveDeadValNo : Bool) : Option LiveRange :=
  (find LR.segments Start).bind fun i =>
    let I := Iterator.ofIndex LR.segments i
    match I.after with
    | [] => none
    | S :: after =>
      if Start < End ∧ containsInterval S Start End then
        if S.start = Start then
          if S.stop = End then
            let isDead := (I.before ++ after).all fun other => other.value ≠ S.value
            let marked := if RemoveDeadValNo && isDead then LR.markValNoForDeletion S.value else LR
            some { marked with segments := Iterator.segments ⟨I.before, after⟩ }
          else
            some { LR with
              segments := Iterator.segments ⟨I.before, { S with start := End } :: after⟩ }
        else if S.stop = End then
          some { LR with
            segments := Iterator.segments ⟨I.before, { S with stop := Start } :: after⟩ }
        else
          some { LR with
            segments := Iterator.segments
              ⟨I.before, { S with stop := Start } :: ⟨End, S.stop, S.value⟩ :: after⟩ }
      else none

def removeValNo (ValNo : VNInfoPtr) : LiveRange :=
  if LR.segments = [] then LR
  else
    { LR with segments := LR.segments.filter fun S => S.value ≠ ValNo }.markValNoForDeletion ValNo

/-- A segment gets the value, and is joined to the one before it with this value. -/
def mergePrevious (V2 : VNInfoPtr) (before : List Segment) (S : Segment) : List Segment × Segment :=
  match before with
  | [] => ([], { S with value := V2 })
  | Prev :: others =>
    if Prev.value = V2 ∧ Prev.stop = S.start then (others, { Prev with stop := S.stop })
    else (Prev :: others, { S with value := V2 })

/-- The segments that are done come first, the last one in front. -/
def mergeLoop (V1 V2 : VNInfoPtr) : List Segment -> List Segment -> List Segment
  | before, [] => before.reverse
  | before, S :: rest =>
    if S.value ≠ V1 then mergeLoop V1 V2 (S :: before) rest
    else
      let merged := mergePrevious V2 before S
      match rest with
      | [] => mergeLoop V1 V2 (merged.2 :: merged.1) []
      | next :: later =>
        if next.start = merged.2.stop ∧ next.value = V2 then
          mergeLoop V1 V2 ({ merged.2 with stop := next.stop } :: merged.1) later
        else mergeLoop V1 V2 (merged.2 :: merged.1) (next :: later)

/-- The smaller value number stays, and keeps the definition of the second one. -/
def MergeValueNumberInto (V1 V2 : VNInfoPtr) : Option (VNInfoPtr × LiveRange) :=
  if V1 = V2 then none
  else
    let swap := (LR.info V1).id < (LR.info V2).id
    let info := if swap then
        update LR.info V1 { LR.info V1 with defSlot := (LR.info V2).defSlot }
      else LR.info
    let gone := if swap then V2 else V1
    let kept := if swap then V1 else V2
    some (kept, { LR with info := info, segments := mergeLoop gone kept [] LR.segments
      }.markValNoForDeletion gone)

end LiveRange
end LiveInterval
end LlvmProject
