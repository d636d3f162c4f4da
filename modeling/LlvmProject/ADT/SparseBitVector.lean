import LlvmProject.Library.BitWords

namespace LlvmProject
namespace ADT

/-!
# Sparse bit vectors

A sparse bit vector stores the elements that have non-zero bits set, in a
linked list with a pointer to the last element accessed.  Searches start from
that pointer.

An iterator of a list is the position of its element, or the number of elements
for the end.  Inserting and erasing an element moves the cached iterator with
its element, and a cached iterator whose element was erased has no position.
An access through an iterator without an element has no result.  The other
numbers are unsigned; the wrap-around is written where it can happen.
-/

open BitWords

/-- The parameters of the template. -/
structure Layout where
  ElementSize : Nat
  BITWORD_SIZE : Nat
  elementSize_pos : 0 < ElementSize
  bitwordSize_pos : 0 < BITWORD_SIZE

/-- The default parameters on a machine with long words. -/
def Layout.default : Layout := ⟨128, 64, by decide, by decide⟩

def Layout.BITWORDS_PER_ELEMENT (L : Layout) : Nat :=
  (L.ElementSize + L.BITWORD_SIZE - 1) / L.BITWORD_SIZE

/-- The bits of one element, and its index in terms of where the first bit
starts. -/
structure SparseBitVectorElement (L : Layout) where
  ElementIndex : Nat
  Bits : List (BitVec L.BITWORD_SIZE)
  length_Bits : Bits.length = L.BITWORDS_PER_ELEMENT
  deriving DecidableEq

variable {L : Layout}

namespace SparseBitVectorElement

/-- A new element has no bits. -/
def new (Idx : Nat) : SparseBitVectorElement L :=
  ⟨Idx, List.replicate L.BITWORDS_PER_ELEMENT 0, List.length_replicate⟩

/-- Return the bits that make up a word in our element. -/
def word (e : SparseBitVectorElement L) (Idx : Nat) : Option (BitVec L.BITWORD_SIZE) := e.Bits[Idx]?

def index (e : SparseBitVectorElement L) : Nat := e.ElementIndex

def empty (e : SparseBitVectorElement L) : Bool := isZero e.Bits

def set (e : SparseBitVectorElement L) (Idx : Nat) : SparseBitVectorElement L :=
  { e with Bits := setBit e.Bits Idx, length_Bits := by rw [setBit, List.length_modify, e.length_Bits] }

def reset (e : SparseBitVectorElement L) (Idx : Nat) : SparseBitVectorElement L :=
  { e with
    Bits := clearBit e.Bits Idx
    length_Bits := by rw [clearBit, List.length_modify, e.length_Bits] }

def test (e : SparseBitVectorElement L) (Idx : Nat) : Bool := testBit e.Bits Idx

def count (e : SparseBitVectorElement L) : Nat := (e.Bits.map population).sum

/-- The index of the first set bit.  It cannot be reached without one. -/
def find_first (e : SparseBitVectorElement L) : Option Nat := lowest e.Bits 0

/-- The index of the next set bit starting from a bit, or none, which is `-1`
in the source. -/
def find_next (e : SparseBitVectorElement L) (Curr : Nat) : Option Nat :=
  if Curr >= L.ElementSize then none else lowestFrom e.Bits Curr

/-- Whether two elements have a word each with a common bit. -/
def intersects (e RHS : SparseBitVectorElement L) : Bool :=
  (List.zipWith (fun x y => y &&& x) e.Bits RHS.Bits).any (· != 0)

/-- An operation on all words, with another element. -/
def combine (op : BitVec L.BITWORD_SIZE -> BitVec L.BITWORD_SIZE -> BitVec L.BITWORD_SIZE)
    (e RHS : SparseBitVectorElement L) : SparseBitVectorElement L :=
  { e with
    Bits := List.zipWith op e.Bits RHS.Bits
    length_Bits := by rw [List.length_zipWith, e.length_Bits, RHS.length_Bits, Nat.min_self] }

/-- Whether one of the words is not what it was. -/
def changed (old new : SparseBitVectorElement L) : Bool :=
  (old.Bits.zip new.Bits).any fun words => words.1 != words.2

/-- Union this element with another and return true if this one changed. -/
def unionWith (e RHS : SparseBitVectorElement L) : SparseBitVectorElement L × Bool :=
  let result := combine (· ||| ·) e RHS
  (result, changed e result)

/-- Intersect this element with another and return true if this one changed,
and whether it became all-zero bits. -/
def intersectWith (e RHS : SparseBitVectorElement L) : SparseBitVectorElement L × Bool × Bool :=
  let result := combine (· &&& ·) e RHS
  (result, changed e result, isZero result.Bits)

/-- Intersect this element with the complement of another, with the results of
`intersectWith`.  The form with three elements puts the words into a new one
with the index of the first. -/
def intersectWithComplement (e RHS : SparseBitVectorElement L) :
    SparseBitVectorElement L × Bool × Bool :=
  let result := combine (fun x y => x &&& ~~~y) e RHS
  (result, changed e result, isZero result.Bits)

end SparseBitVectorElement

open SparseBitVectorElement

/-- The pointer to our current element, and the elements. -/
structure SparseBitVector (L : Layout) where
  CurrElementIter : Option Nat
  Elements : List (SparseBitVectorElement L)

namespace SparseBitVector

def new : SparseBitVector L := ⟨some 0, []⟩

/-! ## The list -/

/-- Insert before a position. -/
def insert (v : SparseBitVector L) (pos : Nat) (e : SparseBitVectorElement L) : SparseBitVector L where
  CurrElementIter := v.CurrElementIter.map fun curr => if pos <= curr then curr + 1 else curr
  Elements := v.Elements.insertIdx pos e

/-- Erase the element at a position. -/
def erase (v : SparseBitVector L) (pos : Nat) : SparseBitVector L where
  CurrElementIter := v.CurrElementIter.bind fun curr =>
    if curr = pos then none else some (if pos < curr then curr - 1 else curr)
  Elements := v.Elements.eraseIdx pos

/-- Clear.  The end stays the end. -/
def clear (v : SparseBitVector L) : SparseBitVector L where
  CurrElementIter := v.CurrElementIter.bind fun curr =>
    if curr = v.Elements.length then some 0 else none
  Elements := []

/-! ## Bits -/

/-- Search backwards, no further than to the beginning, for an element that is
not after an index. -/
def searchBackwards (Elements : List (SparseBitVectorElement L)) (ElementIndex : Nat) : Nat -> Nat
  | 0 => 0
  | pos + 1 =>
    if Elements[pos + 1]?.any (fun e => e.index > ElementIndex) then
      searchBackwards Elements ElementIndex pos
    else pos + 1

/-- Search forwards, no further than to the end, for an element that is not
before an index. -/
def searchForwards (Elements : List (SparseBitVectorElement L)) (ElementIndex pos : Nat) : Nat :=
  pos + (Elements.drop pos).findIdx fun e => !decide (e.index < ElementIndex)

/-- This is like a lower bound, except we do linear searching from the current
position.  The result can be before the lower bound. -/
def FindLowerBound (v : SparseBitVector L) (ElementIndex : Nat) :
    Option (Nat × SparseBitVector L) := do
  if v.Elements.isEmpty then return (0, { v with CurrElementIter := some 0 })
  let curr <- v.CurrElementIter
  let curr := if curr = v.Elements.length then curr - 1 else curr
  let e <- v.Elements[curr]?
  let ElementIter :=
    if e.index = ElementIndex then curr
    else if e.index > ElementIndex then searchBackwards v.Elements ElementIndex curr
    else searchForwards v.Elements ElementIndex curr
  return (ElementIter, { v with CurrElementIter := some ElementIter })

/-- Test a bit in the bitmap. -/
def test (v : SparseBitVector L) (Idx : Nat) : Option (Bool × SparseBitVector L) := do
  if v.Elements.isEmpty then return (false, v)
  let ElementIndex := Idx / L.ElementSize
  let (ElementIter, v) <- v.FindLowerBound ElementIndex
  match v.Elements[ElementIter]? with
  | none => return (false, v)
  | some e => return (if e.index = ElementIndex then e.test (Idx % L.ElementSize) else false, v)

/-- Reset a bit in the bitmap.  When the element is zeroed out, delete it. -/
def reset (v : SparseBitVector L) (Idx : Nat) : Option (SparseBitVector L) := do
  if v.Elements.isEmpty then return v
  let ElementIndex := Idx / L.ElementSize
  let (ElementIter, v) <- v.FindLowerBound ElementIndex
  match v.Elements[ElementIter]? with
  | none => return v
  | some e =>
    if e.index ≠ ElementIndex then return v
    else
      let e := e.reset (Idx % L.ElementSize)
      let v := { v with Elements := v.Elements.set ElementIter e }
      if e.empty then
        let v := { v with CurrElementIter := v.CurrElementIter.map (· + 1) }
        return v.erase ElementIter
      else return v

/-- The end of `set`: the bit is set in the element of the iterator, which
becomes the current one. -/
def setAt (v : SparseBitVector L) (ElementIter Idx : Nat) : Option (SparseBitVector L) := do
  let e <- v.Elements[ElementIter]?
  return {
    CurrElementIter := some ElementIter
    Elements := v.Elements.set ElementIter (e.set (Idx % L.ElementSize)) }

/-- Set a bit in the bitmap. -/
def set (v : SparseBitVector L) (Idx : Nat) : Option (SparseBitVector L) := do
  let ElementIndex := Idx / L.ElementSize
  if v.Elements.isEmpty then (v.insert 0 (.new ElementIndex)).setAt 0 Idx
  else
    let (ElementIter, v) <- v.FindLowerBound ElementIndex
    match v.Elements[ElementIter]? with
    | none => (v.insert ElementIter (.new ElementIndex)).setAt ElementIter Idx
    | some e =>
      if e.index = ElementIndex then v.setAt ElementIter Idx
      -- The lower bound may be the element before, and insert does insert before.
      else if e.index < ElementIndex then
        (v.insert (ElementIter + 1) (.new ElementIndex)).setAt (ElementIter + 1) Idx
      else (v.insert ElementIter (.new ElementIndex)).setAt ElementIter Idx

def test_and_set (v : SparseBitVector L) (Idx : Nat) : Option (Bool × SparseBitVector L) := do
  let (old, v) <- v.test Idx
  if !old then return (true, <- v.set Idx) else return (false, v)

/-! ## Operations with other vectors -/

def assign (RHS : SparseBitVector L) : SparseBitVector L := ⟨some 0, RHS.Elements⟩

/-- Compare the elements one by one. -/
def equalElements : List (SparseBitVectorElement L) -> List (SparseBitVectorElement L) -> Bool
  | [], [] => true
  | e :: l, e' :: l' =>
    if e.ElementIndex ≠ e'.ElementIndex ∨ e.Bits ≠ e'.Bits then false else equalElements l l'
  | _, _ => false

def equal (v RHS : SparseBitVector L) : Bool := equalElements v.Elements RHS.Elements

/-- The loop of the union, from two iterators on.  The second component is
whether this bitmap changed. -/
def orElements : List (SparseBitVectorElement L) -> List (SparseBitVectorElement L) ->
    List (SparseBitVectorElement L) × Bool
  | l, [] => (l, false)
  | [], e' :: l' => (e' :: (orElements [] l').1, true)
  | e :: l, e' :: l' =>
    if e.index > e'.index then (e' :: (orElements (e :: l) l').1, true)
    else if e.index = e'.index then
      let (e, changed) := e.unionWith e'
      let (l, rest) := orElements l l'
      (e :: l, changed || rest)
    else
      let (l, rest) := orElements l (e' :: l')
      (e :: l, rest)
termination_by l l' => l.length + l'.length

/-- Union our bitmap with another and return true if we changed. -/
def orAssign (v RHS : SparseBitVector L) : SparseBitVector L × Bool :=
  if RHS.Elements.isEmpty then (v, false)
  else
    let (Elements, changed) := orElements v.Elements RHS.Elements
    (⟨some 0, Elements⟩, changed)

/-- The loop of the intersection, from two iterators on.  What is left at the
end is erased. -/
def andElements : List (SparseBitVectorElement L) -> List (SparseBitVectorElement L) ->
    List (SparseBitVectorElement L) × Bool
  | _, [] => ([], false)
  | [], _ :: _ => ([], false)
  | e :: l, e' :: l' =>
    if e.index > e'.index then andElements (e :: l) l'
    else if e.index = e'.index then
      let (e, changed, BecameZero) := e.intersectWith e'
      let (l, rest) := andElements l l'
      (if BecameZero then l else e :: l, changed || rest)
    else andElements l (e' :: l')
termination_by l l' => l.length + l'.length

/-- Intersect our bitmap with another. -/
def andAssign (v RHS : SparseBitVector L) : SparseBitVector L × Bool :=
  if v.Elements.isEmpty && RHS.Elements.isEmpty then (v, false)
  else
    let (Elements, changed) := andElements v.Elements RHS.Elements
    (⟨some 0, Elements⟩, changed)

/-- The loop of the intersection with a complement, from two iterators on. -/
def andComplementElements : List (SparseBitVectorElement L) -> List (SparseBitVectorElement L) ->
    List (SparseBitVectorElement L) × Bool
  | l, [] => (l, false)
  | [], _ :: _ => ([], false)
  | e :: l, e' :: l' =>
    if e.index > e'.index then andComplementElements (e :: l) l'
    else if e.index = e'.index then
      let (e, changed, BecameZero) := e.intersectWithComplement e'
      let (l, rest) := andComplementElements l l'
      (if BecameZero then l else e :: l, changed || rest)
    else
      let (l, rest) := andComplementElements l (e' :: l')
      (e :: l, rest)
termination_by l l' => l.length + l'.length

/-- Intersect our bitmap with the complement of another and return true if ours
changed. -/
def intersectWithComplement (v RHS : SparseBitVector L) : SparseBitVector L × Bool :=
  if v.Elements.isEmpty || RHS.Elements.isEmpty then (v, false)
  else
    let (Elements, changed) := andComplementElements v.Elements RHS.Elements
    (⟨some 0, Elements⟩, changed)

/-- The form of `intersectWithComplement` that stores the result for two other
bitmaps.  The current element is the end, which was the beginning of the empty
list the elements are added to. -/
def intersectWithComplementOf (RHS1 RHS2 : SparseBitVector L) : SparseBitVector L :=
  let Elements := (andComplementElements RHS1.Elements RHS2.Elements).1
  ⟨some Elements.length, Elements⟩

/-- The loop of `intersects`, from two iterators on. -/
def intersectsElements : List (SparseBitVectorElement L) -> List (SparseBitVectorElement L) -> Bool
  | _, [] => false
  | [], _ :: _ => false
  | e :: l, e' :: l' =>
    if e.index > e'.index then intersectsElements (e :: l) l'
    else if e.index = e'.index then e.intersects e' || intersectsElements l l'
    else intersectsElements l (e' :: l')
termination_by l l' => l.length + l'.length

/-- Return true if we share any bits in common with another bitmap. -/
def intersects (v RHS : SparseBitVector L) : Bool :=
  !(v.Elements.isEmpty && RHS.Elements.isEmpty) && intersectsElements v.Elements RHS.Elements

/-- Intersect a copy with another bitmap, and compare the two. -/
def contains (v RHS : SparseBitVector L) : Bool := ((assign v).andAssign RHS).1.equal RHS

/-! ## Queries -/

/-- Return the first set bit in the bitmap, as an `int`.  Return `-1` if no
bits are set. -/
def find_first (v : SparseBitVector L) : Option Int :=
  match v.Elements with
  | [] => some (-1)
  | First :: _ => do
    let BitPos <- First.find_first
    return (BitVec.ofNat 32 (First.index * L.ElementSize + BitPos)).toInt

def count (v : SparseBitVector L) : Nat :=
  (v.Elements.map SparseBitVectorElement.count).sum % 2 ^ 32

end SparseBitVector

/-! ## The iterator -/

/-- Iterator to walk set bits in the bitmap.  The elements from the current one
on stand for the list iterator. -/
structure SparseBitVectorIterator (L : Layout) where
  AtEnd : Bool
  Iter : List (SparseBitVectorElement L)
  BitNumber : Nat
  WordNumber : Nat
  Bits : BitVec L.BITWORD_SIZE

namespace SparseBitVectorIterator

/-- Set up for the first non-zero word of an element. -/
def enter (it : SparseBitVectorIterator L) (e : SparseBitVectorElement L) :
    Option (SparseBitVectorIterator L) := do
  let BitPos <- e.find_first
  let BitNumber := (e.index * L.ElementSize + BitPos) % 2 ^ 32
  let WordNumber := BitNumber % L.ElementSize / L.BITWORD_SIZE
  let Bits <- e.word WordNumber
  return { it with
    BitNumber := BitNumber
    WordNumber := WordNumber
    Bits := Bits >>> (BitPos % L.BITWORD_SIZE) }

/-- Enter the current element.  We may have run out of elements in the
bitmap. -/
def enterCurrent (it : SparseBitVectorIterator L) : Option (SparseBitVectorIterator L) :=
  match it.Iter with
  | [] => some { it with AtEnd := true }
  | e :: _ => it.enter e

/-- Move our iterator to the first non-zero bit in the bitmap. -/
def AdvanceToFirstNonZero (it : SparseBitVectorIterator L) : Option (SparseBitVectorIterator L) :=
  if it.AtEnd then some it else it.enterCurrent

/-- Skip the zero bits at the bottom of the current bits. -/
def skipZeros {w : Nat} (Bits : BitVec w) (BitNumber : Nat) : BitVec w × Nat :=
  if Bits ≠ 0 ∧ Bits.getLsbD 0 = false then skipZeros (Bits >>> 1) ((BitNumber + 1) % 2 ^ 32)
  else (Bits, BitNumber)
termination_by Bits.toNat
decreasing_by
  rename_i nonzero
  have positive : 0 < Bits.toNat :=
    Nat.pos_of_ne_zero fun zero => nonzero.1 (BitVec.eq_of_toNat_eq zero)
  rw [BitVec.toNat_ushiftRight, Nat.shiftRight_one]
  exact Nat.div_lt_self positive (by decide)

/-- Move our iterator to the next non-zero bit. -/
def AdvanceToNextNonZero (it : SparseBitVectorIterator L) : Option (SparseBitVectorIterator L) :=
  if it.AtEnd then some it
  else
    let (Bits, BitNumber) := skipZeros it.Bits it.BitNumber
    let it := { it with Bits := Bits, BitNumber := BitNumber }
    -- See if we ran out of bits in this word.
    if Bits ≠ 0 then some it
    else
      match it.Iter with
      | [] => none
      | e :: rest =>
        match e.find_next (BitNumber % L.ElementSize), decide (BitNumber % L.ElementSize = 0) with
        | some NextSetBitNumber, false => do
          let WordNumber := NextSetBitNumber % L.ElementSize / L.BITWORD_SIZE
          let Bits <- e.word WordNumber
          return { it with
            WordNumber := WordNumber
            Bits := Bits >>> (NextSetBitNumber % L.BITWORD_SIZE)
            BitNumber := (e.index * L.ElementSize + NextSetBitNumber) % 2 ^ 32 }
        -- If we ran out of set bits in this element, move to next element.
        | _, _ => enterCurrent { it with Iter := rest, WordNumber := 0 }

/-- Preincrement. -/
def increment (it : SparseBitVectorIterator L) : Option (SparseBitVectorIterator L) :=
  AdvanceToNextNonZero { it with BitNumber := (it.BitNumber + 1) % 2 ^ 32, Bits := it.Bits >>> 1 }

def equal (it RHS : SparseBitVectorIterator L) : Bool :=
  if it.AtEnd && RHS.AtEnd then true
  else it.AtEnd == RHS.AtEnd && RHS.BitNumber == it.BitNumber

/-- An iterator at the beginning of the elements. -/
def new (v : SparseBitVector L) (isEnd : Bool) : Option (SparseBitVectorIterator L) :=
  AdvanceToFirstNonZero ⟨isEnd, v.Elements, 0, 2 ^ 32 - 1, 0⟩

end SparseBitVectorIterator

namespace SparseBitVector

def beginIterator (v : SparseBitVector L) : Option (SparseBitVectorIterator L) :=
  SparseBitVectorIterator.new v false

def endIterator (v : SparseBitVector L) : Option (SparseBitVectorIterator L) :=
  SparseBitVectorIterator.new v true

end SparseBitVector

/-- The numbers of the bits an iteration walks until it is equal to the
end. -/
inductive Walks (last : SparseBitVectorIterator L) : SparseBitVectorIterator L -> List Nat -> Prop
  | done {it} (atLast : it.equal last = true) : Walks last it []
  | next {it it' numbers} (before : it.equal last = false) (step : it.increment = some it')
      (rest : Walks last it' numbers) : Walks last it (it.BitNumber :: numbers)

end ADT
end LlvmProject
