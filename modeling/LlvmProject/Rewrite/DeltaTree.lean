import LlvmProject.Library.Tally
import LlvmProject.Library.Weave
import Mathlib.Data.BitVec

namespace LlvmProject
namespace DeltaTree

/-!
# The tree of source deltas

A search tree maps positions in a file to deltas; every node keeps the sum of
all deltas in it and below it.  A position that has a delta is merged where it
is found, at any level.  A full node is split around its median, which moves
up; an interior node that is full when a median arrives from below is split
first, and the median goes into one of the halves.

Deltas are 32-bit integers that wrap around.  Arrays are the lists of their
used elements.  An access outside of them has no result.  The assertion that a
recorded delta is not zero is left to the callers.
-/

open Tally

/-- A position in the file, the key, with the delta there, the value. -/
abbrev SourceDelta : Type := Entry Nat (BitVec 32)

/-- Controls the number of values of a node. -/
def WidthFactor : Nat := 8

/-- The common part of all nodes, and the children of interior nodes. -/
inductive DeltaTreeNode
  | leaf (Values : List SourceDelta) (FullDelta : BitVec 32)
  | interior (Values : List SourceDelta) (Children : List DeltaTreeNode) (FullDelta : BitVec 32)
  deriving Repr

namespace DeltaTreeNode

def getFullDelta : DeltaTreeNode -> BitVec 32
  | leaf _ FullDelta => FullDelta
  | interior _ _ FullDelta => FullDelta

/-- Full nodes have `2 * WidthFactor - 1` values. -/
def isFull (Values : List SourceDelta) : Bool := Values.length == 2 * WidthFactor - 1

/-- A leaf with its full delta. -/
def recomputedLeaf (Values : List SourceDelta) : DeltaTreeNode := leaf Values (total Values)

/-- An interior node with its full delta, from its values and the full deltas
of its children. -/
def recomputedInterior (Values : List SourceDelta) (Children : List DeltaTreeNode) :
    DeltaTreeNode :=
  interior Values Children (total Values + (Children.map getFullDelta).sum)

/-- The two nodes and the value a split node becomes. -/
structure InsertResult where
  LHS : DeltaTreeNode
  RHS : DeltaTreeNode
  Split : SourceDelta

/-- What an insertion makes of a node. -/
inductive Insertion
  | done (node : DeltaTreeNode)
  | split (InsertRes : InsertResult)

/-- The first position whose value is not before the index. -/
def insertionPoint (FileIndex : Nat) (Values : List SourceDelta) : Nat :=
  Values.findIdx fun value => decide (FileIndex <= value.key)

/-- A record for exactly this file index. -/
def existingRecord (FileIndex : Nat) (Values : List SourceDelta) : Option SourceDelta :=
  Values[insertionPoint FileIndex Values]?.filter fun value => value.key == FileIndex

/-- Merge a delta into the record at the insertion point. -/
def mergeRecord (FileIndex : Nat) (Delta : BitVec 32) (value : SourceDelta)
    (Values : List SourceDelta) : List SourceDelta :=
  Values.set (insertionPoint FileIndex Values) ⟨FileIndex, value.value + Delta⟩

/-- Split a full leaf into two leaves and a pivot value. -/
def splitLeaf (Values : List SourceDelta) : Option InsertResult := do
  let Split <- Values[WidthFactor - 1]?
  return {
    LHS := recomputedLeaf (Values.take (WidthFactor - 1))
    RHS := recomputedLeaf (Values.drop WidthFactor)
    Split := Split }

/-- The halves of a full interior node, as values and children, and the pivot
value. -/
structure Halves where
  leftValues : List SourceDelta
  leftChildren : List DeltaTreeNode
  pivot : SourceDelta
  rightValues : List SourceDelta
  rightChildren : List DeltaTreeNode

/-- Split a full interior node. -/
def splitInterior (Values : List SourceDelta) (Children : List DeltaTreeNode) : Option Halves := do
  let pivot <- Values[WidthFactor - 1]?
  return {
    leftValues := Values.take (WidthFactor - 1)
    leftChildren := Children.take WidthFactor
    pivot := pivot
    rightValues := Values.drop WidthFactor
    rightChildren := Children.drop WidthFactor }

/-- The insertion into a leaf that has the position or has room for it. -/
def insertIntoLeaf (FileIndex : Nat) (Delta : BitVec 32) (Values : List SourceDelta)
    (FullDelta : BitVec 32) : Option DeltaTreeNode :=
  match existingRecord FileIndex Values with
  | some value => some (leaf (mergeRecord FileIndex Delta value Values) (FullDelta + Delta))
  | none =>
    if isFull Values then none
    else
      let i := insertionPoint FileIndex Values
      some (leaf (Values.insertIdx i ⟨FileIndex, Delta⟩) (FullDelta + Delta))

/-- The insertion into a leaf.  A full leaf is split, and the insertion into
one of the halves cannot fail. -/
def leafInsertion (FileIndex : Nat) (Delta : BitVec 32) (Values : List SourceDelta)
    (FullDelta : BitVec 32) : Option Insertion :=
  match insertIntoLeaf FileIndex Delta Values FullDelta with
  | some node => some (.done node)
  | none => do
    let InsertRes <- splitLeaf Values
    match InsertRes.LHS, InsertRes.RHS with
    | leaf leftValues leftDelta, leaf rightValues rightDelta =>
      if InsertRes.Split.key > FileIndex then
        let LHS <- insertIntoLeaf FileIndex Delta leftValues leftDelta
        return .split { InsertRes with LHS := LHS }
      else
        let RHS <- insertIntoLeaf FileIndex Delta rightValues rightDelta
        return .split { InsertRes with RHS := RHS }
    | _, _ => none

/-- A median that arrived from below is put into a half, and the node it was
split from is put after it. -/
def insertIntoHalf (Values : List SourceDelta) (Children : List DeltaTreeNode)
    (SubSplit : SourceDelta) (SubRHS : DeltaTreeNode) : DeltaTreeNode :=
  let i := insertionPoint SubSplit.key Values
  interior (Values.insertIdx i SubSplit) (Children.insertIdx (i + 1) SubRHS)
    (total Values + (Children.map getFullDelta).sum + (SubSplit.value + SubRHS.getFullDelta))

/-- The end of the insertion into an interior node, after the child was
split. -/
def childSplit (Values : List SourceDelta) (Children : List DeltaTreeNode) (FullDelta : BitVec 32)
    (i : Nat) (InsertRes : InsertResult) : Option Insertion :=
  let Children := Children.set i InsertRes.LHS
  if isFull Values then do
    let halves <- splitInterior Values Children
    if InsertRes.Split.key < halves.pivot.key then
      return .split {
        LHS := insertIntoHalf halves.leftValues halves.leftChildren InsertRes.Split InsertRes.RHS
        RHS := recomputedInterior halves.rightValues halves.rightChildren
        Split := halves.pivot }
    else
      return .split {
        LHS := recomputedInterior halves.leftValues halves.leftChildren
        RHS := insertIntoHalf halves.rightValues halves.rightChildren InsertRes.Split InsertRes.RHS
        Split := halves.pivot }
  else
    some (.done (interior (Values.insertIdx i InsertRes.Split)
      (Children.insertIdx (i + 1) InsertRes.RHS) FullDelta))

/-- Do an insertion of the specified FileIndex/Delta pair into this node. -/
def DoInsertion (FileIndex : Nat) (Delta : BitVec 32) : DeltaTreeNode -> Option Insertion
  | leaf Values FullDelta => leafInsertion FileIndex Delta Values FullDelta
  | interior Values Children FullDelta =>
    match existingRecord FileIndex Values with
    | some value =>
      some (.done (interior (mergeRecord FileIndex Delta value Values) Children
        (FullDelta + Delta)))
    | none =>
      let i := insertionPoint FileIndex Values
      match _found : Children[i]? with
      | none => none
      | some child =>
        match DoInsertion FileIndex Delta child with
        | none => none
        | some (.done child) =>
          some (.done (interior Values (Children.set i child) (FullDelta + Delta)))
        | some (.split InsertRes) =>
          childSplit Values Children (FullDelta + Delta) i InsertRes
termination_by node => node
decreasing_by
  have smaller := List.sizeOf_lt_of_mem (List.mem_of_getElem? _found)
  simp only [interior.sizeOf_spec]
  omega

/-- The values included in a query: those before the index. -/
def skippedValues (FileIndex : Nat) (Values : List SourceDelta) : List SourceDelta :=
  Values.take (insertionPoint FileIndex Values)

/-- Return the accumulated delta at the specified file offset, walking down
from a node. -/
def getDeltaAt (FileIndex : Nat) (Result : BitVec 32) : DeltaTreeNode -> Option (BitVec 32)
  | leaf Values _ => some (Result + total (skippedValues FileIndex Values))
  | interior Values Children _ =>
    let NumValsGreater := insertionPoint FileIndex Values
    let Result := Result + total (skippedValues FileIndex Values) +
      ((Children.take NumValsGreater).map getFullDelta).sum
    match _found : Children[NumValsGreater]? with
    | none => none
    | some child =>
      match existingRecord FileIndex Values with
      | some _ => some (Result + child.getFullDelta)
      | none => getDeltaAt FileIndex Result child
termination_by node => node
decreasing_by
  have smaller := List.sizeOf_lt_of_mem (List.mem_of_getElem? _found)
  simp only [interior.sizeOf_spec]
  omega

end DeltaTreeNode

open DeltaTreeNode

/-- The empty tree. -/
def empty : DeltaTreeNode := leaf [] 0

/-- When a change is made that shifts around the text buffer, this is used to
record that info.  A root that was split becomes the two children of a new
root. -/
def AddDelta (FileIndex : Nat) (Delta : BitVec 32) (Root : DeltaTreeNode) : Option DeltaTreeNode := do
  match <- Root.DoInsertion FileIndex Delta with
  | .done node => return node
  | .split InsertRes =>
    return interior [InsertRes.Split] [InsertRes.LHS, InsertRes.RHS]
      (InsertRes.LHS.getFullDelta + InsertRes.RHS.getFullDelta + InsertRes.Split.value)

/-- A sequence of recorded changes. -/
def AddDeltas (changes : List (Nat × BitVec 32)) (Root : DeltaTreeNode) : Option DeltaTreeNode :=
  changes.foldlM (fun Root change => AddDelta change.1 change.2 Root) Root

/-- Return the accumulated delta at the specified file offset.  This includes
all insertions or deletions that occurred before the specified file index. -/
def getDeltaAt (FileIndex : Nat) (Root : DeltaTreeNode) : Option (BitVec 32) :=
  Root.getDeltaAt FileIndex 0

end DeltaTree
end LlvmProject
