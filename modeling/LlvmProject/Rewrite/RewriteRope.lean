import Mathlib.Algebra.Order.Ring.Nat
import LlvmProject.Library.LinkedOrder

namespace LlvmProject
namespace RewriteRope

/-!
# The rope of a rewritten buffer

A text is kept as a sequence of pieces, each a view into a string.  The pieces
are in the leaves of a B+ tree whose nodes know how much text is below them,
and the leaves are also linked in order, for the iteration.  An insertion first
splits the piece around its offset; a full node is split into two halves.
Erasing destroys the nodes that lose all of their text and balances nothing.

Sizes and offsets are 32-bit unsigned and wrap around.  Arrays are the lists of
their used elements; an access outside of them, an access to a destroyed leaf
and a failed assertion have no result.  Leaves are told apart by an identifier,
their address.  The text is over any type of characters.
-/

open LinkedOrder

variable {α : Type}

/-- Addition of unsigned numbers. -/
def add32 (a b : Nat) : Nat := (a + b) % 2 ^ 32

/-- Subtraction of unsigned numbers. -/
def sub32 (a b : Nat) : Nat := (a + 2 ^ 32 - b) % 2 ^ 32

/-- Controls how wide the tree is. -/
def WidthFactor : Nat := 8

/-! ## Pieces -/

/-- A view into a string. -/
structure RopePiece (α : Type) where
  StrData : List α
  StartOffs : Nat
  EndOffs : Nat
  deriving DecidableEq, Repr

namespace RopePiece

def size (R : RopePiece α) : Nat := sub32 R.EndOffs R.StartOffs

/-- The characters of a piece. -/
def text (R : RopePiece α) : List α := (R.StrData.drop R.StartOffs).take R.size

end RopePiece

/-- The loop that passes elements while `more` holds of the offset behind the
next one.  It reads the element it stops at. -/
def passWhile (more : Nat -> Bool) : List Nat -> Nat -> Nat -> Option (Nat × Nat)
  | [], _, _ => none
  | size :: rest, i, offs =>
    if more (add32 offs size) then passWhile more rest (i + 1) (add32 offs size)
    else some (i, offs)

/-- The loop that passes elements until an offset is reached. -/
def passTo (Offset : Nat) : List Nat -> Nat -> Nat -> Option (Nat × Nat)
  | [], i, offs => if Offset > offs then none else some (i, offs)
  | size :: rest, i, offs =>
    if Offset > offs then passTo Offset rest (i + 1) (add32 offs size) else some (i, offs)

/-- The loop that passes children and makes the offset relative to the next. -/
def passChildren (Offset : Nat) : List Nat -> Nat -> Option (Nat × Nat)
  | [], _ => none
  | size :: rest, i =>
    if Offset >= size then passChildren (sub32 Offset size) rest (i + 1) else some (i, Offset)

/-! ## The order of the leaves -/

/-- The links between the leaves, and the address of the next new leaf. -/
structure LeafOrder where
  links : Links Nat
  fresh : Nat

namespace LeafOrder

/-- A new leaf is in no order. -/
def newLeaf (S : LeafOrder) : LeafOrder :=
  ⟨(S.links.setNext S.fresh none).setPrev S.fresh none, S.fresh + 1⟩

def insertAfterLeafInOrder (S : LeafOrder) (this Node : Nat) : Option LeafOrder :=
  if S.links.prev this = none ∧ S.links.next this = none then
    some { S with links := S.links.insertAfter Node this }
  else none

def removeFromLeafInOrder (S : LeafOrder) (this : Nat) : LeafOrder :=
  { S with links := S.links.remove this }

/-- The destructor of a leaf. -/
def deleteLeaf (S : LeafOrder) (this : Nat) : LeafOrder :=
  if S.links.prev this ≠ none ∨ S.links.next this ≠ none then S.removeFromLeafInOrder this else S

end LeafOrder

/-! ## Leaves -/

/-- Up to `2 * WidthFactor` pieces. -/
structure RopePieceBTreeLeaf (α : Type) where
  id : Nat
  Size : Nat
  Pieces : List (RopePiece α)
  deriving DecidableEq, Repr

namespace RopePieceBTreeLeaf

def isFull (L : RopePieceBTreeLeaf α) : Bool := L.Pieces.length == 2 * WidthFactor

def sizes (L : RopePieceBTreeLeaf α) : List Nat := L.Pieces.map RopePiece.size

/-- The size is the sum of the sizes of the pieces. -/
def FullRecomputeSizeLocally (L : RopePieceBTreeLeaf α) : RopePieceBTreeLeaf α :=
  { L with Size := L.sizes.foldl add32 0 }

/-- The insertion into a leaf that is not full, at a split. -/
def insertPiece (Offset : Nat) (R : RopePiece α) (L : RopePieceBTreeLeaf α) :
    Option (RopePieceBTreeLeaf α) := do
  let i <- if Offset = L.Size then some L.Pieces.length
    else do
      let (i, SlotOffs) <- passTo Offset L.sizes 0 0
      if SlotOffs = Offset then some i else none
  return { L with Pieces := L.Pieces.insertIdx i R, Size := add32 L.Size R.size }

/-- Insert a piece at a split.  A full leaf is split into two halves, and the
new leaf is returned too. -/
def insert (Offset : Nat) (R : RopePiece α) (L : RopePieceBTreeLeaf α) (S : LeafOrder) :
    Option (RopePieceBTreeLeaf α × Option (RopePieceBTreeLeaf α) × LeafOrder) :=
  if !L.isFull then do
    let L <- L.insertPiece Offset R
    return (L, none, S)
  else do
    let NewNode := FullRecomputeSizeLocally ⟨S.fresh, 0, L.Pieces.drop WidthFactor⟩
    let this := FullRecomputeSizeLocally { L with Pieces := L.Pieces.take WidthFactor }
    let S <- S.newLeaf.insertAfterLeafInOrder NewNode.id this.id
    if this.Size >= Offset then
      let this <- this.insertPiece Offset R
      return (this, some NewNode, S)
    else
      let NewNode <- NewNode.insertPiece (sub32 Offset this.Size) R
      return (this, some NewNode, S)

/-- Make sure that there is a split at an offset. -/
def split (Offset : Nat) (L : RopePieceBTreeLeaf α) (S : LeafOrder) :
    Option (RopePieceBTreeLeaf α × Option (RopePieceBTreeLeaf α) × LeafOrder) :=
  if Offset = 0 ∨ Offset = L.Size then some (L, none, S)
  else do
    let (i, PieceOffs) <- passWhile (· <= Offset) L.sizes 0 0
    if PieceOffs = Offset then some (L, none, S)
    else
      let IntraPieceOffset := sub32 Offset PieceOffs
      let piece <- L.Pieces[i]?
      let Tail := { piece with StartOffs := add32 piece.StartOffs IntraPieceOffset }
      let Head := { piece with EndOffs := add32 piece.StartOffs IntraPieceOffset }
      let Size := add32 (sub32 L.Size piece.size) Head.size
      insert Offset Tail { L with Pieces := L.Pieces.set i Head, Size := Size } S

/-- Move the start of a piece. -/
def shrinkPiece (StartPiece NumBytes : Nat) (L : RopePieceBTreeLeaf α) :
    Option (RopePieceBTreeLeaf α) := do
  let piece <- L.Pieces[StartPiece]?
  if piece.size > NumBytes then
    return { L with
      Pieces := L.Pieces.set StartPiece
        { piece with StartOffs := add32 piece.StartOffs NumBytes }
      Size := sub32 L.Size NumBytes }
  else none

/-- Remove text that starts at a split. -/
def erase (Offset NumBytes : Nat) (L : RopePieceBTreeLeaf α) : Option (RopePieceBTreeLeaf α) := do
  let (StartPiece, PieceOffs) <- passTo Offset L.sizes 0 0
  if PieceOffs = Offset then
    let (i, PieceOffs) <- passWhile (· < add32 Offset NumBytes) (L.sizes.drop StartPiece)
      StartPiece PieceOffs
    let piece <- L.Pieces[i]?
    let exactly := add32 Offset NumBytes = add32 PieceOffs piece.size
    let PieceOffs := if exactly then add32 PieceOffs piece.size else PieceOffs
    let i := if exactly then i + 1 else i
    let CoverBytes := sub32 PieceOffs Offset
    let covered := i ≠ StartPiece
    let NumBytes := if covered then sub32 NumBytes CoverBytes else NumBytes
    let L := if covered then
        { L with
          Pieces := L.Pieces.take StartPiece ++ L.Pieces.drop i
          Size := sub32 L.Size CoverBytes }
      else L
    if NumBytes = 0 then return L else L.shrinkPiece StartPiece NumBytes
  else none

end RopePieceBTreeLeaf

/-! ## Nodes -/

/-- A leaf, or an interior node with up to `2 * WidthFactor` children. -/
inductive RopePieceBTreeNode (α : Type)
  | leaf (L : RopePieceBTreeLeaf α)
  | interior (Size : Nat) (Children : List (RopePieceBTreeNode α))
  deriving Repr

namespace RopePieceBTreeNode

def size : RopePieceBTreeNode α -> Nat
  | leaf L => L.Size
  | interior Size _ => Size

/-- Full nodes have `2 * WidthFactor` children. -/
def isFull (Children : List (RopePieceBTreeNode α)) : Bool := Children.length == 2 * WidthFactor

/-- An interior node whose size is the sum of the sizes of its children. -/
def recomputedInterior (Children : List (RopePieceBTreeNode α)) : RopePieceBTreeNode α :=
  interior ((Children.map size).foldl add32 0) Children

/-- A new root, above two nodes. -/
def newInterior (LHS RHS : RopePieceBTreeNode α) : RopePieceBTreeNode α :=
  interior (add32 LHS.size RHS.size) [LHS, RHS]

/-- A child propagated a new node up, which becomes the next child.  A full
node is split into two halves, and the new node is returned too. -/
def HandleChildPiece (i : Nat) (RHS : RopePieceBTreeNode α) (Size : Nat)
    (Children : List (RopePieceBTreeNode α)) :
    RopePieceBTreeNode α × Option (RopePieceBTreeNode α) :=
  if !isFull Children then (interior Size (Children.insertIdx (i + 1) RHS), none)
  else
    let this := Children.take WidthFactor
    let NewNode := Children.drop WidthFactor
    if i < WidthFactor then
      (recomputedInterior (this.insertIdx (i + 1) RHS), some (recomputedInterior NewNode))
    else
      (recomputedInterior this,
        some (recomputedInterior (NewNode.insertIdx (i - WidthFactor + 1) RHS)))

/-- What becomes of an interior node when one of its children changed. -/
def handleChild (i : Nat) (Size : Nat) (Children : List (RopePieceBTreeNode α))
    (result : RopePieceBTreeNode α × Option (RopePieceBTreeNode α) × LeafOrder) :
    RopePieceBTreeNode α × Option (RopePieceBTreeNode α) × LeafOrder :=
  match result with
  | (Child, none, S) => (interior Size (Children.set i Child), none, S)
  | (Child, some RHS, S) =>
    let node := HandleChildPiece i RHS Size (Children.set i Child)
    (node.1, node.2, S)

/-- The result of an operation on a leaf, as nodes. -/
def ofLeaf (result : RopePieceBTreeLeaf α × Option (RopePieceBTreeLeaf α) × LeafOrder) :
    RopePieceBTreeNode α × Option (RopePieceBTreeNode α) × LeafOrder :=
  (leaf result.1, result.2.1.map leaf, result.2.2)

mutual

/-- Make sure that there is a split at an offset. -/
def split (Offset : Nat) : RopePieceBTreeNode α -> LeafOrder ->
    Option (RopePieceBTreeNode α × Option (RopePieceBTreeNode α) × LeafOrder)
  | leaf L, S => if Offset <= L.Size then (L.split Offset S).map ofLeaf else none
  | interior Size Children, S =>
    if Offset <= Size then
      if Offset = 0 ∨ Offset = Size then some (interior Size Children, none, S)
      else
        (passWhile (· <= Offset) (Children.map size) 0 0).bind fun (i, ChildOffset) =>
          if ChildOffset = Offset then some (interior Size Children, none, S)
          else
            (splitChild (sub32 Offset ChildOffset) Children i S).map
              (handleChild i Size Children)
    else none

/-- The split of the child at an index. -/
def splitChild (Offset : Nat) : List (RopePieceBTreeNode α) -> Nat -> LeafOrder ->
    Option (RopePieceBTreeNode α × Option (RopePieceBTreeNode α) × LeafOrder)
  | [], _, _ => none
  | Child :: _, 0, S => split Offset Child S
  | _ :: rest, i + 1, S => splitChild Offset rest i S

end

/-- The child an insertion goes to, and its offset. -/
def insertionChild (Offset Size : Nat) (Children : List (RopePieceBTreeNode α)) :
    Option (Nat × Nat) :=
  if Offset = Size then
    let i := sub32 Children.length 1
    Children[i]?.map fun Child => (i, sub32 Size Child.size)
  else passWhile (· < Offset) (Children.map size) 0 0

mutual

/-- Insert a piece at a split. -/
def insert (Offset : Nat) (R : RopePiece α) : RopePieceBTreeNode α -> LeafOrder ->
    Option (RopePieceBTreeNode α × Option (RopePieceBTreeNode α) × LeafOrder)
  | leaf L, S => if Offset <= L.Size then (L.insert Offset R S).map ofLeaf else none
  | interior Size Children, S =>
    if Offset <= Size then
      (insertionChild Offset Size Children).bind fun (i, ChildOffs) =>
        (insertChild (sub32 Offset ChildOffs) R Children i S).map
          (handleChild i (add32 Size R.size) Children)
    else none

/-- The insertion into the child at an index. -/
def insertChild (Offset : Nat) (R : RopePiece α) : List (RopePieceBTreeNode α) -> Nat ->
    LeafOrder -> Option (RopePieceBTreeNode α × Option (RopePieceBTreeNode α) × LeafOrder)
  | [], _, _ => none
  | Child :: _, 0, S => insert Offset R Child S
  | _ :: rest, i + 1, S => insertChild Offset R rest i S

end

mutual

/-- Delete a node and all nodes below it. -/
def Destroy : RopePieceBTreeNode α -> LeafOrder -> LeafOrder
  | leaf L, S => S.deleteLeaf L.id
  | interior _ Children, S => DestroyChildren Children S

def DestroyChildren : List (RopePieceBTreeNode α) -> LeafOrder -> LeafOrder
  | [], S => S
  | Child :: rest, S => DestroyChildren rest (Child.Destroy S)

end

mutual

/-- Remove text that starts at a split. -/
def erase (Offset NumBytes : Nat) :
    RopePieceBTreeNode α -> LeafOrder -> Option (RopePieceBTreeNode α × LeafOrder)
  | leaf L, S =>
    if add32 Offset NumBytes <= L.Size then (L.erase Offset NumBytes).map fun L => (leaf L, S)
    else none
  | interior Size Children, S =>
    if add32 Offset NumBytes <= Size then
      (passChildren Offset (Children.map size) 0).bind fun (i, Offset) =>
        (eraseChildren i Offset NumBytes Children S).map fun (Children, S) =>
          (interior (sub32 Size NumBytes) Children, S)
    else none

/-- The loop over the children from the index on.  Children that are covered
completely are destroyed, and the rest moves down. -/
def eraseChildren (i Offset NumBytes : Nat) :
    List (RopePieceBTreeNode α) -> LeafOrder -> Option (List (RopePieceBTreeNode α) × LeafOrder)
  | [], S => if NumBytes = 0 then some ([], S) else none
  | CurChild :: rest, S =>
    if NumBytes = 0 then some (CurChild :: rest, S)
    else
      match i with
      | i + 1 =>
        (eraseChildren i Offset NumBytes rest S).map fun (rest, S) => (CurChild :: rest, S)
      | 0 =>
        if add32 Offset NumBytes < CurChild.size then
          (erase Offset NumBytes CurChild S).map fun (CurChild, S) => (CurChild :: rest, S)
        else if Offset ≠ 0 then
          let BytesFromChild := sub32 CurChild.size Offset
          (erase Offset BytesFromChild CurChild S).bind fun (CurChild, S) =>
            (eraseChildren 0 0 (sub32 NumBytes BytesFromChild) rest S).map
              fun (rest, S) => (CurChild :: rest, S)
        else eraseChildren 0 0 (sub32 NumBytes CurChild.size) rest (CurChild.Destroy S)

end

/-- The leaf on the left side of the tree. -/
def firstLeaf : RopePieceBTreeNode α -> Option (RopePieceBTreeLeaf α)
  | leaf L => some L
  | interior _ [] => none
  | interior _ (Child :: _) => firstLeaf Child

mutual

/-- The leaves of a tree, in order. -/
def leaves : RopePieceBTreeNode α -> List (RopePieceBTreeLeaf α)
  | leaf L => [L]
  | interior _ Children => childrenLeaves Children

def childrenLeaves : List (RopePieceBTreeNode α) -> List (RopePieceBTreeLeaf α)
  | [] => []
  | Child :: rest => leaves Child ++ childrenLeaves rest

end

end RopePieceBTreeNode

/-! ## The tree and its iterator -/

/-- The root, and the order of the leaves. -/
structure RopePieceBTree (α : Type) where
  Root : RopePieceBTreeNode α
  order : LeafOrder

/-- A position in the tree, with the end as no leaf and no piece. -/
structure RopePieceBTreeIterator where
  CurNode : Option Nat
  CurPiece : Option (Nat × Nat)
  CurChar : Nat
  deriving DecidableEq, Repr

namespace RopePieceBTree

open RopePieceBTreeNode

/-- A tree that is one empty leaf. -/
def empty : RopePieceBTree α := ⟨leaf ⟨0, 0, []⟩, ⟨⟨fun _ => none, fun _ => none⟩, 1⟩⟩

def size (T : RopePieceBTree α) : Nat := T.Root.size

/-- A split root gets a new root above it. -/
def newRoot (result : RopePieceBTreeNode α × Option (RopePieceBTreeNode α) × LeafOrder) :
    RopePieceBTree α :=
  match result with
  | (node, none, S) => ⟨node, S⟩
  | (node, some RHS, S) => ⟨newInterior node RHS, S⟩

def insert (Offset : Nat) (R : RopePiece α) (T : RopePieceBTree α) :
    Option (RopePieceBTree α) := do
  let T <- (T.Root.split Offset T.order).map newRoot
  (T.Root.insert Offset R T.order).map newRoot

def erase (Offset NumBytes : Nat) (T : RopePieceBTree α) : Option (RopePieceBTree α) := do
  let T <- (T.Root.split Offset T.order).map newRoot
  (T.Root.erase Offset NumBytes T.order).map fun (Root, order) => ⟨Root, order⟩

/-- A leaf of the tree by its address. -/
def getCN (T : RopePieceBTree α) (id : Nat) : Option (RopePieceBTreeLeaf α) :=
  T.Root.leaves.find? (·.id == id)

/-- The first leaf with pieces from a leaf on, within some number of steps. -/
def skipEmpty (T : RopePieceBTree α) : Nat -> Option Nat -> Option (Option Nat)
  | _, none => some none
  | 0, some _ => none
  | steps + 1, some id => do
    let L <- T.getCN id
    if L.Pieces.length = 0 then T.skipEmpty steps (T.order.links.next id) else some (some id)

/-- The iterator at the first piece of a leaf, or the end. -/
def atFirstPiece (CurNode : Option Nat) : RopePieceBTreeIterator :=
  ⟨CurNode, CurNode.map fun id => (id, 0), 0⟩

/-- The iterator at the first piece. -/
def begin (steps : Nat) (T : RopePieceBTree α) : Option RopePieceBTreeIterator := do
  let L <- T.Root.firstLeaf
  let CurNode <- T.skipEmpty steps (some L.id)
  return atFirstPiece CurNode

def MoveToNextPiece (steps : Nat) (T : RopePieceBTree α) (I : RopePieceBTreeIterator) :
    Option RopePieceBTreeIterator := do
  let id <- I.CurNode
  let L <- T.getCN id
  let CurPiece <- I.CurPiece
  if L.Pieces.length = 0 then none
  else if CurPiece ≠ (id, L.Pieces.length - 1) then
    return { I with CurPiece := some (CurPiece.1, CurPiece.2 + 1), CurChar := 0 }
  else
    let CurNode <- T.skipEmpty steps (T.order.links.next id)
    return atFirstPiece CurNode

/-- The text of the piece at an iterator. -/
def piece (T : RopePieceBTree α) (I : RopePieceBTreeIterator) : Option (List α) := do
  let (id, i) <- I.CurPiece
  let L <- T.getCN id
  let R <- L.Pieces[i]?
  return R.text

/-- The texts of the pieces from an iterator to the end, within some number of
steps. -/
def piecesFrom (T : RopePieceBTree α) : Nat -> RopePieceBTreeIterator -> Option (List (List α))
  | 0, _ => none
  | steps + 1, I =>
    if I.CurPiece = none ∧ I.CurChar = 0 then some []
    else do
      let first <- T.piece I
      let I <- T.MoveToNextPiece steps I
      let rest <- T.piecesFrom steps I
      return first :: rest

/-- The text as the iteration over the pieces gives it. -/
def iterate (steps : Nat) (T : RopePieceBTree α) : Option (List α) := do
  let I <- T.begin steps
  let pieces <- T.piecesFrom steps I
  return pieces.flatten

end RopePieceBTree

end RewriteRope
end LlvmProject
