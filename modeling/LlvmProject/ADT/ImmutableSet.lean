import Mathlib.Order.Lattice

namespace LlvmProject
namespace ImmutableSet

/-!
# Immutable sets and maps

The factory behind `ImmutableSet` and `ImmutableMap`.  Its trees share their
nodes, so the nodes are modelled where they live: in a memory of reference
counted records, with the list of nodes created by the operation under way and
the list of destroyed nodes that wait for reuse.  An operation builds new nodes
over old ones, clears the mutable flag of the tree it returns and destroys what
it created and did not use.  Every dereference of a null or unallocated pointer
and every failed assertion is the outcome `none`.

The height bit-field and the reference count are natural numbers, and the digest
and the cache of canonical trees are left out: `ImutAVLFactory` itself never
canonicalizes a tree.
-/

abbrev Addr := Nat

/-- `TreeTy *`. -/
abbrev TreePtr := Option Addr

/-- The record of one node. -/
structure ImutAVLTree (β : Type) where
  left : TreePtr
  right : TreePtr
  height : Nat
  IsMutable : Bool
  value : β
  refCount : Nat
  deriving DecidableEq, Repr

/-- The factory.  Addresses from `allocated` on were never handed out by the
allocator, and the back of the vector `freeNodes` is the head of the list. -/
structure ImutAVLFactory (β : Type) where
  memory : Addr -> Option (ImutAVLTree β)
  allocated : Addr
  createdNodes : List Addr
  freeNodes : List Addr

namespace ImutAVLFactory

variable {β : Type}

/-- A factory that has created nothing. -/
def empty : ImutAVLFactory β where
  memory := fun _ => none
  allocated := 0
  createdNodes := []
  freeNodes := []

/-- The record that a pointer refers to. -/
def deref (s : ImutAVLFactory β) : TreePtr -> Option (ImutAVLTree β)
  | none => none
  | some a => s.memory a

def write (s : ImutAVLFactory β) (a : Addr) (n : ImutAVLTree β) : ImutAVLFactory β :=
  { s with memory := Function.update s.memory a (some n) }

/-! ## Reference counts -/

/-- `if (T) T->retain()`. -/
def retain (T : TreePtr) (s : ImutAVLFactory β) : Option (ImutAVLFactory β) :=
  match T with
  | none => some s
  | some a => do
    let n <- s.memory a
    some (s.write a { n with refCount := n.refCount + 1 })

/-- `if (T) T->release()`, where `destroy` is what the last release calls. -/
def release (destroy : Addr -> ImutAVLFactory β -> Option (ImutAVLFactory β)) (T : TreePtr)
    (s : ImutAVLFactory β) : Option (ImutAVLFactory β) :=
  match T with
  | none => some s
  | some a => do
    let n <- s.memory a
    if n.refCount = 0 then none
    else
      let s := s.write a { n with refCount := n.refCount - 1 }
      if n.refCount - 1 = 0 then destroy a s else some s

/-- `T->destroy()`; the fuel bounds the depth of the nested calls. -/
def destroy : Nat -> Addr -> ImutAVLFactory β -> Option (ImutAVLFactory β)
  | 0, _, _ => none
  | fuel + 1, a, s => do
    let n <- s.memory a
    let s <- release (destroy fuel) n.left s
    let s <- release (destroy fuel) n.right s
    let n <- s.memory a
    let s := s.write a { n with IsMutable := false }
    some { s with freeNodes := a :: s.freeNodes }

/-! ## Nodes -/

def getHeight (s : ImutAVLFactory β) : TreePtr -> Option Nat
  | none => some 0
  | some a => do
    let n <- s.memory a
    some n.height

def incrementHeight (L R : TreePtr) (s : ImutAVLFactory β) : Option Nat := do
  let hl <- s.getHeight L
  let hr <- s.getHeight R
  some ((if hl > hr then hl else hr) + 1)

/-- The memory of a new node over `L` and `R`: the back of `freeNodes`, which is
asserted to be neither of them, or a fresh address. -/
def takeNode (L R : TreePtr) (s : ImutAVLFactory β) : Option (Addr × ImutAVLFactory β) :=
  match s.freeNodes with
  | T :: rest =>
    if some T = L ∨ some T = R then none else some (T, { s with freeNodes := rest })
  | [] => some (s.allocated, { s with allocated := s.allocated + 1 })

def createNode (L : TreePtr) (V : β) (R : TreePtr) (s : ImutAVLFactory β) :
    Option (TreePtr × ImutAVLFactory β) := do
  let (T, s) <- s.takeNode L R
  let height <- s.incrementHeight L R
  let s := s.write T
    { left := L, right := R, height := height, IsMutable := true, value := V, refCount := 0 }
  let s <- s.retain L
  let s <- s.retain R
  some (some T, { s with createdNodes := s.createdNodes ++ [T] })

/-- The overload of `createNode` that copies the value of `oldTree`. -/
def createNodeFrom (newLeft oldTree newRight : TreePtr) (s : ImutAVLFactory β) :
    Option (TreePtr × ImutAVLFactory β) := do
  let n <- s.deref oldTree
  s.createNode newLeft n.value newRight

/-- The body of the loop of `recoverNodes`; no path from the node is longer than its height. -/
def recoverNode (s : ImutAVLFactory β) (N : Addr) : Option (ImutAVLFactory β) := do
  let n <- s.memory N
  if n.IsMutable ∧ n.refCount = 0 then destroy n.height N s else some s

/-- Destroys the nodes created by the operation that nothing uses. -/
def recoverNodes (s : ImutAVLFactory β) : Option (ImutAVLFactory β) := do
  let s <- s.createdNodes.foldlM recoverNode s
  some { s with createdNodes := [] }

/-- `markImmutable`; the fuel bounds the depth of the nested calls. -/
def markImmutable : Nat -> TreePtr -> ImutAVLFactory β -> Option (ImutAVLFactory β)
  | _, none, s => some s
  | 0, some _, _ => none
  | fuel + 1, some a, s => do
    let n <- s.memory a
    if n.IsMutable then
      let s := s.write a { n with IsMutable := false }
      let s <- markImmutable fuel n.left s
      markImmutable fuel n.right s
    else some s

/-! ## Balancing -/

def balanceTree (L : TreePtr) (V : β) (R : TreePtr) (s : ImutAVLFactory β) :
    Option (TreePtr × ImutAVLFactory β) := do
  let hl <- s.getHeight L
  let hr <- s.getHeight R
  if hl > hr + 2 then
    let l <- s.deref L
    let hLL <- s.getHeight l.left
    let hLR <- s.getHeight l.right
    if hLL >= hLR then
      let (T, s) <- s.createNode l.right V R
      s.createNodeFrom l.left L T
    else
      let lr <- s.deref l.right
      let (T, s) <- s.createNodeFrom l.left L lr.left
      let (U, s) <- s.createNode lr.right V R
      s.createNodeFrom T l.right U
  else if hr > hl + 2 then
    let r <- s.deref R
    let hRL <- s.getHeight r.left
    let hRR <- s.getHeight r.right
    if hRR >= hRL then
      let (T, s) <- s.createNode L V r.left
      s.createNodeFrom T R r.right
    else
      let rl <- s.deref r.left
      let (T, s) <- s.createNode L V rl.left
      let (U, s) <- s.createNodeFrom rl.right R r.right
      s.createNodeFrom T r.left U
  else s.createNode L V R

/-- Takes the least node out of `T`, which is not empty.  Returns the tree that
is left and `Noderemoved`; the fuel bounds the depth of the nested calls. -/
def removeMinBinding : Nat -> TreePtr -> ImutAVLFactory β ->
    Option (TreePtr × TreePtr × ImutAVLFactory β)
  | 0, _, _ => none
  | fuel + 1, T, s => do
    let n <- s.deref T
    if n.left = none then some (n.right, T, s)
    else
      let (newLeft, Noderemoved, s) <- removeMinBinding fuel n.left s
      let (newTree, s) <- s.balanceTree newLeft n.value n.right
      some (newTree, Noderemoved, s)

def combineTrees (fuel : Nat) (L R : TreePtr) (s : ImutAVLFactory β) :
    Option (TreePtr × ImutAVLFactory β) :=
  if L = none then some (R, s)
  else if R = none then some (L, s)
  else do
    let (newRight, OldNode, s) <- s.removeMinBinding fuel R
    let n <- s.deref OldNode
    s.balanceTree L n.value newRight

/-! ## Insertion and removal -/

section Search

variable {κ : Type} [LinearOrder κ] (KeyOfValue : β -> κ)

def add_internal (V : β) : Nat -> TreePtr -> ImutAVLFactory β ->
    Option (TreePtr × ImutAVLFactory β)
  | _, none, s => s.createNode none V none
  | 0, some _, _ => none
  | fuel + 1, some a, s => do
    let n <- s.memory a
    if n.IsMutable then none
    else if KeyOfValue V = KeyOfValue n.value then s.createNode n.left V n.right
    else if KeyOfValue V < KeyOfValue n.value then
      let (T, s) <- add_internal V fuel n.left s
      s.balanceTree T n.value n.right
    else
      let (T, s) <- add_internal V fuel n.right s
      s.balanceTree n.left n.value T

def remove_internal (K : κ) : Nat -> TreePtr -> ImutAVLFactory β ->
    Option (TreePtr × ImutAVLFactory β)
  | _, none, s => some (none, s)
  | 0, some _, _ => none
  | fuel + 1, some a, s => do
    let n <- s.memory a
    if n.IsMutable then none
    else if K = KeyOfValue n.value then s.combineTrees fuel n.left n.right
    else if K < KeyOfValue n.value then
      let (T, s) <- remove_internal K fuel n.left s
      s.balanceTree T n.value n.right
    else
      let (T, s) <- remove_internal K fuel n.right s
      s.balanceTree n.left n.value T

/-- What `add` and `remove` do once the new tree is built. -/
def finish (T : TreePtr) (s : ImutAVLFactory β) : Option (TreePtr × ImutAVLFactory β) := do
  let height <- s.getHeight T
  let s <- s.markImmutable height T
  let s <- s.recoverNodes
  some (T, s)

/-- `add`; no path of the tree is longer than its height. -/
def add (T : TreePtr) (V : β) (s : ImutAVLFactory β) : Option (TreePtr × ImutAVLFactory β) := do
  let height <- s.getHeight T
  let (T, s) <- s.add_internal KeyOfValue V height T
  s.finish T

def remove (T : TreePtr) (K : κ) (s : ImutAVLFactory β) :
    Option (TreePtr × ImutAVLFactory β) := do
  let height <- s.getHeight T
  let (T, s) <- s.remove_internal KeyOfValue K height T
  s.finish T

end Search

end ImutAVLFactory
end ImmutableSet
end LlvmProject
