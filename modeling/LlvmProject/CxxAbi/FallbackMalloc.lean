import Mathlib.Algebra.Order.Ring.Nat

namespace LlvmProject
namespace FallbackMalloc

/-!
# The emergency heap of the exception runtime

The heap has 512 bytes and is used in units of four bytes, the size of a
`heap_node`.  Addresses are counted in units from the start of the heap, so
that a pointer to a node is the node's offset; a pointer past the end of the
heap is no node.  The header of a chunk is the node at its start.

`freelist` is `none` before the first allocation.  Reading or writing outside
the heap, and a walk that does not end, give `none`.  A walk that visits more
nodes than there are units has entered a cycle.
-/

/-- The heap's size in units. -/
def listEnd : Nat := 512 / 4

structure HeapNode where
  next_node : Nat
  len : Nat
deriving DecidableEq

structure State where
  heap : Nat -> HeapNode
  freelist : Option Nat

namespace State

def setNode (S : State) (p : Nat) (node : HeapNode) : State :=
  { S with heap := Function.update S.heap p node }

def setNext (S : State) (p next : Nat) : State := S.setNode p { S.heap p with next_node := next }

def setLen (S : State) (p len : Nat) : State := S.setNode p { S.heap p with len := len }

section

variable (S : State)

@[simp] theorem setNode_here (p : Nat) (node : HeapNode) :
    (S.setNode p node).heap p = node := Function.update_self ..

theorem setNode_other {p q : Nat} (node : HeapNode) (other : q ≠ p) :
    (S.setNode p node).heap q = S.heap q := Function.update_of_ne other ..

@[simp] theorem setNext_next (p next : Nat) :
    ((S.setNext p next).heap p).next_node = next := by rw [setNext, setNode_here]

theorem setNext_other {p q : Nat} (next : Nat) (other : q ≠ p) :
    (S.setNext p next).heap q = S.heap q := setNode_other S _ other

@[simp] theorem setNext_len (p q next : Nat) :
    ((S.setNext p next).heap q).len = (S.heap q).len := by
  by_cases same : q = p
  · rw [same, setNext, setNode_here]
  · rw [setNext_other S next same]

@[simp] theorem setLen_len (p len : Nat) : ((S.setLen p len).heap p).len = len := by
  rw [setLen, setNode_here]

theorem setLen_other {p q : Nat} (len : Nat) (other : q ≠ p) :
    (S.setLen p len).heap q = S.heap q := setNode_other S _ other

@[simp] theorem setLen_next (p q len : Nat) :
    ((S.setLen p len).heap q).next_node = (S.heap q).next_node := by
  by_cases same : q = p
  · rw [same, setLen, setNode_here]
  · rw [setLen_other S len same]

end

end State

/-- Conversion to a 16-bit offset or size. -/
def heap_offset (x : Nat) : Nat := x % 2 ^ 16

def init_heap (S : State) : State :=
  { S.setNode 0 ⟨heap_offset listEnd, listEnd⟩ with freelist := some 0 }

/-- The units of a chunk for `len` bytes, computed in a `size_t`. -/
def alloc_size (len : Nat) : Nat := (len + 3) % 2 ^ 64 / 4 + 1

/-- The loop `for (p, prev; p != list_end; prev = p, p = p->next_node)` up to
the first node that satisfies the condition.  The result is that node with its
predecessor, or nothing if the list ends before. -/
def firstNode (heap : Nat -> HeapNode) (cond : Nat -> Bool) :
    Nat -> Nat -> Option Nat -> Option (Option (Nat × Option Nat))
  | 0, _, _ => none
  | steps + 1, p, prev =>
    if p = listEnd then some none
    else if listEnd < p then none
    else if cond p then some (some (p, prev))
    else firstNode heap cond steps (heap p).next_node (some p)

/-- What stood in front of `p` in the list gets `p`'s successor. -/
def unlink (S : State) (p : Nat) (prev : Option Nat) : State :=
  match prev with
  | none => { S with freelist := some (S.heap p).next_node }
  | some prev => S.setNext prev (S.heap p).next_node

/-- The chunk `p` is large enough.  A larger one is shortened and its tail
returned, one of the exact size is taken out of the list. -/
def takeChunk (S : State) (nelems p : Nat) (prev : Option Nat) : Option (Nat × State) :=
  if nelems < (S.heap p).len then
    let S := S.setLen p ((S.heap p).len - nelems)
    let q := p + (S.heap p).len
    if q < listEnd then some (q + 1, S.setNode q ⟨0, heap_offset nelems⟩) else none
  else some (p + 1, (unlink S p prev).setNext p 0)

/-- The walk over the free list, looking for a big enough chunk. -/
def mallocFrom (S : State) (nelems head : Nat) : Option (Option Nat × State) :=
  (firstNode S.heap (fun p => nelems <= (S.heap p).len) (listEnd + 1) head none).bind fun found =>
    match found with
    | none => some (none, S)
    | some (p, prev) => (takeChunk S nelems p prev).map fun (ptr, S) => (some ptr, S)

/-- The result is the address of the block in units. -/
def fallback_malloc (S : State) (len : Nat) : Option (Option Nat × State) :=
  let S := if S.freelist.isNone then init_heap S else S
  S.freelist.bind fun head => mallocFrom S (alloc_size len) head

/-- The start of the next block. -/
def after (heap : Nat -> HeapNode) (p : Nat) : Nat := p + (heap p).len

/-- The free chunk `p` ends where `cp` starts, or starts where `cp` ends. -/
def mergeChunk (S : State) (cp p : Nat) (prev : Option Nat) : State :=
  if after S.heap p = cp then
    S.setLen p (heap_offset ((S.heap p).len + (S.heap cp).len))
  else
    let S := S.setLen cp (heap_offset ((S.heap cp).len + (S.heap p).len))
    match prev with
    | none => { S.setNext cp (S.heap p).next_node with freelist := some cp }
    | some prev => S.setNext prev (heap_offset cp)

/-- The walk over the free list, looking for a chunk that touches `cp`.
Without one, `cp` is added to the start of the list. -/
def freeFrom (S : State) (cp head : Nat) : Option State :=
  (firstNode S.heap (fun p => after S.heap p = cp || after S.heap cp = p) (listEnd + 1) head
      none).map fun found =>
    match found with
    | some (p, prev) => mergeChunk S cp p prev
    | none => { S.setNext cp (heap_offset head) with freelist := some cp }

def fallback_free (S : State) (ptr : Nat) : Option State :=
  S.freelist.bind fun head => if ptr - 1 < listEnd then freeFrom S (ptr - 1) head else none

/-- The nodes of the free list. -/
def freeNodes (heap : Nat -> HeapNode) : Nat -> Nat -> List Nat
  | 0, _ => []
  | steps + 1, p =>
    if p < listEnd then p :: freeNodes heap steps (heap p).next_node else []

end FallbackMalloc
end LlvmProject
