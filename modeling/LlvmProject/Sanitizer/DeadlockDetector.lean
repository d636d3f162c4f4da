import Mathlib.Algebra.Order.Ring.Nat
import Mathlib.Data.Finset.Max
import Mathlib.Data.Fintype.Card

namespace LlvmProject
namespace Sanitizer

/-!
# Directed graphs of bit vectors

A graph of fixed size is an array of bit vectors.  A bit vector is given by the set of
its bits, of which the first one is taken.
-/

open Relation Finset Function

abbrev BVGraph (n : Nat) := Fin n -> Finset (Fin n)

namespace BVGraph

variable {n : Nat}

/-- An edge is recorded if there is room. -/
def recordEdge (max_added_edges : Nat) (added_edges : List (Fin n)) (node : Fin n) :
    List (Fin n) :=
  if added_edges.length < max_added_edges then added_edges ++ [node] else added_edges

/-- Enter the edges from the nodes that are left, and record those that are new. -/
def addEdgesLoop (to_ : Fin n) (max_added_edges : Nat) (t1 : Finset (Fin n)) (v : BVGraph n)
    (added_edges : List (Fin n)) : BVGraph n × List (Fin n) :=
  if h : t1.Nonempty then
    let node := t1.min' h
    if to_ ∈ v node then addEdgesLoop to_ max_added_edges (t1.erase node) v added_edges
    else
      addEdgesLoop to_ max_added_edges (t1.erase node)
        (update v node (insert to_ (v node)))
        (recordEdge max_added_edges added_edges node)
  else (v, added_edges)
termination_by t1.card
decreasing_by all_goals exact card_erase_lt_of_mem (min'_mem t1 h)

def addEdges (v : BVGraph n) (from_ : Finset (Fin n)) (to_ : Fin n) (max_added_edges : Nat) :
    BVGraph n × List (Fin n) :=
  addEdgesLoop to_ max_added_edges from_ v []

def removeEdgesTo (v : BVGraph n) (to_ : Finset (Fin n)) : BVGraph n := fun x => v x \ to_

def removeEdgesFrom (v : BVGraph n) (from_ : Fin n) : BVGraph n := update v from_ ∅

/-- The nodes that are visited when none is left to visit. -/
def visitLoop (v : BVGraph n) (to_visit visited : Finset (Fin n)) : Finset (Fin n) :=
  if h : to_visit.Nonempty then
    let idx := to_visit.min' h
    if idx ∈ visited then visitLoop v (to_visit.erase idx) visited
    else visitLoop v (to_visit.erase idx ∪ v idx) (insert idx visited)
  else visited
termination_by (visitedᶜ.card, to_visit.card)
decreasing_by
  · exact Prod.Lex.right _ (card_erase_lt_of_mem (min'_mem to_visit h))
  · next fresh =>
      apply Prod.Lex.left
      rw [compl_insert]
      exact card_erase_lt_of_mem (mem_compl.mpr fresh)

/-- Whether there is a path to any of the targets. -/
def isReachable (v : BVGraph n) (from_ : Fin n) (targets : Finset (Fin n)) : Bool :=
  (targets ∩ visitLoop v (v from_) {from_}).Nonempty

/-! ## Edges and paths -/

variable {v : BVGraph n} {to_visit visited : Finset (Fin n)} {x y : Fin n}

def Edge (v : BVGraph n) (x y : Fin n) : Prop := y ∈ v x

/-- The search visits what can be reached from where it started. -/
theorem mem_visitLoop (closed : ∀ x ∈ visited, ∀ y ∈ v x, y ∈ visited ∨ y ∈ to_visit) :
    x ∈ visitLoop v to_visit visited ↔ ∃ y ∈ visited ∪ to_visit, ReflTransGen v.Edge y x := by
  fun_induction visitLoop v to_visit visited with
  | case1 to_visit visited some idx known ih =>
    have mem := min'_mem to_visit some
    rw [ih]
    · have same : visited ∪ to_visit.erase idx = visited ∪ to_visit := by
        ext z
        by_cases here : z = idx
        · simp only [here, mem_union, known, true_or]
        · simp only [mem_union, mem_erase, ne_eq, here, not_false_eq_true, true_and]
      rw [same]
    · intro z inside y edge
      rcases closed z inside y edge with visited | waiting
      · exact .inl visited
      · by_cases here : y = idx
        · rw [here]
          exact .inl known
        · exact .inr (mem_erase.mpr ⟨here, waiting⟩)
  | case2 to_visit visited some idx fresh ih =>
    have mem : idx ∈ to_visit := min'_mem to_visit some
    rw [ih]
    · constructor
      · rintro ⟨y, inside, path⟩
        simp only [mem_union, mem_insert, mem_erase] at inside
        rcases inside with (here | inside) | inside | edge
        · exact ⟨y, mem_union_right _ (here ▸ mem), path⟩
        · exact ⟨y, mem_union_left _ inside, path⟩
        · exact ⟨y, mem_union_right _ inside.2, path⟩
        · exact ⟨idx, mem_union_right _ mem, ReflTransGen.head edge path⟩
      · rintro ⟨y, inside, path⟩
        refine ⟨y, ?_, path⟩
        simp only [mem_union, mem_insert, mem_erase] at inside ⊢
        by_cases here : y = idx
        · exact .inl (.inl here)
        · rcases inside with inside | inside
          · exact .inl (.inr inside)
          · exact .inr (.inl ⟨here, inside⟩)
    · intro z inside y edge
      rw [mem_insert] at inside ⊢
      rw [mem_union, mem_erase]
      rcases inside with rfl | inside
      · exact .inr (.inr edge)
      · by_cases here : y = idx
        · exact .inl (.inl here)
        · rcases closed z inside y edge with visited | waiting
          · exact .inl (.inr visited)
          · exact .inr (.inl ⟨here, waiting⟩)
  | case3 to_visit visited none =>
    rw [not_nonempty_iff_eq_empty.mp none, union_empty]
    constructor
    · exact fun inside => ⟨x, inside, ReflTransGen.refl⟩
    · rintro ⟨y, inside, path⟩
      induction path with
      | refl => exact inside
      | @tail b c _ edge ih =>
        rcases closed b ih c edge with visited | waiting
        · exact visited
        · exact absurd ⟨c, waiting⟩ none

theorem isReachable_iff (v : BVGraph n) (from_ : Fin n) (targets : Finset (Fin n)) :
    v.isReachable from_ targets = true ↔ ∃ h ∈ targets, ReflTransGen v.Edge from_ h := by
  have closed : ∀ x ∈ ({from_} : Finset (Fin n)), ∀ y ∈ v x, y ∈ ({from_} : Finset (Fin n)) ∨
      y ∈ v from_ := by
    intro x inside y edge
    rw [mem_singleton.mp inside] at edge
    exact .inr edge
  have all : ∀ x, x ∈ visitLoop v (v from_) {from_} ↔ ReflTransGen v.Edge from_ x := by
    intro x
    rw [mem_visitLoop closed]
    constructor
    · rintro ⟨y, inside, path⟩
      rcases mem_union.mp inside with inside | edge
      · rwa [mem_singleton.mp inside] at path
      · exact ReflTransGen.head edge path
    · exact fun path => ⟨from_, mem_union_left _ (mem_singleton_self _), path⟩
  rw [isReachable, decide_eq_true_iff, Finset.Nonempty]
  simp only [mem_inter, all]

/-- All edges from the nodes of the set are entered. -/
theorem edge_addEdgesLoop (to_ : Fin n) (max_added_edges : Nat) (t1 : Finset (Fin n))
    (v : BVGraph n) (added_edges : List (Fin n)) :
    (addEdgesLoop to_ max_added_edges t1 v added_edges).1.Edge x y ↔
      v.Edge x y ∨ (x ∈ t1 ∧ y = to_) := by
  fun_induction addEdgesLoop to_ max_added_edges t1 v added_edges with
  | case1 t1 v added_edges some node known ih =>
    rw [ih, mem_erase]
    by_cases here : x = node
    · by_cases there : y = to_
      · have edge : v.Edge x y := by rwa [here, there]
        simp only [edge, true_or]
      · simp only [there, and_false]
    · simp only [here, ne_eq, not_false_eq_true, true_and]
  | case2 t1 v added_edges some node fresh ih =>
    have mem : node ∈ t1 := min'_mem t1 some
    rw [ih, Edge, Edge, mem_erase]
    by_cases here : x = node
    · rw [here, update_self, mem_insert]
      simp only [mem, ne_eq, not_true_eq_false, false_and, or_false, true_and]
      exact Or.comm
    · rw [update_of_ne here]
      simp only [here, ne_eq, not_false_eq_true, true_and]
  | case3 t1 v added_edges none =>
    rw [not_nonempty_iff_eq_empty.mp none]
    simp only [notMem_empty, false_and, or_false]

theorem edge_addEdges (v : BVGraph n) (from_ : Finset (Fin n)) (to_ : Fin n)
    (max_added_edges : Nat) :
    (v.addEdges from_ to_ max_added_edges).1.Edge x y ↔ v.Edge x y ∨ (x ∈ from_ ∧ y = to_) :=
  edge_addEdgesLoop to_ max_added_edges from_ v []

theorem addEdges_of_all (to_ : Fin n) (max_added_edges : Nat) {t1 : Finset (Fin n)}
    {v : BVGraph n} (added_edges : List (Fin n)) (all : ∀ x ∈ t1, v.Edge x to_) :
    addEdgesLoop to_ max_added_edges t1 v added_edges = (v, added_edges) := by
  fun_induction addEdgesLoop to_ max_added_edges t1 v added_edges with
  | case1 t1 v added_edges some node known ih =>
    exact ih fun x inside => all x (mem_of_mem_erase inside)
  | case2 t1 v added_edges some node fresh ih =>
    exact absurd (all node (min'_mem t1 some)) fresh
  | case3 t1 v added_edges none => rfl

theorem edge_removeEdgesTo (v : BVGraph n) (to_ : Finset (Fin n)) :
    (v.removeEdgesTo to_).Edge x y ↔ v.Edge x y ∧ y ∉ to_ := mem_sdiff

theorem edge_removeEdgesFrom (v : BVGraph n) (from_ : Fin n) :
    (v.removeEdgesFrom from_).Edge x y ↔ x ≠ from_ ∧ v.Edge x y := by
  rw [Edge, removeEdgesFrom]
  by_cases here : x = from_
  · rw [here, update_self]
    simp only [notMem_empty, ne_eq, not_true_eq_false, false_and]
  · rw [update_of_ne here]
    simp only [ne_eq, here, not_false_eq_true, true_and, Edge]

end BVGraph
end Sanitizer
end LlvmProject

namespace LlvmProject
namespace Sanitizer

/-!
## The deadlock detector

Nodes are numbered by epochs: a node is its index plus the current epoch, a multiple of
the number of indices that does not wrap around.  A failed check has no result.  The
stacks and the records of the edges are left out.
-/

variable {n : Nat}

/-! ## The locks of a thread -/

structure DeadlockDetectorTLS (n : Nat) where
  bv_ : Finset (Fin n)
  epoch_ : Nat
  recursive_locks : List (Fin n)
  all_locks_with_contexts_ : List (Fin n)

/-- The last element takes the place of the last occurrence of a lock. -/
def swapRemove (lock_id : Fin n) (locks : List (Fin n)) : Option (List (Fin n)) :=
  if locks.contains lock_id then
    let i := locks.length - 1 - locks.reverse.idxOf lock_id
    some ((locks.set i (locks.getLastD lock_id)).dropLast)
  else none

namespace DeadlockDetectorTLS

def clear : DeadlockDetectorTLS n := ⟨∅, 0, [], []⟩

def ensureCurrentEpoch (dtls : DeadlockDetectorTLS n) (current_epoch : Nat) :
    DeadlockDetectorTLS n :=
  if dtls.epoch_ = current_epoch then dtls else ⟨∅, current_epoch, [], []⟩

/-- Whether this is the first acquisition of the lock, and the locks with it. -/
def addLock (dtls : DeadlockDetectorTLS n) (lock_id : Fin n) (current_epoch : Nat) :
    Option (Bool × DeadlockDetectorTLS n) :=
  if dtls.epoch_ = current_epoch then
    if lock_id ∈ dtls.bv_ then
      if dtls.recursive_locks.length < 64 then
        some (false, { dtls with recursive_locks := dtls.recursive_locks ++ [lock_id] })
      else none
    else if dtls.all_locks_with_contexts_.length < 64 then
      some (true,
        { dtls with
          bv_ := insert lock_id dtls.bv_
          all_locks_with_contexts_ := dtls.all_locks_with_contexts_ ++ [lock_id] })
    else none
  else none

def removeLock (dtls : DeadlockDetectorTLS n) (lock_id : Fin n) : DeadlockDetectorTLS n :=
  match swapRemove lock_id dtls.recursive_locks with
  | some locks => { dtls with recursive_locks := locks }
  | none =>
    if lock_id ∈ dtls.bv_ then
      { dtls with
        bv_ := dtls.bv_.erase lock_id
        all_locks_with_contexts_ :=
          (swapRemove lock_id dtls.all_locks_with_contexts_).getD dtls.all_locks_with_contexts_ }
    else dtls

end DeadlockDetectorTLS

/-! ## The detector -/

structure DeadlockDetector (n : Nat) where
  current_epoch_ : Nat
  available_nodes_ : Finset (Fin n)
  recycled_nodes_ : Finset (Fin n)
  g_ : BVGraph n

namespace DeadlockDetector

def clear : DeadlockDetector n := ⟨0, ∅, ∅, fun _ => ∅⟩

def nodeToEpoch (n node : Nat) : Nat := node / n * n

variable [NeZero n]

def nodeToIndexUnchecked (node : Nat) : Fin n := Fin.ofNat n node

def nodeToIndex (dd : DeadlockDetector n) (node : Nat) : Option (Fin n) :=
  if n <= node ∧ dd.current_epoch_ = nodeToEpoch n node then some (nodeToIndexUnchecked node)
  else none

omit [NeZero n] in
/-- The node of the first available index. -/
def getAvailableNode (dd : DeadlockDetector n) : Option (Nat × DeadlockDetector n) :=
  if h : dd.available_nodes_.Nonempty then
    let idx := dd.available_nodes_.min' h
    some (idx + dd.current_epoch_, { dd with available_nodes_ := dd.available_nodes_.erase idx })
  else none

omit [NeZero n] in
/-- Without an available node some are recycled; without those the graph is flushed. -/
def newNode (dd : DeadlockDetector n) : Option (Nat × DeadlockDetector n) :=
  if dd.available_nodes_.Nonempty then dd.getAvailableNode
  else if dd.recycled_nodes_.Nonempty then
    getAvailableNode
      { dd with
        g_ := dd.g_.removeEdgesTo dd.recycled_nodes_
        available_nodes_ := dd.available_nodes_ ∪ dd.recycled_nodes_
        recycled_nodes_ := ∅ }
  else
    getAvailableNode
      { current_epoch_ := dd.current_epoch_ + n
        recycled_nodes_ := ∅
        available_nodes_ := Finset.univ
        g_ := fun _ => ∅ }

def removeNode (dd : DeadlockDetector n) (node : Nat) : Option (DeadlockDetector n) :=
  (dd.nodeToIndex node).bind fun idx =>
    if idx ∈ dd.available_nodes_ ∨ idx ∈ dd.recycled_nodes_ then none
    else
      some
        { dd with
          recycled_nodes_ := insert idx dd.recycled_nodes_
          g_ := dd.g_.removeEdgesFrom idx }

/-- Whether there would be a cycle after the lock event. -/
def onLockBefore (dd : DeadlockDetector n) (dtls : DeadlockDetectorTLS n) (cur_node : Nat) :
    Option (Bool × DeadlockDetectorTLS n) :=
  let dtls := dtls.ensureCurrentEpoch dd.current_epoch_
  (dd.nodeToIndex cur_node).map fun cur_idx => (dd.g_.isReachable cur_idx dtls.bv_, dtls)

def onLockAfter (dd : DeadlockDetector n) (dtls : DeadlockDetectorTLS n) (cur_node : Nat) :
    Option (DeadlockDetectorTLS n) :=
  let dtls := dtls.ensureCurrentEpoch dd.current_epoch_
  (dd.nodeToIndex cur_node).bind fun cur_idx =>
    (dtls.addLock cur_idx dd.current_epoch_).map Prod.snd

/-- Whether all edges from the locks that are held exist. -/
def hasAllEdges (dd : DeadlockDetector n) (dtls : DeadlockDetectorTLS n) (cur_node : Nat) : Bool :=
  if cur_node ≠ 0 ∧ dtls.epoch_ = dd.current_epoch_ ∧ dtls.epoch_ = nodeToEpoch n cur_node then
    dtls.all_locks_with_contexts_.all fun lock => nodeToIndexUnchecked cur_node ∈ dd.g_ lock
  else false

/-- The number of edges that are added from the locks that are held; at most 40 are
recorded. -/
def addEdges (dd : DeadlockDetector n) (dtls : DeadlockDetectorTLS n) (cur_node : Nat) :
    Option (Nat × DeadlockDetectorTLS n × DeadlockDetector n) :=
  let dtls := dtls.ensureCurrentEpoch dd.current_epoch_
  (dd.nodeToIndex cur_node).map fun cur_idx =>
    let added := dd.g_.addEdges dtls.bv_ cur_idx 40
    (added.2.length, dtls, { dd with g_ := added.1 })

def onTryLock (dd : DeadlockDetector n) (dtls : DeadlockDetectorTLS n) (cur_node : Nat) :
    Option (DeadlockDetectorTLS n) :=
  let dtls := dtls.ensureCurrentEpoch dd.current_epoch_
  (dd.nodeToIndex cur_node).bind fun cur_idx =>
    (dtls.addLock cur_idx dd.current_epoch_).map Prod.snd

/-- The first lock of a thread does not change the global state. -/
def onFirstLock (dtls : DeadlockDetectorTLS n) (node : Nat) :
    Option (Bool × DeadlockDetectorTLS n) :=
  if dtls.bv_.Nonempty then some (false, dtls)
  else if dtls.epoch_ ≠ 0 ∧ dtls.epoch_ = nodeToEpoch n node then
    (dtls.addLock (nodeToIndexUnchecked node) (nodeToEpoch n node)).map fun added => (true, added.2)
  else some (false, dtls)

def onUnlock (dtls : DeadlockDetectorTLS n) (node : Nat) : DeadlockDetectorTLS n :=
  if dtls.epoch_ = nodeToEpoch n node then dtls.removeLock (nodeToIndexUnchecked node) else dtls

/-- The lock event without a change of the global state. -/
def onLockFast (dd : DeadlockDetector n) (dtls : DeadlockDetectorTLS n) (node : Nat) :
    Option (Bool × DeadlockDetectorTLS n) :=
  if dd.hasAllEdges dtls node then
    (dtls.addLock (nodeToIndexUnchecked node) (nodeToEpoch n node)).map fun added => (true, added.2)
  else some (false, dtls)

end DeadlockDetector
end Sanitizer
end LlvmProject
