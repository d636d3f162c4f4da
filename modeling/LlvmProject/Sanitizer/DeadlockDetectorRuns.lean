import LlvmProject.Sanitizer.DeadlockDetector

namespace LlvmProject

open Finset hiding mem_cons mem_singleton
open List Option Function

namespace Sanitizer

/-!
# The answers of the deadlock detector

The purpose of the detector is stated by a ledger of the live nodes, of how often each
thread holds them since the last flush, and of the pairs of live nodes of which the second
was announced while the first was held.  The detector represents the ledger after every
step of any thread, although it clears the edges to removed nodes only when it recycles
them and the locks of a thread only when that thread comes back.
-/

open Relation

variable {n : Nat} {Thread : Type*}

/-! ## The ledger -/

structure Ledger (n : Nat) (Thread : Type*) where
  epoch : Nat
  live : Fin n -> Prop
  held : Thread -> Fin n -> Nat
  pairs : Fin n -> Fin n -> Prop

inductive Op (Thread : Type*) where
  | newNode
  | removeNode (node : Nat)
  | onLockBefore (t : Thread) (node : Nat)
  | addEdges (t : Thread) (node : Nat)
  | onLockAfter (t : Thread) (node : Nat)
  | onTryLock (t : Thread) (node : Nat)
  | onFirstLock (t : Thread) (node : Nat)
  | onLockFast (t : Thread) (node : Nat)
  | onUnlock (t : Thread) (node : Nat)

inductive Result where
  | node (node : Nat)
  | answer (answer : Bool)
  | added (edges : Nat)
  | done

namespace Ledger

def start : Ledger n Thread := ⟨0, fun _ => False, fun _ _ => 0, fun _ _ => False⟩

def Live (ledger : Ledger n Thread) (node : Nat) : Prop :=
  ∃ i, ledger.live i ∧ node = i + ledger.epoch

def create (ledger : Ledger n Thread) (i : Fin n) : Ledger n Thread :=
  { ledger with live := fun j => j = i ∨ ledger.live j }

def flushed (epoch : Nat) : Ledger n Thread := { start with epoch := epoch }

def remove (ledger : Ledger n Thread) (i : Fin n) : Ledger n Thread :=
  { ledger with
    live := fun j => ledger.live j ∧ j ≠ i
    pairs := fun a b => ledger.pairs a b ∧ a ≠ i ∧ b ≠ i }

def announce (ledger : Ledger n Thread) (t : Thread) (i : Fin n) : Ledger n Thread :=
  { ledger with pairs := fun a b => ledger.pairs a b ∨ (0 < ledger.held t a ∧ b = i) }

variable [DecidableEq Thread]

def acquire (ledger : Ledger n Thread) (t : Thread) (i : Fin n) : Ledger n Thread :=
  { ledger with
    held := update ledger.held t
      (update (ledger.held t) i (ledger.held t i + 1)) }

def release (ledger : Ledger n Thread) (t : Thread) (i : Fin n) : Ledger n Thread :=
  { ledger with
    held := update ledger.held t
      (update (ledger.held t) i (ledger.held t i - 1)) }

variable [NeZero n]

/-- A node is used while it is live; the operations that check its epoch themselves may also
be given a node of another epoch. -/
def Admits (ledger : Ledger n Thread) : Op Thread -> Prop
  | .newNode => True
  | .removeNode node =>
    ledger.Live node ∧ ∀ t, ledger.held t (DeadlockDetector.nodeToIndexUnchecked node) = 0
  | .onLockBefore _ node | .addEdges _ node | .onLockAfter _ node | .onTryLock _ node =>
    ledger.Live node
  | .onFirstLock _ node | .onLockFast _ node | .onUnlock _ node =>
    ledger.Live node ∨ DeadlockDetector.nodeToEpoch n node ≠ ledger.epoch

/-- What an operation means, given its result. -/
def after (ledger : Ledger n Thread) : Op Thread -> Result -> Ledger n Thread
  | .newNode, .node node =>
    let epoch := DeadlockDetector.nodeToEpoch n node
    let i : Fin n := DeadlockDetector.nodeToIndexUnchecked node
    if epoch = ledger.epoch then ledger.create i else (flushed epoch).create i
  | .removeNode node, _ => ledger.remove (DeadlockDetector.nodeToIndexUnchecked node)
  | .addEdges t node, _ => ledger.announce t (DeadlockDetector.nodeToIndexUnchecked node)
  | .onLockAfter t node, _ | .onTryLock t node, _ =>
    ledger.acquire t (DeadlockDetector.nodeToIndexUnchecked node)
  | .onFirstLock t node, .answer true | .onLockFast t node, .answer true =>
    if DeadlockDetector.nodeToEpoch n node = ledger.epoch then
      ledger.acquire t (DeadlockDetector.nodeToIndexUnchecked node)
    else ledger
  | .onUnlock t node, _ =>
    if DeadlockDetector.nodeToEpoch n node = ledger.epoch then
      ledger.release t (DeadlockDetector.nodeToIndexUnchecked node)
    else ledger
  | _, _ => ledger

end Ledger

/-! ## The threads and the detector -/

structure State (n : Nat) (Thread : Type*) where
  dd : DeadlockDetector n
  dtls : Thread -> DeadlockDetectorTLS n

namespace State

def start : State n Thread := ⟨.clear, fun _ => .clear⟩

variable [DecidableEq Thread]

def setThread (state : State n Thread) (t : Thread) (dtls : DeadlockDetectorTLS n) :
    State n Thread :=
  { state with dtls := update state.dtls t dtls }

variable [NeZero n]

def execute (state : State n Thread) : Op Thread -> Option (Result × State n Thread)
  | .newNode => state.dd.newNode.map fun created => (.node created.1, { state with dd := created.2 })
  | .removeNode node => (state.dd.removeNode node).map fun dd => (.done, { state with dd := dd })
  | .onLockBefore t node =>
    (state.dd.onLockBefore (state.dtls t) node).map fun found =>
      (.answer found.1, state.setThread t found.2)
  | .addEdges t node =>
    (state.dd.addEdges (state.dtls t) node).map fun added =>
      (.added added.1, { state.setThread t added.2.1 with dd := added.2.2 })
  | .onLockAfter t node =>
    (state.dd.onLockAfter (state.dtls t) node).map fun dtls => (.done, state.setThread t dtls)
  | .onTryLock t node =>
    (state.dd.onTryLock (state.dtls t) node).map fun dtls =>
      (.answer false, state.setThread t dtls)
  | .onFirstLock t node =>
    (DeadlockDetector.onFirstLock (state.dtls t) node).map fun found =>
      (.answer found.1, state.setThread t found.2)
  | .onLockFast t node =>
    (state.dd.onLockFast (state.dtls t) node).map fun found =>
      (.answer found.1, state.setThread t found.2)
  | .onUnlock t node =>
    some (.done, state.setThread t (DeadlockDetector.onUnlock (state.dtls t) node))

end State

/-- The states of the detector that runs of the threads come to, with their ledgers. -/
inductive Reachable [DecidableEq Thread] [NeZero n] : State n Thread -> Ledger n Thread -> Prop
  | start : Reachable State.start Ledger.start
  | step {state next : State n Thread} {ledger : Ledger n Thread} {op : Op Thread}
      {result : Result} (reachable : Reachable state ledger) (admitted : ledger.Admits op)
      (executed : state.execute op = some (result, next)) :
      Reachable next (ledger.after op result)

/-! ## The locks of a thread -/

section Locks

variable {dtls dtls' : DeadlockDetectorTLS n} {held : Fin n -> Nat} {live : Fin n -> Prop}
  {epoch : Nat} {i : Fin n}

theorem perm_set_getLast {locks : List (Fin n)} {i : Nat} {lock : Fin n}
    (inside : locks[i]? = some lock) :
    locks.Perm (lock :: (locks.set i (locks.getLastD lock)).dropLast) := by
  rcases eq_nil_or_concat locks with rfl | ⟨front, last, rfl⟩
  · cases inside
  · rw [concat_eq_append] at inside ⊢
    have latest : (front ++ [last]).getLastD lock = last := by
      rw [getLastD_eq_getLast?, getLast?_concat, getD_some]
    rw [latest]
    by_cases earlier : i < front.length
    · rw [getElem?_append_left earlier, getElem?_eq_getElem earlier] at inside
      have here := Option.some.inj inside
      rw [set_append_left _ _ earlier, dropLast_concat]
      have taken : front.Perm (lock :: front.eraseIdx i) := by
        rw [<- here]
        exact (getElem_cons_eraseIdx_perm earlier).symm
      have filled := set_perm_cons_eraseIdx earlier last
      exact ((perm_append_singleton last front).trans (taken.cons last)).trans
        ((List.Perm.swap ..).trans (filled.symm.cons lock))
    · have bound := (List.getElem?_eq_some_iff.mp inside).1
      rw [length_append, length_singleton] at bound
      have place : i = front.length := by omega
      rw [place, getElem?_concat_length] at inside
      rw [place, set_append_right _ _ (le_refl _), Nat.sub_self, set_cons_zero,
        dropLast_concat, Option.some.inj inside]
      exact perm_append_singleton lock front

theorem swapRemove_perm {locks locks' : List (Fin n)} (removed : swapRemove i locks = some locks') :
    locks.Perm (i :: locks') := by
  rw [swapRemove] at removed
  split at removed
  · next mem =>
      cases removed
      apply perm_set_getLast
      have inside : locks.reverse.idxOf i < locks.reverse.length :=
        idxOf_lt_length_of_mem (mem_reverse.mpr (contains_iff_mem.mp mem))
      have found := getElem_idxOf inside
      rw [getElem_reverse] at found
      rw [length_reverse] at inside
      rw [getElem?_eq_getElem (by omega), found]
  · cases removed

theorem swapRemove_none {locks : List (Fin n)} (removed : swapRemove i locks = none) : i ∉ locks := by
  rw [swapRemove] at removed
  split at removed
  · cases removed
  · next missing => exact mt contains_iff_mem.mpr missing

/-- The locks are those that the ledger says are held. -/
structure Current (dtls : DeadlockDetectorTLS n) (held : Fin n -> Nat) (live : Fin n -> Prop) :
    Prop where
  counts : ∀ i, held i = (if i ∈ dtls.bv_ then 1 else 0) + dtls.recursive_locks.count i
  recursive : ∀ i ∈ dtls.recursive_locks, i ∈ dtls.bv_
  nodup : dtls.all_locks_with_contexts_.Nodup
  members : ∀ i, i ∈ dtls.all_locks_with_contexts_ ↔ i ∈ dtls.bv_
  live : ∀ i ∈ dtls.bv_, live i

theorem Current.empty (epoch : Nat) (live : Fin n -> Prop) :
    Current ⟨∅, epoch, [], []⟩ (fun _ => 0) live := by
  refine ⟨fun i => ?_, ?_, nodup_nil, fun i => ?_, ?_⟩
  · rw [if_neg (notMem_empty i), count_nil]
  · exact fun i inside => absurd inside not_mem_nil
  · exact iff_of_false not_mem_nil (notMem_empty i)
  · exact fun i inside => absurd inside (notMem_empty i)

theorem Current.held_pos_iff (current : Current dtls held live) : 0 < held i ↔ i ∈ dtls.bv_ := by
  rw [current.counts]
  by_cases mem : i ∈ dtls.bv_
  · rw [if_pos mem]
    exact iff_of_true (by omega) mem
  · have none : dtls.recursive_locks.count i = 0 :=
      List.count_eq_zero.mpr fun inside => mem (current.recursive i inside)
    rw [if_neg mem, none]
    exact iff_of_false (lt_irrefl 0) mem

theorem addLock_epoch {first : Bool} (added : dtls.addLock i epoch = some (first, dtls')) :
    dtls'.epoch_ = dtls.epoch_ := by
  rw [DeadlockDetectorTLS.addLock] at added
  split at added
  · split at added
    · split at added <;> cases added
      rfl
    · split at added <;> cases added
      rfl
  · cases added

theorem Current.addLock {first : Bool} (current : Current dtls held live) (alive : live i)
    (added : dtls.addLock i epoch = some (first, dtls')) :
    Current dtls' (update held i (held i + 1)) live := by
  rw [DeadlockDetectorTLS.addLock] at added
  split at added
  · split at added
    · next known =>
        split at added <;> cases added
        refine ⟨fun j => ?_, fun j inside => ?_, current.nodup, current.members, current.live⟩
        · rw [count_append]
          by_cases same : j = i
          · rw [same, update_self, current.counts, count_singleton_self]
            rfl
          · rw [update_of_ne same, current.counts,
              List.count_eq_zero.mpr fun inside => same (mem_singleton.mp inside)]
            rfl
        · rcases mem_append.mp inside with inside | inside
          · exact current.recursive j inside
          · rwa [mem_singleton.mp inside]
    · next fresh =>
        split at added <;> cases added
        refine ⟨fun j => ?_, fun j inside => ?_, ?_, fun j => ?_, fun j inside => ?_⟩
        · by_cases same : j = i
          · rw [same, update_self, current.counts, if_neg fresh, if_pos (mem_insert_self i _)]
            exact congrArg (· + 1) (zero_add _) |>.trans (add_comm _ 1)
          · rw [update_of_ne same, current.counts]
            simp only [mem_insert, same, false_or]
        · exact mem_insert_of_mem (current.recursive j inside)
        · have outside : i ∉ dtls.all_locks_with_contexts_ := by rwa [current.members]
          exact nodup_middle.mpr (by rw [append_nil]; exact nodup_cons.mpr ⟨outside, current.nodup⟩)
        · rw [mem_append, mem_singleton, mem_insert, current.members]
          exact Or.comm
        · rcases mem_insert.mp inside with rfl | inside
          · exact alive
          · exact current.live j inside
  · cases added

theorem removeLock_epoch (dtls : DeadlockDetectorTLS n) (i : Fin n) :
    (dtls.removeLock i).epoch_ = dtls.epoch_ := by
  rw [DeadlockDetectorTLS.removeLock]
  split
  · rfl
  · split <;> rfl

theorem Current.removeLock (current : Current dtls held live) (i : Fin n) :
    Current (dtls.removeLock i) (update held i (held i - 1)) live := by
  rw [DeadlockDetectorTLS.removeLock]
  cases removed : swapRemove i dtls.recursive_locks with
  | some locks =>
    have perm := swapRemove_perm removed
    have inside : i ∈ dtls.bv_ := current.recursive i (perm.mem_iff.mpr mem_cons_self)
    refine ⟨fun j => ?_, fun j mem => ?_, current.nodup, current.members, current.live⟩
    · have count := perm.count_eq j
      have old := current.counts j
      by_cases same : j = i
      · rw [same, update_self]
        rw [same] at old count
        rw [count_cons_self] at count
        dsimp only
        omega
      · rw [update_of_ne same, old, count, count_cons_of_ne fun equal => same equal.symm]
    · exact current.recursive j (perm.mem_iff.mpr (mem_cons_of_mem i mem))
  | none =>
    have once : dtls.recursive_locks.count i = 0 := List.count_eq_zero.mpr (swapRemove_none removed)
    have old := current.counts i
    dsimp only
    by_cases mem : i ∈ dtls.bv_
    · rw [if_pos mem]
      rw [if_pos mem, once] at old
      have listed : i ∈ dtls.all_locks_with_contexts_ := (current.members i).mpr mem
      cases shorter : swapRemove i dtls.all_locks_with_contexts_ with
      | none => exact absurd listed (swapRemove_none shorter)
      | some locks =>
        have perm := swapRemove_perm shorter
        have nodup := nodup_cons.mp (perm.nodup_iff.mp current.nodup)
        refine ⟨fun j => ?_, fun j inside => ?_, nodup.2, fun j => ?_, fun j inside => ?_⟩
        · by_cases same : j = i
          · rw [same, update_self, if_neg (notMem_erase i _), once]
            omega
          · rw [update_of_ne same, current.counts]
            simp only [mem_erase, ne_eq, same, not_false_eq_true, true_and]
        · refine mem_erase.mpr ⟨?_, current.recursive j inside⟩
          rintro rfl
          exact swapRemove_none removed inside
        · have both := perm.mem_iff (a := j)
          rw [current.members, mem_cons] at both
          rw [getD_some, mem_erase, both]
          constructor
          · exact fun inside => ⟨fun same => nodup.1 (same ▸ inside), .inr inside⟩
          · exact fun outside => outside.2.resolve_left outside.1
        · exact current.live j (mem_of_mem_erase inside)
    · rw [if_neg mem]
      rw [if_neg mem, once] at old
      have same : update held i (held i - 1) = held := by
        rw [old]
        conv_rhs => rw [<- update_eq_self i held, old]
      rw [same]
      exact current

/-- The locks of a thread of the current epoch are those that are held; those of an older
epoch count as released. -/
structure Holds (dtls : DeadlockDetectorTLS n) (epoch : Nat) (held : Fin n -> Nat)
    (live : Fin n -> Prop) : Prop where
  older : dtls.epoch_ <= epoch
  current : dtls.epoch_ = epoch -> Current dtls held live
  stale : dtls.epoch_ ≠ epoch -> ∀ i, held i = 0

/-- A thread comes back to the current epoch. -/
theorem Holds.ensured (holds : Holds dtls epoch held live) :
    (dtls.ensureCurrentEpoch epoch).epoch_ = epoch ∧
      Current (dtls.ensureCurrentEpoch epoch) held live := by
  rw [DeadlockDetectorTLS.ensureCurrentEpoch]
  split
  · next same => exact ⟨same, holds.current same⟩
  · next ne =>
      have none : held = fun _ => 0 := funext (holds.stale ne)
      rw [none]
      exact ⟨rfl, Current.empty epoch live⟩

theorem Current.holds (current : Current dtls held live) (same : dtls.epoch_ = epoch) :
    Holds dtls epoch held live :=
  ⟨le_of_eq same, fun _ => current, fun ne => absurd same ne⟩

theorem Holds.mono {live' : Fin n -> Prop} (holds : Holds dtls epoch held live)
    (kept : ∀ i, live i -> 0 < held i -> live' i) : Holds dtls epoch held live' := by
  refine ⟨holds.older, fun same => ?_, holds.stale⟩
  have current := holds.current same
  refine ⟨current.counts, current.recursive, current.nodup, current.members, fun i inside => ?_⟩
  exact kept i (current.live i inside) (current.held_pos_iff.mpr inside)

end Locks

/-! ## The detector represents the ledger -/

section Represents

variable {state next : State n Thread} {ledger : Ledger n Thread} {node : Nat} {i : Fin n}

structure Represents (state : State n Thread) (ledger : Ledger n Thread) : Prop where
  epoch : ledger.epoch = state.dd.current_epoch_
  multiple : n ∣ ledger.epoch
  begun : ledger.epoch = 0 ->
    state.dd.available_nodes_ = ∅ ∧ state.dd.recycled_nodes_ = ∅ ∧ ∀ i, ¬ledger.live i
  live : ledger.epoch ≠ 0 ->
    ∀ i, ledger.live i ↔ i ∉ state.dd.available_nodes_ ∧ i ∉ state.dd.recycled_nodes_
  disjoint : ∀ i, i ∈ state.dd.available_nodes_ -> i ∉ state.dd.recycled_nodes_
  pairs : ∀ a b, ledger.pairs a b ↔ ledger.live a ∧ ledger.live b ∧ state.dd.g_.Edge a b
  source : ∀ a b, state.dd.g_.Edge a b -> ledger.live a
  target : ∀ a b, state.dd.g_.Edge a b -> b ∉ state.dd.available_nodes_
  threads : ∀ t, Holds (state.dtls t) ledger.epoch (ledger.held t) ledger.live

theorem Represents.started (represents : Represents state ledger) (alive : ledger.live i) :
    ledger.epoch ≠ 0 := fun zero => (represents.begun zero).2.2 i alive

theorem Represents.live_iff (represents : Represents state ledger) (alive : ledger.live i) :
    i ∉ state.dd.available_nodes_ ∧ i ∉ state.dd.recycled_nodes_ :=
  (represents.live (represents.started alive) i).mp alive

variable {t : Thread}

variable {dtls : DeadlockDetectorTLS n}

section

variable (represents : Represents state ledger)
include represents

/-- The locks of one thread change with what the ledger says of it. -/
theorem Represents.setThread [DecidableEq Thread] {held : Fin
    n -> Nat} (holds : Holds dtls ledger.epoch held ledger.live) :
    Represents (state.setThread t dtls)
      { ledger with held := update ledger.held t held } := by
  refine ⟨represents.epoch, represents.multiple, represents.begun, represents.live,
    represents.disjoint, represents.pairs, represents.source, represents.target, fun u => ?_⟩
  rw [State.setThread]
  dsimp only
  by_cases same : u = t
  · rw [same, update_self, update_self]
    exact holds
  · rw [update_of_ne same, update_of_ne same]
    exact represents.threads u

theorem Represents.setThread_same [DecidableEq Thread]
    (holds : Holds dtls ledger.epoch (ledger.held t) ledger.live) :
    Represents (state.setThread t dtls) ledger := by
  have changed := represents.setThread (t := t) holds
  rwa [update_eq_self] at changed

theorem Represents.isolated (available : i ∈ state.dd.available_nodes_) (x : Fin n) :
    ¬state.dd.g_.Edge x i ∧ ¬state.dd.g_.Edge i x := by
  refine ⟨fun edge => represents.target x i edge available, fun edge => ?_⟩
  exact (represents.live_iff (represents.source i x edge)).1 available

theorem Represents.create (some_ : state.dd.available_nodes_.Nonempty) :
    ∃ (i : Fin n) (dd : DeadlockDetector n),
      state.dd.getAvailableNode = some (i + ledger.epoch, dd) ∧
      Represents { state with dd := dd } (ledger.create i) ∧
      ∀ x, ¬dd.g_.Edge x i ∧ ¬dd.g_.Edge i x := by
  have mem := min'_mem _ some_
  have isolated := represents.isolated mem
  have begun : ledger.epoch ≠ 0 := by
    intro zero
    rw [(represents.begun zero).1] at some_
    exact not_nonempty_empty some_
  refine ⟨state.dd.available_nodes_.min' some_,
    { state.dd with
      available_nodes_ :=
        state.dd.available_nodes_.erase (state.dd.available_nodes_.min' some_) }, ?_,
    ⟨represents.epoch, represents.multiple, fun zero => absurd zero begun, fun _ j => ?_,
      fun j inside => ?_, fun a b => ?_, fun a b edge => ?_, fun a b edge => ?_, fun t => ?_⟩, isolated⟩
  · rw [DeadlockDetector.getAvailableNode, dif_pos some_, represents.epoch]
  · rw [Ledger.create]
    dsimp only
    rw [mem_erase, represents.live begun j]
    by_cases same : j = state.dd.available_nodes_.min' some_
    · simp only [same, true_or, ne_eq, not_true_eq_false, false_and, not_false_eq_true, true_and,
        true_iff]
      exact represents.disjoint _ mem
    · simp only [same, false_or, ne_eq, not_false_eq_true, true_and]
  · exact represents.disjoint j (mem_of_mem_erase inside)
  · rw [Ledger.create]
    dsimp only
    rw [represents.pairs]
    constructor
    · exact fun all => ⟨.inr all.1, .inr all.2.1, all.2.2⟩
    · rintro ⟨first, second, edge⟩
      refine ⟨represents.source a b edge, second.resolve_left ?_, edge⟩
      rintro rfl
      exact (isolated a).1 edge
  · exact .inr (represents.source a b edge)
  · exact fun inside => represents.target a b edge (mem_of_mem_erase inside)
  · exact (represents.threads t).mono fun j alive _ => .inr alive

/-- The removed nodes are recycled. -/
theorem Represents.recycle :
    Represents
      { state with
        dd :=
          { state.dd with
            g_ := state.dd.g_.removeEdgesTo state.dd.recycled_nodes_
            available_nodes_ := state.dd.available_nodes_ ∪ state.dd.recycled_nodes_
            recycled_nodes_ := ∅ } }
      ledger := by
  refine ⟨represents.epoch, represents.multiple, fun zero => ?_, fun begun i => ?_, fun i _ => ?_,
    fun a b => ?_, fun a b edge => ?_, fun a b edge => ?_, represents.threads⟩
  · have start := represents.begun zero
    refine ⟨?_, rfl, start.2.2⟩
    dsimp only
    rw [start.1, start.2.1, empty_union]
  · dsimp only
    rw [represents.live begun i, mem_union, not_or]
    exact (and_iff_left (notMem_empty i)).symm
  · exact notMem_empty i
  · rw [represents.pairs, BVGraph.edge_removeEdgesTo]
    constructor
    · exact fun all => ⟨all.1, all.2.1, all.2.2, (represents.live_iff all.2.1).2⟩
    · exact fun all => ⟨all.1, all.2.1, all.2.2.1⟩
  · exact represents.source a b ((BVGraph.edge_removeEdgesTo _ _).mp edge).1
  · have kept := (BVGraph.edge_removeEdgesTo _ _).mp edge
    dsimp only
    rw [mem_union, not_or]
    exact ⟨represents.target a b kept.1, kept.2⟩

/-- A node that no thread holds is removed. -/
theorem Represents.remove (alive : ledger.live i) (unheld : ∀ t, ledger.held t i = 0) :
    Represents
      { state with
        dd :=
          { state.dd with
            recycled_nodes_ := insert i state.dd.recycled_nodes_
            g_ := state.dd.g_.removeEdgesFrom i } }
      (ledger.remove i) := by
  have known := represents.live_iff alive
  refine ⟨represents.epoch, represents.multiple, fun zero => ?_, fun begun j => ?_,
    fun j available => ?_, fun a b => ?_, fun a b edge => ?_, fun a b edge => ?_, fun t => ?_⟩
  · exact absurd zero (represents.started alive)
  · rw [Ledger.remove]
    dsimp only
    rw [represents.live begun j, mem_insert, not_or]
    exact ⟨fun all => ⟨all.1.1, all.2, all.1.2⟩, fun all => ⟨⟨all.1, all.2.2⟩, all.2.1⟩⟩
  · rw [mem_insert, not_or]
    refine ⟨?_, represents.disjoint j available⟩
    rintro rfl
    exact known.1 available
  · rw [BVGraph.edge_removeEdgesFrom, Ledger.remove]
    dsimp only
    rw [represents.pairs]
    constructor
    · rintro ⟨⟨first, second, edge⟩, notSource, notTarget⟩
      exact ⟨⟨first, notSource⟩, ⟨second, notTarget⟩, notSource, edge⟩
    · rintro ⟨⟨first, notSource⟩, ⟨second, notTarget⟩, _, edge⟩
      exact ⟨⟨first, second, edge⟩, notSource, notTarget⟩
  · have kept := (BVGraph.edge_removeEdgesFrom _ _).mp edge
    exact ⟨represents.source a b kept.2, kept.1⟩
  · exact represents.target a b ((BVGraph.edge_removeEdgesFrom _ _).mp edge).2
  · refine (represents.threads t).mono fun j alive pos => ⟨alive, ?_⟩
    rintro rfl
    rw [unheld t] at pos
    exact lt_irrefl 0 pos

theorem Represents.announce (current : Current dtls
    (ledger.held t) ledger.live) (alive : ledger.live i) (max_added_edges : Nat) :
    Represents
      { state with
        dd := { state.dd with g_ := (state.dd.g_.addEdges dtls.bv_ i max_added_edges).1 } }
      (ledger.announce t i) := by
  refine ⟨represents.epoch, represents.multiple, represents.begun, represents.live,
    represents.disjoint, fun a b => ?_, fun a b edge => ?_, fun a b edge => ?_, represents.threads⟩
  · rw [BVGraph.edge_addEdges, Ledger.announce]
    dsimp only
    rw [represents.pairs, current.held_pos_iff]
    constructor
    · rintro (⟨first, second, edge⟩ | ⟨mem, rfl⟩)
      · exact ⟨first, second, .inl edge⟩
      · exact ⟨current.live a mem, alive, .inr ⟨mem, rfl⟩⟩
    · rintro ⟨first, second, edge | new⟩
      · exact .inl ⟨first, second, edge⟩
      · exact .inr new
  · rcases (BVGraph.edge_addEdges _ _ _ _).mp edge with edge | new
    · exact represents.source a b edge
    · exact current.live a new.1
  · rcases (BVGraph.edge_addEdges _ _ _ _).mp edge with edge | new
    · exact represents.target a b edge
    · rw [new.2]
      exact (represents.live_iff alive).1

end

theorem flushed_represents {epoch : Nat} (multiple : n ∣ epoch) (begun : epoch ≠ 0)
    (dtls : Thread -> DeadlockDetectorTLS n) (older : ∀ t, (dtls t).epoch_ < epoch) :
    Represents ⟨⟨epoch, univ, ∅, fun _ => ∅⟩, dtls⟩ (Ledger.flushed epoch) := by
  refine ⟨rfl, multiple, fun zero => absurd zero begun, fun _ i => ?_, fun i _ => ?_, fun a b => ?_,
    fun a b edge => ?_, fun a b edge => ?_, fun t => ?_⟩
  · exact iff_of_false id fun both => both.1 (mem_univ i)
  · exact notMem_empty i
  · exact iff_of_false id fun all => all.1
  · exact absurd edge (notMem_empty b)
  · exact absurd edge (notMem_empty b)
  · refine ⟨le_of_lt (older t), fun same => ?_, fun _ _ => rfl⟩
    exact absurd same (ne_of_lt (older t))

section

variable (represents : Represents state ledger)
include represents

theorem Represents.ensured (t : Thread) :
    ((state.dtls t).ensureCurrentEpoch state.dd.current_epoch_).epoch_ = ledger.epoch ∧
      Current ((state.dtls t).ensureCurrentEpoch state.dd.current_epoch_) (ledger.held t)
        ledger.live := by
  rw [<- represents.epoch]
  exact (represents.threads t).ensured

theorem Represents.acquire [DecidableEq Thread] {dtls dtls' : DeadlockDetectorTLS n} {epoch : Nat}
    {first : Bool} (same : dtls.epoch_ = ledger.epoch) (current : Current dtls (ledger.held t)
    ledger.live) (alive : ledger.live i) (added : dtls.addLock i epoch = some (first, dtls')) :
    Represents (state.setThread t dtls') (ledger.acquire t i) :=
  represents.setThread ((current.addLock alive added).holds ((addLock_epoch added).trans same))

/-- Reachability of what is held is the same in the graph and in the pairs. -/
theorem Represents.reaches_iff {h : Fin n} (alive : ledger.live h) :
    ReflTransGen state.dd.g_.Edge i h ↔ ReflTransGen ledger.pairs i h := by
  constructor
  · intro path
    induction path using ReflTransGen.head_induction_on with
    | refl => exact ReflTransGen.refl
    | @head a b edge path ih =>
      have target : ledger.live b := by
        rcases path.cases_head with rfl | ⟨c, onward, _⟩
        · exact alive
        · exact represents.source b c onward
      have pair := (represents.pairs a b).mpr ⟨represents.source a b edge, target, edge⟩
      exact ReflTransGen.head pair ih
  · intro path
    exact path.lift id fun a b pair => ((represents.pairs a b).mp pair).2.2

end

variable [NeZero n]

theorem node_parts {epoch : Nat} (multiple : n ∣ epoch) (i : Fin n) :
    DeadlockDetector.nodeToEpoch n (i + epoch) = epoch ∧
      (DeadlockDetector.nodeToIndexUnchecked (i + epoch) : Fin n) = i := by
  rcases multiple with ⟨k, rfl⟩
  have pos : 0 < n := Nat.pos_of_neZero n
  constructor
  · rw [DeadlockDetector.nodeToEpoch, Nat.add_mul_div_left _ _ pos,
      Nat.div_eq_of_lt i.isLt, zero_add, mul_comm]
  · apply Fin.ext
    show (i + n * k) % n = i.val
    rw [Nat.add_mul_mod_self_left, Nat.mod_eq_of_lt i.isLt]

section

variable (represents : Represents state ledger)
include represents

theorem Represents.nodeToIndex (alive : ledger.Live node) :
    ∃ i, ledger.live i ∧ DeadlockDetector.nodeToIndexUnchecked node = i ∧
      DeadlockDetector.nodeToEpoch n node = ledger.epoch ∧
      state.dd.nodeToIndex node = some i := by
  rcases alive with ⟨i, alive, rfl⟩
  have parts := node_parts represents.multiple i
  have most : n <= ledger.epoch :=
    Nat.le_of_dvd (pos_of_ne_zero (represents.started alive)) represents.multiple
  refine ⟨i, alive, parts.2, parts.1, ?_⟩
  rw [DeadlockDetector.nodeToIndex, if_pos ⟨by omega, by rw [parts.1, represents.epoch]⟩, parts.2]

/-- A new node is handed out, and no edge leads to it or from it. -/
theorem Represents.newNode [DecidableEq Thread] :
    ∃ node dd, state.dd.newNode = some (node, dd) ∧
      Represents { state with dd := dd } (ledger.after .newNode (.node node)) ∧
      ∀ x, ¬dd.g_.Edge x (DeadlockDetector.nodeToIndexUnchecked node) ∧
        ¬dd.g_.Edge (DeadlockDetector.nodeToIndexUnchecked node) x := by
  -- the epoch stays if some node is available
  have kept : ∀ {dd : DeadlockDetector n}, Represents { state with dd := dd } ledger ->
      dd.available_nodes_.Nonempty -> ∃ node dd', dd.getAvailableNode = some (node, dd') ∧
        Represents { state with dd := dd' } (ledger.after .newNode (.node node)) ∧
        ∀ x, ¬dd'.g_.Edge x (DeadlockDetector.nodeToIndexUnchecked node) ∧
          ¬dd'.g_.Edge (DeadlockDetector.nodeToIndexUnchecked node) x := by
    intro dd represents available
    rcases represents.create available with ⟨i, dd', created, represents', isolated⟩
    have parts := node_parts represents.multiple i
    refine ⟨_, dd', created, ?_, ?_⟩
    · rw [Ledger.after, parts.1, if_pos rfl, parts.2]
      exact represents'
    · rw [parts.2]
      exact isolated
  rw [DeadlockDetector.newNode]
  by_cases available : state.dd.available_nodes_.Nonempty
  · rw [if_pos available]
    exact kept represents available
  · rw [if_neg available]
    by_cases recycled : state.dd.recycled_nodes_.Nonempty
    · rw [if_pos recycled]
      exact kept represents.recycle (recycled.mono subset_union_right)
    · rw [if_neg recycled]
      have pos : 0 < n := Nat.pos_of_neZero n
      have multiple : n ∣ state.dd.current_epoch_ + n := by
        rw [<- represents.epoch]
        exact Nat.dvd_add represents.multiple (dvd_refl n)
      have fresh := flushed_represents multiple (by omega) state.dtls fun t => by
        have older := (represents.threads t).older
        rw [represents.epoch] at older
        omega
      rcases fresh.create univ_nonempty with ⟨i, dd', created, represents', isolated⟩
      have parts := node_parts multiple i
      refine ⟨_, dd', created, ?_, ?_⟩
      · have other : (Ledger.flushed (state.dd.current_epoch_ + n) : Ledger n Thread).epoch =
            state.dd.current_epoch_ + n := rfl
        rw [other, Ledger.after, parts.1, if_neg (by rw [represents.epoch]; omega), parts.2]
        exact represents'
      · exact fun x => by
          have number : (DeadlockDetector.nodeToIndexUnchecked
              (i + (state.dd.current_epoch_ + n)) : Fin n) = i := parts.2
          exact number.symm ▸ isolated x

/-- A lock that is acquired without a check of the current epoch. -/
theorem Represents.acquireFast [DecidableEq Thread] {first :
    Bool} (admitted : ledger.Live node ∨ DeadlockDetector.nodeToEpoch n node ≠ ledger.epoch) (same :
    (state.dtls t).epoch_ = DeadlockDetector.nodeToEpoch n node) (added : (state.dtls t).addLock
    (DeadlockDetector.nodeToIndexUnchecked node) (DeadlockDetector.nodeToEpoch n node) = some
    (first, dtls)) :
    Represents (state.setThread t dtls)
      (if DeadlockDetector.nodeToEpoch n node = ledger.epoch then
        ledger.acquire t (DeadlockDetector.nodeToIndexUnchecked node)
      else ledger) := by
  by_cases now : DeadlockDetector.nodeToEpoch n node = ledger.epoch
  · rcases represents.nodeToIndex (admitted.resolve_right (not_not.mpr now)) with
      ⟨i, alive, index, _, _⟩
    rw [if_pos now, index]
    rw [index] at added
    have here := same.trans now
    exact represents.acquire here ((represents.threads t).current here) alive added
  · have holds := represents.threads t
    have epoch := addLock_epoch added
    have stale : dtls.epoch_ ≠ ledger.epoch := by
      rw [epoch, same]
      exact now
    rw [if_neg now]
    refine represents.setThread_same ⟨?_, fun current => absurd current stale, fun _ => ?_⟩
    · rw [epoch]
      exact holds.older
    · exact holds.stale (by rwa [epoch] at stale)

theorem Represents.unlock [DecidableEq Thread] (t : Thread) (node : Nat) :
    Represents (state.setThread t (DeadlockDetector.onUnlock (state.dtls t) node))
      (if DeadlockDetector.nodeToEpoch n node = ledger.epoch then
        ledger.release t (DeadlockDetector.nodeToIndexUnchecked node)
      else ledger) := by
  have holds := represents.threads t
  rw [DeadlockDetector.onUnlock]
  by_cases same : (state.dtls t).epoch_ = DeadlockDetector.nodeToEpoch n node
  · have epoch := removeLock_epoch (state.dtls t) (DeadlockDetector.nodeToIndexUnchecked node)
    rw [if_pos same]
    by_cases now : DeadlockDetector.nodeToEpoch n node = ledger.epoch
    · rw [if_pos now]
      have here := same.trans now
      exact represents.setThread (((holds.current here).removeLock _).holds (epoch.trans here))
    · rw [if_neg now]
      have stale : (state.dtls t).epoch_ ≠ ledger.epoch := by rwa [same]
      refine represents.setThread_same ⟨?_, fun current => ?_, fun _ => holds.stale stale⟩
      · rw [epoch]
        exact holds.older
      · rw [epoch] at current
        exact absurd current stale
  · rw [if_neg same]
    by_cases now : DeadlockDetector.nodeToEpoch n node = ledger.epoch
    · rw [if_pos now]
      have stale : (state.dtls t).epoch_ ≠ ledger.epoch := by rwa [<- now]
      refine represents.setThread ⟨holds.older, fun current => absurd current stale, fun _ j => ?_⟩
      by_cases here : j = DeadlockDetector.nodeToIndexUnchecked node
      · rw [here, update_self, holds.stale stale]
      · rw [update_of_ne here, holds.stale stale]
    · rw [if_neg now]
      exact represents.setThread_same holds

theorem Represents.step [DecidableEq Thread] {op : Op Thread} {result : Result}
    (admitted : ledger.Admits op) (executed : state.execute op = some (result, next)) :
    Represents next (ledger.after op result) := by
  cases op with
  | newNode =>
    rcases represents.newNode with ⟨node, dd, created, represents', _⟩
    rw [State.execute, created] at executed
    cases executed
    exact represents'
  | removeNode node =>
    rcases represents.nodeToIndex admitted.1 with ⟨i, alive, index, _, checked⟩
    have known := represents.live_iff alive
    have unheld := admitted.2
    rw [index] at unheld
    rw [State.execute, DeadlockDetector.removeNode, checked, bind_some,
      if_neg (not_or.mpr known)] at executed
    cases executed
    rw [Ledger.after, index]
    exact represents.remove alive unheld
  | onLockBefore t node =>
    rcases represents.nodeToIndex admitted with ⟨i, alive, index, _, checked⟩
    have ensured := represents.ensured t
    rw [State.execute, DeadlockDetector.onLockBefore, checked] at executed
    cases executed
    exact represents.setThread_same (ensured.2.holds ensured.1)
  | addEdges t node =>
    rcases represents.nodeToIndex admitted with ⟨i, alive, index, _, checked⟩
    have ensured := represents.ensured t
    rw [State.execute, DeadlockDetector.addEdges, checked] at executed
    cases executed
    rw [Ledger.after, index]
    exact (represents.setThread_same (ensured.2.holds ensured.1)).announce ensured.2 alive 40
  | onLockAfter t node =>
    rcases represents.nodeToIndex admitted with ⟨i, alive, index, _, checked⟩
    have ensured := represents.ensured t
    rw [State.execute, DeadlockDetector.onLockAfter, checked, bind_some] at executed
    rcases map_eq_some_iff.mp executed with ⟨dtls, ran, same⟩
    rcases map_eq_some_iff.mp ran with ⟨⟨first, _⟩, added, rfl⟩
    cases same
    rw [Ledger.after, index]
    exact represents.acquire ensured.1 ensured.2 alive added
  | onTryLock t node =>
    rcases represents.nodeToIndex admitted with ⟨i, alive, index, _, checked⟩
    have ensured := represents.ensured t
    rw [State.execute, DeadlockDetector.onTryLock, checked, bind_some] at executed
    rcases map_eq_some_iff.mp executed with ⟨dtls, ran, same⟩
    rcases map_eq_some_iff.mp ran with ⟨⟨first, _⟩, added, rfl⟩
    cases same
    rw [Ledger.after, index]
    exact represents.acquire ensured.1 ensured.2 alive added
  | onFirstLock t node =>
    rw [State.execute, DeadlockDetector.onFirstLock] at executed
    rcases map_eq_some_iff.mp executed with ⟨found, ran, same⟩
    cases same
    split at ran
    · cases ran
      exact represents.setThread_same (represents.threads t)
    · split at ran
      · next epochs =>
          rcases map_eq_some_iff.mp ran with ⟨⟨first, dtls⟩, added, rfl⟩
          exact represents.acquireFast admitted epochs.2 added
      · cases ran
        exact represents.setThread_same (represents.threads t)
  | onLockFast t node =>
    rw [State.execute, DeadlockDetector.onLockFast] at executed
    rcases map_eq_some_iff.mp executed with ⟨found, ran, same⟩
    cases same
    split at ran
    · next all =>
        rcases map_eq_some_iff.mp ran with ⟨⟨first, dtls⟩, added, rfl⟩
        rw [DeadlockDetector.hasAllEdges] at all
        split at all
        · next epochs => exact represents.acquireFast admitted epochs.2.2 added
        · cases all
    · cases ran
      exact represents.setThread_same (represents.threads t)
  | onUnlock t node =>
    cases executed
    exact represents.unlock t node

end

omit [NeZero n] in
theorem start_represents [DecidableEq Thread] :
    Represents (State.start : State n Thread) Ledger.start := by
  refine ⟨rfl, Nat.dvd_zero n, fun _ => ⟨rfl, rfl, fun _ => id⟩,
    fun begun => absurd rfl begun, fun i _ => notMem_empty i, fun a b => ?_,
    fun a b edge => absurd edge (notMem_empty b),
    fun a b edge => absurd edge (notMem_empty b), fun t => ?_⟩
  · exact iff_of_false id fun all => all.1
  · exact (Current.empty 0 _).holds rfl

theorem Reachable.represents [DecidableEq Thread] (reachable : Reachable state ledger) :
    Represents state ledger := by
  induction reachable with
  | start => exact start_represents
  | step _ admitted executed ih =>
    exact ih.step admitted executed

/-! ## The answers -/

/-- In every state that the threads come to: the answer before a lock event is exact, a fast
lock event is one for which no edge is missing, and a new node has no edges. -/
theorem Reachable.answers_cycles [DecidableEq Thread] (reachable : Reachable state ledger) :
    (∀ t node, ledger.Live node ->
      ledger.held t (DeadlockDetector.nodeToIndexUnchecked node) = 0 ->
      ∃ answer next', state.execute (.onLockBefore t node) = some (.answer answer, next') ∧
        (answer = true ↔ ∃ h, 0 < ledger.held t h ∧
          TransGen ledger.pairs (DeadlockDetector.nodeToIndexUnchecked node) h)) ∧
    (∀ t node next', ledger.Admits (.onLockFast t node) ->
      state.execute (.onLockFast t node) = some (.answer true, next') ->
      state.execute (.addEdges t node) = some (.added 0, state)) ∧
    ∃ node next', state.execute .newNode = some (.node node, next') ∧
      ∀ x, ¬next'.dd.g_.Edge x (DeadlockDetector.nodeToIndexUnchecked node) ∧
        ¬next'.dd.g_.Edge (DeadlockDetector.nodeToIndexUnchecked node) x := by
  have represents := reachable.represents
  refine ⟨fun t node alive unheld => ?_, fun t node next' admitted executed => ?_, ?_⟩
  · rcases represents.nodeToIndex alive with ⟨i, _, index, _, checked⟩
    have ensured := represents.ensured t
    rw [index] at unheld ⊢
    refine ⟨_, _, by rw [State.execute, DeadlockDetector.onLockBefore, checked]; rfl, ?_⟩
    rw [BVGraph.isReachable_iff]
    constructor
    · rintro ⟨h, mem, path⟩
      have held := ensured.2.held_pos_iff.mpr mem
      rw [represents.reaches_iff (ensured.2.live h mem)] at path
      refine ⟨h, held, (reflTransGen_iff_eq_or_transGen.mp path).resolve_left ?_⟩
      rintro rfl
      exact absurd unheld (Nat.ne_of_gt held)
    · rintro ⟨h, held, path⟩
      have mem := ensured.2.held_pos_iff.mp held
      exact ⟨h, mem, (represents.reaches_iff (ensured.2.live h mem)).mpr path.to_reflTransGen⟩
  · rw [State.execute, DeadlockDetector.onLockFast] at executed
    rcases map_eq_some_iff.mp executed with ⟨found, ran, same⟩
    have success : found.1 = true := Result.answer.inj (congrArg Prod.fst same)
    split at ran
    · next all =>
        rw [DeadlockDetector.hasAllEdges] at all
        split at all
        · next epochs =>
            have now : DeadlockDetector.nodeToEpoch n node = ledger.epoch := by
              rw [represents.epoch, <- epochs.2.1, epochs.2.2]
            rcases represents.nodeToIndex (admitted.resolve_right (not_not.mpr now)) with
              ⟨i, _, index, _, checked⟩
            have here : (state.dtls t).epoch_ = ledger.epoch := epochs.2.2.trans now
            have current := (represents.threads t).current here
            have unchanged : (state.dtls t).ensureCurrentEpoch state.dd.current_epoch_ =
                state.dtls t := if_pos epochs.2.1
            have existing : ∀ x ∈ (state.dtls t).bv_, state.dd.g_.Edge x i := by
              intro x mem
              rw [List.all_eq_true, index] at all
              have found := all x ((current.members x).mpr mem)
              rwa [decide_eq_true_iff] at found
            have nothing : state.dd.g_.addEdges (state.dtls t).bv_ i 40 = (state.dd.g_, []) :=
              BVGraph.addEdges_of_all i 40 [] existing
            rw [State.execute, DeadlockDetector.addEdges, checked, unchanged, map_some,
              map_some, nothing, State.setThread, update_eq_self]
            rfl
        · cases all
    · cases ran
      cases success
  · rcases represents.newNode with ⟨node, dd, created, _, isolated⟩
    refine ⟨node, { state with dd := dd }, ?_, isolated⟩
    rw [State.execute, created]
    rfl

/-- Two nodes, of which one thread holds the first. -/
def exampleState : State 2 Bool :=
  ⟨⟨2, ∅, ∅, fun _ => ∅⟩, update (fun _ => .clear) true ⟨{0}, 2, [], [0]⟩⟩

def exampleLedger : Ledger 2 Bool :=
  ((Ledger.start.after .newNode (.node 2)).after .newNode (.node 3)).after (.onTryLock true 2)
    (.answer false)

theorem example_reachable : Reachable exampleState exampleLedger := by
  have live : ∀ {ledger : Ledger 2 Bool} {node : Nat} (i : Fin 2), ledger.live i ->
      node = i + ledger.epoch -> ledger.Live node := fun i alive number => ⟨i, alive, number⟩
  have creates : ∀ {ledger : Ledger 2 Bool}, ledger.Admits .newNode := trivial
  have first : Reachable ⟨⟨2, {1}, ∅, fun _ => ∅⟩, fun _ => .clear⟩
      ((Ledger.start : Ledger 2 Bool).after .newNode (.node 2)) :=
    Reachable.start.step creates rfl
  have second : Reachable ⟨⟨2, ∅, ∅, fun _ => ∅⟩, fun _ => .clear⟩
      (((Ledger.start : Ledger 2 Bool).after .newNode (.node 2)).after .newNode (.node 3)) :=
    first.step creates rfl
  have locks : Ledger.Admits (((Ledger.start : Ledger 2 Bool).after .newNode (.node 2)).after
      .newNode (.node 3)) (.onTryLock true 2) := live 0 (.inr (.inl rfl)) rfl
  exact second.step locks rfl

theorem answers_example :
    (∀ t node, exampleLedger.Live node ->
      exampleLedger.held t (DeadlockDetector.nodeToIndexUnchecked node) = 0 ->
      ∃ answer next', exampleState.execute (.onLockBefore t node) =
          some (.answer answer, next') ∧
        (answer = true ↔ ∃ h, 0 < exampleLedger.held t h ∧
          TransGen exampleLedger.pairs (DeadlockDetector.nodeToIndexUnchecked node) h)) ∧
    (∀ t node next', exampleLedger.Admits (.onLockFast t node) ->
      exampleState.execute (.onLockFast t node) = some (.answer true, next') ->
      exampleState.execute (.addEdges t node) = some (.added 0, exampleState)) ∧
    ∃ node next', exampleState.execute .newNode = some (.node node, next') ∧
      ∀ x, ¬next'.dd.g_.Edge x (DeadlockDetector.nodeToIndexUnchecked node) ∧
        ¬next'.dd.g_.Edge (DeadlockDetector.nodeToIndexUnchecked node) x :=
  Reachable.answers_cycles example_reachable

end Represents

end Sanitizer
end LlvmProject
