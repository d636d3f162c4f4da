import Mathlib.Algebra.Order.BigOperators.Group.Finset
import LlvmProject.ADT.ImmutableSet

namespace LlvmProject

open Finset hiding mem_toList
open List Option

namespace ImmutableSet

/-!
# Ownership of the nodes

The live nodes of a factory are those that were handed out and not destroyed.
A live node counts at least the links to it from live nodes, and besides them
the pending links, which a node under destruction has not given up yet.  A set
of live nodes is kept when none of its nodes is linked from the outside only:
destroying nodes outside of it never destroys one of its own.
-/

open scoped BigOperators

variable {β : Type}

namespace ImutAVLTree

/-- The addresses that a node links to. -/
def children (n : ImutAVLTree β) : List Addr := n.left.toList ++ n.right.toList

/-- A node without its reference count. -/
def core (n : ImutAVLTree β) : ImutAVLTree β := { n with refCount := 0 }

variable {n m : ImutAVLTree β}

theorem children_of_core_eq (same : n.core = m.core) : n.children = m.children := by
  injection same with left right
  rw [children, children, left, right]

theorem height_of_core_eq (same : n.core = m.core) : n.height = m.height := by
  injection same

theorem isMutable_of_core_eq (same : n.core = m.core) : n.IsMutable = m.IsMutable := by
  injection same

theorem mem_children {n : ImutAVLTree β} {c : Addr} :
    c ∈ n.children ↔ n.left = some c ∨ n.right = some c := by
  rw [children, mem_append, mem_toList, mem_toList]

end ImutAVLTree

namespace ImutAVLFactory

variable {s s' : ImutAVLFactory β} {live kept : Finset Addr} {pending : List Addr} {a b c : Addr}
  {n : ImutAVLTree β}

/-- The number of links from one node to another. -/
def links (s : ImutAVLFactory β) (b a : Addr) : Nat :=
  (s.memory b).elim 0 fun n => n.children.count a

/-- The links to a node from a set of nodes. -/
def linksFrom (s : ImutAVLFactory β) (nodes : Finset Addr) (a : Addr) : Nat :=
  ∑ b ∈ nodes, s.links b a

/-- Two factories hold the same node at an address, but for its reference count. -/
def SameNode (s s' : ImutAVLFactory β) (a : Addr) : Prop :=
  (s'.memory a).map ImutAVLTree.core = (s.memory a).map ImutAVLTree.core

structure Owned (s : ImutAVLFactory β) (live : Finset Addr) (pending : List Addr) : Prop where
  allocated : ∀ a ∈ live, a < s.allocated
  freeAllocated : ∀ a ∈ s.freeNodes, a < s.allocated
  freeDead : ∀ a ∈ s.freeNodes, a ∉ live
  freeNodup : s.freeNodes.Nodup
  node : ∀ a ∈ live, ∃ n, s.memory a = some n ∧ 0 < n.height
  child : ∀ a ∈ live, ∀ n, s.memory a = some n -> ∀ c ∈ n.children,
    c ∈ live ∧ ∀ m, s.memory c = some m -> m.height < n.height
  pendingLive : ∀ a ∈ pending, a ∈ live
  counted : ∀ a ∈ live, ∀ n, s.memory a = some n -> s.linksFrom live a + pending.count a <=
      n.refCount

/-- A set of live nodes none of which is linked from the outside only. -/
structure Guarded (s : ImutAVLFactory β) (kept live : Finset Addr) (pending : List Addr) :
    Prop where
  subset : kept ⊆ live
  guarded : ∀ k ∈ kept, (k ∈ pending ∨ ∃ b ∈ live, b ∉ kept ∧ 0 < s.links b k) ->
    ∃ b ∈ kept, 0 < s.links b k

/-! ## Unchanged nodes -/

@[simp] theorem memory_write_self (s : ImutAVLFactory β) (a : Addr) (n : ImutAVLTree β) :
    (s.write a n).memory a = some n := by
  simp only [write, Function.update_self]

theorem memory_write_of_ne (ne : b ≠ a) : (s.write a n).memory b = s.memory b := by
  simp only [write, Function.update_of_ne ne]

theorem SameNode.refl (s : ImutAVLFactory β) (a : Addr) : SameNode s s a := rfl

theorem SameNode.trans {s'' : ImutAVLFactory β} (first : SameNode s s' a)
    (second : SameNode s' s'' a) : SameNode s s'' a :=
  Eq.trans second first

theorem SameNode.symm (same : SameNode s s' a) : SameNode s' s a := Eq.symm same

theorem SameNode.of_memory_eq (same : s'.memory a = s.memory a) : SameNode s s' a :=
  congrArg (Option.map ImutAVLTree.core) same

theorem SameNode.exists (same : SameNode s s' a) (found : s.memory a = some n) :
    ∃ n', s'.memory a = some n' ∧ n'.core = n.core := by
  rw [SameNode, found, map_some] at same
  exact map_eq_some_iff.mp same

theorem SameNode.links_eq (same : SameNode s s' b) (a : Addr) : s'.links b a = s.links b a := by
  rw [links, links]
  cases found : s.memory b with
  | none =>
    rw [SameNode, found, map_none, map_eq_none_iff] at same
    rw [same]
  | some n =>
    rcases same.exists found with ⟨n', found', core⟩
    rw [found', elim_some, elim_some, ImutAVLTree.children_of_core_eq core]

theorem linksFrom_congr (same : ∀ b ∈ live, SameNode s s' b) (a : Addr) :
    s'.linksFrom live a = s.linksFrom live a :=
  sum_congr rfl fun b mem => (same b mem).links_eq a

theorem links_eq_count (found : s.memory b = some n) (a : Addr) :
    s.links b a = n.children.count a := by
  rw [links, found, elim_some]

theorem links_pos (found : s.memory b = some n) : 0 < s.links b a ↔ a ∈ n.children := by
  rw [links_eq_count found, count_pos_iff]

theorem sameNode_write_refCount (found : s.memory a = some n) (count : Nat) (b : Addr) :
    SameNode s (s.write a { n with refCount := count }) b := by
  by_cases same : b = a
  · rw [same, SameNode, memory_write_self, found]
    rfl
  · exact SameNode.of_memory_eq (memory_write_of_ne same)

/-! ## Changing one count -/

theorem Owned.linksFrom_le (owned : Owned s live pending) (mem : a ∈ live)
    (found : s.memory a = some n) : s.linksFrom live a + pending.count a <= n.refCount :=
  owned.counted a mem n found

variable {pending' : List Addr}

theorem Owned.write_refCount {count : Nat} (owned : Owned s live pending) (found : s.memory a = some
    n) (pendingLive : ∀ b ∈ pending', b ∈ live) (covered : s.linksFrom live a + pending'.count a <=
    count) (others : ∀ b, b ≠ a -> pending'.count b <= pending.count b) :
    Owned (s.write a { n with refCount := count }) live pending' where
  allocated := owned.allocated
  freeAllocated := owned.freeAllocated
  freeDead := owned.freeDead
  freeNodup := owned.freeNodup
  node := by
    intro b mem
    rcases owned.node b mem with ⟨m, foundB, pos⟩
    rcases (sameNode_write_refCount found count b).exists foundB with ⟨m', foundB', core⟩
    exact ⟨m', foundB', ImutAVLTree.height_of_core_eq core ▸ pos⟩
  child := by
    intro b mem m foundB c child
    rcases (sameNode_write_refCount found count b).symm.exists foundB with ⟨m', foundB', core⟩
    rw [<- ImutAVLTree.children_of_core_eq core] at child
    have below := owned.child b mem m' foundB' c child
    refine ⟨below.1, fun k foundC => ?_⟩
    rcases (sameNode_write_refCount found count c).symm.exists foundC with ⟨k', foundC', coreC⟩
    rw [<- ImutAVLTree.height_of_core_eq core, <- ImutAVLTree.height_of_core_eq coreC]
    exact below.2 k' foundC'
  pendingLive := pendingLive
  counted := by
    intro b mem m foundB
    rw [linksFrom_congr fun c _ => sameNode_write_refCount found count c]
    by_cases same : b = a
    · rw [same, memory_write_self] at foundB
      rw [same, <- Option.some.inj foundB]
      exact covered
    · rw [memory_write_of_ne same] at foundB
      have before := owned.linksFrom_le mem foundB
      have fewer := others b same
      omega

theorem Guarded.write_refCount {count : Nat} (guarded : Guarded s kept live pending)
    (found : s.memory a = some n) (fewer : ∀ b ∈ pending', b ∈ pending) :
    Guarded (s.write a { n with refCount := count }) kept live pending' where
  subset := guarded.subset
  guarded := by
    intro k mem outside
    have linked := fun b => (sameNode_write_refCount found count b).links_eq k
    have before : k ∈ pending ∨ ∃ b ∈ live, b ∉ kept ∧ 0 < s.links b k := by
      rcases outside with inPending | ⟨b, liveB, out, link⟩
      · exact .inl (fewer k inPending)
      · exact .inr ⟨b, liveB, out, linked b ▸ link⟩
    rcases guarded.guarded k mem before with ⟨b, inside, link⟩
    exact ⟨b, inside, (linked b).symm ▸ link⟩

theorem Owned.forget {first : List Addr} (owned : Owned s live (first ++ pending)) :
    Owned s live pending := { owned with
  pendingLive := fun a mem => owned.pendingLive a (mem_append_right first mem)
  counted := by
    intro a alive n found
    have covered := owned.counted a alive n found
    rw [count_append] at covered
    omega }

/-! ## Destroying a node -/

/-- What destroying nodes outside of the kept set leaves. -/
structure Released (s s' : ImutAVLFactory β) (kept live live' : Finset Addr)
    (pending : List Addr) : Prop where
  owned : Owned s' live' pending
  guarded : Guarded s' kept live' pending
  subset : live' ⊆ live
  same : ∀ a ∈ live', SameNode s s' a
  dead : ∀ a ∈ live, a ∉ live' -> ∃ n, s'.memory a = some n ∧ n.IsMutable = false
  outside : ∀ a, a ∉ live -> s'.memory a = s.memory a
  free : ∀ a ∈ s'.freeNodes, a ∈ s.freeNodes ∨ a ∈ live
  created : s'.createdNodes = s.createdNodes
  allocated : s'.allocated = s.allocated

theorem Released.refl (owned : Owned s live pending) (guarded : Guarded s kept live pending) :
    Released s s kept live live pending where
  owned := owned
  guarded := guarded
  subset := Subset.refl live
  same := fun a _ => SameNode.refl s a
  dead := fun _ mem dead => absurd mem dead
  outside := fun _ _ => rfl
  free := fun _ mem => .inl mem
  created := rfl
  allocated := rfl

theorem Released.trans {s'' : ImutAVLFactory β} {live' live'' : Finset Addr} (first : Released s s'
    kept live live' pending) (second : Released s' s'' kept live' live'' pending') :
    Released s s'' kept live live'' pending' where
  owned := second.owned
  guarded := second.guarded
  subset := second.subset.trans first.subset
  same := fun a mem => (first.same a (second.subset mem)).trans (second.same a mem)
  dead := by
    intro a mem dead
    by_cases alive : a ∈ live'
    · exact second.dead a alive dead
    · rw [second.outside a alive]
      exact first.dead a mem alive
  outside := by
    intro a dead
    rw [second.outside a fun alive => dead (first.subset alive), first.outside a dead]
  free := by
    intro a mem
    rcases second.free a mem with before | alive
    · exact first.free a before
    · exact .inr (first.subset alive)
  created := second.created.trans first.created
  allocated := second.allocated.trans first.allocated

/-- A node that nothing links to leaves the live nodes; its own links become pending. -/
theorem Owned.abandon (owned : Owned s live pending) (mem : a ∈ live)
    (found : s.memory a = some n) (unused : n.refCount = 0) :
    Owned s (live.erase a) (n.children ++ pending) := by
  have none := owned.linksFrom_le mem found
  have unlinked : ∀ b ∈ live, s.links b a = 0 := by
    have zero : s.linksFrom live a = 0 := by omega
    exact sum_eq_zero_iff.mp zero
  have notPending : a ∉ pending := List.count_eq_zero.mp (by omega)
  have childAlive : ∀ b ∈ live, ∀ m, s.memory b = some m -> ∀ c ∈ m.children, c ∈ live.erase a := by
    intro b alive m foundB c child
    have linked := (links_pos foundB).mpr child
    refine mem_erase.mpr ⟨fun same => ?_, (owned.child b alive m foundB c child).1⟩
    rw [same, unlinked b alive] at linked
    exact lt_irrefl 0 linked
  exact {
    allocated := fun b alive => owned.allocated b (mem_of_mem_erase alive)
    freeAllocated := owned.freeAllocated
    freeDead := fun b free alive => owned.freeDead b free (mem_of_mem_erase alive)
    freeNodup := owned.freeNodup
    node := fun b alive => owned.node b (mem_of_mem_erase alive)
    child := fun b alive m foundB c child =>
      ⟨childAlive b (mem_of_mem_erase alive) m foundB c child,
        (owned.child b (mem_of_mem_erase alive) m foundB c child).2⟩
    pendingLive := by
      intro b inPending
      rcases mem_append.mp inPending with child | before
      · exact childAlive a mem n found b child
      · exact mem_erase.mpr
          ⟨fun same => notPending (same ▸ before), owned.pendingLive b before⟩
    counted := by
      intro b alive m foundB
      have before := owned.linksFrom_le (mem_of_mem_erase alive) foundB
      have split : s.linksFrom (live.erase a) b + s.links a b = s.linksFrom live b :=
        sum_erase_add live (fun c => s.links c b) mem
      rw [links_eq_count found] at split
      rw [count_append]
      omega }

theorem Guarded.abandon (guarded : Guarded s kept live pending) (mem : a ∈ live)
    (found : s.memory a = some n) (out : a ∉ kept) :
    Guarded s kept (live.erase a) (n.children ++ pending) where
  subset := fun k inside =>
    mem_erase.mpr ⟨fun same => out (same ▸ inside), guarded.subset inside⟩
  guarded := by
    intro k inside outside
    apply guarded.guarded k inside
    rcases outside with inPending | ⟨b, alive, notKept, link⟩
    · rcases mem_append.mp inPending with child | before
      · exact .inr ⟨a, mem, out, (links_pos found).mpr child⟩
      · exact .inl before
    · exact .inr ⟨b, mem_of_mem_erase alive, notKept, link⟩

/-- Writing a node that is not live. -/
theorem Owned.write_dead (owned : Owned s live pending) (dead : a ∉ live)
    (m : ImutAVLTree β) : Owned (s.write a m) live pending := by
  have same : ∀ b ∈ live, (s.write a m).memory b = s.memory b := fun b alive =>
    memory_write_of_ne fun equal => dead (equal ▸ alive)
  exact {
    allocated := owned.allocated
    freeAllocated := owned.freeAllocated
    freeDead := owned.freeDead
    freeNodup := owned.freeNodup
    node := fun b alive => by rw [same b alive]; exact owned.node b alive
    child := by
      intro b alive n found c child
      rw [same b alive] at found
      have below := owned.child b alive n found c child
      rw [same c below.1]
      exact below
    pendingLive := owned.pendingLive
    counted := by
      intro b alive n found
      rw [same b alive] at found
      rw [linksFrom_congr fun c mem => SameNode.of_memory_eq (same c mem)]
      exact owned.counted b alive n found }

theorem Guarded.congr (guarded : Guarded s kept live pending)
    (same : ∀ b ∈ live, SameNode s s' b) : Guarded s' kept live pending where
  subset := guarded.subset
  guarded := by
    intro k inside outside
    have before : k ∈ pending ∨ ∃ b ∈ live, b ∉ kept ∧ 0 < s.links b k := by
      rcases outside with inPending | ⟨b, alive, out, link⟩
      · exact .inl inPending
      · exact .inr ⟨b, alive, out, (same b alive).links_eq k ▸ link⟩
    rcases guarded.guarded k inside before with ⟨b, insideB, link⟩
    exact ⟨b, insideB, ((same b (guarded.subset insideB)).links_eq k).symm ▸ link⟩

/-- A dead node on the list of nodes for reuse. -/
theorem Owned.push_free (owned : Owned s live pending) (dead : a ∉ live)
    (allocated : a < s.allocated) (new : a ∉ s.freeNodes) :
    Owned { s with freeNodes := a :: s.freeNodes } live pending where
  allocated := owned.allocated
  freeAllocated := fun b mem => by
    rcases mem_cons.mp mem with same | before
    · exact same ▸ allocated
    · exact owned.freeAllocated b before
  freeDead := fun b mem => by
    rcases mem_cons.mp mem with same | before
    · exact same ▸ dead
    · exact owned.freeDead b before
  freeNodup := nodup_cons.mpr ⟨new, owned.freeNodup⟩
  node := owned.node
  child := owned.child
  pendingLive := owned.pendingLive
  counted := owned.counted

/-- What `destroy` does to a node that nothing counts a link to. -/
def Destroys (β : Type) (fuel : Nat) : Prop :=
  ∀ (s : ImutAVLFactory β) (live kept : Finset Addr) (pending : List Addr) (a : Addr)
    (n : ImutAVLTree β), Owned s live pending -> Guarded s kept live pending -> a ∈ live ->
    a ∉ kept -> s.memory a = some n -> n.refCount = 0 -> n.height <= fuel ->
    ∃ s' live', destroy fuel a s = some s' ∧ Released s s' kept live live' pending ∧ a ∉ live'

theorem release_released {fuel : Nat} {T : TreePtr} (destroys : Destroys β fuel) (owned :
    Owned s live (T.toList ++ pending)) (guarded : Guarded s kept live (T.toList ++ pending))
    (shallow : ∀ c m, T = some c -> s.memory c = some m -> m.height <= fuel) :
    ∃ s' live', release (destroy fuel) T s = some s' ∧ Released s s' kept live live' pending := by
  cases T with
  | none => exact ⟨s, live, rfl, Released.refl owned guarded⟩
  | some c =>
    have alive : c ∈ live := owned.pendingLive c (mem_append_left _ mem_cons_self)
    rcases owned.node c alive with ⟨m, found, -⟩
    have covered := owned.linksFrom_le alive found
    rw [toList_some, singleton_append, count_cons_self] at covered
    have counted : m.refCount ≠ 0 := by omega
    have owned' : Owned (s.write c { m with refCount := m.refCount - 1 }) live pending :=
      owned.write_refCount found (fun b mem => owned.pendingLive b
        (mem_append_right _ mem)) (by omega) fun b _ => by
          rw [count_append]
          exact Nat.le_add_left _ _
    have guarded' : Guarded (s.write c { m with refCount := m.refCount - 1 }) kept live
        pending :=
      guarded.write_refCount found fun b mem => mem_append_right _ mem
    have written : Released s (s.write c { m with refCount := m.refCount - 1 }) kept live
        live pending := {
      owned := owned'
      guarded := guarded'
      subset := Subset.refl live
      same := fun b _ => sameNode_write_refCount found _ b
      dead := fun _ mem dead => absurd mem dead
      outside := fun b dead => memory_write_of_ne fun same => dead (same ▸ alive)
      free := fun _ mem => Or.inl mem
      created := rfl
      allocated := rfl }
    by_cases last : m.refCount - 1 = 0
    · have out : c ∉ kept := by
        intro inside
        rcases guarded.guarded c inside (Or.inl (mem_append_left _ mem_cons_self))
          with ⟨b, insideB, link⟩
        have one : s.links b c <= s.linksFrom live c :=
          single_le_sum (f := fun b => s.links b c) (fun _ _ => Nat.zero_le _)
            (guarded.subset insideB)
        omega
      rcases destroys _ live kept pending c _ owned' guarded' alive out
        (memory_write_self _ _ _) last (shallow c m rfl found) with
        ⟨s', live', destroyed, released, -⟩
      refine ⟨s', live', ?_, written.trans released⟩
      simp only [release, found, bind_eq_bind, bind_some, if_neg counted, if_pos last, destroyed]
    · refine ⟨_, live, ?_, written⟩
      simp only [release, found, bind_eq_bind, bind_some, if_neg counted, if_neg last]

/-- Destroying a node releases its links, and only nodes outside of the kept set go. -/
theorem destroy_destroys (fuel : Nat) : Destroys β fuel := by
  induction fuel with
  | zero =>
    intro s live kept pending a n owned guarded alive out found unused low
    rcases owned.node a alive with ⟨m, foundM, pos⟩
    rw [found] at foundM
    rw [Option.some.inj foundM] at low
    omega
  | succ fuel ih =>
    intro s live kept pending a n owned guarded alive out found unused low
    have abandoned := owned.abandon alive found unused
    have guardedAway := guarded.abandon alive found out
    rw [ImutAVLTree.children, List.append_assoc] at abandoned guardedAway
    have below : ∀ c ∈ n.children, ∀ m, s.memory c = some m -> m.height <= fuel := by
      intro c child m foundC
      have less := (owned.child a alive n found c child).2 m foundC
      omega
    rcases release_released ih abandoned guardedAway
      (fun c m ptr foundC =>
        below c (ImutAVLTree.mem_children.mpr (.inl ptr)) m foundC) with
      ⟨s₁, live₁, leftReleased, first⟩
    rcases release_released ih first.owned first.guarded
      (fun c m ptr foundC => by
        have alive₁ : c ∈ live₁ := first.owned.pendingLive c (by rw [ptr]; simp)
        rcases (first.same c alive₁).symm.exists foundC with ⟨m', foundC', core⟩
        rw [<- ImutAVLTree.height_of_core_eq core]
        exact below c (ImutAVLTree.mem_children.mpr (.inr ptr)) m' foundC') with
      ⟨s₂, live₂, rightReleased, second⟩
    have both := first.trans second
    have gone : a ∉ live.erase a := notMem_erase a live
    have goneAfter : a ∉ live₂ := fun mem => gone (both.subset mem)
    have untouched : s₂.memory a = some n := (both.outside a gone).trans found
    have notFree : a ∉ s₂.freeNodes := by
      intro mem
      rcases both.free a mem with before | erased
      · exact owned.freeDead a before alive
      · exact gone erased
    have allocated : a < s₂.allocated := both.allocated ▸ owned.allocated a alive
    have written : ∀ b, b ≠ a ->
        (s₂.write a { n with IsMutable := false }).memory b = s₂.memory b := fun b ne =>
      memory_write_of_ne ne
    have notA : ∀ b, b ∈ live₂ -> b ≠ a := fun b mem same => goneAfter (same ▸ mem)
    refine ⟨{ s₂.write a { n with IsMutable := false } with freeNodes := a :: s₂.freeNodes },
      live₂, ?_, ?_, goneAfter⟩
    · simp only [destroy, found, bind_eq_bind, bind_some, leftReleased, rightReleased, untouched]
      rfl
    · exact {
        owned := (both.owned.write_dead goneAfter _).push_free goneAfter allocated notFree
        guarded := both.guarded.congr fun b mem =>
          SameNode.of_memory_eq (written b (notA b mem))
        subset := fun b mem => mem_of_mem_erase (both.subset mem)
        same := fun b mem => (both.same b mem).trans
          (SameNode.of_memory_eq (written b (notA b mem)))
        dead := by
          intro b mem dead
          by_cases same : b = a
          · rw [same]
            exact ⟨_, memory_write_self _ _ _, rfl⟩
          · rcases both.dead b (mem_erase.mpr ⟨same, mem⟩) dead with
              ⟨m, foundM, immutable⟩
            exact ⟨m, (written b same).trans foundM, immutable⟩
        outside := by
          intro b dead
          have ne : b ≠ a := fun same => dead (same ▸ alive)
          exact (written b ne).trans
            (both.outside b fun mem => dead (mem_of_mem_erase mem))
        free := by
          intro b mem
          rcases mem_cons.mp mem with same | before
          · exact .inr (same ▸ alive)
          · rcases both.free b before with inFree | erased
            · exact .inl inFree
            · exact .inr (mem_of_mem_erase erased)
        created := both.created
        allocated := both.allocated }

end ImutAVLFactory
end ImmutableSet
end LlvmProject
