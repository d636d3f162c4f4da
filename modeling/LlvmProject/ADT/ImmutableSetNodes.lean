import LlvmProject.ADT.ImmutableSetOwnership
import LlvmProject.Library.RelaxedAVL

namespace LlvmProject

open Finset hiding mem_singleton
open List Option Nat

namespace ImmutableSet

/-!
# Building nodes

An operation starts from a set of old nodes, which are immutable and closed under
their links, and only adds mutable nodes over them.  A tree may become part of a
new node when its root was created by this operation or has a link from an old
node: an old node is then never linked from new nodes only.
-/

open RelaxedAVL

variable {β : Type}

namespace ImutAVLFactory

variable {s s' s'' : ImutAVLFactory β} {old live live' live'' : Finset Addr}
  {pending : List Addr} {within within' : Addr -> Prop} {a b c : Addr} {n : ImutAVLTree β}
  {L R T : TreePtr} {l r t : AVLTree β}

/-- The nodes below a pointer, all in a given region, are the nodes of a tree. -/
def Represents (s : ImutAVLFactory β) (within : Addr -> Prop) : TreePtr -> AVLTree β -> Prop
  | p, .nil => p = none
  | p, .node l v h r => ∃ a n, p = some a ∧ within a ∧ s.memory a = some n ∧ n.value = v ∧
      n.height = h ∧ s.Represents within n.left l ∧ s.Represents within n.right r

/-- The nodes that the operation under way may link to. -/
def Region (s : ImutAVLFactory β) (old : Finset Addr) (a : Addr) : Prop :=
  a ∈ old ∨ a ∈ s.createdNodes

/-- A pointer that may become a link of a new node. -/
def Usable (s : ImutAVLFactory β) (old : Finset Addr) (p : TreePtr) : Prop :=
  ∀ a, p = some a -> a ∈ s.createdNodes ∨ (a ∈ old ∧ ∃ b ∈ old, 0 < s.links b a)

/-- What holds while an operation builds its result. -/
structure Working (s : ImutAVLFactory β) (old live : Finset Addr) : Prop where
  owned : Owned s live []
  guarded : Guarded s old live []
  immutable : ∀ a ∈ old, ∀ n, s.memory a = some n -> n.IsMutable = false
  closed : ∀ a ∈ old, ∀ n, s.memory a = some n -> ∀ c ∈ n.children, c ∈ old
  created : ∀ a ∈ s.createdNodes, a ∈ live ∧ a ∉ old ∧ ∀ n, s.memory a = some n -> n.IsMutable =
      true

/-- Building more nodes changes no node that was live. -/
structure Grows (s s' : ImutAVLFactory β) (old live live' : Finset Addr) : Prop where
  working : Working s' old live'
  subset : live ⊆ live'
  created : ∀ a ∈ s.createdNodes, a ∈ s'.createdNodes
  same : ∀ a ∈ live, SameNode s s' a

/-- A tree that an operation built: when its root is new, nothing links to it yet. -/
structure Built (s : ImutAVLFactory β) (old live : Finset Addr) (p : TreePtr) (t : AVLTree β) :
    Prop where
  represents : s.Represents (s.Region old) p t
  usable : s.Usable old p
  root : ∀ a, p = some a -> a ∈ s.createdNodes -> ∀ b ∈ live, s.links b a = 0

/-! ## Represented trees -/

theorem represents_nil : s.Represents within T .nil ↔ T = none := Iff.rfl

theorem Represents.frame (represents : s.Represents within T t)
    (same : ∀ a, within a -> SameNode s s' a) (wider : ∀ a, within a -> within' a) :
    s'.Represents within' T t := by
  induction t generalizing T with
  | nil => exact represents
  | node l v h r leftHyp rightHyp =>
    rcases represents with ⟨a, n, ptr, inside, found, value, height, left, right⟩
    rcases (same a inside).exists found with ⟨n', found', core⟩
    injection core with leftSame rightSame heightSame _ valueSame
    refine ⟨a, n', ptr, wider a inside, found', valueSame.trans value,
      heightSame.trans height, ?_, ?_⟩
    · rw [leftSame]
      exact leftHyp left
    · rw [rightSame]
      exact rightHyp right

theorem Represents.inside (represents : s.Represents within (some a) t) : within a := by
  cases t with
  | nil => cases represents
  | node l v h r =>
    rcases represents with ⟨_, _, ptr, inside, _⟩
    rwa [some.inj ptr]

theorem Represents.getHeight (represents : s.Represents within T t) :
    s.getHeight T = some t.getHeight := by
  cases t with
  | nil => rw [represents_nil.mp represents]; rfl
  | node l v h r =>
    rcases represents with ⟨a, n, ptr, _, found, _, height, _⟩
    rw [ptr, ImutAVLFactory.getHeight, found, <- height]
    rfl

theorem Working.region_live (working : Working s old live) (inside : s.Region old a) :
    a ∈ live := by
  rcases inside with isOld | isNew
  · exact working.guarded.subset isOld
  · exact (working.created a isNew).1

theorem Grows.refl (working : Working s old live) : Grows s s old live live where
  working := working
  subset := Subset.refl live
  created := fun _ mem => mem
  same := fun a _ => SameNode.refl s a

theorem Grows.trans (first : Grows s s' old live live') (second : Grows s' s'' old live' live'') :
    Grows s s'' old live live'' where
  working := second.working
  subset := first.subset.trans second.subset
  created := fun a mem => second.created a (first.created a mem)
  same := fun a mem => (first.same a mem).trans (second.same a (first.subset mem))

theorem Represents.grow (represents : s.Represents (s.Region old) T t)
    (working : Working s old live) (grows : Grows s s' old live live') :
    s'.Represents (s'.Region old) T t :=
  represents.frame (fun a inside => grows.same a (working.region_live inside)) fun a inside =>
    inside.imp id (grows.created a)

theorem Usable.grow (usable : s.Usable old T) (working : Working s old live)
    (grows : Grows s s' old live live') : s'.Usable old T := by
  intro a ptr
  rcases usable a ptr with isNew | ⟨isOld, b, oldParent, link⟩
  · exact .inl (grows.created a isNew)
  · refine .inr ⟨isOld, b, oldParent, ?_⟩
    rwa [(grows.same b (working.guarded.subset oldParent)).links_eq a]

theorem Usable.region (usable : s.Usable old (some a)) : s.Region old a := by
  rcases usable a rfl with isNew | ⟨isOld, -⟩
  · exact .inr isNew
  · exact .inl isOld

/-- A subtree of a tree in the region may become part of a new node. -/
theorem Represents.usable (represents : s.Represents (s.Region old) T t)
    (working : Working s old live) (parent : a ∈ live) (found : s.memory a = some n)
    (link : n.left = T ∨ n.right = T) : s.Usable old T := by
  intro c ptr
  subst ptr
  have child : c ∈ n.children := ImutAVLTree.mem_children.mpr link
  rcases represents.inside with isOld | isNew
  · refine .inr ⟨isOld, ?_⟩
    by_cases oldParent : a ∈ old
    · exact ⟨a, oldParent, (links_pos found).mpr child⟩
    · exact working.guarded.guarded c isOld
        (.inr ⟨a, parent, oldParent, (links_pos found).mpr child⟩)
  · exact .inl isNew

/-- Reference counts and pending links play no part in the rest of the invariant. -/
theorem Working.congr (working : Working s old live) (owned : Owned s' live [])
    (same : ∀ b ∈ live, SameNode s s' b) (created : s'.createdNodes = s.createdNodes) :
    Working s' old live where
  owned := owned
  guarded := working.guarded.congr same
  immutable := by
    intro b isOld n found
    rcases (same b (working.guarded.subset isOld)).symm.exists found with ⟨m, before, core⟩
    rw [<- ImutAVLTree.isMutable_of_core_eq core]
    exact working.immutable b isOld m before
  closed := by
    intro b isOld n found c child
    rcases (same b (working.guarded.subset isOld)).symm.exists found with ⟨m, before, core⟩
    rw [<- ImutAVLTree.children_of_core_eq core] at child
    exact working.closed b isOld m before c child
  created := by
    intro b mem
    rw [created] at mem
    rcases working.created b mem with ⟨alive, out, isMutable⟩
    refine ⟨alive, out, fun n found => ?_⟩
    rcases (same b alive).symm.exists found with ⟨m, before, core⟩
    rw [<- ImutAVLTree.isMutable_of_core_eq core]
    exact isMutable m before

/-! ## Creating a node -/

theorem retain_owned (owned : Owned s live pending) (alive : ∀ c, T = some c -> c ∈ live) :
    ∃ s', s.retain T = some s' ∧ Owned s' live (T.toList ++ pending) ∧
      (∀ b, SameNode s s' b) ∧ (∀ b, b ∉ live -> s'.memory b = s.memory b) ∧
      s'.allocated = s.allocated ∧ s'.freeNodes = s.freeNodes ∧
      s'.createdNodes = s.createdNodes := by
  cases T with
  | none => exact ⟨s, rfl, owned, SameNode.refl s, fun _ _ => rfl, rfl, rfl, rfl⟩
  | some c =>
    have mem := alive c rfl
    rcases owned.node c mem with ⟨m, found, -⟩
    refine ⟨s.write c { m with refCount := m.refCount + 1 }, ?_, ?_,
      sameNode_write_refCount found _, ?_, rfl, rfl, rfl⟩
    · simp only [retain, found, bind_eq_bind, bind_some]
    · apply owned.write_refCount found
      · intro b inPending
        rcases mem_cons.mp inPending with same | before
        · exact same ▸ mem
        · exact owned.pendingLive b before
      · have covered := owned.linksFrom_le mem found
        rw [toList_some, singleton_append, count_cons_self]
        omega
      · intro b ne
        rw [toList_some, singleton_append, count_cons_of_ne ne.symm]
    · intro b dead
      exact memory_write_of_ne fun same => dead (same ▸ mem)

/-- A new node becomes live; the links counted for it are no longer pending. -/
theorem Owned.adopt (owned : Owned s live pending) (new : a ∉ live) (allocated : a < s.allocated)
    (notFree : a ∉ s.freeNodes) (found : s.memory a = some n) (pos : 0 < n.height)
    (below : ∀ c ∈ n.children, ∀ m, s.memory c = some m -> m.height < n.height)
    (same : ∀ c, pending.count c = n.children.count c) : Owned s (insert a live) [] := by
  have childAlive : ∀ c ∈ n.children, c ∈ live := by
    intro c child
    apply owned.pendingLive
    rw [<- count_pos_iff, same, count_pos_iff]
    exact child
  have unlinked : s.linksFrom live a = 0 := by
    apply Finset.sum_eq_zero
    intro b alive
    rcases owned.node b alive with ⟨m, foundB, -⟩
    rw [links_eq_count foundB, List.count_eq_zero]
    exact fun child => new (owned.child b alive m foundB a child).1
  have total : ∀ c, s.linksFrom (insert a live) c = n.children.count c + s.linksFrom live c := by
    intro c
    rw [linksFrom, sum_insert new, links_eq_count found, linksFrom]
  exact {
    allocated := fun b mem => by
      rcases mem_insert.mp mem with isNew | before
      · exact isNew ▸ allocated
      · exact owned.allocated b before
    freeAllocated := owned.freeAllocated
    freeDead := fun b free mem => by
      rcases mem_insert.mp mem with isNew | before
      · exact notFree (isNew ▸ free)
      · exact owned.freeDead b free before
    freeNodup := owned.freeNodup
    node := fun b mem => by
      rcases mem_insert.mp mem with isNew | before
      · exact ⟨n, isNew ▸ found, pos⟩
      · exact owned.node b before
    child := by
      intro b mem m foundB c child
      rcases mem_insert.mp mem with isNew | before
      · rw [isNew, found] at foundB
        rw [<- some.inj foundB] at child ⊢
        exact ⟨mem_insert_of_mem (childAlive c child), below c child⟩
      · have lower := owned.child b before m foundB c child
        exact ⟨mem_insert_of_mem lower.1, lower.2⟩
    pendingLive := fun b mem => absurd mem not_mem_nil
    counted := by
      intro b mem m foundB
      rw [total, count_nil]
      rcases mem_insert.mp mem with isNew | before
      · rw [isNew, unlinked, List.count_eq_zero.mpr fun child => new (childAlive a child)]
        exact zero_le _
      · have covered := owned.linksFrom_le before foundB
        have added := same b
        omega }

theorem takeNode_owned (owned : Owned s live []) (leftAlive : ∀ c, L = some c -> c ∈ live)
    (rightAlive : ∀ c, R = some c -> c ∈ live) :
    ∃ a s', s.takeNode L R = some (a, s') ∧ Owned s' live [] ∧ a ∉ live ∧ a < s'.allocated ∧
      a ∉ s'.freeNodes ∧ s'.memory = s.memory ∧ s'.createdNodes = s.createdNodes := by
  cases free : s.freeNodes with
  | nil =>
    have dead : s.allocated ∉ live := fun alive =>
      lt_irrefl _ (owned.allocated s.allocated alive)
    refine ⟨s.allocated, { s with allocated := s.allocated + 1 }, ?_, ?_, dead,
      lt_succ_self _, ?_, rfl, rfl⟩
    · simp only [takeNode, free]
    · exact { owned with
        allocated := fun b alive => lt_succ_of_lt (owned.allocated b alive)
        freeAllocated := fun b mem => lt_succ_of_lt (owned.freeAllocated b mem) }
    · rw [free]
      exact not_mem_nil
  | cons a rest =>
    have inFree : a ∈ s.freeNodes := free ▸ mem_cons_self
    have dead := owned.freeDead a inFree
    have nodup := nodup_cons.mp (free ▸ owned.freeNodup)
    have tail : ∀ b ∈ rest, b ∈ s.freeNodes := fun b mem =>
      free ▸ mem_cons_of_mem a mem
    have notChild : ¬(some a = L ∨ some a = R) := by
      rintro (isLeft | isRight)
      · exact dead (leftAlive a isLeft.symm)
      · exact dead (rightAlive a isRight.symm)
    refine ⟨a, { s with freeNodes := rest }, ?_, ?_, dead, owned.freeAllocated a inFree,
      nodup.1, rfl, rfl⟩
    · simp only [takeNode, free, if_neg notChild]
    · exact { owned with
        freeAllocated := fun b mem => owned.freeAllocated b (tail b mem)
        freeDead := fun b mem => owned.freeDead b (tail b mem)
        freeNodup := nodup.2 }

theorem incrementHeight_eq (left : s.Represents within L l) (right : s.Represents within R r) :
    s.incrementHeight L R = some (max l.getHeight r.getHeight + 1) := by
  simp only [incrementHeight, left.getHeight, right.getHeight, bind_eq_bind, bind_some]
  split
  · rw [Nat.max_eq_left (by omega)]
  · rw [Nat.max_eq_right (by omega)]

theorem Represents.height_eq (represents : s.Represents within T t) (ptr : T = some a)
    (found : s.memory a = some n) : n.height = t.getHeight := by
  have height := represents.getHeight
  rw [ptr, ImutAVLFactory.getHeight, found] at height
  exact some.inj height

theorem createNode_spec (working : Working s old live) (leftUsable : s.Usable old L)
    (rightUsable : s.Usable old R) (V : β) (left : s.Represents (s.Region old) L l)
    (right : s.Represents (s.Region old) R r) :
    ∃ T s' live', s.createNode L V R = some (T, s') ∧ Grows s s' old live live' ∧
      Built s' old live' T (AVLTree.create l V r) := by
  have leftAlive : ∀ c, L = some c -> c ∈ live := fun c ptr =>
    working.region_live (ptr ▸ leftUsable).region
  have rightAlive : ∀ c, R = some c -> c ∈ live := fun c ptr =>
    working.region_live (ptr ▸ rightUsable).region
  rcases takeNode_owned working.owned leftAlive rightAlive with
    ⟨a, s₁, taken, owned₁, dead, allocated, notFree, memory₁, created₁⟩
  have height : s₁.incrementHeight L R = some (max l.getHeight r.getHeight + 1) := by
    rw [<- incrementHeight_eq left right]
    simp only [incrementHeight, ImutAVLFactory.getHeight, memory₁]
  let n : ImutAVLTree β :=
    { left := L, right := R, height := max l.getHeight r.getHeight + 1, IsMutable := true,
      value := V, refCount := 0 }
  have notA : ∀ b, b ∈ live -> b ≠ a := fun b alive same => dead (same ▸ alive)
  rcases retain_owned (owned₁.write_dead dead n) leftAlive with
    ⟨s₃, retainedLeft, owned₃, same₃, outside₃, allocated₃, free₃, created₃⟩
  rcases retain_owned owned₃ rightAlive with
    ⟨s₄, retainedRight, owned₄, same₄, outside₄, allocated₄, free₄, created₄⟩
  have same : ∀ b ∈ live, SameNode s s₄ b := by
    intro b alive
    have first : SameNode s (s₁.write a n) b := SameNode.of_memory_eq
      ((memory_write_of_ne (notA b alive)).trans (congrFun memory₁ b))
    exact (first.trans (same₃ b)).trans (same₄ b)
  have found : s₄.memory a = some n := by
    rw [outside₄ a dead, outside₃ a dead, memory_write_self]
  have below : ∀ c ∈ n.children, ∀ m, s₄.memory c = some m -> m.height < n.height := by
    intro c child m foundC
    rcases ImutAVLTree.mem_children.mp child with isLeft | isRight
    · rcases (same c (leftAlive c isLeft)).symm.exists foundC with ⟨m', foundC', core⟩
      have lower := left.height_eq isLeft foundC'
      rw [<- ImutAVLTree.height_of_core_eq core, lower]
      exact lt_succ_of_le (le_max_left _ _)
    · rcases (same c (rightAlive c isRight)).symm.exists foundC with ⟨m', foundC', core⟩
      have lower := right.height_eq isRight foundC'
      rw [<- ImutAVLTree.height_of_core_eq core, lower]
      exact lt_succ_of_le (le_max_right _ _)
  have counts : ∀ c, (R.toList ++ (L.toList ++ [])).count c = n.children.count c := by
    intro c
    rw [append_nil, ImutAVLTree.children, count_append, count_append, add_comm]
  have adopted : Owned s₄ (insert a live) [] :=
    owned₄.adopt dead (allocated₄ ▸ allocated₃ ▸ allocated) (free₄ ▸ free₃ ▸ notFree) found
      (succ_pos _) below counts
  have created : s₄.createdNodes = s.createdNodes := by rw [created₄, created₃, <- created₁]; rfl
  have childUsable : ∀ c ∈ n.children, s.Usable old (some c) := by
    intro c child
    rcases ImutAVLTree.mem_children.mp child with isLeft | isRight
    · exact isLeft ▸ leftUsable
    · exact isRight ▸ rightUsable
  have notOld : a ∉ old := fun isOld => dead (working.guarded.subset isOld)
  have working₄ : Working s₄ old live := working.congr owned₄.forget.forget same created
  have grows : Grows s { s₄ with createdNodes := s₄.createdNodes ++ [a] } old live
      (insert a live) := {
    working := {
      owned := { adopted with }
      guarded := {
        subset := fun k isOld => mem_insert_of_mem (working.guarded.subset isOld)
        guarded := by
          intro k isOld outside
          rcases outside with inPending | ⟨b, mem, out, link⟩
          · cases inPending
          · rcases mem_insert.mp mem with isNew | before
            · subst isNew
              rcases childUsable k ((links_pos found).mp link) k rfl with
                isCreated | ⟨-, parent, isOldParent, oldLink⟩
              · exact absurd isOld (working.created k isCreated).2.1
              · refine ⟨parent, isOldParent, ?_⟩
                exact ((same parent (working.guarded.subset isOldParent)).links_eq k).symm ▸ oldLink
            · exact working₄.guarded.guarded k isOld (.inr ⟨b, before, out, link⟩) }
      immutable := working₄.immutable
      closed := working₄.closed
      created := by
        intro b mem
        rcases mem_append.mp mem with before | isNew
        · rcases working₄.created b before with ⟨alive, out, isMutable⟩
          exact ⟨mem_insert_of_mem alive, out, isMutable⟩
        · rw [mem_singleton] at isNew
          refine ⟨isNew ▸ Finset.mem_insert_self a live, isNew ▸ notOld, fun m foundB => ?_⟩
          rw [isNew, found] at foundB
          rw [<- some.inj foundB] }
    subset := subset_insert a live
    created := fun b mem => mem_append_left _ (created ▸ mem)
    same := same }
  have isCreated : a ∈ s₄.createdNodes ++ [a] := mem_append_right _ mem_cons_self
  refine ⟨some a, _, insert a live, ?_, grows, ?_, ?_, ?_⟩
  · simp only [createNode, taken, height, bind_eq_bind, bind_some, retainedLeft, retainedRight, n]
  · exact ⟨a, n, rfl, .inr isCreated, found, rfl, rfl, left.grow working grows,
      right.grow working grows⟩
  · intro b ptr
    exact .inl (some.inj ptr ▸ isCreated)
  · intro b ptr _ c mem
    rw [<- some.inj ptr]
    rcases mem_insert.mp mem with isNew | before
    · rw [isNew]
      refine Nat.eq_zero_of_not_pos fun link => ?_
      exact lt_irrefl _ (below a ((links_pos found).mp link) n found)
    · refine Nat.eq_zero_of_not_pos fun link => dead ?_
      rcases adopted.node c mem with ⟨m, foundC, -⟩
      exact (working₄.owned.child c before m foundC a ((links_pos foundC).mp link)).1

theorem createNodeFrom_eq (found : s.memory a = some n) :
    s.createNodeFrom L (some a) R = s.createNode L n.value R := by
  simp only [createNodeFrom, deref, found, bind_eq_bind, bind_some]

end ImutAVLFactory
end ImmutableSet
end LlvmProject
