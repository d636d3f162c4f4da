import LlvmProject.ADT.ImmutableSetUpdate

namespace LlvmProject

open Option

namespace ImmutableSet

/-!
# The end of an operation

`markImmutable` clears the mutable flag of the new nodes of the result, and
`recoverNodes` destroys the new nodes that still have it and that nothing counts
a link to.  The old nodes and the nodes of the result form a set that is not
linked from the outside only, so none of them is destroyed.
-/

open RelaxedAVL

variable {β : Type}

namespace ImutAVLTree

/-- A node without its mutable flag. -/
def lock (n : ImutAVLTree β) : ImutAVLTree β := { n with IsMutable := false }

end ImutAVLTree

namespace ImutAVLFactory

variable {s s' s'' : ImutAVLFactory β} {old live live' kept : Finset Addr}
  {within : Addr -> Prop} {a b c : Addr} {n : ImutAVLTree β} {T : TreePtr} {t : AVLTree β}

/-! ## Clearing the mutable flags -/

/-- Nothing but mutable flags changes, and flags are only cleared. -/
structure Locks (s s' : ImutAVLFactory β) : Prop where
  node : ∀ a n, s.memory a = some n -> ∃ n', s'.memory a = some n' ∧ n'.lock = n.lock ∧
    (n.IsMutable = false -> n'.IsMutable = false)
  unallocated : ∀ a, s.memory a = none -> s'.memory a = none
  allocated : s'.allocated = s.allocated
  freeNodes : s'.freeNodes = s.freeNodes
  createdNodes : s'.createdNodes = s.createdNodes

/-- The node of a pointer is immutable. -/
def Locked (s : ImutAVLFactory β) (p : TreePtr) : Prop :=
  ∀ a n, p = some a -> s.memory a = some n -> n.IsMutable = false

/-- The children of immutable nodes are immutable, but for some exempted nodes. -/
def LockedBelow (s : ImutAVLFactory β) (within exempt : Addr -> Prop) : Prop :=
  ∀ a n, within a -> ¬exempt a -> s.memory a = some n -> n.IsMutable = false ->
    s.Locked n.left ∧ s.Locked n.right

/-- The nodes that are reached from a pointer. -/
inductive Below (s : ImutAVLFactory β) (T : TreePtr) : Addr -> Prop
  | root {a : Addr} : T = some a -> Below s T a
  | child {b a : Addr} {n : ImutAVLTree β} : Below s T b -> s.memory b = some n ->
      a ∈ n.children -> Below s T a

theorem Locks.refl (s : ImutAVLFactory β) : Locks s s where
  node := fun _ n found => ⟨n, found, rfl, id⟩
  unallocated := fun _ => id
  allocated := rfl
  freeNodes := rfl
  createdNodes := rfl

theorem Locks.trans (first : Locks s s') (second : Locks s' s'') : Locks s s'' where
  node := by
    intro a n found
    rcases first.node a n found with ⟨n', found', same, cleared⟩
    rcases second.node a n' found' with ⟨n'', found'', same', cleared'⟩
    exact ⟨n'', found'', same'.trans same, fun immutable => cleared' (cleared immutable)⟩
  unallocated := fun a absent => second.unallocated a (first.unallocated a absent)
  allocated := second.allocated.trans first.allocated
  freeNodes := second.freeNodes.trans first.freeNodes
  createdNodes := second.createdNodes.trans first.createdNodes

theorem Locks.back (locks : Locks s s') {n' : ImutAVLTree β} (found : s'.memory a = some n') :
    ∃ n, s.memory a = some n ∧ n'.lock = n.lock ∧
    (n.IsMutable = false -> n'.IsMutable = false) := by
  cases before : s.memory a with
  | none =>
    rw [locks.unallocated a before] at found
    cases found
  | some n =>
    rcases locks.node a n before with ⟨m, foundM, same, cleared⟩
    rw [found] at foundM
    rw [some.inj foundM]
    exact ⟨n, rfl, same, cleared⟩

theorem Locks.write (found : s.memory a = some n) : Locks s (s.write a n.lock) where
  node := by
    intro b m foundB
    by_cases same : b = a
    · rw [same] at foundB ⊢
      rw [found] at foundB
      rw [<- some.inj foundB]
      exact ⟨n.lock, memory_write_self s a _, rfl, fun _ => rfl⟩
    · exact ⟨m, (memory_write_of_ne same).trans foundB, rfl, id⟩
  unallocated := by
    intro b absent
    rw [memory_write_of_ne, absent]
    intro same
    rw [same, found] at absent
    cases absent
  allocated := rfl
  freeNodes := rfl
  createdNodes := rfl

theorem Locks.locked (locks : Locks s s') (locked : s.Locked T) : s'.Locked T := by
  intro a n' ptr found
  rcases locks.back found with ⟨n, before, -, cleared⟩
  exact cleared (locked a n ptr before)

theorem Locks.represents (locks : Locks s s') (represents : s.Represents within T t) :
    s'.Represents within T t := by
  induction t generalizing T with
  | nil => exact represents
  | node l v h r leftHyp rightHyp =>
    rcases represents with ⟨a, n, ptr, inside, found, value, height, left, right⟩
    rcases locks.node a n found with ⟨n', found', same, -⟩
    injection same with leftSame rightSame heightSame _ valueSame
    refine ⟨a, n', ptr, inside, found', valueSame.trans value, heightSame.trans height, ?_, ?_⟩
    · rw [leftSame]
      exact leftHyp left
    · rw [rightSame]
      exact rightHyp right

/-- `markImmutable` makes a tree immutable when below its immutable nodes
everything is; the nodes on the way to it are exempted, and are all higher. -/
theorem markImmutable_spec {exempt : Addr -> Prop} {fuel : Nat} (represents : s.Represents within T
    t) (balanced : t.Balanced) (enough : t.getHeight <= fuel) (below : s.LockedBelow within exempt)
    (higher : ∀ e n, exempt e -> s.memory e = some n -> t.getHeight < n.height) :
    ∃ s', s.markImmutable fuel T = some s' ∧ Locks s s' ∧ s'.LockedBelow within exempt ∧
      s'.Locked T := by
  induction t generalizing s T fuel exempt with
  | nil =>
    rw [represents_nil] at represents
    subst represents
    refine ⟨s, ?_, Locks.refl s, below, fun a n ptr => by cases ptr⟩
    cases fuel <;> rfl
  | node l v h r leftHyp rightHyp =>
    rcases represents with ⟨a, n, ptr, inside, found, value, height, left, right⟩
    subst ptr height
    cases fuel with
    | zero => exact absurd enough (Nat.not_le_of_gt balanced.height_pos)
    | succ fuel =>
      have exactHeight := balanced.2.2.1
      rw [AVLTree.getHeight_node] at enough higher
      by_cases isMutable : n.IsMutable = true
      · have written := Locks.write found
        have foundLocked : (s.write a n.lock).memory a = some n.lock := memory_write_self s a _
        have keepsHeight : ∀ {s₁ s₂ : ImutAVLFactory β}, Locks s₁ s₂ -> ∀ e m,
            s₂.memory e = some m -> ∃ m', s₁.memory e = some m' ∧ m.height = m'.height := by
          intro s₁ s₂ locks e m foundE
          rcases locks.back foundE with ⟨m', foundE', same, -⟩
          injection same with _ _ heightSame
          exact ⟨m', foundE', heightSame⟩
        have below₁ : (s.write a n.lock).LockedBelow within (fun e => exempt e ∨ e = a) := by
          intro b m insideB allowed foundB immutable
          have ne : b ≠ a := fun same => allowed (.inr same)
          rw [memory_write_of_ne ne] at foundB
          have children := below b m insideB (fun out => allowed (.inl out)) foundB immutable
          exact ⟨written.locked children.1, written.locked children.2⟩
        have higher₁ : ∀ e m, exempt e ∨ e = a -> s.memory e = some m ->
            max l.getHeight r.getHeight < m.height := by
          rintro e m (out | same) foundE
          · have above := higher e m out foundE
            omega
          · rw [same, found] at foundE
            rw [<- some.inj foundE]
            omega
        rcases leftHyp (written.represents left) balanced.1
          (show l.getHeight <= fuel by omega) below₁ (fun e m out foundE => by
            rcases keepsHeight written e m foundE with ⟨m', foundE', same⟩
            have above := higher₁ e m' out foundE'
            omega) with
          ⟨s₂, markedLeft, locks₂, below₂, lockedLeft⟩
        have locks₂' := written.trans locks₂
        rcases rightHyp (locks₂'.represents right) balanced.2.1
          (show r.getHeight <= fuel by omega) below₂ (fun e m out foundE => by
            rcases keepsHeight locks₂' e m foundE with ⟨m', foundE', same⟩
            have above := higher₁ e m' out foundE'
            omega) with
          ⟨s₃, markedRight, locks₃, below₃, lockedRight⟩
        refine ⟨s₃, ?_, locks₂'.trans locks₃, ?_, ?_⟩
        · simp only [markImmutable, found, bind_eq_bind, bind_some, if_pos isMutable]
          rw [show ({ n with IsMutable := false } : ImutAVLTree β) = n.lock from rfl,
            markedLeft, bind_some, markedRight]
        · intro b m insideB allowed foundB immutable
          by_cases same : b = a
          · rcases (locks₂.trans locks₃).node a n.lock foundLocked with ⟨m', foundM, core, -⟩
            rw [same, foundM] at foundB
            rw [<- some.inj foundB]
            injection core with leftSame rightSame
            rw [leftSame, rightSame]
            exact ⟨locks₃.locked lockedLeft, lockedRight⟩
          · exact below₃ b m insideB (fun out => out.elim allowed same) foundB immutable
        · refine (locks₂.trans locks₃).locked fun b m ptr foundB => ?_
          rw [<- some.inj ptr, foundLocked] at foundB
          rw [<- some.inj foundB]
          rfl
      · refine ⟨s, ?_, Locks.refl s, below, ?_⟩
        · simp only [markImmutable, found, bind_eq_bind, bind_some, if_neg isMutable]
        · intro b m ptr foundB
          rw [<- some.inj ptr, found] at foundB
          rw [<- some.inj foundB]
          exact Bool.eq_false_iff.mpr isMutable

/-! ## The invariant does not look at the flags -/

theorem Locks.links_eq (locks : Locks s s') (b a : Addr) : s'.links b a = s.links b a := by
  cases found : s.memory b with
  | none => rw [links, links, locks.unallocated b found, found]
  | some n =>
    rcases locks.node b n found with ⟨n', found', same, -⟩
    injection same with leftSame rightSame
    rw [links_eq_count found, links_eq_count found', ImutAVLTree.children, leftSame, rightSame]
    rfl

theorem Locks.owned (locks : Locks s s') (owned : Owned s live []) : Owned s' live [] where
  allocated := locks.allocated ▸ owned.allocated
  freeAllocated := locks.allocated ▸ locks.freeNodes ▸ owned.freeAllocated
  freeDead := locks.freeNodes ▸ owned.freeDead
  freeNodup := locks.freeNodes ▸ owned.freeNodup
  node := by
    intro a alive
    rcases owned.node a alive with ⟨n, found, pos⟩
    rcases locks.node a n found with ⟨n', found', same, -⟩
    injection same with _ _ heightSame
    exact ⟨n', found', heightSame ▸ pos⟩
  child := by
    intro a alive n' found' c child
    rcases locks.back found' with ⟨n, found, same, -⟩
    injection same with leftSame rightSame heightSame
    rw [ImutAVLTree.children, leftSame, rightSame] at child
    have below := owned.child a alive n found c child
    refine ⟨below.1, fun m' foundC' => ?_⟩
    rcases locks.back foundC' with ⟨m, foundC, sameC, -⟩
    injection sameC with _ _ heightSameC
    rw [heightSame, heightSameC]
    exact below.2 m foundC
  pendingLive := owned.pendingLive
  counted := by
    intro a alive n' found'
    rcases locks.back found' with ⟨n, found, same, -⟩
    injection same with _ _ _ _ _ countSame
    have total : s'.linksFrom live a = s.linksFrom live a :=
      Finset.sum_congr rfl fun b _ => locks.links_eq b a
    rw [total, countSame]
    exact owned.counted a alive n found

/-! ## Recovering nodes -/

theorem recoverNodes_loop {nodes : List Addr} (owned : Owned s live [])
    (guarded : Guarded s kept live []) (locked : ∀ k ∈ kept, ∀ n, s.memory k = some n -> n.IsMutable
    = false) (created : ∀ N ∈ nodes, ∃ n, s.memory N = some n ∧ (n.IsMutable = true -> N ∈ live)) :
    ∃ s' live', nodes.foldlM recoverNode s = some s' ∧ Released s s' kept live live' [] := by
  induction nodes generalizing s live with
  | nil => exact ⟨s, live, rfl, Released.refl owned guarded⟩
  | cons N nodes ih =>
    have step : ∃ s₁ live₁, s.recoverNode N = some s₁ ∧ Released s s₁ kept live live₁ [] := by
      rcases created N List.mem_cons_self with ⟨n, found, alive⟩
      by_cases useless : n.IsMutable = true ∧ n.refCount = 0
      · have out : N ∉ kept := by
          intro inside
          rw [locked N inside n found] at useless
          cases useless.1
        rcases destroy_destroys n.height s live kept [] N n owned guarded (alive useless.1) out
          found useless.2 le_rfl with ⟨s₁, live₁, destroyed, released, -⟩
        refine ⟨s₁, live₁, ?_, released⟩
        simp only [recoverNode, found, bind_eq_bind, bind_some, if_pos useless, destroyed]
      · refine ⟨s, live, ?_, Released.refl owned guarded⟩
        simp only [recoverNode, found, bind_eq_bind, bind_some, if_neg useless]
    rcases step with ⟨s₁, live₁, recovered, released⟩
    have locked₁ : ∀ k ∈ kept, ∀ n, s₁.memory k = some n -> n.IsMutable = false := by
      intro k inside n found
      rcases (released.same k (released.guarded.subset inside)).symm.exists found with
        ⟨m, before, core⟩
      rw [<- ImutAVLTree.isMutable_of_core_eq core]
      exact locked k inside m before
    have created₁ : ∀ M ∈ nodes, ∃ n, s₁.memory M = some n ∧ (n.IsMutable = true -> M ∈ live₁) := by
      intro M mem
      rcases created M (List.mem_cons_of_mem N mem) with ⟨n, found, alive⟩
      by_cases aliveAfter : M ∈ live₁
      · rcases (released.same M aliveAfter).exists found with ⟨m, after, -⟩
        exact ⟨m, after, fun _ => aliveAfter⟩
      · by_cases aliveBefore : M ∈ live
        · rcases released.dead M aliveBefore aliveAfter with ⟨m, after, immutable⟩
          refine ⟨m, after, fun isMutable => ?_⟩
          rw [immutable] at isMutable
          cases isMutable
        · rw [released.outside M aliveBefore]
          exact ⟨n, found, fun isMutable => absurd (alive isMutable) aliveBefore⟩
    rcases ih released.owned released.guarded locked₁ created₁ with
      ⟨s₂, live₂, rest, releasedRest⟩
    refine ⟨s₂, live₂, ?_, released.trans releasedRest⟩
    rw [List.foldlM_cons, recovered]
    exact rest

/-! ## The nodes of the result -/

theorem Below.represents {within : Addr -> Prop} (below : s.Below T a)
    (represents : s.Represents within T t) : ∃ t', s.Represents within (some a) t' := by
  induction below with
  | root ptr => exact ⟨t, ptr ▸ represents⟩
  | child _ found link ih =>
    rcases ih with ⟨t', representsB⟩
    cases t' with
    | nil => cases representsB
    | node l v h r =>
      rcases representsB with ⟨b', n', ptr, _, found', _, _, left, right⟩
      rw [<- some.inj ptr, found] at found'
      rw [<- some.inj found'] at left right
      rcases ImutAVLTree.mem_children.mp link with isLeft | isRight
      · exact ⟨l, isLeft ▸ left⟩
      · exact ⟨r, isRight ▸ right⟩

theorem Represents.narrow (represents : s.Represents within T t) :
    s.Represents (s.Below T) T t := by
  suffices general : ∀ p, (∀ a, p = some a -> s.Below T a) -> s.Represents within p t ->
      s.Represents (s.Below T) p t from
    general T (fun a ptr => Below.root ptr) represents
  clear represents
  intro p
  induction t generalizing p with
  | nil => exact fun _ represents => represents
  | node l v h r leftHyp rightHyp =>
    rintro below ⟨a, n, ptr, _, found, value, height, left, right⟩
    have here := below a ptr
    refine ⟨a, n, ptr, here, found, value, height,
      leftHyp n.left (fun c isLeft => ?_) left,
      rightHyp n.right (fun c isRight => ?_) right⟩
    · exact here.child found (ImutAVLTree.mem_children.mpr (.inl isLeft))
    · exact here.child found (ImutAVLTree.mem_children.mpr (.inr isRight))

theorem Below.locked (below : s.Below T a) (closed : s.LockedBelow within fun _ => False)
    (inside : ∀ b, s.Below T b -> within b) (locked : s.Locked T) : s.Locked (some a) := by
  induction below with
  | root ptr => exact ptr ▸ locked
  | child belowB found link ih =>
    have immutable := ih _ _ rfl found
    have children := closed _ _ (inside _ belowB) id found immutable
    rcases ImutAVLTree.mem_children.mp link with isLeft | isRight
    · exact isLeft ▸ children.1
    · exact isRight ▸ children.2

/-! ## Finishing an operation -/

theorem Locks.memory_eq (locks : Locks s s') (found : s.memory a = some n)
    (immutable : n.IsMutable = false) : s'.memory a = s.memory a := by
  rcases locks.node a n found with ⟨n', found', same, cleared⟩
  have immutable' := cleared immutable
  injection same with leftSame rightSame heightSame _ valueSame countSame
  rw [found', found]
  cases n
  cases n'
  simp_all

open Classical in
/-- The old nodes and the nodes of a tree. -/
noncomputable def keptNodes (s : ImutAVLFactory β) (old live : Finset Addr) (T : TreePtr) :
    Finset Addr :=
  live.filter fun a => a ∈ old ∨ s.Below T a

theorem mem_keptNodes : a ∈ s.keptNodes old live T ↔ a ∈ live ∧ (a ∈ old ∨ s.Below T a) := by
  classical
  unfold keptNodes
  exact Finset.mem_filter

/-- Once the result is immutable, its nodes and the old ones are kept. -/
theorem Built.guarded (built : Built s old live T t) (working : Working s old live)
    (locks : Locks s s') : Guarded s' (s'.keptNodes old live T) live [] where
  subset := fun _ inside => (mem_keptNodes.mp inside).1
  guarded := by
    intro k inside outside
    rcases mem_keptNodes.mp inside with ⟨alive, isOld | below⟩
    · have before : k ∈ ([] : List Addr) ∨ ∃ b ∈ live, b ∉ old ∧ 0 < s.links b k := by
        rcases outside with inPending | ⟨b, aliveB, out, link⟩
        · cases inPending
        · exact .inr ⟨b, aliveB, fun isOldB => out (mem_keptNodes.mpr ⟨aliveB, .inl isOldB⟩),
            locks.links_eq b k ▸ link⟩
      rcases working.guarded.guarded k isOld before with ⟨b, isOldB, link⟩
      exact ⟨b, mem_keptNodes.mpr ⟨working.guarded.subset isOldB, .inl isOldB⟩,
        (locks.links_eq b k).symm ▸ link⟩
    · cases below with
      | root ptr =>
        rcases outside with inPending | ⟨b, aliveB, out, link⟩
        · cases inPending
        · rw [locks.links_eq] at link
          have region : s.Region old k := (ptr ▸ built.represents).inside
          rcases region with isOld | isCreated
          · rcases working.guarded.guarded k isOld (.inr ⟨b, aliveB, fun isOldB =>
              out (mem_keptNodes.mpr ⟨aliveB, .inl isOldB⟩), link⟩) with ⟨c, isOldC, linkC⟩
            exact ⟨c, mem_keptNodes.mpr ⟨working.guarded.subset isOldC, .inl isOldC⟩,
              (locks.links_eq c k).symm ▸ linkC⟩
          · rw [built.root k ptr isCreated b aliveB] at link
            exact absurd link (lt_irrefl 0)
      | child belowB found link =>
        rename_i b n
        rcases belowB.represents (locks.represents built.represents) with ⟨t', representsB⟩
        have aliveB := working.region_live representsB.inside
        exact ⟨b, mem_keptNodes.mpr ⟨aliveB, .inr belowB⟩, (links_pos found).mpr link⟩

/-- After an operation the nodes of its result are old, and nothing that was old
has changed. -/
theorem finish_spec (working : Working s old live) (built : Built s old live T t)
    (balanced : t.Balanced) :
    ∃ s' old' live', s.finish T = some (T, s') ∧ Working s' old' live' ∧ s'.createdNodes = [] ∧
      old ⊆ old' ∧ (∀ a ∈ old, SameNode s s' a) ∧ s'.Represents (· ∈ old') T t := by
  have closedBefore : s.LockedBelow (s.Region old) fun _ => False := by
    intro a n inside _ found immutable
    rcases inside with isOld | isCreated
    · have children := working.closed a isOld n found
      exact ⟨fun c m ptr => working.immutable c
          (children c (ImutAVLTree.mem_children.mpr (.inl ptr))) m,
        fun c m ptr => working.immutable c
          (children c (ImutAVLTree.mem_children.mpr (.inr ptr))) m⟩
    · rw [(working.created a isCreated).2.2 n found] at immutable
      cases immutable
  rcases markImmutable_spec built.represents balanced le_rfl closedBefore
    (fun _ _ out => out.elim) with ⟨s₁, marked, locks, closed, lockedT⟩
  have represents₁ := locks.represents built.represents
  have region : ∀ b, s₁.Below T b -> s.Region old b := fun b below => by
    rcases below.represents represents₁ with ⟨_, representsB⟩
    exact representsB.inside
  have lockedBelow : ∀ b, s₁.Below T b -> s₁.Locked (some b) := fun b below =>
    below.locked closed region lockedT
  have lockedKept : ∀ k ∈ s₁.keptNodes old live T, s₁.Locked (some k) := by
    intro k inside
    rcases (mem_keptNodes.mp inside).2 with isOld | below
    · apply locks.locked
      intro a n ptr found
      rw [<- some.inj ptr] at found
      exact working.immutable k isOld n found
    · exact lockedBelow k below
  have owned₁ := locks.owned working.owned
  have created₁ : ∀ N ∈ s₁.createdNodes, ∃ n, s₁.memory N = some n ∧
      (n.IsMutable = true -> N ∈ live) := by
    intro N mem
    have alive := (working.created N (locks.createdNodes ▸ mem)).1
    rcases owned₁.node N alive with ⟨n, found, -⟩
    exact ⟨n, found, fun _ => alive⟩
  rcases recoverNodes_loop owned₁ (built.guarded working locks)
    (fun k inside n found => lockedKept k inside k n rfl found) created₁ with
    ⟨s₂, live₂, recovered, released⟩
  have same : ∀ k ∈ s₁.keptNodes old live T, SameNode s₁ s₂ k := fun k inside =>
    released.same k (released.guarded.subset inside)
  refine ⟨{ s₂ with createdNodes := [] }, s₁.keptNodes old live T, live₂, ?_, ?_, rfl, ?_, ?_, ?_⟩
  · simp only [finish, built.represents.getHeight, marked, recoverNodes, recovered,
      bind_eq_bind, bind_some]
  · exact {
      owned := { released.owned with }
      guarded := { released.guarded with }
      immutable := by
        intro k inside n found
        rcases (same k inside).symm.exists found with ⟨m, before, core⟩
        rw [<- ImutAVLTree.isMutable_of_core_eq core]
        exact lockedKept k inside k m rfl before
      closed := by
        intro k inside n found c child
        rcases (same k inside).symm.exists found with ⟨m, before, core⟩
        rw [<- ImutAVLTree.children_of_core_eq core] at child
        have alive := (owned₁.child k (mem_keptNodes.mp inside).1 m before c child).1
        refine mem_keptNodes.mpr ⟨alive, ?_⟩
        rcases (mem_keptNodes.mp inside).2 with isOld | below
        · rcases locks.back before with ⟨m', original, lock, -⟩
          injection lock with leftSame rightSame
          rw [ImutAVLTree.children, leftSame, rightSame] at child
          exact .inl (working.closed k isOld m' original c child)
        · exact .inr (below.child before child)
      created := fun a mem => absurd mem List.not_mem_nil }
  · intro a isOld
    exact mem_keptNodes.mpr ⟨working.guarded.subset isOld, .inl isOld⟩
  · intro a isOld
    have alive := working.guarded.subset isOld
    rcases working.owned.node a alive with ⟨n, found, -⟩
    have unchanged := locks.memory_eq found (working.immutable a isOld n found)
    exact (SameNode.of_memory_eq unchanged).trans (same a (mem_keptNodes.mpr ⟨alive, .inl isOld⟩))
  · refine represents₁.narrow.frame (fun a below => ?_) fun a below => ?_
    · exact same a (mem_keptNodes.mpr ⟨working.region_live (region a below), .inr below⟩)
    · exact mem_keptNodes.mpr ⟨working.region_live (region a below), .inr below⟩

end ImutAVLFactory
end ImmutableSet
end LlvmProject
