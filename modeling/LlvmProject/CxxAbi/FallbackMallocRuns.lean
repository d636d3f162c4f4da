import LlvmProject.CxxAbi.FallbackMallocChunks

namespace LlvmProject

open List

namespace FallbackMalloc

/-!
# Runs of the emergency heap

Blocks are allocated and freed in any order, and the program may write what it
likes into its blocks.  Two things can go wrong in the code.  The size of a
huge request wraps around, and the block is too small.  And a block that takes
in a free chunk behind it, which is not the first one of the list, keeps its
own link, which is zero: the list then goes on at the start of the heap
instead of behind the chunk.  In runs without such steps the heap stays
divided into the free list and the live blocks.
-/

/-! ## The runs -/

/-- The request is computed without wrapping around, or there is no free
chunk. -/
def Fits (S : State) (len : Nat) : Prop := len + 3 < 2 ^ 64 ∨ S.freelist = some listEnd

/-- The nodes of the free list. -/
def State.free (S : State) : List Nat :=
  match S.freelist with
  | none => []
  | some head => freeNodes S.heap (listEnd + 1) head

/-- If a free chunk behind the list's first one starts where the block `cp`
ends, then a chunk in front of it in the list ends where the block starts, or
the list goes on from it at the start of the heap. -/
def Relinks (S : State) (cp : Nat) : Prop :=
  ∀ p ∈ S.free.tail, after S.heap cp = p ->
    (∃ node ∈ S.free.takeWhile (· ≠ p), after S.heap node = cp) ∨ (S.heap p).next_node = 0

instance (S : State) (cp : Nat) : Decidable (Relinks S cp) := by
  unfold Relinks
  infer_instance

/-- Memory changes only inside the live blocks, behind their headers. -/
def WritesInside (heap heap' : Nat -> HeapNode) (live : List Block) : Prop :=
  ∀ p, heap' p ≠ heap p -> ∃ b ∈ live, b.start < p ∧ p < b.start + alloc_size b.len

/-- The states of the heap, with the live blocks. -/
inductive Reachable : State -> List Block -> Prop
  | start (heap : Nat -> HeapNode) : Reachable ⟨heap, none⟩ []
  | malloc {S S' : State} {live : List Block} {start : Nat} (len : Nat) : Reachable S live ->
      len < 2 ^ 64 -> Fits S len -> fallback_malloc S len = some (some (start + 1), S') ->
      Reachable S' (⟨start, len⟩ :: live)
  | full {S S' : State} {live : List Block} (len : Nat) : Reachable S live -> len < 2 ^ 64 ->
      fallback_malloc S len = some (none, S') -> Reachable S' live
  | free {S S' : State} {live : List Block} (b : Block) : Reachable S live -> b ∈ live ->
      Relinks S b.start -> fallback_free S (b.start + 1) = some S' -> Reachable S' (live.erase b)
  | write {S : State} {live : List Block} (heap : Nat -> HeapNode) : Reachable S live ->
      WritesInside S.heap heap live -> Reachable { S with heap := heap } live

/-! ## What holds in every state -/

/-- The heap has not been used, or the free list ends, and its chunks and the
live blocks partition the heap, with the headers of the blocks intact. -/
def Sound (S : State) (live : List Block) : Prop :=
  S.freelist = none ∧ live = [] ∨ ∃ head free, Holds S head free live

/-- The bytes of a block lie in the heap behind its header. -/
def Block.Inside (b : Block) : Prop := 4 * (b.start + 1) + b.len <= 512

/-- The bytes of each block, and its header, are apart from the other. -/
def Block.Disjoint (b c : Block) : Prop :=
  4 * (b.start + 1) + b.len <= 4 * c.start ∨ 4 * (c.start + 1) + c.len <= 4 * b.start

variable {S S' : State} {live : List Block} {head : Nat} {nodes : List Nat}

theorem len_le_alloc_size {len : Nat} (fits : len + 3 < 2 ^ 64) :
    4 * 1 + len <= 4 * alloc_size len := by
  rw [alloc_size, Nat.mod_eq_of_lt fits]
  omega

theorem Holds.init (S : State) : Holds (init_heap S) 0 [0] [] := by
  have node : (init_heap S).heap 0 = ⟨heap_offset listEnd, listEnd⟩ := S.setNode_here 0 _
  have whole : nodeChunk (init_heap S).heap 0 = ⟨0, listEnd⟩ := by rw [nodeChunk, node]
  refine ⟨rfl, ⟨rfl, by decide, ?_⟩, ?_, fun b mem => absurd mem not_mem_nil⟩
  · rw [node]
    exact Nat.mod_eq_of_lt listEnd_lt
  · rw [map_singleton, whole]
    exact Chunks.Partition.single (by decide)

theorem Holds.malloc (holds : Holds S head nodes live) (len : Nat) :
    (mallocFrom S (alloc_size len) head = some (none, S) ∧
        ∀ p ∈ nodes, (S.heap p).len < alloc_size len) ∨
      ∃ start S' head' nodes', mallocFrom S (alloc_size len) head = some (some (start + 1), S') ∧
        Holds S' head' nodes' (⟨start, len⟩ :: live) := by
  rw [mallocFrom]
  rcases holds.linked.firstNode (fun p => alloc_size len <= (S.heap p).len) none
      holds.length_le with
    ⟨walked, fails⟩ | ⟨before, p, rest, rfl, found, -, walked⟩
  · rw [walked]
    exact .inl ⟨rfl, fun p mem => Nat.lt_of_not_le (by simpa using fails p mem)⟩
  · rw [walked, Option.or_none]
    rcases Nat.lt_or_eq_of_le (of_decide_eq_true found) with larger | fits
    · rcases holds.cut before.getLast? larger with ⟨start, S', ran, holds'⟩
      refine .inr ⟨start, S', head, _, ?_, holds'⟩
      exact congrArg (Option.map fun p => (some p.1, p.2)) ran
    · rcases holds.take fits.symm with ⟨head', S', ran, holds'⟩
      refine .inr ⟨p, S', head', _, ?_, holds'⟩
      exact congrArg (Option.map fun p => (some p.1, p.2)) ran

theorem Holds.free (holds : Holds S head nodes live) {b : Block} (alive : b ∈ live)
    (relinks : Relinks S b.start) :
    ∃ S' head' nodes', fallback_free S (b.start + 1) = some S' ∧
      Holds S' head' nodes' (live.erase b) := by
  have list : S.free = nodes := by
    rw [State.free, holds.freelist]
    exact holds.linked.freeNodes_eq holds.length_le
  have ran : fallback_free S (b.start + 1) = freeFrom S b.start head := by
    rw [fallback_free, holds.freelist]
    exact if_pos (holds.block_lt alive)
  rw [ran, freeFrom]
  rcases holds.linked.firstNode
    (fun p => after S.heap p = b.start || after S.heap b.start = p) none holds.length_le with
    ⟨walked, -⟩ | ⟨before, p, rest, rfl, found, fails, walked⟩
  · rw [walked]
    exact ⟨_, _, _, rfl, holds.push alive⟩
  · rw [walked, Option.or_none, Option.map_some]
    refine ⟨mergeChunk S b.start p before.getLast?, ?_⟩
    by_cases front : after S.heap p = b.start
    · exact ⟨head, _, rfl, holds.join_front alive front _⟩
    · have back : after S.heap b.start = p := by simpa [front] using found
      cases prev : before.getLast? with
      | none =>
        have first := getLast?_eq_none_iff.mp prev
        subst first
        have same : head = p := holds.linked.1
        exact ⟨b.start, _, rfl, holds.join_head alive back front⟩
      | some last =>
        have apart : ∀ node ∈ before, decide (node ≠ p) = true := fun node mem =>
          decide_eq_true (holds.ne_middle (mem_append_left rest mem))
        have earlier : (before ++ p :: rest).takeWhile (· ≠ p) = before := by
          rw [takeWhile_append_of_pos apart, takeWhile_cons_of_neg (by simp), append_nil]
        have later : p ∈ (before ++ p :: rest).tail := by
          rcases getLast?_eq_some_iff.mp prev with ⟨init, rfl⟩
          cases init with
          | nil => exact mem_cons_self
          | cons first init => exact mem_append_right _ mem_cons_self
        rw [Relinks, list] at relinks
        refine ⟨head, _, rfl, holds.join_inner alive back front prev ?_⟩
        refine (relinks p later back).resolve_left ?_
        rintro ⟨node, mem, touches⟩
        rw [earlier] at mem
        have fails := fails node mem
        simp [touches] at fails

variable {heap : Nat -> HeapNode}

/-- Writing into the blocks moves no header. -/
theorem Holds.write (holds : Holds S head nodes live) (writes : WritesInside S.heap heap live) :
    Holds { S with heap := heap } head nodes live := by
  have header : ∀ c ∈ nodes.map (nodeChunk S.heap) ++ live.map Block.chunk,
      heap c.start = S.heap c.start := by
    intro c mem
    by_contra changed
    rcases writes c.start changed with ⟨b, alive, inside⟩
    exact holds.partition.not_inside (Holds.mem_live alive) mem inside
  have same : ∀ p ∈ nodes, heap p = S.heap p := fun p mem => header _ (Holds.mem_free mem)
  refine ⟨holds.freelist, holds.linked.congr fun p mem =>
    congrArg HeapNode.next_node (same p mem), ?_, ?_⟩
  · rw [Holds.map_congr _ fun p mem => congrArg HeapNode.len (same p mem)]
    exact holds.partition
  · intro b alive
    exact (header b.chunk (Holds.mem_live alive)).trans (holds.headers b alive)

/-! ## Runs -/

/-- What an allocation does in a sound heap. -/
theorem Sound.malloc (sound : Sound S live) (len : Nat) :
    (∃ S', fallback_malloc S len = some (none, S') ∧ Sound S' live) ∨
      ∃ start S', fallback_malloc S len = some (some (start + 1), S') ∧
        Sound S' (⟨start, len⟩ :: live) := by
  have used : ∀ {S₁ : State} {head nodes}, Holds S₁ head nodes live ->
      fallback_malloc S len = mallocFrom S₁ (alloc_size len) head ->
      (∃ S', fallback_malloc S len = some (none, S') ∧ Sound S' live) ∨
        ∃ start S', fallback_malloc S len = some (some (start + 1), S') ∧
          Sound S' (⟨start, len⟩ :: live) := by
    intro S₁ head nodes holds ran
    rw [ran]
    rcases holds.malloc len with ⟨full, -⟩ | ⟨start, S', head', nodes', found, holds'⟩
    · exact .inl ⟨S₁, full, .inr ⟨head, nodes, holds⟩⟩
    · exact .inr ⟨start, S', found, .inr ⟨head', nodes', holds'⟩⟩
  rcases sound with ⟨unused, rfl⟩ | ⟨head, nodes, holds⟩
  · refine used (Holds.init S) ?_
    rw [fallback_malloc, unused]
    rfl
  · refine used holds ?_
    rw [fallback_malloc, holds.freelist]
    exact congrArg (fun freelist => Option.bind freelist _) holds.freelist

theorem malloc_empty (empty : S.freelist = some listEnd) (len : Nat) :
    fallback_malloc S len = some (none, S) := by
  have walked : ∀ cond, firstNode S.heap cond (listEnd + 1) listEnd none = some none :=
    fun _ => if_pos rfl
  rw [fallback_malloc, empty]
  refine (congrArg (fun freelist => Option.bind freelist _) empty).trans ?_
  rw [Option.bind_some, mallocFrom]
  exact congrArg (fun found => Option.bind found _) (walked _)

theorem Sound.free (sound : Sound S live) {b : Block} (alive : b ∈ live)
    (relinks : Relinks S b.start) :
    ∃ S', fallback_free S (b.start + 1) = some S' ∧ Sound S' (live.erase b) := by
  rcases sound with ⟨-, rfl⟩ | ⟨head, nodes, holds⟩
  · exact absurd alive not_mem_nil
  · rcases holds.free alive relinks with ⟨S', head', nodes', ran, holds'⟩
    exact ⟨S', ran, .inr ⟨head', nodes', holds'⟩⟩

theorem Sound.write (sound : Sound S live)
    (writes : WritesInside S.heap heap live) : Sound { S with heap := heap } live := by
  rcases sound with unused | ⟨head, nodes, holds⟩
  · exact .inl unused
  · exact .inr ⟨head, nodes, holds.write writes⟩

/-- The invariant of the runs: the heap is sound, and no live block is the
result of a request that wrapped around. -/
theorem Reachable.invariant (reachable : Reachable S live) :
    Sound S live ∧ ∀ b ∈ live, b.len + 3 < 2 ^ 64 := by
  induction reachable with
  | start heap => exact ⟨.inl ⟨rfl, rfl⟩, nofun⟩
  | @malloc S S' live start len _ _ fits ran ih =>
    rcases ih with ⟨sound, enough⟩
    have size : len + 3 < 2 ^ 64 := fits.resolve_right fun empty => by
      rw [malloc_empty empty] at ran
      exact absurd ran nofun
    refine ⟨?_, forall_mem_cons.mpr ⟨size, enough⟩⟩
    rcases sound.malloc len with ⟨_, full, -⟩ | ⟨_, _, found, sound'⟩
    · exact absurd (ran.symm.trans full) nofun
    · cases ran.symm.trans found
      exact sound'
  | @full S S' live len _ _ ran ih =>
    rcases ih with ⟨sound, enough⟩
    refine ⟨?_, enough⟩
    rcases sound.malloc len with ⟨_, full, sound'⟩ | ⟨_, _, found, -⟩
    · cases ran.symm.trans full
      exact sound'
    · exact absurd (ran.symm.trans found) nofun
  | @free S S' live b _ alive relinks ran ih =>
    rcases ih with ⟨sound, enough⟩
    rcases sound.free alive relinks with ⟨_, freed, sound'⟩
    cases ran.symm.trans freed
    exact ⟨sound', fun c other => enough c (mem_of_mem_erase other)⟩
  | write heap _ writes ih =>
    exact ⟨ih.1.write writes, ih.2⟩

/-- The chunks of large enough blocks hold their bytes. -/
theorem Sound.blocks (sound : Sound S live) (enough : ∀ b ∈ live, b.len + 3 < 2 ^ 64) :
    (∀ b ∈ live, b.Inside) ∧ live.Pairwise Block.Disjoint := by
  rcases sound with ⟨-, rfl⟩ | ⟨head, nodes, holds⟩
  · exact ⟨nofun, List.Pairwise.nil⟩
  · constructor
    · intro b alive
      have within := (holds.partition.within _ (Holds.mem_live alive)).2
      have size := len_le_alloc_size (enough b alive)
      simp only [Block.chunk, listEnd] at within
      rw [Block.Inside]
      omega
    · have apart := (pairwise_append.mp holds.partition.apart).2.1
      refine (pairwise_map.mp apart).imp_of_mem fun {b c} first second apart => ?_
      have sizeFirst := len_le_alloc_size (enough b first)
      have sizeSecond := len_le_alloc_size (enough c second)
      simp only [Chunks.Apart, Block.chunk] at apart
      rw [Block.Disjoint]
      omega

/-- In every state the heap is divided into the free list and the live blocks,
the blocks hold the bytes that were asked for, and the next call returns. -/
theorem Reachable.sound (reachable : Reachable S live) :
    Sound S live ∧ (∀ b ∈ live, b.Inside) ∧ live.Pairwise Block.Disjoint ∧
      (∀ len, ∃ result S', fallback_malloc S len = some (result, S')) ∧
      ∀ b ∈ live, Relinks S b.start -> ∃ S', fallback_free S (b.start + 1) = some S' := by
  rcases reachable.invariant with ⟨sound, enough⟩
  rcases sound.blocks enough with ⟨inside, disjoint⟩
  refine ⟨sound, inside, disjoint, fun len => ?_, fun b alive relinks => ?_⟩
  · rcases sound.malloc len with ⟨S', ran, -⟩ | ⟨start, S', ran, -⟩
    · exact ⟨none, S', ran⟩
    · exact ⟨some (start + 1), S', ran⟩
  · rcases sound.free alive relinks with ⟨S', ran, -⟩
    exact ⟨S', ran⟩

theorem LinkedTo.next {p q : Nat} (linked : LinkedTo heap p nodes q)
    (goesOn : p ≠ q) : ∃ rest, LinkedTo heap (heap p).next_node rest q := by
  cases nodes with
  | nil => exact absurd linked goesOn
  | cons node rest => exact ⟨rest, linked.1 ▸ linked.2.2⟩

/-- A list that comes back to a node does not end. -/
theorem LinkedTo.not_cycle {p q : Nat} (linked : LinkedTo heap p nodes q)
    (goesOn : p ≠ q) (back : (heap p).next_node = p) : False := by
  induction nodes with
  | nil => exact goesOn linked
  | cons node rest ih =>
    rcases linked with ⟨rfl, -, linked⟩
    exact ih (back ▸ linked)

/-- A heap that has not been used. -/
def fresh : State := ⟨fun _ => ⟨0, 0⟩, none⟩

/-- A block of eight bytes at the end of the heap. -/
theorem sound_eight : ∃ S S', fallback_malloc fresh 8 = some (some 126, S) ∧
    Sound S [⟨125, 8⟩] ∧ fallback_free S 126 = some S' := by
  have reachable : Reachable _ [⟨125, 8⟩] :=
    .malloc 8 (.start fun _ => ⟨0, 0⟩) (by decide) (.inl (by decide)) rfl
  rcases reachable.sound with ⟨sound, -, -, -, frees⟩
  rcases frees ⟨125, 8⟩ mem_cons_self (by decide) with ⟨S', ran⟩
  exact ⟨_, S', rfl, sound, ran⟩

/-- A request of almost all the address space gets an empty block.  And a freed
block that takes in a later chunk of the list ends up linked to the start of
the heap, where a live block is. -/
theorem list_goes_wrong :
    (∃ S S' start, Reachable S [] ∧
      fallback_malloc S (2 ^ 64 - 1) = some (some (start + 1), S') ∧
      ¬Block.Inside ⟨start, 2 ^ 64 - 1⟩) ∧
    ∃ S S' live b, Reachable S live ∧ b ∈ live ∧ fallback_free S (b.start + 1) = some S' ∧
      ¬Sound S' (live.erase b) := by
  have fits : ∀ S, Fits S 4 := fun _ => .inl (by decide)
  have one : Reachable _ [⟨126, 4⟩] := .malloc 4 (.start fun _ => ⟨0, 0⟩) (by decide) (fits _) rfl
  have two : Reachable _ [⟨124, 4⟩, ⟨126, 4⟩] := .malloc 4 one (by decide) (fits _) rfl
  have three : Reachable _ [⟨122, 4⟩, ⟨124, 4⟩, ⟨126, 4⟩] := .malloc 4 two (by decide) (fits _) rfl
  have four : Reachable _ [⟨120, 4⟩, ⟨122, 4⟩, ⟨124, 4⟩, ⟨126, 4⟩] :=
    .malloc 4 three (by decide) (fits _) rfl
  have five : Reachable _ [⟨0, 476⟩, ⟨120, 4⟩, ⟨122, 4⟩, ⟨124, 4⟩, ⟨126, 4⟩] :=
    .malloc 476 four (by decide) (.inl (by decide)) rfl
  have last : Reachable _ [⟨0, 476⟩, ⟨120, 4⟩, ⟨122, 4⟩, ⟨124, 4⟩] :=
    .free ⟨126, 4⟩ five (by decide) (by decide) rfl
  have lower : Reachable _ [⟨0, 476⟩, ⟨122, 4⟩, ⟨124, 4⟩] :=
    .free ⟨120, 4⟩ last (by decide) (by decide) rfl
  refine ⟨⟨_, _, 127, .start fun _ => ⟨0, 0⟩, rfl,
      show ¬4 * (127 + 1) + (2 ^ 64 - 1) <= 512 by decide⟩,
    _, _, _, ⟨124, 4⟩, lower, by decide, rfl, ?_⟩
  rintro (⟨unused, -⟩ | ⟨head, nodes, holds⟩)
  · exact absurd unused nofun
  · have linked := holds.linked
    rw [<- Option.some.inj holds.freelist] at linked
    rcases linked.next (by decide) with ⟨_, linked⟩
    rcases linked.next (by decide) with ⟨_, linked⟩
    exact linked.not_cycle (by decide) rfl

end FallbackMalloc
end LlvmProject
