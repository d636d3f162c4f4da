import LlvmProject.Library.Chunks
import LlvmProject.CxxAbi.FallbackMalloc
import Mathlib.Data.List.Nodup
import Mathlib.Data.List.Perm.Subperm

namespace LlvmProject

open Nat hiding ne_of_lt
open List Function

namespace FallbackMalloc

/-!
# The chunks of the emergency heap

The free list is a linked list inside the heap; together with the live blocks
its nodes partition the heap.  A chunk is taken from the list by cutting it or
by unlinking it, and it is given back by joining it to a neighbour or by
putting it in front of the list.
-/

open Chunks

theorem listEnd_lt : listEnd < 2 ^ 16 := by decide

/-! ## Linked nodes -/

/-- From `p` the list runs through the given nodes and goes on at `q`. -/
def LinkedTo (heap : Nat -> HeapNode) : Nat -> List Nat -> Nat -> Prop
  | p, [], q => p = q
  | p, node :: rest, q => p = node ∧ node < listEnd ∧ LinkedTo heap (heap node).next_node rest q

variable {heap heap' : Nat -> HeapNode} {p q : Nat} {nodes before rest : List Nat}

theorem linkedTo_append : LinkedTo heap p (before ++ rest) q ↔
    ∃ middle, LinkedTo heap p before middle ∧ LinkedTo heap middle rest q := by
  induction before generalizing p with
  | nil => exact ⟨fun linked => ⟨p, rfl, linked⟩, fun ⟨_, same, linked⟩ => same ▸ linked⟩
  | cons node before ih =>
    simp only [cons_append, LinkedTo, ih]
    constructor
    · rintro ⟨rfl, within, middle, left, right⟩
      exact ⟨middle, ⟨rfl, within, left⟩, right⟩
    · rintro ⟨middle, ⟨rfl, within, left⟩, right⟩
      exact ⟨rfl, within, middle, left, right⟩

theorem LinkedTo.congr (linked : LinkedTo heap p nodes q)
    (same : ∀ node ∈ nodes, (heap' node).next_node = (heap node).next_node) :
    LinkedTo heap' p nodes q := by
  induction nodes generalizing p with
  | nil => exact linked
  | cons node nodes ih =>
    rcases linked with ⟨rfl, within, linked⟩
    refine ⟨rfl, within, ?_⟩
    rw [same p mem_cons_self]
    exact ih linked fun node mem => same node (mem_cons_of_mem _ mem)

theorem LinkedTo.lt_listEnd (linked : LinkedTo heap p nodes q) :
    ∀ node ∈ nodes, node < listEnd := by
  induction nodes generalizing p with
  | nil => exact fun _ none => absurd none not_mem_nil
  | cons node nodes ih =>
    intro other mem
    rcases mem_cons.mp mem with rfl | mem
    · exact linked.2.1
    · exact ih linked.2.2 other mem

theorem LinkedTo.le_listEnd (linked : LinkedTo heap p nodes listEnd) : p <= listEnd := by
  cases nodes with
  | nil => exact le_of_eq linked
  | cons node nodes => exact linked.1 ▸ le_of_lt linked.2.1

theorem LinkedTo.freeNodes_eq (linked : LinkedTo heap p nodes listEnd) {steps : Nat}
    (enough : nodes.length < steps) : freeNodes heap steps p = nodes := by
  induction nodes generalizing p steps with
  | nil =>
    rcases Nat.exists_eq_add_of_lt enough with ⟨_, rfl⟩
    exact if_neg (linked ▸ lt_irrefl listEnd)
  | cons node nodes ih =>
    rcases linked with ⟨rfl, within, linked⟩
    cases steps with
    | zero => exact absurd enough (not_lt_zero _)
    | succ steps =>
      rw [freeNodes, if_pos within, ih linked (lt_of_succ_lt_succ enough)]

theorem LinkedTo.relink {last next middle : Nat} (front : LinkedTo heap p before middle)
    (nodup : before.Nodup) (isLast : before.getLast? = some last) (links : (heap' last).next_node =
    next) (same : ∀ node ∈ before, node ≠ last -> (heap' node).next_node = (heap node).next_node)
    (back : LinkedTo heap' next rest q) : LinkedTo heap' p (before ++ rest) q := by
  rcases getLast?_eq_some_iff.mp isLast with ⟨init, rfl⟩
  rcases linkedTo_append.mp front with ⟨_, left, reached, within, -⟩
  rw [reached] at left
  have apart : ∀ node ∈ init, node ≠ last := fun node mem equal =>
    (nodup_append.mp nodup).2.2 node mem last mem_cons_self equal
  rw [append_assoc, linkedTo_append]
  refine ⟨last, left.congr fun node mem => ?_, rfl, within, links ▸ back⟩
  exact same node (mem_append_left _ mem) (apart node mem)

/-- The walk stops at the first node that satisfies the condition. -/
theorem LinkedTo.firstNode (linked : LinkedTo heap p nodes listEnd) (cond : Nat -> Bool)
    (prev : Option Nat) {steps : Nat} (enough : nodes.length < steps) :
    (firstNode heap cond steps p prev = some none ∧ ∀ node ∈ nodes, cond node = false) ∨
      ∃ before node rest, nodes = before ++ node :: rest ∧ cond node = true ∧
        (∀ other ∈ before, cond other = false) ∧
        firstNode heap cond steps p prev = some (some (node, before.getLast?.or prev)) := by
  induction nodes generalizing p prev steps with
  | nil =>
    rcases Nat.exists_eq_add_of_lt enough with ⟨_, rfl⟩
    exact .inl ⟨if_pos linked, fun _ none => absurd none not_mem_nil⟩
  | cons node nodes ih =>
    rcases linked with ⟨rfl, within, linked⟩
    cases steps with
    | zero => exact absurd enough (not_lt_zero _)
    | succ steps =>
      rw [FallbackMalloc.firstNode, if_neg (ne_of_lt within),
        if_neg (Nat.not_lt_of_le (le_of_lt within))]
      cases holds : cond p with
      | true => exact .inr ⟨[], p, nodes, rfl, holds, nofun, rfl⟩
      | false =>
        rw [if_neg Bool.false_ne_true]
        rcases ih linked (some p) (lt_of_succ_lt_succ enough) with
          ⟨ran, fails⟩ | ⟨before, first, rest, rfl, found, fails, ran⟩
        · exact .inl ⟨ran, forall_mem_cons.mpr ⟨holds, fails⟩⟩
        · refine .inr ⟨p :: before, first, rest, rfl, found,
            forall_mem_cons.mpr ⟨holds, fails⟩, ran.trans ?_⟩
          rw [getLast?_cons]
          cases before.getLast? <;> rfl

/-! ## The heap as a partition -/

/-- A live block: the unit of its header, and the bytes that were asked for. -/
structure Block where
  start : Nat
  len : Nat
deriving DecidableEq

def Block.chunk (b : Block) : Chunk := ⟨b.start, alloc_size b.len⟩

def nodeChunk (heap : Nat -> HeapNode) (p : Nat) : Chunk := ⟨p, (heap p).len⟩

/-- The free list and the live blocks divide the heap among them, and the
headers of the live blocks are intact. -/
structure Holds (S : State) (head : Nat) (free : List Nat) (live : List Block) : Prop where
  freelist : S.freelist = some head
  linked : LinkedTo S.heap head free listEnd
  partition : Partition listEnd (free.map (nodeChunk S.heap) ++ live.map Block.chunk)
  headers : ∀ b ∈ live, S.heap b.start = ⟨0, alloc_size b.len⟩

namespace Holds

variable {S S' : State} {head head' : Nat} {free free' : List Nat} {live : List Block}

section

variable (holds : Holds S head free live)
include holds

theorem starts : (free ++ live.map Block.start).Nodup := by
  have nodup := holds.partition.nodup_start
  rw [map_append, map_map, map_map] at nodup
  have nodes : free.map (Chunk.start ∘ nodeChunk S.heap) = free := map_id'' (fun _ => rfl) free
  rwa [nodes] at nodup

theorem length_le : free.length < listEnd + 1 := by
  have nodup : free.Nodup := (nodup_append.mp holds.starts).1
  have inside : free ⊆ range listEnd := fun node mem =>
    mem_range.mpr (holds.linked.lt_listEnd node mem)
  have count := (subperm_of_subset nodup inside).length_le
  rw [length_range] at count
  exact lt_succ_of_le count

theorem ne_start (mem : p ∈ free) {b : Block}
    (alive : b ∈ live) : b.start ≠ p := fun same =>
  (nodup_append.mp holds.starts).2.2 p mem b.start (mem_map_of_mem alive) same.symm

end

theorem mem_free (mem : p ∈ free) :
    nodeChunk S.heap p ∈ free.map (nodeChunk S.heap) ++ live.map Block.chunk :=
  mem_append_left _ (mem_map_of_mem mem)

theorem mem_live {b : Block} (alive : b ∈ live) :
    b.chunk ∈ free.map (nodeChunk S.heap) ++ live.map Block.chunk :=
  mem_append_right _ (mem_map_of_mem alive)

/-- The nodes that hold no header keep the chunks as they are. -/
theorem map_congr (heap : Nat -> HeapNode) {nodes : List Nat}
    (same : ∀ p ∈ nodes, (heap' p).len = (heap p).len) :
    nodes.map (nodeChunk heap') = nodes.map (nodeChunk heap) :=
  map_congr_left fun p mem => congrArg (Chunk.mk p) (same p mem)

theorem middle_perm {α : Type*} (before after others : List α) (x : α) :
    (before ++ x :: after ++ others).Perm (x :: (before ++ after ++ others)) := by
  rw [append_assoc, cons_append, append_assoc]
  exact perm_middle

theorem partition_middle {others : List Chunk} {f : Nat -> Chunk} :
    Partition listEnd ((before ++ p :: rest).map f ++ others) ↔
      Partition listEnd (f p :: ((before ++ rest).map f ++ others)) := by
  rw [map_append, map_append, map_cons]
  have same := middle_perm (before.map f) (rest.map f) others (f p)
  exact ⟨fun partition => partition.perm same, fun partition => partition.perm same.symm⟩

theorem partition_swap {c d : Chunk} {before others : List Chunk} :
    Partition listEnd (c :: (before ++ d :: others)) ↔
      Partition listEnd (c :: d :: (before ++ others)) := by
  have same : (c :: (before ++ d :: others)).Perm (c :: d :: (before ++ others)) :=
    perm_middle.cons c
  exact ⟨fun partition => partition.perm same, fun partition => partition.perm same.symm⟩

theorem alloc_size_pos (len : Nat) : 0 < alloc_size len := succ_pos _

theorem not_mem_of_inside (holds : Holds S head free live) (mem : p ∈ free)
    (inside : p < q ∧ q < p + (S.heap p).len) :
    (∀ node ∈ free, node ≠ q) ∧ ∀ b ∈ live, b.start ≠ q := by
  constructor
  · rintro node other rfl
    exact holds.partition.not_inside (mem_free mem) (mem_free other) inside
  · rintro b alive rfl
    exact holds.partition.not_inside (mem_free mem) (mem_live alive) inside

section

variable (holds : Holds S head (before ++ p :: rest) live)
include holds

theorem ne_middle {node : Nat} (other : node ∈ before ++ rest) : node ≠ p := by
  rintro rfl
  have nodup := (nodup_append.mp holds.starts).1
  exact (nodup_cons.mp (nodup_middle.mp nodup)).1 other

/-- Cutting the end of a free chunk off for a new block. -/
theorem cut {len : Nat} (prev : Option Nat) (larger : alloc_size len < (S.heap p).len) :
    ∃ start S', takeChunk S (alloc_size len) p prev = some (start + 1, S') ∧
      Holds S' head (before ++ p :: rest) (⟨start, len⟩ :: live) := by
  have mem : p ∈ before ++ p :: rest := mem_append_right _ mem_cons_self
  have bounds := holds.partition.within _ (mem_free mem)
  have pos := alloc_size_pos len
  simp only [nodeChunk] at bounds
  let left := (S.heap p).len - alloc_size len
  let start := p + left
  have inside : p < start ∧ start < p + (S.heap p).len := by omega
  rcases holds.not_mem_of_inside mem inside with ⟨freeNe, liveNe⟩
  let S' := (S.setLen p left).setNode start ⟨0, alloc_size len⟩
  have atStart : S'.heap start = ⟨0, alloc_size len⟩ := update_self ..
  have atChunk : S'.heap p = { S.heap p with len := left } := by
    refine (update_of_ne (ne_of_lt inside.1) ..).trans ?_
    exact update_self ..
  have elsewhere : ∀ node, node ≠ p -> node ≠ start -> S'.heap node = S.heap node := by
    intro node first second
    exact (update_of_ne second ..).trans (update_of_ne first ..)
  have others : ∀ node ∈ before ++ rest, S'.heap node = S.heap node := by
    intro node other
    have whole : node ∈ before ++ p :: rest := mem_append.mpr
      ((mem_append.mp other).imp_right (mem_cons_of_mem p))
    exact elsewhere node (holds.ne_middle other) (freeNe node whole)
  have nodesKept : (before ++ rest).map (nodeChunk S'.heap) =
      (before ++ rest).map (nodeChunk S.heap) :=
    map_congr _ fun node other => congrArg HeapNode.len (others node other)
  refine ⟨start, S', ?_, holds.freelist, ?_, ?_, ?_⟩
  · have size : alloc_size len < 2 ^ 16 := by
      have := holds.partition.within _ (mem_free mem)
      simp only [nodeChunk, listEnd] at this
      omega
    have shortened : (S.setLen p left).heap p = { S.heap p with len := left } := update_self ..
    have found : p + ((S.setLen p left).heap p).len = start := by rw [shortened]
    have within : start < listEnd := by omega
    refine (if_pos larger).trans ?_
    show (if p + ((S.setLen p left).heap p).len < listEnd then _ else _) = _
    rw [found, if_pos within, heap_offset, mod_eq_of_lt size]
  · refine holds.linked.congr fun node mem => ?_
    by_cases same : node = p
    · rw [same, atChunk]
    · rw [elsewhere node same (freeNe node mem)]
  · have whole : nodeChunk S.heap p = ⟨p, left + alloc_size len⟩ :=
      congrArg (Chunk.mk p) (Nat.sub_add_cancel (le_of_lt larger)).symm
    have shortened : nodeChunk S'.heap p = ⟨p, left⟩ := congrArg (Chunk.mk p) (by rw [atChunk])
    have partition := partition_middle.mp holds.partition
    rw [whole, partition_cut_iff (Nat.sub_pos_of_lt larger) pos] at partition
    rw [partition_middle, nodesKept, shortened, map_cons, partition_swap]
    exact partition
  · intro b alive
    rcases mem_cons.mp alive with rfl | alive
    · exact atStart
    · rw [elsewhere b.start (holds.ne_start mem alive) (liveNe b alive)]
      exact holds.headers b alive

/-- A free chunk of the exact size becomes a live block. -/
theorem take {len : Nat} (fits : (S.heap p).len = alloc_size len) :
    ∃ head' S', takeChunk S (alloc_size len) p before.getLast? = some (p + 1, S') ∧
      Holds S' head' (before ++ rest) (⟨p, len⟩ :: live) := by
  have nodup := (nodup_append.mp holds.starts).1
  have mem : p ∈ before ++ p :: rest := mem_append_right _ mem_cons_self
  rcases linkedTo_append.mp holds.linked with ⟨middle, front, here, -, back⟩
  have ended : ¬alloc_size len < (S.heap p).len := fits ▸ lt_irrefl _
  have frontNodup : before.Nodup := (nodup_append.mp nodup).1
  have frontNe : ∀ node ∈ before, node ≠ p := fun node other =>
    holds.ne_middle (mem_append_left _ other)
  have backNe : ∀ node ∈ rest, node ≠ p := fun node other =>
    holds.ne_middle (mem_append_right _ other)
  have ran : takeChunk S (alloc_size len) p before.getLast? =
      some (p + 1, (unlink S p before.getLast?).setNext p 0) := if_neg ended
  rw [ran]
  -- what both ways of unlinking have in common
  have finish : ∀ (head' : Nat) (S₁ : State), S₁.freelist = some head' ->
      (∀ node, (S₁.heap node).len = (S.heap node).len) ->
      (∀ b ∈ live, S₁.heap b.start = S.heap b.start) ->
      LinkedTo (S₁.setNext p 0).heap head' (before ++ rest) listEnd ->
      Holds (S₁.setNext p 0) head' (before ++ rest) (⟨p, len⟩ :: live) := by
    intro head' S₁ freelist lens liveKept linked
    have lens' : ∀ node, ((S₁.setNext p 0).heap node).len = (S.heap node).len := fun node =>
      (S₁.setNext_len p node 0).trans (lens node)
    refine ⟨freelist, linked, ?_, fun b alive => ?_⟩
    · have partition := partition_middle.mp holds.partition
      rw [map_congr _ fun node _ => lens' node]
      have same : nodeChunk S.heap p = Block.chunk ⟨p, len⟩ := congrArg (Chunk.mk p) fits
      rw [same] at partition
      exact partition.perm perm_middle.symm
    · rcases mem_cons.mp alive with rfl | alive
      · show (S₁.setNext p 0).heap p = ⟨0, alloc_size len⟩
        exact (State.setNode_here ..).trans (congrArg (HeapNode.mk 0) ((lens p).trans fits))
      · rw [State.setNext_other _ _ (holds.ne_start mem alive), liveKept b alive]
        exact holds.headers b alive
  cases prev : before.getLast? with
  | none =>
    have first := getLast?_eq_none_iff.mp prev
    subst first
    refine ⟨_, _, rfl, finish (S.heap p).next_node _ rfl (fun _ => rfl) (fun _ _ => rfl) ?_⟩
    refine back.congr fun node other => ?_
    rw [State.setNext_other _ _ (backNe node other)]
    rfl
  | some last =>
    have lastMember : last ∈ before := mem_of_getLast? prev
    have liveNe : ∀ b ∈ live, b.start ≠ last := fun b =>
      holds.ne_start (mem_append_left _ lastMember)
    have lastNe : ∀ node ∈ rest, node ≠ last := fun node other equal =>
      (nodup_append.mp nodup).2.2 last lastMember node (mem_cons_of_mem p other)
        equal.symm
    refine ⟨_, _, rfl, finish head (S.setNext last (S.heap p).next_node) holds.freelist
      (fun _ => State.setNext_len ..)
      (fun b alive => State.setNext_other _ _ (liveNe b alive)) ?_⟩
    apply front.relink frontNodup prev
    · rw [State.setNext_other _ _ (frontNe last lastMember), State.setNext_next]
    · intro node other ne
      rw [State.setNext_other _ _ (frontNe node other), State.setNext_other _ _ ne]
    · refine back.congr fun node other => ?_
      rw [State.setNext_other _ _ (backNe node other), State.setNext_other _ _ (lastNe node other)]

end

/-! ## Giving a block back -/

variable {b : Block}

section

variable (holds : Holds S head free live) (alive : b ∈ live)
include holds alive

theorem partition_block :
    Partition listEnd (free.map (nodeChunk S.heap) ++ b.chunk :: (live.erase b).map Block.chunk) :=
  holds.partition.perm (((perm_cons_erase alive).map Block.chunk).append_left _)

theorem len_block :
    (S.heap b.start).len = alloc_size b.len := congrArg HeapNode.len (holds.headers b alive)

theorem block_lt : b.start < listEnd := by
  have within := holds.partition.within _ (mem_live alive)
  simp only [Block.chunk] at within
  omega

theorem other_block {c : Block} (other : c ∈ live.erase b) : c ∈ live ∧ c.start ≠ b.start := by
  have nodup := (nodup_append.mp holds.starts).2.1
  rcases (Nodup.mem_erase_iff nodup.of_map).mp other with ⟨different, mem⟩
  exact ⟨mem, fun same => different (inj_on_of_nodup_map nodup mem alive same)⟩

end

section

variable (holds : Holds S head (before ++ p :: rest) live) (alive : b ∈ live)
include holds alive

theorem partition_join_front (touches : after S.heap p = b.start) :
    Partition listEnd (⟨p, (S.heap p).len + alloc_size b.len⟩ ::
      ((before ++ rest).map (nodeChunk S.heap) ++ (live.erase b).map Block.chunk)) := by
  have mem : p ∈ before ++ p :: rest := mem_append_right _ mem_cons_self
  have pos := (holds.partition.within _ (mem_free mem)).1
  have block : b.chunk = ⟨p + (S.heap p).len, alloc_size b.len⟩ :=
    congrArg (fun start => Chunk.mk start (alloc_size b.len)) touches.symm
  have partition := holds.partition_block alive
  rw [partition_middle, partition_swap, block] at partition
  exact (partition_cut_iff pos (alloc_size_pos _)).mpr partition

theorem partition_join_back (touches : after S.heap b.start = p) :
    Partition listEnd (⟨b.start, alloc_size b.len + (S.heap p).len⟩ ::
      ((before ++ rest).map (nodeChunk S.heap) ++ (live.erase b).map Block.chunk)) := by
  have mem : p ∈ before ++ p :: rest := mem_append_right _ mem_cons_self
  have pos := (holds.partition.within _ (mem_free mem)).1
  have chunk : nodeChunk S.heap p = ⟨b.start + alloc_size b.len, (S.heap p).len⟩ := by
    rw [<- holds.len_block alive]
    exact congrArg (fun start => Chunk.mk start (S.heap p).len) touches.symm
  have partition := holds.partition_block alive
  rw [partition_middle, partition_swap, chunk] at partition
  exact (partition_cut_iff (alloc_size_pos _) pos).mpr (partition.perm (Perm.swap ..))

theorem join_front (touches : after S.heap p = b.start) (prev : Option Nat) :
    Holds (mergeChunk S b.start p prev) head (before ++ p :: rest) (live.erase b) := by
  have partition := holds.partition_join_front alive touches
  have mem : p ∈ before ++ p :: rest := mem_append_right _ mem_cons_self
  have merged : mergeChunk S b.start p prev = S.setLen p ((S.heap p).len + alloc_size b.len) := by
    have bound : (S.heap p).len + alloc_size b.len < 2 ^ 16 := by
      have within := (partition.within _ mem_cons_self).2
      simp only [listEnd] at within
      omega
    rw [mergeChunk, if_pos touches, holds.len_block alive, heap_offset, mod_eq_of_lt bound]
  rw [merged]
  refine ⟨holds.freelist, holds.linked.congr fun node _ => State.setLen_next .., ?_, ?_⟩
  · rw [partition_middle, nodeChunk, State.setLen_len, map_congr S.heap]
    · exact partition
    · intro node other
      rw [State.setLen_other _ _ (holds.ne_middle other)]
  · intro c other
    have alive' := mem_of_mem_erase other
    rw [State.setLen_other _ _ (holds.ne_start mem alive')]
    exact holds.headers c alive'

/-- The block becomes a free chunk with all that follows it up to a given
length, and its node stands in the list where `before` ends. -/
theorem rejoin (touches : after S.heap b.start = p) {head' : Nat} (freelist : S'.freelist =
    some head') (here : (S'.heap b.start).len = heap_offset ((S.heap b.start).len + (S.heap p).len))
    (lens : ∀ node, node ≠ b.start -> (S'.heap node).len = (S.heap node).len)
    (blocks : ∀ c ∈ live.erase b, S'.heap c.start = S.heap c.start)
    (linked : LinkedTo S'.heap head' (before ++ b.start :: rest) listEnd) :
    Holds S' head' (before ++ b.start :: rest) (live.erase b) := by
  have partition := holds.partition_join_back alive touches
  have bound : alloc_size b.len + (S.heap p).len < 2 ^ 16 := by
    have within := (partition.within _ mem_cons_self).2
    simp only [listEnd] at within
    omega
  rw [holds.len_block alive, heap_offset, mod_eq_of_lt bound] at here
  refine ⟨freelist, linked, ?_, fun c other => ?_⟩
  · rw [partition_middle, nodeChunk, here, map_congr S.heap]
    · exact partition
    · intro node other
      have mem : node ∈ before ++ p :: rest := mem_append.mpr
        ((mem_append.mp other).imp_right (mem_cons_of_mem p))
      exact lens node (holds.ne_start mem alive).symm
  · rw [blocks c other]
    exact holds.headers c (holds.other_block alive other).1

end

/-- The block takes the list's first chunk in, which starts where it ends. -/
theorem join_head (holds : Holds S head (p :: rest) live) (alive : b ∈ live)
    (touches : after S.heap b.start = p) (apart : after S.heap p ≠ b.start) :
    Holds (mergeChunk S b.start p none) b.start (b.start :: rest) (live.erase b) := by
  have ne : p ≠ b.start := (holds.ne_start mem_cons_self alive).symm
  let S₁ := S.setLen b.start (heap_offset ((S.heap b.start).len + (S.heap p).len))
  have merged : mergeChunk S b.start p none =
      { S₁.setNext b.start (S₁.heap p).next_node with freelist := some b.start } := if_neg apart
  rw [merged]
  apply (show Holds S head ([] ++ p :: rest) live from holds).rejoin alive touches rfl
  · exact (State.setNext_len ..).trans (State.setLen_len ..)
  · intro node other
    exact (State.setNext_len ..).trans (congrArg HeapNode.len (State.setLen_other _ _ other))
  · intro c other
    have other' := (holds.other_block alive other).2
    exact (State.setNext_other _ _ other').trans (State.setLen_other _ _ other')
  · refine ⟨rfl, holds.block_lt alive, ?_⟩
    show LinkedTo (S₁.setNext b.start (S₁.heap p).next_node).heap _ rest listEnd
    rw [State.setNext_next, State.setLen_next]
    refine holds.linked.2.2.congr fun node mem => ?_
    have other := (holds.ne_start (mem_cons_of_mem p mem) alive).symm
    rw [State.setNext_other _ _ other, State.setLen_next]

/-- The block takes a later chunk in.  Its own link stays as it is. -/
theorem join_inner (holds : Holds S head (before ++ p :: rest) live) (alive : b ∈ live)
    (touches : after S.heap b.start = p) (apart : after S.heap p ≠ b.start) {last : Nat}
    (prev : before.getLast? = some last) (goesOn : (S.heap p).next_node = 0) :
    Holds (mergeChunk S b.start p (some last)) head (before ++ b.start :: rest) (live.erase b) := by
  let S₁ := S.setLen b.start (heap_offset ((S.heap b.start).len + (S.heap p).len))
  have merged : mergeChunk S b.start p (some last) = S₁.setNext last (heap_offset b.start) :=
    if_neg apart
  have bound : b.start < 2 ^ 16 := lt_trans (holds.block_lt alive) listEnd_lt
  rw [merged, heap_offset, mod_eq_of_lt bound]
  have lastMember : last ∈ before := mem_of_getLast? prev
  have lastNe : ∀ c ∈ live, c.start ≠ last := fun c =>
    holds.ne_start (mem_append_left _ lastMember)
  have nodup := (nodup_append.mp holds.starts).1
  rcases linkedTo_append.mp holds.linked with ⟨middle, front, -, -, back⟩
  have freelist : (S₁.setNext last b.start).freelist = some head := holds.freelist
  apply holds.rejoin alive touches freelist
  · exact (State.setNext_len ..).trans (State.setLen_len ..)
  · intro node other
    exact (State.setNext_len ..).trans (congrArg HeapNode.len (State.setLen_other _ _ other))
  · intro c other
    rcases holds.other_block alive other with ⟨alive', other'⟩
    exact (State.setNext_other _ _ (lastNe c alive')).trans (State.setLen_other _ _ other')
  · apply front.relink (nodup_append.mp nodup).1 prev
    · exact State.setNext_next ..
    · intro node mem other
      rw [State.setNext_other _ _ other, State.setLen_next]
    · refine ⟨rfl, holds.block_lt alive, ?_⟩
      rw [State.setNext_other _ _ (lastNe b alive), State.setLen_next, holds.headers b alive]
      rw [goesOn] at back
      refine back.congr fun node mem => ?_
      have other : node ≠ last := fun equal => (nodup_append.mp nodup).2.2 last lastMember
        node (mem_cons_of_mem p mem) equal.symm
      rw [State.setNext_other _ _ other, State.setLen_next]

/-- The block becomes the list's first chunk. -/
theorem push (holds : Holds S head free live) (alive : b ∈ live) :
    Holds { S.setNext b.start (heap_offset head) with freelist := some b.start } b.start
      (b.start :: free) (live.erase b) := by
  have bound : head < 2 ^ 16 := lt_of_le_of_lt holds.linked.le_listEnd listEnd_lt
  rw [heap_offset, mod_eq_of_lt bound]
  refine ⟨rfl, ⟨rfl, holds.block_lt alive, ?_⟩, ?_, fun c other => ?_⟩
  · show LinkedTo (S.setNext b.start head).heap _ free listEnd
    rw [State.setNext_next]
    refine holds.linked.congr fun node mem => ?_
    rw [State.setNext_other _ _ (holds.ne_start mem alive).symm]
  · show Partition listEnd ((b.start :: free).map (nodeChunk (S.setNext b.start head).heap) ++ _)
    have here : nodeChunk (S.setNext b.start head).heap b.start = b.chunk :=
      congrArg (Chunk.mk b.start) ((State.setNext_len ..).trans (holds.len_block alive))
    rw [map_cons, here, map_congr _ fun node _ => State.setNext_len ..]
    exact (holds.partition_block alive).perm perm_middle
  · rcases holds.other_block alive other with ⟨alive', other'⟩
    exact (State.setNext_other _ _ other').trans (holds.headers c alive')

end Holds

end FallbackMalloc
end LlvmProject
