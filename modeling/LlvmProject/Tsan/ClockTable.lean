import Mathlib.Data.List.Nodup
import Mathlib.Algebra.Order.Ring.Nat

namespace LlvmProject

open Option Function Nat List

namespace Tsan

/-!
# Storage of synchronization clocks

`SyncClock` is a growable vector clock.  Up to `kClockCount` elements live in
one block; a larger clock uses a first-level table whose entries point to
blocks.  Growing within an allocated block only moves `size_`, so the unused
part of the last block has to be zero at all times.

The model keeps the two shapes and the growth code of the source.  Blocks
are owned by the clock that allocated them: an entry of the first level is
either absent or a block, and a fresh block is cleared.  `clk` reads a clock
as an infinite vector whose missing tail is zero; every lemma below states
what an operation does to that vector.
-/

/-- Width of the timestamp bit-field of a clock element. -/
def kClkBits : Nat := 42

def kTidBits : Nat := 13

def kMaxTid : Nat := 2 ^ kTidBits

/-- Includes the bit that marks freed memory. -/
def kMaxTidInClock : Nat := kMaxTid * 2

/-- `(unsigned)-1`. -/
def kInvalidTid : Nat := 2 ^ 32 - 1

/-- Number of clock elements in one 512-byte block. -/
def kClockCount : Nat := 64

/-- One 64-bit word split in two bit-fields.  The bounds are part of the
type, so a stored epoch can never exceed its field. -/
@[ext] structure ClockElem where
  epoch : Nat
  reused : Nat
  epoch_lt : epoch < 2 ^ kClkBits
  reused_lt : reused < 2 ^ (64 - kClkBits)
deriving DecidableEq

namespace ClockElem

instance : Zero ClockElem := ⟨⟨0, 0, Nat.two_pow_pos _, Nat.two_pow_pos _⟩⟩

@[simp] theorem epoch_zero : (0 : ClockElem).epoch = 0 := rfl

@[simp] theorem reused_zero : (0 : ClockElem).reused = 0 := rfl

/-- Assignment to the `epoch` bit-field keeps the low bits. -/
def setEpoch (element : ClockElem) (value : Nat) : ClockElem :=
  { element with
    epoch := value % 2 ^ kClkBits
    epoch_lt := mod_lt _ (Nat.two_pow_pos _) }

/-- Assignment to the `reused` bit-field keeps the low bits. -/
def setReused (element : ClockElem) (value : Nat) : ClockElem :=
  { element with
    reused := value % 2 ^ (64 - kClkBits)
    reused_lt := mod_lt _ (Nat.two_pow_pos _) }

section

variable (element : ClockElem)

@[simp] theorem epoch_setEpoch (value : Nat) :
    (element.setEpoch value).epoch = value % 2 ^ kClkBits := rfl

@[simp] theorem reused_setEpoch (value : Nat) :
    (element.setEpoch value).reused = element.reused := rfl

@[simp] theorem epoch_setReused (value : Nat) :
    (element.setReused value).epoch = element.epoch := rfl

@[simp] theorem reused_setReused (value : Nat) :
    (element.setReused value).reused = value % 2 ^ (64 - kClkBits) := rfl

end

end ClockElem

/-- The elements of one block, by index below `kClockCount`. -/
abbrev ClockBlock := Nat -> ClockElem

/-- A block after `internal_memset`. -/
def ClockBlock.cleared : ClockBlock := fun _ => 0

/-- What `tab_` points to: nothing, one block of elements, or a first-level
table of blocks. -/
inductive ClockTab where
  | null
  | clock (block : ClockBlock)
  | table (entry : Nat -> Option ClockBlock)

/-- Number of dirty slots of a synchronization clock. -/
def kDirtyTids : Nat := 2

structure SyncClock where
  release_store_tid_ : Nat
  release_store_reused_ : Nat
  dirty_tids_ : Fin kDirtyTids -> Nat
  tab_ : ClockTab
  size_ : Nat

namespace SyncClock

/-- The constructor. -/
def new : SyncClock where
  release_store_tid_ := kInvalidTid
  release_store_reused_ := 0
  dirty_tids_ := fun _ => kInvalidTid
  tab_ := .null
  size_ := 0

/-- `Reset` frees all blocks and returns to the constructed state. -/
def Reset (_clock : SyncClock) : SyncClock where
  tab_ := .null
  size_ := 0
  release_store_tid_ := kInvalidTid
  release_store_reused_ := 0
  dirty_tids_ := fun _ => kInvalidTid

/-- The element stored for `tid`, through one or two levels by `size_`. -/
def elem (clock : SyncClock) (tid : Nat) : ClockElem :=
  if clock.size_ <= kClockCount then
    match clock.tab_ with
    | .clock block => block tid
    | _ => 0
  else
    match clock.tab_ with
    | .table entry => (entry (tid / kClockCount)).getD ClockBlock.cleared (tid % kClockCount)
    | _ => 0

/-- Write through the reference that `elem` returns. -/
def setElem (clock : SyncClock) (tid : Nat) (value : ClockElem) : SyncClock :=
  { clock with
    tab_ :=
      if clock.size_ <= kClockCount then
        match clock.tab_ with
        | .clock block => .clock (update block tid value)
        | other => other
      else
        match clock.tab_ with
        | .table entry =>
          .table (update entry (tid / kClockCount)
            (some (update ((entry (tid / kClockCount)).getD ClockBlock.cleared)
              (tid % kClockCount) value)))
        | other => other }

/-- `RoundUpTo(n, kClockCount) / kClockCount`. -/
def blocks (n : Nat) : Nat := (n + (kClockCount - 1)) / kClockCount

/-- The allocation loop of `Resize`: install cleared second-level blocks. -/
def addBlocks (entry : Nat -> Option ClockBlock) (start stop : Nat) : Nat -> Option ClockBlock :=
  (range' start (stop - start)).foldl
    (fun table k => update table k (some ClockBlock.cleared)) entry

/-- The first-level table that `Resize` works on: a fresh one, one holding
the former single block, or the existing one. -/
def firstLevel (clock : SyncClock) : Nat -> Option ClockBlock :=
  if clock.size_ = 0 then fun _ => none
  else if clock.size_ <= kClockCount then
    match clock.tab_ with
    | .clock block => update (fun _ => none) 0 (some block)
    | _ => fun _ => none
  else
    match clock.tab_ with
    | .table entry => entry
    | _ => fun _ => none

def Resize (clock : SyncClock) (nclk : Nat) : SyncClock :=
  if blocks nclk <= blocks clock.size_ then
    -- Growing within the same block: the memory is already there.
    { clock with size_ := nclk }
  else if nclk <= kClockCount then
    { clock with size_ := nclk, tab_ := .clock ClockBlock.cleared }
  else
    { clock with
      size_ := nclk
      tab_ := .table (addBlocks clock.firstLevel (blocks clock.size_) (blocks nclk)) }

/-- The clock as a vector over all thread indices. -/
def clk (clock : SyncClock) (tid : Nat) : ClockElem :=
  if tid < clock.size_ then clock.elem tid else 0

/-! ## The storage invariant -/

/-- The contents of the storage position of `tid`, used or not. -/
def slot (clock : SyncClock) (tid : Nat) : ClockElem :=
  match clock.tab_ with
  | .null => 0
  | .clock block => block tid
  | .table entry => (entry (tid / kClockCount)).getD ClockBlock.cleared (tid % kClockCount)

/-- The table shape agrees with the size. -/
def Shape (size : Nat) : ClockTab -> Prop
  | .null => size = 0
  | .clock _ => 0 < size ∧ size <= kClockCount
  | .table entry => kClockCount < size ∧ ∀ k, (entry k).isSome = true ↔ k < blocks size

/-- Shape of the table, and zeroes beyond the current size. -/
structure WellFormed (clock : SyncClock) : Prop where
  shape : Shape clock.size_ clock.tab_
  fresh : ∀ tid, clock.size_ <= tid -> clock.slot tid = 0

theorem wellFormed_new : WellFormed new := ⟨rfl, fun _ _ => rfl⟩

theorem wellFormed_Reset (clock : SyncClock) : WellFormed clock.Reset := ⟨rfl, fun _ _ => rfl⟩

variable {clock : SyncClock}

theorem WellFormed.elem_eq_slot (wf : clock.WellFormed) (tid : Nat) :
    clock.elem tid = clock.slot tid := by
  have shape := wf.shape
  cases selected : clock.tab_ with
  | null =>
    rw [selected] at shape
    have small : clock.size_ <= kClockCount := by
      rw [show clock.size_ = 0 from shape]
      exact zero_le _
    simp only [elem, slot, selected, if_pos small]
  | clock block =>
    rw [selected] at shape
    simp only [elem, slot, selected, if_pos shape.2]
  | table entry =>
    rw [selected] at shape
    simp only [elem, slot, selected, if_neg (Nat.not_le_of_lt shape.1)]

theorem WellFormed.clk_eq_slot (wf : clock.WellFormed) : clock.clk = clock.slot := by
  funext tid
  by_cases used : tid < clock.size_
  · rw [clk, if_pos used, wf.elem_eq_slot]
  · rw [clk, if_neg used, wf.fresh tid (Nat.le_of_not_lt used)]

variable {tid : Nat}

theorem clk_of_size_le (clock : SyncClock) (unused : clock.size_ <= tid) :
    clock.clk tid = 0 := if_neg (Nat.not_lt_of_le unused)

theorem elem_eq_clk (clock : SyncClock) (used : tid < clock.size_) :
    clock.elem tid = clock.clk tid := (if_pos used).symm

@[simp] theorem clk_new : new.clk = fun _ => 0 := rfl

@[simp] theorem clk_Reset (clock : SyncClock) : clock.Reset.clk = fun _ => 0 := rfl

theorem clk_congr (left right : SyncClock) (table : left.tab_ = right.tab_)
    (size : left.size_ = right.size_) : left.clk = right.clk := by
  funext tid
  simp only [clk, elem, table, size]

theorem WellFormed.congr {left right : SyncClock} (wf : left.WellFormed)
    (table : left.tab_ = right.tab_) (size : left.size_ = right.size_) : right.WellFormed where
  shape := table ▸ size ▸ wf.shape
  fresh := by
    intro tid unused
    have old := wf.fresh tid (size ▸ unused)
    simpa only [slot, table] using old

/-! ## Writing one element -/

section

variable (clock : SyncClock)

@[simp] theorem size_setElem (tid : Nat) (value : ClockElem) :
    (clock.setElem tid value).size_ = clock.size_ := rfl

@[simp] theorem dirty_tids_setElem (tid : Nat) (value : ClockElem) :
    (clock.setElem tid value).dirty_tids_ = clock.dirty_tids_ := rfl

@[simp] theorem release_store_tid_setElem (tid : Nat) (value : ClockElem) :
    (clock.setElem tid value).release_store_tid_ = clock.release_store_tid_ := rfl

@[simp] theorem release_store_reused_setElem (tid : Nat) (value : ClockElem) :
    (clock.setElem tid value).release_store_reused_ = clock.release_store_reused_ := rfl

end

private theorem slot_table_update (entry : Nat -> Option ClockBlock) (tid other : Nat)
    (value : ClockElem) :
    (update entry (tid / kClockCount)
        (some (update ((entry (tid / kClockCount)).getD ClockBlock.cleared)
          (tid % kClockCount) value)) (other / kClockCount)).getD ClockBlock.cleared
        (other % kClockCount) =
      update
        (fun i => (entry (i / kClockCount)).getD ClockBlock.cleared (i % kClockCount))
        tid value other := by
  by_cases same : other = tid
  · subst same
    simp only [update_self, getD_some]
  · rw [update_of_ne same]
    by_cases sameBlock : other / kClockCount = tid / kClockCount
    · have differentOffset : other % kClockCount ≠ tid % kClockCount := by
        intro sameOffset
        apply same
        rw [<- div_add_mod other kClockCount, <- div_add_mod tid kClockCount, sameBlock, sameOffset]
      rw [sameBlock, update_self, getD_some, update_of_ne differentOffset]
    · rw [update_of_ne sameBlock]

theorem WellFormed.slot_setElem (wf : clock.WellFormed)
    (used : tid < clock.size_) (value : ClockElem) :
    (clock.setElem tid value).slot = update clock.slot tid value := by
  have shape := wf.shape
  funext other
  cases selected : clock.tab_ with
  | null =>
    rw [selected] at shape
    rw [show clock.size_ = 0 from shape] at used
    exact absurd used (Nat.not_lt_zero tid)
  | clock block =>
    rw [selected] at shape
    have pointwise : clock.slot = block := by
      funext i
      simp only [slot, selected]
    rw [pointwise]
    simp only [slot, setElem, selected, if_pos shape.2]
  | table entry =>
    rw [selected] at shape
    have pointwise : clock.slot = fun i =>
        (entry (i / kClockCount)).getD ClockBlock.cleared (i % kClockCount) := by
      funext i
      simp only [slot, selected]
    rw [pointwise, <- slot_table_update]
    simp only [slot, setElem, selected, if_neg (Nat.not_le_of_lt shape.1)]

private theorem lt_blocks_iff (k n : Nat) : k < blocks n ↔ k * kClockCount < n := by
  simp only [blocks, kClockCount]
  omega

theorem WellFormed.setElem (wf : clock.WellFormed)
    (used : tid < clock.size_) (value : ClockElem) : (clock.setElem tid value).WellFormed where
  shape := by
    have shape := wf.shape
    cases selected : clock.tab_ with
    | null =>
      rw [selected] at shape
      simpa only [Shape, SyncClock.setElem, selected, ite_self] using shape
    | clock block =>
      rw [selected] at shape
      simpa only [Shape, SyncClock.setElem, selected, if_pos shape.2] using shape
    | table entry =>
      rw [selected] at shape
      simp only [Shape, SyncClock.setElem, selected, if_neg (Nat.not_le_of_lt shape.1)]
      refine ⟨shape.1, fun k => ?_⟩
      by_cases same : k = tid / kClockCount
      · subst same
        have allocated : tid / kClockCount < blocks clock.size_ := by
          rw [lt_blocks_iff]
          exact lt_of_le_of_lt (div_mul_le_self tid kClockCount) used
        simp only [update_self, isSome_some, allocated]
      · rw [update_of_ne same]
        exact shape.2 k
  fresh := by
    intro other unused
    rw [wf.slot_setElem used]
    have ne : other ≠ tid := ne_of_gt (lt_of_lt_of_le used unused)
    rw [update_of_ne ne]
    exact wf.fresh other unused

theorem WellFormed.clk_setElem (wf : clock.WellFormed)
    (used : tid < clock.size_) (value : ClockElem) :
    (clock.setElem tid value).clk = update clock.clk tid value := by
  rw [(wf.setElem used value).clk_eq_slot, wf.clk_eq_slot, wf.slot_setElem used]

/-! ## Loops over elements -/

/-- A `for` loop that rewrites the listed elements one after the other. -/
def modifyElems (clock : SyncClock) (tids : List Nat) (change : Nat -> ClockElem -> ClockElem) :
    SyncClock :=
  tids.foldl (fun cur tid => cur.setElem tid (change tid (cur.elem tid))) clock

/-- The loop keeps everything but the elements it visits, and rewrites each
of these exactly once. -/
theorem WellFormed.modifyElems (wf : clock.WellFormed) (tids : List Nat) (used : ∀ tid ∈ tids, tid <
    clock.size_) (nodup : tids.Nodup) (change : Nat -> ClockElem -> ClockElem) :
    (clock.modifyElems tids change).WellFormed ∧
    (clock.modifyElems tids change).clk =
      (fun tid => if tid ∈ tids then change tid (clock.clk tid) else clock.clk tid) ∧
    (clock.modifyElems tids change).size_ = clock.size_ ∧
    (clock.modifyElems tids change).dirty_tids_ = clock.dirty_tids_ ∧
    (clock.modifyElems tids change).release_store_tid_ = clock.release_store_tid_ ∧
    (clock.modifyElems tids change).release_store_reused_ = clock.release_store_reused_ := by
  induction tids generalizing clock with
  | nil =>
    refine ⟨wf, ?_, rfl, rfl, rfl, rfl⟩
    funext tid
    rw [if_neg not_mem_nil]
    rfl
  | cons head tail ih =>
    have headUsed := used head mem_cons_self
    have parts := nodup_cons.mp nodup
    have changed := wf.setElem headUsed (change head (clock.elem head))
    have rest := ih changed
      (fun tid mem => used tid (mem_cons_of_mem head mem)) parts.2
    refine ⟨rest.1, rest.2.1.trans ?_, rest.2.2⟩
    funext tid
    rw [wf.clk_setElem headUsed, clock.elem_eq_clk headUsed]
    by_cases same : tid = head
    · subst same
      simp only [parts.1, if_false, update_self, mem_cons, true_or, if_true]
    · simp only [update_of_ne same, mem_cons, same, false_or]

/-! ## Growing -/

private theorem addBlocks_apply (entry : Nat -> Option ClockBlock) (start stop k : Nat) :
    addBlocks entry start stop k =
      if start <= k ∧ k < stop then some ClockBlock.cleared else entry k := by
  have general : ∀ (count start : Nat) (table : Nat -> Option ClockBlock),
      (range' start count).foldl
        (fun table k => update table k (some ClockBlock.cleared)) table k =
      if start <= k ∧ k < start + count then some ClockBlock.cleared else table k := by
    intro count
    induction count with
    | zero =>
      intro start table
      rw [if_neg (by omega)]
      rfl
    | succ count ih =>
      intro start table
      rw [range'_succ, foldl_cons, ih]
      by_cases same : k = start
      · subst same
        rw [if_neg (by omega), if_pos (by omega), update_self]
      · rw [update_of_ne same]
        by_cases inside : start + 1 <= k ∧ k < start + 1 + count
        · rw [if_pos inside, if_pos (by omega)]
        · rw [if_neg inside, if_neg (by omega)]
  rw [addBlocks, general]
  by_cases ordered : start <= stop
  · rw [Nat.add_sub_cancel' ordered]
  · rw [if_neg (by omega), if_neg (by omega)]

section

variable (clock : SyncClock)

@[simp] theorem size_Resize (nclk : Nat) : (clock.Resize nclk).size_ = nclk := by
  unfold Resize
  split_ifs <;> rfl

@[simp] theorem dirty_tids_Resize (nclk : Nat) :
    (clock.Resize nclk).dirty_tids_ = clock.dirty_tids_ := by
  unfold Resize
  split_ifs <;> rfl

@[simp] theorem release_store_tid_Resize (nclk : Nat) :
    (clock.Resize nclk).release_store_tid_ = clock.release_store_tid_ := by
  unfold Resize
  split_ifs <;> rfl

@[simp] theorem release_store_reused_Resize (nclk : Nat) :
    (clock.Resize nclk).release_store_reused_ = clock.release_store_reused_ := by
  unfold Resize
  split_ifs <;> rfl

end

section

variable (wf : clock.WellFormed)
include wf

/-- The first-level table holds exactly the blocks in use, with the contents
the clock had before. -/
private theorem WellFormed.firstLevel_spec :
    (∀ k, (clock.firstLevel k).isSome = true ↔ k < blocks clock.size_) ∧
    ∀ tid, (clock.firstLevel (tid / kClockCount)).getD ClockBlock.cleared (tid % kClockCount) =
      clock.slot tid := by
  have shape := wf.shape
  cases selected : clock.tab_ with
  | null =>
    rw [selected] at shape
    have empty : clock.size_ = 0 := shape
    constructor
    · intro k
      simp [firstLevel, empty, blocks, kClockCount]
    · intro tid
      simp only [firstLevel, if_pos empty, slot, selected, getD_none, ClockBlock.cleared]
  | clock block =>
    rw [selected] at shape
    have nonempty : clock.size_ ≠ 0 := ne_of_gt shape.1
    have oneBlock : blocks clock.size_ = 1 := by
      have small := shape.2
      simp only [blocks, kClockCount] at small ⊢
      omega
    simp only [firstLevel, if_neg nonempty, if_pos shape.2, selected, oneBlock]
    constructor
    · intro k
      by_cases first : k = 0
      · subst first
        simp
      · simp [first]
    · intro tid
      simp only [slot, selected]
      by_cases first : tid / kClockCount = 0
      · have small : tid < kClockCount := (div_eq_zero_iff_lt (by decide)).mp first
        rw [first, update_self, getD_some, mod_eq_of_lt small]
      · have large : kClockCount <= tid := by
          by_contra small
          exact first (div_eq_of_lt (Nat.lt_of_not_le small))
        have unused := wf.fresh tid (le_trans shape.2 large)
        simp only [slot, selected] at unused
        rw [update_of_ne first, unused]
        rfl
  | table entry =>
    rw [selected] at shape
    have large : ¬ clock.size_ <= kClockCount := Nat.not_le_of_lt shape.1
    have nonempty : clock.size_ ≠ 0 := by
      intro empty
      exact large (empty ▸ zero_le _)
    simp only [firstLevel, if_neg nonempty, if_neg large, selected, slot]
    exact ⟨shape.2, fun _ => trivial⟩

theorem WellFormed.slot_Resize (nclk : Nat) : (clock.Resize nclk).slot = clock.slot := by
  funext tid
  unfold Resize
  by_cases sameBlock : blocks nclk <= blocks clock.size_
  · rw [if_pos sameBlock]
    rfl
  · rw [if_neg sameBlock]
    by_cases small : nclk <= kClockCount
    · have empty : clock.size_ <= tid := by
        simp only [blocks, kClockCount] at sameBlock small
        omega
      rw [if_pos small, wf.fresh tid empty]
      rfl
    · rw [if_neg small]
      have firstLevel := wf.firstLevel_spec
      have old := firstLevel.2 tid
      simp only [slot, addBlocks_apply]
      by_cases added : blocks clock.size_ <= tid / kClockCount ∧ tid / kClockCount < blocks nclk
      · have absent : clock.firstLevel (tid / kClockCount) = none := by
          rw [<- not_isSome_iff_eq_none, firstLevel.1]
          exact Nat.not_lt_of_le added.1
        rw [absent] at old
        rw [if_pos added]
        exact old
      · rw [if_neg added]
        exact old

theorem WellFormed.Resize {nclk : Nat}
    (grows : clock.size_ <= nclk) (nonempty : 0 < nclk) : (clock.Resize nclk).WellFormed where
  shape := by
    have shape := wf.shape
    unfold SyncClock.Resize
    by_cases sameBlock : blocks nclk <= blocks clock.size_
    · rw [if_pos sameBlock]
      have equal : blocks nclk = blocks clock.size_ := by
        simp only [blocks, kClockCount] at sameBlock ⊢
        omega
      cases selected : clock.tab_ with
      | null =>
        rw [selected] at shape
        rw [show clock.size_ = 0 from shape] at equal
        simp only [blocks, kClockCount] at equal
        omega
      | clock block =>
        rw [selected] at shape
        have small := shape.2
        simp only [blocks, kClockCount] at equal small
        simp only [Shape, kClockCount]
        omega
      | table entry =>
        rw [selected] at shape
        simp only [Shape, equal]
        exact ⟨lt_of_lt_of_le shape.1 grows, shape.2⟩
    · rw [if_neg sameBlock]
      by_cases small : nclk <= kClockCount
      · rw [if_pos small]
        exact ⟨nonempty, small⟩
      · rw [if_neg small]
        refine ⟨Nat.lt_of_not_le small, fun k => ?_⟩
        simp only [addBlocks_apply]
        by_cases added : blocks clock.size_ <= k ∧ k < blocks nclk
        · simp only [added, and_self, if_true, isSome_some]
        · rw [if_neg added, wf.firstLevel_spec.1]
          omega
  fresh := by
    intro tid unused
    rw [wf.slot_Resize]
    rw [size_Resize] at unused
    exact wf.fresh tid (le_trans grows unused)

/-- Growing does not change the vector. -/
theorem WellFormed.clk_Resize {nclk : Nat}
    (grows : clock.size_ <= nclk) (nonempty : 0 < nclk) : (clock.Resize nclk).clk = clock.clk := by
  rw [(wf.Resize grows nonempty).clk_eq_slot, wf.slot_Resize, wf.clk_eq_slot]

end

end SyncClock
end Tsan
end LlvmProject
