import LlvmProject.Tsan.ClockTable
import Mathlib.Data.List.FinRange

namespace LlvmProject

open List Function Nat

namespace Tsan

/-!
# Thread clocks and their operations on synchronization clocks

The definitions follow the source function by function, including the
constant-time paths: the `acquired` flag kept in the `reused` field of a
clock element, the two dirty slots, `last_acquire_`, and the release-store
owner.  A function that the source declares `const` on a thread clock
returns only the changed synchronization clock.

Each operation comes with one lemma about the epochs it leaves behind.  The
lemmas are local: what must hold of a clock for a constant-time path to be
right is a hypothesis here, and is discharged from the invariant of whole
runs in the next module.
-/

structure ThreadClock where
  tid_ : Nat
  reused_ : Nat
  last_acquire_ : Nat
  nclk_ : Nat
  clk_ : Nat -> ClockElem

/-- The epochs of a synchronization clock; the missing tail reads as zero. -/
def SyncClock.epochs (clock : SyncClock) (tid : Nat) : Nat := (clock.clk tid).epoch

/-- The tids held by the dirty slots, in slot order. -/
def SyncClock.dirtyTids (clock : SyncClock) : List Nat :=
  ((finRange kDirtyTids).map clock.dirty_tids_).filter fun tid => tid ≠ kInvalidTid

namespace ThreadClock

/-- The epochs of a thread clock. -/
def epochs (thread : ThreadClock) (tid : Nat) : Nat := (thread.clk_ tid).epoch

/-- The fields the constructor sets.  The stored counter is one above the
argument, because zero means "not acquired" in a synchronization clock. -/
def init (tid reused : Nat) : ThreadClock where
  tid_ := tid
  reused_ := reused + 1
  last_acquire_ := 0
  nclk_ := tid + 1
  clk_ := Function.update (fun _ => 0) tid ((0 : ClockElem).setReused (reused + 1))

/-- The constructor with its two checks. -/
def new (tid reused : Nat) : Option ThreadClock :=
  if tid < kMaxTidInClock ∧
      (reused + 1) * 2 ^ kClkBits % 2 ^ 64 / 2 ^ kClkBits = reused + 1 then
    some (init tid reused)
  else none

/-- `set(v)`: overwrite the own epoch. -/
def set (thread : ThreadClock) (value : Nat) : ThreadClock :=
  { thread with
    clk_ := Function.update thread.clk_ thread.tid_
      ((thread.clk_ thread.tid_).setEpoch value) }

/-- `clk_[tid_].epoch++` on the bit-field. -/
def tick (thread : ThreadClock) : ThreadClock := thread.set ((thread.clk_ thread.tid_).epoch + 1)

/-- One step of the acquire loops: raise the element if `src` is ahead, and
remember whether anything was raised. -/
def acquireElem (src : SyncClock) (state : (Nat -> ClockElem) × Bool) (tid : Nat) :
    (Nat -> ClockElem) × Bool :=
  let epoch := (src.elem tid).epoch
  if (state.1 tid).epoch < epoch then
    (Function.update state.1 tid ((state.1 tid).setEpoch epoch), true)
  else state

def acquireElems (thread : ThreadClock) (src : SyncClock) (tids : List Nat) :
    (Nat -> ClockElem) × Bool :=
  tids.foldl (acquireElem src) (thread.clk_, false)

/-- The common end of both acquire paths. -/
def finishAcquire (thread : ThreadClock) (nclk : Nat) (found : (Nat -> ClockElem) × Bool) :
    ThreadClock :=
  { thread with
    nclk_ := nclk
    clk_ := found.1
    last_acquire_ := if found.2 then (found.1 thread.tid_).epoch else thread.last_acquire_ }

def acquire (thread : ThreadClock) (src : SyncClock) : ThreadClock × SyncClock :=
  if src.size_ = 0 then (thread, src)
  else if thread.tid_ < src.size_ ∧ (src.elem thread.tid_).reused = thread.reused_ then
    -- Already acquired after the last release: only the dirty slots matter.
    (thread.finishAcquire thread.nclk_ (thread.acquireElems src src.dirtyTids), src)
  else
    (thread.finishAcquire (max thread.nclk_ src.size_)
        (thread.acquireElems src (range src.size_)),
      if thread.tid_ < src.size_ then
        src.setElem thread.tid_ ((src.elem thread.tid_).setReused thread.reused_)
      else src)

/-- The dirty slot that the own tid occupies or may occupy. -/
def ownSlot (thread : ThreadClock) (dst : SyncClock) : Option (Fin kDirtyTids) :=
  (finRange kDirtyTids).find? fun slot =>
    dst.dirty_tids_ slot = thread.tid_ ∨ dst.dirty_tids_ slot = kInvalidTid

/-- `dst->elem(tid_).epoch = clk_[tid_].epoch`, keeping the flag. -/
def publish (thread : ThreadClock) (dst : SyncClock) : SyncClock :=
  dst.setElem thread.tid_ ((dst.elem thread.tid_).setEpoch (thread.clk_ thread.tid_).epoch)

def UpdateCurrentThread (thread : ThreadClock) (dst : SyncClock) : SyncClock :=
  let dst := thread.publish dst
  match thread.ownSlot dst with
  | some slot =>
    { dst with dirty_tids_ := Function.update dst.dirty_tids_ slot thread.tid_ }
  | none =>
    { dst.modifyElems (range dst.size_) (fun _ element => element.setReused 0) with
      dirty_tids_ := fun _ => kInvalidTid }

/-- Has the thread acquired everything in `src`? -/
def IsAlreadyAcquired (thread : ThreadClock) (src : SyncClock) : Bool :=
  if (src.elem thread.tid_).reused ≠ thread.reused_ then false
  else src.dirtyTids.all fun tid => decide (¬ (thread.clk_ tid).epoch < (src.elem tid).epoch)

/-- `dst->Resize(c, nclk_)` when the thread clock is longer. -/
def grow (thread : ThreadClock) (dst : SyncClock) : SyncClock :=
  if dst.size_ < thread.nclk_ then dst.Resize thread.nclk_ else dst

/-- Record a release-store by this thread after its elements were written. -/
def storeElems (thread : ThreadClock) (dst : SyncClock) : SyncClock :=
  let dst := dst.modifyElems (range thread.nclk_)
    fun tid element => (element.setEpoch (thread.clk_ tid).epoch).setReused 0
  let dst := dst.modifyElems (range' thread.nclk_ (dst.size_ - thread.nclk_))
    fun _ element => (element.setEpoch 0).setReused 0
  let dst :=
    { dst with
      dirty_tids_ := fun _ => kInvalidTid
      release_store_tid_ := thread.tid_
      release_store_reused_ := thread.reused_ }
  dst.setElem thread.tid_ ((dst.elem thread.tid_).setReused thread.reused_)

def ReleaseStore (thread : ThreadClock) (dst : SyncClock) : SyncClock :=
  let dst := thread.grow dst
  if dst.release_store_tid_ = thread.tid_ ∧ dst.release_store_reused_ = thread.reused_ ∧
      (dst.elem thread.tid_).epoch > thread.last_acquire_ then
    thread.UpdateCurrentThread dst
  else thread.storeElems dst

/-- The O(N) part of `release`. -/
def releaseElems (thread : ThreadClock) (dst : SyncClock) : SyncClock :=
  let acquired := thread.IsAlreadyAcquired dst
  let dst := dst.modifyElems (range thread.nclk_)
    fun tid element =>
      (element.setEpoch (max element.epoch (thread.clk_ tid).epoch)).setReused 0
  let dst := dst.modifyElems (range' thread.nclk_ (dst.size_ - thread.nclk_))
    fun _ element => element.setReused 0
  let dst :=
    { dst with
      dirty_tids_ := fun _ => kInvalidTid
      release_store_tid_ := kInvalidTid
      release_store_reused_ := 0 }
  if acquired then
    dst.setElem thread.tid_ ((dst.elem thread.tid_).setReused thread.reused_)
  else dst

def release (thread : ThreadClock) (dst : SyncClock) : SyncClock :=
  if dst.size_ = 0 then thread.ReleaseStore dst
  else
    let dst := thread.grow dst
    if (dst.elem thread.tid_).epoch > thread.last_acquire_ then
      let dst := thread.UpdateCurrentThread dst
      if dst.release_store_tid_ ≠ thread.tid_ ∨ dst.release_store_reused_ ≠ thread.reused_ then
        { dst with release_store_tid_ := kInvalidTid }
      else dst
    else thread.releaseElems dst

def acq_rel (thread : ThreadClock) (dst : SyncClock) : ThreadClock × SyncClock :=
  let acquired := thread.acquire dst
  (acquired.1, acquired.1.ReleaseStore acquired.2)

/-! ## Acquire loops -/

theorem mod_clk (element : ClockElem) : element.epoch % 2 ^ kClkBits = element.epoch :=
  mod_eq_of_lt element.epoch_lt

section

variable (src : SyncClock)

private theorem acquireElem_epoch (state : (Nat -> ClockElem) × Bool) (tid i : Nat) :
    ((acquireElem src state tid).1 i).epoch =
      if i = tid then max (state.1 i).epoch (src.elem i).epoch else (state.1 i).epoch := by
  unfold acquireElem
  by_cases same : i = tid
  · subst same
    by_cases ahead : (state.1 i).epoch < (src.elem i).epoch
    · simp only [if_pos ahead, update_self, if_true, ClockElem.epoch_setEpoch, mod_clk]
      exact (max_eq_right (le_of_lt ahead)).symm
    · simp only [if_neg ahead, if_true]
      exact (max_eq_left (Nat.le_of_not_lt ahead)).symm
  · by_cases ahead : (state.1 tid).epoch < (src.elem tid).epoch
    · simp only [if_pos ahead, update_of_ne same, if_neg same]
    · simp only [if_neg ahead, if_neg same]

private theorem acquireElem_raised (state : (Nat -> ClockElem) × Bool) (tid : Nat)
    (raised : state.2 = true) : (acquireElem src state tid).2 = true := by
  by_cases ahead : (state.1 tid).epoch < (src.elem tid).epoch
  · simp only [acquireElem, if_pos ahead]
  · simpa only [acquireElem, if_neg ahead] using raised

private theorem foldl_acquireElem_raised (tids : List Nat)
    (state : (Nat -> ClockElem) × Bool) (raised : state.2 = true) :
    (tids.foldl (acquireElem src) state).2 = true := by
  induction tids generalizing state with
  | nil => exact raised
  | cons head tail ih =>
    exact ih _ (acquireElem_raised src state head raised)

private theorem foldl_acquireElem_epoch (tids : List Nat)
    (state : (Nat -> ClockElem) × Bool) (i : Nat) :
    ((tids.foldl (acquireElem src) state).1 i).epoch =
      if i ∈ tids then max (state.1 i).epoch (src.elem i).epoch else (state.1 i).epoch := by
  induction tids generalizing state with
  | nil => simp only [foldl_nil, not_mem_nil, if_false]
  | cons head tail ih =>
    rw [foldl_cons, ih, acquireElem_epoch]
    by_cases same : i = head
    · simp only [same, if_true, mem_cons, true_or, max_assoc, max_self, ite_self]
    · simp only [same, if_false, mem_cons, false_or]

private theorem foldl_acquireElem_unraised (tids : List Nat) (state : (Nat -> ClockElem) × Bool)
    (unraised : (tids.foldl (acquireElem src) state).2 = false) :
    (tids.foldl (acquireElem src) state).1 = state.1 := by
  induction tids generalizing state with
  | nil => rfl
  | cons head tail ih =>
    rw [foldl_cons] at unraised ⊢
    by_cases ahead : (state.1 head).epoch < (src.elem head).epoch
    · have raised : (acquireElem src state head).2 = true := by
        simp only [acquireElem, if_pos ahead]
      rw [foldl_acquireElem_raised src tail _ raised] at unraised
      cases unraised
    · rw [ih _ unraised]
      simp only [acquireElem, if_neg ahead]

end

theorem acquireElems_epoch (thread : ThreadClock) (src : SyncClock) (tids : List Nat) (i : Nat) :
    ((thread.acquireElems src tids).1 i).epoch =
      if i ∈ tids then max (thread.epochs i) (src.elem i).epoch else thread.epochs i :=
  foldl_acquireElem_epoch src tids (thread.clk_, false) i

/-- When nothing was raised, the clock is unchanged. -/
theorem acquireElems_unraised (thread : ThreadClock) (src : SyncClock) (tids : List Nat)
    (unraised : (thread.acquireElems src tids).2 = false) :
    (thread.acquireElems src tids).1 = thread.clk_ :=
  foldl_acquireElem_unraised src tids (thread.clk_, false) unraised

/-- Either nothing was learnt, or `last_acquire_` is the own epoch. -/
theorem finishAcquire_last_acquire (thread : ThreadClock) (src : SyncClock) (nclk : Nat)
    (tids : List Nat) :
    ((thread.finishAcquire nclk (thread.acquireElems src tids)).epochs = thread.epochs ∧
      (thread.finishAcquire nclk (thread.acquireElems src tids)).last_acquire_ =
        thread.last_acquire_) ∨
    (thread.finishAcquire nclk (thread.acquireElems src tids)).last_acquire_ =
      (thread.finishAcquire nclk (thread.acquireElems src tids)).epochs thread.tid_ := by
  cases raised : (thread.acquireElems src tids).2 with
  | false =>
    refine .inl ⟨?_, ?_⟩
    · funext i
      simp only [epochs, finishAcquire, acquireElems_unraised thread src tids raised]
    · simp only [finishAcquire, raised, Bool.false_eq_true, if_false]
  | true =>
    refine .inr ?_
    simp only [epochs, finishAcquire, raised, if_true]

/-! ## Updating only the own element -/

/-- The effect of `UpdateCurrentThread`.  The own epoch is published; then
either all flags stay and the own tid is in a dirty slot, or both slots were
taken and all flags are gone. -/
structure OwnUpdate (thread : ThreadClock) (dst result : SyncClock) : Prop where
  wellFormed : result.WellFormed
  size : result.size_ = dst.size_
  epochs : result.epochs = Function.update dst.epochs thread.tid_ (thread.epochs thread.tid_)
  store_tid : result.release_store_tid_ = dst.release_store_tid_
  store_reused : result.release_store_reused_ = dst.release_store_reused_
  flags : ((∀ i, (result.clk i).reused = (dst.clk i).reused) ∧
      ∃ slot, (dst.dirty_tids_ slot = thread.tid_ ∨ dst.dirty_tids_ slot = kInvalidTid) ∧
        result.dirty_tids_ = Function.update dst.dirty_tids_ slot thread.tid_) ∨
    ((∀ i, (result.clk i).reused = 0) ∧ result.dirty_tids_ = fun _ => kInvalidTid)

variable {dst : SyncClock}

private theorem epochs_setElem (wellFormed : dst.WellFormed) {tid : Nat}
    (used : tid < dst.size_) (value : ClockElem) :
    (dst.setElem tid value).epochs = Function.update dst.epochs tid value.epoch := by
  funext i
  rw [SyncClock.epochs, wellFormed.clk_setElem used]
  by_cases same : i = tid
  · subst same
    rw [update_self, update_self]
  · rw [update_of_ne same, update_of_ne same]
    rfl

private theorem publish_epochs (thread : ThreadClock)
    (wellFormed : dst.WellFormed) (used : thread.tid_ < dst.size_) :
    (thread.publish dst).epochs =
      Function.update dst.epochs thread.tid_ (thread.epochs thread.tid_) := by
  rw [publish, epochs_setElem wellFormed used, ClockElem.epoch_setEpoch, mod_clk]
  rfl

private theorem publish_reused (thread : ThreadClock)
    (wellFormed : dst.WellFormed) (used : thread.tid_ < dst.size_) (i : Nat) :
    ((thread.publish dst).clk i).reused = (dst.clk i).reused := by
  rw [publish, wellFormed.clk_setElem used]
  by_cases same : i = thread.tid_
  · subst same
    rw [update_self, ClockElem.reused_setEpoch, dst.elem_eq_clk used]
  · rw [update_of_ne same]

theorem UpdateCurrentThread_spec (thread : ThreadClock)
    (wellFormed : dst.WellFormed) (used : thread.tid_ < dst.size_) :
    OwnUpdate thread dst (thread.UpdateCurrentThread dst) := by
  have published : (thread.publish dst).WellFormed := wellFormed.setElem used _
  have epochs := publish_epochs thread wellFormed used
  have reused := publish_reused thread wellFormed used
  unfold UpdateCurrentThread
  cases found : thread.ownSlot (thread.publish dst) with
  | some slot =>
    have free : dst.dirty_tids_ slot = thread.tid_ ∨ dst.dirty_tids_ slot = kInvalidTid := by
      have selected := find?_some found
      exact of_decide_eq_true selected
    simp only [found]
    have clk : ∀ i, _ := fun i => congrFun (SyncClock.clk_congr
      { thread.publish dst with
        dirty_tids_ := Function.update (thread.publish dst).dirty_tids_ slot thread.tid_ }
      (thread.publish dst) rfl rfl) i
    exact {
      wellFormed := published.congr rfl rfl
      size := rfl
      epochs := (funext fun i => congrArg ClockElem.epoch (clk i)).trans epochs
      store_tid := rfl
      store_reused := rfl
      flags := .inl
        ⟨fun i => (congrArg ClockElem.reused (clk i)).trans (reused i), slot, free, rfl⟩ }
  | none =>
    simp only [found]
    have cleared := published.modifyElems (range (thread.publish dst).size_)
      (fun tid mem => mem_range.mp mem) nodup_range
      (fun _ element => element.setReused 0)
    have clk : ∀ i, _ := fun i => (congrFun (SyncClock.clk_congr
      { (thread.publish dst).modifyElems (range (thread.publish dst).size_)
          (fun _ element => element.setReused 0) with dirty_tids_ := fun _ => kInvalidTid }
      _ rfl rfl) i).trans (congrFun cleared.2.1 i)
    exact {
      wellFormed := cleared.1.congr rfl rfl
      size := cleared.2.2.1
      epochs := by
        rw [<- epochs]
        funext i
        refine (congrArg ClockElem.epoch (clk i)).trans ?_
        split_ifs <;> rfl
      store_tid := cleared.2.2.2.2.1
      store_reused := cleared.2.2.2.2.2
      flags := .inr ⟨fun i => by
        refine (congrArg ClockElem.reused (clk i)).trans ?_
        by_cases inside : i < (thread.publish dst).size_
        · rw [if_pos (mem_range.mpr inside)]
          rfl
        · rw [if_neg (fun mem => inside (mem_range.mp mem)),
            SyncClock.clk_of_size_le _ (Nat.le_of_not_lt inside)]
          rfl, rfl⟩ }

/-! ## Rewriting all elements -/

/-- The clock after both element loops of an O(N) release. -/
private theorem modify_two_ranges (wellFormed : dst.WellFormed) {nclk : Nat}
    (grown : nclk <= dst.size_) (head tail : Nat -> ClockElem -> ClockElem) :
    ∃ result : SyncClock,
      ((dst.modifyElems (range nclk) head).modifyElems
        (range' nclk ((dst.modifyElems (range nclk) head).size_ - nclk)) tail) = result ∧
      result.WellFormed ∧ result.size_ = dst.size_ ∧
      ∀ i, result.clk i =
        if i < nclk then head i (dst.clk i)
        else if i < dst.size_ then tail i (dst.clk i) else 0 := by
  have first := wellFormed.modifyElems (range nclk)
    (fun tid mem => lt_of_lt_of_le (mem_range.mp mem) grown)
    nodup_range head
  have second := first.1.modifyElems
    (range' nclk ((dst.modifyElems (range nclk) head).size_ - nclk))
    (fun tid mem => by
      rw [mem_range'_1] at mem
      rw [first.2.2.1] at mem ⊢
      omega)
    nodup_range' tail
  refine ⟨_, rfl, second.1, second.2.2.1.trans first.2.2.1, fun i => ?_⟩
  rw [second.2.1]
  simp only [first.2.1, first.2.2.1, mem_range, mem_range'_1]
  by_cases inHead : i < nclk
  · rw [if_pos inHead, if_neg (by omega), if_pos inHead]
  · rw [if_neg inHead, if_neg inHead]
    by_cases inTail : i < dst.size_
    · rw [if_pos (by omega), if_pos inTail]
    · rw [if_neg (by omega), if_neg inTail, SyncClock.clk_of_size_le _ (Nat.le_of_not_lt inTail)]

/-- The effect of an O(N) release or release-store.  Only the releasing
thread can hold a flag afterwards, and no slot is dirty. -/
structure FullUpdate (thread : ThreadClock) (dst result : SyncClock) (epochs : Nat -> Nat)
    (flagged : Bool) : Prop where
  wellFormed : result.WellFormed
  size : result.size_ = dst.size_
  epochs : result.epochs = epochs
  reused : ∀ i, (result.clk i).reused =
    if i = thread.tid_ ∧ flagged = true then thread.reused_ else 0
  dirty : result.dirty_tids_ = fun _ => kInvalidTid

section

variable (thread : ThreadClock)

/-- Setting the own flag last, on a clock whose flags were all cleared. -/
private theorem fullUpdate_of_cleared (dst cleared : SyncClock)
    (wellFormed : cleared.WellFormed) (size : cleared.size_ = dst.size_)
    (used : thread.tid_ < dst.size_) (fits : thread.reused_ < 2 ^ (64 - kClkBits))
    (unflagged : ∀ i, (cleared.clk i).reused = 0)
    (clean : cleared.dirty_tids_ = fun _ => kInvalidTid) (flagged : Bool) :
    FullUpdate thread dst
      (if flagged = true then
        cleared.setElem thread.tid_ ((cleared.elem thread.tid_).setReused thread.reused_)
      else cleared) cleared.epochs flagged := by
  rw [<- size] at used
  cases flagged with
  | false =>
    simp only [Bool.false_eq_true, if_false]
    exact ⟨wellFormed, size, rfl, fun i => by simpa using unflagged i, clean⟩
  | true =>
    simp only [if_true]
    refine ⟨wellFormed.setElem used _, size, ?_, fun i => ?_, clean⟩
    · rw [epochs_setElem wellFormed used, ClockElem.epoch_setReused, cleared.elem_eq_clk used]
      exact update_eq_self thread.tid_ cleared.epochs
    · rw [wellFormed.clk_setElem used]
      by_cases same : i = thread.tid_
      · subst same
        simp only [update_self, ClockElem.reused_setReused, and_self, if_true]
        exact mod_eq_of_lt fits
      · simp only [update_of_ne same, same, false_and, if_false, unflagged i]

section

variable (wellFormed : dst.WellFormed)
include wellFormed

theorem storeElems_spec (grown : thread.nclk_ <= dst.size_) (used : thread.tid_ < dst.size_) (fits :
    thread.reused_ < 2 ^ (64 - kClkBits)) :
    FullUpdate thread dst (thread.storeElems dst)
        (fun i => if i < thread.nclk_ then thread.epochs i else 0) true ∧
      (thread.storeElems dst).release_store_tid_ = thread.tid_ ∧
      (thread.storeElems dst).release_store_reused_ = thread.reused_ := by
  rcases modify_two_ranges wellFormed grown
      (fun tid element => (element.setEpoch (thread.clk_ tid).epoch).setReused 0)
      (fun _ element => (element.setEpoch 0).setReused 0) with
    ⟨result, written, resultWellFormed, size, clk⟩
  simp only [storeElems, written]
  have same : ∀ i, _ := fun i => (congrFun (SyncClock.clk_congr
    { result with
      dirty_tids_ := fun _ => kInvalidTid
      release_store_tid_ := thread.tid_
      release_store_reused_ := thread.reused_ } _ rfl rfl) i).trans (clk i)
  have update := fullUpdate_of_cleared thread dst
    { result with
      dirty_tids_ := fun _ => kInvalidTid
      release_store_tid_ := thread.tid_
      release_store_reused_ := thread.reused_ }
    (resultWellFormed.congr rfl rfl) size used fits
    (fun i => (congrArg ClockElem.reused (same i)).trans (by split_ifs <;> rfl)) rfl true
  rw [if_pos rfl] at update
  refine ⟨?_, rfl, rfl⟩
  have epochs : SyncClock.epochs { result with
      dirty_tids_ := fun _ => kInvalidTid
      release_store_tid_ := thread.tid_
      release_store_reused_ := thread.reused_ } =
      fun i => if i < thread.nclk_ then thread.epochs i else 0 := by
    funext i
    refine (congrArg ClockElem.epoch (same i)).trans ?_
    by_cases inHead : i < thread.nclk_
    · rw [if_pos inHead, if_pos inHead]
      exact mod_clk _
    · rw [if_neg inHead, if_neg inHead]
      split_ifs <;> rfl
  rw [epochs] at update
  exact update

theorem releaseElems_spec (grown : thread.nclk_
    <= dst.size_) (used : thread.tid_ < dst.size_) (fits : thread.reused_ < 2 ^ (64 - kClkBits)) :
    FullUpdate thread dst (thread.releaseElems dst)
        (fun i => if i < thread.nclk_ then max (dst.epochs i) (thread.epochs i)
          else dst.epochs i) (thread.IsAlreadyAcquired dst) ∧
      (thread.releaseElems dst).release_store_tid_ = kInvalidTid := by
  rcases modify_two_ranges wellFormed grown
      (fun tid element =>
        (element.setEpoch (max element.epoch (thread.clk_ tid).epoch)).setReused 0)
      (fun _ element => element.setReused 0) with
    ⟨result, written, resultWellFormed, size, clk⟩
  simp only [releaseElems, written]
  have same : ∀ i, _ := fun i => (congrFun (SyncClock.clk_congr
    { result with
      dirty_tids_ := fun _ => kInvalidTid
      release_store_tid_ := kInvalidTid
      release_store_reused_ := 0 } _ rfl rfl) i).trans (clk i)
  have update := fullUpdate_of_cleared thread dst
    { result with
      dirty_tids_ := fun _ => kInvalidTid
      release_store_tid_ := kInvalidTid
      release_store_reused_ := 0 }
    (resultWellFormed.congr rfl rfl) size used fits
    (fun i => (congrArg ClockElem.reused (same i)).trans (by split_ifs <;> rfl)) rfl
    (thread.IsAlreadyAcquired dst)
  have epochs : SyncClock.epochs { result with
      dirty_tids_ := fun _ => kInvalidTid
      release_store_tid_ := kInvalidTid
      release_store_reused_ := 0 } =
      fun i => if i < thread.nclk_ then max (dst.epochs i) (thread.epochs i)
        else dst.epochs i := by
    funext i
    refine (congrArg ClockElem.epoch (same i)).trans ?_
    by_cases inHead : i < thread.nclk_
    · rw [if_pos inHead, if_pos inHead]
      exact mod_eq_of_lt (Nat.max_lt.mpr ⟨(dst.clk i).epoch_lt, (thread.clk_ i).epoch_lt⟩)
    · rw [if_neg inHead, if_neg inHead]
      by_cases inTail : i < dst.size_
      · rw [if_pos inTail]
        rfl
      · rw [if_neg inTail, SyncClock.epochs, SyncClock.clk_of_size_le _ (Nat.le_of_not_lt inTail)]
  rw [epochs] at update
  refine ⟨update, ?_⟩
  split_ifs <;> rfl

theorem grow_spec :
    (thread.grow dst).WellFormed ∧ (thread.grow dst).clk = dst.clk ∧
    (thread.grow dst).size_ = max dst.size_ thread.nclk_ ∧ (thread.grow dst).dirty_tids_ =
    dst.dirty_tids_ ∧ (thread.grow dst).release_store_tid_ = dst.release_store_tid_ ∧
    (thread.grow dst).release_store_reused_ = dst.release_store_reused_ := by
  unfold grow
  by_cases short : dst.size_ < thread.nclk_
  · have grows := le_of_lt short
    have nonempty := lt_of_le_of_lt (zero_le _) short
    rw [if_pos short, max_eq_right grows]
    exact ⟨wellFormed.Resize grows nonempty, wellFormed.clk_Resize grows nonempty,
      SyncClock.size_Resize _ _, SyncClock.dirty_tids_Resize _ _,
      SyncClock.release_store_tid_Resize _ _, SyncClock.release_store_reused_Resize _ _⟩
  · rw [if_neg short, max_eq_left (Nat.le_of_not_lt short)]
    exact ⟨wellFormed, rfl, rfl, rfl, rfl, rfl⟩

end

end

end ThreadClock
end Tsan
end LlvmProject
