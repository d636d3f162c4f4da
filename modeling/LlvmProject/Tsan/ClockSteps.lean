import LlvmProject.Tsan.ClockInvariant
import Mathlib.Order.Nat

namespace LlvmProject

open Function Nat

namespace Tsan

open VectorClock

/-!
# Each operation keeps the invariant and has the naive effect

The invariant supplies what the constant-time paths need: the two equations
of `VectorClock` turn an own-element update into a join or a store, and a
set flag reduces an acquire to the dirty tids.
-/

variable {tid : Nat}

theorem ThreadOk.valid {thr : Nat -> ThreadClock} (ok : ThreadOk thr tid)
    (checked : (thr tid).nclk_ <= kMaxTid) : tid ≠ kInvalidTid := by
  have used := ok.used
  simp only [kMaxTid, kTidBits, kInvalidTid] at checked ⊢
  omega

variable {thr : Nat -> ThreadClock}

/-- An empty clock satisfies the invariant whatever the threads know. -/
theorem SyncOk.empty (threads : ∀ tid, ThreadOk thr tid) : SyncOk thr SyncClock.new where
  wellFormed := SyncClock.wellFormed_new
  informed := informed_bot (views thr)
  flag_le := fun tid => zero_le _
  flag := fun tid set => absurd (threads tid).reused_pos (Nat.not_lt_of_le (le_of_eq set.symm))
  dirty := by
    intro tid mem
    rw [SyncClock.dirtyTids_eq_nil rfl] at mem
    cases mem
  reused_le := fun valid => absurd rfl valid
  covered := fun valid => absurd rfl valid

variable {dst : SyncClock}

/-- Growing keeps the vector, the slots and the owner. -/
theorem SyncOk.grow (thread : ThreadClock) (ok : SyncOk thr dst) :
    SyncOk thr (thread.grow dst) ∧ (thread.grow dst).epochs = dst.epochs := by
  rcases thread.grow_spec ok.wellFormed with ⟨wellFormed, clk, size, dirty, storeTid, storeReused⟩
  have epochs : (thread.grow dst).epochs = dst.epochs := by
    funext i
    rw [SyncClock.epochs, clk]
    rfl
  have dirtyTids : (thread.grow dst).dirtyTids = dst.dirtyTids := by
    rw [SyncClock.dirtyTids, dirty]
    rfl
  refine ⟨{
    wellFormed := wellFormed
    informed := epochs.symm ▸ ok.informed
    flag_le := fun tid => clk.symm ▸ ok.flag_le tid
    flag := fun tid set i => ?_
    dirty := fun tid mem => ?_
    reused_le := ?_
    covered := ?_ }, epochs⟩
  · rw [clk] at set
    rw [dirtyTids, epochs]
    exact ok.flag tid set i
  · rw [dirtyTids] at mem
    exact lt_of_lt_of_le (ok.dirty tid mem) (size ▸ le_max_left ..)
  · rw [storeTid, storeReused]
    exact ok.reused_le
  · rw [storeTid, storeReused, epochs]
    exact ok.covered

/-! ## Publishing only the own epoch -/

/-- An own-element update by a thread that the clock has heard from since
the thread's last acquire is a full join, and keeps every flag sound. -/
theorem FlagsOk.ownUpdate (threads : ∀ tid, ThreadOk thr tid) (valid : tid ≠ kInvalidTid)
    {dst result : SyncClock} (ok : FlagsOk thr dst) (used : tid < dst.size_) (later : (thr
    tid).last_acquire_ < dst.epochs tid) (update : ThreadClock.OwnUpdate (thr tid) dst result) :
    FlagsOk thr result ∧ result.epochs = dst.epochs ⊔ (thr tid).epochs := by
  have own := (threads tid).own
  have updated : result.epochs = Function.update dst.epochs tid ((thr tid).epochs tid) := by
    rw [update.epochs, own]
  have joined : result.epochs = dst.epochs ⊔ (thr tid).epochs :=
    updated.trans (ok.informed.sup_eq_update later).symm
  refine ⟨{
    wellFormed := update.wellFormed
    informed := joined ▸ ok.informed.sup (threads tid).informed
    flag_le := fun other => ?_
    flag := fun other set i => ?_
    dirty := fun other mem => ?_ }, joined⟩
  · rcases update.flags with ⟨kept, _⟩ | ⟨cleared, _⟩
    · exact kept other ▸ ok.flag_le other
    · exact cleared other ▸ zero_le _
  · rcases update.flags with ⟨kept, slot, free, entered⟩ | ⟨cleared, _⟩
    · rw [own] at free entered
      have old := ok.flag other ((kept other).symm.trans set)
      rw [mem_dirtyTids_update valid free entered, updated]
      refine ⟨fun clean => ?_, fun beyond => ?_⟩
      · have ne : i ≠ tid := fun same => clean (Or.inl same)
        rw [update_of_ne ne]
        exact (old i).1 fun mem => clean (Or.inr mem)
      · have ne : i ≠ tid := by
          rintro rfl
          exact absurd later (((old i).2 beyond).symm ▸ not_lt_zero _)
        rw [update_of_ne ne]
        exact (old i).2 beyond
    · have pos := (threads other).reused_pos
      rw [<- set, cleared other] at pos
      cases pos
  · rw [update.size]
    rcases update.flags with ⟨_, slot, free, entered⟩ | ⟨_, cleared⟩
    · rw [own] at free entered
      rcases (mem_dirtyTids_update valid free entered other).mp mem with rfl | old
      · exact used
      · exact ok.dirty other old
    · rw [SyncClock.dirtyTids_eq_nil cleared] at mem
      cases mem

/-! ## Rewriting the whole clock -/

/-- After an O(N) update only the releasing thread may hold a flag, so the
flags are sound as soon as that one is. -/
theorem FlagsOk.fullUpdate (threads : ∀ tid, ThreadOk thr tid)
    {dst result : SyncClock} {epochs : Nat -> Nat} {flagged : Bool} (update : ThreadClock.FullUpdate
    (thr tid) dst result epochs flagged) (informed : Informed (views thr) epochs)
    (acquired : flagged = true -> ∀ i, epochs i <= (thr tid).epochs i) : FlagsOk thr result where
  wellFormed := update.wellFormed
  informed := update.epochs.symm ▸ informed
  flag_le := by
    intro other
    rw [update.reused, (threads tid).own]
    by_cases set : other = tid ∧ flagged = true
    · rw [if_pos set, set.1]
    · rw [if_neg set]
      exact zero_le _
  flag := by
    intro other set i
    rw [update.reused, (threads tid).own] at set
    by_cases held : other = tid ∧ flagged = true
    · have bounded := acquired held.2 i
      rw [update.epochs, held.1]
      exact ⟨fun _ => bounded, fun beyond =>
        le_zero.mp ((threads tid).tail i beyond ▸ bounded)⟩
    · rw [if_neg held] at set
      exact absurd (threads other).reused_pos (Nat.not_lt_of_le (le_of_eq set.symm))
  dirty := by
    intro other mem
    rw [SyncClock.dirtyTids_eq_nil update.dirty] at mem
    cases mem

variable {clock : SyncClock}

/-- A clock without an owner. -/
theorem StoreOk.of_invalid (none : clock.release_store_tid_ = kInvalidTid) :
    StoreOk thr clock :=
  ⟨fun valid => absurd none valid, fun valid => absurd none valid⟩

theorem StoreOk.of_owner (owner : clock.release_store_tid_ = tid)
    (reused : clock.release_store_reused_ = (thr tid).reused_)
    (covered : ∀ i, i ≠ tid -> clock.epochs i <= (thr tid).epochs i) : StoreOk thr clock := by
  subst owner
  exact ⟨fun _ => le_of_eq reused, fun _ _ => covered⟩

/-! ## The releasing operations -/

section

variable (threads : ∀ tid, ThreadOk thr tid)
include threads

theorem ReleaseStore_spec (checked : (thr tid).nclk_ <= kMaxTid) (ok : SyncOk thr dst) :
    SyncOk thr ((thr tid).ReleaseStore dst) ∧
      ((thr tid).ReleaseStore dst).epochs = (thr tid).epochs := by
  have own := (threads tid).own
  have valid := (threads tid).valid checked
  rcases ok.grow (thr tid) with ⟨grown, _⟩
  have size := ((thr tid).grow_spec ok.wellFormed).2.2.1
  have covers : (thr tid).nclk_ <= ((thr tid).grow dst).size_ := size ▸ le_max_right ..
  have used : tid < ((thr tid).grow dst).size_ := lt_of_lt_of_le (threads tid).used covers
  unfold ThreadClock.ReleaseStore
  by_cases fast : ((thr tid).grow dst).release_store_tid_ = (thr tid).tid_ ∧
      ((thr tid).grow dst).release_store_reused_ = (thr tid).reused_ ∧
      (((thr tid).grow dst).elem (thr tid).tid_).epoch > (thr tid).last_acquire_
  · simp only [if_pos fast]
    rcases fast with ⟨owner, reused, later⟩
    have update := (thr tid).UpdateCurrentThread_spec grown.wellFormed (own.symm ▸ used)
    rw [own] at owner later
    rw [SyncClock.elem_eq_clk _ used] at later
    have covered := grown.covered (owner.symm ▸ valid) (owner.symm ▸ reused)
    rw [owner] at covered
    rcases grown.toFlagsOk.ownUpdate threads valid used later update with ⟨flags, _⟩
    have stored : (((thr tid).UpdateCurrentThread ((thr tid).grow dst))).epochs =
        (thr tid).epochs := by
      rw [update.epochs, own]
      exact grown.informed.update_eq_clock later covered
    refine ⟨⟨flags, StoreOk.of_owner (update.store_tid.trans owner)
      (update.store_reused.trans reused) fun i _ => ?_⟩, stored⟩
    rw [stored]
  · simp only [if_neg fast]
    rcases (thr tid).storeElems_spec grown.wellFormed covers (own.symm ▸ used)
      (threads tid).reused_lt with ⟨update, owner, reused⟩
    have stored : (fun i => if i < (thr tid).nclk_ then (thr tid).epochs i else 0) =
        (thr tid).epochs := by
      funext i
      by_cases inside : i < (thr tid).nclk_
      · rw [if_pos inside]
      · rw [if_neg inside, (threads tid).tail i (Nat.le_of_not_lt inside)]
    rw [stored] at update
    have flags := FlagsOk.fullUpdate threads update (threads tid).informed
      fun _ i => le_refl _
    exact ⟨⟨flags, StoreOk.of_owner (owner.trans own) reused
      fun i _ => update.epochs ▸ le_refl _⟩, update.epochs⟩

theorem IsAlreadyAcquired_spec (ok : FlagsOk thr dst)
    (used : tid < dst.size_) (acquired : (thr tid).IsAlreadyAcquired dst = true) (i : Nat) :
    dst.epochs i <= (thr tid).epochs i := by
  unfold ThreadClock.IsAlreadyAcquired at acquired
  rw [(threads tid).own] at acquired
  by_cases set : (dst.elem tid).reused = (thr tid).reused_
  · rw [if_neg (not_not_intro set), List.all_eq_true] at acquired
    rw [SyncClock.elem_eq_clk _ used] at set
    by_cases dirty : i ∈ dst.dirtyTids
    · have reached := of_decide_eq_true (acquired i dirty)
      rw [SyncClock.elem_eq_clk _ (ok.dirty i dirty)] at reached
      exact Nat.le_of_not_lt reached
    · exact (ok.flag tid set i).1 dirty
  · rw [if_pos set] at acquired
    cases acquired

theorem release_spec (checked : (thr tid).nclk_ <= kMaxTid) (ok : SyncOk thr dst) :
    SyncOk thr ((thr tid).release dst) ∧
      ((thr tid).release dst).epochs = dst.epochs ⊔ (thr tid).epochs := by
  unfold ThreadClock.release
  by_cases empty : dst.size_ = 0
  · rw [if_pos empty]
    rcases ReleaseStore_spec threads checked ok with ⟨stored, epochs⟩
    refine ⟨stored, epochs.trans ?_⟩
    funext i
    have none : dst.epochs i = 0 :=
      congrArg ClockElem.epoch (dst.clk_of_size_le (empty ▸ zero_le i))
    rw [Pi.sup_apply, none]
    exact (max_eq_right (zero_le _)).symm
  rw [if_neg empty]
  have own := (threads tid).own
  have valid := (threads tid).valid checked
  rcases ok.grow (thr tid) with ⟨grown, same⟩
  have size := ((thr tid).grow_spec ok.wellFormed).2.2.1
  have covers : (thr tid).nclk_ <= ((thr tid).grow dst).size_ := size ▸ le_max_right ..
  have used : tid < ((thr tid).grow dst).size_ := lt_of_lt_of_le (threads tid).used covers
  rw [<- same]
  by_cases fast : (((thr tid).grow dst).elem (thr tid).tid_).epoch > (thr tid).last_acquire_
  · simp only [if_pos fast]
    have update := (thr tid).UpdateCurrentThread_spec grown.wellFormed (own.symm ▸ used)
    rw [own, SyncClock.elem_eq_clk _ used] at fast
    rcases grown.toFlagsOk.ownUpdate threads valid used fast update with ⟨flags, joined⟩
    by_cases foreign : ((thr tid).UpdateCurrentThread ((thr tid).grow dst)).release_store_tid_ ≠
          (thr tid).tid_ ∨
        ((thr tid).UpdateCurrentThread ((thr tid).grow dst)).release_store_reused_ ≠
          (thr tid).reused_
    · rw [if_pos foreign]
      exact ⟨⟨⟨flags.wellFormed.congr rfl rfl, flags.informed, flags.flag_le, flags.flag,
        flags.dirty⟩, StoreOk.of_invalid rfl⟩, joined⟩
    · rw [if_neg foreign]
      rw [not_or, not_not, not_not, own] at foreign
      have owner := update.store_tid.symm.trans foreign.1
      have reused := update.store_reused.symm.trans foreign.2
      have covered := grown.covered (owner.symm ▸ valid) (owner.symm ▸ reused)
      rw [owner] at covered
      refine ⟨⟨flags, StoreOk.of_owner foreign.1 foreign.2 fun i other => ?_⟩, joined⟩
      rw [joined]
      exact max_le (covered i other) (le_refl _)
  · simp only [if_neg fast]
    rcases (thr tid).releaseElems_spec grown.wellFormed covers (own.symm ▸ used)
      (threads tid).reused_lt with ⟨update, owner⟩
    have joined : (fun i => if i < (thr tid).nclk_ then
        max (((thr tid).grow dst).epochs i) ((thr tid).epochs i)
        else ((thr tid).grow dst).epochs i) =
        ((thr tid).grow dst).epochs ⊔ (thr tid).epochs := by
      funext i
      rw [Pi.sup_apply]
      by_cases inside : i < (thr tid).nclk_
      · rw [if_pos inside]
      · rw [if_neg inside, (threads tid).tail i (Nat.le_of_not_lt inside)]
        exact (max_eq_left (zero_le _)).symm
    rw [joined] at update
    have flags := FlagsOk.fullUpdate threads update
      (grown.informed.sup (threads tid).informed) fun acquired i =>
        max_le (IsAlreadyAcquired_spec threads grown.toFlagsOk used acquired i) (le_refl _)
    exact ⟨⟨flags, StoreOk.of_invalid owner⟩, update.epochs⟩

end

/-! ## Acquiring -/

/-- Both acquire paths, described by the loop they run. -/
private theorem acquire_eq (thread : ThreadClock) (src : SyncClock) (nonempty : src.size_ ≠ 0) :
    ∃ nclk tids, thread.nclk_ <= nclk ∧
      (thread.acquire src).1 = thread.finishAcquire nclk (thread.acquireElems src tids) ∧
      ((thread.tid_ < src.size_ ∧ (src.elem thread.tid_).reused = thread.reused_ ∧
          nclk = thread.nclk_ ∧ tids = src.dirtyTids ∧ (thread.acquire src).2 = src) ∨
        (nclk = max thread.nclk_ src.size_ ∧ tids = List.range src.size_ ∧
          (thread.acquire src).2 = if thread.tid_ < src.size_ then
            src.setElem thread.tid_ ((src.elem thread.tid_).setReused thread.reused_)
          else src)) := by
  by_cases flagged : thread.tid_ < src.size_ ∧ (src.elem thread.tid_).reused = thread.reused_
  · refine ⟨thread.nclk_, src.dirtyTids, le_refl _, ?_, .inl ⟨flagged.1, flagged.2, rfl, rfl, ?_⟩⟩ <;>
      simp only [ThreadClock.acquire, if_neg nonempty, if_pos flagged]
  · refine ⟨max thread.nclk_ src.size_, List.range src.size_, le_max_left .., ?_,
      .inr ⟨rfl, rfl, ?_⟩⟩ <;>
      simp only [ThreadClock.acquire, if_neg nonempty, if_neg flagged]

/-- An acquire joins the clocks, extends the thread only forward, and leaves
nothing of the source beyond the new effective size. -/
theorem acquire_thread (tid : Nat) (threads : ∀ tid, ThreadOk thr tid) {src : SyncClock}
    (ok : SyncOk thr src) :
    ((thr tid).acquire src).1.epochs = (thr tid).epochs ⊔ src.epochs ∧
      Advance (thr tid) ((thr tid).acquire src).1 ∧
      ∀ i, ((thr tid).acquire src).1.nclk_ <= i -> src.epochs i = 0 := by
  by_cases empty : src.size_ = 0
  · have zero : ∀ i, src.epochs i = 0 := fun i =>
      congrArg ClockElem.epoch (src.clk_of_size_le (empty ▸ zero_le i))
    have unchanged : (thr tid).acquire src = (thr tid, src) := by
      rw [ThreadClock.acquire, if_pos empty]
    rw [unchanged]
    refine ⟨?_, ⟨rfl, rfl, le_refl _, fun _ => le_refl _, (threads tid).tail,
      Or.inl ⟨rfl, fun _ _ => rfl⟩⟩, fun i _ => zero i⟩
    funext i
    rw [Pi.sup_apply, zero i]
    exact (max_eq_left (zero_le _)).symm
  have own := (threads tid).own
  rcases acquire_eq (thr tid) src empty with ⟨nclk, tids, grows, result, path⟩
  have epoch : ∀ i, ((thr tid).acquire src).1.epochs i =
      if i ∈ tids then max ((thr tid).epochs i) (src.elem i).epoch else (thr tid).epochs i := by
    intro i
    rw [result]
    exact ThreadClock.acquireElems_epoch (thr tid) src tids i
  have joined : ((thr tid).acquire src).1.epochs = (thr tid).epochs ⊔ src.epochs ∧
      ∀ i, nclk <= i -> src.epochs i = 0 := by
    rcases path with ⟨used, set, sameSize, dirty, _⟩ | ⟨size, all, _⟩
    · rw [own] at used set
      rw [SyncClock.elem_eq_clk _ used] at set
      have acquired := ok.flag tid set
      refine ⟨funext fun i => ?_, fun i beyond => (acquired i).2 (sameSize ▸ beyond)⟩
      rw [epoch, dirty, Pi.sup_apply]
      by_cases listed : i ∈ src.dirtyTids
      · rw [if_pos listed, SyncClock.elem_eq_clk _ (ok.dirty i listed)]
        rfl
      · rw [if_neg listed]
        exact (max_eq_left ((acquired i).1 listed)).symm
    · have tail : ∀ i, src.size_ <= i -> src.epochs i = 0 := fun i beyond =>
        congrArg ClockElem.epoch (src.clk_of_size_le beyond)
      refine ⟨funext fun i => ?_, fun i beyond =>
        tail i (le_trans (size ▸ le_max_right ..) beyond)⟩
      rw [epoch, all, Pi.sup_apply]
      by_cases inside : i < src.size_
      · rw [if_pos (List.mem_range.mpr inside), SyncClock.elem_eq_clk _ inside]
        rfl
      · rw [if_neg (fun mem => inside (List.mem_range.mp mem)),
          tail i (Nat.le_of_not_lt inside)]
        exact (max_eq_left (zero_le _)).symm
  have nclkEq : ((thr tid).acquire src).1.nclk_ = nclk := by rw [result]; rfl
  refine ⟨joined.1, ⟨?_, ?_, nclkEq.symm ▸ grows, fun i => ?_, fun i beyond => ?_, ?_⟩,
    fun i beyond => joined.2 i (nclkEq ▸ beyond)⟩
  · rw [result]
    rfl
  · rw [result]
    rfl
  · rw [joined.1]
    exact le_max_left ..
  · rw [nclkEq] at beyond
    rw [joined.1, Pi.sup_apply, joined.2 i beyond, (threads tid).tail i (le_trans grows beyond)]
    exact max_self 0
  · rw [result]
    rcases ThreadClock.finishAcquire_last_acquire (thr tid) src nclk tids with
      ⟨sameEpochs, sameSeen⟩ | learnt
    · exact Or.inl ⟨sameSeen, fun i _ => congrFun sameEpochs i⟩
    · exact Or.inr (le_of_eq learnt.symm)

theorem SyncOk.setFlag (ok : SyncOk thr clock) (tid : Nat) (used : tid < clock.size_) (fits : (thr
    tid).reused_ < 2 ^ (64 - kClkBits)) (acquired : Acquired (thr tid) clock) :
    SyncOk thr (clock.setElem tid ((clock.elem tid).setReused (thr tid).reused_)) ∧
      (clock.setElem tid ((clock.elem tid).setReused (thr tid).reused_)).epochs = clock.epochs := by
  have clk := ok.wellFormed.clk_setElem used ((clock.elem tid).setReused (thr tid).reused_)
  have epochs : (clock.setElem tid ((clock.elem tid).setReused (thr tid).reused_)).epochs =
      clock.epochs := by
    funext i
    rw [SyncClock.epochs, clk]
    by_cases same : i = tid
    · subst same
      rw [update_self, ClockElem.epoch_setReused, SyncClock.elem_eq_clk _ used]
      rfl
    · rw [update_of_ne same]
      rfl
  refine ⟨{
    wellFormed := ok.wellFormed.setElem used _
    informed := epochs.symm ▸ ok.informed
    flag_le := fun other => ?_
    flag := fun other set i => ?_
    dirty := ok.dirty
    reused_le := ok.reused_le
    covered := epochs.symm ▸ ok.covered }, epochs⟩
  · rw [clk]
    by_cases same : other = tid
    · subst same
      rw [update_self]
      exact mod_le _ _
    · rw [update_of_ne same]
      exact ok.flag_le other
  · rw [epochs]
    by_cases same : other = tid
    · subst same
      exact acquired i
    · rw [clk, update_of_ne same] at set
      exact ok.flag other set i

theorem acquire_sync (tid : Nat) (threads : ∀ tid, ThreadOk thr tid) {src : SyncClock}
    (ok : SyncOk thr src) :
    SyncOk (Function.update thr tid ((thr tid).acquire src).1) ((thr tid).acquire src).2 ∧
      ((thr tid).acquire src).2.epochs = src.epochs := by
  rcases acquire_thread tid threads ok with ⟨joined, advance, covered⟩
  have advanced := ok.advance (threads tid).own advance
  by_cases empty : src.size_ = 0
  · have unchanged : ((thr tid).acquire src).2 = src := by
      rw [ThreadClock.acquire, if_pos empty]
    rw [unchanged]
    exact ⟨advanced, rfl⟩
  rcases acquire_eq (thr tid) src empty with
    ⟨_, _, _, _, ⟨_, _, _, _, unchanged⟩ | ⟨_, _, changed⟩⟩
  · rw [unchanged]
    exact ⟨advanced, rfl⟩
  · rw [changed, (threads tid).own]
    by_cases used : tid < src.size_
    · have flagged := advanced.setFlag tid used
      rw [update_self, advance.reused] at flagged
      rw [if_pos used]
      refine flagged (threads tid).reused_lt fun i => ⟨fun _ => ?_, covered i⟩
      rw [joined]
      exact le_max_right ..
    · rw [if_neg used]
      exact ⟨advanced, rfl⟩

theorem Consistent.acquire {Sync : Type*} [DecidableEq Sync] {state : State Sync}
    (ok : Consistent state) (tid : Nat) (src : Sync) :
    Consistent ((state.setThread tid ((state.thr tid).acquire (state.sync src)).1).setSync src
      ((state.thr tid).acquire (state.sync src)).2) := by
  rcases acquire_thread tid ok.thread (ok.sync src) with ⟨joined, advance, _⟩
  have informed := (ok.thread tid).informed.sup (ok.sync src).informed
  rw [<- joined] at informed
  exact (ok.setThread advance fun t _ => informed t).setSync
    (acquire_sync tid ok.thread (ok.sync src)).1

/-! ## The own epoch -/

theorem ThreadClock.epochs_set (thread : ThreadClock) (value : Nat) :
    (thread.set value).epochs =
      Function.update thread.epochs thread.tid_ (value % 2 ^ kClkBits) := by
  funext i
  by_cases same : i = thread.tid_
  · subst same
    simp only [epochs, set, update_self, ClockElem.epoch_setEpoch]
  · simp only [epochs, set, update_of_ne same]

theorem tick_spec (threads : ∀ tid, ThreadOk thr tid)
    (fits : (thr tid).epochs tid + 1 < 2 ^ kClkBits) :
    (thr tid).tick.epochs = Function.update (thr tid).epochs tid ((thr tid).epochs tid + 1) ∧
      Advance (thr tid) (thr tid).tick := by
  have own := (threads tid).own
  have epochs : (thr tid).tick.epochs =
      Function.update (thr tid).epochs tid ((thr tid).epochs tid + 1) := by
    rw [ThreadClock.tick, ThreadClock.epochs_set, own]
    exact congrArg _ (mod_eq_of_lt fits)
  refine ⟨epochs, rfl, rfl, le_refl _, fun i => ?_, fun i beyond => ?_,
    .inl ⟨rfl, fun i other => ?_⟩⟩
  · rw [epochs]
    by_cases same : i = tid
    · subst same
      rw [update_self]
      exact le_succ _
    · rw [update_of_ne same]
  · have ne : i ≠ tid := ne_of_gt (lt_of_lt_of_le (threads tid).used beyond)
    rw [epochs, update_of_ne ne]
    exact (threads tid).tail i beyond
  · rw [own] at other
    rw [epochs, update_of_ne other]

theorem Consistent.tick {Sync : Type*} {state : State Sync} (ok : Consistent state)
    (fits : (state.thr tid).epochs tid + 1 < 2 ^ kClkBits) :
    Consistent (state.setThread tid (state.thr tid).tick) := by
  rcases tick_spec ok.thread fits with ⟨epochs, advance⟩
  refine ok.setThread advance fun t other => ?_
  rw [epochs, update_of_ne other]
  refine ⟨(ok.thread tid).informed.le_own t, fun later i ne => ?_⟩
  exact le_trans ((ok.thread tid).informed.knows later ne)
    (epochs ▸ advance.epochs i)

/-! ## Restarting a thread -/

/-- A fresh thread clock whose own epoch is above the old one: every other
clock stays informed, and no flag or owner carries over. -/
theorem Consistent.restart {Sync : Type*} {state : State Sync} (ok : Consistent state) {tid epoch :
    Nat} (above : (state.thr tid).epochs tid < epoch) (fits : epoch < 2 ^ kClkBits) (reusable :
    (state.thr tid).reused_ + 1 < 2 ^ (64 - kClkBits)) :
    ((ThreadClock.init tid (state.thr tid).reused_).set epoch).epochs =
        Function.update (fun _ => 0) tid epoch ∧
      Consistent (state.setThread tid
        ((ThreadClock.init tid (state.thr tid).reused_).set epoch)) := by
  generalize fresh : (ThreadClock.init tid (state.thr tid).reused_).set epoch = new
  have own : new.tid_ = tid := by rw [<- fresh]; rfl
  have reused : new.reused_ = (state.thr tid).reused_ + 1 := by rw [<- fresh]; rfl
  have nclk : new.nclk_ = tid + 1 := by rw [<- fresh]; rfl
  have seen : new.last_acquire_ = 0 := by rw [<- fresh]; rfl
  have epochs : new.epochs = Function.update (fun _ => 0) tid epoch := by
    rw [<- fresh, ThreadClock.epochs_set, mod_eq_of_lt fits]
    funext i
    by_cases same : i = tid
    · subst same
      simp only [ThreadClock.init, update_self]
    · simp only [ThreadClock.epochs, ThreadClock.init, update_of_ne same, ClockElem.epoch_zero]
  have ownEpoch : new.epochs tid = epoch := by rw [epochs, update_self]
  have offEpoch : ∀ i, i ≠ tid -> new.epochs i = 0 := fun i other => by
    rw [epochs, update_of_ne other]
  have informed : ∀ {clock : Nat -> Nat}, Informed (views state.thr) clock ->
      Informed (views (Function.update state.thr tid new)) clock := by
    intro clock old
    rw [views_update]
    refine old.update tid new.view ?_ fun _ i other => ?_
    · exact le_trans (old.le_own tid) (le_trans (le_of_lt above)
        (le_of_eq ownEpoch.symm))
    · exact le_trans (le_of_eq (offEpoch i other)) (zero_le _)
  have newer : ∀ {stamp : Nat}, stamp <= (state.thr tid).reused_ -> stamp ≠ new.reused_ := by
    intro stamp old same
    rw [same, reused] at old
    exact not_succ_le_self _ old
  refine ⟨epochs, ⟨fun other => ?_, fun object => ?_⟩⟩
  · by_cases same : other = tid
    · subst same
      refine ⟨?_, ?_, ?_, ?_, ?_, ?_⟩ <;>
        simp only [State.setThread, update_self]
      · exact own
      · exact nclk ▸ lt_succ_self _
      · intro i beyond
        exact offEpoch i (ne_of_gt (le_trans (le_of_eq nclk.symm) beyond))
      · exact reused ▸ succ_pos _
      · exact reused ▸ reusable
      · rw [views_update]
        refine informed_update_own (views state.thr) other new.view fun t ne => ?_
        have zero : new.epochs t = 0 := offEpoch t ne
        refine ⟨le_trans (le_of_eq zero) (zero_le _), fun later => ?_⟩
        exact absurd (show _ < new.epochs t from later) (zero.symm ▸ not_lt_zero _)
    · have old := ok.thread other
      refine ⟨?_, ?_, ?_, ?_, ?_, ?_⟩ <;>
        simp only [State.setThread, update_of_ne same]
      · exact old.own
      · exact old.used
      · exact old.tail
      · exact old.reused_pos
      · exact old.reused_lt
      · exact informed old.informed
  · have old := ok.sync object
    refine {
      wellFormed := old.wellFormed
      informed := informed old.informed
      flag_le := fun other => ?_
      flag := fun other => ?_
      dirty := old.dirty
      reused_le := fun valid => ?_
      covered := fun valid => ?_ } <;> simp only [State.setThread]
    · by_cases same : other = tid
      · subst same
        rw [update_self, reused]
        exact le_succ_of_le (old.flag_le other)
      · rw [update_of_ne same]
        exact old.flag_le other
    · by_cases same : other = tid
      · subst same
        rw [update_self]
        exact fun set => absurd set (newer (old.flag_le other))
      · rw [update_of_ne same]
        exact old.flag other
    · have bound := old.reused_le valid
      by_cases same : (state.sync object).release_store_tid_ = tid
      · rw [same] at bound ⊢
        rw [update_self, reused]
        exact le_succ_of_le bound
      · rw [update_of_ne same]
        exact bound
    · have bound := old.reused_le valid
      by_cases same : (state.sync object).release_store_tid_ = tid
      · rw [same] at bound ⊢
        rw [update_self]
        exact fun cur => absurd cur (newer bound)
      · rw [update_of_ne same]
        exact old.covered valid

end Tsan
end LlvmProject
