import LlvmProject.Library.Runs
import LlvmProject.Library.VectorClock
import LlvmProject.Tsan.Clock

namespace LlvmProject
namespace Tsan

/-!
# Runs over many threads and synchronization objects

A state holds one thread clock per tid and one synchronization clock per
object.  `State.step` performs one operation of one thread; it answers
`none` where the source stops on a failed check.

`Model` is the naive vector-clock model the source states in its opening
comment and checks against in its tests: unbounded times, every operation a
loop over all threads.
-/

universe u

variable {Sync : Type u}

inductive Op (Sync : Type u) where
  | tick (tid : Nat)
  | acquire (tid : Nat) (src : Sync)
  | release (tid : Nat) (dst : Sync)
  | acq_rel (tid : Nat) (dst : Sync)
  | ReleaseStore (tid : Nat) (dst : Sync)
  | Reset (dst : Sync)
  /-- A new thread clock for the tid, its own epoch set to the given value. -/
  | restart (tid : Nat) (epoch : Nat)

/-! ## The naive model -/

structure Model (Sync : Type u) where
  thr : Nat -> Nat -> Nat
  sync : Sync -> Nat -> Nat

namespace Model

def init : Model Sync := ⟨fun _ _ => 0, fun _ _ => 0⟩

variable [DecidableEq Sync]

def acquire (model : Model Sync) (tid : Nat) (src : Sync) : Model Sync :=
  { model with
    thr := Function.update model.thr tid fun i => max (model.thr tid i) (model.sync src i) }

def release (model : Model Sync) (tid : Nat) (dst : Sync) : Model Sync :=
  { model with
    sync := Function.update model.sync dst fun i => max (model.sync dst i) (model.thr tid i) }

def step (model : Model Sync) : Op Sync -> Model Sync
  | .tick tid =>
    { model with
      thr := Function.update model.thr tid
        (Function.update (model.thr tid) tid (model.thr tid tid + 1)) }
  | .acquire tid src => model.acquire tid src
  | .release tid dst => model.release tid dst
  | .acq_rel tid dst => (model.acquire tid dst).release tid dst
  | .ReleaseStore tid dst =>
    { model with sync := Function.update model.sync dst (model.thr tid) }
  | .Reset dst => { model with sync := Function.update model.sync dst fun _ => 0 }
  | .restart tid epoch =>
    { model with
      thr := Function.update model.thr tid (Function.update (fun _ => 0) tid epoch) }

/-- The operation leaves the own epoch inside the bit-field of a clock
element. -/
def Fits (model : Model Sync) : Op Sync -> Prop
  | .tick tid => model.thr tid tid + 1 < 2 ^ kClkBits
  | .restart _ epoch => epoch < 2 ^ kClkBits
  | _ => True

instance (model : Model Sync) : DecidablePred model.Fits
  | .tick _ => inferInstanceAs (Decidable (_ < _))
  | .restart _ _ => inferInstanceAs (Decidable (_ < _))
  | .acquire _ _ | .release _ _ | .acq_rel _ _ | .ReleaseStore _ _ | .Reset _ => isTrue trivial

end Model

/-! ## The implementation -/

structure State (Sync : Type u) where
  thr : Nat -> ThreadClock
  sync : Sync -> SyncClock

namespace State

/-- Every tid has its first thread clock, every object an empty clock. -/
def init : State Sync := ⟨fun tid => ThreadClock.init tid 0, fun _ => SyncClock.new⟩

variable [DecidableEq Sync]

/-- The size checks at the head of the clock operations. -/
def Checked (state : State Sync) (tid : Nat) (object : Sync) : Prop :=
  (state.thr tid).nclk_ <= kMaxTid ∧ (state.sync object).size_ <= kMaxTid

instance (state : State Sync) (tid : Nat) (object : Sync) :
    Decidable (state.Checked tid object) :=
  inferInstanceAs (Decidable (_ ∧ _))

def setThread (state : State Sync) (tid : Nat) (thread : ThreadClock) : State Sync :=
  { state with thr := Function.update state.thr tid thread }

def setSync (state : State Sync) (object : Sync) (clock : SyncClock) : State Sync :=
  { state with sync := Function.update state.sync object clock }

/-- Execute one operation.  A thread exists only below `kMaxTidInClock`; a
restarted thread must begin above every earlier epoch of its tid, which is
the own epoch of the clock it replaces. -/
def step (state : State Sync) : Op Sync -> Option (State Sync)
  | .tick tid =>
    if tid < kMaxTidInClock then some (state.setThread tid (state.thr tid).tick) else none
  | .acquire tid src =>
    if state.Checked tid src then
      let done := (state.thr tid).acquire (state.sync src)
      some ((state.setThread tid done.1).setSync src done.2)
    else none
  | .release tid dst =>
    if state.Checked tid dst then
      some (state.setSync dst ((state.thr tid).release (state.sync dst)))
    else none
  | .acq_rel tid dst =>
    if state.Checked tid dst then
      let done := (state.thr tid).acq_rel (state.sync dst)
      some ((state.setThread tid done.1).setSync dst done.2)
    else none
  | .ReleaseStore tid dst =>
    if state.Checked tid dst then
      some (state.setSync dst ((state.thr tid).ReleaseStore (state.sync dst)))
    else none
  | .Reset dst => some (state.setSync dst (state.sync dst).Reset)
  | .restart tid epoch =>
    if (state.thr tid).epochs tid < epoch then
      (ThreadClock.new tid (state.thr tid).reused_).map fun thread =>
        state.setThread tid (thread.set epoch)
    else none

end State

end Tsan
end LlvmProject

namespace LlvmProject

open Function

namespace Tsan

open VectorClock

/-!
## The invariant of all clocks together

Three kinds of facts hold between steps.

* Every clock is informed about the threads: nobody is ahead of a thread's
  own epoch, and whoever knows an epoch of a thread later than its
  `last_acquire_` knows everything else that thread knows.
* A set `acquired` flag bounds a synchronization clock by the thread's
  clock, except at the dirty tids, and leaves nothing beyond the thread's
  effective size.
* A recorded release-store owner bounds the clock except at its own tid.

Flags and owners are compared together with the reuse counter, so a
restarted thread inherits none of them.
-/

def ThreadClock.view (thread : ThreadClock) : View Nat Nat := ⟨thread.epochs, thread.last_acquire_⟩

/-- All threads, as the informed clocks see them. -/
def views (thr : Nat -> ThreadClock) (tid : Nat) : View Nat Nat := (thr tid).view

theorem views_update (thr : Nat -> ThreadClock) (tid : Nat) (thread : ThreadClock) :
    views (Function.update thr tid thread) = Function.update (views thr) tid thread.view := by
  funext other
  by_cases same : other = tid
  · subst same
    simp only [views, update_self]
  · simp only [views, update_of_ne same]

structure ThreadOk (thr : Nat -> ThreadClock) (tid : Nat) : Prop where
  own : (thr tid).tid_ = tid
  used : tid < (thr tid).nclk_
  tail : ∀ i, (thr tid).nclk_ <= i -> (thr tid).epochs i = 0
  reused_pos : 0 < (thr tid).reused_
  reused_lt : (thr tid).reused_ < 2 ^ (64 - kClkBits)
  informed : Informed (views thr) (thr tid).epochs

/-- What a set flag means for the thread that finds it. -/
def Acquired (thread : ThreadClock) (clock : SyncClock) : Prop :=
  ∀ i, (i ∉ clock.dirtyTids -> clock.epochs i <= thread.epochs i) ∧
    (thread.nclk_ <= i -> clock.epochs i = 0)

/-- What a recorded release-store owner means. -/
structure StoreOk (thr : Nat -> ThreadClock) (clock : SyncClock) : Prop where
  reused_le : clock.release_store_tid_ ≠ kInvalidTid ->
    clock.release_store_reused_ <= (thr clock.release_store_tid_).reused_
  covered : clock.release_store_tid_ ≠ kInvalidTid ->
    clock.release_store_reused_ = (thr clock.release_store_tid_).reused_ ->
    ∀ i, i ≠ clock.release_store_tid_ -> clock.epochs i <= (thr clock.release_store_tid_).epochs i

structure FlagsOk (thr : Nat -> ThreadClock) (clock : SyncClock) : Prop where
  wellFormed : clock.WellFormed
  informed : Informed (views thr) clock.epochs
  flag_le : ∀ tid, (clock.clk tid).reused <= (thr tid).reused_
  flag : ∀ tid, (clock.clk tid).reused = (thr tid).reused_ -> Acquired (thr tid) clock
  dirty : ∀ tid ∈ clock.dirtyTids, tid < clock.size_

structure SyncOk (thr : Nat -> ThreadClock) (clock : SyncClock) : Prop
  extends FlagsOk thr clock, StoreOk thr clock

/-- The invariant of a run. -/
structure Consistent {Sync : Type*} (state : State Sync) : Prop where
  thread : ∀ tid, ThreadOk state.thr tid
  sync : ∀ object, SyncOk state.thr (state.sync object)

/-! ## Dirty slots -/

variable {clock : SyncClock}

theorem SyncClock.mem_dirtyTids {tid : Nat} :
    tid ∈ clock.dirtyTids ↔ tid ≠ kInvalidTid ∧ ∃ slot, clock.dirty_tids_ slot = tid := by
  simp only [dirtyTids, List.mem_filter, List.mem_map, List.mem_finRange, true_and,
    decide_eq_true_eq]
  exact and_comm

theorem SyncClock.dirtyTids_eq_nil
    (clean : clock.dirty_tids_ = fun _ => kInvalidTid) : clock.dirtyTids = [] := by
  rw [List.eq_nil_iff_forall_not_mem]
  intro tid mem
  rcases mem_dirtyTids.mp mem with ⟨valid, slot, held⟩
  rw [clean] at held
  exact valid held.symm

theorem mem_dirtyTids_update {dst result : SyncClock} {own : Nat} {slot : Fin kDirtyTids} (valid :
    own ≠ kInvalidTid) (free : dst.dirty_tids_ slot = own ∨ dst.dirty_tids_ slot = kInvalidTid)
    (entered : result.dirty_tids_ = Function.update dst.dirty_tids_ slot own) (tid : Nat) :
    tid ∈ result.dirtyTids ↔ tid = own ∨ tid ∈ dst.dirtyTids := by
  rw [SyncClock.mem_dirtyTids, SyncClock.mem_dirtyTids, entered]
  constructor
  · rintro ⟨tidValid, other, held⟩
    by_cases same : other = slot
    · subst same
      rw [update_self] at held
      exact .inl held.symm
    · rw [update_of_ne same] at held
      exact .inr ⟨tidValid, other, held⟩
  · rintro (rfl | ⟨tidValid, other, held⟩)
    · exact ⟨valid, slot, update_self ..⟩
    · refine ⟨tidValid, ?_⟩
      by_cases same : other = slot
      · subst same
        refine ⟨other, ?_⟩
        rw [update_self, <- held]
        rcases free with own | invalid
        · exact own.symm
        · exact absurd (held.symm.trans invalid) tidValid
      · exact ⟨other, by rw [update_of_ne same, held]⟩

/-! ## Threads move forward -/

/-- A thread clock replaced by a later clock of the same incarnation.  What
is new off the own element was acquired at the recorded time. -/
structure Advance (old new : ThreadClock) : Prop where
  tid : new.tid_ = old.tid_
  reused : new.reused_ = old.reused_
  nclk : old.nclk_ <= new.nclk_
  epochs : ∀ i, old.epochs i <= new.epochs i
  tail : ∀ i, new.nclk_ <= i -> new.epochs i = 0
  silent : (new.last_acquire_ = old.last_acquire_ ∧
      ∀ i, i ≠ old.tid_ -> new.epochs i = old.epochs i) ∨
    new.epochs old.tid_ <= new.last_acquire_

variable {new : ThreadClock}

theorem Informed.advance {thr : Nat -> ThreadClock} {tid : Nat} {clock : Nat -> Nat} (own : (thr
    tid).tid_ = tid) (advance : Advance (thr tid) new) (informed : Informed (views thr) clock) :
    Informed (views (Function.update thr tid new)) clock := by
  rw [views_update]
  have bounded : clock tid <= new.epochs tid := le_trans (informed.le_own tid) (advance.epochs tid)
  refine informed.update tid new.view bounded fun later i other => ?_
  rcases advance.silent with ⟨seen, unchanged⟩ | acquired
  · have known : (thr tid).epochs i <= clock i := informed.knows
      (show (thr tid).last_acquire_ < clock tid from seen ▸ later) other
    rw [own] at unchanged
    exact le_trans (le_of_eq (unchanged i other)) known
  · rw [own] at acquired
    exact absurd later (Nat.not_lt_of_le (le_trans bounded acquired))

theorem Acquired.advance {old new : ThreadClock}
    (advance : Advance old new) (acquired : Acquired old clock) : Acquired new clock :=
  fun i => ⟨fun clean => le_trans ((acquired i).1 clean) (advance.epochs i),
    fun beyond => (acquired i).2 (le_trans advance.nclk beyond)⟩

theorem SyncOk.advance {thr : Nat -> ThreadClock} {tid : Nat}
    (own : (thr tid).tid_ = tid) (advance : Advance (thr tid) new)
    (ok : SyncOk thr clock) : SyncOk (Function.update thr tid new) clock where
  wellFormed := ok.wellFormed
  informed := Informed.advance own advance ok.informed
  flag_le := by
    intro other
    by_cases same : other = tid
    · subst same
      rw [update_self, advance.reused]
      exact ok.flag_le other
    · rw [update_of_ne same]
      exact ok.flag_le other
  flag := by
    intro other
    by_cases same : other = tid
    · subst same
      rw [update_self, advance.reused]
      exact fun set => (ok.flag other set).advance advance
    · rw [update_of_ne same]
      exact ok.flag other
  dirty := ok.dirty
  reused_le := by
    intro valid
    by_cases same : clock.release_store_tid_ = tid
    · have old := ok.reused_le valid
      rw [same] at old ⊢
      rwa [update_self, advance.reused]
    · rw [update_of_ne same]
      exact ok.reused_le valid
  covered := by
    intro valid
    by_cases same : clock.release_store_tid_ = tid
    · have old := ok.covered valid
      rw [same] at old ⊢
      rw [update_self, advance.reused]
      exact fun cur i other => le_trans (old cur i other) (advance.epochs i)
    · rw [update_of_ne same]
      exact ok.covered valid

/-- The clocks that a step of one thread may leave behind in that thread. -/
theorem Consistent.setThread {Sync : Type*}
    {state : State Sync} (ok : Consistent state) {tid : Nat} (advance : Advance (state.thr tid) new)
    (others : ∀ t, t ≠ tid -> new.epochs t <= (state.thr t).epochs t ∧ ((state.thr t).last_acquire_
    < new.epochs t -> ∀ i, i ≠ t -> (state.thr t).epochs i <= new.epochs i)) :
    Consistent (state.setThread tid new) where
  thread := by
    intro other
    by_cases same : other = tid
    · subst same
      have old := ok.thread other
      refine ⟨?_, ?_, ?_, ?_, ?_, ?_⟩ <;>
        simp only [State.setThread, update_self]
      · exact advance.tid.trans old.own
      · exact lt_of_lt_of_le old.used advance.nclk
      · exact advance.tail
      · exact advance.reused ▸ old.reused_pos
      · exact advance.reused ▸ old.reused_lt
      · rw [views_update]
        exact informed_update_own (views state.thr) other new.view others
    · have old := ok.thread other
      refine ⟨?_, ?_, ?_, ?_, ?_, ?_⟩ <;>
        simp only [State.setThread, update_of_ne same]
      · exact old.own
      · exact old.used
      · exact old.tail
      · exact old.reused_pos
      · exact old.reused_lt
      · exact Informed.advance (ok.thread tid).own advance old.informed
  sync := fun object => (ok.sync object).advance (ok.thread tid).own advance

theorem Consistent.setSync {Sync : Type*} [DecidableEq Sync] {state : State Sync}
    (ok : Consistent state) {object : Sync}
    (clockOk : SyncOk state.thr clock) : Consistent (state.setSync object clock) where
  thread := ok.thread
  sync := by
    intro other
    by_cases same : other = object
    · subst same
      simpa only [State.setSync, update_self] using clockOk
    · simpa only [State.setSync, update_of_ne same] using ok.sync other

end Tsan
end LlvmProject
