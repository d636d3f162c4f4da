import LlvmProject.Tsan.ClockSteps

namespace LlvmProject

open Function

namespace Tsan

open VectorClock

/-!
# The clocks refine the naive model

The relation between an implementation state and a model state is equality
of all epochs, together with the invariant of the implementation.  It is
kept by every operation that leaves the own epochs inside the bit-field of
a clock element, hence by every run of such operations.

The field width matters: an own epoch that is ticked past its last value
wraps around, while the model goes on counting.
-/

universe u

variable {Sync : Type u}

/-- Same epochs, in an invariant state. -/
structure Refines (state : State Sync) (model : Model Sync) : Prop where
  consistent : Consistent state
  thr : ∀ tid, (state.thr tid).epochs = model.thr tid
  sync : ∀ object, (state.sync object).epochs = model.sync object

theorem refines_init : Refines (State.init : State Sync) Model.init := by
  have epochs : ∀ tid, (ThreadClock.init tid 0).epochs = fun _ => 0 := by
    intro tid
    funext i
    by_cases same : i = tid
    · subst same
      simp only [ThreadClock.epochs, ThreadClock.init, update_self,
        ClockElem.epoch_setReused, ClockElem.epoch_zero]
    · simp only [ThreadClock.epochs, ThreadClock.init, update_of_ne same, ClockElem.epoch_zero]
  have threads : ∀ tid, ThreadOk (State.init : State Sync).thr tid := fun tid => {
    own := rfl
    used := Nat.lt_succ_self tid
    tail := fun i _ => congrFun (epochs tid) i
    reused_pos := Nat.succ_pos 0
    reused_lt := show 1 < 2 ^ (64 - kClkBits) by decide
    informed := (epochs tid).symm ▸ informed_bot (views (State.init : State Sync).thr) }
  exact ⟨⟨threads, fun _ => SyncOk.empty threads⟩, epochs, fun _ => rfl⟩

variable {state : State Sync}

/-- Replace one thread on both sides. -/
private theorem thr_setThread {model : Nat -> Nat -> Nat}
    (same : ∀ tid, (state.thr tid).epochs = model tid) (tid : Nat) {thread : ThreadClock}
    {clock : Nat -> Nat} (equal : thread.epochs = clock) (other : Nat) :
    ((state.setThread tid thread).thr other).epochs = Function.update model tid clock other := by
  by_cases here : other = tid
  · subst here
    simpa only [State.setThread, update_self] using equal
  · simpa only [State.setThread, update_of_ne here] using same other

variable [DecidableEq Sync]

/-- Replace one synchronization clock on both sides. -/
private theorem sync_setSync {model : Sync -> Nat -> Nat}
    (same : ∀ object, (state.sync object).epochs = model object) (object : Sync)
    {clock : SyncClock} {epochs : Nat -> Nat} (equal : clock.epochs = epochs) (other : Sync) :
    ((state.setSync object clock).sync other).epochs =
      Function.update model object epochs other := by
  by_cases here : other = object
  · subst here
    simpa only [State.setSync, update_self] using equal
  · simpa only [State.setSync, update_of_ne here] using same other

variable {model : Model Sync}

section

variable (refines : Refines state model)
include refines

private theorem Refines.acquire (tid : Nat) (src : Sync) :
    Refines ((state.setThread tid ((state.thr tid).acquire (state.sync src)).1).setSync src
      ((state.thr tid).acquire (state.sync src)).2) (model.acquire tid src) where
  consistent := refines.consistent.acquire tid src
  thr := by
    have joined := (acquire_thread tid refines.consistent.thread
      (refines.consistent.sync src)).1
    rw [refines.thr, refines.sync] at joined
    exact thr_setThread refines.thr tid joined
  sync := by
    have unchanged := (acquire_sync tid refines.consistent.thread
      (refines.consistent.sync src)).2
    intro other
    refine (sync_setSync refines.sync src unchanged other).trans ?_
    by_cases here : other = src
    · subst here
      rw [update_self]
      exact refines.sync other
    · rw [update_of_ne here]
      rfl

private theorem Refines.release {tid : Nat} (dst : Sync) (checked :
    (state.thr tid).nclk_ <= kMaxTid) :
    Refines (state.setSync dst ((state.thr tid).release (state.sync dst)))
      (model.release tid dst) := by
  rcases release_spec refines.consistent.thread checked (refines.consistent.sync dst) with
    ⟨ok, joined⟩
  rw [refines.thr, refines.sync] at joined
  exact ⟨refines.consistent.setSync ok, refines.thr, sync_setSync refines.sync dst joined⟩

private theorem Refines.ReleaseStore {tid : Nat} (dst : Sync)
    (checked : (state.thr tid).nclk_ <= kMaxTid) :
    Refines (state.setSync dst ((state.thr tid).ReleaseStore (state.sync dst)))
      (model.step (.ReleaseStore tid dst)) := by
  rcases ReleaseStore_spec refines.consistent.thread checked (refines.consistent.sync dst) with
    ⟨ok, stored⟩
  rw [refines.thr] at stored
  exact ⟨refines.consistent.setSync ok, refines.thr, sync_setSync refines.sync dst stored⟩

end

/-- After an acquire the thread is ahead of the clock it acquired, so a store
and a release have the same effect. -/
private theorem Model.store_eq_release (model : Model Sync) (tid : Nat) (dst : Sync) :
    (model.acquire tid dst).step (.ReleaseStore tid dst) =
      (model.acquire tid dst).release tid dst := by
  simp only [Model.step, Model.release, Model.acquire, Model.mk.injEq, true_and]
  congr 1
  funext i
  simp only [update_self]
  omega

private theorem Refines.acq_rel (refines : Refines state model) {tid : Nat} (dst : Sync) (checked :
    state.Checked tid dst) :
    Refines ((state.setThread tid ((state.thr tid).acq_rel (state.sync dst)).1).setSync dst
      ((state.thr tid).acq_rel (state.sync dst)).2) ((model.acquire tid dst).release tid dst) := by
  have acquired := refines.acquire tid dst
  rw [<- Model.store_eq_release]
  generalize middle : (state.setThread tid ((state.thr tid).acquire (state.sync dst)).1).setSync
    dst ((state.thr tid).acquire (state.sync dst)).2 = next at acquired
  have thread : next.thr tid = ((state.thr tid).acquire (state.sync dst)).1 := by
    rw [<- middle]
    exact update_self ..
  have clock : next.sync dst = ((state.thr tid).acquire (state.sync dst)).2 := by
    rw [<- middle]
    exact update_self ..
  have nclk : (next.thr tid).nclk_ <= kMaxTid := by
    rw [thread]
    have bound := Nat.max_le.mpr checked
    unfold ThreadClock.acquire
    split_ifs
    exacts [checked.1, checked.1, bound, bound]
  have stored := acquired.ReleaseStore dst nclk
  rw [thread, clock] at stored
  have final : next.setSync dst
      (((state.thr tid).acquire (state.sync dst)).1.ReleaseStore
        ((state.thr tid).acquire (state.sync dst)).2) =
      (state.setThread tid ((state.thr tid).acq_rel (state.sync dst)).1).setSync dst
        ((state.thr tid).acq_rel (state.sync dst)).2 := by
    rw [<- middle]
    simp only [State.setSync, State.setThread, ThreadClock.acq_rel, update_idem]
  rwa [final] at stored

/-- The restart check is exactly the width of the reuse counter. -/
private theorem new_eq_some {tid reused : Nat} {thread : ThreadClock}
    (created : ThreadClock.new tid reused = some thread) :
    thread = ThreadClock.init tid reused ∧ reused + 1 < 2 ^ (64 - kClkBits) := by
  unfold ThreadClock.new at created
  split_ifs at created with checks
  refine ⟨(Option.some.inj created).symm, ?_⟩
  have stored := checks.2
  simp only [kClkBits] at stored ⊢
  omega

theorem Refines.step {state next : State Sync} {op : Op Sync}
    (refines : Refines state model) (fits : model.Fits op) (stepped : state.step op = some next) :
    Refines next (model.step op) := by
  cases op with
  | tick tid =>
    simp only [State.step] at stepped
    split_ifs at stepped with checked
    cases stepped
    have inside : (state.thr tid).epochs tid + 1 < 2 ^ kClkBits := by
      rw [refines.thr]
      exact fits
    have ticked := (tick_spec refines.consistent.thread inside).1
    rw [refines.thr] at ticked
    exact ⟨refines.consistent.tick inside, thr_setThread refines.thr tid ticked, refines.sync⟩
  | acquire tid src =>
    simp only [State.step] at stepped
    split_ifs at stepped with checked
    cases stepped
    exact refines.acquire tid src
  | release tid dst =>
    simp only [State.step] at stepped
    split_ifs at stepped with checked
    cases stepped
    exact refines.release dst checked.1
  | acq_rel tid dst =>
    simp only [State.step] at stepped
    split_ifs at stepped with checked
    cases stepped
    exact refines.acq_rel dst checked
  | ReleaseStore tid dst =>
    simp only [State.step] at stepped
    split_ifs at stepped with checked
    cases stepped
    exact refines.ReleaseStore dst checked.1
  | Reset dst =>
    cases stepped
    exact ⟨refines.consistent.setSync (SyncOk.empty refines.consistent.thread), refines.thr,
      sync_setSync refines.sync dst rfl⟩
  | restart tid epoch =>
    simp only [State.step] at stepped
    split_ifs at stepped with above
    rcases Option.map_eq_some_iff.mp stepped with ⟨thread, created, rfl⟩
    rcases new_eq_some created with ⟨rfl, reusable⟩
    rcases refines.consistent.restart above fits reusable with ⟨epochs, consistent⟩
    exact ⟨consistent, thr_setThread refines.thr tid epochs, refines.sync⟩

/-- Every run whose own epochs stay inside the bit-field ends with exactly
the epochs of the naive model, in every thread clock and every
synchronization clock. -/
theorem epochs_eq_model (ops : List (Op Sync)) (final : State Sync) (inside : Runs.Described
    Model.step Model.Fits Model.init ops) (ran : Runs.run State.step State.init ops = some final) :
    (∀ tid i, (final.thr tid).epochs i = (ops.foldl Model.step Model.init).thr tid i) ∧
    ∀ object i, (final.sync object).epochs i = (ops.foldl Model.step Model.init).sync object i := by
  have refines : Refines final (ops.foldl Model.step Model.init) :=
    Runs.run_simulates (fun related fits stepped => related.step fits stepped) ops
      refines_init inside ran
  exact ⟨fun tid => congrFun (refines.thr tid), fun object => congrFun (refines.sync object)⟩

/-- Two threads exchange epochs through one object.  The second release
takes the constant-time path, and thread 0 is restarted in between. -/
def exchange : List (Op Unit) :=
  [.tick 0, .release 0 (), .tick 0, .release 0 (), .tick 1, .acquire 1 (), .restart 0 7,
    .acq_rel 0 ()]

theorem epochs_eq_model_exchange :
    ∃ final, Runs.run State.step State.init exchange = some final ∧
      (final.thr 1).epochs 0 = 2 ∧ (final.sync ()).epochs 0 = 7 := by
  have inside : Runs.Described Model.step Model.Fits Model.init exchange :=
    ⟨by decide, trivial, by decide, trivial, by decide, trivial, by decide, trivial, trivial⟩
  refine ⟨_, rfl, ?_, ?_⟩
  · exact ((epochs_eq_model exchange _ inside rfl).1 1 0).trans (by decide)
  · exact ((epochs_eq_model exchange _ inside rfl).2 () 0).trans (by decide)

/-- In every such run no clock is ahead of a thread's own epoch, and a clock with an
epoch of a thread after its last acquire has all that the thread knows.  The tables
of the synchronization clocks stay well formed. -/
theorem clocks_informed (ops : List (Op Sync)) (final : State Sync) (inside : Runs.Described
    Model.step Model.Fits Model.init ops) (ran : Runs.run State.step State.init ops = some final) :
    (∀ tid, Informed (views final.thr) (final.thr tid).epochs) ∧
      ∀ object, (final.sync object).WellFormed ∧
        Informed (views final.thr) (final.sync object).epochs := by
  have refines : Refines final (ops.foldl Model.step Model.init) :=
    Runs.run_simulates (fun related fits stepped => related.step fits stepped) ops
      refines_init inside ran
  exact ⟨fun tid => (refines.consistent.thread tid).informed,
    fun object => ⟨(refines.consistent.sync object).wellFormed,
      (refines.consistent.sync object).informed⟩⟩

theorem clocks_informed_acquire :
    ∃ final : State Unit, Informed (views final.thr) (final.thr 1).epochs :=
  ⟨_, (clocks_informed [.tick 0, .release 0 (), .acquire 1 ()] _
    ⟨by decide, trivial, trivial, trivial⟩ rfl).1 1⟩

/-- Without the bound the two sides part: a thread restarted at the last
value of the field ticks to zero, and the model to the next number. -/
theorem epoch_field_wraps :
    ¬ ∀ (ops : List (Op Unit)) (final : State Unit),
      Runs.run State.step State.init ops = some final ->
      (∀ tid i, (final.thr tid).epochs i = (ops.foldl Model.step Model.init).thr tid i) ∧
      ∀ object i,
        (final.sync object).epochs i = (ops.foldl Model.step Model.init).sync object i := by
  intro claimed
  have wrapped := (claimed [.restart 0 (2 ^ 42 - 1), .tick 0] _ rfl).1 0 0
  exact absurd wrapped (by decide)

end Tsan
end LlvmProject
