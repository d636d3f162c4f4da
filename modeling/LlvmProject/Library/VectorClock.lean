import Mathlib.Order.Lattice
import Mathlib.Order.BoundedOrder.Basic

namespace LlvmProject

open Function

namespace VectorClock

/-!
# What a vector clock may know about a thread

A vector clock assigns a time to every thread.  Clocks are compared and
joined pointwise, so the lattice structure is the one Mathlib puts on
functions.  A thread is described by its own clock and by `seen`, its own
time when it last learnt something from another thread.

The central notion is `Informed`.  A clock is informed about a collection of
threads when it never runs ahead of a thread's own time, and when knowing a
time of thread `t` later than `seen t` already implies knowing everything
thread `t` knows about the others.  Informed clocks are closed under joins,
and the collection of threads may itself advance.  Constant-time shortcuts of
an implementation are justified by the two equations at the end of this file.
-/

universe u v

variable {Index : Type u} {Time : Type v}

/-- A thread as other clocks see it. -/
structure View (Index : Type u) (Time : Type v) where
  clock : Index -> Time
  seen : Time

section Informed

variable [LinearOrder Time]

/-- The clock is consistent with what the threads have published. -/
def Informed (views : Index -> View Index Time) (clock : Index -> Time) : Prop :=
  ∀ t, clock t <= (views t).clock t ∧
    ((views t).seen < clock t -> ∀ i, i ≠ t -> (views t).clock i <= clock i)

variable {views : Index -> View Index Time}

variable {clock : Index -> Time}

theorem Informed.le_own
    (informed : Informed views clock) (t : Index) : clock t <= (views t).clock t :=
  (informed t).1

theorem Informed.knows (informed : Informed views clock) {t i : Index}
    (later : (views t).seen < clock t) (other : i ≠ t) : (views t).clock i <= clock i :=
  (informed t).2 later i other

/-- The empty clock knows nothing, hence nothing beyond any `seen`. -/
theorem informed_bot [OrderBot Time] (views : Index -> View Index Time) :
    Informed views (fun _ => (⊥ : Time)) := by
  intro t
  exact ⟨bot_le, fun never => absurd never not_lt_bot⟩

/-- Joining two informed clocks invents no knowledge. -/
theorem Informed.sup {left right : Index -> Time}
    (leftInformed : Informed views left) (rightInformed : Informed views right) :
    Informed views (left ⊔ right) := by
  intro t
  refine ⟨sup_le (leftInformed t).1 (rightInformed t).1, fun later i other => ?_⟩
  rcases lt_sup_iff.mp later with fromLeft | fromRight
  · exact le_sup_of_le_left (leftInformed.knows fromLeft other)
  · exact le_sup_of_le_right (rightInformed.knows fromRight other)

/-- A clock stays informed when one thread moves to a new view, provided the
new view still bounds it and still tells nothing new about late times. -/
theorem Informed.update [DecidableEq Index] (informed : Informed views clock)
    (moved : Index) (view : View Index Time) (bounded : clock moved <= view.clock moved)
    (silent : view.seen < clock moved -> ∀ i, i ≠ moved -> view.clock i <= clock i) :
    Informed (Function.update views moved view) clock := by
  intro t
  by_cases same : t = moved
  · subst same
    simpa only [update_self] using And.intro bounded silent
  · simpa only [update_of_ne same] using informed t

/-- The clock of the moved thread is informed about the new collection as
soon as it is consistent with the threads that did not move. -/
theorem informed_update_own [DecidableEq Index] (views : Index -> View Index Time) (moved : Index)
    (view : View Index Time) (others : ∀ t, t ≠ moved -> view.clock t <= (views t).clock t ∧
    ((views t).seen < view.clock t -> ∀ i, i ≠ t -> (views t).clock i <= view.clock i)) :
    Informed (Function.update views moved view) view.clock := by
  intro t
  by_cases same : t = moved
  · subst same
    simp only [update_self, le_refl, true_and, implies_true]
  · simpa only [update_of_ne same] using others t same

/-- Publishing only the own time is a full join as soon as the receiving
clock has heard from the thread since that thread last learnt something. -/
theorem Informed.sup_eq_update [DecidableEq Index] (informed : Informed views clock) {t : Index}
    (later : (views t).seen < clock t) :
    clock ⊔ (views t).clock = Function.update clock t ((views t).clock t) := by
  funext i
  by_cases same : i = t
  · subst same
    simpa only [Pi.sup_apply, update_self] using sup_eq_right.mpr (informed.le_own i)
  · simpa only [Pi.sup_apply, update_of_ne same] using
      sup_eq_left.mpr (informed.knows later same)

/-- Under the same condition, publishing the own time stores the whole clock
of the thread, if nothing else in the receiving clock exceeds it. -/
theorem Informed.update_eq_clock [DecidableEq Index] (informed : Informed views clock) {t : Index}
    (later : (views t).seen < clock t) (covered : ∀ i, i ≠ t -> clock i <= (views t).clock i) :
    Function.update clock t ((views t).clock t) = (views t).clock := by
  funext i
  by_cases same : i = t
  · subst same
    rw [update_self]
  · rw [update_of_ne same]
    exact le_antisymm (covered i same) (informed.knows later same)

end Informed

end VectorClock
end LlvmProject
