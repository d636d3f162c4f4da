import Mathlib.Logic.Function.Basic

namespace LlvmProject

open List Function

namespace Sweep

/-!
# Sweeps over cells

A loop that visits some cells of a store, each at most once, and at each visit
gives the visited cell its new content and leaves the other cells alone.  The
step may read the whole current store.  It has to reach its target only while
the visited cell still holds what it held before the loop, which is the case
because no cell is visited twice.

The loop also remembers, in a flag, whether some visited cell changed.
-/

universe u v w

variable {State : Type u} {Cell : Type v} {Content : Type w} [DecidableEq Cell]

/-- What one visit does: an invariant is kept, the visited cell gets its target
and the flag is raised exactly if that changes the cell. -/
structure Visits (view : State -> Cell -> Content) (flag : State -> Bool) (inv : State -> Prop)
    (start target : Cell -> Content) (state : State) (cell : Cell) (next : State) : Prop where
  kept : inv next
  view : view next = update (view state) cell (target cell)
  flag : flag next = true ↔ flag state = true ∨ target cell ≠ start cell

/-- After the loop the visited cells hold their targets, the others what they
held before, and the flag tells whether a visited cell changed. -/
theorem foldl_sweep (view : State -> Cell -> Content) (flag : State -> Bool) (inv : State -> Prop)
    (start target : Cell -> Content) (step : State -> Cell -> State) {cells : List Cell} (distinct :
    cells.Nodup) {state : State} (holds : inv state) (untouched : ∀ cell ∈ cells, view state cell =
    start cell) (visits : ∀ state, ∀ cell ∈ cells, inv state -> view state cell = start cell ->
    Visits view flag inv start target state cell (step state cell)) :
    inv (cells.foldl step state) ∧
      (∀ cell ∈ cells, view (cells.foldl step state) cell = target cell) ∧
      (∀ cell, cell ∉ cells -> view (cells.foldl step state) cell = view state cell) ∧
      (flag (cells.foldl step state) = true ↔
        flag state = true ∨ ∃ cell ∈ cells, target cell ≠ start cell) := by
  induction cells generalizing state with
  | nil =>
    refine ⟨holds, fun _ none => absurd none not_mem_nil, fun _ _ => rfl, ?_⟩
    refine (or_iff_left ?_).symm
    rintro ⟨_, none, _⟩
    exact not_mem_nil none
  | cons first rest ih =>
    have fresh : first ∉ rest := (nodup_cons.mp distinct).1
    have visit := visits state first mem_cons_self holds
      (untouched first mem_cons_self)
    have later : ∀ cell ∈ rest, view (step state first) cell = start cell := by
      intro cell mem
      have other : cell ≠ first := fun same => fresh (same ▸ mem)
      rw [visit.view, update_of_ne other]
      exact untouched cell (mem_cons_of_mem first mem)
    rcases ih (nodup_cons.mp distinct).2 visit.kept later
      (fun state cell mem => visits state cell (mem_cons_of_mem first mem)) with
      ⟨kept, reached, left, raised⟩
    refine ⟨kept, ?_, ?_, ?_⟩
    · intro cell mem
      rcases mem_cons.mp mem with rfl | mem
      · exact (left cell fresh).trans ((congrFun visit.view cell).trans (update_self ..))
      · exact reached cell mem
    · intro cell absent
      rcases not_or.mp (mt mem_cons.mpr absent) with ⟨other, absent⟩
      exact (left cell absent).trans
        ((congrFun visit.view cell).trans (update_of_ne other ..))
    · refine raised.trans ?_
      rw [visit.flag, or_assoc]
      simp only [mem_cons, exists_eq_or_imp]

end Sweep
end LlvmProject
