import Mathlib.Data.List.Sort

namespace LlvmProject

open List

/-!
# Sorting by an operator that compares keys
-/

/-- `std::stable_sort` with the operator. -/
def stable_sort {α : Type*} (less : α -> α -> Bool) (entries : List α) : List α :=
  entries.mergeSort fun lhs rhs => !less rhs lhs

theorem pairwise_stable_sort {α κ : Type*} [LinearOrder κ] {less : α -> α -> Bool} (key : α -> κ)
    (compares : ∀ x y, less x y = true ↔ key x < key y) (entries : List α) :
    (stable_sort less entries).Pairwise fun x y => key x <= key y := by
  have le : ∀ x y, (!less y x) = true ↔ key x <= key y := by
    intro x y
    rw [Bool.not_eq_true', Bool.eq_false_iff, Ne, compares, not_lt]
  refine (pairwise_mergeSort (fun x y z => ?_) (fun x y => ?_) entries).imp fun {x y} =>
    (le x y).mp
  · simp only [le]
    exact le_trans
  · rw [Bool.or_eq_true, le, le]
    exact le_total _ _

end LlvmProject
