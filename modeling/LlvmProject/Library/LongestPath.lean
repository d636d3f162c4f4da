import Mathlib.Order.Bounds.Basic
import Mathlib.Order.WellFounded

namespace LlvmProject
namespace LongestPath

/-!
# Longest paths

The edges into a node are pairs of a node and a length.  In a graph without cycles the
greatest length of the paths into a node is the maximum over its edges.
-/

variable {Node : Type*} {edges : Node -> List (Node × Nat)} {value : Node -> Nat} {v : Node}

/-- There is a path of the length into the node. -/
inductive Path (edges : Node -> List (Node × Nat)) : Node -> Nat -> Prop
  | here (v : Node) : Path edges v 0
  | step {u v : Node} {length total : Nat} (edge : (u, length) ∈ edges v)
      (path : Path edges u total) : Path edges v (total + length)

/-- The greatest sum over the edges, or zero. -/
def greatest (value : Node -> Nat) (into : List (Node × Nat)) : Nat :=
  into.foldr (fun edge most => max (value edge.1 + edge.2) most) 0

theorem le_greatest {into : List (Node × Nat)} {edge : Node × Nat} (mem : edge ∈ into) :
    value edge.1 + edge.2 <= greatest value into := by
  induction into with
  | nil => cases mem
  | cons first into ih =>
    rcases List.mem_cons.mp mem with rfl | later
    · exact le_max_left _ _
    · exact (ih later).trans (le_max_right _ _)

theorem greatest_cases (value : Node -> Nat) (into : List (Node × Nat)) :
    greatest value into = 0 ∨ ∃ edge ∈ into, greatest value into = value edge.1 + edge.2 := by
  induction into with
  | nil => exact .inl rfl
  | cons first into ih =>
    have unfolded : greatest value (first :: into) =
        max (value first.1 + first.2) (greatest value into) := rfl
    rcases le_total (value first.1 + first.2) (greatest value into) with below | above
    · rw [unfolded, max_eq_right below]
      rcases ih with zero | ⟨edge, mem, same⟩
      · exact .inl zero
      · exact .inr ⟨edge, List.mem_cons_of_mem _ mem, same⟩
    · rw [unfolded, max_eq_left above]
      exact .inr ⟨first, List.mem_cons_self, rfl⟩

/-- The greatest lengths into the sources of the edges give the one into the node. -/
theorem isGreatest_greatest
    (sources : ∀ edge ∈ edges v, IsGreatest {t | Path edges edge.1 t} (value edge.1)) :
    IsGreatest {t | Path edges v t} (greatest value (edges v)) := by
  constructor
  · rcases greatest_cases value (edges v) with zero | ⟨edge, mem, same⟩
    · rw [zero]
      exact Path.here v
    · rw [same]
      exact Path.step mem (sources edge mem).1
  · intro total path
    cases path with
    | here => exact Nat.zero_le _
    | @step u _ length total edge path =>
      have most : total <= value u := (sources (u, length) edge).2 path
      exact (Nat.add_le_add_right most length).trans (le_greatest edge)

end LongestPath
end LlvmProject
