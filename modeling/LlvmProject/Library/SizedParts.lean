import Mathlib.Algebra.Order.Ring.Nat
import Mathlib.Algebra.BigOperators.Group.List.Basic

namespace LlvmProject

open List
namespace SizedParts

/-!
# Sequences of sized parts

A sequence of parts that all have a positive size can be cut at an offset in at
most one way.  When it is also a concatenation of two sequences, the cut is a
cut of the first or of the second of them, whichever the offset is in.
-/

variable {β : Type*} {size : β -> Nat} {l r front back parts : List β}

/-- The sum of the sizes of the parts. -/
def extent (size : β -> Nat) (parts : List β) : Nat := (parts.map size).sum

theorem extent_nil : extent size [] = 0 := rfl

theorem extent_cons (part : β) : extent size (part :: parts) = size part + extent size parts := by
  rw [extent, map_cons, sum_cons, extent]

theorem extent_append (l r : List β) : extent size (l ++ r) = extent size l + extent size r := by
  rw [extent, map_append, sum_append, extent, extent]

theorem eq_nil_of_extent_eq_zero (pos : ∀ part ∈ parts, 0 < size part)
    (zero : extent size parts = 0) : parts = [] := by
  cases parts with
  | nil => rfl
  | cons part parts =>
    have here := pos part mem_cons_self
    rw [extent_cons] at zero
    omega

theorem extent_pos (pos : ∀ part ∈ parts, 0 < size part) (nonempty : parts ≠ []) :
    0 < extent size parts :=
  pos_of_ne_zero fun zero => nonempty (eq_nil_of_extent_eq_zero pos zero)

/-- A cut up to the end of the first sequence is in the first sequence. -/
theorem cut_first (pos : ∀ part ∈ l, 0 < size part) (same : l ++ r = front ++ back)
    (early : extent size l <= extent size front) :
    ∃ middle, front = l ++ middle ∧ r = middle ++ back := by
  rcases append_eq_append_iff.mp same with ⟨middle, inFront, inBack⟩ | ⟨rest, inLeft, inBack⟩
  · exact ⟨middle, inFront, inBack⟩
  · have none : rest = [] := by
      apply eq_nil_of_extent_eq_zero fun part mem =>
        pos part (inLeft ▸ mem_append_right _ mem)
      rw [inLeft, extent_append] at early
      omega
    refine ⟨[], ?_, ?_⟩
    · rw [inLeft, none, append_nil, append_nil]
    · rw [inBack, none, nil_append, nil_append]

/-- A cut from the end of the first sequence on is in the second sequence. -/
theorem cut_second (pos : ∀ part ∈ front, 0 < size part) (same : l ++ r = front ++ back)
    (late : extent size front <= extent size l) :
    ∃ middle, l = front ++ middle ∧ back = middle ++ r :=
  cut_first pos same.symm late

end SizedParts
end LlvmProject
