import Mathlib.Data.List.Basic

namespace LlvmProject

open List
namespace LinkSegment

/-!
# Segments of linked lists

Some pointers point to elements, and every element has a pointer to what comes
after it.  A segment is what is visited on the way from one pointer to another.
-/

variable {ι P : Type*} {node : ι -> P} {next next' : ι -> P} {p q : P} {l r : List ι} {a : ι}

/-- Following the links from `p` visits the elements of the list and arrives at `q`. -/
def Segment (node : ι -> P) (next : ι -> P) : P -> List ι -> P -> Prop
  | p, [], q => p = q
  | p, a :: l, q => p = node a ∧ Segment node next (next a) l q

theorem segment_append : Segment node next p (l ++ r) q ↔
    ∃ middle, Segment node next p l middle ∧ Segment node next middle r q := by
  induction l generalizing p with
  | nil => exact ⟨fun rest => ⟨p, rfl, rest⟩, fun ⟨_, same, rest⟩ => same ▸ rest⟩
  | cons a l ih =>
    constructor
    · rintro ⟨first, rest⟩
      rcases ih.mp rest with ⟨middle, left, right⟩
      exact ⟨middle, ⟨first, left⟩, right⟩
    · rintro ⟨middle, ⟨first, left⟩, right⟩
      exact ⟨first, ih.mpr ⟨middle, left, right⟩⟩

theorem segment_concat : Segment node next p (l ++ [a]) q ↔
    Segment node next p l (node a) ∧ next a = q := by
  rw [segment_append]
  constructor
  · rintro ⟨_, left, rfl, last⟩
    exact ⟨left, last⟩
  · rintro ⟨left, last⟩
    exact ⟨_, left, rfl, last⟩

section

variable (segment : Segment node next p l q)
include segment

/-- A link within a segment leads to a visited element or to its end. -/
theorem Segment.next_eq (mem : a ∈ l) : next a = q ∨ ∃ b ∈ l, next a = node b := by
  rcases append_of_mem mem with ⟨left, right, rfl⟩
  rcases segment_append.mp segment with ⟨_, -, -, rest⟩
  cases right with
  | nil => exact .inl rest
  | cons b right =>
    have visited : b ∈ left ++ a :: b :: right := by simp
    exact .inr ⟨b, visited, rest.1⟩

/-- Only the links of the visited elements matter. -/
theorem Segment.congr (same : ∀ a ∈ l, next' a = next a) : Segment node next' p l q := by
  induction l generalizing p with
  | nil => exact segment
  | cons a l ih =>
    refine ⟨segment.1, ?_⟩
    rw [same a mem_cons_self]
    exact ih segment.2 fun b mem => same b (mem_cons_of_mem a mem)

theorem Segment.update [DecidableEq ι] {other : P}
    (outside : a ∉ l) : Segment node (Function.update next a other) p l q :=
  segment.congr fun _ mem => Function.update_of_ne (ne_of_mem_of_not_mem mem outside) ..

end

/-- Taking an element out redirects the link that led to it. -/
theorem Segment.unlink [DecidableEq ι] {b : ι} (nodup : (l ++ b :: a :: r).Nodup)
    (segment : Segment node next p (l ++ b :: a :: r) q) :
    Segment node (Function.update next b (next a)) p (l ++ b :: r) q := by
  rcases segment_append.mp segment with ⟨_, left, rfl, link, right⟩
  rw [nodup_append, nodup_cons, nodup_cons] at nodup
  rcases nodup with ⟨-, ⟨notMember, -⟩, apart⟩
  refine segment_append.mpr ⟨node b, left.update fun mem => ?_, rfl, ?_⟩
  · exact apart b mem b mem_cons_self rfl
  · rw [Function.update_self]
    exact right.update fun mem => notMember (mem_cons_of_mem a mem)

end LinkSegment
end LlvmProject
