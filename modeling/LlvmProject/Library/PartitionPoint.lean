import Mathlib.Data.List.TakeWhile

namespace LlvmProject

open List

namespace PartitionPoint

/-!
# Partition points

A binary search in a list whose entries with a property come before those without it finds the
position where the latter begin.
-/

variable {α : Type*} {p : α -> Bool} {xs : List α} {i : Nat} {x : α}

/-- The position of the first entry without the property. -/
def partitionPoint (p : α -> Bool) (xs : List α) : Nat := (xs.takeWhile p).length

theorem partitionPoint_le (p : α -> Bool) (xs : List α) : partitionPoint p xs <= xs.length :=
  (List.takeWhile_prefix p).length_le

/-- What comes before an entry with the property has it too. -/
def Partitioned (p : α -> Bool) (xs : List α) : Prop :=
  xs.Pairwise fun x y => p y = true -> p x = true

theorem lt_partitionPoint_iff (partitioned : Partitioned p xs) (entry : xs[i]? = some x) :
    i < partitionPoint p xs ↔ p x = true := by
  induction xs generalizing i with
  | nil => cases entry
  | cons first rest ih =>
    rw [Partitioned, pairwise_cons] at partitioned
    rw [partitionPoint, takeWhile_cons]
    cases i with
    | zero =>
      cases entry
      cases p x <;> simp
    | succ i =>
      rw [getElem?_cons_succ] at entry
      by_cases holds : p first = true
      · rw [if_pos holds, length_cons, Nat.succ_lt_succ_iff]
        exact ih partitioned.2 entry
      · rw [if_neg holds]
        refine iff_of_false (Nat.not_lt_zero _) fun later => ?_
        exact holds (partitioned.1 x (mem_of_getElem? entry) later)

theorem mem_takeWhile_iff (partitioned : Partitioned p xs) :
    x ∈ xs.takeWhile p ↔ x ∈ xs ∧ p x = true := by
  constructor
  · exact fun mem => ⟨(List.takeWhile_prefix p).subset mem, mem_takeWhile_imp mem⟩
  · rintro ⟨mem, holds⟩
    rcases getElem?_of_mem mem with ⟨i, entry⟩
    have early := (lt_partitionPoint_iff partitioned entry).mpr holds
    rcases List.takeWhile_prefix (p := p) (l := xs) with ⟨rest, whole⟩
    rw [<- whole, getElem?_append_left early] at entry
    exact mem_of_getElem? entry

end PartitionPoint
end LlvmProject
