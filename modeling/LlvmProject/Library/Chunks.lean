import Mathlib.Algebra.BigOperators.Group.List.Basic
import Mathlib.Data.List.Pairwise
import Mathlib.Algebra.Order.Ring.Nat

namespace LlvmProject

open List

namespace Chunks

/-!
# Partitions into chunks

A stretch of units, numbered from zero, is divided into chunks: nonempty,
pairwise disjoint and as long together as the whole stretch.  The order of the
chunks does not matter.  Cutting one chunk in two and joining two chunks that
touch are the same step read in two directions.
-/

/-- The units from `start` on, `len` of them. -/
structure Chunk where
  start : Nat
  len : Nat
deriving DecidableEq

/-- The chunks have no unit in common. -/
def Apart (c d : Chunk) : Prop := c.start + c.len <= d.start ∨ d.start + d.len <= c.start

theorem Apart.symm {c d : Chunk} (apart : Apart c d) : Apart d c := Or.symm apart

instance : Std.Symm Apart := ⟨fun _ _ => Apart.symm⟩

structure Partition (total : Nat) (chunks : List Chunk) : Prop where
  within : ∀ c ∈ chunks, 0 < c.len ∧ c.start + c.len <= total
  apart : chunks.Pairwise Apart
  sum : (chunks.map Chunk.len).sum = total

variable {total : Nat} {chunks chunks' rest : List Chunk} {c d : Chunk}

theorem Partition.single (some' : 0 < total) : Partition total [⟨0, total⟩] := by
  refine ⟨fun c mem => ?_, pairwise_singleton .., add_zero total⟩
  rcases mem_singleton.mp mem with rfl
  exact ⟨some', le_of_eq (zero_add total)⟩

section

variable (partition : Partition total chunks)
include partition

theorem Partition.perm (same : chunks.Perm chunks') :
    Partition total chunks' :=
  ⟨fun c mem => partition.within c (same.mem_iff.mpr mem),
    (same.pairwise_iff Apart.symm).mp partition.apart,
    (same.map Chunk.len).sum_eq.symm.trans partition.sum⟩

theorem Partition.apart_of_ne (first : c ∈ chunks)
    (second : d ∈ chunks) (other : c.start ≠ d.start) : Apart c d :=
  partition.apart.forall first second fun same => other (same ▸ rfl)

theorem Partition.nodup_start : (chunks.map Chunk.start).Nodup := by
  refine pairwise_map.mpr (partition.apart.imp_of_mem fun {c d} first second apart => ?_)
  have firstLen := (partition.within c first).1
  have secondLen := (partition.within d second).1
  rcases apart with apart | apart <;> omega

theorem Partition.not_inside (first : c ∈ chunks)
    (second : d ∈ chunks) : ¬(c.start < d.start ∧ d.start < c.start + c.len) := by
  rintro ⟨after, before⟩
  have len := (partition.within d second).1
  rcases partition.apart_of_ne first second (ne_of_lt after) with apart | apart <;> omega

end

/-- Cutting a chunk in two, and joining two chunks that touch. -/
theorem partition_cut_iff {start first second : Nat} (some' : 0 < first) (some'' : 0 < second) :
    Partition total (⟨start, first + second⟩ :: rest) ↔
      Partition total (⟨start, first⟩ :: ⟨start + first, second⟩ :: rest) := by
  constructor
  · rintro ⟨within, apart, sum⟩
    rcases pairwise_cons.mp apart with ⟨others, apart⟩
    have whole : start + (first + second) <= total := (within _ mem_cons_self).2
    refine ⟨?_, ?_, ?_⟩
    · simp only [forall_mem_cons]
      refine ⟨⟨some', by omega⟩, ⟨some'', by omega⟩, fun c mem => ?_⟩
      exact within c (mem_cons_of_mem _ mem)
    · refine pairwise_cons.mpr ⟨?_, pairwise_cons.mpr ⟨?_, apart⟩⟩
      · simp only [forall_mem_cons]
        refine ⟨.inl (le_refl _), fun c mem => ?_⟩
        rcases others c mem with left | right
        · exact .inl (by simp only at left ⊢; omega)
        · exact .inr right
      · intro c mem
        rcases others c mem with left | right
        · exact .inl (by simp only at left ⊢; omega)
        · exact .inr (by simp only at right ⊢; omega)
    · simpa [add_assoc] using sum
  · rintro ⟨within, apart, sum⟩
    rcases pairwise_cons.mp apart with ⟨others, apart⟩
    rcases pairwise_cons.mp apart with ⟨others', apart⟩
    have whole : start + first + second <= total := (within _ (mem_cons_of_mem _ mem_cons_self)).2
    refine ⟨?_, ?_, ?_⟩
    · simp only [forall_mem_cons]
      refine ⟨⟨by omega, by omega⟩, fun c mem => ?_⟩
      exact within c (mem_cons_of_mem _ (mem_cons_of_mem _ mem))
    · refine pairwise_cons.mpr ⟨fun c mem => ?_, apart⟩
      have len := (within c (mem_cons_of_mem _ (mem_cons_of_mem _ mem))).1
      rcases others c (mem_cons_of_mem _ mem) with left | right
      · rcases others' c mem with left' | right'
        · exact .inl (by simp only at left' ⊢; omega)
        · exact absurd right' (by simp only at left right' ⊢; omega)
      · exact .inr right
    · simpa [add_assoc] using sum

end Chunks
end LlvmProject
