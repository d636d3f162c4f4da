import Mathlib.Data.List.Basic
import Mathlib.Order.Bounds.Basic
import Mathlib.Order.MinMax

namespace LlvmProject

open Nat List
namespace EditDistance

/-!
# Edit distances

A sequence becomes another one by inserting and removing elements and, where that is
allowed, by replacing them.  An alignment does the same from the first elements on.  Every
sequence of edits can be aligned without more edits, so the recursion on the first elements
finds the least number of them.
-/

variable {α : Type*} {puts : Bool} {xs ys zs : List α} {a b : α} {j k : Nat}

/-- A single edit. -/
inductive Edit (puts : Bool) : List α -> List α -> Prop
  | insert (pre post : List α) (b : α) : Edit puts (pre ++ post) (pre ++ b :: post)
  | remove (pre post : List α) (a : α) : Edit puts (pre ++ a :: post) (pre ++ post)
  | replace (pre post : List α) (a b : α) (allowed : puts = true) :
      Edit puts (pre ++ a :: post) (pre ++ b :: post)

/-- A number of edits after each other. -/
inductive Edits (puts : Bool) : Nat -> List α -> List α -> Prop
  | nil (xs : List α) : Edits puts 0 xs xs
  | cons {k : Nat} {xs ys zs : List α} (first : Edit puts xs ys)
      (rest : Edits puts k ys zs) : Edits puts (k + 1) xs zs

/-- Two sequences walked together from their first elements on, with the number of edits. -/
inductive Aligned (puts : Bool) : List α -> List α -> Nat -> Prop
  | nil : Aligned puts [] [] 0
  | same {xs ys : List α} {k : Nat} (a : α) (rest : Aligned puts xs ys k) :
      Aligned puts (a :: xs) (a :: ys) k
  | replace {xs ys : List α} {k : Nat} (a b : α) (allowed : puts = true)
      (rest : Aligned puts xs ys k) : Aligned puts (a :: xs) (b :: ys) (k + 1)
  | insert {xs ys : List α} {k : Nat} (b : α) (rest : Aligned puts xs ys k) :
      Aligned puts xs (b :: ys) (k + 1)
  | remove {xs ys : List α} {k : Nat} (a : α) (rest : Aligned puts xs ys k) :
      Aligned puts (a :: xs) ys (k + 1)

/-! ## Edits -/

theorem Edit.cons (a : α) (edit : Edit puts xs ys) : Edit puts (a :: xs) (a :: ys) := by
  cases edit with
  | insert pre post b => exact Edit.insert (a :: pre) post b
  | remove pre post b => exact Edit.remove (a :: pre) post b
  | replace pre post b c allowed => exact Edit.replace (a :: pre) post b c allowed

theorem Edits.map_cons (a : α) (edits : Edits puts k xs ys) : Edits puts k (a :: xs) (a :: ys) := by
  induction edits with
  | nil xs => exact Edits.nil (a :: xs)
  | cons first rest ih => exact Edits.cons (first.cons a) ih

theorem Edits.snoc (edits : Edits puts k xs ys) (last : Edit puts ys zs) :
    Edits puts (k + 1) xs zs := by
  induction edits with
  | nil xs => exact Edits.cons last (Edits.nil zs)
  | cons first rest ih => exact Edits.cons first (ih last)

theorem Edit.reverse (edit : Edit puts xs ys) : Edit puts xs.reverse ys.reverse := by
  cases edit with
  | insert pre post b =>
    simpa using @Edit.insert α puts post.reverse pre.reverse b
  | remove pre post a =>
    simpa using @Edit.remove α puts post.reverse pre.reverse a
  | replace pre post a b allowed => simpa using Edit.replace post.reverse pre.reverse a b allowed

theorem Edits.reverse (edits : Edits puts k xs ys) : Edits puts k xs.reverse ys.reverse := by
  induction edits with
  | nil xs => exact Edits.nil xs.reverse
  | cons first rest ih => exact Edits.cons first.reverse ih

theorem edits_reverse_iff : Edits puts k xs.reverse ys.reverse ↔ Edits puts k xs ys := by
  refine ⟨fun edits => ?_, Edits.reverse⟩
  simpa using edits.reverse

/-! ## Alignments -/

theorem Aligned.edits (aligned : Aligned puts xs ys k) : Edits puts k xs ys := by
  induction aligned with
  | nil => exact Edits.nil []
  | same a rest ih => exact ih.map_cons a
  | @replace xs ys k a b allowed rest ih =>
    exact Edits.cons (Edit.replace [] xs a b allowed) (ih.map_cons b)
  | @insert xs ys k b rest ih =>
    exact Edits.cons (Edit.insert [] xs b) (ih.map_cons b)
  | @remove xs ys k a rest ih =>
    exact Edits.cons (Edit.remove [] xs a) ih

theorem Aligned.refl (xs : List α) : Aligned puts xs xs 0 := by
  induction xs with
  | nil => exact Aligned.nil
  | cons a xs ih => exact Aligned.same a ih

/-- What is aligned with the second sequence is aligned with the first one, at the cost of one
more edit. -/
def Nearby (puts : Bool) (xs ys : List α) : Prop :=
  ∀ zs k, Aligned puts ys zs k -> ∃ j ≤ k + 1, Aligned puts xs zs j

theorem Nearby.cons (a : α) (nearby : Nearby puts xs ys) : Nearby puts (a :: xs) (a :: ys) := by
  intro zs k aligned
  generalize front : a :: ys = source at aligned
  induction aligned with
  | nil => exact absurd front (cons_ne_nil _ _)
  | @same xs' zs k b rest ih =>
    rcases List.cons.inj front with ⟨rfl, rfl⟩
    rcases nearby zs k rest with ⟨j, bound, aligned⟩
    exact ⟨j, bound, Aligned.same a aligned⟩
  | @replace xs' zs k b c allowed rest ih =>
    rcases List.cons.inj front with ⟨rfl, rfl⟩
    rcases nearby zs k rest with ⟨j, bound, aligned⟩
    exact ⟨j + 1, succ_le_succ bound, Aligned.replace a c allowed aligned⟩
  | insert b rest ih =>
    rcases ih front with ⟨j, bound, aligned⟩
    exact ⟨j + 1, succ_le_succ bound, Aligned.insert b aligned⟩
  | @remove xs' zs k b rest ih =>
    rcases List.cons.inj front with ⟨rfl, rfl⟩
    rcases nearby zs k rest with ⟨j, bound, aligned⟩
    exact ⟨j + 1, succ_le_succ bound, Aligned.remove a aligned⟩

theorem Nearby.append (pre : List α) (nearby : Nearby puts xs ys) :
    Nearby puts (pre ++ xs) (pre ++ ys) := by
  induction pre with
  | nil => exact nearby
  | cons a pre ih => exact ih.cons a

theorem nearby_insert (xs : List α) (b : α) : Nearby puts xs (b :: xs) := by
  intro zs k aligned
  generalize front : b :: xs = source at aligned
  induction aligned with
  | nil => exact absurd front (cons_ne_nil _ _)
  | @same xs' zs k c rest ih =>
    rcases List.cons.inj front with ⟨rfl, rfl⟩
    exact ⟨k + 1, le_refl _, Aligned.insert b rest⟩
  | @replace xs' zs k c d allowed rest ih =>
    rcases List.cons.inj front with ⟨rfl, rfl⟩
    exact ⟨k + 1, le_succ _, Aligned.insert d rest⟩
  | insert c rest ih =>
    rcases ih front with ⟨j, bound, aligned⟩
    exact ⟨j + 1, succ_le_succ bound, Aligned.insert c aligned⟩
  | @remove xs' zs k c rest ih =>
    rcases List.cons.inj front with ⟨rfl, rfl⟩
    exact ⟨k, by omega, rest⟩

theorem nearby_replace (xs : List α) (a b : α) (allowed : puts = true) :
    Nearby puts (a :: xs) (b :: xs) := by
  intro zs k aligned
  generalize front : b :: xs = source at aligned
  induction aligned with
  | nil => exact absurd front (cons_ne_nil _ _)
  | @same xs' zs k c rest ih =>
    rcases List.cons.inj front with ⟨rfl, rfl⟩
    exact ⟨k + 1, le_refl _, Aligned.replace a b allowed rest⟩
  | @replace xs' zs k c d allowed rest ih =>
    rcases List.cons.inj front with ⟨rfl, rfl⟩
    exact ⟨k + 1, le_succ _, Aligned.replace a d allowed rest⟩
  | insert c rest ih =>
    rcases ih front with ⟨j, bound, aligned⟩
    exact ⟨j + 1, succ_le_succ bound, Aligned.insert c aligned⟩
  | @remove xs' zs k c rest ih =>
    rcases List.cons.inj front with ⟨rfl, rfl⟩
    exact ⟨k + 1, le_succ _, Aligned.remove a rest⟩

theorem Edit.nearby (edit : Edit puts xs ys) : Nearby puts xs ys := by
  cases edit with
  | insert pre post b => exact (nearby_insert post b).append pre
  | remove pre post a =>
    exact Nearby.append pre fun zs k aligned => ⟨k + 1, le_refl _, Aligned.remove a aligned⟩
  | replace pre post a b allowed => exact (nearby_replace post a b allowed).append pre

/-- Edits can be aligned, without more of them. -/
theorem Edits.aligned (edits : Edits puts k xs ys) : ∃ j ≤ k, Aligned puts xs ys j := by
  induction edits with
  | nil xs => exact ⟨0, le_refl 0, Aligned.refl xs⟩
  | cons first rest ih =>
    rcases ih with ⟨j, bound, aligned⟩
    rcases first.nearby _ j aligned with ⟨i, less, nearer⟩
    exact ⟨i, by omega, nearer⟩

/-! ## The distance -/

section Distance

variable [DecidableEq α]

/-- The cost of putting one element in the place of another. -/
def substitution (puts : Bool) (a b : α) : Nat := if a = b then 0 else if puts then 1 else 2

/-- The least number of edits, found from the first elements on. -/
def distance (puts : Bool) : List α -> List α -> Nat
  | [], ys => ys.length
  | a :: xs, [] => (a :: xs).length
  | a :: xs, b :: ys =>
    min (distance puts xs ys + substitution puts a b)
      (min (distance puts (a :: xs) ys) (distance puts xs (b :: ys)) + 1)
termination_by xs ys => xs.length + ys.length

@[simp] theorem distance_nil_left (ys : List α) : distance puts [] ys = ys.length := by
  rw [distance]

@[simp] theorem distance_nil_right (xs : List α) : distance puts xs [] = xs.length := by
  cases xs <;> rw [distance]

theorem distance_cons_cons (a b : α) (xs ys : List α) :
    distance puts (a :: xs) (b :: ys) =
      min (distance puts xs ys + substitution puts a b)
        (min (distance puts (a :: xs) ys) (distance puts xs (b :: ys)) + 1) := by
  rw [distance]

theorem distance_insert_le (puts : Bool) (xs ys : List α) (b : α) :
    distance puts xs (b :: ys) <= distance puts xs ys + 1 := by
  cases xs with
  | nil => simp
  | cons a xs =>
    rw [distance_cons_cons]
    omega

theorem distance_remove_le (puts : Bool) (xs ys : List α) (a : α) :
    distance puts (a :: xs) ys <= distance puts xs ys + 1 := by
  cases ys with
  | nil => simp
  | cons b ys =>
    rw [distance_cons_cons]
    omega

theorem Aligned.distance_le (aligned : Aligned puts xs ys k) : distance puts xs ys <= k := by
  induction aligned with
  | nil => simp
  | @same xs ys k a rest ih =>
    rw [distance_cons_cons, substitution, if_pos rfl]
    omega
  | @replace xs ys k a b allowed rest ih =>
    have cost : substitution puts a b <= 1 := by
      rw [substitution, if_pos allowed]
      split <;> omega
    rw [distance_cons_cons]
    omega
  | @insert xs ys k b rest ih =>
    exact (distance_insert_le puts xs ys b).trans (succ_le_succ ih)
  | @remove xs ys k a rest ih =>
    exact (distance_remove_le puts xs ys a).trans (succ_le_succ ih)

theorem Aligned.substitution (aligned : Aligned puts xs ys k) (a b : α) :
    Aligned puts (a :: xs) (b :: ys) (k + substitution puts a b) := by
  unfold EditDistance.substitution
  by_cases same : a = b
  · rw [if_pos same, same]
    exact Aligned.same b aligned
  · rw [if_neg same]
    by_cases allowed : puts = true
    · rw [if_pos allowed]
      exact Aligned.replace a b allowed aligned
    · rw [if_neg allowed]
      exact Aligned.remove a (Aligned.insert b aligned)

theorem aligned_distance (xs ys : List α) : Aligned puts xs ys (distance puts xs ys) := by
  induction xs, ys using distance.induct with
  | case1 ys =>
    rw [distance_nil_left]
    induction ys with
    | nil => exact Aligned.nil
    | cons b ys ih => exact Aligned.insert b ih
  | case2 a xs =>
    rw [distance_nil_right]
    induction (a :: xs) with
    | nil => exact Aligned.nil
    | cons b xs ih => exact Aligned.remove b ih
  | case3 a xs b ys both inserted removed =>
    rw [distance_cons_cons]
    rcases min_choice (distance puts xs ys + EditDistance.substitution puts a b)
        (min (distance puts (a :: xs) ys) (distance puts xs (b :: ys)) + 1) with
      first | other
    · rw [first]
      exact both.substitution a b
    · rw [other]
      rcases min_choice (distance puts (a :: xs) ys) (distance puts xs (b :: ys)) with
        second | third
      · rw [second]
        exact Aligned.insert b inserted
      · rw [third]
        exact Aligned.remove a removed

theorem distance_isLeast (puts : Bool) (xs ys : List α) :
    IsLeast {k | Edits puts k xs ys} (distance puts xs ys) := by
  refine ⟨(aligned_distance xs ys).edits, fun k edits => ?_⟩
  rcases Edits.aligned edits with ⟨j, bound, aligned⟩
  exact aligned.distance_le.trans bound

theorem distance_edits (xs ys : List α) : Edits puts (distance puts xs ys) xs ys :=
  (distance_isLeast puts xs ys).1

theorem distance_reverse (xs ys : List α) :
    distance puts xs.reverse ys.reverse = distance puts xs ys := by
  refine (distance_isLeast puts xs.reverse ys.reverse).unique ?_
  simp only [edits_reverse_iff]
  exact distance_isLeast puts xs ys

/-- The distance exceeds a number exactly if no more edits than that suffice. -/
theorem lt_distance_iff : k < distance puts xs ys ↔ ∀ j ≤ k, ¬Edits puts j xs ys := by
  constructor
  · intro less j bound edits
    exact absurd ((distance_isLeast puts xs ys).2 edits) (by omega)
  · intro none
    by_contra notLess
    exact none _ (Nat.le_of_not_lt notLess) (distance_edits xs ys)

/-! ## Neighbouring distances -/

theorem distance_le_insert (puts : Bool) (xs ys : List α) (b : α) :
    distance puts xs ys <= distance puts xs (b :: ys) + 1 :=
  (distance_isLeast puts xs ys).2 ((distance_edits xs (b :: ys)).snoc (Edit.remove [] ys b))

theorem distance_le_remove (puts : Bool) (xs ys : List α) (a : α) :
    distance puts xs ys <= distance puts (a :: xs) ys + 1 :=
  (distance_isLeast puts xs ys).2
    (Edits.cons (Edit.insert [] xs a) (distance_edits (a :: xs) ys))

/-- Equal first elements are left alone. -/
theorem distance_cons_self (a : α) (xs ys : List α) :
    distance puts (a :: xs) (a :: ys) = distance puts xs ys := by
  have inserted := distance_le_remove puts xs ys a
  have removed := distance_le_insert puts xs ys a
  rw [distance_cons_cons, substitution, if_pos rfl]
  omega

/-- Without replacements different first elements are inserted or removed. -/
theorem distance_cons_of_ne (ne : a ≠ b) (xs ys : List α) :
    distance false (a :: xs) (b :: ys) =
      min (distance false (a :: xs) ys) (distance false xs (b :: ys)) + 1 := by
  have inserted := distance_remove_le false xs ys a
  have cost : substitution false a b = 2 := by simp [substitution, ne]
  rw [distance_cons_cons, cost]
  omega

theorem distance_le_length (puts : Bool) (xs ys : List α) :
    distance puts xs ys <= xs.length + ys.length := by
  induction xs with
  | nil => simp
  | cons a xs ih =>
    have removed := distance_remove_le puts xs ys a
    rw [length_cons]
    omega

/-- With one element less the sequence is at most as far from some part of the other one. -/
theorem exists_distance_le (puts : Bool) (a : α) (xs ys : List α) :
    ∃ suffix, suffix <:+ ys ∧ distance puts xs suffix <= distance puts (a :: xs) ys := by
  induction ys with
  | nil => exact ⟨[], suffix_rfl, by simp⟩
  | cons b ys ih =>
    rw [distance_cons_cons]
    rcases ih with ⟨suffix, isSuffix, near⟩
    have longer := isSuffix.trans (suffix_cons b ys)
    by_cases both : distance puts xs ys <=
        min (distance puts xs ys + substitution puts a b)
          (min (distance puts (a :: xs) ys) (distance puts xs (b :: ys)) + 1)
    · exact ⟨ys, suffix_cons b ys, both⟩
    · by_cases removed : distance puts xs (b :: ys) <=
          min (distance puts xs ys + substitution puts a b)
            (min (distance puts (a :: xs) ys) (distance puts xs (b :: ys)) + 1)
      · exact ⟨b :: ys, suffix_rfl, removed⟩
      · exact ⟨suffix, longer, by omega⟩

end Distance

end EditDistance
end LlvmProject
