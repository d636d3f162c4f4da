import Mathlib.Algebra.BigOperators.Group.List.Basic
import Mathlib.Algebra.Order.Ring.Nat

namespace LlvmProject

open List

namespace RangeMap

/-!
# Maps given by ranges

Disjoint ranges of integers in increasing order, each with a target, are a
partial map.  It can be split at the low end of a range, adjacent ranges with
one target can be merged, and the ranges of one target can be taken out.
-/

variable {T : Type*}

structure Range (T : Type*) where
  low : Int
  high : Int
  target : T

namespace Range

/-- The number is in the range. -/
def Holds (r : Range T) (x : Int) : Prop := r.low <= x ∧ x <= r.high

instance (r : Range T) (x : Int) : Decidable (r.Holds x) :=
  inferInstanceAs (Decidable (r.low <= x ∧ x <= r.high))

/-- The number of numbers in the range. -/
def size (r : Range T) : Nat := (r.high + 1 - r.low).toNat

end Range

/-- Disjoint ranges in increasing order. -/
structure Ordered (l : List (Range T)) : Prop where
  nonempty : ∀ r ∈ l, r.low <= r.high
  apart : l.Pairwise fun r r' => r.high < r'.low

/-- The target of a number. -/
def find (l : List (Range T)) (x : Int) : Option T :=
  (l.find? fun r => decide (r.Holds x)).map Range.target

variable {r r' : Range T} {l left right : List (Range T)} {x : Int} {t : T}

/-! ## Targets -/

theorem find_cons (r : Range T) (l : List (Range T)) (x : Int) :
    find (r :: l) x = if r.Holds x then some r.target else find l x := by
  rw [find, find?_cons]
  by_cases holds : r.Holds x
  · rw [decide_eq_true holds, if_pos holds]
    rfl
  · rw [decide_eq_false holds, if_neg holds]
    rfl

theorem find_eq_none (outside : ∀ r ∈ l, ¬ r.Holds x) : find l x = none := by
  rw [find, find?_eq_none.mpr fun r mem => by
    rw [decide_eq_true_eq]
    exact outside r mem]
  rfl

theorem Ordered.of_cons (ordered : Ordered (r :: l)) : Ordered l :=
  ⟨fun a mem => ordered.nonempty a (mem_cons_of_mem r mem), (pairwise_cons.mp ordered.apart).2⟩

/-- Later ranges are above. -/
theorem Ordered.lt_low (ordered : Ordered (r :: l)) (mem : r' ∈ l) : r.high < r'.low :=
  (pairwise_cons.mp ordered.apart).1 r' mem

theorem Ordered.find_eq_some_iff (ordered : Ordered l) :
    find l x = some t ↔ ∃ r ∈ l, r.Holds x ∧ r.target = t := by
  induction l with
  | nil =>
    refine iff_of_false nofun ?_
    rintro ⟨_, mem, _⟩
    exact absurd mem not_mem_nil
  | cons r l ih =>
    rw [find_cons]
    by_cases holds : r.Holds x
    · rw [if_pos holds]
      constructor
      · intro found
        exact ⟨r, mem_cons_self, holds, Option.some.inj found⟩
      · rintro ⟨a, mem, holds', rfl⟩
        rcases mem_cons.mp mem with rfl | later
        · rfl
        · have above := ordered.lt_low later
          have within := holds.2
          have within' := holds'.1
          omega
    · rw [if_neg holds, ih ordered.of_cons]
      constructor
      · rintro ⟨a, mem, rest⟩
        exact ⟨a, mem_cons_of_mem r mem, rest⟩
      · rintro ⟨a, mem, holds', target⟩
        rcases mem_cons.mp mem with rfl | later
        · exact absurd holds' holds
        · exact ⟨a, later, holds', target⟩

/-! ## Splitting -/

theorem find_append_left (below : ∀ r ∈ right, x < r.low) : find (left ++ right) x = find left x := by
  induction left with
  | nil => exact find_eq_none fun r mem holds => Int.not_le.mpr (below r mem) holds.1
  | cons r left ih =>
    rw [List.cons_append, find_cons, find_cons, ih]

theorem find_append_right (above : ∀ r ∈ left, r.high < x) :
    find (left ++ right) x = find right x := by
  induction left with
  | nil => rfl
  | cons r left ih =>
    have notHolds : ¬ r.Holds x := fun holds =>
      Int.not_le.mpr (above r mem_cons_self) holds.2
    rw [List.cons_append, find_cons, if_neg notHolds,
      ih fun a mem => above a (mem_cons_of_mem r mem)]

theorem Ordered.append (ordered : Ordered (left ++ right)) :
    Ordered left ∧ Ordered right ∧ ∀ r ∈ left, ∀ r' ∈ right, r.high < r'.low := by
  rcases pairwise_append.mp ordered.apart with ⟨leftApart, rightApart, across⟩
  exact ⟨⟨fun r mem => ordered.nonempty r (mem_append_left _ mem), leftApart⟩,
    ⟨fun r mem => ordered.nonempty r (mem_append_right _ mem), rightApart⟩, across⟩

/-- Below the low end of a range only the ranges before it matter. -/
theorem Ordered.find_left (ordered : Ordered (left ++ r :: right)) (below : x < r.low) :
    find (left ++ r :: right) x = find left x := by
  refine find_append_left fun a mem => ?_
  rcases mem_cons.mp mem with rfl | later
  · exact below
  · rcases ordered.append with ⟨_, rest, _⟩
    have le := rest.nonempty r mem_cons_self
    have less := rest.lt_low later
    omega

/-- From the low end of a range on only the range and the later ones matter. -/
theorem Ordered.find_right (ordered : Ordered (left ++ r :: right)) (above : r.low <= x) :
    find (left ++ r :: right) x = find (r :: right) x :=
  find_append_right fun a mem =>
    Int.lt_of_lt_of_le (ordered.append.2.2 a mem r mem_cons_self) above

/-! ## Sizes -/

section Sizes

variable [DecidableEq T]

/-- The number of numbers with a target. -/
def sizeTo (t : T) (l : List (Range T)) : Nat :=
  (l.map fun r => if r.target = t then r.size else 0).sum

theorem sizeTo_cons (r : Range T) (l : List (Range T)) :
    sizeTo t (r :: l) = (if r.target = t then r.size else 0) + sizeTo t l := by
  rw [sizeTo, List.map_cons, sum_cons]
  rfl

theorem sizeTo_append (left right : List (Range T)) :
    sizeTo t (left ++ right) = sizeTo t left + sizeTo t right := by
  rw [sizeTo, map_append, List.sum_append]
  rfl

/-! ## Merging -/

/-- Merge a range with the next ones as long as they are adjacent and have its
target. -/
def mergeFrom (r : Range T) : List (Range T) -> List (Range T)
  | [] => [r]
  | r' :: l =>
    if r'.low = r.high + 1 ∧ r.target = r'.target then mergeFrom { r with high := r'.high } l
    else r :: mergeFrom r' l

section Merge

variable {next : Range T}

omit [DecidableEq T] in
/-- Two adjacent ranges as one. -/
theorem Ordered.join (ordered : Ordered (r :: next :: l)) :
    Ordered ({ r with high := next.high } :: l) := by
  have first := ordered.nonempty r mem_cons_self
  have second := ordered.of_cons.nonempty next mem_cons_self
  have less := ordered.lt_low mem_cons_self
  refine ⟨?_, pairwise_cons.mpr ⟨fun a mem => ordered.of_cons.lt_low mem,
    ordered.of_cons.of_cons.apart⟩⟩
  intro a mem
  rcases mem_cons.mp mem with rfl | later
  · change r.low <= next.high
    omega
  · exact ordered.of_cons.of_cons.nonempty a later

section

variable (ordered : Ordered (r :: l))
include ordered

theorem mergeFrom_ordered : Ordered (mergeFrom r l) ∧ ∀ a ∈ mergeFrom r l, r.low <= a.low := by
  induction l generalizing r with
  | nil =>
    refine ⟨ordered, fun a mem => ?_⟩
    exact Int.le_of_eq (congrArg Range.low (mem_singleton.mp mem).symm)
  | cons next l ih =>
    rw [mergeFrom]
    split
    · exact ih ordered.join
    · rcases ih ordered.of_cons with ⟨rest, lows⟩
      have less : r.high < next.low := ordered.lt_low mem_cons_self
      have first := ordered.nonempty r mem_cons_self
      refine ⟨⟨fun a mem => ?_, pairwise_cons.mpr ⟨fun a mem => ?_, rest.apart⟩⟩, fun a mem => ?_⟩
      · rcases mem_cons.mp mem with rfl | later
        · exact first
        · exact rest.nonempty a later
      · exact Int.lt_of_lt_of_le less (lows a mem)
      · rcases mem_cons.mp mem with rfl | later
        · exact Int.le_refl _
        · have low := lows a later
          omega

theorem find_mergeFrom (x : Int) : find (mergeFrom r l) x = find (r :: l) x := by
  induction l generalizing r with
  | nil => rfl
  | cons next l ih =>
    have first := ordered.nonempty r mem_cons_self
    have second := ordered.of_cons.nonempty next mem_cons_self
    rw [mergeFrom]
    split
    · rename_i joined
      rw [ih ordered.join, find_cons, find_cons, find_cons, joined.2]
      by_cases inFirst : r.Holds x
      · have inBoth : ({ low := r.low, high := next.high, target := next.target } : Range T).Holds x :=
          ⟨inFirst.1, by
            have within := inFirst.2
            change x <= next.high
            omega⟩
        rw [if_pos inFirst, if_pos inBoth]
      · rw [if_neg inFirst]
        refine if_congr ⟨fun holds => ?_, fun holds => ?_⟩ rfl rfl
        · have low : r.low <= x := holds.1
          have high : x <= next.high := holds.2
          have above : ¬ x <= r.high := fun within => inFirst ⟨low, within⟩
          exact ⟨by omega, high⟩
        · refine ⟨?_, holds.2⟩
          have low := holds.1
          change r.low <= x
          omega
    · rw [find_cons, ih ordered.of_cons, find_cons r]

theorem sizeTo_mergeFrom (t : T) : sizeTo t (mergeFrom r l) = sizeTo t (r :: l) := by
  induction l generalizing r with
  | nil => rfl
  | cons next l ih =>
    have first := ordered.nonempty r mem_cons_self
    have second := ordered.of_cons.nonempty next mem_cons_self
    rw [mergeFrom]
    split
    · rename_i joined
      rw [ih ordered.join, sizeTo_cons, sizeTo_cons, sizeTo_cons, <- joined.2]
      by_cases same : r.target = t
      · rw [if_pos same, if_pos same, if_pos same, <- add_assoc, Range.size, Range.size, Range.size]
        change (next.high + 1 - r.low).toNat + _ = _
        omega
      · rw [if_neg same, if_neg same, if_neg same, zero_add, zero_add]
    · rw [sizeTo_cons, ih ordered.of_cons, sizeTo_cons r]

end

end Merge

/-! ## Taking out a target -/

/-- The ranges of all other targets. -/
def without (t : T) (l : List (Range T)) : List (Range T) := l.filter fun r => decide (r.target ≠ t)

theorem Ordered.without (ordered : Ordered l) (t : T) : Ordered (without t l) :=
  ⟨fun r mem => ordered.nonempty r (mem_of_mem_filter mem), ordered.apart.filter _⟩

theorem find_without (ordered : Ordered l) (t : T) (x : Int) :
    find (without t l) x = if find l x = some t then none else find l x := by
  apply Option.ext
  intro t'
  rw [(ordered.without t).find_eq_some_iff]
  constructor
  · rintro ⟨r, mem, holds, rfl⟩
    rcases mem_filter.mp mem with ⟨inAll, other⟩
    have found := ordered.find_eq_some_iff.mpr ⟨r, inAll, holds, rfl⟩
    rw [if_neg fun same => of_decide_eq_true other (Option.some.inj (found.symm.trans same)), found]
  · intro found
    split at found
    · cases found
    · rename_i other
      rcases ordered.find_eq_some_iff.mp found with ⟨r, mem, holds, rfl⟩
      refine ⟨r, mem_filter.mpr ⟨mem, decide_eq_true fun same => other ?_⟩, holds, rfl⟩
      rw [found, same]

theorem sizeTo_without (t t' : T) (l : List (Range T)) :
    sizeTo t' (without t l) = if t' = t then 0 else sizeTo t' l := by
  induction l with
  | nil => rw [without, filter_nil]; split <;> rfl
  | cons r l ih =>
    rw [without] at ih ⊢
    by_cases same : r.target = t
    · rw [filter_cons_of_neg (by simp [same]), ih, sizeTo_cons, same]
      by_cases equal : t' = t
      · rw [if_pos equal, if_pos equal]
      · rw [if_neg equal, if_neg equal, if_neg (Ne.symm equal), zero_add]
    · rw [filter_cons_of_pos (by simp [same]), sizeTo_cons, ih, sizeTo_cons]
      by_cases equal : t' = t
      · rw [if_pos equal, if_pos equal, equal, if_neg same]
      · rw [if_neg equal, if_neg equal]

end Sizes

end RangeMap
end LlvmProject
