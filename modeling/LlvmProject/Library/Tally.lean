import Mathlib.Algebra.BigOperators.Group.List.Basic
import Mathlib.Order.Lattice

namespace LlvmProject

open List

namespace Tally

/-!
# Tallies

A tally is a list of keys with values, in increasing order of the keys.  To
record a value under a key is to add it to the value there, or to insert it.
What is asked of a tally is the sum of the values below a key; recording adds
to it exactly when the key asked for is larger, in whatever order values are
recorded.
-/

/-- A key with a value. -/
structure Entry (K M : Type*) where
  key : K
  value : M
  deriving DecidableEq, Repr

variable {K M : Type*} [AddCommMonoid M] {k : K} {d : M} {left right : List (Entry K M)}

/-- The sum of the values. -/
def total (entries : List (Entry K M)) : M := (entries.map Entry.value).sum

theorem total_append (left right : List (Entry K M)) :
    total (left ++ right) = total left + total right := by
  rw [total, map_append, List.sum_append]
  rfl

theorem total_cons (e : Entry K M) (rest : List (Entry K M)) :
    total (e :: rest) = e.value + total rest := by
  rw [total, List.map_cons, sum_cons]
  rfl

variable [LinearOrder K]

/-- The keys strictly increase. -/
def Sorted (entries : List (Entry K M)) : Prop := entries.Pairwise fun e e' => e.key < e'.key

/-- Record a value under a key. -/
def record (k : K) (d : M) : List (Entry K M) -> List (Entry K M)
  | [] => [⟨k, d⟩]
  | e :: rest =>
    if e.key < k then e :: record k d rest
    else if e.key = k then ⟨k, e.value + d⟩ :: rest
    else ⟨k, d⟩ :: e :: rest

/-- The sum of the values under the keys below a key. -/
def below (k : K) (entries : List (Entry K M)) : M := total (entries.filter (·.key < k))

/-! ## Parts of a tally -/

theorem below_cons (i : K) (e : Entry K M) (rest : List (Entry K M)) :
    below i (e :: rest) = (if e.key < i then e.value else 0) + below i rest := by
  rw [below, filter_cons]
  by_cases smaller : e.key < i
  · rw [if_pos (decide_eq_true smaller), if_pos smaller, total_cons]
    rfl
  · rw [if_neg (by rw [decide_eq_true_eq]; exact smaller), if_neg smaller, zero_add]
    rfl

theorem below_append (k : K) (left right : List (Entry K M)) :
    below k (left ++ right) = below k left + below k right := by
  rw [below, filter_append, total_append]
  rfl

theorem below_eq_total (all : ∀ e ∈ left, e.key < k) : below k left = total left := by
  rw [below, filter_eq_self.mpr fun e mem => decide_eq_true (all e mem)]

theorem below_eq_zero (none : ∀ e ∈ left, k <= e.key) : below k left = 0 := by
  rw [below, filter_eq_nil_iff.mpr fun e mem => by
    rw [decide_eq_true_eq]
    exact not_lt_of_ge (none e mem)]
  rfl

omit [AddCommMonoid M] in
theorem Sorted.forall_lt (sorted : Sorted right) (first : ∀ e ∈ right.head?, k < e.key) :
    ∀ e ∈ right, k < e.key := by
  intro e mem
  cases right with
  | nil => exact absurd mem not_mem_nil
  | cons least right =>
    have bound := first least rfl
    rcases mem_cons.mp mem with rfl | later
    · exact bound
    · exact lt_trans bound ((pairwise_cons.mp sorted).1 e later)

theorem record_append (passed : ∀ e ∈ left, e.key < k) :
    record k d (left ++ right) = left ++ record k d right := by
  induction left with
  | nil => rfl
  | cons e left ih =>
    rw [List.cons_append, record, if_pos (passed e mem_cons_self),
      ih fun e' mem => passed e' (mem_cons_of_mem e mem),
      List.cons_append]

theorem record_of_lt (after : ∀ e ∈ right, k < e.key) : record k d right = ⟨k, d⟩ :: right := by
  cases right with
  | nil => rfl
  | cons e right =>
    have larger := after e mem_cons_self
    rw [record, if_neg (not_lt_of_gt larger), if_neg (ne_of_gt larger)]

theorem record_append_of_lt (after : ∀ e ∈ right, k < e.key) :
    record k d (left ++ right) = record k d left ++ right := by
  induction left with
  | nil => rw [nil_append, record_of_lt after, record, singleton_append]
  | cons e left ih =>
    rw [List.cons_append, record, record, ih]
    split_ifs <;> rfl

theorem record_cons_self (value : M) :
    record k d (⟨k, value⟩ :: right) = ⟨k, value + d⟩ :: right := by
  rw [record, if_neg (lt_irrefl k), if_pos rfl]

/-! ## What recording does -/

theorem mem_record_key {e : Entry K M} (mem : e ∈ record k d left) :
    e.key = k ∨ ∃ e' ∈ left, e'.key = e.key := by
  induction left with
  | nil =>
    rcases mem_singleton.mp mem with rfl
    exact .inl rfl
  | cons first left ih =>
    rw [record] at mem
    split_ifs at mem with smaller same
    · rcases mem_cons.mp mem with rfl | later
      · exact .inr ⟨e, mem_cons_self, rfl⟩
      · rcases ih later with here | ⟨e', inLeft, equal⟩
        · exact .inl here
        · exact .inr ⟨e', mem_cons_of_mem first inLeft, equal⟩
    · rcases mem_cons.mp mem with rfl | later
      · exact .inl rfl
      · exact .inr ⟨e, mem_cons_of_mem first later, rfl⟩
    · rcases mem_cons.mp mem with rfl | later
      · exact .inl rfl
      · exact .inr ⟨e, later, rfl⟩

theorem Sorted.record (sorted : Sorted left) (k : K) (d : M) : Sorted (record k d left) := by
  induction left with
  | nil => exact pairwise_singleton _ _
  | cons e left ih =>
    rcases pairwise_cons.mp sorted with ⟨smallest, rest⟩
    rw [Tally.record]
    split_ifs with smaller same
    · refine pairwise_cons.mpr ⟨fun e' mem => ?_, ih rest⟩
      rcases mem_record_key mem with here | ⟨e'', inLeft, equal⟩
      · exact here ▸ smaller
      · exact equal ▸ smallest e'' inLeft
    · exact pairwise_cons.mpr ⟨fun e' mem => same ▸ smallest e' mem, rest⟩
    · have larger : k < e.key := lt_of_le_of_ne (not_lt.mp smaller) (Ne.symm same)
      refine pairwise_cons.mpr ⟨fun e' mem => ?_, sorted⟩
      rcases mem_cons.mp mem with rfl | later
      · exact larger
      · exact lt_trans larger (smallest e' later)

theorem total_record (k : K) (d : M) (entries : List (Entry K M)) :
    total (record k d entries) = total entries + d := by
  induction entries with
  | nil =>
    rw [record, total_cons]
    exact add_comm d _
  | cons e rest ih =>
    rw [record]
    split_ifs
    · rw [total_cons, ih, total_cons, add_assoc]
    · rw [total_cons, total_cons, add_right_comm]
    · rw [total_cons, add_comm d]

/-- Recording adds to the sums below all larger keys. -/
theorem below_record (k : K) (d : M) (i : K) (entries : List (Entry K M)) :
    below i (record k d entries) = below i entries + if k < i then d else 0 := by
  induction entries with
  | nil =>
    rw [record, below_cons]
    exact add_comm _ _
  | cons e rest ih =>
    rw [record]
    by_cases smaller : e.key < k
    · rw [if_pos smaller, below_cons, ih, below_cons, add_assoc]
    rw [if_neg smaller]
    by_cases same : e.key = k
    · rw [if_pos same, below_cons, below_cons, same, add_right_comm]
      by_cases bound : k < i
      · rw [if_pos bound, if_pos bound, if_pos bound]
      · rw [if_neg bound, if_neg bound, if_neg bound, add_zero]
    · rw [if_neg same, below_cons, add_comm]

end Tally
end LlvmProject
