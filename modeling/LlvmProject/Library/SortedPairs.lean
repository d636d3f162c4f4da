import Mathlib.Data.Finset.Sort

namespace LlvmProject

open List

namespace SortedPairs

/-!
# Maps as sorted lists of pairs

A finite map is a list of pairs with strictly increasing keys, the order in
which an ordered map is iterated.
-/

universe u v

variable {K : Type u} {V : Type v} [LinearOrder K]

/-- A finite set of keys in the order in which an ordered set is iterated. -/
abbrev inOrder (keys : Finset K) : List K := keys.sort (· <= ·)

def Sorted (pairs : List (K × V)) : Prop := pairs.Pairwise fun a b => a.1 < b.1

def find (key : K) : List (K × V) -> Option V
  | [] => none
  | (k, value) :: rest => if k = key then some value else find key rest

/-- The value at the key is replaced, or a new one inserted. -/
def alter (key : K) (f : Option V -> V) : List (K × V) -> List (K × V)
  | [] => [(key, f none)]
  | (k, value) :: rest =>
    if key < k then (key, f none) :: (k, value) :: rest
    else if key = k then (k, f (some value)) :: rest
    else (k, value) :: alter key f rest

def erase (key : K) (pairs : List (K × V)) : List (K × V) :=
  pairs.filter fun pair => decide (pair.1 ≠ key)

attribute [local simp] find alter

variable {pairs rest : List (K × V)} {key k : K} {value : V} {f : Option V -> V}

theorem mem_of_find (found : find key pairs = some value) : (key, value) ∈ pairs := by
  induction pairs with
  | nil => exact absurd found nofun
  | cons pair rest ih =>
    rcases pair with ⟨k, first⟩
    rw [find] at found
    by_cases same : k = key
    · rw [if_pos same] at found
      cases found
      exact same ▸ mem_cons_self
    · rw [if_neg same] at found
      exact mem_cons_of_mem _ (ih found)

theorem find_of_mem (sorted : Sorted pairs) (mem : (key, value) ∈ pairs) :
    find key pairs = some value := by
  induction pairs with
  | nil => exact absurd mem not_mem_nil
  | cons pair rest ih =>
    rcases pair with ⟨k, first⟩
    rcases pairwise_cons.mp sorted with ⟨above, sorted⟩
    rw [find]
    rcases mem_cons.mp mem with same | later
    · cases same
      exact if_pos rfl
    · rw [if_neg (ne_of_lt (above _ later))]
      exact ih sorted later

theorem mem_iff_find (sorted : Sorted pairs) : (key, value) ∈ pairs ↔ find key pairs = some value :=
  ⟨find_of_mem sorted, mem_of_find⟩

theorem find_none_of_lt (above : ∀ pair ∈ pairs, key < pair.1) : find key pairs = none := by
  induction pairs with
  | nil => rfl
  | cons pair rest ih =>
    rw [find, if_neg (ne_of_gt (above pair mem_cons_self))]
    exact ih fun pair mem => above pair (mem_cons_of_mem _ mem)

theorem mem_alter (sorted : Sorted pairs) : (k, value) ∈ alter key f pairs ↔
    k = key ∧ value = f (find key pairs) ∨ k ≠ key ∧ (k, value) ∈ pairs := by
  induction pairs with
  | nil => simp
  | cons pair rest ih =>
    rcases pair with ⟨first, content⟩
    rcases pairwise_cons.mp sorted with ⟨above, sorted⟩
    rw [alter, find]
    by_cases before : key < first
    · have absent : find key rest = none :=
        find_none_of_lt fun pair mem => lt_trans before (above pair mem)
      have notIn : ∀ value, (key, value) ∉ (first, content) :: rest := by
        intro value mem
        rcases mem_cons.mp mem with same | later
        · cases same
          exact lt_irrefl _ before
        · exact lt_asymm before (above _ later)
      rw [if_pos before, if_neg (ne_of_gt before), absent, mem_cons, Prod.mk.injEq]
      refine or_congr_right ⟨fun mem => ⟨?_, mem⟩, And.right⟩
      rintro rfl
      exact notIn value mem
    · rw [if_neg before]
      by_cases same : key = first
      · subst same
        rw [if_pos rfl, if_pos rfl, mem_cons, mem_cons, Prod.mk.injEq, Prod.mk.injEq]
        refine or_congr_right ⟨fun later => ⟨ne_of_gt (above _ later), .inr later⟩, ?_⟩
        rintro ⟨other, here | later⟩
        · exact absurd here.1 other
        · exact later
      · rw [if_neg same, if_neg (Ne.symm same), mem_cons, mem_cons, ih sorted, Prod.mk.injEq]
        constructor
        · rintro (⟨rfl, rfl⟩ | here | ⟨other, later⟩)
          · exact .inr ⟨Ne.symm same, .inl ⟨rfl, rfl⟩⟩
          · exact .inl here
          · exact .inr ⟨other, .inr later⟩
        · rintro (here | ⟨other, here | later⟩)
          · exact .inr (.inl here)
          · exact .inl here
          · exact .inr (.inr ⟨other, later⟩)

theorem alter_ne_nil : alter key f pairs ≠ [] := by
  cases pairs with
  | nil => exact cons_ne_nil _ _
  | cons pair rest =>
    rw [alter]
    by_cases before : key < pair.1
    · rw [if_pos before]
      exact cons_ne_nil _ _
    · rw [if_neg before]
      by_cases same : key = pair.1
      · rw [if_pos same]
        exact cons_ne_nil _ _
      · rw [if_neg same]
        exact cons_ne_nil _ _

section

variable (sorted : Sorted pairs)
include sorted

theorem sorted_alter : Sorted (alter key f pairs) := by
  induction pairs with
  | nil => exact pairwise_singleton ..
  | cons pair rest ih =>
    rcases pair with ⟨first, content⟩
    rcases pairwise_cons.mp sorted with ⟨above, sortedRest⟩
    rw [alter]
    by_cases before : key < first
    · rw [if_pos before]
      refine pairwise_cons.mpr ⟨fun pair mem => ?_, sorted⟩
      rcases mem_cons.mp mem with rfl | later
      · exact before
      · exact lt_trans before (above pair later)
    · rw [if_neg before]
      by_cases same : key = first
      · rw [if_pos same]
        exact pairwise_cons.mpr ⟨above, sortedRest⟩
      · rw [if_neg same]
        refine pairwise_cons.mpr ⟨fun pair mem => ?_, ih sortedRest⟩
        rcases (mem_alter sortedRest).mp (show (pair.1, pair.2) ∈ _ from mem) with
          ⟨here, -⟩ | ⟨-, later⟩
        · exact here ▸ lt_of_le_of_ne (not_lt.mp before) (Ne.symm same)
        · exact above pair later

theorem find_alter : find k (alter key f pairs) =
    if k = key then some (f (find key pairs)) else find k pairs := by
  apply Option.ext
  intro value
  rw [<- mem_iff_find (sorted_alter sorted), mem_alter sorted]
  by_cases same : k = key
  · rw [if_pos same, Option.some.injEq]
    exact ⟨fun found => (found.resolve_right fun other => other.1 same).2.symm,
      fun found => .inl ⟨same, found.symm⟩⟩
  · rw [if_neg same, <- mem_iff_find sorted]
    exact ⟨fun found => (found.resolve_left fun other => same other.1).2,
      fun found => .inr ⟨same, found⟩⟩

theorem sorted_erase : Sorted (erase key pairs) := List.Pairwise.filter _ sorted

theorem find_erase : find k (erase key pairs) = if k = key then none else find k pairs := by
  apply Option.ext
  intro value
  rw [<- mem_iff_find (sorted_erase sorted), erase, mem_filter, decide_eq_true_iff]
  by_cases same : k = key
  · rw [if_pos same]
    exact ⟨fun found => absurd same found.2, nofun⟩
  · rw [if_neg same, <- mem_iff_find sorted]
    exact and_iff_left same

end

end SortedPairs
end LlvmProject
