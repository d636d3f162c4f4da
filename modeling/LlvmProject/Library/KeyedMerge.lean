import Mathlib.Data.List.Basic
import Mathlib.Order.Lattice

namespace LlvmProject

open List

namespace KeyedMerge

/-!
# Merging sequences sorted by keys

Two sequences with strictly increasing keys are walked together.  What becomes
of an element depends on whether its key is in one of them or in both.
-/

variable {E K : Type*} [LinearOrder K] {key : E -> K}

/-- Strictly increasing keys. -/
def Sorted (key : E -> K) (l : List E) : Prop := l.Pairwise fun e e' => key e < key e'

/-- Walk two sequences together, with what becomes of the elements of the
first alone, of the second alone, and of two elements with one key. -/
def merge (key : E -> K) (first second : E -> Option E) (both : E -> E -> Option E) :
    List E -> List E -> List E
  | [], l' => l'.filterMap second
  | e :: l, [] => (e :: l).filterMap first
  | e :: l, e' :: l' =>
    if key e' < key e then (second e').toList ++ merge key first second both (e :: l) l'
    else if key e = key e' then (both e e').toList ++ merge key first second both l l'
    else (first e).toList ++ merge key first second both l (e' :: l')
termination_by l l' => l.length + l'.length

/-! ## Sorted sequences -/

variable {l : List E}

theorem Sorted.of_cons {e : E} (sorted : Sorted key (e :: l)) : Sorted key l :=
  (pairwise_cons.mp sorted).2

theorem Sorted.head_lt {e a : E} (sorted : Sorted key (e :: l)) (mem : a ∈ l) :
    key e < key a :=
  (pairwise_cons.mp sorted).1 a mem

theorem Sorted.head_le {e a : E} (sorted : Sorted key (e :: l)) (mem : a ∈ e :: l) :
    key e <= key a := by
  rcases mem_cons.mp mem with rfl | later
  · exact le_refl _
  · exact (sorted.head_lt later).le

/-- The order of the keys is the order of the positions. -/
theorem Sorted.key_lt_iff (sorted : Sorted key l) {i j : Nat} {a b : E}
    (first : l[i]? = some a) (second : l[j]? = some b) : key a < key b ↔ i < j := by
  rcases List.getElem?_eq_some_iff.mp first with ⟨firstWithin, rfl⟩
  rcases List.getElem?_eq_some_iff.mp second with ⟨secondWithin, rfl⟩
  have ordered := pairwise_iff_getElem.mp sorted
  constructor
  · intro less
    by_contra notBefore
    rcases eq_or_lt_of_le (Nat.le_of_not_lt notBefore) with rfl | after
    · exact absurd less (lt_irrefl _)
    · exact absurd (less.trans (ordered j i secondWithin firstWithin after)) (lt_irrefl _)
  · exact ordered i j firstWithin secondWithin

/-- A key belongs to one element. -/
theorem Sorted.eq_of_key_eq (sorted : Sorted key l) {a b : E} (inFirst : a ∈ l)
    (inSecond : b ∈ l) (same : key a = key b) : a = b := by
  by_contra ne
  have apart := List.Pairwise.forall_of_forall_of_flip (R := fun e e' => key e ≠ key e' ∨ e = e')
    (fun e _ => .inr rfl) (sorted.imp fun less => .inl less.ne)
    (sorted.imp fun less => .inl less.ne') inFirst inSecond
  rcases apart with keys | equal
  · exact keys same
  · exact ne equal

theorem Sorted.eq_of_mem_iff {l l' : List E} (sorted : Sorted key l) (sorted' : Sorted key l')
    (same : ∀ e, e ∈ l ↔ e ∈ l') : l = l' := by
  have nodup : l.Nodup := sorted.imp fun less equal => less.ne (congrArg key equal)
  have nodup' : l'.Nodup := sorted'.imp fun less equal => less.ne (congrArg key equal)
  refine List.Perm.eq_of_pairwise (fun e e' _ _ less less' => ?_) sorted sorted'
    ((perm_ext_iff_of_nodup nodup nodup').mpr same)
  exact absurd (less.trans less') (lt_irrefl _)

/-! ## Elements with one key -/

section Pairs

variable {l l' : List E} {e e' : E} {P : E -> E -> Prop}

/-- Elements of two sequences with one key that are related. -/
def HasPair (key : E -> K) (P : E -> E -> Prop) (l l' : List E) : Prop :=
  ∃ e ∈ l, ∃ e' ∈ l', key e = key e' ∧ P e e'

theorem hasPair_skip_second (sorted : Sorted key (e :: l)) (before : key e' < key e) :
    HasPair key P (e :: l) (e' :: l') ↔ HasPair key P (e :: l) l' := by
  constructor
  · rintro ⟨a, inFirst, a', inSecond, same, related⟩
    rcases mem_cons.mp inSecond with rfl | later
    · exact absurd same (before.trans_le (sorted.head_le inFirst)).ne'
    · exact ⟨a, inFirst, a', later, same, related⟩
  · rintro ⟨a, inFirst, a', inSecond, both⟩
    exact ⟨a, inFirst, a', mem_cons_of_mem e' inSecond, both⟩

theorem hasPair_skip_first (sorted : Sorted key (e' :: l')) (before : key e < key e') :
    HasPair key P (e :: l) (e' :: l') ↔ HasPair key P l (e' :: l') := by
  constructor
  · rintro ⟨a, inFirst, a', inSecond, same, related⟩
    rcases mem_cons.mp inFirst with rfl | later
    · exact absurd same (before.trans_le (sorted.head_le inSecond)).ne
    · exact ⟨a, later, a', inSecond, same, related⟩
  · rintro ⟨a, inFirst, both⟩
    exact ⟨a, mem_cons_of_mem e inFirst, both⟩

theorem hasPair_both (sorted : Sorted key (e :: l)) (sorted' : Sorted key (e' :: l'))
    (same : key e = key e') :
    HasPair key P (e :: l) (e' :: l') ↔ P e e' ∨ HasPair key P l l' := by
  constructor
  · rintro ⟨a, inFirst, a', inSecond, sameKey, related⟩
    rcases mem_cons.mp inFirst with rfl | later
    · have equal : a' = e' :=
        sorted'.eq_of_key_eq inSecond mem_cons_self (sameKey.symm.trans same)
      exact .inl (equal ▸ related)
    · rcases mem_cons.mp inSecond with rfl | later'
      · exact absurd (sameKey.trans same.symm) (sorted.head_lt later).ne'
      · exact .inr ⟨a, later, a', later', sameKey, related⟩
  · rintro (related | ⟨a, inFirst, a', inSecond, both⟩)
    · exact ⟨e, mem_cons_self, e', mem_cons_self, same, related⟩
    · exact ⟨a, mem_cons_of_mem e inFirst, a', mem_cons_of_mem e' inSecond, both⟩

end Pairs

/-! ## Merged sequences -/

section Merge

variable {first second : E -> Option E} {both : E -> E -> Option E} {l l' : List E} {x : E}

/-- An element of a merged sequence comes from an element of one of the
sequences whose key the other does not have, or from two elements with one
key. -/
def Merged (key : E -> K) (first second : E -> Option E) (both : E -> E -> Option E) (l l' : List E)
    (x : E) : Prop :=
  (∃ e ∈ l, (∀ e' ∈ l', key e ≠ key e') ∧ first e = some x) ∨
    (∃ e' ∈ l', (∀ e ∈ l, key e ≠ key e') ∧ second e' = some x) ∨
      ∃ e ∈ l, ∃ e' ∈ l', key e = key e' ∧ both e e' = some x

omit [LinearOrder K] in
theorem merged_cons_second {e' : E} (absent : ∀ e ∈ l, key e ≠ key e') :
    Merged key first second both l (e' :: l') x ↔
      second e' = some x ∨ Merged key first second both l l' x := by
  simp only [Merged, forall_mem_cons, exists_mem_cons_iff]
  constructor
  · rintro (⟨e, mem, others, made⟩ | (⟨_, made⟩ | inSecond) | ⟨e, mem, same | inBoth⟩)
    · exact .inr (.inl ⟨e, mem, others.2, made⟩)
    · exact .inl made
    · exact .inr (.inr (.inl inSecond))
    · exact absurd same.1 (absent e mem)
    · exact .inr (.inr (.inr ⟨e, mem, inBoth⟩))
  · rintro (made | ⟨e, mem, others, made⟩ | inSecond | ⟨e, mem, inBoth⟩)
    · exact .inr (.inl (.inl ⟨absent, made⟩))
    · exact .inl ⟨e, mem, ⟨absent e mem, others⟩, made⟩
    · exact .inr (.inl (.inr inSecond))
    · exact .inr (.inr ⟨e, mem, .inr inBoth⟩)

omit [LinearOrder K] in
theorem merged_swap :
    Merged key first second both l l' x ↔
      Merged key second first (fun e e' => both e' e) l' l x := by
  simp only [Merged]
  constructor
  · rintro (⟨e, mem, absent, made⟩ | ⟨e', mem, absent, made⟩ | ⟨e, mem, e', mem', same, made⟩)
    · exact .inr (.inl ⟨e, mem, fun e' mem' => (absent e' mem').symm, made⟩)
    · exact .inl ⟨e', mem, fun e mem' => (absent e mem').symm, made⟩
    · exact .inr (.inr ⟨e', mem', e, mem, same.symm, made⟩)
  · rintro (⟨e, mem, absent, made⟩ | ⟨e', mem, absent, made⟩ | ⟨e, mem, e', mem', same, made⟩)
    · exact .inr (.inl ⟨e, mem, fun e' mem' => (absent e' mem').symm, made⟩)
    · exact .inl ⟨e', mem, fun e mem' => (absent e mem').symm, made⟩
    · exact .inr (.inr ⟨e', mem', e, mem, same.symm, made⟩)

omit [LinearOrder K] in
theorem merged_cons_first {e : E} (absent : ∀ e' ∈ l', key e ≠ key e') :
    Merged key first second both (e :: l) l' x ↔
      first e = some x ∨ Merged key first second both l l' x := by
  rw [merged_swap, merged_cons_second fun e' mem => (absent e' mem).symm, merged_swap (l := l)]

theorem merged_cons_both {e e' : E} (same : key e = key e') (sorted : Sorted key (e :: l))
    (sorted' : Sorted key (e' :: l')) :
    Merged key first second both (e :: l) (e' :: l') x ↔
      both e e' = some x ∨ Merged key first second both l l' x := by
  have absent : ∀ a ∈ l, key a ≠ key e' := fun a mem => same ▸ (sorted.head_lt mem).ne'
  have absent' : ∀ a ∈ l', key e ≠ key a := fun a mem => same ▸ (sorted'.head_lt mem).ne
  simp only [Merged, forall_mem_cons, exists_mem_cons_iff]
  constructor
  · rintro ((⟨others, _⟩ | ⟨a, mem, others, made⟩) | (⟨others, _⟩ | ⟨a, mem, others, made⟩) |
      ((⟨_, made⟩ | ⟨a, mem, equal, _⟩) | ⟨a, mem, equal | inBoth⟩))
    · exact absurd same others.1
    · exact .inr (.inl ⟨a, mem, others.2, made⟩)
    · exact absurd same others.1
    · exact .inr (.inr (.inl ⟨a, mem, others.2, made⟩))
    · exact .inl made
    · exact absurd equal (absent' a mem)
    · exact absurd equal.1 (absent a mem)
    · exact .inr (.inr (.inr ⟨a, mem, inBoth⟩))
  · rintro (made | ⟨a, mem, others, made⟩ | ⟨a, mem, others, made⟩ | ⟨a, mem, inBoth⟩)
    · exact .inr (.inr (.inl (.inl ⟨same, made⟩)))
    · exact .inl (.inr ⟨a, mem, ⟨absent a mem, others⟩, made⟩)
    · exact .inr (.inl (.inr ⟨a, mem, ⟨absent' a mem, others⟩, made⟩))
    · exact .inr (.inr (.inr ⟨a, mem, .inr inBoth⟩))

theorem mem_merge (sorted : Sorted key l) (sorted' : Sorted key l') :
    x ∈ merge key first second both l l' ↔ Merged key first second both l l' x := by
  induction l, l' using merge.induct key with
  | case1 l' => simp [merge, Merged]
  | case2 e l => simp [merge, Merged]
  | case3 e l e' l' before ih =>
    have absent : ∀ a ∈ e :: l, key a ≠ key e' := fun a mem =>
      (before.trans_le (sorted.head_le mem)).ne'
    rw [merge, if_pos before, mem_append, Option.mem_toList,
      ih sorted sorted'.of_cons, merged_cons_second absent]
  | case4 e l e' l' notBefore same ih =>
    rw [merge, if_neg notBefore, if_pos same, mem_append, Option.mem_toList,
      ih sorted.of_cons sorted'.of_cons, merged_cons_both same sorted sorted']
  | case5 e l e' l' notBefore ne ih =>
    have less : key e < key e' := lt_of_le_of_ne (le_of_not_gt notBefore) ne
    have absent : ∀ a ∈ e' :: l', key e ≠ key a := fun a mem =>
      (less.trans_le (sorted'.head_le mem)).ne
    rw [merge, if_neg notBefore, if_neg ne, mem_append,
      Option.mem_toList, ih sorted.of_cons sorted', merged_cons_first absent]

/-- What is made of an element has its key. -/
structure KeepsKeys (key : E -> K) (first second : E -> Option E) (both : E -> E -> Option E) :
    Prop where
  first : ∀ e x, first e = some x -> key x = key e
  second : ∀ e x, second e = some x -> key x = key e
  both : ∀ e e' x, key e = key e' -> both e e' = some x -> key x = key e

omit [LinearOrder K] in
theorem Merged.key_eq (keeps : KeepsKeys key first second both)
    (merged : Merged key first second both l l' x) : ∃ e, (e ∈ l ∨ e ∈ l') ∧ key x = key e := by
  rcases merged with ⟨e, mem, _, made⟩ | ⟨e', mem, _, made⟩ | ⟨e, mem, e', _, same, made⟩
  · exact ⟨e, .inl mem, keeps.first e x made⟩
  · exact ⟨e', .inr mem, keeps.second e' x made⟩
  · exact ⟨e, .inl mem, keeps.both e e' x same made⟩

theorem sorted_filterMap {f : E -> Option E} (keeps : ∀ e x, f e = some x -> key x = key e)
    (sorted : Sorted key l) : Sorted key (l.filterMap f) := by
  refine sorted.filterMap f fun e e' less x made x' made' => ?_
  rw [keeps e x made, keeps e' x' made']
  exact less

theorem sorted_toList_append {made : Option E} {rest : List E} (sorted : Sorted key rest)
    (before : ∀ x, made = some x -> ∀ y ∈ rest, key x < key y) :
    Sorted key (made.toList ++ rest) := by
  cases made with
  | none => exact sorted
  | some x => exact pairwise_cons.mpr ⟨before x rfl, sorted⟩

theorem sorted_merge (keeps : KeepsKeys key first second both) (sorted : Sorted key l)
    (sorted' : Sorted key l') : Sorted key (merge key first second both l l') := by
  have keyOf : ∀ {l l' : List E}, Sorted key l -> Sorted key l' ->
      ∀ y ∈ merge key first second both l l', ∃ e, (e ∈ l ∨ e ∈ l') ∧ key y = key e :=
    fun sorted sorted' y mem => ((mem_merge sorted sorted').mp mem).key_eq keeps
  induction l, l' using merge.induct key with
  | case1 l' =>
    rw [merge]
    exact sorted_filterMap keeps.second sorted'
  | case2 e l =>
    rw [merge]
    exact sorted_filterMap keeps.first sorted
  | case3 e l e' l' before ih =>
    rw [merge, if_pos before]
    refine sorted_toList_append (ih sorted sorted'.of_cons) ?_
    intro x made y mem
    rw [keeps.second e' x made]
    rcases keyOf sorted sorted'.of_cons y mem with ⟨a, inFirst | inSecond, keyIs⟩
    · exact keyIs ▸ before.trans_le (sorted.head_le inFirst)
    · exact keyIs ▸ sorted'.head_lt inSecond
  | case4 e l e' l' notBefore same ih =>
    rw [merge, if_neg notBefore, if_pos same]
    refine sorted_toList_append (ih sorted.of_cons sorted'.of_cons) ?_
    intro x made y mem
    rw [keeps.both e e' x same made]
    rcases keyOf sorted.of_cons sorted'.of_cons y mem with ⟨a, inFirst | inSecond, keyIs⟩
    · exact keyIs ▸ sorted.head_lt inFirst
    · exact keyIs ▸ same ▸ sorted'.head_lt inSecond
  | case5 e l e' l' notBefore ne ih =>
    have less : key e < key e' := lt_of_le_of_ne (le_of_not_gt notBefore) ne
    rw [merge, if_neg notBefore, if_neg ne]
    refine sorted_toList_append (ih sorted.of_cons sorted') ?_
    intro x made y mem
    rw [keeps.first e x made]
    rcases keyOf sorted.of_cons sorted' y mem with ⟨a, inFirst | inSecond, keyIs⟩
    · exact keyIs ▸ sorted.head_lt inFirst
    · exact keyIs ▸ less.trans_le (sorted'.head_le inSecond)

end Merge

end KeyedMerge
end LlvmProject
