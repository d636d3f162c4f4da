import LlvmProject.ADT.SparseBitVectorInvariant

namespace LlvmProject

open Bool

namespace ADT

/-!
# Sparse bit vectors as sets

The operations with another vector walk both lists together.  They merge them
by the indices of the elements, which makes them the operations of sets.  A set
has one list of elements, so comparing the elements compares the sets.
-/

open BitWords KeyedMerge SparseBitVectorElement

variable {L : Layout}

namespace SparseBitVector

variable {l l' : List (SparseBitVectorElement L)} {i : Nat}

/-! ## The loops are merges -/

/-- An element that is kept unless it became zero. -/
def keepNonzero (result : SparseBitVectorElement L × Bool × Bool) :
    Option (SparseBitVectorElement L) :=
  if result.2.2 then none else some result.1

section

variable (l l' : List (SparseBitVectorElement L))

theorem orElements_eq :
    (orElements l l').1 = merge index some some (fun e e' => some (e.unionWith e').1) l l' := by
  induction l, l' using merge.induct index with
  | case1 l' =>
    induction l' with
    | nil => rw [orElements, merge]; rfl
    | cons e' l' ih =>
      rw [merge] at ih ⊢
      rw [orElements, ih]
      rfl
  | case2 e l =>
    rw [orElements, merge, List.filterMap_some]
  | case3 e l e' l' before ih =>
    rw [orElements, merge, if_pos before, if_pos before, ih]
    rfl
  | case4 e l e' l' notBefore same ih =>
    rw [orElements, merge, if_neg notBefore, if_neg notBefore, if_pos same, if_pos same, <- ih]
    rfl
  | case5 e l e' l' notBefore ne ih =>
    rw [orElements, merge, if_neg notBefore, if_neg notBefore, if_neg ne, if_neg ne, <- ih]
    rfl

theorem andElements_eq :
    (andElements l l').1 = merge index (fun _ => none) (fun _ => none)
      (fun e e' => keepNonzero (e.intersectWith e')) l l' := by
  induction l, l' using merge.induct index with
  | case1 l' =>
    cases l' with
    | nil => rw [andElements, merge]; rfl
    | cons e' l' => rw [andElements, merge]; exact (List.filterMap_eq_nil_iff.mpr fun _ _ => rfl).symm
  | case2 e l =>
    rw [andElements, merge]
    exact (List.filterMap_eq_nil_iff.mpr fun _ _ => rfl).symm
  | case3 e l e' l' before ih =>
    rw [andElements, merge, if_pos before, if_pos before, ih]
    rfl
  | case4 e l e' l' notBefore same ih =>
    rw [andElements, merge, if_neg notBefore, if_neg notBefore, if_pos same, if_pos same,
      <- ih, keepNonzero]
    rcases e.intersectWith e' with ⟨result, changed, BecameZero⟩
    cases BecameZero <;> rfl
  | case5 e l e' l' notBefore ne ih =>
    rw [andElements, merge, if_neg notBefore, if_neg notBefore, if_neg ne, if_neg ne, ih]
    rfl

theorem andComplementElements_eq :
    (andComplementElements l l').1 = merge index some (fun _ => none)
      (fun e e' => keepNonzero (e.intersectWithComplement e')) l l' := by
  induction l, l' using merge.induct index with
  | case1 l' =>
    cases l' with
    | nil => rw [andComplementElements, merge]; rfl
    | cons e' l' =>
      rw [andComplementElements, merge]
      exact (List.filterMap_eq_nil_iff.mpr fun _ _ => rfl).symm
  | case2 e l => rw [andComplementElements, merge, List.filterMap_some]
  | case3 e l e' l' before ih =>
    rw [andComplementElements, merge, if_pos before, if_pos before, ih]
    rfl
  | case4 e l e' l' notBefore same ih =>
    rw [andComplementElements, merge, if_neg notBefore, if_neg notBefore, if_pos same,
      if_pos same, <- ih, keepNonzero]
    rcases e.intersectWithComplement e' with ⟨result, changed, BecameZero⟩
    cases BecameZero <;> rfl
  | case5 e l e' l' notBefore ne ih =>
    rw [andComplementElements, merge, if_neg notBefore, if_neg notBefore, if_neg ne,
      if_neg ne, <- ih]
    rfl

end

/-! ## Set operations -/

/-- Sorted elements that a list may have. -/
structure ListValid (l : List (SparseBitVectorElement L)) : Prop where
  sorted : Sorted index l
  elements : ∀ e ∈ l, e.Valid

theorem Valid.list {v : SparseBitVector L} (valid : v.Valid) : ListValid v.Elements :=
  ⟨valid.sorted, valid.elements⟩

theorem ListValid.atBeginning (valid : ListValid l) : (⟨some 0, l⟩ : SparseBitVector L).Valid :=
  ⟨fun _ => ⟨0, rfl, Nat.zero_le _⟩, valid.sorted, valid.elements⟩

theorem ListValid.atEnd (valid : ListValid l) : (⟨some l.length, l⟩ : SparseBitVector L).Valid :=
  ⟨fun _ => ⟨l.length, rfl, le_refl _⟩, valid.sorted, valid.elements⟩

theorem keepNonzero_eq_some {e' x : SparseBitVectorElement L} {changed : Bool}
    (made : keepNonzero (e', changed, isZero e'.Bits) = some x) :
    x = e' ∧ ∃ p, e'.bit p = true := by
  cases zero : isZero e'.Bits with
  | true =>
    rw [zero] at made
    cases made
  | false =>
    rw [zero] at made
    exact ⟨(Option.some.inj made).symm, isZero_eq_false_iff.mp zero⟩

theorem keepNonzero_of_bit {e' : SparseBitVectorElement L} {changed : Bool} {p : Nat}
    (isSet : e'.bit p = true) : keepNonzero (e', changed, isZero e'.Bits) = some e' := by
  rw [keepNonzero, isZero_eq_false_iff.mpr ⟨p, isSet⟩]
  rfl

theorem index_absent_or (l : List (SparseBitVectorElement L)) (k : Nat) :
    (∀ e ∈ l, k ≠ e.index) ∨ ∃ e ∈ l, k = e.index := by
  by_cases there : ∃ e ∈ l, k = e.index
  · exact .inr there
  · exact .inl fun e mem same => there ⟨e, mem, same⟩

section Merges

variable (valid : ListValid l) (valid' : ListValid l')
include valid valid'

theorem orElements_valid : ListValid (orElements l l').1 := by
  rw [orElements_eq]
  refine ⟨sorted_merge ⟨?_, ?_, ?_⟩ valid.sorted valid'.sorted, fun x inMerge => ?_⟩
  · rintro e x ⟨⟩
    rfl
  · rintro e x ⟨⟩
    rfl
  · rintro e e' x _ ⟨⟩
    rfl
  · rcases (mem_merge valid.sorted valid'.sorted).mp inMerge with
      ⟨e, mem, _, ⟨⟩⟩ | ⟨e', mem, _, ⟨⟩⟩ | ⟨e, mem, e', mem', same, ⟨⟩⟩
    · exact valid.elements x mem
    · exact valid'.elements x mem
    · have first := valid.elements e mem
      rcases first.nonempty with ⟨p, isSet⟩
      refine ⟨⟨p, by rw [bit_unionWith, isSet, Bool.true_or]⟩, fun q isSet => ?_⟩
      rw [bit_unionWith, or_eq_true] at isSet
      rcases isSet with inFirst | inSecond
      · exact first.within q inFirst
      · have within := (valid'.elements e' mem').within q inSecond
        rw [<- same] at within
        exact within

theorem contains_orElements : Contains (orElements l l').1 i ↔ Contains l i ∨ Contains l' i := by
  rw [orElements_eq]
  constructor
  · rintro ⟨x, inMerge, sameIndex, isSet⟩
    rcases (mem_merge valid.sorted valid'.sorted).mp inMerge with
      ⟨e, mem, _, ⟨⟩⟩ | ⟨e', mem, _, ⟨⟩⟩ | ⟨e, mem, e', mem', same, ⟨⟩⟩
    · exact .inl ⟨x, mem, sameIndex, isSet⟩
    · exact .inr ⟨x, mem, sameIndex, isSet⟩
    · rw [bit_unionWith, or_eq_true] at isSet
      rcases isSet with inFirst | inSecond
      · exact .inl ⟨e, mem, sameIndex, inFirst⟩
      · exact .inr ⟨e', mem', same.symm.trans sameIndex, inSecond⟩
  · rintro (⟨e, mem, sameIndex, isSet⟩ | ⟨e', mem', sameIndex, isSet⟩)
    · rcases index_absent_or l' e.index with absent | ⟨e', mem', same⟩
      · exact ⟨e, (mem_merge valid.sorted valid'.sorted).mpr (.inl ⟨e, mem, absent, rfl⟩),
          sameIndex, isSet⟩
      · refine ⟨_, (mem_merge valid.sorted valid'.sorted).mpr
          (.inr (.inr ⟨e, mem, e', mem', same, rfl⟩)), sameIndex, ?_⟩
        rw [bit_unionWith, isSet, Bool.true_or]
    · rcases index_absent_or l e'.index with absent | ⟨e, mem, same⟩
      · exact ⟨e', (mem_merge valid.sorted valid'.sorted).mpr (.inr (.inl
          ⟨e', mem', fun e mem => (absent e mem).symm, rfl⟩)), sameIndex, isSet⟩
      · refine ⟨_, (mem_merge valid.sorted valid'.sorted).mpr
          (.inr (.inr ⟨e, mem, e', mem', same.symm, rfl⟩)), same.symm.trans sameIndex, ?_⟩
        rw [bit_unionWith, isSet, Bool.or_true]

theorem andElements_valid : ListValid (andElements l l').1 := by
  rw [andElements_eq]
  refine ⟨sorted_merge ⟨nofun, nofun, ?_⟩ valid.sorted valid'.sorted, fun x inMerge => ?_⟩
  · intro e e' x _ made
    rcases keepNonzero_eq_some made with ⟨rfl, _⟩
    rfl
  · rcases (mem_merge valid.sorted valid'.sorted).mp inMerge with
      ⟨_, _, _, ⟨⟩⟩ | ⟨_, _, _, ⟨⟩⟩ | ⟨e, mem, e', mem', same, made⟩
    rcases keepNonzero_eq_some made with ⟨rfl, nonzero⟩
    refine (valid.elements e mem).of_subset rfl (fun p isSet => ?_) nonzero
    exact (and_eq_true _ _ ▸ bit_intersectWith (e := e) ▸ isSet).1

theorem contains_andElements : Contains (andElements l l').1 i ↔ Contains l i ∧ Contains l' i := by
  rw [andElements_eq]
  constructor
  · rintro ⟨x, inMerge, sameIndex, isSet⟩
    rcases (mem_merge valid.sorted valid'.sorted).mp inMerge with
      ⟨_, _, _, ⟨⟩⟩ | ⟨_, _, _, ⟨⟩⟩ | ⟨e, mem, e', mem', same, made⟩
    rcases keepNonzero_eq_some made with ⟨rfl, nonzero⟩
    change (e.intersectWith e').1.bit _ = true at isSet
    rw [bit_intersectWith, and_eq_true] at isSet
    exact ⟨⟨e, mem, sameIndex, isSet.1⟩, e', mem', same.symm.trans sameIndex, isSet.2⟩
  · rintro ⟨⟨e, mem, sameIndex, isSet⟩, e', mem', sameIndex', isSet'⟩
    have both : (e.intersectWith e').1.bit (i % L.ElementSize) = true := by
      rw [bit_intersectWith, isSet, isSet', Bool.and_self]
    exact ⟨_, (mem_merge valid.sorted valid'.sorted).mpr (.inr (.inr
      ⟨e, mem, e', mem', sameIndex.trans sameIndex'.symm, keepNonzero_of_bit both⟩)),
      sameIndex, both⟩

theorem andComplementElements_valid : ListValid (andComplementElements l l').1 := by
  rw [andComplementElements_eq]
  refine ⟨sorted_merge ⟨?_, nofun, ?_⟩ valid.sorted valid'.sorted, fun x inMerge => ?_⟩
  · rintro e x ⟨⟩
    rfl
  · intro e e' x _ made
    rcases keepNonzero_eq_some made with ⟨rfl, _⟩
    rfl
  · rcases (mem_merge valid.sorted valid'.sorted).mp inMerge with
      ⟨e, mem, _, ⟨⟩⟩ | ⟨_, _, _, ⟨⟩⟩ | ⟨e, mem, e', mem', same, made⟩
    · exact valid.elements x mem
    · rcases keepNonzero_eq_some made with ⟨rfl, nonzero⟩
      refine (valid.elements e mem).of_subset rfl (fun p isSet => ?_) nonzero
      exact (and_eq_true _ _ ▸ bit_intersectWithComplement (e := e) ▸ isSet).1

theorem contains_andComplementElements :
    Contains (andComplementElements l l').1 i ↔ Contains l i ∧ ¬ Contains l' i := by
  rw [andComplementElements_eq]
  constructor
  · rintro ⟨x, inMerge, sameIndex, isSet⟩
    rcases (mem_merge valid.sorted valid'.sorted).mp inMerge with
      ⟨e, mem, absent, ⟨⟩⟩ | ⟨_, _, _, ⟨⟩⟩ | ⟨e, mem, e', mem', same, made⟩
    · refine ⟨⟨x, mem, sameIndex, isSet⟩, fun ⟨e', mem', sameIndex', _⟩ => ?_⟩
      exact absent e' mem' (sameIndex.trans sameIndex'.symm)
    · rcases keepNonzero_eq_some made with ⟨rfl, nonzero⟩
      change (e.intersectWithComplement e').1.bit _ = true at isSet
      rw [bit_intersectWithComplement, and_eq_true, not_eq_true'] at isSet
      refine ⟨⟨e, mem, sameIndex, isSet.1⟩, fun ⟨a, mem, sameIndex', isSet'⟩ => ?_⟩
      have equal := valid'.sorted.eq_of_key_eq mem mem'
        (sameIndex'.trans (sameIndex.symm.trans same))
      rw [equal, isSet.2] at isSet'
      cases isSet'
  · rintro ⟨⟨e, mem, sameIndex, isSet⟩, notContained⟩
    rcases index_absent_or l' e.index with absent | ⟨e', mem', same⟩
    · exact ⟨e, (mem_merge valid.sorted valid'.sorted).mpr (.inl ⟨e, mem, absent, rfl⟩),
        sameIndex, isSet⟩
    · have clear : e'.bit (i % L.ElementSize) = false := Bool.eq_false_iff.mpr fun isSet' =>
        notContained ⟨e', mem', same.symm.trans sameIndex, isSet'⟩
      have both : (e.intersectWithComplement e').1.bit (i % L.ElementSize) = true := by
        rw [bit_intersectWithComplement, isSet, clear, Bool.not_false, Bool.and_self]
      exact ⟨_, (mem_merge valid.sorted valid'.sorted).mpr (.inr (.inr
        ⟨e, mem, e', mem', same, keepNonzero_of_bit both⟩)), sameIndex, both⟩

end Merges

/-! ## Operations with other vectors -/

theorem not_contains_of_isEmpty {Elements : List (SparseBitVectorElement L)}
    (isEmpty : Elements.isEmpty = true) (i : Nat) : ¬ Contains Elements i := by
  rw [List.isEmpty_iff.mp isEmpty]
  exact fun ⟨_, mem, _⟩ => absurd mem List.not_mem_nil

theorem assign_spec {RHS : SparseBitVector L} (valid : RHS.Valid) : (assign RHS).Valid :=
  valid.list.atBeginning

section Operations

variable {v RHS : SparseBitVector L} (valid : v.Valid) (validRHS : RHS.Valid)
include valid validRHS

theorem orAssign_spec :
    (v.orAssign RHS).1.Valid ∧ ∀ i, Contains (v.orAssign RHS).1.Elements i ↔
      Contains v.Elements i ∨ Contains RHS.Elements i := by
  rw [orAssign]
  split
  · rename_i isEmpty
    exact ⟨valid, fun i => (or_iff_left (not_contains_of_isEmpty isEmpty i)).symm⟩
  · exact ⟨(orElements_valid valid.list validRHS.list).atBeginning,
      fun i => contains_orElements valid.list validRHS.list⟩

theorem andAssign_spec :
    (v.andAssign RHS).1.Valid ∧ ∀ i, Contains (v.andAssign RHS).1.Elements i ↔
      Contains v.Elements i ∧ Contains RHS.Elements i := by
  rw [andAssign]
  split
  · rename_i isEmpty
    rw [and_eq_true] at isEmpty
    have clear := not_contains_of_isEmpty isEmpty.1
    exact ⟨valid, fun i => iff_of_false (clear i) fun both => clear i both.1⟩
  · exact ⟨(andElements_valid valid.list validRHS.list).atBeginning,
      fun i => contains_andElements valid.list validRHS.list⟩

theorem intersectWithComplement_spec :
    (v.intersectWithComplement RHS).1.Valid ∧
      ∀ i, Contains (v.intersectWithComplement RHS).1.Elements i ↔
        Contains v.Elements i ∧ ¬ Contains RHS.Elements i := by
  rw [intersectWithComplement]
  split
  · rename_i isEmpty
    rw [or_eq_true] at isEmpty
    refine ⟨valid, fun i => ?_⟩
    rcases isEmpty with first | second
    · have clear := not_contains_of_isEmpty first i
      exact iff_of_false clear fun both => clear both.1
    · exact (and_iff_left (not_contains_of_isEmpty second i)).symm
  · exact ⟨(andComplementElements_valid valid.list validRHS.list).atBeginning,
      fun i => contains_andComplementElements valid.list validRHS.list⟩

theorem intersectWithComplementOf_spec :
    (intersectWithComplementOf v RHS).Valid ∧
      ∀ i, Contains (intersectWithComplementOf v RHS).Elements i ↔
        Contains v.Elements i ∧ ¬ Contains RHS.Elements i :=
  ⟨(andComplementElements_valid valid.list validRHS.list).atEnd,
    fun _ => contains_andComplementElements valid.list validRHS.list⟩

end Operations

end SparseBitVector

end ADT
end LlvmProject
