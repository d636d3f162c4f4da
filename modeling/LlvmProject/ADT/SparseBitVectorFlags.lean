import LlvmProject.ADT.SparseBitVectorSets

namespace LlvmProject

open Bool hiding not_and or_left_comm
open List

namespace ADT

/-!
# The change flags of sparse bit vectors

The operations with another vector say whether the bitmap changed.  A pair of elements
with one index changes exactly if a bit of it does.  The union also counts the elements
that it inserts; the intersection does not count the elements that it erases because the
other vector has none with their index.
-/

open BitWords KeyedMerge SparseBitVectorElement

variable {L : Layout}

namespace SparseBitVectorElement

variable {e RHS : SparseBitVectorElement L}

theorem changed_iff {new : SparseBitVectorElement L} :
    changed e new = true ↔ ∃ p, e.bit p ≠ new.bit p := by
  constructor
  · intro differs
    by_contra same
    have equal := BitWords.eq_of_bit_eq L.bitwordSize_pos
      (e.length_Bits.trans new.length_Bits.symm) (not_exists_not.mp same)
    rw [changed, <- equal] at differs
    rcases List.any_eq_true.mp differs with ⟨words, mem, ne⟩
    rcases mem_iff_getElem.mp mem with ⟨i, within, rfl⟩
    simp at ne
  · rintro ⟨p, ne⟩
    by_contra unchanged
    refine ne (congrArg (BitWords.bit · p) ?_)
    refine ext_getElem (e.length_Bits.trans new.length_Bits.symm) fun i first second => ?_
    simp only [changed, List.any_eq_true, not_exists, not_and] at unchanged
    have pair : (e.Bits[i], new.Bits[i]) ∈ e.Bits.zip new.Bits := by
      rw [mem_iff_getElem]
      exact ⟨i, by simpa using ⟨first, second⟩, getElem_zip⟩
    simpa using unchanged _ pair

theorem unionWith_changed_iff :
    (e.unionWith RHS).2 = true ↔ ∃ p, RHS.bit p = true ∧ e.bit p = false := by
  rw [unionWith, changed_iff]
  refine exists_congr fun p => ?_
  have result : (combine (· ||| ·) e RHS).bit p = (e.bit p || RHS.bit p) := bit_unionWith
  rw [result]
  cases e.bit p <;> cases RHS.bit p <;> decide

theorem intersectWith_changed_iff :
    (e.intersectWith RHS).2.1 = true ↔ ∃ p, e.bit p = true ∧ RHS.bit p = false := by
  rw [intersectWith, changed_iff]
  refine exists_congr fun p => ?_
  have result : (combine (· &&& ·) e RHS).bit p = (e.bit p && RHS.bit p) := bit_intersectWith
  rw [result]
  cases e.bit p <;> cases RHS.bit p <;> decide

theorem intersectWithComplement_changed_iff :
    (e.intersectWithComplement RHS).2.1 = true ↔ ∃ p, e.bit p = true ∧ RHS.bit p = true := by
  rw [intersectWithComplement, changed_iff]
  refine exists_congr fun p => ?_
  have result : (combine (fun x y => x &&& ~~~y) e RHS).bit p = (e.bit p && !RHS.bit p) :=
    bit_intersectWithComplement
  rw [result]
  cases e.bit p <;> cases RHS.bit p <;> decide

/-- A common bit is what the intersection with the complement would change. -/
theorem intersects_eq_changed : e.intersects RHS = (e.intersectWithComplement RHS).2.1 := by
  have zero : e.intersects RHS = !isZero (combine (fun x y => y &&& x) e RHS).Bits := by
    rw [intersects, isZero, not_all_eq_any_not]
    rfl
  apply Bool.eq_iff_iff.mpr
  rw [zero, Bool.not_eq_true', isZero_eq_false_iff, intersectWithComplement_changed_iff]
  refine exists_congr fun p => ?_
  have common : (combine (fun x y => y &&& x) e RHS).bit p = (RHS.bit p && e.bit p) :=
    bit_combine (f := fun x y => y && x) (fun _ _ _ _ => BitVec.getLsbD_and) rfl
  rw [common, and_eq_true, And.comm]

end SparseBitVectorElement

namespace SparseBitVector

variable {l l' : List (SparseBitVectorElement L)} {i : Nat}

/-! ## The flags of the loops -/

section Loops

variable (sorted : Sorted index l) (sorted' : Sorted index l')
include sorted sorted'

theorem orElements_changed_iff :
    (orElements l l').2 = true ↔ (∃ e' ∈ l', ∀ e ∈ l, e.index ≠ e'.index) ∨
      HasPair index (fun e e' => (e.unionWith e').2 = true) l l' := by
  induction l, l' using KeyedMerge.merge.induct index with
  | case1 l' =>
    cases l' <;> simp [orElements, HasPair]
  | case2 e l =>
    simp [orElements, HasPair]
  | case3 e l e' l' before ih =>
    rw [orElements, if_pos before]
    refine iff_of_true rfl (.inl ⟨e', mem_cons_self, fun a mem => ?_⟩)
    exact (before.trans_le (sorted.head_le mem)).ne'
  | case4 e l e' l' notBefore same ih =>
    rw [orElements, if_neg notBefore, if_pos same, hasPair_both sorted sorted' same]
    simp only [or_eq_true]
    rw [ih sorted.of_cons sorted'.of_cons, or_left_comm]
    refine or_congr_left ⟨?_, ?_⟩
    · rintro ⟨a', mem, absent⟩
      refine ⟨a', mem_cons_of_mem e' mem, forall_mem_cons.mpr ⟨?_, absent⟩⟩
      exact same ▸ (sorted'.head_lt mem).ne
    · rintro ⟨a', mem, absent⟩
      rcases mem_cons.mp mem with rfl | later
      · exact absurd same (absent e mem_cons_self)
      · exact ⟨a', later, fun a inFirst => absent a (mem_cons_of_mem e inFirst)⟩
  | case5 e l e' l' notBefore ne ih =>
    have less : e.index < e'.index := lt_of_le_of_ne (le_of_not_gt notBefore) ne
    rw [orElements, if_neg notBefore, if_neg ne, hasPair_skip_first sorted' less]
    simp only
    rw [ih sorted.of_cons sorted']
    refine or_congr_left (exists_congr fun a' => and_congr_right fun mem => ?_)
    rw [forall_mem_cons, and_iff_right (less.trans_le (sorted'.head_le mem)).ne]

theorem andElements_changed_iff :
    (andElements l l').2 = true ↔
      HasPair index (fun e e' => (e.intersectWith e').2.1 = true) l l' := by
  induction l, l' using KeyedMerge.merge.induct index with
  | case1 l' =>
    cases l' <;> simp [andElements, HasPair]
  | case2 e l =>
    simp [andElements, HasPair]
  | case3 e l e' l' before ih =>
    rw [andElements, if_pos before, hasPair_skip_second sorted before]
    exact ih sorted sorted'.of_cons
  | case4 e l e' l' notBefore same ih =>
    rw [andElements, if_neg notBefore, if_pos same, hasPair_both sorted sorted' same]
    simp only [or_eq_true]
    rw [ih sorted.of_cons sorted'.of_cons]
  | case5 e l e' l' notBefore ne ih =>
    have less : e.index < e'.index := lt_of_le_of_ne (le_of_not_gt notBefore) ne
    rw [andElements, if_neg notBefore, if_neg ne, hasPair_skip_first sorted' less]
    exact ih sorted.of_cons sorted'

theorem andComplementElements_changed_iff :
    (andComplementElements l l').2 = true ↔
      HasPair index (fun e e' => (e.intersectWithComplement e').2.1 = true) l l' := by
  induction l, l' using KeyedMerge.merge.induct index with
  | case1 l' =>
    cases l' <;> simp [andComplementElements, HasPair]
  | case2 e l =>
    simp [andComplementElements, HasPair]
  | case3 e l e' l' before ih =>
    rw [andComplementElements, if_pos before, hasPair_skip_second sorted before]
    exact ih sorted sorted'.of_cons
  | case4 e l e' l' notBefore same ih =>
    rw [andComplementElements, if_neg notBefore, if_pos same, hasPair_both sorted sorted' same]
    simp only [or_eq_true]
    rw [ih sorted.of_cons sorted'.of_cons]
  | case5 e l e' l' notBefore ne ih =>
    have less : e.index < e'.index := lt_of_le_of_ne (le_of_not_gt notBefore) ne
    rw [andComplementElements, if_neg notBefore, if_neg ne, hasPair_skip_first sorted' less]
    exact ih sorted.of_cons sorted'

end Loops

theorem intersectsElements_eq_changed (l l' : List (SparseBitVectorElement L)) :
    intersectsElements l l' = (andComplementElements l l').2 := by
  induction l, l' using KeyedMerge.merge.induct index with
  | case1 l' => cases l' <;> simp [intersectsElements, andComplementElements]
  | case2 e l => simp [intersectsElements, andComplementElements]
  | case3 e l e' l' before ih =>
    rw [intersectsElements, andComplementElements, if_pos before, if_pos before, ih]
  | case4 e l e' l' notBefore same ih =>
    rw [intersectsElements, andComplementElements, if_neg notBefore, if_pos same,
      if_neg notBefore, if_pos same, intersects_eq_changed, ih]
  | case5 e l e' l' notBefore ne ih =>
    rw [intersectsElements, andComplementElements, if_neg notBefore, if_neg ne,
      if_neg notBefore, if_neg ne, ih]

/-! ## The flags as statements about bits -/

/-- An element has the index of the number. -/
def Occupied (Elements : List (SparseBitVectorElement L)) (i : Nat) : Prop :=
  ∃ e ∈ Elements, e.index = i / L.ElementSize

theorem index_number {e : SparseBitVectorElement L} {p : Nat} (within : p < L.ElementSize) :
    (e.index * L.ElementSize + p) / L.ElementSize = e.index ∧
      (e.index * L.ElementSize + p) % L.ElementSize = p := by
  have pos : 0 < L.ElementSize := Nat.zero_lt_of_lt within
  rw [add_comm, Nat.add_mul_div_right p e.index pos, Nat.div_eq_of_lt within,
    zero_add, Nat.add_mul_mod_self_right, Nat.mod_eq_of_lt within]
  exact ⟨rfl, rfl⟩

section Flags

variable (valid : ListValid l) (valid' : ListValid l')
include valid valid'

theorem hasPair_iff {P : SparseBitVectorElement L -> SparseBitVectorElement L -> Prop} {Q : Bool ->
    Bool -> Prop} (meaning : ∀ e e', P e e' ↔ ∃ p, Q (e.bit p) (e'.bit p))
    (clear : ¬Q false false) :
    HasPair index P l l' ↔ ∃ i, ∃ e ∈ l, ∃ e' ∈ l', e.index = i / L.ElementSize ∧
      e'.index = i / L.ElementSize ∧
      Q (e.bit (i % L.ElementSize)) (e'.bit (i % L.ElementSize)) := by
  constructor
  · rintro ⟨e, mem, e', mem', same, holds⟩
    rcases (meaning e e').mp holds with ⟨p, bits⟩
    have within : p < L.ElementSize := by
      by_contra outside
      have first : e.bit p = false :=
        eq_false_iff.mpr fun isSet => outside ((valid.elements e mem).within p isSet).1
      have second : e'.bit p = false :=
        eq_false_iff.mpr fun isSet => outside ((valid'.elements e' mem').within p isSet).1
      rw [first, second] at bits
      exact clear bits
    rcases index_number (e := e) within with ⟨quot, rem⟩
    refine ⟨e.index * L.ElementSize + p, e, mem, e', mem', ?_⟩
    rw [quot, rem]
    exact ⟨rfl, same.symm, bits⟩
  · rintro ⟨i, e, mem, e', mem', first, second, bits⟩
    exact ⟨e, mem, e', mem', first.trans second.symm, (meaning e e').mpr ⟨_, bits⟩⟩

/-- The union says that it changed exactly if a bit is new. -/
theorem orElements_flag : (orElements l l').2 = true ↔ ∃ i, Contains l' i ∧ ¬Contains l i := by
  have pairs := hasPair_iff (P := fun e e' => (e.unionWith e').2 = true)
    (Q := fun a b => b = true ∧ a = false) valid valid'
    (fun e e' => unionWith_changed_iff) (by decide)
  rw [orElements_changed_iff valid.sorted valid'.sorted, pairs]
  constructor
  · rintro (⟨e', mem, absent⟩ | ⟨i, e, mem, e', mem', first, second, isSet, clear⟩)
    · rcases (valid'.elements e' mem).nonempty with ⟨p, isSet⟩
      rcases index_number (e := e') ((valid'.elements e' mem).within p isSet).1 with
        ⟨quot, rem⟩
      refine ⟨e'.index * L.ElementSize + p, ⟨e', mem, quot.symm, ?_⟩, ?_⟩
      · rw [rem]
        exact isSet
      · rintro ⟨e, inFirst, same, _⟩
        exact absent e inFirst (same.trans quot)
    · refine ⟨i, ⟨e', mem', second, isSet⟩, ?_⟩
      rintro ⟨a, inFirst, same, isSet⟩
      have equal := valid.sorted.eq_of_key_eq inFirst mem (same.trans first.symm)
      rw [equal, clear] at isSet
      exact false_ne_true isSet
  · rintro ⟨i, ⟨e', mem', second, isSet⟩, outside⟩
    rcases index_absent_or l e'.index with absent | ⟨e, mem, same⟩
    · exact .inl ⟨e', mem', fun e mem => (absent e mem).symm⟩
    · refine .inr ⟨i, e, mem, e', mem', same.symm.trans second, second, isSet, ?_⟩
      exact eq_false_iff.mpr fun isSet' =>
        outside ⟨e, mem, same.symm.trans second, isSet'⟩

/-- The intersection says that it changed exactly if an element loses a bit to an element of the
other vector. -/
theorem andElements_flag :
    (andElements l l').2 = true ↔ ∃ i, Contains l i ∧ ¬Contains l' i ∧ Occupied l' i := by
  have pairs := hasPair_iff (P := fun e e' => (e.intersectWith e').2.1 = true)
    (Q := fun a b => a = true ∧ b = false) valid valid'
    (fun e e' => intersectWith_changed_iff) (by decide)
  rw [andElements_changed_iff valid.sorted valid'.sorted, pairs]
  refine exists_congr fun i => ⟨?_, ?_⟩
  · rintro ⟨e, mem, e', mem', first, second, isSet, clear⟩
    refine ⟨⟨e, mem, first, isSet⟩, ?_, e', mem', second⟩
    rintro ⟨a, inSecond, same, isSet⟩
    have equal := valid'.sorted.eq_of_key_eq inSecond mem' (same.trans second.symm)
    rw [equal, clear] at isSet
    exact false_ne_true isSet
  · rintro ⟨⟨e, mem, first, isSet⟩, outside, e', mem', second⟩
    refine ⟨e, mem, e', mem', first, second, isSet, ?_⟩
    exact eq_false_iff.mpr fun isSet' => outside ⟨e', mem', second, isSet'⟩

/-- The intersection with the complement says that it changed exactly if there is a common bit. -/
theorem andComplementElements_flag :
    (andComplementElements l l').2 = true ↔ ∃ i, Contains l i ∧ Contains l' i := by
  have pairs := hasPair_iff (P := fun e e' => (e.intersectWithComplement e').2.1 = true)
    (Q := fun a b => a = true ∧ b = true) valid valid'
    (fun e e' => intersectWithComplement_changed_iff) (by decide)
  rw [andComplementElements_changed_iff valid.sorted valid'.sorted, pairs]
  refine exists_congr fun i => ⟨?_, ?_⟩
  · rintro ⟨e, mem, e', mem', first, second, isSet, isSet'⟩
    exact ⟨⟨e, mem, first, isSet⟩, e', mem', second, isSet'⟩
  · rintro ⟨⟨e, mem, first, isSet⟩, e', mem', second, isSet'⟩
    exact ⟨e, mem, e', mem', first, second, isSet, isSet'⟩

end Flags

theorem intersects_iff {v RHS : SparseBitVector L} (valid : v.Valid) (validRHS : RHS.Valid) :
    v.intersects RHS = true ↔ ∃ i, Contains v.Elements i ∧ Contains RHS.Elements i := by
  rw [intersects, intersectsElements_eq_changed, and_eq_true,
    andComplementElements_flag valid.list validRHS.list, and_iff_right_iff_imp]
  rintro ⟨i, inside, _⟩
  rw [Bool.not_eq_true', and_eq_false_iff]
  exact .inl (eq_false_iff.mpr fun isEmpty => not_contains_of_isEmpty isEmpty i inside)

/-! ## Are the flags exact? -/

section Operations

variable {v RHS : SparseBitVector L}

/-- The flag of an operation is true if and only if the set of bits changed. -/
def FlagExact (before : SparseBitVector L) (result : SparseBitVector L × Bool) : Prop :=
  result.2 = true ↔ ¬∀ i, Contains result.1.Elements i ↔ Contains before.Elements i

theorem orAssign_flagExact (valid : v.Valid) (validRHS : RHS.Valid) :
    FlagExact v (v.orAssign RHS) := by
  have flag : (v.orAssign RHS).2 = true ↔
      ∃ i, Contains RHS.Elements i ∧ ¬Contains v.Elements i := by
    rw [orAssign]
    split
    next isEmpty =>
      refine iff_of_false false_ne_true ?_
      rintro ⟨i, inside, _⟩
      exact not_contains_of_isEmpty isEmpty i inside
    next => exact orElements_flag valid.list validRHS.list
  rw [FlagExact, flag, not_forall]
  refine exists_congr fun i => ?_
  rw [(orAssign_spec valid validRHS).2 i]
  tauto

theorem intersectWithComplement_flagExact (valid : v.Valid) (validRHS : RHS.Valid) :
    FlagExact v (v.intersectWithComplement RHS) := by
  have flag : (v.intersectWithComplement RHS).2 = true ↔
      ∃ i, Contains v.Elements i ∧ Contains RHS.Elements i := by
    rw [intersectWithComplement]
    split
    next isEmpty =>
      refine iff_of_false false_ne_true ?_
      rintro ⟨i, inside, inside'⟩
      rcases or_eq_true_iff.mp isEmpty with first | second
      · exact not_contains_of_isEmpty first i inside
      · exact not_contains_of_isEmpty second i inside'
    next => exact andComplementElements_flag valid.list validRHS.list
  rw [FlagExact, flag, not_forall]
  refine exists_congr fun i => ?_
  rw [(intersectWithComplement_spec valid validRHS).2 i]
  tauto

theorem andAssign_flag (valid : v.Valid) (validRHS : RHS.Valid) :
    (v.andAssign RHS).2 = true ↔ ∃ i, Contains v.Elements i ∧ ¬Contains RHS.Elements i ∧
      Occupied RHS.Elements i := by
  rw [andAssign]
  split
  next isEmpty =>
    refine iff_of_false false_ne_true ?_
    rintro ⟨i, inside, _⟩
    exact not_contains_of_isEmpty (and_eq_true_iff.mp isEmpty).1 i inside
  next => exact andElements_flag valid.list validRHS.list

end Operations

end SparseBitVector

end ADT
end LlvmProject
