import LlvmProject.ADT.SparseBitVector
import LlvmProject.Library.KeyedMerge
import LlvmProject.Library.Weave

namespace LlvmProject

open Option hiding or_assoc
open List Nat

namespace ADT

/-!
# The invariant of sparse bit vectors

The elements have strictly increasing indices, and each has a bit that is set.
The current element is a position of the list, unless the list is empty.  Every
operation on one bit keeps this and changes the set of the numbers whose bit is
set as it says.
-/

open BitWords KeyedMerge

variable {L : Layout}

/-! ## Elements -/

namespace SparseBitVectorElement

variable {e RHS : SparseBitVectorElement L} {p q : Nat}

/-- Whether a bit of an element is set. -/
def bit (e : SparseBitVectorElement L) (p : Nat) : Bool := BitWords.bit e.Bits p

/-- An element that a list may have: it is not empty, and its bits stand for
unsigned numbers. -/
structure Valid (e : SparseBitVectorElement L) : Prop where
  nonempty : ∃ p, e.bit p = true
  within : ∀ p, e.bit p = true -> p < L.ElementSize ∧ e.index * L.ElementSize + p < 2 ^ 32

theorem div_lt_length (e : SparseBitVectorElement L) (within : p < L.ElementSize) :
    p / L.BITWORD_SIZE < e.Bits.length := by
  rw [e.length_Bits, Layout.BITWORDS_PER_ELEMENT, Nat.add_sub_assoc L.bitwordSize_pos]
  have low := mod_lt p L.bitwordSize_pos
  have split := div_add_mod' p L.BITWORD_SIZE
  refine lt_of_succ_le ((le_div_iff_mul_le L.bitwordSize_pos).mpr ?_)
  rw [succ_mul]
  omega

theorem test_eq (e : SparseBitVectorElement L) (p : Nat) : e.test p = e.bit p :=
  testBit_eq L.bitwordSize_pos p

theorem bit_set (within : p < L.ElementSize) : (e.set p).bit q = (decide (p = q) || e.bit q) :=
  bit_setBit L.bitwordSize_pos (e.div_lt_length within)

theorem bit_reset (within : p < L.ElementSize) :
    (e.reset p).bit q = (!decide (p = q) && e.bit q) :=
  bit_clearBit L.bitwordSize_pos (e.div_lt_length within)

theorem bit_new (k p : Nat) : (new k : SparseBitVectorElement L).bit p = false :=
  (isZero_iff L.bitwordSize_pos).mp (by simp [new, isZero]) p

theorem isZero_eq_true_iff : isZero e.Bits = true ↔ ∀ p, e.bit p = false :=
  isZero_iff L.bitwordSize_pos

theorem isZero_eq_false_iff : isZero e.Bits = false ↔ ∃ p, e.bit p = true := by
  rw [<- Bool.not_eq_true, isZero_eq_true_iff, not_forall]
  exact exists_congr fun p => iff_of_eq (Bool.not_eq_false _)

theorem bit_combine {op : BitVec L.BITWORD_SIZE -> BitVec L.BITWORD_SIZE -> BitVec L.BITWORD_SIZE}
    {f : Bool -> Bool -> Bool}
    (bitwise : ∀ x y k, k < L.BITWORD_SIZE -> (op x y).getLsbD k = f (x.getLsbD k) (y.getLsbD k))
    (clear : f false false = false) : (combine op e RHS).bit p = f (e.bit p) (RHS.bit p) :=
  bit_zipWith L.bitwordSize_pos bitwise clear (e.length_Bits.trans RHS.length_Bits.symm) p

theorem bit_unionWith : (e.unionWith RHS).1.bit p = (e.bit p || RHS.bit p) :=
  bit_combine (fun _ _ _ _ => BitVec.getLsbD_or) rfl

theorem bit_intersectWith : (e.intersectWith RHS).1.bit p = (e.bit p && RHS.bit p) :=
  bit_combine (fun _ _ _ _ => BitVec.getLsbD_and) rfl

theorem bit_intersectWithComplement :
    (e.intersectWithComplement RHS).1.bit p = (e.bit p && !RHS.bit p) := by
  refine bit_combine (f := fun x y => x && !y) (fun x y k low => ?_) rfl
  rw [BitVec.getLsbD_and, BitVec.getLsbD_not, decide_eq_true low, Bool.true_and]

theorem eq_of_bit_eq {e e' : SparseBitVectorElement L} (sameIndex : e.index = e'.index)
    (sameBits : ∀ p, e.bit p = e'.bit p) : e = e' := by
  have sameWords := BitWords.eq_of_bit_eq L.bitwordSize_pos
    (e.length_Bits.trans e'.length_Bits.symm) sameBits
  cases e
  cases e'
  cases sameIndex
  cases sameWords
  rfl

/-- A non-zero element with some of the bits of a valid one. -/
theorem Valid.of_subset (valid : e.Valid) {e' : SparseBitVectorElement L}
    (sameIndex : e'.index = e.index) (subset : ∀ p, e'.bit p = true -> e.bit p = true)
    (nonempty : ∃ p, e'.bit p = true) : e'.Valid :=
  ⟨nonempty, fun p isSet => sameIndex ▸ valid.within p (subset p isSet)⟩

end SparseBitVectorElement

open SparseBitVectorElement

/-! ## Lists of elements -/

/-- The bit of a number is set in one of the elements. -/
def Contains (Elements : List (SparseBitVectorElement L)) (i : Nat) : Prop :=
  ∃ e ∈ Elements, e.index = i / L.ElementSize ∧ e.bit (i % L.ElementSize) = true

section Lists

variable {left right Elements : List (SparseBitVectorElement L)} {e : SparseBitVectorElement L}
  {i j k : Nat}

theorem contains_around :
    Contains (left ++ e :: right) i ↔
      (e.index = i / L.ElementSize ∧ e.bit (i % L.ElementSize) = true) ∨
        Contains (left ++ right) i := by
  constructor
  · rintro ⟨a, mem, holds⟩
    rcases mem_append.mp mem with inLeft | inRest
    · exact .inr ⟨a, mem_append_left _ inLeft, holds⟩
    · rcases mem_cons.mp inRest with rfl | inRight
      · exact .inl holds
      · exact .inr ⟨a, mem_append_right _ inRight, holds⟩
  · rintro (holds | ⟨a, mem, holds⟩)
    · exact ⟨e, mem_append_right _ mem_cons_self, holds⟩
    · rcases mem_append.mp mem with inLeft | inRight
      · exact ⟨a, mem_append_left _ inLeft, holds⟩
      · exact ⟨a, mem_append_right _ (mem_cons_of_mem e inRight), holds⟩

theorem forall_around {P : SparseBitVectorElement L -> Prop} :
    (∀ a ∈ left ++ e :: right, P a) ↔ P e ∧ ∀ a ∈ left ++ right, P a := by
  simp only [mem_append, mem_cons]
  constructor
  · exact fun all => ⟨all e (.inr (.inl rfl)), fun a mem => all a (mem.imp_right .inr)⟩
  · rintro ⟨middle, around⟩ a (inLeft | rfl | inRight)
    · exact around a (.inl inLeft)
    · exact middle
    · exact around a (.inr inRight)

theorem sorted_replace {e' : SparseBitVectorElement L}
    (sorted : Sorted index (left ++ e :: right)) (sameIndex : e'.index = e.index) :
    Sorted index (left ++ e' :: right) := by
  rcases pairwise_append.mp sorted with ⟨leftSorted, rest, across⟩
  rcases pairwise_cons.mp rest with ⟨after, rightSorted⟩
  refine pairwise_append.mpr ⟨leftSorted, pairwise_cons.mpr ⟨?_, rightSorted⟩, ?_⟩
  · exact fun a mem => sameIndex.symm ▸ after a mem
  · intro a inLeft b mem
    rcases mem_cons.mp mem with rfl | inRight
    · exact sameIndex.symm ▸ across a inLeft e mem_cons_self
    · exact across a inLeft b (mem_cons_of_mem e inRight)

theorem same_number : i = j ↔
    i / L.ElementSize = j / L.ElementSize ∧ i % L.ElementSize = j % L.ElementSize := by
  constructor
  · rintro rfl
    exact ⟨rfl, rfl⟩
  · rintro ⟨sameIndex, sameBit⟩
    rw [<- div_add_mod i L.ElementSize, <- div_add_mod j L.ElementSize, sameIndex, sameBit]

theorem exists_split_index (sorted : Sorted index Elements) (k : Nat) :
    (∃ left e right, Elements = left ++ e :: right ∧ e.index = k) ∨
      ∃ left right, Elements = left ++ right ∧ (∀ a ∈ left, a.index < k) ∧
        ∀ a ∈ right, k < a.index := by
  induction Elements with
  | nil =>
    exact .inr ⟨[], [], rfl, fun _ mem => absurd mem not_mem_nil,
      fun _ mem => absurd mem not_mem_nil⟩
  | cons e Elements ih =>
    rcases lt_trichotomy e.index k with before | same | after
    · rcases ih sorted.of_cons with
        ⟨left, a, right, rfl, found⟩ | ⟨left, right, rfl, smaller, larger⟩
      · exact .inl ⟨e :: left, a, right, rfl, found⟩
      · exact .inr ⟨e :: left, right, rfl, forall_mem_cons.mpr ⟨before, smaller⟩, larger⟩
    · exact .inl ⟨[], e, Elements, rfl, same⟩
    · exact .inr ⟨[], e :: Elements, rfl, fun _ mem => absurd mem not_mem_nil,
        fun a mem => lt_of_lt_of_le after (sorted.head_le mem)⟩

end Lists

/-! ## Vectors -/

namespace SparseBitVector

/-- The invariant. -/
structure Valid (v : SparseBitVector L) : Prop where
  position : v.Elements ≠ [] -> ∃ curr, v.CurrElementIter = some curr ∧ curr <= v.Elements.length
  sorted : Sorted index v.Elements
  elements : ∀ e ∈ v.Elements, e.Valid

theorem new_valid : (new : SparseBitVector L).Valid :=
  ⟨fun nonempty => absurd rfl nonempty, List.Pairwise.nil, fun _ mem => absurd mem not_mem_nil⟩

theorem clear_valid (v : SparseBitVector L) : v.clear.Valid :=
  ⟨fun nonempty => absurd rfl nonempty, List.Pairwise.nil, fun _ mem => absurd mem not_mem_nil⟩

section Search

variable {left right Elements : List (SparseBitVectorElement L)} {e : SparseBitVectorElement L}
  {k pos stop : Nat}

theorem searchBackwards_eq (le : stop <= pos)
    (passed : ∀ q, stop < q -> q <= pos -> ∃ a, Elements[q]? = some a ∧ k < a.index)
    (found : stop = 0 ∨ ∃ a, Elements[stop]? = some a ∧ a.index <= k) :
    searchBackwards Elements k pos = stop := by
  induction pos with
  | zero => exact (le_zero.mp le).symm
  | succ pos ih =>
    rw [searchBackwards]
    rcases lt_or_ge pos stop with atStop | before
    · obtain rfl : stop = pos + 1 := le_antisymm le atStop
      rcases found with zero | ⟨a, found, notAfter⟩
      · cases zero
      · rw [found, any_some, if_neg (by rw [decide_eq_true_eq]; exact not_lt.mpr notAfter)]
    · rcases passed (pos + 1) (lt_succ_of_le before) (le_refl _) with ⟨a, isThere, after⟩
      rw [isThere, any_some, if_pos (decide_eq_true after)]
      exact ih before fun q above below => passed q above (le_succ_of_le below)

theorem searchForwards_eq (le : pos <= left.length) (before : ∀ a ∈ left, a.index < k)
    (reached : ∀ a ∈ right.head?, k <= a.index) :
    searchForwards (left ++ right) k pos = left.length := by
  have split : (left ++ right).drop pos = left.drop pos ++ right := by
    rw [drop_append_of_le_length le]
  rw [searchForwards, split, Weave.findIdx_append_eq, length_drop]
  · omega
  · intro a mem
    rw [decide_eq_true (before a (mem_of_mem_drop mem)), Bool.not_true]
  · intro a mem
    rw [decide_eq_false (not_lt.mpr (reached a mem)), Bool.not_false]

theorem getElem?_append_cases {q : Nat} (isThere : (left ++ right)[q]? = some e) :
    (q < left.length ∧ e ∈ left) ∨ (left.length <= q ∧ e ∈ right) := by
  rcases lt_or_ge q left.length with inLeft | inRight
  · rw [getElem?_append_left inLeft] at isThere
    exact .inl ⟨inLeft, mem_of_getElem? isThere⟩
  · rw [getElem?_append_right inRight] at isThere
    exact .inr ⟨inRight, mem_of_getElem? isThere⟩

variable {v : SparseBitVector L}

/-- What is found from the current element on. -/
theorem FindLowerBound_eq (valid : v.Valid) (nonempty : v.Elements ≠ []) :
    ∃ curr e, v.Elements[curr]? = some e ∧
      ∀ k pos, pos = (if e.index = k then curr
        else if e.index > k then searchBackwards v.Elements k curr
        else searchForwards v.Elements k curr) ->
      v.FindLowerBound k = some (pos, { v with CurrElementIter := some pos }) := by
  rcases valid.position nonempty with ⟨curr, currIs, le⟩
  have positive : 0 < v.Elements.length := length_pos_of_ne_nil nonempty
  have within : (if curr = v.Elements.length then curr - 1 else curr) < v.Elements.length := by
    split <;> omega
  refine ⟨_, _, getElem?_eq_getElem within, ?_⟩
  rintro k pos rfl
  have notEmpty : ¬ v.Elements.isEmpty = true := by
    rw [List.isEmpty_iff]
    exact nonempty
  rw [FindLowerBound, if_neg notEmpty, currIs]
  simp only [bind_eq_bind, bind_some, getElem?_eq_getElem within]
  rfl

theorem getElem?_middle : (left ++ e :: right)[left.length]? = some e := by
  rw [getElem?_append_right (le_refl _), Nat.sub_self]
  rfl

theorem set_middle (e' : SparseBitVectorElement L) :
    (left ++ e :: right).set left.length e' = left ++ e' :: right := by
  rw [set_append_right _ _ (le_refl _), Nat.sub_self, set_cons_zero]

theorem eraseIdx_middle : (left ++ e :: right).eraseIdx left.length = left ++ right := by
  rw [eraseIdx_append_of_length_le (le_refl _), Nat.sub_self, eraseIdx_cons_zero]

theorem FindLowerBound_found (valid : v.Valid) (split : v.Elements = left ++ e :: right) :
    v.FindLowerBound e.index =
      some (left.length, { v with CurrElementIter := some left.length }) := by
  have nonempty : v.Elements ≠ [] := by
    rw [split]
    exact append_ne_nil_of_right_ne_nil _ (cons_ne_nil e right)
  have sorted : Sorted index (left ++ e :: right) := split ▸ valid.sorted
  have isThere : (left ++ e :: right)[left.length]? = some e := getElem?_middle
  rcases FindLowerBound_eq valid nonempty with ⟨curr, a, cur, result⟩
  rw [split] at cur
  refine result e.index left.length ?_
  rw [split]
  rcases lt_trichotomy curr left.length with before | rfl | after
  · have smaller := (sorted.key_lt_iff cur isThere).mpr before
    rw [if_neg smaller.ne, if_neg (not_lt.mpr smaller.le)]
    refine (searchForwards_eq before.le (fun a mem => ?_) ?_).symm
    · exact (pairwise_append.mp sorted).2.2 a mem e mem_cons_self
    · rintro _ ⟨⟩
      exact le_refl _
  · rw [some.inj (cur.symm.trans isThere), if_pos rfl]
  · have larger := (sorted.key_lt_iff isThere cur).mpr after
    rw [if_neg larger.ne', if_pos larger]
    refine (searchBackwards_eq after.le (fun q above le => ?_)
      (.inr ⟨e, isThere, le_refl _⟩)).symm
    have within : q < (left ++ e :: right).length :=
      lt_of_le_of_lt le (List.getElem?_eq_some_iff.mp cur).1
    have element := getElem?_eq_getElem within
    exact ⟨_, element, (sorted.key_lt_iff isThere element).mpr above⟩

/-- Without an element with the index the search ends where it would be, or at
the element before. -/
theorem FindLowerBound_absent (valid : v.Valid) (nonempty : v.Elements ≠ []) (split : v.Elements =
    left ++ right) (before : ∀ a ∈ left, a.index < k) (after : ∀ a ∈ right, k < a.index) :
    ∃ pos, (pos = left.length ∨ pos + 1 = left.length) ∧
      v.FindLowerBound k = some (pos, { v with CurrElementIter := some pos }) := by
  rcases FindLowerBound_eq valid nonempty with ⟨curr, a, cur, result⟩
  rw [split] at cur
  rcases getElem?_append_cases cur with ⟨inLeft, mem⟩ | ⟨inRight, mem⟩
  · have smaller := before a mem
    refine ⟨left.length, .inl rfl, result k _ ?_⟩
    rw [if_neg smaller.ne, if_neg (not_lt.mpr smaller.le), split]
    exact (searchForwards_eq inLeft.le before fun a first =>
      (after a (mem_of_mem_head? first)).le).symm
  · have larger := after a mem
    refine ⟨left.length - 1, by omega, result k _ ?_⟩
    rw [if_neg larger.ne', if_pos larger, split]
    refine (searchBackwards_eq (by omega) (fun q above le => ?_) ?_).symm
    · have within : q < (left ++ right).length :=
        lt_of_le_of_lt le (List.getElem?_eq_some_iff.mp cur).1
      have element := getElem?_eq_getElem within
      refine ⟨_, element, ?_⟩
      rcases getElem?_append_cases element with ⟨inLeft, _⟩ | ⟨_, inRight⟩
      · omega
      · exact after _ inRight
    · rcases Nat.eq_zero_or_pos left.length with none | some
      · exact .inl (by omega)
      · have within : left.length - 1 < left.length := by omega
        refine .inr ⟨left[left.length - 1], ?_, (before _ (getElem_mem within)).le⟩
        rw [getElem?_append_left within, getElem?_eq_getElem within]

end Search

/-! ## Operations on one bit -/

section Bits

variable {left right : List (SparseBitVectorElement L)} {e : SparseBitVectorElement L}
  {v : SparseBitVector L} {i : Nat}

theorem search_cases (valid : v.Valid) (nonempty : v.Elements ≠ []) (i : Nat) :
    (∃ left e right, v.Elements = left ++ e :: right ∧ e.index = i / L.ElementSize ∧
        v.FindLowerBound (i / L.ElementSize) =
          some (left.length, { v with CurrElementIter := some left.length })) ∨
      ∃ left right pos, v.Elements = left ++ right ∧
        (∀ a ∈ left, a.index < i / L.ElementSize) ∧ (∀ a ∈ right, i / L.ElementSize < a.index) ∧
        (pos = left.length ∨ pos + 1 = left.length) ∧
        v.FindLowerBound (i / L.ElementSize) = some (pos, { v with CurrElementIter := some pos }) := by
  rcases exists_split_index valid.sorted (i / L.ElementSize) with
    ⟨left, e, right, split, same⟩ | ⟨left, right, split, before, after⟩
  · exact .inl ⟨left, e, right, split, same, same ▸ FindLowerBound_found valid split⟩
  · rcases FindLowerBound_absent valid nonempty split before after with ⟨pos, position, found⟩
    exact .inr ⟨left, right, pos, split, before, after, position, found⟩

theorem not_contains_of_index_ne {Elements : List (SparseBitVectorElement L)}
    (absent : ∀ a ∈ Elements, a.index ≠ i / L.ElementSize) : ¬ Contains Elements i :=
  fun ⟨a, mem, same, _⟩ => absent a mem same

theorem index_ne_around (sorted : Sorted index (left ++ e :: right)) :
    ∀ a ∈ left ++ right, a.index ≠ e.index := by
  rcases pairwise_append.mp sorted with ⟨_, rest, across⟩
  intro a mem
  rcases mem_append.mp mem with inLeft | inRight
  · exact (across a inLeft e mem_cons_self).ne
  · exact ((pairwise_cons.mp rest).1 a inRight).ne'

theorem index_ne_of_place {k : Nat} (before : ∀ a ∈ left, a.index < k) (after : ∀ a ∈ right, k < a.index) :
    ∀ a ∈ left ++ right, a.index ≠ k := by
  intro a mem
  rcases mem_append.mp mem with inLeft | inRight
  · exact (before a inLeft).ne
  · exact (after a inRight).ne'

/-- The current element does not matter, if it is a position. -/
theorem Valid.of_elements_eq (valid : v.Valid) {v' : SparseBitVector L}
    (same : v'.Elements = v.Elements) {pos : Nat} (positionIs : v'.CurrElementIter = some pos)
    (le : pos <= v.Elements.length) : v'.Valid :=
  ⟨fun _ => ⟨pos, positionIs, same ▸ le⟩, same ▸ valid.sorted, same ▸ valid.elements⟩

theorem test_spec (valid : v.Valid) (i : Nat) :
    ∃ answer v', v.test i = some (answer, v') ∧ (answer = true ↔ Contains v.Elements i) ∧
      v'.Elements = v.Elements ∧ v'.Valid := by
  by_cases nonempty : v.Elements = []
  · refine ⟨false, v, ?_, ?_, rfl, valid⟩
    · rw [test, nonempty]
      rfl
    · rw [nonempty]
      exact iff_of_false Bool.false_ne_true fun ⟨_, mem, _⟩ => absurd mem not_mem_nil
  · have notEmpty : ¬ v.Elements.isEmpty = true := by
      rw [List.isEmpty_iff]
      exact nonempty
    rcases search_cases valid nonempty i with
      ⟨left, e, right, split, same, found⟩ |
      ⟨left, right, pos, split, before, after, position, found⟩
    · refine ⟨e.bit (i % L.ElementSize), { v with CurrElementIter := some left.length }, ?_, ?_, rfl,
        valid.of_elements_eq rfl rfl ?_⟩
      · have element : v.Elements[left.length]? = some e := by rw [split, getElem?_middle]
        rw [test, if_neg notEmpty]
        simp only [found, bind_eq_bind, bind_some, element, if_pos same, test_eq]
        rfl
      · have absent := index_ne_around (split ▸ valid.sorted)
        rw [split, contains_around, and_iff_right same]
        exact (or_iff_left (not_contains_of_index_ne fun a mem => same ▸ absent a mem)).symm
      · rw [split, length_append]
        exact le_add_right _ _
    · have absent := index_ne_of_place before after
      refine ⟨false, { v with CurrElementIter := some pos }, ?_, ?_, rfl,
        valid.of_elements_eq rfl rfl ?_⟩
      · rw [test, if_neg notEmpty]
        simp only [found, bind_eq_bind, bind_some]
        cases element : v.Elements[pos]? with
        | none => rfl
        | some a =>
          have ne := absent a (split ▸ mem_of_getElem? element)
          simp only [if_neg ne]
          rfl
      · rw [split]
        exact iff_of_false Bool.false_ne_true (not_contains_of_index_ne absent)
      · rw [split, length_append]
        omega

theorem setAt_eq {v : SparseBitVector L} (split : v.Elements = left ++ e :: right) (i : Nat) :
    v.setAt left.length i =
      some ⟨some left.length, left ++ e.set (i % L.ElementSize) :: right⟩ := by
  rw [setAt, split, getElem?_middle]
  simp only [bind_eq_bind, bind_some, set_middle]
  rfl

theorem insert_setAt_eq {v : SparseBitVector L} (split : v.Elements = left ++ right)
    (e : SparseBitVectorElement L) (i : Nat) :
    (v.insert left.length e).setAt left.length i =
      some ⟨some left.length, left ++ e.set (i % L.ElementSize) :: right⟩ :=
  setAt_eq (by rw [insert, split, Weave.insertIdx_append_length]) i

/-- The element a bit is set in: it was in the list, or it is new. -/
theorem set_cases (valid : v.Valid) (i : Nat) :
    ∃ left e right,
      v.set i = some ⟨some left.length, left ++ e.set (i % L.ElementSize) :: right⟩ ∧
        e.index = i / L.ElementSize ∧
        (v.Elements = left ++ e :: right ∨
          e = .new (i / L.ElementSize) ∧ v.Elements = left ++ right ∧
            (∀ a ∈ left, a.index < i / L.ElementSize) ∧
              ∀ a ∈ right, i / L.ElementSize < a.index) := by
  by_cases nonempty : v.Elements = []
  · refine ⟨[], .new (i / L.ElementSize), [], ?_, rfl, .inr ⟨rfl, nonempty,
      fun _ mem => absurd mem not_mem_nil, fun _ mem => absurd mem not_mem_nil⟩⟩
    rw [set]
    simp only [nonempty, isEmpty_nil, if_true]
    exact @insert_setAt_eq _ [] _ v nonempty _ i
  · have notEmpty : ¬ v.Elements.isEmpty = true := by
      rw [List.isEmpty_iff]
      exact nonempty
    rcases search_cases valid nonempty i with
      ⟨left, e, right, split, same, found⟩ |
      ⟨left, right, pos, split, before, after, position, found⟩
    · refine ⟨left, e, right, ?_, same, .inl split⟩
      rw [set]
      simp only [if_neg notEmpty, found, bind_eq_bind, bind_some]
      simp only [split, getElem?_middle, if_pos same]
      exact setAt_eq (v := ⟨some left.length, _⟩) rfl i
    · refine ⟨left, .new (i / L.ElementSize), right, ?_, rfl, .inr ⟨rfl, split, before, after⟩⟩
      rw [set]
      simp only [if_neg notEmpty, found, bind_eq_bind, bind_some]
      simp only [split]
      rcases position with rfl | last
      · cases element : (left ++ right)[left.length]? with
        | none => exact insert_setAt_eq (v := ⟨some left.length, _⟩) rfl _ i
        | some a =>
          rcases getElem?_append_cases element with ⟨inLeft, _⟩ | ⟨_, inRight⟩
          · exact absurd inLeft (lt_irrefl _)
          · have larger := after a inRight
            simp only [if_neg larger.ne', if_neg (not_lt.mpr larger.le)]
            exact insert_setAt_eq (v := ⟨some left.length, _⟩) rfl _ i
      · have within : pos < left.length := by omega
        have smaller := before _ (getElem_mem within)
        simp only [getElem?_append_left within, getElem?_eq_getElem within,
          if_neg smaller.ne, if_pos smaller, last]
        exact insert_setAt_eq (v := ⟨some pos, _⟩) rfl _ i

theorem number_lt {p k : Nat} (bound : i < 2 ^ 32) (same : k = i / L.ElementSize)
    (position : p = i % L.ElementSize) : k * L.ElementSize + p < 2 ^ 32 := by
  rw [same, position, div_add_mod']
  exact bound

/-- Setting a bit. -/
theorem set_spec (valid : v.Valid) (bound : i < 2 ^ 32) :
    ∃ v', v.set i = some v' ∧ v'.Valid ∧
      ∀ j, Contains v'.Elements j ↔ j = i ∨ Contains v.Elements j := by
  rcases set_cases valid i with ⟨left, e, right, result, same, place⟩
  have low := mod_lt i L.elementSize_pos
  -- In both cases the list is what it would be with the element in it.
  have facts : Sorted index (left ++ e :: right) ∧ (∀ a ∈ left ++ right, a.Valid) ∧
      (∀ p, e.bit p = true -> p < L.ElementSize ∧ e.index * L.ElementSize + p < 2 ^ 32) ∧
      ∀ j, Contains v.Elements j ↔ Contains (left ++ e :: right) j := by
    rcases place with split | ⟨isNew, split, before, after⟩
    · refine ⟨split ▸ valid.sorted, fun a mem => valid.elements a ?_,
        (valid.elements e ?_).within, fun j => by rw [split]⟩
      · rw [split]
        rcases mem_append.mp mem with inLeft | inRight
        · exact mem_append_left _ inLeft
        · exact mem_append_right _ (mem_cons_of_mem e inRight)
      · rw [split]
        exact mem_append_right _ mem_cons_self
    · rcases pairwise_append.mp (split ▸ valid.sorted) with ⟨leftSorted, rightSorted, across⟩
      refine ⟨pairwise_append.mpr ⟨leftSorted, pairwise_cons.mpr ⟨?_, rightSorted⟩, ?_⟩,
        fun a mem => valid.elements a (split ▸ mem), fun p isSet => ?_, fun j => ?_⟩
      · exact fun a mem => same.symm ▸ after a mem
      · intro a inLeft b mem
        rcases mem_cons.mp mem with rfl | inRight
        · exact same.symm ▸ before a inLeft
        · exact across a inLeft b inRight
      · rw [isNew, bit_new] at isSet
        cases isSet
      · rw [split, contains_around, isNew, bit_new]
        exact (or_iff_right fun never => Bool.false_ne_true never.2).symm
  rcases facts with ⟨sorted, valids, within, contents⟩
  refine ⟨_, result, ⟨fun _ => ⟨left.length, rfl, ?_⟩, ?_, ?_⟩, fun j => ?_⟩
  · rw [length_append]
    exact le_add_right _ _
  · exact sorted_replace sorted rfl
  · refine forall_around.mpr ⟨⟨⟨i % L.ElementSize, ?_⟩, fun p isSet => ?_⟩, valids⟩
    · rw [bit_set low, decide_eq_true rfl, Bool.true_or]
    · rw [bit_set low, Bool.or_eq_true, decide_eq_true_eq] at isSet
      rcases isSet with rfl | isSet
      · exact ⟨low, number_lt bound same rfl⟩
      · exact within p isSet
  · rw [contents, contains_around, contains_around, bit_set low, Bool.or_eq_true,
      decide_eq_true_eq, eq_comm (a := j), same_number (L := L) (i := i)]
    change (e.index = _ ∧ _) ∨ _ ↔ _
    rw [same, and_or_left, or_assoc]

/-- A number that is not in the list with its element is not in it. -/
theorem contains_reset (same : e.index = i / L.ElementSize)
    (sorted : Sorted index (left ++ e :: right)) (j : Nat) :
    Contains (left ++ e.reset (i % L.ElementSize) :: right) j ↔
      j ≠ i ∧ Contains (left ++ e :: right) j := by
  have low := mod_lt i L.elementSize_pos
  have absent : ¬ Contains (left ++ right) i :=
    not_contains_of_index_ne fun a mem => same ▸ index_ne_around sorted a mem
  rw [contains_around, contains_around, bit_reset low, Bool.and_eq_true, Bool.not_eq_true',
    decide_eq_false_iff_not]
  change (e.index = _ ∧ _) ∨ _ ↔ _
  constructor
  · rintro (⟨sameIndex, ne, isSet⟩ | around)
    · exact ⟨fun equal => ne (equal ▸ rfl), .inl ⟨sameIndex, isSet⟩⟩
    · exact ⟨fun equal => absent (equal ▸ around), .inr around⟩
  · rintro ⟨ne, ⟨sameIndex, isSet⟩ | around⟩
    · refine .inl ⟨sameIndex, fun sameBit => ne ?_, isSet⟩
      exact (same_number (L := L)).mpr ⟨sameIndex.symm.trans same, sameBit.symm⟩
    · exact .inr around

theorem reset_spec (valid : v.Valid) (i : Nat) :
    ∃ v', v.reset i = some v' ∧ v'.Valid ∧
      ∀ j, Contains v'.Elements j ↔ j ≠ i ∧ Contains v.Elements j := by
  by_cases nonempty : v.Elements = []
  · refine ⟨v, ?_, valid, fun j => ?_⟩
    · rw [reset, nonempty]
      rfl
    · rw [nonempty]
      exact iff_of_false (fun ⟨_, mem, _⟩ => absurd mem not_mem_nil)
        fun ⟨_, _, mem, _⟩ => absurd mem not_mem_nil
  · have notEmpty : ¬ v.Elements.isEmpty = true := by
      rw [List.isEmpty_iff]
      exact nonempty
    rcases search_cases valid nonempty i with
      ⟨left, e, right, split, same, found⟩ |
      ⟨left, right, pos, split, before, after, position, found⟩
    · have sorted : Sorted index (left ++ e :: right) := split ▸ valid.sorted
      have valids := forall_around.mp (split ▸ valid.elements)
      have contents := contains_reset same sorted
      rw [reset]
      simp only [if_neg notEmpty, found, bind_eq_bind, bind_some]
      simp only [split, getElem?_middle, if_neg (not_not.mpr same), set_middle]
      by_cases becameZero : (e.reset (i % L.ElementSize)).empty = true
      · have clear := isZero_eq_true_iff.mp becameZero
        refine ⟨⟨some left.length, left ++ right⟩, ?_, ⟨fun _ => ⟨left.length, rfl, ?_⟩, ?_,
          valids.2⟩, fun j => ?_⟩
        · simp only [if_pos becameZero, erase, eraseIdx_middle, map_some, bind_some,
            if_neg (succ_ne_self _), if_pos (lt_succ_self _)]
          rfl
        · rw [length_append]
          exact le_add_right _ _
        · exact sorted.sublist ((sublist_cons_self e right).append_left left)
        · rw [<- contents, contains_around, clear]
          exact (or_iff_right fun never => Bool.false_ne_true never.2).symm
      · have nonzero := isZero_eq_false_iff.mp (Bool.eq_false_iff.mpr becameZero)
        refine ⟨⟨some left.length, left ++ e.reset (i % L.ElementSize) :: right⟩, ?_,
          ⟨fun _ => ⟨left.length, rfl, ?_⟩, sorted_replace sorted rfl,
            forall_around.mpr ⟨valids.1.of_subset rfl (fun p isSet => ?_) nonzero, valids.2⟩⟩,
          contents⟩
        · simp only [if_neg becameZero]
          rfl
        · rw [length_append]
          exact le_add_right _ _
        · rw [bit_reset (mod_lt i L.elementSize_pos), Bool.and_eq_true] at isSet
          exact isSet.2
    · have absent := index_ne_of_place before after
      refine ⟨{ v with CurrElementIter := some pos }, ?_, valid.of_elements_eq rfl rfl ?_,
        fun j => ?_⟩
      · rw [reset]
        simp only [if_neg notEmpty, found, bind_eq_bind, bind_some]
        cases element : v.Elements[pos]? with
        | none => rfl
        | some a =>
          have ne := absent a (split ▸ mem_of_getElem? element)
          simp only [if_pos ne]
          rfl
      · rw [split, length_append]
        omega
      · refine (and_iff_right_of_imp ?_).symm
        rintro contained rfl
        exact not_contains_of_index_ne absent (split ▸ contained)

end Bits

end SparseBitVector

end ADT
end LlvmProject
