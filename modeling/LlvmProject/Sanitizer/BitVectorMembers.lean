import LlvmProject.Sanitizer.BitVectorSets
import Mathlib.Order.Bounds.Basic

namespace LlvmProject

open Nat List Set

namespace TwoLevelBitVector

/-!
# The members of a two-level bit vector

The set of a vector are the indices of the bits of its effective words.  An
index is read as a number of three digits, so indices are ordered like their
digits from the left, and the vector is determined by its set up to words that
do not count.
-/

open BasicBitVector

variable {n w : Nat} {x x' : TwoLevelBitVector n w} {v : Operand n w}

/-! ## Indices -/

theorem index_eq (i0 i1 i2 : Nat) : index w i0 i1 i2 = (i0 * w + i1) * w + i2 := by
  rw [index, add_mul]

theorem index_lt_size (i0 : Fin n) (i1 i2 : Fin w) : index w i0 i1 i2 < w * w * n := by
  have inner : i0.val * w + i1 < n * w :=
    calc i0.val * w + i1 < i0 * w + w := Nat.add_lt_add_left i1.isLt _
      _ = (i0 + 1) * w := (succ_mul ..).symm
      _ <= n * w := mul_le_mul_right w i0.isLt
  calc index w i0 i1 i2 = (i0 * w + i1) * w + i2 := index_eq ..
    _ < (i0 * w + i1) * w + w := Nat.add_lt_add_left i2.isLt _
    _ = (i0 * w + i1 + 1) * w := (succ_mul ..).symm
    _ <= n * w * w := mul_le_mul_right w inner
    _ = w * w * n := by rw [mul_assoc, mul_comm]

theorem index_div (i0 : Fin n) (i1 i2 : Fin w) : index w i0 i1 i2 / w = i0 * w + i1 := by
  have pos : 0 < w := i1.pos
  rw [index_eq, mul_comm, mul_add_div pos, div_eq_of_lt i2.isLt, add_zero]

theorem locate_index (i0 : Fin n) (i1 i2 : Fin w) :
    locate n w (index w i0 i1 i2) = some (i0, i1, i2) := by
  have pos : 0 < w := i1.pos
  have high : index w i0 i1 i2 / (w * w) = i0 := by
    rw [<- Nat.div_div_eq_div_mul, index_div, mul_comm, mul_add_div pos,
      div_eq_of_lt i1.isLt, add_zero]
  have middle : index w i0 i1 i2 / w % w = i1 := by
    rw [index_div, mul_comm, mul_add_mod, mod_eq_of_lt i1.isLt]
  have low : index w i0 i1 i2 % w = i2 := by
    rw [index_eq, mul_comm, mul_add_mod, mod_eq_of_lt i2.isLt]
  rw [locate, dif_pos (index_lt_size i0 i1 i2)]
  simp only [high, middle, low]

variable {idx : Nat}

variable {i1 i2 : Fin w}

variable {i0 : Fin n}

theorem index_of_locate
    (located : locate n w idx = some (i0, i1, i2)) : idx = index w i0 i1 i2 := by
  rw [locate] at located
  by_cases below : idx < w * w * n
  · rw [dif_pos below] at located
    cases located
    have outer : idx / w = w * (idx / w / w) + idx / w % w := (div_add_mod ..).symm
    calc idx = w * (idx / w) + idx % w := (div_add_mod ..).symm
      _ = w * (w * (idx / w / w) + idx / w % w) + idx % w := by rw [<- outer]
      _ = _ := by rw [index_eq, Nat.div_div_eq_div_mul, mul_comm w, mul_comm w]
  · rw [dif_neg below] at located
    exact absurd located nofun

theorem locate_isSome (below : idx < w * w * n) :
    ∃ i0 i1 i2, locate n w idx = some (i0, i1, i2) := by
  rw [locate, dif_pos below]
  exact ⟨_, _, _, rfl⟩

theorem index_eq_iff {i0 j0 : Fin n} {i1 i2 j1 j2 : Fin w}
    (located : locate n w idx = some (i0, i1, i2)) :
    index w j0 j1 j2 = idx ↔ (j0 = i0 ∧ j1 = i1) ∧ j2 = i2 := by
  refine ⟨fun same => ?_, fun same => ?_⟩
  · rw [<- same, locate_index] at located
    cases located
    exact ⟨⟨rfl, rfl⟩, rfl⟩
  · rw [same.1.1, same.1.2, same.2, index_of_locate located]

/-- Indices in one word, in one row and in the whole vector are ordered by
their digits. -/
theorem index_lt_of_bit {i0 i1 i2 j2 : Nat} (bit : i2 < j2) :
    index w i0 i1 i2 < index w i0 i1 j2 :=
  Nat.add_lt_add_left bit _

theorem index_lt_of_word {i0 i1 j1 j2 : Nat} (i2 : Fin w) (word : i1 < j1) :
    index w i0 i1 i2 < index w i0 j1 j2 := by
  rw [index_eq, index_eq]
  calc (i0 * w + i1) * w + i2 < (i0 * w + i1) * w + w := Nat.add_lt_add_left i2.isLt _
    _ = (i0 * w + i1 + 1) * w := (succ_mul ..).symm
    _ <= (i0 * w + j1) * w := mul_le_mul_right w (Nat.add_lt_add_left word _)
    _ <= (i0 * w + j1) * w + j2 := Nat.le_add_right ..

theorem index_lt_of_row {i0 j0 j1 j2 : Nat} (i1 i2 : Fin w) (row : i0 < j0) :
    index w i0 i1 i2 < index w j0 j1 j2 := by
  have inner : i0 * w + i1 + 1 <= j0 * w + j1 :=
    calc i0 * w + i1 + 1 <= i0 * w + w := Nat.add_lt_add_left i1.isLt _
      _ = (i0 + 1) * w := (succ_mul ..).symm
      _ <= j0 * w := mul_le_mul_right w row
      _ <= j0 * w + j1 := Nat.le_add_right ..
  rw [index_eq, index_eq]
  calc (i0 * w + i1) * w + i2 < (i0 * w + i1) * w + w := Nat.add_lt_add_left i2.isLt _
    _ = (i0 * w + i1 + 1) * w := (succ_mul ..).symm
    _ <= (j0 * w + j1) * w := mul_le_mul_right w inner
    _ <= (j0 * w + j1) * w + j2 := Nat.le_add_right ..

/-! ## Members -/

/-- The set that a vector represents. -/
def members (x : TwoLevelBitVector n w) : Set Nat :=
  {idx | ∃ i0 i1 i2, locate n w idx = some (i0, i1, i2) ∧ (x.words i0 i1).getBit i2 = true}

theorem index_mem : index w i0 i1 i2 ∈ x.members ↔ (x.words i0 i1).getBit i2 = true := by
  refine ⟨?_, fun bit => ⟨i0, i1, i2, locate_index i0 i1 i2, bit⟩⟩
  rintro ⟨j0, j1, j2, located, bit⟩
  rw [locate_index] at located
  cases located
  exact bit

theorem mem_iff (located : locate n w idx = some (i0, i1, i2)) :
    idx ∈ x.members ↔ (x.words i0 i1).getBit i2 = true :=
  index_of_locate located ▸ index_mem

theorem lt_size_of_mem (mem : idx ∈ x.members) : idx < w * w * n := by
  rcases mem with ⟨i0, i1, i2, located, -⟩
  exact index_of_locate located ▸ index_lt_size i0 i1 i2

/-- Sets of indices are compared digit by digit. -/
theorem members_eq_iff {s : Set Nat} (below : ∀ idx ∈ s, idx < w * w * n) :
    x.members = s ↔ ∀ i0 i1 i2, (x.words i0 i1).getBit i2 = true ↔ index w i0 i1 i2 ∈ s := by
  refine ⟨fun same i0 i1 i2 => same ▸ index_mem.symm, fun same => ext fun idx => ⟨?_, ?_⟩⟩
  · rintro ⟨i0, i1, i2, located, bit⟩
    exact index_of_locate located ▸ (same i0 i1 i2).mp bit
  · intro mem
    rcases locate_isSome (below idx mem) with ⟨i0, i1, i2, located⟩
    refine ⟨i0, i1, i2, located, (same i0 i1 i2).mpr ?_⟩
    exact index_of_locate located ▸ mem

theorem members_inj : x.members = x'.members ↔ x.words = x'.words := by
  rw [members_eq_iff fun idx => lt_size_of_mem]
  refine ⟨fun same => ?_, fun same i0 i1 i2 => by rw [index_mem, same]⟩
  funext i0 i1
  exact getBit_ext fun i2 => Bool.eq_iff_iff.mpr ((same i0 i1 i2).trans index_mem)

/-! ## What the operations do to the set -/

theorem getBit_members (below : idx < w * w * n) :
    ∃ bit, x.getBit idx = some bit ∧ (bit = true ↔ idx ∈ x.members) := by
  rcases locate_isSome below with ⟨i0, i1, i2, located⟩
  exact ⟨_, getBit_spec located, (mem_iff located).symm⟩

theorem Puts.index_mem {i0 j0 : Fin n} {i1 j1 j2 : Fin w} {word : BasicBitVector w}
    (puts : x.Puts i0 i1 word x') :
    index w j0 j1 j2 ∈ x'.members ↔
      if j0 = i0 ∧ j1 = i1 then word.getBit j2 = true else index w j0 j1 j2 ∈ x.members := by
  rw [TwoLevelBitVector.index_mem, TwoLevelBitVector.index_mem]
  by_cases here : j0 = i0 ∧ j1 = i1
  · rw [if_pos here, here.1, here.2, puts.words_here]
  · rw [if_neg here, puts.words_other here]

theorem setBit_members (valid : x.Valid) (below : idx < w * w * n) :
    ∃ changed x', x.setBit idx = some (changed, x') ∧ x'.Valid ∧
      x'.members = insert idx x.members ∧ (changed = true ↔ idx ∉ x.members) := by
  rcases locate_isSome below with ⟨i0, i1, i2, located⟩
  rcases setBit_spec (x := x) located with ⟨x', ran, puts⟩
  refine ⟨_, x', ran, puts.valid valid, (members_eq_iff ?_).mpr fun j0 j1 j2 => ?_, ?_⟩
  · rintro j (rfl | mem)
    · exact below
    · exact lt_size_of_mem mem
  · rw [<- TwoLevelBitVector.index_mem, puts.index_mem, mem_insert_iff, index_eq_iff located]
    by_cases here : j0 = i0 ∧ j1 = i1
    · rw [if_pos here, here.1, here.2, TwoLevelBitVector.index_mem]
      simp [or_comm]
    · simp [here]
  · rw [mem_iff located, setBit_changes]
    simp

theorem Puts.members_clearBit (puts : x.Puts i0 i1 ((x.words i0 i1).clearBit i2).2 x')
    (located : locate n w idx = some (i0, i1, i2)) : x'.members = x.members \ {idx} := by
  refine (members_eq_iff fun j mem => lt_size_of_mem mem.1).mpr fun j0 j1 j2 => ?_
  rw [<- TwoLevelBitVector.index_mem, puts.index_mem, mem_sdiff, mem_singleton_iff,
    index_eq_iff located]
  by_cases here : j0 = i0 ∧ j1 = i1
  · rw [if_pos here, here.1, here.2, TwoLevelBitVector.index_mem]
    simp
  · simp [here]

theorem clearBit_members (valid : x.Valid) (below : idx < w * w * n) :
    ∃ changed x', x.clearBit idx = some (changed, x') ∧ x'.Valid ∧
      x'.members = x.members \ {idx} ∧ (changed = true ↔ idx ∈ x.members) := by
  rcases locate_isSome below with ⟨i0, i1, i2, located⟩
  rcases clearBit_spec (x := x) located with ⟨x', ran, puts⟩
  refine ⟨_, x', ran, puts.valid valid, puts.members_clearBit located, ?_⟩
  rw [mem_iff located, clearBit_changes]

theorem empty_members (valid : x.Valid) : x.empty = true ↔ x.members = ∅ := by
  rw [members_eq_iff fun idx none => absurd none (notMem_empty idx),
    TwoLevelBitVector.empty, all_eq_true]
  refine ⟨fun none i0 i1 i2 => ?_, fun none i0 _ => empty_iff_getBit.mpr fun i1 => ?_⟩
  · have bit := empty_iff_getBit.mp (none i0 (mem_finRange i0)) i1
    simp [words_of_not_bit bit]
  · refine Bool.eq_false_iff.mpr fun bit => ?_
    rw [valid.bit_eq, Bool.not_eq_true', <- Bool.not_eq_true, empty_iff_getBit] at bit
    exact bit fun i2 => Bool.eq_false_iff.mpr fun holds => (none i0 i1 i2).mp holds

theorem clear_members : x.clear.Valid ∧ x.clear.members = ∅ := by
  have valid : x.clear.Valid := fun i0 i1 bit => absurd ((getBit_clear i1).symm.trans bit) nofun
  refine ⟨valid, (empty_members valid).mp ?_⟩
  exact all_eq_true.mpr fun _ _ => empty_clear

theorem setAll_members : x.setAll.Valid ∧ x.setAll.members = {idx | idx < w * w * n} := by
  refine ⟨fun i0 i1 _ => empty_of_getBit (getBit_setAll i1), ?_⟩
  refine (members_eq_iff fun _ below => below).mpr fun i0 i1 i2 => ?_
  refine iff_of_true ?_ (index_lt_size i0 i1 i2)
  rw [words_of_bit (getBit_setAll i1)]
  exact getBit_setAll i2

theorem setUnion_members (valid : x.Valid) (operand : v.Valid) :
    (x.setUnion v).2.Valid ∧ (x.setUnion v).2.members = x.members ∪ (v.read x).members ∧
      ((x.setUnion v).1 = true ↔ (x.setUnion v).2.members ≠ x.members) := by
  rcases setUnion_spec valid operand with ⟨kept, content, changed⟩
  refine ⟨kept, ?_, changed.trans (not_congr members_inj.symm)⟩
  have below : ∀ idx ∈ x.members ∪ (v.read x).members, idx < w * w * n := by
    rintro idx (mem | mem)
    · exact lt_size_of_mem mem
    · exact lt_size_of_mem mem
  rw [members_eq_iff below]
  intro i0 i1 i2
  rw [content, mem_union, index_mem, index_mem, getBit_setUnion, Bool.or_eq_true]

theorem setIntersection_members (valid : x.Valid) (operand : v.Valid) :
    (x.setIntersection v).2.Valid ∧
      (x.setIntersection v).2.members = x.members ∩ (v.read x).members ∧
      ((x.setIntersection v).1 = true ↔ (x.setIntersection v).2.members ≠ x.members) := by
  rcases setIntersection_spec valid operand with ⟨kept, content, changed⟩
  refine ⟨kept, ?_, changed.trans (not_congr members_inj.symm)⟩
  rw [members_eq_iff fun idx both => lt_size_of_mem both.1]
  intro i0 i1 i2
  rw [content, mem_inter_iff, index_mem, index_mem, getBit_setIntersection, Bool.and_eq_true]

theorem setDifference_members (valid : x.Valid) (operand : v.Valid) :
    (x.setDifference v).2.Valid ∧
      (x.setDifference v).2.members = x.members \ (v.read x).members ∧
      ((x.setDifference v).1 = true ↔ (x.setDifference v).2.members ≠ x.members) := by
  rcases setDifference_spec valid operand with ⟨kept, content, changed⟩
  refine ⟨kept, ?_, changed.trans (not_congr members_inj.symm)⟩
  rw [members_eq_iff fun idx both => lt_size_of_mem both.1]
  intro i0 i1 i2
  rw [content, mem_sdiff, index_mem, index_mem, getBit_setDifference]
  simp

theorem copyFrom_members {v : TwoLevelBitVector n w} (operand : v.Valid) :
    (x.copyFrom (.other v)).Valid ∧ (x.copyFrom (.other v)).members = v.members := by
  rcases setUnion_members (v := .other v) clear_members.1 operand with ⟨kept, content, -⟩
  exact ⟨kept, content.trans (clear_members.2 ▸ empty_union _)⟩

/-- The target is cleared before the operand is read. -/
theorem copyFrom_itself : (x.copyFrom .itself).Valid ∧ (x.copyFrom .itself).members = ∅ := by
  rcases setUnion_members (v := .itself) (clear_members (x := x)).1 trivial with
    ⟨kept, content, -⟩
  exact ⟨kept, content.trans ((congrArg₂ _ clear_members.2 clear_members.2).trans (by simp))⟩

theorem intersectsWith_members {v : TwoLevelBitVector n w} :
    x.intersectsWith v = true ↔ (x.members ∩ v.members).Nonempty := by
  simp only [TwoLevelBitVector.intersectsWith, any_eq_true, anyOne_eq, mem_ones,
    getBit_setIntersection, Bool.and_eq_true, intersectsWith_iff]
  constructor
  · rintro ⟨i0, -, i1, ⟨bit, operandBit⟩, -, i2, holds, holds'⟩
    refine ⟨index w i0 i1 i2, index_mem.mpr ?_, index_mem.mpr ?_⟩
    · rwa [words_of_bit bit]
    · rwa [words_of_bit operandBit]
  · rintro ⟨idx, ⟨i0, i1, i2, located, holds⟩, mem⟩
    have holds' := (mem_iff located).mp mem
    have bit := bit_of_words (empty_of_getBit holds)
    have operandBit := bit_of_words (empty_of_getBit holds')
    rw [words_of_bit bit] at holds
    rw [words_of_bit operandBit] at holds'
    exact ⟨i0, mem_finRange i0, i1, ⟨bit, operandBit⟩, operandBit, i2, holds, holds'⟩

theorem firstRow (valid : x.Valid) (some' : x.members.Nonempty) :
    ∃ i0, ((finRange n).find? fun i0 => !(x.l1_ i0).empty) = some i0 ∧
      (x.l1_ i0).empty = false ∧ ∀ j0, (x.l1_ j0).empty = false -> i0 <= j0 := by
  cases found : (finRange n).find? fun i0 => !(x.l1_ i0).empty with
  | none =>
    have none := find?_eq_none.mp found
    refine absurd ((empty_members valid).mp (all_eq_true.mpr fun i mem => ?_))
      some'.ne_empty
    simpa using none i mem
  | some i0 =>
    refine ⟨i0, rfl, by simpa using find?_some found, fun j0 occupied => ?_⟩
    exact le_of_find? (pairwise_lt_finRange n) found (mem_finRange j0)
      (by simp [occupied])

theorem row_of_mem (holds : (x.words i0 i1).getBit i2 = true) :
    (x.l1_ i0).getBit i1 = true ∧ (x.l1_ i0).empty = false :=
  have bit := bit_of_words (empty_of_getBit holds)
  ⟨bit, empty_of_getBit bit⟩

theorem getAndClearFirstOne_members (valid : x.Valid) (some' : x.members.Nonempty) :
    ∃ idx x', x.getAndClearFirstOne = some (idx, x') ∧ x'.Valid ∧ IsLeast x.members idx ∧
      x'.members = x.members \ {idx} := by
  rcases firstRow valid some' with ⟨i0, found, occupied, firstRow⟩
  rcases getAndClearFirstOne_least occupied with ⟨i1, taken, bit, firstWord⟩
  rcases getAndClearFirstOne_least (valid i0 i1 bit) with ⟨i2, taken', bit', firstBit⟩
  have word := words_of_bit bit
  let left := ((x.l2_ i0 i1).clearBit i2).2
  let middle := (x.setL1 i0 ((x.l1_ i0).clearBit i1).2).setL2 i0 i1 left
  let final := if left.empty then middle else middle.setL1 i0 ((middle.l1_ i0).setBit i1).2
  have puts : x.Puts i0 i1 ((x.words i0 i1).clearBit i2).2 final := by
    rw [word]
    cases content : left.empty
    · rw [show final = middle.setL1 i0 ((middle.l1_ i0).setBit i1).2 from
        if_neg (by simp [content])]
      apply puts_of_eq
      · exact setL2_here
      · exact (by simp : _ = true).trans (by simpa using content)
      · intro j1 other
        simp [middle, other]
      · intro j0 other
        rw [setL1_other other, setL2_l1, setL1_other other]
      · intro j0 j1 other
        rw [setL1_l2, setL2_other other, setL1_l2]
    · rw [show final = middle from if_pos content]
      apply puts_of_eq
      · exact setL2_here
      · simpa [middle] using content
      · intro j1 other
        simp [middle, other]
      · intro j0 other
        rw [setL2_l1, setL1_other other]
      · intro j0 j1 other
        rw [setL2_other other, setL1_l2]
  refine ⟨index w i0 i1 i2, final, ?_, puts.valid valid, ⟨?_, ?_⟩,
    puts.members_clearBit (locate_index i0 i1 i2)⟩
  · rw [TwoLevelBitVector.getAndClearFirstOne, found, Option.bind_some, taken, Option.bind_some]
    show ((x.l2_ i0 i1).getAndClearFirstOne.map _) = _
    rw [taken', Option.map_some]
  · rw [index_mem, word]
    exact bit'
  · rintro _ ⟨j0, j1, j2, located, holds⟩
    rcases row_of_mem holds with ⟨there, other⟩
    rw [index_of_locate located]
    rcases (firstRow j0 other).lt_or_eq with row | rfl
    · exact le_of_lt (index_lt_of_row i1 i2 row)
    · rcases (firstWord j1 there).lt_or_eq with column | rfl
      · exact le_of_lt (index_lt_of_word i2 column)
      · exact Nat.add_le_add_left (firstBit j2 (word ▸ holds)) _

end TwoLevelBitVector
end LlvmProject
