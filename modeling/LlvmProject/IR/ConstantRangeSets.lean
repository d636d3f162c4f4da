import LlvmProject.IR.ConstantRangeICmp

namespace LlvmProject
namespace ConstantRange

/-!
# Intersection and union

The intersection of two ranges, and their union, may consist of two pieces.  The
operations then return a range that bridges one of the two gaps between the pieces.
It is the smaller gap, so no range with fewer elements contains both pieces.
-/

open CircularInterval BitVec

variable {W : Nat}

/-- The intersection of two ranges that do not wrap. -/
def intersectPlain (A B : ConstantRange W) : Option (ConstantRange W) :=
  if A.Lower < B.Lower then
    if A.Upper <= B.Lower then some (ofWidth W false)
    else if A.Upper < B.Upper then ofBounds B.Lower A.Upper
    else some B
  else if A.Upper < B.Upper then some A
  else if A.Lower < B.Upper then ofBounds A.Lower B.Upper
  else some (ofWidth W false)

/-- The intersection of a range that wraps with one that does not. -/
def intersectMixed (A B : ConstantRange W) : Option (ConstantRange W) :=
  if B.Lower < A.Upper then
    if B.Upper < A.Upper then some B
    else if B.Upper <= A.Lower then ofBounds B.Lower A.Upper
    else if A.getSetSize < B.getSetSize then some A
    else some B
  else if B.Lower < A.Lower then
    if B.Upper <= A.Lower then some (ofWidth W false)
    else ofBounds A.Lower B.Upper
  else some B

/-- The intersection of two ranges that wrap. -/
def intersectWrapped (A B : ConstantRange W) : Option (ConstantRange W) :=
  if B.Upper < A.Upper then
    if B.Lower < A.Upper then
      if A.getSetSize < B.getSetSize then some A else some B
    else if B.Lower < A.Lower then ofBounds A.Lower B.Upper
    else some B
  else if B.Upper <= A.Lower then
    if B.Lower < A.Lower then some A else ofBounds B.Lower A.Upper
  else if A.getSetSize < B.getSetSize then some A
  else some B

/-- The range that results from the intersection with another range. -/
def intersectWith (A B : ConstantRange W) : Option (ConstantRange W) :=
  -- Handle common cases.
  if A.isEmptySet || B.isFullSet then some A
  else if B.isEmptySet || A.isFullSet then some B
  else
    match A.isWrappedSet, B.isWrappedSet with
    | false, true => intersectMixed B A  -- the call with the ranges exchanged
    | false, false => intersectPlain A B
    | true, false => intersectMixed A B
    | true, true => intersectWrapped A B

section Intersection

variable {A B : ConstantRange W}

/-- The members of both intervals. -/
def Common (A B : ConstantRange W) (x : Nat) : Prop :=
  Mem A.Lower.toNat A.Upper.toNat x ∧ Mem B.Lower.toNat B.Upper.toNat x

theorem intersectPlain_hulls (wide : 0 < W) (a : A.Lower.toNat < A.Upper.toNat)
    (b : B.Lower.toNat < B.Upper.toNat) :
    Hulls (fun x => Common A B x.toNat) (intersectPlain A B) := by
  have aProper : A.Proper := ne_of_lt a
  have bProper : B.Proper := ne_of_lt b
  unfold intersectPlain
  simp only [lt_def, le_def]
  split_ifs with below apart inside inside overlap
  · exact hulls_ofWidth_false wide fun x => by grind [Common, Mem]
  · apply hulls_ofBounds wide A.Lower B.Lower <;> grind [Common, Near, Mem, distance]
  · apply bProper.hulls wide A.Lower B.Lower <;> grind [Common, Near, Mem, distance]
  · apply aProper.hulls wide A.Lower B.Lower <;> grind [Common, Near, Mem, distance]
  · apply hulls_ofBounds wide A.Lower B.Lower <;> grind [Common, Near, Mem, distance]
  · exact hulls_ofWidth_false wide fun x => by grind [Common, Mem]

theorem intersectMixed_hulls (wide : 0 < W) (a : A.Upper.toNat < A.Lower.toNat)
    (b : B.Lower.toNat < B.Upper.toNat) :
    Hulls (fun x => Common A B x.toNat) (intersectMixed A B) := by
  have aProper : A.Proper := Nat.ne_of_gt a
  have bProper : B.Proper := ne_of_lt b
  unfold intersectMixed
  simp only [lt_def, le_def, aProper.toNat_getSetSize, bProper.toNat_getSetSize]
  split_ifs with below inside apart smaller below apart
  · apply bProper.hulls wide A.Lower B.Lower <;> grind [Common, Near, Mem, distance]
  · apply hulls_ofBounds wide A.Lower B.Lower <;> grind [Common, Near, Mem, distance]
  · apply aProper.hulls wide A.Lower B.Lower <;> grind [Common, Near, Mem, distance]
  · apply bProper.hulls wide A.Lower B.Lower <;> grind [Common, Near, Mem, distance]
  · exact hulls_ofWidth_false wide fun x => by grind [Common, Mem]
  · apply hulls_ofBounds wide A.Lower B.Lower <;> grind [Common, Near, Mem, distance]
  · apply bProper.hulls wide A.Lower B.Lower <;> grind [Common, Near, Mem, distance]

theorem intersectWrapped_hulls (wide : 0 < W) (a : A.Upper.toNat < A.Lower.toNat)
    (b : B.Upper.toNat < B.Lower.toNat) :
    Hulls (fun x => Common A B x.toNat) (intersectWrapped A B) := by
  have aProper : A.Proper := Nat.ne_of_gt a
  have bProper : B.Proper := Nat.ne_of_gt b
  unfold intersectWrapped
  simp only [lt_def, le_def, aProper.toNat_getSetSize, bProper.toNat_getSetSize]
  split_ifs with below gap smaller inside apart inside smaller
  · apply aProper.hulls wide A.Lower B.Lower <;> grind [Common, Near, Mem, distance]
  · apply bProper.hulls wide A.Lower B.Lower <;> grind [Common, Near, Mem, distance]
  · apply hulls_ofBounds wide A.Lower B.Lower <;> grind [Common, Near, Mem, distance]
  · apply bProper.hulls wide A.Lower B.Lower <;> grind [Common, Near, Mem, distance]
  · apply aProper.hulls wide A.Lower B.Lower <;> grind [Common, Near, Mem, distance]
  · apply hulls_ofBounds wide A.Lower B.Lower <;> grind [Common, Near, Mem, distance]
  · apply aProper.hulls wide A.Lower B.Lower <;> grind [Common, Near, Mem, distance]
  · apply bProper.hulls wide A.Lower B.Lower <;> grind [Common, Near, Mem, distance]

end Intersection

/-- The union of two ranges that do not wrap. -/
def unionPlain (A B : ConstantRange W) : Option (ConstantRange W) :=
  if B.Upper < A.Lower ∨ A.Upper < B.Lower then
    -- If the two ranges are disjoint, find the smaller gap and bridge it.
    let d1 := B.Lower - A.Upper
    let d2 := A.Lower - B.Upper
    if d1 < d2 then ofBounds A.Lower B.Upper else ofBounds B.Lower A.Upper
  else
    let L := if B.Lower < A.Lower then B.Lower else A.Lower
    let U := if B.Upper - 1 > A.Upper - 1 then B.Upper else A.Upper
    if L = 0 ∧ U = 0 then some (ofWidth W true) else ofBounds L U

/-- The union of a range that wraps with one that does not. -/
def unionMixed (A B : ConstantRange W) : Option (ConstantRange W) :=
  if B.Upper <= A.Upper ∨ B.Lower >= A.Lower then some A
  else if B.Lower <= A.Upper ∧ A.Lower <= B.Upper then some (ofWidth W true)
  else if A.Upper <= B.Lower ∧ B.Upper <= A.Lower then
    let d1 := B.Lower - A.Upper
    let d2 := A.Lower - B.Upper
    if d1 < d2 then ofBounds A.Lower B.Upper else ofBounds B.Lower A.Upper
  else if A.Upper < B.Lower ∧ A.Lower < B.Upper then ofBounds B.Lower A.Upper
  else if B.Lower < A.Upper ∧ B.Upper < A.Lower then ofBounds A.Lower B.Upper
  else none  -- missed a case with one range wrapped

/-- The union of two ranges that wrap. -/
def unionWrapped (A B : ConstantRange W) : Option (ConstantRange W) :=
  if B.Lower <= A.Upper ∨ A.Lower <= B.Upper then some (ofWidth W true)
  else
    let L := A.Lower
    let U := A.Upper
    let U := if B.Upper > U then B.Upper else U
    let L := if B.Lower < L then B.Lower else L
    ofBounds L U

/-- The range that results from the union with another range. -/
def unionWith (A B : ConstantRange W) : Option (ConstantRange W) :=
  if A.isFullSet || B.isEmptySet then some A
  else if B.isFullSet || A.isEmptySet then some B
  else
    match A.isWrappedSet, B.isWrappedSet with
    | false, true => unionMixed B A  -- the call with the ranges exchanged
    | false, false => unionPlain A B
    | true, false => unionMixed A B
    | true, true => unionWrapped A B

section Union

variable {A B : ConstantRange W}

/-- The members of at least one of the intervals. -/
def Either (A B : ConstantRange W) (x : Nat) : Prop :=
  Mem A.Lower.toNat A.Upper.toNat x ∨ Mem B.Lower.toNat B.Upper.toNat x

theorem sub_one_lt_sub_one_iff {x y : BitVec W} (xPositive : 0 < x.toNat)
    (yPositive : 0 < y.toNat) : x - 1 < y - 1 ↔ x.toNat < y.toNat := by
  have bound (z : BitVec W) (pos : 0 < z.toNat) : (z - 1).toNat = z.toNat - 1 := by
    have one : (1 : BitVec W).toNat = 1 := Nat.mod_eq_of_lt (lt_of_le_of_lt pos z.isLt)
    rw [toNat_sub_of_le (by rw [le_def, one]; exact pos), one]
  rw [lt_def, bound x xPositive, bound y yPositive]
  omega

theorem unionPlain_hulls (wide : 0 < W) (a : A.Lower.toNat < A.Upper.toNat)
    (b : B.Lower.toNat < B.Upper.toNat) :
    Hulls (fun x => Either A B x.toNat) (unionPlain A B) := by
  have last : ¬((if B.Upper - 1 > A.Upper - 1 then B.Upper else A.Upper) = 0) := by
    intro zero
    have isZero := (congrArg BitVec.toNat zero).trans toNat_zero
    split at isZero <;> omega
  unfold unionPlain
  simp only [last, and_false, if_false]
  simp only [gt_iff_lt, sub_one_lt_sub_one_iff (Nat.zero_lt_of_lt a) (Nat.zero_lt_of_lt b)]
  simp only [lt_def, toNat_sub_distance]
  clear last
  split_ifs with apart smaller lower upper upper
  all_goals apply hulls_ofBounds wide A.Lower B.Lower <;> grind [Either, Near, Mem, distance]

theorem unionMixed_hulls (wide : 0 < W) (a : A.Upper.toNat < A.Lower.toNat)
    (b : B.Lower.toNat < B.Upper.toNat) :
    Hulls (fun x => Either A B x.toNat) (unionMixed A B) := by
  have aProper : A.Proper := Nat.ne_of_gt a
  unfold unionMixed
  simp only [lt_def, le_def, toNat_sub_distance, ge_iff_le]
  split_ifs with inside covered apart smaller beyond under
  · apply aProper.hulls wide A.Lower B.Lower <;> grind [Either, Near, Mem, distance]
  · exact hulls_ofWidth_true wide fun x => by grind [Either, Mem]
  · apply hulls_ofBounds wide A.Lower B.Lower <;> grind [Either, Near, Mem, distance]
  · apply hulls_ofBounds wide A.Lower B.Lower <;> grind [Either, Near, Mem, distance]
  · apply hulls_ofBounds wide A.Lower B.Lower <;> grind [Either, Near, Mem, distance]
  · apply hulls_ofBounds wide A.Lower B.Lower <;> grind [Either, Near, Mem, distance]
  · omega

theorem unionWrapped_hulls (wide : 0 < W) (a : A.Upper.toNat < A.Lower.toNat)
    (b : B.Upper.toNat < B.Lower.toNat) :
    Hulls (fun x => Either A B x.toNat) (unionWrapped A B) := by
  unfold unionWrapped
  simp only [lt_def, le_def, gt_iff_lt]
  split_ifs with covered lower upper upper
  · exact hulls_ofWidth_true wide fun x => by grind [Either, Mem]
  all_goals apply hulls_ofBounds wide A.Lower B.Lower <;> grind [Either, Near, Mem, distance]

end Union

/-! ## All ranges -/

section Ranges

variable {A B : ConstantRange W}

theorem common_iff (aProper : A.Proper) (bProper : B.Proper) (x : BitVec W) :
    (A.contains x = true ∧ B.contains x = true) ↔ Common A B x.toNat :=
  and_congr (aProper.contains_iff x) (bProper.contains_iff x)

theorem either_iff (aProper : A.Proper) (bProper : B.Proper) (x : BitVec W) :
    (A.contains x = true ∨ B.contains x = true) ↔ Either A B x.toNat :=
  or_congr (aProper.contains_iff x) (bProper.contains_iff x)

/-- The intersection is a smallest range that contains the members of both ranges. -/
theorem intersectWith_hulls (wide : 0 < W) (A B : ConstantRange W) :
    Hulls (fun x => A.contains x = true ∧ B.contains x = true) (intersectWith A B) := by
  unfold intersectWith
  simp only [Bool.or_eq_true]
  split_ifs with first second
  · refine Hulls.congr ⟨A, rfl, isHull_self wide A⟩ fun x => ?_
    rcases first with empty | full
    · simp [not_contains_of_isEmptySet wide empty]
    · simp [contains_of_isFullSet full]
  · refine Hulls.congr ⟨B, rfl, isHull_self wide B⟩ fun x => ?_
    rcases second with empty | full
    · simp [not_contains_of_isEmptySet wide empty]
    · simp [contains_of_isFullSet full]
  · have aProper : A.Proper :=
      proper_of_cases (fun full => second (.inr full)) (fun empty => first (.inl empty))
    have bProper : B.Proper :=
      proper_of_cases (fun full => first (.inr full)) (fun empty => second (.inl empty))
    cases aWrapped : A.isWrappedSet with
    | false =>
      have a := isWrappedSet_eq_false aProper aWrapped
      cases bWrapped : B.isWrappedSet with
      | false =>
        exact (intersectPlain_hulls wide a (isWrappedSet_eq_false bProper bWrapped)).congr
          (common_iff aProper bProper)
      | true =>
        exact (intersectMixed_hulls wide (isWrappedSet_iff.mp bWrapped) a).congr
          fun x => and_comm.trans (common_iff bProper aProper x)
    | true =>
      have a := isWrappedSet_iff.mp aWrapped
      cases bWrapped : B.isWrappedSet with
      | false =>
        exact (intersectMixed_hulls wide a (isWrappedSet_eq_false bProper bWrapped)).congr
          (common_iff aProper bProper)
      | true =>
        exact (intersectWrapped_hulls wide a (isWrappedSet_iff.mp bWrapped)).congr
          (common_iff aProper bProper)

theorem unionWith_hulls (wide : 0 < W) (A B : ConstantRange W) :
    Hulls (fun x => A.contains x = true ∨ B.contains x = true) (unionWith A B) := by
  unfold unionWith
  simp only [Bool.or_eq_true]
  split_ifs with first second
  · refine Hulls.congr ⟨A, rfl, isHull_self wide A⟩ fun x => ?_
    rcases first with full | empty
    · simp [contains_of_isFullSet full]
    · simp [not_contains_of_isEmptySet wide empty]
  · refine Hulls.congr ⟨B, rfl, isHull_self wide B⟩ fun x => ?_
    rcases second with full | empty
    · simp [contains_of_isFullSet full]
    · simp [not_contains_of_isEmptySet wide empty]
  · have aProper : A.Proper :=
      proper_of_cases (fun full => first (.inl full)) (fun empty => second (.inr empty))
    have bProper : B.Proper :=
      proper_of_cases (fun full => second (.inl full)) (fun empty => first (.inr empty))
    cases aWrapped : A.isWrappedSet with
    | false =>
      have a := isWrappedSet_eq_false aProper aWrapped
      cases bWrapped : B.isWrappedSet with
      | false =>
        exact (unionPlain_hulls wide a (isWrappedSet_eq_false bProper bWrapped)).congr
          (either_iff aProper bProper)
      | true =>
        exact (unionMixed_hulls wide (isWrappedSet_iff.mp bWrapped) a).congr
          fun x => or_comm.trans (either_iff bProper aProper x)
    | true =>
      have a := isWrappedSet_iff.mp aWrapped
      cases bWrapped : B.isWrappedSet with
      | false =>
        exact (unionMixed_hulls wide a (isWrappedSet_eq_false bProper bWrapped)).congr
          (either_iff aProper bProper)
      | true =>
        exact (unionWrapped_hulls wide a (isWrappedSet_iff.mp bWrapped)).congr
          (either_iff aProper bProper)

/-- Both operations find a smallest range. -/
theorem intersectWith_unionWith_smallest (wide : 0 < W) (A B : ConstantRange W) :
    Hulls (fun x => A.contains x = true ∧ B.contains x = true) (intersectWith A B) ∧
      Hulls (fun x => A.contains x = true ∨ B.contains x = true) (unionWith A B) :=
  ⟨intersectWith_hulls wide A B, unionWith_hulls wide A B⟩

/-- Two ranges of bytes that overlap at both ends. -/
theorem intersectWith_unionWith_smallest_overlapping :
    Hulls (fun x => (ConstantRange.contains ⟨200, 100, by decide⟩ x = true) ∧
        ConstantRange.contains ⟨50, 220, by decide⟩ x = true)
      (intersectWith (W := 8) ⟨200, 100, by decide⟩ ⟨50, 220, by decide⟩) ∧
      Hulls (fun x => (ConstantRange.contains ⟨200, 100, by decide⟩ x = true) ∨
        ConstantRange.contains ⟨50, 220, by decide⟩ x = true)
      (unionWith (W := 8) ⟨200, 100, by decide⟩ ⟨50, 220, by decide⟩) :=
  intersectWith_unionWith_smallest (by decide) _ _

/-- Subtract the specified range from this range. -/
def difference (range CR : ConstantRange W) : Option (ConstantRange W) := do
  intersectWith range (<- CR.inverse)

/-- The difference is a smallest range with the values that only the first range has. -/
theorem difference_smallest (wide : 0 < W) (range CR : ConstantRange W) :
    Hulls (fun x => range.contains x = true ∧ ¬CR.contains x = true) (difference range CR) := by
  rcases Represents.inverse wide ⟨CR, rfl, fun x => Iff.rfl⟩ with ⟨others, found, exact⟩
  rw [difference, show CR.inverse = some others from found]
  exact (intersectWith_hulls wide range others).congr fun x => and_congr_right' (exact x).symm

theorem difference_smallest_inside :
    Hulls (fun x => contains (W := 8) ⟨50, 220, by decide⟩ x = true ∧
        ¬contains (W := 8) ⟨100, 140, by decide⟩ x = true)
      (difference (W := 8) ⟨50, 220, by decide⟩ ⟨100, 140, by decide⟩) :=
  difference_smallest (by decide) _ _

end Ranges

end ConstantRange
end LlvmProject
