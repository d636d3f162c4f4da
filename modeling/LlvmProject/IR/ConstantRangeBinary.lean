import LlvmProject.APInt.Overflow
import LlvmProject.IR.ConstantRangeCasts
import LlvmProject.IR.ConstantRangeICmp
import LlvmProject.Library.SignedRange
import Mathlib.Tactic.Ring

namespace LlvmProject

open List hiding Mem
open Bool hiding and_true not_or or_false
open BitVec hiding not_or

/-!
# Binary operations on constant ranges

The range of an operation is found from the extreme values of the operands, or for sums and
differences from their sizes.  Every result contains all values of the operation on members of the
operands, and no bounds are equal that trip the assertion of the constructor.
-/

variable {W : Nat}

namespace APIntOps

/-- The larger of two values considered to be signed. -/
def smax (A B : BitVec W) : BitVec W := if B.slt A then A else B

/-- The larger of two values considered to be unsigned. -/
def umax (A B : BitVec W) : BitVec W := if B < A then A else B

/-- The smaller of two values considered to be unsigned. -/
def umin (A B : BitVec W) : BitVec W := if A < B then A else B

end APIntOps

namespace ConstantRange

open CircularInterval
open APInt.Overflow (countLeadingZeros)

/-! ## Operations -/

/-- The range between the bounds of a sum, or the full set if it is smaller than an operand and
therefore wrapped. -/
def unlessWrapped (X Y : ConstantRange W) (NewLower NewUpper : BitVec W) :
    Option (ConstantRange W) :=
  let Spread_X := X.getSetSize
  let Spread_Y := Y.getSetSize
  if NewLower = NewUpper then some (ofWidth W true)
  else do
    let X <- ofBounds NewLower NewUpper
    if X.getSetSize < Spread_X ∨ X.getSetSize < Spread_Y then return ofWidth W true
    return X

/-- The range of sums. -/
def add (range Other : ConstantRange W) : Option (ConstantRange W) :=
  if range.isEmptySet || Other.isEmptySet then some (ofWidth W false)
  else if range.isFullSet || Other.isFullSet then some (ofWidth W true)
  else unlessWrapped range Other (range.Lower + Other.Lower) (range.Upper + Other.Upper - 1)

/-- The range of differences. -/
def sub (range Other : ConstantRange W) : Option (ConstantRange W) :=
  if range.isEmptySet || Other.isEmptySet then some (ofWidth W false)
  else if range.isFullSet || Other.isFullSet then some (ofWidth W true)
  else unlessWrapped range Other (range.Lower - Other.Upper + 1) (range.Upper - Other.Lower)

/-- The first of the smallest values considered to be signed. -/
def smallest (first : BitVec W) (rest : List (BitVec W)) : BitVec W :=
  rest.foldl (fun least x => if x.slt least then x else least) first

/-- The first of the largest values considered to be signed. -/
def largest (first : BitVec W) (rest : List (BitVec W)) : BitVec W :=
  rest.foldl (fun greatest x => if greatest.slt x then x else greatest) first

/-- The range of products, treating the operands as unsigned. -/
def multiplyUnsigned (range Other : ConstantRange W) : Option (ConstantRange W) := do
  let this_min := range.getUnsignedMin.setWidth (W * 2)
  let this_max := range.getUnsignedMax.setWidth (W * 2)
  let Other_min := Other.getUnsignedMin.setWidth (W * 2)
  let Other_max := Other.getUnsignedMax.setWidth (W * 2)
  let Result_zext <- ofBounds (this_min * Other_min) (this_max * Other_max + 1)
  Result_zext.truncate W

/-- The range of products, treating the operands as signed: an extreme product is one of extreme
values. -/
def multiplySigned (range Other : ConstantRange W) : Option (ConstantRange W) := do
  let this_min := range.getSignedMin.signExtend (W * 2)
  let this_max := range.getSignedMax.signExtend (W * 2)
  let Other_min := Other.getSignedMin.signExtend (W * 2)
  let Other_max := Other.getSignedMax.signExtend (W * 2)
  let L := [this_min * Other_max, this_max * Other_min, this_max * Other_max]
  let Result_sext <- ofBounds (smallest (this_min * Other_min) L)
    (largest (this_min * Other_min) L + 1)
  Result_sext.truncate W

/-- The range of products, the smaller one of the two. -/
def multiply (range Other : ConstantRange W) : Option (ConstantRange W) :=
  if range.isEmptySet || Other.isEmptySet then some (ofWidth W false)
  else do
    let UR <- multiplyUnsigned range Other
    let SR <- multiplySigned range Other
    return if UR.getSetSize < SR.getSetSize then UR else SR

/-- The range of signed maxima. -/
def smax (range Other : ConstantRange W) : Option (ConstantRange W) :=
  if range.isEmptySet || Other.isEmptySet then some (ofWidth W false)
  else
    let NewL := APIntOps.smax range.getSignedMin Other.getSignedMin
    let NewU := APIntOps.smax range.getSignedMax Other.getSignedMax + 1
    if NewU = NewL then some (ofWidth W true) else ofBounds NewL NewU

/-- The range of unsigned maxima. -/
def umax (range Other : ConstantRange W) : Option (ConstantRange W) :=
  if range.isEmptySet || Other.isEmptySet then some (ofWidth W false)
  else
    let NewL := APIntOps.umax range.getUnsignedMin Other.getUnsignedMin
    let NewU := APIntOps.umax range.getUnsignedMax Other.getUnsignedMax + 1
    if NewU = NewL then some (ofWidth W true) else ofBounds NewL NewU

/-- The lowest divisor that is not zero. -/
def lowestDivisor (RHS : ConstantRange W) : BitVec W :=
  if RHS.getUnsignedMin = 0 then
    -- Usually that is 1, except for a range in the form of `[X, 1)` in which case it is `X`.
    if RHS.Upper = 1 then RHS.Lower else 1
  else RHS.getUnsignedMin

/-- The range of unsigned quotients; `none` is the failed assertion of a division by zero. -/
def udiv (range RHS : ConstantRange W) : Option (ConstantRange W) :=
  if range.isEmptySet || RHS.isEmptySet || RHS.getUnsignedMax == 0 then some (ofWidth W false)
  else if RHS.isFullSet then some (ofWidth W true)
  else if lowestDivisor RHS = 0 then none
  else
    let Lower := range.getUnsignedMin / RHS.getUnsignedMax
    let Upper := range.getUnsignedMax / lowestDivisor RHS + 1
    if Lower = Upper then some (ofWidth W true) else ofBounds Lower Upper

/-- The range of bitwise conjunctions. -/
def binaryAnd (range Other : ConstantRange W) : Option (ConstantRange W) :=
  if range.isEmptySet || Other.isEmptySet then some (ofWidth W false)
  else
    let umin := APIntOps.umin Other.getUnsignedMax range.getUnsignedMax
    if umin = allOnes W then some (ofWidth W true) else ofBounds 0 (umin + 1)

/-- The range of bitwise disjunctions. -/
def binaryOr (range Other : ConstantRange W) : Option (ConstantRange W) :=
  if range.isEmptySet || Other.isEmptySet then some (ofWidth W false)
  else
    let umax := APIntOps.umax range.getUnsignedMin Other.getUnsignedMin
    if umax = 0 then some (ofWidth W true) else ofBounds umax 0

/-- The range of left shifts. -/
def shl (range Other : ConstantRange W) : Option (ConstantRange W) :=
  if range.isEmptySet || Other.isEmptySet then some (ofWidth W false)
  else
    let min := range.getUnsignedMin <<< Other.getUnsignedMin
    let max := range.getUnsignedMax <<< Other.getUnsignedMax
    let Zeros := BitVec.ofNat W (countLeadingZeros range.getUnsignedMax)
    -- There is no overflow if all shift amounts are less than the leading zeros.
    if Other.getUnsignedMax < Zeros then ofBounds min (max + 1) else some (ofWidth W true)

/-- The range of logical right shifts. -/
def lshr (range Other : ConstantRange W) : Option (ConstantRange W) :=
  if range.isEmptySet || Other.isEmptySet then some (ofWidth W false)
  else
    let max := range.getUnsignedMax >>> Other.getUnsignedMin
    let min := range.getUnsignedMin >>> Other.getUnsignedMax
    if min = max + 1 then some (ofWidth W true) else ofBounds min (max + 1)

/-! ## Containing the values of an operation -/

/-- The assertions hold, and the result contains the values of the operation on members of the
operands, for the right operands that it is defined for. -/
def Transfers (A B : ConstantRange W) (f : BitVec W -> BitVec W -> BitVec W)
    (defined : BitVec W -> Prop) (result : Option (ConstantRange W)) : Prop :=
  ∃ range, result = some range ∧ ∀ a b, A.contains a = true -> B.contains b = true -> defined b ->
    range.contains (f a b) = true

section Transfers

variable {A B : ConstantRange W} {f : BitVec W -> BitVec W -> BitVec W} {defined : BitVec W -> Prop}

theorem transfers_full : Transfers A B f defined (some (ofWidth W true)) :=
  ⟨_, rfl, fun _ _ _ _ _ => contains_of_isFullSet (by simp [ofWidth, isFullSet]) _⟩

theorem transfers_empty (wide : 0 < W) (empty : (A.isEmptySet || B.isEmptySet) = true)
    (result : ConstantRange W) : Transfers A B f defined (some result) := by
  refine ⟨result, rfl, fun a b memberA memberB _ => ?_⟩
  rw [or_eq_true] at empty
  rcases empty with empty | empty
  · exact absurd memberA (eq_false_iff.mp (not_contains_of_isEmptySet wide empty a))
  · exact absurd memberB (eq_false_iff.mp (not_contains_of_isEmptySet wide empty b))

theorem not_empty_left (notEmpty : ¬(A.isEmptySet || B.isEmptySet) = true) :
    A.isEmptySet = false := by
  rw [or_eq_true, not_or] at notEmpty
  exact eq_false_iff.mpr notEmpty.1

theorem not_empty_right (notEmpty : ¬(A.isEmptySet || B.isEmptySet) = true) :
    B.isEmptySet = false := by
  rw [or_eq_true, not_or] at notEmpty
  exact eq_false_iff.mpr notEmpty.2

section

variable (wide : 0 < W)
include wide

/-- The values between two values form the range up to the one after the second. -/
theorem contains_ofBounds_add_one (base : BitVec W) {L M : BitVec W} (ne : L ≠ M + 1) :
    ∃ range, ofBounds L (M + 1) = some range ∧
      ∀ x, place base L <= place base x -> place base x <= place base M -> range.contains x =
        true := by
  have valid : L = M + 1 -> L = allOnes W ∨ L = 0 := fun same => absurd same ne
  have proper : Proper ⟨L, M + 1, valid⟩ := fun same => ne (eq_of_toNat_eq same)
  refine ⟨⟨L, M + 1, valid⟩, dif_pos valid, fun x above below => ?_⟩
  rw [proper.contains_iff]
  have next := toNat_add_one_cases wide M
  have notLast : L.toNat ≠ (M + 1).toNat := proper
  have baseLt := base.isLt
  have lowLt := L.isLt
  have highLt := M.isLt
  have xLt := x.isLt
  dsimp only [place, distance] at above below
  rw [Mem]
  dsimp only
  split_ifs at above below <;> omega

/-- An operation whose values are between two values, in the order from a base on. -/
theorem transfers_between (base : BitVec W) {L M : BitVec W} {result : Option (ConstantRange W)}
    (result_eq : result = if L = M + 1 then some (ofWidth W true) else ofBounds L (M + 1))
    (between : ∀ a b, A.contains a = true -> B.contains b = true ->
    defined b -> place base L <= place base (f a b) ∧ place base (f a b) <= place base M) :
    Transfers A B f defined result := by
  rw [result_eq]
  by_cases full : L = M + 1
  · rw [if_pos full]
    exact transfers_full
  · rcases contains_ofBounds_add_one wide base full with ⟨range, built, contains⟩
    rw [if_neg full]
    refine ⟨range, built, fun a b memberA memberB isDefined => ?_⟩
    rcases between a b memberA memberB isDefined with ⟨above, below⟩
    exact contains _ above below

/-- As above, in the order of unsigned values. -/
theorem transfers_between_unsigned {L M : BitVec W} {result : Option (ConstantRange W)}
    (result_eq : result = if L = M + 1 then some (ofWidth W true) else ofBounds L (M + 1))
    (between : ∀ a b, A.contains a = true ->
    B.contains b = true -> defined b -> L.toNat <= (f a b).toNat ∧ (f a b).toNat <= M.toNat) :
    Transfers A B f defined result := by
  refine transfers_between wide 0 result_eq fun a b memberA memberB isDefined => ?_
  rw [place_zero, place_zero, place_zero]
  exact between a b memberA memberB isDefined

theorem getUnsignedMin_le {a : BitVec W} (notEmpty : A.isEmptySet = false)
    (mem : A.contains a = true) : A.getUnsignedMin.toNat <= a.toNat := by
  have least := (least_getUnsignedMin wide notEmpty).2 a mem
  rwa [place_zero, place_zero] at least

theorem le_getUnsignedMax {a : BitVec W} (notEmpty : A.isEmptySet = false)
    (mem : A.contains a = true) : a.toNat <= A.getUnsignedMax.toNat := by
  have greatest := (greatest_getUnsignedMax wide notEmpty).2 a mem
  rwa [place_zero, place_zero] at greatest

end

end Transfers

/-! ## Sums and differences -/

section Sums

variable {A B : ConstantRange W}

/-- The members of an interval are less far from its lower bound than the upper bound. -/
theorem Proper.contains_iff_sub {range : ConstantRange W} (proper : range.Proper) (x : BitVec W) :
    range.contains x = true ↔ (x - range.Lower).toNat < (range.Upper - range.Lower).toNat := by
  rw [proper.contains_iff, toNat_sub_distance, toNat_sub_distance]
  have lowLt := range.Lower.isLt
  have highLt := range.Upper.isLt
  have xLt := x.isLt
  unfold Proper at proper
  rw [Mem, distance, distance]
  split_ifs <;> omega

theorem Proper.toNat_getSetSize_eq_sub {range : ConstantRange W} (proper : range.Proper) :
    range.getSetSize.toNat = (range.Upper - range.Lower).toNat := by
  rw [proper.toNat_getSetSize, toNat_sub_distance]

theorem add_one_eq_of_modEq {N size sizeA sizeB : Nat} (sizeLt : size < N) (aLt : sizeA < N)
    (bLt : sizeB < N) (aPositive : 0 < sizeA) (bPositive : 0 < sizeB) (notLess : sizeB <= size)
    (same : size + 1 ≡ sizeA + sizeB [MOD N]) :
    size + 1 = sizeA + sizeB := by
  rw [Nat.ModEq] at same
  rcases lt_or_ge (sizeA + sizeB) N with fits | wraps
  · rw [Nat.mod_eq_of_lt fits] at same
    rcases lt_or_ge (size + 1) N with below | last
    · rwa [Nat.mod_eq_of_lt below] at same
    · have full : size + 1 = N := le_antisymm sizeLt last
      rw [full, Nat.mod_self] at same
      omega
  · have less : sizeA + sizeB - N < N := by omega
    rw [Nat.mod_eq_sub_mod wraps, Nat.mod_eq_of_lt less] at same
    rcases lt_or_ge (size + 1) N with below | last
    · rw [Nat.mod_eq_of_lt below] at same
      omega
    · have full : size + 1 = N := le_antisymm sizeLt last
      rw [full, Nat.mod_self] at same
      omega

/-- A result that is as large as both operands has not wrapped, so that it contains every value
whose distance from the lower bound is the sum of distances in the operands. -/
theorem unlessWrapped_transfers (aProper : A.Proper)
    (bProper : B.Proper) {f : BitVec W -> BitVec W -> BitVec W} {NewLower NewUpper : BitVec W}
    (size : (NewUpper - NewLower).toNat + 1 ≡ (A.Upper - A.Lower).toNat + (B.Upper - B.Lower).toNat
    [MOD 2 ^ W]) (place : ∀ a b, A.contains a = true -> B.contains b = true -> ∃ i j, i < (A.Upper -
    A.Lower).toNat ∧ j < (B.Upper - B.Lower).toNat ∧ (f a b - NewLower).toNat ≡ i + j [MOD 2 ^ W]) :
    Transfers A B f (fun _ => True) (unlessWrapped A B NewLower NewUpper) := by
  rw [unlessWrapped]
  by_cases same : NewLower = NewUpper
  · rw [if_pos same]
    exact transfers_full
  have valid : NewLower = NewUpper -> NewLower = allOnes W ∨ NewLower = 0 :=
    fun equal => absurd equal same
  have proper : Proper ⟨NewLower, NewUpper, valid⟩ := fun equal => same (eq_of_toNat_eq equal)
  have built : ofBounds NewLower NewUpper = some ⟨NewLower, NewUpper, valid⟩ := dif_pos valid
  simp only [if_neg same, built, Option.bind_eq_bind, Option.bind_some, Option.pure_def]
  by_cases smaller : getSetSize ⟨NewLower, NewUpper, valid⟩ < A.getSetSize ∨
      getSetSize ⟨NewLower, NewUpper, valid⟩ < B.getSetSize
  · rw [if_pos smaller]
    exact transfers_full
  rw [if_neg smaller]
  rw [not_or, lt_def, lt_def, proper.toNat_getSetSize_eq_sub,
    aProper.toNat_getSetSize_eq_sub, bProper.toNat_getSetSize_eq_sub] at smaller
  refine ⟨_, rfl, fun a b memberA memberB _ => (proper.contains_iff_sub _).mpr ?_⟩
  rcases place a b memberA memberB with ⟨i, j, inA, inB, position⟩
  have aLt := (A.Upper - A.Lower).isLt
  have bLt := (B.Upper - B.Lower).isLt
  have sizeLt := (NewUpper - NewLower).isLt
  dsimp only at smaller ⊢
  -- The size is the sum of the sizes less one, or that less the size of the type.
  have whole : (NewUpper - NewLower).toNat + 1 =
      (A.Upper - A.Lower).toNat + (B.Upper - B.Lower).toNat :=
    add_one_eq_of_modEq sizeLt aLt bLt (Nat.zero_lt_of_lt inA) (Nat.zero_lt_of_lt inB)
      (Nat.le_of_not_lt smaller.2) size
  have inside : i + j < 2 ^ W := by omega
  have exact' : (f a b - NewLower).toNat = i + j := by
    rw [Nat.ModEq, Nat.mod_eq_of_lt (f a b - NewLower).isLt, Nat.mod_eq_of_lt inside] at position
    exact position
  omega

theorem toNat_add_modEq (x y : BitVec W) : (x + y).toNat ≡ x.toNat + y.toNat [MOD 2 ^ W] := by
  rw [Nat.ModEq, toNat_add, Nat.mod_mod]

theorem add_transfers (wide : 0 < W) (A B : ConstantRange W) :
    Transfers A B (· + ·) (fun _ => True) (A.add B) := by
  rw [add]
  by_cases empty : (A.isEmptySet || B.isEmptySet) = true
  · rw [if_pos empty]
    exact transfers_empty wide empty _
  rw [if_neg empty]
  by_cases full : (A.isFullSet || B.isFullSet) = true
  · rw [if_pos full]
    exact transfers_full
  rw [if_neg full]
  rw [or_eq_true, not_or] at empty full
  have aProper := proper_of_cases full.1 empty.1
  have bProper := proper_of_cases full.2 empty.2
  refine unlessWrapped_transfers aProper bProper ?_ fun a b memberA memberB =>
    ⟨_, _, (aProper.contains_iff_sub a).mp memberA, (bProper.contains_iff_sub b).mp memberB, ?_⟩
  · have split : A.Upper + B.Upper - 1 - (A.Lower + B.Lower) + 1 =
        (A.Upper - A.Lower) + (B.Upper - B.Lower) := by ring
    have one : (1 : BitVec W).toNat = 1 := Nat.mod_eq_of_lt (Nat.one_lt_two_pow (Nat.ne_of_gt wide))
    have sum := toNat_add_modEq (A.Upper + B.Upper - 1 - (A.Lower + B.Lower)) 1
    rw [split, one] at sum
    exact sum.symm.trans (toNat_add_modEq _ _)
  · have split : a + b - (A.Lower + B.Lower) = (a - A.Lower) + (b - B.Lower) := by ring
    rw [split]
    exact toNat_add_modEq _ _

theorem sub_transfers (wide : 0 < W) (A B : ConstantRange W) :
    Transfers A B (· - ·) (fun _ => True) (A.sub B) := by
  rw [sub]
  by_cases empty : (A.isEmptySet || B.isEmptySet) = true
  · rw [if_pos empty]
    exact transfers_empty wide empty _
  rw [if_neg empty]
  by_cases full : (A.isFullSet || B.isFullSet) = true
  · rw [if_pos full]
    exact transfers_full
  rw [if_neg full]
  rw [or_eq_true, not_or] at empty full
  have aProper := proper_of_cases full.1 empty.1
  have bProper := proper_of_cases full.2 empty.2
  have one : (1 : BitVec W).toNat = 1 := Nat.mod_eq_of_lt (Nat.one_lt_two_pow (Nat.ne_of_gt wide))
  refine unlessWrapped_transfers aProper bProper ?_ fun a b memberA memberB => ?_
  · have split : A.Upper - B.Lower - (A.Lower - B.Upper + 1) + 1 =
        (A.Upper - A.Lower) + (B.Upper - B.Lower) := by ring
    have sum := toNat_add_modEq (A.Upper - B.Lower - (A.Lower - B.Upper + 1)) 1
    rw [split, one] at sum
    exact sum.symm.trans (toNat_add_modEq _ _)
  · -- The distance of a subtrahend is taken from the last member of its range.
    have inB := (bProper.contains_iff_sub b).mp memberB
    refine ⟨_, (B.Upper - B.Lower).toNat - 1 - (b - B.Lower).toNat,
      (aProper.contains_iff_sub a).mp memberA, by omega, ?_⟩
    have split : a - b - (A.Lower - B.Upper + 1) + (1 + (b - B.Lower)) =
        (a - A.Lower) + (B.Upper - B.Lower) := by ring
    have back := toNat_add_modEq (a - b - (A.Lower - B.Upper + 1)) (1 + (b - B.Lower))
    rw [split] at back
    have taken : (a - b - (A.Lower - B.Upper + 1)).toNat + (1 + (b - B.Lower).toNat) ≡
        (a - A.Lower).toNat + ((B.Upper - B.Lower).toNat - 1 - (b - B.Lower).toNat) +
          (1 + (b - B.Lower).toNat) [MOD 2 ^ W] := by
      have rest : (B.Upper - B.Lower).toNat - 1 - (b - B.Lower).toNat +
          (1 + (b - B.Lower).toNat) = (B.Upper - B.Lower).toNat := by omega
      have more : (1 + (b - B.Lower)).toNat ≡ 1 + (b - B.Lower).toNat [MOD 2 ^ W] := by
        have sum := toNat_add_modEq 1 (b - B.Lower)
        rwa [one] at sum
      rw [add_assoc, rest]
      exact ((more.add_left _).symm.trans back.symm).trans (toNat_add_modEq _ _)
    exact Nat.ModEq.add_right_cancel' _ taken

end Sums

/-! ## Operations with values between extreme values -/

section Extremes

variable {A B : ConstantRange W}

theorem place_smax (wide : 0 < W) (a b : BitVec W) :
    place (intMin W) (APIntOps.smax a b) = max (place (intMin W) a) (place (intMin W) b) := by
  rw [APIntOps.smax]
  by_cases less : b.slt a = true
  · rw [if_pos less, max_eq_left (le_of_lt ((slt_iff wide b a).mp less))]
  · have notBelow := Nat.le_of_not_lt fun below => less ((slt_iff wide b a).mpr below)
    rw [if_neg less, max_eq_right notBelow]

theorem toNat_umax (a b : BitVec W) : (APIntOps.umax a b).toNat = max a.toNat b.toNat := by
  rw [APIntOps.umax]
  by_cases less : b < a
  · rw [if_pos less, max_eq_left (le_of_lt less)]
  · rw [if_neg less, max_eq_right (Nat.le_of_not_lt less)]

theorem toNat_umin (a b : BitVec W) : (APIntOps.umin a b).toNat = min a.toNat b.toNat := by
  rw [APIntOps.umin]
  by_cases less : a < b
  · rw [if_pos less, min_eq_left (le_of_lt less)]
  · rw [if_neg less, min_eq_right (Nat.le_of_not_lt less)]

theorem smax_transfers (wide : 0 < W) (A B : ConstantRange W) :
    Transfers A B APIntOps.smax (fun _ => True) (A.smax B) := by
  rw [smax]
  by_cases empty : (A.isEmptySet || B.isEmptySet) = true
  · rw [if_pos empty]
    exact transfers_empty wide empty _
  rw [if_neg empty]
  refine transfers_between wide (intMin W) (if_congr eq_comm rfl rfl)
    fun a b memberA memberB _ => ?_
  have leastA := (least_getSignedMin wide (not_empty_left empty)).2 a memberA
  have leastB := (least_getSignedMin wide (not_empty_right empty)).2 b memberB
  have greatestA := (greatest_getSignedMax wide (not_empty_left empty)).2 a memberA
  have greatestB := (greatest_getSignedMax wide (not_empty_right empty)).2 b memberB
  rw [place_smax wide, place_smax wide, place_smax wide]
  exact ⟨max_le_max leastA leastB, max_le_max greatestA greatestB⟩

theorem umax_transfers (wide : 0 < W) (A B : ConstantRange W) :
    Transfers A B APIntOps.umax (fun _ => True) (A.umax B) := by
  rw [umax]
  by_cases empty : (A.isEmptySet || B.isEmptySet) = true
  · rw [if_pos empty]
    exact transfers_empty wide empty _
  rw [if_neg empty]
  refine transfers_between_unsigned wide (if_congr eq_comm rfl rfl) fun a b memberA memberB _ => ?_
  rw [toNat_umax, toNat_umax, toNat_umax]
  exact ⟨max_le_max (getUnsignedMin_le wide (not_empty_left empty) memberA)
      (getUnsignedMin_le wide (not_empty_right empty) memberB),
    max_le_max (le_getUnsignedMax wide (not_empty_left empty) memberA)
      (le_getUnsignedMax wide (not_empty_right empty) memberB)⟩

theorem toNat_one (wide : 0 < W) : (1 : BitVec W).toNat = 1 :=
  Nat.mod_eq_of_lt (Nat.one_lt_two_pow (Nat.ne_of_gt wide))

theorem eq_zero_iff_toNat (x : BitVec W) : x = 0 ↔ x.toNat = 0 := by
  rw [toNat_eq]
  exact Iff.rfl

section

variable (wide : 0 < W)
include wide

theorem lowestDivisor_spec (notEmpty : B.isEmptySet = false)
    (notFull : B.isFullSet = false) (notZero : B.getUnsignedMax ≠ 0) :
    lowestDivisor B ≠ 0 ∧ ∀ b, B.contains b = true -> b ≠ 0 -> (lowestDivisor B).toNat <=
    b.toNat := by
  have one := toNat_one wide
  rw [lowestDivisor]
  by_cases zero : B.getUnsignedMin = 0
  · rw [if_pos zero]
    by_cases last : B.Upper = 1
    · rw [if_pos last]
      have proper := proper_of_cases (eq_false_iff.mp notFull) (eq_false_iff.mp notEmpty)
      have lowerZero : B.Lower ≠ 0 := by
        intro same
        -- The range is `[0, 1)`, whose greatest member is zero.
        refine notZero ?_
        have unwrapped : B.isWrappedSet = false := by
          rw [isWrappedSet, same]
          exact decide_eq_false (Nat.not_lt_zero _)
        rw [getUnsignedMax, notFull, unwrapped, Bool.or_false, if_neg Bool.false_ne_true, last]
        exact sub_self 1
      refine ⟨lowerZero, fun b mem nonzero => ?_⟩
      have interval := (proper.contains_iff b).mp mem
      have pos : b.toNat ≠ 0 := fun same => nonzero ((eq_zero_iff_toNat b).mpr same)
      rw [last, one, Mem] at interval
      omega
    · rw [if_neg last]
      refine ⟨fun same => ?_, fun b _ nonzero => ?_⟩
      · rw [eq_zero_iff_toNat, one] at same
        exact Nat.one_ne_zero same
      · rw [one]
        exact pos_of_ne_zero fun same => nonzero ((eq_zero_iff_toNat b).mpr same)
  · rw [if_neg zero]
    exact ⟨zero, fun b mem _ => getUnsignedMin_le wide notEmpty mem⟩

section

variable (A B : ConstantRange W)

theorem udiv_transfers : Transfers A B (· / ·) (· ≠ 0) (A.udiv B) := by
  rw [udiv]
  by_cases empty : (A.isEmptySet || B.isEmptySet) = true
  · rw [if_pos (by rw [empty, Bool.true_or])]
    exact transfers_empty wide empty _
  have notEmptyB := not_empty_right empty
  by_cases zero : B.getUnsignedMax = 0
  · rw [if_pos (by rw [zero, beq_self_eq_true, Bool.or_true])]
    refine ⟨_, rfl, fun a b _ memberB nonzero => absurd ?_ nonzero⟩
    have greatest := le_getUnsignedMax wide notEmptyB memberB
    rw [eq_zero_iff_toNat] at zero ⊢
    omega
  rw [not_eq_true] at empty
  have notZero : ¬(A.isEmptySet || B.isEmptySet || B.getUnsignedMax == 0) = true := by
    rw [empty, Bool.false_or, beq_iff_eq]
    exact zero
  rw [if_neg notZero]
  by_cases full : B.isFullSet = true
  · rw [if_pos full]
    exact transfers_full
  rcases lowestDivisor_spec wide notEmptyB (eq_false_iff.mpr full) zero with
    ⟨nonzero, lowest⟩
  rw [if_neg full, if_neg nonzero]
  refine transfers_between_unsigned wide rfl fun a b memberA memberB bNonzero => ?_
  have notEmptyA := not_empty_left (eq_false_iff.mp empty)
  have divisor : 0 < b.toNat := pos_of_ne_zero fun same => bNonzero ((eq_zero_iff_toNat b).mpr same)
  have lowestPositive : 0 < (lowestDivisor B).toNat :=
    pos_of_ne_zero fun same => nonzero ((eq_zero_iff_toNat _).mpr same)
  rw [toNat_udiv, toNat_udiv, toNat_udiv]
  exact ⟨Nat.div_le_div (getUnsignedMin_le wide notEmptyA memberA)
      (le_getUnsignedMax wide notEmptyB memberB) (Nat.ne_of_gt divisor),
    Nat.div_le_div (le_getUnsignedMax wide notEmptyA memberA) (lowest b memberB bNonzero)
      (Nat.ne_of_gt lowestPositive)⟩

theorem binaryAnd_transfers : Transfers A B (· &&& ·) (fun _ => True) (A.binaryAnd B) := by
  rw [binaryAnd]
  by_cases empty : (A.isEmptySet || B.isEmptySet) = true
  · rw [if_pos empty]
    exact transfers_empty wide empty _
  rw [if_neg empty]
  have wraps (x : BitVec W) : x = allOnes W ↔ 0 = x + 1 := by
    rw [allOnes_eq wide]
    exact ⟨fun same => by rw [same, sub_add_cancel], fun same => by rw [same, add_sub_cancel]⟩
  refine transfers_between_unsigned wide (if_congr (wraps _) rfl rfl)
    fun a b memberA memberB _ => ⟨Nat.zero_le _, ?_⟩
  rw [toNat_umin, toNat_and]
  exact le_min (Nat.and_le_right.trans (le_getUnsignedMax wide (not_empty_right empty) memberB))
    (Nat.and_le_left.trans (le_getUnsignedMax wide (not_empty_left empty) memberA))

theorem binaryOr_transfers : Transfers A B (· ||| ·) (fun _ => True) (A.binaryOr B) := by
  rw [binaryOr]
  by_cases empty : (A.isEmptySet || B.isEmptySet) = true
  · rw [if_pos empty]
    exact transfers_empty wide empty _
  rw [if_neg empty]
  have next : allOnes W + 1 = 0 := by rw [allOnes_eq wide, sub_add_cancel]
  refine @transfers_between_unsigned W A B (· ||| ·) (fun _ => True) wide _ (allOnes W) _
    (by rw [next]) fun a b memberA memberB _ => ⟨?_, ?_⟩
  · rw [toNat_umax, toNat_or]
    exact max_le ((getUnsignedMin_le wide (not_empty_left empty) memberA).trans Nat.left_le_or)
      ((getUnsignedMin_le wide (not_empty_right empty) memberB).trans Nat.right_le_or)
  · rw [toNat_allOnes]
    exact Nat.le_sub_one_of_lt (isLt _)

theorem lshr_transfers : Transfers A B (· >>> ·) (·.toNat < W) (A.lshr B) := by
  rw [lshr]
  by_cases empty : (A.isEmptySet || B.isEmptySet) = true
  · rw [if_pos empty]
    exact transfers_empty wide empty _
  rw [if_neg empty]
  refine transfers_between_unsigned wide rfl fun a b memberA memberB _ => ?_
  have power {i j : Nat} (le : i <= j) : 2 ^ i <= 2 ^ j := Nat.pow_le_pow_right two_pos le
  simp only [ushiftRight_eq', toNat_ushiftRight, Nat.shiftRight_eq_div_pow]
  exact ⟨Nat.div_le_div (getUnsignedMin_le wide (not_empty_left empty) memberA)
      (power (le_getUnsignedMax wide (not_empty_right empty) memberB))
      (Nat.ne_of_gt (Nat.two_pow_pos _)),
    Nat.div_le_div (le_getUnsignedMax wide (not_empty_left empty) memberA)
      (power (getUnsignedMin_le wide (not_empty_right empty) memberB))
      (Nat.ne_of_gt (Nat.two_pow_pos _))⟩

end

theorem toNat_shiftLeft_of_le {a M : BitVec W} {b m : Nat} (le : a.toNat <= M.toNat)
    (amount : b <= m) (leading : m < countLeadingZeros M) :
    (a <<< b).toNat = a.toNat * 2 ^ b ∧ a.toNat * 2 ^ b <= M.toNat * 2 ^ m ∧
      M.toNat * 2 ^ m + 1 < 2 ^ W := by
  have bound : M.toNat * 2 ^ m + 1 < 2 ^ W := by
    rw [countLeadingZeros] at leading
    have half : M.toNat * 2 ^ m < 2 ^ (W - 1) := by
      calc M.toNat * 2 ^ m < 2 ^ M.toNat.size * 2 ^ m :=
            Nat.mul_lt_mul_of_pos_right (Nat.lt_size_self _) (Nat.two_pow_pos m)
        _ = 2 ^ (M.toNat.size + m) := (pow_add _ _ _).symm
        _ <= 2 ^ (W - 1) := Nat.pow_le_pow_right two_pos (by omega)
    have double := two_pow_pred wide
    omega
  have shifted : a.toNat * 2 ^ b <= M.toNat * 2 ^ m :=
    Nat.mul_le_mul le (Nat.pow_le_pow_right two_pos amount)
  refine ⟨?_, shifted, bound⟩
  rw [BitVec.toNat_shiftLeft, Nat.shiftLeft_eq]
  exact Nat.mod_eq_of_lt (by omega)

theorem shl_transfers (A B : ConstantRange W) :
    Transfers A B (· <<< ·) (·.toNat < W) (A.shl B) := by
  rw [shl]
  by_cases empty : (A.isEmptySet || B.isEmptySet) = true
  · rw [if_pos empty]
    exact transfers_empty wide empty _
  rw [if_neg empty]
  dsimp only
  by_cases fits : B.getUnsignedMax < BitVec.ofNat W (countLeadingZeros A.getUnsignedMax)
  swap
  · rw [if_neg fits]
    exact transfers_full
  rw [if_pos fits]
  have leading : B.getUnsignedMax.toNat < countLeadingZeros A.getUnsignedMax :=
    lt_of_lt_of_le fits (by rw [toNat_ofNat]; exact Nat.mod_le _ _)
  have leastA := (least_getUnsignedMin wide (not_empty_left empty)).1
  have leastB := (least_getUnsignedMin wide (not_empty_right empty)).1
  have maximum := toNat_shiftLeft_of_le wide (le_refl A.getUnsignedMax.toNat) (le_refl _)
    leading
  have minimum := toNat_shiftLeft_of_le wide
    (le_getUnsignedMax wide (not_empty_left empty) leastA)
    (le_getUnsignedMax wide (not_empty_right empty) leastB) leading
  have ne : A.getUnsignedMin <<< B.getUnsignedMin ≠ A.getUnsignedMax <<< B.getUnsignedMax + 1 := by
    intro same
    have values := congrArg BitVec.toNat same
    rw [shiftLeft_eq', shiftLeft_eq', minimum.1] at values
    rcases toNat_add_one_cases wide (A.getUnsignedMax <<< B.getUnsignedMax.toNat) with
      ⟨next, -⟩ | ⟨-, last⟩
    · rw [next, maximum.1] at values
      omega
    · rw [maximum.1] at last
      omega
  refine transfers_between_unsigned wide (if_neg ne).symm fun a b memberA memberB _ => ?_
  have value := toNat_shiftLeft_of_le wide (le_getUnsignedMax wide (not_empty_left empty) memberA)
    (le_getUnsignedMax wide (not_empty_right empty) memberB) leading
  simp only [shiftLeft_eq']
  rw [value.1, minimum.1, maximum.1]
  exact ⟨Nat.mul_le_mul (getUnsignedMin_le wide (not_empty_left empty) memberA)
    (Nat.pow_le_pow_right two_pos
      (getUnsignedMin_le wide (not_empty_right empty) memberB)), value.2.1⟩

end

end Extremes

/-! ## Products -/

section Products

variable {A B : ConstantRange W}

theorem contains_truncate {range : ConstantRange (W * 2)} (wide : 0 < W) :
    ∃ truncated, range.truncate W = some truncated ∧
      ∀ x, range.contains x = true -> truncated.contains (x.setWidth W) = true :=
  truncate_contains wide (by omega) range

theorem multiplyUnsigned_transfers (wide : 0 < W) (notEmptyA : A.isEmptySet = false)
    (notEmptyB : B.isEmptySet = false) :
    Transfers A B (· * ·) (fun _ => True) (multiplyUnsigned A B) := by
  have square : 2 ^ (W * 2) = 2 ^ W * 2 ^ W := by rw [Nat.mul_two, pow_add]
  have prod (x y : BitVec W) :
      (x.setWidth (W * 2) * y.setWidth (W * 2)).toNat = x.toNat * y.toNat := by
    rw [toNat_mul, toNat_setWidth_of_le (by omega), toNat_setWidth_of_le (by omega), square]
    exact Nat.mod_eq_of_lt (Nat.mul_lt_mul'' x.isLt y.isLt)
  have leastA := (least_getUnsignedMin wide notEmptyA).1
  have leastB := (least_getUnsignedMin wide notEmptyB).1
  have ordered : A.getUnsignedMin.toNat * B.getUnsignedMin.toNat <=
      A.getUnsignedMax.toNat * B.getUnsignedMax.toNat :=
    Nat.mul_le_mul (le_getUnsignedMax wide notEmptyA leastA)
      (le_getUnsignedMax wide notEmptyB leastB)
  have bound : A.getUnsignedMax.toNat * B.getUnsignedMax.toNat + 1 < 2 ^ (W * 2) := by
    have top : A.getUnsignedMax.toNat * B.getUnsignedMax.toNat <= (2 ^ W - 1) * (2 ^ W - 1) :=
      Nat.mul_le_mul (Nat.le_sub_one_of_lt (isLt _)) (Nat.le_sub_one_of_lt (isLt _))
    have large := Nat.one_lt_two_pow (Nat.ne_of_gt wide)
    rw [square]
    generalize 2 ^ W = N at top large ⊢
    obtain ⟨n, rfl⟩ : ∃ n, N = n + 2 := ⟨N - 2, by omega⟩
    have less : (n + 2 - 1) * (n + 2 - 1) + 1 < (n + 2) * (n + 2) := by
      rw [Nat.add_sub_assoc (by decide)]
      ring_nf
      omega
    omega
  have ne : A.getUnsignedMin.setWidth (W * 2) * B.getUnsignedMin.setWidth (W * 2) ≠
      A.getUnsignedMax.setWidth (W * 2) * B.getUnsignedMax.setWidth (W * 2) + 1 := by
    intro same
    have values := congrArg BitVec.toNat same
    rcases toNat_add_one_cases (Nat.mul_pos wide two_pos)
      (A.getUnsignedMax.setWidth (W * 2) * B.getUnsignedMax.setWidth (W * 2)) with
      ⟨next, -⟩ | ⟨-, last⟩
    · rw [next, prod, prod] at values
      omega
    · rw [prod] at last
      omega
  rcases contains_ofBounds_add_one (Nat.mul_pos wide two_pos) 0 ne with
    ⟨range, built, contains⟩
  rcases @contains_truncate W range wide with ⟨truncated, isTruncated, containsTruncated⟩
  refine ⟨truncated, ?_, fun a b memberA memberB _ => ?_⟩
  · simp only [multiplyUnsigned, built, Option.bind_eq_bind, Option.bind_some, isTruncated]
  · have mem := containsTruncated (a.setWidth (W * 2) * b.setWidth (W * 2)) (contains _
      (by
        rw [place_zero, place_zero, prod, prod]
        exact Nat.mul_le_mul (getUnsignedMin_le wide notEmptyA memberA)
          (getUnsignedMin_le wide notEmptyB memberB))
      (by
        rw [place_zero, place_zero, prod, prod]
        exact Nat.mul_le_mul (le_getUnsignedMax wide notEmptyA memberA)
          (le_getUnsignedMax wide notEmptyB memberB)))
    have narrow : (a.setWidth (W * 2) * b.setWidth (W * 2)).setWidth W = a * b := by
      rw [setWidth_mul _ _ (by omega), setWidth_setWidth_of_le _ (by omega),
        setWidth_setWidth_of_le _ (by omega), setWidth_eq, setWidth_eq]
    rwa [narrow] at mem

/-- A product is not below one of the products of the ends. -/
theorem exists_corner_le {x y lowX highX lowY highY : Int} (aboveX : lowX <= x)
    (belowX : x <= highX) (aboveY : lowY <= y) (belowY : y <= highY) :
    lowX * lowY <= x * y ∨ lowX * highY <= x * y ∨ highX * lowY <= x * y ∨ highX * highY <=
    x * y := by
  rcases Int.le_total 0 y with pos | neg
  · have atLow : lowX * y <= x * y := Int.mul_le_mul_of_nonneg_right aboveX pos
    rcases Int.le_total 0 lowX with positiveX | negativeX
    · exact .inl ((Int.mul_le_mul_of_nonneg_left aboveY positiveX).trans atLow)
    · exact .inr (.inl ((Int.mul_le_mul_of_nonpos_left negativeX belowY).trans atLow))
  · have atHigh : highX * y <= x * y := Int.mul_le_mul_of_nonpos_right belowX neg
    rcases Int.le_total 0 highX with positiveX | negativeX
    · exact .inr (.inr (.inl
        ((Int.mul_le_mul_of_nonneg_left aboveY positiveX).trans atHigh)))
    · exact .inr (.inr (.inr
        ((Int.mul_le_mul_of_nonpos_left negativeX belowY).trans atHigh)))

/-- A product is not above one of the products of the ends. -/
theorem exists_le_corner {x y lowX highX lowY highY : Int} (aboveX : lowX <= x)
    (belowX : x <= highX) (aboveY : lowY <= y) (belowY : y <= highY) :
    x * y <= lowX * lowY ∨ x * y <= lowX * highY ∨ x * y <= highX * lowY ∨ x * y <=
    highX * highY := by
  have mirrored := exists_corner_le (Int.neg_le_neg belowX) (Int.neg_le_neg aboveX) aboveY belowY
  simp only [Int.neg_mul, Int.neg_le_neg_iff] at mirrored
  tauto

theorem smallest_spec (first : BitVec W) (rest : List (BitVec W)) :
    smallest first rest ∈ first :: rest ∧
      ∀ x ∈ first :: rest, (smallest first rest).toInt <= x.toInt := by
  induction rest generalizing first with
  | nil => exact ⟨mem_cons_self, fun x mem => by rw [mem_singleton.mp mem]; rfl⟩
  | cons next rest ih =>
    rcases ih (if next.slt first then next else first) with ⟨mem, least⟩
    have step : smallest first (next :: rest) =
        smallest (if next.slt first then next else first) rest := rfl
    have chosen := least _ mem_cons_self
    rw [step]
    refine ⟨?_, ?_⟩
    · rcases mem_cons.mp mem with same | inside
      · rw [same]
        split
        · exact mem_cons_of_mem _ mem_cons_self
        · exact mem_cons_self
      · exact mem_cons_of_mem _ (mem_cons_of_mem _ inside)
    · have notAbove : (if next.slt first then next else first).toInt <= first.toInt ∧
          (if next.slt first then next else first).toInt <= next.toInt := by
        split <;> rename_i order
        · rw [slt_iff_toInt_lt] at order
          omega
        · rw [slt_iff_toInt_lt] at order
          omega
      intro x listed
      rcases mem_cons.mp listed with rfl | listed
      · exact chosen.trans notAbove.1
      · rcases mem_cons.mp listed with rfl | listed
        · exact chosen.trans notAbove.2
        · exact least x (mem_cons_of_mem _ listed)

theorem largest_spec (first : BitVec W) (rest : List (BitVec W)) :
    ∀ x ∈ first :: rest, x.toInt <= (largest first rest).toInt := by
  induction rest generalizing first with
  | nil => exact fun x mem => by rw [mem_singleton.mp mem]; rfl
  | cons next rest ih =>
    have greatest := ih (if first.slt next then next else first)
    have step : largest first (next :: rest) =
        largest (if first.slt next then next else first) rest := rfl
    have chosen := greatest _ mem_cons_self
    have notBelow : first.toInt <= (if first.slt next then next else first).toInt ∧
        next.toInt <= (if first.slt next then next else first).toInt := by
      split <;> rename_i order
      · rw [slt_iff_toInt_lt] at order
        omega
      · rw [slt_iff_toInt_lt] at order
        omega
    rw [step]
    intro x listed
    rcases mem_cons.mp listed with rfl | listed
    · exact notBelow.1.trans chosen
    · rcases mem_cons.mp listed with rfl | listed
      · exact notBelow.2.trans chosen
      · exact greatest x (mem_cons_of_mem _ listed)

/-- A signed product in twice the width, which uses at most half of the type. -/
theorem toInt_mul_signExtend (wide : 0 < W) (x y : BitVec W) :
    (x.signExtend (W * 2) * y.signExtend (W * 2)).toInt = x.toInt * y.toInt ∧
      -2 ^ (W * 2) <= 4 * (x.toInt * y.toInt) := by
  have lowX := le_two_mul_toInt (x := x)
  have highX := two_mul_toInt_lt (x := x)
  have lowY := le_two_mul_toInt (x := y)
  have highY := two_mul_toInt_lt (x := y)
  have square : (2 : Int) ^ (W * 2) = 2 ^ W * 2 ^ W := by rw [Nat.mul_two, pow_add]
  have pos : (0 : Int) < 2 ^ W := by positivity
  have low : -(2 ^ W * 2 ^ W) <= 4 * (x.toInt * y.toInt) := by nlinarith
  have high : 4 * (x.toInt * y.toInt) <= 2 ^ W * 2 ^ W := by nlinarith
  refine ⟨?_, by rw [square]; exact low⟩
  rw [toInt_mul, toInt_signExtend_of_le (by omega), toInt_signExtend_of_le (by omega)]
  refine Int.bmod_eq_of_le_mul_two ?_ ?_ <;>
    · push_cast
      rw [square]
      nlinarith

theorem multiplySigned_transfers (wide : 0 < W) (notEmptyA : A.isEmptySet = false)
    (notEmptyB : B.isEmptySet = false) :
    Transfers A B (· * ·) (fun _ => True) (multiplySigned A B) := by
  have wider : 0 < W * 2 := Nat.mul_pos wide two_pos
  have prod (x y : BitVec W) := (toInt_mul_signExtend wide x y).1
  rw [multiplySigned]
  generalize hcorners : [A.getSignedMin.signExtend (W * 2) * B.getSignedMax.signExtend (W * 2),
    A.getSignedMax.signExtend (W * 2) * B.getSignedMin.signExtend (W * 2),
    A.getSignedMax.signExtend (W * 2) * B.getSignedMax.signExtend (W * 2)] = corners
  generalize hfirst : A.getSignedMin.signExtend (W * 2) * B.getSignedMin.signExtend (W * 2) = first
  rcases smallest_spec first corners with ⟨smallestMem, smallestLe⟩
  have largestGe := largest_spec first corners
  have corner : ∀ corner ∈ first :: corners, ∃ x y : BitVec W,
      corner = x.signExtend (W * 2) * y.signExtend (W * 2) := by
    rw [<- hfirst, <- hcorners]
    intro corner listed
    simp only [mem_cons, not_mem_nil, or_false] at listed
    rcases listed with rfl | rfl | rfl | rfl <;> exact ⟨_, _, rfl⟩
  have ne : smallest first corners ≠ largest first corners + 1 := by
    intro same
    rcases corner _ smallestMem with ⟨x, y, isProduct⟩
    rcases toInt_mul_signExtend wide x y with ⟨value, low⟩
    rw [<- isProduct] at value
    have least : (intMin (W * 2)).toInt < (smallest first corners).toInt := by
      have half : (2 : Int) ^ (W * 2) = 2 * 2 ^ (W * 2 - 1) := by
        rw [<- pow_succ', Nat.sub_add_cancel wider]
      have pos : (0 : Int) < 2 ^ (W * 2 - 1) := by positivity
      rw [toInt_intMin_of_pos wider, value]
      omega
    have prev := SignedRange.toInt_sub_one least
    have order := largestGe _ smallestMem
    have back : smallest first corners - 1 = largest first corners := by
      rw [same, add_sub_cancel]
    rw [back] at prev
    omega
  rcases contains_ofBounds_add_one wider (intMin (W * 2)) ne with
    ⟨range, built, contains⟩
  rcases @contains_truncate W range wide with ⟨truncated, isTruncated, containsTruncated⟩
  refine ⟨truncated, ?_, fun a b memberA memberB _ => ?_⟩
  · simp only [built, Option.bind_eq_bind, Option.bind_some, isTruncated]
  have aboveA := (toInt_le_iff wide _ _).mpr ((least_getSignedMin wide notEmptyA).2 a memberA)
  have belowA := (toInt_le_iff wide _ _).mpr ((greatest_getSignedMax wide notEmptyA).2 a memberA)
  have aboveB := (toInt_le_iff wide _ _).mpr ((least_getSignedMin wide notEmptyB).2 b memberB)
  have belowB := (toInt_le_iff wide _ _).mpr ((greatest_getSignedMax wide notEmptyB).2 b memberB)
  rw [<- hfirst, <- hcorners] at smallestLe largestGe
  simp only [forall_mem_cons, not_mem_nil, false_implies, implies_true, and_true,
    prod] at smallestLe largestGe
  rw [hfirst, hcorners] at smallestLe largestGe
  have mem := containsTruncated (a.signExtend (W * 2) * b.signExtend (W * 2)) (contains _
    (by
      rw [<- toInt_le_iff wider, prod]
      have above := exists_corner_le aboveA belowA aboveB belowB
      omega)
    (by
      rw [<- toInt_le_iff wider, prod]
      have below := exists_le_corner aboveA belowA aboveB belowB
      omega))
  have narrow : (a.signExtend (W * 2) * b.signExtend (W * 2)).setWidth W = a * b := by
    rw [setWidth_mul _ _ (by omega)]
    have restore (x : BitVec W) : (x.signExtend (W * 2)).setWidth W = x := by
      refine eq_of_getLsbD_eq fun i inside => ?_
      have within : i < W * 2 := by omega
      rw [getLsbD_setWidth, getLsbD_signExtend, decide_eq_true inside,
        decide_eq_true within, if_pos inside, Bool.true_and, Bool.true_and]
    rw [restore, restore]
  rwa [narrow] at mem

theorem multiply_transfers (wide : 0 < W) (A B : ConstantRange W) :
    Transfers A B (· * ·) (fun _ => True) (A.multiply B) := by
  rw [multiply]
  by_cases empty : (A.isEmptySet || B.isEmptySet) = true
  · rw [if_pos empty]
    exact transfers_empty wide empty _
  rw [if_neg empty]
  rcases multiplyUnsigned_transfers wide (not_empty_left empty) (not_empty_right empty) with
    ⟨UR, unsigned, containsUnsigned⟩
  rcases multiplySigned_transfers wide (not_empty_left empty) (not_empty_right empty) with
    ⟨SR, signed, containsSigned⟩
  simp only [unsigned, signed, Option.bind_eq_bind, Option.bind_some, Option.pure_def]
  by_cases smaller : UR.getSetSize < SR.getSetSize
  · rw [if_pos smaller]
    exact ⟨UR, rfl, containsUnsigned⟩
  · rw [if_neg smaller]
    exact ⟨SR, rfl, containsSigned⟩

end Products

end ConstantRange
end LlvmProject
