import LlvmProject.Library.CircularInterval
import Mathlib.Algebra.Order.Ring.Nat
import Mathlib.Data.BitVec

namespace LlvmProject

open BitVec Nat

/-!
# Constant ranges

A range of bit-vectors from `Lower` up to but excluding `Upper`, which may wrap around
the end of the type.  Equal bounds mean the full set at the greatest value and the empty
set at the least one.  At any other value they trip the assertion of the constructor, so
such a range cannot be built here.
-/

open CircularInterval

variable {W : Nat}

/-- A range of values of one width. -/
structure ConstantRange (W : Nat) where
  Lower : BitVec W
  Upper : BitVec W
  valid : Lower = Upper -> Lower = allOnes W ∨ Lower = 0

namespace ConstantRange

/-- The full or the empty set. -/
def ofWidth (W : Nat) (Full : Bool) : ConstantRange W :=
  if Full then ⟨allOnes W, allOnes W, fun _ => Or.inl rfl⟩
  else ⟨0, 0, fun _ => Or.inr rfl⟩

/-- The range with the given bounds; `none` is the failed assertion of the
constructor. -/
def ofBounds (L U : BitVec W) : Option (ConstantRange W) :=
  if valid : L = U -> L = allOnes W ∨ L = 0 then some ⟨L, U, valid⟩ else none

variable (range : ConstantRange W)

/-- The set contains all of the elements possible for this type. -/
def isFullSet : Bool := range.Lower == range.Upper && range.Lower == allOnes W

/-- The set contains no members. -/
def isEmptySet : Bool := range.Lower == range.Upper && range.Lower == 0

/-- The set wraps around the top of the range, for example `[100, 8)`. -/
def isWrappedSet : Bool := decide (range.Lower > range.Upper)

/-- The value is in the set. -/
def contains (V : BitVec W) : Bool :=
  if range.Lower = range.Upper then range.isFullSet
  else if !range.isWrappedSet then decide (range.Lower <= V) && decide (V < range.Upper)
  else decide (range.Lower <= V) || decide (V < range.Upper)

/-- The set wraps around the least signed value. -/
def isSignWrappedSet : Bool := range.contains (intMax W) && range.contains (intMin W)

/-- The set has exactly one element. -/
def isSingleElement : Bool := range.Upper == range.Lower + 1

/-- The number of elements in the set, with one more bit for the full set. -/
def getSetSize : BitVec (W + 1) :=
  if range.isFullSet then twoPow (W + 1) W
  else (range.Upper - range.Lower).setWidth (W + 1)

/-- The complement of the set. -/
def inverse : Option (ConstantRange W) :=
  if range.isFullSet then some (ofWidth W false)
  else if range.isEmptySet then some (ofWidth W true)
  else ofBounds range.Upper range.Lower

end ConstantRange

/-! ## Ranges as intervals -/

namespace ConstantRange

theorem two_pow_pred (wide : 0 < W) : 2 ^ W = 2 * 2 ^ (W - 1) := by
  rw [<- Nat.pow_succ', Nat.succ_eq_add_one, Nat.sub_add_cancel wide]

theorem toNat_sub_distance (x y : BitVec W) : (y - x).toNat = distance (2 ^ W) x.toNat y.toNat := by
  rw [toNat_sub]
  by_cases below : x.toNat <= y.toNat
  · rw [distance_of_le below]
    have shifted : 2 ^ W - x.toNat + y.toNat = (y.toNat - x.toNat) + 2 ^ W := by omega
    rw [shifted, add_mod_right]
    exact mod_eq_of_lt (lt_of_le_of_lt (sub_le _ _) y.isLt)
  · rw [distance_of_lt (Nat.lt_of_not_le below)]
    have inside := x.isLt
    rw [mod_eq_of_lt (by omega)]
    omega

variable {range : ConstantRange W}

/-- The bounds differ, so the range is an interval. -/
def Proper (range : ConstantRange W) : Prop := range.Lower.toNat ≠ range.Upper.toNat

theorem Proper.bounds_ne (proper : range.Proper) : range.Lower ≠ range.Upper :=
  fun same => proper (congrArg BitVec.toNat same)

theorem Proper.isFullSet (proper : range.Proper) : range.isFullSet = false := by
  simp [ConstantRange.isFullSet, proper.bounds_ne]

theorem Proper.isEmptySet (proper : range.Proper) : range.isEmptySet = false := by
  simp [ConstantRange.isEmptySet, proper.bounds_ne]

theorem cases_kind (range : ConstantRange W) :
    range.isFullSet = true ∨ range.isEmptySet = true ∨ range.Proper := by
  by_cases same : range.Lower = range.Upper
  · rcases range.valid same with greatest | least
    · exact .inl (by simp [ConstantRange.isFullSet, greatest, <- same])
    · exact .inr (.inl (by simp [ConstantRange.isEmptySet, least, <- same]))
  · exact .inr (.inr fun sameNat => same (eq_of_toNat_eq sameNat))

theorem bounds_eq_of_isFullSet (full : range.isFullSet = true) : range.Lower = range.Upper := by
  rw [ConstantRange.isFullSet, Bool.and_eq_true, beq_iff_eq] at full
  exact full.1

theorem contains_of_isFullSet (full : range.isFullSet = true) (x : BitVec W) :
    range.contains x = true := by
  rw [contains, if_pos (bounds_eq_of_isFullSet full), full]

theorem isFullSet_of_isEmptySet (wide : 0 < W) (empty : range.isEmptySet = true) :
    range.isFullSet = false := by
  have ne : (0 : BitVec W) ≠ allOnes W := by
    intro same
    have zero := congrArg BitVec.toNat same
    have power := Nat.one_lt_two_pow (ne_of_gt wide)
    rw [toNat_allOnes] at zero
    exact absurd (zero.symm.trans (toNat_ofNat 0 W)) (by rw [zero_mod]; omega)
  simp only [ConstantRange.isEmptySet, Bool.and_eq_true, beq_iff_eq] at empty
  rw [ConstantRange.isFullSet, empty.2, beq_eq_false_iff_ne.mpr ne, Bool.and_false]

theorem not_contains_of_isEmptySet (wide : 0 < W) (empty : range.isEmptySet = true)
    (x : BitVec W) : range.contains x = false := by
  have notFull := isFullSet_of_isEmptySet wide empty
  simp only [ConstantRange.isEmptySet, Bool.and_eq_true, beq_iff_eq] at empty
  rw [contains, if_pos empty.1, notFull]

theorem Proper.contains_iff (proper : range.Proper) (x : BitVec W) :
    range.contains x = true ↔ Mem range.Lower.toNat range.Upper.toNat x.toNat := by
  rw [contains, if_neg proper.bounds_ne]
  unfold Proper at proper
  simp only [isWrappedSet, gt_iff_lt, lt_def, le_def]
  grind [Mem]

theorem isWrappedSet_iff : range.isWrappedSet = true ↔ range.Upper.toNat < range.Lower.toNat := by
  simp [isWrappedSet, lt_def]

theorem isWrappedSet_eq_false (proper : range.Proper) (notWrapped : range.isWrappedSet = false) :
    range.Lower.toNat < range.Upper.toNat := by
  have notAbove : ¬range.Upper.toNat < range.Lower.toNat := fun above =>
    Bool.false_ne_true (notWrapped.symm.trans (isWrappedSet_iff.mpr above))
  exact lt_of_le_of_ne (Nat.le_of_not_lt notAbove) proper

theorem proper_of_cases (notFull : ¬range.isFullSet = true) (notEmpty : ¬range.isEmptySet = true) :
    range.Proper := by
  rcases cases_kind range with full | empty | proper
  · exact absurd full notFull
  · exact absurd empty notEmpty
  · exact proper

theorem Proper.toNat_getSetSize (proper : range.Proper) :
    range.getSetSize.toNat = distance (2 ^ W) range.Lower.toNat range.Upper.toNat := by
  rw [getSetSize, proper.isFullSet, if_neg Bool.false_ne_true, toNat_setWidth_of_le (le_succ W)]
  exact toNat_sub_distance _ _

theorem toNat_getSetSize_of_isFullSet (full : range.isFullSet = true) :
    range.getSetSize.toNat = 2 ^ W := by
  rw [getSetSize, if_pos full, toNat_twoPow]
  exact mod_eq_of_lt (Nat.pow_lt_pow_right (by decide) (lt_succ_self W))

theorem toNat_getSetSize_of_isEmptySet (wide : 0 < W) (empty : range.isEmptySet = true) :
    range.getSetSize.toNat = 0 := by
  have notFull := isFullSet_of_isEmptySet wide empty
  simp only [ConstantRange.isEmptySet, Bool.and_eq_true, beq_iff_eq] at empty
  rw [getSetSize, notFull, if_neg Bool.false_ne_true, empty.1, sub_self,
    toNat_setWidth_of_le (le_succ W)]
  exact toNat_zero

/-! ## Hulls -/

/-- The range contains the whole set. -/
def Encloses (range : ConstantRange W) (S : BitVec W -> Prop) : Prop :=
  ∀ x, S x -> range.contains x = true

/-- The range contains the whole set, and no smaller range does. -/
structure IsHull (S : BitVec W -> Prop) (range : ConstantRange W) : Prop where
  encloses : range.Encloses S
  least : ∀ other : ConstantRange W, other.Encloses S -> range.getSetSize <= other.getSetSize

variable {S : BitVec W -> Prop}

theorem isHull_of_isEmptySet (wide : 0 < W) (empty : range.isEmptySet = true)
    (nothing : ∀ x, ¬S x) : IsHull S range where
  encloses x mem := absurd mem (nothing x)
  least other _ := by
    rw [le_def, toNat_getSetSize_of_isEmptySet wide empty]
    exact zero_le _

theorem isFullSet_of_encloses (wide : 0 < W) (all : ∀ x, range.contains x = true) :
    range.isFullSet = true := by
  rcases cases_kind range with full | empty | proper
  · exact full
  · exact absurd (all 0) (Bool.eq_false_iff.mp (not_contains_of_isEmptySet wide empty 0))
  · exact absurd ((proper.contains_iff range.Upper).mp (all range.Upper)) not_mem_upper

theorem isHull_of_isFullSet (wide : 0 < W) (full : range.isFullSet = true) (all : ∀ x, S x) :
    IsHull S range where
  encloses x _ := contains_of_isFullSet full x
  least other covers := by
    have otherFull := isFullSet_of_encloses wide fun x => covers x (all x)
    rw [le_def, toNat_getSetSize_of_isFullSet full, toNat_getSetSize_of_isFullSet otherFull]

variable {T : Nat -> Prop}

/-- An interval is a hull of a set if it contains the set, and an element of the set is
within reach of the gap. -/
theorem Proper.isHull (wide : 0 < W) (proper : range.Proper)
    (encloses : ∀ x < 2 ^ W, T x -> Mem range.Lower.toNat range.Upper.toNat x)
    (reach : WithinReach (2 ^ W) T (distance (2 ^ W) range.Upper.toNat range.Lower.toNat)) :
    IsHull (fun x => T x.toNat) range where
  encloses x mem := (proper.contains_iff x).mpr (encloses x.toNat x.isLt mem)
  least other covers := by
    have covered (x : Nat) (inside : x < 2 ^ W) (mem : T x) :
        other.contains (BitVec.ofNat W x) = true :=
      covers (BitVec.ofNat W x) (show T (BitVec.ofNat W x).toNat by
        rwa [toNat_ofNat, mod_eq_of_lt inside])
    rw [le_def, proper.toNat_getSetSize]
    rcases cases_kind other with full | empty | otherProper
    · rw [toNat_getSetSize_of_isFullSet full]
      exact le_of_lt (distance_lt range.Lower.isLt range.Upper.isLt)
    · rcases reach range.Upper.toNat range.Upper.isLt
          (fun mem => not_mem_upper (encloses _ range.Upper.isLt mem)) with
        ⟨y, inside, mem, _⟩
      exact absurd (covered y inside mem)
        (Bool.eq_false_iff.mp (not_contains_of_isEmptySet wide empty _))
    · rw [otherProper.toNat_getSetSize]
      refine reach.length_le range.Lower.isLt range.Upper.isLt proper other.Lower.isLt
        other.Upper.isLt otherProper fun x inside mem => ?_
      have contained := (otherProper.contains_iff _).mp (covered x inside mem)
      rwa [toNat_ofNat, mod_eq_of_lt inside] at contained

theorem isHull_self (wide : 0 < W) (range : ConstantRange W) :
    IsHull (fun x => range.contains x = true) range := by
  rcases cases_kind range with full | empty | proper
  · exact isHull_of_isFullSet wide full (contains_of_isFullSet full)
  · exact isHull_of_isEmptySet wide empty fun x =>
      Bool.eq_false_iff.mp (not_contains_of_isEmptySet wide empty x)
  · have sameSet : (fun x => range.contains x = true) =
        fun x => Mem range.Lower.toNat range.Upper.toNat x.toNat :=
      funext fun x => propext (proper.contains_iff x)
    rw [sameSet]
    exact proper.isHull wide (fun _ _ mem => mem)
      (withinReach_mem range.Lower.isLt range.Upper.isLt proper)

/-- The assertions hold, and the result is a hull. -/
def Hulls (S : BitVec W -> Prop) (result : Option (ConstantRange W)) : Prop :=
  ∃ range, result = some range ∧ IsHull S range

theorem Hulls.congr {T : BitVec W -> Prop} {result : Option (ConstantRange W)}
    (hulls : Hulls S result) (same : ∀ x, T x ↔ S x) : Hulls T result := by
  rw [show T = S from funext fun x => propext (same x)]
  exact hulls

theorem hulls_ofWidth_false (wide : 0 < W) (nothing : ∀ x, ¬S x) :
    Hulls S (some (ofWidth W false)) :=
  ⟨_, rfl, isHull_of_isEmptySet wide (by simp [ofWidth, isEmptySet]) nothing⟩

theorem hulls_ofWidth_true (wide : 0 < W) (all : ∀ x, S x) : Hulls S (some (ofWidth W true)) :=
  ⟨_, rfl, isHull_of_isFullSet wide (by simp [ofWidth, isFullSet]) all⟩

/-- One of the two elements of the set is within reach of the gap from every point
outside. -/
def Near (T : Nat -> Prop) (a b : BitVec W) (gap : Nat) : Prop :=
  ∀ x < 2 ^ W, ¬T x -> T a.toNat ∧ distance (2 ^ W) x a.toNat <= gap ∨
    T b.toNat ∧ distance (2 ^ W) x b.toNat <= gap

theorem Proper.hulls (wide : 0 < W) (proper : range.Proper) (a b : BitVec W)
    (encloses : ∀ x < 2 ^ W, T x -> Mem range.Lower.toNat range.Upper.toNat x)
    (near : Near T a b (distance (2 ^ W) range.Upper.toNat range.Lower.toNat)) :
    Hulls (fun x => T x.toNat) (some range) :=
  ⟨range, rfl, proper.isHull wide encloses (withinReach_of_or a.isLt b.isLt near)⟩

theorem hulls_ofBounds (wide : 0 < W) {L U : BitVec W} (a b : BitVec W)
    (ne : L.toNat ≠ U.toNat) (encloses : ∀ x < 2 ^ W, T x -> Mem L.toNat U.toNat x)
    (near : Near T a b (distance (2 ^ W) U.toNat L.toNat)) :
    Hulls (fun x => T x.toNat) (ofBounds L U) := by
  have valid : L = U -> L = allOnes W ∨ L = 0 := fun same => absurd (congrArg BitVec.toNat same) ne
  have proper : Proper ⟨L, U, valid⟩ := ne
  rw [ofBounds, dif_pos valid]
  exact proper.hulls wide a b encloses near

/-- An interval is a hull of what it contains. -/
theorem hulls_ofBounds_of_iff (wide : 0 < W) {L U : BitVec W}
    (ne : L.toNat ≠ U.toNat) (exact : ∀ x < 2 ^ W, T x ↔ Mem L.toNat U.toNat x) :
    Hulls (fun x => T x.toNat) (ofBounds L U) := by
  refine hulls_ofBounds wide L L ne (fun x inside => (exact x inside).mp) ?_
  intro x inside outside
  have outsideInterval : ¬Mem L.toNat U.toNat x := fun mem => outside ((exact x inside).mpr mem)
  exact .inl ⟨(exact _ L.isLt).mpr (mem_lower ne), distance_le_gap U.isLt inside ne outsideInterval⟩

end ConstantRange

end LlvmProject
