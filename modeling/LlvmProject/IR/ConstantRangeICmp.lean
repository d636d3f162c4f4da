import LlvmProject.IR.ConstantRange

namespace LlvmProject

/-!
# Ranges of comparisons

The values that compare with some member of a range form an interval that ends at an
extreme value of the range.  The values that compare with all members are those that do
not compare with some member under the inverse predicate.
-/

/-- The predicates of integer comparisons. -/
inductive CmpInst.Predicate
  | ICMP_EQ
  | ICMP_NE
  | ICMP_UGT
  | ICMP_UGE
  | ICMP_ULT
  | ICMP_ULE
  | ICMP_SGT
  | ICMP_SGE
  | ICMP_SLT
  | ICMP_SLE

/-- The predicate that holds exactly when this one does not. -/
def CmpInst.Predicate.getInversePredicate : CmpInst.Predicate -> CmpInst.Predicate
  | ICMP_EQ => ICMP_NE
  | ICMP_NE => ICMP_EQ
  | ICMP_UGT => ICMP_ULE
  | ICMP_ULT => ICMP_UGE
  | ICMP_UGE => ICMP_ULT
  | ICMP_ULE => ICMP_UGT
  | ICMP_SGT => ICMP_SLE
  | ICMP_SLT => ICMP_SGE
  | ICMP_SGE => ICMP_SLT
  | ICMP_SLE => ICMP_SGT

variable {W : Nat}

/-- The meaning of a comparison. -/
def CmpInst.Predicate.holds (x y : BitVec W) : CmpInst.Predicate -> Prop
  | ICMP_EQ => x = y
  | ICMP_NE => x ≠ y
  | ICMP_UGT => y.toNat < x.toNat
  | ICMP_UGE => y.toNat <= x.toNat
  | ICMP_ULT => x.toNat < y.toNat
  | ICMP_ULE => x.toNat <= y.toNat
  | ICMP_SGT => y.toInt < x.toInt
  | ICMP_SGE => y.toInt <= x.toInt
  | ICMP_SLT => x.toInt < y.toInt
  | ICMP_SLE => x.toInt <= y.toInt

theorem CmpInst.Predicate.holds_inverse (x y : BitVec W) (Pred : CmpInst.Predicate) :
    Pred.getInversePredicate.holds x y ↔ ¬Pred.holds x y := by
  cases Pred <;> simp [getInversePredicate, holds]

namespace ConstantRange

variable (range : ConstantRange W)

/-- The largest unsigned value contained in the range. -/
def getUnsignedMax : BitVec W :=
  if range.isFullSet || range.isWrappedSet then BitVec.allOnes W else range.Upper - 1

/-- The smallest unsigned value contained in the range. -/
def getUnsignedMin : BitVec W :=
  if range.isFullSet || (range.isWrappedSet && range.Upper != 0) then 0 else range.Lower

/-- The largest signed value contained in the range. -/
def getSignedMax : BitVec W :=
  let SignedMax := BitVec.intMax W
  if !range.isWrappedSet then
    if range.Lower.sle (range.Upper - 1) then range.Upper - 1 else SignedMax
  else if range.Lower.msb = range.Upper.msb then SignedMax
  else range.Upper - 1

/-- The smallest signed value contained in the range. -/
def getSignedMin : BitVec W :=
  let SignedMin := BitVec.intMin W
  if !range.isWrappedSet then
    if range.Lower.sle (range.Upper - 1) then range.Lower else SignedMin
  else if (range.Upper - 1).slt range.Lower && range.Upper != SignedMin then SignedMin
  else range.Lower

/-- The smallest range with all values that compare with some member. -/
def makeAllowedICmpRegion (Pred : CmpInst.Predicate) (CR : ConstantRange W) :
    Option (ConstantRange W) :=
  if CR.isEmptySet then some CR
  else
    match Pred with
    | .ICMP_EQ => some CR
    | .ICMP_NE =>
      if CR.isSingleElement then ofBounds CR.Upper CR.Lower else some (ofWidth W true)
    | .ICMP_ULT =>
      let UMax := CR.getUnsignedMax
      if UMax = 0 then some (ofWidth W false) else ofBounds 0 UMax
    | .ICMP_SLT =>
      let SMax := CR.getSignedMax
      if SMax = BitVec.intMin W then some (ofWidth W false) else ofBounds (BitVec.intMin W) SMax
    | .ICMP_ULE =>
      let UMax := CR.getUnsignedMax
      if UMax = BitVec.allOnes W then some (ofWidth W true) else ofBounds 0 (UMax + 1)
    | .ICMP_SLE =>
      let SMax := CR.getSignedMax
      if SMax = BitVec.intMax W then some (ofWidth W true)
      else ofBounds (BitVec.intMin W) (SMax + 1)
    | .ICMP_UGT =>
      let UMin := CR.getUnsignedMin
      if UMin = BitVec.allOnes W then some (ofWidth W false) else ofBounds (UMin + 1) 0
    | .ICMP_SGT =>
      let SMin := CR.getSignedMin
      if SMin = BitVec.intMax W then some (ofWidth W false)
      else ofBounds (SMin + 1) (BitVec.intMin W)
    | .ICMP_UGE =>
      let UMin := CR.getUnsignedMin
      if UMin = 0 then some (ofWidth W true) else ofBounds UMin 0
    | .ICMP_SGE =>
      let SMin := CR.getSignedMin
      if SMin = BitVec.intMin W then some (ofWidth W true) else ofBounds SMin (BitVec.intMin W)

/-- A range with only values that compare with every member. -/
def makeSatisfyingICmpRegion (Pred : CmpInst.Predicate) (CR : ConstantRange W) :
    Option (ConstantRange W) :=
  (makeAllowedICmpRegion Pred.getInversePredicate CR).bind inverse

/-! ## Represented sets -/

section Representation

open CircularInterval

variable {W : Nat} {S : BitVec W -> Prop}

/-- The assertions hold, and the result contains exactly the set. -/
def Represents (S : BitVec W -> Prop) (result : Option (ConstantRange W)) : Prop :=
  ∃ range, result = some range ∧ ∀ x, range.contains x = true ↔ S x

theorem Represents.hulls (wide : 0 < W) {result : Option (ConstantRange W)}
    (rep : Represents S result) : Hulls S result := by
  rcases rep with ⟨range, found, exact⟩
  have self : Hulls (fun x => range.contains x = true) result :=
    ⟨range, found, isHull_self wide range⟩
  exact self.congr fun x => (exact x).symm

theorem represents_ofWidth_true (all : ∀ x, S x) : Represents S (some (ofWidth W true)) :=
  ⟨_, rfl, fun x => iff_of_true
    (contains_of_isFullSet (by simp [ofWidth, isFullSet]) x) (all x)⟩

theorem represents_ofWidth_false (wide : 0 < W) (nothing : ∀ x, ¬S x) :
    Represents S (some (ofWidth W false)) :=
  ⟨_, rfl, fun x => iff_of_false (Bool.eq_false_iff.mp
    (not_contains_of_isEmptySet wide (by simp [ofWidth, isEmptySet]) x)) (nothing x)⟩

theorem represents_ofBounds {L U : BitVec W} (ne : L ≠ U)
    (exact : ∀ x : BitVec W, S x ↔ Mem L.toNat U.toNat x.toNat) : Represents S (ofBounds L U) := by
  have valid : L = U -> L = BitVec.allOnes W ∨ L = 0 := fun same => absurd same ne
  have proper : Proper ⟨L, U, valid⟩ := fun same => ne (BitVec.eq_of_toNat_eq same)
  rw [ofBounds, dif_pos valid]
  exact ⟨_, rfl, fun x => (proper.contains_iff x).trans (exact x).symm⟩

/-- The complement of a represented set. -/
theorem Represents.inverse (wide : 0 < W) {result : Option (ConstantRange W)}
    (rep : Represents S result) :
    Represents (fun x => ¬S x) (result.bind ConstantRange.inverse) := by
  rcases rep with ⟨range, rfl, exact⟩
  rw [Option.bind_some, ConstantRange.inverse]
  simp only [<- exact]
  rcases cases_kind range with full | empty | proper
  · rw [if_pos full]
    exact represents_ofWidth_false wide fun x => not_not_intro (contains_of_isFullSet full x)
  · rw [isFullSet_of_isEmptySet wide empty, if_neg Bool.false_ne_true, if_pos empty]
    exact represents_ofWidth_true fun x =>
      Bool.eq_false_iff.mp (not_contains_of_isEmptySet wide empty x)
  · rw [proper.isFullSet, proper.isEmptySet, if_neg Bool.false_ne_true, if_neg Bool.false_ne_true]
    refine represents_ofBounds proper.bounds_ne.symm fun x => ?_
    rw [proper.contains_iff, mem_swap proper]

/-- The place of a value when counting starts at a base. -/
def place (B x : BitVec W) : Nat := distance (2 ^ W) B.toNat x.toNat

variable {B : BitVec W}

theorem toNat_add_one_cases (wide : 0 < W) (x : BitVec W) :
    (x + 1).toNat = x.toNat + 1 ∧ x.toNat + 1 < 2 ^ W ∨
      (x + 1).toNat = 0 ∧ x.toNat + 1 = 2 ^ W := by
  have inside := x.isLt
  have one : (1 : BitVec W).toNat = 1 := Nat.mod_eq_of_lt (Nat.one_lt_two_pow (Nat.ne_of_gt wide))
  rw [BitVec.toNat_add, one]
  by_cases last : x.toNat + 1 = 2 ^ W
  · exact .inr ⟨by rw [last, Nat.mod_self], last⟩
  · exact .inl ⟨Nat.mod_eq_of_lt (by omega), by omega⟩

theorem place_add_one (wide : 0 < W) {x : BitVec W} (ne : x + 1 ≠ B) :
    place B (x + 1) = place B x + 1 :=
  distance_next B.isLt (toNat_add_one_cases wide x)
    fun same => ne (BitVec.eq_of_toNat_eq same)

theorem place_le_of_add_one (wide : 0 < W) {x : BitVec W} (last : x + 1 = B) (y : BitVec W) :
    place B y <= place B x :=
  distance_le_of_next B.isLt x.isLt y.isLt (toNat_add_one_cases wide x)
    (congrArg BitVec.toNat last)

theorem place_base (B : BitVec W) : place B B = 0 := by
  rw [place, distance_of_le (le_refl _), Nat.sub_self]

/-- The values before a value. -/
theorem represents_lt (wide : 0 < W) (M : BitVec W) (exact : ∀ x, S x ↔ place B x < place B M) :
    Represents S (if M = B then some (ofWidth W false) else ofBounds B M) := by
  by_cases least : M = B
  · rw [if_pos least]
    refine represents_ofWidth_false wide fun x => ?_
    rw [exact, least, place_base]
    exact Nat.not_lt_zero _
  · rw [if_neg least]
    refine represents_ofBounds (Ne.symm least) fun x => (exact x).trans ?_
    exact (mem_base_iff B.isLt M.isLt x.isLt
      fun same => least (BitVec.eq_of_toNat_eq same.symm)).symm

/-- The values up to a value. -/
theorem represents_le (wide : 0 < W) (M : BitVec W) (exact : ∀ x, S x ↔ place B x <= place B M) :
    Represents S (if M + 1 = B then some (ofWidth W true) else ofBounds B (M + 1)) := by
  by_cases greatest : M + 1 = B
  · rw [if_pos greatest]
    exact represents_ofWidth_true fun x => (exact x).mpr (place_le_of_add_one wide greatest x)
  · have before := represents_lt (S := S) wide (M + 1) fun x => by
      rw [exact, place_add_one wide greatest, Nat.lt_succ_iff]
    rw [if_neg greatest] at before ⊢
    exact before

/-- The values from a value on. -/
theorem represents_ge (m : BitVec W) (exact : ∀ x, S x ↔ place B m <= place B x) :
    Represents S (if m = B then some (ofWidth W true) else ofBounds m B) := by
  by_cases least : m = B
  · rw [if_pos least]
    refine represents_ofWidth_true fun x => (exact x).mpr ?_
    rw [least, place_base]
    exact Nat.zero_le _
  · rw [if_neg least]
    refine represents_ofBounds least fun x => (exact x).trans ?_
    exact (mem_to_base_iff B.isLt m.isLt x.isLt
      fun same => least (BitVec.eq_of_toNat_eq same)).symm

/-- The values after a value. -/
theorem represents_gt (wide : 0 < W) (m : BitVec W) (exact : ∀ x, S x ↔ place B m < place B x) :
    Represents S (if m + 1 = B then some (ofWidth W false) else ofBounds (m + 1) B) := by
  by_cases greatest : m + 1 = B
  · rw [if_pos greatest]
    refine represents_ofWidth_false wide fun x => ?_
    rw [exact, not_lt]
    exact place_le_of_add_one wide greatest x
  · have atLeast := represents_ge (S := S) (m + 1) fun x => by
      rw [exact, place_add_one wide greatest, Nat.succ_le_iff]
    rw [if_neg greatest] at atLeast ⊢
    exact atLeast

end Representation

/-! ## Extreme values -/

section Extremes

open CircularInterval

variable {W : Nat} {range : ConstantRange W}

theorem place_zero (x : BitVec W) : place 0 x = x.toNat := by
  have zero : (0 : BitVec W).toNat = 0 := BitVec.toNat_zero
  rw [place, zero, distance_of_le (Nat.zero_le _), Nat.sub_zero]

theorem toNat_intMin (wide : 0 < W) : (BitVec.intMin W).toNat = 2 ^ (W - 1) := by
  rw [BitVec.toNat_intMin]
  exact Nat.mod_eq_of_lt (Nat.pow_lt_pow_right (by decide) (Nat.sub_lt wide one_pos))

theorem toInt_eq_place (wide : 0 < W) (x : BitVec W) :
    x.toInt = (place (BitVec.intMin W) x : Int) - (2 ^ (W - 1) : Nat) := by
  have half := two_pow_pred wide
  have inside := x.isLt
  rw [place, toNat_intMin wide, BitVec.toInt_eq_toNat_cond, distance]
  split_ifs <;> omega

theorem toInt_le_iff (wide : 0 < W) (x y : BitVec W) :
    x.toInt <= y.toInt ↔ place (BitVec.intMin W) x <= place (BitVec.intMin W) y := by
  rw [toInt_eq_place wide, toInt_eq_place wide]
  omega

theorem toInt_lt_iff (wide : 0 < W) (x y : BitVec W) :
    x.toInt < y.toInt ↔ place (BitVec.intMin W) x < place (BitVec.intMin W) y := by
  rw [toInt_eq_place wide, toInt_eq_place wide]
  omega

/-- The value is a greatest member when counting starts at the base. -/
def Greatest (B : BitVec W) (range : ConstantRange W) (M : BitVec W) : Prop :=
  range.contains M = true ∧ ∀ x, range.contains x = true -> place B x <= place B M

/-- The value is a least member when counting starts at the base. -/
def Least (B : BitVec W) (range : ConstantRange W) (m : BitVec W) : Prop :=
  range.contains m = true ∧ ∀ x, range.contains x = true -> place B m <= place B x

theorem greatest_of_contains (wide : 0 < W) (B : BitVec W)
    (before : range.contains (B - 1) = true) : Greatest B range (B - 1) :=
  ⟨before, fun x _ => place_le_of_add_one wide (BitVec.sub_add_cancel B 1) x⟩

theorem least_of_contains (B : BitVec W) (first : range.contains B = true) :
    Least B range B :=
  ⟨first, fun x _ => by rw [place_base]; exact Nat.zero_le _⟩

theorem toNat_sub_one_cases (wide : 0 < W) (x : BitVec W) :
    x.toNat = (x - 1).toNat + 1 ∧ (x - 1).toNat + 1 < 2 ^ W ∨
      x.toNat = 0 ∧ (x - 1).toNat + 1 = 2 ^ W := by
  have next := toNat_add_one_cases wide (x - 1)
  rwa [BitVec.sub_add_cancel] at next

theorem extremes_of_ends (wide : 0 < W) (proper : range.Proper) (B : BitVec W)
    (ends : place B range.Lower <= place B (range.Upper - 1)) :
    Least B range range.Lower ∧ Greatest B range (range.Upper - 1) := by
  have isNext := toNat_sub_one_cases wide range.Upper
  have between (x : BitVec W) (mem : range.contains x = true) :=
    between_ends B.isLt range.Lower.isLt range.Upper.isLt x.isLt
      ((proper.contains_iff x).mp mem) isNext ends
  exact ⟨⟨(proper.contains_iff _).mpr (mem_lower proper), fun x mem => (between x mem).1⟩,
    ⟨(proper.contains_iff _).mpr (mem_last range.Lower.isLt proper isNext),
      fun x mem => (between x mem).2⟩⟩

/-- The extremes of a range that crosses the base are those of the type. -/
theorem extremes_of_cross (wide : 0 < W) (proper : range.Proper) (B : BitVec W)
    (cross : place B (range.Upper - 1) < place B range.Lower) :
    Least B range B ∧ Greatest B range (B - 1) := by
  have members := mem_of_cross B.isLt range.Lower.isLt range.Upper.isLt proper
    (toNat_sub_one_cases wide range.Upper) (toNat_sub_one_cases wide B) cross
  exact ⟨least_of_contains B ((proper.contains_iff B).mpr members.1),
    greatest_of_contains wide B ((proper.contains_iff (B - 1)).mpr members.2)⟩

theorem full_or_proper (notEmpty : range.isEmptySet = false) :
    range.isFullSet = true ∨ range.Proper := by
  rcases cases_kind range with full | empty | proper
  · exact .inl full
  · exact absurd (notEmpty.symm.trans empty) Bool.false_ne_true
  · exact .inr proper

section

variable (wide : 0 < W)
include wide

theorem allOnes_eq : BitVec.allOnes W = 0 - 1 := by
  rcases toNat_sub_one_cases wide (0 : BitVec W) with ⟨next, _⟩ | ⟨_, greatest⟩
  · exact absurd (next.symm.trans BitVec.toNat_zero) (Nat.succ_ne_zero _)
  · apply BitVec.eq_of_toNat_eq
    rw [BitVec.toNat_allOnes]
    omega

theorem intMax_eq : BitVec.intMax W = BitVec.intMin W - 1 := by
  have pos : 0 < 2 ^ (W - 1) := Nat.two_pow_pos _
  have least := toNat_intMin wide
  apply BitVec.eq_of_toNat_eq
  rcases toNat_sub_one_cases wide (BitVec.intMin W) with ⟨next, _⟩ | ⟨zero, _⟩ <;>
    rw [BitVec.toNat_intMax] <;> omega

theorem greatest_getUnsignedMax (notEmpty : range.isEmptySet = false) :
    Greatest 0 range range.getUnsignedMax := by
  unfold getUnsignedMax
  rcases full_or_proper notEmpty with full | proper
  · rw [full, Bool.true_or, if_pos rfl, allOnes_eq wide]
    exact greatest_of_contains wide 0 (contains_of_isFullSet full _)
  · have next := toNat_sub_one_cases wide range.Upper
    have bound := range.Lower.isLt
    rw [proper.isFullSet, Bool.false_or]
    cases wrapped : range.isWrappedSet with
    | false =>
      have plain := isWrappedSet_eq_false proper wrapped
      refine (extremes_of_ends wide proper 0 ?_).2
      rw [place_zero, place_zero]
      omega
    | true =>
      have wraps := isWrappedSet_iff.mp wrapped
      have last : Mem range.Lower.toNat range.Upper.toNat (BitVec.allOnes W).toNat := by
        rw [BitVec.toNat_allOnes]
        exact .inr ⟨wraps, .inl (by omega)⟩
      rw [if_pos rfl]
      rw [allOnes_eq wide] at last ⊢
      exact greatest_of_contains wide 0 ((proper.contains_iff _).mpr last)

theorem least_getUnsignedMin (notEmpty : range.isEmptySet = false) :
    Least 0 range range.getUnsignedMin := by
  unfold getUnsignedMin
  rcases full_or_proper notEmpty with full | proper
  · rw [full, Bool.true_or, if_pos rfl]
    exact least_of_contains 0 (contains_of_isFullSet full _)
  · have next := toNat_sub_one_cases wide range.Upper
    have bound := range.Lower.isLt
    rw [proper.isFullSet, Bool.false_or]
    by_cases beyond : (range.isWrappedSet && range.Upper != 0) = true
    · rw [if_pos beyond]
      rw [Bool.and_eq_true, isWrappedSet_iff, bne_iff_ne] at beyond
      have pos : range.Upper.toNat ≠ 0 := fun zero =>
        beyond.2 (BitVec.eq_of_toNat_eq (zero.trans BitVec.toNat_zero.symm))
      refine (extremes_of_cross wide proper 0 ?_).1
      rw [place_zero, place_zero]
      omega
    · rw [if_neg beyond]
      rw [Bool.and_eq_true, isWrappedSet_iff, bne_iff_ne, not_and_not_right] at beyond
      refine (extremes_of_ends wide proper 0 ?_).1
      rw [place_zero, place_zero]
      by_cases wraps : range.Upper.toNat < range.Lower.toNat
      · have zero : range.Upper.toNat = 0 := by rw [beyond wraps]; exact BitVec.toNat_zero
        omega
      · unfold Proper at proper
        omega

theorem sle_iff (x y : BitVec W) :
    x.sle y = true ↔ place (BitVec.intMin W) x <= place (BitVec.intMin W) y := by
  rw [BitVec.sle_eq_decide, decide_eq_true_iff, toInt_le_iff wide]

theorem slt_iff (x y : BitVec W) :
    x.slt y = true ↔ place (BitVec.intMin W) x < place (BitVec.intMin W) y := by
  rw [BitVec.slt_eq_decide, decide_eq_true_iff, toInt_lt_iff wide]

/-- Only the base is counted no later than the value before it. -/
theorem eq_base_of_place_le {B x : BitVec W} (notLater : place B x <= place B (x - 1)) : x = B := by
  by_contra ne
  have next := place_add_one (B := B) wide (x := x - 1) (by rwa [BitVec.sub_add_cancel])
  rw [BitVec.sub_add_cancel] at next
  omega

end

theorem isWrappedSet_of_isFullSet (full : range.isFullSet = true) : range.isWrappedSet = false := by
  rw [isWrappedSet, bounds_eq_of_isFullSet full]
  exact decide_eq_false (BitVec.lt_irrefl _)

theorem greatest_getSignedMax (wide : 0 < W) (notEmpty : range.isEmptySet = false) :
    Greatest (BitVec.intMin W) range range.getSignedMax := by
  simp only [getSignedMax, sle_iff wide]
  rcases full_or_proper notEmpty with full | proper
  · have greatest : Greatest (BitVec.intMin W) range (BitVec.intMin W - 1) :=
      greatest_of_contains wide _ (contains_of_isFullSet full _)
    rw [isWrappedSet_of_isFullSet full, Bool.not_false, if_pos rfl, bounds_eq_of_isFullSet full]
    split_ifs with ends
    · rwa [eq_base_of_place_le wide ends]
    · rwa [intMax_eq wide]
  · cases wrapped : range.isWrappedSet with
    | false =>
      rw [Bool.not_false, if_pos rfl]
      split_ifs with ends
      · exact (extremes_of_ends wide proper _ ends).2
      · rw [intMax_eq wide]
        exact (extremes_of_cross wide proper _ (Nat.lt_of_not_le ends)).2
    | true =>
      have wraps := isWrappedSet_iff.mp wrapped
      have pos : 0 < 2 ^ (W - 1) := Nat.two_pow_pos _
      rw [Bool.not_true, if_neg Bool.false_ne_true]
      split_ifs with sameSign <;>
        rw [BitVec.msb_eq_decide, BitVec.msb_eq_decide, decide_eq_decide] at sameSign
      · have mem : Mem range.Lower.toNat range.Upper.toNat (BitVec.intMax W).toNat := by
          rw [BitVec.toNat_intMax]
          exact .inr ⟨wraps, by omega⟩
        rw [intMax_eq wide] at mem ⊢
        exact greatest_of_contains wide _ ((proper.contains_iff _).mpr mem)
      · have next := toNat_sub_one_cases wide range.Upper
        have half := two_pow_pred wide
        have bound := range.Lower.isLt
        refine (extremes_of_ends wide proper _ ?_).2
        rw [place, place, toNat_intMin wide, distance, distance]
        split_ifs <;> omega

theorem least_getSignedMin (wide : 0 < W) (notEmpty : range.isEmptySet = false) :
    Least (BitVec.intMin W) range range.getSignedMin := by
  simp only [getSignedMin, sle_iff wide, Bool.and_eq_true, slt_iff wide, bne_iff_ne]
  rcases full_or_proper notEmpty with full | proper
  · have least : Least (BitVec.intMin W) range (BitVec.intMin W) :=
      least_of_contains _ (contains_of_isFullSet full _)
    rw [isWrappedSet_of_isFullSet full, Bool.not_false, if_pos rfl, bounds_eq_of_isFullSet full]
    split_ifs with ends
    · rwa [eq_base_of_place_le wide ends]
    · exact least
  · split_ifs with plain ends cross
    · exact (extremes_of_ends wide proper _ ends).1
    · exact (extremes_of_cross wide proper _ (Nat.lt_of_not_le ends)).1
    · exact (extremes_of_cross wide proper _ cross.1).1
    · refine (extremes_of_ends wide proper _ (Nat.le_of_not_lt fun crosses => ?_)).1
      refine cross ⟨crosses, fun base => ?_⟩
      have last : range.Upper - 1 + 1 = BitVec.intMin W := by rwa [BitVec.sub_add_cancel]
      exact Nat.not_lt.mpr (place_le_of_add_one wide last range.Lower) crosses

end Extremes

/-! ## Regions -/

section Regions

open CircularInterval

variable {W : Nat} {range : ConstantRange W} {B : BitVec W}

/-- Some member is later than a value exactly if the greatest one is. -/
theorem Greatest.exists_lt_iff {M : BitVec W} (greatest : Greatest B range M) (x : BitVec W) :
    (∃ y, range.contains y = true ∧ place B x < place B y) ↔ place B x < place B M :=
  ⟨fun ⟨y, mem, before⟩ => lt_of_lt_of_le before (greatest.2 y mem),
    fun before => ⟨M, greatest.1, before⟩⟩

theorem Greatest.exists_le_iff {M : BitVec W} (greatest : Greatest B range M) (x : BitVec W) :
    (∃ y, range.contains y = true ∧ place B x <= place B y) ↔ place B x <= place B M :=
  ⟨fun ⟨y, mem, before⟩ => le_trans before (greatest.2 y mem),
    fun before => ⟨M, greatest.1, before⟩⟩

theorem Least.exists_lt_iff {m : BitVec W} (least : Least B range m) (x : BitVec W) :
    (∃ y, range.contains y = true ∧ place B y < place B x) ↔ place B m < place B x :=
  ⟨fun ⟨y, mem, before⟩ => lt_of_le_of_lt (least.2 y mem) before,
    fun before => ⟨m, least.1, before⟩⟩

theorem Least.exists_le_iff {m : BitVec W} (least : Least B range m) (x : BitVec W) :
    (∃ y, range.contains y = true ∧ place B y <= place B x) ↔ place B m <= place B x :=
  ⟨fun ⟨y, mem, before⟩ => le_trans (least.2 y mem) before, fun before => ⟨m, least.1, before⟩⟩

theorem add_one_ne (wide : 0 < W) (x : BitVec W) : x + 1 ≠ x := by
  intro same
  rcases toNat_add_one_cases wide x with ⟨next, _⟩ | ⟨zero, last⟩ <;> rw [same] at *
  · omega
  · have power := Nat.one_lt_two_pow (Nat.ne_of_gt wide)
    omega

/-- The values that differ from some member are all values, or all but the only member. -/
theorem represents_ne (wide : 0 < W) (notEmpty : range.isEmptySet = false) :
    Represents (fun x => ∃ y, range.contains y = true ∧ x ≠ y)
      (if range.isSingleElement then ofBounds range.Upper range.Lower
        else some (ofWidth W true)) := by
  have next := toNat_add_one_cases wide range.Lower
  have distinct := add_one_ne wide range.Lower
  by_cases single : range.isSingleElement = true
  · have upper : range.Upper = range.Lower + 1 := beq_iff_eq.mp single
    have proper : range.Proper := fun same =>
      distinct (upper.symm.trans (BitVec.eq_of_toNat_eq same.symm))
    have only (x : BitVec W) : Mem range.Lower.toNat range.Upper.toNat x.toNat ↔
        x = range.Lower := by
      have bound := x.isLt
      rw [<- BitVec.toNat_inj, upper]
      grind [Mem]
    rw [if_pos single]
    refine represents_ofBounds proper.bounds_ne.symm fun x => ?_
    rw [mem_swap proper, only]
    simp only [proper.contains_iff, only, exists_eq_left, ne_eq]
  · have upper : range.Upper ≠ range.Lower + 1 := fun same => single (beq_iff_eq.mpr same)
    have upperNat : range.Upper.toNat ≠ (range.Lower + 1).toNat := fun same =>
      upper (BitVec.eq_of_toNat_eq same)
    have members : range.contains range.Lower = true ∧ range.contains (range.Lower + 1) = true := by
      rcases full_or_proper notEmpty with full | proper
      · exact ⟨contains_of_isFullSet full _, contains_of_isFullSet full _⟩
      · have bound := range.Upper.isLt
        rw [proper.contains_iff, proper.contains_iff]
        unfold Proper at proper
        unfold Mem
        omega
    rw [if_neg single]
    refine represents_ofWidth_true fun x => ?_
    by_cases same : x = range.Lower
    · exact ⟨range.Lower + 1, members.2, same ▸ distinct.symm⟩
    · exact ⟨range.Lower, members.1, same⟩

/-- The region has exactly the values that compare with some member. -/
theorem makeAllowedICmpRegion_represents (wide : 0 < W) (Pred : CmpInst.Predicate)
    (range : ConstantRange W) :
    Represents (fun x => ∃ y, range.contains y = true ∧ Pred.holds x y)
      (makeAllowedICmpRegion Pred range) := by
  unfold makeAllowedICmpRegion
  cases empty : range.isEmptySet with
  | true =>
    refine ⟨range, rfl, fun x => iff_of_false
      (Bool.eq_false_iff.mp (not_contains_of_isEmptySet wide empty x)) ?_⟩
    rintro ⟨y, mem, _⟩
    exact absurd mem (Bool.eq_false_iff.mp (not_contains_of_isEmptySet wide empty y))
  | false =>
    have lastUnsigned (x : BitVec W) : x = BitVec.allOnes W ↔ x + 1 = 0 := by
      rw [allOnes_eq wide]
      exact eq_sub_iff_add_eq
    have lastSigned (x : BitVec W) : x = BitVec.intMax W ↔ x + 1 = BitVec.intMin W := by
      rw [intMax_eq wide]
      exact eq_sub_iff_add_eq
    rw [if_neg Bool.false_ne_true]
    cases Pred <;> simp only [CmpInst.Predicate.holds, lastUnsigned, lastSigned, <- place_zero,
      toInt_le_iff wide, toInt_lt_iff wide]
    case ICMP_EQ => exact ⟨range, rfl, fun x => by simp⟩
    case ICMP_NE => exact represents_ne wide empty
    case ICMP_ULT =>
      exact represents_lt wide _ (greatest_getUnsignedMax wide empty).exists_lt_iff
    case ICMP_SLT =>
      exact represents_lt wide _ (greatest_getSignedMax wide empty).exists_lt_iff
    case ICMP_ULE =>
      exact represents_le wide _ (greatest_getUnsignedMax wide empty).exists_le_iff
    case ICMP_SLE =>
      exact represents_le wide _ (greatest_getSignedMax wide empty).exists_le_iff
    case ICMP_UGT =>
      exact represents_gt wide _ (least_getUnsignedMin wide empty).exists_lt_iff
    case ICMP_SGT =>
      exact represents_gt wide _ (least_getSignedMin wide empty).exists_lt_iff
    case ICMP_UGE =>
      exact represents_ge _ (least_getUnsignedMin wide empty).exists_le_iff
    case ICMP_SGE =>
      exact represents_ge _ (least_getSignedMin wide empty).exists_le_iff

/-- The region has exactly the values that compare with every member. -/
theorem makeSatisfyingICmpRegion_represents (wide : 0 < W) (Pred : CmpInst.Predicate)
    (range : ConstantRange W) :
    Represents (fun x => ∀ y, range.contains y = true -> Pred.holds x y)
      (makeSatisfyingICmpRegion Pred range) := by
  have complement := (makeAllowedICmpRegion_represents wide Pred.getInversePredicate range).inverse
    wide
  have dual (x : BitVec W) : (¬∃ y, range.contains y = true ∧ Pred.getInversePredicate.holds x y) ↔
      ∀ y, range.contains y = true -> Pred.holds x y := by
    simp only [CmpInst.Predicate.holds_inverse, not_exists, not_and, not_not]
  simpa only [makeSatisfyingICmpRegion, dual] using complement

/-- The first region is a smallest range with the values that compare with some member, the
second one has exactly the values that compare with every member. -/
theorem icmpRegions_exact (wide : 0 < W) (Pred : CmpInst.Predicate) (R : ConstantRange W) :
    Hulls (fun x => ∃ y, R.contains y = true ∧ Pred.holds x y) (makeAllowedICmpRegion Pred R) ∧
      Represents (fun x => ∀ y, R.contains y = true -> Pred.holds x y)
        (makeSatisfyingICmpRegion Pred R) :=
  ⟨(makeAllowedICmpRegion_represents wide Pred R).hulls wide,
    makeSatisfyingICmpRegion_represents wide Pred R⟩

/-- Signed comparisons with bytes that cross the least signed value. -/
theorem icmpRegions_exact_crossing :
    Hulls (fun x => ∃ y, contains (W := 8) ⟨100, 140, by decide⟩ y = true ∧
        CmpInst.Predicate.ICMP_SLT.holds x y)
      (makeAllowedICmpRegion (W := 8) .ICMP_SLT ⟨100, 140, by decide⟩) ∧
      Represents (fun x => ∀ y, contains (W := 8) ⟨100, 140, by decide⟩ y = true ->
          CmpInst.Predicate.ICMP_SLT.holds x y)
        (makeSatisfyingICmpRegion (W := 8) .ICMP_SLT ⟨100, 140, by decide⟩) :=
  icmpRegions_exact (by decide) .ICMP_SLT ⟨100, 140, by decide⟩

end Regions

end ConstantRange
end LlvmProject
