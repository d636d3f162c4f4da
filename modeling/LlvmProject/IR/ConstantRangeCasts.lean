import LlvmProject.IR.ConstantRangeSets

namespace LlvmProject

open BitVec Nat

namespace ConstantRange

/-!
# Ranges of other widths

An extension maps a range to an interval of the wider type, or to two intervals at the
ends of the values of the narrow type.  A truncation wraps a range around the circle
of the narrow type, which may cover it.
-/

open CircularInterval

variable {W : Nat}

/-- The given number of bits at the top. -/
def getHighBitsSet (numBits hiBitsSet : Nat) : BitVec numBits :=
  allOnes numBits <<< (numBits - hiBitsSet)

/-- The given number of bits at the bottom. -/
def getLowBitsSet (numBits loBitsSet : Nat) : BitVec numBits :=
  allOnes numBits >>> (numBits - loBitsSet)

/-- The range of the zero extensions. -/
def zeroExtend (range : ConstantRange W) (DstTySize : Nat) : Option (ConstantRange DstTySize) :=
  if range.isEmptySet then some (ofWidth DstTySize false)
  else if ¬W < DstTySize then none  -- Not a value extension
  else if range.isFullSet || range.isWrappedSet then
    -- special case: [X, 0) -- not really wrapping around
    let LowerExt := if range.Upper = 0 then range.Lower.setWidth DstTySize else 0
    ofBounds LowerExt (twoPow DstTySize W)
  else ofBounds (range.Lower.setWidth DstTySize) (range.Upper.setWidth DstTySize)

/-- The range of the sign extensions. -/
def signExtend (range : ConstantRange W) (DstTySize : Nat) : Option (ConstantRange DstTySize) :=
  if range.isEmptySet then some (ofWidth DstTySize false)
  else if ¬W < DstTySize then none  -- Not a value extension
  else if range.Upper = intMin W then
    -- special case: [X, INT_MIN) -- not really wrapping around
    ofBounds (range.Lower.signExtend DstTySize) (range.Upper.setWidth DstTySize)
  else if range.isFullSet || range.isSignWrappedSet then
    ofBounds (getHighBitsSet DstTySize (DstTySize - W + 1)) (getLowBitsSet DstTySize (W - 1) + 1)
  else ofBounds (range.Lower.signExtend DstTySize) (range.Upper.signExtend DstTySize)

/-- Chop off the most significant bits that are past the destination bitwidth. -/
def chop (DstTySize : Nat) (LowerDiv UpperDiv : BitVec W) : BitVec W × BitVec W :=
  let MaxValue := (allOnes DstTySize).setWidth W
  let MaxBitValue := twoPow W DstTySize
  if LowerDiv >= MaxValue then
    let Div := LowerDiv / MaxBitValue
    (LowerDiv % MaxBitValue, UpperDiv - MaxBitValue * Div)
  else (LowerDiv, UpperDiv)

/-- The part of a truncation that does not wrap: the truncations of the values between the
bounds are added to the union. -/
def truncateBetween (DstTySize : Nat) (LowerDiv UpperDiv : BitVec W)
    (Union : ConstantRange DstTySize) : Option (ConstantRange DstTySize) :=
  let MaxValue := (allOnes DstTySize).setWidth W
  let MaxBitValue := twoPow W DstTySize
  let (LowerDiv, UpperDiv) := chop DstTySize LowerDiv UpperDiv
  if UpperDiv <= MaxValue then
    (ofBounds (LowerDiv.setWidth DstTySize) (UpperDiv.setWidth DstTySize)).bind
      fun part => unionWith part Union
  else
    -- The truncated value wraps around. Check if we can do better than fullset.
    let UpperModulo := UpperDiv - MaxBitValue
    if UpperModulo < LowerDiv then
      (ofBounds (LowerDiv.setWidth DstTySize) (UpperModulo.setWidth DstTySize)).bind
        fun part => unionWith part Union
    else some (ofWidth DstTySize true)

/-- The range of the truncations. -/
def truncate (range : ConstantRange W) (DstTySize : Nat) : Option (ConstantRange DstTySize) :=
  if ¬W > DstTySize then none  -- Not a value truncation
  else if range.isEmptySet then some (ofWidth DstTySize false)
  else if range.isFullSet then some (ofWidth DstTySize true)
  -- Analyze wrapped sets in their two parts: [0, Upper) and [Lower, MaxValue]
  else if range.isWrappedSet then
    if range.Upper >= (allOnes DstTySize).setWidth W then some (ofWidth DstTySize true)
    else do
      let Union <- ofBounds (allOnes DstTySize) (range.Upper.setWidth DstTySize)
      let UpperDiv := allOnes W
      if range.Lower = UpperDiv then return Union
      truncateBetween DstTySize range.Lower UpperDiv Union
  else truncateBetween DstTySize range.Lower range.Upper (ofWidth DstTySize false)

/-- The greatest number of a width consists of the greatest one of a smaller width and the
bits above. -/
theorem two_pow_sub_one_split {k n : Nat} (small : k <= n) :
    2 ^ n - 1 = 2 ^ k - 1 + 2 ^ k * (2 ^ (n - k) - 1) := by
  have split : 2 ^ n = 2 ^ k * 2 ^ (n - k) := by rw [<- pow_add, Nat.add_sub_cancel' small]
  have pos : 0 < 2 ^ k := Nat.two_pow_pos k
  have grows := Nat.le_mul_of_pos_right (2 ^ k) (Nat.two_pow_pos (n - k))
  rw [split, Nat.mul_sub, mul_one]
  omega

/-! ## Zero extension -/

section Zero

variable {D : Nat} {A : ConstantRange W}

/-- The positions of the zero extensions of an interval. -/
def ZeroExtended (A : ConstantRange W) (y : Nat) : Prop :=
  y < 2 ^ W ∧ Mem A.Lower.toNat A.Upper.toNat y

theorem zeroExtended_iff (wider : W < D) (proper : A.Proper) (y : BitVec D) :
    (∃ a, A.contains a = true ∧ y = a.setWidth D) ↔ ZeroExtended A y.toNat := by
  constructor
  · rintro ⟨a, mem, rfl⟩
    rw [toNat_setWidth_of_le (le_of_lt wider)]
    exact ⟨a.isLt, (proper.contains_iff a).mp mem⟩
  · rintro ⟨inside, mem⟩
    have value : (BitVec.ofNat W y.toNat).toNat = y.toNat := by
      rw [toNat_ofNat, mod_eq_of_lt inside]
    refine ⟨BitVec.ofNat W y.toNat, (proper.contains_iff _).mpr (by rwa [value]), ?_⟩
    apply eq_of_toNat_eq
    rw [toNat_setWidth_of_le (le_of_lt wider), value]

theorem extended_iff_of_isFullSet (wider : W < D) (full : A.isFullSet = true) (y : BitVec D) :
    (∃ a, A.contains a = true ∧ y = a.setWidth D) ↔ y.toNat < 2 ^ W := by
  constructor
  · rintro ⟨a, _, rfl⟩
    rw [toNat_setWidth_of_le (le_of_lt wider)]
    exact a.isLt
  · intro inside
    refine ⟨BitVec.ofNat W y.toNat, contains_of_isFullSet full _, eq_of_toNat_eq ?_⟩
    rw [toNat_setWidth_of_le (le_of_lt wider), toNat_ofNat, mod_eq_of_lt inside]

theorem zeroExtend_hulls (wide : 0 < W) (wider : W < D) (A : ConstantRange W) :
    Hulls (fun y => ∃ a, A.contains a = true ∧ y = a.setWidth D) (A.zeroExtend D) := by
  have dWide : 0 < D := Nat.lt_trans wide wider
  have powers : 2 ^ W * 2 <= 2 ^ D := by
    rw [<- Nat.pow_succ]
    exact Nat.pow_le_pow_right (by decide) wider
  have power : (twoPow D W).toNat = 2 ^ W := by
    rw [toNat_twoPow, mod_eq_of_lt (Nat.pow_lt_pow_right (by decide) wider)]
  have extended (x : BitVec W) : (x.setWidth D).toNat = x.toNat :=
    toNat_setWidth_of_le (Nat.le_of_lt wider)
  have zero : (0 : BitVec D).toNat = 0 := toNat_zero
  have pos : 0 < 2 ^ W := Nat.two_pow_pos W
  unfold zeroExtend
  rw [if_neg (not_not_intro wider)]
  rcases cases_kind A with full | empty | proper
  · have notEmpty : ¬A.isEmptySet = true := fun empty =>
      Bool.false_ne_true ((isFullSet_of_isEmptySet wide empty).symm.trans full)
    have same := bounds_eq_of_isFullSet full
    have upper : A.Upper ≠ 0 := fun isZero => notEmpty (by simp [isEmptySet, same, isZero])
    rw [if_neg notEmpty, full, Bool.true_or, if_pos rfl, if_neg upper]
    refine Hulls.congr ?_ (extended_iff_of_isFullSet wider full)
    have ne : (0 : BitVec D).toNat ≠ (twoPow D W).toNat := by
      rw [zero, power]
      exact Nat.ne_of_lt pos
    show Hulls _ (ofBounds 0 (twoPow D W))
    refine hulls_ofBounds_of_iff (T := fun y => y < 2 ^ W) dWide ne fun y inside => ?_
    rw [zero, power]
    grind [Mem]
  · rw [if_pos empty]
    refine hulls_ofWidth_false dWide ?_
    rintro y ⟨a, mem, _⟩
    exact absurd mem (Bool.eq_false_iff.mp (not_contains_of_isEmptySet wide empty a))
  · refine Hulls.congr ?_ (zeroExtended_iff wider proper)
    rw [proper.isEmptySet, proper.isFullSet, if_neg Bool.false_ne_true, Bool.false_or]
    have lowerBound := A.Lower.isLt
    have upperBound := A.Upper.isLt
    cases wrapped : A.isWrappedSet with
    | false =>
      have plain := isWrappedSet_eq_false proper wrapped
      refine hulls_ofBounds_of_iff dWide (by rwa [extended, extended]) fun y inside => ?_
      rw [extended, extended]
      grind [ZeroExtended, Mem]
    | true =>
      have wraps := isWrappedSet_iff.mp wrapped
      rw [if_pos rfl]
      by_cases upper : A.Upper = 0
      · have upperZero : A.Upper.toNat = 0 := by rw [upper]; exact toNat_zero
        rw [if_pos upper]
        refine hulls_ofBounds_of_iff dWide (by rw [extended, power]; omega) fun y inside => ?_
        rw [extended, power]
        grind [ZeroExtended, Mem]
      · have upperPositive : A.Upper.toNat ≠ 0 := fun same =>
          upper (eq_of_toNat_eq (same.trans toNat_zero.symm))
        rw [if_neg upper]
        apply hulls_ofBounds dWide 0 (A.Lower.setWidth D)
        · omega
        · rw [zero, power]
          grind [ZeroExtended, Mem]
        · rw [zero, power]
          unfold Near
          rw [zero, extended]
          grind [ZeroExtended, Near, Mem, distance]

end Zero

/-! ## Sign extension -/

section Positions

variable {h N l u y : Nat}

/-- The position of a value of the narrow type, with `h` values in each half, after sign
extension to `N` values. -/
def signPosition (h N x : Nat) : Nat := if x < h then x else x + (N - 2 * h)

/-- The position is one of a sign extension of a member of the interval. -/
def SignExtended (h N l u y : Nat) : Prop :=
  y < h ∧ Mem l u y ∨ N - h <= y ∧ Mem l u (y - (N - 2 * h))

/-- The interval `[X, INT_MIN)` stays an interval. -/
theorem signExtended_iff_of_upper (room : 4 * h <= N) (pos : 0 < h) (lower : l < 2 * h)
    (notLeast : l ≠ h) :
    SignExtended h N l h y ↔ Mem (signPosition h N l) h y := by
  grind [SignExtended, signPosition, Mem]

/-- So does an interval that does not cross the least value. -/
theorem signExtended_iff_of_not_cross (room : 4 * h <= N) (pos : 0 < h) (lower : l < 2 * h) (upper :
    u < 2 * h) (notLeast : u ≠ h) (notCross : ¬(Mem l u (h - 1) ∧ Mem l u h)) (inside : y < N) :
    SignExtended h N l u y ↔ Mem (signPosition h N l) (signPosition h N u) y := by
  unfold SignExtended signPosition
  unfold Mem at *
  split_ifs <;> omega

/-- An interval that does leaves the gap between the two halves. -/
theorem signExtended_near_of_cross (room : 4 * h <= N) (pos : 0 < h) (lower : l < 2 * h)
    (upper : u < 2 * h) (cross : Mem l u (h - 1) ∧ Mem l u h)
    (inside : y < N) (outside : ¬SignExtended h N l u y) :
    SignExtended h N l u (N - h) ∧ distance N y (N - h) <= N - 2 * h ∨
      SignExtended h N l u (signPosition h N l) ∧
        distance N y (signPosition h N l) <= N - 2 * h := by
  grind [SignExtended, signPosition, Mem, distance]

end Positions

section Sign

variable {D : Nat} {A : ConstantRange W}

section

variable (wide : 0 < W) (wider : W < D)
include wide wider

theorem four_mul_le : 4 * 2 ^ (W - 1) <= 2 ^ D := by
  have powers : 2 ^ (W + 1) <= 2 ^ D := Nat.pow_le_pow_right (by decide) wider
  have half := two_pow_pred wide
  rw [pow_succ] at powers
  omega

theorem toNat_signExtend (x : BitVec W) :
    (x.signExtend D).toNat = signPosition (2 ^ (W - 1)) (2 ^ D) x.toNat := by
  rw [BitVec.toNat_signExtend, toNat_setWidth_of_le (le_of_lt wider),
    msb_eq_decide, signPosition, two_pow_pred wide]
  by_cases neg : 2 ^ (W - 1) <= x.toNat
  · rw [if_pos (decide_eq_true neg), if_neg (Nat.not_lt.mpr neg)]
  · rw [if_neg (by simpa using neg), if_pos (Nat.lt_of_not_le neg), add_zero]

theorem signExtended_iff (S : Nat -> Prop) (y : BitVec D) :
    (∃ a : BitVec W, S a.toNat ∧ y = a.signExtend D) ↔
      (y.toNat < 2 ^ (W - 1) ∧ S y.toNat ∨
        2 ^ D - 2 ^ (W - 1) <= y.toNat ∧ S (y.toNat - (2 ^ D - 2 * 2 ^ (W - 1)))) := by
  have half := two_pow_pred wide
  have room := four_mul_le wide wider
  constructor
  · rintro ⟨a, mem, rfl⟩
    have inside := a.isLt
    rw [toNat_signExtend wide wider, signPosition]
    by_cases nonnegative : a.toNat < 2 ^ (W - 1)
    · rw [if_pos nonnegative]
      exact .inl ⟨nonnegative, mem⟩
    · rw [if_neg nonnegative, Nat.add_sub_cancel]
      exact .inr ⟨by omega, mem⟩
  · have inside := y.isLt
    rintro (⟨nonnegative, mem⟩ | ⟨neg, mem⟩)
    · have value : (BitVec.ofNat W y.toNat).toNat = y.toNat := by
        rw [toNat_ofNat, mod_eq_of_lt (by omega)]
      refine ⟨BitVec.ofNat W y.toNat, by rwa [value], eq_of_toNat_eq ?_⟩
      rw [toNat_signExtend wide wider, value, signPosition, if_pos nonnegative]
    · have value : (BitVec.ofNat W (y.toNat - (2 ^ D - 2 * 2 ^ (W - 1)))).toNat =
          y.toNat - (2 ^ D - 2 * 2 ^ (W - 1)) := by
        rw [toNat_ofNat, mod_eq_of_lt (by omega)]
      refine ⟨BitVec.ofNat W (y.toNat - (2 ^ D - 2 * 2 ^ (W - 1))), by rwa [value],
        eq_of_toNat_eq ?_⟩
      rw [toNat_signExtend wide wider, value, signPosition, if_neg (by omega)]
      omega

theorem toNat_getHighBitsSet : (getHighBitsSet D (D - W + 1)).toNat = 2 ^ D - 2 ^ (W - 1) := by
  have shift : D - (D - W + 1) = W - 1 := by omega
  have large := four_mul_le wide wider
  have pos : 0 < 2 ^ (W - 1) := Nat.two_pow_pos _
  have prod : (2 ^ D - 1) * 2 ^ (W - 1) = 2 ^ D - 2 ^ (W - 1) + 2 ^ D * (2 ^ (W - 1) - 1) := by
    rw [Nat.sub_mul, Nat.mul_sub, Nat.one_mul, Nat.mul_one]
    have grows := Nat.le_mul_of_pos_right (2 ^ D) pos
    omega
  rw [getHighBitsSet, shift, toNat_shiftLeft, toNat_allOnes, Nat.shiftLeft_eq,
    prod, add_mul_mod_self_left, mod_eq_of_lt (by omega)]

theorem toNat_getLowBitsSet_add_one : (getLowBitsSet D (W - 1) + 1).toNat = 2 ^ (W - 1) := by
  have large := four_mul_le wide wider
  have pos : 0 < 2 ^ (W - 1) := Nat.two_pow_pos _
  have low : (getLowBitsSet D (W - 1)).toNat = 2 ^ (W - 1) - 1 := by
    have rest := two_pow_sub_one_split (show D - (W - 1) <= D from sub_le _ _)
    rw [Nat.sub_sub_self (by omega)] at rest
    rw [getLowBitsSet, toNat_ushiftRight, toNat_allOnes, shiftRight_eq_div_pow,
      rest, add_mul_div_left _ _ (Nat.two_pow_pos _),
      div_eq_of_lt (sub_lt (Nat.two_pow_pos _) one_pos), zero_add]
  have one : (1 : BitVec D).toNat = 1 :=
    mod_eq_of_lt (Nat.one_lt_two_pow (Nat.ne_of_gt (lt_trans wide wider)))
  rw [toNat_add, low, one, Nat.sub_add_cancel pos, mod_eq_of_lt (by omega)]

theorem signExtend_hulls (A : ConstantRange W) :
    Hulls (fun y => ∃ a, A.contains a = true ∧ y = a.signExtend D) (A.signExtend D) := by
  have dWide : 0 < D := lt_trans wide wider
  have half := two_pow_pred wide
  have room := four_mul_le wide wider
  have pos : 0 < 2 ^ (W - 1) := Nat.two_pow_pos _
  have least : (intMin W).toNat = 2 ^ (W - 1) := by
    rw [BitVec.toNat_intMin, mod_eq_of_lt (by omega)]
  have greatest : (intMax W).toNat = 2 ^ (W - 1) - 1 := toNat_intMax
  have extended (x : BitVec W) : (x.setWidth D).toNat = x.toNat :=
    toNat_setWidth_of_le (le_of_lt wider)
  have high := toNat_getHighBitsSet wide wider
  have low := toNat_getLowBitsSet_add_one wide wider
  unfold signExtend
  rw [if_neg (not_not_intro wider)]
  rcases cases_kind A with full | empty | proper
  · have extensions (y : BitVec D) : (∃ a, A.contains a = true ∧ y = a.signExtend D) ↔
        (y.toNat < 2 ^ (W - 1) ∨ 2 ^ D - 2 ^ (W - 1) <= y.toNat) := by
      have all := signExtended_iff wide wider (fun _ => True) y
      simpa only [contains_of_isFullSet full, true_and, and_true] using all
    have halves (y : Nat) (_ : y < 2 ^ D) : (y < 2 ^ (W - 1) ∨ 2 ^ D - 2 ^ (W - 1) <= y) ↔
        Mem (2 ^ D - 2 ^ (W - 1)) (2 ^ (W - 1)) y := by
      grind [Mem]
    have notEmpty : ¬A.isEmptySet = true := fun empty =>
      Bool.false_ne_true ((isFullSet_of_isEmptySet wide empty).symm.trans full)
    have same : A.Lower = A.Upper := bounds_eq_of_isFullSet full
    refine Hulls.congr ?_ extensions
    rw [if_neg notEmpty, full, Bool.true_or, if_pos rfl, same]
    by_cases upper : A.Upper = intMin W
    · have upperLeast : A.Upper.toNat = 2 ^ (W - 1) := (congrArg BitVec.toNat upper).trans least
      have lower : (A.Upper.signExtend D).toNat = 2 ^ D - 2 ^ (W - 1) := by
        rw [toNat_signExtend wide wider, upperLeast, signPosition, if_neg (lt_irrefl _)]
        omega
      rw [if_pos upper]
      refine hulls_ofBounds_of_iff (T := fun y => y < 2 ^ (W - 1) ∨ 2 ^ D - 2 ^ (W - 1) <= y)
        dWide ?_ ?_ <;> rw [lower, extended, upperLeast]
      · omega
      · exact halves
    · rw [if_neg upper]
      refine hulls_ofBounds_of_iff (T := fun y => y < 2 ^ (W - 1) ∨ 2 ^ D - 2 ^ (W - 1) <= y)
        dWide ?_ ?_ <;> rw [high, low]
      · omega
      · exact halves
  · rw [if_pos empty]
    refine hulls_ofWidth_false dWide ?_
    rintro y ⟨a, mem, _⟩
    exact absurd mem (Bool.eq_false_iff.mp (not_contains_of_isEmptySet wide empty a))
  · have extensions (y : BitVec D) : (∃ a, A.contains a = true ∧ y = a.signExtend D) ↔
        SignExtended (2 ^ (W - 1)) (2 ^ D) A.Lower.toNat A.Upper.toNat y.toNat := by
      simp only [proper.contains_iff]
      exact signExtended_iff wide wider _ y
    refine Hulls.congr ?_ extensions
    rw [proper.isEmptySet, proper.isFullSet, if_neg Bool.false_ne_true, Bool.false_or]
    have lowerBound := half ▸ A.Lower.isLt
    have upperBound := half ▸ A.Upper.isLt
    by_cases upper : A.Upper = intMin W
    · have upperLeast : A.Upper.toNat = 2 ^ (W - 1) := (congrArg BitVec.toNat upper).trans least
      have lowerNotLeast : A.Lower.toNat ≠ 2 ^ (W - 1) := upperLeast ▸ proper
      rw [if_pos upper]
      refine hulls_ofBounds_of_iff dWide ?_ fun y inside => ?_
      · rw [toNat_signExtend wide wider, extended, signPosition]
        split <;> omega
      · rw [toNat_signExtend wide wider, extended, upperLeast]
        exact signExtended_iff_of_upper room pos lowerBound lowerNotLeast
    · have upperNotLeast : A.Upper.toNat ≠ 2 ^ (W - 1) := fun same =>
        upper (eq_of_toNat_eq (same.trans least.symm))
      have crosses : A.isSignWrappedSet = true ↔
          Mem A.Lower.toNat A.Upper.toNat (2 ^ (W - 1) - 1) ∧
            Mem A.Lower.toNat A.Upper.toNat (2 ^ (W - 1)) := by
        rw [isSignWrappedSet, Bool.and_eq_true, proper.contains_iff, proper.contains_iff, least,
          greatest]
      rw [if_neg upper]
      by_cases cross : A.isSignWrappedSet = true
      · rw [if_pos cross]
        apply hulls_ofBounds dWide (getHighBitsSet D (D - W + 1)) (A.Lower.signExtend D)
        · omega
        · rw [high, low]
          grind [SignExtended, Mem]
        · unfold Near
          have gap : distance (2 ^ D) (2 ^ (W - 1)) (2 ^ D - 2 ^ (W - 1)) =
              2 ^ D - 2 * 2 ^ (W - 1) := by
            rw [distance_of_le (by omega)]
            omega
          rw [toNat_signExtend wide wider, high, low, gap]
          exact fun y inside outside => signExtended_near_of_cross room pos lowerBound
            upperBound (crosses.mp cross) inside outside
      · rw [if_neg cross]
        refine hulls_ofBounds_of_iff dWide ?_ fun y inside => ?_
        · rw [toNat_signExtend wide wider, toNat_signExtend wide wider, signPosition, signPosition]
          unfold Proper at proper
          split <;> split <;> omega
        · rw [toNat_signExtend wide wider, toNat_signExtend wide wider]
          exact signExtended_iff_of_not_cross room pos lowerBound upperBound upperNotLeast
            (fun both => cross (crosses.mpr both)) inside

end

end Sign

/-! ## Truncation -/

section Truncation

variable {D : Nat} {LowerDiv UpperDiv : BitVec W} {Union : ConstantRange D}

/-- The assertions hold, and the result contains the union and all truncations of the
values between the bounds. -/
def Covers (Union : ConstantRange D) (S : BitVec W -> Prop) (result : Option (ConstantRange D)) :
    Prop :=
  ∃ range, result = some range ∧ (∀ x, Union.contains x = true -> range.contains x = true) ∧
    ∀ a, S a -> range.contains (a.setWidth D) = true

/-- The residues of the values between the bounds lie in an interval, which is united with
the rest. -/
theorem covers_of_residues (dWide : 0 < D) {L U : BitVec D} (ne : L.toNat ≠ U.toNat)
    {S : BitVec W -> Prop} (residues : ∀ a, S a -> Mem L.toNat U.toNat (a.toNat % 2 ^ D)) :
    Covers Union S ((ofBounds L U).bind fun part => unionWith part Union) := by
  have valid : L = U -> L = allOnes D ∨ L = 0 := fun same => absurd (congrArg BitVec.toNat same) ne
  have proper : Proper ⟨L, U, valid⟩ := ne
  rcases unionWith_hulls dWide ⟨L, U, valid⟩ Union with ⟨range, united, hull⟩
  refine ⟨range, ?_, fun x mem => hull.encloses x (.inr mem), fun a mem => ?_⟩
  · rw [ofBounds, dif_pos valid]
    exact united
  · refine hull.encloses _ (.inl ((proper.contains_iff _).mpr ?_))
    rw [toNat_setWidth]
    exact residues a mem

theorem toNat_maxValue (narrower : D < W) : ((allOnes D).setWidth W).toNat = 2 ^ D - 1 := by
  rw [toNat_setWidth_of_le (le_of_lt narrower), toNat_allOnes]

theorem toNat_maxBitValue (narrower : D < W) : (twoPow W D).toNat = 2 ^ D := by
  rw [toNat_twoPow, mod_eq_of_lt (Nat.pow_lt_pow_right (by decide) narrower)]

/-- Chopping subtracts the same multiple of the number of values from both bounds. -/
theorem chop_spec (narrower : D < W) (between : LowerDiv.toNat < UpperDiv.toNat) :
    ∃ q, LowerDiv.toNat = (chop D LowerDiv UpperDiv).1.toNat + 2 ^ D * q ∧
      UpperDiv.toNat = (chop D LowerDiv UpperDiv).2.toNat + 2 ^ D * q ∧
      (chop D LowerDiv UpperDiv).1.toNat < 2 ^ D := by
  have pos : 0 < 2 ^ D := Nat.two_pow_pos D
  unfold chop
  simp only [ge_iff_le, le_def, toNat_maxValue narrower]
  by_cases chops : 2 ^ D - 1 <= LowerDiv.toNat
  · rw [if_pos chops]
    have quot : 2 ^ D * (LowerDiv.toNat / 2 ^ D) <= LowerDiv.toNat := mul_div_le _ _
    have prod : (twoPow W D * (LowerDiv / twoPow W D)).toNat =
        2 ^ D * (LowerDiv.toNat / 2 ^ D) := by
      rw [toNat_mul, toNat_udiv, toNat_maxBitValue narrower]
      exact mod_eq_of_lt (lt_of_le_of_lt quot LowerDiv.isLt)
    have below : twoPow W D * (LowerDiv / twoPow W D) <= UpperDiv := by
      rw [le_def, prod]
      omega
    refine ⟨LowerDiv.toNat / 2 ^ D, ?_, ?_, ?_⟩
    · rw [toNat_umod, toNat_maxBitValue narrower]
      exact (mod_add_div _ _).symm
    · rw [toNat_sub_of_le below, prod]
      omega
    · rw [toNat_umod, toNat_maxBitValue narrower]
      exact mod_lt _ pos
  · rw [if_neg chops]
    exact ⟨0, rfl, rfl, show LowerDiv.toNat < 2 ^ D by omega⟩

theorem truncateBetween_covers (dWide : 0 < D) (narrower : D < W) (Union : ConstantRange D)
    (between : LowerDiv.toNat < UpperDiv.toNat) :
    Covers Union (fun a : BitVec W => LowerDiv.toNat <= a.toNat ∧ a.toNat < UpperDiv.toNat)
      (truncateBetween D LowerDiv UpperDiv Union) := by
  rcases chop_spec narrower between with ⟨q, lower, upper, small⟩
  unfold truncateBetween
  generalize (chop D LowerDiv UpperDiv) = chopped at *
  rcases chopped with ⟨lo, up⟩
  simp only at lower upper small ⊢
  have residue (a : Nat) : (a + 2 ^ D * q) % 2 ^ D = a % 2 ^ D := add_mul_mod_self_left _ _ _
  have low : (lo.setWidth D).toNat = lo.toNat := by
    rw [toNat_setWidth, mod_eq_of_lt small]
  simp only [le_def, lt_def, toNat_maxValue narrower]
  by_cases fits : up.toNat <= 2 ^ D - 1
  · have high : (up.setWidth D).toNat = up.toNat := by
      rw [toNat_setWidth, mod_eq_of_lt (by omega)]
    rw [if_pos fits]
    refine covers_of_residues dWide (by omega) ?_
    rintro a ⟨above, below⟩
    have chopped : a.toNat = (a.toNat - 2 ^ D * q) + 2 ^ D * q := by omega
    rw [low, high, chopped, residue, mod_eq_of_lt (by omega)]
    exact .inl (by omega)
  · have modulo : (up - twoPow W D).toNat = up.toNat - 2 ^ D := by
      rw [toNat_sub_of_le (by rw [le_def, toNat_maxBitValue narrower]; omega),
        toNat_maxBitValue narrower]
    rw [if_neg fits, modulo]
    by_cases better : up.toNat - 2 ^ D < lo.toNat
    · have high : ((up - twoPow W D).setWidth D).toNat = up.toNat - 2 ^ D := by
        rw [toNat_setWidth, modulo, mod_eq_of_lt (by omega)]
      rw [if_pos better]
      refine covers_of_residues dWide (by omega) ?_
      rintro a ⟨above, below⟩
      have chopped : a.toNat = (a.toNat - 2 ^ D * q) + 2 ^ D * q := by omega
      rw [low, high, chopped, residue]
      by_cases wraps : a.toNat - 2 ^ D * q < 2 ^ D
      · rw [mod_eq_of_lt wraps]
        exact .inr ⟨by omega, .inl (by omega)⟩
      · rw [mod_eq_sub_mod (Nat.le_of_not_lt wraps), mod_eq_of_lt (by omega)]
        exact .inr ⟨by omega, .inr (by omega)⟩
    · rw [if_neg better]
      have full : (ofWidth D true).isFullSet = true := by simp [ofWidth, isFullSet]
      exact ⟨_, rfl, fun x _ => contains_of_isFullSet full x,
        fun a _ => contains_of_isFullSet full _⟩

theorem truncateWrapped_contains (dWide : 0 < D) (narrower : D < W) {A : ConstantRange W} (proper :
    A.Proper) (wraps : A.Upper.toNat < A.Lower.toNat) (notCovered : A.Upper.toNat < 2 ^ D - 1) :
    ∃ range, ((ofBounds (allOnes D) (A.Upper.setWidth D)).bind fun Union =>
        if A.Lower = allOnes W then some Union
        else truncateBetween D A.Lower (allOnes W) Union) = some range ∧
      ∀ a, A.contains a = true -> range.contains (a.setWidth D) = true := by
  have high : (A.Upper.setWidth D).toNat = A.Upper.toNat := by
    rw [toNat_setWidth, mod_eq_of_lt (by omega)]
  have ne : (allOnes D).toNat ≠ (A.Upper.setWidth D).toNat := by
    rw [high, toNat_allOnes]
    omega
  have valid : allOnes D = A.Upper.setWidth D ->
      allOnes D = allOnes D ∨ allOnes D = 0 := fun _ => .inl rfl
  have unionProper : Proper ⟨allOnes D, A.Upper.setWidth D, valid⟩ := ne
  -- the greatest value and the values below the upper bound are in the union
  have inUnion (a : BitVec W) (ends : a.toNat = 2 ^ W - 1 ∨ a.toNat < A.Upper.toNat) :
      ConstantRange.contains ⟨allOnes D, A.Upper.setWidth D, valid⟩ (a.setWidth D) = true := by
    rw [unionProper.contains_iff, toNat_allOnes, high, toNat_setWidth]
    rcases ends with greatest | below
    · have residue : (2 ^ W - 1) % 2 ^ D = 2 ^ D - 1 := by
        rw [two_pow_sub_one_split (le_of_lt narrower), add_mul_mod_self_left,
          mod_eq_of_lt (sub_lt (Nat.two_pow_pos D) one_pos)]
      rw [greatest, residue]
      exact mem_lower (by omega)
    · rw [mod_eq_of_lt (by omega)]
      exact .inr ⟨notCovered, .inr below⟩
  have ends (a : BitVec W) (mem : A.contains a = true) :
      A.Lower.toNat <= a.toNat ∨ a.toNat < A.Upper.toNat := by
    have interval := (proper.contains_iff a).mp mem
    grind [Mem]
  rw [ofBounds, dif_pos valid, Option.bind_some]
  by_cases only : A.Lower = allOnes W
  · rw [if_pos only]
    refine ⟨_, rfl, fun a mem => inUnion a ?_⟩
    have inside := a.isLt
    have parts := ends a mem
    rw [only, toNat_allOnes] at parts
    omega
  · rw [if_neg only]
    have notLast : A.Lower.toNat ≠ 2 ^ W - 1 := fun same =>
      only (eq_of_toNat_eq (same.trans toNat_allOnes.symm))
    have lowerBound := A.Lower.isLt
    have between : A.Lower.toNat < (allOnes W).toNat := by
      rw [toNat_allOnes]
      omega
    rcases truncateBetween_covers dWide narrower _ between with ⟨range, truncated, union, contains⟩
    refine ⟨range, truncated, fun a mem => ?_⟩
    have inside := a.isLt
    rcases ends a mem with above | below
    · by_cases greatest : a.toNat = 2 ^ W - 1
      · exact union _ (inUnion a (.inl greatest))
      · exact contains a ⟨above, by rw [toNat_allOnes]; omega⟩
    · exact union _ (inUnion a (.inr below))

theorem truncate_contains (dWide : 0 < D) (narrower : D < W) (A : ConstantRange W) :
    ∃ range, A.truncate D = some range ∧
      ∀ a, A.contains a = true -> range.contains (a.setWidth D) = true := by
  have wide : 0 < W := lt_trans dWide narrower
  have fullSet : (ofWidth D true).isFullSet = true := by simp [ofWidth, isFullSet]
  have all := contains_of_isFullSet fullSet
  unfold truncate
  rw [if_neg (not_not_intro narrower)]
  rcases cases_kind A with full | empty | proper
  · have notEmpty : ¬A.isEmptySet = true := fun empty =>
      Bool.false_ne_true ((isFullSet_of_isEmptySet wide empty).symm.trans full)
    rw [if_neg notEmpty, if_pos full]
    exact ⟨_, rfl, fun a _ => all _⟩
  · rw [if_pos empty]
    refine ⟨_, rfl, fun a mem => ?_⟩
    exact absurd mem (Bool.eq_false_iff.mp (not_contains_of_isEmptySet wide empty a))
  · rw [proper.isEmptySet, proper.isFullSet, if_neg Bool.false_ne_true, if_neg Bool.false_ne_true]
    cases wrapped : A.isWrappedSet with
    | false =>
      have between := isWrappedSet_eq_false proper wrapped
      rcases truncateBetween_covers dWide narrower (ofWidth D false) between with
        ⟨range, truncated, _, contains⟩
      refine ⟨range, truncated, fun a mem => contains a ?_⟩
      have interval := (proper.contains_iff a).mp mem
      grind [Mem]
    | true =>
      have wraps := isWrappedSet_iff.mp wrapped
      simp only [ge_iff_le, le_def, toNat_maxValue narrower, if_true]
      by_cases covered : 2 ^ D - 1 <= A.Upper.toNat
      · rw [if_pos covered]
        exact ⟨_, rfl, fun a _ => all _⟩
      · rw [if_neg covered]
        exact truncateWrapped_contains dWide narrower proper wraps (Nat.lt_of_not_le covered)

/-- Extensions are the smallest ranges that contain the extended values, and truncations
contain the truncated values. -/
theorem casts_sound (wide : 0 < W) (A : ConstantRange W) :
    (∀ D, W < D ->
      Hulls (fun y => ∃ a, A.contains a = true ∧ y = a.setWidth D) (A.zeroExtend D) ∧
        Hulls (fun y => ∃ a, A.contains a = true ∧ y = a.signExtend D) (A.signExtend D)) ∧
      ∀ D, 0 < D -> D < W -> ∃ range, A.truncate D = some range ∧
        ∀ a, A.contains a = true -> range.contains (a.setWidth D) = true :=
  ⟨fun _ wider => ⟨zeroExtend_hulls wide wider A, signExtend_hulls wide wider A⟩,
    fun _ dWide narrower => truncate_contains dWide narrower A⟩

/-- A range of bytes that wraps around and crosses the least signed value. -/
theorem casts_sound_wrapped :
    (∀ D, 8 < D ->
      Hulls (fun y => ∃ a : BitVec 8, contains ⟨100, 20, by decide⟩ a = true ∧
        y = a.setWidth D) (zeroExtend (W := 8) ⟨100, 20, by decide⟩ D) ∧
        Hulls (fun y => ∃ a : BitVec 8, contains ⟨100, 20, by decide⟩ a = true ∧
          y = a.signExtend D) (signExtend (W := 8) ⟨100, 20, by decide⟩ D)) ∧
      ∀ D, 0 < D -> D < 8 -> ∃ range, truncate (W := 8) ⟨100, 20, by decide⟩ D = some range ∧
        ∀ a : BitVec 8, contains ⟨100, 20, by decide⟩ a = true ->
          range.contains (a.setWidth D) = true :=
  casts_sound (by decide) ⟨100, 20, by decide⟩

end Truncation

end ConstantRange
end LlvmProject
