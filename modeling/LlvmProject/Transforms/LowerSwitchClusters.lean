import LlvmProject.Library.RangeMap
import LlvmProject.Transforms.LowerSwitch

namespace LlvmProject

open List Int

namespace LowerSwitch

/-!
# Clusters of cases

The clusters of a switch are disjoint ranges in increasing order.  As a map
they have the successor of every case value, and no other value, and for each
successor as many values as there are cases.
-/

open RangeMap

variable {L : Type} {W : Nat}

/-- A cluster as a range of signed numbers. -/
def CaseRange.toRange (C : CaseRange L W) : Range L := ⟨C.Low.toInt, C.High.toInt, C.BB⟩

def ranges (Cases : List (CaseRange L W)) : List (Range L) := Cases.map CaseRange.toRange

/-- A signed number of at most 64 bits. -/
theorem toInt_bounds (width : W <= 64) (x : BitVec W) : INT64_MIN <= x.toInt ∧ x.toInt <=
    INT64_MAX := by
  have power : (2 : Int) ^ W <= 2 ^ 64 := by
    exact_mod_cast Nat.pow_le_pow_right (by decide) width
  have lower := BitVec.le_two_mul_toInt (x := x)
  have upper := BitVec.two_mul_toInt_lt (x := x)
  unfold INT64_MIN INT64_MAX
  omega

/-- A difference of one is found, also if the subtraction wraps around. -/
theorem int64_sub_eq_one {x y : Int} (less : x < y) (low : INT64_MIN <= x) (high : y <= INT64_MAX) :
    int64 (y - x) = 1 ↔ y = x + 1 := by
  unfold INT64_MIN at low
  unfold INT64_MAX at high
  rw [int64, bmod_def]
  omega

theorem int64_of_bounds {x : Int} (low : INT64_MIN <= x) (high : x <= INT64_MAX) : int64 x = x := by
  unfold INT64_MIN at low
  unfold INT64_MAX at high
  rw [int64, bmod_def]
  omega

/-! ## Sorted cases -/

/-- A case as a cluster. -/
def single (c : BitVec W × L) : CaseRange L W := ⟨c.1, c.1, c.2⟩

/-- The value of a case is not above the one of another. -/
def NotAbove (c c' : BitVec W × L) : Prop := ¬ c'.1.slt c.1 = true

instance : DecidableRel (NotAbove (L := L) (W := W)) := fun c c' =>
  inferInstanceAs (Decidable (¬ c'.1.slt c.1 = true))

theorem notAbove_iff {c c' : BitVec W × L} : NotAbove c c' ↔ c.1.toInt <= c'.1.toInt := by
  rw [NotAbove, BitVec.slt_eq_decide, decide_eq_true_eq, not_lt]

instance : Std.Total (NotAbove (L := L) (W := W)) where
  total c c' := by
    rw [notAbove_iff, notAbove_iff]
    exact le_total _ _

instance : IsTrans (BitVec W × L) NotAbove where
  trans a b c ab bc := by
    rw [notAbove_iff] at ab bc ⊢
    exact ab.trans bc

/-- The cases in increasing order. -/
def sortedCases (SI : SwitchInst L W) : List (BitVec W × L) := SI.cases.insertionSort NotAbove

theorem sort_singles (cases : List (BitVec W × L)) :
    (cases.map single).insertionSort (fun C1 C2 => ¬ CaseCmp C2 C1 = true) =
      (cases.insertionSort NotAbove).map single :=
  (map_insertionSort _ _ single cases fun _ _ _ _ => Iff.rfl).symm

section

variable (SI : SwitchInst L W)

theorem sortedCases_perm : (sortedCases SI).Perm SI.cases := perm_insertionSort NotAbove SI.cases

theorem sortedCases_increasing : (sortedCases SI).Pairwise fun c c' => c.1.toInt < c'.1.toInt := by
  have sorted : (sortedCases SI).Pairwise NotAbove := pairwise_insertionSort NotAbove SI.cases
  have distinct : (sortedCases SI).Pairwise fun c c' => c.1 ≠ c'.1 := by
    refine pairwise_map.mp ?_
    exact ((sortedCases_perm SI).map Prod.fst).nodup_iff.mpr SI.distinct
  refine (sorted.and distinct).imp fun {c c'} both => ?_
  rw [notAbove_iff] at both
  have ne : c.1.toInt ≠ c'.1.toInt := fun same => both.2 (BitVec.eq_of_toInt_eq same)
  have notLess := both.1
  omega

theorem singles_ordered : Ordered (ranges ((sortedCases SI).map single)) := by
  refine ⟨?_, ?_⟩
  · intro r mem
    rcases mem_map.mp mem with ⟨C, inCases, rfl⟩
    rcases mem_map.mp inCases with ⟨c, _, rfl⟩
    exact le_refl _
  · rw [ranges, pairwise_map, pairwise_map]
    exact sortedCases_increasing SI

theorem find_singles (Val : BitVec W) {t : L} :
    find (ranges ((sortedCases SI).map single)) Val.toInt = some t ↔ (Val, t) ∈ SI.cases := by
  rw [(singles_ordered SI).find_eq_some_iff]
  constructor
  · rintro ⟨r, mem, holds, rfl⟩
    rcases mem_map.mp mem with ⟨C, inCases, rfl⟩
    rcases mem_map.mp inCases with ⟨c, inSorted, rfl⟩
    have same : c.1 = Val := BitVec.eq_of_toInt_eq (le_antisymm holds.1 holds.2)
    rw [<- same]
    exact (sortedCases_perm SI).mem_iff.mp inSorted
  · intro mem
    have inSorted := (sortedCases_perm SI).mem_iff.mpr mem
    exact ⟨_, mem_map.mpr ⟨_, mem_map.mpr ⟨_, inSorted, rfl⟩, rfl⟩, ⟨le_refl _, le_refl _⟩, rfl⟩

end

/-! ## Merged cases -/

section Clusterify

variable [DecidableEq L]

theorem ranges_mergeCases (width : W <= 64) {I : CaseRange L W} {rest : List (CaseRange L W)}
    (ordered : Ordered (ranges (I :: rest))) :
    ranges (mergeCases I rest) = mergeFrom I.toRange (ranges rest) := by
  induction rest generalizing I with
  | nil => rfl
  | cons J rest ih =>
    have less : I.High.toInt < J.Low.toInt := Ordered.lt_low (r := I.toRange) ordered (mem_cons_self (a := J.toRange))
    have adjacent := int64_sub_eq_one less (toInt_bounds width I.High).1 (toInt_bounds width J.Low).2
    rw [mergeCases]
    change _ = mergeFrom I.toRange (J.toRange :: ranges rest)
    rw [mergeFrom]
    refine (apply_ite ranges ..).trans (if_congr (and_congr_left fun _ => adjacent) ?_ ?_)
    · exact ih (I := { I with High := J.High }) ordered.join
    · exact congrArg (I.toRange :: ·) (ih ordered.of_cons)

/-- A single case has one number. -/
theorem sizeTo_singles (t : L) (cases : List (BitVec W × L)) :
    sizeTo t (ranges (cases.map single)) = (cases.map Prod.snd).count t := by
  induction cases with
  | nil => rfl
  | cons c cases ih =>
    rw [map_cons, map_cons, count_cons, <- ih]
    change sizeTo t ((single c).toRange :: ranges (cases.map single)) = _
    have size : (single c).toRange.size = 1 := by
      change (c.1.toInt + 1 - c.1.toInt).toNat = 1
      omega
    rw [sizeTo_cons, size, add_comm]
    refine congrArg (_ + ·) (if_congr ?_ rfl rfl)
    rw [beq_iff_eq]
    rfl

section

variable (SI : SwitchInst L W)

theorem Clusterify_cases :
    Ordered (ranges (Clusterify SI).1) ∧
      (∀ x, find (ranges (Clusterify SI).1) x = find (ranges ((sortedCases SI).map single)) x) ∧
      ∀ t, sizeTo t (ranges (Clusterify SI).1) =
        sizeTo t (ranges ((sortedCases SI).map single)) := by
  have sorted : (SI.cases.map fun c => (⟨c.1, c.1, c.2⟩ : CaseRange L W)).insertionSort
      (fun C1 C2 => ¬ CaseCmp C2 C1 = true) = (sortedCases SI).map single := sort_singles SI.cases
  have ordered := singles_ordered SI
  rw [Clusterify]
  simp only [sorted]
  cases cases : (sortedCases SI).map single with
  | nil =>
    rw [cases] at ordered
    exact ⟨ordered, fun _ => rfl, fun _ => rfl⟩
  | cons I rest =>
    rw [cases] at ordered
    simp only [ranges_mergeCases SI.width.2 ordered]
    exact ⟨(mergeFrom_ordered ordered).1, find_mergeFrom ordered, sizeTo_mergeFrom ordered⟩

theorem Clusterify_ordered : Ordered (ranges (Clusterify SI).1) := (Clusterify_cases SI).1

theorem find_Clusterify (Val : BitVec W) {t : L} :
    find (ranges (Clusterify SI).1) Val.toInt = some t ↔ (Val, t) ∈ SI.cases := by
  rw [(Clusterify_cases SI).2.1, find_singles]

/-- Each successor has as many values as cases. -/
theorem sizeTo_Clusterify (t : L) :
    sizeTo t (ranges (Clusterify SI).1) = (SI.cases.map Prod.snd).count t := by
  rw [(Clusterify_cases SI).2.2, sizeTo_singles]
  exact ((sortedCases_perm SI).map Prod.snd).count_eq t

/-- The clusters lead every value to the successor of the switch. -/
theorem successor_eq (Val : BitVec W) :
    SI.successor Val = (find (ranges (Clusterify SI).1) Val.toInt).getD SI.defaultDest := by
  rw [SwitchInst.successor]
  cases found : SI.cases.find? fun c => decide (c.1 = Val) with
  | none =>
    have absent : find (ranges (Clusterify SI).1) Val.toInt = none := by
      rw [Option.eq_none_iff_forall_not_mem]
      intro t isFound
      exact absurd (decide_eq_true rfl)
        (find?_eq_none.mp found _ ((find_Clusterify SI Val).mp isFound))
    rw [absent]
    rfl
  | some c =>
    have mem := mem_of_find?_eq_some found
    have same : c.1 = Val :=
      of_decide_eq_true (find?_some (p := fun c : BitVec W × L => decide (c.1 = Val)) found)
    have isFound : find (ranges (Clusterify SI).1) Val.toInt = some c.2 :=
      (find_Clusterify SI Val).mpr (same ▸ mem)
    rw [isFound]
    rfl

end

end Clusterify

/-! ## Unreachable ranges -/

/-- A number is in a range of 64-bit numbers. -/
def IntRange.Holds (R : IntRange) (x : Int) : Prop := R.Low <= x ∧ x <= R.High

theorem holds_of_isInRanges {R : IntRange} {Ranges : List IntRange} (covered : IsInRanges R Ranges = true)
    {x : Int} (holds : R.Holds x) : ∃ R' ∈ Ranges, R'.Holds x := by
  rw [IsInRanges] at covered
  split at covered
  · cases covered
  · rename_i I found
    have high := find?_some (p := fun A : IntRange => !decide (A.High < R.High)) found
    rw [Bool.not_eq_true', decide_eq_false_iff_not] at high
    have low := of_decide_eq_true covered
    exact ⟨I, mem_of_find?_eq_some found, low.trans holds.1, holds.2.trans (not_lt.mp high)⟩

/-- Ranges that hold no number of the clusters. -/
def Avoids (Ranges : List IntRange) (Cases : List (CaseRange L W)) : Prop :=
  ∀ R ∈ Ranges, ∀ C ∈ Cases, ∀ x, C.toRange.Holds x -> ¬ R.Holds x

variable {Cases : List (CaseRange L W)}

theorem Avoids.append {Ranges Ranges' : List IntRange}
    (left : Avoids Ranges Cases) (right : Avoids Ranges' Cases) : Avoids (Ranges ++ Ranges') Cases := by
  intro R mem
  rcases mem_append.mp mem with inLeft | inRight
  · exact left R inLeft
  · exact right R inRight

/-- The loop keeps the last range open for the clusters that follow. -/
theorem unreachableRangesFrom_avoids (width : W <= 64) {before Cases : List (CaseRange L W)}
    (ordered : Ordered (ranges (before ++ Cases))) {front : List IntRange} {low : Int} (frontAvoids
    : Avoids front (before ++ Cases)) (beforeLow : ∀ C ∈ before, C.High.toInt < low) (casesLow : ∀ C
    ∈ Cases, low <= C.Low.toInt) (lowMin : INT64_MIN <= low) :
    ∃ Ranges, unreachableRangesFrom (front ++ [⟨low, INT64_MAX⟩]) Cases = some Ranges ∧
      Avoids Ranges (before ++ Cases) := by
  induction Cases generalizing before front low with
  | nil =>
    rw [append_nil] at frontAvoids ⊢
    refine ⟨_, rfl, frontAvoids.append fun R open' C mem x holds inside => ?_⟩
    rw [mem_singleton.mp open'] at inside
    have below := beforeLow C mem
    have le : x <= C.High.toInt := holds.2
    have low' : low <= x := inside.1
    omega
  | cons C Cases ih =>
    have lowC := casesLow C mem_cons_self
    have boundsLow := toInt_bounds width C.Low
    have boundsHigh := toInt_bounds width C.High
    have regroup : before ++ C :: Cases = before ++ [C] ++ Cases := by rw [append_assoc]; rfl
    have parts := ordered
    rw [ranges, map_append, map_cons] at parts
    rcases parts.append with ⟨_, tail, across⟩
    have nonemptyC : C.Low.toInt <= C.High.toInt := tail.nonempty C.toRange mem_cons_self
    have beforeC : ∀ C' ∈ before, C'.High.toInt < C.Low.toInt := fun C' mem =>
      across C'.toRange (mem_map_of_mem mem) C.toRange mem_cons_self
    have later : ∀ C' ∈ Cases, C.High.toInt < C'.Low.toInt := fun C' mem =>
      Ordered.lt_low (r := C.toRange) tail (mem_map_of_mem (f := CaseRange.toRange) mem)
    -- The range before the cluster ends below it.
    have closed : Avoids [⟨low, C.Low.toInt - 1⟩] (before ++ C :: Cases) := by
      intro R mem C' inCases x holds inside
      rw [mem_singleton.mp mem] at inside
      have insideLow : low <= x := inside.1
      have insideHigh : x <= C.Low.toInt - 1 := inside.2
      have holdsLow : C'.Low.toInt <= x := holds.1
      have holdsHigh : x <= C'.High.toInt := holds.2
      rcases mem_append.mp inCases with earlier | rest
      · have below := beforeLow C' earlier
        omega
      · rcases mem_cons.mp rest with rfl | afterwards
        · omega
        · have above := later C' afterwards
          omega
    have step : ∃ front', Avoids front' (before ++ C :: Cases) ∧
        unreachableRangesFrom (front ++ [⟨low, INT64_MAX⟩]) (C :: Cases) =
          unreachableRangesFrom (if C.High.toInt ≠ INT64_MAX then
            front' ++ [⟨int64 (C.High.toInt + 1), INT64_MAX⟩] else front') Cases := by
      rw [unreachableRangesFrom, getLast?_concat, dropLast_concat]
      by_cases same : low = C.Low.toInt
      · exact ⟨front, frontAvoids, by simp [same]⟩
      · have less : low < C.Low.toInt := by omega
        refine ⟨front ++ [⟨low, C.Low.toInt - 1⟩], frontAvoids.append closed, ?_⟩
        have exact := int64_of_bounds (x := C.Low.toInt - 1) (by omega) (by omega)
        simp [same, less, exact]
    rcases step with ⟨front', avoids, equation⟩
    rw [equation]
    rw [regroup] at ordered avoids ⊢
    by_cases last : C.High.toInt = INT64_MAX
    · rw [if_neg (not_not.mpr last)]
      have nothing : Cases = [] := eq_nil_iff_forall_not_mem.mpr fun C' mem => by
        have above := later C' mem
        have most := (toInt_bounds width C'.Low).2
        omega
      rw [nothing] at avoids ⊢
      exact ⟨front', rfl, avoids⟩
    · have exact := int64_of_bounds (x := C.High.toInt + 1) (by omega) (by omega)
      rw [if_pos last, exact]
      refine ih ordered avoids (fun C' mem => ?_) (fun C' mem => ?_) (by omega)
      · rcases mem_append.mp mem with earlier | same
        · have below := beforeC C' earlier
          omega
        · rw [mem_singleton.mp same]
          omega
      · have above := later C' mem
        omega

theorem unreachableRanges_avoids (width : W <= 64) (ordered : Ordered (ranges Cases)) :
    ∃ Ranges, unreachableRanges Cases = some Ranges ∧ Avoids Ranges Cases :=
  @unreachableRangesFrom_avoids L W width [] Cases ordered [] INT64_MIN
    (fun _ mem => absurd mem not_mem_nil) (fun _ mem => absurd mem not_mem_nil)
    (fun C _ => (toInt_bounds width C.Low).1) (le_refl _)

/-! ## Popularity -/

section Popularity

variable [DecidableEq L]

/-- The target of most numbers, of several the one whose ranges end first. -/
structure MostPopular (l : List (Range L)) (P : L) : Prop where
  positive : 0 < sizeTo P l
  most : ∀ t ≠ P, sizeTo t l < sizeTo P l ∨ sizeTo t l = sizeTo P l ∧
    ∃ r ∈ l, r.target = t ∧ ∀ r' ∈ l, r'.target = P -> r'.high < r.low

/-- The state of the count after some clusters. -/
def Counted (before : List (CaseRange L W)) (MaxPop : Nat) : Option L -> Prop
  | none => before = [] ∧ MaxPop = 0
  | some P => MaxPop = sizeTo P (ranges before) ∧ MostPopular (ranges before) P

theorem sizeTo_snoc (t : L) (before : List (CaseRange L W)) (I : CaseRange L W) :
    sizeTo t (ranges (before ++ [I])) =
      sizeTo t (ranges before) + if I.BB = t then I.toRange.size else 0 := by
  rw [ranges, map_append, sizeTo_append]
  exact congrArg (_ + ·) (sizeTo_cons ..)

/-- A count above the maximum gives a new one. -/
theorem Counted.greater {before : List (CaseRange L W)} {MaxPop : Nat} {PopSucc : Option L}
    (counted : Counted before MaxPop PopSucc) {I : CaseRange L W}
    (greater : MaxPop < sizeTo I.BB (ranges (before ++ [I]))) :
    Counted (before ++ [I]) (sizeTo I.BB (ranges (before ++ [I]))) (some I.BB) := by
  refine ⟨rfl, by omega, fun t other => Or.inl ?_⟩
  rw [sizeTo_snoc t, if_neg (Ne.symm other), Nat.add_zero]
  cases PopSucc with
  | none =>
    rcases counted with ⟨rfl, _⟩
    exact Nat.lt_of_le_of_lt (Nat.zero_le MaxPop) greater
  | some P =>
    refine Nat.lt_of_le_of_lt ?_ greater
    rw [counted.1]
    by_cases same : t = P
    · rw [same]
    · rcases counted.2.most t same with less | ⟨equal, _⟩
      · exact less.le
      · exact equal.le

/-- Any other count leaves it, and a cluster of the same count ends later. -/
theorem Counted.notGreater {before : List (CaseRange L W)} {MaxPop : Nat} {PopSucc : Option L}
    (counted : Counted before MaxPop PopSucc) {I : CaseRange L W} (ordered : Ordered
    (ranges (before ++ [I]))) (notGreater : sizeTo I.BB (ranges (before ++ [I])) <= MaxPop) :
    Counted (before ++ [I]) MaxPop PopSucc := by
  rw [ranges, map_append] at ordered
  rcases ordered.append with ⟨_, single, across⟩
  have nonempty : I.Low.toInt <= I.High.toInt := single.nonempty I.toRange mem_cons_self
  have positive : 0 < I.toRange.size := by
    change 0 < (I.High.toInt + 1 - I.Low.toInt).toNat
    omega
  have grows := sizeTo_snoc I.BB before I
  rw [if_pos rfl] at grows
  cases PopSucc with
  | none =>
    rw [counted.2] at notGreater
    omega
  | some P =>
    rcases counted with ⟨rfl, popular⟩
    have other : I.BB ≠ P := by
      rintro rfl
      omega
    have unchanged := sizeTo_snoc P before I
    rw [if_neg other, add_zero] at unchanged
    -- The ranges of the popular target are the ones before.
    have older : ∀ r' ∈ ranges (before ++ [I]), r'.target = P -> r' ∈ ranges before := by
      intro r' mem target
      rw [ranges, map_append] at mem
      rcases mem_append.mp mem with old | new
      · exact old
      · rw [mem_singleton.mp new] at target
        exact absurd target other
    refine ⟨unchanged.symm, unchanged.symm ▸ popular.positive, fun t ne => ?_⟩
    rw [unchanged]
    by_cases isI : I.BB = t
    · subst isI
      rcases notGreater.lt_or_eq with less | equal
      · exact .inl less
      · refine .inr ⟨equal, I.toRange, mem_map_of_mem (mem_append_right _
          mem_cons_self), rfl, fun r' mem target => ?_⟩
        exact across r' (older r' mem target) I.toRange mem_cons_self
    · rw [sizeTo_snoc, if_neg isI, add_zero]
      rcases popular.most t ne with less | ⟨equal, r, mem, target, above⟩
      · exact .inl less
      · refine .inr ⟨equal, r, ?_, target, fun r' mem' target' =>
          above r' (older r' mem' target') target'⟩
        rw [ranges, map_append]
        exact mem_append_left _ mem

theorem popularSuccessorFrom_counted {before Cases : List (CaseRange L W)} (ordered : Ordered
    (ranges (before ++ Cases))) (small : ∀ t, sizeTo t (ranges (before ++ Cases)) < 2 ^ 32) {MaxPop
    : Nat} {PopSucc : Option L} (counted : Counted before MaxPop PopSucc) :
    ∃ MaxPop', Counted (before ++ Cases) MaxPop'
      (popularSuccessorFrom (fun t => sizeTo t (ranges before)) MaxPop PopSucc Cases) := by
  induction Cases generalizing before MaxPop PopSucc with
  | nil => exact ⟨MaxPop, by rw [append_nil]; exact counted⟩
  | cons I Cases ih =>
    have regroup : before ++ I :: Cases = before ++ [I] ++ Cases := by rw [append_assoc]; rfl
    rw [regroup] at ordered small ⊢
    have parts := ordered
    rw [ranges, map_append] at parts
    have firstPart := parts.append.1
    have nonempty : I.Low.toInt <= I.High.toInt :=
      firstPart.nonempty I.toRange (mem_map_of_mem (mem_append_right _ mem_cons_self))
    have grows := sizeTo_snoc I.BB before I
    rw [if_pos rfl] at grows
    have bound := small I.BB
    rw [ranges, map_append, sizeTo_append] at bound
    change sizeTo I.BB (ranges (before ++ [I])) + _ < _ at bound
    have size : I.toRange.size = (I.High.toInt + 1 - I.Low.toInt).toNat := rfl
    have number : int64 (I.High.toInt - I.Low.toInt + 1) = I.toRange.size := by
      have exact := int64_of_bounds (x := I.High.toInt - I.Low.toInt + 1)
        (by unfold INT64_MIN; omega) (by unfold INT64_MAX; omega)
      omega
    have pop : (((sizeTo I.BB (ranges before) : Int) +
        int64 (I.High.toInt - I.Low.toInt + 1)) % 2 ^ 32).toNat =
          sizeTo I.BB (ranges (before ++ [I])) := by
      rw [number, grows]
      omega
    have popularity : (fun BB => if BB = I.BB then sizeTo I.BB (ranges (before ++ [I]))
        else sizeTo BB (ranges before)) = fun t => sizeTo t (ranges (before ++ [I])) := by
      funext t
      by_cases same : t = I.BB
      · rw [if_pos same, same]
      · rw [if_neg same, sizeTo_snoc, if_neg (Ne.symm same), add_zero]
    rw [popularSuccessorFrom]
    simp only [pop, popularity]
    by_cases greater : MaxPop < sizeTo I.BB (ranges (before ++ [I]))
    · rw [if_pos greater]
      exact ih ordered small (counted.greater greater)
    · rw [if_neg greater]
      exact ih ordered small (counted.notGreater firstPart (Nat.not_lt.mp greater))

theorem popularSuccessor_spec (nonempty : Cases ≠ [])
    (ordered : Ordered (ranges Cases)) (small : ∀ t, sizeTo t (ranges Cases) < 2 ^ 32) :
    ∃ P, popularSuccessor Cases = some P ∧ MostPopular (ranges Cases) P := by
  rcases @popularSuccessorFrom_counted L W _ [] Cases ordered small 0 none ⟨rfl, rfl⟩ with
    ⟨MaxPop, counted⟩
  change Counted Cases MaxPop (popularSuccessor Cases) at counted
  cases result : popularSuccessor Cases with
  | none =>
    rw [result] at counted
    exact absurd counted.1 nonempty
  | some P =>
    rw [result] at counted
    exact ⟨P, rfl, counted.2⟩

end Popularity

end LowerSwitch
end LlvmProject
