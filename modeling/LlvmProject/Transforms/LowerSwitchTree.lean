import LlvmProject.Library.SignedRange
import LlvmProject.Transforms.LowerSwitchClusters
import LlvmProject.Transforms.LowerSwitchPHIs

namespace LlvmProject

open BitVec hiding append_assoc cons_append
open List

namespace LowerSwitch

/-!
# The comparison tree

The blocks that are created for some clusters form a tree: nothing for a
cluster squeezed in between its bounds, a leaf for another single cluster, and
a node above the trees of the two halves.  The tree leads each value within the
bounds to the target of its cluster, and it has the edges for which the PHI
nodes were changed.
-/

open RangeMap

variable {B V : Type} {W : Nat}

/-- The created blocks, without PHI nodes, in an outline. -/
abbrev Outline (B : Type) (W : Nat) := List (Label B × Bool × Terminator (Label B) W)

/-- The value is not below a lower bound and not above an upper bound. -/
structure Within (LowerBound UpperBound : Option (BitVec W)) (Val : BitVec W) : Prop where
  lower : ∀ bound, LowerBound = some bound -> bound.toInt <= Val.toInt
  upper : ∀ bound, UpperBound = some bound -> Val.toInt <= bound.toInt

theorem newDefault_ne (b : B) : (.NewDefault : Label B) ≠ .block b := by
  rintro ⟨⟩

theorem nodeBlock_ne (path : List Bool) (b : B) : (.NodeBlock path : Label B) ≠ .block b := by
  rintro ⟨⟩

theorem leafBlock_ne (path : List Bool) (b : B) : (.LeafBlock path : Label B) ≠ .block b := by
  rintro ⟨⟩

/-- The entry and the blocks of the tree for some clusters. -/
inductive Emits (UnreachableRanges : List IntRange) :
    List Bool -> Option (BitVec W) -> Option (BitVec W) -> List (CaseRange (Label B) W) ->
      Label B -> Outline B W -> Prop
  | squeezed (path : List Bool) (C : CaseRange (Label B) W) :
      Emits UnreachableRanges path (some C.Low) (some C.High) [C] C.BB []
  | leaf (path : List Bool) (LowerBound UpperBound : Option (BitVec W))
      (C : CaseRange (Label B) W) :
      Emits UnreachableRanges path LowerBound UpperBound [C] (.LeafBlock path)
        [(.LeafBlock path, false, .condBr (leafComparison C) C.BB .NewDefault)]
  | node {path : List Bool} {LowerBound UpperBound : Option (BitVec W)}
      {initial RHS : List (CaseRange (Label B) W)} {Last Pivot : CaseRange (Label B) W}
      {NewUpperBound : BitVec W} {LBranch RBranch : Label B} {left right : Outline B W}
      (bound : NewUpperBound = Pivot.Low - 1 ∨ NewUpperBound = Last.High ∧
        IsInRanges ⟨int64 (Last.High.toInt + 1), int64 (Pivot.Low.toInt - 1)⟩ UnreachableRanges = true)
      (leftTree : Emits UnreachableRanges (path ++ [false]) LowerBound (some NewUpperBound)
        (initial ++ [Last]) LBranch left)
      (rightTree : Emits UnreachableRanges (path ++ [true]) (some Pivot.Low) UpperBound
        (Pivot :: RHS) RBranch right) :
      Emits UnreachableRanges path LowerBound UpperBound (initial ++ [Last] ++ Pivot :: RHS)
        (.NodeBlock path)
        ((.NodeBlock path, false, .condBr ⟨.ICMP_SLT, none, Pivot.Low⟩ LBranch RBranch) ::
          (right ++ left))

/-! ## Comparisons -/

variable {C : CaseRange (Label B) W}

/-- The comparison of a leaf is that the value is in the cluster. -/
theorem leafComparison_eval (nonempty : C.Low.toInt <= C.High.toInt)
    (Val : BitVec W) : (leafComparison C).eval Val = true ↔ C.toRange.Holds Val.toInt := by
  change _ ↔ C.Low.toInt <= Val.toInt ∧ Val.toInt <= C.High.toInt
  rw [leafComparison]
  by_cases one : C.Low = C.High
  · rw [if_pos one, ICmpInst.eval]
    change (Val == C.Low) = true ↔ _
    rw [beq_iff_eq, <- one]
    constructor
    · rintro rfl
      exact ⟨Int.le_refl _, Int.le_refl _⟩
    · rintro ⟨low, high⟩
      exact eq_of_toInt_eq (Int.le_antisymm high low)
  · rw [if_neg one]
    by_cases least : C.Low = intMin W
    · rw [if_pos least, ICmpInst.eval]
      change Val.sle C.High = true ↔ _
      rw [sle_eq_decide, decide_eq_true_eq, least]
      exact (and_iff_right (toInt_intMin_le Val)).symm
    · rw [if_neg least]
      by_cases zero : C.Low = 0
      · have dist := SignedRange.sub_le_sub_iff nonempty Val
        rw [zero, sub_zero, sub_zero] at dist
        rw [if_pos zero, ICmpInst.eval, zero]
        change Val.ule C.High = true ↔ _
        rw [ule_eq_decide, decide_eq_true_eq]
        exact dist
      · rw [if_neg zero, ICmpInst.eval]
        change (Val + -C.Low).ule (-C.Low + C.High) = true ↔ _
        rw [ule_eq_decide, decide_eq_true_eq, add_comm (-C.Low), <- sub_eq_add_neg,
            <- sub_eq_add_neg]
        exact SignedRange.sub_le_sub_iff nonempty Val

theorem le_newUpperBound {UnreachableRanges : List IntRange} {Last Pivot : CaseRange (Label B) W}
    (width : W <= 64) {NewUpperBound : BitVec W}
    (bound : NewUpperBound = Pivot.Low - 1 ∨ NewUpperBound = Last.High ∧
      IsInRanges ⟨int64 (Last.High.toInt + 1), int64 (Pivot.Low.toInt - 1)⟩ UnreachableRanges = true)
    (apart : Last.High.toInt < Pivot.Low.toInt) {Val : BitVec W}
    (reachable : ∀ R ∈ UnreachableRanges, ¬ R.Holds Val.toInt)
    (below : Val.toInt < Pivot.Low.toInt) : Val.toInt <= NewUpperBound.toInt := by
  have lastBounds := toInt_bounds width Last.High
  have pivotBounds := toInt_bounds width Pivot.Low
  rcases bound with rfl | ⟨rfl, covered⟩
  · rw [SignedRange.toInt_sub_one apart]
    omega
  · by_contra above
    rw [int64_of_bounds (by omega) (by omega), int64_of_bounds (by omega) (by omega)] at covered
    have inGap : (⟨Last.High.toInt + 1, Pivot.Low.toInt - 1⟩ : IntRange).Holds Val.toInt :=
      ⟨Int.not_le.mp above, Int.le_sub_one_of_lt below⟩
    rcases holds_of_isInRanges covered inGap with ⟨R, mem, holds⟩
    exact reachable R mem holds

/-! ## Control flow -/

theorem ranges_node (left RHS : List (CaseRange (Label B) W)) (Pivot : CaseRange (Label B) W) :
    ranges (left ++ Pivot :: RHS) = ranges left ++ Pivot.toRange :: ranges RHS := map_append

variable {UnreachableRanges : List IntRange} {path : List Bool}
  {LowerBound UpperBound : Option (BitVec W)} {Cases : List (CaseRange (Label B) W)}
  {entry : Label B} {blocks : Outline B W}

section

variable (emits : Emits UnreachableRanges path LowerBound UpperBound Cases entry blocks)
include emits

theorem Emits.leads [DecidableEq B] (width : W <= 64) (ordered : Ordered (ranges Cases))
    {F : Function (Label B) V W} (found : ∀ x ∈ blocks, ∃ block, F.block x.1 = some block ∧
    block.terminator = x.2.2) {Val : BitVec W} (reachable : ∀ R ∈ UnreachableRanges,
    ¬ R.Holds Val.toInt) (within : Within LowerBound UpperBound Val)
    {target : B} (inCluster : ∀ t, find (ranges Cases) Val.toInt = some t -> t = .block target)
    (otherwise : find (ranges Cases) Val.toInt = none -> Leads F Val .NewDefault target) :
    Leads F Val entry target := by
  induction emits with
  | squeezed path C =>
    have holds : C.toRange.Holds Val.toInt := ⟨within.lower _ rfl, within.upper _ rfl⟩
    have isTarget : C.BB = .block target := inCluster _ ((find_cons ..).trans (if_pos holds))
    rw [isTarget]
    exact Leads.arrive target
  | leaf path LowerBound UpperBound C =>
    have nonempty := ordered.nonempty C.toRange mem_cons_self
    rcases found _ mem_cons_self with ⟨block, isFound, terminator⟩
    have followed : block.terminator.follow Val =
        some (if (leafComparison C).eval Val then C.BB else .NewDefault) := by
      rw [terminator]
      rfl
    refine Leads.step (leafBlock_ne path) isFound followed ?_
    have split : find (ranges [C]) Val.toInt =
        if C.toRange.Holds Val.toInt then some C.BB else none := find_cons ..
    by_cases holds : C.toRange.Holds Val.toInt
    · rw [if_pos ((leafComparison_eval nonempty Val).mpr holds)]
      rw [if_pos holds] at split
      rw [inCluster _ split]
      exact Leads.arrive target
    · rw [if_neg (mt (leafComparison_eval nonempty Val).mp holds)]
      rw [if_neg holds] at split
      exact otherwise split
  | @node path LowerBound UpperBound initial RHS Last Pivot NewUpperBound LBranch RBranch left right
      bound leftTree rightTree leftHyp rightHyp =>
      rw [ranges_node] at ordered inCluster otherwise
      rcases ordered.append with ⟨leftOrdered, rightOrdered, across⟩
      rcases found _ mem_cons_self with ⟨block, isFound, terminator⟩
      have followed : block.terminator.follow Val =
          some (if Val.slt Pivot.Low then LBranch else RBranch) := by
        rw [terminator]
        rfl
      refine Leads.step (nodeBlock_ne path) isFound followed ?_
      rw [slt_eq_decide]
      by_cases below : Val.toInt < Pivot.Low.toInt
      · rw [decide_eq_true below, if_pos rfl]
        rw [ordered.find_left below] at inCluster otherwise
        have apart : Last.High.toInt < Pivot.Low.toInt :=
          across Last.toRange (List.mem_map_of_mem (mem_append_right _ mem_cons_self))
            Pivot.toRange mem_cons_self
        refine leftHyp leftOrdered (fun x mem => ?_) ⟨within.lower, ?_⟩ inCluster otherwise
        · exact found x (mem_cons_of_mem _ (mem_append_right _ mem))
        · intro upper same
          rw [<- Option.some.inj same]
          exact le_newUpperBound width bound apart reachable below
      · rw [decide_eq_false below, if_neg Bool.false_ne_true]
        rw [ordered.find_right (Int.not_lt.mp below)] at inCluster otherwise
        refine rightHyp rightOrdered (fun x mem => ?_) ⟨?_, within.upper⟩ inCluster otherwise
        · exact found x (mem_cons_of_mem _ (mem_append_left _ mem))
        · intro lower same
          rw [<- Option.some.inj same]
          exact Int.not_lt.mp below

/-! ## The created blocks -/

/-- The entry is a created block, or the single cluster is squeezed. -/
theorem Emits.entry_created :
    (∀ b, entry ≠ .block b) ∨
      ∃ C, Cases = [C] ∧ LowerBound = some C.Low ∧ UpperBound = some C.High := by
  cases emits with
  | squeezed C => exact .inr ⟨_, rfl, rfl, rfl⟩
  | leaf => exact .inl (leafBlock_ne path)
  | node => exact .inl (nodeBlock_ne path)

end

/-- The label is a node or a leaf at a place below a path. -/
def Below (path : List Bool) (BB : Label B) : Prop :=
  ∃ rest, BB = .NodeBlock (path ++ rest) ∨ BB = .LeafBlock (path ++ rest)

variable {BB : Label B}

theorem Below.of_append {step : List Bool} (below : Below (path ++ step) BB) : Below path BB := by
  rcases below with ⟨rest, same | same⟩
  · exact ⟨step ++ rest, .inl (by rw [same, append_assoc])⟩
  · exact ⟨step ++ rest, .inr (by rw [same, append_assoc])⟩

theorem Below.ne_block (below : Below path BB) (b : B) : BB ≠ .block b := by
  rcases below with ⟨rest, rfl | rfl⟩
  · exact nodeBlock_ne _ b
  · exact leafBlock_ne _ b

theorem Below.ne_newDefault (below : Below path BB) : BB ≠ .NewDefault := by
  rintro rfl
  rcases below with ⟨rest, same | same⟩ <;> cases same

/-- The two halves have different labels. -/
theorem Below.disjoint (left : Below (path ++ [false]) BB)
    (right : Below (path ++ [true]) BB) : False := by
  rcases left with ⟨rest, rfl | rfl⟩ <;> rcases right with ⟨rest', same | same⟩ <;>
    simp at same

theorem Below.ne_node {step : Bool} : ¬ Below (path ++ [step]) (.NodeBlock path : Label B) := by
  rintro ⟨rest, same | same⟩ <;> simp at same

section

variable (emits : Emits UnreachableRanges path LowerBound UpperBound Cases entry blocks)
include emits

theorem Emits.labels : ∀ x ∈ blocks, Below path x.1 ∧ x.2.1 = false := by
  induction emits with
  | squeezed => exact fun _ mem => absurd mem not_mem_nil
  | leaf path =>
    intro x mem
    rw [mem_singleton.mp mem]
    exact ⟨⟨[], .inr (by rw [append_nil])⟩, rfl⟩
  | @node path _ _ _ _ _ _ _ _ _ _ _ _ _ _ leftHyp rightHyp =>
    intro x mem
    rcases mem_cons.mp mem with rfl | later
    · exact ⟨⟨[], .inl (by rw [append_nil])⟩, rfl⟩
    · rcases mem_append.mp later with inRight | inLeft
      · exact (rightHyp x inRight).imp_left Below.of_append
      · exact (leftHyp x inLeft).imp_left Below.of_append

theorem Emits.nodup : (blocks.map Prod.fst).Nodup := by
  induction emits with
  | squeezed => exact nodup_nil
  | leaf => exact nodup_singleton _
  | node bound leftTree rightTree leftHyp rightHyp =>
    rw [List.map_cons, map_append, nodup_cons, nodup_append]
    refine ⟨?_, rightHyp, leftHyp, ?_⟩
    · rw [mem_append, List.mem_map, List.mem_map]
      rintro (⟨x, mem, same⟩ | ⟨x, mem, same⟩)
      · exact Below.ne_node (same ▸ (rightTree.labels x mem).1)
      · exact Below.ne_node (same ▸ (leftTree.labels x mem).1)
    · intro l inRight l' inLeft same
      rcases List.mem_map.mp inRight with ⟨x, mem, rfl⟩
      rcases List.mem_map.mp inLeft with ⟨x', mem', rfl⟩
      exact Below.disjoint (leftTree.labels x' mem').1 (same ▸ (rightTree.labels x mem).1)

end

theorem exists_mem_append {α : Type} {p : α -> Prop} {l l' : List α} :
    (∃ x ∈ l ++ l', p x) ↔ (∃ x ∈ l, p x) ∨ ∃ x ∈ l', p x := by
  simp only [mem_append, or_and_right, exists_or]

/-- The targets in the tree are the targets of the clusters. -/
theorem Emits.targets (emits : Emits UnreachableRanges path LowerBound UpperBound Cases entry blocks)
    (BB : B) :
    ((∃ x ∈ blocks, .block BB ∈ x.2.2.successors) ∨ entry = .block BB) ↔
      ∃ C ∈ Cases, C.BB = .block BB := by
  induction emits with
  | squeezed path C => simp
  | leaf path LowerBound UpperBound C => simp [Terminator.successors, eq_comm]
  | @node path _ _ _ _ _ _ _ LBranch RBranch _ _ _ _ _ leftHyp rightHyp =>
    rw [exists_mem_append, <- leftHyp, <- rightHyp, exists_mem_cons_iff, exists_mem_append]
    have node : (.block BB : Label B) ∈ [LBranch, RBranch] ↔ LBranch = .block BB ∨ RBranch = .block BB := by
      rw [mem_pair]
      exact or_congr eq_comm eq_comm
    rw [or_iff_left (nodeBlock_ne path BB)]
    refine (or_congr_left node).trans ?_
    exact ((or_congr_right or_comm).trans or_or_or_comm).trans (or_congr or_comm or_comm)

/-! ## Conversion -/

section Conversion

variable [DecidableEq B]

/-- The upper bound of the left half. -/
def newUpperBound (UnreachableRanges : List IntRange) (Last Pivot : CaseRange (Label B) W) :
    BitVec W :=
  let Gap : IntRange := ⟨int64 (Last.High.toInt + 1), int64 (Pivot.Low.toInt - 1)⟩
  if !UnreachableRanges.isEmpty && decide (Gap.High >= Gap.Low) && IsInRanges Gap UnreachableRanges
  then Last.High else Pivot.Low - 1

omit [DecidableEq B] in
theorem newUpperBound_cases (UnreachableRanges : List IntRange) (Last Pivot : CaseRange (Label B) W) :
    newUpperBound UnreachableRanges Last Pivot = Pivot.Low - 1 ∨
      newUpperBound UnreachableRanges Last Pivot = Last.High ∧
        IsInRanges ⟨int64 (Last.High.toInt + 1), int64 (Pivot.Low.toInt - 1)⟩ UnreachableRanges =
          true := by
  rw [newUpperBound]
  split
  · rename_i covered
    exact .inr ⟨rfl, (Bool.and_eq_true_iff.mp covered).2⟩
  · exact .inl rfl

omit [DecidableEq B] in
/-- At least two clusters have two halves. -/
theorem exists_halves {Cases : List (CaseRange (Label B) W)} (two : 2 <= Cases.length) :
    ∃ initial Last Pivot RHS, Cases = initial ++ [Last] ++ Pivot :: RHS ∧
      (initial ++ [Last]).length = Cases.length / 2 := by
  have halfLt : Cases.length / 2 < Cases.length := by omega
  have leftNonempty : Cases.take (Cases.length / 2) ≠ [] := by
    rw [Ne, take_eq_nil_iff]
    rintro (zero | rfl)
    · omega
    · exact absurd two (Nat.not_succ_le_zero 1)
  rcases eq_nil_or_concat (Cases.take (Cases.length / 2)) with empty | ⟨initial, Last, split⟩
  · exact absurd empty leftNonempty
  · refine ⟨initial, Last, Cases[Cases.length / 2], Cases.drop (Cases.length / 2 + 1), ?_, ?_⟩
    · rw [<- concat_eq_append, <- split, getElem_cons_drop, take_append_drop]
    · rw [<- concat_eq_append, <- split, length_take]
      omega

theorem switchConvert_single (OrigBlock Default : Label B) (UnreachableRanges : List IntRange)
    (path : List Bool) (LowerBound UpperBound : Option (BitVec W)) (Predecessor : Label B)
    (C : CaseRange (Label B) W) (F : Function (Label B) V W) :
    switchConvert OrigBlock Default UnreachableRanges path LowerBound UpperBound Predecessor [C] F =
      if LowerBound = some C.Low ∧ UpperBound = some C.High then
        (fixPhis F C.BB OrigBlock Predecessor ((C.High.toInt - C.Low.toInt) % 2 ^ 32).toNat).bind
          fun F => some (C.BB, F)
      else newLeafBlock path OrigBlock Default C F := by
  rw [switchConvert]
  rfl

theorem switchConvert_node {initial RHS : List (CaseRange (Label B) W)} {Last Pivot : CaseRange
    (Label B) W} (half : (initial ++ [Last]).length = (initial ++ [Last] ++ Pivot :: RHS).length /
    2) (OrigBlock Default : Label B) (UnreachableRanges : List IntRange) (path : List Bool)
    (LowerBound UpperBound : Option (BitVec W)) (Predecessor : Label B) (F : Function (Label B) V W)
    :
    switchConvert OrigBlock Default UnreachableRanges path LowerBound UpperBound Predecessor
        (initial ++ [Last] ++ Pivot :: RHS) F =
      (switchConvert OrigBlock Default UnreachableRanges (path ++ [false]) LowerBound
        (some (newUpperBound UnreachableRanges Last Pivot)) (.NodeBlock path)
        (initial ++ [Last]) F).bind fun left =>
      (switchConvert OrigBlock Default UnreachableRanges (path ++ [true]) (some Pivot.Low) UpperBound
        (.NodeBlock path) (Pivot :: RHS) left.2).bind fun right =>
      some (.NodeBlock path, right.2.insert (.NodeBlock path) true
        (.condBr ⟨.ICMP_SLT, none, Pivot.Low⟩ left.1 right.1)) := by
  have takeLeft : (initial ++ [Last] ++ Pivot :: RHS).take (initial ++ [Last]).length =
      initial ++ [Last] := take_left
  have dropLeft : (initial ++ [Last] ++ Pivot :: RHS).drop (initial ++ [Last]).length =
      Pivot :: RHS := drop_left
  have getPivot : (initial ++ [Last] ++ Pivot :: RHS)[(initial ++ [Last]).length]? = some Pivot := by
    rw [getElem?_append_right (le_refl _), Nat.sub_self]
    rfl
  obtain ⟨first, second, rest, shape⟩ : ∃ first second rest,
      initial ++ [Last] ++ Pivot :: RHS = first :: second :: rest := by
    cases initial with
    | nil => exact ⟨Last, Pivot, RHS, rfl⟩
    | cons a initial =>
      cases initial with
      | nil => exact ⟨a, Last, Pivot :: RHS, rfl⟩
      | cons b initial => exact ⟨a, b, _, rfl⟩
  rw [shape] at half takeLeft dropLeft getPivot ⊢
  rw [switchConvert]
  simp only [<- half, takeLeft, dropLeft, getPivot, getLast?_concat]
  rfl

/-- The entries from the original block are taken for the cases, and given to the
edges of the created blocks and of the predecessor. -/
def Balance (OrigBlock Predecessor : Label B) (Cases : List (CaseRange (Label B) W))
    (entry : Label B) (blocks : Outline B W) (c c' : Label B -> Label B -> Nat) : Prop :=
  ∀ b P, c' (.block b) P + (if P = OrigBlock then sizeTo (.block b) (ranges Cases) else 0) =
    c (.block b) P + edgesOf blocks P (.block b) +
      (if P = Predecessor ∧ entry = .block b then 1 else 0)

omit [DecidableEq B] in
/-- The number of cases in a cluster but one. -/
theorem size_sub_one (nonempty : C.Low.toInt <= C.High.toInt) {n : Int}
    (small : (C.toRange.size : Int) <= n) :
    ((C.High.toInt - C.Low.toInt) % n).toNat + 1 = C.toRange.size := by
  have size : C.toRange.size = (C.High.toInt + 1 - C.Low.toInt).toNat := rfl
  rw [Int.emod_eq_of_lt (by omega) (by omega), size]
  omega

theorem edgesOf_condBr (BB : Label B) (hasPHIs : Bool) (Comp : ICmpInst W) (ifTrue ifFalse : Label B)
    (rest : Outline B W) (P l : Label B) :
    edgesOf ((BB, hasPHIs, .condBr Comp ifTrue ifFalse) :: rest) P l =
      (if P = BB ∧ ifTrue = l then 1 else 0) + (if P = BB ∧ ifFalse = l then 1 else 0) +
        edgesOf rest P l := by
  rw [edgesOf_cons]
  refine congrArg (· + _) ?_
  change (if BB = P then ([ifTrue, ifFalse] : List (Label B)).count l else 0) = _
  rw [count_cons, count_cons, count_nil]
  by_cases same : BB = P
  · simp only [same, if_true, true_and, beq_iff_eq]
    omega
  · simp only [same, Ne.symm same, if_false, false_and]

theorem sizeTo_single (t : Label B) (C : CaseRange (Label B) W) :
    sizeTo t (ranges [C]) = if C.BB = t then C.toRange.size else 0 := sizeTo_cons ..

section Single

variable {OrigBlock : Label B} {F : Function (Label B) V W} {c : Label B -> Label B -> Nat}
  {C : CaseRange (Label B) W} (nonempty : C.Low.toInt <= C.High.toInt)
  (small : C.toRange.size <= 2 ^ 32) (counts : F.Counts c)
      (enough : C.toRange.size <= c C.BB OrigBlock)

include nonempty small counts enough

/-- The entries for a squeezed cluster. -/
theorem fixPhis_cluster (Predecessor : Label B) :
    ∃ F', fixPhis F C.BB OrigBlock Predecessor ((C.High.toInt - C.Low.toInt) % 2 ^ 32).toNat = some F' ∧
      F'.outline = F.outline ∧ F'.Counts (moved c C.BB OrigBlock C.toRange.size Predecessor) := by
  have size := size_sub_one nonempty (n := 2 ^ 32) (by exact_mod_cast small)
  rw [<- size]
  exact fixPhis_spec counts C.BB Predecessor (by omega)

theorem newLeafBlock_spec (path : List Bool) (Default : Label B) :
    ∃ F', newLeafBlock path OrigBlock Default C F = some (.LeafBlock path, F') ∧
      F'.outline =
          (.LeafBlock path, false, .condBr (leafComparison C) C.BB Default) :: F.outline ∧
        F'.Counts (moved c C.BB OrigBlock C.toRange.size (.LeafBlock path)) := by
  have size := size_sub_one nonempty (n := 2 ^ 64) (by
    have wide : C.toRange.size <= 2 ^ 64 := small.trans (by decide)
    exact_mod_cast wide)
  have most : ((C.High.toInt - C.Low.toInt) % 2 ^ 64).toNat < c C.BB OrigBlock := by omega
  rcases condenseEntries_spec (counts.insert (.LeafBlock path) true
    (.condBr (leafComparison C) C.BB Default)) C.BB (.LeafBlock path) most with
    ⟨F', result, outline, counts'⟩
  rw [size] at counts'
  refine ⟨F', ?_, outline, counts'⟩
  rw [newLeafBlock]
  exact congrArg (Option.bind · fun F => some (Label.LeafBlock path, F)) result

end Single

/-- A tree of one cluster. -/
theorem balance_single {OrigBlock : Label B} {c : Label B -> Label B -> Nat} (enough :
    C.toRange.size <= c C.BB OrigBlock) {Predecessor NewBlock entry : Label B} {blocks : Outline B
    W} (edge : ∀ b P, edgesOf blocks P (.block b) + (if P = Predecessor ∧ entry = .block b then 1
    else 0) = if .block b = C.BB ∧ P = NewBlock then 1 else 0) :
    Balance OrigBlock Predecessor [C] entry blocks c
      (moved c C.BB OrigBlock C.toRange.size NewBlock) := by
  intro b P
  have total := moved_add enough NewBlock (.block b) P
  have taken : (if P = OrigBlock then sizeTo (.block b) (ranges [C]) else 0) =
      if .block b = C.BB ∧ P = OrigBlock then C.toRange.size else 0 := by
    rw [sizeTo_single, <- ite_and]
    exact if_congr (and_comm.trans (and_congr_left' eq_comm)) rfl rfl
  rw [add_assoc, edge, <- total, taken]

/-- A node above two trees. -/
theorem Balance.node {OrigBlock Predecessor NewNode LBranch RBranch : Label B} {Comp : ICmpInst W}
    {left RHS : List (CaseRange (Label B) W)} {Pivot : CaseRange (Label B) W} {leftBlocks
    rightBlocks : Outline B W} {c c₁ c₂ : Label B -> Label B -> Nat} (leftBalance : Balance
    OrigBlock NewNode left LBranch leftBlocks c c₁) (rightBalance : Balance OrigBlock NewNode (Pivot
    :: RHS) RBranch rightBlocks c₁ c₂) (created : ∀ b, NewNode ≠ .block b) :
    Balance OrigBlock Predecessor (left ++ Pivot :: RHS) NewNode
      ((NewNode, false, .condBr Comp LBranch RBranch) :: (rightBlocks ++ leftBlocks)) c c₂ := by
  intro b P
  have first := leftBalance b P
  have second := rightBalance b P
  have sizes : (if P = OrigBlock then sizeTo (.block b) (ranges (left ++ Pivot :: RHS)) else 0) =
      (if P = OrigBlock then sizeTo (.block b) (ranges left) else 0) +
        if P = OrigBlock then sizeTo (.block b) (ranges (Pivot :: RHS)) else 0 := by
    rw [ranges_node, sizeTo_append]
    split <;> rfl
  have noEntry : ¬ (P = Predecessor ∧ NewNode = .block b) := fun both => created b both.2
  rw [edgesOf_condBr, edgesOf_append, sizes, if_neg noEntry]
  omega

/-- The conversion does not fail, creates the tree, and balances the entries. -/
theorem switchConvert_spec {OrigBlock : Label B} (UnreachableRanges : List IntRange)
    {Cases : List (CaseRange (Label B) W)} (nonempty : Cases ≠ []) (ordered : Ordered (ranges Cases))
    (small : ∀ C ∈ Cases, C.toRange.size <= 2 ^ 32) (isBlock : ∀ C ∈ Cases, ∃ b, C.BB = .block b)
    (path : List Bool) (LowerBound UpperBound : Option (BitVec W)) (Predecessor : Label B)
    {F : Function (Label B) V W} {c : Label B -> Label B -> Nat} (counts : F.Counts c)
    (enough : ∀ b, sizeTo (.block b) (ranges Cases) <= c (.block b) OrigBlock) :
    ∃ entry blocks F' c',
      switchConvert OrigBlock .NewDefault UnreachableRanges path LowerBound UpperBound Predecessor
          Cases F = some (entry, F') ∧
        Emits UnreachableRanges path LowerBound UpperBound Cases entry blocks ∧
        F'.outline = blocks ++ F.outline ∧ F'.Counts c' ∧
        Balance OrigBlock Predecessor Cases entry blocks c c' := by
  induction length : Cases.length using Nat.strong_induction_on
    generalizing Cases path LowerBound UpperBound Predecessor F c with
  | h n ih =>
  by_cases two : 2 <= Cases.length
  · rcases exists_halves two with ⟨initial, Last, Pivot, RHS, rfl, half⟩
    rw [ranges_node] at ordered enough
    rcases ordered.append with ⟨leftOrdered, rightOrdered, _⟩
    have lengths : (initial ++ [Last] ++ Pivot :: RHS).length =
        (initial ++ [Last]).length + (Pivot :: RHS).length := length_append
    have leftNonempty : initial ++ [Last] ≠ [] := append_ne_nil_of_right_ne_nil _ (cons_ne_nil _ _)
    have leftPositive := length_pos_iff.mpr leftNonempty
    have leftEnough : ∀ b, sizeTo (.block b) (ranges (initial ++ [Last])) <=
        c (.block b) OrigBlock := by
      intro b
      have total := enough b
      rw [sizeTo_append] at total
      omega
    rcases ih _ (by omega) leftNonempty leftOrdered
      (fun C mem => small C (mem_append_left _ mem))
      (fun C mem => isBlock C (mem_append_left _ mem)) (path ++ [false]) LowerBound
      (some (newUpperBound UnreachableRanges Last Pivot)) (.NodeBlock path) counts leftEnough rfl with
      ⟨LBranch, left, F₁, c₁, leftResult, leftTree, leftOutline, leftCounts, leftBalance⟩
    have rightEnough : ∀ b, sizeTo (.block b) (ranges (Pivot :: RHS)) <=
        c₁ (.block b) OrigBlock := by
      intro b
      have total := enough b
      have balance := leftBalance b OrigBlock
      rw [if_pos rfl] at balance
      rw [sizeTo_append] at total
      change _ + sizeTo (.block b) (ranges (Pivot :: RHS)) <= _ at total
      omega
    rcases ih _ (by omega) (cons_ne_nil _ _)
      rightOrdered (fun C mem => small C (mem_append_right _ mem))
      (fun C mem => isBlock C (mem_append_right _ mem)) (path ++ [true]) (some Pivot.Low)
      UpperBound (.NodeBlock path) leftCounts rightEnough rfl with
      ⟨RBranch, right, F₂, c₂, rightResult, rightTree, rightOutline, rightCounts, rightBalance⟩
    refine ⟨.NodeBlock path, _, F₂.insert (.NodeBlock path) true
      (.condBr ⟨.ICMP_SLT, none, Pivot.Low⟩ LBranch RBranch), c₂, ?_, Emits.node (newUpperBound_cases ..) leftTree rightTree,
      ?_, rightCounts.insert _ _ _, ?_⟩
    · rw [switchConvert_node half, leftResult, Option.bind_some, rightResult, Option.bind_some]
    · rw [Function.insert_outline, rightOutline, leftOutline, cons_append, append_assoc]
    · exact leftBalance.node rightBalance (nodeBlock_ne path)
  · obtain ⟨C, rfl⟩ : ∃ C, Cases = [C] := by
      cases Cases with
      | nil => exact absurd rfl nonempty
      | cons C rest =>
        cases rest with
        | nil => exact ⟨C, rfl⟩
        | cons D rest => exact absurd (Nat.le_add_left 2 rest.length) two
    have nonemptyC : C.Low.toInt <= C.High.toInt := ordered.nonempty C.toRange mem_cons_self
    have smallC := small C mem_cons_self
    rcases isBlock C mem_cons_self with ⟨target, isTarget⟩
    have enoughC : C.toRange.size <= c C.BB OrigBlock := by
      have total := enough target
      rw [sizeTo_single, if_pos isTarget] at total
      rw [isTarget]
      exact total
    rw [switchConvert_single]
    by_cases squeezed : LowerBound = some C.Low ∧ UpperBound = some C.High
    · rw [if_pos squeezed]
      rcases fixPhis_cluster nonemptyC smallC counts enoughC Predecessor with
        ⟨F', result, outline, counts'⟩
      refine ⟨C.BB, [], F', _, by rw [result]; rfl, ?_, outline, counts',
        balance_single enoughC fun b P => ?_⟩
      · rw [squeezed.1, squeezed.2]
        exact Emits.squeezed path C
      · rw [edgesOf, map_nil, sum_nil, zero_add]
        exact if_congr (and_comm.trans (and_congr_left' eq_comm)) rfl rfl
    · rw [if_neg squeezed]
      rcases newLeafBlock_spec nonemptyC smallC counts enoughC path .NewDefault with
        ⟨F', result, outline, counts'⟩
      refine ⟨_, _, F', _, result, Emits.leaf path LowerBound UpperBound C, outline, counts',
        balance_single enoughC fun b P => ?_⟩
      have noEntry : ¬ (P = Predecessor ∧ (.LeafBlock path : Label B) = .block b) :=
        fun both => leafBlock_ne path b both.2
      have noDefault : ¬ (P = .LeafBlock path ∧ (.NewDefault : Label B) = .block b) :=
        fun both => newDefault_ne b both.2
      rw [edgesOf_condBr, if_neg noEntry, if_neg noDefault]
      exact if_congr (and_comm.trans (and_congr_left' eq_comm)) rfl rfl

end Conversion

end LowerSwitch
end LlvmProject
