import LlvmProject.Transforms.LowerSwitchTree

namespace LlvmProject

open List Option Prod Function

namespace LowerSwitch

/-!
# Processing a switch

The tree for the clusters that are left, with a new default block, takes the
place of the switch.  The outline of the function after it and the numbers of
entries are determined by the tree.
-/

open RangeMap

/-! ## Terminators -/

section Outlines

variable {L V : Type} {W : Nat} [DecidableEq L]

/-- The outline after a terminator is set. -/
def setOutline (BB : L) (terminator : Terminator L W) (outline : List (L × Bool × Terminator L W)) :
    List (L × Bool × Terminator L W) :=
  outline.map fun x => if x.1 = BB then (x.1, x.2.1, terminator) else x

theorem setOutline_labels (BB : L) (terminator : Terminator L W)
    (outline : List (L × Bool × Terminator L W)) :
    (setOutline BB terminator outline).map fst = outline.map fst := by
  rw [setOutline, List.map_map]
  refine map_congr_left fun x _ => ?_
  dsimp only [comp]
  split <;> rfl

/-- The edges from the block are the ones of its new terminator. -/
theorem edgesOf_setOutline (BB : L) (terminator : Terminator L W)
    (outline : List (L × Bool × Terminator L W)) (P l : L) :
    edgesOf (setOutline BB terminator outline) P l =
      if P = BB then (outline.map fst).count BB * terminator.successors.count l
      else edgesOf outline P l := by
  induction outline with
  | nil => rw [map_nil, count_nil, zero_mul]; split <;> rfl
  | cons x outline ih =>
    rw [setOutline] at ih ⊢
    rw [map_cons, edgesOf_cons, ih, edgesOf_cons, map_cons, count_cons]
    by_cases isP : P = BB
    · subst isP
      by_cases isX : x.1 = P
      · simp [isX, add_mul, add_comm]
      · simp [isX]
    · by_cases isX : x.1 = BB
      · simp [isX, isP, Ne.symm isP]
      · simp [isX, isP]

namespace Function

variable {F : Function L V W} {c : L -> L -> Nat}

theorem setTerminator_outline (F : Function L V W) (BB : L) (terminator : Terminator L W) :
    (F.setTerminator BB terminator).outline = setOutline BB terminator F.outline := by
  rw [outline, setTerminator, setOutline, outline, List.map_map, List.map_map]
  refine map_congr_left fun entry _ => ?_
  dsimp only [comp]
  split <;> rfl

theorem Counts.setTerminator (counts : F.Counts c) (BB : L) (terminator : Terminator L W) :
    (F.setTerminator BB terminator).Counts c := by
  intro entry mem
  rcases mem_map.mp mem with ⟨entry', inBlocks, rfl⟩
  split
  · exact counts entry' inBlocks
  · exact counts entry' inBlocks

theorem hasNoPredecessors_iff (F : Function L V W) (BB : L) :
    F.hasNoPredecessors BB = true ↔ ∀ x ∈ F.outline, BB ∉ x.2.2.successors := by
  rw [hasNoPredecessors, List.all_eq_true, outline, List.forall_mem_map]
  exact forall₂_congr fun _ _ => decide_eq_true_iff

theorem DeleteDeadBlock_spec (counts : F.Counts c) {BB : L} {hasPHIs : Bool}
    {terminator : Terminator L W} (nodup : (F.outline.map fst).Nodup)
    (mem : (BB, hasPHIs, terminator) ∈ F.outline) (noSuccessors : terminator.successors = []) :
    ∃ F', F.DeleteDeadBlock BB = some F' ∧
      F'.outline = F.outline.filter (fun x => decide (x.1 ≠ BB)) ∧ F'.Counts c := by
  rcases block_of_mem nodup mem with ⟨block, found, same⟩
  refine ⟨⟨F.blocks.filter fun entry => decide (entry.1 ≠ BB)⟩, ?_, ?_, ?_⟩
  · rw [DeleteDeadBlock, found]
    change (if block.terminator.successors.isEmpty then _ else _) = _
    rw [same, noSuccessors]
    rfl
  · rw [outline, outline, List.filter_map]
    rfl
  · exact fun entry remaining => counts entry (mem_of_mem_filter remaining)

end Function

theorem edgesOf_filter {outline : List (L × Bool × Terminator L W)} {BB : L}
    (noSuccessors : ∀ x ∈ outline, x.1 = BB -> x.2.2.successors = []) (P l : L) :
    edgesOf (outline.filter fun x => decide (x.1 ≠ BB)) P l = edgesOf outline P l := by
  induction outline with
  | nil => rfl
  | cons x outline ih =>
    have rest := ih fun x' mem => noSuccessors x' (mem_cons_of_mem x mem)
    by_cases same : x.1 = BB
    · rw [filter_cons_of_neg (by simp [same]), rest, edgesOf_cons,
        noSuccessors x mem_cons_self same]
      simp
    · rw [filter_cons_of_pos (by simp [same]), edgesOf_cons, edgesOf_cons, rest]

end Outlines

/-! ## The tree in place of the switch -/

section Lowering

variable {B V : Type} {W : Nat} [DecidableEq B]

/-- The outline with the tree in place of the switch. -/
def treeOutline (CurBlock Target : B) (entry : Label B) (blocks outline : Outline B W) : Outline B W :=
  setOutline (.block CurBlock) (.br entry)
    (blocks ++ (.NewDefault, false, .br (.block Target)) :: outline)

/-- The default block is removed if it has no more predecessors. -/
def removeDead (OldDefault : B) (outline : Outline B W) : Outline B W :=
  if ∀ x ∈ outline, .block OldDefault ∉ x.2.2.successors then
    outline.filter fun x => decide (x.1 ≠ .block OldDefault)
  else outline

variable {UnreachableRanges : List IntRange} {LowerBound UpperBound : Option (BitVec W)}
  {Cases : List (CaseRange (Label B) W)} {entry : Label B} {blocks outline : Outline B W}

theorem treeOutline_nodup {path : List Bool} (CurBlock Target : B)
    (emits : Emits UnreachableRanges path LowerBound UpperBound Cases entry blocks)
    (nodup : (outline.map fst).Nodup) (labels : ∀ x ∈ outline, ∃ b, x.1 = .block b) :
    ((treeOutline CurBlock Target entry blocks outline).map fst).Nodup := by
  rw [treeOutline, setOutline_labels, map_append, map_cons, nodup_append, nodup_cons]
  refine ⟨emits.nodup, ⟨?_, nodup⟩, ?_⟩
  · rw [List.mem_map]
    rintro ⟨x, mem, same⟩
    rcases labels x mem with ⟨b, isBlock⟩
    exact newDefault_ne b (same.symm.trans isBlock)
  · intro l inBlocks l' inRest same
    rcases mem_map.mp inBlocks with ⟨x, mem, rfl⟩
    have created := (emits.labels x mem).1
    rcases mem_cons.mp inRest with isDefault | old
    · exact created.ne_newDefault (same.trans isDefault)
    · rcases mem_map.mp old with ⟨x', mem', rfl⟩
      rcases labels x' mem' with ⟨b, isBlock⟩
      exact created.ne_block b (same.trans isBlock)

theorem lowerCases_spec {F : Function (Label B) V W} {c : Label B -> Label B -> Nat} (counts :
    F.Counts c) (nodup : (F.outline.map fst).Nodup) (labels : ∀ x ∈ F.outline, ∃ b, x.1 =
    .block b) {CurBlock OldDefault Target : B}
    (dead : OldDefault ≠ Target -> OldDefault ≠ CurBlock ∧
    ∃ hasPHIs terminator, (.block OldDefault, hasPHIs, terminator) ∈ F.outline ∧
    terminator.successors = []) (nonempty : Cases ≠ []) (ordered : Ordered (ranges Cases)) (small :
    ∀ C ∈ Cases, C.toRange.size <= 2 ^ 32)
    (isBlock : ∀ C ∈ Cases, ∃ b, C.BB = .block b) (notSqueezed
    : ∀ C, Cases = [C] -> ¬ (LowerBound = some C.Low ∧ UpperBound = some C.High)) (enough : ∀ b,
    sizeTo (.block b) (ranges Cases) + (if b = Target then 1 else 0) <= c (.block b) (.block
    CurBlock)) :
    ∃ entry blocks F' c',
      lowerCases (.block CurBlock) (.block OldDefault) (.block Target) LowerBound UpperBound
          UnreachableRanges Cases F = some F' ∧
        Emits UnreachableRanges [] LowerBound UpperBound Cases entry blocks ∧
        (∀ b, entry ≠ .block b) ∧
        F'.outline = removeDead OldDefault (treeOutline CurBlock Target entry blocks F.outline) ∧
        F'.Counts c' ∧
        ∀ b P, c' (.block b) P + (if P = Label.block CurBlock then
              sizeTo (.block b) (ranges Cases) + (if b = Target then 1 else 0) else 0) =
            c (.block b) P + edgesOf blocks P (.block b) +
              (if b = Target ∧ P = Label.NewDefault then 1 else 0) := by
  have targetEnough : 0 < c (.block Target) (.block CurBlock) := by
    have total := enough Target
    rw [if_pos rfl] at total
    omega
  rcases setIncomingBlocks_spec (counts.insert .NewDefault false (.br (.block Target)))
    (.block Target) .NewDefault targetEnough with ⟨F₁, setResult, setOutlines, setCounts⟩
  have one : 1 <= c (.block Target) (.block CurBlock) := targetEnough
  have setBalance := moved_add one Label.NewDefault
  have casesEnough : ∀ b, sizeTo (.block b) (ranges Cases) <=
      moved c (.block Target) (.block CurBlock) 1 .NewDefault (.block b) (.block CurBlock) := by
    intro b
    have total := enough b
    have balance := setBalance (.block b) (.block CurBlock)
    simp only [Label.block.injEq, and_true] at balance
    omega
  rcases switchConvert_spec UnreachableRanges nonempty ordered small isBlock [] LowerBound UpperBound
    (.block CurBlock) setCounts casesEnough with
    ⟨entry, blocks, F₂, c', result, emits, outlines, counts', balance⟩
  have created : ∀ b, entry ≠ .block b := by
    rcases emits.entry_created with created | ⟨C, single, bounds⟩
    · exact created
    · exact absurd bounds (notSqueezed C single)
  have treeOutlines : (F₂.setTerminator (.block CurBlock) (.br entry)).outline =
      treeOutline CurBlock Target entry blocks F.outline := by
    rw [Function.setTerminator_outline, outlines, setOutlines, Function.insert_outline]
    rfl
  have entryBalance : ∀ b P, c' (.block b) P + (if P = Label.block CurBlock then
        sizeTo (.block b) (ranges Cases) + (if b = Target then 1 else 0) else 0) =
      c (.block b) P + edgesOf blocks P (.block b) +
        (if b = Target ∧ P = Label.NewDefault then 1 else 0) := by
    intro b P
    have first := setBalance (.block b) P
    have second := balance b P
    have noEntry : ¬ (P = Label.block CurBlock ∧ entry = .block b) := fun both => created b both.2
    rw [if_neg noEntry] at second
    simp only [Label.block.injEq] at first
    by_cases isCur : P = .block CurBlock
    · have notDefault : P ≠ .NewDefault := fun same =>
        newDefault_ne CurBlock (same.symm.trans isCur)
      simp only [isCur, if_true, and_true, reduceCtorEq, and_false, if_false] at first second ⊢
      omega
    · simp only [isCur, if_false, and_false] at first second ⊢
      omega
  have lowered : lowerCases (.block CurBlock) (.block OldDefault) (.block Target) LowerBound UpperBound
      UnreachableRanges Cases F =
      if (F₂.setTerminator (.block CurBlock) (.br entry)).hasNoPredecessors (.block OldDefault) then
        (F₂.setTerminator (.block CurBlock) (.br entry)).DeleteDeadBlock (.block OldDefault)
      else some (F₂.setTerminator (.block CurBlock) (.br entry)) := by
    rw [lowerCases, setResult, bind_eq_bind, bind_some, result]
    rfl
  have predecessors := Function.hasNoPredecessors_iff
    (F₂.setTerminator (.block CurBlock) (.br entry)) (.block OldDefault)
  rw [treeOutlines] at predecessors
  by_cases noPredecessors : ∀ x ∈ treeOutline CurBlock Target entry blocks F.outline,
      .block OldDefault ∉ x.2.2.successors
  · have notTarget : OldDefault ≠ Target := by
      rintro rfl
      have mem : (Label.NewDefault, false, Terminator.br (.block OldDefault)) ∈
          treeOutline CurBlock OldDefault entry blocks F.outline :=
        mem_map.mpr ⟨_, mem_append_right _ mem_cons_self, if_neg (newDefault_ne CurBlock)⟩
      exact noPredecessors _ mem mem_cons_self
    rcases dead notTarget with ⟨notCur, hasPHIs, terminator, mem, noSuccessors⟩
    have remains : (Label.block OldDefault, hasPHIs, terminator) ∈
        (F₂.setTerminator (.block CurBlock) (.br entry)).outline := by
      rw [treeOutlines]
      refine mem_map.mpr
        ⟨_, mem_append_right _ (mem_cons_of_mem _ mem), if_neg fun same => notCur ?_⟩
      exact Label.block.inj same
    rcases Function.DeleteDeadBlock_spec (counts'.setTerminator _ _)
      (treeOutlines ▸ treeOutline_nodup CurBlock Target emits nodup labels) remains noSuccessors with
      ⟨F', deleted, deletedOutline, deletedCounts⟩
    refine ⟨entry, blocks, F', c', lowered.trans ((if_pos (predecessors.mpr noPredecessors)).trans
      deleted), emits, created, ?_, deletedCounts, entryBalance⟩
    rw [deletedOutline, removeDead, if_pos noPredecessors, treeOutlines]
  · refine ⟨entry, blocks, _, c', lowered.trans (if_neg (mt predecessors.mp noPredecessors)), emits,
      created, ?_, counts'.setTerminator _ _, entryBalance⟩
    rw [removeDead, if_neg noPredecessors, treeOutlines]

end Lowering

/-! ## The function with labels -/

section Labels

variable {B V : Type} {W : Nat}

theorem successors_map {L L' : Type} (f : L -> L') (terminator : Terminator L W) :
    (terminator.map f).successors = terminator.successors.map f := by
  cases terminator with
  | switch SI =>
    change f SI.defaultDest :: (SI.cases.map fun c => (c.1, f c.2)).map snd = _
    rw [List.map_map]
    change _ = f SI.defaultDest :: (SI.cases.map snd).map f
    rw [List.map_map]
    rfl
  | br dest => rfl
  | condBr Comp ifTrue ifFalse => rfl
  | unreachable => rfl
  | other successors => rfl

theorem isUnreachable_successors {L : Type} {terminator : Terminator L W}
    (isUnreachable : terminator.isUnreachable = true) : terminator.successors = [] := by
  cases terminator with
  | unreachable => rfl
  | _ => cases isUnreachable

theorem startsUnreachable_map {L L' : Type} (f : L -> L') (block : Block L V W) :
    (block.map f).startsUnreachable = block.startsUnreachable := by
  cases block with
  | mk PHIs hasInstructions terminator => cases terminator <;> rfl

theorem map_outline (F : Function B V W) :
    (F.map Label.block).outline =
      F.outline.map fun x => (Label.block x.1, x.2.1, x.2.2.map Label.block) := by
  rw [Function.outline, Function.map, Function.outline, List.map_map, List.map_map]
  refine map_congr_left fun entry _ => ?_
  dsimp only [comp, Block.map]
  rw [isEmpty_map]

variable {F : Function B V W}

theorem mem_map_outline {BB : B} {block : Block B V W} (mem : (BB, block) ∈ F.blocks) :
    (.block BB, !block.PHIs.isEmpty, block.terminator.map Label.block) ∈
      (F.map Label.block).outline := by
  rw [map_outline]
  exact mem_map.mpr ⟨_, mem_map_of_mem mem, rfl⟩

theorem map_outline_labels (F : Function B V W) :
    ∀ x ∈ (F.map Label.block).outline, ∃ b, x.1 = .block b := by
  intro x mem
  rw [map_outline] at mem
  rcases mem_map.mp mem with ⟨x', _, rfl⟩
  exact ⟨x'.1, rfl⟩

variable [DecidableEq B]

omit [DecidableEq B] in
theorem map_outline_nodup (nodup : (F.blocks.map fst).Nodup) :
    ((F.map Label.block).outline.map fst).Nodup := by
  rw [Function.outline, Function.map, List.map_map, List.map_map]
  have labels : (F.blocks.map fun entry => Label.block entry.1) =
      (F.blocks.map fst).map Label.block := by
    rw [List.map_map]
    rfl
  exact labels ▸ nodup.map fun _ _ => Label.block.inj

theorem edgesOf_map (outline : List (B × Bool × Terminator B W)) (P b : B) :
    edgesOf (outline.map fun x => (Label.block x.1, x.2.1, x.2.2.map Label.block)) (.block P)
      (.block b) = edgesOf outline P b := by
  rw [edgesOf, edgesOf, List.map_map]
  refine congrArg List.sum (map_congr_left fun x _ => ?_)
  dsimp only [comp]
  rw [successors_map, count_map_of_injective _ _ fun _ _ => Label.block.inj]
  exact if_congr ⟨Label.block.inj, congrArg _⟩ rfl rfl

theorem edgesOf_created {outline : Outline B W} (labels : ∀ x ∈ outline, ∃ b, x.1 = .block b)
    {P : Label B} (created : ∀ b, P ≠ .block b) (l : Label B) : edgesOf outline P l = 0 := by
  rw [edgesOf, sum_eq_zero]
  intro n mem
  rcases mem_map.mp mem with ⟨x, inOutline, rfl⟩
  rcases labels x inOutline with ⟨b, isBlock⟩
  exact if_neg fun same => created b (same.symm.trans isBlock)

theorem entries_map (PN : List (B × V)) (P : B) :
    entries (PN.map fun incoming => (Label.block incoming.1, incoming.2)) (.block P) =
      entries PN P := by
  rw [entries, entries, countP_map]
  refine countP_congr fun incoming _ => ?_
  rw [comp, decide_eq_true_eq, decide_eq_true_eq]
  exact ⟨Label.block.inj, congrArg _⟩

theorem counts_edges (consistent : F.Consistent) :
    (F.map Label.block).Counts fun l P => edgesOf (F.map Label.block).outline P l := by
  intro entry inBlocks PN isNode P
  rcases mem_map.mp inBlocks with ⟨entry', inBlocks', rfl⟩
  rcases mem_map.mp isNode with ⟨PN', isNode', rfl⟩
  have noEntries : (∀ b, P ≠ .block b) ->
      entries (PN'.map fun incoming => (Label.block incoming.1, incoming.2)) P = 0 := by
    intro created
    rw [entries, countP_eq_zero]
    intro incoming mem
    rcases mem_map.mp mem with ⟨incoming', _, rfl⟩
    rw [decide_eq_true_eq]
    exact Ne.symm (created _)
  change entries _ P = edgesOf (F.map Label.block).outline P (.block entry'.1)
  by_cases created : ∀ b, P ≠ .block b
  · rw [noEntries created, edgesOf_created (map_outline_labels F) created]
  · rcases not_forall_not.mp created with ⟨b, rfl⟩
    rw [entries_map, map_outline, edgesOf_map, <- Function.edges_eq]
    exact consistent entry' inBlocks' PN' isNode' b

theorem map_block (nodup : (F.blocks.map fst).Nodup) {BB : B}
    {block : Block B V W} (mem : (BB, block) ∈ F.blocks) :
    (F.map Label.block).block (.block BB) = some (block.map Label.block) := by
  have distinct : ((F.map Label.block).blocks.map fun e => e.1).Nodup := by
    have nodup' := map_outline_nodup nodup
    rwa [Function.outline, List.map_map] at nodup'
  have inMap : (Label.block BB, block.map Label.block) ∈ (F.map Label.block).blocks :=
    mem_map.mpr ⟨_, mem, rfl⟩
  rw [Function.block, find_label distinct inMap]
  rfl

end Labels

/-! ## Branches of the pass -/

section Process

variable {B V : Type} {W : Nat} [DecidableEq B] {F : Function B V W} {CurBlock : B}
  {block default : Block B V W} {SI : SwitchInst B W}

/-- The clusters of the switch with labels. -/
def clusters (SI : SwitchInst B W) : List (CaseRange (Label B) W) := (Clusterify (SI.map Label.block)).1

/-- A branch in place of the switch. -/
def branchTo (F : Function B V W) (CurBlock Target : B) : Function (Label B) V W :=
  (F.map Label.block).setTerminator (.block CurBlock) (.br (.block Target))

variable (nodup : (F.blocks.map fst).Nodup) (mem : (CurBlock, block) ∈ F.blocks)
  (isSwitch : block.terminator = .switch SI) (defaultMember : (SI.defaultDest, default) ∈ F.blocks)

include nodup mem isSwitch

theorem processSwitchInst_empty (empty : SI.cases = []) :
    processSwitchInst F CurBlock = some (branchTo F CurBlock SI.defaultDest) := by
  have terminator : (block.map Label.block).terminator = .switch (SI.map Label.block) :=
    congrArg (Terminator.map Label.block) isSwitch
  have isEmpty : (SI.map Label.block).cases.isEmpty = true := by
    rw [List.isEmpty_iff]
    exact map_eq_nil_iff.mpr empty
  rw [processSwitchInst, map_block nodup mem]
  simp only [bind_eq_bind, bind_some, terminator, isEmpty, if_true]
  rfl

include defaultMember

theorem processSwitchInst_reachable (cases : SI.cases ≠ [])
    (reachable : default.startsUnreachable = false) :
    processSwitchInst F CurBlock = lowerCases (.block CurBlock) (.block SI.defaultDest)
      (.block SI.defaultDest) none none [] (clusters SI) (F.map Label.block) := by
  have terminator : (block.map Label.block).terminator = .switch (SI.map Label.block) :=
    congrArg (Terminator.map Label.block) isSwitch
  have notEmpty : (SI.map Label.block).cases.isEmpty = false := by
    rw [isEmpty_eq_false_iff]
    exact mt map_eq_nil_iff.mp cases
  have reachable' : (default.map Label.block).startsUnreachable = false :=
    (startsUnreachable_map Label.block default).trans reachable
  rw [processSwitchInst, map_block nodup mem]
  simp only [bind_eq_bind, bind_some, terminator, notEmpty, Bool.false_eq_true, if_false]
  change (Option.bind ((F.map Label.block).block (.block SI.defaultDest)) _) = _
  rw [map_block nodup defaultMember]
  simp only [bind_some, reachable', Bool.false_eq_true, if_false]
  rfl

theorem processSwitchInst_unreachable (cases : SI.cases ≠ []) (unreachable :
    default.startsUnreachable = true) {Ranges : List IntRange} (ranges : unreachableRanges (clusters
    SI) = some Ranges) {P : B} (popular : popularSuccessor (clusters SI) = some (.block P)) :
    processSwitchInst F CurBlock =
      if ((clusters SI).filter fun I => decide (I.BB ≠ .block P)).isEmpty then
        some (branchTo F CurBlock P)
      else
        lowerCases (.block CurBlock) (.block SI.defaultDest) (.block P)
          ((clusters SI).head?.map CaseRange.Low) ((clusters SI).getLast?.map CaseRange.High) Ranges
          ((clusters SI).filter fun I => decide (I.BB ≠ .block P)) (F.map Label.block) := by
  have terminator : (block.map Label.block).terminator = .switch (SI.map Label.block) :=
    congrArg (Terminator.map Label.block) isSwitch
  have notEmpty : (SI.map Label.block).cases.isEmpty = false := by
    rw [isEmpty_eq_false_iff]
    exact mt map_eq_nil_iff.mp cases
  have unreachable' : (default.map Label.block).startsUnreachable = true :=
    (startsUnreachable_map Label.block default).trans unreachable
  rw [clusters] at ranges popular ⊢
  rw [processSwitchInst, map_block nodup mem]
  simp only [bind_eq_bind, bind_some, terminator, notEmpty, Bool.false_eq_true, if_false]
  change (Option.bind ((F.map Label.block).block (.block SI.defaultDest)) _) = _
  rw [map_block nodup defaultMember]
  simp only [bind_some, unreachable', if_true, ranges, popular]
  rfl

end Process

/-! ## The clusters of the switch -/

section ClusterFacts

variable {B : Type} {W : Nat} [DecidableEq B] {SI : SwitchInst B W}

/-- The number of cases of a successor. -/
def SwitchInst.casesTo (SI : SwitchInst B W) (b : B) : Nat := (SI.cases.map snd).count b

theorem clusters_ordered (SI : SwitchInst B W) : Ordered (ranges (clusters SI)) :=
  Clusterify_ordered (SI.map Label.block)

theorem find_clusters (SI : SwitchInst B W) (Val : BitVec W) {t : Label B} :
    find (ranges (clusters SI)) Val.toInt = some t ↔ ∃ b, t = .block b ∧ (Val, b) ∈ SI.cases := by
  rw [clusters, find_Clusterify]
  constructor
  · intro mem
    rcases mem_map.mp mem with ⟨c, inCases, same⟩
    cases same
    exact ⟨c.2, rfl, inCases⟩
  · rintro ⟨b, rfl, inCases⟩
    exact mem_map.mpr ⟨(Val, b), inCases, rfl⟩

theorem sizeTo_clusters (SI : SwitchInst B W) (b : B) :
    sizeTo (.block b) (ranges (clusters SI)) = SI.casesTo b := by
  rw [clusters, sizeTo_Clusterify]
  have successors : (SI.map Label.block).cases.map snd = (SI.cases.map snd).map Label.block := by
    rw [SwitchInst.map, List.map_map, List.map_map]
    rfl
  rw [successors, count_map_of_injective _ _ fun _ _ => Label.block.inj]
  rfl

variable {C : CaseRange (Label B) W}

theorem clusters_case (mem : C ∈ clusters SI) {Val : BitVec W}
    (holds : C.toRange.Holds Val.toInt) : ∃ b, C.BB = .block b ∧ (Val, b) ∈ SI.cases :=
  (find_clusters SI Val).mp ((clusters_ordered SI).find_eq_some_iff.mpr
    ⟨C.toRange, mem_map_of_mem mem, holds, rfl⟩)

theorem clusters_nonempty (mem : C ∈ clusters SI) :
    C.Low.toInt <= C.High.toInt :=
  (clusters_ordered SI).nonempty C.toRange (mem_map_of_mem mem)

theorem clusters_isBlock : ∀ C ∈ clusters SI, ∃ b, C.BB = .block b := by
  intro C mem
  rcases clusters_case mem ⟨Int.le_refl _, clusters_nonempty mem⟩ with ⟨b, isBlock, _⟩
  exact ⟨b, isBlock⟩

theorem exists_cluster {Val : BitVec W} {b : B} (mem : (Val, b) ∈ SI.cases) :
    ∃ C ∈ clusters SI, C.toRange.Holds Val.toInt ∧ C.BB = .block b := by
  have found := (find_clusters SI Val).mpr ⟨b, rfl, mem⟩
  rcases (clusters_ordered SI).find_eq_some_iff.mp found with ⟨r, inRanges, holds, target⟩
  rcases mem_map.mp inRanges with ⟨C, inClusters, rfl⟩
  exact ⟨C, inClusters, holds, target⟩

theorem casesTo_lt (SI : SwitchInst B W) (b : B) : SI.casesTo b < 2 ^ 31 := by
  have count : SI.casesTo b <= SI.cases.length := count_le_length.trans_eq (length_map _)
  have bound := SI.numOperands
  omega

theorem size_le_sizeTo {Cases : List (CaseRange (Label B) W)}
    (mem : C ∈ Cases) : C.toRange.size <= sizeTo C.BB (ranges Cases) := by
  induction Cases with
  | nil => exact absurd mem not_mem_nil
  | cons D Cases ih =>
    change _ <= sizeTo C.BB (D.toRange :: ranges Cases)
    rw [sizeTo_cons]
    rcases mem_cons.mp mem with rfl | later
    · have same : C.toRange.target = C.BB := rfl
      rw [if_pos same]
      exact Nat.le_add_right _ _
    · exact (ih later).trans (Nat.le_add_left _ _)

theorem clusters_small : ∀ C ∈ clusters SI, C.toRange.size <= 2 ^ 32 := by
  intro C mem
  rcases clusters_isBlock C mem with ⟨b, isBlock⟩
  have size := size_le_sizeTo mem
  rw [isBlock, sizeTo_clusters] at size
  have bound := casesTo_lt SI b
  omega

theorem clusters_ne_nil (cases : SI.cases ≠ []) : clusters SI ≠ [] := by
  rcases exists_mem_of_ne_nil _ cases with ⟨⟨Val, b⟩, mem⟩
  rcases exists_cluster mem with ⟨C, inClusters, _⟩
  exact ne_nil_of_mem inClusters

theorem sizeTo_clusters_created {t : Label B} (created : ∀ b, t ≠ .block b) :
    sizeTo t (ranges (clusters SI)) = 0 := by
  rw [sizeTo, sum_eq_zero]
  intro n mem
  rcases mem_map.mp mem with ⟨r, inRanges, rfl⟩
  rcases mem_map.mp inRanges with ⟨C, inClusters, rfl⟩
  rcases clusters_isBlock C inClusters with ⟨b, same⟩
  exact if_neg fun equal => created b (equal.symm.trans same)

theorem sizeTo_clusters_lt (SI : SwitchInst B W) (t : Label B) :
    sizeTo t (ranges (clusters SI)) < 2 ^ 32 := by
  by_cases created : ∀ b, t ≠ .block b
  · rw [sizeTo_clusters_created created]
    decide
  · rcases not_forall_not.mp created with ⟨b, rfl⟩
    rw [sizeTo_clusters]
    have bound := casesTo_lt SI b
    omega

/-- The successor of most cases, of several the one whose greatest case value is
the least. -/
structure SwitchInst.Popular (SI : SwitchInst B W) (P : B) : Prop where
  positive : 0 < SI.casesTo P
  most : ∀ b ≠ P, SI.casesTo b < SI.casesTo P ∨ SI.casesTo b = SI.casesTo P ∧
    ∃ Val, (Val, b) ∈ SI.cases ∧ ∀ Val', (Val', P) ∈ SI.cases -> Val'.toInt < Val.toInt

/-- There is only one. -/
theorem SwitchInst.Popular.unique {P P' : B} (popular : SI.Popular P) (popular' : SI.Popular P') :
    P = P' := by
  by_contra ne
  rcases popular.most P' (Ne.symm ne) with less | ⟨equal, Val, mem, above⟩
  · rcases popular'.most P ne with less' | ⟨equal', _⟩ <;> omega
  · rcases popular'.most P ne with less' | ⟨_, Val', mem', above'⟩
    · omega
    · have first := above Val' mem'
      have second := above' Val mem
      omega

/-- The pass finds it. -/
theorem popularSuccessor_clusters (cases : SI.cases ≠ []) :
    ∃ P, popularSuccessor (clusters SI) = some (.block P) ∧ SI.Popular P := by
  rcases popularSuccessor_spec (clusters_ne_nil cases) (clusters_ordered SI) (sizeTo_clusters_lt SI)
    with ⟨t, result, popular⟩
  obtain ⟨P, rfl⟩ : ∃ P, t = .block P := by
    by_contra created
    have positive := popular.positive
    rw [sizeTo_clusters_created fun b same => created ⟨b, same⟩] at positive
    exact lt_irrefl 0 positive
  refine ⟨P, result, ?_, fun b other => ?_⟩
  · rw [<- sizeTo_clusters]
    exact popular.positive
  · rw [<- sizeTo_clusters, <- sizeTo_clusters]
    rcases popular.most (.block b) fun same => other (Label.block.inj same) with
      less | ⟨equal, r, inRanges, target, above⟩
    · exact .inl less
    · rcases mem_map.mp inRanges with ⟨C, inClusters, rfl⟩
      rcases clusters_case inClusters ⟨clusters_nonempty inClusters, Int.le_refl _⟩ with
        ⟨b', isBlock, inCases⟩
      cases isBlock.symm.trans target
      refine .inr ⟨equal, C.High, inCases, fun Val' inCases' => ?_⟩
      rcases exists_cluster inCases' with ⟨C', inClusters', holds, target'⟩
      have below : C'.High.toInt < C.Low.toInt :=
        above C'.toRange (mem_map_of_mem inClusters') target'
      have within : Val'.toInt <= C'.High.toInt := holds.2
      have nonempty := clusters_nonempty inClusters
      omega

end ClusterFacts

/-! ## The lowered function -/

/-- The bounds fit around all clusters. -/
theorem within_bounds {L : Type} {W : Nat} {Cases : List (CaseRange L W)} (ordered : Ordered (ranges Cases))
    {C : CaseRange L W} (mem : C ∈ Cases) {Val : BitVec W} (holds : C.toRange.Holds Val.toInt) :
    Within (Cases.head?.map CaseRange.Low) (Cases.getLast?.map CaseRange.High) Val := by
  have low : C.Low.toInt <= Val.toInt := holds.1
  have high : Val.toInt <= C.High.toInt := holds.2
  constructor
  · intro bound isBound
    cases Cases with
    | nil => exact absurd mem not_mem_nil
    | cons first rest =>
      cases isBound
      rcases mem_cons.mp mem with rfl | later
      · exact low
      · have apart : first.High.toInt < C.Low.toInt :=
          Ordered.lt_low (r := first.toRange) ordered (mem_map_of_mem (f := CaseRange.toRange) later)
        have nonempty : first.Low.toInt <= first.High.toInt :=
          ordered.nonempty first.toRange mem_cons_self
        omega
  · intro bound isBound
    rcases eq_nil_or_concat Cases with rfl | ⟨initial, last, rfl⟩
    · exact absurd mem not_mem_nil
    · rw [concat_eq_append] at ordered mem isBound
      rw [getLast?_concat] at isBound
      cases isBound
      rw [ranges, map_append] at ordered
      rcases mem_append.mp mem with earlier | isLast
      · have apart : C.High.toInt < last.Low.toInt := ordered.append.2.2 C.toRange
          (mem_map_of_mem earlier) last.toRange mem_cons_self
        have nonempty : last.Low.toInt <= last.High.toInt :=
          ordered.append.2.1.nonempty last.toRange mem_cons_self
        omega
      · rw [<- mem_singleton.mp isLast]
        exact high

theorem ranges_filter {L : Type} [DecidableEq L] {W : Nat} (Cases : List (CaseRange L W)) (P : L) :
    ranges (Cases.filter fun I => decide (I.BB ≠ P)) = without P (ranges Cases) := by
  rw [ranges, without, ranges, List.filter_map]
  rfl

section Lowered

variable {B V : Type} {W : Nat} [DecidableEq B]

theorem edgesOf_of_mem {L : Type} [DecidableEq L] {outline : List (L × Bool × Terminator L W)}
    (nodup : (outline.map fst).Nodup) {P : L} {hasPHIs : Bool} {terminator : Terminator L W}
    (mem : (P, hasPHIs, terminator) ∈ outline) (l : L) :
    edgesOf outline P l = terminator.successors.count l := by
  induction outline with
  | nil => exact absurd mem not_mem_nil
  | cons x outline ih =>
    rcases nodup_cons.mp nodup with ⟨notLater, rest⟩
    rw [edgesOf_cons]
    rcases mem_cons.mp mem with rfl | later
    · have none : edgesOf outline P l = 0 := by
        rw [edgesOf, sum_eq_zero]
        intro n inMap
        rcases mem_map.mp inMap with ⟨x', mem', rfl⟩
        exact if_neg fun same => notLater (mem_map.mpr ⟨x', mem', same⟩)
      rw [if_pos rfl, none, add_zero]
    · rw [if_neg fun same => notLater (mem_map.mpr ⟨_, later, same.symm⟩), zero_add]
      exact ih rest later

theorem count_successors (SI : SwitchInst B W) (b : B) :
    SI.successors.count b = (if b = SI.defaultDest then 1 else 0) + SI.casesTo b := by
  rw [SwitchInst.successors, count_cons, add_comm]
  refine congrArg (· + _) (if_congr ?_ rfl rfl)
  rw [beq_iff_eq]
  exact eq_comm

/-- What the pass makes of a function with the tree for some clusters. -/
def Lowered (F : Function B V W) (CurBlock OldDefault Target : B)
    (UnreachableRanges : List IntRange) (LowerBound UpperBound : Option (BitVec W))
    (Cases : List (CaseRange (Label B) W)) (F' : Function (Label B) V W) : Prop :=
  ∃ entry blocks c',
    Emits UnreachableRanges [] LowerBound UpperBound Cases entry blocks ∧
      (∀ b, entry ≠ .block b) ∧
      F'.outline =
        removeDead OldDefault (treeOutline CurBlock Target entry blocks (F.map Label.block).outline) ∧
      F'.Counts c' ∧
      ∀ b P, c' (.block b) P + (if P = Label.block CurBlock then
            sizeTo (.block b) (ranges Cases) + (if b = Target then 1 else 0) else 0) =
          edgesOf (F.map Label.block).outline P (.block b) + edgesOf blocks P (.block b) +
            (if b = Target ∧ P = Label.NewDefault then 1 else 0)

variable {F : Function B V W} {CurBlock : B} {block default : Block B V W} {SI : SwitchInst B W}

section

variable (wf : F.WellFormed) (mem : (CurBlock, block) ∈ F.blocks)
  (isSwitch : block.terminator = .switch SI) (defaultMember : (SI.defaultDest, default) ∈ F.blocks)

include wf mem isSwitch

theorem edgesOf_switch (b : B) :
    edgesOf (F.map Label.block).outline (.block CurBlock) (.block b) =
      (if b = SI.defaultDest then 1 else 0) + SI.casesTo b := by
  rw [map_outline, edgesOf_map, <- count_successors]
  have nodup : (F.outline.map fst).Nodup := by
    rw [Function.outline, List.map_map]
    exact wf.nodup
  have inOutline : (CurBlock, !block.PHIs.isEmpty, Terminator.switch SI) ∈ F.outline :=
    mem_map.mpr ⟨_, mem, by rw [isSwitch]⟩
  exact edgesOf_of_mem nodup inOutline b

include defaultMember

theorem processSwitchInst_lowered (cases : SI.cases ≠ [])
    (reachable : default.startsUnreachable = false) :
    ∃ F', processSwitchInst F CurBlock = some F' ∧
      Lowered F CurBlock SI.defaultDest SI.defaultDest [] none none (clusters SI) F' := by
  have enough : ∀ b, sizeTo (.block b) (ranges (clusters SI)) +
      (if b = SI.defaultDest then 1 else 0) <=
      edgesOf (F.map Label.block).outline (.block CurBlock) (.block b) := by
    intro b
    rw [edgesOf_switch wf mem isSwitch, sizeTo_clusters, add_comm]
  rcases lowerCases_spec (counts_edges wf.consistent) (map_outline_nodup wf.nodup)
    (map_outline_labels F) (fun other => absurd rfl other) (clusters_ne_nil cases)
    (clusters_ordered SI) clusters_small clusters_isBlock (fun _ _ bounds => some_ne_none _ bounds.1.symm) enough
    with ⟨entry, blocks, F', c', result, rest⟩
  exact ⟨F', (processSwitchInst_reachable wf.nodup mem isSwitch defaultMember cases
    reachable).trans result, entry, blocks, c', rest⟩

theorem default_ne (unreachable : default.startsUnreachable = true) : SI.defaultDest ≠ CurBlock := by
  intro same
  have distinct : (F.blocks.map fun e => e.1).Nodup := wf.nodup
  have sameBlock := (find_label distinct defaultMember).symm.trans
    ((congrArg (fun l => F.blocks.find? fun e => decide (e.1 = l)) same).trans
      (find_label distinct mem))
  have equal : default = block := congrArg snd (Option.some.inj sameBlock)
  have isUnreachable := (Bool.and_eq_true_iff.mp unreachable).2
  rw [equal, isSwitch] at isUnreachable
  exact Bool.false_ne_true isUnreachable

theorem processSwitchInst_lowered_unreachable (cases : SI.cases ≠ [])
    (unreachable : default.startsUnreachable = true) {Ranges : List IntRange}
    (isRanges : unreachableRanges (clusters SI) = some Ranges) {P : B}
    (isPopular : popularSuccessor (clusters SI) = some (.block P)) (popular : SI.Popular P)
    (remaining : (clusters SI).filter (fun I => decide (I.BB ≠ .block P)) ≠ []) :
    ∃ F', processSwitchInst F CurBlock = some F' ∧
      Lowered F CurBlock SI.defaultDest P Ranges ((clusters SI).head?.map CaseRange.Low)
        ((clusters SI).getLast?.map CaseRange.High)
        ((clusters SI).filter fun I => decide (I.BB ≠ .block P)) F' := by
  have notCur := default_ne wf mem isSwitch defaultMember unreachable
  have inOutline := mem_map_outline defaultMember
  have noSuccessors : (default.terminator.map Label.block).successors = [] := by
    rw [successors_map, isUnreachable_successors (Bool.and_eq_true_iff.mp unreachable).2, map_nil]
  have enough : ∀ b, sizeTo (.block b)
        (ranges ((clusters SI).filter fun I => decide (I.BB ≠ .block P))) +
          (if b = P then 1 else 0) <=
      edgesOf (F.map Label.block).outline (.block CurBlock) (.block b) := by
    intro b
    rw [edgesOf_switch wf mem isSwitch, ranges_filter, sizeTo_without, sizeTo_clusters]
    by_cases isP : b = P
    · rw [if_pos (congrArg _ isP), if_pos isP, isP]
      have positive := popular.positive
      omega
    · rw [if_neg (mt Label.block.inj isP), if_neg isP]
      omega
  have notSqueezed : ∀ C, (clusters SI).filter (fun I => decide (I.BB ≠ .block P)) = [C] ->
      ¬ ((clusters SI).head?.map CaseRange.Low = some C.Low ∧
        (clusters SI).getLast?.map CaseRange.High = some C.High) := by
    rintro C single ⟨low, high⟩
    have remains : C ∈ (clusters SI).filter fun I => decide (I.BB ≠ .block P) := by
      rw [single]
      exact mem_cons_self
    rcases mem_filter.mp remains with ⟨inClusters, other⟩
    rcases exists_of_mem_map (count_pos_iff.mp popular.positive) with ⟨⟨Val, b⟩, case, rfl⟩
    rcases exists_cluster case with ⟨C', inClusters', holds, target⟩
    have within := within_bounds (clusters_ordered SI) inClusters' holds
    have inC : C.toRange.Holds Val.toInt := ⟨within.lower _ low, within.upper _ high⟩
    have first := (clusters_ordered SI).find_eq_some_iff.mpr
      ⟨C.toRange, mem_map_of_mem inClusters, inC, rfl⟩
    have second := (clusters_ordered SI).find_eq_some_iff.mpr
      ⟨C'.toRange, mem_map_of_mem inClusters', holds, rfl⟩
    exact of_decide_eq_true other ((Option.some.inj (first.symm.trans second)).trans target)
  have ordered : Ordered (ranges ((clusters SI).filter fun I => decide (I.BB ≠ .block P))) := by
    rw [ranges_filter]
    exact (clusters_ordered SI).without _
  rcases lowerCases_spec (counts_edges wf.consistent) (map_outline_nodup wf.nodup)
    (map_outline_labels F) (fun _ => ⟨notCur, _, _, inOutline, noSuccessors⟩) remaining ordered
    (fun C inCases => clusters_small C (mem_of_mem_filter inCases))
    (fun C inCases => clusters_isBlock C (mem_of_mem_filter inCases)) notSqueezed enough with
    ⟨entry, blocks, F', c', result, rest⟩
  refine ⟨F', ?_, entry, blocks, c', rest⟩
  rw [processSwitchInst_unreachable wf.nodup mem isSwitch defaultMember cases unreachable
    isRanges isPopular, isEmpty_eq_false_iff.mpr remaining]
  exact result

end

end Lowered

end LowerSwitch
end LlvmProject
