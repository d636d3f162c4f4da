import LlvmProject.Transforms.LowerSwitchFlow

namespace LlvmProject

open List

namespace LowerSwitch

/-!
# PHI nodes after the pass

An entry for an edge of the switch is given to an edge of the tree, or to the
edge of the new default block, or it is removed.  If the default block is
unreachable the entries for the default edge, and all but one of the entries
for the cases of the most popular successor, are left.
-/

open RangeMap

variable {B V : Type} {W : Nat} [DecidableEq B] {F : Function B V W} {CurBlock : B}

/-- The block has PHI nodes. -/
def Function.HasPHIs (F : Function B V W) (b : B) : Prop :=
  ∃ block, (b, block) ∈ F.blocks ∧ block.PHIs ≠ []

variable {l : Label B}

omit [DecidableEq B] in
theorem withPHIs_map {F : Function B V W} :
    WithPHIs (F.map Label.block).outline l ↔ ∃ b, l = .block b ∧ F.HasPHIs b := by
  rw [map_outline]
  constructor
  · rintro ⟨x, inMap, rfl, hasPHIs⟩
    rcases mem_map.mp inMap with ⟨x', inOutline, rfl⟩
    rcases mem_map.mp inOutline with ⟨⟨b, block⟩, inBlocks, rfl⟩
    refine ⟨b, rfl, block, inBlocks, ?_⟩
    rw [<- isEmpty_eq_false_iff, <- Bool.not_eq_true']
    exact hasPHIs
  · rintro ⟨b, rfl, block, inBlocks, nonempty⟩
    refine ⟨_, mem_map.mpr ⟨_, mem_map_of_mem inBlocks, rfl⟩, rfl, ?_⟩
    rw [Bool.not_eq_true', isEmpty_eq_false_iff]
    exact nonempty

variable {outline : Outline B W}

theorem withPHIs_setOutline {BB : Label B} {terminator : Terminator (Label B) W} :
    WithPHIs (setOutline BB terminator outline) l ↔ WithPHIs outline l := by
  constructor
  · rintro ⟨x, inSet, isLabel, hasPHIs⟩
    rcases mem_map.mp inSet with ⟨x', inOutline, rfl⟩
    refine ⟨x', inOutline, ?_⟩
    split at isLabel
    · rename_i same
      rw [if_pos same] at hasPHIs
      exact ⟨isLabel, hasPHIs⟩
    · rename_i other
      rw [if_neg other] at hasPHIs
      exact ⟨isLabel, hasPHIs⟩
  · rintro ⟨x, inOutline, isLabel, hasPHIs⟩
    refine ⟨_, mem_map_of_mem inOutline, ?_⟩
    split
    · exact ⟨isLabel, hasPHIs⟩
    · exact ⟨isLabel, hasPHIs⟩

variable {Target : B}

variable {LowerBound UpperBound : Option (BitVec W)}

variable {UnreachableRanges : List IntRange}

variable {Cases : List (CaseRange (Label B) W)}

theorem withPHIs_treeOutline {path : List Bool} {entry : Label B} {blocks outline : Outline B W}
    (emits : Emits UnreachableRanges path LowerBound UpperBound Cases entry blocks) :
    WithPHIs (treeOutline CurBlock Target entry blocks outline) l ↔ WithPHIs outline l := by
  rw [treeOutline, withPHIs_setOutline]
  constructor
  · rintro ⟨x, inList, isLabel, hasPHIs⟩
    rcases mem_append.mp inList with inBlocks | rest
    · exact absurd ((emits.labels x inBlocks).2.symm.trans hasPHIs) Bool.false_ne_true
    · rcases mem_cons.mp rest with rfl | old
      · exact absurd hasPHIs Bool.false_ne_true
      · exact ⟨x, old, isLabel, hasPHIs⟩
  · rintro ⟨x, inOutline, both⟩
    exact ⟨x, mem_append_right _ (mem_cons_of_mem _ inOutline), both⟩

theorem withPHIs_removeDead {OldDefault : B} :
    WithPHIs (removeDead OldDefault outline) l ↔ WithPHIs outline l ∧
      (l = .block OldDefault -> ∃ y ∈ outline, .block OldDefault ∈ y.2.2.successors) := by
  constructor
  · rintro ⟨x, mem, rfl, hasPHIs⟩
    refine ⟨⟨x, (removeDead_sublist _ _).subset mem, rfl, hasPHIs⟩, fun isOld => ?_⟩
    by_contra noEdge
    have dead : ∀ y ∈ outline, .block OldDefault ∉ y.2.2.successors :=
      fun y inOutline edge => noEdge ⟨y, inOutline, edge⟩
    rw [removeDead, if_pos dead] at mem
    exact of_decide_eq_true (mem_filter.mp mem).2 isOld
  · rintro ⟨⟨x, inOutline, rfl, hasPHIs⟩, kept⟩
    refine ⟨x, mem_removeDead inOutline ?_, rfl, hasPHIs⟩
    by_cases isOld : x.1 = .block OldDefault
    · exact .inr (kept isOld)
    · exact .inl isOld

/-! ## Edges after the pass -/

theorem edgesOf_removeDead
    {OldDefault : B} (noSuccessors : (∀ x ∈ outline, .block OldDefault ∉ x.2.2.successors) ->
    ∀ x ∈ outline, x.1 = .block OldDefault -> x.2.2.successors = []) (P l : Label B) :
    edgesOf (removeDead OldDefault outline) P l = edgesOf outline P l := by
  rw [removeDead]
  split
  · rename_i dead
    exact edgesOf_filter (noSuccessors dead) P l
  · rfl

theorem edgesOf_treeOutline {entry : Label B} {blocks outline : Outline B W}
    (created : ∀ b, entry ≠ .block b) (P : Label B) (b : B) :
    edgesOf (treeOutline CurBlock Target entry blocks outline) P (.block b) =
      if P = .block CurBlock then 0
      else edgesOf outline P (.block b) + edgesOf blocks P (.block b) +
        if b = Target ∧ P = .NewDefault then 1 else 0 := by
  rw [treeOutline, edgesOf_setOutline]
  have noEdge : (Terminator.br entry : Terminator (Label B) W).successors.count (.block b) = 0 :=
    count_eq_zero_of_not_mem fun isEntry => created b (mem_singleton.mp isEntry).symm
  rw [noEdge, mul_zero, edgesOf_append, edgesOf_cons]
  refine if_congr Iff.rfl rfl ?_
  have edge : (if Label.NewDefault = P then
        (Terminator.br (.block Target) : Terminator (Label B) W).successors.count (.block b) else 0) =
      if b = Target ∧ P = .NewDefault then 1 else 0 := by
    change (if Label.NewDefault = P then [Label.block Target].count (.block b) else 0) = _
    rw [count_singleton, <- ite_and]
    refine if_congr ⟨fun both => ?_, fun both => ⟨both.2.symm, ?_⟩⟩ rfl rfl
    · exact ⟨(Label.block.inj (beq_iff_eq.mp both.2)).symm, both.1.symm⟩
    · rw [both.1]
      exact beq_self_eq_true _
  rw [edge]
  omega

/-- The edges to the old default block. -/
theorem exists_edge_treeOutline {path : List Bool}
    {entry : Label B} {blocks : Outline B W} (created : ∀ b, entry ≠ .block b)
    (emits : Emits UnreachableRanges path LowerBound UpperBound Cases entry blocks) (b : B) :
    (∃ y ∈ treeOutline CurBlock Target entry blocks (F.map Label.block).outline,
        .block b ∈ y.2.2.successors) ↔
      b = Target ∨ (∃ C ∈ Cases, C.BB = .block b) ∨
        ∃ entry ∈ F.blocks, entry.1 ≠ CurBlock ∧ b ∈ entry.2.terminator.successors := by
  have targets := emits.targets b
  rw [or_iff_left (created b)] at targets
  have edges : ∀ terminator : Terminator B W,
      .block b ∈ (terminator.map Label.block).successors ↔ b ∈ terminator.successors := by
    intro terminator
    rw [successors_map]
    exact mem_map_of_injective fun _ _ => Label.block.inj
  constructor
  · rintro ⟨y, inTree, edge⟩
    rcases mem_map.mp inTree with ⟨x, inList, rfl⟩
    split at edge
    · exact absurd (mem_singleton.mp edge).symm (created b)
    · rename_i notCur
      rcases mem_append.mp inList with inBlocks | rest
      · exact .inr (.inl (targets.mp ⟨x, inBlocks, edge⟩))
      · rcases mem_cons.mp rest with rfl | old
        · exact .inl (Label.block.inj (mem_singleton.mp edge))
        · rw [map_outline] at old
          rcases mem_map.mp old with ⟨x', inOutline, rfl⟩
          rcases mem_map.mp inOutline with ⟨entry', inF, rfl⟩
          exact .inr (.inr ⟨entry', inF, fun same => notCur (congrArg _ same), (edges _).mp edge⟩)
  · have inTree : ∀ x ∈ blocks ++ (.NewDefault, false, .br (.block Target)) ::
        (F.map Label.block).outline, x.1 ≠ .block CurBlock ->
          x ∈ treeOutline CurBlock Target entry blocks (F.map Label.block).outline :=
      fun x inList other => mem_map.mpr ⟨x, inList, if_neg other⟩
    rintro (rfl | inCases | ⟨entry', inF, other, edge⟩)
    · exact ⟨_, inTree _ (mem_append_right _ mem_cons_self) (newDefault_ne CurBlock), mem_cons_self⟩
    · rcases targets.mpr inCases with ⟨x, inBlocks, edge⟩
      exact ⟨x, inTree x (mem_append_left _ inBlocks)
        ((emits.labels x inBlocks).1.ne_block CurBlock), edge⟩
    · exact ⟨_, inTree _ (mem_append_right _ (mem_cons_of_mem _ (mem_map_outline inF)))
        fun same => other (Label.block.inj same), (edges _).mpr edge⟩

/-! ## Entries that are left -/

section Lowered

variable {block default : Block B V W} {SI : SwitchInst B W} (wf : F.WellFormed)
  (mem : (CurBlock, block) ∈ F.blocks) (isSwitch : block.terminator = .switch SI)

include wf mem isSwitch

/-- With the tree a function is consistent if the taken entries are all entries
from the switch. -/
theorem Lowered.consistent_iff {F' : Function (Label B) V W} (lowered : Lowered F CurBlock
    SI.defaultDest Target UnreachableRanges LowerBound UpperBound Cases F') (noSuccessors :
    SI.defaultDest ≠ Target -> ∀ entry ∈ F.blocks, entry.1 = SI.defaultDest ->
    entry.2.terminator.successors = []) :
    F'.Consistent ↔ ∀ b, F.HasPHIs b ->
      (b = SI.defaultDest -> SI.defaultDest = Target ∨ (∃ C ∈ Cases, C.BB = .block b) ∨
        ∃ entry ∈ F.blocks, entry.1 ≠ CurBlock ∧ b ∈ entry.2.terminator.successors) ->
      (if b = SI.defaultDest then 1 else 0) + SI.casesTo b =
        sizeTo (.block b) (ranges Cases) + if b = Target then 1 else 0 := by
  rcases lowered with ⟨entry, blocks, c', emits, created, outline, counts, balance⟩
  have defaultDead : (∀ x ∈ treeOutline CurBlock Target entry blocks (F.map Label.block).outline,
        .block SI.defaultDest ∉ x.2.2.successors) ->
      ∀ x ∈ treeOutline CurBlock Target entry blocks (F.map Label.block).outline,
        x.1 = .block SI.defaultDest -> x.2.2.successors = [] := by
    intro dead x inTree isOld
    have notTarget : SI.defaultDest ≠ Target := by
      intro same
      rcases (exists_edge_treeOutline created emits SI.defaultDest).mpr (.inl same) with
        ⟨y, inTree', edge⟩
      exact dead y inTree' edge
    have notCur : CurBlock ≠ SI.defaultDest := by
      intro same
      have isEmpty := noSuccessors notTarget _ mem same
      rw [isSwitch] at isEmpty
      exact absurd isEmpty (cons_ne_nil _ _)
    rcases mem_map.mp inTree with ⟨x', inList, rfl⟩
    have label : x'.1 = .block SI.defaultDest := by
      split at isOld <;> exact isOld
    rw [if_neg fun same => notCur (Label.block.inj (same.symm.trans label))]
    rcases mem_append.mp inList with inBlocks | rest
    · exact absurd label ((emits.labels x' inBlocks).1.ne_block _)
    · rcases mem_cons.mp rest with rfl | old
      · exact absurd label (newDefault_ne _)
      · rw [map_outline] at old
        rcases mem_map.mp old with ⟨x'', inOutline, rfl⟩
        rcases mem_map.mp inOutline with ⟨entry', inF, rfl⟩
        have noEdges := noSuccessors notTarget entry' inF (Label.block.inj label)
        change (entry'.2.terminator.map Label.block).successors = []
        rw [successors_map, noEdges, map_nil]
  have created' : ∀ b, edgesOf blocks (.block CurBlock) (.block b) = 0 := by
    intro b
    rw [edgesOf, sum_eq_zero]
    intro n inMap
    rcases mem_map.mp inMap with ⟨x, inBlocks, rfl⟩
    exact if_neg ((emits.labels x inBlocks).1.ne_block CurBlock)
  have entriesLeft : ∀ b, c' (.block b) (.block CurBlock) +
      (sizeTo (.block b) (ranges Cases) + if b = Target then 1 else 0) =
        (if b = SI.defaultDest then 1 else 0) + SI.casesTo b := by
    intro b
    have total := balance b (.block CurBlock)
    have notDefault : ¬ (b = Target ∧ Label.block CurBlock = .NewDefault) :=
      fun both => newDefault_ne CurBlock both.2.symm
    rw [if_pos rfl, if_neg notDefault, created', edgesOf_switch wf mem isSwitch] at total
    omega
  rw [Function.consistent_iff counts, outline]
  constructor
  · intro equal b hasPHIs isKept
    have remains : WithPHIs (removeDead SI.defaultDest
        (treeOutline CurBlock Target entry blocks (F.map Label.block).outline)) (.block b) := by
      refine withPHIs_removeDead.mpr ⟨(withPHIs_treeOutline emits).mpr
        (withPHIs_map.mpr ⟨b, rfl, hasPHIs⟩), fun same => ?_⟩
      have isOld := Label.block.inj same
      rw [isOld] at isKept
      exact (exists_edge_treeOutline created emits _).mpr (isKept rfl)
    have isEqual := equal (.block b) remains (.block CurBlock)
    rw [edgesOf_removeDead defaultDead, edgesOf_treeOutline created, if_pos rfl] at isEqual
    have left := entriesLeft b
    omega
  · intro equal l hasPHIs P
    rcases withPHIs_removeDead.mp hasPHIs with ⟨inTree, isKept⟩
    rcases withPHIs_map.mp ((withPHIs_treeOutline emits).mp inTree) with ⟨b, rfl, inF⟩
    rw [edgesOf_removeDead defaultDead, edgesOf_treeOutline created]
    by_cases isCur : P = .block CurBlock
    · rw [if_pos isCur, isCur]
      have left := entriesLeft b
      have taken := equal b inF fun isOld => by
        rw [isOld] at isKept ⊢
        exact (exists_edge_treeOutline created emits _).mp (isKept rfl)
      omega
    · have total := balance b P
      rw [if_neg isCur, add_zero] at total
      rw [if_neg isCur]
      exact total

/-- A branch instead of the switch keeps a function consistent if it is the only
edge that the PHI nodes have entries for. -/
theorem branchTo_consistent_iff (Target : B) :
    (branchTo F CurBlock Target).Consistent ↔ ∀ b, F.HasPHIs b ->
      (if b = SI.defaultDest then 1 else 0) + SI.casesTo b = if b = Target then 1 else 0 := by
  have counts : (branchTo F CurBlock Target).Counts fun l P =>
      edgesOf (F.map Label.block).outline P l :=
    (counts_edges wf.consistent).setTerminator _ _
  have outline : (branchTo F CurBlock Target).outline =
      setOutline (.block CurBlock) (.br (.block Target)) (F.map Label.block).outline :=
    Function.setTerminator_outline _ _ _
  have one : ((F.map Label.block).outline.map Prod.fst).count (.block CurBlock) = 1 :=
    count_eq_one_of_mem (map_outline_nodup wf.nodup)
      (mem_map_of_mem (mem_map_outline mem))
  have edge : ∀ b P, edgesOf (setOutline (.block CurBlock) (.br (.block Target))
      (F.map Label.block).outline) P (.block b) = if P = .block CurBlock then
        (if b = Target then 1 else 0) else edgesOf (F.map Label.block).outline P (.block b) := by
    intro b P
    rw [edgesOf_setOutline, one, one_mul]
    refine if_congr Iff.rfl ?_ rfl
    change [Label.block Target].count (.block b) = _
    rw [count_singleton]
    refine if_congr ?_ rfl rfl
    rw [beq_iff_eq, Label.block.injEq]
    exact eq_comm
  rw [Function.consistent_iff counts, outline]
  constructor
  · intro equal b hasPHIs
    have isEqual := equal (.block b) (withPHIs_setOutline.mpr (withPHIs_map.mpr ⟨b, rfl, hasPHIs⟩))
      (.block CurBlock)
    rwa [edge, if_pos rfl, edgesOf_switch wf mem isSwitch] at isEqual
  · intro equal l hasPHIs P
    rcases withPHIs_map.mp (withPHIs_setOutline.mp hasPHIs) with ⟨b, rfl, inF⟩
    rw [edge]
    split
    · rename_i isCur
      rw [isCur, edgesOf_switch wf mem isSwitch]
      exact equal b inF
    · rfl

/-! ## The pass -/

variable (defaultMember : (SI.defaultDest, default) ∈ F.blocks)

omit wf mem isSwitch

/-- All entries for the default edge and for the cases of the most popular
successor are for its only edge, and the default block has no others, or no
predecessors. -/
structure KeepsPHIs (F : Function B V W) (CurBlock : B) (SI : SwitchInst B W) (P : B) : Prop where
  popular : F.HasPHIs P -> SI.successors.count P = 1
  default : SI.defaultDest = P ∨ ¬ F.HasPHIs SI.defaultDest ∨
    (∃ c ∈ SI.cases, c.2 ≠ P) ∧ (∀ c ∈ SI.cases, c.2 ≠ SI.defaultDest) ∧
      ∀ entry ∈ F.blocks, entry.1 ≠ CurBlock -> SI.defaultDest ∉ entry.2.terminator.successors

include wf mem isSwitch defaultMember

omit mem isSwitch in
theorem default_noSuccessors (unreachable : default.startsUnreachable = true) :
    ∀ entry ∈ F.blocks, entry.1 = SI.defaultDest -> entry.2.terminator.successors = [] := by
  intro entry inF isDefault
  have distinct : (F.blocks.map fun e => e.1).Nodup := wf.nodup
  have same := (find_label distinct inF).symm.trans
    ((congrArg (fun l => F.blocks.find? fun e => decide (e.1 = l)) isDefault).trans
      (find_label distinct defaultMember))
  have equal : entry.2 = default := congrArg Prod.snd (Option.some.inj same)
  rw [equal]
  exact isUnreachable_successors (Bool.and_eq_true_iff.mp unreachable).2

omit wf mem isSwitch defaultMember in
/-- A cluster that is left is of a case to another block. -/
theorem exists_remaining_iff {P b : B} :
    (∃ C ∈ (clusters SI).filter fun I => decide (I.BB ≠ .block P), C.BB = .block b) ↔
      b ≠ P ∧ ∃ c ∈ SI.cases, c.2 = b := by
  constructor
  · rintro ⟨C, remains, target⟩
    rcases mem_filter.mp remains with ⟨inClusters, other⟩
    rcases clusters_case inClusters ⟨Int.le_refl _, clusters_nonempty inClusters⟩ with
      ⟨b', isBlock, inCases⟩
    cases isBlock.symm.trans target
    exact ⟨fun same => of_decide_eq_true other (same ▸ isBlock), _, inCases, rfl⟩
  · rintro ⟨other, ⟨Val, b⟩, inCases, rfl⟩
    rcases exists_cluster inCases with ⟨C, inClusters, _, target⟩
    have notP : C.BB ≠ .block P := fun same => other (Label.block.inj (target.symm.trans same))
    exact ⟨C, mem_filter.mpr ⟨inClusters, decide_eq_true notP⟩, target⟩

omit wf mem isSwitch defaultMember in
theorem remaining_ne_nil_iff {P : B} :
    (clusters SI).filter (fun I => decide (I.BB ≠ .block P)) ≠ [] ↔ ∃ c ∈ SI.cases, c.2 ≠ P := by
  constructor
  · intro remaining
    rcases exists_mem_of_ne_nil _ remaining with ⟨C, remains⟩
    rcases clusters_isBlock C (mem_of_mem_filter remains) with ⟨b, isBlock⟩
    rcases exists_remaining_iff.mp ⟨C, remains, isBlock⟩ with ⟨other, c, inCases, rfl⟩
    exact ⟨c, inCases, other⟩
  · rintro ⟨c, inCases, other⟩
    rcases exists_remaining_iff.mpr ⟨other, c, inCases, rfl⟩ with ⟨C, remains, _⟩
    exact ne_nil_of_mem remains

omit wf mem isSwitch defaultMember in
theorem keepsPHIs_of_branch {P : B} (onlyCases : ∀ c ∈ SI.cases, c.2 = P) :
    (∀ b, F.HasPHIs b ->
        (if b = SI.defaultDest then 1 else 0) + SI.casesTo b = if b = P then 1 else 0) ↔
      KeepsPHIs F CurBlock SI P := by
  constructor
  · refine fun equal => ⟨fun hasPHIs => ?_, ?_⟩
    · rw [count_successors, equal P hasPHIs, if_pos rfl]
    · by_cases isP : SI.defaultDest = P
      · exact .inl isP
      · refine .inr (.inl fun hasPHIs => ?_)
        have isEqual := equal _ hasPHIs
        rw [if_pos rfl, if_neg isP] at isEqual
        omega
  · intro keeps b hasPHIs
    by_cases isP : b = P
    · rw [if_pos isP, <- count_successors, isP]
      exact keeps.popular (isP ▸ hasPHIs)
    · have noCases : SI.casesTo b = 0 := by
        refine count_eq_zero_of_not_mem fun isSuccessor => ?_
        rcases mem_map.mp isSuccessor with ⟨c, inCases, rfl⟩
        exact isP (onlyCases c inCases)
      have notDefault : b ≠ SI.defaultDest := by
        rintro rfl
        rcases keeps.default with same | noPHIs | ⟨⟨c, inCases, other⟩, _⟩
        · exact isP same
        · exact noPHIs hasPHIs
        · exact other (onlyCases c inCases)
      rw [if_neg notDefault, if_neg isP, noCases]

omit wf mem isSwitch defaultMember in
theorem keepsPHIs_of_tree {P : B} (others : ∃ c ∈ SI.cases, c.2 ≠ P) :
    (∀ b, F.HasPHIs b ->
        (b = SI.defaultDest -> SI.defaultDest = P ∨ (b ≠ P ∧ ∃ c ∈ SI.cases, c.2 = b) ∨
          ∃ entry ∈ F.blocks, entry.1 ≠ CurBlock ∧ b ∈ entry.2.terminator.successors) ->
        (if b = SI.defaultDest then 1 else 0) + SI.casesTo b =
          (if b = P then 0 else SI.casesTo b) + if b = P then 1 else 0) ↔
      KeepsPHIs F CurBlock SI P := by
  constructor
  · refine fun equal => ⟨fun hasPHIs => ?_, ?_⟩
    · have isEqual := equal P hasPHIs fun same => .inl same.symm
      rw [if_pos rfl, if_pos rfl] at isEqual
      rw [count_successors, isEqual]
    · by_cases isP : SI.defaultDest = P
      · exact .inl isP
      · by_cases hasPHIs : F.HasPHIs SI.defaultDest
        · have notKept : ¬ (SI.defaultDest = P ∨
              (SI.defaultDest ≠ P ∧ ∃ c ∈ SI.cases, c.2 = SI.defaultDest) ∨
              ∃ entry ∈ F.blocks, entry.1 ≠ CurBlock ∧
                SI.defaultDest ∈ entry.2.terminator.successors) := by
            intro isKept
            have isEqual := equal _ hasPHIs fun _ => isKept
            rw [if_neg isP, if_neg isP, if_pos rfl] at isEqual
            omega
          refine .inr (.inr ⟨others, fun c inCases same => ?_, fun entry inF other edge => ?_⟩)
          · exact notKept (.inr (.inl ⟨isP, c, inCases, same⟩))
          · exact notKept (.inr (.inr ⟨entry, inF, other, edge⟩))
        · exact .inr (.inl hasPHIs)
  · intro keeps b hasPHIs isKept
    by_cases isP : b = P
    · rw [if_pos isP, if_pos isP, <- count_successors, isP]
      exact keeps.popular (isP ▸ hasPHIs)
    · have notDefault : b ≠ SI.defaultDest := by
        rintro rfl
        rcases keeps.default with same | noPHIs | ⟨_, noCase, noEdge⟩
        · exact isP same
        · exact noPHIs hasPHIs
        · rcases isKept rfl with same | ⟨_, c, inCases, same⟩ | ⟨entry, inF, other, edge⟩
          · exact isP same
          · exact noCase c inCases same
          · exact noEdge entry inF other edge
      rw [if_neg notDefault, if_neg isP, if_neg isP, zero_add, add_zero]

/-- The PHI nodes are consistent after the pass if and only if the default block
is not unreachable or no entry is left. -/
theorem processSwitchInst_consistent_iff :
    ∃ F', processSwitchInst F CurBlock = some F' ∧
      (F'.Consistent ↔ SI.cases = [] ∨ default.startsUnreachable = false ∨
        ∀ P, SI.Popular P -> KeepsPHIs F CurBlock SI P) := by
  by_cases cases : SI.cases = []
  · refine ⟨_, processSwitchInst_empty wf.nodup mem isSwitch cases,
      iff_of_true ?_ (.inl cases)⟩
    rw [branchTo_consistent_iff wf mem isSwitch]
    intro b _
    rw [SwitchInst.casesTo, cases]
    rfl
  · rw [or_iff_right cases]
    cases reachable : default.startsUnreachable with
    | false =>
      rcases processSwitchInst_lowered wf mem isSwitch defaultMember cases reachable with
        ⟨F', result, lowered⟩
      refine ⟨F', result, iff_of_true ?_ (.inl rfl)⟩
      rw [lowered.consistent_iff wf mem isSwitch fun other => absurd rfl other]
      intro b _ _
      rw [sizeTo_clusters, add_comm]
    | true =>
      rcases unreachableRanges_avoids SI.width.2 (clusters_ordered SI) with ⟨Ranges, isRanges, _⟩
      rcases popularSuccessor_clusters cases with ⟨P, isPopular, popular⟩
      have onlyP : (∀ P, SI.Popular P -> KeepsPHIs F CurBlock SI P) ↔ KeepsPHIs F CurBlock SI P :=
        ⟨fun all => all P popular, fun keeps P' popular' => popular.unique popular' ▸ keeps⟩
      rw [or_iff_right (by exact Bool.noConfusion), onlyP]
      by_cases remaining : (clusters SI).filter (fun I => decide (I.BB ≠ .block P)) = []
      · have onlyCases : ∀ c ∈ SI.cases, c.2 = P := fun c inCases => by
          by_contra other
          exact remaining_ne_nil_iff.mpr ⟨c, inCases, other⟩ remaining
        have result := processSwitchInst_unreachable wf.nodup mem isSwitch defaultMember
          cases reachable isRanges isPopular
        rw [remaining] at result
        refine ⟨_, result, ?_⟩
        rw [branchTo_consistent_iff wf mem isSwitch]
        exact keepsPHIs_of_branch onlyCases
      · rcases processSwitchInst_lowered_unreachable wf mem isSwitch defaultMember cases
          reachable isRanges isPopular popular remaining with ⟨F', result, lowered⟩
        refine ⟨F', result, ?_⟩
        rw [lowered.consistent_iff wf mem isSwitch fun _ =>
          default_noSuccessors wf defaultMember reachable]
        have sizes : ∀ b, sizeTo (.block b)
            (ranges ((clusters SI).filter fun I => decide (I.BB ≠ .block P))) =
              if b = P then 0 else SI.casesTo b := by
          intro b
          rw [ranges_filter, sizeTo_without, sizeTo_clusters]
          exact if_congr ⟨Label.block.inj, congrArg _⟩ rfl rfl
        simp only [exists_remaining_iff, sizes]
        exact keepsPHIs_of_tree (remaining_ne_nil_iff.mp remaining)

end Lowered

theorem processSwitchInst_consistent_iff_threeCases :
    ∃ F', processSwitchInst threeCasesFunction 0 = some F' ∧
      (F'.Consistent ↔ threeCases.cases = [] ∨ true = false ∨
        ∀ P, threeCases.Popular P -> KeepsPHIs threeCasesFunction 0 threeCases P) :=
  processSwitchInst_consistent_iff threeCasesFunction_wellFormed mem_cons_self rfl
    (mem_cons_of_mem _ (mem_cons_of_mem _ (mem_cons_of_mem _ mem_cons_self)))

/-- An entry for the second case of the most popular successor is left. -/
theorem processSwitchInst_stale_entry :
    threeCasesFunction.WellFormed ∧
      ∃ F', processSwitchInst threeCasesFunction 0 = some F' ∧ ¬ F'.Consistent := by
  have computedPHIs : (processSwitchInst threeCasesFunction 0).map (fun F' =>
      ((F'.block (.block 1)).map Block.PHIs).getD []) =
        some [[(.NewDefault, true), (.block 0, true)]] := by
    decide +kernel
  have computedEdges : (processSwitchInst threeCasesFunction 0).map (fun F' =>
      F'.edges (.block 0) (.block 1)) = some 0 := by
    decide +kernel
  refine ⟨threeCasesFunction_wellFormed, ?_⟩
  rcases Option.map_eq_some_iff.mp computedPHIs with ⟨F', result, nodes⟩
  rw [result] at computedEdges
  have noEdges : F'.edges (.block 0) (.block 1) = 0 := Option.some.inj computedEdges
  refine ⟨F', result, fun consistent => ?_⟩
  cases found : F'.block (.block 1) with
  | none =>
    rw [found] at nodes
    cases nodes
  | some block =>
    rw [found] at nodes
    rcases Option.map_eq_some_iff.mp found with ⟨entry, inF', rfl⟩
    have label : entry.1 = .block 1 := of_decide_eq_true
      (find?_some (p := fun e : Label (Fin 4) × Block (Label (Fin 4)) Bool 8 =>
        decide (e.1 = .block 1)) inF')
    have isNode : [(.NewDefault, true), (.block 0, true)] ∈ entry.2.PHIs := by
      change entry.2.PHIs = _ at nodes
      rw [nodes]
      exact mem_cons_self
    have count := consistent entry (mem_of_find?_eq_some inF') _ isNode (.block 0)
    rw [label, noEdges] at count
    revert count
    decide

end LowerSwitch
end LlvmProject
