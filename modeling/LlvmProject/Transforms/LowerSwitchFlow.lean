import LlvmProject.Transforms.LowerSwitchProcess

namespace LlvmProject

open List Prod Option

namespace LowerSwitch

/-!
# Control flow after the pass

The created blocks lead each value to the successor that the switch would
branch to, if the default block is unreachable each case value.  The successor
is still a block of the function.
-/

open RangeMap

variable {B V : Type} {W : Nat} [DecidableEq B]

/-! ## Blocks that are left -/

theorem mem_removeDead {OldDefault : B} {outline : Outline B W}
    {x : Label B × Bool × Terminator (Label B) W} (mem : x ∈ outline)
    (kept : x.1 ≠ .block OldDefault ∨ ∃ y ∈ outline, .block OldDefault ∈ y.2.2.successors) :
    x ∈ removeDead OldDefault outline := by
  rw [removeDead]
  split
  · rename_i dead
    rcases kept with other | ⟨y, inOutline, edge⟩
    · exact mem_filter.mpr ⟨mem, decide_eq_true other⟩
    · exact absurd edge (dead y inOutline)
  · exact mem

theorem removeDead_sublist (OldDefault : B) (outline : Outline B W) :
    (removeDead OldDefault outline).Sublist outline := by
  rw [removeDead]
  split
  · exact filter_sublist
  · exact List.Sublist.refl outline

theorem removeDead_nodup {OldDefault : B} {outline : Outline B W}
    (nodup : (outline.map fst).Nodup) : ((removeDead OldDefault outline).map fst).Nodup :=
  nodup.sublist ((removeDead_sublist OldDefault outline).map fst)

variable {Val : BitVec W}

theorem follow_mem {L : Type} {terminator : Terminator L W} {next : L}
    (followed : terminator.follow Val = some next) : next ∈ terminator.successors := by
  cases terminator with
  | br dest =>
    cases followed
    exact mem_cons_self
  | condBr Comp ifTrue ifFalse =>
    cases followed
    split
    · exact mem_cons_self
    · exact mem_cons_of_mem _ mem_cons_self
  | _ => cases followed

theorem Leads.exists_edge {F : Function (Label B) V W} {BB : Label B} {last : B}
    (leads : Leads F Val BB last) (created : ∀ b, BB ≠ .block b) :
    ∃ x ∈ F.outline, .block last ∈ x.2.2.successors := by
  induction leads with
  | arrive BB => exact absurd rfl (created BB)
  | @step BB next last block notBlock found followed rest ih =>
    by_cases arrived : ∃ b, next = .block b
    · rcases arrived with ⟨b, rfl⟩
      cases rest with
      | arrive =>
        rcases map_eq_some_iff.mp found with ⟨entry, isFound, rfl⟩
        exact ⟨_, List.mem_map_of_mem (mem_of_find?_eq_some isFound), follow_mem followed⟩
      | step notBlock' => exact absurd rfl (notBlock' b)
    · exact ih fun b same => arrived ⟨b, same⟩

/-! ## The way to the successor -/

variable {F : Function B V W}

/-- The tree leads to the target of a cluster, and otherwise to the default. -/
theorem Lowered.leads {CurBlock OldDefault Target : B} {UnreachableRanges : List IntRange}
    {LowerBound UpperBound : Option (BitVec W)} {Cases : List (CaseRange (Label B) W)} {F' :
    Function (Label B) V W} (lowered : Lowered F CurBlock OldDefault Target UnreachableRanges
    LowerBound UpperBound Cases F') (wf : F.WellFormed) {block : Block B V W} (mem : (CurBlock,
    block) ∈ F.blocks) (kept : OldDefault = Target ∨ OldDefault ≠ CurBlock) (width : W <= 64)
    (ordered : Ordered (ranges Cases)) :
    ∃ block', F'.block (.block CurBlock) = some block' ∧
      ∀ Val, (∀ R ∈ UnreachableRanges, ¬ R.Holds Val.toInt) -> Within LowerBound UpperBound Val ->
        ∀ target, (∀ t, find (ranges Cases) Val.toInt = some t -> t = .block target) ->
          (find (ranges Cases) Val.toInt = none -> target = Target) ->
          (∃ last, (target, last) ∈ F.blocks) ->
          ∃ next, block'.terminator.follow Val = some next ∧ Leads F' Val next target ∧
            ∃ last, F'.block (.block target) = some last := by
  rcases lowered with ⟨entry, blocks, c', emits, created, outline, _, _⟩
  have treeNodup := treeOutline_nodup CurBlock Target emits (map_outline_nodup wf.nodup)
    (map_outline_labels F)
  have nodup : (F'.outline.map fst).Nodup := by
    rw [outline]
    exact removeDead_nodup treeNodup
  have inTree : ∀ x ∈ blocks ++ (.NewDefault, false, .br (.block Target)) ::
      (F.map Label.block).outline, x.1 ≠ .block CurBlock ->
        x ∈ treeOutline CurBlock Target entry blocks (F.map Label.block).outline :=
    fun x inList other => List.mem_map.mpr ⟨x, inList, if_neg other⟩
  have newDefault : (Label.NewDefault, false, Terminator.br (.block Target)) ∈
      treeOutline CurBlock Target entry blocks (F.map Label.block).outline :=
    inTree _ (mem_append_right _ mem_cons_self) (newDefault_ne CurBlock)
  have curBlock : (Label.block CurBlock, !block.PHIs.isEmpty, Terminator.br entry) ∈
      treeOutline CurBlock Target entry blocks (F.map Label.block).outline := by
    exact List.mem_map.mpr ⟨_, mem_append_right _ (mem_cons_of_mem _
      (mem_map_outline mem)), if_pos rfl⟩
  -- A block of the tree stays unless it is the old default without predecessors.
  have stays : ∀ x ∈ treeOutline CurBlock Target entry blocks (F.map Label.block).outline,
      (x.1 ≠ .block OldDefault ∨ ∃ y ∈ treeOutline CurBlock Target entry blocks
        (F.map Label.block).outline, .block OldDefault ∈ y.2.2.successors) ->
      ∃ block, F'.block x.1 = some block ∧ block.terminator = x.2.2 := by
    intro x inOutline isKept
    have inLowered : (x.1, x.2.1, x.2.2) ∈ F'.outline := by
      rw [outline]
      exact mem_removeDead inOutline isKept
    exact Function.block_of_mem nodup inLowered
  have found : ∀ x ∈ blocks, ∃ block, F'.block x.1 = some block ∧ block.terminator = x.2.2 := by
    intro x inBlocks
    have notBlock := (emits.labels x inBlocks).1.ne_block
    exact stays x (inTree x (mem_append_left _ inBlocks) (notBlock CurBlock))
      (.inl (notBlock OldDefault))
  rcases stays _ newDefault (.inl (newDefault_ne OldDefault)) with
    ⟨default, isDefault, defaultTerminator⟩
  have curStays : Label.block CurBlock ≠ .block OldDefault ∨ ∃ y ∈ treeOutline CurBlock Target entry
      blocks (F.map Label.block).outline, .block OldDefault ∈ y.2.2.successors := by
    rcases kept with rfl | other
    · exact .inr ⟨_, newDefault, mem_cons_self⟩
    · exact .inl fun same => other (Label.block.inj same).symm
  rcases stays _ curBlock curStays with ⟨block', isBlock, terminator⟩
  refine ⟨block', isBlock, fun Val reachable within target inCluster otherwise isTarget => ?_⟩
  have leads : Leads F' Val entry target := by
    refine emits.leads width ordered found reachable within inCluster fun noCluster => ?_
    rw [otherwise noCluster]
    exact Leads.step newDefault_ne isDefault (by rw [defaultTerminator]; rfl) (Leads.arrive Target)
  refine ⟨entry, by rw [terminator]; rfl, leads, ?_⟩
  have targetInTree : ∃ hasPHIs terminator, (Label.block target, hasPHIs, terminator) ∈
      treeOutline CurBlock Target entry blocks (F.map Label.block).outline := by
    rcases isTarget with ⟨last, inBlocks⟩
    by_cases isCur : target = CurBlock
    · subst isCur
      exact ⟨_, _, curBlock⟩
    · exact ⟨_, _, inTree _ (mem_append_right _ (mem_cons_of_mem _
        (mem_map_outline inBlocks))) fun same => isCur (Label.block.inj same)⟩
  rcases targetInTree with ⟨hasPHIs, targetTerminator, targetMember⟩
  have targetStays : Label.block target ≠ .block OldDefault ∨ ∃ y ∈ treeOutline CurBlock Target entry
      blocks (F.map Label.block).outline, .block OldDefault ∈ y.2.2.successors := by
    by_cases isOld : target = OldDefault
    · rcases leads.exists_edge created with ⟨y, inOutline, edge⟩
      rw [outline] at inOutline
      exact .inr ⟨y, (removeDead_sublist _ _).subset inOutline, isOld ▸ edge⟩
    · exact .inl fun same => isOld (Label.block.inj same)
  rcases stays _ targetMember targetStays with ⟨last, isLast, _⟩
  exact ⟨last, isLast⟩

/-! ## The pass -/

/-- A branch in place of the switch. -/
theorem branchTo_leads (nodup : (F.blocks.map fst).Nodup) {CurBlock Target : B} {block last :
    Block B V W} (mem : (CurBlock, block) ∈ F.blocks) (isTarget : (Target, last) ∈ F.blocks) :
    ∃ block', (branchTo F CurBlock Target).block (.block CurBlock) = some block' ∧ ∀ Val,
      ∃ next, block'.terminator.follow Val = some next ∧
        Leads (branchTo F CurBlock Target) Val next Target ∧
        ∃ last, (branchTo F CurBlock Target).block (.block Target) = some last := by
  have outline : (branchTo F CurBlock Target).outline =
      setOutline (.block CurBlock) (.br (.block Target)) (F.map Label.block).outline :=
    Function.setTerminator_outline _ _ _
  have nodup' : ((branchTo F CurBlock Target).outline.map fst).Nodup := by
    rw [outline, setOutline_labels]
    exact map_outline_nodup nodup
  have curBlock : (Label.block CurBlock, !block.PHIs.isEmpty, Terminator.br (.block Target)) ∈
      (branchTo F CurBlock Target).outline := by
    rw [outline]
    exact List.mem_map.mpr ⟨_, mem_map_outline mem, if_pos rfl⟩
  rcases Function.block_of_mem nodup' curBlock with ⟨block', isBlock, terminator⟩
  refine ⟨block', isBlock, fun Val => ⟨.block Target, by rw [terminator]; rfl,
    Leads.arrive Target, ?_⟩⟩
  by_cases isCur : Target = CurBlock
  · subst isCur
    exact ⟨block', isBlock⟩
  · have target : (Label.block Target, !last.PHIs.isEmpty, last.terminator.map Label.block) ∈
        (branchTo F CurBlock Target).outline := by
      rw [outline]
      exact List.mem_map.mpr ⟨_, mem_map_outline isTarget, if_neg fun same =>
        isCur (Label.block.inj same)⟩
    rcases Function.block_of_mem nodup' target with ⟨last', isLast, _⟩
    exact ⟨last', isLast⟩

variable {SI : SwitchInst B W}

theorem successor_of_mem {b : B} (mem : (Val, b) ∈ SI.cases) : SI.successor Val = b := by
  rw [successor_eq, (find_Clusterify SI Val).mpr mem]
  rfl

theorem successor_of_not_mem
    (notCase : ∀ b, (Val, b) ∉ SI.cases) : SI.successor Val = SI.defaultDest := by
  rw [successor_eq, eq_none_iff_forall_not_mem.mpr fun b found =>
    notCase b ((find_Clusterify SI Val).mp found)]
  rfl

theorem successor_clusters (SI : SwitchInst B W) (Val : BitVec W) :
    (∀ t, find (ranges (clusters SI)) Val.toInt = some t -> t = .block (SI.successor Val)) ∧
      (find (ranges (clusters SI)) Val.toInt = none -> SI.successor Val = SI.defaultDest) := by
  constructor
  · intro t found
    rcases (find_clusters SI Val).mp found with ⟨b, rfl, mem⟩
    rw [successor_of_mem mem]
  · intro notFound
    refine successor_of_not_mem fun b mem => ?_
    rw [(find_clusters SI Val).mpr ⟨b, rfl, mem⟩] at notFound
    cases notFound

theorem exists_successor (wf : F.WellFormed) {CurBlock : B} {block : Block B V W} (mem :
    (CurBlock, block) ∈ F.blocks) (isSwitch : block.terminator = .switch SI) (Val : BitVec W) :
    ∃ last, (SI.successor Val, last) ∈ F.blocks := by
  refine wf.closed _ mem _ ?_
  rw [isSwitch]
  change SI.successor Val ∈ SI.defaultDest :: SI.cases.map snd
  by_cases isCase : ∃ b, (Val, b) ∈ SI.cases
  · rcases isCase with ⟨b, inCases⟩
    rw [successor_of_mem inCases]
    exact mem_cons_of_mem _ (List.mem_map_of_mem (f := snd) inCases)
  · rw [successor_of_not_mem (not_exists.mp isCase)]
    exact mem_cons_self

/-- The lowered switch leads to the same successor as the switch. -/
theorem processSwitchInst_leads {F : Function B V W} (wf : F.WellFormed) {CurBlock : B}
    {block default : Block B V W} {SI : SwitchInst B W} (mem : (CurBlock, block) ∈ F.blocks)
    (isSwitch : block.terminator = .switch SI) (defaultMember : (SI.defaultDest, default) ∈ F.blocks) :
    ∃ F' block', processSwitchInst F CurBlock = some F' ∧
      F'.block (.block CurBlock) = some block' ∧
      ∀ Val, (default.startsUnreachable = true -> Val ∈ SI.cases.map fst) ->
        ∃ next, block'.terminator.follow Val = some next ∧
          Leads F' Val next (SI.successor Val) ∧
          ∃ last, F'.block (.block (SI.successor Val)) = some last := by
  by_cases cases : SI.cases = []
  · rcases branchTo_leads wf.nodup mem defaultMember with ⟨block', isBlock, leads⟩
    refine ⟨_, block', processSwitchInst_empty wf.nodup mem isSwitch cases, isBlock,
      fun Val _ => ?_⟩
    have successor : SI.successor Val = SI.defaultDest := by
      rw [SwitchInst.successor, cases]
      rfl
    rw [successor]
    exact leads Val
  · cases reachable : default.startsUnreachable with
    | false =>
      rcases processSwitchInst_lowered wf mem isSwitch defaultMember cases reachable with
        ⟨F', result, lowered⟩
      rcases lowered.leads wf mem (.inl rfl) SI.width.2 (clusters_ordered SI) with
        ⟨block', isBlock, leads⟩
      refine ⟨F', block', result, isBlock, fun Val _ => ?_⟩
      exact leads Val (fun R inNone => absurd inNone not_mem_nil)
        ⟨fun _ isBound => absurd isBound.symm (some_ne_none _),
          fun _ isBound => absurd isBound.symm (some_ne_none _)⟩ _
        (successor_clusters SI Val).1 (successor_clusters SI Val).2
        (exists_successor wf mem isSwitch Val)
    | true =>
      rcases unreachableRanges_avoids SI.width.2 (clusters_ordered SI) with
        ⟨Ranges, isRanges, avoids⟩
      rcases popularSuccessor_clusters cases with ⟨P, isPopular, popular⟩
      by_cases remaining : (clusters SI).filter (fun I => decide (I.BB ≠ .block P)) = []
      · have onlyP : ∀ Val b, (Val, b) ∈ SI.cases -> b = P := by
          intro Val b inCases
          by_contra other
          rcases exists_cluster inCases with ⟨C, inClusters, _, target⟩
          have notP : C.BB ≠ .block P := fun same =>
            other (Label.block.inj (target.symm.trans same))
          have remains : C ∈ (clusters SI).filter fun I => decide (I.BB ≠ .block P) :=
            mem_filter.mpr ⟨inClusters, decide_eq_true notP⟩
          rw [remaining] at remains
          exact absurd remains not_mem_nil
        rcases exists_mem_of_ne_nil _ cases with ⟨⟨first, b⟩, firstCase⟩
        have isP := onlyP first b firstCase
        rcases exists_successor wf mem isSwitch first with ⟨last, isBlock⟩
        rw [successor_of_mem firstCase, isP] at isBlock
        rcases branchTo_leads wf.nodup mem isBlock with ⟨block', isBlock', leads⟩
        have result := processSwitchInst_unreachable wf.nodup mem isSwitch defaultMember
          cases reachable isRanges isPopular
        rw [remaining] at result
        refine ⟨_, block', result, isBlock', fun Val isCase => ?_⟩
        rcases exists_of_mem_map (isCase rfl) with ⟨⟨Val', b'⟩, inCases, rfl⟩
        rw [successor_of_mem inCases, onlyP Val' b' inCases]
        exact leads Val'
      · rcases processSwitchInst_lowered_unreachable wf mem isSwitch defaultMember cases
          reachable isRanges isPopular popular remaining with ⟨F', result, lowered⟩
        have ordered : Ordered (ranges ((clusters SI).filter fun I => decide (I.BB ≠ .block P))) := by
          rw [ranges_filter]
          exact (clusters_ordered SI).without _
        rcases lowered.leads wf mem (.inr (default_ne wf mem isSwitch
          defaultMember reachable)) SI.width.2 ordered with ⟨block', isBlock, leads⟩
        refine ⟨F', block', result, isBlock, fun Val isCase => ?_⟩
        rcases exists_of_mem_map (isCase rfl) with ⟨⟨Val', b⟩, inCases, rfl⟩
        rcases exists_cluster inCases with ⟨C, inClusters, holds, target⟩
        have found := (find_clusters SI Val').mpr ⟨b, rfl, inCases⟩
        have split := find_without (clusters_ordered SI) (Label.block P) Val'.toInt
        rw [<- ranges_filter, found] at split
        refine leads Val' (fun R inRanges => avoids R inRanges C inClusters _ holds)
          (within_bounds (clusters_ordered SI) inClusters holds) _ (fun t isFound => ?_)
          (fun notFound => ?_) (exists_successor wf mem isSwitch Val')
        · rw [split] at isFound
          split at isFound
          · cases isFound
          · rw [successor_of_mem inCases]
            exact (some.inj isFound).symm
        · rw [split] at notFound
          split at notFound
          · rename_i same
            rw [successor_of_mem inCases]
            exact Label.block.inj (some.inj same)
          · cases notFound

/-- Three cases of a byte, two of them with one successor. -/
def threeCases : SwitchInst (Fin 4) 8 where
  cases := [(0, 1), (1, 1), (2, 2)]
  defaultDest := 3
  distinct := by decide
  numOperands := by decide
  width := by decide

/-- The switch on three cases with an unreachable default block.  The successor
of two cases has a PHI node. -/
def threeCasesFunction : Function (Fin 4) Bool 8 :=
  ⟨[(0, ⟨[], false, .switch threeCases⟩), (1, ⟨[[(0, true), (0, true)]], false, .other []⟩),
    (2, ⟨[], false, .other []⟩), (3, ⟨[], false, .unreachable⟩)]⟩

theorem threeCasesFunction_wellFormed : threeCasesFunction.WellFormed where
  nodup := by decide
  closed := fun _ _ BB _ => match BB with
    | 0 => ⟨_, mem_cons_self⟩
    | 1 => ⟨_, mem_cons_of_mem _ mem_cons_self⟩
    | 2 => ⟨_, mem_cons_of_mem _ (mem_cons_of_mem _ mem_cons_self)⟩
    | 3 => ⟨_, mem_cons_of_mem _ (mem_cons_of_mem _ (mem_cons_of_mem _
        mem_cons_self))⟩
  consistent := by
    unfold Function.Consistent
    decide

theorem processSwitchInst_leads_threeCases :
    ∃ F' block', processSwitchInst threeCasesFunction 0 = some F' ∧
      F'.block (.block 0) = some block' ∧
      ∀ Val, (true = true -> Val ∈ threeCases.cases.map fst) ->
        ∃ next, block'.terminator.follow Val = some next ∧
          Leads F' Val next (threeCases.successor Val) ∧
          ∃ last, F'.block (.block (threeCases.successor Val)) = some last :=
  processSwitchInst_leads threeCasesFunction_wellFormed mem_cons_self rfl
    (mem_cons_of_mem _ (mem_cons_of_mem _ (mem_cons_of_mem _ mem_cons_self)))

end LowerSwitch
end LlvmProject
