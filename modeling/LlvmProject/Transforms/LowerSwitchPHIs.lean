import LlvmProject.Transforms.LowerSwitch
import Mathlib.Algebra.BigOperators.Group.List.Basic

namespace LlvmProject

open List

namespace LowerSwitch

/-!
# Incoming entries

Every change of PHI nodes takes a number of entries from one block and gives
one entry to another.  As long as all PHI nodes of a block have the same
entries the function is described by its outline, the blocks without their PHI
nodes, and by the number of entries in each block from each other.
-/

section Entries

variable {L V : Type} [DecidableEq L]

/-- The number of incoming entries from a block. -/
def entries (PN : List (L × V)) (P : L) : Nat := PN.countP fun incoming => decide (incoming.1 = P)

theorem entries_cons (incoming : L × V) (PN : List (L × V)) (P : L) :
    entries (incoming :: PN) P = (if P = incoming.1 then 1 else 0) + entries PN P := by
  rw [entries, countP_cons, add_comm]
  refine congrArg (· + _) (if_congr ?_ rfl rfl)
  rw [decide_eq_true_eq]
  exact eq_comm

variable {PN : List (L × V)}

theorem setIncomingBlock_spec {OrigBlock : L} (NewBlock : L) (there : 0 < entries PN OrigBlock) :
    ∃ PN', setIncomingBlock OrigBlock NewBlock PN = some PN' ∧
      ∀ P, entries PN' P + (if P = OrigBlock then 1 else 0) =
        entries PN P + (if P = NewBlock then 1 else 0) := by
  induction PN with
  | nil => cases there
  | cons incoming PN ih =>
    rw [setIncomingBlock]
    by_cases same : incoming.1 = OrigBlock
    · refine ⟨_, if_pos same, fun P => ?_⟩
      rw [entries_cons, entries_cons, same]
      dsimp only
      omega
    · rw [entries_cons, if_neg (Ne.symm same), zero_add] at there
      rcases ih there with ⟨PN', result, counts⟩
      refine ⟨incoming :: PN', by rw [if_neg same, result]; rfl, fun P => ?_⟩
      have count := counts P
      rw [entries_cons, entries_cons]
      omega

theorem removeIncomingValue_spec {BB : L} (there : 0 < entries PN BB) :
    ∃ PN', removeIncomingValue BB PN = some PN' ∧
      ∀ P, entries PN' P + (if P = BB then 1 else 0) = entries PN P := by
  induction PN with
  | nil => cases there
  | cons incoming PN ih =>
    rw [removeIncomingValue]
    by_cases same : incoming.1 = BB
    · refine ⟨_, if_pos same, fun P => ?_⟩
      rw [entries_cons, same]
      omega
    · rw [entries_cons, if_neg (Ne.symm same), zero_add] at there
      rcases ih there with ⟨PN', result, counts⟩
      refine ⟨incoming :: PN', by rw [if_neg same, result]; rfl, fun P => ?_⟩
      have count := counts P
      rw [entries_cons, entries_cons]
      omega

theorem removeIncomingValues_spec {BB : L} {n : Nat} (there : n <= entries PN BB) :
    ∃ PN', removeIncomingValues BB n PN = some PN' ∧
      ∀ P, entries PN' P + (if P = BB then n else 0) = entries PN P := by
  induction n generalizing PN with
  | zero => exact ⟨PN, rfl, fun P => by rw [ite_self]; rfl⟩
  | succ n ih =>
    rcases removeIncomingValue_spec (lt_of_lt_of_le (Nat.succ_pos n) there) with
      ⟨PN₁, first, firstCounts⟩
    have left := firstCounts BB
    rw [if_pos rfl] at left
    have enough : n <= entries PN₁ BB := by omega
    rcases ih enough with ⟨PN', rest, counts⟩
    refine ⟨PN', by rw [removeIncomingValues, first]; exact rest, fun P => ?_⟩
    rw [<- firstCounts P, <- counts P]
    split <;> omega

theorem removeOccurrences_entries {OrigBB : L} {n : Nat} (there : n <= entries PN OrigBB) (P : L) :
    entries (removeOccurrences OrigBB n PN) P + (if P = OrigBB then n else 0) = entries PN P := by
  induction PN generalizing n with
  | nil =>
    rw [Nat.le_zero.mp there, removeOccurrences, ite_self]
    rfl
  | cons incoming PN ih =>
    cases n with
    | zero =>
      rw [removeOccurrences, ite_self]
      rfl
    | succ n =>
      rw [entries_cons] at there
      rw [removeOccurrences]
      by_cases same : incoming.1 = OrigBB
      · rw [if_pos same.symm] at there
        have count := ih (n := n) (by omega)
        rw [if_pos same, entries_cons, same]
        by_cases isOrig : P = OrigBB
        · rw [if_pos isOrig] at count ⊢
          rw [if_pos isOrig]
          omega
        · rw [if_neg isOrig] at count ⊢
          rw [if_neg isOrig]
          omega
      · rw [if_neg (Ne.symm same), zero_add] at there
        have count := ih there
        rw [if_neg same, entries_cons, entries_cons]
        omega

/-- The first occurrence is updated and as many as there were merged are
removed. -/
theorem fixPhi_entries {OrigBB : L} (NewBB : L) {NumMergedCases : Nat}
    (there : NumMergedCases < entries PN OrigBB) (P : L) :
    entries (fixPhi OrigBB NewBB NumMergedCases PN) P +
        (if P = OrigBB then NumMergedCases + 1 else 0) =
      entries PN P + (if P = NewBB then 1 else 0) := by
  induction PN with
  | nil => cases there
  | cons incoming PN ih =>
    rw [entries_cons] at there
    rw [fixPhi]
    by_cases same : incoming.1 = OrigBB
    · rw [if_pos same.symm] at there
      have enough : NumMergedCases <= entries PN OrigBB := by omega
      have count := removeOccurrences_entries enough P
      rw [if_pos same, entries_cons, entries_cons, same]
      dsimp only
      by_cases isOrig : P = OrigBB
      · rw [if_pos isOrig] at count ⊢
        rw [if_pos isOrig]
        omega
      · rw [if_neg isOrig] at count ⊢
        rw [if_neg isOrig]
        omega
    · rw [if_neg (Ne.symm same), zero_add] at there
      have count := ih there
      rw [if_neg same, entries_cons, entries_cons]
      omega

end Entries

/-! ## Outlines -/

section Outlines

variable {L V : Type} {W : Nat}

/-- The blocks, each with whether it has PHI nodes and with its terminator. -/
def Function.outline (F : Function L V W) : List (L × Bool × Terminator L W) :=
  F.blocks.map fun entry => (entry.1, !entry.2.PHIs.isEmpty, entry.2.terminator)

variable [DecidableEq L]

/-- A block has PHI nodes. -/
def WithPHIs (outline : List (L × Bool × Terminator L W)) (l : L) : Prop :=
  ∃ x ∈ outline, x.1 = l ∧ x.2.1 = true

/-- All PHI nodes of a block have the same entries. -/
def Function.Counts (F : Function L V W) (c : L -> L -> Nat) : Prop :=
  ∀ entry ∈ F.blocks, ∀ PN ∈ entry.2.PHIs, ∀ P, entries PN P = c entry.1 P

/-- The number of edges from one block to another. -/
def edgesOf (outline : List (L × Bool × Terminator L W)) (P BB : L) : Nat :=
  (outline.map fun entry => if entry.1 = P then entry.2.2.successors.count BB else 0).sum

theorem edgesOf_cons (entry : L × Bool × Terminator L W) (rest : List (L × Bool × Terminator L W))
    (P BB : L) :
    edgesOf (entry :: rest) P BB =
      (if entry.1 = P then entry.2.2.successors.count BB else 0) + edgesOf rest P BB := by
  rw [edgesOf, map_cons, sum_cons]
  rfl

theorem edgesOf_append (left right : List (L × Bool × Terminator L W)) (P BB : L) :
    edgesOf (left ++ right) P BB = edgesOf left P BB + edgesOf right P BB := by
  rw [edgesOf, map_append, sum_append]
  rfl

theorem find_label {α : Type} {l : List (L × α)} (nodup : (l.map fun e => e.1).Nodup) {entry : L × α}
    (mem : entry ∈ l) : l.find? (fun e => decide (e.1 = entry.1)) = some entry := by
  induction l with
  | nil => exact absurd mem not_mem_nil
  | cons e l ih =>
    rcases nodup_cons.mp nodup with ⟨notLater, rest⟩
    rw [find?_cons]
    rcases mem_cons.mp mem with rfl | later
    · rw [decide_eq_true rfl]
    · have ne : e.1 ≠ entry.1 := fun same =>
        notLater (mem_map.mpr ⟨entry, later, same.symm⟩)
      rw [decide_eq_false ne]
      exact ih rest later

namespace Function

variable {F : Function L V W} {c : L -> L -> Nat}

theorem edges_eq (F : Function L V W) (P BB : L) : F.edges P BB = edgesOf F.outline P BB := by
  rw [edges, edgesOf, outline, map_map]
  rfl

/-- A function is consistent if the entries are the edges, where there are PHI
nodes. -/
theorem consistent_iff (counts : F.Counts c) :
    F.Consistent ↔ ∀ l, WithPHIs F.outline l -> ∀ P, c l P = edgesOf F.outline P l := by
  constructor
  · rintro consistent l ⟨x, mem, rfl, hasPHIs⟩ P
    rcases mem_map.mp mem with ⟨entry, inBlocks, rfl⟩
    cases nodes : entry.2.PHIs with
    | nil =>
      rw [nodes] at hasPHIs
      cases hasPHIs
    | cons PN PHIs =>
      have isNode : PN ∈ entry.2.PHIs := by
        rw [nodes]
        exact mem_cons_self
      rw [<- edges_eq, <- counts entry inBlocks PN isNode P]
      exact consistent entry inBlocks PN isNode P
  · intro equal entry inBlocks PN isNode P
    refine (counts entry inBlocks PN isNode P).trans ?_
    rw [edges_eq]
    refine equal _ ⟨_, mem_map_of_mem inBlocks, rfl, ?_⟩ P
    rw [Bool.not_eq_true', isEmpty_eq_false_iff]
    exact ne_nil_of_mem isNode

omit [DecidableEq L] in
theorem insert_outline (F : Function L V W) (BB : L) (hasInstructions : Bool)
    (terminator : Terminator L W) :
    (F.insert BB hasInstructions terminator).outline = (BB, false, terminator) :: F.outline := rfl

theorem Counts.insert (counts : F.Counts c) (BB : L) (hasInstructions : Bool)
    (terminator : Terminator L W) : (F.insert BB hasInstructions terminator).Counts c := by
  intro entry mem PN isNode
  rcases mem_cons.mp mem with rfl | old
  · exact absurd isNode not_mem_nil
  · exact counts entry old PN isNode

/-- A block is found by its label if labels are different. -/
theorem block_of_mem (nodup : (F.outline.map Prod.fst).Nodup) {BB : L} {hasPHIs : Bool}
    {terminator : Terminator L W} (mem : (BB, hasPHIs, terminator) ∈ F.outline) :
    ∃ block, F.block BB = some block ∧ block.terminator = terminator := by
  rcases mem_map.mp mem with ⟨entry, inBlocks, same⟩
  have label : entry.1 = BB := congrArg Prod.fst same
  have isTerminator : entry.2.terminator = terminator := congrArg (fun x => x.2.2) same
  rw [outline, map_map] at nodup
  refine ⟨entry.2, ?_, isTerminator⟩
  rw [block, <- label, find_label nodup inBlocks]
  rfl

end Function

/-! ## Updates -/

/-- A monadic map has a result if it has one for each element. -/
theorem mapM_some {α β γ : Type} {f : α -> Option β} {g : α -> γ} {g' : β -> γ} {Q : β -> Prop}
    {l : List α} (each : ∀ a ∈ l, ∃ b, f a = some b ∧ g' b = g a ∧ Q b) :
    ∃ l', l.mapM f = some l' ∧ l'.map g' = l.map g ∧ ∀ b ∈ l', Q b := by
  induction l with
  | nil => exact ⟨[], rfl, rfl, fun _ mem => absurd mem not_mem_nil⟩
  | cons a l ih =>
    rcases each a mem_cons_self with ⟨b, first, same, holds⟩
    rcases ih fun x mem => each x (mem_cons_of_mem a mem) with
      ⟨l', rest, sameRest, all⟩
    refine ⟨b :: l', ?_, ?_, forall_mem_cons.mpr ⟨holds, all⟩⟩
    · rw [mapM_cons, first, rest]
      rfl
    · rw [map_cons, map_cons, same, sameRest]

/-- The entries after a number of entries in one block are taken from another
and one is given to a third. -/
def moved (c : L -> L -> Nat) (BB OrigBlock : L) (size : Nat) (NewBlock : L) : L -> L -> Nat :=
  fun l P =>
    if l = BB then
      c BB P - (if P = OrigBlock then size else 0) + (if P = NewBlock then 1 else 0)
    else c l P

variable {c : L -> L -> Nat}

theorem moved_add {BB OrigBlock : L} {size : Nat}
    (enough : size <= c BB OrigBlock) (NewBlock l P : L) :
    moved c BB OrigBlock size NewBlock l P + (if l = BB ∧ P = OrigBlock then size else 0) =
      c l P + (if l = BB ∧ P = NewBlock then 1 else 0) := by
  unfold moved
  by_cases same : l = BB
  · subst same
    by_cases orig : P = OrigBlock
    · subst orig
      simp
      omega
    · simp [orig]
  · simp [same]

namespace Function

variable {F : Function L V W} {c : L -> L -> Nat}

theorem updatePHIs_spec (counts : F.Counts c) (BB OrigBlock : L) (size : Nat) (NewBlock : L) {update
    : List (L × V) -> Option (List (L × V))} (updates : ∀ PN, entries PN OrigBlock = c BB OrigBlock
    -> ∃ PN', update PN = some PN' ∧ ∀ P, entries PN' P + (if P = OrigBlock then size else 0) =
    entries PN P + (if P = NewBlock then 1 else 0)) (enough : size <= c BB OrigBlock) :
    ∃ F', F.updatePHIs BB update = some F' ∧ F'.outline = F.outline ∧
      F'.Counts (moved c BB OrigBlock size NewBlock) := by
  have each : ∀ entry ∈ F.blocks, ∃ entry',
      (if entry.1 = BB then do
          let PHIs <- entry.2.PHIs.mapM update
          return (entry.1, { entry.2 with PHIs := PHIs })
        else return entry : Option (L × Block L V W)) = some entry' ∧
      (entry'.1, !entry'.2.PHIs.isEmpty, entry'.2.terminator) =
          (entry.1, !entry.2.PHIs.isEmpty, entry.2.terminator) ∧
        ∀ PN ∈ entry'.2.PHIs, ∀ P, entries PN P = moved c BB OrigBlock size NewBlock entry'.1 P := by
    intro entry inBlocks
    by_cases same : entry.1 = BB
    · have nodes : ∀ PN ∈ entry.2.PHIs, ∃ PN', update PN = some PN' ∧ () = () ∧
          ∀ P, entries PN' P = moved c BB OrigBlock size NewBlock entry.1 P := by
        intro PN isNode
        have before : ∀ P, entries PN P = c entry.1 P := counts entry inBlocks PN isNode
        rcases updates PN (by rw [before, same]) with ⟨PN', result, after⟩
        refine ⟨PN', result, rfl, fun P => ?_⟩
        have balance := moved_add enough NewBlock entry.1 P
        have change' := after P
        rw [before] at change'
        simp only [same, true_and] at balance change' ⊢
        omega
      rcases mapM_some nodes with ⟨PHIs, result, sameLen, all⟩
      refine ⟨(entry.1, { entry.2 with PHIs := PHIs }), by rw [if_pos same, result]; rfl, ?_, all⟩
      have lengths := congrArg length sameLen
      rw [length_map, length_map] at lengths
      have empty : PHIs.isEmpty = entry.2.PHIs.isEmpty := by
        rw [Bool.eq_iff_iff, isEmpty_iff_length_eq_zero, isEmpty_iff_length_eq_zero, lengths]
      dsimp only
      rw [empty]
    · refine ⟨entry, if_neg same, rfl, fun PN isNode P => ?_⟩
      rw [moved, if_neg same]
      exact counts entry inBlocks PN isNode P
  rcases mapM_some each with ⟨blocks, result, outlines, all⟩
  exact ⟨⟨blocks⟩, by rw [updatePHIs, result]; rfl, outlines, all⟩

end Function

variable {F : Function L V W}

theorem fixPhis_spec (counts : F.Counts c) (SuccBB : L)
    {OrigBB : L} (NewBB : L) {NumMergedCases : Nat} (enough : NumMergedCases < c SuccBB OrigBB) :
    ∃ F', fixPhis F SuccBB OrigBB NewBB NumMergedCases = some F' ∧ F'.outline = F.outline ∧
      F'.Counts (moved c SuccBB OrigBB (NumMergedCases + 1) NewBB) := by
  refine Function.updatePHIs_spec counts SuccBB OrigBB (NumMergedCases + 1) NewBB
    (fun PN before => ⟨_, rfl, fun P => ?_⟩) enough
  exact fixPhi_entries NewBB (before ▸ enough) P

theorem setIncomingBlocks_spec (counts : F.Counts c) (BB : L)
    {OrigBlock : L} (NewBlock : L) (enough : 0 < c BB OrigBlock) :
    ∃ F', F.updatePHIs BB (fun PN => setIncomingBlock OrigBlock NewBlock PN) = some F' ∧
      F'.outline = F.outline ∧ F'.Counts (moved c BB OrigBlock 1 NewBlock) :=
  Function.updatePHIs_spec counts BB OrigBlock 1 NewBlock
    (fun _ before => setIncomingBlock_spec NewBlock (before ▸ enough)) enough

theorem condenseEntries_spec (counts : F.Counts c) (BB : L)
    {OrigBlock : L} (NewBlock : L) {Range : Nat} (enough : Range < c BB OrigBlock) :
    ∃ F', F.updatePHIs BB (fun PN => (removeIncomingValues OrigBlock Range PN).bind
        (setIncomingBlock OrigBlock NewBlock)) = some F' ∧
      F'.outline = F.outline ∧ F'.Counts (moved c BB OrigBlock (Range + 1) NewBlock) := by
  refine Function.updatePHIs_spec counts BB OrigBlock (Range + 1) NewBlock (fun PN before => ?_) enough
  rw [<- before] at enough
  rcases removeIncomingValues_spec enough.le with ⟨PN₁, removed, removedCounts⟩
  have left := removedCounts OrigBlock
  rw [if_pos rfl] at left
  have one : 0 < entries PN₁ OrigBlock := by omega
  rcases setIncomingBlock_spec NewBlock one with
    ⟨PN', result, counts'⟩
  refine ⟨PN', by rw [removed]; exact result, fun P => ?_⟩
  have first := removedCounts P
  have second := counts' P
  by_cases isOrig : P = OrigBlock
  · rw [if_pos isOrig] at first second ⊢
    omega
  · rw [if_neg isOrig] at first second ⊢
    omega

end Outlines

end LowerSwitch
end LlvmProject
