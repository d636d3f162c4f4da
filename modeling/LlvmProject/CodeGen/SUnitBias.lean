import LlvmProject.CodeGen.SUnitRuns
import Mathlib.Data.Fin.VecNotation

namespace LlvmProject

open List Option

namespace ScheduleDAG

/-!
# The critical predecessor

`biasCriticalPath` moves a deep data predecessor to the front of the list.  It compares every data
predecessor with the depth of the first one, which it never replaces by a greater depth that it
has found.  So the last of the deeper predecessors ends at the front, and not the deepest one.
-/

variable {ι : Type*} [DecidableEq ι]

/-! ## The code -/

namespace SUnits

variable (fuel : Nat) (units : SUnits ι)

/-- The number of the data predecessors. -/
def NumPreds (SU : ι) : Nat := (units.Preds SU).countP (·.getKind = .Data)

/-- The position of the best predecessor, for those from the position `I` on. -/
def biasLoop (MaxDepth : UInt32) :
    List (SDep ι) -> Nat -> Nat -> SUnits ι -> Option (Nat × SUnits ι)
  | [], _, BestI, units => some (BestI, units)
  | dep :: deps, I, BestI, units =>
    if dep.getKind = .Data then
      (units.getDepth fuel dep.getSUnit).bind fun (depth, units) =>
        biasLoop MaxDepth deps (I + 1) (if depth > MaxDepth then I else BestI) units
    else biasLoop MaxDepth deps (I + 1) BestI units

end SUnits

/-- The first entry and the one at the position change places. -/
def swapFront {α : Type*} : List α -> Nat -> List α
  | first :: rest, k + 1 =>
    match rest[k]? with
    | some best => best :: rest.set k first
    | none => first :: rest
  | entries, _ => entries

def SUnits.biasCriticalPath (fuel : Nat) (units : SUnits ι) (SU : ι) : Option (SUnits ι) :=
  if units.NumPreds SU < 2 then some units
  else
    match units.Preds SU with
    | [] => none
    | first :: rest =>
      (units.getDepth fuel first.getSUnit).bind fun (MaxDepth, units) =>
        (units.biasLoop fuel MaxDepth rest 1 0).map fun (BestI, units) =>
          { units with
            Preds := Function.update units.Preds SU (swapFront (units.Preds SU) BestI) }

/-! ## The best position -/

section Position

variable {α : Type*} {deeper : α -> Bool} {first : α} {rest : List α}

/-- The position of the last entry that is deeper. -/
def bestPosition (deeper : α -> Bool) : List α -> Nat -> Nat -> Nat
  | [], _, BestI => BestI
  | dep :: deps, I, BestI => bestPosition deeper deps (I + 1) (if deeper dep then I else BestI)

theorem bestPosition_spec (deeper : α -> Bool) (deps : List α) (I BestI : Nat) :
    (deps.filter deeper = [] ∧ bestPosition deeper deps I BestI = BestI) ∨
      ∃ k last, (deps.filter deeper).getLast? = some last ∧ deps[k]? = some last ∧
        bestPosition deeper deps I BestI = I + k := by
  induction deps generalizing I BestI with
  | nil => exact .inl ⟨rfl, rfl⟩
  | cons dep deps ih =>
    rw [bestPosition]
    rcases ih (I + 1) (if deeper dep then I else BestI) with
      ⟨none, same⟩ | ⟨k, last, isLast, found, place⟩
    · by_cases deep : deeper dep = true
      · refine .inr ⟨0, dep, ?_, rfl, ?_⟩
        · rw [filter_cons_of_pos deep, none, getLast?_singleton]
        · rw [same, if_pos deep, add_zero]
      · refine .inl ⟨?_, ?_⟩
        · rw [filter_cons_of_neg deep, none]
        · rw [same, if_neg deep]
    · refine .inr ⟨k + 1, last, ?_, found, by omega⟩
      by_cases deep : deeper dep = true
      · rw [filter_cons_of_pos deep, getLast?_cons, isLast, getD_some]
      · rwa [filter_cons_of_neg deep]

theorem swapFront_perm (entries : List α) (place : Nat) :
    (swapFront entries place).Perm entries := by
  rw [swapFront.eq_def]
  split
  · rename_i first rest k
    cases found : rest[k]? with
    | none => exact List.Perm.refl _
    | some best =>
      rcases List.getElem?_eq_some_iff.mp found with ⟨inside, entry⟩
      have swapped := @set_set_perm α (first :: rest) 0 (k + 1) (Nat.succ_pos _)
        (Nat.succ_lt_succ inside)
      rw [<- entry]
      exact swapped
  · exact List.Perm.refl _

theorem head_swapFront (deeper : α -> Bool) (first : α) (rest : List α) :
    (swapFront (first :: rest) (bestPosition deeper rest 1 0)).head? =
      some ((rest.filter deeper).getLast?.getD first) := by
  rcases bestPosition_spec deeper rest 1 0 with ⟨none, same⟩ | ⟨k, last, isLast, found, place⟩
  · rw [same, none]
    rfl
  · rw [place, add_comm, swapFront, found, isLast]
    rfl

end Position

/-! ## Depths -/

variable {inner : ι -> List (SDep ι)} {cache : Cache ι} {units units' : SUnits ι}
  {depth : ι -> UInt32}

/-- A depth is the greatest sum of the depth of a predecessor and the latency from it. -/
def IsDepth (inner : ι -> List (SDep ι)) (depth : ι -> UInt32) : Prop :=
  ∀ v, depth v = most depth (inner v) 0

omit [DecidableEq ι] in
theorem Cached.value_eq [Finite ι] (cached : Cached inner cache) (acyclic : Acyclic inner)
    (isDepth : IsDepth inner depth) {v : ι} (cur : cache.isCurrent v = true) :
    cache.value v = depth v := by
  induction v using acyclic.wellFounded.induction with
  | _ v ih =>
    rw [cached.fixed v cur, isDepth v]
    refine most_congr 0 fun dep mem => ?_
    have edge : Edge inner dep.getSUnit v := ⟨dep, mem, rfl⟩
    exact ih _ edge (cached.closed _ _ edge cur)

theorem getDepth_Preds {fuel : Nat} {SU : ι} {value : UInt32}
    (ran : units.getDepth fuel SU = some (value, units')) : units'.Preds = units.Preds := by
  rw [SUnits.getDepth, map_eq_some_iff] at ran
  rcases ran with ⟨computed, ran, same⟩
  rcases Prod.mk.inj same with ⟨-, rfl⟩
  split at ran
  · cases ran
    rfl
  · rw [SUnits.ComputeDepth, map_eq_some_iff] at ran
    rcases ran with ⟨cache', -, rfl⟩
    rfl

/-- A query answers the depth, and leaves the edges as they are. -/
theorem Consistent.getDepth_value [Finite ι] (consistent : Consistent units)
    (acyclic : Acyclic units.Preds) (isDepth : IsDepth units.Preds depth) (SU : ι) :
    ∃ bound units', (∀ fuel, bound <= fuel ->
        units.getDepth fuel SU = some (depth SU, units')) ∧
      Consistent units' ∧ units'.Preds = units.Preds := by
  rcases consistent.getDepth acyclic SU with ⟨bound, units', ran, after, cur⟩
  have edges := getDepth_Preds (ran bound (le_refl _))
  rw [<- edges] at acyclic isDepth
  refine ⟨bound, units', fun fuel enough => ?_, after, edges⟩
  rw [ran fuel enough, after.depth.value_eq acyclic isDepth cur]

variable (depth) in
/-- A data predecessor that is deeper than another one. -/
def deeperThan (first dep : SDep ι) : Bool :=
  decide (dep.getKind = .Data ∧ depth dep.getSUnit > depth first.getSUnit)

theorem biasLoop_eq [Finite ι] {first : SDep ι} (deps : List (SDep ι)) (I BestI : Nat) (consistent :
    Consistent units) (acyclic : Acyclic units.Preds) (isDepth : IsDepth units.Preds depth) :
    ∃ bound units', (∀ fuel, bound <= fuel ->
        units.biasLoop fuel (depth first.getSUnit) deps I BestI =
          some (bestPosition (deeperThan depth first) deps I BestI, units')) ∧
      units'.Preds = units.Preds := by
  induction deps generalizing I BestI units with
  | nil => exact ⟨0, units, fun fuel _ => rfl, rfl⟩
  | cons dep deps ih =>
    by_cases data : dep.getKind = .Data
    · rcases consistent.getDepth_value acyclic isDepth dep.getSUnit with
        ⟨bound, middle, ran, after, edges⟩
      rw [<- edges] at acyclic isDepth
      rcases ih (I + 1)
        (if depth dep.getSUnit > depth first.getSUnit then I else BestI) after acyclic isDepth
        with ⟨more, last, ranLast, edgesLast⟩
      refine ⟨max bound more, last, fun fuel enough => ?_, edgesLast.trans edges⟩
      have deeper : deeperThan depth first dep =
          decide (depth dep.getSUnit > depth first.getSUnit) := by
        rw [deeperThan]
        exact decide_eq_decide.mpr (and_iff_right data)
      rw [SUnits.biasLoop, if_pos data, ran fuel ((le_max_left _ _).trans enough),
        bestPosition, deeper]
      simp only [bind_some, decide_eq_true_eq]
      exact ranLast fuel ((le_max_right _ _).trans enough)
    · rcases ih (I + 1) BestI consistent acyclic isDepth with
        ⟨bound, last, ran, edges⟩
      refine ⟨bound, last, fun fuel enough => ?_, edges⟩
      have other : deeperThan depth first dep = false := decide_eq_false fun both => data both.1
      rw [SUnits.biasLoop, if_neg data, bestPosition, other]
      exact ran fuel enough

/-- What ends at the front. -/
theorem biasCriticalPath_eq [Finite ι] {SU : ι} {first : SDep ι} {rest : List (SDep ι)} (consistent
    : Consistent units) (acyclic : Acyclic units.Preds) (isDepth : IsDepth units.Preds depth) (two :
    2 <= units.NumPreds SU) (edges : units.Preds SU = first :: rest) :
    ∃ bound units', (∀ fuel, bound <= fuel -> units.biasCriticalPath fuel SU = some units') ∧
      (units'.Preds SU).Perm (units.Preds SU) ∧
      (units'.Preds SU).head? =
        some ((rest.filter (deeperThan depth first)).getLast?.getD first) := by
  rcases consistent.getDepth_value acyclic isDepth first.getSUnit with
    ⟨bound, middle, ran, after, edgesMiddle⟩
  have acyclicMiddle := edgesMiddle ▸ acyclic
  have isDepthMiddle := edgesMiddle ▸ isDepth
  rcases biasLoop_eq rest 1 0 after acyclicMiddle isDepthMiddle with
    ⟨more, last, ranLast, edgesLast⟩
  have list : last.Preds SU = first :: rest := by
    rw [edgesLast, edgesMiddle, edges]
  let swapped := swapFront (last.Preds SU) (bestPosition (deeperThan depth first) rest 1 0)
  refine ⟨max bound more, { last with Preds := Function.update last.Preds SU swapped },
    fun fuel enough => ?_, ?_, ?_⟩
  · rw [SUnits.biasCriticalPath, if_neg (Nat.not_lt_of_le two), edges]
    dsimp only
    rw [ran fuel ((le_max_left _ _).trans enough), bind_some,
      ranLast fuel ((le_max_right _ _).trans enough)]
    rfl
  · dsimp only
    rw [Function.update_self, edges]
    exact list ▸ swapFront_perm _ _
  · dsimp only
    rw [Function.update_self]
    change (swapFront (last.Preds SU) _).head? = _
    rw [list]
    exact head_swapFront _ first rest

/-- No data predecessor is deeper than the one at the front. -/
def Biased (depth : ι -> UInt32) (deps : List (SDep ι)) : Prop :=
  ∀ front ∈ deps.head?, ∀ dep ∈ deps, dep.getKind = .Data ->
    depth dep.getSUnit <= depth front.getSUnit

/-- The list is a permutation of the one before, and has a deepest data predecessor at the front
exactly if the last data predecessor that is deeper than the first one is a deepest one. -/
theorem biasCriticalPath_iff [Finite ι] {SU : ι} {first : SDep ι} {rest : List (SDep ι)} (consistent
    : Consistent units) (acyclic : Acyclic units.Preds) (isDepth : IsDepth units.Preds depth) (two :
    2 <= units.NumPreds SU) (edges : units.Preds SU = first :: rest) :
    ∃ bound units', (∀ fuel, bound <= fuel -> units.biasCriticalPath fuel SU = some units') ∧
      (units'.Preds SU).Perm (units.Preds SU) ∧
      (Biased depth (units'.Preds SU) ↔
        ∀ last ∈ (rest.filter (deeperThan depth first)).getLast?,
          ∀ dep ∈ rest.filter (deeperThan depth first),
            depth dep.getSUnit <= depth last.getSUnit) := by
  rcases biasCriticalPath_eq consistent acyclic isDepth two edges with
    ⟨bound, units', ran, perm, front⟩
  refine ⟨bound, units', ran, perm, ?_⟩
  have mem (dep : SDep ι) : dep ∈ units'.Preds SU ↔ dep = first ∨ dep ∈ rest := by
    rw [perm.mem_iff, edges, mem_cons]
  have deep {dep : SDep ι} (inside : dep ∈ rest.filter (deeperThan depth first)) :
      dep ∈ rest ∧ dep.getKind = .Data ∧ depth first.getSUnit < depth dep.getSUnit := by
    rcases mem_filter.mp inside with ⟨listed, deeper⟩
    exact ⟨listed, of_decide_eq_true deeper⟩
  have shallow {dep : SDep ι} (listed : dep = first ∨ dep ∈ rest) (data : dep.getKind = .Data)
      (outside : dep ∉ rest.filter (deeperThan depth first)) :
      depth dep.getSUnit <= depth first.getSUnit := by
    rcases listed with rfl | listed
    · exact UInt32.le_refl _
    · by_contra deeper
      exact outside (mem_filter.mpr
        ⟨listed, decide_eq_true ⟨data, UInt32.not_le.mp deeper⟩⟩)
  constructor
  · intro biased last isLast dep inside
    rw [isLast, getD_some] at front
    exact biased last front dep ((mem dep).mpr (.inr (deep inside).1)) (deep inside).2.1
  · intro deepest best isFront dep listed data
    rw [front] at isFront
    cases isFront
    cases isLast : (rest.filter (deeperThan depth first)).getLast? with
    | none =>
      have empty := getLast?_eq_none_iff.mp isLast
      rw [getD_none]
      exact shallow ((mem dep).mp listed) data (by simp [empty])
    | some last =>
      rw [getD_some]
      by_cases inside : dep ∈ rest.filter (deeperThan depth first)
      · exact deepest last isLast dep inside
      · have above := (deep (mem_of_getLast? isLast)).2.2
        exact UInt32.le_trans (shallow ((mem dep).mp listed) data inside)
          (UInt32.le_of_lt above)

/-- Two edges from the same unit, for two registers. -/
theorem biasCriticalPath_two : ∃ units units' : SUnits (Fin 2), units.NumPreds 1 = 2 ∧
    (∃ bound, ∀ fuel, bound <= fuel -> units.biasCriticalPath fuel 1 = some units') ∧
    Biased ![0, 3] (units'.Preds 1) := by
  let add : Operation (Fin 2) := .addPred 1 ⟨0, .Data, 0, 3⟩ true
  let addSecond : Operation (Fin 2) := .addPred 1 ⟨0, .Data, 1, 2⟩ true
  let once : SUnits (Fin 2) := (execute 8 SUnits.unlinked add).get rfl
  let twice : SUnits (Fin 2) := (execute 8 once addSecond).get rfl
  have start : Reachable (SUnits.unlinked : SUnits (Fin 2)) :=
    .start Linked.unlinked (Dag.of_two (by decide) (by decide)) (fun _ => rfl) fun _ => rfl
  have sound : Sound SUnits.unlinked add := fun zero => absurd zero (by decide)
  have soundSecond : Sound once addSecond := fun zero => absurd zero (by decide)
  have adds : Executes SUnits.unlinked add once := by
    refine ⟨8, fun fuel enough => ?_⟩
    rcases Nat.exists_eq_add_of_le' enough with ⟨more, rfl⟩
    rfl
  have addsSecond : Executes once addSecond twice := by
    refine ⟨8, fun fuel enough => ?_⟩
    rcases Nat.exists_eq_add_of_le' enough with ⟨more, rfl⟩
    rfl
  have reached : Reachable once := start.step sound adds (Dag.of_two (by decide) (by decide))
  have last : Reachable twice :=
    reached.step soundSecond addsSecond (Dag.of_two (by decide) (by decide))
  have isDepth : IsDepth twice.Preds ![0, 3] := by
    intro v
    revert v
    decide
  rcases @biasCriticalPath_iff (Fin 2) _ twice ![0, 3] _ 1 ⟨0, .Data, 0, 3⟩ [⟨0, .Data, 1, 2⟩]
    last.consistent last.dag.acyclic isDepth (by decide) rfl with ⟨bound, units', ran, -, iff⟩
  refine ⟨twice, units', rfl, ⟨bound, ran⟩, iff.mpr ?_⟩
  intro best isBest
  cases isBest

/-- Three data predecessors, the first of depth zero, that are added in this order. -/
def threePreds : List (Operation (Fin 5)) :=
  [.addPred 2 ⟨0, .Data, 0, 5⟩ true, .addPred 1 ⟨0, .Data, 0, 3⟩ true,
    .addPred 3 ⟨0, .Data, 0, 1⟩ true, .addPred 3 ⟨2, .Data, 0, 1⟩ true,
    .addPred 3 ⟨1, .Data, 0, 1⟩ true]

/-- The predecessor of depth three comes after the one of depth five, and ends at the front. -/
theorem biasCriticalPath_not_deepest :
    ∃ units units' : SUnits (Fin 5),
      threePreds.foldlM (execute 8) SUnits.unlinked = some units ∧
      units.biasCriticalPath 8 3 = some units' ∧ 2 <= units.NumPreds 3 ∧
      IsDepth units.Preds ![0, 3, 5, 6, 0] ∧ ¬Biased ![0, 3, 5, 6, 0] (units'.Preds 3) := by
  refine ⟨(threePreds.foldlM (execute 8) SUnits.unlinked).get rfl,
    (((threePreds.foldlM (execute 8) SUnits.unlinked).get rfl).biasCriticalPath 8 3).get rfl,
    rfl, rfl, by decide, ?_, ?_⟩
  · intro v
    revert v
    decide
  · intro biased
    have below := biased ⟨1, .Data, 0, 1⟩ rfl ⟨2, .Data, 0, 1⟩ (by decide) rfl
    exact absurd below (by decide)

end ScheduleDAG
end LlvmProject
