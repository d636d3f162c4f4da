import LlvmProject.CodeGen.TopologicalSort

namespace LlvmProject

open List Option Function

namespace ScheduleDAG

/-!
# The initial order is topological

A unit is put on the worklist when its last successor is processed.  The units that are
taken off it stand at the highest indices, each in front of its successors.
-/

open Relation

namespace ScheduleDAGTopologicalSort

variable {n : Nat} {graph : Graph n} {Topo Topo' : ScheduleDAGTopologicalSort n} {Id : Int}
  {order : List (Fin n)} {WorkList rest : List (Option (Fin n))} {SU s : Option (Fin n)}

/-- The counters go down by the numbers of edges; the units that they reach zero for are
put on the worklist. -/
theorem decrementPreds_spec (Preds : List (Option (Fin n))) (Node2Index : Fin n -> Int)
    (WorkList : List (Option (Fin n))) :
    ∃ pushed : List (Fin n), (decrementPreds Preds Node2Index WorkList).2 =
        pushed.map some ++ WorkList ∧ pushed.Nodup ∧
      (∀ w, (decrementPreds Preds Node2Index WorkList).1 w = Node2Index w - Preds.count (some w)) ∧
      ∀ w, w ∈ pushed ↔ 0 < Node2Index w ∧ Node2Index w <= Preds.count (some w) := by
  induction Preds generalizing Node2Index WorkList with
  | nil =>
    refine ⟨[], rfl, nodup_nil, fun w => (Int.sub_zero _).symm, fun w => ?_⟩
    rw [count_nil]
    constructor
    · intro inside
      cases inside
    · rintro ⟨pos, small⟩
      omega
  | cons pred Preds ih =>
    cases pred with
    | none =>
      rcases ih Node2Index WorkList with ⟨pushed, list, nodup, count, mem⟩
      refine ⟨pushed, list, nodup, ?_, ?_⟩ <;> intro w <;>
        rw [count_cons_of_ne (by rintro ⟨⟩)]
      · exact count w
      · exact mem w
    | some v =>
      have self := update_self v (Node2Index v - 1) Node2Index
      have other : ∀ w, w ≠ v -> update Node2Index v (Node2Index v - 1) w =
          Node2Index w := fun w ne => update_of_ne ne _ _
      have skip : ∀ w, w ≠ v -> (some v :: Preds).count (some w) = Preds.count (some w) :=
        fun w ne => count_cons_of_ne fun same => ne (some.inj same).symm
      have here : (some v :: Preds).count (some v) = Preds.count (some v) + 1 := count_cons_self
      have counted : ∀ {result : Fin n -> Int},
          (∀ w, result w = update Node2Index v (Node2Index v - 1) w - Preds.count (some w)) ->
          ∀ w, result w = Node2Index w - (some v :: Preds).count (some w) := by
        intro result count w
        rw [count]
        by_cases same : w = v
        · rw [same, self, here]
          omega
        · rw [other w same, skip w same]
      by_cases zero : Node2Index v - 1 = 0
      · rcases ih (update Node2Index v (Node2Index v - 1))
          (some v :: WorkList) with ⟨pushed, list, nodup, count, mem⟩
        have once : v ∉ pushed := by
          rw [mem, self]
          omega
        rw [decrementPreds]
        rw [self, if_pos zero]
        refine ⟨pushed ++ [v], ?_, ?_, counted count, ?_⟩
        · rw [list, map_append, append_assoc]
          rfl
        · rw [nodup_append]
          refine ⟨nodup, nodup_singleton v, fun a inside b last same => ?_⟩
          rw [mem_singleton.mp last] at same
          exact once (same ▸ inside)
        · intro w
          rw [mem_append, mem_singleton, mem]
          by_cases same : w = v
          · rw [same, self, here]
            omega
          · rw [other w same, skip w same]
            simp only [same, or_false]
      · rcases ih (update Node2Index v (Node2Index v - 1)) WorkList with
          ⟨pushed, list, nodup, count, mem⟩
        rw [decrementPreds]
        rw [self, if_neg zero]
        refine ⟨pushed, list, nodup, counted count, ?_⟩
        intro w
        rw [mem]
        by_cases same : w = v
        · rw [same, self, here]
          omega
        · rw [other w same, skip w same]

/-- A successor is processed: it has been taken off the worklist. -/
def processed (order : List (Fin n)) (WorkList : List (Option (Fin n))) : Option (Fin n) -> Bool
  | some y => y ∈ order
  | none => none ∉ WorkList

/-- The number of edges to successors that are left to process. -/
def left (graph : Graph n) (order : List (Fin n)) (WorkList : List (Option (Fin n))) (w : Fin n) :
    Nat :=
  (graph.SUnits w).Succs.countP fun s => !processed order WorkList s

/-- The units of `order` are processed, those of the worklist can be, and `Node2Index` counts
what is left for the others. -/
structure Processing (graph : Graph n) (order : List (Fin n)) (WorkList : List (Option (Fin n)))
    (Topo : ScheduleDAGTopologicalSort n) (Id : Int) : Prop where
  id : Id = (n : Int) - order.length
  stands : Topo.Stands (n - order.length) order
  nodup : order.Nodup
  worklist : WorkList.Nodup
  fresh : ∀ w, some w ∈ WorkList -> w ∉ order
  settled : ∀ w, w ∈ order ∨ some w ∈ WorkList -> left graph order WorkList w = 0
  waiting : ∀ w, w ∉ order -> some w ∉ WorkList ->
    Topo.Node2Index w = left graph order WorkList w ∧ 0 < left graph order WorkList w
  ordered : order.Pairwise fun v w => ¬graph.Edge w v

theorem length_le_of_nodup {l : List (Fin n)} (nodup : l.Nodup) : l.length <= n := by
  rw [<- toFinset_card_of_nodup nodup]
  exact (Finset.card_le_univ _).trans_eq (Fintype.card_fin n)

theorem left_eq_zero_iff {w : Fin n} : left graph order WorkList w = 0 ↔
    ∀ s ∈ (graph.SUnits w).Succs, processed order WorkList s = true := by
  rw [left, countP_eq_zero]
  simp only [Bool.not_eq_true', Bool.not_eq_false]

/-- A unit that is processed meanwhile is no longer counted. -/
theorem countP_processed {before after : Option (Fin n) -> Bool} (first : before SU = false)
    (rest : ∀ s, after s = (before s || s == SU)) (Succs : List (Option (Fin n))) :
    Succs.countP (fun s => !before s) = Succs.countP (fun s => !after s) + Succs.count SU := by
  induction Succs with
  | nil => rfl
  | cons s Succs ih =>
    rw [countP_cons, countP_cons, count_cons, ih, rest]
    by_cases same : s = SU
    · rw [same, first]
      simp only [beq_self_eq_true, Bool.or_true, Bool.not_true, Bool.not_false, if_true,
        Bool.false_eq_true, if_false]
      omega
    · have ne : (s == SU) = false := beq_false_of_ne same
      simp only [ne, Bool.or_false, Bool.false_eq_true, if_false]
      omega

/-- The processed units, with one that is taken off the worklist. -/
def taken : Option (Fin n) -> List (Fin n) -> List (Fin n)
  | some x, order => x :: order
  | none, order => order

theorem processed_taken (fresh : SU ∉ rest) (pushed : List (Fin n)) (s : Option (Fin n)) :
    processed (taken SU order) (pushed.map some ++ rest) s =
      (processed order (SU :: rest) s || s == SU) := by
  have same : none ∈ pushed.map some ++ rest ↔ none ∈ rest := by
    rw [mem_append, List.mem_map]
    constructor
    · rintro (⟨_, _, ⟨⟩⟩ | inside)
      exact inside
    · exact .inr
  rw [Bool.eq_iff_iff, Bool.or_eq_true, beq_iff_eq]
  cases SU with
  | some x =>
    cases s with
    | some y =>
      simp only [processed, taken, decide_eq_true_iff, mem_cons, some.injEq]
      exact Or.comm
    | none =>
      simp only [processed, decide_eq_true_iff, same, mem_cons, reduceCtorEq, false_or, or_false]
  | none =>
    cases s with
    | some y => exact ⟨.inl, fun either => either.resolve_right (by rintro ⟨⟩)⟩
    | none => simp only [processed, decide_eq_true_iff, same, fresh, not_false_eq_true, or_true]

theorem Processing.not_processed (processing : Processing graph order (SU :: rest) Topo Id) :
    processed order (SU :: rest) SU = false := by
  cases SU with
  | some x => exact decide_eq_false (processing.fresh x mem_cons_self)
  | none =>
    have inside : none ∈ none :: rest := mem_cons_self
    exact decide_eq_false (not_not.mpr inside)

theorem Graph.Mirrored.count_predsOf (mirrored : graph.Mirrored) (SU : Option (Fin n)) (w : Fin n) :
    (graph.SUnits w).Succs.count SU = (Graph.predsOf graph SU).count (some w) := by
  cases SU with
  | some x => exact mirrored.units w x
  | none => exact mirrored.exit w

/-- The unit that is taken off the worklist is allocated in front of the others. -/
theorem Processing.allocate (processing : Processing graph order (SU :: rest) Topo Id) :
    ∃ Topo' Id', allocateNext (Topo, Id) SU = some (Topo', Id') ∧
      Id' = (n : Int) - (taken SU order).length ∧
      Topo'.Stands (n - (taken SU order).length) (taken SU order) ∧ (taken SU order).Nodup ∧
      ∀ w, w ∉ taken SU order -> Topo'.Node2Index w = Topo.Node2Index w := by
  cases SU with
  | none => exact ⟨Topo, Id, rfl, processing.id, processing.stands, processing.nodup, fun _ _ => rfl⟩
  | some x =>
    have nodup : (x :: order).Nodup :=
      nodup_cons.mpr ⟨processing.fresh x mem_cons_self, processing.nodup⟩
    have fits := length_le_of_nodup nodup
    rw [length_cons] at fits
    have index : Id - 1 = ((n - (order.length + 1) : Nat) : Int) := by
      rw [processing.id]
      omega
    have done := Allocate_eq Topo x (show n - (order.length + 1) < n by omega)
    have alone := stands_allocated done
    have others := processing.stands.allocate (processing.fresh x mem_cons_self)
      (.inl (by omega)) done
    have next : n - (order.length + 1) + 1 = n - order.length := by omega
    rw [allocateNext, index, done]
    refine ⟨_, _, rfl, ?_, ?_, nodup, ?_⟩
    · rw [taken, length_cons]
      omega
    · rw [taken, length_cons]
      refine ⟨alone.1, alone.2.1, ?_⟩
      rw [next]
      exact others
    · intro w outside
      rw [taken, mem_cons, not_or] at outside
      exact update_of_ne outside.1 _ _

/-- A visit keeps the invariant, and the units that are put on the worklist are predecessors
of the one that is taken off. -/
theorem Processing.visit (mirrored : graph.Mirrored)
    (processing : Processing graph order (SU :: rest) Topo Id) :
    ∃ (Topo' : ScheduleDAGTopologicalSort n) (Id' : Int) (pushed : List (Fin n)),
      initVisit graph (Topo, Id) SU = some ((Topo', Id'), some (pushed.map some)) ∧
      Processing graph (taken SU order) (pushed.map some ++ rest) Topo' Id' ∧
      ∀ w ∈ pushed, SU ∈ (graph.SUnits w).Succs := by
  rcases processing.allocate with ⟨Topo', Id', allocated, id, stands, nodup, unchanged⟩
  rcases decrementPreds_spec (Graph.predsOf graph SU) Topo'.Node2Index [] with
    ⟨pushed, list, distinct, counted, mem⟩
  have freshItem := (nodup_cons.mp processing.worklist).1
  have split : ∀ w, left graph order (SU :: rest) w =
      left graph (taken SU order) (pushed.map some ++ rest) w +
        (Graph.predsOf graph SU).count (some w) := by
    intro w
    rw [<- Graph.Mirrored.count_predsOf mirrored SU w]
    exact countP_processed processing.not_processed (processed_taken freshItem pushed) _
  -- whatever is processed or on the worklist has no edge to the unit
  have settled : ∀ w, w ∈ order ∨ some w ∈ SU :: rest ->
      (Graph.predsOf graph SU).count (some w) = 0 ∧
        left graph (taken SU order) (pushed.map some ++ rest) w = 0 := by
    intro w known
    have none := processing.settled w known
    have parts := split w
    omega
  have known : ∀ w, w ∈ taken SU order -> w ∈ order ∨ some w ∈ SU :: rest := by
    intro w inside
    cases SU with
    | none => exact .inl inside
    | some x =>
      rcases mem_cons.mp inside with rfl | inside
      · exact .inr mem_cons_self
      · exact .inl inside
  have unknown : ∀ w, w ∉ taken SU order -> some w ∉ rest -> w ∉ order ∧ some w ∉ SU :: rest := by
    intro w outside notLater
    cases SU with
    | none =>
      refine ⟨outside, fun inside => ?_⟩
      rcases mem_cons.mp inside with same | inside
      · cases same
      · exact notLater inside
    | some x =>
      rw [taken, mem_cons, not_or] at outside
      refine ⟨outside.2, fun inside => ?_⟩
      rcases mem_cons.mp inside with same | inside
      · exact outside.1 (some.inj same)
      · exact notLater inside
  have pushedOnly : ∀ w ∈ pushed, w ∉ taken SU order ∧ some w ∉ rest ∧
      left graph (taken SU order) (pushed.map some ++ rest) w = 0 := by
    intro w inside
    rcases (mem w).mp inside with ⟨pos, small⟩
    have notKnown : ¬(w ∈ order ∨ some w ∈ SU :: rest) := by
      intro known
      have none := (settled w known).1
      omega
    have outside : w ∉ taken SU order := fun inside => notKnown (known w inside)
    rw [not_or] at notKnown
    have value := (processing.waiting w notKnown.1 notKnown.2).1
    have parts := split w
    rw [unchanged w outside, value] at small
    exact ⟨outside, fun later => notKnown.2 (mem_cons_of_mem _ later), by omega⟩
  refine ⟨{ Topo' with Node2Index := (decrementPreds (Graph.predsOf graph SU)
    Topo'.Node2Index []).1 }, Id', pushed, ?_, ⟨id, ?_, nodup, ?_, ?_, ?_, ?_, ?_⟩, ?_⟩
  · rw [append_nil] at list
    have ran : initVisit graph (Topo, Id) SU = (some (Topo', Id')).map fun state =>
        let counted := decrementPreds (Graph.predsOf graph SU) state.1.Node2Index []
        (({ state.1 with Node2Index := counted.1 }, state.2), some counted.2) :=
      congrArg (Option.map _) allocated
    rw [ran, <- list]
    rfl
  · apply stands.congr
    · intro w inside
      have none := (settled w (known w inside)).1
      exact (counted w).trans (by rw [none]; exact Int.sub_zero _)
    · exact fun _ _ _ => rfl
  · rw [nodup_append]
    refine ⟨distinct.map (fun _ _ same => some.inj same), (nodup_cons.mp processing.worklist).2, ?_⟩
    intro a first b second same
    rcases mem_map.mp first with ⟨w, inside, rfl⟩
    exact (pushedOnly w inside).2.1 (same ▸ second)
  · intro w inside
    rcases mem_append.mp inside with inside | inside
    · rcases mem_map.mp inside with ⟨v, inside, same⟩
      cases same
      exact (pushedOnly w inside).1
    · have old := processing.fresh w (mem_cons_of_mem _ inside)
      cases SU with
      | none => exact old
      | some x =>
        rw [taken, mem_cons, not_or]
        refine ⟨fun same => freshItem ?_, old⟩
        rwa [<- same]
  · rintro w (inside | inside)
    · exact (settled w (known w inside)).2
    · rcases mem_append.mp inside with inside | inside
      · rcases mem_map.mp inside with ⟨v, inside, same⟩
        cases same
        exact (pushedOnly w inside).2.2
      · exact (settled w (.inr (mem_cons_of_mem _ inside))).2
  · intro w outside notWaiting
    rw [mem_append, not_or] at notWaiting
    rcases unknown w outside notWaiting.2 with ⟨notOrder, notList⟩
    rcases processing.waiting w notOrder notList with ⟨value, pos⟩
    have notPushed : w ∉ pushed := fun inside => notWaiting.1 (mem_map_of_mem inside)
    rw [mem, unchanged w outside] at notPushed
    have parts := split w
    have result : (decrementPreds (Graph.predsOf graph SU) Topo'.Node2Index []).1 w =
        Topo.Node2Index w - (Graph.predsOf graph SU).count (some w) := by
      rw [counted, unchanged w outside]
    show (decrementPreds (Graph.predsOf graph SU) Topo'.Node2Index []).1 w = _ ∧ _
    omega
  · cases SU with
    | none => exact processing.ordered
    | some x =>
      refine pairwise_cons.mpr ⟨fun v inside edge => ?_, processing.ordered⟩
      have all := left_eq_zero_iff.mp (processing.settled v (.inl inside)) _ edge
      rw [processing.not_processed] at all
      cases all
  · intro w inside
    rcases (mem w).mp inside with ⟨pos, small⟩
    rw [<- count_pos_iff, Graph.Mirrored.count_predsOf mirrored]
    omega

theorem mem_initWorkList (w : Fin n) :
    some w ∈ initWorkList graph ↔ (graph.SUnits w).Succs.length = 0 := by
  have exit : some w ∉ (graph.ExitSU.map fun _ => (none : Option (Fin n))).toList := by
    rw [mem_toList]
    cases graph.ExitSU <;> rintro ⟨⟩
  rw [initWorkList, mem_append, or_iff_left exit, List.mem_map]
  simp only [mem_reverse, mem_filter, mem_finRange, true_and, decide_eq_true_iff,
    some.injEq, exists_eq_right]

theorem processing_initWorkList (mirrored : graph.Mirrored) (Topo : ScheduleDAGTopologicalSort n) :
    Processing graph [] (initWorkList graph)
      { Topo with Node2Index := fun SU => (graph.SUnits SU).Succs.length } n := by
  have unprocessed : ∀ w, ∀ s ∈ (graph.SUnits w).Succs,
      processed [] (initWorkList graph) s = false := by
    intro w s edge
    cases s with
    | some y =>
      have missing : y ∉ ([] : List (Fin n)) := not_mem_nil
      exact decide_eq_false missing
    | none =>
      have inside : none ∈ initWorkList graph := by
        rw [initWorkList, mem_append, mem_toList]
        cases exit : graph.ExitSU with
        | some _ => exact Or.inr rfl
        | none =>
          have some : 0 < (graph.SUnits w).Succs.count none := count_pos_iff.mpr edge
          rw [mirrored.exit, exit] at some
          exact absurd some (Nat.lt_irrefl 0)
      exact decide_eq_false (not_not.mpr inside)
  have all : ∀ w, left graph [] (initWorkList graph) w = (graph.SUnits w).Succs.length := by
    intro w
    rw [left, countP_eq_length]
    intro s edge
    rw [unprocessed w s edge]
    rfl
  refine ⟨?_, trivial, nodup_nil, ?_, ?_, ?_, ?_, Pairwise.nil⟩
  · rw [length_nil]
    omega
  · rw [initWorkList, nodup_append]
    have leaves := ((nodup_finRange n).filter fun SU => (graph.SUnits SU).Succs.length = 0)
    refine ⟨(nodup_reverse.mpr leaves).map fun _ _ same => some.inj same, ?_, ?_⟩
    · cases graph.ExitSU
      · exact nodup_nil
      · exact nodup_singleton none
    · intro a first b second same
      rcases mem_map.mp first with ⟨w, _, rfl⟩
      rw [mem_toList, <- same] at second
      cases exit : graph.ExitSU <;> rw [exit] at second <;> cases second
  · exact fun w _ => not_mem_nil
  · rintro w (inside | inside)
    · cases inside
    · rw [all, <- mem_initWorkList]
      exact inside
  · intro w _ outside
    rw [mem_initWorkList] at outside
    rw [all]
    exact ⟨rfl, Nat.pos_of_ne_zero outside⟩

/-- The units of the worklist are predecessors of the ones that are taken off. -/
def Precedes (graph : Graph n) (other SU : Option (Fin n)) : Prop :=
  ∃ w, other = some w ∧ SU ∈ (graph.SUnits w).Succs

theorem precedes_wellFounded (acyclic : graph.Acyclic) : WellFounded (Precedes graph) := by
  have units : ∀ w : Fin n, Acc (Precedes graph) (some w) := by
    intro w
    induction w using acyclic.wellFounded.induction with
    | _ w ih =>
      refine Acc.intro _ ?_
      rintro _ ⟨v, rfl, edge⟩
      exact ih v edge
  refine ⟨fun SU => Acc.intro _ ?_⟩
  rintro _ ⟨v, rfl, _⟩
  exact units v

/-- All units are processed when the worklist is empty. -/
theorem Processing.complete (acyclic : graph.Acyclic) (processing : Processing graph order [] Topo Id)
    (w : Fin n) : w ∈ order := by
  induction w using acyclic.wellFounded_swap.induction with
  | _ w ih =>
    by_contra missing
    have waiting := (processing.waiting w missing not_mem_nil).2
    rw [left, countP_pos_iff] at waiting
    rcases waiting with ⟨s, edge, unprocessed⟩
    cases s with
    | none => cases unprocessed
    | some y =>
      have inside := ih y edge
      rw [processed, decide_eq_true inside] at unprocessed
      cases unprocessed

/-- The initial order is found, and it is topological. -/
theorem InitDAGTopologicalSorting_total (acyclic : graph.Acyclic) (mirrored : graph.Mirrored)
    (Topo : ScheduleDAGTopologicalSort n) :
    ∃ bound Topo' order, (∀ fuel, bound <= fuel ->
        InitDAGTopologicalSorting fuel graph Topo = some Topo') ∧
      Topo'.Represents order ∧ order.Pairwise fun v w => ¬graph.Edge w v := by
  let inv : List (Option (Fin n)) -> ScheduleDAGTopologicalSort n × Int -> Prop :=
    fun WorkList state => ∃ order, Processing graph order WorkList state.1 state.2
  have keeps : Worklist.Keeps (initVisit graph) (Precedes graph) inv fun _ => False := by
    rintro SU rest ⟨Topo, Id⟩ ⟨order, processing⟩
    rcases processing.visit mirrored with ⟨Topo', Id', pushed, visited, kept, preds⟩
    refine .inl ⟨(Topo', Id'), pushed.map some, visited, ⟨_, kept⟩, ?_⟩
    intro other inside
    rcases mem_map.mp inside with ⟨w, mem, rfl⟩
    exact ⟨w, rfl, preds w mem⟩
  have start : inv (initWorkList graph)
      ({ Topo with Node2Index := fun SU => (graph.SUnits SU).Succs.length }, (n : Int)) :=
    ⟨[], processing_initWorkList mirrored Topo⟩
  rcases keeps.total (precedes_wellFounded acyclic) start with
    ⟨bound, final, ran, ⟨order, processing⟩ | never⟩
  · have complete := processing.complete acyclic
    have length := length_of_complete processing.nodup complete
    have stands := processing.stands
    rw [length, Nat.sub_self] at stands
    refine ⟨bound, final.1, order, ?_, ⟨stands, processing.nodup, complete⟩, processing.ordered⟩
    intro fuel enough
    rw [InitDAGTopologicalSorting, ran fuel enough]
    rfl
  · exact absurd never id

end ScheduleDAGTopologicalSort
end ScheduleDAG
end LlvmProject
