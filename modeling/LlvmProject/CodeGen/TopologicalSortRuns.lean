import LlvmProject.CodeGen.TopologicalSortInit
import LlvmProject.Library.Runs
import Mathlib.Data.Fin.VecNotation

namespace LlvmProject

open List Function

namespace ScheduleDAG

/-!
# The order is maintained

The search from a node visits what is reachable below the upper bound.  Those nodes move
behind the source of the new edge, together and in the order they had, and the others of
the window keep their order as well.
-/

open Relation

variable {n : Nat} {graph graph' : Graph n}

namespace ScheduleDAGTopologicalSort

variable {Topo Topo' : ScheduleDAGTopologicalSort n} {X Y w : Fin n} {UpperBound : Int}

/-! ## The search -/

theorem scanSuccs_spec (Node2Index : Fin n -> Int) (UpperBound : Int) (Visited : Fin n -> Bool)
    (Succs : List (Option (Fin n))) (WorkList : List (Fin n)) :
    (scanSuccs Node2Index UpperBound Visited Succs WorkList = none ∧
      ∃ s, some s ∈ Succs ∧ Node2Index s = UpperBound) ∨
    ∃ pushed, scanSuccs Node2Index UpperBound Visited Succs WorkList = some pushed ∧
      (∀ s, some s ∈ Succs -> Node2Index s ≠ UpperBound) ∧
      ∀ w, w ∈ pushed ↔ w ∈ WorkList ∨
        (some w ∈ Succs ∧ Visited w = false ∧ Node2Index w < UpperBound) := by
  induction Succs generalizing WorkList with
  | nil =>
    refine .inr ⟨WorkList, rfl, ?_, ?_⟩
    · intro s inside
      cases inside
    · intro w
      simp only [not_mem_nil, false_and, or_false]
  | cons succ Succs ih =>
    cases succ with
    | none =>
      rw [scanSuccs]
      simpa only [mem_cons, reduceCtorEq, false_or] using ih WorkList
    | some s =>
      rw [scanSuccs]
      by_cases loop : Node2Index s = UpperBound
      · exact .inl ⟨if_pos loop, s, mem_cons_self, loop⟩
      rw [if_neg loop]
      by_cases push : Visited s = false ∧ Node2Index s < UpperBound
      · rw [if_pos push]
        rcases ih (s :: WorkList) with ⟨none, v, inside, found⟩ |
          ⟨pushed, some, clear, mem⟩
        · exact .inl ⟨none, v, mem_cons_of_mem _ inside, found⟩
        · refine .inr ⟨pushed, some, ?_, ?_⟩
          · intro v inside
            rcases mem_cons.mp inside with same | inside
            · rwa [Option.some.inj same]
            · exact clear v inside
          · intro w
            rw [mem, mem_cons, mem_cons, Option.some.injEq, or_assoc]
            constructor
            · rintro (rfl | inside | inside)
              · exact .inr ⟨.inl rfl, push⟩
              · exact .inl inside
              · exact .inr ⟨.inr inside.1, inside.2⟩
            · rintro (inside | ⟨same | inside, open'⟩)
              · exact .inr (.inl inside)
              · exact .inl same
              · exact .inr (.inr ⟨inside, open'⟩)
      · rw [if_neg push]
        rcases ih WorkList with ⟨none, v, inside, found⟩ |
          ⟨pushed, some, clear, mem⟩
        · exact .inl ⟨none, v, mem_cons_of_mem _ inside, found⟩
        · refine .inr ⟨pushed, some, ?_, ?_⟩
          · intro v inside
            rcases mem_cons.mp inside with same | inside
            · rwa [Option.some.inj same]
            · exact clear v inside
          · intro w
            rw [mem, mem_cons, Option.some.injEq]
            constructor
            · rintro (inside | inside)
              · exact .inl inside
              · exact .inr ⟨.inr inside.1, inside.2⟩
            · rintro (inside | ⟨rfl | inside, open'⟩)
              · exact .inl inside
              · exact absurd open' push
              · exact .inr ⟨inside, open'⟩

/-- The visited nodes and those of the worklist are reachable, and the successors of a
visited one are among them. -/
structure Searching (graph : Graph n) (Node2Index : Fin n -> Int) (UpperBound : Int) (Y : Fin n)
    (WorkList : List (Fin n)) (state : (Fin n -> Bool) × Bool) : Prop where
  noLoop : state.2 = false
  start : state.1 Y = true ∨ Y ∈ WorkList
  reached : ∀ w, state.1 w = true ∨ w ∈ WorkList ->
    ReflTransGen graph.Edge Y w ∧ Node2Index w < UpperBound
  closed : ∀ v w, state.1 v = true -> graph.Edge v w ->
    Node2Index w ≠ UpperBound ∧ (Node2Index w < UpperBound -> state.1 w = true ∨ w ∈ WorkList)

/-- The search found a node with the index `UpperBound`. -/
def Found (graph : Graph n) (Node2Index : Fin n -> Int) (UpperBound : Int) (Y : Fin n)
    (state : (Fin n -> Bool) × Bool) : Prop :=
  state.2 = true ∧ ∃ w, TransGen graph.Edge Y w ∧ Node2Index w = UpperBound

theorem dfsVisit_keeps (graph : Graph n) (Node2Index : Fin n -> Int) (UpperBound : Int)
    (Y : Fin n) : Worklist.Keeps (dfsVisit graph Node2Index UpperBound) (fun s v => graph.Edge v s)
      (Searching graph Node2Index UpperBound Y) (Found graph Node2Index UpperBound Y) := by
  rintro SU rest ⟨Visited, HasLoop⟩ searching
  have here := searching.reached SU (.inr mem_cons_self)
  have self : update Visited SU true SU = true := update_self _ _ _
  have grows : ∀ w, update Visited SU true w = true ↔ w = SU ∨ Visited w = true := by
    intro w
    by_cases same : w = SU
    · rw [same, self]
      exact ⟨fun _ => .inl rfl, fun _ => rfl⟩
    · rw [update_of_ne same]
      exact ⟨.inr, fun either => either.resolve_left same⟩
  rcases scanSuccs_spec Node2Index UpperBound (update Visited SU true)
    (graph.SUnits SU).Succs.reverse [] with ⟨scanned, s, inside, found⟩ | ⟨pushed, scanned, clear, mem⟩
  · refine .inr ⟨(update Visited SU true, true), ?_, rfl, s, ?_, found⟩
    · rw [dfsVisit, scanned]
    · exact TransGen.tail' here.1 (mem_reverse.mp inside)
  · have pushedIff : ∀ w, w ∈ pushed ↔
        graph.Edge SU w ∧ update Visited SU true w = false ∧ Node2Index w < UpperBound := by
      intro w
      rw [mem, mem_reverse]
      exact ⟨fun either => either.resolve_left not_mem_nil, .inr⟩
    refine .inl ⟨(update Visited SU true, HasLoop), pushed, ?_, ⟨searching.noLoop, ?_, ?_, ?_⟩, ?_⟩
    · rw [dfsVisit, scanned]
    · rcases searching.start with visited | inside
      · exact .inl ((grows Y).mpr (.inr visited))
      · rcases mem_cons.mp inside with same | inside
        · exact .inl ((grows Y).mpr (.inl same))
        · exact .inr (mem_append_right _ inside)
    · rintro w (visited | inside)
      · rcases (grows w).mp visited with rfl | visited
        · exact here
        · exact searching.reached w (.inl visited)
      · rcases mem_append.mp inside with inside | inside
        · rcases (pushedIff w).mp inside with ⟨edge, _, below⟩
          exact ⟨here.1.tail edge, below⟩
        · exact searching.reached w (.inr (mem_cons_of_mem _ inside))
    · intro v w visited edge
      rcases (grows v).mp visited with rfl | visited
      · refine ⟨clear w (mem_reverse.mpr edge), fun below => ?_⟩
        cases known : update Visited v true w with
        | true => exact .inl known
        | false => exact .inr (mem_append_left _ ((pushedIff w).mpr ⟨edge, known, below⟩))
      · rcases searching.closed v w visited edge with ⟨ne, onward⟩
        refine ⟨ne, fun below => ?_⟩
        rcases onward below with visited | inside
        · exact .inl ((grows w).mpr (.inr visited))
        · rcases mem_cons.mp inside with same | inside
          · exact .inl ((grows w).mpr (.inl same))
          · exact .inr (mem_append_right _ inside)
    · exact fun w inside => ((pushedIff w).mp inside).1

/-- The search from a node below another one tells whether that one is reachable; if not, it
visits the nodes that are reachable below it. -/
theorem DFS_total (sorted : Sorted graph Topo) (acyclic : graph.Acyclic)
    (below : Topo.Node2Index Y < Topo.Node2Index X) :
    ∃ bound Visited HasLoop, (∀ fuel, bound <= fuel ->
        DFS fuel graph Topo Y (Topo.Node2Index X) = some (Visited, HasLoop)) ∧
      (HasLoop = true ↔ TransGen graph.Edge Y X) ∧
      (HasLoop = false -> ∀ w, Visited w = true ↔
        ReflTransGen graph.Edge Y w ∧ Topo.Node2Index w < Topo.Node2Index X) := by
  have start : Searching graph Topo.Node2Index (Topo.Node2Index X) Y [Y] (fun _ => false, false) := by
    refine ⟨rfl, .inr mem_cons_self, ?_, ?_⟩
    · rintro w (never | inside)
      · exact absurd never Bool.false_ne_true
      · rw [mem_singleton.mp inside]
        exact ⟨ReflTransGen.refl, below⟩
    · exact fun v w never => absurd never Bool.false_ne_true
  have same : ∀ w, Topo.Node2Index w = Topo.Node2Index X -> w = X := by
    intro w equal
    rcases sorted.nodeOfIndex w with ⟨_, first⟩
    rcases sorted.nodeOfIndex X with ⟨_, second⟩
    rw [<- first, <- second]
    simp only [equal]
  rcases (dfsVisit_keeps graph Topo.Node2Index (Topo.Node2Index X) Y).total
    acyclic.wellFounded_swap start with ⟨bound, ⟨Visited, HasLoop⟩, ran, searching | ⟨loop, w, path, found⟩⟩
  · -- what is reachable below the bound is visited
    have all : ∀ w, ReflTransGen graph.Edge Y w -> Topo.Node2Index w < Topo.Node2Index X ->
        Visited w = true := by
      intro w path
      induction path with
      | refl => exact fun _ => searching.start.resolve_right not_mem_nil
      | @tail v w path edge ih =>
        intro less
        have visited := ih ((sorted.increasing v w edge).trans less)
        exact ((searching.closed v w visited edge).2 less).resolve_right not_mem_nil
    have unreachable : ¬TransGen graph.Edge Y X := by
      intro path
      rcases TransGen.tail'_iff.mp path with ⟨v, path, edge⟩
      exact (searching.closed v X (all v path (sorted.increasing v X edge)) edge).1 rfl
    have noLoop : HasLoop = false := searching.noLoop
    refine ⟨bound, Visited, HasLoop, ran, ?_, fun _ w => ?_⟩
    · rw [noLoop]
      exact ⟨fun never => absurd never Bool.false_ne_true, fun path => absurd path unreachable⟩
    · exact ⟨fun visited => searching.reached w (.inl visited), fun both => all w both.1 both.2⟩
  · have isLoop : HasLoop = true := loop
    refine ⟨bound, Visited, HasLoop, ran, ⟨fun _ => ?_, fun _ => isLoop⟩, fun noLoop => ?_⟩
    · rwa [same w found] at path
    · rw [isLoop] at noLoop
      cases noLoop

/-- The answer of a query is exact. -/
theorem IsReachable_total (sorted : Sorted graph Topo) (acyclic : graph.Acyclic)
    (SU TargetSU : Fin n) :
    ∃ bound answer, (∀ fuel, bound <= fuel ->
        IsReachable fuel graph Topo SU TargetSU = some answer) ∧
      (answer = true ↔ TransGen graph.Edge TargetSU SU) := by
  by_cases below : Topo.Node2Index TargetSU < Topo.Node2Index SU
  · rcases DFS_total sorted acyclic below with ⟨bound, Visited, HasLoop, ran, exact, _⟩
    refine ⟨bound, HasLoop, fun fuel enough => ?_, exact⟩
    rw [IsReachable, if_pos below, ran fuel enough]
    rfl
  · refine ⟨0, false, fun fuel _ => if_neg below, ?_⟩
    exact ⟨fun never => absurd never Bool.false_ne_true, fun path => absurd (sorted.lt_of_transGen path) below⟩

/-! ## The repair -/

/-- Nodes that are allocated one after another stand there. -/
theorem allocateAll_total (L : List (Fin n)) {k : Nat} (Topo : ScheduleDAGTopologicalSort n)
    (nodup : L.Nodup) (fits : k + L.length <= n) :
    ∃ Topo', allocateAll L k Topo = some Topo' ∧ Topo'.Stands k L ∧
      ∀ i l, Topo.Stands i l -> (∀ w ∈ L, w ∉ l) -> (k + L.length <= i ∨ i + l.length <= k) ->
        Topo'.Stands i l := by
  induction L generalizing k Topo with
  | nil => exact ⟨Topo, rfl, trivial, fun _ _ stands _ _ => stands⟩
  | cons w L ih =>
    rw [length_cons] at fits
    rw [nodup_cons] at nodup
    have done := Allocate_eq Topo w (show k < n by omega)
    rcases ih _ nodup.2 (show k + 1 + L.length <= n by omega) with
      ⟨Topo', ran, stands, frame⟩
    refine ⟨Topo', ?_, ?_, ?_⟩
    · rw [allocateAll, done]
      exact ran
    · have first := frame k [w] (stands_allocated done)
        (fun v inside => by rw [mem_singleton]; rintro rfl; exact nodup.1 inside)
        (.inr (le_refl _))
      exact ⟨first.1, first.2.1, stands⟩
    · intro i l standing apart outside
      rw [length_cons] at outside
      apply frame
      · exact standing.allocate (apart w mem_cons_self) (by omega) done
      · exact fun v inside => apart v (mem_cons_of_mem w inside)
      · omega

/-- The window is read before it is written. -/
theorem shiftDown_total {UpperBound : Int} (Visited : Fin n -> Bool) {pre L window post : List (Fin
    n)} {Topo : ScheduleDAGTopologicalSort n} (standing : Topo.Stands 0 pre) (remaining :
    Topo.Stands (pre.length + L.length) (window ++ post)) (nodup : (pre ++ L ++ (window ++
    post)).Nodup) (ends : UpperBound + 1 = ((pre.length + L.length + window.length : Nat) : Int)) :
    ∃ Visited' Topo', shiftDown UpperBound ((pre.length + L.length : Nat) : Int) Visited L Topo =
        some (Visited', L ++ window.filter Visited, Topo', UpperBound + 1) ∧
      Topo'.Stands 0 (pre ++ window.filter fun w => !Visited w) ∧
      Topo'.Stands (pre.length + L.length + window.length) post := by
  induction window generalizing pre L Visited Topo with
  | nil =>
    rw [length_nil, Nat.add_zero] at ends
    refine ⟨Visited, Topo, ?_, ?_, remaining⟩
    · rw [shiftDown, if_neg (by omega), <- ends, filter_nil, append_nil]
    · rwa [filter_nil, append_nil]
  | cons w window ih =>
    rw [length_cons] at ends
    rcases remaining with ⟨⟨h, here⟩, index, others⟩
    have middle : (w :: (pre ++ L ++ (window ++ post))).Nodup := nodup_middle.mp nodup
    rcases nodup_cons.mp middle with ⟨fresh, distinct⟩
    rw [mem_append, mem_append, not_or, not_or] at fresh
    have bounds : 0 <= ((pre.length + L.length : Nat) : Int) ∧
        ((pre.length + L.length : Nat) : Int).toNat < n :=
      ⟨Int.natCast_nonneg _, by rwa [Int.toNat_natCast]⟩
    rw [shiftDown, if_pos (by omega), dif_pos bounds]
    simp only [Int.toNat_natCast, here]
    by_cases visited : Visited w = true
    · have unmarked : ∀ v ∈ window, update Visited w false v = Visited v := by
        intro v inside
        have ne : v ≠ w := by
          rintro rfl
          exact fresh.2 (mem_append_left _ inside)
        exact update_of_ne ne _ _
      have length : pre.length + (L ++ [w]).length = pre.length + L.length + 1 := by
        rw [length_append, length_singleton, Nat.add_assoc]
      have again : (pre ++ (L ++ [w]) ++ (window ++ post)).Nodup := by
        simpa only [append_assoc, cons_append, nil_append] using nodup
      rcases ih _ standing (by rwa [length]) again (by rw [length]; omega) with
        ⟨Visited', Topo', ran, low, high⟩
      rw [filter_congr unmarked] at ran
      rw [filter_congr fun v inside => congrArg (!·) (unmarked v inside)] at low
      rw [length] at ran high
      refine ⟨Visited', Topo', ?_, ?_, ?_⟩
      · rw [if_pos visited, filter_cons_of_pos visited]
        rw [append_assoc] at ran
        exact ran
      · rwa [filter_cons_of_neg (by rw [visited]; exact Bool.false_ne_true)]
      · rwa [length_cons, <- Nat.add_assoc, Nat.add_right_comm]
    · have index' : ((pre.length + L.length : Nat) : Int) - L.length = (pre.length : Nat) := by
        omega
      have done := Allocate_eq Topo w (show pre.length < n by omega)
      have low := standing.allocate fresh.1.1 (Or.inr (by omega)) done
      have alone := stands_allocated done
      have high := others.allocate fresh.2 (Or.inl (by omega)) done
      have lower : _ := stands_append.mpr ⟨low, by rwa [Nat.zero_add]⟩
      have length : (pre ++ [w]).length + L.length = pre.length + L.length + 1 := by
        rw [length_append, length_singleton, Nat.add_right_comm]
      have again : (pre ++ [w] ++ L ++ (window ++ post)).Nodup := by
        rw [append_assoc, append_assoc, singleton_append, nodup_middle, <- append_assoc]
        exact middle
      rcases ih Visited lower (by rwa [length]) again (by rw [length]; omega) with
        ⟨Visited', Topo', ran, low', high'⟩
      rw [length] at ran high'
      refine ⟨Visited', Topo', ?_, ?_, ?_⟩
      · rw [if_neg visited, filter_cons_of_neg visited, index', done]
        exact ran
      · rw [filter_cons_of_pos (by rw [Bool.not_eq_true] at visited; rw [visited]; rfl)]
        rw [append_assoc] at low'
        exact low'
      · rwa [length_cons, <- Nat.add_assoc, Nat.add_right_comm]

/-- The nodes of the window that are visited come behind the others. -/
theorem Shift_total {pre window post : List (Fin n)} {LowerBound UpperBound : Int}
    (rep : Topo.Represents (pre ++ (window ++ post))) (Visited : Fin n -> Bool)
    (lower : LowerBound = pre.length) (upper : UpperBound + 1 = pre.length + window.length) :
    ∃ Topo', Shift Topo Visited LowerBound UpperBound = some Topo' ∧
      Topo'.Represents
        ((pre ++ window.filter fun w => !Visited w) ++ (window.filter Visited ++ post)) := by
  have whole := length_of_complete rep.nodup rep.complete
  rw [length_append, length_append] at whole
  have parts : window.length = (window.filter Visited).length +
      (window.filter fun w => !Visited w).length := length_eq_length_filter_add Visited
  have perm : ((pre ++ window.filter fun w => !Visited w) ++ (window.filter Visited ++ post)).Perm
      (pre ++ (window ++ post)) := by
    rw [append_assoc, <- append_assoc (window.filter _)]
    have swapped := perm_append_comm.trans (filter_append_perm Visited window)
    exact (swapped.append_right post).append_left pre
  have nodup := perm.nodup_iff.mpr rep.nodup
  have standing := stands_append.mp rep.stands
  rw [Nat.zero_add] at standing
  have start : (pre ++ [] ++ (window ++ post)).Nodup := by
    rw [append_nil]
    exact rep.nodup
  have remaining : Topo.Stands (pre.length + ([] : List (Fin n)).length) (window ++ post) :=
    standing.2
  have ends : UpperBound + 1 =
      ((pre.length + ([] : List (Fin n)).length + window.length : Nat) : Int) := by
    rw [length_nil]
    omega
  rcases shiftDown_total Visited standing.1 remaining start ends with
    ⟨Visited', Topo₁, ran, low, high⟩
  have distinct := nodup_append.mp nodup
  have behind := nodup_append.mp distinct.2.1
  have room : (pre ++ window.filter fun w => !Visited w).length + (window.filter Visited).length <=
      n := by
    rw [length_append]
    omega
  rcases allocateAll_total (window.filter Visited) Topo₁ behind.1 room with
    ⟨Topo', allocated, stands, frame⟩
  have index : UpperBound + 1 - ((window.filter Visited).length : Int) =
      ((pre ++ window.filter fun w => !Visited w).length : Nat) := by
    rw [length_append]
    omega
  refine ⟨Topo', ?_, ?_, nodup, ?_⟩
  · rw [length_nil, Nat.add_zero, <- lower, nil_append] at ran
    rw [Shift, ran, Option.bind_some, index]
    exact allocated
  · refine stands_append.mpr ⟨?_, ?_⟩
    · apply frame 0 _ low
      · exact fun w inside before => distinct.2.2 w before w (mem_append_left _ inside) rfl
      · exact Or.inr (by rw [Nat.zero_add])
    · have place : (pre ++ window.filter fun w => !Visited w).length +
          (window.filter Visited).length = pre.length + ([] : List (Fin n)).length + window.length := by
        rw [length_append, length_nil]
        omega
      rw [Nat.zero_add]
      refine stands_append.mpr ⟨stands, ?_⟩
      rw [place]
      apply frame _ _ high
      · exact fun w inside after => behind.2.2 w inside w after rfl
      · exact Or.inl (Nat.le_of_eq place)
  · exact fun w => perm.mem_iff.mpr (rep.complete w)

theorem Stands.increasing {k : Nat} {l : List (Fin n)} (stands : Topo.Stands k l) :
    l.Pairwise fun v w => Topo.Node2Index v < Topo.Node2Index w := by
  induction l generalizing k with
  | nil => exact List.Pairwise.nil
  | cons u l ih =>
    refine pairwise_cons.mpr ⟨fun v inside => ?_, ih stands.2.2⟩
    have first := stands.2.1
    have bounds := stands.2.2.bounds inside
    omega

/-- The visited nodes of the window move behind the others, and no edge leads back. -/
theorem shifted_pairwise {pre window post : List (Fin n)} {Visited : Fin n -> Bool}
    (ordered : (pre ++ (window ++ post)).Pairwise fun v w => ¬graph.Edge w v)
    (nodup : (pre ++ (window ++ post)).Nodup) (source : X ∈ window) (target : Y ∈ window)
    (visited : Visited Y = true) (unvisited : ¬Visited X = true)
    (closed : ∀ v w, v ∈ window -> w ∈ window -> Visited v = true -> graph.Edge v w ->
      Visited w = true) :
    ((pre ++ window.filter fun w => !Visited w) ++ (window.filter Visited ++ post)).Pairwise
      fun v w => ¬(graph.Edge w v ∨ (w = X ∧ v = Y)) := by
  rcases pairwise_append.mp ordered with ⟨orderedPre, orderedRest, across⟩
  rcases pairwise_append.mp orderedRest with ⟨orderedWindow, orderedPost, across'⟩
  rcases nodup_append.mp nodup with ⟨_, nodupRest, apart⟩
  rcases nodup_append.mp nodupRest with ⟨_, _, apart'⟩
  have inside : ∀ {p : Fin n -> Bool} {w : Fin n}, w ∈ window.filter p -> w ∈ window :=
    fun mem => (mem_filter.mp mem).1
  have old : ((pre ++ window.filter fun w => !Visited w) ++ (window.filter Visited ++ post)).Pairwise
      fun v w => ¬graph.Edge w v := by
    refine pairwise_append.mpr ⟨pairwise_append.mpr ⟨orderedPre, orderedWindow.filter _, ?_⟩,
      pairwise_append.mpr ⟨orderedWindow.filter _, orderedPost, ?_⟩, ?_⟩
    · exact fun v before w mem => across v before w (mem_append_left _ (inside mem))
    · exact fun v mem w after => across' v (inside mem) w after
    · intro v mem w mem'
      rcases mem_append.mp mem with before | mem
      · apply across v before w
        rcases mem_append.mp mem' with mem' | after
        · exact mem_append_left _ (inside mem')
        · exact mem_append_right _ after
      · rcases mem_append.mp mem' with mem' | after
        · intro edge
          have marked := closed w v (inside mem') (inside mem) (mem_filter.mp mem').2 edge
          have unmarked := (mem_filter.mp mem).2
          rw [marked] at unmarked
          cases unmarked
        · exact across' v (inside mem) w after
  have targetLater : ∀ v ∈ pre ++ window.filter fun w => !Visited w, v ≠ Y := by
    rintro v mem rfl
    rcases mem_append.mp mem with before | mem
    · exact apart v before v (mem_append_left _ target) rfl
    · have unmarked := (mem_filter.mp mem).2
      rw [visited] at unmarked
      cases unmarked
  have sourceEarlier : ∀ w ∈ window.filter Visited ++ post, w ≠ X := by
    rintro w mem rfl
    rcases mem_append.mp mem with mem | after
    · exact unvisited (mem_filter.mp mem).2
    · exact apart' w source w after rfl
  have new : ((pre ++ window.filter fun w => !Visited w) ++ (window.filter Visited ++ post)).Pairwise
      fun v w => ¬(w = X ∧ v = Y) := by
    refine pairwise_append.mpr ⟨?_, ?_, ?_⟩
    · exact pairwise_of_forall_mem_list fun v mem w _ both => targetLater v mem both.2
    · exact pairwise_of_forall_mem_list fun v _ w mem both => sourceEarlier w mem both.1
    · exact fun v mem w _ both => targetLater v mem both.2
  refine (old.and new).imp ?_
  rintro v w ⟨noEdge, notNew⟩ (edge | both)
  · exact noEdge edge
  · exact notNew both

/-- The announced edge fits the new order. -/
theorem AddPred_total {order : List (Fin n)} (rep : Topo.Represents order)
    (acyclic : graph.Acyclic) (ordered : order.Pairwise fun v w => ¬graph.Edge w v)
    (ne : X ≠ Y) (unreachable : ¬TransGen graph.Edge Y X) :
    ∃ bound Topo' order', (∀ fuel, bound <= fuel -> AddPred fuel graph Topo Y X = some Topo') ∧
      Topo'.Represents order' ∧
      order'.Pairwise fun v w => ¬(graph.Edge w v ∨ (w = X ∧ v = Y)) := by
  have sorted := rep.sorted acyclic ordered
  by_cases below : Topo.Node2Index Y < Topo.Node2Index X
  · rcases DFS_total sorted acyclic below with ⟨bound, Visited, HasLoop, ran, exact, visits⟩
    have noLoop : HasLoop = false := by
      rw [<- Bool.not_eq_true, exact]
      exact unreachable
    have visited := visits noLoop
    have low := sorted.inBounds Y
    have high := sorted.inBounds X
    have whole := length_of_complete rep.nodup rep.complete
    -- the window from `Y` to `X`
    obtain ⟨pre, window, post, rfl, lower, upper⟩ : ∃ pre window post,
        order = pre ++ (window ++ post) ∧ Topo.Node2Index Y = pre.length ∧
          Topo.Node2Index X + 1 = pre.length + window.length := by
      refine ⟨order.take (Topo.Node2Index Y).toNat,
        (order.drop (Topo.Node2Index Y).toNat).take
          (Topo.Node2Index X + 1 - Topo.Node2Index Y).toNat,
        (order.drop (Topo.Node2Index Y).toNat).drop
          (Topo.Node2Index X + 1 - Topo.Node2Index Y).toNat, ?_, ?_, ?_⟩
      · rw [take_append_drop, take_append_drop]
      · rw [length_take, whole]
        omega
      · rw [length_take, length_take, length_drop, whole]
        omega
    have standing := stands_append.mp rep.stands
    rw [Nat.zero_add, stands_append] at standing
    rcases Shift_total rep Visited lower upper with ⟨Topo', shifted, rep'⟩
    refine ⟨bound, Topo', _, fun fuel enough => ?_, rep', ?_⟩
    · rw [AddPred, if_pos below, ran fuel enough, Option.bind_some, noLoop]
      exact shifted
    · have atMost : ∀ w ∈ window, Topo.Node2Index w <= Topo.Node2Index X := by
        intro w inside
        have bounds := standing.2.1.bounds inside
        omega
      have inWindow : ∀ w, Topo.Node2Index Y <= Topo.Node2Index w ->
          Topo.Node2Index w <= Topo.Node2Index X -> w ∈ window := by
        intro w least most
        rcases mem_append.mp (rep.complete w) with before | inside
        · have bounds := standing.1.bounds before
          omega
        · refine (mem_append.mp inside).resolve_right fun after => ?_
          have bounds := standing.2.2.bounds after
          omega
      have yVisited : Visited Y = true := (visited Y).mpr ⟨ReflTransGen.refl, below⟩
      have xUnvisited : ¬Visited X = true := fun marked =>
        absurd ((visited X).mp marked).2 (Int.lt_irrefl _)
      exact shifted_pairwise ordered rep.nodup (inWindow X (Int.le_of_lt below) (Int.le_refl _))
        (inWindow Y (Int.le_refl _) (Int.le_of_lt below)) yVisited xUnvisited
        fun v w _ inside marked edge => by
          have reached := (visited v).mp marked
          by_cases less : Topo.Node2Index w < Topo.Node2Index X
          · exact (visited w).mpr ⟨reached.1.tail edge, less⟩
          · have same : w = X := rep.injective (by have most := atMost w inside; omega)
            exact absurd (TransGen.tail' reached.1 (same ▸ edge)) unreachable
  · refine ⟨0, Topo, order, fun fuel _ => if_neg below, rep, ?_⟩
    refine (ordered.and rep.stands.increasing).imp ?_
    rintro v w ⟨noEdge, before⟩ (edge | ⟨rfl, rfl⟩)
    · exact noEdge edge
    · exact below before

/-! ## Runs -/

end ScheduleDAGTopologicalSort

/-- The end of an edge is appended to the lists of both units. -/
def Graph.addEdge (graph : Graph n) (X Y : Fin n) : Graph n :=
  { graph with
    SUnits := fun SU =>
      { Preds := if SU = Y then (graph.SUnits SU).Preds ++ [some X] else (graph.SUnits SU).Preds
        Succs := if SU = X then (graph.SUnits SU).Succs ++ [some Y] else (graph.SUnits SU).Succs } }

/-- The ends of an edge are erased at their places in the lists. -/
def Graph.eraseEdge (graph : Graph n) (X Y : Fin n) (pred succ : Nat) : Graph n :=
  { graph with
    SUnits := fun SU =>
      { Preds :=
          if SU = Y then (graph.SUnits SU).Preds.eraseIdx pred else (graph.SUnits SU).Preds
        Succs :=
          if SU = X then (graph.SUnits SU).Succs.eraseIdx succ else (graph.SUnits SU).Succs } }

/-- An edge from `X` to `Y` is added, or the one at the places in the lists is removed. -/
inductive Op (n : Nat) where
  | addPred (Y X : Fin n)
  | removePred (Y X : Fin n) (pred succ : Nat)

def Op.apply (graph : Graph n) : Op n -> Option (Graph n)
  | addPred Y X => some (graph.addEdge X Y)
  | removePred Y X pred succ =>
    if (graph.SUnits Y).Preds[pred]? = some (some X) ∧
        (graph.SUnits X).Succs[succ]? = some (some Y) then
      some (graph.eraseEdge X Y pred succ)
    else none

/-- The operations can be made, and the graph stays without cycles. -/
def Admissible : Graph n -> List (Op n) -> Prop
  | _, [] => True
  | graph, op :: ops =>
    ∃ graph', op.apply graph = some graph' ∧ graph'.Acyclic ∧ Admissible graph' ops

namespace ScheduleDAGTopologicalSort

/-- An edge is announced before it is added; `RemovePred` does nothing. -/
def announce (fuel : Nat) (graph : Graph n) (Topo : ScheduleDAGTopologicalSort n) :
    Op n -> Option (ScheduleDAGTopologicalSort n)
  | .addPred Y X => AddPred fuel graph Topo Y X
  | .removePred _ _ _ _ => some Topo

def step (fuel : Nat) (state : Graph n × ScheduleDAGTopologicalSort n) (op : Op n) :
    Option (Graph n × ScheduleDAGTopologicalSort n) :=
  (announce fuel state.1 state.2 op).bind fun Topo =>
    (op.apply state.1).map fun graph => (graph, Topo)

theorem edge_addEdge {v w : Fin n} :
    (graph.addEdge X Y).Edge v w ↔ graph.Edge v w ∨ (v = X ∧ w = Y) := by
  rw [Graph.Edge, Graph.Edge, Graph.addEdge]
  dsimp only
  by_cases source : v = X
  · rw [if_pos source, mem_append, mem_singleton, Option.some.injEq]
    simp only [source, true_and]
  · rw [if_neg source]
    simp only [source, false_and, or_false]

theorem edge_of_eraseEdge {v w : Fin n} {pred succ : Nat}
    (edge : (graph.eraseEdge X Y pred succ).Edge v w) : graph.Edge v w := by
  rw [Graph.Edge, Graph.eraseEdge] at edge
  dsimp only at edge
  by_cases source : v = X
  · rw [if_pos source] at edge
    exact mem_of_mem_eraseIdx edge
  · rwa [if_neg source] at edge

/-- The vectors stand for a topological order of the graph. -/
structure Maintained (graph : Graph n) (Topo : ScheduleDAGTopologicalSort n) : Prop where
  acyclic : graph.Acyclic
  order : ∃ order, Topo.Represents order ∧ order.Pairwise fun v w => ¬graph.Edge w v

theorem Maintained.sorted (maintained : Maintained graph Topo) : Sorted graph Topo := by
  rcases maintained.order with ⟨order, rep, ordered⟩
  exact rep.sorted maintained.acyclic ordered

theorem Maintained.step {op : Op n} (maintained : Maintained graph Topo)
    (applied : op.apply graph = some graph') (acyclic : graph'.Acyclic) :
    ∃ bound Topo', (∀ fuel, bound <= fuel -> step fuel (graph, Topo) op = some (graph', Topo')) ∧
      Maintained graph' Topo' := by
  rcases maintained.order with ⟨order, rep, ordered⟩
  cases op with
  | addPred Y X =>
    cases applied
    have edge : (graph.addEdge X Y).Edge X Y := edge_addEdge.mpr (.inr ⟨rfl, rfl⟩)
    have ne : X ≠ Y := by
      rintro rfl
      exact acyclic X (TransGen.single edge)
    have unreachable : ¬TransGen graph.Edge Y X := by
      intro path
      have kept : TransGen (graph.addEdge X Y).Edge Y X :=
        path.lift id fun _ _ edge => edge_addEdge.mpr (.inl edge)
      exact acyclic X (TransGen.head edge kept)
    rcases AddPred_total rep maintained.acyclic ordered ne unreachable with
      ⟨bound, Topo', order', ran, rep', ordered'⟩
    refine ⟨bound, Topo', fun fuel enough => ?_, acyclic, order', rep', ?_⟩
    · rw [ScheduleDAGTopologicalSort.step, announce, ran fuel enough]
      rfl
    · exact ordered'.imp fun noEdge edge => noEdge (edge_addEdge.mp edge)
  | removePred Y X pred succ =>
    rw [Op.apply] at applied
    split at applied
    · next places =>
        cases applied
        refine ⟨0, Topo, fun fuel _ => ?_, acyclic, order, rep, ?_⟩
        · rw [ScheduleDAGTopologicalSort.step, announce, Option.bind_some, Op.apply, if_pos places]
          rfl
        · exact ordered.imp fun noEdge edge => noEdge (edge_of_eraseEdge edge)
    · cases applied

theorem Maintained.run (maintained : Maintained graph Topo) {ops : List (Op n)}
    (admissible : Admissible graph ops) :
    ∃ bound graph' Topo', (∀ fuel, bound <= fuel ->
        Runs.run (ScheduleDAGTopologicalSort.step fuel) (graph, Topo) ops = some (graph', Topo')) ∧
      Runs.run Op.apply graph ops = some graph' ∧ Maintained graph' Topo' := by
  induction ops generalizing graph Topo with
  | nil => exact ⟨0, graph, Topo, fun _ _ => rfl, rfl, maintained⟩
  | cons op ops ih =>
    rcases admissible with ⟨next, applied, acyclic, admissible⟩
    rcases maintained.step applied acyclic with ⟨bound, Topo₁, stepped, kept⟩
    rcases ih kept admissible with ⟨bound', graph', Topo', ran, edges, final⟩
    refine ⟨max bound bound', graph', Topo', fun fuel enough => ?_, ?_, final⟩
    · rw [Runs.run_cons, stepped fuel (by omega)]
      exact ran fuel (by omega)
    · rw [Runs.run_cons, applied]
      exact edges

/-- The initial order is created, and then edges are announced and added, or removed. -/
def maintain (fuel : Nat) (graph : Graph n) (Topo : ScheduleDAGTopologicalSort n)
    (ops : List (Op n)) : Option (Graph n × ScheduleDAGTopologicalSort n) :=
  (InitDAGTopologicalSorting fuel graph Topo).bind fun Topo =>
    Runs.run (step fuel) (graph, Topo) ops

/-- In every run that keeps the graph without cycles the two vectors are inverse permutations
that sort the graph, and the queries are answered exactly. -/
theorem maintain_sorted (acyclic : graph.Acyclic) (mirrored : graph.Mirrored)
    (Topo : ScheduleDAGTopologicalSort n) {ops : List (Op n)} (admissible : Admissible graph ops) :
    ∃ bound graph' Topo', (∀ fuel, bound <= fuel ->
        maintain fuel graph Topo ops = some (graph', Topo')) ∧
      Runs.run Op.apply graph ops = some graph' ∧ Sorted graph' Topo' ∧
      ∀ SU TargetSU, ∃ bound answer, (∀ fuel, bound <= fuel ->
          IsReachable fuel graph' Topo' SU TargetSU = some answer) ∧
        (answer = true ↔ TransGen graph'.Edge TargetSU SU) := by
  rcases InitDAGTopologicalSorting_total acyclic mirrored Topo with
    ⟨bound, Topo₁, order, init, rep, ordered⟩
  have start : Maintained graph Topo₁ := ⟨acyclic, order, rep, ordered⟩
  rcases start.run admissible with ⟨bound', graph', Topo', ran, edges, final⟩
  refine ⟨max bound bound', graph', Topo', fun fuel enough => ?_, edges, final.sorted, ?_⟩
  · rw [maintain, init fuel (by omega)]
    exact ran fuel (by omega)
  · exact IsReachable_total final.sorted final.acyclic

instance (graph : Graph n) (X Y : Fin n) : Decidable (graph.Edge X Y) :=
  inferInstanceAs (Decidable (some Y ∈ (graph.SUnits X).Succs))

theorem acyclic_of_lt (rank : Fin n -> Nat) (up : ∀ X Y, graph.Edge X Y -> rank X < rank Y) :
    graph.Acyclic := by
  have climbs : ∀ {X Y}, TransGen graph.Edge X Y -> rank X < rank Y := by
    intro X Y path
    induction path with
    | single edge => exact up _ _ edge
    | tail _ edge ih => exact ih.trans (up _ _ edge)
  exact fun X path => lt_irrefl _ (climbs path)

/-- An edge from the first unit to the second, and from that to the exit. -/
def exampleGraph : Graph 3 :=
  { SUnits := fun SU =>
      if SU = 0 then ⟨[], [some 1]⟩ else if SU = 1 then ⟨[some 0], [none]⟩ else ⟨[], []⟩
    ExitSU := some [some 1] }

theorem maintain_sorted_three :
    ∃ bound graph' Topo', (∀ fuel, bound <= fuel ->
        maintain fuel exampleGraph ⟨fun _ => 0, fun _ => 0⟩
          [.addPred 0 2, .removePred 1 0 0 0, .addPred 2 1] = some (graph', Topo')) ∧
      Runs.run Op.apply exampleGraph [.addPred 0 2, .removePred 1 0 0 0, .addPred 2 1] =
        some graph' ∧ Sorted graph' Topo' ∧
      ∀ SU TargetSU, ∃ bound answer, (∀ fuel, bound <= fuel ->
          IsReachable fuel graph' Topo' SU TargetSU = some answer) ∧
        (answer = true ↔ TransGen graph'.Edge TargetSU SU) := by
  have acyclic : exampleGraph.Acyclic := acyclic_of_lt ![0, 1, 0] (by decide)
  refine maintain_sorted acyclic ⟨by decide, by decide⟩ _ ⟨_, rfl, ?_, _, rfl, ?_, _, rfl, ?_, trivial⟩
  · exact acyclic_of_lt ![1, 2, 0] (by decide)
  · exact acyclic_of_lt ![1, 0, 0] (by decide)
  · exact acyclic_of_lt ![2, 0, 1] (by decide)

end ScheduleDAGTopologicalSort
end ScheduleDAG
end LlvmProject
