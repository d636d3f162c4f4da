import LlvmProject.Library.Worklist
import Mathlib.Data.Fintype.EquivFin

namespace LlvmProject
namespace ScheduleDAG

/-!
# The topological order of the scheduling units

The order is kept in two vectors, from nodes to indices and back.  It is computed once
and then repaired when an edge is announced.  A write outside of a vector has no result.
-/

/-- The ends of the edges of a unit: units of the vector, or a unit outside of it. -/
structure SUnit (n : Nat) where
  Preds : List (Option (Fin n))
  Succs : List (Option (Fin n))

/-- The units of the vector, and the exit unit with its predecessors if there is one. -/
structure Graph (n : Nat) where
  SUnits : Fin n -> SUnit n
  ExitSU : Option (List (Option (Fin n)))

structure ScheduleDAGTopologicalSort (n : Nat) where
  Index2Node : Fin n -> Fin n
  Node2Index : Fin n -> Int

namespace ScheduleDAGTopologicalSort

variable {n : Nat}

/-- Assign the topological index to the node. -/
def Allocate (Topo : ScheduleDAGTopologicalSort n) (node : Fin n) (index : Int) :
    Option (ScheduleDAGTopologicalSort n) :=
  if h : 0 <= index ∧ index.toNat < n then
    some
      { Index2Node := Function.update Topo.Index2Node ⟨index.toNat, h.2⟩ node
        Node2Index := Function.update Topo.Node2Index node index }
  else none

/-! ## The initial order -/

/-- One successor less is left to process for each of the predecessors; those without any
are put on the worklist. -/
def decrementPreds : List (Option (Fin n)) -> (Fin n -> Int) -> List (Option (Fin n)) ->
    (Fin n -> Int) × List (Option (Fin n))
  | [], Node2Index, WorkList => (Node2Index, WorkList)
  | none :: Preds, Node2Index, WorkList => decrementPreds Preds Node2Index WorkList
  | some SU :: Preds, Node2Index, WorkList =>
    let Node2Index := Function.update Node2Index SU (Node2Index SU - 1)
    if Node2Index SU = 0 then decrementPreds Preds Node2Index (some SU :: WorkList)
    else decrementPreds Preds Node2Index WorkList

/-- The predecessors of a unit; `none` is the exit unit. -/
def Graph.predsOf (graph : Graph n) : Option (Fin n) -> List (Option (Fin n))
  | some SU => (graph.SUnits SU).Preds
  | none => graph.ExitSU.getD []

/-- A unit of the vector gets the next lower index. -/
def allocateNext (state : ScheduleDAGTopologicalSort n × Int) :
    Option (Fin n) -> Option (ScheduleDAGTopologicalSort n × Int)
  | some SU => (state.1.Allocate SU (state.2 - 1)).map fun Topo => (Topo, state.2 - 1)
  | none => some state

/-- Take a unit off the worklist. -/
def initVisit (graph : Graph n) (state : ScheduleDAGTopologicalSort n × Int) (SU : Option (Fin n)) :
    Option ((ScheduleDAGTopologicalSort n × Int) × Option (List (Option (Fin n)))) :=
  (allocateNext state SU).map fun state =>
    let counted := decrementPreds (Graph.predsOf graph SU) state.1.Node2Index []
    (({ state.1 with Node2Index := counted.1 }, state.2), some counted.2)

/-- The exit unit is put on the worklist first, then the units without successors. -/
def initWorkList (graph : Graph n) : List (Option (Fin n)) :=
  ((List.finRange n).filter fun SU => (graph.SUnits SU).Succs.length = 0).reverse.map some ++
    (graph.ExitSU.map fun _ => none).toList

/-- Create the initial order; `Node2Index` first holds the numbers of successors that are
left to process. -/
def InitDAGTopologicalSorting (fuel : Nat) (graph : Graph n)
    (Topo : ScheduleDAGTopologicalSort n) : Option (ScheduleDAGTopologicalSort n) :=
  (Worklist.loop (initVisit graph) fuel (initWorkList graph)
    ({ Topo with Node2Index := fun SU => (graph.SUnits SU).Succs.length }, (n : Int))).map Prod.fst

/-! ## The search -/

/-- The successors, from the last to the first, that are put on the worklist; none at all
if one has the index `UpperBound`. -/
def scanSuccs (Node2Index : Fin n -> Int) (UpperBound : Int) (Visited : Fin n -> Bool) :
    List (Option (Fin n)) -> List (Fin n) -> Option (List (Fin n))
  | [], WorkList => some WorkList
  | none :: Succs, WorkList => scanSuccs Node2Index UpperBound Visited Succs WorkList
  | some s :: Succs, WorkList =>
    if Node2Index s = UpperBound then none
    else if Visited s = false ∧ Node2Index s < UpperBound then
      scanSuccs Node2Index UpperBound Visited Succs (s :: WorkList)
    else scanSuccs Node2Index UpperBound Visited Succs WorkList

def dfsVisit (graph : Graph n) (Node2Index : Fin n -> Int) (UpperBound : Int)
    (state : (Fin n -> Bool) × Bool) (SU : Fin n) :
    Option (((Fin n -> Bool) × Bool) × Option (List (Fin n))) :=
  let Visited := Function.update state.1 SU true
  match scanSuccs Node2Index UpperBound Visited (graph.SUnits SU).Succs.reverse [] with
  | some pushed => some ((Visited, state.2), some pushed)
  | none => some ((Visited, true), none)

/-- The nodes that are visited from one, and whether the one with the index `UpperBound` is
reached. -/
def DFS (fuel : Nat) (graph : Graph n) (Topo : ScheduleDAGTopologicalSort n) (SU : Fin n)
    (UpperBound : Int) : Option ((Fin n -> Bool) × Bool) :=
  Worklist.loop (dfsVisit graph Topo.Node2Index UpperBound) fuel [SU] (fun _ => false, false)

/-! ## The repair -/

/-- The nodes that are not visited move down; the visited ones are unmarked and collected. -/
def shiftDown (UpperBound i : Int) (Visited : Fin n -> Bool) (L : List (Fin n))
    (Topo : ScheduleDAGTopologicalSort n) :
    Option ((Fin n -> Bool) × List (Fin n) × ScheduleDAGTopologicalSort n × Int) :=
  if i <= UpperBound then
    if h : 0 <= i ∧ i.toNat < n then
      let w := Topo.Index2Node ⟨i.toNat, h.2⟩
      if Visited w then
        shiftDown UpperBound (i + 1) (Function.update Visited w false) (L ++ [w]) Topo
      else
        (Topo.Allocate w (i - L.length)).bind fun Topo =>
          shiftDown UpperBound (i + 1) Visited L Topo
    else none
  else some (Visited, L, Topo, i)
termination_by (UpperBound + 1 - i).toNat

/-- The collected nodes follow from an index on. -/
def allocateAll : List (Fin n) -> Int -> ScheduleDAGTopologicalSort n ->
    Option (ScheduleDAGTopologicalSort n)
  | [], _, Topo => some Topo
  | w :: L, index, Topo => (Topo.Allocate w index).bind (allocateAll L (index + 1))

/-- Renumber the nodes between the bounds. -/
def Shift (Topo : ScheduleDAGTopologicalSort n) (Visited : Fin n -> Bool)
    (LowerBound UpperBound : Int) : Option (ScheduleDAGTopologicalSort n) :=
  (shiftDown UpperBound LowerBound Visited [] Topo).bind fun shifted =>
    allocateAll shifted.2.1 (shifted.2.2.2 - shifted.2.1.length) shifted.2.2.1

/-- Accommodate an edge that is to be added from `X` to `Y`. -/
def AddPred (fuel : Nat) (graph : Graph n) (Topo : ScheduleDAGTopologicalSort n) (Y X : Fin n) :
    Option (ScheduleDAGTopologicalSort n) :=
  let LowerBound := Topo.Node2Index Y
  let UpperBound := Topo.Node2Index X
  if LowerBound < UpperBound then
    (DFS fuel graph Topo Y UpperBound).bind fun searched =>
      -- "Inserted edge creates a loop!"
      if searched.2 then none else Shift Topo searched.1 LowerBound UpperBound
  else some Topo

/-- Whether `SU` is reachable from `TargetSU`. -/
def IsReachable (fuel : Nat) (graph : Graph n) (Topo : ScheduleDAGTopologicalSort n)
    (SU TargetSU : Fin n) : Option Bool :=
  let LowerBound := Topo.Node2Index TargetSU
  let UpperBound := Topo.Node2Index SU
  if LowerBound < UpperBound then (DFS fuel graph Topo TargetSU UpperBound).map Prod.snd
  else some false

end ScheduleDAGTopologicalSort
end ScheduleDAG
end LlvmProject

namespace LlvmProject

open List Function Int

namespace ScheduleDAG

/-!
## Orders of the units

The two vectors stand for a list of all units without duplicates.  The list is ordered
when no unit has an edge to an earlier one; with the positions in the list as indices the
edges then lead from lower to higher ones.
-/

open Relation

variable {n : Nat} {graph : Graph n}

/-- There is an edge from one unit to another. -/
def Graph.Edge (graph : Graph n) (X Y : Fin n) : Prop := some Y ∈ (graph.SUnits X).Succs

def Graph.Acyclic (graph : Graph n) : Prop := ∀ X, ¬TransGen graph.Edge X X

/-- Each edge is in the list of its source and in that of its target. -/
structure Graph.Mirrored (graph : Graph n) : Prop where
  units : ∀ X Y, (graph.SUnits X).Succs.count (some Y) = (graph.SUnits Y).Preds.count (some X)
  exit : ∀ X, (graph.SUnits X).Succs.count none = (graph.ExitSU.getD []).count (some X)

theorem Graph.Acyclic.wellFounded (acyclic : graph.Acyclic) : WellFounded graph.Edge :=
  Worklist.wellFounded_of_acyclic acyclic

theorem Graph.Acyclic.wellFounded_swap (acyclic : graph.Acyclic) :
    WellFounded fun X Y => graph.Edge Y X := by
  apply Worklist.wellFounded_of_acyclic
  intro X path
  exact acyclic X (transGen_swap.mp path)

namespace ScheduleDAGTopologicalSort

variable {Topo Topo' : ScheduleDAGTopologicalSort n} {k : Nat} {w : Fin n} {l : List (Fin n)}

/-- The units stand at the indices from `k` on. -/
def Stands (Topo : ScheduleDAGTopologicalSort n) : Nat -> List (Fin n) -> Prop
  | _, [] => True
  | k, w :: l =>
    (∃ h : k < n, Topo.Index2Node ⟨k, h⟩ = w) ∧ Topo.Node2Index w = k ∧ Stands Topo (k + 1) l

theorem stands_append {l' : List (Fin n)} :
    Topo.Stands k (l ++ l') ↔ Topo.Stands k l ∧ Topo.Stands (k + l.length) l' := by
  induction l generalizing k with
  | nil => exact ⟨fun stands => ⟨trivial, stands⟩, And.right⟩
  | cons w l ih =>
    rw [cons_append, Stands, Stands, ih, length_cons,
      Nat.add_assoc, Nat.add_comm 1, and_assoc, and_assoc]

section

variable (stands : Topo.Stands k l)
include stands

theorem Stands.bounds (mem : w ∈ l) :
    (k : Int) <= Topo.Node2Index w ∧ Topo.Node2Index w < k + l.length := by
  induction l generalizing k with
  | nil => cases mem
  | cons v l ih =>
    rw [length_cons]
    rcases mem_cons.mp mem with rfl | later
    · have here := stands.2.1
      omega
    · have bounds := ih stands.2.2 later
      omega

theorem Stands.inverse (mem : w ∈ l) :
    ∃ h : (Topo.Node2Index w).toNat < n, Topo.Index2Node ⟨(Topo.Node2Index w).toNat, h⟩ = w := by
  induction l generalizing k with
  | nil => cases mem
  | cons v l ih =>
    rcases mem_cons.mp mem with rfl | later
    · rcases stands.1 with ⟨h, here⟩
      have index : (Topo.Node2Index w).toNat = k := by
        rw [stands.2.1, toNat_natCast]
      refine ⟨by rwa [index], ?_⟩
      simp only [index]
      exact here
    · exact ih stands.2.2 later

/-- Two units are related as their positions in the list. -/
theorem Stands.pairwise {R : Fin n -> Fin n -> Prop} (pairwise : l.Pairwise R) {v : Fin n}
    (mem : v ∈ l) (mem' : w ∈ l) (before : Topo.Node2Index v < Topo.Node2Index w) : R v w := by
  induction l generalizing k with
  | nil => cases mem
  | cons u l ih =>
    rw [pairwise_cons] at pairwise
    have first := stands.2.1
    rcases mem_cons.mp mem with rfl | later
    · rcases mem_cons.mp mem' with rfl | later'
      · exact absurd before (lt_irrefl _)
      · exact pairwise.1 w later'
    · rcases mem_cons.mp mem' with rfl | later'
      · have bounds := stands.2.2.bounds later
        omega
      · exact ih stands.2.2 pairwise.2 later later'

/-- Only the indices of the units and the units at the indices matter. -/
theorem Stands.congr
    (nodes : ∀ w ∈ l, Topo'.Node2Index w = Topo.Node2Index w)
    (indices : ∀ i : Fin n, k <= i.val -> i.val < k + l.length ->
      Topo'.Index2Node i = Topo.Index2Node i) : Topo'.Stands k l := by
  induction l generalizing k with
  | nil => trivial
  | cons w l ih =>
    rw [length_cons] at indices
    rcases stands with ⟨⟨h, here⟩, index, others⟩
    refine ⟨⟨h, ?_⟩, ?_, ?_⟩
    · rw [indices ⟨k, h⟩ (le_refl k) (by show k < k + (l.length + 1); omega), here]
    · rw [nodes w mem_cons_self, index]
    · apply ih others
      · exact fun v inside => nodes v (mem_cons_of_mem w inside)
      · exact fun i low high => indices i (by omega) (by omega)

end

theorem Allocate_eq (Topo : ScheduleDAGTopologicalSort n) (w : Fin n) (h : k < n) :
    Topo.Allocate w k = some
      { Index2Node := Function.update Topo.Index2Node ⟨k, h⟩ w
        Node2Index := Function.update Topo.Node2Index w k } := by
  have bounds : 0 <= (k : Int) ∧ (k : Int).toNat < n := ⟨natCast_nonneg k, by rwa [toNat_natCast]⟩
  rw [Allocate, dif_pos bounds]
  simp only [toNat_natCast]

/-- A unit that is allocated elsewhere does not disturb the others. -/
theorem Stands.allocate {i : Nat} (stands : Topo.Stands k l) (fresh : w ∉ l)
    (outside : i < k ∨ k + l.length <= i) (done : Topo.Allocate w i = some Topo') :
    Topo'.Stands k l := by
  by_cases h : i < n
  · rw [Allocate_eq Topo w h] at done
    cases done
    apply stands.congr
    · intro v inside
      have ne : v ≠ w := by
        rintro rfl
        exact fresh inside
      exact update_of_ne ne _ _
    · intro j low high
      refine update_of_ne (fun same => ?_) _ _
      have value : j.val = i := congrArg Fin.val same
      omega
  · rw [Allocate, dif_neg (fun both => h (by have := both.2; rwa [toNat_natCast] at this))] at done
    cases done

theorem stands_allocated {i : Nat} (done : Topo.Allocate w i = some Topo') :
    Topo'.Stands i [w] := by
  by_cases h : i < n
  · rw [Allocate_eq Topo w h] at done
    cases done
    exact ⟨⟨h, update_self _ _ _⟩, update_self _ _ _, trivial⟩
  · rw [Allocate, dif_neg (fun both => h (by have := both.2; rwa [toNat_natCast] at this))] at done
    cases done

/-- The vectors stand for a list of all units. -/
structure Represents (Topo : ScheduleDAGTopologicalSort n) (order : List (Fin n)) : Prop where
  stands : Topo.Stands 0 order
  nodup : order.Nodup
  complete : ∀ w, w ∈ order

variable {order : List (Fin n)}

theorem length_of_complete (nodup : order.Nodup)
    (complete : ∀ w, w ∈ order) : order.length = n := by
  have all : order.toFinset = Finset.univ := Finset.eq_univ_iff_forall.mpr fun w =>
    List.mem_toFinset.mpr (complete w)
  rw [<- toFinset_card_of_nodup nodup, all, Finset.card_univ, Fintype.card_fin]

theorem Represents.injective (rep : Topo.Represents order)
    {v : Fin n} (same : Topo.Node2Index v = Topo.Node2Index w) : v = w := by
  rcases rep.stands.inverse (rep.complete v) with ⟨_, first⟩
  rcases rep.stands.inverse (rep.complete w) with ⟨_, second⟩
  rw [<- first, <- second]
  simp only [same]

/-- The two vectors are inverse permutations, and each edge leads to a higher index. -/
structure Sorted (graph : Graph n) (Topo : ScheduleDAGTopologicalSort n) : Prop where
  inBounds : ∀ w, 0 <= Topo.Node2Index w ∧ Topo.Node2Index w < n
  nodeOfIndex : ∀ w, ∃ h : (Topo.Node2Index w).toNat < n,
    Topo.Index2Node ⟨(Topo.Node2Index w).toNat, h⟩ = w
  indexOfNode : ∀ i, Topo.Node2Index (Topo.Index2Node i) = i.val
  increasing : ∀ X Y, graph.Edge X Y -> Topo.Node2Index X < Topo.Node2Index Y

theorem Represents.sorted (rep : Topo.Represents order)
    (acyclic : graph.Acyclic) (ordered : order.Pairwise fun v w => ¬graph.Edge w v) :
    Sorted graph Topo := by
  have length := length_of_complete rep.nodup rep.complete
  have inverse : ∀ w, ∃ h : (Topo.Node2Index w).toNat < n,
      Topo.Index2Node ⟨(Topo.Node2Index w).toNat, h⟩ = w :=
    fun w => rep.stands.inverse (rep.complete w)
  have bounds : ∀ w, 0 <= Topo.Node2Index w ∧ Topo.Node2Index w < n := by
    intro w
    have bounds := rep.stands.bounds (rep.complete w)
    rw [length] at bounds
    omega
  refine ⟨bounds, inverse, ?_, ?_⟩
  · intro i
    -- the indices of the nodes are different and so exhaust the range
    have injective : Injective fun w : Fin n =>
        (⟨(Topo.Node2Index w).toNat, (inverse w).1⟩ : Fin n) := by
      intro v w same
      apply rep.injective
      have values : (Topo.Node2Index v).toNat = (Topo.Node2Index w).toNat := congrArg Fin.val same
      have first := bounds v
      have second := bounds w
      omega
    rcases Finite.surjective_of_injective injective i with ⟨w, index⟩
    have here := (inverse w).2
    have value : (Topo.Node2Index w).toNat = i.val := congrArg Fin.val index
    have unit : Topo.Index2Node i = w := by
      rw [<- here]
      exact congrArg Topo.Index2Node index.symm
    have low := (bounds w).1
    rw [unit]
    omega
  · intro X Y edge
    by_contra notBefore
    rcases lt_or_eq_of_le (not_lt.mp notBefore) with before | same
    · exact rep.stands.pairwise ordered (rep.complete Y) (rep.complete X)
        before edge
    · rw [rep.injective same] at edge
      exact acyclic X (TransGen.single edge)

theorem Sorted.lt_of_transGen {X Y : Fin n} (sorted : Sorted graph Topo)
    (path : TransGen graph.Edge X Y) : Topo.Node2Index X < Topo.Node2Index Y := by
  induction path with
  | single edge => exact sorted.increasing _ _ edge
  | tail _ edge ih => exact ih.trans (sorted.increasing _ _ edge)

end ScheduleDAGTopologicalSort
end ScheduleDAG
end LlvmProject
