import LlvmProject.Support.DeltaAlgorithm
import Mathlib.Data.Finset.Union

namespace LlvmProject
namespace DAGDeltaAlgorithm

/-!
# Minimisation of changes with dependencies

Each pair of the dependencies is a change and one that it depends on.  The
algorithm starts with the changes that depend on nothing and minimises them with
`DeltaAlgorithm`; a tested set takes in all changes that depend on one of it.  It
goes on with the changes that depend directly on those that remain, and so forth.

The state has the cache of failed tests and, for the sake of the statements, the
sets that were passed to the client's `ExecuteOneTest`, the last one first.  Maps
whose keys are the changes are functions; only `SuccClosure`, whose entries come to
be on the way, may lack one.  The loops and calls are bounded by `fuel`.
-/

variable {α : Type*} [LinearOrder α]

/-! ## `DeltaActiveSetHelper`

The functions that the helper inherits from `DeltaAlgorithm`, with a test that has a
state of its own besides the helper's cache. -/

namespace DeltaActiveSetHelper

open DeltaAlgorithm (Split)

variable {σ : Type*} (ExecuteOneTest : Finset α -> σ -> Bool × σ)

def GetTestResult (s : Finset (Finset α) × σ) (Changes : Finset α) :
    Bool × (Finset (Finset α) × σ) :=
  if Changes ∈ s.1 then (false, s)
  else
    let Result := ExecuteOneTest Changes s.2
    if Result.1 then (true, (s.1, Result.2)) else (false, (insert Changes s.1, Result.2))

/-- The search over the sets from the position `rest` on. -/
def Search
    (Delta : Finset α -> List (Finset α) -> Finset (Finset α) × σ ->
      Option (Finset α × (Finset (Finset α) × σ)))
    (Changes : Finset α) :
    List (Finset α) -> List (Finset α) -> Finset (Finset α) × σ ->
      Option (Option (Finset α) × (Finset (Finset α) × σ))
  | _, [], s => some (none, s)
  | before, it :: rest, s =>
    let subset := GetTestResult ExecuteOneTest s it
    if subset.1 then (Delta it (Split it) subset.2).map fun found => (some found.1, found.2)
    else if (before ++ it :: rest).length > 2 then
      let complement := GetTestResult ExecuteOneTest subset.2 (Changes \ it)
      if complement.1 then
        (Delta (Changes \ it) (before ++ rest) complement.2).map
          fun found => (some found.1, found.2)
      else Search Delta Changes (before ++ [it]) rest complement.2
    else Search Delta Changes (before ++ [it]) rest subset.2

def Delta : Nat -> Finset α -> List (Finset α) -> Finset (Finset α) × σ ->
    Option (Finset α × (Finset (Finset α) × σ))
  | 0, _, _, _ => none
  | fuel + 1, Changes, Sets, s =>
    if Sets.length <= 1 then some (Changes, s)
    else
      (Search ExecuteOneTest (Delta fuel) Changes [] Sets s).bind fun found =>
        match found.1 with
        | some Res => some (Res, found.2)
        | none =>
          let SplitSets := Sets.flatMap Split
          if SplitSets.length = Sets.length then some (Changes, found.2)
          else Delta fuel Changes SplitSets found.2

def Run (fuel : Nat) (Changes : Finset α) (s : Finset (Finset α) × σ) :
    Option (Finset α × (Finset (Finset α) × σ)) :=
  let empty := GetTestResult ExecuteOneTest s ∅
  if empty.1 then some (∅, empty.2)
  else Delta ExecuteOneTest fuel Changes (Split Changes) empty.2

end DeltaActiveSetHelper

/-! ## `DAGDeltaAlgorithmImpl` -/

structure DAGDeltaAlgorithmImpl (α : Type*) where
  Roots : List α
  Predecessors : α -> List α
  Successors : α -> List α
  PredClosure : α -> Finset α

/-- The cache of failed tests, and the sets that were tested. -/
structure Tests (α : Type*) where
  FailedTestsCache : Finset (Finset α)
  executed : List (Finset α)

/-- The changes that depend on a node, in the order of the dependencies. -/
def predecessors (Dependencies : List (α × α)) (Node : α) : List α :=
  Dependencies.filterMap fun it => if it.2 = Node then some it.1 else none

/-- The changes that a node depends on. -/
def successors (Dependencies : List (α × α)) (Node : α) : List α :=
  Dependencies.filterMap fun it => if it.1 = Node then some it.2 else none

/-- The closure of the successor relation as far as it is computed. -/
abbrev ClosureMap (α : Type*) := α -> Option (Finset α)

/-- A predecessor takes in a change and its successors. -/
def extendClosure (Change : α) (SuccClosure : ClosureMap α) (it : α) : ClosureMap α :=
  Function.update SuccClosure it
    (some ((SuccClosure it).getD ∅ ∪ insert Change ((SuccClosure Change).getD ∅)))

/-- The loop over the worklist, whose back is the head of the list here. -/
def closureLoop (Predecessors : α -> List α) :
    Nat -> List α -> ClosureMap α -> Option (ClosureMap α)
  | _, [], SuccClosure => some SuccClosure
  | 0, _ :: _, _ => none
  | fuel + 1, Change :: Worklist, SuccClosure =>
    let entered := Function.update SuccClosure Change (some ((SuccClosure Change).getD ∅))
    closureLoop Predecessors fuel ((Predecessors Change).reverse ++ Worklist)
      ((Predecessors Change).foldl (extendClosure Change) entered)

namespace DAGDeltaAlgorithmImpl

/-- The constructor. -/
def construct (fuel : Nat) (Changes : Finset α) (Dependencies : List (α × α)) :
    Option (DAGDeltaAlgorithmImpl α) := do
  let Predecessors := predecessors Dependencies
  let Successors := successors Dependencies
  let Roots := (SortedPairs.inOrder Changes).filter fun it => Successors it = []
  let SuccClosure <- closureLoop Predecessors fuel Roots.reverse fun _ => none
  if ∀ it ∈ Changes, (SuccClosure it).isSome then
    some ⟨Roots, Predecessors, Successors,
      fun it2 => Changes.filter fun it => it2 ∈ (SuccClosure it).getD ∅⟩
  else none

variable (impl : DAGDeltaAlgorithmImpl α) (P : Finset α -> Bool)

/-- The client's test. -/
def ExecuteOneTest (S : Finset α) (s : Tests α) : Bool × Tests α :=
  (P S, { s with executed := S :: s.executed })

/-- The active set with the required changes and all that depend on the active set. -/
def extended (Required Changes : Finset α) : Finset α :=
  Required ∪ Changes ∪ Changes.biUnion impl.PredClosure

/-- Get the test result from the cache, executing the test if necessary. -/
def GetTestResult (Required Changes : Finset α) (s : Tests α) : Bool × Tests α :=
  let Extended := impl.extended Required Changes
  if Extended ∈ s.FailedTestsCache then (false, s)
  else
    let Result := ExecuteOneTest P Extended s
    if Result.1 then Result
    else (false, { Result.2 with FailedTestsCache := insert Extended Result.2.FailedTestsCache })

/-- The loop of `Run`; `calls` bounds the calls of each minimisation. -/
def runLoop (calls : Nat) : Nat -> Finset α -> Finset α -> Tests α -> Option (Finset α × Tests α)
  | 0, CurrentSet, Required, s => if CurrentSet = ∅ then some (Required, s) else none
  | fuel + 1, CurrentSet, Required, s =>
    if CurrentSet = ∅ then some (Required, s)
    else do
      let (CurrentMinSet, _, s) <-
        DeltaActiveSetHelper.Run (impl.GetTestResult P Required) calls CurrentSet (∅, s)
      runLoop calls fuel (CurrentMinSet.biUnion fun it => (impl.Predecessors it).toFinset)
        (Required ∪ CurrentMinSet) s

def Run (fuel : Nat) : Option (Finset α × Tests α) :=
  impl.runLoop P fuel fuel impl.Roots.toFinset ∅ ⟨∅, []⟩

end DAGDeltaAlgorithmImpl

/-- Minimise the changes: the result, and the sets that were tested. -/
def Run (P : Finset α -> Bool) (fuel : Nat) (Changes : Finset α) (Dependencies : List (α × α)) :
    Option (Finset α × List (Finset α)) := do
  let impl <- DAGDeltaAlgorithmImpl.construct fuel Changes Dependencies
  let (Required, s) <- impl.Run P fuel
  some (Required, s.executed)

end DAGDeltaAlgorithm
end LlvmProject

namespace LlvmProject

open List Option Function

namespace DAGDeltaAlgorithm

/-!
## Transitive dependencies

The worklist of the constructor visits a change once for every way from it to a
root.  Without cycles there are finitely many, and at the end each change knows all
changes that it depends on.
-/

open Relation

variable {α : Type*} [LinearOrder α] {Changes : Finset α} {Dependencies : List (α × α)}
  {c u v : α}

/-- One change depends directly on another. -/
def Depends (Dependencies : List (α × α)) (x y : α) : Prop := (x, y) ∈ Dependencies

/-- The dependencies are among the changes and have no cycle. -/
structure Acyclic (Changes : Finset α) (Dependencies : List (α × α)) : Prop where
  within : ∀ x y, Depends Dependencies x y -> x ∈ Changes ∧ y ∈ Changes
  irreflexive : ∀ x, ¬TransGen (Depends Dependencies) x x

theorem mem_predecessors : u ∈ predecessors Dependencies c ↔ Depends Dependencies u c := by
  rw [predecessors, mem_filterMap]
  constructor
  · rintro ⟨it, mem, found⟩
    by_cases same : it.2 = c
    · rw [if_pos same] at found
      rw [Depends, <- Option.some.inj found, <- same]
      exact mem
    · rw [if_neg same] at found
      cases found
  · exact fun mem => ⟨(u, c), mem, if_pos rfl⟩

theorem mem_successors : u ∈ successors Dependencies c ↔ Depends Dependencies c u := by
  rw [successors, mem_filterMap]
  constructor
  · rintro ⟨it, mem, found⟩
    by_cases same : it.1 = c
    · rw [if_pos same] at found
      rw [Depends, <- Option.some.inj found, <- same]
      exact mem
    · rw [if_neg same] at found
      cases found
  · exact fun mem => ⟨(c, u), mem, if_pos rfl⟩

omit [LinearOrder α] in
theorem Acyclic.mem_of_transGen (acyclic : Acyclic Changes Dependencies)
    (path : TransGen (Depends Dependencies) u v) : u ∈ Changes ∧ v ∈ Changes := by
  induction path with
  | single step => exact acyclic.within _ _ step
  | tail _ step ih => exact ⟨ih.1, (acyclic.within _ _ step).2⟩

/-! ## Ranks -/

open Classical in
/-- The number of changes that depend on one. -/
noncomputable def rank (Changes : Finset α) (Dependencies : List (α × α)) (c : α) : Nat :=
  (Changes.filter fun u => TransGen (Depends Dependencies) u c).card

omit [LinearOrder α] in
theorem rank_lt (acyclic : Acyclic Changes Dependencies) (step : Depends Dependencies u c) :
    rank Changes Dependencies u < rank Changes Dependencies c := by
  classical
  apply Finset.card_lt_card
  rw [Finset.ssubset_iff_of_subset]
  · refine ⟨u, ?_, ?_⟩
    · rw [Finset.mem_filter]
      exact ⟨(acyclic.within u c step).1, TransGen.single step⟩
    · rw [Finset.mem_filter]
      exact fun both => acyclic.irreflexive u both.2
  · intro w mem
    rw [Finset.mem_filter] at mem ⊢
    exact ⟨mem.1, mem.2.tail step⟩

omit [LinearOrder α] in
theorem rank_le (Changes : Finset α) (Dependencies : List (α × α)) (c : α) :
    rank Changes Dependencies c <= Changes.card := by
  classical
  exact Finset.card_filter_le _ _

open Classical in
/-- The number of changes that one depends on. -/
noncomputable def depth (Changes : Finset α) (Dependencies : List (α × α)) (c : α) : Nat :=
  (Changes.filter fun u => TransGen (Depends Dependencies) c u).card

omit [LinearOrder α] in
theorem depth_lt (acyclic : Acyclic Changes Dependencies) (step : Depends Dependencies c u) :
    depth Changes Dependencies u < depth Changes Dependencies c := by
  classical
  apply Finset.card_lt_card
  rw [Finset.ssubset_iff_of_subset]
  · refine ⟨u, ?_, ?_⟩
    · rw [Finset.mem_filter]
      exact ⟨(acyclic.within c u step).2, TransGen.single step⟩
    · rw [Finset.mem_filter]
      exact fun both => acyclic.irreflexive u both.2
  · intro w mem
    rw [Finset.mem_filter] at mem ⊢
    exact ⟨mem.1, mem.2.head step⟩

/-! ## The loop ends -/

/-- The part of the worklist in front of `rest` is worked off. -/
def WorksOff (Predecessors : α -> List α) (front : List α) : Prop :=
  ∀ rest SuccClosure, ∃ used SuccClosure', ∀ fuel,
    closureLoop Predecessors (used + fuel) (front ++ rest) SuccClosure =
      closureLoop Predecessors fuel rest SuccClosure'

theorem worksOff_append {Predecessors : α -> List α} (front : List α)
    (each : ∀ c ∈ front, WorksOff Predecessors [c]) : WorksOff Predecessors front := by
  induction front with
  | nil =>
    intro rest SuccClosure
    exact ⟨0, SuccClosure, fun fuel => by rw [zero_add, nil_append]⟩
  | cons c front ih =>
    intro rest SuccClosure
    have others := ih fun d mem => each d (mem_cons_of_mem c mem)
    rcases each c mem_cons_self (front ++ rest) SuccClosure with ⟨first, middle, run⟩
    rcases others rest middle with ⟨second, last, run'⟩
    refine ⟨first + second, last, fun fuel => ?_⟩
    rw [add_assoc, <- run' fuel]
    exact run (second + fuel)

theorem worksOff_change (acyclic : Acyclic Changes Dependencies) (n : Nat)
    (bound : rank Changes Dependencies c < n) :
    WorksOff (predecessors Dependencies) [c] := by
  induction n generalizing c with
  | zero => exact absurd bound (Nat.not_lt_zero _)
  | succ n ih =>
    intro rest SuccClosure
    have predecessorsDone : WorksOff (predecessors Dependencies)
        (predecessors Dependencies c).reverse := by
      apply worksOff_append
      intro u mem
      rw [mem_reverse, mem_predecessors] at mem
      have smaller := rank_lt acyclic mem
      exact ih (by omega)
    rcases predecessorsDone rest ((predecessors Dependencies c).foldl (extendClosure c)
      (Function.update SuccClosure c (some ((SuccClosure c).getD ∅)))) with ⟨used, last, run⟩
    refine ⟨used + 1, last, fun fuel => ?_⟩
    rw [<- run fuel, show used + 1 + fuel = used + fuel + 1 by omega]
    rfl

theorem closureLoop_ends (acyclic : Acyclic Changes Dependencies) (Worklist : List α)
    (SuccClosure : ClosureMap α) :
    ∃ bound SuccClosure', ∀ fuel, bound <= fuel ->
      closureLoop (predecessors Dependencies) fuel Worklist SuccClosure = some SuccClosure' := by
  have done : WorksOff (predecessors Dependencies) Worklist := worksOff_append Worklist fun c _ =>
    worksOff_change acyclic (rank Changes Dependencies c + 1) (Nat.lt_succ_self _)
  rcases done [] SuccClosure with ⟨used, last, run⟩
  refine ⟨used, last, fun fuel enough => ?_⟩
  have split := run (fuel - used)
  rw [Nat.add_sub_cancel' enough, append_nil] at split
  rw [split]
  cases fuel - used <;> rfl

/-! ## What the loop computes -/

/-- The invariant of the loop: the entries have only changes that are depended on,
and a change that is not on the worklist has passed its entry on. -/
structure Computed (Dependencies : List (α × α)) (Roots Worklist : List α)
    (SuccClosure : ClosureMap α) : Prop where
  sound : ∀ c u, u ∈ (SuccClosure c).getD ∅ -> TransGen (Depends Dependencies) c u
  roots : ∀ r ∈ Roots, (SuccClosure r).isSome ∨ r ∈ Worklist
  passed : ∀ c, (SuccClosure c).isSome -> c ∉ Worklist -> ∀ p, Depends Dependencies p c ->
    (SuccClosure p).isSome ∧ insert c ((SuccClosure c).getD ∅) ⊆ (SuccClosure p).getD ∅

/-- What one step does to the entries. -/
theorem foldl_extendClosure (Change : α) (preds : List α) (SuccClosure : ClosureMap α)
    (notSelf : Change ∉ preds) :
    (∀ c ∉ preds, preds.foldl (extendClosure Change) SuccClosure c = SuccClosure c) ∧
    ∀ p ∈ preds, preds.foldl (extendClosure Change) SuccClosure p =
      some ((SuccClosure p).getD ∅ ∪ insert Change ((SuccClosure Change).getD ∅)) := by
  induction preds generalizing SuccClosure with
  | nil => exact ⟨fun _ _ => rfl, fun p mem => absurd mem not_mem_nil⟩
  | cons it preds ih =>
    rw [mem_cons, not_or] at notSelf
    rcases ih (extendClosure Change SuccClosure it) notSelf.2 with
      ⟨unchanged, changed⟩
    have same : extendClosure Change SuccClosure it Change = SuccClosure Change :=
      update_of_ne notSelf.1 _ _
    have here : extendClosure Change SuccClosure it it =
        some ((SuccClosure it).getD ∅ ∪ insert Change ((SuccClosure Change).getD ∅)) :=
      update_self _ _ _
    rw [foldl_cons]
    constructor
    · intro c outside
      rw [mem_cons, not_or] at outside
      rw [unchanged c outside.2]
      exact update_of_ne outside.1 _ _
    · intro p mem
      by_cases later : p ∈ preds
      · rw [changed p later, same]
        by_cases isIt : p = it
        · rw [isIt, here, getD_some, Finset.union_assoc, Finset.union_self]
        · rw [extendClosure, update_of_ne isIt]
      · have isIt := (mem_cons.mp mem).resolve_right later
        rw [unchanged p later, isIt, here]

section

variable (acyclic : Acyclic Changes Dependencies)
include acyclic

theorem Computed.step {Roots Worklist : List α} {SuccClosure : ClosureMap α} (computed : Computed Dependencies Roots (c :: Worklist) SuccClosure) :
    Computed Dependencies Roots ((predecessors Dependencies c).reverse ++ Worklist)
      ((predecessors Dependencies c).foldl (extendClosure c)
        (Function.update SuccClosure c (some ((SuccClosure c).getD ∅)))) := by
  have notSelf : c ∉ predecessors Dependencies c := fun mem =>
    acyclic.irreflexive c (TransGen.single (mem_predecessors.mp mem))
  rcases foldl_extendClosure c (predecessors Dependencies c)
    (Function.update SuccClosure c (some ((SuccClosure c).getD ∅))) notSelf with
    ⟨unchanged, changed⟩
  rw [update_self, getD_some] at changed
  have here := unchanged c notSelf
  rw [update_self] at here
  have entered : ∀ p, (Function.update SuccClosure c (some ((SuccClosure c).getD ∅)) p).getD ∅ =
      (SuccClosure p).getD ∅ := by
    intro p
    by_cases same : p = c
    · rw [same, update_self, getD_some]
    · rw [update_of_ne same]
  refine ⟨?_, ?_, ?_⟩
  · intro v u mem
    by_cases isPred : v ∈ predecessors Dependencies c
    · rw [changed v isPred, getD_some, entered, Finset.mem_union, Finset.mem_insert]
        at mem
      have step := mem_predecessors.mp isPred
      rcases mem with old | rfl | further
      · exact computed.sound v u old
      · exact TransGen.single step
      · exact (computed.sound c u further).head step
    · rw [unchanged v isPred, entered] at mem
      exact computed.sound v u mem
  · intro r root
    by_cases isPred : r ∈ predecessors Dependencies c
    · exact .inl (by rw [changed r isPred]; rfl)
    · rw [unchanged r isPred, mem_append, mem_reverse]
      by_cases same : r = c
      · exact .inl (by rw [same, update_self]; rfl)
      · rw [update_of_ne same]
        rcases computed.roots r root with known | listed
        · exact .inl known
        · exact .inr (.inr ((mem_cons.mp listed).resolve_left same))
  · intro v known unlisted p step
    rw [mem_append, mem_reverse, not_or] at unlisted
    rw [unchanged v unlisted.1] at known ⊢
    by_cases same : v = c
    · rw [same, update_self, getD_some]
      rw [same] at step
      rw [changed p (mem_predecessors.mpr step)]
      exact ⟨rfl, Finset.subset_union_right⟩
    · rw [update_of_ne same] at known ⊢
      have waiting : v ∉ c :: Worklist := by
        rw [mem_cons, not_or]
        exact ⟨same, unlisted.2⟩
      rcases computed.passed v known waiting p step with ⟨isSome, subset⟩
      by_cases isPred : p ∈ predecessors Dependencies c
      · rw [changed p isPred, getD_some, entered]
        exact ⟨rfl, subset.trans Finset.subset_union_left⟩
      · rw [unchanged p isPred, entered]
        refine ⟨?_, subset⟩
        by_cases isC : p = c
        · rw [isC, update_self]
          rfl
        · rwa [update_of_ne isC]

theorem Computed.run {Roots Worklist : List α} {SuccClosure last : ClosureMap α} {fuel : Nat}

    (computed : Computed Dependencies Roots Worklist SuccClosure)
    (ran : closureLoop (predecessors Dependencies) fuel Worklist SuccClosure = some last) :
    Computed Dependencies Roots [] last := by
  induction fuel generalizing Worklist SuccClosure with
  | zero =>
    cases Worklist with
    | nil =>
      cases ran
      exact computed
    | cons c Worklist => cases ran
  | succ fuel ih =>
    cases Worklist with
    | nil =>
      cases ran
      exact computed
    | cons c Worklist => exact ih (computed.step acyclic) ran

/-- When all roots are worked off every change knows what it depends on. -/
theorem Computed.complete {Roots : List α} {SuccClosure : ClosureMap α} (computed : Computed Dependencies Roots [] SuccClosure) (roots : ∀ c ∈ Changes, (∀
    u, ¬Depends Dependencies c u) -> c ∈ Roots) :
    (∀ c ∈ Changes, (SuccClosure c).isSome) ∧
      ∀ c u, u ∈ (SuccClosure c).getD ∅ ↔ TransGen (Depends Dependencies) c u := by
  have known : ∀ n c, depth Changes Dependencies c < n -> c ∈ Changes ->
      (SuccClosure c).isSome := by
    intro n
    induction n with
    | zero => exact fun c bound => absurd bound (Nat.not_lt_zero _)
    | succ n ih =>
      intro c bound mem
      by_cases isRoot : ∀ u, ¬Depends Dependencies c u
      · exact (computed.roots c (roots c mem isRoot)).resolve_right not_mem_nil
      · rw [not_forall] at isRoot
        rcases isRoot with ⟨u, some⟩
        have step := not_not.mp some
        have smaller := depth_lt acyclic step
        have successor := ih u (by omega) (acyclic.within c u step).2
        exact (computed.passed u successor not_mem_nil c step).1
  have all : ∀ c ∈ Changes, (SuccClosure c).isSome := fun c => known _ c (Nat.lt_succ_self _)
  refine ⟨all, fun c u => ⟨computed.sound c u, fun path => ?_⟩⟩
  induction path using TransGen.head_induction_on with
  | single step =>
    have passed := computed.passed u (all u (acyclic.within _ _ step).2) not_mem_nil _ step
    exact passed.2 (Finset.mem_insert_self _ _)
  | head step path ih =>
    rename_i w _
    have passed := computed.passed _ (all _ (acyclic.within _ _ step).2) not_mem_nil _ step
    exact passed.2 (Finset.mem_insert_of_mem ih)

end

/-! ## The constructor -/

/-- The tables that the constructor makes. -/
structure Tables (Changes : Finset α) (Dependencies : List (α × α))
    (impl : DAGDeltaAlgorithmImpl α) : Prop where
  roots : ∀ c, c ∈ impl.Roots ↔ c ∈ Changes ∧ ∀ u, ¬Depends Dependencies c u
  predecessors : ∀ c u, u ∈ impl.Predecessors c ↔ Depends Dependencies u c
  closure : ∀ c u, u ∈ impl.PredClosure c ↔ TransGen (Depends Dependencies) u c

theorem construct_spec (acyclic : Acyclic Changes Dependencies) :
    ∃ bound impl, Tables Changes Dependencies impl ∧ ∀ fuel, bound <= fuel ->
      DAGDeltaAlgorithmImpl.construct fuel Changes Dependencies = some impl := by
  have roots : ∀ c, c ∈ ((SortedPairs.inOrder Changes).filter fun it => successors Dependencies it = []) ↔
      c ∈ Changes ∧ ∀ u, ¬Depends Dependencies c u := by
    intro c
    rw [mem_filter, Finset.mem_sort, decide_eq_true_iff, eq_nil_iff_forall_not_mem]
    simp only [mem_successors]
  rcases closureLoop_ends acyclic
    ((SortedPairs.inOrder Changes).filter fun it => successors Dependencies it = []).reverse (fun _ => none) with
    ⟨bound, SuccClosure, run⟩
  have begins : Computed Dependencies ((SortedPairs.inOrder Changes).filter fun it => successors Dependencies it = [])
      ((SortedPairs.inOrder Changes).filter fun it => successors Dependencies it = []).reverse fun _ => none :=
    ⟨fun c u mem => absurd mem (Finset.notMem_empty u),
      fun r root => .inr (mem_reverse.mpr root), fun c known => by cases known⟩
  have computed := begins.run acyclic (run bound (le_refl _))
  rcases computed.complete acyclic fun c mem isRoot => (roots c).mpr ⟨mem, isRoot⟩ with
    ⟨all, closure⟩
  refine ⟨bound, ⟨_, predecessors Dependencies, successors Dependencies, fun it2 =>
    Changes.filter fun it => it2 ∈ (SuccClosure it).getD ∅⟩, ⟨roots, fun c u => mem_predecessors,
    fun c u => ?_⟩, fun fuel enough => ?_⟩
  · rw [Finset.mem_filter, closure]
    exact ⟨And.right, fun path => ⟨(acyclic.mem_of_transGen path).1, path⟩⟩
  · simp only [DAGDeltaAlgorithmImpl.construct, run fuel enough, bind_eq_bind,
      bind_some, if_pos all]

end DAGDeltaAlgorithm
end LlvmProject
