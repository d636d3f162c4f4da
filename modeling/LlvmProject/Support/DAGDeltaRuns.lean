import LlvmProject.Support.DAGDeltaHelper

namespace LlvmProject

open Finset hiding mem_cons mem_singleton
open List Nat

namespace DAGDeltaAlgorithm

/-!
# Dependencies are respected when each change has at most one

A tested set takes in what depends on an active change, and with it changes whose
other dependencies may have been dropped.  It respects the dependencies of every
change if no change has two of them.  Otherwise a test that always fails is run on a
set that does not.
-/

open Relation
open DeltaActiveSetHelper (Answers RoomFor)

variable {α : Type*} [LinearOrder α] {Changes : Finset α} {Dependencies : List (α × α)}
  {impl : DAGDeltaAlgorithmImpl α} {P : Finset α -> Bool} {Current Required Min : Finset α}
  {s s' : Tests α} {c u v : α}

/-! ## The minimisation of an active set -/

/-- The failed tests in the cache were executed, and the predicate fails on them. -/
def FailedTests (P : Finset α -> Bool) (s : Tests α) : Prop :=
  ∀ S ∈ s.FailedTestsCache, P S = false ∧ S ∈ s.executed

/-- The tests that were added are those of parts of the active set. -/
structure Extends (impl : DAGDeltaAlgorithmImpl α) (Current Required : Finset α)
    (s s' : Tests α) : Prop where
  kept : ∀ S ∈ s.executed, S ∈ s'.executed
  fresh : ∀ S ∈ s'.executed, S ∈ s.executed ∨ ∃ part ⊆ Current, S = impl.extended Required part

/-- What the minimisation of an active set does. -/
structure Minimised (impl : DAGDeltaAlgorithmImpl α) (P : Finset α -> Bool)
    (Current Required : Finset α) (s : Tests α) (Min : Finset α) (s' : Tests α) : Prop
    extends Extends impl Current Required s s' where
  subset : Min ⊆ Current
  passes : P (impl.extended Required Current) = true -> P (impl.extended Required Min) = true
  failed : FailedTests P s'
  fails : (∀ S, P S = false) -> Min = Current ∧
    (1 < Current.card -> ∀ c ∈ Current, impl.extended Required {c} ∈ s'.executed)

/-- What holds of the helper's cache and the tests during a minimisation. -/
structure Minimising (impl : DAGDeltaAlgorithmImpl α) (P : Finset α -> Bool)
    (Current Required : Finset α) (s : Tests α) (cache : Finset (Finset α)) (s' : Tests α) : Prop
    extends Extends impl Current Required s s' where
  failed : FailedTests P s'
  cached : ∀ S ∈ cache, impl.extended Required S ∈ s'.executed

/-- The test of the helper answers like the client's test of the extended set. -/
theorem answers_GetTestResult (impl : DAGDeltaAlgorithmImpl α) (P : Finset α -> Bool)
    (Current Required : Finset α) (s : Tests α) :
    Answers (impl.GetTestResult P Required) (fun S => P (impl.extended Required S)) Current
      (Minimising impl P Current Required s) := by
  constructor
  · intro S within cache st holds
    rw [DAGDeltaAlgorithmImpl.GetTestResult]
    by_cases known : impl.extended Required S ∈ st.FailedTestsCache
    · rw [if_pos known]
      exact (holds.failed _ known).1.symm
    · rw [if_neg known]
      cases passes : P (impl.extended Required S) <;>
        simp [DAGDeltaAlgorithmImpl.ExecuteOneTest, passes]
  · intro S within cache st holds
    have executed : ∀ st', (st'.executed = st.executed ∧ impl.extended Required S ∈ st.executed ∨
          st'.executed = impl.extended Required S :: st.executed) -> FailedTests P st' ->
        Minimising impl P Current Required s
          (if P (impl.extended Required S) then cache else insert S cache) st' := by
      intro st' how failed
      have grows : ∀ T ∈ st.executed, T ∈ st'.executed := by
        intro T mem
        rcases how with ⟨same, _⟩ | more
        · rwa [same]
        · rw [more]
          exact mem_cons_of_mem _ mem
      have here : impl.extended Required S ∈ st'.executed := by
        rcases how with ⟨same, known⟩ | more
        · rwa [same]
        · rw [more]
          exact mem_cons_self
      refine ⟨⟨fun T mem => grows T (holds.kept T mem), fun T mem => ?_⟩, failed, fun T mem => ?_⟩
      · rcases how with ⟨same, _⟩ | more
        · rw [same] at mem
          exact holds.fresh T mem
        · rw [more] at mem
          rcases mem_cons.mp mem with isHere | older
          · exact .inr ⟨S, within, isHere⟩
          · exact holds.fresh T older
      · split at mem
        · exact grows _ (holds.cached T mem)
        · rcases mem_insert.mp mem with rfl | older
          · exact here
          · exact grows _ (holds.cached T older)
    rw [DAGDeltaAlgorithmImpl.GetTestResult]
    by_cases known : impl.extended Required S ∈ st.FailedTestsCache
    · rw [if_pos known]
      exact executed st (.inl ⟨rfl, (holds.failed _ known).2⟩) holds.failed
    · rw [if_neg known]
      cases passes : P (impl.extended Required S) with
      | true =>
        simp only [DAGDeltaAlgorithmImpl.ExecuteOneTest, passes, if_true]
        have result := executed ⟨st.FailedTestsCache, impl.extended Required S :: st.executed⟩
          (.inr rfl) fun T mem =>
            ⟨(holds.failed T mem).1, mem_cons_of_mem _ (holds.failed T mem).2⟩
        rwa [passes, if_pos rfl] at result
      | false =>
        simp only [DAGDeltaAlgorithmImpl.ExecuteOneTest, passes, Bool.false_eq_true, if_false]
        have result := executed ⟨insert (impl.extended Required S) st.FailedTestsCache,
          impl.extended Required S :: st.executed⟩ (.inr rfl) (by
            intro T mem
            rcases mem_insert.mp mem with rfl | older
            · exact ⟨passes, mem_cons_self⟩
            · exact ⟨(holds.failed T older).1, mem_cons_of_mem _ (holds.failed T older).2⟩)
        rwa [passes, if_neg Bool.false_ne_true] at result

theorem minimise (impl : DAGDeltaAlgorithmImpl α) (P : Finset α -> Bool) (Required : Finset α)
    {calls : Nat} (enough : RoomFor Current calls) (failed : FailedTests P s) :
    ∃ Min cache s', DeltaActiveSetHelper.Run (impl.GetTestResult P Required) calls Current (∅, s) =
      some (Min, cache, s') ∧ Minimised impl P Current Required s Min s' := by
  have begins : Minimising impl P Current Required s ∅ s :=
    ⟨⟨fun _ mem => mem, fun _ mem => .inl mem⟩, failed,
      fun S mem => absurd mem (Finset.notMem_empty S)⟩
  have agrees := DeltaActiveSetHelper.Run_agrees
    (answers_GetTestResult impl P Current Required s) calls begins
  rcases DeltaActiveSetHelper.Run_total (fun S => P (impl.extended Required S)) enough with
    ⟨Min, cache, pure, subset, passes⟩
  rw [pure] at agrees
  rcases agrees with ⟨s', ran, holds⟩
  refine ⟨Min, cache, s', ran, holds.toExtends, subset, passes, holds.failed, fun allFail => ?_⟩
  rcases DeltaActiveSetHelper.Run_fails enough with ⟨tested, fails, alone⟩
  have noTest : (fun S => P (impl.extended Required S)) = fun _ => false := by
    funext S
    exact allFail _
  rw [noTest, fails] at pure
  have result := Prod.mk.inj (Option.some.inj pure)
  refine ⟨result.1.symm, fun several c mem => holds.cached {c} ?_⟩
  rw [<- result.2]
  exact alone several c mem

/-! ## The layers -/

/-- The changes that depend directly on one of the minimised set. -/
def directPredecessors (impl : DAGDeltaAlgorithmImpl α) (Min : Finset α) : Finset α :=
  Min.biUnion fun it => (impl.Predecessors it).toFinset

theorem mem_directPredecessors (tables : Tables Changes Dependencies impl) :
    u ∈ directPredecessors impl Min ↔ ∃ c ∈ Min, Depends Dependencies u c := by
  rw [directPredecessors, mem_biUnion]
  simp only [mem_toFinset, tables.predecessors]

theorem mem_extended (tables : Tables Changes Dependencies impl) :
    u ∈ impl.extended Required Current ↔
      u ∈ Required ∨ u ∈ Current ∨ ∃ c ∈ Current, TransGen (Depends Dependencies) u c := by
  rw [DAGDeltaAlgorithmImpl.extended, mem_union, mem_union, mem_biUnion, or_assoc]
  simp only [tables.closure]

/-- A step of the loop keeps what the minimisation of its active set establishes. -/
def Keeps (impl : DAGDeltaAlgorithmImpl α) (P : Finset α -> Bool) (Changes : Finset α)
    (inv : Finset α -> Finset α -> Tests α -> Prop) : Prop :=
  ∀ Current Required s Min s', Current ⊆ Changes -> inv Current Required s ->
    Minimised impl P Current Required s Min s' ->
    inv (directPredecessors impl Min) (Required ∪ Min) s'

section

variable (acyclic : Acyclic Changes Dependencies)
include acyclic

theorem runLoop_ends (tables : Tables Changes Dependencies impl) {calls fuel : Nat} (enough :
    RoomFor Changes calls) {inv : Finset α -> Finset α -> Tests α -> Prop} (keeps : Keeps impl P
    Changes inv) (within : Current ⊆ Changes) (small : ∀ c ∈ Current, rank Changes Dependencies c <
    fuel) (failed : FailedTests P s) (holds : inv Current Required s) :
    ∃ result s', impl.runLoop P calls fuel Current Required s = some (result, s') ∧
      inv ∅ result s' := by
  induction fuel generalizing Current Required s with
  | zero =>
    have done : Current = ∅ := eq_empty_of_forall_notMem fun c mem =>
      absurd (small c mem) (not_lt_zero _)
    rw [done] at holds ⊢
    exact ⟨Required, s, if_pos rfl, holds⟩
  | succ fuel ih =>
    rw [DAGDeltaAlgorithmImpl.runLoop]
    by_cases done : Current = ∅
    · rw [done] at holds ⊢
      exact ⟨Required, s, if_pos rfl, holds⟩
    · rw [if_neg done]
      have fewer := card_le_card within
      have room : RoomFor Current calls :=
        lt_of_le_of_lt (Nat.add_le_add (Nat.pow_le_pow_left fewer 2) fewer) enough
      rcases minimise impl P Required room failed with
        ⟨Min, cache, s', ran, minimised⟩
      rw [ran]
      apply ih
      · intro u mem
        rcases (mem_directPredecessors tables).mp mem with ⟨c, _, step⟩
        exact (acyclic.within u c step).1
      · intro u mem
        rcases (mem_directPredecessors tables).mp mem with ⟨c, inMin, step⟩
        exact lt_of_lt_of_le (rank_lt acyclic step)
          (le_of_lt_succ (small c (minimised.subset inMin)))
      · exact minimised.failed
      · exact keeps Current Required s Min s' within holds minimised

/-- `Run` ends, and an invariant of its loop that holds at the roots holds at the end. -/
theorem Run_ends :
    ∃ bound impl, Tables Changes Dependencies impl ∧ ∀ P inv,
      Keeps impl P Changes inv -> inv impl.Roots.toFinset ∅ ⟨∅, []⟩ ->
      ∀ fuel, bound <= fuel -> ∃ result s',
        Run P fuel Changes Dependencies = some (result, s'.executed) ∧ inv ∅ result s' := by
  rcases construct_spec acyclic with ⟨bound, impl, tables, construct⟩
  refine ⟨bound + (Changes.card ^ 2 + Changes.card + 1), impl, tables,
    fun P inv keeps begins fuel enough => ?_⟩
  have room : RoomFor Changes fuel := by
    unfold RoomFor
    omega
  have roots : impl.Roots.toFinset ⊆ Changes := fun c mem =>
    ((tables.roots c).mp (mem_toFinset.mp mem)).1
  have small : ∀ c ∈ impl.Roots.toFinset, rank Changes Dependencies c < fuel := by
    intro c _
    have bounded := rank_le Changes Dependencies c
    omega
  have failed : FailedTests P (⟨∅, []⟩ : Tests α) := fun S mem =>
    absurd mem (Finset.notMem_empty S)
  rcases runLoop_ends acyclic tables room keeps roots small failed begins with
    ⟨result, s', ran, holds⟩
  refine ⟨result, s', ?_, holds⟩
  simp only [Run, construct fuel (by omega), DAGDeltaAlgorithmImpl.Run, ran, Option.bind_eq_bind,
    Option.bind_some]

/-! ## The result passes -/

theorem extended_roots (tables : Tables Changes Dependencies impl) :
    impl.extended ∅ impl.Roots.toFinset = Changes := by
  have onRoot : ∀ n c, depth Changes Dependencies c < n -> c ∈ Changes ->
      c ∈ impl.extended ∅ impl.Roots.toFinset := by
    intro n
    induction n with
    | zero => exact fun c bound => absurd bound (not_lt_zero _)
    | succ n ih =>
      intro c bound mem
      rw [mem_extended tables]
      by_cases isRoot : ∀ u, ¬Depends Dependencies c u
      · exact .inr (.inl (mem_toFinset.mpr ((tables.roots c).mpr ⟨mem, isRoot⟩)))
      · rw [not_forall] at isRoot
        rcases isRoot with ⟨u, some⟩
        have step := not_not.mp some
        have smaller := depth_lt acyclic step
        have successor := ih u (by omega) (acyclic.within c u step).2
        rw [mem_extended tables] at successor
        rcases successor with never | root | ⟨r, root, path⟩
        · exact absurd never (Finset.notMem_empty u)
        · exact .inr (.inr ⟨u, root, TransGen.single step⟩)
        · exact .inr (.inr ⟨r, root, path.head step⟩)
  apply Subset.antisymm
  · intro c mem
    rcases (mem_extended tables).mp mem with never | root | ⟨r, _, path⟩
    · exact absurd never (Finset.notMem_empty c)
    · exact ((tables.roots c).mp (mem_toFinset.mp root)).1
    · exact (acyclic.mem_of_transGen path).1
  · exact fun c => onRoot _ c (lt_succ_self _)

end

/-- The next active set stands for the same changes as the minimised one. -/
theorem extended_directPredecessors (tables : Tables Changes Dependencies impl) :
    impl.extended (Required ∪ Min) (directPredecessors impl Min) = impl.extended Required Min := by
  ext u
  rw [mem_extended tables, mem_extended tables, mem_union]
  simp only [mem_directPredecessors tables]
  constructor
  · rintro ((required | minimal) | ⟨c, minimal, step⟩ | ⟨v, ⟨c, minimal, step⟩, path⟩)
    · exact .inl required
    · exact .inr (.inl minimal)
    · exact .inr (.inr ⟨c, minimal, TransGen.single step⟩)
    · exact .inr (.inr ⟨c, minimal, path.tail step⟩)
  · rintro (required | minimal | ⟨c, minimal, path⟩)
    · exact .inl (.inl required)
    · exact .inl (.inr minimal)
    · rcases TransGen.tail'_iff.mp path with ⟨v, path, step⟩
      rcases reflTransGen_iff_eq_or_transGen.mp path with rfl | path
      · exact .inr (.inl ⟨c, minimal, step⟩)
      · exact .inr (.inr ⟨v, ⟨c, minimal, step⟩, path⟩)

/-- The set that the active set stands for passes if all changes do. -/
def StillPasses (impl : DAGDeltaAlgorithmImpl α) (P : Finset α -> Bool) (Changes : Finset α)
    (Current Required : Finset α) (_ : Tests α) : Prop :=
  P Changes = true -> P (impl.extended Required Current) = true

theorem keeps_StillPasses (tables : Tables Changes Dependencies impl) :
    Keeps impl P Changes (StillPasses impl P Changes) := by
  intro Current Required s Min s' _ passes minimised all
  rw [extended_directPredecessors tables]
  exact minimised.passes (passes all)

theorem extended_empty (impl : DAGDeltaAlgorithmImpl α) (Required : Finset α) :
    impl.extended Required ∅ = Required := by
  rw [DAGDeltaAlgorithmImpl.extended, biUnion_empty, union_empty, union_empty]

theorem Run_passes (acyclic : Acyclic Changes Dependencies) :
    ∃ bound, ∀ P fuel, bound <= fuel -> ∃ result executed,
      Run P fuel Changes Dependencies = some (result, executed) ∧
        (P Changes = true -> P result = true) := by
  rcases Run_ends acyclic with ⟨bound, impl, tables, ends⟩
  refine ⟨bound, fun P fuel enough => ?_⟩
  have begins : StillPasses impl P Changes impl.Roots.toFinset ∅ ⟨∅, []⟩ := by
    rw [StillPasses, extended_roots acyclic tables]
    exact id
  rcases ends P _ (keeps_StillPasses tables) begins fuel enough with ⟨result, s', ran, holds⟩
  rw [StillPasses, extended_empty] at holds
  exact ⟨result, s'.executed, ran, holds⟩

/-! ## One dependency for each change -/

/-- With a change the set has all that it depends on. -/
def Closed (Dependencies : List (α × α)) (S : Finset α) : Prop :=
  ∀ x y, Depends Dependencies x y -> x ∈ S -> y ∈ S

/-- No change depends directly on two others. -/
def SingleDependencies (Dependencies : List (α × α)) : Prop :=
  ∀ x y z, Depends Dependencies x y -> Depends Dependencies x z -> y = z

/-- The invariant of the loop: the required changes, what the active changes depend
on and the tested sets respect the dependencies. -/
structure LayersClosed (Dependencies : List (α × α)) (Current Required : Finset α)
    (s : Tests α) : Prop where
  required : Closed Dependencies Required
  active : ∀ c ∈ Current, ∀ u, Depends Dependencies c u -> u ∈ Required
  executed : ∀ S ∈ s.executed, Closed Dependencies S

theorem closed_extended (tables : Tables Changes Dependencies impl)
    (single : SingleDependencies Dependencies) (layers : LayersClosed Dependencies Current Required s)
    {part : Finset α} (subset : part ⊆ Current) :
    Closed Dependencies (impl.extended Required part) := by
  intro x y step mem
  rw [mem_extended tables] at mem ⊢
  rcases mem with required | active | ⟨c, active, path⟩
  · exact .inl (layers.required x y step required)
  · exact .inl (layers.active x (subset active) y step)
  · rcases TransGen.head'_iff.mp path with ⟨z, first, path⟩
    rw [single x y z step first]
    rcases reflTransGen_iff_eq_or_transGen.mp path with rfl | path
    · exact .inr (.inl active)
    · exact .inr (.inr ⟨c, active, path⟩)

theorem keeps_LayersClosed (tables : Tables Changes Dependencies impl)
    (single : SingleDependencies Dependencies) :
    Keeps impl P Changes (LayersClosed Dependencies) := by
  intro Current Required s Min s' _ layers minimised
  refine ⟨?_, ?_, ?_⟩
  · intro x y step mem
    rw [mem_union] at mem ⊢
    rcases mem with required | minimal
    · exact .inl (layers.required x y step required)
    · exact .inl (layers.active x (minimised.subset minimal) y step)
  · intro u mem v step
    rcases (mem_directPredecessors tables).mp mem with ⟨c, minimal, first⟩
    rw [single u v c step first]
    exact mem_union_right _ minimal
  · intro S mem
    rcases minimised.fresh S mem with older | ⟨part, subset, rfl⟩
    · exact layers.executed S older
    · exact closed_extended tables single layers subset

/-! ## A change with two dependencies -/

/-- The changes from which a way of the given length leads to a root. -/
def Layer (impl : DAGDeltaAlgorithmImpl α) : Nat -> Finset α
  | 0 => impl.Roots.toFinset
  | n + 1 => directPredecessors impl (Layer impl n)

/-- The changes of the layers before one. -/
def Before (impl : DAGDeltaAlgorithmImpl α) (n : Nat) : Finset α :=
  (Finset.range n).biUnion (Layer impl)

/-- The loop, when all tests fail, is at a layer, and has tested alone each change of
the layers before that have several. -/
def AtLayer (impl : DAGDeltaAlgorithmImpl α) (Current Required : Finset α) (s : Tests α) : Prop :=
  ∃ n, Current = Layer impl n ∧ Required = Before impl n ∧
    ∀ m < n, 1 < (Layer impl m).card -> ∀ c ∈ Layer impl m,
      impl.extended (Before impl m) {c} ∈ s.executed

theorem keeps_AtLayer (impl : DAGDeltaAlgorithmImpl α) (Changes : Finset α) :
    Keeps impl (fun _ => false) Changes (AtLayer impl) := by
  rintro Current Required s Min s' _ ⟨n, rfl, rfl, tested⟩ minimised
  rcases minimised.fails fun _ => rfl with ⟨rfl, alone⟩
  refine ⟨n + 1, rfl, ?_, ?_⟩
  · rw [Before, Before, range_add_one, biUnion_insert, union_comm]
  · intro m below several c mem
    by_cases here : m = n
    · rw [here] at several mem ⊢
      exact alone several c mem
    · exact minimised.kept _ (tested m (by omega) several c mem)

theorem exists_layer (acyclic : Acyclic Changes Dependencies)
    (tables : Tables Changes Dependencies impl) :
    ∀ n c, depth Changes Dependencies c < n -> c ∈ Changes -> ∃ m, c ∈ Layer impl m := by
  intro n
  induction n with
  | zero => exact fun c bound => absurd bound (not_lt_zero _)
  | succ n ih =>
    intro c bound mem
    by_cases isRoot : ∀ u, ¬Depends Dependencies c u
    · exact ⟨0, mem_toFinset.mpr ((tables.roots c).mpr ⟨mem, isRoot⟩)⟩
    · rw [not_forall] at isRoot
      rcases isRoot with ⟨u, some⟩
      have step := not_not.mp some
      have smaller := depth_lt acyclic step
      rcases ih u (by omega) (acyclic.within c u step).2 with ⟨m, layer⟩
      exact ⟨m + 1, (mem_directPredecessors tables).mpr ⟨u, layer, step⟩⟩

theorem exists_below (tables : Tables Changes Dependencies impl) {m n : Nat} (below : m <= n)
    (layer : c ∈ Layer impl n) :
    ∃ v ∈ Layer impl m, ReflTransGen (Depends Dependencies) c v := by
  induction n generalizing c with
  | zero =>
    have same : m = 0 := le_zero.mp below
    rw [same]
    exact ⟨c, layer, ReflTransGen.refl⟩
  | succ n ih =>
    by_cases top : m = n + 1
    · rw [top]
      exact ⟨c, layer, ReflTransGen.refl⟩
    · rcases (mem_directPredecessors tables).mp layer with ⟨u, next, step⟩
      rcases ih (by omega) next with ⟨v, layer, path⟩
      exact ⟨v, layer, path.head step⟩

/-- A set that was tested with one change of a layer lacks a dependency if that change
is not depended on. -/
theorem not_closed (tables : Tables Changes Dependencies impl) {n : Nat} {x y : α} (reaches :
    ReflTransGen (Depends Dependencies) x c) (step : Depends Dependencies x y) (notBefore : y ∉
    Before impl n) (ne : y ≠ c) (unreached : ¬TransGen (Depends Dependencies) y c) :
    ¬Closed Dependencies (impl.extended (Before impl n) {c}) := by
  intro closed
  have mem : x ∈ impl.extended (Before impl n) {c} := by
    rw [mem_extended tables]
    rcases reflTransGen_iff_eq_or_transGen.mp reaches with rfl | path
    · exact .inr (.inl (Finset.mem_singleton_self _))
    · exact .inr (.inr ⟨c, Finset.mem_singleton_self c, path⟩)
  rcases (mem_extended tables).mp (closed x y step mem) with before | active | ⟨v, active, path⟩
  · exact notBefore before
  · exact ne (Finset.mem_singleton.mp active)
  · rw [Finset.mem_singleton.mp active] at path
    exact unreached path

theorem exists_least_layer (acyclic : Acyclic Changes Dependencies)
    (tables : Tables Changes Dependencies impl) (mem : c ∈ Changes) :
    ∃ n, c ∈ Layer impl n ∧ ∀ m ≤ n, c ∉ Before impl m := by
  classical
  have some := exists_layer acyclic tables _ c (lt_succ_self _) mem
  refine ⟨Nat.find some, Nat.find_spec some, fun m least before => ?_⟩
  rcases Finset.mem_biUnion.mp before with ⟨k, below, layer⟩
  exact Nat.find_min some (lt_of_lt_of_le (Finset.mem_range.mp below) least) layer

/-- Some layer has several changes, one of which is tested with a set that does not
respect the dependencies. -/
theorem exists_open_test (acyclic : Acyclic Changes Dependencies)
    (tables : Tables Changes Dependencies impl) {x y z : α} (first : Depends Dependencies x y)
    (second : Depends Dependencies x z) (ne : y ≠ z) :
    ∃ n, 1 < (Layer impl n).card ∧ ∃ c ∈ Layer impl n,
      ¬Closed Dependencies (impl.extended (Before impl n) {c}) := by
  rcases exists_least_layer acyclic tables (acyclic.within x y first).2 with
    ⟨dy, yLayer, yBefore⟩
  rcases exists_least_layer acyclic tables (acyclic.within x z second).2 with
    ⟨dz, zLayer, zBefore⟩
  have lower : ∀ {y z : α} {dy dz : Nat}, Depends Dependencies x y -> Depends Dependencies x z ->
      y ∈ Layer impl dy -> z ∈ Layer impl dz -> (∀ m ≤ dz, z ∉ Before impl m) -> dy < dz ->
      ∃ n, 1 < (Layer impl n).card ∧ ∃ c ∈ Layer impl n,
        ¬Closed Dependencies (impl.extended (Before impl n) {c}) := by
    intro y z dy dz first second yLayer zLayer zBefore below
    have noWay : ¬ReflTransGen (Depends Dependencies) z x := fun path =>
      acyclic.irreflexive z (TransGen.tail' path second)
    have xLayer : x ∈ Layer impl (dy + 1) := (mem_directPredecessors tables).mpr ⟨y, yLayer, first⟩
    rcases exists_below tables below zLayer with ⟨w, wLayer, path⟩
    have other : w ≠ x := by
      rintro rfl
      exact noWay path
    refine ⟨dy + 1, one_lt_card.mpr ⟨w, wLayer, x, xLayer, other⟩, x, xLayer,
      not_closed tables ReflTransGen.refl second (zBefore _ below) ?_ ?_⟩
    · rintro rfl
      exact noWay ReflTransGen.refl
    · exact fun path => noWay path.to_reflTransGen
  rcases lt_trichotomy dy dz with less | same | greater
  · exact lower first second yLayer zLayer zBefore less
  · -- whichever of the two does not depend on the other is dropped
    subst same
    have several : 1 < (Layer impl dy).card := one_lt_card.mpr ⟨y, yLayer, z, zLayer, ne⟩
    by_cases way : TransGen (Depends Dependencies) z y
    · refine ⟨dy, several, z, zLayer, not_closed tables (ReflTransGen.single second) first
        (yBefore dy (le_refl _)) ne fun back => ?_⟩
      exact acyclic.irreflexive z (way.trans back)
    · exact ⟨dy, several, y, yLayer, not_closed tables (ReflTransGen.single first) second
        (zBefore dy (le_refl _)) ne.symm way⟩
  · exact lower second first zLayer yLayer yBefore greater

/-! ## Exactly when the dependencies are respected -/

/-- The tests and the result of a run respect the dependencies, and the result passes
if all changes do. -/
structure Respects (P : Finset α -> Bool) (Changes : Finset α) (Dependencies : List (α × α))
    (result : Finset α) (executed : List (Finset α)) : Prop where
  tested : ∀ S ∈ executed, Closed Dependencies S
  returned : Closed Dependencies result
  passes : P Changes = true -> P result = true

theorem Run_open_test (acyclic : Acyclic Changes Dependencies) {x y z : α}
    (first : Depends Dependencies x y) (second : Depends Dependencies x z) (ne : y ≠ z) :
    ∃ bound, ∀ fuel, bound <= fuel -> ∃ result executed,
      Run (fun _ => false) fuel Changes Dependencies = some (result, executed) ∧
        ∃ S ∈ executed, ¬Closed Dependencies S := by
  rcases Run_ends acyclic with ⟨bound, impl, tables, ends⟩
  refine ⟨bound, fun fuel enough => ?_⟩
  have begins : AtLayer impl impl.Roots.toFinset ∅ ⟨∅, []⟩ :=
    ⟨0, rfl, rfl, fun m below => absurd below (not_lt_zero m)⟩
  rcases ends _ _ (keeps_AtLayer impl Changes) begins fuel enough with
    ⟨result, s', ran, n, empty, _, tested⟩
  rcases exists_open_test acyclic tables first second ne with
    ⟨m, several, c, layer, isOpen⟩
  have below : m < n := by
    by_contra above
    rcases exists_below tables (Nat.le_of_not_lt above) layer with ⟨v, inLast, _⟩
    rw [<- empty] at inLast
    exact absurd inLast (Finset.notMem_empty v)
  exact ⟨result, s'.executed, ran, _, tested m below several c layer, isOpen⟩

/-- Every test and the result respect the dependencies, whatever the predicate, exactly
when no change has two dependencies. -/
theorem Run_respects_iff (acyclic : Acyclic Changes Dependencies) :
    (∀ P, ∃ bound, ∀ fuel, bound <= fuel -> ∃ result executed,
      Run P fuel Changes Dependencies = some (result, executed) ∧
        Respects P Changes Dependencies result executed) ↔
      SingleDependencies Dependencies := by
  constructor
  · intro respects x y z first second
    by_contra ne
    rcases respects fun _ => false with ⟨bound, holds⟩
    rcases Run_open_test acyclic first second ne with ⟨bound', fails⟩
    rcases holds (bound + bound') (le_add_right _ _) with ⟨result, executed, ran, respected⟩
    rcases fails (bound + bound') (le_add_left _ _) with ⟨_, _, ran', S, mem, isOpen⟩
    rw [ran] at ran'
    cases ran'
    exact isOpen (respected.tested S mem)
  · intro single P
    rcases Run_ends acyclic with ⟨bound, impl, tables, ends⟩
    refine ⟨bound, fun fuel enough => ?_⟩
    have begins : StillPasses impl P Changes impl.Roots.toFinset ∅ ⟨∅, []⟩ ∧
        LayersClosed Dependencies impl.Roots.toFinset ∅ ⟨∅, []⟩ := by
      constructor
      · rw [StillPasses, extended_roots acyclic tables]
        exact id
      · refine ⟨fun x y _ mem => absurd mem (Finset.notMem_empty x), ?_,
          fun S mem => absurd mem not_mem_nil⟩
        intro c mem u step
        exact absurd step (((tables.roots c).mp (mem_toFinset.mp mem)).2 u)
    have keeps : Keeps impl P Changes fun Current Required s =>
        StillPasses impl P Changes Current Required s ∧
          LayersClosed Dependencies Current Required s :=
      fun Current Required s Min s' within holds minimised =>
        ⟨keeps_StillPasses tables Current Required s Min s' within holds.1 minimised,
          keeps_LayersClosed tables single Current Required s Min s' within holds.2 minimised⟩
    rcases ends P _ keeps begins fuel enough with ⟨result, s', ran, passes, layers⟩
    rw [StillPasses, extended_empty] at passes
    exact ⟨result, s'.executed, ran, layers.executed, layers.required, passes⟩

omit [LinearOrder α] in
/-- Dependencies that go downwards have no cycle. -/
theorem acyclic_of_lt [Preorder α] (within : ∀ x y, Depends Dependencies x y -> x ∈ Changes ∧ y ∈
    Changes) (lower : ∀ x y, Depends Dependencies x y -> y < x) : Acyclic Changes Dependencies := by
  refine ⟨within, fun x cycle => lt_irrefl x ?_⟩
  have down : ∀ y, TransGen (Depends Dependencies) x y -> y < x := by
    intro y path
    induction path with
    | single step => exact lower _ _ step
    | tail _ step ih => exact (lower _ _ step).trans ih
  exact down x cycle

theorem acyclic_chain : Acyclic ({1, 2} : Finset Nat) [(2, 1)] := by
  apply acyclic_of_lt <;> simp [Depends]

theorem acyclic_two : Acyclic ({1, 2, 3} : Finset Nat) [(3, 1), (3, 2)] := by
  apply acyclic_of_lt
  · rintro x y step
    simp only [Depends, mem_cons, Prod.mk.injEq, not_mem_nil, or_false] at step
    rcases step with ⟨rfl, rfl⟩ | ⟨rfl, rfl⟩ <;> decide
  · rintro x y step
    simp only [Depends, mem_cons, Prod.mk.injEq, not_mem_nil, or_false] at step
    omega

theorem Run_respects_chain : ∃ bound, ∀ fuel, bound <= fuel -> ∃ result executed,
    Run (fun S => decide (2 ∈ S)) fuel ({1, 2} : Finset Nat) [(2, 1)] = some (result, executed) ∧
      Respects (fun S => decide (2 ∈ S)) {1, 2} [(2, 1)] result executed := by
  apply (Run_respects_iff acyclic_chain).mpr
  intro x y z first second
  simp only [Depends, mem_singleton, Prod.mk.injEq] at first second
  rw [first.2, second.2]

theorem Run_passes_two : ∃ bound, ∀ fuel, bound <= fuel -> ∃ result executed,
    Run (3 ∈ ·) fuel ({1, 2, 3} : Finset Nat) [(3, 1), (3, 2)] = some (result, executed) ∧
      3 ∈ result := by
  rcases Run_passes acyclic_two with ⟨bound, ends⟩
  refine ⟨bound, fun fuel enough => ?_⟩
  rcases ends (3 ∈ ·) fuel enough with ⟨result, executed, ran, passes⟩
  exact ⟨result, executed, ran, of_decide_eq_true (passes (by decide))⟩

/-- A change with two dependencies is tested with only the first. -/
theorem Run_two_dependencies : Acyclic ({1, 2, 3} : Finset Nat) [(3, 1), (3, 2)] ∧
    ∃ bound, ∀ fuel, bound <= fuel -> ∃ result executed,
      Run (fun _ => false) fuel ({1, 2, 3} : Finset Nat) [(3, 1), (3, 2)] =
        some (result, executed) ∧
      {1, 3} ∈ executed ∧ ¬Closed [(3, 1), (3, 2)] ({1, 3} : Finset Nat) := by
  refine ⟨acyclic_two, ?_⟩
  rcases Run_ends acyclic_two with ⟨bound, impl, tables, ends⟩
  refine ⟨bound, fun fuel enough => ?_⟩
  have begins : AtLayer impl impl.Roots.toFinset ∅ ⟨∅, []⟩ :=
    ⟨0, rfl, rfl, fun m below => absurd below (not_lt_zero m)⟩
  rcases ends _ _ (keeps_AtLayer impl _) begins fuel enough with
    ⟨result, s', ran, n, empty, _, tested⟩
  have roots : ∀ c, c ∈ Layer impl 0 ↔ c = 1 ∨ c = 2 := by
    intro c
    rw [Layer, mem_toFinset, tables.roots]
    simp only [Depends, mem_cons, Prod.mk.injEq, not_mem_nil, or_false, not_or,
      Finset.mem_insert, Finset.mem_singleton]
    constructor
    · rintro ⟨rfl | rfl | rfl, none⟩
      · exact .inl rfl
      · exact .inr rfl
      · exact absurd ⟨rfl, rfl⟩ (none 1).1
    · rintro (rfl | rfl)
      · exact ⟨.inl rfl, fun u => ⟨fun same => by omega, fun same => by omega⟩⟩
      · exact ⟨.inr (.inl rfl), fun u => ⟨fun same => by omega, fun same => by omega⟩⟩
  have below : 0 < n := by
    apply pos_of_ne_zero
    rintro rfl
    have mem := (roots 1).mpr (.inl rfl)
    rw [<- empty] at mem
    exact absurd mem (Finset.notMem_empty 1)
  have several : 1 < (Layer impl 0).card := one_lt_card.mpr
    ⟨1, (roots 1).mpr (.inl rfl), 2, (roots 2).mpr (.inr rfl), by decide⟩
  have alone := tested 0 below several 1 ((roots 1).mpr (.inl rfl))
  have extended : impl.extended (Before impl 0) {1} = {1, 3} := by
    ext u
    have up : TransGen (Depends [(3, 1), (3, 2)]) u 1 ↔ u = 3 := by
      constructor
      · intro path
        cases path using TransGen.head_induction_on with
        | single step => simpa [Depends] using step
        | head step _ _ =>
          simp only [Depends, mem_cons, Prod.mk.injEq, not_mem_nil, or_false] at step
          exact step.elim And.left And.left
      · rintro rfl
        exact TransGen.single mem_cons_self
    rw [mem_extended tables, Before, Finset.range_zero, biUnion_empty]
    simp [up]
  rw [extended] at alone
  refine ⟨result, s'.executed, ran, alone, fun closed => ?_⟩
  exact absurd (closed 3 2 (by simp [Depends]) (by decide)) (by decide)

end DAGDeltaAlgorithm
end LlvmProject
