import LlvmProject.Support.DAGDeltaAlgorithm

namespace LlvmProject

open Bool Finset DeltaAlgorithm

namespace DAGDeltaAlgorithm
namespace DeltaActiveSetHelper

/-!
# The helper refines `DeltaAlgorithm`

When the answers of a test are those of a predicate, whatever its state, the helper
does what `DeltaAlgorithm` does with the predicate.  An invariant of the helper's
cache and the test's state that every single test keeps holds at the end.
-/

open DeltaAlgorithm (Split Sound Partition room)

variable {α : Type*} [LinearOrder α] {σ : Type*} {test : Finset α -> σ -> Bool × σ}
  {Q : Finset α -> Bool} {Top : Finset α} {inv : Finset (Finset α) -> σ -> Prop}

/-- The test answers like a predicate, on the sets within `Top`. -/
structure Answers (test : Finset α -> σ -> Bool × σ) (Q : Finset α -> Bool) (Top : Finset α)
    (inv : Finset (Finset α) -> σ -> Prop) : Prop where
  answer : ∀ S ⊆ Top, ∀ cache st, inv cache st -> (test S st).1 = Q S
  keeps : ∀ S ⊆ Top, ∀ cache st, inv cache st ->
    inv (if Q S then cache else insert S cache) (test S st).2

/-- Two results with the same outcome and cache. -/
def Agree {β : Type*} (inv : Finset (Finset α) -> σ -> Prop)
    (run : Option (β × (Finset (Finset α) × σ))) (pure : Option (β × Finset (Finset α))) : Prop :=
  match pure with
  | none => run = none
  | some (result, cache) => ∃ st, run = some (result, (cache, st)) ∧ inv cache st

variable {cache : Finset (Finset α)}

theorem GetTestResult_agrees (answers : Answers test Q Top inv) {S : Finset α}
    (within : S ⊆ Top) {st : σ} (holds : inv cache st) :
    ∃ st', GetTestResult test (cache, st) S =
      ((DeltaAlgorithm.GetTestResult Q cache S).1,
        ((DeltaAlgorithm.GetTestResult Q cache S).2, st')) ∧
      inv (DeltaAlgorithm.GetTestResult Q cache S).2 st' := by
  by_cases cached : S ∈ cache
  · refine ⟨st, ?_, ?_⟩
    · rw [GetTestResult, DeltaAlgorithm.GetTestResult, if_pos cached, if_pos cached]
    · rwa [DeltaAlgorithm.GetTestResult, if_pos cached]
  · have answer := answers.answer S within cache st holds
    have kept := answers.keeps S within cache st holds
    refine ⟨(test S st).2, ?_, ?_⟩
    · rw [GetTestResult, DeltaAlgorithm.GetTestResult, if_neg cached, if_neg cached]
      simp only [answer]
      cases Q S <;> rfl
    · rw [DeltaAlgorithm.GetTestResult, if_neg cached]
      cases passes : Q S with
      | true =>
        rw [passes] at kept
        exact kept
      | false =>
        rw [passes] at kept
        exact kept

omit [LinearOrder α] in
theorem Agree.map {β γ : Type*} {run : Option (β × (Finset (Finset α) × σ))}
    {pure : Option (β × Finset (Finset α))} (agree : Agree inv run pure) (f : β -> γ) :
    Agree inv (run.map fun found => (f found.1, found.2))
      (pure.map fun found => (f found.1, found.2)) := by
  cases pure with
  | none =>
    rw [agree]
    exact rfl
  | some found =>
    rcases agree with ⟨st, ran, holds⟩
    rw [ran]
    exact ⟨st, rfl, holds⟩

variable {Changes : Finset α}

section

variable (answers : Answers test Q Top inv)
include answers

theorem Search_agrees {run : Finset α -> List (Finset α) -> Finset (Finset α) × σ -> Option (Finset
    α × (Finset (Finset α) × σ))} {pure : Finset α -> List (Finset α) -> Finset (Finset α) -> Option
    (Finset α × Finset (Finset α))} (within : Changes ⊆ Top) (recurse :
    ∀ smaller Sets cache st, smaller ⊆ Top -> (∀ it ∈ Sets, it ⊆ Top) -> inv cache st ->
    Agree inv (run
    smaller Sets (cache, st)) (pure smaller Sets cache)) (before rest : List (Finset α)) (parts : ∀
    it ∈ before ++ rest, it ⊆ Top) {st : σ} (holds : inv cache st) :
    Agree inv (Search test run Changes before rest (cache, st))
      (DeltaAlgorithm.Search Q pure Changes before rest cache) := by
  induction rest generalizing before cache st with
  | nil => exact ⟨st, rfl, holds⟩
  | cons it rest ih =>
    have inTop := parts it (List.mem_append_right before List.mem_cons_self)
    have complementInTop : Changes \ it ⊆ Top := sdiff_subset.trans within
    have others : ∀ part ∈ before ++ rest, part ⊆ Top := fun part mem => parts part (by
      rw [List.mem_append] at mem ⊢
      exact mem.imp_right (List.mem_cons_of_mem it))
    have further : ∀ part ∈ before ++ [it] ++ rest, part ⊆ Top := fun part mem => parts part (by
      rwa [List.append_assoc, List.singleton_append] at mem)
    have splits : ∀ part ∈ Split it, part ⊆ Top := fun part mem =>
      ((partition_Split it).subset mem).trans inTop
    rcases GetTestResult_agrees answers inTop holds with ⟨st₁, subset, holds₁⟩
    rw [Search, DeltaAlgorithm.Search, subset]
    simp only
    cases passes : (DeltaAlgorithm.GetTestResult Q cache it).1 with
    | true =>
      simp only [if_true]
      exact (recurse it (Split it) _ st₁ inTop splits holds₁).map some
    | false =>
      simp only [false_eq_true, if_false]
      by_cases many : (before ++ it :: rest).length > 2
      · rcases GetTestResult_agrees answers complementInTop holds₁ with
          ⟨st₂, complement, holds₂⟩
        rw [if_pos many, if_pos many, complement]
        simp only
        cases remains : (DeltaAlgorithm.GetTestResult Q
            (DeltaAlgorithm.GetTestResult Q cache it).2 (Changes \ it)).1 with
        | true =>
          simp only [if_true]
          exact (recurse _ _ _ st₂ complementInTop others holds₂).map some
        | false =>
          simp only [false_eq_true, if_false]
          exact ih _ further holds₂
      · rw [if_neg many, if_neg many]
        exact ih _ further holds₁

theorem Delta_agrees (fuel : Nat) (within : Changes ⊆ Top) (Sets
    : List (Finset α)) (parts : ∀ it ∈ Sets, it ⊆ Top) {st : σ} (holds : inv cache st) :
    Agree inv (Delta test fuel Changes Sets (cache, st))
      (DeltaAlgorithm.Delta Q fuel Changes Sets cache) := by
  induction fuel generalizing Changes Sets cache st with
  | zero => exact rfl
  | succ fuel ih =>
    rw [Delta, DeltaAlgorithm.Delta]
    by_cases few : Sets.length <= 1
    · rw [if_pos few, if_pos few]
      exact ⟨st, rfl, holds⟩
    · rw [if_neg few, if_neg few]
      have searched := Search_agrees answers within
        (fun smaller Sets cache st inTop parts holds =>
          ih inTop Sets parts holds) [] Sets
        (fun it mem => parts it (by rwa [List.nil_append] at mem)) holds
      have splits : ∀ part ∈ Sets.flatMap Split, part ⊆ Top := by
        intro part mem
        rcases List.mem_flatMap.mp mem with ⟨set, inSets, inSplit⟩
        exact ((partition_Split set).subset inSplit).trans (parts set inSets)
      cases found : DeltaAlgorithm.Search Q (DeltaAlgorithm.Delta Q fuel) Changes [] Sets cache with
      | none =>
        rw [found] at searched
        rw [show Search test (Delta test fuel) Changes [] Sets (cache, st) = none from searched]
        exact rfl
      | some outcome =>
        rw [found] at searched
        rcases searched with ⟨st', ran, holds'⟩
        rw [ran]
        simp only [Option.bind_some]
        cases outcome.1 with
        | some Res => exact ⟨st', rfl, holds'⟩
        | none =>
          simp only
          by_cases done : (Sets.flatMap Split).length = Sets.length
          · rw [if_pos done, if_pos done]
            exact ⟨st', rfl, holds'⟩
          · rw [if_neg done, if_neg done]
            exact ih within _ splits holds'

theorem Run_agrees (fuel : Nat) {st : σ} (holds : inv cache st) :
    Agree inv (Run test fuel Top (cache, st)) (DeltaAlgorithm.Run Q fuel Top cache) := by
  rcases GetTestResult_agrees answers (empty_subset Top) holds with ⟨st₁, empty, holds₁⟩
  rw [Run, DeltaAlgorithm.Run, empty]
  simp only
  cases (DeltaAlgorithm.GetTestResult Q cache ∅).1 with
  | true => exact ⟨st₁, rfl, holds₁⟩
  | false =>
    simp only [false_eq_true, if_false]
    exact Delta_agrees answers fuel (Subset.refl Top) _
      (fun part mem => (partition_Split Top).subset mem) holds₁

end

/-! ## What `DeltaAlgorithm` returns -/

variable {fuel : Nat}

/-- `Delta` ends whether or not the changes pass. -/
theorem Delta_total (emptyFails : Q ∅ = false) {Sets : List (Finset α)} (partition : Partition
    Changes Sets) (sound : Sound Q cache) (enough : room Changes Sets < fuel) :
    ∃ Res after, DeltaAlgorithm.Delta Q fuel Changes Sets cache = some (Res, after) ∧
      Res ⊆ Changes := by
  induction fuel generalizing Sets cache with
  | zero => exact absurd enough (Nat.not_lt_zero _)
  | succ fuel ih =>
    rw [DeltaAlgorithm.Delta]
    by_cases few : Sets.length <= 1
    · rw [if_pos few]
      exact ⟨Changes, cache, rfl, Subset.refl _⟩
    · rw [if_neg few]
      have whole : Partition Changes ([] ++ Sets) := partition
      rcases Search_spec
          (fun smaller parts cache fewer searchable sound =>
            Delta_spec emptyFails searchable sound (lt_of_lt_of_le
              (room_lt_of_card_lt fewer parts Sets) (Nat.le_of_lt_succ enough)))
          whole (Nat.lt_of_not_le few) sound with ⟨outcome, after, found, kept, result⟩
      rw [found]
      cases outcome with
      | some Res => exact ⟨Res, after, rfl, result.1⟩
      | none =>
        have more := (length_flatMap_Split partition.nonempty).1
        simp only [Option.bind_some]
        by_cases done : (Sets.flatMap Split).length = Sets.length
        · rw [if_pos done]
          exact ⟨Changes, after, rfl, Subset.refl _⟩
        · rw [if_neg done]
          have split := partition.flatMap_Split
          have bound := split.length_le
          apply ih split kept
          unfold room at enough ⊢
          omega

/-- The room that any minimisation of some changes needs. -/
def RoomFor (Changes : Finset α) (fuel : Nat) : Prop := Changes.card ^ 2 + Changes.card < fuel

theorem Run_total (Q : Finset α -> Bool) (enough : RoomFor Top fuel) :
    ∃ Res after, DeltaAlgorithm.Run Q fuel Top ∅ = some (Res, after) ∧ Res ⊆ Top ∧
      (Q Top = true -> Q Res = true) := by
  have sound : Sound Q ∅ := fun failed mem => absurd mem (notMem_empty failed)
  rcases GetTestResult_spec sound ∅ with ⟨empty, emptySound⟩
  have room : room Top (Split Top) < fuel :=
    lt_of_le_of_lt (Nat.add_le_add_left (Nat.sub_le _ _) _) enough
  rw [DeltaAlgorithm.Run, empty]
  cases emptyPasses : Q ∅ with
  | true => exact ⟨∅, _, if_pos rfl, empty_subset _, fun _ => emptyPasses⟩
  | false =>
    simp only [false_eq_true, if_false]
    cases passes : Q Top with
    | true =>
      rcases Delta_spec emptyPasses (Searchable.of_Split passes)
        emptySound room with ⟨Res, after, found, within, minimal, _⟩
      exact ⟨Res, after, found, within, fun _ => minimal.passes⟩
    | false =>
      rcases Delta_total emptyPasses (partition_Split Top) emptySound room with
        ⟨Res, after, found, within⟩
      exact ⟨Res, after, found, within, fun never => by cases never⟩

/-! ### A test that always fails -/

section AllFail

variable {Changes : Finset α} {cache : Finset (Finset α)}

theorem GetTestResult_fails (cache : Finset (Finset α)) (S : Finset α) :
    DeltaAlgorithm.GetTestResult (fun _ => false) cache S = (false, insert S cache) := by
  rw [DeltaAlgorithm.GetTestResult]
  by_cases cached : S ∈ cache
  · rw [if_pos cached, insert_eq_of_mem cached]
  · rw [if_neg cached]
    rfl

/-- A search without success has tested all parts. -/
theorem Search_fails (pure : Finset α -> List (Finset α) -> Finset (Finset α) -> Option (Finset α ×
    Finset (Finset α))) (Changes : Finset α) (cache : Finset (Finset α)) (before rest : List (Finset
    α)) :
    ∃ after, DeltaAlgorithm.Search (fun _ => false) pure Changes before rest cache =
      some (none, after) ∧ cache ⊆ after ∧ ∀ it ∈ rest, it ∈ after := by
  induction rest generalizing before cache with
  | nil => exact ⟨cache, rfl, Subset.refl _, fun it mem => absurd mem List.not_mem_nil⟩
  | cons it rest ih =>
    rw [DeltaAlgorithm.Search, GetTestResult_fails]
    simp only [false_eq_true, if_false]
    have later : ∃ tested, insert it cache ⊆ tested ∧
        (if (before ++ it :: rest).length > 2 then
          DeltaAlgorithm.Search (fun _ => false) pure Changes (before ++ [it]) rest
            (insert (Changes \ it) (insert it cache))
        else DeltaAlgorithm.Search (fun _ => false) pure Changes (before ++ [it]) rest
            (insert it cache)) =
          DeltaAlgorithm.Search (fun _ => false) pure Changes (before ++ [it]) rest tested := by
      split
      · exact ⟨_, subset_insert _ _, rfl⟩
      · exact ⟨_, Subset.refl _, rfl⟩
    rcases later with ⟨tested, subset, same⟩
    rcases ih tested (before ++ [it]) with
      ⟨after, found, kept, parts⟩
    refine ⟨after, ?_, ?_, ?_⟩
    · rw [GetTestResult_fails]
      simp only [false_eq_true, if_false]
      rw [same, found]
    · exact (subset_insert _ _).trans (subset.trans kept)
    · intro part mem
      rcases List.mem_cons.mp mem with rfl | inRest
      · exact kept (subset (mem_insert_self _ _))
      · exact parts part inRest

/-- All changes remain, and each of several was tested alone. -/
theorem Delta_fails {Sets : List (Finset α)} (cache : Finset (Finset α))
    (partition : Partition Changes Sets) (enough : room Changes Sets < fuel) :
    ∃ after, DeltaAlgorithm.Delta (fun _ => false) fuel Changes Sets cache = some (Changes, after) ∧
      (1 < Sets.length -> ∀ change ∈ Changes, {change} ∈ after) := by
  induction fuel generalizing Sets cache with
  | zero => exact absurd enough (Nat.not_lt_zero _)
  | succ fuel ih =>
    rw [DeltaAlgorithm.Delta]
    by_cases few : Sets.length <= 1
    · rw [if_pos few]
      exact ⟨cache, rfl, fun several => absurd several (Nat.not_lt.mpr few)⟩
    · rw [if_neg few]
      rcases Search_fails (DeltaAlgorithm.Delta (fun _ => false) fuel) Changes cache [] Sets with
        ⟨after, found, _, parts⟩
      rcases length_flatMap_Split partition.nonempty with ⟨more, single⟩
      rw [found]
      simp only [Option.bind_some]
      by_cases done : (Sets.flatMap Split).length = Sets.length
      · rw [if_pos done]
        refine ⟨after, rfl, fun _ change mem => ?_⟩
        rcases (partition.union change).mp mem with ⟨part, inSets, inPart⟩
        rcases card_eq_one.mp (single done part inSets) with ⟨only, rfl⟩
        rw [mem_singleton.mp inPart]
        exact parts _ inSets
      · rw [if_neg done]
        have split := partition.flatMap_Split
        have bound := split.length_le
        rcases ih after split (by unfold room at enough ⊢; omega) with
          ⟨last, ran, alone⟩
        exact ⟨last, ran, fun _ => alone (by omega)⟩

theorem Run_fails (enough : RoomFor Top fuel) :
    ∃ after, DeltaAlgorithm.Run (fun _ => false) fuel Top ∅ = some (Top, after) ∧
      (1 < Top.card -> ∀ change ∈ Top, {change} ∈ after) := by
  have room : room Top (Split Top) < fuel :=
    lt_of_le_of_lt (Nat.add_le_add_left (Nat.sub_le _ _) _) enough
  rcases Delta_fails (insert ∅ ∅) (partition_Split Top) room with
    ⟨after, found, alone⟩
  refine ⟨after, ?_, fun several => alone ?_⟩
  · rw [DeltaAlgorithm.Run, GetTestResult_fails]
    simp only [false_eq_true, if_false]
    exact found
  · rw [length_Split]
    omega

end AllFail

end DeltaActiveSetHelper
end DAGDeltaAlgorithm
end LlvmProject
