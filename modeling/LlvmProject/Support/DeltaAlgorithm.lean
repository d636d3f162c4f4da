import LlvmProject.Library.SortedPairs
import Mathlib.Tactic.Ring
import Mathlib.Tactic.Linarith

namespace LlvmProject

open SortedPairs

open Finset hiding mem_cons mem_singleton
open List hiding Disjoint
namespace DeltaAlgorithm

/-!
# Minimisation of a set of changes

`Delta` holds a set of changes that passes the test and a partition of it.  It
looks for a part or the complement of a part that passes as well and continues
there; when there is none it splits the parts, until they cannot be split.
The result passes the test, and no single change can be removed from it.

Neither property needs a monotone test.  When the parts cannot be split they
are single changes, and the last search has tested the set without each of
them.  With two parts the complement of one is the other, which the search
tests as a part; this is why it leaves complements out then.  A set of a single
change is minimal because the empty set is tested before everything else.

Failed tests are cached; the cache takes part in the state and never changes a
result.  The depth of the calls is bounded by `fuel`.
-/

variable {α : Type*} [LinearOrder α]

/-! ## The code -/

/-- Get the test result from the cache, executing the test if necessary. -/
def GetTestResult (ExecuteOneTest : Finset α -> Bool) (FailedTestsCache : Finset (Finset α))
    (Changes : Finset α) : Bool × Finset (Finset α) :=
  if Changes ∈ FailedTestsCache then (false, FailedTestsCache)
  else if ExecuteOneTest Changes then (true, FailedTestsCache)
  else (false, insert Changes FailedTestsCache)

/-- Partition a set of changes into one or two subsets. -/
def Split (S : Finset α) : List (Finset α) :=
  let N := S.card / 2
  let LHS := ((inOrder S).take N).toFinset
  let RHS := ((inOrder S).drop N).toFinset
  (if LHS = ∅ then [] else [LHS]) ++ if RHS = ∅ then [] else [RHS]

/-- The search over the sets from the position `rest` on, the sets in front of
it being `before`.  The recursive calls go to `Delta`. -/
def Search (ExecuteOneTest : Finset α -> Bool)
    (Delta : Finset α -> List (Finset α) -> Finset (Finset α) ->
    Option (Finset α × Finset (Finset α))) (Changes : Finset α) :
    List (Finset α) -> List (Finset α) -> Finset (Finset α) ->
      Option (Option (Finset α) × Finset (Finset α))
  | _, [], cache => some (none, cache)
  | before, it :: rest, cache =>
    let subset := GetTestResult ExecuteOneTest cache it
    if subset.1 then (Delta it (Split it) subset.2).map fun found => (some found.1, found.2)
    else if (before ++ it :: rest).length > 2 then
      let complement := GetTestResult ExecuteOneTest subset.2 (Changes \ it)
      if complement.1 then
        (Delta (Changes \ it) (before ++ rest) complement.2).map
          fun found => (some found.1, found.2)
      else Search ExecuteOneTest Delta Changes (before ++ [it]) rest complement.2
    else Search ExecuteOneTest Delta Changes (before ++ [it]) rest subset.2

/-- Minimize a set of changes which has been partitioned into smaller sets. -/
def Delta (ExecuteOneTest : Finset α -> Bool) :
    Nat -> Finset α -> List (Finset α) -> Finset (Finset α) -> Option (Finset α × Finset (Finset α))
  | 0, _, _, _ => none
  | fuel + 1, Changes, Sets, cache =>
    if Sets.length <= 1 then some (Changes, cache)
    else
      (Search ExecuteOneTest (Delta ExecuteOneTest fuel) Changes [] Sets cache).bind fun found =>
        match found.1 with
        | some Res => some (Res, found.2)
        | none =>
          let SplitSets := Sets.flatMap Split
          if SplitSets.length = Sets.length then some (Changes, found.2)
          else Delta ExecuteOneTest fuel Changes SplitSets found.2

/-- Minimize a set of changes. -/
def Run (ExecuteOneTest : Finset α -> Bool) (fuel : Nat) (Changes : Finset α)
    (cache : Finset (Finset α)) : Option (Finset α × Finset (Finset α)) :=
  let empty := GetTestResult ExecuteOneTest cache ∅
  if empty.1 then some (∅, empty.2)
  else Delta ExecuteOneTest fuel Changes (Split Changes) empty.2

/-! ## Tests and results -/

section Tests

variable {ExecuteOneTest : Finset α -> Bool} {cache : Finset (Finset α)}

/-- Every cached set fails the test. -/
def Sound (ExecuteOneTest : Finset α -> Bool) (cache : Finset (Finset α)) : Prop :=
  ∀ failed ∈ cache, ExecuteOneTest failed = false

/-- The set passes the test, and not without any one of its changes. -/
structure OneMinimal (ExecuteOneTest : Finset α -> Bool) (Res : Finset α) : Prop where
  passes : ExecuteOneTest Res = true
  minimal : ∀ change ∈ Res, ExecuteOneTest (Res.erase change) = false

theorem GetTestResult_spec (sound : Sound ExecuteOneTest cache) (Changes : Finset α) :
    (GetTestResult ExecuteOneTest cache Changes).1 = ExecuteOneTest Changes ∧
      Sound ExecuteOneTest (GetTestResult ExecuteOneTest cache Changes).2 := by
  unfold GetTestResult
  by_cases cached : Changes ∈ cache
  · rw [if_pos cached]
    exact ⟨(sound Changes cached).symm, sound⟩
  · rw [if_neg cached]
    cases tested : ExecuteOneTest Changes with
    | true => exact ⟨rfl, sound⟩
    | false =>
      refine ⟨rfl, fun failed mem => ?_⟩
      rcases mem_insert.mp mem with rfl | old
      · exact tested
      · exact sound failed old

end Tests

/-! ## Partitions -/

/-- The sets are nonempty, disjoint and together all changes. -/
structure Partition (Changes : Finset α) (Sets : List (Finset α)) : Prop where
  nonempty : ∀ part ∈ Sets, part.Nonempty
  disjoint : Sets.Pairwise Disjoint
  union : ∀ change, change ∈ Changes ↔ ∃ part ∈ Sets, change ∈ part

section Partitions

variable {Changes it : Finset α} {Sets before rest : List (Finset α)}

omit [LinearOrder α] in
theorem Partition.subset (partition : Partition Changes Sets) (mem : it ∈ Sets) :
    it ⊆ Changes := fun change inPart => (partition.union change).mpr ⟨it, mem, inPart⟩

section

variable (partition : Partition Changes (before ++ it :: rest))
include partition

/-- Removing a part leaves a partition of the complement. -/
theorem Partition.complement : Partition (Changes \ it) (before ++ rest) := by
  have disjoint := pairwise_append.mp partition.disjoint
  have later := pairwise_cons.mp disjoint.2.1
  have apart : ∀ part ∈ before ++ rest, Disjoint part it := by
    intro part mem
    rcases mem_append.mp mem with inBefore | inRest
    · exact disjoint.2.2 part inBefore it mem_cons_self
    · exact (later.1 part inRest).symm
  have whole : ∀ part, part ∈ before ++ it :: rest ↔ part = it ∨ part ∈ before ++ rest := by
    intro part
    rw [mem_append, mem_cons, mem_append]
    tauto
  constructor
  · exact fun part mem => partition.nonempty part ((whole part).mpr (.inr mem))
  · refine pairwise_append.mpr ⟨disjoint.1, later.2, fun left inBefore right inRest => ?_⟩
    exact disjoint.2.2 left inBefore right (mem_cons_of_mem it inRest)
  · intro change
    rw [mem_sdiff, partition.union]
    constructor
    · rintro ⟨⟨part, mem, inPart⟩, notHere⟩
      rcases (whole part).mp mem with rfl | other
      · exact absurd inPart notHere
      · exact ⟨part, other, inPart⟩
    · rintro ⟨part, mem, inPart⟩
      exact ⟨⟨part, (whole part).mpr (.inr mem), inPart⟩, disjoint_left.mp (apart part mem) inPart⟩

/-- A part is smaller than the whole if there is another one. -/
theorem Partition.part_card_lt (another : before ++ rest ≠ []) : it.card < Changes.card := by
  have mem : it ∈ before ++ it :: rest := mem_append_right before mem_cons_self
  rcases exists_mem_of_ne_nil _ another with ⟨part, inRest⟩
  rcases partition.complement.nonempty part inRest with ⟨change, inPart⟩
  have outside := partition.complement.subset inRest inPart
  rw [mem_sdiff] at outside
  exact card_lt_card (ssubset_iff_of_subset (partition.subset mem) |>.mpr
    ⟨change, outside.1, outside.2⟩)

theorem Partition.complement_card_lt : (Changes \ it).card < Changes.card := by
  have mem : it ∈ before ++ it :: rest := mem_append_right before mem_cons_self
  have within := partition.subset mem
  have pos := card_pos.mpr (partition.nonempty it mem)
  have bound := card_le_card within
  rw [card_sdiff_of_subset within]
  omega

end

/-- There are at most as many parts as changes. -/
theorem Partition.length_le (partition : Partition Changes Sets) : Sets.length <= Changes.card := by
  induction Sets generalizing Changes with
  | nil => exact Nat.zero_le _
  | cons it rest ih =>
    have whole : Partition Changes ([] ++ it :: rest) := partition
    have smaller := whole.complement_card_lt
    have bound := ih whole.complement
    rw [length_cons]
    omega

/-- With two parts each is the complement of the other. -/
theorem Partition.sdiff_of_pair {left right : Finset α}
    (partition : Partition Changes [left, right]) :
    Changes \ left = right ∧ Changes \ right = left := by
  have apart := pairwise_pair.mp partition.disjoint
  have whole : Changes = left ∪ right := by
    ext change
    rw [partition.union, mem_union]
    simp only [mem_cons, not_mem_nil, or_false, exists_eq_or_imp, exists_eq_left]
  rw [whole]
  exact ⟨union_sdiff_cancel_left apart, union_sdiff_cancel_right apart⟩

end Partitions

/-! ## Splitting -/

section Splitting

variable {S Changes : Finset α} {Sets : List (Finset α)}

/-- The two halves before the empty ones are left out. -/
def halves (S : Finset α) : Finset α × Finset α :=
  (((inOrder S).take (S.card / 2)).toFinset, ((inOrder S).drop (S.card / 2)).toFinset)

theorem disjoint_halves (S : Finset α) : Disjoint (halves S).1 (halves S).2 := by
  have nodup : ((inOrder S).take (S.card / 2) ++ (inOrder S).drop (S.card / 2)).Nodup := by
    rw [take_append_drop]
    exact Finset.sort_nodup S _
  rw [Finset.disjoint_left]
  intro change inLeft inRight
  exact (nodup_append.mp nodup).2.2 change (mem_toFinset.mp inLeft) change
    (mem_toFinset.mp inRight) rfl

theorem mem_halves (change : α) : change ∈ S ↔ change ∈ (halves S).1 ∨ change ∈ (halves S).2 := by
  rw [halves, mem_toFinset, mem_toFinset, <- mem_append, take_append_drop, mem_sort]

theorem card_halves (S : Finset α) :
    (halves S).1.card = S.card / 2 ∧ (halves S).2.card = S.card - S.card / 2 := by
  have nodup := Finset.sort_nodup S (· <= ·)
  have length := length_sort (s := S) (· <= ·)
  constructor
  · rw [halves, toFinset_card_of_nodup (nodup.sublist (take_sublist ..)),
      length_take, length, min_eq_left (Nat.div_le_self _ _)]
  · rw [halves, toFinset_card_of_nodup (nodup.sublist (drop_sublist ..)), length_drop, length]

theorem mem_Split {part : Finset α} :
    part ∈ Split S ↔ part.Nonempty ∧ (part = (halves S).1 ∨ part = (halves S).2) := by
  change part ∈ (if (halves S).1 = ∅ then [] else [(halves S).1]) ++
    (if (halves S).2 = ∅ then [] else [(halves S).2]) ↔ _
  rw [mem_append, nonempty_iff_ne_empty]
  by_cases left : (halves S).1 = ∅ <;> by_cases right : (halves S).2 = ∅ <;>
    simp only [left, right, if_true, if_false, mem_nil_iff, mem_singleton] <;>
    aesop

theorem length_Split (S : Finset α) : (Split S).length = min S.card 2 := by
  have cards := card_halves S
  have left : (halves S).1 = ∅ ↔ S.card / 2 = 0 := by rw [<- cards.1, card_eq_zero]
  have right : (halves S).2 = ∅ ↔ S.card - S.card / 2 = 0 := by
    rw [<- cards.2, card_eq_zero]
  change ((if (halves S).1 = ∅ then [] else [(halves S).1]) ++
    (if (halves S).2 = ∅ then [] else [(halves S).2])).length = _
  simp only [left, right, length_append]
  split_ifs <;> simp only [length_nil, length_singleton] <;> omega

theorem partition_Split (S : Finset α) : Partition S (Split S) := by
  constructor
  · exact fun part mem => (mem_Split.mp mem).1
  · change Pairwise Disjoint ((if (halves S).1 = ∅ then [] else [(halves S).1]) ++
      (if (halves S).2 = ∅ then [] else [(halves S).2]))
    split_ifs
    · exact Pairwise.nil
    · exact pairwise_singleton _ _
    · exact pairwise_singleton _ _
    · exact pairwise_pair.mpr (disjoint_halves S)
  · intro change
    rw [mem_halves]
    constructor
    · rintro (inLeft | inRight)
      · exact ⟨_, mem_Split.mpr ⟨⟨change, inLeft⟩, .inl rfl⟩, inLeft⟩
      · exact ⟨_, mem_Split.mpr ⟨⟨change, inRight⟩, .inr rfl⟩, inRight⟩
    · rintro ⟨part, mem, inPart⟩
      rcases (mem_Split.mp mem).2 with rfl | rfl
      · exact .inl inPart
      · exact .inr inPart

theorem Partition.flatMap_Split (partition : Partition Changes Sets) :
    Partition Changes (Sets.flatMap Split) := by
  constructor
  · intro part mem
    rcases mem_flatMap.mp mem with ⟨set, _, inSplit⟩
    exact (partition_Split set).nonempty part inSplit
  · rw [pairwise_flatMap]
    refine ⟨fun set _ => (partition_Split set).disjoint, partition.disjoint.imp ?_⟩
    intro left right disjoint first inFirst second inSecond
    exact disjoint.mono ((partition_Split left).subset inFirst)
      ((partition_Split right).subset inSecond)
  · intro change
    rw [partition.union]
    constructor
    · rintro ⟨set, inSets, inSet⟩
      rcases ((partition_Split set).union change).mp inSet with ⟨part, inSplit, inPart⟩
      exact ⟨part, mem_flatMap.mpr ⟨set, inSets, inSplit⟩, inPart⟩
    · rintro ⟨part, mem, inPart⟩
      rcases mem_flatMap.mp mem with ⟨set, inSets, inSplit⟩
      exact ⟨set, inSets, (partition_Split set).subset inSplit inPart⟩

/-- A round of splitting makes more parts, unless every part is a single
change. -/
theorem length_flatMap_Split (nonempty : ∀ part ∈ Sets, part.Nonempty) :
    Sets.length <= (Sets.flatMap Split).length ∧
      ((Sets.flatMap Split).length = Sets.length -> ∀ part ∈ Sets, part.card = 1) := by
  induction Sets with
  | nil => exact ⟨le_refl _, fun _ part mem => absurd mem not_mem_nil⟩
  | cons it rest ih =>
    rcases ih fun part mem =>
      nonempty part (mem_cons_of_mem it mem) with ⟨bound, single⟩
    have pos := card_pos.mpr (nonempty it mem_cons_self)
    have length := length_Split it
    rw [flatMap_cons, length_append, length_cons]
    refine ⟨by omega, fun same part mem => ?_⟩
    rcases mem_cons.mp mem with rfl | inRest
    · omega
    · exact single (by omega) part inRest

end Splitting

/-! ## Correctness -/

section Correctness

variable {ExecuteOneTest : Finset α -> Bool} {Changes : Finset α}

/-- Room for the remaining calls: a smaller set, or the same set in more
parts. -/
def room (Changes : Finset α) (Sets : List (Finset α)) : Nat :=
  Changes.card ^ 2 + (Changes.card - Sets.length)

omit [LinearOrder α] in
theorem room_lt_of_card_lt {smaller : Finset α} (fewer : smaller.card < Changes.card)
    (parts Sets : List (Finset α)) : room smaller parts < room Changes Sets := by
  have bound : smaller.card ^ 2 + smaller.card < Changes.card ^ 2 := by nlinarith
  unfold room
  omega

/-- What a call of `Delta` on a partition has to establish. -/
def Establishes (ExecuteOneTest : Finset α -> Bool) (Changes : Finset α)
    (called : Option (Finset α × Finset (Finset α))) : Prop :=
  ∃ Res cache, called = some (Res, cache) ∧ Res ⊆ Changes ∧ OneMinimal ExecuteOneTest Res ∧
    Sound ExecuteOneTest cache

/-- The sets `Delta` is called on: they pass the test and are partitioned, and
only a single change is left in one part. -/
structure Searchable (ExecuteOneTest : Finset α -> Bool) (Changes : Finset α)
    (Sets : List (Finset α)) : Prop where
  passes : ExecuteOneTest Changes = true
  partition : Partition Changes Sets
  single : Sets.length <= 1 -> Changes.card <= 1

theorem Searchable.of_Split (passes : ExecuteOneTest Changes = true) :
    Searchable ExecuteOneTest Changes (Split Changes) where
  passes := passes
  partition := partition_Split Changes
  single := by
    rw [length_Split]
    omega

/-- The search succeeds with a result below the changes, or no part and, with
more than two parts, no complement of a part passes. -/
theorem Search_spec {Delta : Finset α -> List (Finset α) -> Finset (Finset α) -> Option (Finset α ×
    Finset (Finset α))} (recurse : ∀ smaller parts cache, smaller.card < Changes.card -> Searchable
    ExecuteOneTest smaller parts -> Sound ExecuteOneTest cache -> Establishes ExecuteOneTest smaller
    (Delta smaller parts cache)) {before rest : List (Finset α)} {cache : Finset (Finset α)}
    (partition : Partition Changes (before ++ rest)) (several : 1 < (before ++ rest).length) (sound
    : Sound ExecuteOneTest cache) :
    ∃ outcome after, Search ExecuteOneTest Delta Changes before rest cache =
        some (outcome, after) ∧ Sound ExecuteOneTest after ∧
      match outcome with
      | some Res => Res ⊆ Changes ∧ OneMinimal ExecuteOneTest Res
      | none => ∀ it ∈ rest, ExecuteOneTest it = false ∧
          (2 < (before ++ rest).length -> ExecuteOneTest (Changes \ it) = false) := by
  induction rest generalizing before cache with
  | nil => exact ⟨none, cache, rfl, sound, fun it mem => absurd mem not_mem_nil⟩
  | cons it rest ih =>
    have mem : it ∈ before ++ it :: rest := mem_append_right before mem_cons_self
    have another : before ++ rest ≠ [] := by
      intro none
      rw [append_eq_nil_iff] at none
      rw [none.1, none.2] at several
      exact absurd several (lt_irrefl 1)
    rcases GetTestResult_spec sound it with ⟨subset, subsetSound⟩
    have regroup : before ++ it :: rest = (before ++ [it]) ++ rest := by
      rw [append_assoc, singleton_append]
    rw [Search]
    simp only [subset]
    cases passes : ExecuteOneTest it with
    | true =>
      rcases recurse it (Split it) _ (partition.part_card_lt another)
        (Searchable.of_Split passes) subsetSound with ⟨Res, after, found, within, minimal, kept⟩
      simp only [if_true, found, Option.map_some]
      exact ⟨some Res, after, rfl, kept, within.trans (partition.subset mem), minimal⟩
    | false =>
      simp only [Bool.false_eq_true, if_false]
      by_cases many : (before ++ it :: rest).length > 2
      · rcases GetTestResult_spec subsetSound (Changes \ it) with
          ⟨complement, complementSound⟩
        simp only [if_pos many, complement]
        cases remains : ExecuteOneTest (Changes \ it) with
        | true =>
          have searchable : Searchable ExecuteOneTest (Changes \ it) (before ++ rest) :=
            { passes := remains
              partition := partition.complement
              single := by
                rw [length_append, length_cons] at many
                rw [length_append]
                omega }
          rcases recurse _ _ _ partition.complement_card_lt searchable complementSound with
            ⟨Res, after, found, within, minimal, kept⟩
          simp only [if_true, found, Option.map_some]
          exact ⟨some Res, after, rfl, kept, within.trans sdiff_subset, minimal⟩
        | false =>
          rw [regroup] at partition several
          rcases ih partition several complementSound with
            ⟨outcome, after, found, kept, result⟩
          simp only [Bool.false_eq_true, if_false]
          refine ⟨outcome, after, found, kept, ?_⟩
          cases outcome with
          | some Res => exact result
          | none =>
            intro part inSets
            rcases mem_cons.mp inSets with rfl | inRest
            · exact ⟨passes, fun _ => remains⟩
            · rw [regroup]
              exact result part inRest
      · rw [if_neg many]
        have few := many
        rw [regroup] at partition several few
        rcases ih partition several subsetSound with
          ⟨outcome, after, found, kept, result⟩
        refine ⟨outcome, after, found, kept, ?_⟩
        cases outcome with
        | some Res => exact result
        | none =>
          intro part inSets
          rcases mem_cons.mp inSets with rfl | inRest
          · exact ⟨passes, fun more => absurd more many⟩
          · rw [regroup]
            exact result part inRest

theorem minimal_of_search {Sets : List (Finset α)} (partition : Partition Changes Sets)
    (several : 1 < Sets.length) (single : ∀ part ∈ Sets, part.card = 1) (failed : ∀ it ∈ Sets,
    ExecuteOneTest it = false ∧ (2 < Sets.length -> ExecuteOneTest (Changes \ it) = false)) :
    ∀ change ∈ Changes, ExecuteOneTest (Changes.erase change) = false := by
  intro change inChanges
  rcases (partition.union change).mp inChanges with ⟨part, inSets, inPart⟩
  have alone : part = {change} := by
    rcases card_eq_one.mp (single part inSets) with ⟨only, rfl⟩
    rw [Finset.mem_singleton] at inPart
    rw [inPart]
  have removed : Changes.erase change = Changes \ part := by
    rw [alone, sdiff_singleton_eq_erase]
  rw [removed]
  by_cases many : 2 < Sets.length
  · exact (failed part inSets).2 many
  · obtain ⟨left, right, rfl⟩ := length_eq_two.mp (show Sets.length = 2 by omega)
    rcases partition.sdiff_of_pair with ⟨leftRemoved, rightRemoved⟩
    rcases mem_pair.mp inSets with rfl | rfl
    · rw [leftRemoved]
      exact (failed right (mem_pair.mpr (.inr rfl))).1
    · rw [rightRemoved]
      exact (failed left (mem_pair.mpr (.inl rfl))).1

/-- With enough room the calls end with a result that is minimal. -/
theorem Delta_spec (emptyFails : ExecuteOneTest ∅ = false) {fuel : Nat} {Sets : List (Finset α)}
    {cache : Finset (Finset α)} (searchable : Searchable ExecuteOneTest Changes Sets)
    (sound : Sound ExecuteOneTest cache) (enough : room Changes Sets < fuel) :
    Establishes ExecuteOneTest Changes (Delta ExecuteOneTest fuel Changes Sets cache) := by
  induction fuel generalizing Changes Sets cache with
  | zero => exact absurd enough (Nat.not_lt_zero _)
  | succ fuel ih =>
    have partition := searchable.partition
    rw [Delta]
    by_cases few : Sets.length <= 1
    · rw [if_pos few]
      refine ⟨Changes, cache, rfl, Subset.refl _, ⟨searchable.passes, ?_⟩, sound⟩
      intro change mem
      have alone := searchable.single few
      have erased : Changes.erase change = ∅ := by
        rw [<- card_eq_zero, card_erase_of_mem mem]
        omega
      rw [erased]
      exact emptyFails
    · rw [if_neg few]
      have several : 1 < Sets.length := Nat.lt_of_not_le few
      have whole : Partition Changes ([] ++ Sets) := partition
      rcases Search_spec
          (fun smaller parts cache fewer searchable sound =>
            ih searchable sound (lt_of_lt_of_le
              (room_lt_of_card_lt fewer parts Sets) (Nat.le_of_lt_succ enough)))
          whole several sound with ⟨outcome, after, found, kept, result⟩
      rw [found]
      cases outcome with
      | some Res => exact ⟨Res, after, rfl, result.1, result.2, kept⟩
      | none =>
        rcases length_flatMap_Split partition.nonempty with ⟨more, single⟩
        simp only [Option.bind_some]
        by_cases done : (Sets.flatMap Split).length = Sets.length
        · rw [if_pos done]
          exact ⟨Changes, after, rfl, Subset.refl _,
            ⟨searchable.passes, minimal_of_search partition several (single done) result⟩,
            kept⟩
        · rw [if_neg done]
          have split := partition.flatMap_Split
          have bound := split.length_le
          refine ih ⟨searchable.passes, split, fun one => ?_⟩ kept ?_
          · omega
          · unfold room at enough ⊢
            omega

/-- For every test that the changes pass, `Run` ends with a subset that passes
and from which no single change can be removed, and leaves a sound cache. -/
theorem Run_minimal (ExecuteOneTest : Finset α -> Bool) (Changes : Finset α) (cache : Finset (Finset
    α)) (passes : ExecuteOneTest Changes = true) (sound : Sound ExecuteOneTest cache) (fuel : Nat)
    (enough : Changes.card ^ 2 + Changes.card < fuel) :
    ∃ Res after, Run ExecuteOneTest fuel Changes cache = some (Res, after) ∧ Res ⊆ Changes ∧
      ExecuteOneTest Res = true ∧
      (∀ change ∈ Res, ExecuteOneTest (Res.erase change) = false) ∧
      Sound ExecuteOneTest after := by
  rcases GetTestResult_spec sound ∅ with ⟨empty, emptySound⟩
  rw [Run, empty]
  cases emptyPasses : ExecuteOneTest ∅ with
  | true =>
    exact ⟨∅, _, if_pos rfl, empty_subset _, emptyPasses,
      fun change mem => absurd mem (notMem_empty change), emptySound⟩
  | false =>
    rcases Delta_spec emptyPasses (Searchable.of_Split passes) emptySound
        (lt_of_le_of_lt (Nat.add_le_add_left (Nat.sub_le _ _) _) enough) with
      ⟨Res, after, found, within, minimal, kept⟩
    exact ⟨Res, after, found, within, minimal.passes, minimal.minimal, kept⟩

/-- Three changes of which a test needs the second alone, or the first and the
third together. -/
theorem Run_minimal_three :
    let needs : Finset Nat -> Bool := fun S => decide (2 ∈ S) || decide (1 ∈ S ∧ 3 ∈ S)
    ∃ Res after, Run needs 13 {1, 2, 3} ∅ = some (Res, after) ∧ Res ⊆ {1, 2, 3} ∧
      needs Res = true ∧ (∀ change ∈ Res, needs (Res.erase change) = false) ∧
      Sound needs after :=
  Run_minimal _ {1, 2, 3} ∅ (by decide) (fun failed mem => absurd mem (notMem_empty _))
    13 (by decide)

end Correctness

end DeltaAlgorithm
end LlvmProject
