import LlvmProject.ADT.DenseMapMove

namespace LlvmProject

open List Option

namespace DenseMap
namespace Instance

/-!
# Growing and shrinking a dense map

`grow` gives a map another table with the same entries and no tombstones.  There is
one exception: a small map with 64 inline buckets or more that grows in place, to
get rid of its tombstones, asks for an allocated table that is not larger than the
inline one, which `allocateBuckets` asserts not to happen.  In a build without
assertions the map gets that table, and a later `grow` makes it small again.
-/

open Unsigned QuadraticProbing MathExtras

variable {κ ν : Type} [DecidableEq κ] {T : Instance κ} {s : DenseMapBase κ ν}
  {m : κ -> Option ν} {k K : Nat}

/-- The inline buckets are a power of two in number. -/
def Valid (T : Instance κ) : Prop :=
  ∀ InlineBuckets, T.derived = .smallDenseMap InlineBuckets -> ∃ j < 30, InlineBuckets = 2 ^ j

/-- A small map has the inline buckets. -/
def Shaped (T : Instance κ) (s : DenseMapBase κ ν) : Prop :=
  ∀ InlineBuckets, T.derived = .smallDenseMap InlineBuckets -> s.Small = true ->
    s.Buckets.length = InlineBuckets

/-- The map has no table, as only a `DenseMap` may. -/
structure Unallocated (T : Instance κ) (s : DenseMapBase κ ν) (m : κ -> Option ν) : Prop where
  derived : T.derived = .denseMap
  buckets : s.Buckets = []
  entries : s.NumEntries = 0
  tombstones : s.NumTombstones = 0
  contents : m = fun _ => none

/-- The map refines an abstract map. -/
def Refines (T : Instance κ) (s : DenseMapBase κ ν) (m : κ -> Option ν) : Prop :=
  T.Unallocated s m ∨ ∃ k, T.Settled s m k ∧ T.Shaped s

omit [DecidableEq κ] in
theorem length_rawBuckets (Num : Nat) : (T.rawBuckets Num : List (Bucket κ ν)).length = Num :=
  length_replicate

/-! ## Sizes -/

variable {AtLeast : Nat}

theorem growSize_spec (pos : 0 < AtLeast) (small : AtLeast <= 2 ^ 30) :
    ∃ K ≤ 30, growSize AtLeast = 2 ^ K ∧ AtLeast <= 2 ^ K ∧
      ∀ j, 6 <= j -> AtLeast <= 2 ^ j -> K <= j := by
  rcases NextPowerOf2_sub_one pos small with ⟨k, bound, power, above, least⟩
  have large : 2 ^ k <= 2 ^ 30 := Nat.pow_le_pow_right (by omega) bound
  rw [growSize, power, wrap_of_lt (by omega)]
  by_cases enough : 6 <= k
  · have wide : 2 ^ 6 <= 2 ^ k := Nat.pow_le_pow_right (by omega) enough
    exact ⟨k, bound, by omega, above, fun j _ fits => least j fits⟩
  · have narrow : 2 ^ k <= 2 ^ 6 := Nat.pow_le_pow_right (by omega) (by omega)
    exact ⟨6, by omega, by omega, by omega, fun j wide _ => wide⟩

/-- The sizes that `shrink_and_clear` computes from a number of entries. -/
theorem shiftOne_spec {OldSize : Nat} (pos : OldSize ≠ 0) (small : OldSize <= 2 ^ 29) :
    ∃ c ≤ 30, shiftOne (Log2_32_Ceil OldSize + 1) = some (2 ^ c) := by
  rcases Log2_32_Ceil_spec (k := 29) (by omega) small (by omega) with ⟨bound, _⟩
  exact ⟨Log2_32_Ceil OldSize + 1, by omega, if_pos (by omega)⟩

theorem max_64 {c : Nat} (bound : c <= 30) : ∃ K ≤ 30, max 64 (2 ^ c) = 2 ^ K := by
  by_cases enough : 6 <= c
  · have wide : 2 ^ 6 <= 2 ^ c := Nat.pow_le_pow_right (by omega) enough
    exact ⟨c, bound, by omega⟩
  · have narrow : 2 ^ c <= 2 ^ 6 := Nat.pow_le_pow_right (by omega) (by omega)
    exact ⟨6, by omega, by omega⟩

/-! ## Fresh tables -/

theorem initEmpty_settled (small : K <= 30) (size : s.Buckets.length = 2 ^ K) :
    ∃ s', T.initEmpty s = some s' ∧ T.Settled s' (fun _ => none) K ∧ s'.Small = s.Small := by
  rcases initEmpty_spec (T := T) small size with ⟨s', run, fresh⟩
  rcases fresh.settled with ⟨m, settled, contents⟩
  have nothing : m = fun _ => none := by
    funext key
    apply Option.ext
    intro value
    exact (contents key value).trans ⟨fun mem => absurd mem not_mem_nil,
      fun found => by cases found⟩
  exact ⟨s', run, nothing ▸ settled, fresh.small⟩

/-- The sizes that a map may be given, apart from those that need no table. -/
def TableSize (Num : Nat) : Prop := ∃ K ≤ 30, Num = 2 ^ K

/-- The sizes that `init` may be asked for. -/
def InitialSize (T : Instance κ) (Num : Nat) : Prop :=
  match T.derived with
  | .denseMap => Num = 0 ∨ TableSize Num
  | .smallDenseMap InlineBuckets => Num <= InlineBuckets ∨ TableSize Num

theorem init_spec (valid : T.Valid) (InitBuckets : Nat) (initial : T.InitialSize InitBuckets)
    (s : DenseMapBase κ ν) :
    ∃ s', T.init InitBuckets s = some s' ∧ T.Refines s' fun _ => none := by
  rw [InitialSize] at initial
  rw [init]
  cases derived : T.derived with
  | denseMap =>
    simp only [derived] at initial ⊢
    rcases initial with rfl | ⟨K, small, rfl⟩
    · exact ⟨_, rfl, .inl ⟨derived, rfl, rfl, rfl, rfl⟩⟩
    · rcases initEmpty_settled (T := T) (s := { s with Buckets := T.rawBuckets (2 ^ K) }) small
        (length_rawBuckets _) with ⟨s', run, settled, _⟩
      refine ⟨s', ?_, .inr ⟨K, settled, fun InlineBuckets isSmall => ?_⟩⟩
      · rw [DenseMap_init, if_pos (Nat.two_pow_pos K).ne', run]
      · rw [derived] at isSmall
        cases isSmall
  | smallDenseMap InlineBuckets =>
    simp only [derived] at initial ⊢
    rcases valid InlineBuckets derived with ⟨j, few, power⟩
    by_cases larger : InitBuckets > InlineBuckets
    · rcases initial.resolve_left (by omega) with ⟨K, small, rfl⟩
      rcases initEmpty_settled (T := T)
        (s := { s with Small := false, Buckets := T.rawBuckets (2 ^ K) }) small
        (length_rawBuckets _) with ⟨s', run, settled, flag⟩
      refine ⟨s', ?_, .inr ⟨K, settled, fun InlineBuckets _ isSmall => ?_⟩⟩
      · rw [SmallDenseMap_init, if_pos larger, allocateBuckets, assert_true larger]
        exact run
      · rw [flag] at isSmall
        cases isSmall
    · rcases initEmpty_settled (T := T)
        (s := { s with Small := true, Buckets := T.rawBuckets InlineBuckets })
          (show j <= 30 by omega)
        ((length_rawBuckets _).trans power) with ⟨s', run, settled, flag⟩
      refine ⟨s', ?_, .inr ⟨j, settled, fun InlineBuckets' same _ => ?_⟩⟩
      · rw [SmallDenseMap_init, if_neg larger, run]
      · rw [derived] at same
        injection same with same
        rw [settled.table.size, <- same, power]

/-! ## `grow` -/

/-- The growth that `allocateBuckets` asserts not to happen. -/
def GrowFails (T : Instance κ) (s : DenseMapBase κ ν) (AtLeast : Nat) : Prop :=
  T.NDEBUG = false ∧ ∃ InlineBuckets, T.derived = .smallDenseMap InlineBuckets ∧
    s.Small = true ∧ growSize AtLeast <= InlineBuckets

theorem Settled.grow_spec (settled : T.Settled s m k) (shaped : T.Shaped s) (valid : T.Valid) (above
    : 2 ^ k <= AtLeast) (bound : AtLeast <= 2 ^ 30) (works : ¬T.GrowFails s AtLeast) :
    ∃ s' K, T.grow AtLeast s = some s' ∧ T.Settled s' m K ∧ T.Shaped s' ∧ AtLeast <= 2 ^ K ∧
      s'.NumEntries = s.NumEntries ∧ s'.NumTombstones = 0 := by
  have pos := Nat.two_pow_pos k
  rcases growSize_spec (show 0 < AtLeast by omega) bound with ⟨K, small, chosen, enough, _⟩
  have room := settled.room
  have length := settled.length_entries
  rw [grow]
  cases derived : T.derived with
  | denseMap =>
    have some : s.Buckets ≠ [] := by
      intro none
      have size := settled.table.size
      rw [none, length_nil] at size
      omega
    rcases moveFromOldBuckets_spec (s := { s with Buckets := T.rawBuckets (2 ^ K) }) small
      (length_rawBuckets _) settled.holds (by omega) with
      ⟨s', run, settled', entries, tombstones, _⟩
    refine ⟨s', K, ?_, settled', fun InlineBuckets isSmall => ?_, enough,
      entries.trans length, tombstones⟩
    · simp only [DenseMap_grow, if_neg some, chosen, run]
    · rw [derived] at isSmall
      cases isSmall
  | smallDenseMap InlineBuckets =>
    rcases valid InlineBuckets derived with ⟨j, few, power⟩
    have large : ∀ {s' : DenseMapBase κ ν}, s'.Small = false -> T.Shaped s' := by
      intro s' flag InlineBuckets' _ isSmall
      rw [flag] at isSmall
      cases isSmall
    cases flag : s.Small with
    | true =>
      have inline := shaped InlineBuckets derived flag
      have size := settled.table.size
      have allowed : T.assert (2 ^ K > InlineBuckets) = some () := by
        by_cases ndebug : T.NDEBUG = true
        · exact if_pos (.inl ndebug)
        · apply assert_true
          by_contra notLarger
          exact works ⟨Bool.eq_false_iff.mpr ndebug, InlineBuckets, derived, flag, by omega⟩
      have compacted := moveInline_spec InlineBuckets []
        settled.table.constructed (by rw [nil_append]; omega)
      rcases moveFromOldBuckets_spec
        (s := { s with Small := false, Buckets := T.rawBuckets (2 ^ K) }) small
        (length_rawBuckets _) settled.holds.bucketOf
        (by rw [entriesOf_bucketOf _ fun e => mem_entriesOf_live]; omega) with
        ⟨s', run, settled', entries, tombstones, flag'⟩
      rw [entriesOf_bucketOf _ fun e => mem_entriesOf_live] at entries
      refine ⟨s', K, ?_, settled', large flag', enough, entries.trans length, tombstones⟩
      rw [map_nil, nil_append] at compacted
      simp only [SmallDenseMap_grow, flag, if_true, if_pos (show AtLeast >= InlineBuckets by omega),
        chosen, if_neg (show ¬2 ^ K < InlineBuckets by omega), compacted, allocateBuckets,
        allowed, bind_eq_bind, bind_some, run]
    | false =>
      have chosen' : (if AtLeast >= InlineBuckets then growSize AtLeast else AtLeast) <=
          InlineBuckets ∧ AtLeast <= InlineBuckets ∨
          (if AtLeast >= InlineBuckets then growSize AtLeast else AtLeast) = 2 ^ K ∧
          2 ^ K > InlineBuckets := by
        rw [chosen]
        split <;> omega
      rcases chosen' with ⟨inline, below⟩ | ⟨isPower, larger⟩
      · rcases moveFromOldBuckets_spec
          (s := { s with Small := true, Buckets := T.rawBuckets InlineBuckets })
          (show j <= 30 by omega) (by rw [length_rawBuckets, power]) settled.holds
          (by omega) with ⟨s', run, settled', entries, tombstones, _⟩
        refine ⟨s', j, ?_, settled', fun InlineBuckets' same _ => ?_, by omega,
          entries.trans length, tombstones⟩
        · simp only [SmallDenseMap_grow, flag, Bool.false_eq_true, if_false, if_pos inline,
            bind_eq_bind, bind_some, run]
        · rw [derived] at same
          injection same with same
          rw [settled'.table.size, <- same, power]
      · rcases moveFromOldBuckets_spec
          (s := { s with Buckets := T.rawBuckets (2 ^ K) }) small (length_rawBuckets _)
          settled.holds (by omega) with ⟨s', run, settled', entries, tombstones, flag'⟩
        refine ⟨s', K, ?_, settled', large (flag'.trans flag), enough, entries.trans length,
          tombstones⟩
        rw [flag] at run
        simp only [SmallDenseMap_grow, flag, Bool.false_eq_true, if_false, isPower,
          if_neg (show ¬2 ^ K <= InlineBuckets by omega), allocateBuckets, assert_true larger,
          bind_eq_bind, bind_some, run]

/-- The growth that is asserted not to happen has no result. -/
theorem Settled.grow_fails (settled : T.Settled s m k) (shaped : T.Shaped s)
    (above : 2 ^ k <= AtLeast) (bound : AtLeast <= 2 ^ 30) (fails : T.GrowFails s AtLeast) :
    T.grow AtLeast s = none := by
  rcases fails with ⟨ndebug, InlineBuckets, derived, flag, notLarger⟩
  have inline := shaped InlineBuckets derived flag
  have size := settled.table.size
  have room := settled.room
  have length := settled.length_entries
  rcases growSize_spec (show 0 < AtLeast by have := Nat.two_pow_pos k; omega) bound with
    ⟨K, _, chosen, enough, _⟩
  have compacted := moveInline_spec InlineBuckets []
    settled.table.constructed (by rw [nil_append]; omega)
  have refused : T.assert (growSize AtLeast > InlineBuckets) = none := by
    apply if_neg
    rintro (isNdebug | larger)
    · rw [ndebug] at isNdebug
      cases isNdebug
    · omega
  rw [map_nil, nil_append] at compacted
  simp only [grow, derived, SmallDenseMap_grow, flag, if_true,
    if_pos (show AtLeast >= InlineBuckets by omega),
    if_neg (show ¬growSize AtLeast < InlineBuckets by omega), compacted, allocateBuckets, refused,
    bind_eq_bind, bind_some, bind_none]

/-- A `DenseMap` without a table gets one. -/
theorem Unallocated.grow_spec (unallocated : T.Unallocated s m) (bound : AtLeast <= 2 ^ 30) :
    ∃ s' K, T.grow AtLeast s = some s' ∧ T.Settled s' m K ∧ T.Shaped s' ∧ AtLeast <= 2 ^ K ∧
      1 < 2 ^ K ∧ s'.NumEntries = 0 ∧ s'.NumTombstones = 0 := by
  have chosen : ∃ K ≤ 30, growSize AtLeast = 2 ^ K ∧ AtLeast <= 2 ^ K := by
    by_cases pos : 0 < AtLeast
    · rcases growSize_spec pos bound with ⟨K, small, chosen, enough, _⟩
      exact ⟨K, small, chosen, enough⟩
    · rw [Nat.eq_zero_of_not_pos pos]
      exact ⟨6, by omega, by decide +kernel, by omega⟩
  rcases chosen with ⟨K, small, chosen, enough⟩
  have wide : 1 < 2 ^ K := by
    have floor : 64 <= growSize AtLeast := le_max_left _ _
    omega
  rcases initEmpty_spec (T := T) (s := { s with Buckets := T.rawBuckets (2 ^ K) }) small
    (length_rawBuckets _) with ⟨s', run, fresh⟩
  rcases initEmpty_settled (T := T) (s := { s with Buckets := T.rawBuckets (2 ^ K) }) small
    (length_rawBuckets _) with ⟨s'', run', settled, _⟩
  rw [run] at run'
  rw [<- Option.some.inj run', <- unallocated.contents] at settled
  refine ⟨s', K, ?_, settled, fun InlineBuckets isSmall => ?_, enough, wide, fresh.entries,
    fresh.tombstones⟩
  · simp only [grow, unallocated.derived, DenseMap_grow, unallocated.buckets, if_true, chosen, run]
  · rw [unallocated.derived] at isSmall
    cases isSmall

/-! ## `shrink_and_clear` -/

theorem DenseMap_shrinkSize_spec {OldNumEntries : Nat} (small : OldNumEntries <= 2 ^ 29) :
    ∃ Num, DenseMap_shrinkSize OldNumEntries = some Num ∧ (Num = 0 ∨ TableSize Num) := by
  by_cases zero : OldNumEntries = 0
  · exact ⟨0, if_neg (not_not.mpr zero), .inl rfl⟩
  · rcases shiftOne_spec zero small with ⟨c, bound, shifted⟩
    rw [DenseMap_shrinkSize, if_pos zero, shifted, map_some]
    exact ⟨_, rfl, .inr (max_64 bound)⟩

theorem SmallDenseMap_shrinkSize_spec {OldSize : Nat} (InlineBuckets : Nat)
    (small : OldSize <= 2 ^ 29) :
    ∃ Num, SmallDenseMap_shrinkSize InlineBuckets OldSize = some Num ∧ (Num = 0 ∨ TableSize Num) := by
  by_cases zero : OldSize = 0
  · exact ⟨0, if_neg (not_not.mpr zero), .inl rfl⟩
  · rcases shiftOne_spec zero small with ⟨c, bound, shifted⟩
    rw [SmallDenseMap_shrinkSize, if_pos zero, shifted]
    by_cases widened : 2 ^ c > InlineBuckets ∧ 2 ^ c < 64
    · exact ⟨64, by simp [widened], .inr ⟨6, by omega, rfl⟩⟩
    · exact ⟨2 ^ c, by simp only [bind_eq_bind, bind_some, if_neg widened], .inr ⟨c, bound, rfl⟩⟩

theorem Settled.shrink_and_clear_spec (settled : T.Settled s m k) (shaped : T.Shaped s)
    (valid : T.Valid) (few : k < 30) :
    ∃ s', T.shrink_and_clear s = some s' ∧ T.Refines s' fun _ => none := by
  have bound : 2 ^ k <= 2 ^ 29 := Nat.pow_le_pow_right (by omega) (by omega)
  have room := settled.room
  have size : (T.destroyAll s).Buckets.length = 2 ^ k := by
    rw [destroyAll, length_rawBuckets, settled.size]
  rcases initEmpty_settled (T := T) settled.small size with ⟨s', run, settled', flag⟩
  have again : T.Shaped s' := by
    intro InlineBuckets derived isSmall
    rw [settled'.table.size, <- settled.table.size]
    exact shaped InlineBuckets derived (flag ▸ isSmall)
  have numBuckets : (T.destroyAll s).getNumBuckets = 2 ^ k := size
  rw [shrink_and_clear]
  cases derived : T.derived with
  | denseMap =>
    rcases DenseMap_shrinkSize_spec (show s.NumEntries <= 2 ^ 29 by omega) with
      ⟨Num, chosen, sized⟩
    simp only [DenseMap_shrink_and_clear, chosen, bind_eq_bind, bind_some, numBuckets]
    by_cases same : Num = 2 ^ k
    · rw [if_pos same]
      exact ⟨s', run, .inr ⟨k, settled', again⟩⟩
    · rw [if_neg same]
      have made := init_spec valid Num
        (by simp only [InitialSize, derived]; exact sized) (T.destroyAll s)
      simp only [init, derived] at made
      exact made
  | smallDenseMap InlineBuckets =>
    rcases SmallDenseMap_shrinkSize_spec InlineBuckets
      (show s.NumEntries <= 2 ^ 29 by omega) with ⟨Num, chosen, sized⟩
    simp only [SmallDenseMap_shrink_and_clear, chosen, bind_eq_bind, bind_some]
    split
    · exact ⟨s', run, .inr ⟨k, settled', again⟩⟩
    · have made := init_spec valid Num
        (by
          simp only [InitialSize, derived]
          exact sized.imp_left fun zero => by omega) (T.destroyAll s)
      simp only [init, derived] at made
      exact made

theorem Refines.shrink_and_clear_spec (refines : T.Refines s m) (valid : T.Valid)
    (few : s.getNumBuckets < 2 ^ 30) :
    ∃ s', T.shrink_and_clear s = some s' ∧ T.Refines s' fun _ => none := by
  rcases refines with unallocated | ⟨k, settled, shaped⟩
  · have none : (T.destroyAll s).Buckets = [] := by
      rw [destroyAll, DenseMapBase.getNumBuckets, unallocated.buckets]
      rfl
    have numBuckets : (T.destroyAll s).getNumBuckets = 0 := by
      rw [DenseMapBase.getNumBuckets, none, length_nil]
    refine ⟨{ T.destroyAll s with NumEntries := 0, NumTombstones := 0 }, ?_,
      .inl ⟨unallocated.derived, none, rfl, rfl, rfl⟩⟩
    simp only [shrink_and_clear, unallocated.derived, DenseMap_shrink_and_clear,
      DenseMap_shrinkSize, unallocated.entries, numBuckets, bind_eq_bind, bind_some,
      ne_eq, not_true_eq_false, if_false, if_true, initEmpty, setNumEntries]
    rw [none]
    simp [assert, DenseMapBase.getNumBuckets]
  · rw [settled.size, Nat.pow_lt_pow_iff_right (by omega)] at few
    exact settled.shrink_and_clear_spec shaped valid few

end Instance
end DenseMap
end LlvmProject
