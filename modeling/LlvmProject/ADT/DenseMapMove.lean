import LlvmProject.ADT.DenseMap

namespace LlvmProject

open List Option

namespace DenseMap
namespace Instance

/-!
# Moving the entries of a dense map

`moveFromOldBuckets` empties the new table and inserts the entries of the old
buckets one by one.  Where the old buckets are does not matter, only which entries
they hold: the inline buckets are first compacted into temporary storage.
-/

open Unsigned QuadraticProbing MathExtras

variable {κ ν : Type} [DecidableEq κ] {T : Instance κ} {Buckets : List (Bucket κ ν)}
  {s : DenseMapBase κ ν} {B : Bucket κ ν} {m : κ -> Option ν} {k K b i t : Nat} {Val key : κ}
  {value : ν}

/-! ## The entries of an array -/

/-- The entry of a bucket. -/
def entryOf (T : Instance κ) (B : Bucket κ ν) : Option (κ × ν) :=
  if T.IsLive B.first then B.second.map fun value => (B.first, value) else none

def entriesOf (T : Instance κ) (Buckets : List (Bucket κ ν)) : List (κ × ν) :=
  Buckets.filterMap T.entryOf

theorem entryOf_eq_some : T.entryOf B = some (key, value) ↔ T.slot B = .live key value := by
  rw [slot_eq_live, entryOf]
  constructor
  · intro found
    by_cases live : T.IsLive B.first
    · rw [if_pos live] at found
      rcases map_eq_some_iff.mp found with ⟨v, second, same⟩
      injection same with sameKey sameValue
      rw [<- sameKey, <- sameValue, <- second]
      exact ⟨live, rfl⟩
    · rw [if_neg live] at found
      cases found
  · rintro ⟨live, rfl⟩
    rw [if_pos live, map_some]

theorem isSome_entryOf (T : Instance κ) (B : Bucket κ ν) :
    (T.entryOf B).isSome = (T.slot B).isLive := by
  rw [Bool.eq_iff_iff, isSome_iff_exists, Slot.isLive_iff]
  constructor
  · rintro ⟨⟨key, value⟩, found⟩
    exact ⟨key, value, entryOf_eq_some.mp found⟩
  · rintro ⟨key, value, live⟩
    exact ⟨(key, value), entryOf_eq_some.mpr live⟩

theorem slots_eq_live : T.slots Buckets b = .live key value ↔
    ∃ B, Buckets[b]? = some B ∧ T.slot B = .live key value := by
  constructor
  · intro live
    cases found : Buckets[b]? with
    | none =>
      rw [slots, found] at live
      cases live
    | some B => exact ⟨B, rfl, slots_of_get found ▸ live⟩
  · rintro ⟨B, found, live⟩
    exact (slots_of_get found).trans live

theorem mem_entriesOf : (key, value) ∈ T.entriesOf Buckets ↔
    ∃ b < Buckets.length, T.slots Buckets b = .live key value := by
  rw [entriesOf, mem_filterMap]
  constructor
  · rintro ⟨B, mem, found⟩
    rcases getElem?_of_mem mem with ⟨b, here⟩
    exact ⟨b, (List.getElem?_eq_some_iff.mp here).1,
      slots_eq_live.mpr ⟨B, here, entryOf_eq_some.mp found⟩⟩
  · rintro ⟨b, _, live⟩
    rcases slots_eq_live.mp live with ⟨B, here, found⟩
    exact ⟨B, mem_of_getElem? here, entryOf_eq_some.mpr found⟩

theorem count_slots (Buckets : List (Bucket κ ν)) (kind : Slot κ ν -> Bool) :
    count Buckets.length (T.slots Buckets) kind = Buckets.countP fun B => kind (T.slot B) := by
  induction Buckets using reverseRecOn with
  | nil => rfl
  | append_singleton Buckets B ih =>
    have before : ∀ b < Buckets.length, T.slots (Buckets ++ [B]) b = T.slots Buckets b := by
      intro b less
      rw [slots, getElem?_append_left less, slots]
    have last : T.slots (Buckets ++ [B]) Buckets.length = T.slot B := by
      rw [slots, getElem?_append_right (le_refl _), Nat.sub_self]
      rfl
    rw [length_append, length_singleton, count_succ, count_congr before, last,
      ih, countP_append, countP_singleton]

theorem length_entriesOf (T : Instance κ) (Buckets : List (Bucket κ ν)) :
    (T.entriesOf Buckets).length = count Buckets.length (T.slots Buckets) Slot.isLive := by
  rw [count_slots, entriesOf, length_filterMap_eq_countP]
  apply countP_congr
  intro B _
  rw [isSome_entryOf]

theorem Table.distinct_entries (table : T.Table k Buckets) :
    (T.entriesOf Buckets).Pairwise fun e e' => e.1 ≠ e'.1 := by
  rw [entriesOf, pairwise_filterMap, pairwise_iff_getElem]
  intro i j insideI insideJ before e foundE e' foundE' same
  have liveI : T.slots Buckets i = .live e.1 e.2 :=
    slots_eq_live.mpr ⟨_, getElem?_eq_getElem insideI, entryOf_eq_some.mp foundE⟩
  have liveJ : T.slots Buckets j = .live e.1 e'.2 := by
    rw [same]
    exact slots_eq_live.mpr ⟨_, getElem?_eq_getElem insideJ, entryOf_eq_some.mp foundE'⟩
  have equal := table.placed.unique i (table.size ▸ insideI) j (table.size ▸ insideJ) _ _ _
    liveI liveJ
  omega

/-! ## Counters -/

omit [DecidableEq κ] in
theorem setNumEntries_eq {Num : Nat} (small : Num < 2 ^ 31 - 1) :
    T.setNumEntries Num s = some { s with NumEntries := Num } := by
  rw [setNumEntries]
  cases T.derived with
  | denseMap => rfl
  | smallDenseMap InlineBuckets =>
    simp only [assert_true small, bind_eq_bind, bind_some,
      Nat.mod_eq_of_lt (show Num < 2 ^ 31 by omega)]

/-! ## Storing an entry -/

theorem Table.store_entry (table : T.Table k Buckets) (isLive : T.IsLive key)
    (available : Available (2 ^ k) (T.slots Buckets) (T.start key) t)
    (absent : ∀ c < 2 ^ k, ∀ v, T.slots Buckets c ≠ .live key v) (value : ν) :
    T.Table k (Buckets.set t ⟨key, some value⟩) where
  size := by rw [length_set, table.size]
  constructed := by
    intro B mem live
    rcases mem_or_eq_of_mem_set mem with old | new
    · exact table.constructed B old live
    · exact ⟨value, by rw [new]⟩
  placed := by
    rw [slots_set _ (table.inside available.inside), slot_live isLive]
    exact table.placed.insert available absent value

/-- The map after an entry is stored for an absent key. -/
def inserted (T : Instance κ) (s : DenseMapBase κ ν) (t : Nat) (key : κ) (value : ν) :
    DenseMapBase κ ν where
  Small := s.Small
  Buckets := s.Buckets.set t ⟨key, some value⟩
  NumEntries := s.NumEntries + 1
  NumTombstones := s.NumTombstones - if (T.slots s.Buckets t).isTombstone then 1 else 0

theorem Settled.inserted (settled : T.Settled s m k) (isLive : T.IsLive key) (available : Available
    (2 ^ k) (T.slots s.Buckets) (T.start key) t) (absent : ∀ c < 2 ^ k, ∀ v, T.slots s.Buckets c ≠
    .live key v) (value : ν) (room : s.NumEntries + 1 + s.NumTombstones < 2 ^ k) :
    T.Settled (T.inserted s t key value) (Function.update m key (some value)) k := by
  have newSlots := slots_set (T := T) ⟨key, some value⟩ (settled.table.inside available.inside)
  rw [slot_live isLive] at newSlots
  have dead : (T.slots s.Buckets t).isLive = false ∧ ∀ k' v, T.slots s.Buckets t ≠ .live k' v := by
    rcases available.unused with empty | tombstone
    · rw [empty]
      exact ⟨rfl, fun k' v live => by cases live⟩
    · rw [tombstone]
      exact ⟨rfl, fun k' v live => by cases live⟩
  have liveCount := count_update (T.slots s.Buckets) (.live key value) Slot.isLive
    available.inside
  have tombstoneCount := count_update (T.slots s.Buckets) (.live key value) Slot.isTombstone
    available.inside
  rw [dead.1] at liveCount
  have noTombstone : (Slot.live key value : Slot κ ν).isTombstone = false := rfl
  rw [noTombstone] at tombstoneCount
  simp only [Slot.isLive, Bool.false_eq_true, if_false, if_true] at liveCount
  simp only [Bool.false_eq_true, if_false] at tombstoneCount
  exact {
    small := settled.small
    table := settled.table.store_entry isLive available absent value
    represents := by
      rw [Instance.inserted, newSlots]
      apply settled.represents.insert available.inside
      · exact fun k' v live => absurd live (dead.2 k' v)
      · exact fun c inside _ v => absent c inside v
    entries := by
      rw [Instance.inserted, newSlots, settled.entries]
      exact liveCount.symm
    tombstones := by
      rw [Instance.inserted, newSlots, settled.tombstones]
      show _ - (if (T.slots s.Buckets t).isTombstone = true then 1 else 0) = _
      omega
    room := by
      simp only [Instance.inserted]
      omega }

/-! ## Moving -/

/-- What stays when entries are inserted one by one into a fresh table. -/
structure Moved (T : Instance κ) (moved : List (κ × ν)) (Small : Bool) (K : Nat)
    (s : DenseMapBase κ ν) : Prop where
  settled : ∃ m, T.Settled s m K ∧ ∀ key value, m key = some value ↔ (key, value) ∈ moved
  entries : s.NumEntries = moved.length
  tombstones : s.NumTombstones = 0
  small : s.Small = Small

theorem power_of_two (small : k <= 30) : 2 ^ k &&& wrapSub (2 ^ k) 1 = 0 := by
  rw [and_sub_one _ (by omega), Nat.mod_self]

/-- A fresh table has no entries. -/
theorem initEmpty_spec (small : K <= 30) (size : s.Buckets.length = 2 ^ K) :
    ∃ s', T.initEmpty s = some s' ∧ T.Moved [] s.Small K s' := by
  have power : s.Buckets.length &&& wrapSub s.Buckets.length 1 = 0 := by
    rw [size]
    exact power_of_two small
  have asserted : T.assert (({ s with NumEntries := 0 }).getNumBuckets &&&
      wrapSub ({ s with NumEntries := 0 }).getNumBuckets 1 = 0) = some () := assert_true power
  have unused : T.slots (s.Buckets.map fun B => { B with first := T.getEmptyKey }) =
      fun _ => .empty := by
    funext b
    rw [slots, getElem?_map]
    cases s.Buckets[b]? with
    | none => rfl
    | some B => exact slot_empty rfl
  refine ⟨{ s with
    NumEntries := 0
    NumTombstones := 0
    Buckets := s.Buckets.map fun B => { B with first := T.getEmptyKey } }, ?_, ?_⟩
  · rw [initEmpty, setNumEntries_eq (by omega)]
    simp only [bind_eq_bind, bind_some, asserted]
  · exact {
      settled := by
        refine ⟨fun _ => none, ?_, fun key value => by simp⟩
        exact {
          small := small
          table := {
            size := by rw [length_map, size]
            constructed := by
              intro B mem live
              rcases mem_map.mp mem with ⟨old, _, rfl⟩
              exact absurd rfl live.1
            placed := by
              rw [unused]
              exact placed_empty _ _ }
          represents := by
            rw [unused]
            exact represents_empty _
          entries := by
            rw [unused]
            exact (count_eq_zero fun _ _ => rfl).symm
          tombstones := by
            rw [unused]
            exact (count_eq_zero fun _ _ => rfl).symm
          room := Nat.two_pow_pos K }
      entries := rfl
      tombstones := rfl
      small := rfl }

theorem moveBucket_skip (constructed : T.IsLive B.first -> ∃ value, B.second = some value)
    (unused : T.entryOf B = none) : T.moveBucket s B = some s := by
  have dead : ¬T.IsLive B.first := by
    intro live
    rcases constructed live with ⟨value, second⟩
    rw [entryOf, if_pos live, second] at unused
    cases unused
  rw [moveBucket, if_neg dead]

theorem moveBucket_live {Small : Bool} {moved : List (κ × ν)} (done : T.Moved moved Small K s)
    (entry : T.entryOf B = some (key, value)) (absent : ∀ e ∈ moved, e.1 ≠ key)
    (room : moved.length + 1 < 2 ^ K) :
    ∃ s', T.moveBucket s B = some s' ∧ T.Moved (moved ++ [(key, value)]) Small K s' := by
  rcases done.settled with ⟨m, settled, contents⟩
  rcases slot_eq_live.mp (entryOf_eq_some.mp entry) with ⟨isLive, rfl⟩
  have bound := pow_small settled.small
  have items := done.entries
  have clean := done.tombstones
  rcases settled.LookupBucketFor_spec isLive with ⟨b, _, v, known, _⟩ |
    ⟨t, unknown, nowhere, available, run⟩
  · exact absurd rfl (absent _ ((contents key v).mp known))
  · have settled' := settled.inserted isLive available nowhere value (by omega)
    have stored := store_eq (B := ⟨key, some value⟩) (settled.table.inside available.inside)
    have counted : wrapAdd s.NumEntries 1 = s.NumEntries + 1 := wrapAdd_of_lt (by omega)
    have noTombstones : T.inserted s t key value =
        { s with
          Buckets := s.Buckets.set t ⟨key, some value⟩
          NumEntries := s.NumEntries + 1 } := by
      rw [inserted, clean, Nat.zero_sub]
    refine ⟨T.inserted s t key value, ?_, ?_⟩
    · simp only [moveBucket, if_pos isLive, run, assert_true, bind_eq_bind,
        bind_some, stored, incrementNumEntries, counted]
      rw [setNumEntries_eq (by omega), noTombstones]
    · refine ⟨⟨_, settled', fun k' v => ?_⟩, ?_, ?_, done.small⟩
      · rw [mem_append, mem_singleton, <- contents k' v]
        by_cases same : k' = key
        · subst same
          rw [Function.update_self, Option.some.injEq]
          constructor
          · exact fun equal => .inr (by rw [equal])
          · rintro (known | equal)
            · rw [unknown] at known
              cases known
            · injection equal with _ equal
              exact equal.symm
        · rw [Function.update_of_ne same]
          constructor
          · exact .inl
          · rintro (known | equal)
            · exact known
            · injection equal with equal
              exact absurd equal same
      · rw [length_append, length_singleton, inserted, items]
      · rw [noTombstones]
        exact clean

/-- The old buckets may hold any entries that have different keys and fit. -/
theorem moveBuckets {Small : Bool} {moved : List (κ × ν)} (done : T.Moved moved Small K s)
    (constructed : ∀ B ∈ Buckets, T.IsLive B.first -> ∃ value, B.second = some value)
    (distinct : (moved ++ T.entriesOf Buckets).Pairwise fun e e' => e.1 ≠ e'.1)
    (room : (moved ++ T.entriesOf Buckets).length < 2 ^ K) :
    ∃ s', Buckets.foldlM T.moveBucket s = some s' ∧
      T.Moved (moved ++ T.entriesOf Buckets) Small K s' := by
  induction Buckets generalizing s moved with
  | nil =>
    refine ⟨s, rfl, ?_⟩
    rw [entriesOf, filterMap_nil, append_nil]
    exact done
  | cons B rest ih =>
    have others := fun B' mem => constructed B' (mem_cons_of_mem B mem)
    cases entry : T.entryOf B with
    | none =>
      have same : T.entriesOf (B :: rest) = T.entriesOf rest := filterMap_cons_none entry
      have step := moveBucket_skip (s := s) (constructed B mem_cons_self) entry
      rw [same] at distinct room ⊢
      rcases ih done others distinct room with ⟨s', run, done'⟩
      refine ⟨s', ?_, done'⟩
      rw [foldlM_cons, step, bind_eq_bind, bind_some, run]
    | some e =>
      have same : moved ++ T.entriesOf (B :: rest) = moved ++ [e] ++ T.entriesOf rest := by
        rw [entriesOf, filterMap_cons_some entry, entriesOf, append_assoc, singleton_append]
      rw [same] at distinct room ⊢
      have absent : ∀ e' ∈ moved, e'.1 ≠ e.1 := fun e' mem =>
        (pairwise_append.mp (pairwise_append.mp distinct).1).2.2 e' mem e
          (mem_singleton_self e)
      have few : moved.length + 1 < 2 ^ K := by
        rw [length_append, length_append, length_singleton] at room
        omega
      rcases moveBucket_live done (show T.entryOf B = some (e.1, e.2) from entry) absent few with
        ⟨s₁, step, done₁⟩
      rcases ih done₁ others distinct room with ⟨s', run, done'⟩
      refine ⟨s', ?_, done'⟩
      rw [foldlM_cons, step, bind_eq_bind, bind_some, run]

/-- The entries of an array of buckets. -/
structure Holds (T : Instance κ) (Buckets : List (Bucket κ ν)) (m : κ -> Option ν) : Prop where
  constructed : ∀ B ∈ Buckets, T.IsLive B.first -> ∃ value, B.second = some value
  distinct : (T.entriesOf Buckets).Pairwise fun e e' => e.1 ≠ e'.1
  contents : ∀ key value, m key = some value ↔ (key, value) ∈ T.entriesOf Buckets

theorem moveFromOldBuckets_spec {OldBuckets : List (Bucket κ ν)} (small : K <= 30)
    (size : s.Buckets.length = 2 ^ K) (holds : T.Holds OldBuckets m)
    (room : (T.entriesOf OldBuckets).length < 2 ^ K) :
    ∃ s', T.moveFromOldBuckets OldBuckets s = some s' ∧ T.Settled s' m K ∧
      s'.NumEntries = (T.entriesOf OldBuckets).length ∧ s'.NumTombstones = 0 ∧
      s'.Small = s.Small := by
  rcases initEmpty_spec (T := T) small size with ⟨s₁, begun, empty⟩
  rcases moveBuckets empty holds.constructed holds.distinct room with ⟨s', run, done⟩
  rcases done.settled with ⟨m', settled, contents⟩
  have same : m' = m := by
    funext key
    apply Option.ext
    intro value
    exact (contents key value).trans (holds.contents key value).symm
  refine ⟨s', ?_, same ▸ settled, done.entries, done.tombstones, done.small⟩
  rw [moveFromOldBuckets, begun, bind_eq_bind, bind_some, run]

theorem Settled.holds (settled : T.Settled s m k) : T.Holds s.Buckets m where
  constructed := settled.table.constructed
  distinct := settled.table.distinct_entries
  contents := by
    intro key value
    rw [mem_entriesOf, settled.table.size]
    exact settled.represents key value

theorem Settled.length_entries (settled : T.Settled s m k) :
    (T.entriesOf s.Buckets).length = s.NumEntries := by
  rw [length_entriesOf, settled.table.size, settled.entries]

/-! ## Temporary storage -/

/-- The bucket that has an entry. -/
def bucketOf (e : κ × ν) : Bucket κ ν := ⟨e.1, some e.2⟩

theorem entriesOf_bucketOf (entries : List (κ × ν)) (live : ∀ e ∈ entries, T.IsLive e.1) :
    T.entriesOf (entries.map bucketOf) = entries := by
  rw [entriesOf, filterMap_map]
  calc entries.filterMap (T.entryOf ∘ bucketOf)
      = entries.filterMap some := filterMap_congr fun e mem =>
        entryOf_eq_some.mpr (slot_live (live e mem))
    _ = entries := filterMap_some

theorem mem_entriesOf_live {e : κ × ν} (mem : e ∈ T.entriesOf Buckets) : T.IsLive e.1 := by
  rcases mem_entriesOf.mp mem with ⟨b, _, live⟩
  rcases slots_eq_live.mp live with ⟨B, _, slot⟩
  exact (slot_eq_live.mp slot).1

theorem moveInline_spec (InlineBuckets : Nat) (Tmp : List (κ × ν))
    (constructed : ∀ B ∈ Buckets, T.IsLive B.first -> ∃ value, B.second = some value)
    (room : (Tmp ++ T.entriesOf Buckets).length <= InlineBuckets) :
    Buckets.foldlM (T.moveInline InlineBuckets) (Tmp.map bucketOf) =
      some ((Tmp ++ T.entriesOf Buckets).map bucketOf) := by
  induction Buckets generalizing Tmp with
  | nil => rw [entriesOf, filterMap_nil, append_nil]; rfl
  | cons B rest ih =>
    have others := fun B' mem => constructed B' (mem_cons_of_mem B mem)
    by_cases live : T.IsLive B.first
    · rcases constructed B mem_cons_self live with ⟨value, second⟩
      have entry : T.entryOf B = some (B.first, value) := by
        rw [entryOf, if_pos live, second, map_some]
      have same : Tmp ++ T.entriesOf (B :: rest) =
          (Tmp ++ [(B.first, value)]) ++ T.entriesOf rest := by
        rw [entriesOf, filterMap_cons_some entry, entriesOf, append_assoc, singleton_append]
      rw [same] at room ⊢
      have few : (Tmp.map bucketOf).length < InlineBuckets := by
        rw [length_append, length_append, length_singleton] at room
        rw [length_map]
        omega
      rw [foldlM_cons, moveInline, if_pos live, assert_true few, second,
        <- ih _ others room, map_append]
      rfl
    · have entry : T.entryOf B = none := by rw [entryOf, if_neg live]
      have same : T.entriesOf (B :: rest) = T.entriesOf rest := filterMap_cons_none entry
      rw [same] at room ⊢
      rw [foldlM_cons, moveInline, if_neg live, bind_eq_bind, bind_some, ih _ others room]

theorem Holds.bucketOf (holds : T.Holds Buckets m) :
    T.Holds ((T.entriesOf Buckets).map bucketOf) m := by
  have same := entriesOf_bucketOf (T.entriesOf Buckets) fun e mem => mem_entriesOf_live mem
  refine ⟨?_, ?_, ?_⟩
  · intro B mem _
    rcases mem_map.mp mem with ⟨e, _, rfl⟩
    exact ⟨e.2, rfl⟩
  · rw [same]
    exact holds.distinct
  · rw [same]
    exact holds.contents

end Instance
end DenseMap
end LlvmProject
