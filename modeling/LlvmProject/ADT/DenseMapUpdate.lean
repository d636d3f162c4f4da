import LlvmProject.ADT.DenseMapGrow
import LlvmProject.Library.Runs

namespace LlvmProject

open List Option Bool Function

namespace DenseMap
namespace Instance

/-!
# Changing a dense map

What insertions, removals and `clear` do to a map that refines an abstract one.  An
insertion grows the table first if too few buckets would be left empty, so that it
has room for the entry and an empty bucket besides.
-/

open Unsigned QuadraticProbing

variable {κ ν : Type} [DecidableEq κ] {T : Instance κ} {s : DenseMapBase κ ν}
  {m : κ -> Option ν} {k b t : Nat} {key : κ} {value : ν}

/-! ## Insertions -/

/-- The insertions that the code asserts not to happen: a small map of 64 inline
buckets or more has too few buckets left but is not full. -/
def InsertFails (T : Instance κ) (s : DenseMapBase κ ν) : Prop :=
  T.NDEBUG = false ∧ ∃ InlineBuckets, T.derived = .smallDenseMap InlineBuckets ∧
    64 <= InlineBuckets ∧ s.Small = true ∧ (s.NumEntries + 1) * 4 < s.getNumBuckets * 3 ∧
    s.getNumBuckets - (s.NumEntries + 1 + s.NumTombstones) <= s.getNumBuckets / 8

/-- A table with a bucket for the next entry, and an empty one besides. -/
structure Ready (T : Instance κ) (s : DenseMapBase κ ν) (m : κ -> Option ν) (key : κ)
    (t k : Nat) : Prop where
  settled : T.Settled s m k
  shaped : T.Shaped s
  available : Available (2 ^ k) (T.slots s.Buckets) (T.start key) t
  absent : ∀ b < 2 ^ k, ∀ v, T.slots s.Buckets b ≠ .live key v
  room : s.NumEntries + 1 + s.NumTombstones < 2 ^ k

section

variable (settled : T.Settled s m k)
include settled

theorem Settled.ready (shaped : T.Shaped s) (isLive : T.IsLive key)
    (unknown : m key = none) (room : s.NumEntries + 1 + s.NumTombstones < 2 ^ k) :
    ∃ t, T.LookupBucketFor key s = some (some t, false) ∧ T.Ready s m key t k := by
  rcases settled.LookupBucketFor_spec isLive with ⟨b, _, v, known, _⟩ |
    ⟨t, _, absent, available, run⟩
  · rw [unknown] at known
    cases known
  · exact ⟨t, run, settled, shaped, available, absent, room⟩

theorem Settled.growFails_iff (shaped : T.Shaped s) :
    T.GrowFails s (2 ^ k) ↔ T.NDEBUG = false ∧ ∃ InlineBuckets,
      T.derived = .smallDenseMap InlineBuckets ∧ 64 <= InlineBuckets ∧ s.Small = true := by
  have pos := Nat.two_pow_pos k
  rcases growSize_spec pos (pow_small settled.small) with ⟨K, _, chosen, _, least⟩
  have floor : 64 <= growSize (2 ^ k) := le_max_left _ _
  constructor
  · rintro ⟨ndebug, InlineBuckets, derived, flag, notLarger⟩
    exact ⟨ndebug, InlineBuckets, derived, by omega, flag⟩
  · rintro ⟨ndebug, InlineBuckets, derived, large, flag⟩
    have inline := shaped InlineBuckets derived flag
    rw [settled.table.size] at inline
    have six : 6 <= k := (Nat.pow_le_pow_iff_right (show 1 < 2 by omega)).mp (by omega)
    have power : 2 ^ K <= 2 ^ k := Nat.pow_le_pow_right (by omega) (least k six (le_refl _))
    exact ⟨ndebug, InlineBuckets, derived, flag, by omega⟩

theorem Settled.growForInsertion_spec (shaped : T.Shaped s) (valid : T.Valid)
    (few : k < 30) (isLive : T.IsLive key) (unknown : m key = none) (works : ¬T.InsertFails s)
    {TheBucket : Option Nat} (found : T.LookupBucketFor key s = some (TheBucket, false)) :
    ∃ t s' k', T.growForInsertion key TheBucket s = some (some t, s') ∧ T.Ready s' m key t k' := by
  have bound : 2 ^ k <= 2 ^ 29 := Nat.pow_le_pow_right (by omega) (by omega)
  have room := settled.room
  have size := settled.size
  have next : wrapAdd s.NumEntries 1 = s.NumEntries + 1 := wrapAdd_of_lt (by omega)
  have fourfold : wrapMul (s.NumEntries + 1) 4 = (s.NumEntries + 1) * 4 := wrapMul_of_lt (by omega)
  have threefold : wrapMul (2 ^ k) 3 = 2 ^ k * 3 := wrapMul_of_lt (by omega)
  have doubled : wrapMul (2 ^ k) 2 = 2 ^ k * 2 := wrapMul_of_lt (by omega)
  have sum : wrapAdd (s.NumEntries + 1) s.NumTombstones = s.NumEntries + 1 + s.NumTombstones :=
    wrapAdd_of_lt (by omega)
  have left : wrapSub (2 ^ k) (s.NumEntries + 1 + s.NumTombstones) =
      2 ^ k - (s.NumEntries + 1 + s.NumTombstones) := wrapSub_of_le (by omega) (by omega)
  simp only [growForInsertion, size, next, fourfold, threefold, doubled, sum, left]
  by_cases loaded : (s.NumEntries + 1) * 4 >= 2 ^ k * 3
  · have notFailing : ¬T.GrowFails s (2 ^ k * 2) := by
      rintro ⟨_, InlineBuckets, derived, flag, notLarger⟩
      have inline := shaped InlineBuckets derived flag
      have pos := Nat.two_pow_pos k
      rcases growSize_spec (show 0 < 2 ^ k * 2 by omega) (by omega) with ⟨K, _, chosen, enough, _⟩
      rw [settled.table.size] at inline
      omega
    rcases settled.grow_spec shaped valid (show 2 ^ k <= 2 ^ k * 2 by omega) (by omega) notFailing
      with ⟨s', K, grown, settled', shaped', enough, entries, tombstones⟩
    rcases settled'.ready shaped' isLive unknown (by omega) with ⟨t, run, ready⟩
    refine ⟨t, s', K, ?_, ready⟩
    simp only [if_pos loaded, grown, run, bind_eq_bind, bind_some]
  · rw [if_neg loaded]
    by_cases scarce : 2 ^ k - (s.NumEntries + 1 + s.NumTombstones) <= 2 ^ k / 8
    · have notFailing : ¬T.GrowFails s (2 ^ k) := by
        rw [settled.growFails_iff shaped]
        rintro ⟨ndebug, InlineBuckets, derived, large, flag⟩
        exact works ⟨ndebug, InlineBuckets, derived, large, flag, by rw [size]; omega,
          by rw [size]; exact scarce⟩
      rcases settled.grow_spec shaped valid (le_refl _) (by omega) notFailing with
        ⟨s', K, grown, settled', shaped', enough, entries, tombstones⟩
      rcases settled'.ready shaped' isLive unknown (by omega) with ⟨t, run, ready⟩
      refine ⟨t, s', K, ?_, ready⟩
      simp only [if_pos scarce, grown, run, bind_eq_bind, bind_some]
    · rcases settled.ready shaped isLive unknown (by omega) with ⟨t, run, ready⟩
      rw [found] at run
      injection Option.some.inj run with same
      exact ⟨t, s, k, by rw [if_neg scarce, same], ready⟩

end

theorem Unallocated.growForInsertion_spec (unallocated : T.Unallocated s m)
    (isLive : T.IsLive key) :
    ∃ t s' k', T.growForInsertion key none s = some (some t, s') ∧ T.Ready s' m key t k' := by
  have size : s.getNumBuckets = 0 := by
    rw [DenseMapBase.getNumBuckets, unallocated.buckets, length_nil]
  have unknown : m key = none := by rw [unallocated.contents]
  rcases unallocated.grow_spec (show wrapMul 0 2 <= 2 ^ 30 by decide) with
    ⟨s', K, grown, settled, shaped, _, wide, entries, tombstones⟩
  rcases settled.ready shaped isLive unknown (by omega) with ⟨t, run, ready⟩
  refine ⟨t, s', K, ?_, ready⟩
  have loaded : wrapMul (wrapAdd 0 1) 4 >= wrapMul 0 3 := by decide
  simp only [growForInsertion, size, unallocated.entries, if_pos loaded, grown, run,
    bind_eq_bind, bind_some]

/-- The entry is stored in the bucket that is ready for it. -/
theorem Ready.InsertIntoBucket_eq {s₀ : DenseMapBase κ ν} {TheBucket : Option Nat}
    (ready : T.Ready s m key t k) (grown : T.growForInsertion key TheBucket s₀ = some (some t, s))
    (value : ν) : T.InsertIntoBucket key value TheBucket s₀ = some (t, T.inserted s t key value) := by
  have settled := ready.settled
  have inside := ready.available.inside
  have bound := pow_small settled.small
  have room := ready.room
  have counted : T.incrementNumEntries s = some { s with NumEntries := s.NumEntries + 1 } := by
    rw [incrementNumEntries, wrapAdd_of_lt (by omega), setNumEntries_eq (by omega)]
  have stored := store_eq (B := ⟨key, some value⟩) (settled.table.inside inside)
  rcases settled.table.get_cases inside with ⟨B, found, first, slot⟩ | ⟨B, found, first, slot⟩ |
    ⟨_, _, _, _, slot⟩
  · simp only [InsertIntoBucket, InsertIntoBucketImpl, grown, counted, found, first, ne_eq,
      not_true_eq_false, if_false, stored, bind_eq_bind, bind_some, inserted, slot,
      Slot.isTombstone, false_eq_true, Nat.sub_zero]
  · have pos : 0 < s.NumTombstones := by
      rw [settled.tombstones]
      exact count_pos inside (Slot.isTombstone_iff.mpr slot)
    have fewer : wrapSub s.NumTombstones 1 = s.NumTombstones - 1 := wrapSub_of_le (by omega) pos
    simp only [InsertIntoBucket, InsertIntoBucketImpl, grown, counted, found, first, ne_eq,
      T.distinct.symm, not_false_eq_true, if_true, stored, bind_eq_bind, bind_some,
      inserted, slot, Slot.isTombstone, fewer]
  · rcases ready.available.unused with empty | tombstone
    · rw [slot] at empty
      cases empty
    · rw [slot] at tombstone
      cases tombstone

theorem Ready.inserted (ready : T.Ready s m key t k) (isLive : T.IsLive key) (value : ν) :
    T.Settled (T.inserted s t key value) (update m key (some value)) k ∧
      T.Shaped (T.inserted s t key value) ∧
      T.slots (T.inserted s t key value).Buckets t = .live key value := by
  refine ⟨ready.settled.inserted isLive ready.available ready.absent value ready.room, ?_, ?_⟩
  · intro InlineBuckets derived flag
    rw [Instance.inserted, length_set]
    exact ready.shaped InlineBuckets derived flag
  · rw [Instance.inserted, slots_set _ (ready.settled.table.inside ready.available.inside),
      update_self, slot_live isLive]

/-- What a search for a bucket finds in any map. -/
theorem Refines.LookupBucketFor_spec (refines : T.Refines s m) (isLive : T.IsLive key) :
    (∃ k, T.Settled s m k ∧ T.Shaped s ∧ ∃ b < 2 ^ k, ∃ value, m key = some value ∧
      T.slots s.Buckets b = .live key value ∧ T.LookupBucketFor key s = some (some b, true)) ∨
    (m key = none ∧ ∃ TheBucket, T.LookupBucketFor key s = some (TheBucket, false) ∧
      (s.getNumBuckets < 2 ^ 30 -> T.Valid -> ¬T.InsertFails s ->
        ∃ t s' k', T.growForInsertion key TheBucket s = some (some t, s') ∧
          T.Ready s' m key t k')) := by
  rcases refines with unallocated | ⟨k, settled, shaped⟩
  · refine .inr ⟨by rw [unallocated.contents], none, ?_, fun _ _ _ =>
      unallocated.growForInsertion_spec isLive⟩
    rw [LookupBucketFor, DenseMapBase.getNumBuckets, unallocated.buckets]
    rfl
  · rcases settled.LookupBucketFor_spec isLive with ⟨b, inside, v, known, live, run⟩ |
      ⟨t, unknown, _, _, run⟩
    · exact .inl ⟨k, settled, shaped, b, inside, v, known, live, run⟩
    · refine .inr ⟨unknown, some t, run, fun few valid works => ?_⟩
      rw [settled.size, Nat.pow_lt_pow_iff_right (by omega)] at few
      exact settled.growForInsertion_spec shaped valid few isLive unknown works run

theorem Refines.insert_spec (refines : T.Refines s m) (isLive : T.IsLive key) (value : ν) (few :
    s.getNumBuckets < 2 ^ 30) (valid : T.Valid) (works : m key = none -> ¬T.InsertFails s) :
    ∃ b' s' k', T.insert key value s = some ((b', (m key).isNone), s') ∧
      T.Settled s' (update m key (some ((m key).getD value))) k' ∧ T.Shaped s' ∧
      b' < 2 ^ k' ∧ T.slots s'.Buckets b' = .live key ((m key).getD value) := by
  rcases refines.LookupBucketFor_spec isLive with
    ⟨k, settled, shaped, b, inside, old, known, live, run⟩ | ⟨unknown, TheBucket, run, grows⟩
  · refine ⟨b, s, k, ?_, ?_, shaped, inside, ?_⟩
    · simp only [insert, run, known, isNone_some, bind_eq_bind, bind_some, if_true]
    · rw [known, getD_some, <- known, update_eq_self]
      exact settled
    · rw [known]
      exact live
  · rcases grows few valid (works unknown) with ⟨t, s₁, k', grown, ready⟩
    rcases ready.inserted isLive value with ⟨settled, shaped, live⟩
    rw [unknown]
    refine ⟨t, T.inserted s₁ t key value, k', ?_, settled, shaped, ready.available.inside, live⟩
    simp only [insert, run, ready.InsertIntoBucket_eq grown value, bind_eq_bind,
      bind_some, false_eq_true, if_false, isNone_none]

theorem FindAndConstruct_eq [Inhabited ν] (key : κ) (s : DenseMapBase κ ν) :
    T.FindAndConstruct key s = (T.insert key default s).map fun r => (r.1.1, r.2) := by
  rw [FindAndConstruct, insert]
  cases T.LookupBucketFor key s with
  | none => rfl
  | some r =>
    rcases r with ⟨TheBucket, found⟩
    cases found with
    | true => cases TheBucket <;> rfl
    | false =>
      simp only [bind_eq_bind, bind_some, false_eq_true, if_false]
      cases T.InsertIntoBucket key default TheBucket s <;> rfl

theorem Settled.insert_fails (settled : T.Settled s m k) (shaped : T.Shaped s) (few : k < 30)
    (isLive : T.IsLive key) (unknown : m key = none) (fails : T.InsertFails s) (value : ν) :
    T.insert key value s = none := by
  rcases fails with ⟨ndebug, InlineBuckets, derived, large, flag, notLoaded, scarce⟩
  have bound : 2 ^ k <= 2 ^ 29 := Nat.pow_le_pow_right (by omega) (by omega)
  have room := settled.room
  have size := settled.size
  have next : wrapAdd s.NumEntries 1 = s.NumEntries + 1 := wrapAdd_of_lt (by omega)
  have fourfold : wrapMul (s.NumEntries + 1) 4 = (s.NumEntries + 1) * 4 := wrapMul_of_lt (by omega)
  have threefold : wrapMul (2 ^ k) 3 = 2 ^ k * 3 := wrapMul_of_lt (by omega)
  have sum : wrapAdd (s.NumEntries + 1) s.NumTombstones = s.NumEntries + 1 + s.NumTombstones :=
    wrapAdd_of_lt (by omega)
  have left : wrapSub (2 ^ k) (s.NumEntries + 1 + s.NumTombstones) =
      2 ^ k - (s.NumEntries + 1 + s.NumTombstones) := wrapSub_of_le (by omega) (by omega)
  rw [size] at notLoaded scarce
  have stuck := settled.grow_fails shaped (le_refl _) (by omega)
    ((settled.growFails_iff shaped).mpr ⟨ndebug, InlineBuckets, derived, large, flag⟩)
  rcases settled.LookupBucketFor_spec isLive with ⟨b, _, v, known, _⟩ | ⟨t, _, _, _, run⟩
  · rw [unknown] at known
    cases known
  · have noGrowth : T.growForInsertion key (some t) s = none := by
      simp only [growForInsertion, size, next, fourfold, threefold, sum, left,
        if_neg (show ¬(s.NumEntries + 1) * 4 >= 2 ^ k * 3 by omega), if_pos scarce, stuck,
        bind_eq_bind, bind_none]
    simp only [insert, run, InsertIntoBucket, InsertIntoBucketImpl, noGrowth, bind_eq_bind,
      bind_some, bind_none, false_eq_true, if_false]

/-! ## Entries -/

theorem Settled.entry (settled : T.Settled s m k) (inside : b < 2 ^ k)
    (live : T.slots s.Buckets b = .live key value) : entryAt b s = some (key, value) := by
  simp only [entryAt, (settled.table.get_live inside live).1, bind_eq_bind, bind_some]

theorem Refines.find_eq (refines : T.Refines s m) (isLive : T.IsLive key) :
    T.find key s = some ((m key).map fun value => (key, value)) := by
  rcases refines.LookupBucketFor_spec isLive with
    ⟨k, settled, _, b, inside, value, known, live, run⟩ | ⟨unknown, TheBucket, run, _⟩
  · simp only [find, run, settled.entry inside live, known, bind_eq_bind, bind_some,
      map_some, if_true]
  · simp only [find, run, unknown, bind_eq_bind, bind_some, false_eq_true, if_false, map_none]

theorem Refines.lookup_eq [Inhabited ν] (refines : T.Refines s m) (isLive : T.IsLive key) :
    T.lookup key s = some ((m key).getD default) := by
  rcases refines.LookupBucketFor_spec isLive with
    ⟨k, settled, _, b, inside, value, known, live, run⟩ | ⟨unknown, TheBucket, run, _⟩
  · simp only [lookup, run, settled.entry inside live, known, bind_eq_bind,
      bind_some, getD_some, if_true]
  · simp only [lookup, run, unknown, bind_eq_bind, bind_some, false_eq_true, if_false, getD_none]

/-- Writing the value of an entry. -/
theorem Settled.assign_spec (settled : T.Settled s m k) (shaped : T.Shaped s) (inside : b < 2 ^ k)
    {old : ν} (live : T.slots s.Buckets b = .live key old) (value : ν) :
    ∃ s', assign b value s = some s' ∧ T.Settled s' (update m key (some value)) k ∧
      T.Shaped s' := by
  have isLive := (settled.table.get_live inside live).2
  have stored := store_eq (B := ⟨key, some value⟩) (settled.table.inside inside)
  have newSlots := slots_set (T := T) ⟨key, some value⟩ (settled.table.inside inside)
  rw [slot_live isLive] at newSlots
  have liveCount := count_update (T.slots s.Buckets) (.live key value) Slot.isLive inside
  have tombstoneCount := count_update (T.slots s.Buckets) (.live key value) Slot.isTombstone inside
  rw [live] at liveCount tombstoneCount
  refine ⟨{ s with Buckets := s.Buckets.set b ⟨key, some value⟩ }, ?_, ?_, ?_⟩
  · simp only [assign, settled.entry inside live, stored, bind_eq_bind, bind_some]
  · exact {
      small := settled.small
      table := {
        size := by rw [length_set, settled.table.size]
        constructed := by
          intro B mem isLive
          rcases mem_or_eq_of_mem_set mem with old | new
          · exact settled.table.constructed B old isLive
          · exact ⟨value, by rw [new]⟩
        placed := by
          rw [newSlots]
          exact settled.table.placed.store inside live value }
      represents := by
        rw [newSlots]
        apply settled.represents.insert inside
        · intro k' v found
          rw [live] at found
          injection found with same
          exact same.symm
        · intro c insideC ne v found
          exact ne (settled.table.placed.unique c insideC b inside key v old found live)
      entries := by
        rw [newSlots, settled.entries]
        exact (Nat.add_right_cancel liveCount).symm
      tombstones := by
        rw [newSlots, settled.tombstones]
        exact (Nat.add_right_cancel tombstoneCount).symm
      room := settled.room }
  · intro InlineBuckets derived flag
    rw [length_set]
    exact shaped InlineBuckets derived flag

/-! ## Removals -/

theorem Settled.erase_known (settled : T.Settled s m k) (shaped : T.Shaped s) (inside : b < 2 ^ k)
    (live : T.slots s.Buckets b = .live key value)
    (run : T.LookupBucketFor key s = some (some b, true)) :
    ∃ s', T.erase key s = some (true, s') ∧ T.Settled s' (update m key none) k ∧ T.Shaped s' := by
  have bound := pow_small settled.small
  have room := settled.room
  have pos : 0 < s.NumEntries := by
    rw [settled.entries]
    exact count_pos inside (Slot.isLive_iff.mpr ⟨key, value, live⟩)
  have entries : wrapSub s.NumEntries 1 = s.NumEntries - 1 := wrapSub_of_le (by omega) pos
  have tombstones : wrapAdd s.NumTombstones 1 = s.NumTombstones + 1 := wrapAdd_of_lt (by omega)
  have stored := store_eq (B := ⟨T.getTombstoneKey, none⟩) (settled.table.inside inside)
  have newSlots := slots_set (T := T) ⟨T.getTombstoneKey, none⟩ (settled.table.inside inside)
  rw [slot_tombstone rfl] at newSlots
  have liveCount := count_update (T.slots s.Buckets) .tombstone Slot.isLive inside
  have tombstoneCount := count_update (T.slots s.Buckets) .tombstone Slot.isTombstone inside
  rw [live] at liveCount tombstoneCount
  simp only [Slot.isLive, if_true, false_eq_true, if_false] at liveCount
  simp only [Slot.isTombstone, if_true, false_eq_true, if_false] at tombstoneCount
  refine ⟨{ s with
    Buckets := s.Buckets.set b ⟨T.getTombstoneKey, none⟩
    NumEntries := s.NumEntries - 1
    NumTombstones := s.NumTombstones + 1 }, ?_, ?_, ?_⟩
  · have counted : T.decrementNumEntries
        { s with Buckets := s.Buckets.set b ⟨T.getTombstoneKey, none⟩ } =
        some { s with
          Buckets := s.Buckets.set b ⟨T.getTombstoneKey, none⟩
          NumEntries := s.NumEntries - 1 } := by
      rw [decrementNumEntries, entries, setNumEntries_eq (by omega)]
    simp only [erase, run, stored, counted, tombstones, bind_eq_bind, bind_some, if_true]
  · exact {
      small := settled.small
      table := {
        size := by rw [length_set, settled.table.size]
        constructed := by
          intro B mem isLive
          rcases mem_or_eq_of_mem_set mem with old | new
          · exact settled.table.constructed B old isLive
          · rw [new] at isLive
            exact absurd rfl isLive.2
        placed := by
          rw [newSlots]
          exact settled.table.placed.erase }
      represents := by
        rw [newSlots]
        exact settled.represents.erase settled.table.placed inside live
      entries := by
        rw [newSlots, settled.entries]
        exact (Nat.eq_sub_of_add_eq liveCount).symm
      tombstones := by
        rw [newSlots, settled.tombstones]
        exact tombstoneCount.symm
      room := by
        show s.NumEntries - 1 + (s.NumTombstones + 1) < 2 ^ k
        omega }
  · intro InlineBuckets derived flag
    rw [length_set]
    exact shaped InlineBuckets derived flag

theorem Refines.erase_spec (refines : T.Refines s m) (isLive : T.IsLive key) :
    ∃ s', T.erase key s = some ((m key).isSome, s') ∧ T.Refines s' (update m key none) := by
  rcases refines.LookupBucketFor_spec isLive with
    ⟨k, settled, shaped, b, inside, value, known, live, run⟩ | ⟨unknown, TheBucket, run, _⟩
  · rcases settled.erase_known shaped inside live run with ⟨s', erased, settled', shaped'⟩
    rw [known]
    exact ⟨s', erased, .inr ⟨k, settled', shaped'⟩⟩
  · refine ⟨s, ?_, ?_⟩
    · simp only [erase, run, unknown, bind_eq_bind, bind_some, false_eq_true, if_false, isSome_none]
    · rw [<- unknown, update_eq_self]
      exact refines

/-! ## `clear` -/

/-- The state of the loop of `clear` after the first buckets. -/
structure Cleared (T : Instance κ) (s : DenseMapBase κ ν) (k I : Nat) (s' : DenseMapBase κ ν) :
    Prop where
  size : s'.Buckets.length = 2 ^ k
  entries : s'.NumEntries = count (2 ^ k) (T.slots s'.Buckets) Slot.isLive
  before : ∀ b < I, ∃ B, s'.Buckets[b]? = some B ∧ B.first = T.getEmptyKey
  after : ∀ b, I <= b -> s'.Buckets[b]? = s.Buckets[b]?
  flag : s'.Small = s.Small

variable {s' : DenseMapBase κ ν}

theorem Cleared.write {I : Nat} (cleared : T.Cleared s k I s') (inside : I < 2 ^ k) (entries : Nat)
    (counted : entries + (if (T.slots s'.Buckets I).isLive then 1 else 0) = s'.NumEntries) :
    T.Cleared s k (I + 1)
      { s' with Buckets := s'.Buckets.set I ⟨T.getEmptyKey, none⟩, NumEntries := entries } := by
  have within : I < s'.Buckets.length := by rwa [cleared.size]
  have newSlots := slots_set (T := T) ⟨T.getEmptyKey, none⟩ within
  rw [slot_empty rfl] at newSlots
  have liveCount := count_update (T.slots s'.Buckets) .empty Slot.isLive inside
  rw [<- cleared.entries] at liveCount
  have unchanged : ∀ b, b ≠ I -> (s'.Buckets.set I ⟨T.getEmptyKey, none⟩)[b]? = s'.Buckets[b]? :=
    fun b ne => getElem?_set_ne (Ne.symm ne)
  refine ⟨?_, ?_, ?_, ?_, cleared.flag⟩
  · rw [length_set, cleared.size]
  · have dead : (Slot.empty : Slot κ ν).isLive = false := rfl
    rw [dead] at liveCount
    simp only [false_eq_true, if_false, add_zero] at liveCount
    rw [newSlots]
    show entries = _
    omega
  · intro b less
    by_cases same : b = I
    · rw [same]
      exact ⟨_, getElem?_set_self within, rfl⟩
    · rw [unchanged b same]
      exact cleared.before b (by omega)
  · intro b later
    rw [unchanged b (by omega)]
    exact cleared.after b (by omega)

theorem clearBucket_spec {I : Nat} (settled : T.Settled s m k)
    (inside : I < 2 ^ k) (cleared : T.Cleared s k I s') :
    ∃ s'', T.clearBucket s' I = some s'' ∧ T.Cleared s k (I + 1) s'' := by
  have here := cleared.after I (le_refl I)
  have stored := store_eq (B := ⟨T.getEmptyKey, none⟩)
    (show I < s'.Buckets.length by rwa [cleared.size])
  rcases settled.table.get_cases inside with ⟨B, found, first, _⟩ | ⟨B, found, first, _⟩ |
    ⟨key, value, found, isLive, _⟩
  · rw [found] at here
    refine ⟨s', ?_, cleared.size, cleared.entries, fun b less => ?_, fun b later => ?_,
      cleared.flag⟩
    · simp only [clearBucket, here, first, ne_eq, not_true_eq_false, if_false,
        bind_eq_bind, bind_some]
    · rcases Nat.lt_succ_iff_lt_or_eq.mp less with earlier | last
      · exact cleared.before b earlier
      · exact ⟨B, last ▸ here, first⟩
    · exact cleared.after b (by omega)
  · rw [found] at here
    have dead : (T.slots s'.Buckets I).isLive = false := by
      rw [slots_of_get here, slot_tombstone first]
      rfl
    refine ⟨_, ?_, cleared.write inside s'.NumEntries (by rw [dead]; rfl)⟩
    simp only [clearBucket, here, first, T.distinct.symm, stored, ne_eq, not_true_eq_false,
      not_false_eq_true, if_true, if_false, bind_eq_bind, bind_some]
  · rw [found] at here
    have isEntry : (T.slots s'.Buckets I).isLive = true := by
      rw [slots_of_get here, slot_live isLive]
      rfl
    have pos : 0 < s'.NumEntries := by
      rw [cleared.entries]
      exact count_pos inside isEntry
    have bound := pow_small settled.small
    have few : s'.NumEntries <= 2 ^ k := by
      have all := count_all (2 ^ k) (T.slots s'.Buckets)
      rw [cleared.entries]
      omega
    have fewer : wrapSub s'.NumEntries 1 = s'.NumEntries - 1 := wrapSub_of_le (by omega) pos
    refine ⟨_, ?_, cleared.write inside (s'.NumEntries - 1) (by rw [isEntry, if_pos rfl]; omega)⟩
    simp only [clearBucket, here, stored, isLive.1, isLive.2, ne_eq, not_false_eq_true, if_true,
      decrementNumEntries, fewer, bind_eq_bind, bind_some]
    exact setNumEntries_eq (by omega)

theorem Settled.nothing (settled : T.Settled s m k) (zero : s.NumEntries = 0) :
    m = fun _ => none := by
  funext key
  apply settled.represents.absent
  intro b inside value live
  have counted : 0 < s.NumEntries := by
    rw [settled.entries]
    exact count_pos inside (Slot.isLive_iff.mpr ⟨key, value, live⟩)
  omega

/-- The loop leaves a table of empty buckets. -/
theorem Cleared.settled (cleared : T.Cleared s k (2 ^ k) s')
    (small : k <= 30) : s'.NumEntries = 0 ∧
      T.Settled { s' with NumTombstones := 0 } (fun _ => none) k := by
  have unused : T.slots s'.Buckets = fun _ => .empty := by
    funext b
    by_cases inside : b < 2 ^ k
    · rcases cleared.before b inside with ⟨B, found, first⟩
      rw [slots_of_get found, slot_empty first]
    · rw [slots, List.getElem?_eq_none (by rw [cleared.size]; omega)]
      rfl
  have none : s'.NumEntries = 0 := by
    rw [cleared.entries, unused]
    exact count_eq_zero fun _ _ => rfl
  refine ⟨none, small, ⟨cleared.size, ?_, ?_⟩, ?_, ?_, ?_, ?_⟩
  · intro B mem isLive
    rcases getElem?_of_mem mem with ⟨b, here⟩
    rcases cleared.before b (cleared.size ▸ (List.getElem?_eq_some_iff.mp here).1) with
      ⟨B', found, first⟩
    rw [here] at found
    rw [Option.some.inj found] at isLive
    exact absurd first isLive.1
  · show Placed _ _ (T.slots s'.Buckets)
    rw [unused]
    exact placed_empty _ _
  · show Represents _ (T.slots s'.Buckets) _
    rw [unused]
    exact represents_empty _
  · exact cleared.entries
  · show 0 = count _ (T.slots s'.Buckets) _
    rw [unused]
    exact (count_eq_zero fun _ _ => rfl).symm
  · show s'.NumEntries + 0 < 2 ^ k
    rw [none]
    exact Nat.two_pow_pos k

theorem Refines.clear_spec (refines : T.Refines s m) (valid : T.Valid)
    (few : s.getNumBuckets < 2 ^ 30) :
    ∃ s', T.clear s = some s' ∧ T.Refines s' fun _ => none := by
  rw [clear]
  split
  · rename_i zero
    refine ⟨s, rfl, ?_⟩
    rcases refines with unallocated | ⟨k, settled, shaped⟩
    · exact unallocated.contents ▸ .inl unallocated
    · exact .inr ⟨k, settled.nothing zero.1 ▸ settled, shaped⟩
  · split
    · exact refines.shrink_and_clear_spec valid few
    · rename_i used _
      rcases refines with unallocated | ⟨k, settled, shaped⟩
      · exact absurd ⟨unallocated.entries, unallocated.tombstones⟩ used
      · have begins : T.Cleared s k 0 s := ⟨settled.table.size, settled.entries,
          fun b less => absurd less (Nat.not_lt_zero b), fun _ _ => rfl, rfl⟩
        rcases Runs.foldlM_range T.clearBucket (T.Cleared s k) (2 ^ k) begins
          (fun I s' inside cleared => clearBucket_spec settled inside cleared) with
          ⟨s', run, cleared⟩
        rcases cleared.settled settled.small with ⟨none, settled'⟩
        refine ⟨{ s' with NumTombstones := 0 }, ?_, .inr ⟨k, settled', ?_⟩⟩
        · simp only [settled.size, run, assert_true none, bind_eq_bind, bind_some]
        · intro InlineBuckets derived flag
          rw [cleared.size, <- settled.table.size]
          exact shaped InlineBuckets derived (cleared.flag ▸ flag)

/-! ## `resize` -/

theorem Refines.resize_spec (refines : T.Refines s m) (valid : T.Valid) {Size : Nat}
    (bound : Size <= 2 ^ 30) : ∃ s', T.resize Size s = some s' ∧ T.Refines s' m := by
  rw [resize]
  split
  · rename_i larger
    rcases refines with unallocated | ⟨k, settled, shaped⟩
    · rcases unallocated.grow_spec bound with ⟨s', K, grown, settled, shaped, _⟩
      exact ⟨s', grown, .inr ⟨K, settled, shaped⟩⟩
    · rw [settled.size] at larger
      have pos := Nat.two_pow_pos k
      have works : ¬T.GrowFails s Size := by
        rintro ⟨_, InlineBuckets, derived, flag, notLarger⟩
        have inline := shaped InlineBuckets derived flag
        rcases growSize_spec (show 0 < Size by omega) bound with ⟨K, _, chosen, enough, _⟩
        rw [settled.table.size] at inline
        omega
      rcases settled.grow_spec shaped valid (by omega) bound works with
        ⟨s', K, grown, settled', shaped', _⟩
      exact ⟨s', grown, .inr ⟨K, settled', shaped'⟩⟩
  · exact ⟨s, rfl, refines⟩

end Instance
end DenseMap
end LlvmProject
