import LlvmProject.Library.Runs
import LlvmProject.Support.StringMap

namespace LlvmProject

open List Option

namespace StringMap
namespace StringMapImpl

/-!
# Rehashing a string map

`RehashTable` moves the entries one by one into an array that is at least as
long, at the first null bucket of their searches.  Whatever it does, the map it
leaves has the same entries and a null bucket, and the returned number is that of
the entry in the bucket asked about.
-/

open Unsigned QuadraticProbing

variable {κ ν : Type} {HashString : κ -> BitVec 32} {s : StringMapImpl κ ν} {m : κ -> Option ν}
  {TheTable : List (Bucket κ ν)} {HashTable : List Nat} {k K b i : Nat} {key : κ} {value : ν}

/-! ## A new array -/

theorem slots_allocateTable (Size : Nat) :
    slots (allocateTable Size : List (Bucket κ ν)) = fun _ => .empty := by
  funext b
  rw [slots, allocateTable, getElem?_append]
  split
  · rw [getElem?_replicate]
    split <;> rfl
  · rw [length_replicate]
    cases b - Size <;> rfl

theorem allocate_arrays (HashString : κ -> BitVec 32) (K : Nat) :
    Arrays HashString K (allocateTable (2 ^ K) : List (Bucket κ ν)) (allocateHashes (2 ^ K)) where
  tableLength := by
    rw [allocateTable, length_append, length_replicate]
    rfl
  hashLength := length_replicate
  proper := by
    intro b small found
    rw [allocateTable, getElem?_append_left (by rwa [length_replicate]),
      getElem?_replicate, if_pos small] at found
    cases found
  last := by
    rw [allocateTable, getElem?_append_right (by rw [length_replicate]),
      length_replicate, Nat.sub_self]
    rfl
  hashed := by
    intro b small key value found
    rw [allocateTable, getElem?_append_left (by rwa [length_replicate]),
      getElem?_replicate, if_pos small] at found
    cases found
  placed := by
    rw [slots_allocateTable]
    exact placed_empty _ _

/-! ## Storing an entry -/

theorem Arrays.store_entry (arrays : Arrays HashString k TheTable HashTable)
    (available : Available (2 ^ k) (slots TheTable) (start HashString key) b)
    (absent : ∀ c < 2 ^ k, ∀ v, slots TheTable c ≠ .live key v) (value : ν) :
    Arrays HashString k (TheTable.set b (.entry key value))
      (HashTable.set b (start HashString key)) where
  tableLength := by rw [length_set, arrays.tableLength]
  hashLength := by rw [length_set, arrays.hashLength]
  proper := by
    intro c small found
    by_cases same : c = b
    · rw [same, getElem?_set_self (arrays.inside available.inside)] at found
      cases found
    · rw [getElem?_set_ne (Ne.symm same)] at found
      exact arrays.proper c small found
  last := by
    rw [getElem?_set_ne available.inside.ne]
    exact arrays.last
  hashed := by
    intro c small key' value' found
    by_cases same : c = b
    · rw [same, getElem?_set_self (arrays.inside available.inside)] at found
      injection Option.some.inj found with sameKey
      rw [same, getElem?_set_self (arrays.hashInside available.inside), sameKey]
    · rw [getElem?_set_ne (Ne.symm same)] at found ⊢
      exact arrays.hashed c small key' value' found
  placed := by
    rw [slots_set _ (arrays.inside available.inside)]
    exact arrays.placed.insert available absent value

/-! ## The loops -/

theorem rehashProbe_advance (arrays : Arrays HashString K TheTable HashTable) (small : K < 32)
    {s₀ : Nat} (filled : ∀ j < i, slots TheTable (probe (2 ^ K) s₀ j) ≠ .empty)
    (less : i < 2 ^ K) (j fuel : Nat) (before : j < i) :
    rehashProbe TheTable (2 ^ K) (j + fuel) (probe (2 ^ K) s₀ 0) 1 =
      rehashProbe TheTable (2 ^ K) fuel (probe (2 ^ K) s₀ j) (j + 1) := by
  induction j generalizing fuel with
  | zero => rw [zero_add]
  | succ j ih =>
    have here := probe_lt (Nat.two_pow_pos K) s₀ (j + 1)
    have amount : wrapAdd (j + 1) 1 = j + 1 + 1 := next_amount small (by omega)
    rw [show j + 1 + fuel = j + (fuel + 1) by omega, ih _ (by omega)]
    rcases arrays.get_cases here with ⟨_, slot⟩ | ⟨found, slot⟩ | ⟨key, value, found, slot⟩
    · exact absurd slot (filled (j + 1) before)
    · simp only [rehashProbe, next_probe small, found, bind_eq_bind, bind_some, amount]
    · simp only [rehashProbe, next_probe small, found, bind_eq_bind, bind_some, amount]

/-- The new bucket is the first null one of the search. -/
theorem rehashSlot_eq (arrays : Arrays HashString K TheTable HashTable) (small : K < 32)
    (stop : Stop (2 ^ K) (slots TheTable) (start HashString key) key i) (less : i < 2 ^ K)
    (empty : slots TheTable (probe (2 ^ K) (start HashString key) i) = .empty) :
    rehashSlot TheTable (2 ^ K) (start HashString key) =
      some (probe (2 ^ K) (start HashString key) i) := by
  have here := probe_lt (Nat.two_pow_pos K) (start HashString key) i
  simp only [rehashSlot, first_probe small]
  cases i with
  | zero =>
    rw [arrays.get_empty here empty]
    rfl
  | succ j =>
    have filled : ∀ l < j + 1, slots TheTable (probe (2 ^ K) (start HashString key) l) ≠ .empty :=
      fun l earlier => (stop.before l earlier).1
    have run := rehashProbe_advance arrays small filled less j ((2 ^ K - j) + 1)
      (Nat.lt_succ_self j)
    rw [show j + (2 ^ K - j + 1) = 2 ^ K + 1 by omega] at run
    have probed : rehashProbe TheTable (2 ^ K) (2 ^ K + 1)
        (probe (2 ^ K) (start HashString key) 0) 1 =
        some (probe (2 ^ K) (start HashString key) (j + 1)) := by
      rw [run]
      simp only [rehashProbe, next_probe small, arrays.get_empty here empty,
        bind_eq_bind, bind_some]
    rcases arrays.get_cases (probe_lt (Nat.two_pow_pos K) (start HashString key) 0) with
      ⟨_, slot⟩ | ⟨found, _⟩ | ⟨key', value', found, _⟩
    · exact absurd slot (filled 0 (Nat.succ_pos j))
    · rw [found]
      exact probed
    · rw [found]
      exact probed

/-- The state of the loop after the first buckets. -/
structure Rehashed (HashString : κ -> BitVec 32) (s : StringMapImpl κ ν) (K BucketNo I : Nat)
    (r : Rehash κ ν) : Prop where
  arrays : Arrays HashString K r.NewTableArray r.NewHashArray
  moved : Moved (2 ^ K) (start HashString) (slots s.TheTable) I (slots r.NewTableArray)
  asked : BucketNo < I -> ∀ key value, slots s.TheTable BucketNo = .live key value ->
    r.NewBucketNo < 2 ^ K ∧ slots r.NewTableArray r.NewBucketNo = .live key value

theorem rehashBucket_spec {BucketNo I : Nat} {r : Rehash κ ν}
    (arrays : Arrays HashString k s.TheTable s.HashTable) (small : K < 32) (wider : 2 ^ k <= 2 ^ K)
    (inside : I < 2 ^ k) (rehashed : Rehashed HashString s K BucketNo I r) :
    ∃ r', s.rehashBucket (2 ^ K) BucketNo r I = some r' ∧
      Rehashed HashString s K BucketNo (I + 1) r' := by
  have skip : (∀ key value, slots s.TheTable I ≠ .live key value) ->
      Rehashed HashString s K BucketNo (I + 1) r := fun unused => {
    arrays := rehashed.arrays
    moved := rehashed.moved.skip unused
    asked := by
      intro before key value live
      rcases Nat.lt_succ_iff_lt_or_eq.mp before with earlier | last
      · exact rehashed.asked earlier key value live
      · exact absurd (last ▸ live) (unused key value) }
  rcases arrays.get_cases inside with ⟨found, slot⟩ | ⟨found, slot⟩ | ⟨key, value, found, slot⟩
  · refine ⟨r, ?_, skip fun key value live => ?_⟩
    · simp only [rehashBucket, found, bind_eq_bind, bind_some]
    · rw [slot] at live
      cases live
  · refine ⟨r, ?_, skip fun key value live => ?_⟩
    · simp only [rehashBucket, found, bind_eq_bind, bind_some]
    · rw [slot] at live
      cases live
  · have room : count (2 ^ K) (slots r.NewTableArray) Slot.isLive +
        count (2 ^ K) (slots r.NewTableArray) Slot.isTombstone < 2 ^ K := by
      have none : count (2 ^ K) (slots r.NewTableArray) Slot.isTombstone = 0 :=
        count_eq_zero fun c less => Bool.eq_false_iff.mpr fun isTombstone =>
          rehashed.moved.clean c less (Slot.isTombstone_iff.mp isTombstone)
      have all := count_all I (slots s.TheTable)
      rw [none, rehashed.moved.entries]
      omega
    rcases exists_empty room with ⟨c, insideC, emptyC⟩
    rcases exists_stop (start HashString key) key insideC emptyC with ⟨i, less, stop⟩
    have here := probe_lt (Nat.two_pow_pos K) (start HashString key) i
    rcases rehashed.moved.move arrays.placed inside slot (Nat.two_pow_pos K) stop with
      ⟨empty, moved⟩
    have absent := rehashed.moved.absent arrays.placed inside slot
    have available : Available (2 ^ K) (slots r.NewTableArray) (start HashString key)
        (probe (2 ^ K) (start HashString key) i) :=
      ⟨here, .inl empty, i, rfl, fun j earlier => (stop.before j earlier).1⟩
    have stored := rehashed.arrays.store_entry available absent value
    have newSlots := slots_set (.entry key value) (rehashed.arrays.inside here)
    have newBucket := rehashSlot_eq rehashed.arrays small stop less empty
    refine ⟨⟨r.NewTableArray.set (probe (2 ^ K) (start HashString key) i) (.entry key value),
      r.NewHashArray.set (probe (2 ^ K) (start HashString key) i) (start HashString key),
      if I = BucketNo then probe (2 ^ K) (start HashString key) i else r.NewBucketNo⟩,
      ?_, ⟨stored, ?_, ?_⟩⟩
    · simp only [rehashBucket, found, arrays.hashed I inside key value found,
        bind_eq_bind, bind_some, newBucket, store_eq (rehashed.arrays.inside here),
        store_eq (rehashed.arrays.hashInside here)]
    · rw [newSlots]
      exact moved
    · intro before key' value' live
      rw [newSlots]
      rcases Nat.lt_succ_iff_lt_or_eq.mp before with earlier | last
      · rcases rehashed.asked earlier key' value' live with ⟨insideNew, liveNew⟩
        have ne : r.NewBucketNo ≠ probe (2 ^ K) (start HashString key) i := by
          intro same
          rw [same, empty] at liveNew
          cases liveNew
        rw [if_neg earlier.ne', Function.update_of_ne ne]
        exact ⟨insideNew, liveNew⟩
      · rw [if_pos last.symm, Function.update_self]
        rw [last, slot] at live
        exact ⟨here, live⟩

/-! ## The whole function -/

/-- The entries that a map may have when it is about to be rehashed. -/
structure Fits (s : StringMapImpl κ ν) (k : Nat) : Prop where
  room : s.NumItems + s.NumTombstones <= 2 ^ k
  largest : k < 31 ∨ s.NumItems <= 2 ^ 29

section

variable (filled : Filled HashString s m k)
include filled

theorem rehashSize_cases (fits : Fits s k) :
    (s.rehashSize = none ∧ s.NumItems + s.NumTombstones < 2 ^ k) ∨
      (s.rehashSize = some (2 ^ k) ∧ s.NumItems < 2 ^ k) ∨
      (k < 31 ∧ s.rehashSize = some (2 ^ (k + 1)) ∧ s.NumItems <= 2 ^ k) := by
  have bound := pow_le filled.small
  have pos := Nat.two_pow_pos k
  have few := filled.few
  have room := fits.room
  have items : wrapMul s.NumItems 4 = s.NumItems * 4 := wrapMul_of_lt (by omega)
  have unused : wrapSub (2 ^ k) (wrapAdd s.NumItems s.NumTombstones) =
      2 ^ k - (s.NumItems + s.NumTombstones) := by
    rw [wrapAdd_of_lt (show s.NumItems + s.NumTombstones < 2 ^ 32 by omega),
      wrapSub_of_le (by omega) room]
  rw [rehashSize, filled.size, items, unused]
  by_cases large : k = 31
  · have wrapped : wrapMul (2 ^ k) 3 = 2 ^ 31 := by
      subst large
      rfl
    have items31 := fits.largest.resolve_left (by omega)
    rw [wrapped, if_neg (by omega)]
    split
    · exact .inr (.inl ⟨rfl, by subst large; omega⟩)
    · exact .inl ⟨rfl, by omega⟩
  · have smaller : 2 ^ k <= 2 ^ 30 :=
      Nat.pow_le_pow_right (by omega) (by have := filled.small; omega)
    rw [wrapMul_of_lt (show 2 ^ k * 3 < 2 ^ 32 by omega), wrapMul_of_lt (show 2 ^ k * 2 < 2 ^ 32 by omega)]
    split
    · refine .inr (.inr ⟨by have := filled.small; omega, ?_, by omega⟩)
      rw [pow_succ]
    · split
      · exact .inr (.inl ⟨rfl, by omega⟩)
      · exact .inl ⟨rfl, by omega⟩

/-- Moving all entries to an array of `2 ^ K` buckets that has room for them. -/
theorem Filled.rehash (small : K < 32) (wider : 2 ^ k <= 2 ^ K)
    (room : s.NumItems < 2 ^ K) (chosen : s.rehashSize = some (2 ^ K)) (BucketNo : Nat) :
    ∃ b' s', s.RehashTable BucketNo = some (b', s') ∧ Settled HashString s' m K ∧
      s'.NumItems = s.NumItems ∧ (BucketNo < 2 ^ k -> ∀ key value, slots s.TheTable BucketNo =
        .live key value -> b' < 2 ^ K ∧ slots s'.TheTable b' = .live key value) := by
  have begins : Rehashed HashString s K BucketNo 0
      ⟨allocateTable (2 ^ K), allocateHashes (2 ^ K), BucketNo⟩ := {
    arrays := allocate_arrays HashString K
    moved := by
      rw [slots_allocateTable]
      exact moved_zero _ _ _
    asked := fun before => absurd before (Nat.not_lt_zero _) }
  rcases Runs.foldlM_range (s.rehashBucket (2 ^ K) BucketNo) (Rehashed HashString s K BucketNo)
    (2 ^ k) begins (fun I r inside rehashed =>
      rehashBucket_spec filled.arrays small wider inside rehashed) with ⟨r, run, done⟩
  have clean : count (2 ^ K) (slots r.NewTableArray) Slot.isTombstone = 0 :=
    count_eq_zero fun c less => Bool.eq_false_iff.mpr fun isTombstone =>
      done.moved.clean c less (Slot.isTombstone_iff.mp isTombstone)
  refine ⟨r.NewBucketNo,
    { s with
      TheTable := r.NewTableArray
      HashTable := r.NewHashArray
      NumBuckets := 2 ^ K
      NumTombstones := 0 }, ?_, ?_, rfl, done.asked⟩
  · simp only [RehashTable, chosen, filled.size, run, bind_eq_bind, bind_some]
  · exact {
      small := small
      size := rfl
      arrays := done.arrays
      represents := fun key value => by
        rw [filled.represents key value, done.moved.holds key value]
      items := by rw [done.moved.entries, <- filled.items]
      tombstones := clean.symm
      few := filled.few
      room := by
        rw [add_zero]
        exact room }

/-- `RehashTable` keeps every entry, leaves a null bucket, and returns the new
number of the bucket it was asked about. -/
theorem Filled.RehashTable_spec (fits : Fits s k) (BucketNo : Nat) :
    ∃ b' s' k', s.RehashTable BucketNo = some (b', s') ∧ Settled HashString s' m k' ∧
      k <= k' ∧ s'.NumItems = s.NumItems ∧
        (BucketNo < 2 ^ k -> ∀ key value, slots s.TheTable BucketNo = .live key value ->
        b' < 2 ^ k' ∧ slots s'.TheTable b' = .live key value) := by
  rcases rehashSize_cases filled fits with ⟨none, room⟩ | ⟨same, room⟩ | ⟨small, doubled, room⟩
  · refine ⟨BucketNo, s, k, ?_, { filled with room := room }, le_refl k, rfl,
      fun inside key value live => ⟨inside, live⟩⟩
    rw [RehashTable, none]
  · rcases filled.rehash filled.small (le_refl _) room same BucketNo with
      ⟨b', s', run, settled, asked⟩
    exact ⟨b', s', k, run, settled, le_refl k, asked⟩
  · have wider : 2 ^ k * 2 = 2 ^ (k + 1) := (pow_succ 2 k).symm
    have pos := Nat.two_pow_pos k
    rcases filled.rehash (show k + 1 < 32 by omega) (by omega) (by omega) doubled BucketNo with
      ⟨b', s', run, settled, asked⟩
    exact ⟨b', s', k + 1, run, settled, Nat.le_succ k, asked⟩

end

end StringMapImpl
end StringMap
end LlvmProject
