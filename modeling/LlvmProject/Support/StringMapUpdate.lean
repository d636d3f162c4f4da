import LlvmProject.Support.StringMapRehash

namespace LlvmProject

open List Option Function

namespace StringMap
namespace StringMapImpl

/-!
# Changing a string map

What insertions, removals and `clear` do to a settled map.  An insertion of an
absent key goes wrong in one case: with `2 ^ 31` buckets, three times the number
of buckets wraps around to `2 ^ 31`, so that the table is thought too full as
soon as it has more than `2 ^ 29` entries, and its doubled size wraps around to
zero.
-/

open Unsigned QuadraticProbing

variable {κ ν : Type} {HashString : κ -> BitVec 32} {s : StringMapImpl κ ν}
  {m : κ -> Option ν} {k b : Nat} {key : κ} {value : ν}

/-! ## New maps -/

theorem allocated_settled (HashString : κ -> BitVec 32) (small : k < 32) :
    Settled HashString
      { TheTable := (allocateTable (2 ^ k) : List (Bucket κ ν))
        HashTable := allocateHashes (2 ^ k)
        NumBuckets := 2 ^ k
        NumItems := 0
        NumTombstones := 0 } (fun _ => none) k where
  small := small
  size := rfl
  arrays := allocate_arrays HashString k
  represents := by
    rw [slots_allocateTable]
    exact represents_empty _
  items := by
    rw [slots_allocateTable]
    exact (count_eq_zero fun _ _ => rfl).symm
  tombstones := by
    rw [slots_allocateTable]
    exact (count_eq_zero fun _ _ => rfl).symm
  few := Nat.two_pow_pos 30
  room := Nat.two_pow_pos k

theorem init_eq (small : k < 32) : (init (2 ^ k) : Option (StringMapImpl κ ν)) = some
    { TheTable := allocateTable (2 ^ k)
      HashTable := allocateHashes (2 ^ k)
      NumBuckets := 2 ^ k
      NumItems := 0
      NumTombstones := 0 } := by
  have power : 2 ^ k &&& wrapSub (2 ^ k) 1 = 0 := by rw [and_sub_one _ small, Nat.mod_self]
  have nonzero : 2 ^ k ≠ 0 := (Nat.two_pow_pos k).ne'
  simp only [init, if_pos power, if_pos nonzero]

/-! ## Storing -/

theorem Filled.entry (filled : Filled HashString s m k) (small : b < 2 ^ k)
    (live : slots s.TheTable b = .live key value) : s.entryAt b = some (key, value) := by
  simp only [entryAt, filled.arrays.get_live small live, bind_eq_bind, bind_some]

/-- The map right after an entry is stored for an absent key. -/
def inserted (s : StringMapImpl κ ν) (HashString : κ -> BitVec 32) (t : Nat) (key : κ) (value : ν) :
    StringMapImpl κ ν where
  TheTable := s.TheTable.set t (.entry key value)
  HashTable := s.HashTable.set t (start HashString key)
  NumBuckets := s.NumBuckets
  NumItems := s.NumItems + 1
  NumTombstones := s.NumTombstones - if (slots s.TheTable t).isTombstone then 1 else 0

section

variable (settled : Settled HashString s m k)
include settled

theorem Settled.inserted_filled [DecidableEq κ] {t : Nat}
    (available : Available (2 ^ k) (slots s.TheTable) (start HashString key) t) (absent : ∀ b < 2 ^
    k, ∀ v, slots s.TheTable b ≠ .live key v) (value : ν) (few : s.NumItems + 1 < 2 ^ 30) :
    Filled HashString (s.inserted HashString t key value)
      (update m key (some value)) k where
  small := settled.small
  size := settled.size
  arrays := settled.arrays.store_entry available absent value
  represents := by
    rw [inserted, slots_set _ (settled.arrays.inside available.inside)]
    apply settled.represents.insert available.inside
    · intro k' v live
      rcases available.unused with empty | tombstone
      · rw [empty] at live
        cases live
      · rw [tombstone] at live
        cases live
    · exact fun c inside _ v => absent c inside v
  items := by
    have updated := count_update (slots s.TheTable) (.live key value) Slot.isLive
      available.inside
    have dead : (slots s.TheTable t).isLive = false := by
      rcases available.unused with empty | tombstone
      · rw [empty]
        rfl
      · rw [tombstone]
        rfl
    rw [dead] at updated
    rw [inserted, slots_set _ (settled.arrays.inside available.inside), settled.items]
    exact updated.symm
  tombstones := by
    have updated := count_update (slots s.TheTable) (.live key value)
      Slot.isTombstone available.inside
    rw [inserted, slots_set _ (settled.arrays.inside available.inside), settled.tombstones]
    simp only [Slot.isTombstone, Bool.false_eq_true, if_false, Bucket.slot] at updated ⊢
    omega
  few := few

theorem Settled.inserted_room (t : Nat) (key : κ)
    (value : ν) : (s.inserted HashString t key value).NumItems +
      (s.inserted HashString t key value).NumTombstones <= 2 ^ k := by
  have room := settled.room
  simp only [inserted]
  omega

theorem Settled.insert_eq [DecidableEq κ] (unknown : m key = none)
    (value : ν) (few : s.NumItems + 1 < 2 ^ 30) :
    ∃ t, Available (2 ^ k) (slots s.TheTable) (start HashString key) t ∧
      (∀ b < 2 ^ k, ∀ v, slots s.TheTable b ≠ .live key v) ∧
      s.insert HashString key value =
        ((s.inserted HashString t key value).RehashTable t).bind fun r => some ((r.1, true), r.2) := by
  rcases settled.LookupBucketFor_spec key with ⟨b, _, v, known, _⟩ | ⟨t, _, absent, available, run⟩
  · rw [unknown] at known
    cases known
  · refine ⟨t, available, absent, ?_⟩
    have bound := pow_le settled.small
    have room := settled.room
    have asserted := settled.inserted_room t key value
    have stored := store_eq (x := Bucket.entry key value) (settled.arrays.inside available.inside)
    have items : wrapAdd s.NumItems 1 = s.NumItems + 1 := wrapAdd_of_lt (by omega)
    simp only [inserted] at asserted
    rcases available.unused with empty | tombstone
    · have found := settled.arrays.get_empty available.inside empty
      rw [empty] at asserted
      simp only [Slot.isTombstone, Bool.false_eq_true, if_false, Nat.sub_zero] at asserted
      have sum : wrapAdd (s.NumItems + 1) s.NumTombstones = s.NumItems + 1 + s.NumTombstones :=
        wrapAdd_of_lt (by omega)
      simp only [insert, run, found, bind_eq_bind, bind_some, stored, items, sum,
        settled.size, if_pos asserted, inserted, empty, Slot.isTombstone, Bool.false_eq_true,
        if_false, Nat.sub_zero]
    · rcases settled.arrays.get_cases available.inside with
        ⟨_, slot⟩ | ⟨found, _⟩ | ⟨_, _, _, slot⟩
      · rw [slot] at tombstone
        cases tombstone
      · have pos : 0 < s.NumTombstones := by
          rw [settled.tombstones]
          exact count_pos available.inside (Slot.isTombstone_iff.mpr tombstone)
        have tombstones : wrapSub s.NumTombstones 1 = s.NumTombstones - 1 :=
          wrapSub_of_le (by omega) pos
        rw [tombstone] at asserted
        simp only [Slot.isTombstone, if_true] at asserted
        have sum : wrapAdd (s.NumItems + 1) (s.NumTombstones - 1) =
            s.NumItems + 1 + (s.NumTombstones - 1) := wrapAdd_of_lt (by omega)
        simp only [insert, run, found, bind_eq_bind, bind_some, stored, items, tombstones, sum,
          settled.size, if_pos asserted, inserted, tombstone, Slot.isTombstone, if_true]
      · rw [slot] at tombstone
        cases tombstone

/-- Inserting a key that has an entry finds that entry. -/
theorem Settled.insert_known [DecidableEq κ] {old : ν} (known : m key = some old) (value : ν) :
    ∃ b < 2 ^ k, s.insert HashString key value = some ((b, false), s) ∧
      slots s.TheTable b = .live key old := by
  rcases settled.LookupBucketFor_spec key with ⟨b, inside, v, found, live, run⟩ | ⟨t, unknown, _⟩
  · rw [known] at found
    rw [<- Option.some.inj found] at live
    refine ⟨b, inside, ?_, live⟩
    simp only [insert, run, settled.arrays.get_live inside live, bind_eq_bind, bind_some]
  · rw [known] at unknown
    cases unknown

end

/-- The insertions that the table is not too large for. -/
def NotTooLarge (s : StringMapImpl κ ν) : Prop := s.NumBuckets < 2 ^ 31 ∨ s.NumItems < 2 ^ 29

/-- Inserting an absent key adds its entry. -/
theorem Settled.insert_unknown [DecidableEq κ] (settled : Settled HashString s m k) (unknown : m key
    = none) (value : ν) (few : s.NumItems + 1 < 2 ^ 30) (fits : s.NotTooLarge) :
    ∃ b' s' k', s.insert HashString key value = some ((b', true), s') ∧
      Settled HashString s' (update m key (some value)) k' ∧ k <= k' ∧
      s'.NumItems = s.NumItems + 1 ∧ b' < 2 ^ k' ∧ slots s'.TheTable b' = .live key value := by
  rcases settled.insert_eq unknown value few with ⟨t, available, absent, run⟩
  have filled := settled.inserted_filled available absent value few
  have largest : k < 31 ∨ (s.inserted HashString t key value).NumItems <= 2 ^ 29 := by
    rcases fits with small | small
    · rw [settled.size] at small
      exact .inl ((Nat.pow_lt_pow_iff_right (by omega)).mp small)
    · exact .inr small
  rcases filled.RehashTable_spec ⟨settled.inserted_room t key value, largest⟩ t with
    ⟨b', s', k', rehashed, settled', wider, items, asked⟩
  have here : slots (s.inserted HashString t key value).TheTable t = .live key value := by
    rw [inserted, slots_set _ (settled.arrays.inside available.inside), update_self]
    rfl
  have moved := asked available.inside key value here
  refine ⟨b', s', k', ?_, settled', wider, items, moved⟩
  rw [run, rehashed]
  rfl

/-! ## Too many entries in the largest table -/

/-- No entry can be moved to a table of no buckets. -/
theorem rehashBucket_zero (BucketNo : Nat) {I : Nat} {r : Rehash κ ν}
    (arrays : Arrays HashString k s.TheTable s.HashTable) (inside : I < 2 ^ k)
    (live : slots s.TheTable I = .live key value) (none : r.NewTableArray = [.sentinel]) :
    s.rehashBucket 0 BucketNo r I = .none := by
  have found := arrays.get_live inside live
  have mask : ∀ x : Nat, x < 2 ^ 32 -> x &&& wrapSub 0 1 = x := by
    intro x small
    rw [show wrapSub 0 1 = 2 ^ 32 - 1 from rfl, Nat.and_two_pow_sub_one_eq_mod, Nat.mod_eq_of_lt small]
  have outside : rehashSlot r.NewTableArray 0 (start HashString key) = .none := by
    rw [none]
    simp only [rehashSlot, mask _ (HashString key).isLt, start]
    cases hash : (HashString key).toNat with
    | zero => rfl
    | succ x => rfl
  simp only [rehashBucket, found, arrays.hashed I inside key value found, bind_eq_bind,
    bind_some, outside, bind_none]

theorem rehash_zero (BucketNo : Nat) {n : Nat} {r : Rehash κ ν} (arrays : Arrays HashString k
    s.TheTable s.HashTable) (below : n <= 2 ^ k) (none : r.NewTableArray = [.sentinel]) :
    (List.range n).foldlM (s.rehashBucket 0 BucketNo) r = .none ∨
      ((List.range n).foldlM (s.rehashBucket 0 BucketNo) r = some r ∧
        ∀ b < n, ∀ key value, slots s.TheTable b ≠ .live key value) := by
  induction n with
  | zero => exact .inr ⟨rfl, fun b less => absurd less (Nat.not_lt_zero b)⟩
  | succ n ih =>
    rw [range_succ, foldlM_append]
    rcases ih (by omega) with stopped | ⟨run, nothing⟩
    · rw [stopped]
      exact .inl rfl
    · rw [run]
      have skip : (∀ key value, slots s.TheTable n ≠ .live key value) ->
          ∀ b < n + 1, ∀ key value, slots s.TheTable b ≠ .live key value := by
        intro here b less key value
        rcases Nat.lt_succ_iff_lt_or_eq.mp less with earlier | last
        · exact nothing b earlier key value
        · exact last ▸ here key value
      rcases arrays.get_cases (show n < 2 ^ k by omega) with
        ⟨found, slot⟩ | ⟨found, slot⟩ | ⟨key, value, _, slot⟩
      · refine .inr ⟨?_, skip fun key value live => ?_⟩
        · simp only [foldlM_cons, foldlM_nil, rehashBucket, found, bind_eq_bind, bind_some]
          rfl
        · rw [slot] at live
          cases live
      · refine .inr ⟨?_, skip fun key value live => ?_⟩
        · simp only [foldlM_cons, foldlM_nil, rehashBucket, found, bind_eq_bind, bind_some]
          rfl
        · rw [slot] at live
          cases live
      · left
        have step := rehashBucket_zero BucketNo arrays
          (show n < 2 ^ k by omega) slot none
        simp only [foldlM_cons, step, bind_eq_bind, bind_some, bind_none]

theorem Settled.insert_tooLarge [DecidableEq κ] (settled : Settled HashString s m k)
    (unknown : m key = none) (value : ν) (few : s.NumItems + 1 < 2 ^ 30)
    (tooLarge : ¬s.NotTooLarge) : s.insert HashString key value = none := by
  rcases settled.insert_eq unknown value few with ⟨t, available, absent, run⟩
  have filled := settled.inserted_filled available absent value few
  have small := settled.small
  have large : k = 31 := by
    have notSmall : ¬2 ^ k < 2 ^ 31 := fun less =>
      tooLarge (.inl (by rw [settled.size]; exact less))
    rw [Nat.pow_lt_pow_iff_right (by omega)] at notSmall
    omega
  have many : 2 ^ 29 <= s.NumItems := Nat.not_lt.mp fun less => tooLarge (.inr less)
  have chosen : (s.inserted HashString t key value).rehashSize = some 0 := by
    have items : wrapMul (s.NumItems + 1) 4 = (s.NumItems + 1) * 4 := wrapMul_of_lt (by omega)
    have threefold : wrapMul (2 ^ 31) 3 = 2 ^ 31 := rfl
    rw [rehashSize, filled.size, large, threefold, inserted, items, if_pos (by omega)]
    rfl
  have here : slots (s.inserted HashString t key value).TheTable t = .live key value := by
    rw [inserted, slots_set _ (settled.arrays.inside available.inside), update_self]
    rfl
  rw [run, RehashTable, chosen]
  rcases rehash_zero t (n := 2 ^ k) (r := ⟨allocateTable 0, allocateHashes 0, t⟩) filled.arrays
    (le_refl _) rfl with stopped | ⟨_, nothing⟩
  · simp only [filled.size, stopped, bind_eq_bind, bind_none]
  · exact absurd here (nothing t available.inside key value)

/-! ## Removals -/

theorem Filled.set_arrays (filled : Filled HashString s m k) (small : b < 2 ^ k)
    {old : ν} (live : slots s.TheTable b = .live key old) (value : ν) :
    Arrays HashString k (s.TheTable.set b (.entry key value)) s.HashTable where
  tableLength := by rw [length_set, filled.arrays.tableLength]
  hashLength := filled.arrays.hashLength
  proper := by
    intro c inside found
    by_cases same : c = b
    · rw [same, getElem?_set_self (filled.arrays.inside small)] at found
      cases found
    · rw [getElem?_set_ne (Ne.symm same)] at found
      exact filled.arrays.proper c inside found
  last := by
    rw [getElem?_set_ne small.ne]
    exact filled.arrays.last
  hashed := by
    intro c inside key' value' found
    by_cases same : c = b
    · rw [same, getElem?_set_self (filled.arrays.inside small)] at found
      injection Option.some.inj found with sameKey
      rw [same, <- sameKey]
      exact filled.arrays.hashed b small key old (filled.arrays.get_live small live)
    · rw [getElem?_set_ne (Ne.symm same)] at found
      exact filled.arrays.hashed c inside key' value' found
  placed := by
    rw [slots_set _ (filled.arrays.inside small)]
    exact filled.arrays.placed.store small live value

theorem Arrays.remove {TheTable : List (Bucket κ ν)} {HashTable : List Nat}
    (arrays : Arrays HashString k TheTable HashTable) (small : b < 2 ^ k) :
    Arrays HashString k (TheTable.set b .tombstone) HashTable where
  tableLength := by rw [length_set, arrays.tableLength]
  hashLength := arrays.hashLength
  proper := by
    intro c inside found
    by_cases same : c = b
    · rw [same, getElem?_set_self (arrays.inside small)] at found
      cases found
    · rw [getElem?_set_ne (Ne.symm same)] at found
      exact arrays.proper c inside found
  last := by
    rw [getElem?_set_ne small.ne]
    exact arrays.last
  hashed := by
    intro c inside key' value' found
    by_cases same : c = b
    · rw [same, getElem?_set_self (arrays.inside small)] at found
      cases found
    · rw [getElem?_set_ne (Ne.symm same)] at found
      exact arrays.hashed c inside key' value' found
  placed := by
    rw [slots_set _ (arrays.inside small)]
    exact arrays.placed.erase

section

variable (settled : Settled HashString s m k)
include settled

theorem Settled.erase_unknown [DecidableEq κ]
    (unknown : m key = none) : s.erase HashString key = some (false, s) := by
  rcases settled.FindKey_spec key with ⟨b, _, v, known, _⟩ | ⟨_, run⟩
  · rw [unknown] at known
    cases known
  · simp only [erase, run, bind_eq_bind, bind_some]

theorem Settled.erase_known [DecidableEq κ] (known : m key = some value) :
    ∃ s', s.erase HashString key = some (true, s') ∧
      Settled HashString s' (update m key none) k := by
  rcases settled.FindKey_spec key with ⟨b, inside, v, _, live, run⟩ | ⟨unknown, _⟩
  · have found := settled.arrays.get_live inside live
    have bound := pow_le settled.small
    have room := settled.room
    have pos : 0 < s.NumItems := by
      rw [settled.items]
      exact count_pos inside (Slot.isLive_iff.mpr ⟨key, v, live⟩)
    have items : wrapSub s.NumItems 1 = s.NumItems - 1 := wrapSub_of_le (by omega) pos
    have tombstones : wrapAdd s.NumTombstones 1 = s.NumTombstones + 1 := wrapAdd_of_lt (by omega)
    have sum : wrapAdd (s.NumItems - 1) (s.NumTombstones + 1) = s.NumItems - 1 + (s.NumTombstones + 1) :=
      wrapAdd_of_lt (by omega)
    have asserted : s.NumItems - 1 + (s.NumTombstones + 1) <= 2 ^ k := by omega
    have stored := store_eq (x := Bucket.tombstone) (settled.arrays.inside inside)
    have newSlots := slots_set Bucket.tombstone (settled.arrays.inside inside)
    have liveCount := count_update (slots s.TheTable) .tombstone Slot.isLive inside
    have tombstoneCount := count_update (slots s.TheTable) .tombstone
      Slot.isTombstone inside
    rw [live] at liveCount tombstoneCount
    simp only [Slot.isLive, if_true, Bool.false_eq_true, if_false] at liveCount
    simp only [Slot.isTombstone, if_true, Bool.false_eq_true, if_false] at tombstoneCount
    refine ⟨{ s with
      TheTable := s.TheTable.set b .tombstone
      NumItems := s.NumItems - 1
      NumTombstones := s.NumTombstones + 1 }, ?_, ?_⟩
    · simp only [erase, run, RemoveEntry, found, RemoveKey, stored, items, tombstones, sum,
        settled.size, bind_eq_bind, bind_some, if_pos asserted, if_true]
    · exact {
        small := settled.small
        size := settled.size
        arrays := settled.arrays.remove inside
        represents := by
          rw [newSlots]
          exact settled.represents.erase settled.arrays.placed inside live
        items := by
          rw [newSlots, settled.items]
          exact (Nat.eq_sub_of_add_eq liveCount).symm
        tombstones := by
          rw [newSlots, settled.tombstones]
          exact tombstoneCount.symm
        few := by
          have before := settled.few
          show s.NumItems - 1 < 2 ^ 30
          omega
        room := by
          show s.NumItems - 1 + (s.NumTombstones + 1) < 2 ^ k
          omega }
  · rw [known] at unknown
    cases unknown

/-- Without entries the abstract map is empty. -/
theorem Settled.nothing (zero : s.NumItems = 0) : m = fun _ => none := by
  funext key
  apply settled.represents.absent
  intro b inside value live
  have counted : 0 < s.NumItems := by
    rw [settled.items]
    exact count_pos inside (Slot.isLive_iff.mpr ⟨key, value, live⟩)
  omega

end

theorem Arrays.cleared {TheTable : List (Bucket κ ν)} {HashTable : List Nat}
    (arrays : Arrays HashString k TheTable HashTable) :
    List.replicate (2 ^ k) Bucket.null ++ TheTable.drop (2 ^ k) = allocateTable (2 ^ k) := by
  have inside : 2 ^ k < TheTable.length := by
    rw [arrays.tableLength]
    exact Nat.lt_succ_self _
  have last : TheTable[2 ^ k] = .sentinel := by
    apply Option.some.inj
    rw [<- List.getElem?_eq_getElem inside, arrays.last]
  have nothing : TheTable.drop (2 ^ k + 1) = [] := by
    rw [<- arrays.tableLength, drop_length]
  rw [allocateTable, drop_eq_getElem_cons inside, last, nothing]

theorem Settled.clear_spec (settled : Settled HashString s m k) :
    Settled HashString s.clear (fun _ => none) k := by
  rw [clear]
  split
  · rename_i zero
    rw [<- settled.nothing zero]
    exact settled
  · have fresh := allocated_settled (ν := ν) HashString settled.small
    rw [settled.size, settled.arrays.cleared]
    exact {
      fresh with
      size := rfl
      arrays := {
        fresh.arrays with
        hashLength := settled.arrays.hashLength
        hashed := by
          intro b inside key value found
          have slot := slots_of_get found
          rw [slots_allocateTable] at slot
          cases slot } }

end StringMapImpl
end StringMap
end LlvmProject
