import LlvmProject.Library.QuadraticProbing
import LlvmProject.Library.Unsigned

namespace LlvmProject
namespace StringMap

/-!
# String maps

`StringMap` keeps its entries in an open-addressed table of pointers with the
full hash values beside them.  A removal leaves a tombstone; the table is
rehashed when it is more than three quarters full or when few buckets are left
that were never used.  The last pointer of the array is a sentinel for the
iterators.

Counters and bucket numbers are 32-bit unsigned and wrap around.  The arrays are
lists; an access outside of them, a failed assertion, and a probing loop that has
not ended after as many steps as there are buckets have no result.  Keys are over
any type with equality and the hash function is any function to 32 bits.  An
entry stands in its bucket by value, so that its bucket is its address.
-/

open Unsigned

/-- `StringMapEntryBase *`: null, the tombstone value, the value 2 behind the
last bucket, or an entry. -/
inductive Bucket (κ ν : Type) where
  | null
  | tombstone
  | sentinel
  | entry (key : κ) (second : ν)
  deriving DecidableEq, Repr

structure StringMapImpl (κ ν : Type) where
  TheTable : List (Bucket κ ν)
  HashTable : List Nat
  NumBuckets : Nat
  NumItems : Nat
  NumTombstones : Nat
  deriving DecidableEq, Repr

namespace StringMapImpl

variable {κ ν : Type} [DecidableEq κ] (HashString : κ -> BitVec 32)

/-- Writing one element of an array. -/
def store {α : Type} (array : List α) (i : Nat) (x : α) : Option (List α) :=
  if i < array.length then some (array.set i x) else none

/-- The array of buckets that `calloc` gives, with the sentinel stored. -/
def allocateTable (Size : Nat) : List (Bucket κ ν) := List.replicate Size .null ++ [.sentinel]

/-- The array of hash values that `calloc` gives. -/
def allocateHashes (Size : Nat) : List Nat := List.replicate Size 0

/-- The map without a table. -/
def unallocated : StringMapImpl κ ν where
  TheTable := []
  HashTable := []
  NumBuckets := 0
  NumItems := 0
  NumTombstones := 0

def init (InitSize : Nat) : Option (StringMapImpl κ ν) :=
  if InitSize &&& wrapSub InitSize 1 = 0 then
    let NumBuckets := if InitSize ≠ 0 then InitSize else 16
    some
      { TheTable := allocateTable NumBuckets
        HashTable := allocateHashes NumBuckets
        NumBuckets := NumBuckets
        NumItems := 0
        NumTombstones := 0 }
  else none

/-- The constructor. -/
def construct (InitSize : Nat) : Option (StringMapImpl κ ν) :=
  if InitSize ≠ 0 then init InitSize else some unallocated

/-! ## Searches -/

/-- The loop of `LookupBucketFor`. -/
def lookupLoop (Name : κ) (FullHashValue HTSize : Nat) (s : StringMapImpl κ ν) :
    Nat -> Nat -> Nat -> Option Nat -> Option (Nat × StringMapImpl κ ν)
  | 0, _, _, _ => none
  | fuel + 1, BucketNo, ProbeAmt, FirstTombstone => do
    let next := wrapAdd BucketNo ProbeAmt &&& wrapSub HTSize 1
    match <- s.TheTable[BucketNo]? with
    | .null =>
      let found := FirstTombstone.getD BucketNo
      let HashTable <- store s.HashTable found FullHashValue
      some (found, { s with HashTable := HashTable })
    | .tombstone =>
      lookupLoop Name FullHashValue HTSize s fuel next (wrapAdd ProbeAmt 1)
        (FirstTombstone.or (some BucketNo))
    | .sentinel => none
    | .entry key _ =>
      let hash <- s.HashTable[BucketNo]?
      if hash = FullHashValue ∧ Name = key then some (BucketNo, s)
      else lookupLoop Name FullHashValue HTSize s fuel next (wrapAdd ProbeAmt 1) FirstTombstone

def LookupBucketFor (Name : κ) (s : StringMapImpl κ ν) : Option (Nat × StringMapImpl κ ν) := do
  let s <- if s.NumBuckets = 0 then init 16 else some s
  let HTSize := s.NumBuckets
  let FullHashValue := (HashString Name).toNat
  lookupLoop Name FullHashValue HTSize s HTSize (FullHashValue &&& wrapSub HTSize 1) 1 none

/-- The loop of `FindKey`; -1 is `none`. -/
def findLoop (Key : κ) (FullHashValue HTSize : Nat) (s : StringMapImpl κ ν) :
    Nat -> Nat -> Nat -> Option (Option Nat)
  | 0, _, _ => none
  | fuel + 1, BucketNo, ProbeAmt => do
    let next := wrapAdd BucketNo ProbeAmt &&& wrapSub HTSize 1
    match <- s.TheTable[BucketNo]? with
    | .null => some none
    | .tombstone => findLoop Key FullHashValue HTSize s fuel next (wrapAdd ProbeAmt 1)
    | .sentinel => none
    | .entry key _ =>
      let hash <- s.HashTable[BucketNo]?
      if hash = FullHashValue ∧ Key = key then some (some BucketNo)
      else findLoop Key FullHashValue HTSize s fuel next (wrapAdd ProbeAmt 1)

def FindKey (Key : κ) (s : StringMapImpl κ ν) : Option (Option Nat) :=
  let HTSize := s.NumBuckets
  if HTSize = 0 then some none
  else
    let FullHashValue := (HashString Key).toNat
    findLoop Key FullHashValue HTSize s HTSize (FullHashValue &&& wrapSub HTSize 1) 1

/-! ## Rehashing -/

/-- The loop that probes a new table for a null bucket. -/
def rehashProbe (NewTableArray : List (Bucket κ ν))
    (NewSize : Nat) : Nat -> Nat -> Nat -> Option Nat
  | 0, _, _ => none
  | fuel + 1, NewBucket, ProbeSize => do
    let NewBucket := wrapAdd NewBucket ProbeSize &&& wrapSub NewSize 1
    match <- NewTableArray[NewBucket]? with
    | .null => some NewBucket
    | _ => rehashProbe NewTableArray NewSize fuel NewBucket (wrapAdd ProbeSize 1)

/-- The bucket of a new table that an entry moves to. -/
def rehashSlot (NewTableArray : List (Bucket κ ν)) (NewSize FullHash : Nat) : Option Nat := do
  let NewBucket := FullHash &&& wrapSub NewSize 1
  match <- NewTableArray[NewBucket]? with
  | .null => some NewBucket
  | _ => rehashProbe NewTableArray NewSize (NewSize + 1) NewBucket 1

/-- The arrays under construction and the new number of the bucket asked about. -/
structure Rehash (κ ν : Type) where
  NewTableArray : List (Bucket κ ν)
  NewHashArray : List Nat
  NewBucketNo : Nat

/-- The body of the loop of `RehashTable`: the entry of one old bucket moves. -/
def rehashBucket (s : StringMapImpl κ ν) (NewSize BucketNo : Nat) (r : Rehash κ ν) (I : Nat) :
    Option (Rehash κ ν) := do
  match <- s.TheTable[I]? with
  | .null => some r
  | .tombstone => some r
  | bucket =>
    let FullHash <- s.HashTable[I]?
    let NewBucket <- rehashSlot r.NewTableArray NewSize FullHash
    let NewTableArray <- store r.NewTableArray NewBucket bucket
    let NewHashArray <- store r.NewHashArray NewBucket FullHash
    some ⟨NewTableArray, NewHashArray, if I = BucketNo then NewBucket else r.NewBucketNo⟩

/-- The size that `RehashTable` chooses, if it rehashes at all. -/
def rehashSize (s : StringMapImpl κ ν) : Option Nat :=
  if wrapMul s.NumItems 4 > wrapMul s.NumBuckets 3 then some (wrapMul s.NumBuckets 2)
  else if wrapSub s.NumBuckets (wrapAdd s.NumItems s.NumTombstones) <= s.NumBuckets / 8 then
    some s.NumBuckets
  else none

def RehashTable (BucketNo : Nat) (s : StringMapImpl κ ν) : Option (Nat × StringMapImpl κ ν) :=
  match s.rehashSize with
  | none => some (BucketNo, s)
  | some NewSize => do
    let r <- (List.range s.NumBuckets).foldlM (s.rehashBucket NewSize BucketNo)
      ⟨allocateTable NewSize, allocateHashes NewSize, BucketNo⟩
    some (r.NewBucketNo,
      { s with
        TheTable := r.NewTableArray
        HashTable := r.NewHashArray
        NumBuckets := NewSize
        NumTombstones := 0 })

/-! ## Changing the map -/

/-- `RemoveKey` by key, which returns the bucket of the removed entry. -/
def RemoveKey (Key : κ) (s : StringMapImpl κ ν) : Option (Option Nat × StringMapImpl κ ν) := do
  match <- s.FindKey HashString Key with
  | none => some (none, s)
  | some Bucket =>
    let TheTable <- store s.TheTable Bucket .tombstone
    let s :=
      { s with
        TheTable := TheTable
        NumItems := wrapSub s.NumItems 1
        NumTombstones := wrapAdd s.NumTombstones 1 }
    if wrapAdd s.NumItems s.NumTombstones <= s.NumBuckets then some (some Bucket, s) else none

/-- `RemoveKey` of an entry, which asserts that it is the one of its key. -/
def RemoveEntry (Bucket : Nat) (s : StringMapImpl κ ν) : Option (StringMapImpl κ ν) := do
  match <- s.TheTable[Bucket]? with
  | .entry key _ =>
    let (removed, s) <- s.RemoveKey HashString key
    if removed = some Bucket then some s else none
  | _ => none

/-- `insert` of a pair: the bucket of the key, and whether the pair was inserted. -/
def insert (key : κ) (value : ν) (s : StringMapImpl κ ν) :
    Option ((Nat × Bool) × StringMapImpl κ ν) := do
  let (BucketNo, s) <- s.LookupBucketFor HashString key
  let Bucket <- s.TheTable[BucketNo]?
  match Bucket with
  | .null | .tombstone =>
    let TheTable <- store s.TheTable BucketNo (.entry key value)
    let s :=
      { s with
        TheTable := TheTable
        NumItems := wrapAdd s.NumItems 1
        NumTombstones :=
          match Bucket with
          | .tombstone => wrapSub s.NumTombstones 1
          | _ => s.NumTombstones }
    if wrapAdd s.NumItems s.NumTombstones <= s.NumBuckets then
      let (BucketNo, s) <- s.RehashTable BucketNo
      some ((BucketNo, true), s)
    else none
  | _ => some ((BucketNo, false), s)

def clear (s : StringMapImpl κ ν) : StringMapImpl κ ν :=
  if s.NumItems = 0 then s
  else
    { s with
      TheTable := List.replicate s.NumBuckets .null ++ s.TheTable.drop s.NumBuckets
      NumItems := 0
      NumTombstones := 0 }

/-- `erase` of a key. -/
def erase (Key : κ) (s : StringMapImpl κ ν) : Option (Bool × StringMapImpl κ ν) := do
  match <- s.FindKey HashString Key with
  | none => some (false, s)
  | some Bucket =>
    let s <- s.RemoveEntry HashString Bucket
    some (true, s)

/-- The entry that an iterator refers to. -/
def entryAt (Bucket : Nat) (s : StringMapImpl κ ν) : Option (κ × ν) := do
  match <- s.TheTable[Bucket]? with
  | .entry key value => some (key, value)
  | _ => none

/-- `find`, and the entry it refers to if it is not the end. -/
def find (Key : κ) (s : StringMapImpl κ ν) : Option (Option (κ × ν)) := do
  match <- s.FindKey HashString Key with
  | none => some none
  | some Bucket =>
    let entry <- s.entryAt Bucket
    some (some entry)

/-- `lookup`: the value of a key, or else the default one. -/
def lookup [Inhabited ν] (Key : κ) (s : StringMapImpl κ ν) : Option ν := do
  match <- s.find HashString Key with
  | none => some default
  | some (_, value) => some value

/-- `operator[]`, which returns the bucket of its reference. -/
def index [Inhabited ν] (Key : κ) (s : StringMapImpl κ ν) : Option (Nat × StringMapImpl κ ν) := do
  let ((Bucket, _), s) <- s.insert HashString Key default
  some (Bucket, s)

/-- A write through the reference to the value of an entry. -/
def assign (Bucket : Nat) (value : ν) (s : StringMapImpl κ ν) : Option (StringMapImpl κ ν) := do
  let (key, _) <- s.entryAt Bucket
  let TheTable <- store s.TheTable Bucket (.entry key value)
  some { s with TheTable := TheTable }

end StringMapImpl
end StringMap
end LlvmProject

namespace LlvmProject

open Option

namespace StringMap

/-!
## Searching a string map

The buckets of a map are the slots of a table with quadratic probing, whose
searches start at the full hash values.  `LookupBucketFor` and `FindKey` stop
where the search of the table stops.
-/

open Unsigned QuadraticProbing

variable {κ ν : Type}

/-- The slot that a bucket stands for. -/
def Bucket.slot : Bucket κ ν -> Slot κ ν
  | .null => .empty
  | .tombstone => .tombstone
  | .sentinel => .empty
  | .entry key value => .live key value

namespace StringMapImpl

/-- The slots of an array of buckets. -/
def slots (table : List (Bucket κ ν)) (b : Nat) : Slot κ ν := (table[b]?.getD .null).slot

/-- The full hash values, as the starts of searches. -/
def start (HashString : κ -> BitVec 32) (key : κ) : Nat := (HashString key).toNat

variable {HashString : κ -> BitVec 32} {TheTable : List (Bucket κ ν)} {HashTable : List Nat}
  {k b i : Nat} {Name : κ} {value : ν}

/-- The arrays of a map with `2 ^ k` buckets. -/
structure Arrays (HashString : κ -> BitVec 32) (k : Nat) (TheTable : List (Bucket κ ν))
    (HashTable : List Nat) : Prop where
  tableLength : TheTable.length = 2 ^ k + 1
  hashLength : HashTable.length = 2 ^ k
  proper : ∀ b < 2 ^ k, TheTable[b]? ≠ some .sentinel
  last : TheTable[2 ^ k]? = some .sentinel
  hashed : ∀ b < 2 ^ k, ∀ key value, TheTable[b]? = some (.entry key value) ->
    HashTable[b]? = some (start HashString key)
  placed : Placed (2 ^ k) (start HashString) (slots TheTable)

theorem slots_of_get {bucket : Bucket κ ν} (found : TheTable[b]? = some bucket) :
    slots TheTable b = bucket.slot := by
  rw [slots, found, getD_some]

theorem slots_set (bucket : Bucket κ ν) (inside : b < TheTable.length) :
    slots (TheTable.set b bucket) = Function.update (slots TheTable) b bucket.slot := by
  funext c
  by_cases same : c = b
  · rw [same, Function.update_self, slots, List.getElem?_set_self inside, getD_some]
  · rw [Function.update_of_ne same, slots, List.getElem?_set_ne (Ne.symm same), slots]

theorem store_eq {α : Type} {array : List α} {x : α} (inside : i < array.length) :
    store array i x = some (array.set i x) :=
  if_pos inside

section

variable (arrays : Arrays HashString k TheTable HashTable) (small : b < 2 ^ k)
include arrays small

theorem Arrays.inside : b < TheTable.length := by
  rw [arrays.tableLength]
  exact Nat.lt_succ_of_lt small

theorem Arrays.hashInside : b < HashTable.length := by
  rwa [arrays.hashLength]

theorem Arrays.get_cases :
    (TheTable[b]? = some .null ∧ slots TheTable b = .empty) ∨
      (TheTable[b]? = some .tombstone ∧ slots TheTable b = .tombstone) ∨
      ∃ key value, TheTable[b]? = some (.entry key value) ∧ slots TheTable b = .live key value := by
  have inside := arrays.inside small
  have found := List.getElem?_eq_getElem inside
  cases bucket : TheTable[b] with
  | null =>
    rw [bucket] at found
    exact .inl ⟨found, slots_of_get found⟩
  | tombstone =>
    rw [bucket] at found
    exact .inr (.inl ⟨found, slots_of_get found⟩)
  | sentinel =>
    rw [bucket] at found
    exact absurd found (arrays.proper b small)
  | entry key value =>
    rw [bucket] at found
    exact .inr (.inr ⟨key, value, found, slots_of_get found⟩)

theorem Arrays.get_live {key : κ} (live : slots TheTable b = .live key value) :
    TheTable[b]? = some (.entry key value) := by
  rcases arrays.get_cases small with ⟨_, slot⟩ | ⟨_, slot⟩ | ⟨key', value', found, slot⟩
  · rw [live] at slot
    cases slot
  · rw [live] at slot
    cases slot
  · rw [live] at slot
    injection slot with sameKey sameValue
    rw [found, sameKey, sameValue]

theorem Arrays.get_empty (empty : slots TheTable b = .empty) : TheTable[b]? = some .null := by
  rcases arrays.get_cases small with ⟨found, _⟩ | ⟨_, slot⟩ | ⟨key', value', _, slot⟩
  · exact found
  · rw [empty] at slot
    cases slot
  · rw [empty] at slot
    cases slot

end

/-! ## The loops -/

section Loops

variable {s : StringMapImpl κ ν}

theorem next_probe {start j : Nat} (small : k < 32) :
    wrapAdd (probe (2 ^ k) start j) (j + 1) &&& wrapSub (2 ^ k) 1 = probe (2 ^ k) start (j + 1) := by
  rw [add_and_sub_one _ _ small, probe_succ]

theorem first_probe {start : Nat} (small : k < 32) :
    start &&& wrapSub (2 ^ k) 1 = probe (2 ^ k) start 0 := by
  rw [and_sub_one _ small, probe_zero]

theorem next_amount {j : Nat} (small : k < 32) (less : j < 2 ^ k) : wrapAdd (j + 1) 1 = j + 1 + 1 := by
  have bound := pow_le small
  exact wrapAdd_of_lt (by omega)

/-- The loop goes on until the search stops. -/
theorem lookupLoop_advance [DecidableEq κ] (arrays : Arrays HashString k s.TheTable s.HashTable)
    (small : k < 32) (stop : Stop (2 ^ k) (slots s.TheTable) (start HashString Name) Name i) (less :
    i < 2 ^ k) (j fuel : Nat) (before : j <= i) :
    lookupLoop Name (start HashString Name) (2 ^ k) s (j + fuel)
        (probe (2 ^ k) (start HashString Name) 0) 1 none =
      lookupLoop Name (start HashString Name) (2 ^ k) s fuel
        (probe (2 ^ k) (start HashString Name) j) (j + 1)
        (firstTombstone (2 ^ k) (slots s.TheTable) (start HashString Name) j) := by
  induction j generalizing fuel with
  | zero => rw [zero_add, firstTombstone]
  | succ j ih =>
    have here := probe_lt (Nat.two_pow_pos k) (start HashString Name) j
    have goesOn := stop.before j before
    have amount : wrapAdd (j + 1) 1 = j + 1 + 1 := next_amount small (by omega)
    rw [show j + 1 + fuel = j + (fuel + 1) by omega, ih _ (by omega)]
    rcases arrays.get_cases here with ⟨_, slot⟩ | ⟨found, slot⟩ | ⟨key, value, found, slot⟩
    · exact absurd slot goesOn.1
    · simp only [lookupLoop, found, bind_eq_bind, bind_some, next_probe small,
        amount, firstTombstone, slot, Slot.isTombstone, if_true]
    · have hash := arrays.hashed _ here key value found
      have ne : ¬(start HashString key = start HashString Name ∧ Name = key) := by
        rintro ⟨_, same⟩
        exact goesOn.2 value (same ▸ slot)
      simp only [lookupLoop, found, hash, bind_eq_bind, bind_some, next_probe small, amount,
        firstTombstone, slot, Slot.isTombstone, if_neg ne, Bool.false_eq_true, if_false, or_none]

theorem findLoop_advance [DecidableEq κ] (arrays : Arrays HashString k s.TheTable s.HashTable)
    (small : k < 32) (stop : Stop (2 ^ k) (slots s.TheTable) (start HashString Name) Name i) (less :
    i < 2 ^ k) (j fuel : Nat) (before : j <= i) :
    findLoop Name (start HashString Name) (2 ^ k) s (j + fuel)
        (probe (2 ^ k) (start HashString Name) 0) 1 =
      findLoop Name (start HashString Name) (2 ^ k) s fuel
        (probe (2 ^ k) (start HashString Name) j) (j + 1) := by
  induction j generalizing fuel with
  | zero => rw [zero_add]
  | succ j ih =>
    have here := probe_lt (Nat.two_pow_pos k) (start HashString Name) j
    have goesOn := stop.before j before
    have amount : wrapAdd (j + 1) 1 = j + 1 + 1 := next_amount small (by omega)
    rw [show j + 1 + fuel = j + (fuel + 1) by omega, ih _ (by omega)]
    rcases arrays.get_cases here with ⟨_, slot⟩ | ⟨found, slot⟩ | ⟨key, value, found, slot⟩
    · exact absurd slot goesOn.1
    · simp only [findLoop, found, bind_eq_bind, bind_some, next_probe small, amount]
    · have hash := arrays.hashed _ here key value found
      have ne : ¬(start HashString key = start HashString Name ∧ Name = key) := by
        rintro ⟨_, same⟩
        exact goesOn.2 value (same ▸ slot)
      simp only [findLoop, found, hash, bind_eq_bind, bind_some,
        next_probe small, amount, if_neg ne]

/-! ## The map -/

/-- A map with `2 ^ k` buckets that refines an abstract one.  When it is settled some
bucket is empty; between an insertion and the rehashing none need be. -/
structure Filled (HashString : κ -> BitVec 32) (s : StringMapImpl κ ν) (m : κ -> Option ν)
    (k : Nat) : Prop where
  small : k < 32
  size : s.NumBuckets = 2 ^ k
  arrays : Arrays HashString k s.TheTable s.HashTable
  represents : Represents (2 ^ k) (slots s.TheTable) m
  items : s.NumItems = count (2 ^ k) (slots s.TheTable) Slot.isLive
  tombstones : s.NumTombstones = count (2 ^ k) (slots s.TheTable) Slot.isTombstone
  few : s.NumItems < 2 ^ 30

structure Settled (HashString : κ -> BitVec 32) (s : StringMapImpl κ ν) (m : κ -> Option ν)
    (k : Nat) : Prop extends Filled HashString s m k where
  room : s.NumItems + s.NumTombstones < 2 ^ k

variable {m : κ -> Option ν}

section

variable (settled : Settled HashString s m k)
include settled

/-- In a settled map every search stops. -/
theorem Settled.exists_stop (Name : κ) :
    ∃ i < 2 ^ k, Stop (2 ^ k) (slots s.TheTable) (start HashString Name) Name i := by
  have some := settled.room
  rw [settled.items, settled.tombstones] at some
  rcases exists_empty some with ⟨b, inside, empty⟩
  exact QuadraticProbing.exists_stop _ Name inside empty

theorem Settled.FindKey_spec [DecidableEq κ] (Key : κ) :
    (∃ b < 2 ^ k, ∃ value, m Key = some value ∧ slots s.TheTable b = .live Key value ∧
      s.FindKey HashString Key = some (some b)) ∨
    (m Key = none ∧ s.FindKey HashString Key = some none) := by
  rcases settled.exists_stop Key with ⟨i, less, stop⟩
  have here := probe_lt (Nat.two_pow_pos k) (start HashString Key) i
  have nonzero : 2 ^ k ≠ 0 := (Nat.two_pow_pos k).ne'
  have run : s.FindKey HashString Key = findLoop Key (start HashString Key) (2 ^ k) s
      ((2 ^ k - i - 1) + 1) (probe (2 ^ k) (start HashString Key) i) (i + 1) := by
    rw [<- findLoop_advance settled.arrays settled.small stop less i _ (le_refl i),
      show i + (2 ^ k - i - 1 + 1) = 2 ^ k by omega]
    simp only [FindKey, settled.size, if_neg nonzero, <- first_probe settled.small]
    rfl
  rcases stop.last with empty | ⟨value, live⟩
  · refine .inr ⟨settled.represents.absent (stop.absent settled.arrays.placed empty), ?_⟩
    rw [run]
    simp only [findLoop, settled.arrays.get_empty here empty, bind_eq_bind, bind_some]
  · have found := settled.arrays.get_live here live
    refine .inl ⟨_, here, value, settled.represents.found here live, live, ?_⟩
    rw [run]
    simp only [findLoop, found, settled.arrays.hashed _ here _ _ found, bind_eq_bind,
      bind_some, and_self, if_true]

/-- The bucket for a key: its own, or else one that its searches come to. -/
theorem Settled.LookupBucketFor_spec [DecidableEq κ] (Name : κ) :
    (∃ b < 2 ^ k, ∃ value, m Name = some value ∧ slots s.TheTable b = .live Name value ∧
      s.LookupBucketFor HashString Name = some (b, s)) ∨
    (∃ t, m Name = none ∧ (∀ b < 2 ^ k, ∀ v, slots s.TheTable b ≠ .live Name v) ∧
      Available (2 ^ k) (slots s.TheTable) (start HashString Name) t ∧
      s.LookupBucketFor HashString Name =
        some (t, { s with HashTable := s.HashTable.set t (start HashString Name) })) := by
  rcases settled.exists_stop Name with ⟨i, less, stop⟩
  have here := probe_lt (Nat.two_pow_pos k) (start HashString Name) i
  have nonzero : 2 ^ k ≠ 0 := (Nat.two_pow_pos k).ne'
  have run : s.LookupBucketFor HashString Name =
      lookupLoop Name (start HashString Name) (2 ^ k) s ((2 ^ k - i - 1) + 1)
        (probe (2 ^ k) (start HashString Name) i) (i + 1)
        (firstTombstone (2 ^ k) (slots s.TheTable) (start HashString Name) i) := by
    rw [<- lookupLoop_advance settled.arrays settled.small stop less i _ (le_refl i),
      show i + (2 ^ k - i - 1 + 1) = 2 ^ k by omega]
    simp only [LookupBucketFor, settled.size, if_neg nonzero, <- first_probe settled.small,
      bind_eq_bind, bind_some]
    rfl
  rcases stop.last with empty | ⟨value, live⟩
  · have absent := stop.absent settled.arrays.placed empty
    have available := stop.available (Nat.two_pow_pos k) empty
    refine .inr ⟨_, settled.represents.absent absent, absent, available, ?_⟩
    have stored := store_eq (x := start HashString Name)
      (settled.arrays.hashInside available.inside)
    rw [target] at stored
    rw [run]
    simp only [lookupLoop, settled.arrays.get_empty here empty, bind_eq_bind,
      bind_some, stored, target]
  · have found := settled.arrays.get_live here live
    refine .inl ⟨_, here, value, settled.represents.found here live, live, ?_⟩
    rw [run]
    simp only [lookupLoop, found, settled.arrays.hashed _ here _ _ found, bind_eq_bind,
      bind_some, and_self, if_true]

end

end Loops

end StringMapImpl
end StringMap
end LlvmProject
