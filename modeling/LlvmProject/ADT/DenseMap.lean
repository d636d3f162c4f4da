import LlvmProject.Library.QuadraticProbing
import LlvmProject.Support.MathExtras

namespace LlvmProject
namespace DenseMap

/-!
# Dense maps

`DenseMapBase` keeps its entries in an open-addressed table whose unused buckets
have an empty key or a tombstone key.  `DenseMap` allocates the table, and has
none at first.  `SmallDenseMap` keeps a fixed number of buckets inline and turns
to an allocated table when these do not suffice.

One record stands for the data of both derived classes, and an instance of the
templates says which one it is.  The bucket array is a list of as many buckets as
there are; buckets of fresh memory have an unspecified key and no value.  Counters
are 32-bit unsigned and wrap around.  A failed assertion has no result, except in
a build without assertions, and neither has an access outside an array, the use of
a value that was not constructed, or a probing loop that has not ended after as
many steps as there are buckets.
-/

open Unsigned MathExtras

/-- The class derived from `DenseMapBase`. -/
inductive Derived where
  | denseMap
  | smallDenseMap (InlineBuckets : Nat)
  deriving DecidableEq, Repr

/-- An instance of the templates: what `KeyInfoT` gives, the derived class, and
whether assertions are left out of the build. -/
structure Instance (κ : Type) where
  getEmptyKey : κ
  getTombstoneKey : κ
  getHashValue : κ -> BitVec 32
  distinct : getEmptyKey ≠ getTombstoneKey
  uninitialized : κ
  derived : Derived
  NDEBUG : Bool

/-- A bucket: its key, and its value if one is constructed. -/
structure Bucket (κ ν : Type) where
  first : κ
  second : Option ν
  deriving DecidableEq, Repr

/-- The data of a map.  When a `SmallDenseMap` is small the buckets are the inline
ones; otherwise, and in a `DenseMap`, they are allocated. -/
structure DenseMapBase (κ ν : Type) where
  Small : Bool
  Buckets : List (Bucket κ ν)
  NumEntries : Nat
  NumTombstones : Nat
  deriving DecidableEq, Repr

namespace DenseMapBase

variable {κ ν : Type}

def getNumBuckets (s : DenseMapBase κ ν) : Nat := s.Buckets.length

end DenseMapBase

namespace Instance

variable {κ ν : Type} [DecidableEq κ] (T : Instance κ)

def assert (cond : Prop) [Decidable cond] : Option Unit :=
  if T.NDEBUG = true ∨ cond then some () else none

/-- Writing one element of an array. -/
def store (Buckets : List (Bucket κ ν)) (i : Nat) (B : Bucket κ ν) : Option (List (Bucket κ ν)) :=
  if i < Buckets.length then some (Buckets.set i B) else none

/-- The key is that of an entry. -/
def IsLive (key : κ) : Prop := key ≠ T.getEmptyKey ∧ key ≠ T.getTombstoneKey

instance (key : κ) : Decidable (T.IsLive key) := inferInstanceAs (Decidable (_ ∧ _))

/-- Memory for buckets. -/
def rawBuckets (Num : Nat) : List (Bucket κ ν) := List.replicate Num ⟨T.uninitialized, none⟩

def setNumEntries (Num : Nat) (s : DenseMapBase κ ν) : Option (DenseMapBase κ ν) :=
  match T.derived with
  | .denseMap => some { s with NumEntries := Num }
  | .smallDenseMap _ => do
    T.assert (Num < 2 ^ 31 - 1)
    some { s with NumEntries := Num % 2 ^ 31 }

def incrementNumEntries (s : DenseMapBase κ ν) : Option (DenseMapBase κ ν) :=
  T.setNumEntries (wrapAdd s.NumEntries 1) s

def decrementNumEntries (s : DenseMapBase κ ν) : Option (DenseMapBase κ ν) :=
  T.setNumEntries (wrapSub s.NumEntries 1) s

/-! ## `DenseMapBase` -/

/-- The loop of `LookupBucketFor`. -/
def lookupLoop (Val : κ) (s : DenseMapBase κ ν) :
    Nat -> Nat -> Nat -> Option Nat -> Option (Nat × Bool)
  | 0, _, _, _ => none
  | fuel + 1, BucketNo, ProbeAmt, FoundTombstone => do
    let ThisBucket <- s.Buckets[BucketNo]?
    if Val = ThisBucket.first then some (BucketNo, true)
    else if ThisBucket.first = T.getEmptyKey then some (FoundTombstone.getD BucketNo, false)
    else
      lookupLoop Val s fuel (wrapAdd BucketNo ProbeAmt &&& wrapSub s.getNumBuckets 1) (wrapAdd ProbeAmt 1)
        (FoundTombstone.or
          (if ThisBucket.first = T.getTombstoneKey then some BucketNo else none))

/-- The bucket for a key, if there are any, and whether it has the key. -/
def LookupBucketFor (Val : κ) (s : DenseMapBase κ ν) : Option (Option Nat × Bool) :=
  if s.getNumBuckets = 0 then some (none, false)
  else do
    T.assert (T.IsLive Val)
    let (FoundBucket, found) <- T.lookupLoop Val s s.getNumBuckets
      ((T.getHashValue Val).toNat &&& wrapSub s.getNumBuckets 1) 1 none
    some (some FoundBucket, found)

def initEmpty (s : DenseMapBase κ ν) : Option (DenseMapBase κ ν) := do
  let s <- T.setNumEntries 0 s
  T.assert (s.getNumBuckets &&& wrapSub s.getNumBuckets 1 = 0)
  some
    { s with
      NumTombstones := 0
      Buckets := s.Buckets.map fun B => { B with first := T.getEmptyKey } }

/-- The values and keys of all buckets are destroyed. -/
def destroyAll (s : DenseMapBase κ ν) : DenseMapBase κ ν :=
  { s with Buckets := T.rawBuckets s.getNumBuckets }

/-- The body of the loop of `moveFromOldBuckets`. -/
def moveBucket (s : DenseMapBase κ ν) (B : Bucket κ ν) : Option (DenseMapBase κ ν) :=
  if T.IsLive B.first then do
    let (DestBucket, FoundVal) <- T.LookupBucketFor B.first s
    T.assert (FoundVal = false)
    let DestBucket <- DestBucket
    let value <- B.second
    let Buckets <- store s.Buckets DestBucket ⟨B.first, some value⟩
    T.incrementNumEntries { s with Buckets := Buckets }
  else some s

def moveFromOldBuckets (OldBuckets : List (Bucket κ ν)) (s : DenseMapBase κ ν) :
    Option (DenseMapBase κ ν) := do
  let s <- T.initEmpty s
  OldBuckets.foldlM T.moveBucket s

/-! ## `DenseMap` -/

/-- The size that `grow` chooses. -/
def growSize (AtLeast : Nat) : Nat := max 64 (wrap (NextPowerOf2 (wrapSub AtLeast 1)))

/-- `1 << n`, which has to be an `int`. -/
def shiftOne (n : Nat) : Option Nat := if n < 31 then some (2 ^ n) else none

def DenseMap_init (InitBuckets : Nat) (s : DenseMapBase κ ν) : Option (DenseMapBase κ ν) :=
  let s := { s with Buckets := T.rawBuckets InitBuckets }
  if InitBuckets ≠ 0 then T.initEmpty s
  else some { s with NumEntries := 0, NumTombstones := 0 }

def DenseMap_grow (AtLeast : Nat) (s : DenseMapBase κ ν) : Option (DenseMapBase κ ν) :=
  let OldBuckets := s.Buckets
  let s := { s with Buckets := T.rawBuckets (growSize AtLeast) }
  if OldBuckets = [] then T.initEmpty s
  else T.moveFromOldBuckets OldBuckets s

/-- The size that `shrink_and_clear` chooses. -/
def DenseMap_shrinkSize (OldNumEntries : Nat) : Option Nat :=
  if OldNumEntries ≠ 0 then (shiftOne (Log2_32_Ceil OldNumEntries + 1)).map (max 64) else some 0

def DenseMap_shrink_and_clear (s : DenseMapBase κ ν) : Option (DenseMapBase κ ν) := do
  let OldNumEntries := s.NumEntries
  let s := T.destroyAll s
  let NewNumBuckets <- DenseMap_shrinkSize OldNumEntries
  if NewNumBuckets = s.getNumBuckets then T.initEmpty s
  else T.DenseMap_init NewNumBuckets s

/-! ## `SmallDenseMap` -/

def allocateBuckets (InlineBuckets Num : Nat) : Option (List (Bucket κ ν)) := do
  T.assert (Num > InlineBuckets)
  some (T.rawBuckets Num)

def SmallDenseMap_init (InlineBuckets InitBuckets : Nat) (s : DenseMapBase κ ν) :
    Option (DenseMapBase κ ν) :=
  if InitBuckets > InlineBuckets then do
    let Buckets <- T.allocateBuckets InlineBuckets InitBuckets
    T.initEmpty { s with Small := false, Buckets := Buckets }
  else T.initEmpty { s with Small := true, Buckets := T.rawBuckets InlineBuckets }

/-- The body of the loop that moves inline buckets to temporary storage. -/
def moveInline (InlineBuckets : Nat) (Tmp : List (Bucket κ ν)) (P : Bucket κ ν) :
    Option (List (Bucket κ ν)) :=
  if T.IsLive P.first then do
    T.assert (Tmp.length < InlineBuckets)
    let value <- P.second
    some (Tmp ++ [⟨P.first, some value⟩])
  else some Tmp

def SmallDenseMap_grow (InlineBuckets AtLeast : Nat) (s : DenseMapBase κ ν) :
    Option (DenseMapBase κ ν) :=
  let AtLeast := if AtLeast >= InlineBuckets then growSize AtLeast else AtLeast
  if s.Small then
    if AtLeast < InlineBuckets then some s
    else do
      let Tmp <- s.Buckets.foldlM (T.moveInline InlineBuckets) []
      let Buckets <- T.allocateBuckets InlineBuckets AtLeast
      T.moveFromOldBuckets Tmp { s with Small := false, Buckets := Buckets }
  else do
    let OldBuckets := s.Buckets
    let s <-
      if AtLeast <= InlineBuckets then
        some { s with Small := true, Buckets := T.rawBuckets InlineBuckets }
      else do
        let Buckets <- T.allocateBuckets InlineBuckets AtLeast
        some { s with Buckets := Buckets }
    T.moveFromOldBuckets OldBuckets s

/-- The size that `shrink_and_clear` chooses. -/
def SmallDenseMap_shrinkSize (InlineBuckets OldSize : Nat) : Option Nat :=
  if OldSize ≠ 0 then do
    let NewNumBuckets <- shiftOne (Log2_32_Ceil OldSize + 1)
    some (if NewNumBuckets > InlineBuckets ∧ NewNumBuckets < 64 then 64 else NewNumBuckets)
  else some 0

def SmallDenseMap_shrink_and_clear (InlineBuckets : Nat) (s : DenseMapBase κ ν) :
    Option (DenseMapBase κ ν) := do
  let OldSize := s.NumEntries
  let s := T.destroyAll s
  let NewNumBuckets <- SmallDenseMap_shrinkSize InlineBuckets OldSize
  if (s.Small ∧ NewNumBuckets <= InlineBuckets) ∨ (¬s.Small ∧ NewNumBuckets = s.getNumBuckets) then
    T.initEmpty s
  else T.SmallDenseMap_init InlineBuckets NewNumBuckets s

/-! ## The derived class -/

def init (InitBuckets : Nat) (s : DenseMapBase κ ν) : Option (DenseMapBase κ ν) :=
  match T.derived with
  | .denseMap => T.DenseMap_init InitBuckets s
  | .smallDenseMap InlineBuckets => T.SmallDenseMap_init InlineBuckets InitBuckets s

/-- The constructor. -/
def construct (NumInitBuckets : Nat) : Option (DenseMapBase κ ν) :=
  T.init NumInitBuckets ⟨false, [], 0, 0⟩

def grow (AtLeast : Nat) (s : DenseMapBase κ ν) : Option (DenseMapBase κ ν) :=
  match T.derived with
  | .denseMap => T.DenseMap_grow AtLeast s
  | .smallDenseMap InlineBuckets => T.SmallDenseMap_grow InlineBuckets AtLeast s

def shrink_and_clear (s : DenseMapBase κ ν) : Option (DenseMapBase κ ν) :=
  match T.derived with
  | .denseMap => T.DenseMap_shrink_and_clear s
  | .smallDenseMap InlineBuckets => T.SmallDenseMap_shrink_and_clear InlineBuckets s

/-! ## Operations -/

def resize (Size : Nat) (s : DenseMapBase κ ν) : Option (DenseMapBase κ ν) :=
  if Size > s.getNumBuckets then T.grow Size s else some s

/-- The body of the loop of `clear`. -/
def clearBucket (s : DenseMapBase κ ν) (P : Nat) : Option (DenseMapBase κ ν) := do
  let bucket <- s.Buckets[P]?
  if bucket.first ≠ T.getEmptyKey then
    let Buckets <- store s.Buckets P ⟨T.getEmptyKey, none⟩
    if bucket.first ≠ T.getTombstoneKey then
      T.decrementNumEntries { s with Buckets := Buckets }
    else some { s with Buckets := Buckets }
  else some s

def clear (s : DenseMapBase κ ν) : Option (DenseMapBase κ ν) :=
  if s.NumEntries = 0 ∧ s.NumTombstones = 0 then some s
  else if wrapMul s.NumEntries 4 < s.getNumBuckets ∧ s.getNumBuckets > 64 then T.shrink_and_clear s
  else do
    let s <- (List.range s.getNumBuckets).foldlM T.clearBucket s
    T.assert (s.NumEntries = 0)
    some { s with NumTombstones := 0 }

/-- The bucket of an iterator: its key and its value. -/
def entryAt (Bucket : Nat) (s : DenseMapBase κ ν) : Option (κ × ν) := do
  let bucket <- s.Buckets[Bucket]?
  let value <- bucket.second
  some (bucket.first, value)

/-- `find`, and the entry it refers to if it is not the end. -/
def find (Val : κ) (s : DenseMapBase κ ν) : Option (Option (κ × ν)) := do
  let (TheBucket, found) <- T.LookupBucketFor Val s
  if found then
    let TheBucket <- TheBucket
    let entry <- entryAt TheBucket s
    some (some entry)
  else some none

/-- `lookup`: the value of a key, or else the default one. -/
def lookup [Inhabited ν] (Val : κ) (s : DenseMapBase κ ν) : Option ν := do
  let (TheBucket, found) <- T.LookupBucketFor Val s
  if found then
    let TheBucket <- TheBucket
    let (_, value) <- entryAt TheBucket s
    some value
  else some default

/-- The first part of `InsertIntoBucketImpl`: the table grows if it has too few
buckets left, and the bucket is then looked up again. -/
def growForInsertion (Key : κ) (TheBucket : Option Nat) (s : DenseMapBase κ ν) :
    Option (Option Nat × DenseMapBase κ ν) :=
  let NewNumEntries := wrapAdd s.NumEntries 1
  let NumBuckets := s.getNumBuckets
  if wrapMul NewNumEntries 4 >= wrapMul NumBuckets 3 then do
    let s <- T.grow (wrapMul NumBuckets 2) s
    let (TheBucket, _) <- T.LookupBucketFor Key s
    some (TheBucket, s)
  else if wrapSub NumBuckets (wrapAdd NewNumEntries s.NumTombstones) <= NumBuckets / 8 then do
    let s <- T.grow NumBuckets s
    let (TheBucket, _) <- T.LookupBucketFor Key s
    some (TheBucket, s)
  else some (TheBucket, s)

def InsertIntoBucketImpl (Key : κ) (TheBucket : Option Nat) (s : DenseMapBase κ ν) :
    Option (Nat × DenseMapBase κ ν) := do
  let (TheBucket, s) <- T.growForInsertion Key TheBucket s
  let TheBucket <- TheBucket
  let s <- T.incrementNumEntries s
  let bucket <- s.Buckets[TheBucket]?
  let s :=
    if bucket.first ≠ T.getEmptyKey then { s with NumTombstones := wrapSub s.NumTombstones 1 } else s
  some (TheBucket, s)

def InsertIntoBucket (Key : κ) (Value : ν) (TheBucket : Option Nat) (s : DenseMapBase κ ν) :
    Option (Nat × DenseMapBase κ ν) := do
  let (TheBucket, s) <- T.InsertIntoBucketImpl Key TheBucket s
  let Buckets <- store s.Buckets TheBucket ⟨Key, some Value⟩
  some (TheBucket, { s with Buckets := Buckets })

/-- `insert` of a pair: the bucket of the key, and whether the pair was inserted. -/
def insert (Key : κ) (Value : ν) (s : DenseMapBase κ ν) :
    Option ((Nat × Bool) × DenseMapBase κ ν) := do
  let (TheBucket, found) <- T.LookupBucketFor Key s
  if found then
    let TheBucket <- TheBucket
    some ((TheBucket, false), s)
  else
    let (TheBucket, s) <- T.InsertIntoBucket Key Value TheBucket s
    some ((TheBucket, true), s)

def FindAndConstruct [Inhabited ν] (Key : κ) (s : DenseMapBase κ ν) :
    Option (Nat × DenseMapBase κ ν) := do
  let (TheBucket, found) <- T.LookupBucketFor Key s
  if found then
    let TheBucket <- TheBucket
    some (TheBucket, s)
  else T.InsertIntoBucket Key default TheBucket s

def erase (Val : κ) (s : DenseMapBase κ ν) : Option (Bool × DenseMapBase κ ν) := do
  let (TheBucket, found) <- T.LookupBucketFor Val s
  if found then
    let TheBucket <- TheBucket
    let Buckets <- store s.Buckets TheBucket ⟨T.getTombstoneKey, none⟩
    let s <- T.decrementNumEntries { s with Buckets := Buckets }
    some (true, { s with NumTombstones := wrapAdd s.NumTombstones 1 })
  else some (false, s)

/-- A write through the reference to the value of an entry. -/
def assign (Bucket : Nat) (Value : ν) (s : DenseMapBase κ ν) : Option (DenseMapBase κ ν) := do
  let (key, _) <- entryAt Bucket s
  let Buckets <- store s.Buckets Bucket ⟨key, some Value⟩
  some { s with Buckets := Buckets }

end Instance
end DenseMap
end LlvmProject

namespace LlvmProject

open Option

namespace DenseMap
namespace Instance

/-!
## Searching a dense map

The buckets of a map are the slots of a table with quadratic probing.
`LookupBucketFor` stops where the search of the table stops, and gives a bucket
that may take the key if there is no entry for it.
-/

open Unsigned QuadraticProbing

variable {κ ν : Type} [DecidableEq κ]

/-- The slot that a bucket stands for. -/
def slot (T : Instance κ) (B : Bucket κ ν) : Slot κ ν :=
  if B.first = T.getEmptyKey then .empty
  else if B.first = T.getTombstoneKey then .tombstone
  else
    match B.second with
    | some value => .live B.first value
    | none => .tombstone

/-- The slots of an array of buckets. -/
def slots (T : Instance κ) (Buckets : List (Bucket κ ν)) (b : Nat) : Slot κ ν :=
  (Buckets[b]?.map T.slot).getD .empty

/-- The hash values, as the starts of searches. -/
def start (T : Instance κ) (key : κ) : Nat := (T.getHashValue key).toNat

variable {T : Instance κ} {Buckets : List (Bucket κ ν)} {s : DenseMapBase κ ν} {B : Bucket κ ν}
  {m : κ -> Option ν} {k b i : Nat} {Val key : κ} {value : ν}

theorem slot_empty (empty : B.first = T.getEmptyKey) : T.slot B = .empty := if_pos empty

theorem slot_tombstone (tombstone : B.first = T.getTombstoneKey) : T.slot B = .tombstone := by
  have ne : B.first ≠ T.getEmptyKey := by
    rw [tombstone]
    exact T.distinct.symm
  rw [slot, if_neg ne, if_pos tombstone]

theorem slot_live (live : T.IsLive key) : T.slot ⟨key, some value⟩ = .live key value := by
  rw [slot, if_neg live.1, if_neg live.2]

theorem slot_eq_live : T.slot B = .live key value ↔ T.IsLive key ∧ B = ⟨key, some value⟩ := by
  constructor
  · intro live
    by_cases empty : B.first = T.getEmptyKey
    · rw [slot_empty empty] at live
      cases live
    · by_cases tombstone : B.first = T.getTombstoneKey
      · rw [slot_tombstone tombstone] at live
        cases live
      · rw [slot, if_neg empty, if_neg tombstone] at live
        cases second : B.second with
        | none =>
          rw [second] at live
          cases live
        | some v =>
          rw [second] at live
          injection live with sameKey sameValue
          rw [<- sameKey, <- sameValue, <- second]
          exact ⟨⟨empty, tombstone⟩, rfl⟩
  · rintro ⟨live, rfl⟩
    exact slot_live live

omit [DecidableEq κ] in
theorem store_eq (inside : b < Buckets.length) : store Buckets b B = some (Buckets.set b B) :=
  if_pos inside

theorem slots_of_get (found : Buckets[b]? = some B) : T.slots Buckets b = T.slot B := by
  rw [slots, found, map_some, getD_some]

theorem slots_set (B : Bucket κ ν) (inside : b < Buckets.length) :
    T.slots (Buckets.set b B) = Function.update (T.slots Buckets) b (T.slot B) := by
  funext c
  by_cases same : c = b
  · rw [same, Function.update_self, slots_of_get (List.getElem?_set_self inside)]
  · rw [Function.update_of_ne same, slots, List.getElem?_set_ne (Ne.symm same), slots]

/-- A bucket array with `2 ^ k` buckets. -/
structure Table (T : Instance κ) (k : Nat) (Buckets : List (Bucket κ ν)) : Prop where
  size : Buckets.length = 2 ^ k
  constructed : ∀ B ∈ Buckets, T.IsLive B.first -> ∃ value, B.second = some value
  placed : Placed (2 ^ k) T.start (T.slots Buckets)

section

variable (table : T.Table k Buckets) (small : b < 2 ^ k)
include table small

theorem Table.inside : b < Buckets.length := by
  rwa [table.size]

theorem Table.get_cases :
    (∃ B, Buckets[b]? = some B ∧ B.first = T.getEmptyKey ∧ T.slots Buckets b = .empty) ∨
      (∃ B, Buckets[b]? = some B ∧ B.first = T.getTombstoneKey ∧ T.slots Buckets b = .tombstone) ∨
      ∃ key value, Buckets[b]? = some ⟨key, some value⟩ ∧ T.IsLive key ∧
        T.slots Buckets b = .live key value := by
  have inside := table.inside small
  have found := List.getElem?_eq_getElem inside
  have mem := List.getElem_mem inside
  generalize Buckets[b] = B at found mem
  by_cases empty : B.first = T.getEmptyKey
  · exact .inl ⟨B, found, empty, (slots_of_get found).trans (slot_empty empty)⟩
  · by_cases tombstone : B.first = T.getTombstoneKey
    · exact .inr (.inl ⟨B, found, tombstone, (slots_of_get found).trans (slot_tombstone tombstone)⟩)
    · rcases table.constructed B mem ⟨empty, tombstone⟩ with ⟨value, second⟩
      have whole : B = ⟨B.first, some value⟩ := by rw [<- second]
      refine .inr (.inr ⟨B.first, value, whole ▸ found, ⟨empty, tombstone⟩, ?_⟩)
      rw [slots_of_get found, whole]
      exact slot_live ⟨empty, tombstone⟩

theorem Table.get_live (live : T.slots Buckets b = .live key value) :
    Buckets[b]? = some ⟨key, some value⟩ ∧ T.IsLive key := by
  rcases table.get_cases small with ⟨_, _, _, slot⟩ | ⟨_, _, _, slot⟩ |
    ⟨key', value', found, isLive, slot⟩
  · rw [live] at slot
    cases slot
  · rw [live] at slot
    cases slot
  · rw [live] at slot
    injection slot with sameKey sameValue
    rw [sameKey, sameValue]
    exact ⟨found, isLive⟩

theorem Table.get_empty (empty : T.slots Buckets b = .empty) :
    ∃ B, Buckets[b]? = some B ∧ B.first = T.getEmptyKey := by
  rcases table.get_cases small with ⟨B, found, first, _⟩ | ⟨_, _, _, slot⟩ | ⟨_, _, _, _, slot⟩
  · exact ⟨B, found, first⟩
  · rw [empty] at slot
    cases slot
  · rw [empty] at slot
    cases slot

end

/-! ## The loop -/

theorem next_probe {start j : Nat} (small : k <= 30) :
    wrapAdd (probe (2 ^ k) start j) (j + 1) &&& wrapSub (2 ^ k) 1 = probe (2 ^ k) start (j + 1) := by
  rw [add_and_sub_one _ _ (by omega), probe_succ]

theorem pow_small (small : k <= 30) : 2 ^ k <= 2 ^ 30 := Nat.pow_le_pow_right (by omega) small

/-- The loop goes on until the search stops. -/
theorem lookupLoop_advance (table : T.Table k s.Buckets) (small : k <= 30) (isLive : T.IsLive Val)
    (stop : Stop (2 ^ k) (T.slots s.Buckets) (T.start Val) Val i) (less : i < 2 ^ k)
    (j fuel : Nat) (before : j <= i) :
    T.lookupLoop Val s (j + fuel) (probe (2 ^ k) (T.start Val) 0) 1 none =
      T.lookupLoop Val s fuel (probe (2 ^ k) (T.start Val) j) (j + 1)
        (firstTombstone (2 ^ k) (T.slots s.Buckets) (T.start Val) j) := by
  induction j generalizing fuel with
  | zero => rw [zero_add, firstTombstone]
  | succ j ih =>
    have here := probe_lt (Nat.two_pow_pos k) (T.start Val) j
    have goesOn := stop.before j before
    have bound := pow_small small
    have amount : wrapAdd (j + 1) 1 = j + 1 + 1 := wrapAdd_of_lt (by omega)
    have size : s.getNumBuckets = 2 ^ k := table.size
    rw [show j + 1 + fuel = j + (fuel + 1) by omega, ih _ (by omega)]
    rcases table.get_cases here with ⟨_, _, _, slot⟩ | ⟨B, found, tombstone, slot⟩ |
      ⟨key, value, found, live, slot⟩
    · exact absurd slot goesOn.1
    · simp only [lookupLoop, found, bind_eq_bind, bind_some, tombstone,
        if_neg isLive.2, if_neg T.distinct.symm, size, next_probe small, amount,
        firstTombstone, slot, Slot.isTombstone, if_true]
    · have ne : Val ≠ key := by
        intro same
        exact goesOn.2 value (same ▸ slot)
      simp only [lookupLoop, found, bind_eq_bind, bind_some, if_neg ne,
        if_neg live.1, if_neg live.2, size, next_probe small, amount, firstTombstone, slot,
        Slot.isTombstone, Bool.false_eq_true, if_false]

/-! ## The map -/

/-- A map with `2 ^ k` buckets that refines an abstract one. -/
structure Settled (T : Instance κ) (s : DenseMapBase κ ν) (m : κ -> Option ν) (k : Nat) : Prop where
  small : k <= 30
  table : T.Table k s.Buckets
  represents : Represents (2 ^ k) (T.slots s.Buckets) m
  entries : s.NumEntries = count (2 ^ k) (T.slots s.Buckets) Slot.isLive
  tombstones : s.NumTombstones = count (2 ^ k) (T.slots s.Buckets) Slot.isTombstone
  room : s.NumEntries + s.NumTombstones < 2 ^ k

theorem Settled.size (settled : T.Settled s m k) : s.getNumBuckets = 2 ^ k := settled.table.size

theorem Settled.exists_stop (settled : T.Settled s m k) (Val : κ) :
    ∃ i < 2 ^ k, Stop (2 ^ k) (T.slots s.Buckets) (T.start Val) Val i := by
  have some := settled.room
  rw [settled.entries, settled.tombstones] at some
  rcases exists_empty some with ⟨b, inside, empty⟩
  exact QuadraticProbing.exists_stop _ Val inside empty

omit [DecidableEq κ] in
theorem assert_true {cond : Prop} [Decidable cond] (holds : cond) :
    T.assert cond = some () := if_pos (.inr holds)

/-- The bucket for a key: its own, or else one that its searches come to. -/
theorem Settled.LookupBucketFor_spec (settled : T.Settled s m k) (isLive : T.IsLive Val) :
    (∃ b < 2 ^ k, ∃ value, m Val = some value ∧ T.slots s.Buckets b = .live Val value ∧
      T.LookupBucketFor Val s = some (some b, true)) ∨
    (∃ t, m Val = none ∧ (∀ b < 2 ^ k, ∀ v, T.slots s.Buckets b ≠ .live Val v) ∧
      Available (2 ^ k) (T.slots s.Buckets) (T.start Val) t ∧
      T.LookupBucketFor Val s = some (some t, false)) := by
  rcases settled.exists_stop Val with ⟨i, less, stop⟩
  have here := probe_lt (Nat.two_pow_pos k) (T.start Val) i
  have nonzero : 2 ^ k ≠ 0 := (Nat.two_pow_pos k).ne'
  have small := settled.small
  have begins : (T.getHashValue Val).toNat &&& wrapSub (2 ^ k) 1 = probe (2 ^ k) (T.start Val) 0 := by
    rw [and_sub_one _ (by omega), probe_zero, start]
  have run : T.LookupBucketFor Val s =
      (T.lookupLoop Val s ((2 ^ k - i - 1) + 1) (probe (2 ^ k) (T.start Val) i) (i + 1)
        (firstTombstone (2 ^ k) (T.slots s.Buckets) (T.start Val) i)).bind
          fun r => some (some r.1, r.2) := by
    rw [<- lookupLoop_advance settled.table small isLive stop less i _ (le_refl i),
      show i + (2 ^ k - i - 1 + 1) = 2 ^ k by omega]
    simp only [LookupBucketFor, settled.size, if_neg nonzero, assert_true isLive, begins,
      bind_eq_bind, bind_some]
  rcases stop.last with empty | ⟨value, live⟩
  · have absent := stop.absent settled.table.placed empty
    have available := stop.available (Nat.two_pow_pos k) empty
    refine .inr ⟨_, settled.represents.absent absent, absent, available, ?_⟩
    rcases settled.table.get_empty here empty with ⟨B, found, first⟩
    rw [run]
    simp only [lookupLoop, found, first, if_neg isLive.1, if_true, bind_eq_bind, bind_some, target]
  · have found := (settled.table.get_live here live).1
    refine .inl ⟨_, here, value, settled.represents.found here live, live, ?_⟩
    rw [run]
    simp only [lookupLoop, found, if_true, bind_eq_bind, bind_some]

end Instance
end DenseMap
end LlvmProject
