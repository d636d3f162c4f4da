import LlvmProject.Support.StringMapUpdate

namespace LlvmProject

open Option Function

namespace StringMap

/-!
# Runs of a string map

A string map refines a finite map from keys to values.  After every operation the
live buckets hold the abstract map's entries, the counters are exact, and some
bucket is null whenever there is a table, so that every search ends.

This holds up to insertions of absent keys into a table of `2 ^ 31` buckets that has
`2 ^ 29` entries or more: such an insertion makes the table be rehashed into one of
no buckets.
-/

open Unsigned QuadraticProbing

inductive Operation (κ ν : Type) where
  | insert (key : κ) (value : ν)
  | find (Key : κ)
  | lookup (Key : κ)
  | erase (Key : κ)
  | clear
  | index (Key : κ)
  | assign (Key : κ) (value : ν)
  deriving DecidableEq, Repr

/-- What an operation returns: an iterator or a reference is told by its entry. -/
inductive Result (κ ν : Type) where
  | done
  | inserted (entry : κ × ν) (isNew : Bool)
  | found (entry : Option (κ × ν))
  | value (value : ν)
  | erased (was : Bool)
  | reference (entry : κ × ν)
  deriving DecidableEq, Repr

namespace Operation

variable {κ ν : Type}

section Steps

variable [DecidableEq κ] [Inhabited ν]

/-- The operation on a string map. -/
def apply (HashString : κ -> BitVec 32) (s : StringMapImpl κ ν) :
    Operation κ ν -> Option (Result κ ν × StringMapImpl κ ν)
  | insert key value => do
    let ((Bucket, isNew), s) <- s.insert HashString key value
    let entry <- s.entryAt Bucket
    some (.inserted entry isNew, s)
  | find Key => do
    let entry <- s.find HashString Key
    some (.found entry, s)
  | lookup Key => do
    let value <- s.lookup HashString Key
    some (.value value, s)
  | erase Key => do
    let (was, s) <- s.erase HashString Key
    some (.erased was, s)
  | clear => some (.done, s.clear)
  | index Key => do
    let (Bucket, s) <- s.index HashString Key
    let entry <- s.entryAt Bucket
    some (.reference entry, s)
  | assign Key value => do
    let (Bucket, s) <- s.index HashString Key
    let s <- s.assign Bucket value
    some (.done, s)

/-- The operation on the abstract map. -/
def onMap (m : κ -> Option ν) : Operation κ ν -> Result κ ν × (κ -> Option ν)
  | insert key value =>
    (.inserted (key, (m key).getD value) (m key).isNone, update m key (some ((m key).getD value)))
  | find Key => (.found ((m Key).map fun value => (Key, value)), m)
  | lookup Key => (.value ((m Key).getD default), m)
  | erase Key => (.erased (m Key).isSome, update m Key none)
  | clear => (.done, fun _ => none)
  | index Key =>
    (.reference (Key, (m Key).getD default), update m Key (some ((m Key).getD default)))
  | assign Key value => (.done, update m Key (some value))

end Steps

/-- The key that the operation gives an entry if it has none. -/
def insertedKey : Operation κ ν -> Option κ
  | insert key _ => some key
  | index Key => some Key
  | assign Key _ => some Key
  | _ => none

/-- The operation adds an entry. -/
def Adds (m : κ -> Option ν) (op : Operation κ ν) : Prop :=
  ∃ key, op.insertedKey = some key ∧ m key = none

end Operation

namespace StringMapImpl

variable {κ ν : Type} [DecidableEq κ]

/-- What holds of a string map that stands for an abstract map. -/
structure Correct (HashString : κ -> BitVec 32) (s : StringMapImpl κ ν) (m : κ -> Option ν) :
    Prop where
  entries : ∀ key value, m key = some value ↔
    ∃ b < s.NumBuckets, s.TheTable[b]? = some (.entry key value)
  unique : ∀ b < s.NumBuckets, ∀ c < s.NumBuckets, ∀ key v w,
    s.TheTable[b]? = some (.entry key v) -> s.TheTable[c]? = some (.entry key w) -> b = c
  items : s.NumItems = count s.NumBuckets (slots s.TheTable) Slot.isLive
  tombstones : s.NumTombstones = count s.NumBuckets (slots s.TheTable) Slot.isTombstone
  null : s.NumBuckets ≠ 0 -> ∃ b < s.NumBuckets, s.TheTable[b]? = some .null
  find : ∀ Key, s.find HashString Key = some ((m Key).map fun value => (Key, value))
  lookup : ∀ Name, ∃ found, s.LookupBucketFor HashString Name = some found
  rehash : (s.NumBuckets < 2 ^ 31 ∨ s.NumItems <= 2 ^ 29) -> ∀ b < s.NumBuckets, ∀ key value,
    s.TheTable[b]? = some (.entry key value) -> ∃ b' s', s.RehashTable b = some (b', s') ∧
      b' < s'.NumBuckets ∧ s'.TheTable[b']? = some (.entry key value) ∧
      ∀ key value, m key = some value ↔
        ∃ c < s'.NumBuckets, s'.TheTable[c]? = some (.entry key value)

/-- The operation does to the string map what it does to the abstract map. -/
def StepCorrect [Inhabited ν] (HashString : κ -> BitVec 32) (s : StringMapImpl κ ν)
    (m : κ -> Option ν) (op : Operation κ ν) : Prop :=
  ∃ s', op.apply HashString s = some ((op.onMap m).1, s') ∧ Correct HashString s' (op.onMap m).2

/-- The map keeps fewer than `2 ^ 30` entries. -/
def Admissible (s : StringMapImpl κ ν) (m : κ -> Option ν) (op : Operation κ ν) : Prop :=
  op.Adds m -> s.NumItems + 1 < 2 ^ 30

/-- The operation adds no entry to a table that is too large. -/
def Safe (s : StringMapImpl κ ν) (m : κ -> Option ν) (op : Operation κ ν) : Prop :=
  op.Adds m -> s.NotTooLarge

/-- The sizes that a map may be constructed with. -/
def InitialSize (InitSize : Nat) : Prop := InitSize = 0 ∨ ∃ k < 32, InitSize = 2 ^ k

/-- The string maps and abstract maps that runs of allowed operations lead to. -/
inductive Reached [Inhabited ν] (HashString : κ -> BitVec 32)
    (allowed : StringMapImpl κ ν -> (κ -> Option ν) -> Operation κ ν -> Prop) :
    StringMapImpl κ ν -> (κ -> Option ν) -> Prop where
  | construct {InitSize : Nat} {s : StringMapImpl κ ν} (initial : InitialSize InitSize)
      (made : construct InitSize = some s) : Reached HashString allowed s fun _ => none
  | step {s s' : StringMapImpl κ ν} {m : κ -> Option ν} {op : Operation κ ν}
      {result : Result κ ν} (reached : Reached HashString allowed s m)
      (isAllowed : allowed s m op)
      (applied : op.apply HashString s = some (result, s')) :
      Reached HashString allowed s' (op.onMap m).2

/-! ## Single operations -/

variable {HashString : κ -> BitVec 32} {s : StringMapImpl κ ν} {m : κ -> Option ν} {k b : Nat}
  {key : κ} {value : ν}

section

variable (settled : Settled HashString s m k)
include settled

theorem Settled.find_eq (Key : κ) :
    s.find HashString Key = some ((m Key).map fun value => (Key, value)) := by
  rcases settled.FindKey_spec Key with ⟨b, inside, v, known, live, run⟩ | ⟨unknown, run⟩
  · simp only [StringMapImpl.find, run, settled.toFilled.entry inside live, known,
      bind_eq_bind, bind_some, map_some]
  · simp only [StringMapImpl.find, run, unknown, bind_eq_bind, bind_some, map_none]

theorem Settled.correct : Correct HashString s m where
  entries := by
    intro key value
    rw [settled.represents key value, settled.size]
    constructor
    · rintro ⟨b, inside, live⟩
      exact ⟨b, inside, settled.arrays.get_live inside live⟩
    · rintro ⟨b, inside, found⟩
      exact ⟨b, inside, slots_of_get found⟩
  unique := by
    rw [settled.size]
    intro b insideB c insideC key v w foundB foundC
    exact settled.arrays.placed.unique b insideB c insideC key v w (slots_of_get foundB)
      (slots_of_get foundC)
  items := by
    rw [settled.size]
    exact settled.items
  tombstones := by
    rw [settled.size]
    exact settled.tombstones
  null := by
    intro _
    have room := settled.room
    rw [settled.items, settled.tombstones] at room
    rcases exists_empty room with ⟨b, inside, empty⟩
    rw [settled.size]
    exact ⟨b, inside, settled.arrays.get_empty inside empty⟩
  find := settled.find_eq
  lookup := by
    intro Name
    rcases settled.LookupBucketFor_spec Name with ⟨b, _, _, _, _, run⟩ | ⟨t, _, _, _, run⟩
    · exact ⟨_, run⟩
    · exact ⟨_, run⟩
  rehash := by
    intro largest b inside key value found
    rw [settled.size] at largest inside
    have fits : Fits s k := by
      refine ⟨le_of_lt settled.room, largest.imp_left fun small => ?_⟩
      exact (Nat.pow_lt_pow_iff_right (by omega)).mp small
    rcases settled.toFilled.RehashTable_spec fits b with
      ⟨b', s', k', run, settled', _, _, asked⟩
    rcases asked inside key value (slots_of_get found) with ⟨inside', live⟩
    refine ⟨b', s', run, ?_, settled'.arrays.get_live inside' live, fun key value => ?_⟩
    · rw [settled'.size]
      exact inside'
    · rw [settled'.represents key value, settled'.size]
      constructor
      · rintro ⟨c, insideC, liveC⟩
        exact ⟨c, insideC, settled'.arrays.get_live insideC liveC⟩
      · rintro ⟨c, insideC, foundC⟩
        exact ⟨c, insideC, slots_of_get foundC⟩

theorem Settled.insert_spec (key : κ) (value : ν)
    (few : m key = none -> s.NumItems + 1 < 2 ^ 30) (fits : m key = none -> s.NotTooLarge) :
    ∃ b' s' k', s.insert HashString key value = some ((b', (m key).isNone), s') ∧
      Settled HashString s' (update m key (some ((m key).getD value))) k' ∧
      b' < 2 ^ k' ∧ slots s'.TheTable b' = .live key ((m key).getD value) := by
  cases known : m key with
  | none =>
    rcases settled.insert_unknown known value (few known) (fits known) with
      ⟨b', s', k', run, settled', _, _, inside, live⟩
    exact ⟨b', s', k', run, settled', inside, live⟩
  | some old =>
    rcases settled.insert_known known value with ⟨b, inside, run, live⟩
    refine ⟨b, s, k, run, ?_, inside, live⟩
    rw [getD_some, <- known, update_eq_self]
    exact settled

theorem Settled.assign_spec (inside : b < 2 ^ k) {old : ν}
    (live : slots s.TheTable b = .live key old) (value : ν) :
    ∃ s', s.assign b value = some s' ∧ Settled HashString s' (update m key (some value)) k := by
  have stored := store_eq (x := Bucket.entry key value) (settled.arrays.inside inside)
  have newSlots := slots_set (.entry key value) (settled.arrays.inside inside)
  refine ⟨{ s with TheTable := s.TheTable.set b (.entry key value) }, ?_, ?_⟩
  · simp only [assign, settled.toFilled.entry inside live, stored, bind_eq_bind, bind_some]
  · exact {
      small := settled.small
      size := settled.size
      arrays := settled.toFilled.set_arrays inside live value
      represents := by
        rw [newSlots]
        apply settled.represents.insert inside
        · intro k' v found
          rw [live] at found
          injection found with same
          exact same.symm
        · intro c insideC ne v found
          exact ne (settled.arrays.placed.unique c insideC b inside key v old found live)
      items := by
        have updated := count_update (slots s.TheTable) (.live key value) Slot.isLive inside
        rw [live] at updated
        rw [newSlots, settled.items]
        exact (Nat.add_right_cancel updated).symm
      tombstones := by
        have updated := count_update (slots s.TheTable) (.live key value) Slot.isTombstone inside
        rw [live] at updated
        rw [newSlots, settled.tombstones]
        exact (Nat.add_right_cancel updated).symm
      few := settled.few
      room := settled.room }

theorem Settled.erase_spec (Key : κ) :
    ∃ s', s.erase HashString Key = some ((m Key).isSome, s') ∧
      Settled HashString s' (update m Key none) k := by
  cases known : m Key with
  | none =>
    refine ⟨s, settled.erase_unknown known, ?_⟩
    rw [<- known, update_eq_self]
    exact settled
  | some value => exact settled.erase_known known

end

/-! ## Maps without a table -/

/-- The map that the first search for a bucket allocates. -/
def first : StringMapImpl κ ν where
  TheTable := allocateTable 16
  HashTable := allocateHashes 16
  NumBuckets := 16
  NumItems := 0
  NumTombstones := 0

omit [DecidableEq κ] in
theorem first_settled (HashString : κ -> BitVec 32) :
    Settled HashString (first : StringMapImpl κ ν) (fun _ => none) 4 :=
  allocated_settled (k := 4) HashString (by omega)

theorem unallocated_LookupBucketFor (Name : κ) :
    (unallocated : StringMapImpl κ ν).LookupBucketFor HashString Name =
      first.LookupBucketFor HashString Name := by
  have made : (init 16 : Option (StringMapImpl κ ν)) = some first := init_eq (k := 4) (by omega)
  simp only [LookupBucketFor, unallocated, if_true, made, first, bind_eq_bind,
    bind_some, show ¬(16 : Nat) = 0 by omega, if_false]

theorem unallocated_insert (key : κ) (value : ν) :
    unallocated.insert HashString key value = first.insert HashString key value := by
  simp only [insert, unallocated_LookupBucketFor]

/-- The string map refines the abstract map. -/
def Refines (HashString : κ -> BitVec 32) (s : StringMapImpl κ ν) (m : κ -> Option ν) : Prop :=
  (s = unallocated ∧ m = fun _ => none) ∨ ∃ k, Settled HashString s m k

theorem unallocated_correct :
    Correct HashString (unallocated : StringMapImpl κ ν) fun _ => none where
  entries := by
    intro key value
    constructor
    · intro found
      cases found
    · rintro ⟨b, inside, _⟩
      exact absurd inside (Nat.not_lt_zero b)
  unique := fun b inside => absurd inside (Nat.not_lt_zero b)
  items := rfl
  tombstones := rfl
  null := fun allocated => absurd rfl allocated
  find := fun _ => rfl
  lookup := by
    intro Name
    rcases (first_settled (ν := ν) HashString).correct.lookup Name with ⟨found, run⟩
    rw [<- unallocated_LookupBucketFor] at run
    exact ⟨found, run⟩
  rehash := fun _ b inside => absurd inside (Nat.not_lt_zero b)

theorem Refines.correct (refines : Refines HashString s m) : Correct HashString s m := by
  rcases refines with ⟨rfl, rfl⟩ | ⟨k, settled⟩
  · exact unallocated_correct
  · exact settled.correct

omit [DecidableEq κ] in
theorem construct_spec (HashString : κ -> BitVec 32) {InitSize : Nat}
    (initial : InitialSize InitSize) :
    ∃ s : StringMapImpl κ ν, construct InitSize = some s ∧ Refines HashString s fun _ => none := by
  rcases initial with rfl | ⟨k, small, rfl⟩
  · exact ⟨unallocated, rfl, .inl ⟨rfl, rfl⟩⟩
  · refine ⟨_, ?_, .inr ⟨k, allocated_settled HashString small⟩⟩
    rw [construct, if_pos (Nat.two_pow_pos k).ne', init_eq small]

theorem Refines.insert_spec (refines : Refines HashString s m) (key : κ) (value : ν)
    (few : m key = none -> s.NumItems + 1 < 2 ^ 30) (fits : m key = none -> s.NotTooLarge) :
    ∃ b' s' k', s.insert HashString key value = some ((b', (m key).isNone), s') ∧
      Settled HashString s' (update m key (some ((m key).getD value))) k' ∧
      b' < 2 ^ k' ∧ slots s'.TheTable b' = .live key ((m key).getD value) := by
  rcases refines with ⟨rfl, rfl⟩ | ⟨k, settled⟩
  · rw [unallocated_insert]
    exact (first_settled HashString).insert_spec key value
      (fun _ => show 0 + 1 < 2 ^ 30 by omega) (fun _ => .inl (show 16 < 2 ^ 31 by omega))
  · exact settled.insert_spec key value few fits

theorem Refines.erase_spec (refines : Refines HashString s m) (Key : κ) :
    ∃ s', s.erase HashString Key = some ((m Key).isSome, s') ∧
      Refines HashString s' (update m Key none) := by
  rcases refines with ⟨rfl, rfl⟩ | ⟨k, settled⟩
  · exact ⟨unallocated, rfl, .inl ⟨rfl, update_eq_self Key _⟩⟩
  · rcases settled.erase_spec Key with ⟨s', run, settled'⟩
    exact ⟨s', run, .inr ⟨k, settled'⟩⟩

section

variable (refines : Refines HashString s m)
include refines

omit [DecidableEq κ] in
theorem Refines.clear_spec : Refines HashString s.clear fun _ => none := by
  rcases refines with ⟨rfl, rfl⟩ | ⟨k, settled⟩
  · exact .inl ⟨rfl, rfl⟩
  · exact .inr ⟨k, settled.clear_spec⟩

/-- One step: an operation whose insertion fits is that on the abstract map. -/
theorem Refines.step [Inhabited ν] {op : Operation κ ν}
    (admissible : Admissible s m op) (safe : Safe s m op) :
    ∃ s', op.apply HashString s = some ((op.onMap m).1, s') ∧
      Refines HashString s' (op.onMap m).2 := by
  have found := refines.correct.find
  cases op with
  | insert key value =>
    rcases refines.insert_spec key value (fun unknown => admissible ⟨key, rfl, unknown⟩)
      (fun unknown => safe ⟨key, rfl, unknown⟩) with ⟨b', s', k', run, settled, inside, live⟩
    refine ⟨s', ?_, .inr ⟨k', settled⟩⟩
    simp only [Operation.apply, run, settled.toFilled.entry inside live, Operation.onMap,
      bind_eq_bind, bind_some]
  | find Key =>
    refine ⟨s, ?_, refines⟩
    simp only [Operation.apply, found Key, Operation.onMap, bind_eq_bind, bind_some]
  | lookup Key =>
    refine ⟨s, ?_, refines⟩
    cases known : m Key <;>
      simp only [Operation.apply, StringMapImpl.lookup, found Key, known, Operation.onMap,
        bind_eq_bind, bind_some, map_some, map_none, getD_some, getD_none]
  | erase Key =>
    rcases refines.erase_spec Key with ⟨s', run, refines'⟩
    refine ⟨s', ?_, refines'⟩
    simp only [Operation.apply, run, Operation.onMap, bind_eq_bind, bind_some]
  | clear => exact ⟨s.clear, rfl, refines.clear_spec⟩
  | index Key =>
    rcases refines.insert_spec Key default (fun unknown => admissible ⟨Key, rfl, unknown⟩)
      (fun unknown => safe ⟨Key, rfl, unknown⟩) with ⟨b', s', k', run, settled, inside, live⟩
    refine ⟨s', ?_, .inr ⟨k', settled⟩⟩
    simp only [Operation.apply, index, run, settled.toFilled.entry inside live, Operation.onMap,
      bind_eq_bind, bind_some]
  | assign Key value =>
    rcases refines.insert_spec Key default (fun unknown => admissible ⟨Key, rfl, unknown⟩)
      (fun unknown => safe ⟨Key, rfl, unknown⟩) with ⟨b', s', k', run, settled, inside, live⟩
    rcases settled.assign_spec inside live value with ⟨s'', assigned, settled'⟩
    rw [update_idem] at settled'
    refine ⟨s'', ?_, .inr ⟨k', settled'⟩⟩
    simp only [Operation.apply, index, run, assigned, Operation.onMap, bind_eq_bind, bind_some]

/-- An operation that adds an entry to a table that is too large has no result. -/
theorem Refines.stuck [Inhabited ν] {op : Operation κ ν}
    (admissible : Admissible s m op) (notSafe : ¬Safe s m op) : op.apply HashString s = none := by
  rw [Safe, Classical.not_imp] at notSafe
  rcases notSafe with ⟨⟨key, inserts, unknown⟩, tooLarge⟩
  have few := admissible ⟨key, inserts, unknown⟩
  have stuck : ∀ value, s.insert HashString key value = none := by
    intro value
    rcases refines with ⟨rfl, rfl⟩ | ⟨k, settled⟩
    · exact absurd (.inl (show 0 < 2 ^ 31 by omega)) tooLarge
    · exact settled.insert_tooLarge unknown value few tooLarge
  cases op with
  | insert key' value =>
    injection inserts with same
    simp only [Operation.apply, same, stuck, bind_eq_bind, bind_none]
  | index Key =>
    injection inserts with same
    simp only [Operation.apply, index, same, stuck, bind_eq_bind, bind_none]
  | assign Key value =>
    injection inserts with same
    simp only [Operation.apply, index, same, stuck, bind_eq_bind, bind_none]
  | find Key => cases inserts
  | lookup Key => cases inserts
  | erase Key => cases inserts
  | clear => cases inserts

end

/-! ## Runs -/

/-- What a run of a string map may do. -/
def Allowed (s : StringMapImpl κ ν) (m : κ -> Option ν) (op : Operation κ ν) : Prop :=
  Admissible s m op ∧ Safe s m op

theorem Reached.mono [Inhabited ν] {allowed allowed' : StringMapImpl κ ν ->
    (κ -> Option ν) -> Operation κ ν -> Prop} (weaker : ∀ s m op, allowed s m op -> allowed' s m op)
    (reached : Reached HashString allowed s m) : Reached HashString allowed' s m := by
  induction reached with
  | construct initial made => exact .construct initial made
  | step _ isAllowed applied ih =>
    exact ih.step (weaker _ _ _ isAllowed) applied

theorem Reached.refines [Inhabited ν] (reached : Reached HashString Allowed s m) :
    Refines HashString s m := by
  induction reached with
  | construct initial made =>
    rcases construct_spec HashString initial with ⟨s', made', refines⟩
    rw [made] at made'
    exact Option.some.inj made' ▸ refines
  | step reached isAllowed applied ih =>
    rcases ih.step isAllowed.1 isAllowed.2 with ⟨s', applied', refines⟩
    rw [applied] at applied'
    injection Option.some.inj applied' with _ same
    exact same ▸ refines

/-- Every state of a run whose insertions fit refines the abstract map, and the next
operation does what it should exactly if its insertion fits, too. -/
theorem reached_refines [Inhabited ν] (HashString : κ -> BitVec 32) :
    (∀ InitSize, InitialSize InitSize -> ∃ s : StringMapImpl κ ν, construct InitSize = some s) ∧
      ∀ (s : StringMapImpl κ ν) (m : κ -> Option ν), Reached HashString Allowed s m ->
        Correct HashString s m ∧ ∀ op, Admissible s m op ->
          (StepCorrect HashString s m op ↔ Safe s m op) := by
  refine ⟨fun InitSize initial => ?_, fun s m reached => ?_⟩
  · rcases construct_spec (ν := ν) HashString initial with ⟨s, made, _⟩
    exact ⟨s, made⟩
  · refine ⟨reached.refines.correct, fun op admissible => ⟨fun correct => ?_, fun safe => ?_⟩⟩
    · by_contra notSafe
      rcases correct with ⟨s', applied, _⟩
      rw [reached.refines.stuck admissible notSafe] at applied
      cases applied
    · rcases reached.refines.step admissible safe with ⟨s', applied, refines⟩
      exact ⟨s', applied, refines.correct⟩

/-! ## Bernstein's hash function -/

/-- `HashString` of a string's characters. -/
def bernstein (Str : List (BitVec 8)) : BitVec 32 :=
  Str.foldl (fun Result c => Result * 33 + c.setWidth 32) 0

theorem reached_refines_once : ∃ s, Reached bernstein Allowed s (fun _ => (none : Option Nat)) ∧
    Correct bernstein s (fun _ => none) ∧
    StepCorrect bernstein s (fun _ => none) (.insert [97, 98] 7) := by
  have total := reached_refines (ν := Nat) bernstein
  rcases total.1 16 (.inr ⟨4, by omega, rfl⟩) with ⟨s, made⟩
  have reached : Reached bernstein Allowed s (fun _ => (none : Option Nat)) :=
    .construct (.inr ⟨4, by omega, rfl⟩) made
  have allocated : s = first := by
    have size : (init (2 ^ 4) : Option (StringMapImpl (List (BitVec 8)) Nat)) = some first :=
      init_eq (by omega)
    rw [construct, if_pos (by omega), show 16 = 2 ^ 4 from rfl, size] at made
    exact (Option.some.inj made).symm
  have small : s.NumItems = 0 ∧ s.NumBuckets = 16 := by
    rw [allocated]
    exact ⟨rfl, rfl⟩
  refine ⟨s, reached, (total.2 s _ reached).1, ((total.2 s _ reached).2 _ fun _ => ?_).mpr
    fun _ => .inl ?_⟩
  · rw [small.1]
    omega
  · rw [small.2]
    omega

/-- The four characters of a number. -/
def name (i : Nat) : List (BitVec 8) :=
  [.ofNat 8 i, .ofNat 8 (i / 2 ^ 8), .ofNat 8 (i / 2 ^ 16), .ofNat 8 (i / 2 ^ 24)]

theorem name_injective {i j : Nat} (smallI : i < 2 ^ 32) (smallJ : j < 2 ^ 32)
    (same : name i = name j) : i = j := by
  simp only [name, List.cons.injEq, and_true] at same
  rcases same with ⟨first, second, third, fourth⟩
  have bytes := congrArg BitVec.toNat first
  have bytes' := congrArg BitVec.toNat second
  have bytes'' := congrArg BitVec.toNat third
  have bytes''' := congrArg BitVec.toNat fourth
  simp only [BitVec.toNat_ofNat] at bytes bytes' bytes'' bytes'''
  omega

/-- A run that inserts names into a table of the largest size. -/
theorem names_reached (n : Nat) (few : n <= 2 ^ 29) :
    ∃ (s : StringMapImpl (List (BitVec 8)) Nat) (m : List (BitVec 8) -> Option Nat),
      Reached bernstein Allowed s m ∧ Settled bernstein s m 31 ∧ s.NumItems = n ∧
      ∀ i, n <= i -> i < 2 ^ 32 -> m (name i) = none := by
  induction n with
  | zero =>
    have initial : InitialSize (2 ^ 31) := .inr ⟨31, by omega, rfl⟩
    refine ⟨_, fun _ => none, .construct initial ?_, allocated_settled bernstein (by omega), rfl,
      fun _ _ _ => rfl⟩
    rw [construct, if_pos (by omega), init_eq (by omega)]
  | succ n ih =>
    rcases ih (by omega) with ⟨s, m, reached, settled, items, unknown⟩
    have absent := unknown n (le_refl n) (by omega)
    rcases settled.insert_unknown absent 0 (by omega) (.inr (by omega)) with
      ⟨b', s', k', run, settled', wider, items', inside, live⟩
    have largest : k' = 31 := by
      have small := settled'.small
      omega
    subst largest
    have allowed : Allowed s m (.insert (name n) 0) := ⟨fun _ => by omega, fun _ => .inr (by omega)⟩
    have applied : Operation.apply bernstein s (.insert (name n) 0) =
        some (.inserted (name n, 0) true, s') := by
      simp only [Operation.apply, run, settled'.toFilled.entry inside live, bind_eq_bind, bind_some]
    refine ⟨s', _, reached.step allowed applied, ?_, by omega, fun i later small => ?_⟩
    · simp only [Operation.onMap, absent, getD_none]
      exact settled'
    · have ne : name i ≠ name n := fun same => by
        have equal := name_injective small (by omega) same
        omega
      simp only [Operation.onMap, update_of_ne ne]
      exact unknown i (by omega) small

/-- With `2 ^ 29` entries in `2 ^ 31` buckets the next insertion has no result. -/
theorem largest_table_fails :
    ¬∀ (s : StringMapImpl (List (BitVec 8)) Nat) (m : List (BitVec 8) -> Option Nat),
      Reached bernstein Admissible s m -> ∀ op, Admissible s m op ->
        StepCorrect bernstein s m op := by
  intro claimed
  rcases names_reached (2 ^ 29) (le_refl _) with ⟨s, m, reached, settled, items, unknown⟩
  have admissible : Admissible s m (.insert (name (2 ^ 29)) 0) := fun _ => by omega
  have absent := unknown (2 ^ 29) (le_refl _) (by omega)
  rcases claimed s m (reached.mono fun _ _ _ allowed => allowed.1) _ admissible with
    ⟨s', applied, _⟩
  have tooLarge : ¬s.NotTooLarge := by
    rintro (small | small)
    · rw [settled.size] at small
      omega
    · omega
  have stuck := settled.insert_tooLarge absent 0 (by omega) tooLarge
  simp only [Operation.apply, stuck, bind_eq_bind, bind_none] at applied
  cases applied

end StringMapImpl
end StringMap
end LlvmProject
