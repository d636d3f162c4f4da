import LlvmProject.ADT.DenseMapUpdate

namespace LlvmProject

open List Option Function

namespace DenseMap

/-!
# Runs of a dense map

A dense map refines a finite map from keys to values, in both derived classes.
After every operation the live buckets hold the abstract map's entries, the counters
are exact, and some bucket is empty whenever there is a table, so that every search
ends.

Where assertions are compiled, this holds up to insertions that make a small map
with 64 inline buckets or more grow in place.
-/

open Unsigned QuadraticProbing

inductive Operation (κ ν : Type) where
  | insert (Key : κ) (Value : ν)
  | index (Key : κ)
  | assign (Key : κ) (Value : ν)
  | find (Val : κ)
  | lookup (Val : κ)
  | erase (Val : κ)
  | clear
  | shrink_and_clear
  | resize (Size : Nat)
  deriving DecidableEq, Repr

/-- What an operation returns: an iterator or a reference is told by its entry. -/
inductive Result (κ ν : Type) where
  | done
  | inserted (entry : κ × ν) (isNew : Bool)
  | reference (entry : κ × ν)
  | found (entry : Option (κ × ν))
  | value (value : ν)
  | erased (was : Bool)
  deriving DecidableEq, Repr

namespace Operation

variable {κ ν : Type}

section Steps

variable [DecidableEq κ] [Inhabited ν]

/-- The operation on a dense map. -/
def apply (T : Instance κ) (s : DenseMapBase κ ν) :
    Operation κ ν -> Option (Result κ ν × DenseMapBase κ ν)
  | insert Key Value => do
    let ((TheBucket, isNew), s) <- T.insert Key Value s
    let entry <- Instance.entryAt TheBucket s
    some (.inserted entry isNew, s)
  | index Key => do
    let (TheBucket, s) <- T.FindAndConstruct Key s
    let entry <- Instance.entryAt TheBucket s
    some (.reference entry, s)
  | assign Key Value => do
    let (TheBucket, s) <- T.FindAndConstruct Key s
    let s <- Instance.assign TheBucket Value s
    some (.done, s)
  | find Val => do
    let entry <- T.find Val s
    some (.found entry, s)
  | lookup Val => do
    let value <- T.lookup Val s
    some (.value value, s)
  | erase Val => do
    let (was, s) <- T.erase Val s
    some (.erased was, s)
  | clear => do
    let s <- T.clear s
    some (.done, s)
  | shrink_and_clear => do
    let s <- T.shrink_and_clear s
    some (.done, s)
  | resize Size => do
    let s <- T.resize Size s
    some (.done, s)

/-- The operation on the abstract map. -/
def onMap (m : κ -> Option ν) : Operation κ ν -> Result κ ν × (κ -> Option ν)
  | insert Key Value =>
    (.inserted (Key, (m Key).getD Value) (m Key).isNone, update m Key (some ((m Key).getD Value)))
  | index Key =>
    (.reference (Key, (m Key).getD default), update m Key (some ((m Key).getD default)))
  | assign Key Value => (.done, update m Key (some Value))
  | find Val => (.found ((m Val).map fun value => (Val, value)), m)
  | lookup Val => (.value ((m Val).getD default), m)
  | erase Val => (.erased (m Val).isSome, update m Val none)
  | clear => (.done, fun _ => none)
  | shrink_and_clear => (.done, fun _ => none)
  | resize _ => (.done, m)

end Steps

/-- The key that the operation gives an entry if it has none. -/
def insertedKey : Operation κ ν -> Option κ
  | insert Key _ => some Key
  | index Key => some Key
  | assign Key _ => some Key
  | _ => none

/-- The keys that the operation is called with. -/
def keys : Operation κ ν -> List κ
  | insert Key _ => [Key]
  | index Key => [Key]
  | assign Key _ => [Key]
  | find Val => [Val]
  | lookup Val => [Val]
  | erase Val => [Val]
  | _ => []

/-- The sizes that the operation asks for. -/
def sizes : Operation κ ν -> List Nat
  | resize Size => [Size]
  | _ => []

/-- The operation adds an entry. -/
def Adds (m : κ -> Option ν) (op : Operation κ ν) : Prop :=
  ∃ key, op.insertedKey = some key ∧ m key = none

end Operation

namespace Instance

variable {κ ν : Type} [DecidableEq κ]

/-- The buckets hold exactly the entries of an abstract map, and the counters count. -/
structure Exact (T : Instance κ) (s : DenseMapBase κ ν) (m : κ -> Option ν) : Prop where
  entries : ∀ key value, m key = some value ↔
    T.IsLive key ∧ ∃ b < s.getNumBuckets, s.Buckets[b]? = some ⟨key, some value⟩
  unique : ∀ b < s.getNumBuckets, ∀ c < s.getNumBuckets, ∀ B C, s.Buckets[b]? = some B ->
    s.Buckets[c]? = some C -> T.IsLive B.first -> B.first = C.first -> b = c
  numEntries : s.NumEntries = s.Buckets.countP fun B => T.IsLive B.first
  numTombstones : s.NumTombstones = s.Buckets.countP fun B => B.first = T.getTombstoneKey
  empty : s.getNumBuckets ≠ 0 -> ∃ B ∈ s.Buckets, B.first = T.getEmptyKey

/-- What holds of a dense map that stands for an abstract map. -/
structure Correct (T : Instance κ) (s : DenseMapBase κ ν) (m : κ -> Option ν) : Prop
    extends Exact T s m where
  find : ∀ Val, T.IsLive Val -> T.find Val s = some ((m Val).map fun value => (Val, value))
  lookup : ∀ Val, T.IsLive Val -> ∃ found, T.LookupBucketFor Val s = some found
  grow : ∀ AtLeast, s.getNumBuckets <= AtLeast -> AtLeast <= 2 ^ 30 -> ¬T.GrowFails s AtLeast ->
    ∃ s', T.grow AtLeast s = some s' ∧ Exact T s' m

/-- The operation does to the dense map what it does to the abstract map. -/
def StepCorrect [Inhabited ν] (T : Instance κ) (s : DenseMapBase κ ν) (m : κ -> Option ν)
    (op : Operation κ ν) : Prop :=
  ∃ s', op.apply T s = some ((op.onMap m).1, s') ∧ Correct T s' (op.onMap m).2

/-- The map has fewer than `2 ^ 30` buckets and is asked for no more, and the keys
are not the special ones. -/
structure Admissible (T : Instance κ) (s : DenseMapBase κ ν) (op : Operation κ ν) :
    Prop where
  few : s.getNumBuckets < 2 ^ 30
  keys : ∀ key ∈ op.keys, T.IsLive key
  sizes : ∀ Size ∈ op.sizes, Size <= 2 ^ 30

/-- The operation adds no entry that makes `allocateBuckets` fail its assertion. -/
def Safe (T : Instance κ) (s : DenseMapBase κ ν) (m : κ -> Option ν) (op : Operation κ ν) : Prop :=
  op.Adds m -> ¬T.InsertFails s

/-- The dense maps and abstract maps that runs of allowed operations lead to. -/
inductive Reached [Inhabited ν] (T : Instance κ)
    (allowed : DenseMapBase κ ν -> (κ -> Option ν) -> Operation κ ν -> Prop) :
    DenseMapBase κ ν -> (κ -> Option ν) -> Prop where
  | construct {NumInitBuckets : Nat} {s : DenseMapBase κ ν}
      (initial : T.InitialSize NumInitBuckets) (made : T.construct NumInitBuckets = some s) :
      Reached T allowed s fun _ => none
  | step {s s' : DenseMapBase κ ν} {m : κ -> Option ν} {op : Operation κ ν}
      {result : Result κ ν} (reached : Reached T allowed s m)
      (isAllowed : allowed s m op) (applied : op.apply T s = some (result, s')) :
      Reached T allowed s' (op.onMap m).2

variable {T : Instance κ} {s : DenseMapBase κ ν} {m : κ -> Option ν} {k : Nat}

/-! ## Correct maps -/

theorem Settled.exact (settled : T.Settled s m k) : Exact T s m where
  entries := by
    intro key value
    rw [settled.represents key value, settled.size]
    constructor
    · rintro ⟨b, inside, live⟩
      rcases settled.table.get_live inside live with ⟨found, isLive⟩
      exact ⟨isLive, b, inside, found⟩
    · rintro ⟨isLive, b, inside, found⟩
      exact ⟨b, inside, (slots_of_get found).trans (slot_live isLive)⟩
  unique := by
    rw [settled.size]
    intro b insideB c insideC B C foundB foundC isLive same
    rcases settled.table.constructed B (mem_of_getElem? foundB) isLive with ⟨v, second⟩
    rcases settled.table.constructed C (mem_of_getElem? foundC) (same ▸ isLive) with
      ⟨w, second'⟩
    apply settled.table.placed.unique b insideB c insideC B.first v w
    · exact (slots_of_get foundB).trans (slot_eq_live.mpr ⟨isLive, by rw [<- second]⟩)
    · exact (slots_of_get foundC).trans (slot_eq_live.mpr ⟨isLive, by rw [same, <- second']⟩)
  numEntries := by
    rw [settled.entries, <- settled.table.size, count_slots]
    apply countP_congr
    intro B mem
    rw [Slot.isLive_iff, decide_eq_true_iff]
    constructor
    · rintro ⟨key, value, live⟩
      rcases slot_eq_live.mp live with ⟨isLive, rfl⟩
      exact isLive
    · intro isLive
      rcases settled.table.constructed B mem isLive with ⟨value, second⟩
      exact ⟨B.first, value, slot_eq_live.mpr ⟨isLive, by rw [<- second]⟩⟩
  numTombstones := by
    rw [settled.tombstones, <- settled.table.size, count_slots]
    apply countP_congr
    intro B mem
    rw [Slot.isTombstone_iff, decide_eq_true_iff]
    constructor
    · intro slot
      by_contra ne
      by_cases empty : B.first = T.getEmptyKey
      · rw [slot_empty empty] at slot
        cases slot
      · rcases settled.table.constructed B mem ⟨empty, ne⟩ with ⟨value, second⟩
        rw [slot_eq_live.mpr ⟨⟨empty, ne⟩, by rw [<- second]⟩] at slot
        cases slot
    · exact slot_tombstone
  empty := by
    intro _
    have room := settled.room
    rw [settled.entries, settled.tombstones] at room
    rcases exists_empty room with ⟨b, inside, free⟩
    rcases settled.table.get_empty inside free with ⟨B, found, first⟩
    exact ⟨B, mem_of_getElem? found, first⟩

theorem Unallocated.exact (unallocated : T.Unallocated s m) : Exact T s m where
  entries := by
    intro key value
    rw [unallocated.contents, DenseMapBase.getNumBuckets, unallocated.buckets]
    constructor
    · intro found
      cases found
    · rintro ⟨_, b, inside, _⟩
      exact absurd inside (Nat.not_lt_zero b)
  unique := by
    rw [DenseMapBase.getNumBuckets, unallocated.buckets]
    exact fun b inside => absurd inside (Nat.not_lt_zero b)
  numEntries := by
    rw [unallocated.entries, unallocated.buckets, countP_nil]
  numTombstones := by
    rw [unallocated.tombstones, unallocated.buckets, countP_nil]
  empty := by
    intro allocated
    rw [DenseMapBase.getNumBuckets, unallocated.buckets] at allocated
    exact absurd rfl allocated

theorem Refines.correct (refines : T.Refines s m) (valid : T.Valid) : Correct T s m where
  toExact := by
    rcases refines with unallocated | ⟨k, settled, _⟩
    · exact unallocated.exact
    · exact settled.exact
  find := fun _ isLive => refines.find_eq isLive
  lookup := by
    intro Val isLive
    rcases refines.LookupBucketFor_spec isLive with ⟨_, _, _, _, _, _, _, _, run⟩ |
      ⟨_, _, run, _⟩
    · exact ⟨_, run⟩
    · exact ⟨_, run⟩
  grow := by
    intro AtLeast above bound works
    rcases refines with unallocated | ⟨k, settled, shaped⟩
    · rcases unallocated.grow_spec bound with ⟨s', K, grown, settled, _⟩
      exact ⟨s', grown, settled.exact⟩
    · rw [settled.size] at above
      rcases settled.grow_spec shaped valid above bound works with ⟨s', K, grown, settled', _⟩
      exact ⟨s', grown, settled'.exact⟩

/-! ## Steps -/

theorem Refines.step [Inhabited ν] {op : Operation κ ν} (refines : T.Refines s m)
    (valid : T.Valid) (admissible : Admissible T s op) (safe : Safe T s m op) :
    ∃ s', op.apply T s = some ((op.onMap m).1, s') ∧ T.Refines s' (op.onMap m).2 := by
  have few := admissible.few
  have keys := admissible.keys
  have indexed : ∀ Key, T.IsLive Key -> (m Key = none -> ¬T.InsertFails s) ->
      ∃ b' s' k', T.FindAndConstruct Key s = some (b', s') ∧
        T.Settled s' (update m Key (some ((m Key).getD default))) k' ∧ T.Shaped s' ∧
        b' < 2 ^ k' ∧ T.slots s'.Buckets b' = .live Key ((m Key).getD default) := by
    intro Key isLive works
    rcases refines.insert_spec isLive default few valid works with
      ⟨b', s', k', run, settled, shaped, inside, live⟩
    exact ⟨b', s', k', by rw [FindAndConstruct_eq, run, map_some], settled, shaped, inside, live⟩
  cases op with
  | insert Key Value =>
    rcases refines.insert_spec (keys Key (mem_singleton_self Key)) Value few valid
      (fun unknown => safe ⟨Key, rfl, unknown⟩) with
      ⟨b', s', k', run, settled, shaped, inside, live⟩
    refine ⟨s', ?_, .inr ⟨k', settled, shaped⟩⟩
    simp only [Operation.apply, run, settled.entry inside live, Operation.onMap,
      bind_eq_bind, bind_some]
  | index Key =>
    rcases indexed Key (keys Key (mem_singleton_self Key))
      (fun unknown => safe ⟨Key, rfl, unknown⟩) with
      ⟨b', s', k', run, settled, shaped, inside, live⟩
    refine ⟨s', ?_, .inr ⟨k', settled, shaped⟩⟩
    simp only [Operation.apply, run, settled.entry inside live, Operation.onMap,
      bind_eq_bind, bind_some]
  | assign Key Value =>
    rcases indexed Key (keys Key (mem_singleton_self Key))
      (fun unknown => safe ⟨Key, rfl, unknown⟩) with
      ⟨b', s', k', run, settled, shaped, inside, live⟩
    rcases settled.assign_spec shaped inside live Value with ⟨s'', assigned, settled', shaped'⟩
    rw [update_idem] at settled'
    refine ⟨s'', ?_, .inr ⟨k', settled', shaped'⟩⟩
    simp only [Operation.apply, run, assigned, Operation.onMap, bind_eq_bind, bind_some]
  | find Val =>
    refine ⟨s, ?_, refines⟩
    simp only [Operation.apply, refines.find_eq (keys Val (mem_singleton_self Val)),
      Operation.onMap, bind_eq_bind, bind_some]
  | lookup Val =>
    refine ⟨s, ?_, refines⟩
    simp only [Operation.apply, refines.lookup_eq (keys Val (mem_singleton_self Val)),
      Operation.onMap, bind_eq_bind, bind_some]
  | erase Val =>
    rcases refines.erase_spec (keys Val (mem_singleton_self Val)) with ⟨s', run, refines'⟩
    refine ⟨s', ?_, refines'⟩
    simp only [Operation.apply, run, Operation.onMap, bind_eq_bind, bind_some]
  | clear =>
    rcases refines.clear_spec valid few with ⟨s', run, refines'⟩
    refine ⟨s', ?_, refines'⟩
    simp only [Operation.apply, run, Operation.onMap, bind_eq_bind, bind_some]
  | shrink_and_clear =>
    rcases refines.shrink_and_clear_spec valid few with ⟨s', run, refines'⟩
    refine ⟨s', ?_, refines'⟩
    simp only [Operation.apply, run, Operation.onMap, bind_eq_bind, bind_some]
  | resize Size =>
    rcases refines.resize_spec valid (admissible.sizes Size (mem_singleton_self Size)) with
      ⟨s', run, refines'⟩
    refine ⟨s', ?_, refines'⟩
    simp only [Operation.apply, run, Operation.onMap, bind_eq_bind, bind_some]

/-- An insertion that makes `allocateBuckets` fail its assertion has no result. -/
theorem Refines.stuck [Inhabited ν] {op : Operation κ ν} (refines : T.Refines s m)
    (admissible : Admissible T s op) (notSafe : ¬Safe T s m op) :
    op.apply T s = none := by
  rw [Safe, Classical.not_imp, not_not] at notSafe
  rcases notSafe with ⟨⟨key, inserts, unknown⟩, fails⟩
  rcases refines with unallocated | ⟨k, settled, shaped⟩
  · rcases fails with ⟨_, InlineBuckets, derived, _⟩
    rw [unallocated.derived] at derived
    cases derived
  · have few := admissible.few
    rw [settled.size, Nat.pow_lt_pow_iff_right (by omega)] at few
    have stuck : T.IsLive key -> ∀ value, T.insert key value s = none := fun isLive value =>
      settled.insert_fails shaped few isLive unknown fails value
    cases op with
    | insert Key Value =>
      injection inserts with same
      have isLive := admissible.keys Key (mem_singleton_self Key)
      simp only [Operation.apply, same, stuck (same ▸ isLive), bind_eq_bind, bind_none]
    | index Key =>
      injection inserts with same
      have isLive := admissible.keys Key (mem_singleton_self Key)
      simp only [Operation.apply, FindAndConstruct_eq, same, stuck (same ▸ isLive),
        map_none, bind_eq_bind, bind_none]
    | assign Key Value =>
      injection inserts with same
      have isLive := admissible.keys Key (mem_singleton_self Key)
      simp only [Operation.apply, FindAndConstruct_eq, same, stuck (same ▸ isLive),
        map_none, bind_eq_bind, bind_none]
    | find Val => cases inserts
    | lookup Val => cases inserts
    | erase Val => cases inserts
    | clear => cases inserts
    | shrink_and_clear => cases inserts
    | resize Size => cases inserts

/-! ## Runs -/

/-- What a run of a dense map may do. -/
def Allowed (T : Instance κ) (s : DenseMapBase κ ν) (m : κ -> Option ν)
    (op : Operation κ ν) : Prop :=
  Admissible T s op ∧ Safe T s m op

theorem Reached.refines [Inhabited ν] (valid : T.Valid) (reached : Reached T (Allowed T) s m) :
    T.Refines s m := by
  induction reached with
  | construct initial made =>
    rcases init_spec valid _ initial ⟨false, [], 0, 0⟩ with ⟨s', made', refines⟩
    rw [Instance.construct, made'] at made
    exact Option.some.inj made ▸ refines
  | step reached isAllowed applied ih =>
    rcases ih.step valid isAllowed.1 isAllowed.2 with ⟨s', applied', refines⟩
    rw [applied] at applied'
    injection Option.some.inj applied' with _ same
    exact same ▸ refines

/-- Every state of a run whose insertions are safe refines the abstract map, and the
next operation does what it should exactly if it is safe, too. -/
theorem runs_refine_map [Inhabited ν] (T : Instance κ) (valid : T.Valid) :
    (∀ NumInitBuckets, T.InitialSize NumInitBuckets ->
      ∃ s : DenseMapBase κ ν, T.construct NumInitBuckets = some s) ∧
    ∀ (s : DenseMapBase κ ν) (m : κ -> Option ν), Reached T (Allowed T) s m ->
      Correct T s m ∧ ∀ op, Admissible T s op -> (StepCorrect T s m op ↔ Safe T s m op) := by
  refine ⟨fun NumInitBuckets initial => ?_, fun s m reached => ?_⟩
  · rcases init_spec (ν := ν) valid _ initial ⟨false, [], 0, 0⟩ with ⟨s, made, _⟩
    exact ⟨s, made⟩
  · have refines := reached.refines valid
    refine ⟨refines.correct valid, fun op admissible => ⟨fun correct => ?_, fun safe => ?_⟩⟩
    · by_contra notSafe
      rcases correct with ⟨s', applied, _⟩
      rw [refines.stuck admissible notSafe] at applied
      cases applied
    · rcases refines.step valid admissible safe with ⟨s', applied, refines'⟩
      exact ⟨s', applied, refines'.correct valid⟩

/-! ## Maps of unsigned numbers -/

/-- `SmallDenseMap` of unsigned keys, with assertions. -/
def unsignedMap (InlineBuckets : Nat) : Instance (BitVec 32) where
  getEmptyKey := 0xFFFFFFFF
  getTombstoneKey := 0xFFFFFFFE
  getHashValue := fun Val => Val * 37
  distinct := by decide
  uninitialized := 0
  derived := .smallDenseMap InlineBuckets
  NDEBUG := false

theorem unsignedMap_valid {j : Nat} (few : j < 30) : (unsignedMap (2 ^ j)).Valid := by
  intro InlineBuckets derived
  injection derived with same
  exact ⟨j, few, same.symm⟩

theorem runs_refine_map_once : ∃ s, Reached (unsignedMap 4) (Allowed (unsignedMap 4)) s
      (fun _ => (none : Option Nat)) ∧ Correct (unsignedMap 4) s (fun _ => none) ∧
      StepCorrect (unsignedMap 4) s (fun _ => none) (.insert 5 7) := by
  have valid : (unsignedMap 4).Valid := unsignedMap_valid (j := 2) (by omega)
  have total := runs_refine_map (ν := Nat) (unsignedMap 4) valid
  have initial : (unsignedMap 4).InitialSize 0 := .inl (by omega)
  rcases total.1 0 initial with ⟨s, made⟩
  have reached : Reached (unsignedMap 4) (Allowed (unsignedMap 4)) s
    (fun _ => (none : Option Nat)) := .construct initial made
  rcases total.2 s _ reached with ⟨correct, steps⟩
  have four : s.getNumBuckets = 4 := by
    have concrete : (unsignedMap 4).construct 0 = some (⟨true, List.replicate 4 ⟨0xFFFFFFFF, none⟩,
      0, 0⟩ : DenseMapBase (BitVec 32) Nat) := by decide
    rw [concrete] at made
    rw [<- Option.some.inj made]
    rfl
  refine ⟨s, reached, correct, (steps _ ⟨?_, ?_, ?_⟩).mpr fun _ => ?_⟩
  · rw [four]
    omega
  · intro key mem
    rw [mem_singleton.mp mem]
    exact ⟨by decide, by decide⟩
  · intro Size mem
    exact absurd mem not_mem_nil
  · rintro ⟨_, InlineBuckets, derived, large, _⟩
    injection derived with same
    omega

/-! ## Growth in place -/

/-- A small map of 64 buckets after some keys were inserted and removed again: the key
of a bucket is its number divided by 37, modulo 64. -/
def removals (n : Nat) : DenseMapBase (BitVec 32) Nat where
  Small := true
  Buckets := (List.range 64).map fun b =>
    if b * 45 % 64 < n then ⟨0xFFFFFFFE, none⟩ else ⟨0xFFFFFFFF, none⟩
  NumEntries := 0
  NumTombstones := n

/-- A key is inserted and removed. -/
def insertErase (s : DenseMapBase (BitVec 32) Nat) (key : BitVec 32) :
    Option (DenseMapBase (BitVec 32) Nat × DenseMapBase (BitVec 32) Nat) := do
  let (_, s₁) <- Operation.apply (unsignedMap 64) s (.insert key 0)
  let (_, s₂) <- Operation.apply (unsignedMap 64) s₁ (.erase key)
  some (s₁, s₂)

theorem removals_step : ∀ n < 55, ((insertErase (removals n) (BitVec.ofNat 32 n)).map fun r =>
    (decide (r.1.getNumBuckets < 2 ^ 30), r.2)) = some (true, removals (n + 1)) := by
  decide +kernel

theorem small_isLive : ∀ n < 56, (unsignedMap 64).IsLive (BitVec.ofNat 32 n) := by
  decide +kernel

theorem removals_size (n : Nat) : (removals n).getNumBuckets < 2 ^ 30 := by
  rw [DenseMapBase.getNumBuckets, removals, length_map, length_range]
  omega

theorem removals_reached (n : Nat) (few : n <= 55) :
    Reached (unsignedMap 64) (fun s _ op => Admissible (unsignedMap 64) s op)
      (removals n) fun _ => none := by
  induction n with
  | zero =>
    have concrete : (unsignedMap 64).construct 0 = some (removals 0) := by decide +kernel
    exact .construct (.inl (by omega)) concrete
  | succ n ih =>
    have reached := ih (by omega)
    have isLive := small_isLive n (by omega)
    have computed := removals_step n (by omega)
    cases first : Operation.apply (unsignedMap 64) (removals n)
      (.insert (BitVec.ofNat 32 n) 0) with
    | none =>
      simp only [insertErase, first, bind_eq_bind, bind_none, map_none] at computed
      cases computed
    | some r₁ =>
      cases second : Operation.apply (unsignedMap 64) r₁.2 (.erase (BitVec.ofNat 32 n)) with
      | none =>
        simp only [insertErase, first, second, bind_eq_bind, bind_some,
          bind_none, map_none] at computed
        cases computed
      | some r₂ =>
        simp only [insertErase, first, second, bind_eq_bind, bind_some,
          map_some, Option.some.injEq, Prod.mk.injEq, decide_eq_true_iff] at computed
        rcases computed with ⟨size, last⟩
        have key : ∀ key ∈ [BitVec.ofNat 32 n], (unsignedMap 64).IsLive key := by
          intro key mem
          rw [mem_singleton.mp mem]
          exact isLive
        have insertAdmissible : Admissible (unsignedMap 64) (removals n)
            (.insert (BitVec.ofNat 32 n) 0) :=
          ⟨removals_size n, key, fun _ mem => absurd mem not_mem_nil⟩
        have eraseAdmissible : Admissible (unsignedMap 64) r₁.2
            (.erase (BitVec.ofNat 32 n) : Operation (BitVec 32) Nat) :=
          ⟨size, key, fun _ mem => absurd mem not_mem_nil⟩
        have inserted := reached.step insertAdmissible first
        have erased := inserted.step eraseAdmissible second
        rw [last] at erased
        have nothing : (Operation.onMap (Operation.onMap (fun _ => none)
            (.insert (BitVec.ofNat 32 n) 0)).2
            (.erase (BitVec.ofNat 32 n))).2 = fun _ => (none : Option Nat) := by
          simp only [Operation.onMap, update_idem, update_eq_self]
        rwa [nothing] at erased

/-- With 55 tombstones in 64 inline buckets the next insertion fails the assertion. -/
theorem growth_in_place_fails :
    ¬∀ (s : DenseMapBase (BitVec 32) Nat) (m : BitVec 32 -> Option Nat),
      Reached (unsignedMap 64) (fun s _ op => Admissible (unsignedMap 64) s op) s m ->
      ∀ op, Admissible (unsignedMap 64) s op -> StepCorrect (unsignedMap 64) s m op := by
  intro claimed
  have stuck : Operation.apply (unsignedMap 64) (removals 55) (.insert 55 0) = none := by
    decide +kernel
  have admissible : Admissible (unsignedMap 64) (removals 55) (.insert 55 0) := by
    refine ⟨removals_size 55, fun key mem => ?_, fun _ mem => absurd mem not_mem_nil⟩
    rw [mem_singleton.mp mem]
    exact small_isLive 55 (by omega)
  rcases claimed _ _ (removals_reached 55 (le_refl 55)) _ admissible with ⟨s', applied, _⟩
  rw [stuck] at applied
  cases applied

end Instance
end DenseMap
end LlvmProject
