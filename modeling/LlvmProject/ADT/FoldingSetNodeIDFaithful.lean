import LlvmProject.ADT.FoldingSetNodeID

namespace LlvmProject

open List

namespace FoldingSetNodeID

/-!
# Faithful profiles

A 32-bit integer and a string tell where they end, so that fields up to a
64-bit integer can be read back from the words.  What comes after it can be
read back only if its length is known.
-/

variable {host : Endian}

/-! ## Words of a field -/

/-- Where an encoded value ends is told by the encoding. -/
theorem stringWords_append_inj {String String' : List Byte} {rest rest' : List Word}
    (length : String.length = String'.length)
    (same : stringWords host String ++ rest = stringWords host String' ++ rest') :
    String = String' ∧ rest = rest' := by
  fun_induction stringWords host String generalizing String' with
  | case1 b0 b1 b2 b3 tail ih =>
    rcases String' with _ | ⟨c0, _ | ⟨c1, _ | ⟨c2, _ | ⟨c3, tail'⟩⟩⟩⟩ <;> simp at length
    rw [stringWords, cons_append, cons_append, List.cons.injEq] at same
    rcases host.load_inj same.1 with ⟨rfl, rfl, rfl, rfl⟩
    rcases ih length same.2 with ⟨rfl, rfl⟩
    exact ⟨rfl, rfl⟩
  | case2 b0 b1 b2 =>
    rcases String' with _ | ⟨c0, _ | ⟨c1, _ | ⟨c2, _ | ⟨c3, tail'⟩⟩⟩⟩ <;> simp at length
    rcases List.cons.inj same with ⟨word, rest⟩
    have bounds := shiftIn_zero_lt b0 b1
    have bounds' := shiftIn_zero_lt c0 c1
    rcases shiftIn_inj bounds.2 bounds'.2 word with ⟨two, rfl⟩
    rcases shiftIn_inj bounds.1 bounds'.1 two with ⟨one, rfl⟩
    rcases shiftIn_inj (by decide) (by decide) one with ⟨-, rfl⟩
    exact ⟨rfl, rest⟩
  | case3 b0 b1 =>
    rcases String' with _ | ⟨c0, _ | ⟨c1, _ | ⟨c2, tail'⟩⟩⟩ <;> simp at length
    rcases List.cons.inj same with ⟨word, rest⟩
    rcases shiftIn_inj (shiftIn_zero_lt b0 b1).1 (shiftIn_zero_lt c0 c1).1 word with ⟨one, rfl⟩
    rcases shiftIn_inj (by decide) (by decide) one with ⟨-, rfl⟩
    exact ⟨rfl, rest⟩
  | case4 b0 =>
    rcases String' with _ | ⟨c0, _ | ⟨c1, tail'⟩⟩ <;> simp at length
    rcases List.cons.inj same with ⟨word, rest⟩
    rcases shiftIn_inj (by decide) (by decide) word with ⟨-, rfl⟩
    exact ⟨rfl, rest⟩
  | case5 =>
    rw [length_nil] at length
    cases length_eq_zero_iff.mp length.symm
    exact ⟨rfl, same⟩

def integerWords (I : BitVec 64) : List Word :=
  I.setWidth 32 :: if (I.setWidth 32).setWidth 64 ≠ I then [(I >>> 32).setWidth 32] else []

theorem AddInteger64_eq (ID : List Word) (I : BitVec 64) :
    AddInteger64 ID I = ID ++ integerWords I := by
  unfold AddInteger64 integerWords AddInteger32
  by_cases high : (I.setWidth 32).setWidth 64 ≠ I
  · rw [if_pos high, if_pos high, append_assoc]
    rfl
  · rw [if_neg high, if_neg high]

theorem toNat_eq_words (I : BitVec 64) :
    I.toNat = ((I >>> 32).setWidth 32).toNat * 2 ^ 32 + (I.setWidth 32).toNat := by
  rw [BitVec.toNat_setWidth, BitVec.toNat_setWidth, BitVec.toNat_ushiftRight,
    Nat.shiftRight_eq_div_pow]
  have bound := I.isLt
  omega

theorem integerWords_inj {I I' : BitVec 64} (same : integerWords I = integerWords I') : I = I' := by
  unfold integerWords at same
  rcases List.cons.inj same with ⟨low, high⟩
  split at high
  · split at high
    · apply BitVec.eq_of_toNat_eq
      rw [toNat_eq_words I, toNat_eq_words I', low, singleton_inj.mp high]
    · exact nomatch high
  · rename_i short
    split at high
    · exact nomatch high
    · rename_i short'
      rw [<- not_not.mp short, <- not_not.mp short', low]

/-- The words that the call for a field appends. -/
def Field.words (host : Endian) : Field -> List Word
  | int32 I => [I]
  | int64 I => integerWords I
  | string String => BitVec.ofNat 32 String.length :: stringWords host String

theorem Field.words_append_inj {field field' : Field} {rest rest' : List Word} (kinds : field.kind =
    field'.kind) (other : field.kind ≠ .int64) (short : ∀ String, field = .string String ->
    String.length < 2 ^ 32) (short' : ∀ String, field' = .string String -> String.length < 2 ^ 32)
    (same : field.words host ++ rest = field'.words host ++ rest') :
    field = field' ∧ rest = rest' := by
  match field, field' with
  | .int32 I, .int32 I' =>
    rcases List.cons.inj same with ⟨rfl, rest⟩
    exact ⟨rfl, rest⟩
  | .int64 I, _ => exact absurd rfl other
  | .string String, .string String' =>
    rcases List.cons.inj same with ⟨size, same⟩
    have length : String.length = String'.length := by
      have size := congrArg BitVec.toNat size
      rwa [BitVec.toNat_ofNat, BitVec.toNat_ofNat, Nat.mod_eq_of_lt (short String rfl),
        Nat.mod_eq_of_lt (short' String' rfl)] at size
    rcases stringWords_append_inj length same with ⟨rfl, rest⟩
    exact ⟨rfl, rest⟩

/-! ## Sequences of fields -/

variable {kinds : List Kind}

theorem profile_eq {calls : List (Field × Bool)} {limit : Nat}
    (given : Calls kinds limit calls) (small : limit < 2 ^ 32 - 4) :
    profile host calls = some ((calls.map Prod.fst).flatMap (Field.words host)) := by
  suffices ∀ ID, (∀ String aligned, (Field.string String, aligned) ∈ calls ->
      String.length < 2 ^ 32 - 4) -> calls.foldlM (Add host) ID =
        some (ID ++ (calls.map Prod.fst).flatMap (Field.words host)) from
    this [] fun String aligned mem => (given.short String aligned mem).trans_lt small
  clear given
  induction calls with
  | nil => exact fun ID _ => congrArg some (append_nil ID).symm
  | cons call calls ih =>
    intro ID short
    have added : Add host ID call = some (ID ++ call.1.words host) := by
      match call with
      | (.int32 I, _) => rfl
      | (.int64 I, _) => exact congrArg some (AddInteger64_eq ID I)
      | (.string String, aligned) =>
        exact AddString_eq aligned ID (short String aligned mem_cons_self)
    rw [foldlM_cons, added, Option.bind_eq_bind, Option.bind_some,
      ih _ fun String aligned mem =>
        short String aligned (mem_cons_of_mem call mem), append_assoc,
      map_cons, flatMap_cons]

variable {fields : List Field}

theorem length_words_of_int32 (integers : ∀ kind ∈ fields.map Field.kind, kind = .int32) :
    (fields.flatMap (Field.words host)).length = fields.length := by
  induction fields with
  | nil => rfl
  | cons field fields ih =>
    rw [map_cons, forall_mem_cons] at integers
    match field, integers.1 with
    | .int32 I, _ => simp [Field.words, ih integers.2]

theorem LongLast.tail {kind : Kind} (last : LongLast (kind :: kinds)) : LongLast kinds := by
  match kind with
  | .int32 => exact last
  | .string => exact last
  | .int64 =>
    have integers : ∀ kind ∈ kinds, kind = .int32 := last
    clear last
    induction kinds with
    | nil => trivial
    | cons next kinds ih =>
      rw [forall_mem_cons] at integers
      match next, integers.1 with
      | .int32, _ => exact ih integers.2

/-- Up to a 64-bit integer every field tells where it ends, and after it the
number of words tells how many of them are the integer's. -/
theorem words_inj (last : LongLast kinds) {fields fields' : List Field}
    (given : fields.map Field.kind = kinds) (given' : fields'.map Field.kind = kinds)
    (short : ∀ String, Field.string String ∈ fields -> String.length < 2 ^ 32)
    (short' : ∀ String, Field.string String ∈ fields' -> String.length < 2 ^ 32)
    (same : fields.flatMap (Field.words host) = fields'.flatMap (Field.words host)) :
    fields = fields' := by
  induction kinds generalizing fields fields' with
  | nil => rw [map_eq_nil_iff.mp given, map_eq_nil_iff.mp given']
  | cons kind kinds ih =>
    match fields, fields' with
    | field :: rest, field' :: rest' =>
      rcases List.cons.inj given with ⟨rfl, givenRest⟩
      rcases List.cons.inj given' with ⟨kind, givenRest'⟩
      rw [flatMap_cons, flatMap_cons] at same
      have split : field = field' ∧ rest.flatMap (Field.words host) =
          rest'.flatMap (Field.words host) := by
        by_cases long : field.kind = .int64
        · match field, field', long, kind with
          | .int64 I, .int64 I', _, _ =>
            have integers : ∀ kind ∈ kinds, kind = .int32 := last
            have lengths : rest.length = rest'.length := by
              rw [<- length_map, givenRest, <- givenRest', length_map]
            have counts : (rest.flatMap (Field.words host)).length =
                (rest'.flatMap (Field.words host)).length :=
              (length_words_of_int32 (givenRest.symm ▸ integers)).trans
                (lengths.trans (length_words_of_int32 (givenRest'.symm ▸ integers)).symm)
            rcases append_inj' same counts with ⟨head, tail⟩
            exact ⟨congrArg _ (integerWords_inj head), tail⟩
        · exact Field.words_append_inj kind.symm long
            (fun String same => short String (same ▸ mem_cons_self))
            (fun String same => short' String (same ▸ mem_cons_self)) same
      rw [split.1, ih last.tail givenRest givenRest'
        (fun String mem => short String (mem_cons_of_mem _ mem))
        (fun String mem => short' String (mem_cons_of_mem _ mem)) split.2]

/-! ## Collisions -/

/-- Some field of a kind, with no string of more than `limit` bytes. -/
def Kind.sample : Kind -> Field
  | int32 => .int32 0
  | int64 => .int64 0
  | string => .string []

theorem Kind.kind_sample (kind : Kind) : kind.sample.kind = kind := by
  cases kind <;> rfl

theorem Kind.sample_short (kind : Kind) :
    ∀ String, kind.sample = .string String -> String.length <= 1 := by
  cases kind with
  | int32 => exact nofun
  | int64 => exact nofun
  | string =>
    rintro String same
    cases same
    exact Nat.zero_le 1

/-- Fields of given kinds with strings of at most one byte. -/
structure Samples (kinds : List Kind) (fields : List Field) : Prop where
  kinds_eq : fields.map Field.kind = kinds
  short : ∀ String, Field.string String ∈ fields -> String.length <= 1

theorem Samples.cons {field : Field} {kind : Kind}
    (same : field.kind = kind) (short : ∀ String, field = .string String -> String.length <= 1)
    (samples : Samples kinds fields) : Samples (kind :: kinds) (field :: fields) where
  kinds_eq := congrArg₂ List.cons same samples.kinds_eq
  short := by
    intro String mem
    rcases mem_cons.mp mem with same | mem
    · exact short String same.symm
    · exact samples.short String mem

theorem Samples.sample (kinds : List Kind) : Samples kinds (kinds.map Kind.sample) := by
  induction kinds with
  | nil => exact ⟨rfl, nofun⟩
  | cons kind kinds ih =>
    exact ih.cons kind.kind_sample kind.sample_short

/-- After a field that is not a 32-bit integer, a word may be taken for part of
that field or for the end of what is before it. -/
theorem exists_shifted (host : Endian) (longer : ¬ ∀ kind ∈ kinds, kind = .int32) :
    ∃ fields shifted, Samples kinds fields ∧ Samples kinds shifted ∧
      shifted.flatMap (Field.words host) = 1 :: fields.flatMap (Field.words host) := by
  induction kinds with
  | nil => exact absurd (forall_mem_nil _) longer
  | cons kind kinds ih =>
    have samples := Samples.sample kinds
    match kind with
    | .int32 =>
      have longer : ¬ ∀ kind ∈ kinds, kind = .int32 := fun integers =>
        longer (forall_mem_cons.mpr ⟨rfl, integers⟩)
      rcases ih longer with ⟨fields, shifted, one, two, same⟩
      refine ⟨.int32 1 :: fields, .int32 1 :: shifted, one.cons rfl nofun, two.cons rfl nofun, ?_⟩
      rw [flatMap_cons, flatMap_cons, same]
      rfl
    | .int64 =>
      refine ⟨.int64 1 :: _, .int64 (2 ^ 32 + 1) :: _, samples.cons rfl nofun,
        samples.cons rfl nofun, ?_⟩
      rw [flatMap_cons, flatMap_cons]
      rfl
    | .string =>
      refine ⟨.string [] :: _, .string [0] :: _, samples.cons rfl (by simp),
        samples.cons rfl (by simp), ?_⟩
      rw [flatMap_cons, flatMap_cons]
      rfl

/-- A 64-bit integer takes the word that comes after it. -/
theorem exists_collision (host : Endian) (early : ¬ LongLast kinds) :
    ∃ fields fields', Samples kinds fields ∧ Samples kinds fields' ∧ fields ≠ fields' ∧
      fields.flatMap (Field.words host) = fields'.flatMap (Field.words host) := by
  induction kinds with
  | nil => exact absurd trivial early
  | cons kind kinds ih =>
    by_cases long : kind = .int64
    · subst long
      have longer : ¬ ∀ kind ∈ kinds, kind = .int32 := early
      rcases exists_shifted host longer with ⟨fields, shifted, one, two, same⟩
      refine ⟨.int64 (2 ^ 32) :: fields, .int64 0 :: shifted, one.cons rfl nofun,
        two.cons rfl nofun, ?_, ?_⟩
      · intro same
        exact absurd (List.cons.inj same).1 (by decide)
      · rw [flatMap_cons, flatMap_cons, same]
        rfl
    · have early : ¬ LongLast kinds := by
        match kind, long with
        | .int32, _ => exact early
        | .string, _ => exact early
      rcases ih early with ⟨fields, fields', one, two, differ, same⟩
      refine ⟨kind.sample :: fields, kind.sample :: fields', one.cons kind.kind_sample
        kind.sample_short, two.cons kind.kind_sample kind.sample_short,
        fun same => differ (List.cons.inj same).2, ?_⟩
      rw [flatMap_cons, flatMap_cons, same]

/-- The calls for some fields, with aligned strings. -/
def alignedCalls (fields : List Field) : List (Field × Bool) := fields.map (·, true)

theorem alignedCalls_fst (fields : List Field) : (alignedCalls fields).map Prod.fst = fields := by
  rw [alignedCalls, map_map]
  exact map_id fields

theorem Samples.calls (samples : Samples kinds fields) :
    Calls kinds 1 (alignedCalls fields) where
  kinds_eq := by
    rw [<- samples.kinds_eq]
    simp [alignedCalls]
  short := by
    intro String aligned mem
    rcases mem_map.mp mem with ⟨field, inside, same⟩
    cases same
    exact samples.short String inside

/-! ## Faithful profiles -/

theorem faithful_of_longLast {limit : Nat} (small : limit < 2 ^ 32 - 4)
    (last : LongLast kinds) : Faithful host kinds limit := by
  intro calls calls' given given' differ
  refine ⟨_, _, profile_eq given small, profile_eq given' small, ?_⟩
  apply Bool.eq_false_of_not_eq_true
  intro same
  apply differ
  refine words_inj last ?_ ?_ ?_ ?_ (equal_iff.mp same)
  · rw [map_map]
    exact given.kinds_eq
  · rw [map_map]
    exact given'.kinds_eq
  · intro String mem
    rcases mem_map.mp mem with ⟨⟨_, aligned⟩, mem, rfl⟩
    exact (given.short String aligned mem).trans_lt (by omega)
  · intro String mem
    rcases mem_map.mp mem with ⟨⟨_, aligned⟩, mem, rfl⟩
    exact (given'.short String aligned mem).trans_lt (by omega)

theorem longLast_of_faithful {limit : Nat} (pos : 0 < limit)
    (faithful : Faithful host kinds limit) : LongLast kinds := by
  by_contra early
  rcases exists_collision host early with ⟨fields, fields', one, two, differ, same⟩
  have calls : Calls kinds limit (alignedCalls fields) :=
    ⟨one.calls.kinds_eq, fun S a mem => (one.calls.short S a mem).trans pos⟩
  have calls' : Calls kinds limit (alignedCalls fields') :=
    ⟨two.calls.kinds_eq, fun S a mem => (two.calls.short S a mem).trans pos⟩
  rcases faithful _ _ calls calls' (by rwa [alignedCalls_fst, alignedCalls_fst]) with
    ⟨ID, ID', first, second, apart⟩
  rw [profile_eq one.calls (by omega), alignedCalls_fst] at first
  rw [profile_eq two.calls (by omega), alignedCalls_fst] at second
  cases first
  cases second
  rw [equal_iff.mpr same] at apart
  exact nomatch apart

/-- The words of a string do not depend on where its data is. -/
def AlignmentFree (host : Endian) (limit : Nat) : Prop :=
  ∀ ID String, String.length <= limit ->
    AddString host true ID String = AddString host false ID String

theorem alignmentFree_iff (limit : Nat) : AlignmentFree host limit ↔ limit < 2 ^ 32 - 4 := by
  constructor
  · intro free
    by_contra large
    have fits : (replicate (2 ^ 32 - 4) (0 : Byte)).length = 2 ^ 32 - 4 := length_replicate
    have differ := AddString_large host [] (by rw [fits]; decide)
    rw [free [] _ (by rw [fits]; omega)] at differ
    exact differ.1 differ.2
  · intro small ID String short
    rw [AddString_eq true ID (short.trans_lt small), AddString_eq false ID (short.trans_lt small)]

/-- Profiles tell fields apart, and strings are added alike wherever their data
is, exactly if no 64-bit integer comes before another field of variable size
and sizes stay four below `2 ^ 32`. -/
theorem faithful_iff (host : Endian) (kinds : List Kind) (limit : Nat) (pos : 0 < limit) :
    Faithful host kinds limit ∧ AlignmentFree host limit ↔ LongLast kinds ∧ limit < 2 ^ 32 - 4 := by
  rw [alignmentFree_iff]
  constructor
  · rintro ⟨faithful, small⟩
    exact ⟨longLast_of_faithful pos faithful, small⟩
  · rintro ⟨last, small⟩
    exact ⟨faithful_of_longLast small last, small⟩

/-- A string, an integer of 32 bits and one of 64 bits are told apart. -/
theorem faithful_iff_string_int32_int64 :
    Faithful .little [.string, .int32, .int64] 100 ∧ AlignmentFree .little 100 :=
  (faithful_iff .little [.string, .int32, .int64] 100 (by decide)).mpr
    ⟨by simp [LongLast], by decide⟩

/-- `2 ^ 33 + 1` and `3` have the words of `1` and `3 * 2 ^ 32 + 2`. -/
theorem int64_int64_collide :
    profile .little [(.int64 (2 ^ 33 + 1), true), (.int64 3, true)] = some [1, 2, 3] ∧
      profile .little [(.int64 1, true), (.int64 (3 * 2 ^ 32 + 2), true)] = some [1, 2, 3] ∧
      ¬ Faithful .little [.int64, .int64] 0 := by
  have first : profile .little [(.int64 (2 ^ 33 + 1), true), (.int64 3, true)] =
      some [1, 2, 3] := by decide
  have second : profile .little [(.int64 1, true), (.int64 (3 * 2 ^ 32 + 2), true)] =
      some [1, 2, 3] := by decide
  refine ⟨first, second, fun faithful => ?_⟩
  have calls : Calls [.int64, .int64] 0 [(.int64 (2 ^ 33 + 1), true), (.int64 3, true)] :=
    ⟨rfl, by simp⟩
  have calls' : Calls [.int64, .int64] 0 [(.int64 1, true), (.int64 (3 * 2 ^ 32 + 2), true)] :=
    ⟨rfl, by simp⟩
  rcases faithful _ _ calls calls' (by decide) with ⟨ID, ID', one, two, apart⟩
  cases first.symm.trans one
  cases second.symm.trans two
  exact absurd apart (by decide)

end FoldingSetNodeID
end LlvmProject
