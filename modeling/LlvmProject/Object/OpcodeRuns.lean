import LlvmProject.Object.OpcodeEntry

namespace LlvmProject

open List

namespace MachO
namespace OpcodeEntry

/-!
# Iterations and the meaning of their opcodes

An iteration reports exactly the items of a table when the bytes can be followed,
and only then.
-/

variable {F : Type} {opcodes : Opcodes F} {format : Format F} {PointerSize : UInt8}
variable {e e' : OpcodeEntry F} {list further : List (TableItem F)} {here : TableItem F}

/-! ## One move -/

theorem not_atEnd (going : e.Done = false) : ¬ e.AtEnd := by
  rintro ⟨-, -, done⟩
  exact nomatch going.symm.trans done

theorem yields_iff (going : e.Done = false) :
    Yields opcodes e list ↔ ∃ e' further, e.moveNext opcodes = some e' ∧
      list = e.item :: further ∧ Yields opcodes e' further := by
  constructor
  · intro yields
    cases yields with
    | atEnd ended => exact absurd ended (not_atEnd going)
    | next more moved further => exact ⟨_, _, moved, rfl, further⟩
  · rintro ⟨e', further, moved, rfl, yields⟩
    exact Yields.next (not_atEnd going) moved yields

theorem yields_end_iff (ended : e.AtEnd) : Yields opcodes e list ↔ list = [] := by
  constructor
  · intro yields
    cases yields with
    | atEnd => rfl
    | next more => exact absurd ended more
  · rintro rfl
    exact Yields.atEnd ended

/-- The loop of `moveNext` leads to an entry from which the items are reported. -/
def Loops (opcodes : Opcodes F) (e : OpcodeEntry F) (list : List (TableItem F)) : Prop :=
  ∃ e', loop opcodes e = some e' ∧ Yields opcodes e' list

/-- What `moveNext` does when there is no entry left to repeat. -/
def After (opcodes : Opcodes F) (e : OpcodeEntry F) (list : List (TableItem F)) : Prop :=
  if e.Ptr = [] then list = [] else Loops opcodes e list

/-- The entry when the loop starts. -/
structure Ready (PointerSize : UInt8) (e : OpcodeEntry F) : Prop where
  size : e.PointerSize = PointerSize
  remaining : e.RemainingLoopCount = 0
  sound : e.Malformed = false
  going : e.Done = false

theorem moveNext_iff (remaining : e.RemainingLoopCount = 0) :
    (∃ e', e.moveNext opcodes = some e' ∧ Yields opcodes e' list) ↔
      After opcodes { e with SegmentOffset := e.SegmentOffset + e.AdvanceAmount } list := by
  rw [moveNext, After]
  dsimp only
  rw [if_neg (not_not_intro remaining)]
  by_cases finished : e.Ptr = []
  · rw [if_pos finished, if_pos finished]
    have ended : AtEnd { e with
      SegmentOffset := e.SegmentOffset + e.AdvanceAmount, Done := true } :=
      ⟨finished, remaining, rfl⟩
    have yielded : Yields opcodes _ list ↔ list = [] := yields_end_iff ended
    rw [<- yielded]
    constructor
    · rintro ⟨e', moved, yields⟩
      cases moved
      exact yields
    · exact fun yields => ⟨_, rfl, yields⟩
  · rw [if_neg finished, if_neg finished, Loops]

theorem yields_last_iff (remaining : e.RemainingLoopCount = 0) (going : e.Done = false) :
    Yields opcodes e list ↔ ∃ further, list = e.item :: further ∧
      After opcodes { e with SegmentOffset := e.SegmentOffset + e.AdvanceAmount } further := by
  simp only [yields_iff going, <- moveNext_iff remaining]
  constructor
  · rintro ⟨e', further, moved, same, yields⟩
    exact ⟨further, same, e', moved, yields⟩
  · rintro ⟨further, same, e', moved, yields⟩
    exact ⟨e', further, moved, same, yields⟩

/-- The items of an entry that is repeated. -/
def repeats (e : OpcodeEntry F) (count : Nat) : List (TableItem F) :=
  (List.range count).map fun i =>
    { e.item with segmentOffset := e.SegmentOffset + .ofNat i * e.AdvanceAmount }

theorem offset_succ (offset dist : UInt64) (i : Nat) :
    offset + dist + .ofNat i * dist = offset + .ofNat (i + 1) * dist := by
  rw [UInt64.ofNat_add, show UInt64.ofNat 1 = 1 from rfl, UInt64.add_mul, UInt64.one_mul,
    UInt64.add_assoc, UInt64.add_comm dist]

theorem repeats_succ (e : OpcodeEntry F) (count : Nat) : e.repeats (count + 1) = e.item ::
    repeats { e with SegmentOffset := e.SegmentOffset + e.AdvanceAmount } count := by
  rw [repeats, range_succ_eq_map, List.map_cons, List.map_map, repeats]
  refine congrArg₂ List.cons ?_ (map_congr_left fun i _ => ?_)
  · simp [item]
  · simp only [Function.comp_apply, item]
    congr 1
    exact (offset_succ e.SegmentOffset e.AdvanceAmount i).symm

/-- An entry is repeated at equal distances. -/
theorem yields_times_iff (count : Nat) (remaining : e.RemainingLoopCount.toNat = count)
    (going : e.Done = false) :
    Yields opcodes e list ↔ ∃ further, list = e.repeats (count + 1) ++ further ∧
      After opcodes { e with
        RemainingLoopCount := 0
        SegmentOffset := e.SegmentOffset + .ofNat (count + 1) * e.AdvanceAmount } further := by
  induction count generalizing e list with
  | zero =>
    have none : e.RemainingLoopCount = 0 := UInt64.toNat_inj.mp remaining
    rw [yields_last_iff none going, repeats_succ, <- none]
    simp [repeats]
  | succ count ih =>
    have pos : e.RemainingLoopCount ≠ 0 := by
      intro none
      rw [none] at remaining
      exact nomatch remaining
    have fewer : (e.RemainingLoopCount - 1).toNat = count := by
      rw [UInt64.toNat_sub_of_le _ _ (by rw [UInt64.le_iff_toNat_le, remaining]; simp), remaining]
      simp
    let next : OpcodeEntry F := { e with
      SegmentOffset := e.SegmentOffset + e.AdvanceAmount
      RemainingLoopCount := e.RemainingLoopCount - 1 }
    have moves : e.moveNext opcodes = some next := if_pos pos
    have rest : ∀ further, Yields opcodes next further ↔ _ := fun further => ih fewer going
    dsimp only [next] at rest
    simp only [offset_succ] at rest
    rw [yields_iff going, moves, repeats_succ]
    constructor
    · rintro ⟨e', tail, moved, rfl, yields⟩
      cases moved
      rcases (rest tail).mp yields with ⟨further, rfl, after⟩
      exact ⟨further, rfl, after⟩
    · rintro ⟨further, rfl, after⟩
      exact ⟨next, _, rfl, rfl, (rest _).mpr ⟨further, rfl, after⟩⟩

/-! ## One operation -/

theorem loops_nil (sound : e.Malformed = false) (empty : e.Ptr = []) : ¬ Loops opcodes e list := by
  rintro ⟨e', ran, -⟩
  rw [loop, if_neg (by rw [sound]; exact Bool.false_ne_true)] at ran
  split at ran
  · cases ran
  · rename_i bytes
    cases empty.symm.trans bytes

variable {Byte : UInt8}

variable {Ptr : List UInt8}

theorem loop_cons (sound : e.Malformed = false)
    (bytes : e.Ptr = Byte :: Ptr) : loop opcodes e =
      (opcodes.step { e with Ptr } Byte).bind fun (e', more) =>
        if more then loop opcodes e' else some e' := by
  rw [loop, if_neg (by rw [sound]; exact Bool.false_ne_true)]
  split
  · rename_i empty
    cases empty.symm.trans bytes
  · rename_i bytes'
    cases bytes'.symm.trans bytes
    split
    · rename_i failed
      rw [failed]
      rfl
    · rename_i ran
      rw [ran]
      rfl
    · rename_i ran
      dsimp only
      rw [ran]
      rfl

variable (implements : Implements opcodes format PointerSize)
include implements

section

variable (ready : Ready PointerSize e) (bytes : e.Ptr = Byte :: Ptr)
include ready bytes

/-- Where no operation is read, an item is reported if anything is. -/
theorem loops_none (missing : format.read Byte Ptr = none) : ¬ Loops opcodes e [] := by
  rintro ⟨e', ran, yields⟩
  rw [loop_cons ready.sound bytes, Option.bind_eq_some_iff] at ran
  rcases ran with ⟨⟨e'', more⟩, stepped, ran⟩
  rcases implements.bogus (e := { e with Ptr }) ready.size missing stepped with ⟨done, malformed⟩
  have same : e' = e'' := by
    cases more with
    | false => exact (Option.some.inj ran).symm
    | true =>
      dsimp only at ran
      rw [if_pos rfl, loop, if_pos (malformed rfl)] at ran
      exact (Option.some.inj ran).symm
  rcases (yields_iff (same ▸ done.trans ready.going)).mp yields with ⟨_, _, _, reported, _⟩
  exact nomatch reported

theorem loops_some {reading : Reading F}

    (reads : format.read Byte Ptr = some reading) : Loops opcodes e list ↔
      reading.fits = true ∧
        let after := ({ e with Ptr := reading.rest } : OpcodeEntry F).run reading.operation
        if after.2 then Loops opcodes after.1 list else Yields opcodes after.1 list := by
  rw [Loops, loop_cons ready.sound bytes, implements.run (e := { e with Ptr }) ready.size reads]
  cases reading.fits with
  | false => simp
  | true =>
    rw [if_pos rfl, Option.bind_some]
    dsimp only
    cases (({ e with Ptr := reading.rest } : OpcodeEntry F).run reading.operation).2 with
    | true => simp [Loops]
    | false => simp

/-- The iteration goes on behind the first operation, where it did not stop. -/
theorem loops_some_iff {reading : Reading F}

    (reads : format.read Byte Ptr = some reading) : Loops opcodes e list ↔
      reading.fits = true ∧ match reading.operation with
      | .set update =>
        Loops opcodes { e with Ptr := reading.rest, fields := update e.fields } list
      | .seek segment offset =>
        Loops opcodes { e with
          Ptr := reading.rest, SegmentIndex := segment, SegmentOffset := .ofNat offset } list
      | .add dist =>
        Loops opcodes { e with
          Ptr := reading.rest, SegmentOffset := e.SegmentOffset + .ofNat dist } list
      | .times count dist =>
        ∃ further, list = repeats { e with AdvanceAmount := .ofNat dist }
            ((UInt64.ofNat count - 1).toNat + 1) ++ further ∧
          After opcodes { e with
            Ptr := reading.rest
            RemainingLoopCount := 0
            AdvanceAmount := .ofNat dist
            SegmentOffset := e.SegmentOffset +
              .ofNat ((UInt64.ofNat count - 1).toNat + 1) * .ofNat dist } further
      | .mark update =>
        ∃ further, list = { e.item with fields := update e.fields } :: further ∧
          After opcodes { e with
            Ptr := reading.rest
            SegmentOffset := e.SegmentOffset + e.AdvanceAmount
            fields := update e.fields } further
      | .done => list = [] := by
  rw [loops_some implements ready bytes reads]
  apply and_congr_right fun _ => ?_
  cases reading.operation with
  | set update => exact Iff.rfl
  | seek segment offset => exact Iff.rfl
  | add dist => exact Iff.rfl
  | times count dist => exact yields_times_iff _ rfl ready.going
  | mark update => exact yields_last_iff ready.remaining ready.going
  | done => exact yields_end_iff ⟨rfl, rfl, rfl⟩

end

/-! ## Whole tables -/

omit implements in
/-- The counter of a loop stands for one entry more, unless the count is zero. -/
theorem repeated_eq {count : Nat} (pos : 0 < count) (small : count < 2 ^ 64) :
    (UInt64.ofNat count - 1).toNat + 1 = count := by
  have value : (UInt64.ofNat count).toNat = count := by
    rw [UInt64.toNat_ofNat', Nat.mod_eq_of_lt small]
  have one : (1 : UInt64).toNat = 1 := rfl
  have least : 1 <= UInt64.ofNat count := by
    rw [UInt64.le_iff_toNat_le, value]
    exact pos
  rw [UInt64.toNat_sub_of_le _ _ least, value, one]
  omega

omit implements in
theorem length_repeats (e : OpcodeEntry F) (count : Nat) : (e.repeats count).length = count := by
  rw [repeats, length_map, length_range]

omit implements in
theorem after_of_loops_le (bytes : List UInt8) (same : e.Ptr = bytes)
    (loops : ∀ list, Loops opcodes e list -> (format.items bytes here).length <= list.length)
    (after : After opcodes e list) : (format.items bytes here).length <= list.length := by
  rw [After, same] at after
  split at after
  · rename_i empty
    rw [empty, Format.items_nil]
    exact Nat.zero_le _
  · exact loops list after

/-- An iteration reports at least as many items as there are. -/
theorem length_items_le (bytes : List UInt8) (ready : Ready PointerSize e) (same : e.Ptr = bytes)
    (loops : Loops opcodes e list) (here : TableItem F) :
    (format.items bytes here).length <= list.length := by
  induction length : bytes.length using Nat.strongRecOn generalizing bytes e list here with
  | ind n ih =>
    cases bytes with
    | nil => exact absurd loops (loops_nil ready.sound same)
    | cons Byte Ptr =>
      cases reads : format.read Byte Ptr with
      | none =>
        rw [Format.items_none reads]
        exact Nat.zero_le _
      | some reading =>
        have shorter : reading.rest.length < n := by
          have advanced := format.advances _ _ _ reads
          rw [<- length, length_cons]
          omega
        have further := fun {e list} (loops : Loops opcodes e list)
          (ready : Ready PointerSize e) (same : e.Ptr = reading.rest) (here : TableItem F) =>
            ih _ shorter reading.rest ready same loops here rfl
        rw [loops_some_iff implements ready same reads] at loops
        rcases reading with ⟨operation, fits, rest⟩
        replace loops := loops.2
        cases operation with
        | set update | seek segment offset | add dist =>
          rw [Format.items_next reads rfl]
          exact further loops ⟨ready.size, ready.remaining, ready.sound, ready.going⟩ rfl _
        | times count dist =>
          rcases loops with ⟨tail, rfl, after⟩
          rw [Format.items_next reads rfl, length_append, length_append,
            length_repeats, Operation.reports, length_map, length_range]
          refine Nat.add_le_add ?_ (after_of_loops_le rest rfl (fun list loops => ?_) after)
          · rcases count.eq_zero_or_pos with rfl | pos
            · exact Nat.zero_le _
            · exact (repeated_eq pos (implements.count reads rfl)).ge
          · exact further loops ⟨ready.size, rfl, ready.sound, ready.going⟩ rfl _
        | mark update =>
          rcases loops with ⟨tail, rfl, after⟩
          rw [Format.items_next reads rfl, Operation.reports, singleton_append,
            length_cons, length_cons]
          refine Nat.succ_le_succ (after_of_loops_le rest rfl (fun list loops => ?_) after)
          exact further loops ⟨ready.size, ready.remaining, ready.sound, ready.going⟩ rfl _
        | done =>
          rw [Format.items_some reads]
          exact Nat.zero_le _

omit implements in
theorem after_iff_of_loops_iff {dist displacement : UInt64} (bytes : List UInt8)
    (same : e.Ptr = bytes)
    (loops : Loops opcodes e (format.items bytes here) ↔
      format.Followed bytes false dist displacement) :
    After opcodes e (format.items bytes here) ↔ format.Followed bytes true dist displacement := by
  rw [After, same]
  cases bytes with
  | nil =>
    rw [Format.followed_nil, Format.items_nil]
    exact iff_of_true rfl rfl
  | cons Byte p => rw [if_neg (cons_ne_nil _ _), loops, Format.followed_cons]

/-- The entry is at the position of the items, ahead by a displacement. -/
structure Ahead (e : OpcodeEntry F) (here : TableItem F) (displacement : UInt64) : Prop where
  segment : e.SegmentIndex = here.segmentIndex
  offset : e.SegmentOffset = here.segmentOffset + displacement
  fields : e.fields = here.fields

variable {displacement : UInt64}

omit implements in
theorem Ahead.eq_zero (ahead : Ahead e here displacement)
    (same : here.segmentOffset = e.SegmentOffset) : displacement = 0 := by
  rw [ahead.offset] at same
  exact UInt64.left_eq_add.mp same

omit implements in
theorem reports_times (ahead : Ahead e here 0) (count dist : Nat) :
    Operation.reports here (.times count dist) =
      repeats { e with AdvanceAmount := .ofNat dist } count := by
  refine map_congr_left fun i _ => ?_
  rw [item, ahead.segment, ahead.offset, ahead.fields, UInt64.add_zero, UInt64.ofNat_mul]

omit implements in
/-- A loop reports the right items if its count is not zero and nothing is displaced. -/
theorem times_iff {count dist : Nat} {after : OpcodeEntry F}
    {items : List (TableItem F)} (ahead : Ahead e here displacement) (small : count < 2 ^ 64)
    (enough : ∀ tail, After opcodes after tail -> items.length <= tail.length) :
    (∃ tail, Operation.reports here (.times count dist) ++ items =
        repeats { e with AdvanceAmount := .ofNat dist }
          ((UInt64.ofNat count - 1).toNat + 1) ++ tail ∧ After opcodes after tail) ↔
      0 < count ∧ displacement = 0 ∧ After opcodes after items := by
  rcases count.eq_zero_or_pos with rfl | pos
  · refine iff_of_false ?_ fun absurd => absurd.1.false
    rintro ⟨tail, same, ran⟩
    have lengths := congrArg List.length same
    rw [Operation.reports, range_zero, map_nil, nil_append, length_append,
      length_repeats] at lengths
    have least := enough tail ran
    omega
  · rw [repeated_eq pos small, and_iff_right pos]
    by_cases placed : displacement = 0
    · subst placed
      rw [reports_times ahead, and_iff_right rfl]
      constructor
      · rintro ⟨tail, same, ran⟩
        rwa [append_cancel_left same]
      · exact fun ran => ⟨items, rfl, ran⟩
    · refine iff_of_false ?_ fun absurd => placed absurd.1
      rintro ⟨tail, same, -⟩
      rcases Nat.exists_eq_succ_of_ne_zero pos.ne' with ⟨count, rfl⟩
      rw [Operation.reports, range_succ_eq_map, List.map_cons, repeats_succ] at same
      have first := congrArg TableItem.segmentOffset (List.cons.inj same).1
      rw [zero_mul] at first
      exact placed (ahead.eq_zero ((UInt64.add_zero _).symm.trans first))

omit implements in
theorem mark_iff {update : F -> F} {after : OpcodeEntry F}
    {items : List (TableItem F)} (ahead : Ahead e here displacement) :
    (∃ tail, Operation.reports here (.mark update) ++ items =
        { e.item with fields := update e.fields } :: tail ∧ After opcodes after tail) ↔
      displacement = 0 ∧ After opcodes after items := by
  rw [Operation.reports, singleton_append]
  constructor
  · rintro ⟨tail, same, ran⟩
    rcases List.cons.inj same with ⟨first, rfl⟩
    exact ⟨ahead.eq_zero (congrArg TableItem.segmentOffset first), ran⟩
  · rintro ⟨placed, ran⟩
    refine ⟨items, congrArg₂ List.cons ?_ rfl, ran⟩
    rw [item, ahead.segment, ahead.offset, ahead.fields, placed, UInt64.add_zero]

/-- The items are reported exactly if the bytes can be followed. -/
theorem loops_items_iff (bytes : List UInt8) (ready : Ready PointerSize e)
    (same : e.Ptr = bytes) (ahead : Ahead e here displacement) :
    Loops opcodes e (format.items bytes here) ↔
      format.Followed bytes false e.AdvanceAmount displacement := by
  induction length : bytes.length using Nat.strongRecOn
    generalizing bytes e here displacement with
  | ind n ih =>
    cases bytes with
    | nil =>
      rw [Format.followed_nil]
      exact iff_of_false (loops_nil ready.sound same) Bool.false_ne_true
    | cons Byte Ptr =>
      cases reads : format.read Byte Ptr with
      | none =>
        rw [Format.items_none reads]
        exact iff_of_false (loops_none implements ready same reads)
          (Format.followed_none reads)
      | some reading =>
        have shorter : reading.rest.length < n := by
          have advanced := format.advances _ _ _ reads
          rw [<- length, length_cons]
          omega
        rw [loops_some_iff implements ready same reads, Format.followed_some reads]
        refine and_congr_right fun _ => ?_
        rcases reading with ⟨operation, fits, rest⟩
        have further : ∀ (e : OpcodeEntry F) (here : TableItem F) (displacement : UInt64),
            Ready PointerSize e -> e.Ptr = rest -> Ahead e here displacement ->
            (Loops opcodes e (format.items rest here) ↔
              format.Followed rest false e.AdvanceAmount displacement) :=
          fun e here displacement ready same ahead =>
            ih _ shorter rest ready same ahead rfl
        cases operation with
        | set update =>
          rw [Format.items_next reads rfl]
          refine further _ _ _ ?_ ?_ ?_
          · exact ⟨ready.size, ready.remaining, ready.sound, ready.going⟩
          · rfl
          · exact ⟨ahead.segment, ahead.offset, congrArg update ahead.fields⟩
        | seek segment offset =>
          rw [Format.items_next reads rfl]
          refine further _ _ _ ?_ ?_ ?_
          · exact ⟨ready.size, ready.remaining, ready.sound, ready.going⟩
          · rfl
          · exact ⟨rfl, (UInt64.add_zero _).symm, ahead.fields⟩
        | add dist =>
          rw [Format.items_next reads rfl]
          refine further _ _ _ ?_ ?_ ⟨ahead.segment, ?_, ahead.fields⟩
          · exact ⟨ready.size, ready.remaining, ready.sound, ready.going⟩
          · rfl
          · show e.SegmentOffset + _ = here.segmentOffset + _ + _
            rw [ahead.offset, UInt64.add_assoc, UInt64.add_comm displacement, UInt64.add_assoc]
        | times count dist =>
          have small := implements.count reads rfl
          rw [Format.items_next reads rfl]
          refine (times_iff ahead small fun tail ran => ?_).trans ?_
          · refine after_of_loops_le rest rfl (fun list loops => ?_) ran
            refine length_items_le implements rest ?_ rfl loops _
            exact ⟨ready.size, rfl, ready.sound, ready.going⟩
          · refine and_congr_right fun pos => and_congr_right fun placed => ?_
            refine after_iff_of_loops_iff rest rfl (further _ _ _ ?_ ?_ ?_)
            · exact ⟨ready.size, rfl, ready.sound, ready.going⟩
            · rfl
            · refine ⟨ahead.segment, ?_, ahead.fields⟩
              show e.SegmentOffset + _ = here.segmentOffset + _ + 0
              rw [repeated_eq pos small, ahead.offset, placed, UInt64.add_zero,
                UInt64.add_zero, UInt64.ofNat_mul]
        | mark update =>
          rw [Format.items_next reads rfl]
          refine (mark_iff ahead).trans (and_congr_right fun placed => ?_)
          refine after_iff_of_loops_iff rest rfl (further _ _ _ ?_ ?_ ?_)
          · exact ⟨ready.size, ready.remaining, ready.sound, ready.going⟩
          · rfl
          · refine ⟨ahead.segment, ?_, congrArg update ahead.fields⟩
            show e.SegmentOffset + _ = here.segmentOffset + _
            rw [ahead.offset, placed, UInt64.add_zero]
        | done =>
          rw [Format.items_some reads]
          exact iff_of_true rfl trivial

/-- From the first entry on the items of a table are reported exactly if its bytes can
be followed. -/
theorem moveToFirst_iff (Bytes : List UInt8) (is64Bit : Bool) (fields : F)
    (size : (new Bytes is64Bit fields).PointerSize = PointerSize) :
    (∃ e, moveToFirst opcodes Bytes (new Bytes is64Bit fields) = some e ∧
        Yields opcodes e (format.items Bytes ⟨0, 0, fields⟩)) ↔
      format.Followed Bytes true 0 0 := by
  refine (moveNext_iff rfl).trans ?_
  refine after_iff_of_loops_iff Bytes rfl ?_
  exact loops_items_iff implements Bytes ⟨size, rfl, rfl, rfl⟩ rfl ⟨rfl, rfl, rfl⟩

end OpcodeEntry
end MachO
end LlvmProject
