import LlvmProject.CodeGen.LiveInterval
import Mathlib.Data.List.TakeWhile

namespace LlvmProject

open List

namespace LiveInterval

/-!
# Adding segments

A segment that is extended takes in those that it reaches, and the list stays in canonical
form if no segment with another value is in its way.
-/

open IntervalList

variable {segments before after : List Segment} {S : Segment} {I : Iterator} {x : Nat}
  {v : VNInfoPtr}

/-! ## Iterators -/

@[simp] theorem Iterator.segments_mk (before after : List Segment) :
    Iterator.segments ⟨before, after⟩ = before.reverse ++ after := rfl

theorem Iterator.first_segments (segments : List Segment) (p : Segment -> Bool) :
    (Iterator.first segments p).segments = segments := by
  simp only [Iterator.first, Iterator.segments, reverse_reverse, takeWhile_append_dropWhile]

variable {p : Segment -> Bool}

theorem Iterator.first_before : ∀ S ∈ (Iterator.first segments p).before, p S = false := by
  intro S mem
  have holds := mem_takeWhile_imp (mem_reverse.mp mem)
  simpa only [Bool.not_eq_true', Bool.not_eq_eq_eq_not, Bool.not_true] using holds

theorem Iterator.first_after {after : List Segment}
    (same : (Iterator.first segments p).after = S :: after) : p S = true := by
  have holds := head?_dropWhile_not (fun S => !p S) segments
  rw [show segments.dropWhile (fun S => !p S) = S :: after from same] at holds
  simpa using holds

/-- The position is the only one with the property behind it and not before it. -/
theorem Iterator.first_eq (early : ∀ S ∈ before, p S = false) (late : ∀ S ∈ after, p S = true) :
    Iterator.first (before.reverse ++ after) p = ⟨before, after⟩ := by
  have skips : ∀ S ∈ before.reverse, (!p S) = true := by
    intro S mem
    rw [early S (mem_reverse.mp mem)]
    rfl
  have stops : after.takeWhile (fun S => !p S) = [] ∧ after.dropWhile (fun S => !p S) = after := by
    cases after with
    | nil => exact ⟨rfl, rfl⟩
    | cons S after =>
      have holds := late S mem_cons_self
      constructor
      · rw [takeWhile_cons, holds]
        rfl
      · rw [dropWhile_cons, holds]
        rfl
  simp only [Iterator.first, takeWhile_append_of_pos skips, dropWhile_append_of_pos skips,
    stops.1, stops.2, append_nil, reverse_reverse]

/-! ## Extending the end -/

theorem mergeTo_split {ValNo : VNInfoPtr} {NewEnd : Nat} {last : Segment} (canon : Canonical (last
    :: after)) (values : ∀ M ∈ after, M.stop <= NewEnd -> M.value = ValNo) :
    ∃ merged rest last', after = merged ++ rest ∧
      mergeTo ValNo NewEnd last after = some (last', rest) ∧
      max NewEnd last'.stop = max NewEnd last.stop ∧
      (∀ M ∈ merged, M.stop <= NewEnd ∧ M.value = ValNo) ∧ ∀ M ∈ rest, NewEnd < M.stop := by
  induction after generalizing last with
  | nil => exact ⟨[], [], last, rfl, rfl, rfl, nofun, nofun⟩
  | cons M after ih =>
    rcases Canonical.cons_iff.mp canon with ⟨_, tail, later⟩
    have nonempty : M.start < M.stop := tail.nonempty M mem_cons_self
    have apart : last.stop <= M.start := (later M mem_cons_self).1
    by_cases reached : M.stop <= NewEnd
    · have value := values M mem_cons_self reached
      rcases ih tail fun N mem =>
          values N (mem_cons_of_mem M mem) with
        ⟨merged, rest, last', split, ran, longest, all, beyond⟩
      refine ⟨M :: merged, rest, last', congrArg (M :: ·) split, ?_, ?_, ?_, beyond⟩
      · rw [mergeTo, if_pos reached, if_pos value, ran]
      · rw [longest]
        omega
      · exact forall_mem_cons.mpr ⟨⟨reached, value⟩, all⟩
    · refine ⟨[], M :: after, last, rfl, ?_, rfl, nofun, ?_⟩
      · rw [mergeTo, if_neg reached]
      · rw [forall_mem_cons]
        refine ⟨Nat.lt_of_not_le reached, fun N mem => ?_⟩
        have beyond := ((Canonical.cons_iff.mp tail).2.2 N mem).1
        have full := tail.nonempty N (mem_cons_of_mem M mem)
        omega

/-- The points of a longer segment that takes in others. -/
theorem at_longer {merged rest : List Segment} {stop : Nat}
    (covered : ∀ M ∈ merged, S.start <= M.start ∧ M.stop <= stop ∧ M.value = S.value) :
    At ({ S with stop := max stop S.stop } :: rest) x v ↔
      At (S :: (merged ++ rest)) x v ∨ v = S.value ∧ S.start <= x ∧ x < stop := by
  rw [at_cons, at_cons, at_append]
  constructor
  · rintro (⟨⟨first, last⟩, rfl⟩ | later)
    · by_cases early : x < stop
      · exact .inr ⟨rfl, first, early⟩
      · refine .inl (.inl ⟨⟨first, ?_⟩, rfl⟩)
        have bound : x < max stop S.stop := last
        omega
    · exact .inl (.inr (.inr later))
  · rintro ((⟨⟨first, last⟩, rfl⟩ | holds | later) | ⟨rfl, first, last⟩)
    · exact .inl ⟨⟨first, last.trans_le (le_max_right _ _)⟩, rfl⟩
    · rcases holds with ⟨M, mem, inside, rfl⟩
      rcases covered M mem with ⟨start, end', value⟩
      refine .inl ⟨⟨start.trans inside.1, ?_⟩, value.symm⟩
      exact (inside.2.trans_le end').trans_le (le_max_left _ _)
    · exact .inr later
    · exact .inl ⟨⟨first, last.trans_le (le_max_left _ _)⟩, rfl⟩

theorem joinNext_spec {rest : List Segment} (S : Segment) (canon : Canonical rest)
    (beyond : ∀ M ∈ rest, S.start <= M.start ∧ S.stop < M.stop)
    (values : ∀ M ∈ rest, M.start < S.stop -> M.value = S.value) :
    ∃ stop taken rest', rest = taken ++ rest' ∧ S.stop <= stop ∧
      joinNext S rest = ({ S with stop := stop }, rest') ∧
      (∀ M ∈ rest', Before { S with stop := stop } M) ∧
      ∀ x v, At ({ S with stop := stop } :: rest') x v ↔ At (S :: rest) x v := by
  cases rest with
  | nil => exact ⟨S.stop, [], [], rfl, le_refl _, rfl, nofun, fun _ _ => Iff.rfl⟩
  | cons M rest =>
    rcases Canonical.cons_iff.mp canon with ⟨nonemptyNext, tail, later⟩
    rcases beyond M mem_cons_self with ⟨startNext, stopNext⟩
    by_cases touches : M.start <= S.stop ∧ M.value = S.value
    · refine ⟨M.stop, [M], rest, rfl, le_of_lt stopNext, ?_, ?_, ?_⟩
      · rw [joinNext, if_pos touches]
      · intro N mem
        rcases later N mem with ⟨order, apart⟩
        exact ⟨order, fun same => touches.2 ▸ apart same⟩
      · intro x v
        rw [at_cons, at_cons, at_cons]
        constructor
        · rintro (⟨⟨first, last⟩, rfl⟩ | after)
          · by_cases early : x < S.stop
            · exact .inl ⟨⟨first, early⟩, rfl⟩
            · refine .inr (.inl ⟨⟨?_, last⟩, touches.2⟩)
              exact touches.1.trans (Nat.le_of_not_lt early)
          · exact .inr (.inr after)
        · rintro (⟨⟨first, last⟩, rfl⟩ | ⟨⟨first, last⟩, rfl⟩ | after)
          · exact .inl ⟨⟨first, last.trans stopNext⟩, rfl⟩
          · exact .inl ⟨⟨startNext.trans first, last⟩, touches.2.symm⟩
          · exact .inr after
    · refine ⟨S.stop, [], M :: rest, rfl, le_refl _, ?_, ?_, fun _ _ => Iff.rfl⟩
      · rw [joinNext, if_neg touches]
      · apply canon.before_all
        have apart : S.stop <= M.start := by
          apply Nat.le_of_not_lt
          intro inside
          exact touches ⟨le_of_lt inside, values M mem_cons_self inside⟩
        refine ⟨apart, fun same equal => ?_⟩
        exact touches ⟨le_of_eq same.symm, equal.symm⟩

theorem extendSegmentEndTo_spec {NewEnd : Nat} (canon : Canonical (before.reverse ++ S :: after))
    (values : ∀ M ∈ after, M.start < NewEnd -> M.value = S.value) :
    ∃ stop rest, S.stop <= stop ∧ NewEnd <= stop ∧
      extendSegmentEndTo ⟨before, S :: after⟩ NewEnd =
        some ⟨before, { S with stop := stop } :: rest⟩ ∧
      Canonical (before.reverse ++ { S with stop := stop } :: rest) ∧
      ∀ x v, At (before.reverse ++ { S with stop := stop } :: rest) x v ↔
        At (before.reverse ++ S :: after) x v ∨ v = S.value ∧ S.start <= x ∧ x < NewEnd := by
  rcases Canonical.append_iff.mp canon with ⟨_, tail, across⟩
  rcases Canonical.cons_iff.mp tail with ⟨nonempty, canonicalAfter, later⟩
  have startBefore : ∀ M ∈ after, S.start <= M.start := fun M mem =>
    (le_of_lt nonempty).trans (later M mem).1
  have inTime : ∀ M ∈ after, M.stop <= NewEnd -> M.value = S.value := fun M mem reached =>
    values M mem ((canonicalAfter.nonempty M mem).trans_le reached)
  rcases mergeTo_split tail inTime with ⟨merged, rest, last, rfl, ran, longest, all, beyond⟩
  have canonicalRest := (Canonical.append_iff.mp canonicalAfter).2.1
  let longer : Segment := { S with stop := max NewEnd S.stop }
  have beyondLonger : ∀ M ∈ rest, longer.start <= M.start ∧ longer.stop < M.stop := by
    intro M mem
    have inside := mem_append_right merged mem
    refine ⟨startBefore M inside, max_lt (beyond M mem) ?_⟩
    exact (later M inside).1.trans_lt (canonicalRest.nonempty M mem)
  have valuesLonger : ∀ M ∈ rest, M.start < longer.stop -> M.value = longer.value := by
    intro M mem reached
    have inside := mem_append_right merged mem
    apply values M inside
    have apart := (later M inside).1
    have bound : M.start < max NewEnd S.stop := reached
    omega
  rcases joinNext_spec longer canonicalRest beyondLonger valuesLonger with
    ⟨stop, taken, rest', rfl, grows, joined, right, same⟩
  have bound : max NewEnd S.stop <= stop := grows
  refine ⟨stop, rest', by omega, by omega, ?_, ?_, fun x v => ?_⟩
  · simp only [extendSegmentEndTo, ran, Option.map_some, longest]
    rw [show ({ S with stop := max NewEnd S.stop } : Segment) = longer from rfl, joined]
  · have split : before.reverse ++ S :: (merged ++ (taken ++ rest')) =
        before.reverse ++ ((S :: (merged ++ taken)) ++ rest') := by
      simp only [cons_append, append_assoc]
    rw [split] at canon
    have whole : S.start < stop := by omega
    exact Canonical.replace _ canon whole
      (fun M mem => across M mem S mem_cons_self) right
  · have covered : ∀ M ∈ merged, S.start <= M.start ∧ M.stop <= NewEnd ∧ M.value = S.value :=
      fun M mem => ⟨startBefore M (mem_append_left _ mem), all M mem⟩
    rw [at_append, at_append, same x v, at_longer covered, or_assoc]

/-! ## Adding -/

/-- What the calculations need of a container. -/
structure Faithful (impl : CalcLiveRangeUtil) : Prop where
  find : ∀ segments Pos, Canonical segments ->
    impl.find segments Pos = some (Iterator.first segments fun S => Pos < S.stop)
  findInsertPos : ∀ segments S, Canonical segments ->
    impl.findInsertPos segments S = Iterator.first segments fun other => S.start < other.start
  insertAtEnd : ∀ segments S, (∀ T ∈ segments, T.start < S.start) ->
    impl.insertAtEnd segments S = segments ++ [S]
  insert : ∀ I S, (∀ T ∈ I.before, T.start < S.start) -> (∀ T ∈ I.after, S.start < T.start) ->
    impl.insert I S = ⟨I.before, S :: I.after⟩

/-- The segment does not overlap another value. -/
def Fits (segments : List Segment) (S : Segment) : Prop :=
  S.start < S.stop ∧ ∀ x w, S.Holds x -> At segments x w -> w = S.value

/-- The list has the segment too. -/
def Adds (segments : List Segment) (S : Segment) (segments' : List Segment) : Prop :=
  Canonical segments' ∧ ∀ x v, At segments' x v ↔ At segments x v ∨ v = S.value ∧ S.Holds x

/-- The iterator is at a segment that has the other one. -/
def Iterator.Has (I : Iterator) (S : Segment) : Prop :=
  ∃ T after, I.after = T :: after ∧ T.start <= S.start ∧ S.stop <= T.stop ∧ T.value = S.value

theorem Fits.value {T : Segment} (fits : Fits segments S) (mem : T ∈ segments)
    (nonempty : T.start < T.stop) (first : T.start < S.stop) (last : S.start < T.stop) :
    T.value = S.value := by
  apply fits.2 (max T.start S.start)
  · exact ⟨le_max_right _ _, max_lt first fits.1⟩
  · exact ⟨T, mem, ⟨le_max_left _ _, max_lt nonempty last⟩, rfl⟩

theorem adds_insert (canon : Canonical (before.reverse ++ after)) (nonempty : S.start < S.stop)
    (left : ∀ T ∈ before, Before T S) (right : ∀ T ∈ after, Before S T) :
    Adds (before.reverse ++ after) S (before.reverse ++ S :: after) := by
  refine ⟨?_, fun x v => ?_⟩
  · exact Canonical.replace [] canon nonempty
      (fun T mem => left T (mem_reverse.mp mem)) right
  · rw [at_append, at_append, at_cons, or_left_comm, or_comm, and_comm, eq_comm]

theorem extendSegmentStartTo_gap {NewStart : Nat}
    (left : ∀ T ∈ before, T.start < NewStart ∧ (T.value = S.value -> T.stop < NewStart)) :
    extendSegmentStartTo ⟨before, S :: after⟩ NewStart =
      some ⟨before, { S with start := NewStart } :: after⟩ := by
  cases before with
  | nil => rfl
  | cons B before =>
    rcases left B mem_cons_self with ⟨earlier, apart⟩
    have found : mergeFrom S.value NewStart S (B :: before) = some (some (B, before, S)) := by
      rw [mergeFrom, if_pos rfl, if_neg (Nat.not_le_of_lt earlier)]
    have separate : ¬(NewStart <= B.stop ∧ B.value = S.value) := fun touches =>
      Nat.not_le_of_lt (apart touches.2) touches.1
    simp only [extendSegmentStartTo, found, Option.map_some, if_neg separate]

theorem before_gap {T : Segment} (order : Before T S) (nonempty : T.start < T.stop) :
    T.start < S.start ∧ (T.value = S.value -> T.stop < S.start) := by
  rcases order with ⟨apart, differ⟩
  refine ⟨nonempty.trans_le apart, fun same => ?_⟩
  exact lt_of_le_of_ne apart fun touches => differ touches same

theorem addBefore_grows {next : Segment} (canon : Canonical (before.reverse ++ next :: after))
    (fits : Fits (before.reverse ++ next :: after) S) (left : ∀ T ∈ before, Before T S)
    (right : S.start < next.start) (value : S.value = next.value) (reach : next.start <= S.stop) :
    ∃ I', ((extendSegmentStartTo ⟨before, next :: after⟩ S.start).bind fun I =>
        match I.after with
        | [] => none
        | grown :: _ => if grown.stop < S.stop then extendSegmentEndTo I S.stop else some I) =
      some I' ∧ Adds (before.reverse ++ next :: after) S I'.segments ∧ I'.Has S := by
  rcases Canonical.append_iff.mp canon with ⟨canonicalBefore, tail, across⟩
  rcases Canonical.cons_iff.mp tail with ⟨nonempty, canonicalAfter, later⟩
  have moved : extendSegmentStartTo ⟨before, next :: after⟩ S.start =
      some ⟨before, { next with start := S.start } :: after⟩ := by
    apply extendSegmentStartTo_gap
    intro T mem
    rw [<- value]
    exact before_gap (left T mem) (canonicalBefore.nonempty T (mem_reverse.mpr mem))
  have grownNonempty : S.start < next.stop := right.trans nonempty
  have grown : Canonical (before.reverse ++ { next with start := S.start } :: after) := by
    refine Canonical.replace [next] canon grownNonempty (fun T mem => ?_) later
    rcases left T (mem_reverse.mp mem) with ⟨order, differ⟩
    exact ⟨order, fun touches => value ▸ differ touches⟩
  have grownAt : ∀ x v, At (before.reverse ++ { next with start := S.start } :: after) x v ↔
      At (before.reverse ++ next :: after) x v ∨ v = S.value ∧ S.start <= x ∧ x < next.stop := by
    intro x v
    rw [at_append, at_append, at_cons, at_cons, or_assoc, or_assoc]
    refine or_congr_right ?_
    constructor
    · rintro (⟨inside, rfl⟩ | holds)
      · exact .inr (.inr ⟨value.symm, inside⟩)
      · exact .inr (.inl holds)
    · rintro (⟨⟨first, last⟩, rfl⟩ | holds | ⟨rfl, inside⟩)
      · exact .inl ⟨⟨(le_of_lt right).trans first, last⟩, rfl⟩
      · exact .inr holds
      · exact .inl ⟨inside, value.symm⟩
  rw [moved, Option.bind_some]
  by_cases short : next.stop < S.stop
  · have values : ∀ T ∈ after, T.start < S.stop -> T.value = next.value := by
      intro T mem reached
      rw [<- value]
      have order := (later T mem).1
      have full := canonicalAfter.nonempty T mem
      exact fits.value (mem_append_right _ (mem_cons_of_mem _ mem)) full reached
        (grownNonempty.trans_le (order.trans (le_of_lt full)))
    rcases extendSegmentEndTo_spec grown values with ⟨stop, rest, _, reached, ran, after', same⟩
    refine ⟨_, (if_pos short).trans ran, ⟨after', fun x v => ?_⟩, _, rest, rfl, le_refl _,
      reached, value.symm⟩
    rw [Iterator.segments_mk, same x v, grownAt x v, or_assoc, <- value]
    refine or_congr_right ?_
    constructor
    · rintro (⟨equal, first, last⟩ | inside)
      · exact ⟨equal, first, last.trans short⟩
      · exact inside
    · exact .inr
  · have long : S.stop <= next.stop := Nat.le_of_not_lt short
    refine ⟨_, if_neg short, ⟨grown, fun x v => ?_⟩, _, after, rfl, le_refl _, long, value.symm⟩
    rw [Iterator.segments_mk, grownAt x v]
    constructor
    · rintro (holds | ⟨equal, first, last⟩)
      · exact .inl holds
      · by_cases inside : x < S.stop
        · exact .inr ⟨equal, first, inside⟩
        · refine .inl ⟨next, mem_append_right _ mem_cons_self, ⟨?_, last⟩, ?_⟩
          · exact reach.trans (Nat.le_of_not_lt inside)
          · rw [equal, value]
    · rintro (holds | ⟨equal, first, last⟩)
      · exact .inl holds
      · exact .inr ⟨equal, first, last.trans_le long⟩

variable {impl : CalcLiveRangeUtil}

theorem addBefore_spec (faithful : Faithful impl) (canon : Canonical I.segments) (fits : Fits
    I.segments S) (left : ∀ T ∈ I.before, Before T S) (right : ∀ T ∈ I.after, S.start < T.start) :
    ∃ I', addBefore impl I S = some I' ∧ Adds I.segments S I'.segments ∧ I'.Has S := by
  rcases I with ⟨before, after⟩
  rcases Canonical.append_iff.mp canon with ⟨canonicalBefore, canonicalAfter, _⟩
  have inserts : impl.insert ⟨before, after⟩ S = ⟨before, S :: after⟩ := by
    apply faithful.insert _ _ _ right
    intro T mem
    exact (before_gap (left T mem) (canonicalBefore.nonempty T (mem_reverse.mpr mem))).1
  have has : Iterator.Has ⟨before, S :: after⟩ S := ⟨S, after, rfl, le_refl _, le_refl _, rfl⟩
  cases after with
  | nil =>
    exact ⟨_, rfl, inserts ▸ adds_insert canon fits.1 left nofun, inserts ▸ has⟩
  | cons next after =>
    have insertsBefore (first : Before S next) :
        Adds (before.reverse ++ next :: after) S (before.reverse ++ S :: next :: after) :=
      adds_insert canon fits.1 left (canonicalAfter.before_all first)
    have nonempty := canonicalAfter.nonempty next mem_cons_self
    have startNext : S.start < next.start := right next mem_cons_self
    simp only [addBefore, inserts]
    by_cases value : S.value = next.value
    · rw [if_pos value]
      by_cases reach : next.start <= S.stop
      · rw [if_pos reach]
        exact addBefore_grows canon fits left startNext value reach
      · rw [if_neg reach]
        have beyond : S.stop < next.start := Nat.lt_of_not_le reach
        have first : Before S next :=
          ⟨le_of_lt beyond, fun touches => absurd touches (ne_of_lt beyond)⟩
        exact ⟨_, rfl, insertsBefore first, has⟩
    · rw [if_neg value]
      have beyond : S.stop <= next.start := by
        apply Nat.le_of_not_lt
        intro inside
        apply value
        exact (fits.value (mem_append_right _ mem_cons_self) nonempty inside
          (startNext.trans nonempty)).symm
      rw [if_pos beyond]
      exact ⟨_, rfl, insertsBefore ⟨beyond, fun _ => value⟩, has⟩

section

variable (canon : Canonical segments)
include canon

/-- The position of a property that later segments keep. -/
theorem first_split (p : Segment -> Bool) (keeps : ∀ S T, S.start <
    S.stop -> T.start < T.stop -> Before S T -> p S = true -> p T = true) :
    ∃ before after, segments = before.reverse ++ after ∧
      Iterator.first segments p = ⟨before, after⟩ ∧ (∀ T ∈ before, p T = false) ∧
      ∀ T ∈ after, p T = true := by
  have whole : segments =
      (Iterator.first segments p).before.reverse ++ (Iterator.first segments p).after :=
    (Iterator.first_segments segments _).symm
  refine ⟨_, _, whole, rfl, Iterator.first_before, fun T mem => ?_⟩
  cases atFirst : (Iterator.first segments p).after with
  | nil =>
    rw [atFirst] at mem
    cases mem
  | cons first later =>
    have late := Iterator.first_after atFirst
    rw [atFirst] at mem
    rcases mem_cons.mp mem with rfl | behind
    · exact late
    · rw [whole, atFirst] at canon
      rcases Canonical.cons_iff.mp (Canonical.append_iff.mp canon).2.1 with
        ⟨nonempty, tail, apart⟩
      exact keeps first T nonempty (tail.nonempty T behind) (apart T behind) late

theorem findInsertPos_split (start : Nat) :
    ∃ before after, segments = before.reverse ++ after ∧
      (Iterator.first segments fun other => start < other.start) = ⟨before, after⟩ ∧
      (∀ T ∈ before, T.start <= start) ∧ ∀ T ∈ after, start < T.start := by
  have keeps : ∀ S T : Segment, S.start < S.stop -> T.start < T.stop -> Before S T ->
      decide (start < S.start) = true -> decide (start < T.start) = true :=
    fun S T nonempty _ order late => decide_eq_true
      ((of_decide_eq_true late).trans (nonempty.trans_le order.1))
  rcases first_split canon _ keeps with ⟨before, after, whole, found, left, right⟩
  exact ⟨before, after, whole, found, fun T mem => Nat.le_of_not_lt
    (of_decide_eq_false (left T mem)), fun T mem => of_decide_eq_true (right T mem)⟩

/-- The position of the first segment that ends after a slot. -/
theorem find_split (Pos : Nat) :
    ∃ before after, segments = before.reverse ++ after ∧
      (Iterator.first segments fun S => Pos < S.stop) = ⟨before, after⟩ ∧
      (∀ T ∈ before, T.stop <= Pos) ∧ ∀ T ∈ after, Pos < T.stop := by
  have keeps : ∀ S T : Segment, S.start < S.stop -> T.start < T.stop -> Before S T ->
      decide (Pos < S.stop) = true -> decide (Pos < T.stop) = true :=
    fun S T _ nonempty order late => decide_eq_true
      ((of_decide_eq_true late).trans (order.1.trans_lt nonempty))
  rcases first_split canon _ keeps with ⟨before, after, whole, place, left, right⟩
  exact ⟨before, after, whole, place, fun T mem => Nat.le_of_not_lt
    (of_decide_eq_false (left T mem)), fun T mem => of_decide_eq_true (right T mem)⟩

/-- A new segment extends the one before its position, or is apart from those there. -/
theorem addSegment_cases (fits : Fits segments S) :
    (∃ B before after, segments = before.reverse ++ B :: after ∧ S.value = B.value ∧
        B.start <= S.start ∧ S.start <= B.stop ∧ ∀ impl, Faithful impl ->
          addSegment impl segments S = extendSegmentEndTo ⟨before, B :: after⟩ S.stop) ∨
      ∃ before after, segments = before.reverse ++ after ∧ (∀ T ∈ before, Before T S) ∧
        (∀ T ∈ after, S.start < T.start) ∧ ∀ impl, Faithful impl ->
          addSegment impl segments S = addBefore impl ⟨before, after⟩ S := by
  rcases findInsertPos_split canon S.start with ⟨before, after, whole, found, left, right⟩
  have place : ∀ impl, Faithful impl -> impl.findInsertPos segments S = ⟨before, after⟩ :=
    fun impl faithful => (faithful.findInsertPos segments S canon).trans found
  cases before with
  | nil =>
    refine .inr ⟨[], after, whole, nofun, right, fun impl faithful => ?_⟩
    simp only [addSegment, place impl faithful]
  | cons B before =>
    rw [reverse_cons] at whole
    have canonicalBefore : Canonical (before.reverse ++ [B]) := by
      rw [whole] at canon
      exact (Canonical.append_iff.mp canon).1
    have inside : B ∈ before.reverse ++ [B] := mem_append_right _ mem_cons_self
    have nonempty : B.start < B.stop := canonicalBefore.nonempty B inside
    have start : B.start <= S.start := left B mem_cons_self
    have allBefore (last : Before B S) : ∀ T ∈ B :: before, Before T S := by
      intro T mem
      apply canonicalBefore.all_before last
      rcases mem_cons.mp mem with rfl | earlier
      · exact inside
      · exact mem_append_left _ (mem_reverse.mpr earlier)
    by_cases value : S.value = B.value
    · by_cases touches : B.start <= S.start ∧ S.start <= B.stop
      · refine .inl ⟨B, before, after, ?_, value, touches.1, touches.2, fun impl faithful => ?_⟩
        · rw [whole, append_assoc]
          rfl
        · simp only [addSegment, place impl faithful, if_pos value, if_pos touches]
      · have gap : B.stop < S.start := Nat.lt_of_not_le fun reach => touches ⟨start, reach⟩
        refine .inr ⟨B :: before, after, ?_, allBefore ⟨le_of_lt gap, fun same =>
          absurd same (ne_of_lt gap)⟩, right, fun impl faithful => ?_⟩
        · rw [whole, reverse_cons]
        · simp only [addSegment, place impl faithful, if_pos value, if_neg touches]
    · have apart : B.stop <= S.start := by
        apply Nat.le_of_not_lt
        intro overlap
        apply value
        have mem : B ∈ segments := whole ▸ mem_append_left _ inside
        exact (fits.value mem nonempty (start.trans_lt fits.1) overlap).symm
      refine .inr ⟨B :: before, after, ?_, allBefore ⟨apart, fun _ same =>
        value same.symm⟩, right, fun impl faithful => ?_⟩
      · rw [whole, reverse_cons]
      · simp only [addSegment, place impl faithful, if_neg value, if_pos apart]

end

/-- The new list has the segment, and the iterator is there. -/
theorem addSegment_spec (faithful : Faithful impl) (canon : Canonical segments)
    (fits : Fits segments S) :
    ∃ I, addSegment impl segments S = some I ∧ Adds segments S I.segments ∧ I.Has S := by
  rcases addSegment_cases canon fits with
    ⟨B, before, after, rfl, value, start, stop, ran⟩ | ⟨before, after, rfl, left, right, ran⟩
  · rcases Canonical.append_iff.mp canon with ⟨_, tail, _⟩
    rcases Canonical.cons_iff.mp tail with ⟨nonempty, canonicalAfter, later⟩
    have values : ∀ T ∈ after, T.start < S.stop -> T.value = B.value := by
      intro T mem reached
      rw [<- value]
      have order := (later T mem).1
      have full := canonicalAfter.nonempty T mem
      exact fits.value (mem_append_right _ (mem_cons_of_mem _ mem)) full reached
        (stop.trans_lt (order.trans_lt full))
    rcases extendSegmentEndTo_spec canon values with
      ⟨longer, rest, _, reached, extended, canon', same⟩
    refine ⟨_, (ran impl faithful).trans extended, ⟨canon', fun x v => ?_⟩, _, rest, rfl,
      start, reached, value.symm⟩
    rw [Iterator.segments_mk, same x v, <- value]
    constructor
    · rintro (holds | ⟨equal, first, last⟩)
      · exact .inl holds
      · by_cases early : x < S.start
        · refine .inl ⟨B, mem_append_right _ mem_cons_self, ⟨first, ?_⟩, ?_⟩
          · exact early.trans_le stop
          · rw [equal, value]
        · exact .inr ⟨equal, Nat.le_of_not_lt early, last⟩
    · rintro (holds | ⟨equal, first, last⟩)
      · exact .inl holds
      · exact .inr ⟨equal, start.trans first, last⟩
  · rw [ran impl faithful]
    exact addBefore_spec faithful canon fits left right

/-- The containers give the same segments and the same position. -/
theorem addSegment_eq {impl' : CalcLiveRangeUtil} (faithful : Faithful impl)
    (faithful' : Faithful impl') (canon : Canonical segments) (fits : Fits segments S) :
    addSegment impl segments S = addSegment impl' segments S := by
  rcases addSegment_cases canon fits with
    ⟨B, before, after, _, _, _, _, ran⟩ | ⟨before, after, rfl, left, right, ran⟩
  · exact (ran impl faithful).trans (ran impl' faithful').symm
  · have startBefore : ∀ T ∈ before, T.start < S.start := by
      intro T mem
      have inside : T ∈ before.reverse ++ after := mem_append_left _ (mem_reverse.mpr mem)
      exact (before_gap (left T mem) (canon.nonempty T inside)).1
    have inserts : impl.insert ⟨before, after⟩ S = impl'.insert ⟨before, after⟩ S :=
      (faithful.insert _ _ startBefore right).trans (faithful'.insert _ _ startBefore right).symm
    rw [ran impl faithful, ran impl' faithful']
    simp only [addBefore, inserts]

/-! ## Extending in a block -/

/-- The value at the last live point before the use, which stays live until the start of the
block. -/
def LiveIn (map : Nat -> VNInfoPtr -> Prop) (StartIdx Use p : Nat) (v : VNInfoPtr) : Prop :=
  map p v ∧ p < Use ∧ (∀ q w, p < q -> q < Use -> ¬map q w) ∧ ∀ q, p <= q -> q <= StartIdx ->
      map q v

/-- The value that is live in the block is extended up to the use. -/
def ExtendsInBlock (StartIdx Use : Nat) (map : Nat -> VNInfoPtr -> Prop) (result : VNInfoPtr)
    (map' : Nat -> VNInfoPtr -> Prop) : Prop :=
  (∃ p, LiveIn map StartIdx Use p result ∧
      ∀ x w, map' x w ↔ map x w ∨ w = result ∧ p <= x ∧ x < Use) ∨
    (∀ p v, ¬LiveIn map StartIdx Use p v) ∧ result = nullptr ∧ map' = map

theorem liveIn_last {B : Segment} {StartIdx Use p : Nat} (canon : Canonical
    (before.reverse ++ B :: after)) (start : B.start < Use) (right : ∀ T ∈ after, Use <= T.start)
    (live : LiveIn (At (before.reverse ++ B :: after)) StartIdx Use p v) : StartIdx < B.stop := by
  rcases Canonical.append_iff.mp canon with ⟨_, tail, across⟩
  rcases Canonical.cons_iff.mp tail with ⟨nonempty, _, later⟩
  have mem : B ∈ before.reverse ++ B :: after := mem_append_right _ mem_cons_self
  rcases live with ⟨holds, early, last, stays⟩
  -- The last live point is in the last segment.
  have inside : B.start <= p ∧ p < B.stop := by
    have reached : ¬p < min B.stop Use - 1 := fun less =>
      last _ _ less (by omega) ⟨B, mem, ⟨by omega, by omega⟩, rfl⟩
    rcases holds with ⟨T, within, ⟨first, stop⟩, _⟩
    rcases mem_append.mp within with left | rest
    · have order := (across T left B mem_cons_self).1
      omega
    · rcases mem_cons.mp rest with rfl | behind
      · exact ⟨first, stop⟩
      · have beyond := right T behind
        omega
  have value : v = B.value := canon.unique_value holds ⟨B, mem, inside, rfl⟩
  by_contra far
  rcases stays B.stop (le_of_lt inside.2) (Nat.le_of_not_lt far) with
    ⟨T, within, ⟨first, stop⟩, same⟩
  rcases mem_append.mp within with left | rest
  · have order := (across T left B mem_cons_self).1
    omega
  · rcases mem_cons.mp rest with rfl | behind
    · exact lt_irrefl _ stop
    · have order := later T behind
      exact order.2 (le_antisymm order.1 first) (value ▸ same).symm

theorem extendInBlock_spec (faithful : Faithful impl) (canon : Canonical segments)
    (StartIdx : Nat) {Use : Nat} (pos : 0 < Use) :
    ∃ result segments', extendInBlock impl segments StartIdx Use = some (result, segments') ∧
      Canonical segments' ∧
      ExtendsInBlock StartIdx Use (At segments) result (At segments') := by
  by_cases empty : segments = []
  · subst empty
    refine ⟨nullptr, [], if_pos rfl, canon, .inr ⟨fun p v live => ?_, rfl, rfl⟩⟩
    exact not_at_nil live.1
  rcases findInsertPos_split canon (Use - 1) with ⟨before, after, whole, found, left, right⟩
  have prev : SlotIndex.getPrevSlot Use = some (Use - 1) := if_neg (Nat.ne_of_gt pos)
  have place : impl.findInsertPos segments ⟨Use - 1, Use, nullptr⟩ = ⟨before, after⟩ :=
    (faithful.findInsertPos segments _ canon).trans found
  have rightUse : ∀ T ∈ after, Use <= T.start := fun T mem => by
    have beyond := right T mem
    omega
  simp only [extendInBlock, if_neg empty, prev, Option.bind_some, place]
  cases before with
  | nil =>
    refine ⟨nullptr, segments, rfl, canon, .inr ⟨fun p v live => ?_, rfl, rfl⟩⟩
    rcases live with ⟨⟨T, mem, inside, _⟩, early, _⟩
    rw [whole] at mem
    have beyond := rightUse T mem
    have first := inside.1
    omega
  | cons B before =>
    rw [reverse_cons, append_assoc, singleton_append] at whole
    subst whole
    have start : B.start < Use := by
      have early := left B mem_cons_self
      omega
    have mem : B ∈ before.reverse ++ B :: after := mem_append_right _ mem_cons_self
    have nonempty := canon.nonempty B mem
    rcases Canonical.append_iff.mp canon with ⟨_, tail, across⟩
    have later := (Canonical.cons_iff.mp tail).2.2
    by_cases dead : B.stop <= StartIdx
    · refine ⟨nullptr, _, if_pos dead, canon, .inr ⟨fun p v live => ?_, rfl, rfl⟩⟩
      exact Nat.not_lt_of_le dead (liveIn_last canon start rightUse live)
    · have live : LiveIn (At (before.reverse ++ B :: after)) StartIdx Use (min B.stop Use - 1)
          B.value := by
        refine ⟨⟨B, mem, ⟨by omega, by omega⟩, rfl⟩, by omega, ?_, fun q first last => ?_⟩
        · rintro q w less early ⟨T, within, ⟨first, stop⟩, _⟩
          rcases mem_append.mp within with earlier | rest
          · have order := (across T earlier B mem_cons_self).1
            omega
          · rcases mem_cons.mp rest with rfl | behind
            · omega
            · have beyond := rightUse T behind
              omega
        · exact ⟨B, mem, ⟨by omega, by omega⟩, rfl⟩
      by_cases short : B.stop < Use
      · have values : ∀ T ∈ after, T.start < Use -> T.value = B.value := fun T behind reached =>
          absurd (rightUse T behind) (Nat.not_le_of_lt reached)
        rcases extendSegmentEndTo_spec canon values with
          ⟨stop, rest, _, _, extended, canon', same⟩
        refine ⟨B.value, _, ?_, canon', .inl ⟨_, live, fun x w => ?_⟩⟩
        · refine (if_neg dead).trans ((if_pos short).trans ?_)
          rw [extended]
          rfl
        · rw [same x w]
          constructor
          · rintro (holds | ⟨rfl, first, last⟩)
            · exact .inl holds
            · by_cases inside : x < B.stop
              · exact .inl ⟨B, mem, ⟨first, inside⟩, rfl⟩
              · exact .inr ⟨rfl, by omega, last⟩
          · rintro (holds | ⟨rfl, first, last⟩)
            · exact .inl holds
            · exact .inr ⟨rfl, by omega, last⟩
      · refine ⟨B.value, _, (if_neg dead).trans (if_neg short), canon,
          .inl ⟨_, live, fun x w => ?_⟩⟩
        refine (or_iff_left_of_imp ?_).symm
        rintro ⟨rfl, first, last⟩
        exact ⟨B, mem, ⟨by omega, by omega⟩, rfl⟩

theorem extendInBlock_eq {impl' : CalcLiveRangeUtil} (faithful : Faithful impl)
    (faithful' : Faithful impl') (canon : Canonical segments) (StartIdx Use : Nat) :
    extendInBlock impl segments StartIdx Use = extendInBlock impl' segments StartIdx Use := by
  have place : ∀ S, impl.findInsertPos segments S = impl'.findInsertPos segments S :=
    fun S => (faithful.findInsertPos segments S canon).trans
      (faithful'.findInsertPos segments S canon).symm
  simp only [extendInBlock, place]

end LiveInterval
end LlvmProject
