import LlvmProject.CodeGen.LiveInterval
import LlvmProject.Library.PartitionPoint

namespace LlvmProject

open List Option IntervalList

namespace LiveInterval

/-!
# Interference queries

Two live ranges are walked together to find a point at which both are live, or one that is live
in only one of them.  The segments from an iterator on are a list.
-/

open IntervalList (Before Canonical)
open PartitionPoint

/-! ## The code -/

/-- The place behind the segments from `first` on that start up to the slot. -/
def upper_bound (segments : List Segment) (first V : Nat) : Nat :=
  first + partitionPoint (fun S => decide (S.start <= V)) (segments.drop first)

/-- The place before, unless it is the beginning. -/
def stepBack (I : Nat) : Nat := if I ≠ 0 then I - 1 else I

/-- The two ranges are exchanged if the second one starts first. -/
def overlapsLoop : List Segment -> List Segment -> Bool
  | [], _ => false
  | _ :: _, [] => false
  | i :: I, j :: J =>
    if i.start > j.start then if j.stop > i.start then true else overlapsLoop J (i :: I)
    else if i.stop > j.start then true else overlapsLoop I (j :: J)
termination_by I J => I.length + J.length

/-- The segments that the position is not behind any more. -/
def advanceTo (segments I : List Segment) (Pos : Nat) : Option (List Segment) :=
  if I = [] then none
  else if segments.getLast?.any (·.stop <= Pos) then some []
  else some (I.dropWhile fun S => decide (S.stop <= Pos))

/-- Adjacent segments up to a position. -/
def followTo (stop : Nat) (Last : Segment) : List Segment -> Option (List Segment)
  | [] => if Last.stop < stop then none else some [Last]
  | I :: rest =>
    if Last.stop < stop then if Last.stop ≠ I.start then none else followTo stop I rest
    else some (Last :: I :: rest)

def coversLoop (segments : List Segment) : List Segment -> List Segment -> Option Bool
  | _, [] => some true
  | I, O :: others => do
    match <- advanceTo segments I O.start with
    | [] => some false
    | S :: rest =>
      if S.start > O.start then some false
      else
        match followTo O.stop S rest with
        | none => some false
        | some I => coversLoop segments I others

namespace LiveRange

variable (LR : LiveRange)

/-- What `verify` asserts. -/
def verify : Prop :=
  (∀ S ∈ LR.segments, S.start < S.stop ∧ S.value ≠ nullptr ∧
    LR.valnos[(LR.info S.value).id]? = some S.value) ∧ LR.segments.IsChain Before

/-- Whether the ranges overlap, from a segment of the other one on. -/
def overlapsFrom (other : LiveRange) (StartPos : Nat) : Option Bool :=
  match LR.segments, other.segments.drop StartPos with
  | i :: I, j :: J =>
    if j.start <= i.start ∨ StartPos = 0 then
      if i.start < j.start then
        some (overlapsLoop
          (LR.segments.drop (stepBack (upper_bound LR.segments 0 j.start))) (j :: J))
      else if j.start < i.start then
        if J.head?.any (·.start <= i.start) then
          some (overlapsLoop (i :: I)
            (other.segments.drop (stepBack (upper_bound other.segments StartPos i.start))))
        else some (overlapsLoop (i :: I) (j :: J))
      else some true
    else none
  | _, _ => none

def overlaps (Start End : Nat) : Option Bool :=
  if Start < End then
    let I := partitionPoint (fun S => decide (S.start < End)) LR.segments
    some (decide (I ≠ 0) && (LR.segments[I - 1]?).any (·.stop > Start))
  else none

def covers (other : LiveRange) : Option Bool :=
  if LR.segments = [] then some other.segments.isEmpty
  else coversLoop LR.segments LR.segments other.segments

end LiveRange

/-! ## Common points -/

/-- The point is in a segment. -/
def Live (segments : List Segment) (x : Nat) : Prop := ∃ S ∈ segments, S.Holds x

/-- Some point is in a segment of each list. -/
def Intersect (I J : List Segment) : Prop := ∃ S ∈ I, ∃ T ∈ J, ∃ x, S.Holds x ∧ T.Holds x

variable {segments I J : List Segment} {S T : Segment} {V : Nat}

theorem Intersect.symm (both : Intersect I J) : Intersect J I := by
  rcases both with ⟨S, first, T, second, x, holds, holds'⟩
  exact ⟨T, second, S, first, x, holds', holds⟩

theorem intersect_comm : Intersect I J ↔ Intersect J I := ⟨Intersect.symm, Intersect.symm⟩

/-- Segments that stop before the others start can be left out. -/
theorem intersect_append {early : List Segment} (stops : ∀ S ∈ early, S.stop <= V)
    (starts : ∀ T ∈ J, V <= T.start) : Intersect (early ++ I) J ↔ Intersect I J := by
  constructor
  · rintro ⟨S, mem, T, other, x, holds, holds'⟩
    rcases mem_append.mp mem with first | later
    · have stop := stops S first
      have start := starts T other
      have after := holds'.1
      have before := holds.2
      omega
    · exact ⟨S, later, T, other, x, holds, holds'⟩
  · rintro ⟨S, later, others⟩
    exact ⟨S, mem_append_right _ later, others⟩

theorem starts_after (canonical : Canonical (S :: I)) : ∀ T ∈ S :: I, S.start <= T.start := by
  intro T mem
  rcases mem_cons.mp mem with rfl | later
  · exact le_refl _
  · have order := (pairwise_cons.mp canonical.apart).1 T later
    have grows := canonical.nonempty S mem_cons_self
    exact le_trans (le_of_lt grows) order.1

theorem overlapsLoop_iff (first : Canonical I) (second : Canonical J) :
    overlapsLoop I J = true ↔ Intersect I J := by
  induction I, J using overlapsLoop.induct with
  | case1 J =>
    rw [overlapsLoop]
    exact iff_of_false Bool.false_ne_true (by rintro ⟨S, mem, -⟩; cases mem)
  | case2 i I =>
    rw [overlapsLoop]
    exact iff_of_false Bool.false_ne_true (by rintro ⟨S, -, T, mem, -⟩; cases mem)
  | case3 i I j J later meets =>
    rw [overlapsLoop, if_pos later, if_pos meets]
    exact iff_of_true rfl ⟨i, mem_cons_self, j, mem_cons_self, i.start,
      ⟨le_refl _, first.nonempty i mem_cons_self⟩, le_of_lt later, meets⟩
  | case4 i I j J later apart ih =>
    rw [overlapsLoop, if_pos later, if_neg apart,
      ih (second.sublist (sublist_cons_self j J)) first, intersect_comm (I := i :: I)]
    have skipped : ∀ T ∈ [j], T.stop <= i.start := by simpa using apart
    exact (intersect_append skipped (starts_after first)).symm
  | case5 i I j J order meets =>
    rw [overlapsLoop, if_neg order, if_pos meets]
    exact iff_of_true rfl ⟨i, mem_cons_self, j, mem_cons_self, j.start,
      ⟨Nat.le_of_not_lt order, meets⟩, le_refl _, second.nonempty j mem_cons_self⟩
  | case6 i I j J order apart ih =>
    rw [overlapsLoop, if_neg order, if_neg apart, ih (first.sublist (sublist_cons_self i I)) second]
    have skipped : ∀ S ∈ [i], S.stop <= j.start := by simpa using apart
    exact (intersect_append skipped (starts_after second)).symm

/-! ## Starting positions -/

section

variable (canonical : Canonical segments)
include canonical

theorem partitioned {p : Nat -> Bool} (downward : ∀ x y, x <= y -> p y = true -> p x = true) :
    Partitioned (fun S : Segment => p S.start) segments := by
  rw [Partitioned]
  exact canonical.apart.imp_of_mem fun mem _ order => downward _ _
    (le_trans (le_of_lt (canonical.nonempty _ mem)) order.1)

/-- The segments before the last one that starts up to a slot end there. -/
theorem stops_before (V : Nat) :
    ∀ S ∈ segments.take (partitionPoint (fun S => decide (S.start <= V)) segments - 1),
      S.stop <= V := by
  intro S mem
  rcases getElem?_of_mem mem with ⟨n, entry⟩
  have early : n < partitionPoint (fun S => decide (S.start <= V)) segments - 1 := by
    by_contra late
    rw [getElem?_take_eq_none (by omega)] at entry
    cases entry
  rw [getElem?_take_of_lt early] at entry
  have inside := partitionPoint_le (fun S => decide (S.start <= V)) segments
  have next := List.getElem?_eq_getElem (show n + 1 < segments.length by omega)
  have start := (lt_partitionPoint_iff (partitioned canonical
    (p := fun x => decide (x <= V)) (by
      intro x y le
      simp only [decide_eq_true_eq]
      omega)) next).mp (by omega)
  rcases List.getElem?_eq_some_iff.mp entry with ⟨short, rfl⟩
  have order := pairwise_iff_getElem.mp canonical.apart n (n + 1) short (by omega)
    (Nat.lt_succ_self n)
  rw [decide_eq_true_eq] at start
  exact le_trans order.1 start

/-- The search leaves out nothing that can meet segments from the slot on. -/
theorem intersect_upper_bound {first : Nat}
    (found : first = 0 ∨ 0 < partitionPoint (fun S => decide (S.start <= V)) (segments.drop first))
    (starts : ∀ T ∈ J, V <= T.start) :
    Intersect (segments.drop (stepBack (upper_bound segments first V))) J ↔
      Intersect (segments.drop first) J := by
  have place : segments.drop (stepBack (upper_bound segments first V)) = (segments.drop first).drop
      (partitionPoint (fun S => decide (S.start <= V)) (segments.drop first) - 1) := by
    rw [drop_drop, stepBack, upper_bound]
    congr 1
    split <;> omega
  rw [place]
  conv_rhs => rw [<- take_append_drop
    (partitionPoint (fun S => decide (S.start <= V)) (segments.drop first) - 1)
    (segments.drop first)]
  exact (intersect_append (stops_before (canonical.sublist (drop_sublist _ _)) V)
    starts).symm

end

/-! ## Covering -/

/-- The query gives an answer, which is whether the statement is true. -/
def Answers (query : Option Bool) (statement : Prop) : Prop :=
  ∃ answer, query = some answer ∧ (answer = true ↔ statement)

theorem live_cons {x : Nat} : Live (S :: I) x ↔ S.Holds x ∨ Live I x := by
  simp only [Live, mem_cons, exists_eq_or_imp]

theorem not_live_cons {x : Nat} (canonical : Canonical (S :: I)) (before : x < S.start) :
    ¬Live (S :: I) x := by
  rintro ⟨T, mem, after, -⟩
  have order := starts_after canonical T mem
  omega

theorem live_append {early : List Segment} {x : Nat} (stops : ∀ S ∈ early, S.stop <= x) :
    Live (early ++ I) x ↔ Live I x := by
  constructor
  · rintro ⟨S, mem, holds⟩
    rcases mem_append.mp mem with first | later
    · exact absurd holds.2 (Nat.not_lt.mpr (stops S first))
    · exact ⟨S, later, holds⟩
  · exact fun ⟨S, later, holds⟩ => ⟨S, mem_append_right _ later, holds⟩

theorem stop_le_last (canonical : Canonical segments) {last : Segment}
    (ends : segments.getLast? = some last) : ∀ S ∈ segments, S.stop <= last.stop := by
  rcases getLast?_eq_some_iff.mp ends with ⟨front, rfl⟩
  intro S mem
  rcases mem_append.mp mem with first | same
  · have order := (pairwise_append.mp canonical.apart).2.2 S first last mem_cons_self
    have grows := canonical.nonempty last (mem_append_right _ mem_cons_self)
    exact le_trans order.1 (le_of_lt grows)
  · rw [mem_singleton.mp same]

theorem advanceTo_eq (canonical : Canonical segments) {done : List Segment}
    (split : segments = done ++ I) (more : I ≠ []) (Pos : Nat) :
    advanceTo segments I Pos = some (I.dropWhile fun S => decide (S.stop <= Pos)) := by
  rw [advanceTo, if_neg more]
  split_ifs with behind
  · rcases (any_eq_true _ _).mp behind with ⟨last, ends, le⟩
    rw [decide_eq_true_eq] at le
    rw [dropWhile_eq_nil_iff.mpr fun S mem => decide_eq_true
      (le_trans (stop_le_last canonical ends S (split ▸ mem_append_right _ mem)) le)]
  · rfl

/-- Adjacent segments are live up to the position, or there is a gap before it. -/
theorem followTo_spec (stop : Nat) {rest : List Segment} (canonical : Canonical (S :: rest)) :
    (∀ I, followTo stop S rest = some I ->
      (∀ x, S.start <= x -> x < stop -> Live (S :: rest) x) ∧
        ∃ done, S :: rest = done ++ I ∧ I ≠ [] ∧ ∀ D ∈ done, D.stop < stop) ∧
    (followTo stop S rest = none -> ∃ x, S.stop <= x ∧ x < stop ∧ ¬Live (S :: rest) x) := by
  have whole {more : List Segment} (past : ¬S.stop < stop) :
      (∀ x, S.start <= x -> x < stop -> Live (S :: more) x) ∧
        ∃ done, S :: more = done ++ S :: more ∧ S :: more ≠ [] ∧ ∀ D ∈ done, D.stop < stop :=
    ⟨fun x after before => live_cons.mpr (.inl ⟨after, by omega⟩),
      [], rfl, cons_ne_nil _ _, by simp⟩
  induction rest generalizing S with
  | nil =>
    rw [followTo]
    by_cases short : S.stop < stop
    · rw [if_pos short]
      refine ⟨nofun, fun _ => ⟨S.stop, le_refl _, short, ?_⟩⟩
      rintro ⟨T, mem, holds⟩
      rw [mem_singleton.mp mem] at holds
      exact lt_irrefl _ holds.2
    · rw [if_neg short]
      exact ⟨fun I found => some.inj found ▸ whole short, nofun⟩
  | cons I rest ih =>
    rcases pairwise_cons.mp canonical.apart with ⟨before, -⟩
    have order := (before I mem_cons_self).1
    have later : Canonical (I :: rest) := canonical.sublist (sublist_cons_self S _)
    rw [followTo]
    by_cases short : S.stop < stop
    · rw [if_pos short]
      by_cases gap : S.stop ≠ I.start
      · rw [if_pos gap]
        refine ⟨nofun, fun _ => ⟨S.stop, le_refl _, short, fun live => ?_⟩⟩
        rcases live_cons.mp live with holds | others
        · exact lt_irrefl _ holds.2
        · exact not_live_cons later (by omega) others
      · rw [if_neg gap]
        rcases ih later (fun past => ⟨fun x after before => live_cons.mpr
          (.inl ⟨after, by omega⟩), [], rfl, cons_ne_nil _ _, by simp⟩) with
          ⟨reached, stuck⟩
        constructor
        · intro J found
          rcases reached J found with ⟨all, done, split, more, past⟩
          refine ⟨fun x after inside => live_cons.mpr ?_, S :: done, by rw [split]; rfl, more, ?_⟩
          · by_cases here : x < S.stop
            · exact .inl ⟨after, here⟩
            · exact .inr (all x (by omega) inside)
          · rintro D (_ | ⟨_, mem⟩)
            · exact short
            · exact past D mem
        · intro failed
          rcases stuck failed with ⟨x, after, inside, none⟩
          have grows := later.nonempty I mem_cons_self
          refine ⟨x, by omega, inside, fun live => ?_⟩
          rcases live_cons.mp live with holds | others
          · have bound := holds.2
            omega
          · exact none others
    · rw [if_neg short]
      exact ⟨fun J found => some.inj found ▸ whole short, nofun⟩

theorem coversLoop_spec (canonical : Canonical segments) {done others : List Segment}
    (split : segments = done ++ I) (more : I ≠ []) (otherCanonical : Canonical others)
    (past : ∀ D ∈ done, ∀ O ∈ others, D.stop <= O.start) :
    Answers (coversLoop segments I others) (∀ x, Live others x -> Live segments x) := by
  induction others generalizing done I with
  | nil =>
    refine ⟨true, by rw [coversLoop], iff_of_true rfl ?_⟩
    rintro x ⟨S, mem, -⟩
    cases mem
  | cons O others ih =>
    have grows := otherCanonical.nonempty O mem_cons_self
    have first : Live (O :: others) O.start := live_cons.mpr (.inl ⟨le_refl _, grows⟩)
    have passed : ∀ D ∈ done ++ I.takeWhile fun S => decide (S.stop <= O.start),
        D.stop <= O.start := by
      intro D mem
      rcases mem_append.mp mem with early | skipped
      · exact past D early O mem_cons_self
      · simpa using mem_takeWhile_imp skipped
    have whole : segments = (done ++ I.takeWhile fun S => decide (S.stop <= O.start)) ++
        I.dropWhile fun S => decide (S.stop <= O.start) := by
      rw [List.append_assoc, takeWhile_append_dropWhile, split]
    -- From the segment on, only what has not been passed is live.
    have live {x : Nat} (after : O.start <= x) : Live segments x ↔
        Live (I.dropWhile fun S => decide (S.stop <= O.start)) x := by
      rw [whole]
      exact live_append fun D mem => le_trans (passed D mem) after
    have left : Canonical (I.dropWhile fun S => decide (S.stop <= O.start)) :=
      canonical.sublist (whole ▸ sublist_append_right _ _)
    rw [coversLoop, advanceTo_eq canonical split more, bind_eq_bind, bind_some]
    cases remaining : I.dropWhile fun S => decide (S.stop <= O.start) with
    | nil =>
      refine ⟨false, rfl, iff_of_false Bool.false_ne_true fun all => ?_⟩
      rcases (live (le_refl _)).mp (all O.start first) with ⟨S, mem, -⟩
      rw [remaining] at mem
      cases mem
    | cons S rest =>
      rw [remaining] at left live whole
      have ahead : O.start < S.stop := by
        have head := head?_dropWhile_not (fun S : Segment => decide (S.stop <= O.start)) I
        rw [remaining] at head
        simpa using head
      dsimp only
      by_cases hole : S.start > O.start
      · rw [if_pos hole]
        exact ⟨false, rfl, iff_of_false Bool.false_ne_true fun all =>
          not_live_cons left hole ((live (le_refl _)).mp (all O.start first))⟩
      · rw [if_neg hole]
        rcases followTo_spec O.stop left with ⟨reached, stuck⟩
        cases followed : followTo O.stop S rest with
        | none =>
          rcases stuck followed with ⟨x, after, inside, none⟩
          refine ⟨false, rfl, iff_of_false Bool.false_ne_true fun all => none ?_⟩
          exact (live (by omega)).mp (all x (live_cons.mpr (.inl ⟨by omega, inside⟩)))
        | some J =>
          rcases reached J followed with ⟨all, skipped, rest_eq, more', stops⟩
          have others_after := (pairwise_cons.mp otherCanonical.apart).1
          have late : ∀ D ∈ (done ++ I.takeWhile fun S => decide (S.stop <= O.start)) ++ skipped,
              ∀ P ∈ others, D.stop <= P.start := by
            intro D mem P other
            have order := (others_after P other).1
            rcases mem_append.mp mem with early | last
            · have before := passed D early
              omega
            · have before := stops D last
              omega
          rcases ih (by rw [List.append_assoc, <- rest_eq]; exact whole) more'
            (otherCanonical.sublist (sublist_cons_self O _)) late with ⟨answer, found, right⟩
          refine ⟨answer, found, right.trans ⟨fun rest x alive => ?_, fun every x alive =>
            every x (live_cons.mpr (.inr alive))⟩⟩
          rcases live_cons.mp alive with holds | later
          · exact (live holds.1).mpr (all x (by have after := holds.1; omega) holds.2)
          · exact rest x later

/-! ## The queries -/

namespace LiveRange

variable {LR other : LiveRange}

theorem canonical_of_isChain {segments : List Segment} (nonempty : ∀ S ∈ segments, S.start < S.stop)
    (chain : segments.IsChain Before) : Canonical segments := by
  induction segments with
  | nil => exact canonical_nil
  | cons S rest ih =>
    have grows := nonempty S mem_cons_self
    cases rest with
    | nil => exact Canonical.cons_iff.mpr ⟨grows, canonical_nil, by simp⟩
    | cons T rest =>
      rcases isChain_cons_cons.mp chain with ⟨first, others⟩
      have canonical := ih (fun U mem => nonempty U (mem_cons_of_mem S mem)) others
      exact Canonical.cons_iff.mpr ⟨grows, canonical, canonical.before_all first⟩

theorem verify.canonical (verified : LR.verify) : Canonical LR.segments :=
  canonical_of_isChain (fun S mem => (verified.1 S mem).1) verified.2

/-- The assertion about the start of the search. -/
def HintAllowed (LR other : LiveRange) (StartPos : Nat) : Prop :=
  ∃ i ∈ LR.segments.head?, ∃ j ∈ other.segments[StartPos]?, j.start <= i.start ∨ StartPos = 0

section

variable (canonical : Canonical LR.segments)
include canonical

theorem overlapsFrom_answers (otherCanonical : Canonical
    other.segments) {StartPos : Nat} (allowed : HintAllowed LR other StartPos) :
    Answers (LR.overlapsFrom other StartPos)
      (Intersect LR.segments (other.segments.drop StartPos)) := by
  rcases allowed with ⟨i, head, j, start, hint⟩
  rcases head?_eq_some_iff.mp head with ⟨I, whole⟩
  have suffix : other.segments.drop StartPos = j :: other.segments.drop (StartPos + 1) := by
    rcases List.getElem?_eq_some_iff.mp start with ⟨inside, place⟩
    rw [<- place]
    exact drop_eq_getElem_cons inside
  have later : Canonical (other.segments.drop StartPos) := otherCanonical.sublist (drop_sublist _ _)
  generalize other.segments.drop (StartPos + 1) = J at suffix
  rw [whole] at canonical
  rw [suffix] at later
  rw [overlapsFrom, whole, suffix]
  dsimp only
  rw [if_pos hint]
  by_cases first : i.start < j.start
  · rw [if_pos first]
    refine ⟨_, rfl, ?_⟩
    rw [overlapsLoop_iff (canonical.sublist (drop_sublist _ _)) later]
    exact intersect_upper_bound canonical (.inl rfl) (starts_after later)
  · rw [if_neg first]
    by_cases second : j.start < i.start
    · rw [if_pos second]
      split_ifs with next
      · have found : 0 < partitionPoint (fun S => decide (S.start <= i.start))
            (other.segments.drop StartPos) := by
          rw [suffix, partitionPoint, takeWhile_cons, if_pos (decide_eq_true (le_of_lt second))]
          exact Nat.succ_pos _
        refine ⟨_, rfl, ?_⟩
        rw [overlapsLoop_iff canonical (otherCanonical.sublist (drop_sublist _ _)), intersect_comm,
          intersect_upper_bound otherCanonical (.inr found) (starts_after canonical), suffix,
          intersect_comm]
      · exact ⟨_, rfl, overlapsLoop_iff canonical later⟩
    · rw [if_neg second]
      exact ⟨true, rfl, iff_of_true rfl ⟨i, mem_cons_self, j, mem_cons_self, i.start,
        ⟨le_refl _, canonical.nonempty i mem_cons_self⟩, Nat.le_of_not_lt first,
        lt_of_le_of_lt (Nat.le_of_not_lt second) (later.nonempty j mem_cons_self)⟩⟩

theorem overlaps_answers {Start End : Nat}
    (order : Start < End) : Answers (LR.overlaps Start End)
      (∃ x, Live LR.segments x ∧ Start <= x ∧ x < End) := by
  have starts {n : Nat} {S : Segment} (entry : LR.segments[n]? = some S) :=
    lt_partitionPoint_iff (partitioned canonical (p := fun x => decide (x < End)) (by
      intro x y le
      simp only [decide_eq_true_eq]
      omega)) entry
  simp only [decide_eq_true_eq] at starts
  have bound := partitionPoint_le (fun S : Segment => decide (S.start < End)) LR.segments
  rw [overlaps, if_pos order]
  refine ⟨_, rfl, ?_⟩
  generalize partitionPoint (fun S => decide (S.start < End)) LR.segments = I at starts bound ⊢
  rw [Bool.and_eq_true, decide_eq_true_eq]
  constructor
  · rintro ⟨pos, ends⟩
    rcases (any_eq_true _ _).mp ends with ⟨S, entry, after⟩
    rw [decide_eq_true_eq] at after
    have before := (starts entry).mp (by omega)
    have grows := canonical.nonempty S (mem_of_getElem? entry)
    exact ⟨max S.start Start, ⟨S, mem_of_getElem? entry, by
      rw [Interval.Holds]
      omega⟩, by omega, by omega⟩
  · rintro ⟨x, ⟨S, mem, holds⟩, after, before⟩
    rcases getElem?_of_mem mem with ⟨n, entry⟩
    have early := (starts entry).mpr (lt_of_le_of_lt holds.1 before)
    have last := List.getElem?_eq_getElem (show I - 1 < LR.segments.length by omega)
    refine ⟨by omega, ?_⟩
    rw [last, any_some, decide_eq_true_eq]
    have stops := holds.2
    rcases Nat.lt_or_eq_of_le (show n <= I - 1 by omega) with less | same
    · rcases List.getElem?_eq_some_iff.mp entry with ⟨inside, rfl⟩
      have apart := pairwise_iff_getElem.mp canonical.apart n (I - 1) inside (by omega) less
      have grows := canonical.nonempty _ (mem_of_getElem? last)
      have next := apart.1
      omega
    · subst same
      cases some.inj (last.symm.trans entry)
      omega

theorem covers_answers
    (otherCanonical : Canonical other.segments) : Answers (LR.covers other)
      (∀ x, Live other.segments x -> Live LR.segments x) := by
  rw [covers]
  split_ifs with empty
  · refine ⟨_, rfl, ?_⟩
    rw [empty, List.isEmpty_iff]
    constructor
    · rintro none x ⟨S, mem, -⟩
      rw [none] at mem
      cases mem
    · intro all
      by_contra more
      rcases exists_mem_of_ne_nil _ more with ⟨S, mem⟩
      rcases all S.start ⟨S, mem, le_refl _, otherCanonical.nonempty S mem⟩ with
        ⟨T, none, -⟩
      cases none
  · exact coversLoop_spec canonical (nil_append _).symm empty otherCanonical (by simp)

end

end LiveRange

/-- The queries about two ranges are exact. -/
theorem queries_exact (LR other : LiveRange) (verified : LR.verify) (otherVerified : other.verify) :
    (∀ StartPos, LiveRange.HintAllowed LR other StartPos -> Answers (LR.overlapsFrom other StartPos)
      (Intersect LR.segments (other.segments.drop StartPos))) ∧
    (∀ Start End, Start < End -> Answers (LR.overlaps Start End)
      (∃ x, Live LR.segments x ∧ Start <= x ∧ x < End)) ∧
    Answers (LR.covers other) (∀ x, Live other.segments x -> Live LR.segments x) :=
  ⟨fun _ => LiveRange.overlapsFrom_answers verified.canonical otherVerified.canonical,
    fun _ _ => LiveRange.overlaps_answers verified.canonical,
    LiveRange.covers_answers verified.canonical otherVerified.canonical⟩

/-- A range with one segment. -/
def liveBetween (start stop : Nat) : LiveRange :=
  ⟨[⟨start, stop, 1⟩], [1], fun _ => ⟨0, some start⟩, 2⟩

theorem liveBetween_verify {start stop : Nat} (order : start < stop) :
    (liveBetween start stop).verify := by
  simp [liveBetween, LiveRange.verify, order, nullptr]

theorem queries_exact_two :
    Answers ((liveBetween 0 8).overlapsFrom (liveBetween 4 12) 0)
      (Intersect (liveBetween 0 8).segments (liveBetween 4 12).segments) ∧
    Answers ((liveBetween 0 8).overlaps 4 12)
      (∃ x, Live (liveBetween 0 8).segments x ∧ 4 <= x ∧ x < 12) ∧
    Answers ((liveBetween 0 8).covers (liveBetween 4 12))
      (∀ x, Live (liveBetween 4 12).segments x -> Live (liveBetween 0 8).segments x) := by
  rcases queries_exact (liveBetween 0 8) (liveBetween 4 12) (liveBetween_verify (by decide))
    (liveBetween_verify (by decide)) with ⟨starting, within, covered⟩
  exact ⟨starting 0 ⟨_, rfl, _, rfl, .inr rfl⟩, within 4 12 (by decide), covered⟩

end LiveInterval
end LlvmProject
