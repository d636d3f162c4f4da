import LlvmProject.CodeGen.LiveIntervalSegments

namespace LlvmProject

open List

namespace LiveInterval

/-!
# The vector and the set find the same positions

The vector is searched by halving, and the set by the order of its keys.
-/

open IntervalList

variable {segments before after : List Segment} {S : Segment} {Pos : Nat}

/-! ## Searching -/

theorem stop_mono (canon : Canonical segments) {i j : Nat} (order : i <= j)
    (bound : j < segments.length) : segments[i].stop <= segments[j].stop := by
  rcases eq_or_lt_of_le order with rfl | less
  · exact le_refl _
  · have apart : segments[i].stop <= segments[j].start :=
      (pairwise_iff_getElem.mp canon.apart i j (less.trans bound) bound less).1
    exact apart.trans (le_of_lt (canon.nonempty _ (getElem_mem bound)))

/-- The position is between the segments that end in time and the others. -/
structure Divides (segments : List Segment) (Pos : Nat) (first last : Nat) : Prop where
  bound : last <= segments.length
  early : ∀ i (inside : i < segments.length), i < first -> segments[i].stop <= Pos
  late : ∀ i (inside : i < segments.length), last <= i -> Pos < segments[i].stop

section

variable (canon : Canonical segments)
include canon

theorem findLoop_spec {fuel I Len : Nat} (enough : Len <= fuel)
    (pos : 0 < Len) (divides : Divides segments Pos I (I + Len)) :
    ∃ k, findLoop segments Pos fuel I Len = some k ∧ Divides segments Pos k k := by
  induction fuel generalizing I Len with
  | zero => omega
  | succ fuel ih =>
    have half : Len >>> 1 = Len / 2 := rfl
    have inside : I + Len / 2 < segments.length := by
      have bound := divides.bound
      omega
    have read : segments[I + Len / 2]? = some segments[I + Len / 2] :=
      List.getElem?_eq_getElem inside
    simp only [findLoop, half, read, Option.bind_some]
    by_cases below : Pos < segments[I + Len / 2].stop
    · have lower : Divides segments Pos I (I + Len / 2) := by
        refine ⟨Nat.le_of_lt inside, divides.early, fun i bound later => ?_⟩
        exact below.trans_le (stop_mono canon later bound)
      rw [if_pos below]
      by_cases more : Len / 2 ≠ 0
      · rw [if_pos more]
        exact ih (by omega) (Nat.pos_of_ne_zero more) lower
      · rw [if_neg more]
        refine ⟨I, rfl, ?_⟩
        rwa [not_not.mp more] at lower
    · have upper : Divides segments Pos (I + (Len / 2 + 1))
          (I + (Len / 2 + 1) + (Len - (Len / 2 + 1))) := by
        have whole : I + (Len / 2 + 1) + (Len - (Len / 2 + 1)) = I + Len := by omega
        rw [whole]
        refine ⟨divides.bound, fun i bound earlier => ?_, divides.late⟩
        have order : i <= I + Len / 2 := by omega
        exact (stop_mono canon order inside).trans (Nat.le_of_not_lt below)
      rw [if_neg below]
      by_cases more : Len - (Len / 2 + 1) ≠ 0
      · rw [if_pos more]
        exact ih (by omega) (Nat.pos_of_ne_zero more) upper
      · rw [if_neg more]
        refine ⟨_, rfl, ?_⟩
        rwa [not_not.mp more, Nat.add_zero] at upper

theorem find_spec (Pos : Nat) : ∃ k, find segments Pos = some k ∧ Divides segments Pos k k := by
  cases last : segments.getLast? with
  | none =>
    rw [getLast?_eq_none_iff] at last
    subst last
    exact ⟨0, rfl, ⟨Nat.le_refl _, nofun, nofun⟩⟩
  | some S =>
    have nonempty : 0 < segments.length := by
      apply length_pos_iff.mpr
      rintro rfl
      cases last
    have atEnd : segments[segments.length - 1] = S := by
      rw [getLast?_eq_getElem?, List.getElem?_eq_getElem (by omega)] at last
      exact Option.some.inj last
    simp only [find, last]
    by_cases behind : S.stop <= Pos
    · refine ⟨segments.length, if_pos behind, Nat.le_refl _, fun i inside _ => ?_, ?_⟩
      · rw [<- atEnd] at behind
        exact (stop_mono canon (by omega) (by omega)).trans behind
      · intro i inside outside
        omega
    · rw [if_neg behind]
      apply findLoop_spec canon (Nat.le_refl _) nonempty
      rw [Nat.zero_add]
      exact ⟨Nat.le_refl _, fun i _ never => absurd never (Nat.not_lt_zero i),
        fun i inside outside => absurd inside (Nat.not_lt_of_le outside)⟩

theorem ofIndex_find (Pos : Nat) :
    (find segments Pos).map (Iterator.ofIndex segments) =
      some (Iterator.first segments fun S => Pos < S.stop) := by
  rcases find_spec canon Pos with ⟨k, found, divides⟩
  have early : ∀ S ∈ (segments.take k).reverse, decide (Pos < S.stop) = false := by
    intro S mem
    rcases getElem_of_mem (mem_reverse.mp mem) with ⟨i, inside, rfl⟩
    rw [getElem_take]
    have bounds := length_take_le k segments
    rw [length_take] at inside
    exact decide_eq_false (Nat.not_lt_of_le (divides.early i (by omega) (by omega)))
  have late : ∀ S ∈ segments.drop k, decide (Pos < S.stop) = true := by
    intro S mem
    rcases getElem_of_mem mem with ⟨i, inside, rfl⟩
    rw [getElem_drop]
    rw [length_drop] at inside
    exact decide_eq_true (divides.late (k + i) (by omega) (by omega))
  have place := Iterator.first_eq early late
  rw [reverse_reverse, take_append_drop] at place
  rw [found, place]
  rfl

end

theorem faithful_vector : Faithful CalcLiveRangeUtilVector where
  find _ Pos canon := ofIndex_find canon Pos
  findInsertPos _ _ _ := rfl
  insertAtEnd _ _ _ := rfl
  insert _ _ _ _ := rfl

/-! ## Keys of the set -/

theorem setInsert_between (left : ∀ T ∈ before, T.start < S.start)
    (right : ∀ T ∈ after, S.start < T.start) :
    setInsert (before.reverse ++ after) S = ⟨before, S :: after⟩ := by
  have place : Iterator.first (before.reverse ++ after) (fun other => ¬less other S) =
      ⟨before, after⟩ := by
    apply Iterator.first_eq
    · intro T mem
      exact decide_eq_false (not_not.mpr (.inl (left T mem)))
    · intro T mem
      have beyond := right T mem
      refine decide_eq_true fun below => ?_
      rcases below with below | ⟨same, _⟩
      · omega
      · omega
  rw [setInsert, place]
  cases after with
  | nil => rfl
  | cons next after => exact if_pos (.inl (right next mem_cons_self))

theorem start_lt {B : Segment} (canon : Canonical (before.reverse ++ B :: after)) :
    ∀ T ∈ before, T.start < B.start := by
  rcases Canonical.append_iff.mp canon with ⟨canonicalBefore, _, across⟩
  intro T mem
  have inside := mem_reverse.mpr mem
  exact (canonicalBefore.nonempty T inside).trans_le (across T inside B mem_cons_self).1

theorem set_findInsertPos (canon : Canonical segments) (S : Segment) :
    CalcLiveRangeUtilSet.findInsertPos segments S =
      Iterator.first segments fun other => S.start < other.start := by
  rcases findInsertPos_split canon S.start with ⟨before, after, rfl, found, left, right⟩
  rw [found]
  have late : ∀ T ∈ after, decide (less S T) = true := fun T mem =>
    decide_eq_true (.inl (right T mem))
  have head : ∀ other rest, after = other :: rest -> ¬¬S.start < other.start := by
    rintro other rest rfl
    exact not_not.mpr (right other mem_cons_self)
  cases before with
  | nil =>
    have place : Iterator.first ([].reverse ++ after) (fun other => less S other) =
        ⟨[], after⟩ := Iterator.first_eq nofun late
    simp only [CalcLiveRangeUtilSet, place]
    cases after with
    | nil => rfl
    | cons other rest => exact if_neg (head other rest rfl)
  | cons B before =>
    rw [reverse_cons, List.append_assoc, singleton_append] at canon ⊢
    have startB : B.start <= S.start := left B mem_cons_self
    have early : ∀ T ∈ before, decide (less S T) = false := by
      intro T mem
      have first := start_lt canon T mem
      refine decide_eq_false fun above => ?_
      rcases above with above | ⟨same, _⟩
      · omega
      · omega
    by_cases above : less S B
    · have place : Iterator.first (before.reverse ++ B :: after) (fun other => less S other) =
          ⟨before, B :: after⟩ := by
        apply Iterator.first_eq early
        exact forall_mem_cons.mpr ⟨decide_eq_true above, late⟩
      simp only [CalcLiveRangeUtilSet, place]
      exact if_pos (Nat.not_lt_of_le startB)
    · have place : Iterator.first ((B :: before).reverse ++ after)
          (fun other => less S other) = ⟨B :: before, after⟩ := by
        apply Iterator.first_eq _ late
        exact forall_mem_cons.mpr ⟨decide_eq_false above, early⟩
      rw [reverse_cons, List.append_assoc, singleton_append] at place
      simp only [CalcLiveRangeUtilSet, place]
      cases after with
      | nil => rfl
      | cons other rest => exact if_neg (head other rest rfl)

/-- What is before the position does not reach it. -/
theorem find_stays (I : Iterator) (early : ∀ T ∈ I.before, T.stop <= Pos) :
    (match I.before with
      | [] => some I
      | PrevI :: before =>
        if Pos < PrevI.stop then some ⟨before, PrevI :: I.after⟩ else some I) = some I := by
  rcases I with ⟨before, after⟩
  cases before with
  | nil => rfl
  | cons PrevI before => exact if_neg (Nat.not_lt_of_le (early PrevI mem_cons_self))

theorem set_find (canon : Canonical segments) (Pos : Nat) :
    CalcLiveRangeUtilSet.find segments Pos =
      some (Iterator.first segments fun S => Pos < S.stop) := by
  rcases find_split canon Pos with ⟨before, after, rfl, found, early, right⟩
  rw [found]
  let key : Segment := ⟨Pos, SlotIndex.getNextSlot Pos, nullptr⟩
  have earlyKey : ∀ T ∈ before, decide (less key T) = false := by
    intro T mem
    have nonempty : T.start < T.stop := canon.nonempty T (mem_append_left _ (mem_reverse.mpr mem))
    have ends := early T mem
    refine decide_eq_false fun above => ?_
    have order : Pos < T.start ∨ Pos = T.start ∧ Pos + 1 < T.stop := above
    omega
  cases after with
  | nil =>
    have place : Iterator.first (before.reverse ++ []) (fun other => less key other) =
        ⟨before, []⟩ := Iterator.first_eq earlyKey nofun
    simp only [CalcLiveRangeUtilSet]
    rw [place]
    exact find_stays _ early
  | cons T after =>
    have inTime : Pos < T.stop := right T mem_cons_self
    rcases Canonical.cons_iff.mp (Canonical.append_iff.mp canon).2.1 with ⟨_, _, later⟩
    have lateKey : ∀ U ∈ after, decide (less key U) = true := fun U mem =>
      decide_eq_true (.inl (inTime.trans_le (later U mem).1))
    by_cases above : less key T
    · have place : Iterator.first (before.reverse ++ T :: after)
          (fun other => less key other) = ⟨before, T :: after⟩ := by
        apply Iterator.first_eq earlyKey
        exact forall_mem_cons.mpr ⟨decide_eq_true above, lateKey⟩
      simp only [CalcLiveRangeUtilSet]
      rw [place]
      exact find_stays _ early
    · have place : Iterator.first ((T :: before).reverse ++ after)
          (fun other => less key other) = ⟨T :: before, after⟩ := by
        apply Iterator.first_eq _ lateKey
        exact forall_mem_cons.mpr ⟨decide_eq_false above, earlyKey⟩
      rw [reverse_cons, List.append_assoc, singleton_append] at place
      simp only [CalcLiveRangeUtilSet]
      rw [place]
      exact if_pos inTime

theorem faithful_set : Faithful CalcLiveRangeUtilSet where
  find _ Pos canon := set_find canon Pos
  findInsertPos _ S canon := set_findInsertPos canon S
  insertAtEnd segments S left := by
    have inserted : setInsert (segments.reverse.reverse ++ []) S = ⟨segments.reverse, [S]⟩ :=
      setInsert_between (fun T mem => left T (mem_reverse.mp mem)) nofun
    rw [reverse_reverse, append_nil] at inserted
    simp only [CalcLiveRangeUtilSet, inserted, Iterator.segments_mk, reverse_reverse]
  insert _ _ left right := setInsert_between left right

end LiveInterval
end LlvmProject
