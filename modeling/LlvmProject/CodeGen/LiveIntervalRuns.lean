import LlvmProject.CodeGen.LiveIntervalContainers

namespace LlvmProject

open List

namespace LiveInterval

/-!
# Runs of a live range

Every operation updates the map from slots to value numbers, and the list of the segments
stays in canonical form.
-/

open IntervalList

variable {segments before after : List Segment} {S : Segment} {LR LR' : LiveRange}
  {impl : CalcLiveRangeUtil} {V1 V2 : VNInfoPtr}

abbrev SlotMap := Nat -> VNInfoPtr -> Prop

/-! ## Dead definitions -/

/-- The first segment that ends after the slot. -/
def found (segments : List Segment) (Pos : Nat) : Option Segment :=
  segments.find? fun S => Pos < S.stop

/-- The first value that is live in the instruction from the definition on reaches down to it.
If there is none, a new value is live to the dead slot. -/
def DefinesDead (Def : Nat) (fresh : VNInfoPtr) (map : SlotMap) (result : VNInfoPtr)
    (map' : SlotMap) : Prop :=
  (∃ q, map q result ∧ Def <= q ∧ q <= SlotIndex.getDeadSlot Def ∧
      (∀ p w, Def <= p -> p < q -> ¬map p w) ∧
      ∀ x w, map' x w ↔ map x w ∨ w = result ∧ Def <= x ∧ x < q) ∨
    (∀ p w, Def <= p -> p <= SlotIndex.getDeadSlot Def -> ¬map p w) ∧ result = fresh ∧
      ∀ x w, map' x w ↔ map x w ∨ w = fresh ∧ Def <= x ∧ x < SlotIndex.getDeadSlot Def

/-- What the calculation asserts. -/
def Asserts (LR : LiveRange) (Def : Nat) : Prop :=
  ¬SlotIndex.isDead Def ∧ ∀ S, found LR.segments Def = some S ->
    if SlotIndex.isSameInstr Def S.start then (LR.info S.value).defSlot = some S.start
    else SlotIndex.isEarlierInstr Def S.start

/-- If a definition moves down, its value is not live right before it. -/
def Separate (LR : LiveRange) (Def : Nat) : Prop :=
  ∀ S, found LR.segments Def = some S -> SlotIndex.isSameInstr Def S.start -> Def < S.start ->
    ∀ R ∈ LR.segments, R.stop = Def -> R.value ≠ S.value

theorem found_eq {Pos : Nat} (left : ∀ T ∈ before, T.stop <= Pos)
    (right : ∀ T ∈ after, Pos < T.stop) : found (before.reverse ++ after) Pos = after.head? := by
  have early : before.reverse.find? (fun S => decide (Pos < S.stop)) = none := by
    apply find?_eq_none.mpr
    intro T mem
    rw [decide_eq_true_eq]
    exact Nat.not_lt_of_le (left T (mem_reverse.mp mem))
  rw [found, find?_append, early, Option.none_or]
  cases after with
  | nil => rfl
  | cons first after =>
    exact find?_cons_of_pos (decide_eq_true (right first mem_cons_self))

/-- No slot from the position on is live before a later segment. -/
theorem not_live_before {Pos : Nat} {first : Segment} (canonical : Canonical (first :: after))
    (left : ∀ T ∈ before, T.stop <= Pos) {x : Nat} {w : VNInfoPtr} (lower : Pos <= x)
    (upper : x < first.start) : ¬At (before.reverse ++ first :: after) x w := by
  intro holds
  rcases at_append.mp holds with ⟨T, mem, inside, _⟩ | later
  · have ends := left T (mem_reverse.mp mem)
    have stop := inside.2
    omega
  · exact Nat.not_lt_of_le (canonical.start_le later) upper

variable {Def : Nat}

theorem lt_getDeadSlot (notDead : ¬SlotIndex.isDead Def) : Def < SlotIndex.getDeadSlot Def := by
  have rem : ¬Def % 4 = 3 := notDead
  have unfolded : SlotIndex.getDeadSlot Def = Def / 4 * 4 + 3 := rfl
  omega

/-- A new value is added where nothing is live. -/
theorem definesDead_fresh {fresh : VNInfoPtr} (notDead : ¬SlotIndex.isDead Def)
    (canonical : Canonical (before.reverse ++ after))
    (values : ∀ T ∈ before.reverse ++ after, T.value < fresh) (left : ∀ T ∈ before, T.stop <= Def)
    (beyond : ∀ T ∈ after, SlotIndex.getDeadSlot Def < T.start) :
    let segments' := before.reverse ++ ⟨Def, SlotIndex.getDeadSlot Def, fresh⟩ :: after
    Canonical segments' ∧ (∀ T ∈ segments', T.value < fresh + 1) ∧
      DefinesDead Def fresh (At (before.reverse ++ after)) fresh (At segments') := by
  have beforeDead : ∀ T ∈ before, Before T ⟨Def, SlotIndex.getDeadSlot Def, fresh⟩ :=
    fun T mem => ⟨left T mem, fun _ => ne_of_lt
      (values T (mem_append_left _ (mem_reverse.mpr mem)))⟩
  have apart : ∀ T ∈ after, Before ⟨Def, SlotIndex.getDeadSlot Def, fresh⟩ T := fun T mem =>
    ⟨le_of_lt (beyond T mem), fun same => absurd same (ne_of_lt (beyond T mem))⟩
  rcases adds_insert canonical (lt_getDeadSlot notDead) beforeDead apart with ⟨canonical', same⟩
  refine ⟨canonical', fun T mem => ?_, .inr ⟨fun p w lower upper => ?_, rfl, same⟩⟩
  · rcases mem_append.mp mem with early | late
    · exact Nat.lt_succ_of_lt (values T (mem_append_left _ early))
    · rcases mem_cons.mp late with rfl | behind
      · exact Nat.lt_succ_self _
      · exact Nat.lt_succ_of_lt (values T (mem_append_right _ behind))
  · rintro ⟨T, mem, inside, _⟩
    rcases mem_append.mp mem with early | behind
    · exact Nat.not_lt_of_le ((left T (mem_reverse.mp early)).trans lower) inside.2
    · exact Nat.not_lt_of_le (inside.1.trans upper) (beyond T behind)

/-- A later definition of the instruction moves down. -/
theorem definesDead_lower (fresh : VNInfoPtr) (canonical : Canonical (before.reverse ++ S :: after))
    (left : ∀ T ∈ before, T.stop <= Def) (apart : ∀ T ∈ before, T.stop = Def -> T.value ≠ S.value)
    (lower : Def < S.start) (same : SlotIndex.isSameInstr Def S.start) :
    let segments' := before.reverse ++ { S with start := Def } :: after
    Canonical segments' ∧
      DefinesDead Def fresh (At (before.reverse ++ S :: after)) S.value (At segments') := by
  have mem : S ∈ before.reverse ++ S :: after := mem_append_right _ mem_cons_self
  have nonempty := canonical.nonempty S mem
  have tail := (Canonical.append_iff.mp canonical).2.1
  have startInstr : S.start <= SlotIndex.getDeadSlot Def := by
    have quot : Def / 4 = S.start / 4 := same
    have unfolded : SlotIndex.getDeadSlot Def = Def / 4 * 4 + 3 := rfl
    omega
  refine ⟨?_, .inl ⟨S.start, ⟨S, mem, ⟨le_refl _, nonempty⟩, rfl⟩,
    le_of_lt lower, startInstr, fun p w early late => ?_, fun x w => ?_⟩⟩
  · have beforeLower : ∀ T ∈ before.reverse, Before T { S with start := Def } := fun T early =>
      ⟨left T (mem_reverse.mp early), apart T (mem_reverse.mp early)⟩
    exact Canonical.replace [S] canonical (show Def < S.stop from lower.trans nonempty) beforeLower
      (Canonical.cons_iff.mp tail).2.2
  · exact not_live_before tail left early late
  · rw [at_append, at_append, at_cons, at_cons, or_assoc, or_assoc]
    refine or_congr_right ?_
    constructor
    · rintro (⟨⟨start, stop⟩, rfl⟩ | holds)
      · by_cases early : x < S.start
        · exact .inr (.inr ⟨rfl, start, early⟩)
        · exact .inl ⟨⟨Nat.le_of_not_lt early, stop⟩, rfl⟩
      · exact .inr (.inl holds)
    · rintro (⟨⟨start, stop⟩, rfl⟩ | holds | ⟨rfl, start, stop⟩)
      · exact .inl ⟨⟨(le_of_lt lower).trans start, stop⟩, rfl⟩
      · exact .inr holds
      · exact .inl ⟨⟨start, stop.trans nonempty⟩, rfl⟩

theorem definesDead_live (fresh : VNInfoPtr) (notDead : ¬SlotIndex.isDead Def)
    (mem : S ∈ segments) (holds : S.Holds Def) :
    DefinesDead Def fresh (At segments) S.value (At segments) := by
  refine .inl ⟨Def, ⟨S, mem, holds, rfl⟩, le_refl _,
    le_of_lt (lt_getDeadSlot notDead), fun p w early late => ?_, fun x w => ?_⟩
  · exact absurd late (Nat.not_lt_of_le early)
  · refine (or_iff_left ?_).symm
    rintro ⟨_, start, stop⟩
    exact Nat.not_lt_of_le start stop

theorem createDeadDef_spec (faithful : Faithful impl) (canonical : Canonical LR.segments)
    (values : ∀ S ∈ LR.segments, S.value < LR.allocator) (asserts : Asserts LR Def)
    (separate : Separate LR Def) :
    ∃ result LR', LR.createDeadDef impl Def = some (result, LR') ∧ Canonical LR'.segments ∧
      (∀ S ∈ LR'.segments, S.value < LR'.allocator) ∧
      DefinesDead Def LR.allocator (At LR.segments) result (At LR'.segments) := by
  rcases find_split canonical Def with ⟨before, after, whole, place, left, right⟩
  have atDef : impl.find LR.segments Def = some ⟨before, after⟩ :=
    (faithful.find _ Def canonical).trans (congrArg some place)
  have first : found LR.segments Def = after.head? := whole ▸ found_eq left right
  let dead : Segment := ⟨Def, SlotIndex.getDeadSlot Def, LR.allocator⟩
  have startBefore : ∀ T ∈ before, T.start < dead.start := by
    intro T mem
    have inside : T ∈ LR.segments := whole ▸ mem_append_left _ (mem_reverse.mpr mem)
    exact (canonical.nonempty T inside).trans_le (left T mem)
  simp only [LiveRange.createDeadDef, if_neg asserts.1, atDef, Option.bind_some]
  cases after with
  | nil =>
    have inserted : impl.insertAtEnd LR.segments dead = before.reverse ++ [dead] := by
      rw [append_nil] at whole
      rw [faithful.insertAtEnd _ _ fun T mem =>
        startBefore T (mem_reverse.mp (whole ▸ mem)), whole]
    have beyond : ∀ T ∈ ([] : List Segment), SlotIndex.getDeadSlot Def < T.start :=
      fun T mem => absurd mem not_mem_nil
    rcases definesDead_fresh asserts.1 (whole ▸ canonical) (whole ▸ values) left beyond with
      ⟨canonical', values', defines⟩
    refine ⟨LR.allocator, _, rfl, ?_, ?_, ?_⟩
    · exact inserted ▸ canonical'
    · exact inserted ▸ values'
    · exact inserted ▸ whole ▸ defines
  | cons S after =>
    have asserted := asserts.2 S first
    have mem : S ∈ LR.segments := whole ▸ mem_append_right _ mem_cons_self
    have canonicalWhole : Canonical (before.reverse ++ S :: after) := whole ▸ canonical
    by_cases same : SlotIndex.isSameInstr Def S.start
    · rw [if_pos same] at asserted
      by_cases lower : Def < S.start
      · have least : min Def S.start = Def := min_eq_left (le_of_lt lower)
        have apart : ∀ T ∈ before, T.stop = Def -> T.value ≠ S.value := fun T early =>
          separate S first same lower T
            (whole ▸ mem_append_left _ (mem_reverse.mpr early))
        rcases definesDead_lower LR.allocator canonicalWhole left apart lower same with
          ⟨canonical', defines⟩
        refine ⟨S.value, { LR with
          segments := before.reverse ++ { S with start := Def } :: after
          info := Function.update LR.info S.value
            { LR.info S.value with defSlot := some Def } }, ?_, canonical', ?_, whole ▸ defines⟩
        · simp only [if_pos same, if_pos asserted, least, ne_eq, ne_of_lt lower,
            not_false_eq_true, if_true, Iterator.segments_mk]
        · intro T inside
          rcases mem_append.mp inside with early | late
          · exact values T (whole ▸ mem_append_left _ early)
          · rcases mem_cons.mp late with rfl | behind
            · exact values S mem
            · exact values T (whole ▸ mem_append_right _ (mem_cons_of_mem _ behind))
      · have least : min Def S.start = S.start := min_eq_right (Nat.le_of_not_lt lower)
        refine ⟨S.value, LR, ?_, canonical, values,
          definesDead_live LR.allocator asserts.1 mem
            ⟨Nat.le_of_not_lt lower, right S mem_cons_self⟩⟩
        simp only [if_pos same, if_pos asserted, least, ne_eq, not_true_eq_false, if_false]
    · rw [if_neg same] at asserted
      have beyond : SlotIndex.getDeadSlot Def < S.start := by
        have quot : Def / 4 < S.start / 4 := asserted
        have unfolded : SlotIndex.getDeadSlot Def = Def / 4 * 4 + 3 := rfl
        omega
      have allBeyond : ∀ T ∈ S :: after, SlotIndex.getDeadSlot Def < T.start := by
        have tail := (Canonical.append_iff.mp canonicalWhole).2.1
        refine forall_mem_cons.mpr ⟨beyond, fun T behind => ?_⟩
        have order := ((Canonical.cons_iff.mp tail).2.2 T behind).1
        exact beyond.trans ((canonical.nonempty S mem).trans_le order)
      have inserted : impl.insert ⟨before, S :: after⟩ dead = ⟨before, dead :: S :: after⟩ :=
        faithful.insert _ _ startBefore fun T behind =>
          (lt_getDeadSlot asserts.1).trans (allBeyond T behind)
      rcases definesDead_fresh asserts.1 canonicalWhole (whole ▸ values) left allBeyond with
        ⟨canonical', values', defines⟩
      refine ⟨LR.allocator, { (LR.getNextValue Def).2 with
        segments := before.reverse ++ dead :: S :: after }, ?_, canonical', values',
        whole ▸ defines⟩
      refine (if_neg same).trans ((if_pos asserted).trans ?_)
      exact congrArg (fun I : Iterator => some (LR.allocator,
        { (LR.getNextValue Def).2 with segments := I.segments })) inserted

/-- The containers define alike. -/
theorem createDeadDef_eq {impl' : CalcLiveRangeUtil} (faithful : Faithful impl)
    (faithful' : Faithful impl') (canonical : Canonical LR.segments) (Def : Nat) :
    LR.createDeadDef impl Def = LR.createDeadDef impl' Def := by
  rcases find_split canonical Def with ⟨before, after, whole, place, left, right⟩
  have atDef : ∀ impl, Faithful impl -> impl.find LR.segments Def = some ⟨before, after⟩ :=
    fun impl faithful => (faithful.find _ Def canonical).trans (congrArg some place)
  have startBefore : ∀ T ∈ before, T.start < Def := by
    intro T mem
    have inside : T ∈ LR.segments := whole ▸ mem_append_left _ (mem_reverse.mpr mem)
    exact (canonical.nonempty T inside).trans_le (left T mem)
  simp only [LiveRange.createDeadDef, atDef impl faithful, atDef impl' faithful', Option.bind_some]
  cases after with
  | nil =>
    rw [append_nil] at whole
    have early : ∀ T ∈ LR.segments, T.start < Def := fun T mem =>
      startBefore T (mem_reverse.mp (whole ▸ mem))
    let dead : Segment := ⟨Def, SlotIndex.getDeadSlot Def, (LR.getNextValue Def).1⟩
    rw [faithful.insertAtEnd LR.segments dead early, faithful'.insertAtEnd LR.segments dead early]
  | cons S after =>
    by_cases earlier : SlotIndex.isEarlierInstr Def S.start
    · have beyond : Def < S.start := by
        have quot : Def / 4 < S.start / 4 := earlier
        omega
      have allBeyond : ∀ T ∈ S :: after, Def < T.start := by
        rw [whole] at canonical
        have tail := (Canonical.append_iff.mp canonical).2.1
        rcases Canonical.cons_iff.mp tail with ⟨nonempty, _, later⟩
        refine forall_mem_cons.mpr ⟨beyond, fun T behind => ?_⟩
        exact beyond.trans (nonempty.trans_le (later T behind).1)
      let dead : Segment := ⟨Def, SlotIndex.getDeadSlot Def, (LR.getNextValue Def).1⟩
      have inserts : impl.insert ⟨before, S :: after⟩ dead =
          impl'.insert ⟨before, S :: after⟩ dead :=
        (faithful.insert _ dead startBefore allBeyond).trans
          (faithful'.insert _ dead startBefore allBeyond).symm
      simp only [dead] at inserts
      simp only [inserts]
    · simp only [if_neg earlier]

/-! ## Removing -/

/-- The span that is removed is inside one segment. -/
def Inside (segments : List Segment) (Start End : Nat) : Prop :=
  Start < End ∧ ∃ S ∈ segments, S.start <= Start ∧ End <= S.stop

def Removes (Start End : Nat) (map map' : SlotMap) : Prop :=
  ∀ x w, map' x w ↔ map x w ∧ ¬(Start <= x ∧ x < End)

theorem removes_parts {Start End : Nat} (parts : List Segment) (canonical : Canonical
    (before.reverse ++ S :: after)) (canonicalParts : Canonical parts) (within : ∀ T ∈ parts,
    S.start <= T.start ∧ T.stop <= S.stop ∧ T.value = S.value) (first : S.start <= Start)
    (last : End <=
    S.stop) (same : ∀ x w, At parts x w ↔ (S.Holds x ∧ S.value = w) ∧ ¬(Start <= x ∧ x < End)) :
    Canonical (before.reverse ++ (parts ++ after)) ∧
      Removes Start End (At (before.reverse ++ S :: after))
        (At (before.reverse ++ (parts ++ after))) := by
  refine ⟨canonical.parts canonicalParts within, fun x w => ?_⟩
  rcases Canonical.append_iff.mp canonical with ⟨_, tail, across⟩
  have outsideBefore : At before.reverse x w -> ¬(Start <= x ∧ x < End) := by
    rintro ⟨T, mem, inside, _⟩ span
    have order := (across T mem S mem_cons_self).1
    have stop := inside.2
    omega
  have outsideAfter : At after x w -> ¬(Start <= x ∧ x < End) := by
    rintro holds span
    have order := tail.stop_le holds
    omega
  rw [at_append, at_append, at_append, at_cons, same x w, or_and_right, or_and_right,
    and_iff_left_of_imp outsideBefore, and_iff_left_of_imp outsideAfter]

theorem canonical_singleton (nonempty : S.start < S.stop) : Canonical [S] :=
  Canonical.cons_iff.mpr ⟨nonempty, canonical_nil, nofun⟩

theorem markValNoForDeletion_segments (ValNo : VNInfoPtr) :
    (LR.markValNoForDeletion ValNo).segments = LR.segments := by
  rw [LiveRange.markValNoForDeletion]
  split <;> rfl

theorem markValNoForDeletion_allocator (ValNo : VNInfoPtr) :
    (LR.markValNoForDeletion ValNo).allocator = LR.allocator := by
  rw [LiveRange.markValNoForDeletion]
  split <;> rfl

theorem removeSegment_spec (canonical : Canonical LR.segments) {Start End : Nat}
    (inside : Inside LR.segments Start End) (RemoveDeadValNo : Bool) :
    ∃ LR', LR.removeSegment Start End RemoveDeadValNo = some LR' ∧ Canonical LR'.segments ∧
      LR'.allocator = LR.allocator ∧
      Removes Start End (At LR.segments) (At LR'.segments) := by
  rcases find_split canonical Start with ⟨before, after, whole, place, left, right⟩
  rcases inside with ⟨nonempty, T, mem, first, last⟩
  have atStart : (find LR.segments Start).map (Iterator.ofIndex LR.segments) =
      some ⟨before, after⟩ := (ofIndex_find canonical Start).trans (congrArg some place)
  rcases Option.map_eq_some_iff.mp atStart with ⟨i, found, iterator⟩
  rw [whole] at canonical mem
  -- The segment that has the span is the first one that ends after its start.
  have here : T ∈ after := by
    refine (mem_append.mp mem).resolve_left fun early => ?_
    have ends := left T (mem_reverse.mp early)
    omega
  cases after with
  | nil => cases here
  | cons S after =>
    have tail := (Canonical.append_iff.mp canonical).2.1
    have same : T = S := by
      refine (mem_cons.mp here).resolve_right fun behind => ?_
      have order := ((Canonical.cons_iff.mp tail).2.2 T behind).1
      have inTime := right S mem_cons_self
      omega
    subst same
    have contains : Start < End ∧ containsInterval T Start End := by
      have inTime := right T mem_cons_self
      exact ⟨nonempty, ⟨first, inTime⟩, first.trans_lt nonempty, last⟩
    have startEnd : T.start <= End := first.trans (le_of_lt nonempty)
    have startStop : Start <= T.stop := (le_of_lt nonempty).trans last
    simp only [LiveRange.removeSegment, found, Option.bind_some, iterator, if_pos contains]
    rw [whole]
    by_cases atFirst : T.start = Start
    · by_cases atLast : T.stop = End
      · have gone : ∀ x w, At ([] : List Segment) x w ↔
            (T.Holds x ∧ T.value = w) ∧ ¬(Start <= x ∧ x < End) := by
          intro x w
          refine iff_of_false not_at_nil ?_
          rintro ⟨⟨⟨start, stop⟩, _⟩, outside⟩
          exact outside ⟨atFirst ▸ start, atLast ▸ stop⟩
        rcases removes_parts [] canonical canonical_nil nofun first last gone with
          ⟨canonical', removes⟩
        refine ⟨_, (if_pos atFirst).trans (if_pos atLast), canonical', ?_, removes⟩
        split
        · exact markValNoForDeletion_allocator T.value
        · rfl
      · have shorter : End < T.stop := lt_of_le_of_ne last (Ne.symm atLast)
        have rest : ∀ x w, At [({ T with start := End } : Segment)] x w ↔
            (T.Holds x ∧ T.value = w) ∧ ¬(Start <= x ∧ x < End) := by
          intro x w
          rw [at_singleton]
          by_cases value : T.value = w
          · simp only [Interval.Holds, value, and_true]
            omega
          · simp only [value, and_false, false_and]
        rcases removes_parts [{ T with start := End }] canonical
          (canonical_singleton shorter)
          (forall_mem_singleton.mpr ⟨startEnd, le_refl _, rfl⟩) first last rest with
          ⟨canonical', removes⟩
        exact ⟨_, (if_pos atFirst).trans (if_neg atLast), canonical', rfl, removes⟩
    · have later : T.start < Start := lt_of_le_of_ne first atFirst
      by_cases atLast : T.stop = End
      · have rest : ∀ x w, At [({ T with stop := Start } : Segment)] x w ↔
            (T.Holds x ∧ T.value = w) ∧ ¬(Start <= x ∧ x < End) := by
          intro x w
          rw [at_singleton]
          by_cases value : T.value = w
          · simp only [Interval.Holds, value, and_true]
            omega
          · simp only [value, and_false, false_and]
        rcases removes_parts [{ T with stop := Start }] canonical
          (canonical_singleton later)
          (forall_mem_singleton.mpr ⟨le_refl _, startStop, rfl⟩) first last rest with
          ⟨canonical', removes⟩
        exact ⟨_, (if_neg atFirst).trans (if_pos atLast), canonical', rfl, removes⟩
      · have shorter : End < T.stop := lt_of_le_of_ne last (Ne.symm atLast)
        have canonicalParts :
            Canonical [({ T with stop := Start } : Segment), ⟨End, T.stop, T.value⟩] := by
          refine Canonical.cons_iff.mpr ⟨later, canonical_singleton shorter, ?_⟩
          exact forall_mem_singleton.mpr ⟨le_of_lt nonempty, fun same =>
            absurd same (ne_of_lt nonempty)⟩
        have rest : ∀ x w,
            At [({ T with stop := Start } : Segment), ⟨End, T.stop, T.value⟩] x w ↔
            (T.Holds x ∧ T.value = w) ∧ ¬(Start <= x ∧ x < End) := by
          intro x w
          rw [at_cons, at_singleton]
          by_cases value : T.value = w
          · simp only [Interval.Holds, value, and_true]
            omega
          · simp only [value, and_false, false_and, or_false]
        rcases removes_parts _ canonical canonicalParts
          (forall_mem_cons.mpr ⟨⟨le_refl _, startStop, rfl⟩,
            forall_mem_singleton.mpr ⟨startEnd, le_refl _, rfl⟩⟩) first last rest with
          ⟨canonical', removes⟩
        exact ⟨_, (if_neg atFirst).trans (if_neg atLast), canonical', rfl, removes⟩

theorem removeValNo_spec (canonical : Canonical LR.segments) (ValNo : VNInfoPtr) :
    Canonical (LR.removeValNo ValNo).segments ∧
      (LR.removeValNo ValNo).allocator = LR.allocator ∧
      ∀ x w, At (LR.removeValNo ValNo).segments x w ↔ At LR.segments x w ∧ w ≠ ValNo := by
  by_cases empty : LR.segments = []
  · have unchanged : LR.removeValNo ValNo = LR := if_pos empty
    rw [unchanged]
    refine ⟨canonical, rfl, fun x w => (and_iff_left_of_imp fun holds => ?_).symm⟩
    rw [empty] at holds
    exact absurd holds not_at_nil
  · rw [LiveRange.removeValNo, if_neg empty, markValNoForDeletion_segments,
      markValNoForDeletion_allocator]
    refine ⟨canonical.sublist filter_sublist, rfl, fun x w => ?_⟩
    constructor
    · rintro ⟨S, mem, inside, rfl⟩
      rcases mem_filter.mp mem with ⟨before, other⟩
      exact ⟨⟨S, before, inside, rfl⟩, of_decide_eq_true other⟩
    · rintro ⟨⟨S, mem, inside, rfl⟩, other⟩
      exact ⟨S, mem_filter.mpr ⟨mem, decide_eq_true other⟩, inside, rfl⟩

/-! ## Merging values -/

def rename (V1 V2 : VNInfoPtr) (S : Segment) : Segment :=
  { S with value := if S.value = V1 then V2 else S.value }

theorem at_rename {segments : List Segment} {x : Nat} {w : VNInfoPtr} :
    At (segments.map (rename V1 V2)) x w ↔ ∃ u, At segments x u ∧ w = if u = V1 then V2 else u := by
  constructor
  · rintro ⟨_, mem, inside, rfl⟩
    rcases mem_map.mp mem with ⟨S, before, rfl⟩
    exact ⟨S.value, ⟨S, before, inside, rfl⟩, rfl⟩
  · rintro ⟨u, ⟨S, mem, inside, rfl⟩, rfl⟩
    exact ⟨rename V1 V2 S, mem_map_of_mem mem, inside, rfl⟩

theorem rename_other (other : S.value ≠ V1) : rename V1 V2 S = S := by
  rw [rename, if_neg other]

/-- The segment with the new value, joined to the one before it, is apart from those before. -/
theorem mergePrevious_spec (V2 : VNInfoPtr) (canonical : Canonical (before.reverse ++ S :: after))
    (value : S.value = V1) (done : ∀ T ∈ before, T.value ≠ V1) :
    ∃ taken, before = taken ++ (LiveRange.mergePrevious V2 before S).1 ∧
      (LiveRange.mergePrevious V2 before S).2.value = V2 ∧
      (LiveRange.mergePrevious V2 before S).2.stop = S.stop ∧
      (LiveRange.mergePrevious V2 before S).2.start <= S.start ∧
      (∀ T ∈ (LiveRange.mergePrevious V2 before S).1,
        Before T (LiveRange.mergePrevious V2 before S).2) ∧
      ∀ x w, At [(LiveRange.mergePrevious V2 before S).2] x w ↔
        At ((taken.reverse ++ [S]).map (rename V1 V2)) x w := by
  have renamed : rename V1 V2 S = { S with value := V2 } := by
    rw [rename, if_pos value]
  have nonempty := canonical.nonempty S (mem_append_right _ mem_cons_self)
  cases before with
  | nil =>
    refine ⟨[], rfl, rfl, rfl, le_refl _, nofun, fun x w => ?_⟩
    rw [reverse_nil, nil_append, map_singleton, renamed]
    exact Iff.rfl
  | cons Prev others =>
    rw [reverse_cons, append_assoc, singleton_append] at canonical
    rcases Canonical.append_iff.mp canonical with ⟨_, tail, across⟩
    rcases Canonical.cons_iff.mp tail with ⟨nonemptyPrev, _, later⟩
    have order : Prev.stop <= S.start := (later S mem_cons_self).1
    by_cases touches : Prev.value = V2 ∧ Prev.stop = S.start
    · rw [LiveRange.mergePrevious, if_pos touches]
      refine ⟨[Prev], rfl, touches.1, rfl, (le_of_lt nonemptyPrev).trans order,
        fun T mem => ?_, fun x w => ?_⟩
      · exact across T (mem_reverse.mpr mem) Prev mem_cons_self
      · have other : Prev.value ≠ V1 := done Prev mem_cons_self
        have list : ([Prev].reverse ++ [S]).map (rename V1 V2) =
            [Prev, { S with value := V2 }] := by
          rw [reverse_singleton, singleton_append, List.map_cons, map_singleton,
            rename_other other, renamed]
        rw [list]
        exact at_join (s := { S with value := V2 }) touches.2 touches.1
          (le_of_lt nonemptyPrev) (le_of_lt nonempty)
    · rw [LiveRange.mergePrevious, if_neg touches]
      refine ⟨[], rfl, rfl, rfl, le_refl _, fun T mem => ?_, fun x w => ?_⟩
      · have first : Before Prev { S with value := V2 } :=
          ⟨order, fun same equal => touches ⟨equal, same⟩⟩
        have canonicalBefore : Canonical (others.reverse ++ [Prev]) := by
          have split : others.reverse ++ Prev :: S :: after =
              (others.reverse ++ [Prev]) ++ S :: after := by
            rw [append_assoc, singleton_append]
          rw [split] at canonical
          exact (Canonical.append_iff.mp canonical).1
        apply canonicalBefore.all_before first
        rw [<- reverse_cons]
        exact mem_reverse.mpr mem
      · rw [reverse_nil, nil_append, map_singleton, renamed]

theorem mergeStep {others taken : List Segment} {M : Segment} (joined later : List Segment)
    (distinct : V1 ≠ V2) (canonical : Canonical ((taken ++ others).reverse ++ S :: (joined ++
    later))) (done : ∀ T ∈ taken ++ others, T.value ≠ V1) (value : M.value = V2) (nonempty : M.start
    < M.stop) (left : ∀ T ∈ others, Before T M) (right : ∀ T ∈ later, Before M T) (same : ∀ x w, At
    [M] x w ↔ At ((taken.reverse ++ S :: joined).map (rename V1 V2)) x w) :
    Canonical ((M :: others).reverse ++ later) ∧ (∀ T ∈ M :: others, T.value ≠ V1) ∧
      ∀ x w, At (((M :: others).reverse ++ later).map (rename V1 V2)) x w ↔
        At (((taken ++ others).reverse ++ S :: (joined ++ later)).map (rename V1 V2)) x w := by
  have split : (taken ++ others).reverse ++ S :: (joined ++ later) =
      others.reverse ++ ((taken.reverse ++ S :: joined) ++ later) := by
    simp only [reverse_append, append_assoc, cons_append]
  have merged : (M :: others).reverse ++ later = others.reverse ++ M :: later := by
    rw [reverse_cons, append_assoc, singleton_append]
  have other : M.value ≠ V1 := fun equal => distinct (equal.symm.trans value)
  rw [split] at canonical ⊢
  rw [merged]
  refine ⟨?_, forall_mem_cons.mpr ⟨other, fun T mem =>
    done T (mem_append_right _ mem)⟩, fun x w => ?_⟩
  · exact Canonical.replace _ canonical nonempty
      (fun T mem => left T (mem_reverse.mp mem)) right
  · have one : M :: later = [M] ++ later := rfl
    rw [one, map_append, map_append, map_append, map_append, at_append,
      at_append, at_append, at_append, <- same x w, map_singleton, rename_other other]

/-- The walk merges the values, and what it has passed stays as it is. -/
theorem mergeLoop_spec (distinct : V1 ≠ V2) (before rest : List Segment)
    (canonical : Canonical (before.reverse ++ rest)) (done : ∀ T ∈ before, T.value ≠ V1) :
    Canonical (LiveRange.mergeLoop V1 V2 before rest) ∧
      ∀ x w, At (LiveRange.mergeLoop V1 V2 before rest) x w ↔
        At ((before.reverse ++ rest).map (rename V1 V2)) x w := by
  fun_induction LiveRange.mergeLoop V1 V2 before rest with
  | case1 before =>
    rw [append_nil] at canonical ⊢
    refine ⟨canonical, fun x w => ?_⟩
    have same : before.reverse.map (rename V1 V2) = before.reverse.map id :=
      map_congr_left fun T mem => rename_other (done T (mem_reverse.mp mem))
    rw [same, map_id]
  | case2 before S rest other ih =>
    rw [reverse_cons, append_assoc, singleton_append] at ih
    exact ih canonical (forall_mem_cons.mpr ⟨other, done⟩)
  | case3 before S isV1 merged ih =>
    have facts := mergePrevious_spec V2 canonical (not_not.mp isV1) done
    rw [show LiveRange.mergePrevious V2 before S = merged from rfl] at facts
    clear_value merged
    rcases facts with ⟨taken, rfl, value, stop, start, left, same⟩
    have nonempty : merged.2.start < merged.2.stop := by
      rw [stop]
      exact start.trans_lt (canonical.nonempty S (mem_append_right _ mem_cons_self))
    rcases mergeStep [] [] distinct canonical done value nonempty left nofun same with
      ⟨canonical', done', renamed⟩
    rcases ih canonical' done' with ⟨last, equal⟩
    exact ⟨last, fun x w => (equal x w).trans (renamed x w)⟩
  | case4 before S isV1 merged next later touches ih =>
    have facts := mergePrevious_spec V2 canonical (not_not.mp isV1) done
    rw [show LiveRange.mergePrevious V2 before S = merged from rfl] at facts
    clear_value merged
    rcases facts with ⟨taken, rfl, value, stop, start, left, same⟩
    have nonemptyS := canonical.nonempty S (mem_append_right _ mem_cons_self)
    rcases Canonical.cons_iff.mp (Canonical.append_iff.mp canonical).2.1 with ⟨_, tail, _⟩
    rcases Canonical.cons_iff.mp tail with ⟨nonemptyNext, _, right⟩
    let M : Segment := { merged.2 with stop := next.stop }
    have valueM : M.value = V2 := value
    have nonempty : M.start < M.stop :=
      (start.trans_lt nonemptyS).trans ((stop.symm.trans touches.1.symm).le.trans_lt nonemptyNext)
    have whole : ∀ x w, At [M] x w ↔
        At ((taken.reverse ++ S :: [next]).map (rename V1 V2)) x w := by
      intro x w
      have other : next.value ≠ V1 := fun equal => distinct (equal.symm.trans touches.2)
      have list : (taken.reverse ++ S :: [next]).map (rename V1 V2) =
          (taken.reverse ++ [S]).map (rename V1 V2) ++ [next] := by
        simp only [map_append, List.map_cons, map_nil, rename_other other,
          append_assoc, cons_append, nil_append]
      rw [list, at_append, <- same x w, <- at_append]
      exact at_join touches.1.symm (value.trans touches.2.symm)
        (start.trans (le_of_lt (stop ▸ nonemptyS))) (le_of_lt nonemptyNext)
    have beyond : ∀ T ∈ later, Before M T := by
      intro T mem
      rcases right T mem with ⟨order, differ⟩
      exact ⟨order, fun same => value.trans touches.2.symm ▸ differ same⟩
    rcases mergeStep [next] later distinct canonical done valueM nonempty left beyond whole with
      ⟨canonical', done', renamed⟩
    rcases ih canonical' done' with ⟨last, equal⟩
    exact ⟨last, fun x w => (equal x w).trans (renamed x w)⟩
  | case5 before S isV1 merged next later apart ih =>
    have facts := mergePrevious_spec V2 canonical (not_not.mp isV1) done
    rw [show LiveRange.mergePrevious V2 before S = merged from rfl] at facts
    clear_value merged
    rcases facts with ⟨taken, rfl, value, stop, start, left, same⟩
    have nonempty : merged.2.start < merged.2.stop := by
      rw [stop]
      exact start.trans_lt (canonical.nonempty S (mem_append_right _ mem_cons_self))
    rcases Canonical.cons_iff.mp (Canonical.append_iff.mp canonical).2.1 with ⟨_, tail, beyond⟩
    have first : Before merged.2 next := by
      refine ⟨stop ▸ (beyond next mem_cons_self).1, fun touches equal => ?_⟩
      exact apart ⟨touches.symm, equal.symm.trans value⟩
    rcases mergeStep [] _ distinct canonical done value nonempty left
      (tail.before_all first) same with ⟨canonical', done', renamed⟩
    rcases ih canonical' done' with ⟨last, equal⟩
    exact ⟨last, fun x w => (equal x w).trans (renamed x w)⟩

/-- One of the two values stays, and has the points of both. -/
def Merges (V1 V2 : VNInfoPtr) (map : SlotMap) (result : VNInfoPtr) (map' : SlotMap) : Prop :=
  (result = V1 ∨ result = V2) ∧
    ∀ x w, map' x w ↔ ∃ u, map x u ∧ w = if u = V1 ∨ u = V2 then result else u

theorem MergeValueNumberInto_spec (canonical : Canonical LR.segments) (distinct : V1 ≠ V2) :
    ∃ result LR', LR.MergeValueNumberInto V1 V2 = some (result, LR') ∧ Canonical LR'.segments ∧
      LR'.allocator = LR.allocator ∧ Merges V1 V2 (At LR.segments) result (At LR'.segments) := by
  let swap := (LR.info V1).id < (LR.info V2).id
  refine ⟨if swap then V1 else V2, _, if_neg distinct, ?_⟩
  rw [markValNoForDeletion_segments, markValNoForDeletion_allocator]
  by_cases smaller : swap
  · rw [if_pos smaller, if_pos smaller]
    rcases mergeLoop_spec distinct.symm [] LR.segments canonical nofun with ⟨last, same⟩
    refine ⟨last, rfl, .inl rfl, fun x w => ?_⟩
    rw [same x w, reverse_nil, nil_append, at_rename]
    refine exists_congr fun u => and_congr_right fun _ => ?_
    by_cases first : u = V1
    · rw [first, if_neg distinct, if_pos (.inl rfl)]
    · simp only [first, false_or]
  · rw [if_neg smaller, if_neg smaller]
    rcases mergeLoop_spec distinct [] LR.segments canonical nofun with ⟨last, same⟩
    refine ⟨last, rfl, .inr rfl, fun x w => ?_⟩
    rw [same x w, reverse_nil, nil_append, at_rename]
    refine exists_congr fun u => and_congr_right fun _ => ?_
    by_cases second : u = V2
    · rw [second, if_neg distinct.symm, if_pos (.inr rfl)]
    · simp only [second, or_false]

/-! ## Operations -/

inductive Operation where
  | getNextValue (defSlot : Nat)
  | addSegment (S : Segment)
  | extendInBlock (StartIdx Use : Nat)
  | createDeadDef (Def : Nat)
  | removeSegment (Start End : Nat) (RemoveDeadValNo : Bool)
  | removeValNo (ValNo : VNInfoPtr)
  | MergeValueNumberInto (V1 V2 : VNInfoPtr)

/-- The value number that the operation returns, if any, and the range after it. -/
def execute (LR : LiveRange) : Operation -> Option (Option VNInfoPtr × LiveRange)
  | .getNextValue defSlot => some (some (LR.getNextValue defSlot).1, (LR.getNextValue defSlot).2)
  | .addSegment S => (addSegment CalcLiveRangeUtilVector LR.segments S).map fun I =>
    (none, { LR with segments := I.segments })
  | .extendInBlock StartIdx Use =>
    (extendInBlock CalcLiveRangeUtilVector LR.segments StartIdx Use).map fun extended =>
      (some extended.1, { LR with segments := extended.2 })
  | .createDeadDef Def =>
    (LR.createDeadDef CalcLiveRangeUtilVector Def).map fun defined => (some defined.1, defined.2)
  | .removeSegment Start End RemoveDeadValNo =>
    (LR.removeSegment Start End RemoveDeadValNo).map fun LR => (none, LR)
  | .removeValNo ValNo => some (none, LR.removeValNo ValNo)
  | .MergeValueNumberInto V1 V2 =>
    (LR.MergeValueNumberInto V1 V2).map fun merged => (some merged.1, merged.2)

/-- A segment has a value number that exists and does not overlap another one, the spans that
are removed are inside a segment, and the assertions hold. -/
def Allowed (LR : LiveRange) : Operation -> Prop
  | .getNextValue _ => True
  | .addSegment S => Fits LR.segments S ∧ S.value < LR.allocator
  | .extendInBlock _ Use => 0 < Use
  | .createDeadDef Def => Asserts LR Def
  | .removeSegment Start End _ => Inside LR.segments Start End
  | .removeValNo _ => True
  | .MergeValueNumberInto V1 V2 => V1 ≠ V2 ∧ V1 < LR.allocator ∧ V2 < LR.allocator

/-- A definition that moves down does not touch its own value. -/
def Coalesces (LR : LiveRange) : Operation -> Prop
  | .createDeadDef Def => Separate LR Def
  | _ => True

/-- What an operation does to the map from slots to values. -/
def Updates (LR : LiveRange) (map : SlotMap) (result : Option VNInfoPtr) (map' : SlotMap) :
    Operation -> Prop
  | .getNextValue _ => result = some LR.allocator ∧ (∀ x, ¬map x LR.allocator) ∧ map' = map
  | .addSegment S => ∀ x w, map' x w ↔ map x w ∨ w = S.value ∧ S.Holds x
  | .extendInBlock StartIdx Use =>
    ∃ value, result = some value ∧ ExtendsInBlock StartIdx Use map value map'
  | .createDeadDef Def =>
    ∃ value, result = some value ∧ (∀ x, ¬map x LR.allocator) ∧
      DefinesDead Def LR.allocator map value map'
  | .removeSegment Start End _ => Removes Start End map map'
  | .removeValNo ValNo => ∀ x w, map' x w ↔ map x w ∧ w ≠ ValNo
  | .MergeValueNumberInto V1 V2 => ∃ value, result = some value ∧ Merges V1 V2 map value map'

def LiveRange.empty : LiveRange := ⟨[], [], fun _ => ⟨0, none⟩, 1⟩

/-- The ranges after runs in which no definition moves down to its own value. -/
inductive Reachable : LiveRange -> Prop
  | start : Reachable LiveRange.empty
  | step {LR LR' : LiveRange} {op : Operation} {result : Option VNInfoPtr}
      (reachable : Reachable LR) (allowed : Allowed LR op)
      (coalesces : Coalesces LR op)
      (executed : execute LR op = some (result, LR')) : Reachable LR'

structure Valid (LR : LiveRange) : Prop where
  canonical : Canonical LR.segments
  values : ∀ S ∈ LR.segments, S.value < LR.allocator

/-- The values in the list are those in the map. -/
theorem Valid.of_at (canonical : Canonical LR.segments)
    (values : ∀ x w, At LR.segments x w -> w < LR.allocator) : Valid LR :=
  ⟨canonical, fun S mem =>
    values S.start S.value ⟨S, mem, ⟨le_refl _, canonical.nonempty S mem⟩, rfl⟩⟩

theorem Valid.at_lt (valid : Valid LR) {x : Nat} {w : VNInfoPtr} (holds : At LR.segments x w) :
    w < LR.allocator := by
  rcases holds with ⟨S, mem, _, rfl⟩
  exact valid.values S mem

theorem Valid.fresh (valid : Valid LR) (x : Nat) : ¬At LR.segments x LR.allocator :=
  fun holds => lt_irrefl _ (valid.at_lt holds)

/-- One operation updates the map and keeps the list in canonical form. -/
theorem Valid.step {op : Operation} (valid : Valid LR) (allowed : Allowed LR op)
    (coalesces : Coalesces LR op) :
    ∃ result LR', execute LR op = some (result, LR') ∧ Valid LR' ∧
      Updates LR (At LR.segments) result (At LR'.segments) op := by
  cases op with
  | getNextValue defSlot =>
    refine ⟨_, _, rfl, ⟨valid.canonical, fun S mem => ?_⟩, rfl, valid.fresh, rfl⟩
    exact Nat.lt_succ_of_lt (valid.values S mem)
  | addSegment S =>
    rcases addSegment_spec faithful_vector valid.canonical allowed.1 with
      ⟨I, ran, ⟨canonical, same⟩, _⟩
    refine ⟨none, { LR with segments := I.segments }, ?_, ?_, same⟩
    · rw [execute, ran]
      rfl
    · refine Valid.of_at canonical fun x w holds => ?_
      rcases (same x w).mp holds with before | ⟨rfl, _⟩
      · exact valid.at_lt before
      · exact allowed.2
  | extendInBlock StartIdx Use =>
    rcases extendInBlock_spec faithful_vector valid.canonical StartIdx allowed with
      ⟨value, segments, ran, canonical, extends'⟩
    refine ⟨some value, { LR with segments := segments }, ?_, ?_, value, rfl, extends'⟩
    · rw [execute, ran]
      rfl
    · refine Valid.of_at canonical fun x w holds => ?_
      rcases extends' with ⟨p, live, same⟩ | ⟨_, _, same⟩
      · rcases (same x w).mp holds with before | ⟨rfl, _⟩
        · exact valid.at_lt before
        · exact valid.at_lt live.1
      · rw [same] at holds
        exact valid.at_lt holds
  | createDeadDef Def =>
    rcases createDeadDef_spec faithful_vector valid.canonical valid.values allowed coalesces with
      ⟨value, after, ran, canonical, values, defines⟩
    refine ⟨some value, after, ?_, ⟨canonical, values⟩, value, rfl, valid.fresh, defines⟩
    rw [execute, ran]
    rfl
  | removeSegment Start End RemoveDeadValNo =>
    rcases removeSegment_spec valid.canonical allowed RemoveDeadValNo with
      ⟨after, ran, canonical, allocator, removes⟩
    refine ⟨none, after, ?_, ?_, removes⟩
    · rw [execute, ran]
      rfl
    · refine Valid.of_at canonical fun x w holds => ?_
      rw [allocator]
      exact valid.at_lt ((removes x w).mp holds).1
  | removeValNo ValNo =>
    rcases removeValNo_spec valid.canonical ValNo with ⟨canonical, allocator, removes⟩
    refine ⟨none, _, rfl, Valid.of_at canonical fun x w holds => ?_, removes⟩
    rw [allocator]
    exact valid.at_lt ((removes x w).mp holds).1
  | MergeValueNumberInto V1 V2 =>
    rcases MergeValueNumberInto_spec valid.canonical allowed.1 with
      ⟨value, after, ran, canonical, allocator, merges⟩
    refine ⟨some value, after, ?_, ?_, value, rfl, merges⟩
    · rw [execute, ran]
      rfl
    · refine Valid.of_at canonical fun x w holds => ?_
      rw [allocator]
      rcases (merges.2 x w).mp holds with ⟨u, before, rfl⟩
      split
      · rcases merges.1 with rfl | rfl
        · exact allowed.2.1
        · exact allowed.2.2
      · exact valid.at_lt before

theorem Reachable.valid (reachable : Reachable LR) : Valid LR := by
  induction reachable with
  | start => exact ⟨canonical_nil, nofun⟩
  | step _ allowed coalesces executed ih =>
    rcases ih.step allowed coalesces with ⟨result, after, ran, valid, _⟩
    have same := Option.some.inj (executed.symm.trans ran)
    exact (Prod.mk.inj same).2 ▸ valid

/-- In every range of a run the list is in canonical form, and every operation that is allowed
updates the map as it should.  The set and the vector give the same results. -/
theorem Reachable.refines_ranges (reachable : Reachable LR) :
    Canonical LR.segments ∧
    (∀ op, Allowed LR op -> Coalesces LR op ->
      ∃ result LR', execute LR op = some (result, LR') ∧ Canonical LR'.segments ∧
        Updates LR (At LR.segments) result (At LR'.segments) op) ∧
    (∀ S, Fits LR.segments S -> addSegment CalcLiveRangeUtilSet LR.segments S =
      addSegment CalcLiveRangeUtilVector LR.segments S) ∧
    (∀ StartIdx Use, extendInBlock CalcLiveRangeUtilSet LR.segments StartIdx Use =
      extendInBlock CalcLiveRangeUtilVector LR.segments StartIdx Use) ∧
    (∀ Def, LR.createDeadDef CalcLiveRangeUtilSet Def =
      LR.createDeadDef CalcLiveRangeUtilVector Def) ∧
    ∀ Pos, CalcLiveRangeUtilSet.find LR.segments Pos =
      CalcLiveRangeUtilVector.find LR.segments Pos := by
  have valid := reachable.valid
  refine ⟨valid.canonical, fun op allowed coalesces => ?_, fun S fits => ?_,
    fun StartIdx Use => ?_, fun Def => ?_, fun Pos => ?_⟩
  · rcases valid.step allowed coalesces with ⟨result, after, ran, valid', updates⟩
    exact ⟨result, after, ran, valid'.canonical, updates⟩
  · exact addSegment_eq faithful_set faithful_vector valid.canonical fits
  · exact extendInBlock_eq faithful_set faithful_vector valid.canonical StartIdx Use
  · exact createDeadDef_eq faithful_set faithful_vector valid.canonical Def
  · exact (set_find valid.canonical Pos).trans (ofIndex_find valid.canonical Pos).symm

/-! ## A definition that moves down to its own value -/

/-- A value that is defined at the register slot of an instruction, and live up to the slot
before. -/
def twoSegments : LiveRange where
  segments := [⟨8, 21, 1⟩, ⟨22, 40, 1⟩]
  valnos := [1]
  info := Function.update LiveRange.empty.info 1 ⟨0, some 22⟩
  allocator := 2

theorem twoSegments_reachable : Reachable twoSegments := by
  let defined : LiveRange := (LiveRange.empty.getNextValue 22).2
  let one : LiveRange := { defined with segments := [⟨8, 21, 1⟩] }
  have define : execute LiveRange.empty (.getNextValue 22) = some (some 1, defined) := rfl
  have addFirst : execute defined (.addSegment ⟨8, 21, 1⟩) = some (none, one) := rfl
  have addSecond : execute one (.addSegment ⟨22, 40, 1⟩) = some (none, twoSegments) := rfl
  have allowedFirst : Allowed defined (.addSegment ⟨8, 21, 1⟩) :=
    ⟨⟨by decide, fun _ _ _ holds => absurd holds not_at_nil⟩, by decide⟩
  have allowedSecond : Allowed one (.addSegment ⟨22, 40, 1⟩) := by
    refine ⟨⟨by decide, fun x w _ holds => ?_⟩, by decide⟩
    exact (at_singleton.mp holds).2.symm
  have reachedDefined : Reachable defined := .step .start (by trivial) (by trivial) define
  have reachedOne : Reachable one := .step reachedDefined allowedFirst (by trivial) addFirst
  exact .step reachedOne allowedSecond (by trivial) addSecond

/-- The list of two segments of a value. -/
theorem refines_two : Canonical twoSegments.segments ∧
    ∃ result LR', execute twoSegments (.removeValNo 1) = some (result, LR') ∧
      ∀ x w, At LR'.segments x w ↔ At twoSegments.segments x w ∧ w ≠ 1 := by
  rcases twoSegments_reachable.refines_ranges with ⟨canonical, updates, _⟩
  rcases updates (.removeValNo 1) trivial trivial with ⟨result, LR', ran, _, removes⟩
  exact ⟨canonical, result, LR', ran, removes⟩

/-- An early-clobber definition lets the segments touch. -/
theorem createDeadDef_touches : ∃ LR', Reachable twoSegments ∧
    Allowed twoSegments (.createDeadDef 21) ∧
    execute twoSegments (.createDeadDef 21) = some (some 1, LR') ∧ ¬Canonical LR'.segments := by
  refine ⟨_, twoSegments_reachable, ⟨by decide, fun S first => ?_⟩, rfl, fun canonical => ?_⟩
  · cases Option.some.inj (first : some ⟨22, 40, 1⟩ = some S)
    decide
  · have touching : Before ⟨8, 21, 1⟩ ⟨21, 40, 1⟩ :=
      (Canonical.cons_iff.mp canonical).2.2 _ mem_cons_self
    exact touching.2 rfl rfl

end LiveInterval
end LlvmProject
