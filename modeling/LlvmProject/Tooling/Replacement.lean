import LlvmProject.Library.StableSort
import Mathlib.Algebra.Group.Nat.Defs
import Mathlib.Data.Prod.Lex

namespace LlvmProject

open List

namespace Tooling

/-!
# Conflicts between replacements

`deduplicate` sorts replacements of one file, removes those that occur twice, and sweeps
over the others with the hull of a group of overlapping ones.  The path of the file is not
looked at and left out.  A group is given by the index of its first replacement and the
number of its replacements.
-/

structure Range where
  Offset : UInt32
  Length : UInt32

def Range.overlapsWith (range RHS : Range) : Bool :=
  range.Offset + range.Length > RHS.Offset && range.Offset < RHS.Offset + RHS.Length

/-- The conflicted range with another range that begins later. -/
def Range.extend (ConflictRange Current : Range) : Range :=
  let Length := Current.Offset + Current.Length - ConflictRange.Offset
  ⟨ConflictRange.Offset, if ConflictRange.Length < Length then Length else ConflictRange.Length⟩

/-- `Text` are the strings, in their order. -/
structure Replacement (Text : Type*) extends Range where
  ReplacementText : Text

variable {Text : Type*} [LinearOrder Text]

def LessNoPath (LHS RHS : Replacement Text) : Bool :=
  if LHS.Offset ≠ RHS.Offset then LHS.Offset < RHS.Offset
  else if LHS.Length ≠ RHS.Length then LHS.Length < RHS.Length
  else LHS.ReplacementText < RHS.ReplacementText

def EqualNoPath (LHS RHS : Replacement Text) : Bool :=
  LHS.Offset = RHS.Offset && LHS.Length = RHS.Length && LHS.ReplacementText = RHS.ReplacementText

/-- `std::unique` after a replacement that is kept. -/
def uniqueAfter (kept : Replacement Text) : List (Replacement Text) -> List (Replacement Text)
  | [] => []
  | next :: rest =>
    if EqualNoPath kept next then uniqueAfter kept rest else next :: uniqueAfter next rest

def unique : List (Replacement Text) -> List (Replacement Text)
  | [] => []
  | first :: rest => first :: uniqueAfter first rest

/-- The loop over the replacements from the index `i` on. -/
def detect (ConflictRange : Range) (ConflictStart ConflictLength i : Nat) :
    List (Replacement Text) -> List (Nat × Nat)
  | [] => if ConflictLength > 1 then [(ConflictStart, ConflictLength)] else []
  | Current :: rest =>
    if ConflictRange.overlapsWith Current.toRange then
      detect (ConflictRange.extend Current.toRange) ConflictStart (ConflictLength + 1) (i + 1) rest
    else (if ConflictLength > 1 then [(ConflictStart, ConflictLength)] else []) ++
      detect Current.toRange i 1 (i + 1) rest

/-- The replacements, and the conflicts. -/
def deduplicate (Replaces : List (Replacement Text)) :
    List (Replacement Text) × List (Nat × Nat) :=
  match unique (stable_sort LessNoPath Replaces) with
  | [] => ([], [])
  | front :: rest => (front :: rest, detect front.toRange 0 1 1 rest)

/-! ## Sorting -/

def key (r : Replacement Text) : Nat ×ₗ Nat ×ₗ Text :=
  toLex (r.Offset.toNat, toLex (r.Length.toNat, r.ReplacementText))

theorem lessNoPath_iff (LHS RHS : Replacement Text) :
    LessNoPath LHS RHS = true ↔ key LHS < key RHS := by
  rw [key, key, Prod.Lex.toLex_lt_toLex, Prod.Lex.toLex_lt_toLex]
  by_cases offset : LHS.Offset = RHS.Offset <;> by_cases length : LHS.Length = RHS.Length <;>
    simp [LessNoPath, offset, length, UInt32.lt_iff_toNat_lt, UInt32.toNat_inj]

theorem equalNoPath_iff (LHS RHS : Replacement Text) : EqualNoPath LHS RHS = true ↔ LHS = RHS := by
  rcases LHS with ⟨⟨offset, length⟩, text⟩
  rcases RHS with ⟨⟨offset', length'⟩, text'⟩
  simp [EqualNoPath, and_assoc]

omit [LinearOrder Text] in
theorem key_injective (LHS RHS : Replacement Text) (same : key LHS = key RHS) : LHS = RHS := by
  rcases LHS with ⟨⟨offset, length⟩, text⟩
  rcases RHS with ⟨⟨offset', length'⟩, text'⟩
  simpa [key, UInt32.toNat_inj, and_assoc] using same

theorem uniqueAfter_spec (kept : Replacement Text) {rest : List (Replacement Text)}
    (sorted : (kept :: rest).Pairwise fun x y => key x <= key y) :
    (kept :: uniqueAfter kept rest).Pairwise (fun x y => key x < key y) ∧
      ∀ r, r ∈ kept :: uniqueAfter kept rest ↔ r ∈ kept :: rest := by
  induction rest generalizing kept with
  | nil => simp [uniqueAfter]
  | cons next rest ih =>
    rcases pairwise_cons.mp sorted with ⟨least, sortedRest⟩
    rw [uniqueAfter]
    by_cases same : EqualNoPath kept next = true
    · rw [if_pos same]
      rw [equalNoPath_iff] at same
      subst same
      rcases ih kept sortedRest with ⟨ordered, members⟩
      refine ⟨ordered, fun r => ?_⟩
      rw [members]
      simp
    · rcases ih next sortedRest with ⟨ordered, members⟩
      rw [if_neg same]
      rw [equalNoPath_iff] at same
      have less : key kept < key next :=
        lt_of_le_of_ne (least next mem_cons_self) fun eq => same (key_injective _ _ eq)
      refine ⟨pairwise_cons.mpr ⟨fun r mem => ?_, ordered⟩, fun r => ?_⟩
      · rcases mem_cons.mp mem with rfl | later
        · exact less
        · exact less.trans ((pairwise_cons.mp ordered).1 r later)
      · rw [mem_cons, members, <- mem_cons]

/-! ## Conflicts -/

/-- The end, if it does not wrap around. -/
def Range.stop (range : Range) : Nat := range.Offset.toNat + range.Length.toNat

theorem Range.overlapsWith_iff {range RHS : Range} (fits : range.stop < 2 ^ 32)
    (fitsRHS : RHS.stop < 2 ^ 32) : range.overlapsWith RHS = true ↔
      RHS.Offset.toNat < range.stop ∧ range.Offset.toNat < RHS.stop := by
  rw [stop] at fits fitsRHS
  simp only [overlapsWith, Bool.and_eq_true, decide_eq_true_eq, gt_iff_lt, UInt32.lt_iff_toNat_lt,
    UInt32.toNat_add, Nat.mod_eq_of_lt fits, Nat.mod_eq_of_lt fitsRHS, stop]

theorem Range.stop_extend {range Current : Range} (fits : Current.stop < 2 ^ 32)
    (later : range.Offset.toNat <= Current.Offset.toNat) :
    (range.extend Current).stop = max range.stop Current.stop := by
  rw [stop] at fits
  have sum : (Current.Offset + Current.Length).toNat = Current.stop := by
    rw [UInt32.toNat_add, Nat.mod_eq_of_lt fits, stop]
  have after : range.Offset <= Current.Offset + Current.Length := by
    rw [UInt32.le_iff_toNat_le, sum, stop]
    omega
  have size := UInt32.toNat_sub_of_le _ _ after
  rw [UInt32.le_iff_toNat_le] at after
  simp only [stop, extend] at *
  split <;> rename_i less <;> rw [UInt32.lt_iff_toNat_lt] at less <;> omega

/-- The replacement overlaps the hull of the entries. -/
def OverlapsHull (entries : List (Replacement Text)) (r : Replacement Text) : Prop :=
  (∃ entry ∈ entries, entry.Offset.toNat < r.stop) ∧ ∃ entry ∈ entries, r.Offset.toNat < entry.stop

/-- What the conflicts among the replacements from an index on are to be. -/
structure Grouped (start : Nat) (all : List (Replacement Text)) (Conflicts : List (Nat × Nat)) :
    Prop where
  increasing : Conflicts.Pairwise fun c d => c.1 + c.2 <= d.1
  sizes : ∀ c ∈ Conflicts, start <= c.1 ∧ 2 <= c.2 ∧ c.1 + c.2 <= all.length
  common : ∀ i j first second, start <= i -> i < j -> all[i]? = some first ->
    all[j]? = some second -> first.overlapsWith second.toRange = true ->
    ∃ c ∈ Conflicts, c.1 <= i ∧ j < c.1 + c.2
  overlaps : ∀ c ∈ Conflicts, ∀ k r, c.1 < k -> k < c.1 + c.2 -> all[k]? = some r ->
    OverlapsHull ((all.drop c.1).take (k - c.1)) r

/-- The state of the sweep: the group that is open has the replacements from `start` on,
and `hull` is theirs. -/
structure Open (all group rest : List (Replacement Text)) (hull : Range) (start : Nat) :
    Prop where
  whole : all.drop start = group ++ rest
  begins : ∃ entry ∈ group, entry.Offset = hull.Offset
  least : ∀ r ∈ group ++ rest, hull.Offset.toNat <= r.Offset.toNat
  reached : ∃ entry ∈ group, entry.stop = hull.stop
  reach : ∀ entry ∈ group, entry.stop <= hull.stop
  overlaps : ∀ k r, 0 < k -> group[k]? = some r -> OverlapsHull (group.take k) r

section

variable {all group rest : List (Replacement Text)} {hull : Range} {start i : Nat}
  {Current : Replacement Text}

omit [LinearOrder Text] in
theorem Open.at_start (opened : Open all group rest hull start) (k : Nat) :
    all[start + k]? = (group ++ rest)[k]? := by
  rw [<- opened.whole, getElem?_drop]

theorem Open.sorted (opened : Open all group rest hull start)
    (sorted : all.Pairwise fun x y => key x < key y) :
    (group ++ rest).Pairwise fun x y => key x < key y := by
  rw [<- opened.whole]
  exact sorted.sublist (drop_sublist _ _)

omit [LinearOrder Text] in
theorem Open.fits (opened : Open all group rest hull start)
    (fits : ∀ r ∈ all, r.stop < 2 ^ 32) : ∀ r ∈ group ++ rest, r.stop < 2 ^ 32 := by
  rw [<- opened.whole]
  exact fun r mem => fits r (mem_of_mem_drop mem)

theorem key_lt {x y : Replacement Text} (less : key x < key y) :
    x.Offset.toNat < y.Offset.toNat ∨
      x.Offset.toNat = y.Offset.toNat ∧ x.Length.toNat <= y.Length.toNat := by
  rcases Prod.Lex.toLex_lt_toLex.mp less with below | ⟨same, less⟩
  · exact .inl below
  · rcases Prod.Lex.toLex_lt_toLex.mp less with below | ⟨same', -⟩
    · exact .inr ⟨same, below.le⟩
    · exact .inr ⟨same, same'.le⟩

/-- A replacement that does not overlap the hull lies behind it: an empty one at its start
comes after others there only if they are empty, too. -/
theorem Open.behind (opened : Open all group (Current :: rest) hull start)
    (sorted : all.Pairwise fun x y => key x < key y) (fits : ∀ r ∈ all, r.stop < 2 ^ 32)
    (apart : ¬hull.overlapsWith Current.toRange = true) : hull.stop <= Current.Offset.toNat := by
  have mem : Current ∈ group ++ Current :: rest := by simp
  have fitsAll := opened.fits fits
  rcases opened.reached with ⟨entry, inside, same⟩
  have fitsHull := same ▸ fitsAll entry (mem_append_left _ inside)
  have ordered := key_lt ((pairwise_append.mp (opened.sorted sorted)).2.2 entry inside Current
    mem_cons_self)
  have atLeast := opened.least Current mem
  have atLeast' := opened.least entry (mem_append_left _ inside)
  rw [Range.overlapsWith_iff fitsHull (fitsAll Current mem)] at apart
  simp only [Range.stop] at *
  omega

section

variable (opened : Open all group (Current :: rest) hull start)
include opened

omit [LinearOrder Text] in
/-- A replacement that overlaps the hull joins the group. -/
theorem Open.extend
    (fits : ∀ r ∈ all, r.stop < 2 ^ 32) (overlaps : hull.overlapsWith Current.toRange = true) :
    Open all (group ++ [Current]) rest (hull.extend Current.toRange) start := by
  have fitsAll := opened.fits fits
  have mem : Current ∈ group ++ Current :: rest := by simp
  have fitsCurrent := fitsAll Current mem
  have atLeast := opened.least Current mem
  rcases opened.reached with ⟨furthest, inside, same⟩
  have fitsHull := same ▸ fitsAll furthest (mem_append_left _ inside)
  have stop := Range.stop_extend fitsCurrent atLeast
  have inGroup : ∀ {p : Replacement Text -> Prop}, (∃ entry ∈ group, p entry) ->
      ∃ entry ∈ group ++ [Current], p entry := fun ⟨entry, mem, holds⟩ =>
    ⟨entry, mem_append_left _ mem, holds⟩
  refine ⟨by rw [opened.whole, append_assoc]; rfl, inGroup opened.begins, ?_, ?_, ?_, ?_⟩
  · rw [append_assoc]
    exact opened.least
  · rw [stop]
    rcases le_total hull.stop Current.stop with further | within
    · exact ⟨Current, by simp, (max_eq_right further).symm⟩
    · exact inGroup ⟨furthest, inside, by rw [same, max_eq_left within]⟩
  · rw [stop]
    intro entry mem
    rcases mem_append.mp mem with before | last
    · exact (opened.reach entry before).trans (le_max_left _ _)
    · rw [mem_singleton.mp last]
      exact le_max_right _ _
  · intro k r pos here
    rw [Range.overlapsWith_iff fitsHull fitsCurrent] at overlaps
    rcases lt_or_ge k group.length with before | atEnd
    · rw [getElem?_append_left before] at here
      rw [take_append_of_le_length before.le]
      exact opened.overlaps k r pos here
    · rw [getElem?_append_right atEnd, getElem?_singleton] at here
      split at here
      · next first =>
          cases here
          have last : k = group.length := by omega
          rw [last, take_left]
          rcases opened.begins with ⟨entry, mem, begins⟩
          exact ⟨⟨entry, mem, begins ▸ overlaps.2⟩, furthest, inside, same ▸ overlaps.1⟩
      · cases here

theorem Open.restart (sorted : all.Pairwise fun x y => key x < key y) :
    Open all [Current] rest Current.toRange (start + group.length) := by
  have ordered := (pairwise_append.mp (opened.sorted sorted)).2.1
  refine ⟨?_, ⟨Current, mem_singleton_self _, rfl⟩, ?_, ⟨Current, mem_singleton_self _, rfl⟩,
    ?_, ?_⟩
  · rw [<- drop_drop, opened.whole, drop_left]
    rfl
  · refine forall_mem_cons.mpr ⟨le_refl _, fun r mem => ?_⟩
    have := key_lt ((pairwise_cons.mp ordered).1 r mem)
    omega
  · intro entry mem
    rw [mem_singleton.mp mem]
  · intro k r pos here
    rw [getElem?_singleton, if_neg (by omega)] at here
    cases here

end

omit [LinearOrder Text] in
/-- The conflict of a group that is closed. -/
theorem Open.closed (opened : Open all group rest hull start) :
    ∀ c ∈ if group.length > 1 then [(start, group.length)] else [],
      c = (start, group.length) ∧ (2 <= c.2 ∧ c.1 + c.2 <= all.length) ∧
        ∀ k r, c.1 < k -> k < c.1 + c.2 -> all[k]? = some r ->
          OverlapsHull ((all.drop c.1).take (k - c.1)) r := by
  intro c mem
  split at mem
  · next two =>
      cases mem_singleton.mp mem
      have total := congrArg length opened.whole
      rw [length_drop, length_append] at total
      refine ⟨rfl, ⟨two, by simp only; omega⟩, fun k r after before here => ?_⟩
      simp only at after before
      have inGroup : group[k - start]? = some r := by
        have inFront : (group ++ rest)[k - start]? = group[k - start]? :=
          getElem?_append_left (by omega)
        rw [<- inFront, <- opened.at_start, Nat.add_sub_cancel' after.le, here]
      rw [opened.whole, take_append_of_le_length (by omega)]
      exact opened.overlaps _ r (by omega) inGroup
  · cases mem

omit [LinearOrder Text] in
theorem Open.grouped {conflicts : List (Nat × Nat)} (opened : Open all group rest hull start)
    (later : Grouped (start + group.length) all conflicts)
    (apart : ∀ first ∈ group, ∀ second ∈ rest, first.overlapsWith second.toRange = false) :
    Grouped start all
      ((if group.length > 1 then [(start, group.length)] else []) ++ conflicts) := by
  have closed := opened.closed
  refine ⟨pairwise_append.mpr ⟨?_, later.increasing, fun c mem d mem' => ?_⟩,
    fun c mem => ?_, fun i j first second from_start less here there overlap => ?_,
    fun c mem => ?_⟩
  · split <;> simp
  · rw [(closed c mem).1]
    exact (later.sizes d mem').1
  · rcases mem_append.mp mem with own | other
    · exact ⟨by rw [(closed c own).1], (closed c own).2.1⟩
    · exact ⟨(Nat.le_add_right _ _).trans (later.sizes c other).1, (later.sizes c other).2⟩
  · rcases lt_or_ge j (start + group.length) with before | after
    · refine ⟨(start, group.length), mem_append_left _ ?_, from_start, before⟩
      rw [if_pos (by omega)]
      exact mem_singleton_self _
    · rcases lt_or_ge i (start + group.length) with inside | outside
      · rw [<- Nat.add_sub_cancel' from_start, opened.at_start,
          getElem?_append_left (by omega)] at here
        rw [<- Nat.add_sub_cancel' (from_start.trans less.le), opened.at_start,
          getElem?_append_right (by omega)] at there
        rw [apart first (mem_of_getElem? here) second (mem_of_getElem? there)] at overlap
        cases overlap
      · rcases later.common i j first second outside less here there overlap with
          ⟨c, mem, holds⟩
        exact ⟨c, mem_append_right _ mem, holds⟩
  · rcases mem_append.mp mem with own | other
    · exact (closed c own).2.2
    · exact later.overlaps c other

theorem Open.detect_grouped (opened : Open all group rest hull start)
    (sorted : all.Pairwise fun x y => key x < key y) (fits : ∀ r ∈ all, r.stop < 2 ^ 32) :
    Grouped start all (detect hull start group.length (start + group.length) rest) := by
  induction rest generalizing group hull start with
  | nil =>
    have total := congrArg length opened.whole
    rw [append_nil, length_drop] at total
    have none : Grouped (start + group.length) all [] := by
      refine ⟨.nil, by simp, fun i j first second after less here there => ?_, by simp⟩
      rw [getElem?_eq_none (by omega)] at there
      cases there
    simpa only [detect, append_nil] using opened.grouped none (by simp)
  | cons Current rest ih =>
    rw [detect]
    by_cases overlaps : hull.overlapsWith Current.toRange = true
    · have joined := ih (opened.extend fits overlaps)
      rw [length_append, length_singleton, <- Nat.add_assoc] at joined
      rw [if_pos overlaps]
      exact joined
    · rw [if_neg overlaps]
      have restarted := opened.restart sorted
      have later := ih restarted
      rw [length_singleton] at later
      refine opened.grouped later fun first mem second mem' => ?_
      have behind := opened.behind sorted fits overlaps
      have reach := opened.reach first mem
      have least := restarted.least second mem'
      have fitsAll := opened.fits fits
      rw [Bool.eq_false_iff, Ne, Range.overlapsWith_iff (fitsAll first (mem_append_left _ mem))
        (fitsAll second (mem_append_right _ mem'))]
      omega

end

/-- The replacements are sorted, without duplicates, the same as before, and their
conflicts are found. -/
def Deduplicated (Replaces : List (Replacement Text)) : Prop :=
  (deduplicate Replaces).1.Pairwise (fun x y => LessNoPath x y = true) ∧
    (∀ r, r ∈ (deduplicate Replaces).1 ↔ r ∈ Replaces) ∧
    Grouped 0 (deduplicate Replaces).1 (deduplicate Replaces).2

theorem deduplicated_of_fits (Replaces : List (Replacement Text))
    (fits : ∀ r ∈ Replaces, r.stop < 2 ^ 32) : Deduplicated Replaces := by
  have sorted := pairwise_stable_sort key lessNoPath_iff Replaces
  have mem : ∀ r, r ∈ stable_sort LessNoPath Replaces ↔ r ∈ Replaces := fun r => mem_mergeSort
  rw [Deduplicated, deduplicate]
  cases whole : stable_sort LessNoPath Replaces with
  | nil =>
    rw [whole] at mem
    exact ⟨.nil, mem, .nil, by simp [unique], by simp [unique], by simp [unique]⟩
  | cons front rest =>
    rw [whole] at mem sorted
    rcases uniqueAfter_spec front sorted with ⟨ordered, members⟩
    have least : ∀ r ∈ front :: uniqueAfter front rest, front.Offset.toNat <= r.Offset.toNat := by
      refine forall_mem_cons.mpr ⟨le_refl _, fun r mem => ?_⟩
      have := key_lt ((pairwise_cons.mp ordered).1 r mem)
      omega
    have opened : Open (front :: uniqueAfter front rest) [front] (uniqueAfter front rest)
        front.toRange 0 := by
      refine ⟨rfl, ⟨front, mem_cons_self, rfl⟩, least, ⟨front, mem_cons_self, rfl⟩, by simp, ?_⟩
      intro k r pos here
      rw [getElem?_singleton, if_neg (by omega)] at here
      cases here
    simp only [unique, lessNoPath_iff, members, mem]
    refine ⟨ordered, fun _ => trivial, ?_⟩
    exact opened.detect_grouped ordered fun r inside => fits r ((mem r).mp ((members r).mp inside))

theorem deduplicated_two : (⟨⟨2, 3⟩, 0⟩ : Replacement Nat).stop < 2 ^ 32 ∧
    Deduplicated [⟨⟨2, 3⟩, 0⟩, (⟨⟨1, 5⟩, 0⟩ : Replacement Nat)] :=
  ⟨by decide, deduplicated_of_fits _ (forall_mem_cons.mpr ⟨by decide,
    forall_mem_cons.mpr ⟨by decide, forall_mem_nil _⟩⟩)⟩

/-- The end of the second range is 0, and the conflict of the others is lost. -/
theorem deduplicated_fails :
    ¬Deduplicated [⟨⟨0, 100⟩, 0⟩, ⟨⟨1, 0xffffffff⟩, 0⟩, (⟨⟨2, 1⟩, 0⟩ : Replacement Nat)] := by
  have sorted : stable_sort LessNoPath
      [⟨⟨0, 100⟩, 0⟩, ⟨⟨1, 0xffffffff⟩, 0⟩, (⟨⟨2, 1⟩, 0⟩ : Replacement Nat)] =
      [⟨⟨0, 100⟩, 0⟩, ⟨⟨1, 0xffffffff⟩, 0⟩, ⟨⟨2, 1⟩, 0⟩] := mergeSort_of_pairwise (by decide)
  rw [Deduplicated, deduplicate, sorted]
  rintro ⟨-, -, grouped⟩
  rcases grouped.common 0 2 _ _ (le_refl _) (by decide) rfl rfl rfl with ⟨c, mem, -⟩
  cases mem

end Tooling
end LlvmProject
