import Mathlib.Data.List.Pairwise
import Mathlib.Order.Lattice

namespace LlvmProject

open List

namespace IntervalList

/-!
# Lists of intervals with values

Half-open intervals over a linear order, each with a value, give a partial map.  A list in
canonical form has its intervals in order, and intervals that touch have different values.
Then no two lists give one map.
-/

structure Interval (α V : Type*) where
  start : α
  stop : α
  value : V
deriving DecidableEq

variable {α V : Type*} [LinearOrder α] {l l' pre post : List (Interval α V)}
  {r s : Interval α V} {x : α} {v w : V}

/-- The point is in the interval. -/
def Interval.Holds (r : Interval α V) (x : α) : Prop := r.start <= x ∧ x < r.stop

instance (r : Interval α V) (x : α) : Decidable (r.Holds x) :=
  inferInstanceAs (Decidable (r.start <= x ∧ x < r.stop))

/-- The value at a point. -/
def At (l : List (Interval α V)) (x : α) (v : V) : Prop := ∃ r ∈ l, r.Holds x ∧ r.value = v

/-- One interval is before the other and cannot be joined with it. -/
def Before (r s : Interval α V) : Prop := r.stop <= s.start ∧
    (r.stop = s.start -> r.value ≠ s.value)

structure Canonical (l : List (Interval α V)) : Prop where
  nonempty : ∀ r ∈ l, r.start < r.stop
  apart : l.Pairwise Before

/-! ## Values -/

theorem not_at_nil : ¬At ([] : List (Interval α V)) x v := by
  rintro ⟨_, mem, _⟩
  cases mem

theorem at_cons : At (r :: l) x v ↔ r.Holds x ∧ r.value = v ∨ At l x v := by
  simp only [At, mem_cons, or_and_right, exists_or, exists_eq_left]

theorem at_append : At (l ++ l') x v ↔ At l x v ∨ At l' x v := by
  simp only [At, mem_append, or_and_right, exists_or]

theorem at_singleton : At [r] x v ↔ r.Holds x ∧ r.value = v := by
  simp only [at_cons, not_at_nil, or_false]

/-! ## Order -/

theorem Before.trans (first : Before r s) (nonempty : s.start < s.stop) {t : Interval α V}
    (second : Before s t) : Before r t := by
  have strict : r.stop < t.start := lt_of_le_of_lt first.1 (lt_of_lt_of_le nonempty second.1)
  exact ⟨le_of_lt strict, fun same => absurd same (ne_of_lt strict)⟩

theorem canonical_nil : Canonical ([] : List (Interval α V)) :=
  ⟨fun _ mem => absurd mem not_mem_nil, List.Pairwise.nil⟩

theorem Canonical.append_iff : Canonical (l ++ l') ↔
    Canonical l ∧ Canonical l' ∧ ∀ r ∈ l, ∀ s ∈ l', Before r s := by
  constructor
  · intro canon
    rcases pairwise_append.mp canon.apart with ⟨left, right, across⟩
    exact ⟨⟨fun r mem => canon.nonempty r (mem_append_left l' mem), left⟩,
      ⟨fun r mem => canon.nonempty r (mem_append_right l mem), right⟩, across⟩
  · rintro ⟨left, right, across⟩
    refine ⟨fun r mem => ?_, pairwise_append.mpr ⟨left.apart, right.apart, across⟩⟩
    rcases mem_append.mp mem with first | second
    · exact left.nonempty r first
    · exact right.nonempty r second

theorem Canonical.cons_iff : Canonical (r :: l) ↔
    r.start < r.stop ∧ Canonical l ∧ ∀ s ∈ l, Before r s := by
  constructor
  · intro canon
    rcases pairwise_cons.mp canon.apart with ⟨first, rest⟩
    exact ⟨canon.nonempty r mem_cons_self,
      ⟨fun s mem => canon.nonempty s (mem_cons_of_mem r mem), rest⟩, first⟩
  · rintro ⟨nonempty, rest, first⟩
    exact ⟨forall_mem_cons.mpr ⟨nonempty, rest.nonempty⟩, pairwise_cons.mpr ⟨first, rest.apart⟩⟩

theorem Canonical.before_all (canon : Canonical (s :: l)) (first : Before r s) :
    ∀ t ∈ s :: l, Before r t := by
  rcases Canonical.cons_iff.mp canon with ⟨nonempty, _, later⟩
  exact forall_mem_cons.mpr ⟨first, fun t mem => first.trans nonempty (later t mem)⟩

theorem Canonical.all_before (canon : Canonical (l ++ [s])) (last : Before s r) :
    ∀ t ∈ l ++ [s], Before t r := by
  rcases Canonical.append_iff.mp canon with ⟨_, single, across⟩
  have nonempty : s.start < s.stop := (Canonical.cons_iff.mp single).1
  intro t mem
  rcases mem_append.mp mem with earlier | same
  · exact (across t earlier s mem_cons_self).trans nonempty last
  · exact mem_singleton.mp same ▸ last

theorem Canonical.replace (mid : List (Interval α V)) (canon : Canonical (pre ++ (mid ++ post)))
    (nonempty : r.start < r.stop) (left : ∀ s ∈ pre, Before s r) (right : ∀ s ∈ post, Before r s) :
    Canonical (pre ++ r :: post) := by
  rcases Canonical.append_iff.mp canon with ⟨first, rest, across⟩
  refine Canonical.append_iff.mpr ⟨first, Canonical.cons_iff.mpr
    ⟨nonempty, (Canonical.append_iff.mp rest).2.1, right⟩, fun s mem => ?_⟩
  exact forall_mem_cons.mpr
    ⟨left s mem, fun t later => across s mem t (mem_append_right mid later)⟩

theorem Canonical.parts {parts : List (Interval α V)} (canon : Canonical (pre ++ r :: post))
    (canonicalParts : Canonical parts)
    (within : ∀ s ∈ parts, r.start <= s.start ∧ s.stop <= r.stop ∧ s.value = r.value) :
    Canonical (pre ++ (parts ++ post)) := by
  rcases Canonical.append_iff.mp canon with ⟨first, rest, across⟩
  rcases Canonical.cons_iff.mp rest with ⟨_, last, later⟩
  refine Canonical.append_iff.mpr ⟨first, Canonical.append_iff.mpr
    ⟨canonicalParts, last, fun s mem t behind => ?_⟩, fun s mem t inside => ?_⟩
  · rcases within s mem with ⟨_, stop, value⟩
    rcases later t behind with ⟨order, differ⟩
    refine ⟨stop.trans order, fun touches => value ▸ differ ?_⟩
    exact le_antisymm order (touches ▸ stop)
  · rcases mem_append.mp inside with part | behind
    · rcases within t part with ⟨start, _, value⟩
      rcases across s mem r mem_cons_self with ⟨order, differ⟩
      refine ⟨order.trans start, fun touches => value ▸ differ ?_⟩
      exact le_antisymm order (touches ▸ start)
    · exact across s mem t (mem_cons_of_mem r behind)

theorem at_join (touches : r.stop = s.start) (value : r.value = s.value) (first : r.start <= r.stop)
    (second : s.start <= s.stop) :
    At ({ r with stop := s.stop } :: l) x v ↔ At (r :: s :: l) x v := by
  rw [at_cons, at_cons, at_cons]
  constructor
  · rintro (⟨⟨start, stop⟩, rfl⟩ | later)
    · rcases lt_or_ge x r.stop with early | late
      · exact .inl ⟨⟨start, early⟩, rfl⟩
      · exact .inr (.inl ⟨⟨touches ▸ late, stop⟩, value.symm⟩)
    · exact .inr (.inr later)
  · rintro (⟨⟨start, stop⟩, rfl⟩ | ⟨⟨start, stop⟩, rfl⟩ | later)
    · exact .inl ⟨⟨start, (stop.trans_le touches.le).trans_le second⟩, rfl⟩
    · exact .inl ⟨⟨(first.trans touches.le).trans start, stop⟩, value⟩
    · exact .inr later

/-- Intervals that are left out leave gaps. -/
theorem Canonical.sublist (canon : Canonical l) (fewer : l'.Sublist l) : Canonical l' :=
  ⟨fun r mem => canon.nonempty r (fewer.subset mem), canon.apart.sublist fewer⟩

/-! ## One list for each map -/

theorem Canonical.start_le (canon : Canonical (r :: l)) (holds : At (r :: l) x v) :
    r.start <= x := by
  rcases at_cons.mp holds with ⟨inside, _⟩ | ⟨s, mem, inside, _⟩
  · exact inside.1
  · rcases Canonical.cons_iff.mp canon with ⟨nonempty, _, later⟩
    exact (le_of_lt nonempty).trans ((later s mem).1.trans inside.1)

theorem Canonical.stop_le (canon : Canonical (r :: l)) (holds : At l x v) : r.stop <= x := by
  rcases holds with ⟨s, mem, inside, _⟩
  exact ((Canonical.cons_iff.mp canon).2.2 s mem).1.trans inside.1

theorem Canonical.unique_value (canon : Canonical l) (first : At l x v) (second : At l x w) :
    v = w := by
  induction l with
  | nil => exact absurd first not_at_nil
  | cons r l ih =>
    rcases at_cons.mp first with ⟨inside, rfl⟩ | later
    · rcases at_cons.mp second with ⟨_, rfl⟩ | later
      · rfl
      · exact absurd inside.2 (not_lt_of_ge (canon.stop_le later))
    · rcases at_cons.mp second with ⟨inside, _⟩ | laterSecond
      · exact absurd inside.2 (not_lt_of_ge (canon.stop_le later))
      · exact ih (Canonical.cons_iff.mp canon).2.1 later laterSecond

end IntervalList
end LlvmProject
