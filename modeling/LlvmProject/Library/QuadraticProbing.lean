import Mathlib.Data.Fintype.EquivFin
import Mathlib.Data.Nat.Prime.Basic
import Mathlib.Data.Nat.ModEq
import Mathlib.Tactic.Ring

namespace LlvmProject

open Function Nat List Option

namespace QuadraticProbing

/-!
# Hash tables with quadratic probing

A search for a key starts at a slot given by its hash and goes on by one slot,
then two, then three, modulo the number of slots.  When that number is a power
of two the search comes to every slot, so that it ends whenever some slot is
empty.  A slot that lost its entry becomes a tombstone, which a search passes by
and an insertion may use.
-/

/-! ## The sequence of slots -/

/-- The distance gone after a number of steps. -/
def triangle (i : Nat) : Nat := i * (i + 1) / 2

/-- The slot that a search looks at after a number of steps. -/
def probe (n start i : Nat) : Nat := (start + triangle i) % n

theorem two_mul_triangle (i : Nat) : 2 * triangle i = i * (i + 1) :=
  Nat.mul_div_cancel' (even_mul_succ_self i).two_dvd

theorem triangle_succ (i : Nat) : triangle (i + 1) = triangle i + (i + 1) := by
  have here := two_mul_triangle i
  have next := two_mul_triangle (i + 1)
  have expand : (i + 1) * (i + 1 + 1) = i * (i + 1) + 2 * (i + 1) := by ring
  omega

theorem triangle_add (i d : Nat) : 2 * triangle (i + d) = 2 * triangle i + d * (2 * i + d + 1) := by
  rw [two_mul_triangle, two_mul_triangle]
  ring

theorem probe_lt {n : Nat} (pos : 0 < n) (start i : Nat) : probe n start i < n := mod_lt _ pos

theorem probe_zero {n start : Nat} : probe n start 0 = start % n := by
  rw [probe, triangle, zero_mul, Nat.zero_div, add_zero]

theorem probe_succ (n start i : Nat) : probe n start (i + 1) = (probe n start i + (i + 1)) % n := by
  rw [probe, probe, triangle_succ, mod_add_mod, add_assoc]

/-- Of two steps, only an odd distance or an odd sum is left besides the power of two. -/
theorem probe_injective {k start i j : Nat} (before : i < j) (small : j < 2 ^ k) :
    probe (2 ^ k) start i ≠ probe (2 ^ k) start j := by
  intro same
  rcases Nat.exists_eq_add_of_lt before with ⟨d, dist⟩
  have sum := triangle_add i (d + 1)
  have congruent : 2 ^ k ∣ start + triangle j - (start + triangle i) :=
    (modEq_iff_dvd' (by
      rw [dist, add_assoc]
      omega)).mp same
  have divides : 2 ^ (k + 1) ∣ (d + 1) * (2 * i + (d + 1) + 1) := by
    have doubled : (d + 1) * (2 * i + (d + 1) + 1) =
        2 * (start + triangle j - (start + triangle i)) := by
      rw [dist, add_assoc i d 1]
      omega
    rw [doubled, pow_succ, mul_comm]
    exact mul_dvd_mul_left 2 congruent
  rcases even_or_odd (d + 1) with isEven | isOdd
  · have odd : Coprime (2 ^ (k + 1)) (2 * i + (d + 1) + 1) := by
      apply Coprime.pow_left
      rw [coprime_two_left]
      exact ((even_two_mul i).add isEven).add_one
    have le := le_of_dvd (succ_pos d) (odd.dvd_of_dvd_mul_right divides)
    rw [pow_succ] at le
    omega
  · have odd : Coprime (2 ^ (k + 1)) (d + 1) := by
      apply Coprime.pow_left
      rwa [coprime_two_left]
    have le := le_of_dvd (succ_pos _) (odd.dvd_of_dvd_mul_left divides)
    rw [pow_succ] at le
    omega

/-- A search comes to every slot of a power-of-two table. -/
theorem exists_probe {k b : Nat} (start : Nat) (inside : b < 2 ^ k) :
    ∃ i < 2 ^ k, probe (2 ^ k) start i = b := by
  let visit : Fin (2 ^ k) -> Fin (2 ^ k) := fun i =>
    ⟨probe (2 ^ k) start i, probe_lt (Nat.two_pow_pos k) start i⟩
  have injective : Function.Injective visit := by
    intro i j same
    have sameSlot : probe (2 ^ k) start i = probe (2 ^ k) start j := congrArg Fin.val same
    rcases lt_trichotomy i.val j.val with less | equal | greater
    · exact absurd sameSlot (probe_injective less j.isLt)
    · exact Fin.ext equal
    · exact absurd sameSlot.symm (probe_injective greater i.isLt)
  rcases Finite.surjective_of_injective injective ⟨b, inside⟩ with ⟨i, found⟩
  exact ⟨i.val, i.isLt, congrArg Fin.val found⟩

/-! ## Slots -/

/-- A slot is empty, or lost its entry, or has one. -/
inductive Slot (κ ν : Type*) where
  | empty
  | tombstone
  | live (key : κ) (value : ν)

namespace Slot

variable {κ ν : Type*}

def isEmpty : Slot κ ν -> Bool
  | empty => true
  | _ => false

def isTombstone : Slot κ ν -> Bool
  | tombstone => true
  | _ => false

def isLive : Slot κ ν -> Bool
  | live _ _ => true
  | _ => false

variable {slot : Slot κ ν}

theorem isEmpty_iff : slot.isEmpty = true ↔ slot = empty := by
  cases slot <;> simp [isEmpty]

theorem isTombstone_iff : slot.isTombstone = true ↔ slot = tombstone := by
  cases slot <;> simp [isTombstone]

theorem isLive_iff : slot.isLive = true ↔ ∃ key value, slot = live key value := by
  cases slot <;> simp [isLive]

end Slot

variable {κ ν : Type*} {n t i : Nat} {start : κ -> Nat} {slots slots' : Nat -> Slot κ ν} {key : κ}
  {value : ν} {m : κ -> Option ν}

/-- Every entry is found by the search for its key, and no key has two. -/
structure Placed (n : Nat) (start : κ -> Nat) (slots : Nat -> Slot κ ν) : Prop where
  reached : ∀ b < n, ∀ key value, slots b = .live key value ->
    ∃ i, probe n (start key) i = b ∧ ∀ j < i, slots (probe n (start key) j) ≠ .empty
  unique : ∀ b < n, ∀ c < n, ∀ key v w, slots b = .live key v -> slots c = .live key w -> b = c

/-- The slots hold the entries of a map. -/
def Represents (n : Nat) (slots : Nat -> Slot κ ν) (m : κ -> Option ν) : Prop :=
  ∀ key value, m key = some value ↔ ∃ b < n, slots b = .live key value

/-- The number of slots of a kind. -/
def count (n : Nat) (slots : Nat -> Slot κ ν) (kind : Slot κ ν -> Bool) : Nat :=
  (range n).countP fun b => kind (slots b)

/-- A search for a key ends at its first slot that is empty or has the key. -/
structure Stop (n : Nat) (slots : Nat -> Slot κ ν) (s : Nat) (key : κ) (i : Nat) : Prop where
  last : slots (probe n s i) = .empty ∨ ∃ value, slots (probe n s i) = .live key value
  before : ∀ j < i, slots (probe n s j) ≠ .empty ∧ ∀ value, slots (probe n s j) ≠ .live key value

/-- The first tombstone that a search passes by. -/
def firstTombstone (n : Nat) (slots : Nat -> Slot κ ν) (s : Nat) : Nat -> Option Nat
  | 0 => none
  | i + 1 => (firstTombstone n slots s i).or
      (if (slots (probe n s i)).isTombstone then some (probe n s i) else none)

/-- Where an insertion after a search puts the entry. -/
def target (n : Nat) (slots : Nat -> Slot κ ν) (s i : Nat) : Nat :=
  (firstTombstone n slots s i).getD (probe n s i)

/-- A slot without an entry that the searches for a key come to before they end. -/
structure Available (n : Nat) (slots : Nat -> Slot κ ν) (s t : Nat) : Prop where
  inside : t < n
  unused : slots t = .empty ∨ slots t = .tombstone
  reached : ∃ i, probe n s i = t ∧ ∀ j < i, slots (probe n s j) ≠ .empty

/-! ### Searches -/

theorem exists_stop {k b : Nat} (s : Nat) (key : κ) (inside : b < 2 ^ k)
    (free : slots b = .empty) : ∃ i < 2 ^ k, Stop (2 ^ k) slots s key i := by
  classical
  rcases exists_probe s inside with ⟨i, small, here⟩
  have ends : ∃ j, slots (probe (2 ^ k) s j) = .empty ∨
      ∃ value, slots (probe (2 ^ k) s j) = .live key value := ⟨i, .inl (here ▸ free)⟩
  refine ⟨Nat.find ends, ?_, Nat.find_spec ends, fun j earlier => ?_⟩
  · exact (Nat.find_min' ends (.inl (here ▸ free))).trans_lt small
  · have goesOn := Nat.find_min ends earlier
    exact ⟨fun isEmpty => goesOn (.inl isEmpty), fun value found => goesOn (.inr ⟨value, found⟩)⟩

theorem Stop.absent (stop : Stop n slots (start key) key i) (placed : Placed n start slots)
    (free : slots (probe n (start key) i) = .empty) :
    ∀ b < n, ∀ value, slots b ≠ .live key value := by
  intro b inside value found
  rcases placed.reached b inside key value found with ⟨j, here, passed⟩
  rcases lt_trichotomy j i with less | equal | greater
  · exact (stop.before j less).2 value (here ▸ found)
  · rw [<- equal, here, found] at free
    cases free
  · exact passed i greater free

theorem firstTombstone_spec (slots : Nat -> Slot κ ν) (t i : Nat) :
    firstTombstone n slots t i = none ∧ (∀ j < i, slots (probe n t j) ≠ .tombstone) ∨
    ∃ j < i, firstTombstone n slots t i = some (probe n t j) ∧
      slots (probe n t j) = .tombstone := by
  induction i with
  | zero => exact .inl ⟨rfl, fun j less => absurd less (not_lt_zero j)⟩
  | succ i ih =>
    rw [firstTombstone]
    rcases ih with ⟨none, nothing⟩ | ⟨j, less, found, isTombstone⟩
    · by_cases here : (slots (probe n t i)).isTombstone = true
      · refine .inr ⟨i, lt_succ_self i, ?_, Slot.isTombstone_iff.mp here⟩
        rw [none, if_pos here, none_or]
      · refine .inl ⟨?_, fun j less => ?_⟩
        · rw [none, if_neg here, none_or]
        · rcases Nat.lt_succ_iff_lt_or_eq.mp less with earlier | last
          · exact nothing j earlier
          · exact last ▸ fun isTombstone => here (Slot.isTombstone_iff.mpr isTombstone)
    · exact .inr ⟨j, lt_succ_of_lt less, by rw [found, some_or], isTombstone⟩

theorem Stop.available {s : Nat} (pos : 0 < n) (stop : Stop n slots s key i)
    (free : slots (probe n s i) = .empty) : Available n slots s (target n slots s i) := by
  rcases firstTombstone_spec (n := n) slots s i with
    ⟨none, -⟩ | ⟨j, less, found, isTombstone⟩
  · rw [target, none, getD_none]
    exact ⟨probe_lt pos s i, .inl free, i, rfl, fun j earlier => (stop.before j earlier).1⟩
  · rw [target, found, getD_some]
    exact ⟨probe_lt pos s j, .inr isTombstone, j, rfl, fun l earlier =>
      (stop.before l (earlier.trans less)).1⟩

/-! ### Changes -/

theorem placed_empty (n : Nat) (start : κ -> Nat) :
    Placed n start (fun _ => (.empty : Slot κ ν)) where
  reached := fun _ _ _ _ found => by cases found
  unique := fun _ _ _ _ _ _ _ found => by cases found

theorem represents_empty (n : Nat) : Represents n (fun _ => (.empty : Slot κ ν)) fun _ => none := by
  intro key value
  constructor
  · intro found
    cases found
  · rintro ⟨b, _, found⟩
    cases found

section

variable (placed : Placed n start slots)
include placed

/-- Writing a slot that stays used, or becomes used, hides no entry. -/
theorem Placed.update {slot : Slot κ ν} (used : slot ≠ .empty) (reached : ∀ key value, slot = .live
    key value -> ∃ i, probe n (start key) i = t ∧ ∀ j < i, slots (probe n (start key) j) ≠ .empty)
    (unique : ∀ key v w, slot = .live key v -> ∀ b < n, b ≠ t -> slots b ≠ .live key w) :
    Placed n start (Function.update slots t slot) := by
  have passed : ∀ b, slots b ≠ .empty -> Function.update slots t slot b ≠ .empty := by
    intro b filled
    by_cases same : b = t
    · rw [same, update_self]
      exact used
    · rwa [update_of_ne same]
  exact {
    reached := by
      intro b inside key value found
      have way : ∃ i, probe n (start key) i = b ∧
          ∀ j < i, slots (probe n (start key) j) ≠ .empty := by
        by_cases same : b = t
        · rw [same, update_self] at found
          rw [same]
          exact reached key value found
        · rw [update_of_ne same] at found
          exact placed.reached b inside key value found
      rcases way with ⟨i, here, filled⟩
      exact ⟨i, here, fun j less => passed _ (filled j less)⟩
    unique := by
      intro b insideB c insideC key v w foundB foundC
      by_cases sameB : b = t
      · by_cases sameC : c = t
        · rw [sameB, sameC]
        · rw [sameB, update_self] at foundB
          rw [update_of_ne sameC] at foundC
          exact absurd foundC (unique key v w foundB c insideC sameC)
      · rw [update_of_ne sameB] at foundB
        by_cases sameC : c = t
        · rw [sameC, update_self] at foundC
          exact absurd foundB (unique key w v foundC b insideB sameB)
        · rw [update_of_ne sameC] at foundC
          exact placed.unique b insideB c insideC key v w foundB foundC }

theorem Placed.insert (available : Available n slots (start key) t)
    (absent : ∀ b < n, ∀ value, slots b ≠ .live key value) (value : ν) :
    Placed n start (Function.update slots t (.live key value)) := by
  apply placed.update (fun isEmpty => by cases isEmpty)
  · intro key' value' found
    injection found with same
    exact same ▸ available.reached
  · intro key' v w found b inside _ foundB
    injection found with same
    exact absent b inside w (same ▸ foundB)

theorem Placed.store {old : ν} (inside : t < n) (found : slots t = .live key old) (value : ν) :
    Placed n start (Function.update slots t (.live key value)) := by
  apply placed.update (fun isEmpty => by cases isEmpty)
  · intro key' value' foundT
    injection foundT with same
    exact same ▸ placed.reached t inside key old found
  · intro key' v w foundT b insideB ne foundB
    injection foundT with same
    exact ne (placed.unique b insideB t inside key w old (same ▸ foundB) found)

/-- Removing an entry. -/
theorem Placed.erase : Placed n start (Function.update slots t .tombstone) := by
  apply placed.update (fun isEmpty => by cases isEmpty)
  · intro _ _ found
    cases found
  · intro _ _ _ found
    cases found

end

section

variable (rep : Represents n slots m)
include rep

theorem Represents.insert [DecidableEq κ] (inside : t < n) (unused : ∀ k v, slots t = .live k v -> k
    = key) (others : ∀ b < n, b ≠ t -> ∀ v, slots b ≠ .live key v) (value : ν) :
    Represents n (Function.update slots t (.live key value))
      (Function.update m key (some value)) := by
  intro k v
  by_cases same : k = key
  · subst same
    rw [update_self, some.injEq]
    constructor
    · intro equal
      exact ⟨t, inside, by rw [update_self, equal]⟩
    · rintro ⟨b, insideB, found⟩
      by_cases sameSlot : b = t
      · rw [sameSlot, update_self] at found
        injection found
      · rw [update_of_ne sameSlot] at found
        exact absurd found (others b insideB sameSlot v)
  · rw [update_of_ne same, rep k v]
    constructor
    · rintro ⟨b, insideB, found⟩
      refine ⟨b, insideB, ?_⟩
      rw [update_of_ne]
      · exact found
      · intro sameSlot
        exact same (unused k v (sameSlot ▸ found))
    · rintro ⟨b, insideB, found⟩
      by_cases sameSlot : b = t
      · rw [sameSlot, update_self] at found
        injection found with sameKey
        exact absurd sameKey.symm same
      · rw [update_of_ne sameSlot] at found
        exact ⟨b, insideB, found⟩

theorem Represents.erase [DecidableEq κ]
    (placed : Placed n start slots) (inside : t < n) (found : slots t = .live key value) :
    Represents n (Function.update slots t .tombstone) (Function.update m key none) := by
  intro k v
  have others : (∃ b < n, Function.update slots t .tombstone b = .live k v) ↔
      ∃ b < n, b ≠ t ∧ slots b = .live k v := by
    constructor
    · rintro ⟨b, insideB, foundB⟩
      by_cases sameSlot : b = t
      · rw [sameSlot, update_self] at foundB
        cases foundB
      · exact ⟨b, insideB, sameSlot, by rwa [update_of_ne sameSlot] at foundB⟩
    · rintro ⟨b, insideB, ne, foundB⟩
      exact ⟨b, insideB, by rwa [update_of_ne ne]⟩
  rw [others]
  by_cases same : k = key
  · subst same
    rw [update_self]
    constructor
    · intro never
      cases never
    · rintro ⟨b, insideB, ne, foundB⟩
      exact absurd (placed.unique b insideB t inside k v value foundB found) ne
  · rw [update_of_ne same, rep k v]
    constructor
    · rintro ⟨b, insideB, foundB⟩
      refine ⟨b, insideB, fun sameSlot => same ?_, foundB⟩
      rw [sameSlot, found] at foundB
      injection foundB with sameKey
      exact sameKey.symm
    · rintro ⟨b, insideB, _, foundB⟩
      exact ⟨b, insideB, foundB⟩

theorem Represents.found (inside : t < n)
    (found : slots t = .live key value) : m key = some value :=
  (rep key value).mpr ⟨t, inside, found⟩

theorem Represents.absent
    (absent : ∀ b < n, ∀ value, slots b ≠ .live key value) : m key = none := by
  cases known : m key with
  | none => rfl
  | some value =>
    rcases (rep key value).mp known with ⟨b, inside, found⟩
    exact absurd found (absent b inside value)

end

/-! ### Counting -/

variable {kind : Slot κ ν -> Bool}

theorem count_congr (same : ∀ b < n, slots' b = slots b) :
    count n slots' kind = count n slots kind :=
  countP_congr fun b mem => by rw [same b (mem_range.mp mem)]

theorem count_succ (kind : Slot κ ν -> Bool) :
    count (n + 1) slots kind = count n slots kind + if kind (slots n) then 1 else 0 := by
  rw [count, range_succ, countP_append, countP_singleton, count]

theorem count_update (slots : Nat -> Slot κ ν) (slot : Slot κ ν) (kind : Slot κ ν -> Bool)
    (inside : t < n) :
    count n (Function.update slots t slot) kind + (if kind (slots t) then 1 else 0) =
      count n slots kind + if kind slot then 1 else 0 := by
  induction n with
  | zero => exact absurd inside (not_lt_zero t)
  | succ n ih =>
    rw [count_succ, count_succ]
    rcases Nat.lt_succ_iff_lt_or_eq.mp inside with earlier | last
    · rw [update_of_ne earlier.ne']
      have rest := ih earlier
      omega
    · subst last
      rw [update_self, count_congr fun b less => update_of_ne less.ne _ _]
      omega

theorem count_all (n : Nat) (slots : Nat -> Slot κ ν) :
    count n slots Slot.isLive + count n slots Slot.isTombstone + count n slots Slot.isEmpty = n := by
  induction n with
  | zero => rfl
  | succ n ih =>
    rw [count_succ, count_succ, count_succ]
    cases slots n
    all_goals
      simp only [Slot.isLive, Slot.isTombstone, Slot.isEmpty, if_true, Bool.false_eq_true, if_false]
      omega

theorem exists_empty (some : count n slots Slot.isLive + count n slots Slot.isTombstone < n) :
    ∃ b < n, slots b = .empty := by
  have all := count_all n slots
  have pos : 0 < count n slots Slot.isEmpty := by omega
  rcases countP_pos_iff.mp pos with ⟨b, mem, isEmpty⟩
  exact ⟨b, mem_range.mp mem, Slot.isEmpty_iff.mp isEmpty⟩

theorem count_pos (inside : t < n) (here : kind (slots t) = true) :
    0 < count n slots kind :=
  countP_pos_iff.mpr ⟨t, mem_range.mpr inside, here⟩

theorem count_eq_zero (none : ∀ b < n, kind (slots b) = false) :
    count n slots kind = 0 :=
  countP_eq_zero.mpr fun b mem => by rw [none b (mem_range.mp mem)]; simp

/-! ### Moving to another table -/

/-- A table without tombstones that holds the first entries of another one. -/
structure Moved (n' : Nat) (start : κ -> Nat) (slots : Nat -> Slot κ ν) (I : Nat)
    (slots' : Nat -> Slot κ ν) : Prop where
  placed : Placed n' start slots'
  holds : ∀ key value, (∃ b < n', slots' b = .live key value) ↔ ∃ b < I, slots b = .live key value
  clean : ∀ b < n', slots' b ≠ .tombstone
  entries : count n' slots' Slot.isLive = count I slots Slot.isLive

theorem moved_zero (n' : Nat) (start : κ -> Nat) (slots : Nat -> Slot κ ν) :
    Moved n' start slots 0 fun _ => .empty where
  placed := placed_empty n' start
  holds := by
    intro key value
    constructor
    · rintro ⟨b, _, found⟩
      cases found
    · rintro ⟨b, inside, _⟩
      exact absurd inside (not_lt_zero b)
  clean := fun _ _ isTombstone => by cases isTombstone
  entries := count_eq_zero fun _ _ => rfl

theorem Moved.skip {n' I : Nat} (moved : Moved n' start slots I slots')
    (unused : ∀ key value, slots I ≠ .live key value) : Moved n' start slots (I + 1) slots' where
  placed := moved.placed
  holds := by
    intro key value
    rw [moved.holds]
    constructor
    · rintro ⟨b, inside, found⟩
      exact ⟨b, lt_succ_of_lt inside, found⟩
    · rintro ⟨b, inside, found⟩
      rcases Nat.lt_succ_iff_lt_or_eq.mp inside with earlier | last
      · exact ⟨b, earlier, found⟩
      · exact absurd (last ▸ found) (unused key value)
  clean := moved.clean
  entries := by
    have dead : (slots I).isLive = false := by
      rw [Bool.eq_false_iff]
      intro isLive
      rcases Slot.isLive_iff.mp isLive with ⟨key, value, found⟩
      exact unused key value found
    rw [moved.entries, count_succ, dead]
    rfl

/-- The key of the next entry is not among those moved before. -/
theorem Moved.absent {n' I : Nat} (moved : Moved n' start slots I slots')
    (placed : Placed n start slots) (inside : I < n) (found : slots I = .live key value) :
    ∀ b < n', ∀ v, slots' b ≠ .live key v := by
  intro b insideB v foundB
  rcases (moved.holds key v).mp ⟨b, insideB, foundB⟩ with ⟨c, earlier, foundC⟩
  have same := placed.unique c (earlier.trans inside) I inside key v value foundC found
  omega

theorem Moved.move {n' I : Nat} (moved : Moved n' start slots I slots')
    (placed : Placed n start slots) (inside : I < n) (found : slots I = .live key value) (pos : 0 < n')
    (stop : Stop n' slots' (start key) key i) :
    slots' (probe n' (start key) i) = .empty ∧ Moved n' start slots (I + 1)
      (Function.update slots' (probe n' (start key) i) (.live key value)) := by
  have absent := moved.absent placed inside found
  have here := probe_lt pos (start key) i
  have free : slots' (probe n' (start key) i) = .empty := by
    rcases stop.last with isEmpty | ⟨v, foundHere⟩
    · exact isEmpty
    · exact absurd foundHere (absent _ here v)
  have available : Available n' slots' (start key) (probe n' (start key) i) :=
    ⟨here, .inl free, i, rfl, fun j earlier => (stop.before j earlier).1⟩
  refine ⟨free, moved.placed.insert available absent value, ?_, ?_, ?_⟩
  · intro k v
    constructor
    · rintro ⟨b, insideB, foundB⟩
      by_cases same : b = probe n' (start key) i
      · rw [same, update_self] at foundB
        exact ⟨I, lt_succ_self I, found.trans foundB⟩
      · rw [update_of_ne same] at foundB
        rcases (moved.holds k v).mp ⟨b, insideB, foundB⟩ with ⟨c, earlier, foundC⟩
        exact ⟨c, lt_succ_of_lt earlier, foundC⟩
    · rintro ⟨c, insideC, foundC⟩
      rcases Nat.lt_succ_iff_lt_or_eq.mp insideC with earlier | last
      · rcases (moved.holds k v).mpr ⟨c, earlier, foundC⟩ with ⟨b, insideB, foundB⟩
        refine ⟨b, insideB, ?_⟩
        rw [update_of_ne]
        · exact foundB
        · intro same
          rw [same, free] at foundB
          cases foundB
      · rw [last, found] at foundC
        exact ⟨_, here, by rw [update_self, foundC]⟩
  · intro b insideB
    by_cases same : b = probe n' (start key) i
    · rw [same, update_self]
      intro isTombstone
      cases isTombstone
    · rw [update_of_ne same]
      exact moved.clean b insideB
  · have updated := count_update slots' (.live key value) Slot.isLive here
    rw [free] at updated
    rw [count_succ, found, <- moved.entries]
    exact updated

end QuadraticProbing
end LlvmProject
