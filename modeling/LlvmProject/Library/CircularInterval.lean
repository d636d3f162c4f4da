import Mathlib.Order.Lattice

namespace LlvmProject
namespace CircularInterval

/-!
# Intervals on a circle

The numbers below `N` are arranged in a circle.  An interval runs upward from its
lower to its upper bound, over the end of the circle if the upper bound is the
smaller one, and never covers the whole circle.

Among the intervals that cover a set, a shortest one leaves out a largest gap.  To see
that an interval is a shortest one, it is therefore enough to reach an element of the
set from every point outside the set without going further than the gap of the
interval.
-/

/-- The point lies between the bounds, going upward. -/
def Mem (lower upper x : Nat) : Prop :=
  lower < upper ∧ lower <= x ∧ x < upper ∨ upper < lower ∧ (lower <= x ∨ x < upper)

/-- The way upward from one point to another. -/
def distance (N x y : Nat) : Nat := if x <= y then y - x else N + y - x

variable {N lower upper otherLower otherUpper x y : Nat}

theorem distance_of_le (below : x <= y) : distance N x y = y - x := if_pos below

theorem distance_of_lt (above : y < x) : distance N x y = N + y - x := if_neg (Nat.not_le.mpr above)

theorem distance_lt (onCircle : x < N) (target : y < N) : distance N x y < N := by
  grind [distance]

/-- The ways between two points in both directions make up the circle. -/
theorem distance_add_distance (onCircle : x < N) (target : y < N) (ne : x ≠ y) :
    distance N x y + distance N y x = N := by
  grind [distance]

theorem mem_lower (ne : lower ≠ upper) : Mem lower upper lower := by
  grind [Mem]

theorem not_mem_upper : ¬Mem lower upper upper := by
  grind [Mem]

/-- The complement of an interval is the interval with the bounds exchanged. -/
theorem mem_swap (ne : lower ≠ upper) : Mem upper lower x ↔ ¬Mem lower upper x := by
  grind [Mem]

/-- From the upper bound of an interval every element is at least as far away as the
lower bound. -/
theorem gap_le_distance (lowerBound : lower < N) (upperBound : upper < N)
    (mem : Mem lower upper x) : distance N upper lower <= distance N upper x := by
  grind [Mem, distance]

theorem distance_le_gap (upperBound : upper < N) (onCircle : x < N) (ne : lower ≠ upper)
    (outside : ¬Mem lower upper x) :
    distance N x lower <= distance N upper lower := by
  grind [Mem, distance]

/-! ## Counting from a base -/

section Base

variable {base : Nat}

section

variable (baseBound : base < N)
include baseBound

/-- The interval that starts at the base has the points before its upper bound. -/
theorem mem_base_iff (upperBound : upper < N) (onCircle : x < N) (ne : base ≠ upper) :
    Mem base upper x ↔ distance N base x < distance N base upper := by
  grind [Mem, distance]

/-- The interval that ends before the base has the points from its lower bound on. -/
theorem mem_to_base_iff (lowerBound : lower < N) (onCircle : x < N) (ne : lower ≠ base) :
    Mem lower base x ↔ distance N base lower <= distance N base x := by
  grind [Mem, distance]

theorem distance_next {next : Nat}
    (isNext : next = x + 1 ∧ x + 1 < N ∨ next = 0 ∧ x + 1 = N) (ne : next ≠ base) :
    distance N base next = distance N base x + 1 := by
  grind [distance]

/-- No point is counted after the one before the base. -/
theorem distance_le_of_next {next : Nat} (onCircle : x < N)
    (target : y < N) (isNext : next = x + 1 ∧ x + 1 < N ∨ next = 0 ∧ x + 1 = N)
    (same : next = base) : distance N base y <= distance N base x := by
  grind [distance]

/-- An interval that does not cross the base has its extreme points at its ends. -/
theorem between_ends {last : Nat} (lowerBound : lower < N) (upperBound : upper < N)
    (onCircle : x < N) (mem : Mem lower upper x) (isNext : upper = last + 1 ∧ last + 1 < N ∨
    upper = 0 ∧ last + 1 = N) (ends : distance N base lower <= distance N base last) :
    distance N base lower <= distance N base x ∧ distance N base x <= distance N base last := by
  grind [Mem, distance]

/-- An interval that crosses the base has the base and the point before it. -/
theorem mem_of_cross {last before : Nat} (lowerBound : lower < N) (upperBound : upper < N)
    (ne : lower ≠ upper) (isNext : upper = last + 1 ∧ last + 1 < N ∨ upper = 0 ∧ last + 1 = N)
    (isBase : base = before + 1 ∧ before + 1 < N ∨ base = 0 ∧ before + 1 = N)
    (cross : distance N base last < distance N base lower) :
    Mem lower upper base ∧ Mem lower upper before := by
  grind [Mem, distance]

end

theorem mem_last {last : Nat} (lowerBound : lower < N) (ne : lower ≠ upper)
    (isNext : upper = last + 1 ∧ last + 1 < N ∨ upper = 0 ∧ last + 1 = N) :
    Mem lower upper last := by
  grind [Mem]

end Base

/-! ## Shortest intervals -/

/-- From every point outside the set an element of the set is within reach. -/
def WithinReach (N : Nat) (S : Nat -> Prop) (gap : Nat) : Prop :=
  ∀ x < N, ¬S x -> ∃ y < N, S y ∧ distance N x y <= gap

variable {S : Nat -> Prop}

theorem withinReach_mem (lowerBound : lower < N) (upperBound : upper < N)
    (ne : lower ≠ upper) : WithinReach N (Mem lower upper) (distance N upper lower) :=
  fun _ onCircle outside =>
    ⟨lower, lowerBound, mem_lower ne, distance_le_gap upperBound onCircle ne outside⟩

/-- Two elements of the set are enough if one of them is near every point outside. -/
theorem withinReach_of_or {a b gap : Nat} (aBound : a < N) (bBound : b < N)
    (near : ∀ x < N, ¬S x -> S a ∧ distance N x a <= gap ∨ S b ∧ distance N x b <= gap) :
    WithinReach N S gap := by
  intro x onCircle outside
  rcases near x onCircle outside with ⟨mem, close⟩ | ⟨mem, close⟩
  · exact ⟨a, aBound, mem, close⟩
  · exact ⟨b, bBound, mem, close⟩

/-- An interval that covers the set leaves out no more than what is within reach. -/
theorem WithinReach.gap_le {gap : Nat} (reach : WithinReach N S gap) (otherLowerBound : otherLower <
    N) (otherUpperBound : otherUpper < N) (covered : ∀ x < N, S x -> Mem otherLower otherUpper x) :
    distance N otherUpper otherLower <= gap := by
  rcases reach otherUpper otherUpperBound
      fun mem => not_mem_upper (covered _ otherUpperBound mem) with
    ⟨y, inside, mem, near⟩
  exact le_trans (gap_le_distance otherLowerBound otherUpperBound (covered y inside mem))
    near

/-- An interval whose gap is within reach everywhere is no longer than any interval that
covers the set. -/
theorem WithinReach.length_le (reach : WithinReach N S (distance N upper lower))
    (lowerBound : lower < N) (upperBound : upper < N) (ne : lower ≠ upper)
    (otherLowerBound : otherLower < N) (otherUpperBound : otherUpper < N) (otherDifferent :
    otherLower ≠ otherUpper) (covered : ∀ x < N, S x -> Mem otherLower otherUpper x) :
    distance N lower upper <= distance N otherLower otherUpper := by
  have gaps := reach.gap_le otherLowerBound otherUpperBound covered
  have whole := distance_add_distance lowerBound upperBound ne
  have otherWhole := distance_add_distance otherLowerBound otherUpperBound otherDifferent
  omega

end CircularInterval
end LlvmProject
