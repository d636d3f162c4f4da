import LlvmProject.Library.EditDistance
import Mathlib.Algebra.Order.Ring.Nat
import Mathlib.Data.List.Infix

namespace LlvmProject

open List

/-!
# Edit distance of arrays

The distances of the first elements of one array to the first elements of the other one are
computed row by row, from the row before.  A row without an entry up to the maximum ends
the computation, but an entry above the maximum at the end of the last row is returned as it
is.

The entries are `unsigned`, and so is the counter of the loop that fills the first row.
-/

namespace EditDistance

variable {T : Type*} [DecidableEq T]

/-- The entries of a row after its first one, which is given, from the row before. -/
def fillRow (AllowReplacements : Bool) (a : T) : List T -> Nat -> List Nat -> List Nat
  | b :: ToArray, left, diagonal :: above :: Previous =>
    let entry :=
      if AllowReplacements then
        min ((diagonal + if a = b then 0 else 1) % 2 ^ 32) ((min left above + 1) % 2 ^ 32)
      else if a = b then diagonal
      else (min left above + 1) % 2 ^ 32
    entry :: fillRow AllowReplacements a ToArray entry (above :: Previous)
  | _, _, _ => []

/-- The loop over the rows, from row `y` on. -/
def fillRows (AllowReplacements : Bool) (ToArray : List T) (MaxEditDistance : UInt32) :
    List T -> Nat -> List Nat -> Nat
  | [], _, Previous => Previous.getLastD 0
  | a :: FromArray, y, Previous =>
    let first := y % 2 ^ 32
    let Current := first :: fillRow AllowReplacements a ToArray first Previous
    let BestThisRow := Current.foldl min first
    if MaxEditDistance ≠ 0 ∧ BestThisRow > MaxEditDistance.toNat then
      (MaxEditDistance + 1).toNat
    else fillRows AllowReplacements ToArray MaxEditDistance FromArray (y + 1) Current

/-- Determine the edit distance between two sequences; `none` if the first loop does not end. -/
def ComputeEditDistance (FromArray ToArray : List T) (AllowReplacements : Bool)
    (MaxEditDistance : UInt32) : Option Nat :=
  if ToArray.length + 1 < 2 ^ 32 then
    some (fillRows AllowReplacements ToArray MaxEditDistance FromArray 1
      (List.range (ToArray.length + 1)))
  else none

/-! ## Rows of distances -/

/-- The distances of one sequence to the extensions of another one.  Both are read from their
last elements. -/
def row (puts : Bool) (p q : List T) : List T -> List Nat
  | [] => [distance puts p q]
  | b :: ys => distance puts p q :: row puts p (b :: q) ys

section Rows

variable {puts : Bool} {a : T} {p q ys : List T} {k : Nat}

theorem row_eq_cons (p q ys : List T) :
    row puts p q ys = distance puts p q :: (row puts p q ys).tail := by
  cases ys <;> rfl

theorem row_nil (q ys : List T) : row puts [] q ys = List.range' q.length (ys.length + 1) := by
  induction ys generalizing q with
  | nil => simp [row]
  | cons b ys ih =>
    rw [row, ih, distance_nil_left, length_cons, length_cons]
    rfl

theorem mem_row {entry : Nat} :
    entry ∈ row puts p q ys ↔
      ∃ front, front <+: ys ∧ entry = distance puts p (front.reverse ++ q) := by
  induction ys generalizing q with
  | nil => simp [row]
  | cons b ys ih =>
    rw [row, mem_cons, ih]
    constructor
    · rintro (same | ⟨front, isPrefix, same⟩)
      · exact ⟨[], nil_prefix, same⟩
      · refine ⟨b :: front, cons_prefix_cons.mpr ⟨rfl, isPrefix⟩, ?_⟩
        rw [same, reverse_cons, append_assoc, singleton_append]
    · rintro ⟨front, isPrefix, same⟩
      rcases front with _ | ⟨c, front⟩
      · exact .inl same
      · rcases cons_prefix_cons.mp isPrefix with ⟨rfl, shorter⟩
        refine .inr ⟨front, shorter, ?_⟩
        rw [same, reverse_cons, append_assoc, singleton_append]

theorem getLastD_row (p q ys : List T) :
    (row puts p q ys).getLastD 0 = distance puts p (ys.reverse ++ q) := by
  induction ys generalizing q with
  | nil => rfl
  | cons b ys ih =>
    rw [reverse_cons, append_assoc, singleton_append, <- ih (b :: q), row, row_eq_cons p (b :: q)]
    rfl

/-- An entry is computed from its neighbours. -/
theorem entry_eq (b : T) (room : p.length + q.length + 2 < 2 ^ 32) :
    (if puts then
        min ((distance puts p q + if a = b then 0 else 1) % 2 ^ 32)
          ((min (distance puts (a :: p) q) (distance puts p (b :: q)) + 1) % 2 ^ 32)
      else if a = b then distance puts p q
      else (min (distance puts (a :: p) q) (distance puts p (b :: q)) + 1) % 2 ^ 32) =
      distance puts (a :: p) (b :: q) := by
  have diagonal := distance_le_length puts p q
  have left := distance_le_length puts (a :: p) q
  rw [length_cons] at left
  by_cases allowed : puts = true
  · have cost : substitution puts a b = if a = b then 0 else 1 := by
      rw [substitution, if_pos allowed]
    have small : (if a = b then 0 else 1) <= 1 := by split <;> omega
    rw [if_pos allowed, distance_cons_cons, cost, Nat.mod_eq_of_lt (by omega),
      Nat.mod_eq_of_lt (by omega)]
  · rw [Bool.not_eq_true] at allowed
    rw [allowed] at left diagonal ⊢
    rw [if_neg Bool.false_ne_true]
    by_cases same : a = b
    · rw [if_pos same, same, distance_cons_self]
    · rw [if_neg same, distance_cons_of_ne same, Nat.mod_eq_of_lt (by omega)]

theorem fillRow_eq (room : p.length + q.length + ys.length + 1 < 2 ^ 32) :
    fillRow puts a ys (distance puts (a :: p) q) (row puts p q ys) =
      (row puts (a :: p) q ys).tail := by
  induction ys generalizing q with
  | nil => rfl
  | cons b ys ih =>
    rw [length_cons] at room
    have entry := @entry_eq T _ puts a p q b (by omega)
    have rest := ih (q := b :: q) (by rw [length_cons]; omega)
    rw [row_eq_cons p (b :: q)] at rest
    rw [row, row_eq_cons p (b :: q), fillRow]
    simp only [entry, rest]
    rw [row, tail_cons, <- row_eq_cons]

theorem lt_foldl_min {entries : List Nat} {best : Nat} :
    k < entries.foldl min best ↔ k < best ∧ ∀ entry ∈ entries, k < entry := by
  induction entries generalizing best with
  | nil => simp
  | cons entry entries ih =>
    rw [foldl_cons, ih, lt_min_iff, forall_mem_cons, and_assoc]

/-- A sequence is far from all first parts of an array. -/
def Far (puts : Bool) (k : Nat) (p ys : List T) : Prop :=
  ∀ front, front <+: ys -> k < distance puts p front.reverse

theorem far_iff_row : Far puts k p ys ↔ ∀ entry ∈ row puts p [] ys, k < entry := by
  simp only [mem_row, append_nil]
  constructor
  · rintro far entry ⟨front, isPrefix, rfl⟩
    exact far front isPrefix
  · intro all front isPrefix
    exact all _ ⟨front, isPrefix, rfl⟩

/-- Another element does not bring a sequence nearer. -/
theorem Far.cons (far : Far puts k p ys) (a : T) : Far puts k (a :: p) ys := by
  intro front isPrefix
  rcases exists_distance_le puts a p front.reverse with ⟨suffix, isSuffix, near⟩
  have part : suffix.reverse <+: ys := (reverse_suffix.mp (by rwa [reverse_reverse])).trans isPrefix
  have less := far suffix.reverse part
  rw [reverse_reverse] at less
  exact less.trans_le near

theorem Far.append (far : Far puts k p ys) (xs : List T) : Far puts k (xs.reverse ++ p) ys := by
  induction xs generalizing p with
  | nil => exact far
  | cons a xs ih =>
    rw [reverse_cons, append_assoc]
    exact ih (far.cons a)

end Rows

/-! ## The loop over the rows -/

section Loop

variable {puts : Bool} {p xs ys : List T} {MaxEditDistance : UInt32}

open Classical in
/-- The loop returns the distance, unless the last row exceeds the maximum. -/
theorem fillRows_eq (room : p.length + xs.length + ys.length + 1 < 2 ^ 32) :
    fillRows puts ys MaxEditDistance xs (p.length + 1) (row puts p [] ys) =
      if MaxEditDistance ≠ 0 ∧ xs ≠ [] ∧ Far puts MaxEditDistance.toNat (xs.reverse ++ p) ys
      then (MaxEditDistance + 1).toNat
      else distance puts (xs.reverse ++ p) ys.reverse := by
  induction xs generalizing p with
  | nil =>
    rw [fillRows, getLastD_row, if_neg (by simp), append_nil]
    rfl
  | cons a xs ih =>
    rw [length_cons] at room
    have first : (p.length + 1) % 2 ^ 32 = distance puts (a :: p) [] := by
      rw [distance_nil_right, length_cons, Nat.mod_eq_of_lt (by omega)]
    have cur : distance puts (a :: p) [] ::
        fillRow puts a ys (distance puts (a :: p) []) (row puts p [] ys) =
        row puts (a :: p) [] ys := by
      rw [fillRow_eq (by rw [length_nil]; omega), <- row_eq_cons]
    have best (k : Nat) : k < (row puts (a :: p) [] ys).foldl min
        (distance puts (a :: p) []) ↔ Far puts k (a :: p) ys := by
      rw [lt_foldl_min, far_iff_row, and_iff_right_iff_imp]
      intro all
      refine all _ ?_
      rw [row_eq_cons]
      exact mem_cons_self
    have rest := ih (p := a :: p) (by rw [length_cons]; omega)
    rw [fillRows, first]
    simp only [cur, gt_iff_lt, best]
    rw [reverse_cons, append_assoc, singleton_append]
    by_cases far : MaxEditDistance ≠ 0 ∧ Far puts MaxEditDistance.toNat (a :: p) ys
    · rw [if_pos far, if_pos ⟨far.1, cons_ne_nil a xs, far.2.append xs⟩]
    · rw [if_neg far, <- length_cons, rest]
      refine if_congr ⟨fun both => ⟨both.1, cons_ne_nil a xs, both.2.2⟩, ?_⟩ rfl rfl
      rintro ⟨nonzero, _, farther⟩
      refine ⟨nonzero, fun empty => far ⟨nonzero, ?_⟩, farther⟩
      rw [empty] at farther
      exact farther

end Loop

/-! ## Exactness -/

section Exactness

variable {T : Type*} [DecidableEq T]

end Exactness

end EditDistance
end LlvmProject
