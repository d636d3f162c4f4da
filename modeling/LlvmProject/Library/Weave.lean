import Mathlib.Algebra.BigOperators.Group.List.Basic

namespace LlvmProject

open List

namespace Weave

/-!
# Sequences woven from parts

The contents of a node of a search tree are the contents of its children with
the values of the node between them.  A position among the values splits the
contents into what comes before a child, the child, and what comes after it.
-/

variable {α : Type*} {a b : α} {part : List α} {parts parts' : List (List α)}
  {values values' : List α}

/-- Each part with the value after it. -/
def before : List (List α) -> List α -> List α
  | [], _ => []
  | _ :: _, [] => []
  | part :: parts, v :: values => part ++ v :: before parts values

/-- Each value with the part after it. -/
def after : List α -> List (List α) -> List α
  | [], _ => []
  | _ :: _, [] => []
  | v :: values, part :: parts => v :: part ++ after values parts

/-- The parts with the values between them. -/
def weave : List (List α) -> List α -> List α
  | [], _ => []
  | part :: parts, values => part ++ after values parts

theorem after_cons (v : α) (values : List α) (part : List α) (parts : List (List α)) :
    after (v :: values) (part :: parts) = v :: weave (part :: parts) values := by
  rw [after, weave, cons_append]

theorem weave_append (sameLen : parts.length = values.length) :
    weave (parts ++ part :: parts') (values ++ values') =
      before parts values ++ part ++ after values' parts' := by
  induction parts generalizing values with
  | nil =>
    rw [length_eq_zero_iff.mp sameLen.symm]
    rfl
  | cons first parts ih =>
    cases values with
    | nil => cases sameLen
    | cons v values =>
      have rest := ih (Nat.succ.inj sameLen)
      rw [cons_append, cons_append, weave, before]
      cases parts with
      | nil =>
        rw [nil_append, after_cons, append_assoc, append_assoc, cons_append]
        exact congrArg (first ++ v :: ·) (rest.trans (append_assoc ..))
      | cons second parts =>
        rw [cons_append, after_cons, <- cons_append, rest, append_assoc,
          append_assoc, append_assoc, cons_append]

/-- Around one value. -/
theorem weave_split (oneMore : parts.length = values.length + 1) (nonempty : parts' ≠ []) (v : α) :
    weave (parts ++ parts') (values ++ v :: values') =
      weave parts values ++ v :: weave parts' values' := by
  rcases exists_cons_of_ne_nil nonempty with ⟨next, rest, rfl⟩
  rcases eq_nil_or_concat parts with rfl | ⟨front, last, rfl⟩
  · cases oneMore
  · rw [concat_eq_append, length_append] at oneMore
    have sameLen : front.length = values.length := Nat.succ.inj oneMore
    have whole : weave (front ++ last :: []) (values ++ []) = _ := weave_append sameLen
    rw [append_nil, after, append_nil] at whole
    rw [concat_eq_append, append_assoc, singleton_append, weave_append sameLen, after_cons, whole]

theorem mem_before (sameLen : parts.length = values.length) (mem : a ∈ values) :
    a ∈ before parts values := by
  induction parts generalizing values with
  | nil =>
    rw [length_eq_zero_iff.mp sameLen.symm] at mem
    exact mem
  | cons part parts ih =>
    cases values with
    | nil => exact absurd mem not_mem_nil
    | cons v values =>
      rw [before]
      apply mem_append_right
      rcases mem_cons.mp mem with rfl | later
      · exact mem_cons_self
      · exact mem_cons_of_mem v (ih (Nat.succ.inj sameLen) later)

theorem mem_after (sameLen : values.length = parts.length) (mem : a ∈ values) :
    a ∈ after values parts := by
  induction values generalizing parts with
  | nil => exact absurd mem not_mem_nil
  | cons v values ih =>
    cases parts with
    | nil => cases sameLen
    | cons part parts =>
      rw [after]
      rcases mem_cons.mp mem with rfl | later
      · exact mem_cons_self
      · exact mem_append_right _ (ih (Nat.succ.inj sameLen) later)

/-! ## Order -/

section Order

variable {r : α -> α -> Prop}

/-- What holds of the values before a part and of everything below them holds
of all that comes before the part. -/
theorem forall_before {p : α -> Prop} (down : ∀ {x y}, r x y -> p y -> p x)
    (sorted : (before parts values).Pairwise r) (all : ∀ v ∈ values, p v) :
    ∀ x ∈ before parts values, p x := by
  induction parts generalizing values with
  | nil =>
    exact fun x mem => absurd mem not_mem_nil
  | cons part parts ih =>
    cases values with
    | nil =>
      exact fun x mem => absurd mem not_mem_nil
    | cons v values =>
      rw [before] at sorted ⊢
      rcases pairwise_append.mp sorted with ⟨_, rest, across⟩
      intro x mem
      have value := all v mem_cons_self
      rcases mem_append.mp mem with inPart | inRest
      · exact down (across x inPart v mem_cons_self) value
      · rcases mem_cons.mp inRest with rfl | later
        · exact value
        · exact ih rest.of_cons
            (fun w mem => all w (mem_cons_of_mem v mem)) x later

/-- What holds of the first value after a part and of everything above it
holds of all that comes after the part. -/
theorem forall_after {p : α -> Prop} (up : ∀ {x y}, r x y -> p x -> p y)
    (sorted : (after values parts).Pairwise r) (first : ∀ v ∈ values.head?, p v) :
    ∀ x ∈ after values parts, p x := by
  intro x mem
  cases values with
  | nil => exact absurd mem not_mem_nil
  | cons v values =>
    cases parts with
    | nil => exact absurd mem not_mem_nil
    | cons part parts =>
      rw [after_cons] at sorted mem
      rcases mem_cons.mp mem with rfl | later
      · exact first x rfl
      · exact up ((pairwise_cons.mp sorted).1 x later) (first v rfl)

end Order

/-! ## Sums -/

section Sums

variable {M : Type*} [AddCommMonoid M] (f : α -> M)

theorem sum_before (sameLen : parts.length = values.length) :
    ((before parts values).map f).sum =
      (values.map f).sum + (parts.map fun part => (part.map f).sum).sum := by
  induction parts generalizing values with
  | nil =>
    rw [length_eq_zero_iff.mp sameLen.symm]
    exact (add_zero _).symm
  | cons part parts ih =>
    cases values with
    | nil => cases sameLen
    | cons v values =>
      rw [before, map_append, sum_append, map_cons, sum_cons, ih (Nat.succ.inj sameLen), map_cons,
        sum_cons, map_cons, sum_cons, add_assoc, add_left_comm, add_left_comm (part.map f).sum]

theorem sum_after (sameLen : values.length = parts.length) :
    ((after values parts).map f).sum =
      (values.map f).sum + (parts.map fun part => (part.map f).sum).sum := by
  induction values generalizing parts with
  | nil =>
    rw [length_eq_zero_iff.mp sameLen.symm]
    exact (add_zero _).symm
  | cons v values ih =>
    cases parts with
    | nil => cases sameLen
    | cons part parts =>
      rw [after, map_append, sum_append, map_cons, sum_cons, ih (Nat.succ.inj sameLen), map_cons,
        sum_cons, map_cons, sum_cons, add_assoc, add_assoc, add_left_comm (part.map f).sum]

theorem sum_weave (oneMore : parts.length = values.length + 1) :
    ((weave parts values).map f).sum =
      (values.map f).sum + (parts.map fun part => (part.map f).sum).sum := by
  cases parts with
  | nil => cases oneMore
  | cons part parts =>
    rw [weave, map_append, sum_append, sum_after f (Nat.succ.inj oneMore).symm,
      map_cons, sum_cons, add_left_comm]

end Sums

/-! ## Positions -/

section Positions

variable {p : α -> Bool} {left right : List α}

/-- A search stops between the elements it passes and the first it accepts. -/
theorem exists_split_findIdx (p : α -> Bool) (l : List α) :
    ∃ left right, l = left ++ right ∧ left.length = l.findIdx p ∧
      (∀ x ∈ left, p x = false) ∧ ∀ x ∈ right.head?, p x = true := by
  induction l with
  | nil => exact ⟨[], [], rfl, rfl, fun _ mem => absurd mem not_mem_nil, nofun⟩
  | cons first rest ih =>
    cases accepted : p first with
    | true =>
      refine ⟨[], first :: rest, rfl, ?_, fun _ mem => absurd mem not_mem_nil, ?_⟩
      · rw [findIdx_cons, accepted]
        rfl
      · rintro x ⟨⟩
        exact accepted
    | false =>
      rcases ih with ⟨left, right, split, length, passed, found⟩
      refine ⟨first :: left, right, congrArg (first :: ·) split, ?_, ?_, found⟩
      · rw [findIdx_cons, accepted, length_cons, length]
        rfl
      · intro x mem
        rcases mem_cons.mp mem with rfl | inLeft
        · exact accepted
        · exact passed x inLeft

theorem findIdx_append_eq (passed : ∀ x ∈ left, p x = false) (found : ∀ x ∈ right.head?, p x = true) :
    (left ++ right).findIdx p = left.length := by
  induction left with
  | nil =>
    cases right with
    | nil => rfl
    | cons first rest => rw [nil_append, findIdx_cons, found first rfl]; rfl
  | cons first left ih =>
    rw [cons_append, findIdx_cons, passed first mem_cons_self,
      ih fun x mem => passed x (mem_cons_of_mem first mem)]
    rfl

theorem insertIdx_append_length (left right : List α) (a : α) :
    (left ++ right).insertIdx left.length a = left ++ a :: right := by
  induction left with
  | nil => rfl
  | cons first left ih =>
    rw [cons_append, length_cons, insertIdx_succ_cons, ih, cons_append]

end Positions

end Weave
end LlvmProject
