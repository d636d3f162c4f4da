import Mathlib.Data.Nat.Count

namespace LlvmProject

open List Nat

namespace DescendingForest

/-!
# Forests of natural numbers

Every number has a parent that is not larger; the roots are their own parents.
Following the parents leads to the smallest number of a class, so two numbers
have the same root exactly when links between numbers and parents connect them.

Two classes can be joined by changing one parent at a time.  A pending link is
kept in mind meanwhile: moving one of its ends to the parent, and giving the
old end the parent of the other end, changes no connection.
-/

open Relation

/-! ## Generated equivalences -/

section Generated

variable {β : Type*} {R S : β -> β -> Prop}

/-- An equivalence that contains the generators contains what they generate. -/
theorem eqvGen_le (contained : ∀ x y, R x y -> EqvGen S x y) {x y : β} (connected : EqvGen R x y) :
    EqvGen S x y := by
  induction connected with
  | rel x y related => exact contained x y related
  | refl x => exact .refl x
  | symm x y _ ih => exact .symm x y ih
  | trans x y z _ _ first second => exact .trans x y z first second

theorem eqvGen_eq (contained : ∀ x y, R x y -> EqvGen S x y)
    (contains : ∀ x y, S x y -> EqvGen R x y) (x y : β) : EqvGen R x y ↔ EqvGen S x y :=
  ⟨eqvGen_le contained, eqvGen_le contains⟩

end Generated

/-! ## Roots -/

/-- Parents that are not larger. -/
structure Forest where
  parent : Nat -> Nat
  parent_le : ∀ i, parent i <= i

namespace Forest

variable {F F' : Forest} {a b i : Nat}

/-- Follow the parents to the end. -/
def root (F : Forest) (i : Nat) : Nat :=
  if _own : F.parent i = i then i else F.root (F.parent i)
  termination_by i
  decreasing_by exact lt_of_le_of_ne (F.parent_le i) _own

theorem root_of_eq (same : F.parent i = i) : F.root i = i := by
  rw [root, dif_pos same]

theorem root_parent (F : Forest) (i : Nat) : F.root (F.parent i) = F.root i := by
  by_cases same : F.parent i = i
  · rw [same]
  · conv_rhs => rw [root, dif_neg same]

theorem parent_root (F : Forest) (i : Nat) : F.parent (F.root i) = F.root i := by
  induction i using Nat.strong_induction_on with
  | h i ih =>
    by_cases same : F.parent i = i
    · rw [root_of_eq same, same]
    · rw [<- root_parent]
      exact ih _ (lt_of_le_of_ne (F.parent_le i) same)

theorem root_le (F : Forest) (i : Nat) : F.root i <= i := by
  induction i using Nat.strong_induction_on with
  | h i ih =>
    by_cases same : F.parent i = i
    · rw [root_of_eq same]
    · rw [<- root_parent]
      exact (ih _ (lt_of_le_of_ne (F.parent_le i) same)).trans (F.parent_le i)

theorem root_root (F : Forest) (i : Nat) : F.root (F.root i) = F.root i :=
  root_of_eq (F.parent_root i)

/-- A number is connected to its parent. -/
def Edge (F : Forest) (x y : Nat) : Prop := F.parent x = y

theorem connected_root (F : Forest) (i : Nat) : EqvGen F.Edge i (F.root i) := by
  induction i using Nat.strong_induction_on with
  | h i ih =>
    by_cases same : F.parent i = i
    · rw [root_of_eq same]
      exact .refl i
    · have above := ih _ (lt_of_le_of_ne (F.parent_le i) same)
      rw [root_parent] at above
      exact .trans _ _ _ (.rel i _ rfl) above

/-- Numbers are connected exactly when they have the same root. -/
theorem connected_iff : EqvGen F.Edge a b ↔ F.root a = F.root b := by
  constructor
  · intro connected
    induction connected with
    | rel x y edge => rw [<- root_parent, show F.parent x = y from edge]
    | refl x => rfl
    | symm x y _ ih => exact ih.symm
    | trans x y z _ _ first second => exact first.trans second
  · intro same
    have second := EqvGen.symm _ _ (F.connected_root b)
    rw [<- same] at second
    exact .trans _ _ _ (F.connected_root a) second

theorem root_le_of_connected (connected : EqvGen F.Edge a b) : F.root a <= b := by
  rw [connected_iff.mp connected]
  exact F.root_le b

/-! ## Joining -/

/-- The edges with a pending link. -/
def Linked (F : Forest) (a b : Nat) (x y : Nat) : Prop := F.Edge x y ∨ (x = a ∧ y = b)

theorem linked_comm (F : Forest) (a b x y : Nat) :
    EqvGen (F.Linked a b) x y ↔ EqvGen (F.Linked b a) x y := by
  apply eqvGen_eq
  · rintro x y (edge | ⟨rfl, rfl⟩)
    · exact .rel x y (.inl edge)
    · exact .symm _ _ (.rel _ _ (.inr ⟨rfl, rfl⟩))
  · rintro x y (edge | ⟨rfl, rfl⟩)
    · exact .rel x y (.inl edge)
    · exact .symm _ _ (.rel _ _ (.inr ⟨rfl, rfl⟩))

/-- A pending link between numbers with the same parent is done. -/
theorem linked_of_same_parent (same : F.parent a = F.parent b) (x y : Nat) :
    EqvGen (F.Linked a b) x y ↔ EqvGen F.Edge x y := by
  apply eqvGen_eq
  · rintro x y (edge | ⟨rfl, rfl⟩)
    · exact .rel x y edge
    · exact .trans _ (F.parent x) _ (.rel _ _ rfl) (.symm _ _ (.rel _ _ same.symm))
  · exact fun x y edge => .rel x y (.inl edge)

/-- The end `b` gets the parent of `a`, and the pending link moves on to the
old parent of `b`. -/
theorem linked_relink (changed : ∀ i, F'.parent i = if i = b then F.parent a else F.parent i)
    (ne : a ≠ b) (x y : Nat) :
    EqvGen (F.Linked a b) x y ↔ EqvGen (F'.Linked a (F.parent b)) x y := by
  have parentA : F'.parent a = F.parent a := by rw [changed, if_neg ne]
  have parentB : F'.parent b = F.parent a := by rw [changed, if_pos rfl]
  apply eqvGen_eq
  · -- `b`, its new parent, `a` and the old parent of `b` are a chain.
    have ends : EqvGen (F'.Linked a (F.parent b)) b a :=
      .trans _ (F.parent a) _ (.rel _ _ (.inl parentB)) (.symm _ _ (.rel _ _ (.inl parentA)))
    have pending : EqvGen (F'.Linked a (F.parent b)) a (F.parent b) := .rel _ _ (.inr ⟨rfl, rfl⟩)
    rintro x y (edge | ⟨rfl, rfl⟩)
    · by_cases here : x = b
      · subst here
        rw [<- show F.parent x = y from edge]
        exact .trans _ a _ ends pending
      · refine .rel x y (.inl ?_)
        rw [Edge, changed, if_neg here]
        exact edge
    · exact .symm _ _ ends
  · have pending : EqvGen (F.Linked a b) a b := .rel _ _ (.inr ⟨rfl, rfl⟩)
    rintro x y (edge | ⟨rfl, rfl⟩)
    · rw [Edge, changed] at edge
      by_cases here : x = b
      · rw [if_pos here] at edge
        subst here
        exact .trans _ a _ (.symm _ _ pending) (.rel _ _ (.inl edge))
      · rw [if_neg here] at edge
        exact .rel x y (.inl edge)
    · exact .trans _ b _ pending (.rel _ _ (.inl rfl))

/-! ## Numbering the classes -/

/-- The roots are the numbers that are their own parents. -/
def IsRoot (F : Forest) (i : Nat) : Prop := F.parent i = i

instance (F : Forest) : DecidablePred F.IsRoot := fun i =>
  inferInstanceAs (Decidable (F.parent i = i))

/-- The number of a class: how many roots are smaller than its own. -/
def classNumber (F : Forest) (i : Nat) : Nat := count F.IsRoot (F.root i)

theorem classNumber_eq_iff : F.classNumber a = F.classNumber b ↔ F.root a = F.root b :=
  ⟨count_injective (show F.IsRoot (F.root a) from F.parent_root a)
      (show F.IsRoot (F.root b) from F.parent_root b),
    fun same => congrArg (count F.IsRoot) same⟩

theorem classNumber_lt (below : i < b) : F.classNumber i < count F.IsRoot b :=
  count_strict_mono (F.parent_root i) (lt_of_le_of_lt (F.root_le i) below)

theorem exists_classNumber {n : Nat} (below : n < count F.IsRoot i) :
    ∃ r < i, F.classNumber r = n := by
  induction i with
  | zero => exact absurd below (not_lt_zero n)
  | succ i ih =>
    rw [count_succ] at below
    by_cases earlier : n < count F.IsRoot i
    · rcases ih earlier with ⟨r, smaller, number⟩
      exact ⟨r, lt_succ_of_lt smaller, number⟩
    · by_cases own : F.IsRoot i
      · rw [if_pos own] at below
        refine ⟨i, lt_succ_self i, ?_⟩
        rw [classNumber, root_of_eq own]
        omega
      · rw [if_neg own] at below
        omega

theorem classNumber_parent (F : Forest) (i : Nat) :
    F.classNumber (F.parent i) = F.classNumber i :=
  congrArg (count F.IsRoot) (F.root_parent i)

/-- The roots below a number, in order. -/
def rootsBelow (F : Forest) (i : Nat) : List Nat := (List.range i).filter F.IsRoot

theorem rootsBelow_succ (F : Forest) (i : Nat) :
    F.rootsBelow (i + 1) = F.rootsBelow i ++ if F.IsRoot i then [i] else [] := by
  rw [rootsBelow, range_succ, filter_append, rootsBelow]
  by_cases own : F.IsRoot i
  · rw [if_pos own, filter_singleton, decide_eq_true own]
    rfl
  · rw [if_neg own, filter_singleton, decide_eq_false own]
    rfl

theorem length_rootsBelow (F : Forest) (i : Nat) : (F.rootsBelow i).length = count F.IsRoot i := by
  induction i with
  | zero => rfl
  | succ i ih =>
    rw [rootsBelow_succ, length_append, ih, count_succ]
    by_cases own : F.IsRoot i
    · rw [if_pos own, if_pos own, length_singleton]
    · rw [if_neg own, if_neg own, length_nil]

/-- The root of a class is listed under the number of the class. -/
theorem getElem?_rootsBelow {r : Nat} (own : F.IsRoot r) (below : r < i) :
    (F.rootsBelow i)[count F.IsRoot r]? = some r := by
  induction i with
  | zero => exact absurd below (not_lt_zero r)
  | succ i ih =>
    rw [rootsBelow_succ]
    rcases Nat.lt_succ_iff_lt_or_eq.mp below with smaller | rfl
    · have inside : count F.IsRoot r < (F.rootsBelow i).length := by
        rw [length_rootsBelow]
        exact count_strict_mono own smaller
      rw [getElem?_append_left inside, ih smaller]
    · rw [<- length_rootsBelow, getElem?_append_right (le_refl _), Nat.sub_self,
        if_pos own, getElem?_cons_zero]

end Forest

end DescendingForest
end LlvmProject
