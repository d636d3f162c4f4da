import Mathlib.Data.List.Basic

namespace LlvmProject

open List Option

namespace LinkedOrder

/-!
# Doubly linked lists

Every element has a link to the next and a link to the previous one.  The
elements are in the order of a list when each link leads to the neighbour in
the list.  Putting a new element after another one and taking an element out
change a few links, and lead from the order of one list to that of the next.
-/

/-- The links of all elements. -/
structure Links (ι : Type*) where
  next : ι -> Option ι
  prev : ι -> Option ι

namespace Links

variable {ι : Type*} {L L' : Links ι} {a b : ι} {front behind : Option ι} {l r : List ι}

/-- The links along a part of the order, with the elements around it. -/
def Segment (L : Links ι) : Option ι -> List ι -> Option ι -> Prop
  | _, [], _ => True
  | front, a :: rest, behind =>
    L.prev a = front ∧ L.next a = rest.head?.or behind ∧ L.Segment (some a) rest behind

/-- The links lead through exactly this list. -/
def InOrder (L : Links ι) (l : List ι) : Prop := L.Segment none l none

theorem segment_nil : L.Segment front [] behind := trivial

theorem segment_cons :
    L.Segment front (a :: r) behind ↔
      L.prev a = front ∧ L.next a = r.head?.or behind ∧ L.Segment (some a) r behind :=
  Iff.rfl

theorem segment_append :
    L.Segment front (l ++ r) behind ↔
      L.Segment front l (r.head?.or behind) ∧ L.Segment (l.getLast?.or front) r behind := by
  induction l generalizing front with
  | nil => exact (and_iff_right segment_nil).symm
  | cons a l ih =>
    have last : (a :: l).getLast?.or front = l.getLast?.or (some a) := by
      rw [getLast?_cons, some_or]
      cases l.getLast? <;> rfl
    rw [cons_append, segment_cons, segment_cons, ih, last,
      head?_append, Option.or_assoc, and_assoc, and_assoc]

/-- Only the links of the elements of a segment matter. -/
theorem Segment.congr (segment : L.Segment front l behind)
    (same : ∀ a ∈ l, L'.next a = L.next a ∧ L'.prev a = L.prev a) :
    L'.Segment front l behind := by
  induction l generalizing front with
  | nil => exact segment_nil
  | cons a l ih =>
    rcases segment with ⟨previous, following, rest⟩
    rcases same a mem_cons_self with ⟨sameNext, samePrev⟩
    refine ⟨samePrev.trans previous, sameNext.trans following, ?_⟩
    exact ih rest fun a mem => same a (mem_cons_of_mem _ mem)

/-- The links around one element of the order. -/
theorem InOrder.next_eq (order : L.InOrder (l ++ a :: r)) : L.next a = r.head? := by
  rcases (segment_append.mp order).2 with ⟨_, following, _⟩
  rw [following, or_none]

theorem InOrder.prev_eq (order : L.InOrder (l ++ a :: r)) : L.prev a = l.getLast? := by
  rcases (segment_append.mp order).2 with ⟨previous, _, _⟩
  rw [previous, or_none]

variable [DecidableEq ι]

def setNext (L : Links ι) (a : ι) (target : Option ι) : Links ι :=
  { L with next := Function.update L.next a target }

def setPrev (L : Links ι) (a : ι) (target : Option ι) : Links ι :=
  { L with prev := Function.update L.prev a target }

section

variable (target : Option ι)

@[simp] theorem setNext_prev : (L.setNext a target).prev = L.prev := rfl

@[simp] theorem setPrev_next : (L.setPrev a target).next = L.next := rfl

@[simp] theorem setNext_next :
    (L.setNext a target).next b = if b = a then target else L.next b :=
  Function.update_apply L.next a target b

@[simp] theorem setPrev_prev :
    (L.setPrev a target).prev b = if b = a then target else L.prev b :=
  Function.update_apply L.prev a target b

end

/-- Put a new element after another one. -/
def insertAfter (L : Links ι) (node new : ι) : Links ι :=
  let L₁ := L.setNext new (L.next node)
  let L₂ := match L.next node with
    | some following => L₁.setPrev following (some new)
    | none => L₁
  (L₂.setPrev new (some node)).setNext node (some new)

/-- Take an element out: its neighbours are linked to each other. -/
def remove (L : Links ι) (node : ι) : Links ι :=
  let L₁ := match L.prev node with
    | some previous => L.setNext previous (L.next node)
    | none => L
  match L.next node with
  | some following => L₁.setPrev following (L.prev node)
  | none => L₁

theorem remove_next (L : Links ι) (node : ι) (c : ι) :
    (L.remove node).next c = if L.prev node = some c then L.next node else L.next c := by
  rw [remove]
  rcases L.prev node with _ | p <;> rcases L.next node with _ | n <;> simp [eq_comm]

theorem remove_prev (L : Links ι) (node : ι) (c : ι) :
    (L.remove node).prev c = if L.next node = some c then L.prev node else L.prev c := by
  rw [remove]
  rcases L.prev node with _ | p <;> rcases L.next node with _ | n <;> simp [eq_comm]

theorem InOrder.insertAfter (order : L.InOrder (l ++ a :: r)) (distinct : (l ++ a :: r).Nodup)
    (new : b ∉ l ++ a :: r) : (L.insertAfter a b).InOrder (l ++ a :: b :: r) := by
  have following := order.next_eq
  rcases segment_append.mp order with ⟨before, previous, _, after⟩
  rcases nodup_append.mp distinct with ⟨_, restDistinct, apart⟩
  have notFirst : ∀ c ∈ l, c ≠ a ∧ c ≠ b := fun c mem =>
    ⟨apart c mem a mem_cons_self, fun same => new (same ▸ mem_append_left _ mem)⟩
  have ne : b ≠ a := fun same =>
    new (same ▸ mem_append_right _ mem_cons_self)
  cases r with
  | nil =>
    have links : L.insertAfter a b = ((L.setNext b none).setPrev b (some a)).setNext a (some b) := by
      rw [Links.insertAfter, following]
      rfl
    rw [links]
    refine segment_append.mpr ⟨before.congr fun c mem => ?_, ?_, ?_, ?_, ?_, segment_nil⟩
    · rcases notFirst c mem with ⟨notA, notB⟩
      simp [notA, notB]
    · simp [ne.symm, previous]
    · simp
    · simp
    · simp [ne]
  | cons d r =>
    have links : L.insertAfter a b =
        (((L.setNext b (some d)).setPrev d (some b)).setPrev b (some a)).setNext a (some b) := by
      rw [Links.insertAfter, following]
      rfl
    rcases nodup_cons.mp restDistinct with ⟨notLater, laterDistinct⟩
    have notD : a ≠ d := fun same => notLater (same ▸ mem_cons_self)
    have newD : b ≠ d := fun same =>
      new (same ▸ mem_append_right _ (mem_cons_of_mem _ mem_cons_self))
    rcases after with ⟨_, next, last⟩
    rw [links]
    refine segment_append.mpr ⟨before.congr fun c mem => ?_, ?_, ?_, ?_, ?_, ?_, ?_,
      last.congr fun c mem => ?_⟩
    · rcases notFirst c mem with ⟨notA, notB⟩
      have apartD := apart c mem d (mem_cons_of_mem _ mem_cons_self)
      simp [notA, notB, apartD]
    · simp [ne.symm, notD, previous]
    · simp
    · simp
    · simp [ne]
    · simp [newD.symm]
    · simp [newD.symm, notD.symm, next]
    · have notA : c ≠ a := fun same => notLater (same ▸ mem_cons_of_mem _ mem)
      have notB : c ≠ b := fun same => new (mem_append_right _
        (same ▸ mem_cons_of_mem _ (mem_cons_of_mem _ mem)))
      have apartD : c ≠ d := fun same => (nodup_cons.mp laterDistinct).1 (same ▸ mem)
      simp [notA, notB, apartD]

theorem InOrder.remove (order : L.InOrder (l ++ a :: r)) (distinct : (l ++ a :: r).Nodup) :
    (L.remove a).InOrder (l ++ r) := by
  have nexts := L.remove_next a
  have prevs := L.remove_prev a
  rw [order.prev_eq] at nexts prevs
  rw [order.next_eq] at nexts prevs
  rcases segment_append.mp order with ⟨before, _, _, after⟩
  rcases nodup_append.mp distinct with ⟨firstDistinct, restDistinct, apart⟩
  rcases nodup_cons.mp restDistinct with ⟨notLater, laterDistinct⟩
  have notAcross : ∀ c ∈ l, ∀ d ∈ r, c ≠ d := fun c mem d later =>
    apart c mem d (mem_cons_of_mem a later)
  refine segment_append.mpr ⟨?_, ?_⟩
  · -- Only the link of the last element changes.
    rcases eq_nil_or_concat l with rfl | ⟨init, last, rfl⟩
    · exact segment_nil
    rw [concat_eq_append] at *
    rcases segment_append.mp before with ⟨inner, lastPrev, _, _⟩
    have lastMember : last ∈ init ++ [last] := mem_append_right _ mem_cons_self
    have behindLast : ∀ c ∈ init ++ [last], r.head? ≠ some c := fun c mem first =>
      notAcross c mem c (mem_of_mem_head? first) rfl
    refine segment_append.mpr ⟨inner.congr fun c mem => ⟨?_, ?_⟩, ?_, ?_, segment_nil⟩
    · have ne : last ≠ c := fun same =>
        (nodup_append.mp firstDistinct).2.2 c mem last mem_cons_self same.symm
      rw [nexts, if_neg (by simpa using ne)]
    · rw [prevs, if_neg (behindLast c (mem_append_left _ mem))]
    · rw [prevs, if_neg (behindLast last lastMember), lastPrev]
    · rw [nexts, if_pos (by simp), head?_nil, none_or, or_none]
  · -- Only the link back of the first element changes.
    cases r with
    | nil => exact segment_nil
    | cons d r =>
      rcases after with ⟨_, next, rest⟩
      have beforeFirst : ∀ c ∈ d :: r, l.getLast? ≠ some c := fun c mem last =>
        notAcross c (mem_of_getLast? last) c mem rfl
      refine ⟨?_, ?_, rest.congr fun c mem => ⟨?_, ?_⟩⟩
      · rw [prevs, if_pos head?_cons, or_none]
      · rw [nexts, if_neg (beforeFirst d mem_cons_self), next]
      · rw [nexts, if_neg (beforeFirst c (mem_cons_of_mem d mem))]
      · have ne : d ≠ c := fun same =>
          (nodup_cons.mp laterDistinct).1 (same ▸ mem)
        rw [prevs, if_neg (by simpa using ne)]

end Links
end LinkedOrder
end LlvmProject
