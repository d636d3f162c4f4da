import Mathlib.Order.Lattice
import Mathlib.Data.List.Basic
import Mathlib.Tactic.Linarith

namespace LlvmProject

open List

namespace RelaxedAVL

/-!
# Search trees whose subtrees differ in height by at most two

A search tree that records its height in each node.  A node is rebalanced by
one single or double rotation when its subtrees differ in height by three,
which is the most that an insertion or a removal below it can bring about.
The values of a tree are its values in order; rotations leave them alone.
-/

/-- A binary tree with a value and a recorded height in each node. -/
inductive AVLTree (β : Type*) where
  | nil
  | node (left : AVLTree β) (value : β) (height : Nat) (right : AVLTree β)
  deriving DecidableEq, Repr

namespace AVLTree

variable {β : Type*}

/-- The recorded height; the empty tree has height zero. -/
def getHeight : AVLTree β -> Nat
  | nil => 0
  | node _ _ height _ => height

/-- The values in order. -/
def values : AVLTree β -> List β
  | nil => []
  | node left value _ right => left.values ++ value :: right.values

/-- A node over two trees, with the height that they give it. -/
def create (left : AVLTree β) (value : β) (right : AVLTree β) : AVLTree β :=
  node left value (max left.getHeight right.getHeight + 1) right

/-- Every recorded height is right, and no two siblings differ by more than two. -/
def Balanced : AVLTree β -> Prop
  | nil => True
  | node left _ height right =>
    left.Balanced ∧ right.Balanced ∧ height = max left.getHeight right.getHeight + 1 ∧
      left.getHeight <= right.getHeight + 2 ∧ right.getHeight <= left.getHeight + 2

@[simp] theorem getHeight_nil : (nil : AVLTree β).getHeight = 0 := rfl

@[simp] theorem getHeight_node (l : AVLTree β) (v : β) (h : Nat) (r : AVLTree β) :
    (node l v h r).getHeight = h := rfl

@[simp] theorem getHeight_create (l : AVLTree β) (v : β) (r : AVLTree β) :
    (create l v r).getHeight = max l.getHeight r.getHeight + 1 := rfl

@[simp] theorem values_nil : (nil : AVLTree β).values = [] := rfl

@[simp] theorem values_node (l : AVLTree β) (v : β) (h : Nat) (r : AVLTree β) :
    (node l v h r).values = l.values ++ v :: r.values := rfl

@[simp] theorem values_create (l : AVLTree β) (v : β) (r : AVLTree β) :
    (create l v r).values = l.values ++ v :: r.values := rfl

@[simp] theorem balanced_nil : (nil : AVLTree β).Balanced := trivial

variable {l r : AVLTree β}

theorem Balanced.create (v : β) (leftBalanced : l.Balanced)
    (rightBalanced : r.Balanced) (leftLow : l.getHeight <= r.getHeight + 2)
    (rightLow : r.getHeight <= l.getHeight + 2) : (create l v r).Balanced :=
  ⟨leftBalanced, rightBalanced, rfl, leftLow, rightLow⟩

variable {h : Nat}

theorem Balanced.height_pos {v : β} (balanced : (node l v h r).Balanced) : 0 < h := by
  rw [balanced.2.2.1]
  exact Nat.succ_pos _

/-! ## Rebalancing a node -/

/-- The rotation of a left subtree that is too high: a single one when its outer
subtree is the higher one, else a double one. -/
def rotateLeftChild (left : AVLTree β) (value : β) (right : AVLTree β) : AVLTree β :=
  match left with
  | nil => create nil value right
  | node ll lv _ lr =>
    if lr.getHeight <= ll.getHeight then create ll lv (create lr value right)
    else
      match lr with
      | nil => create left value right
      | node lrl lrv _ lrr => create (create ll lv lrl) lrv (create lrr value right)

/-- The mirror image for a right subtree that is too high. -/
def rotateRightChild (left : AVLTree β) (value : β) (right : AVLTree β) : AVLTree β :=
  match right with
  | nil => create left value nil
  | node rl rv _ rr =>
    if rl.getHeight <= rr.getHeight then create (create left value rl) rv rr
    else
      match rl with
      | nil => create left value right
      | node rll rlv _ rlr => create (create left value rll) rlv (create rlr rv rr)

/-- A node over two trees, rotated when one of them is too high. -/
def balance (left : AVLTree β) (value : β) (right : AVLTree β) : AVLTree β :=
  if right.getHeight + 2 < left.getHeight then rotateLeftChild left value right
  else if left.getHeight + 2 < right.getHeight then rotateRightChild left value right
  else create left value right

theorem values_rotateLeftChild (l : AVLTree β) (v : β) (r : AVLTree β) :
    (rotateLeftChild l v r).values = l.values ++ v :: r.values := by
  cases l with
  | nil => rfl
  | node ll lv h lr =>
    simp only [rotateLeftChild]
    split
    · simp
    · cases lr with
      | nil => rfl
      | node lrl lrv h' lrr => simp

theorem values_rotateRightChild (l : AVLTree β) (v : β) (r : AVLTree β) :
    (rotateRightChild l v r).values = l.values ++ v :: r.values := by
  cases r with
  | nil => rfl
  | node rl rv h rr =>
    simp only [rotateRightChild]
    split
    · simp
    · cases rl with
      | nil => rfl
      | node rll rlv h' rlr => simp

@[simp] theorem values_balance (l : AVLTree β) (v : β) (r : AVLTree β) :
    (balance l v r).values = l.values ++ v :: r.values := by
  rw [balance]
  split
  · exact values_rotateLeftChild l v r
  · split
    · exact values_rotateRightChild l v r
    · rfl

/-- One rotation restores the balance of a left subtree that is three higher. -/
theorem Balanced.rotateLeftChild (v : β) (leftBalanced : l.Balanced)
    (rightBalanced : r.Balanced) (high : l.getHeight = r.getHeight + 3) :
    (rotateLeftChild l v r).Balanced ∧
      l.getHeight <= (AVLTree.rotateLeftChild l v r).getHeight ∧
      (AVLTree.rotateLeftChild l v r).getHeight <= l.getHeight + 1 := by
  cases l with
  | nil => simp only [getHeight_nil] at high; omega
  | node ll lv h lr =>
    rcases leftBalanced with ⟨outer, inner, exact, outerLow, innerLow⟩
    simp only [getHeight_node] at high
    simp only [AVLTree.rotateLeftChild]
    split
    · refine ⟨outer.create lv (inner.create v rightBalanced ?_ ?_) ?_ ?_, ?_, ?_⟩
      all_goals (try simp only [getHeight_create, getHeight_node]); omega
    · cases lr with
      | nil => simp only [getHeight_nil] at *; omega
      | node lrl lrv h' lrr =>
        rcases inner with ⟨first, second, innerExact, firstLow, secondLow⟩
        simp only [getHeight_node] at *
        refine ⟨(outer.create lv first ?_ ?_).create lrv
          (second.create v rightBalanced ?_ ?_) ?_ ?_, ?_, ?_⟩
        all_goals (try simp only [getHeight_create]); omega

theorem Balanced.rotateRightChild (v : β) (leftBalanced : l.Balanced)
    (rightBalanced : r.Balanced) (high : r.getHeight = l.getHeight + 3) :
    (rotateRightChild l v r).Balanced ∧
      r.getHeight <= (AVLTree.rotateRightChild l v r).getHeight ∧
      (AVLTree.rotateRightChild l v r).getHeight <= r.getHeight + 1 := by
  cases r with
  | nil => simp only [getHeight_nil] at high; omega
  | node rl rv h rr =>
    rcases rightBalanced with ⟨inner, outer, exact, innerLow, outerLow⟩
    simp only [getHeight_node] at high
    simp only [AVLTree.rotateRightChild]
    split
    · refine ⟨(leftBalanced.create v inner ?_ ?_).create rv outer ?_ ?_, ?_, ?_⟩
      all_goals (try simp only [getHeight_create, getHeight_node]); omega
    · cases rl with
      | nil => simp only [getHeight_nil] at *; omega
      | node rll rlv h' rlr =>
        rcases inner with ⟨first, second, innerExact, firstLow, secondLow⟩
        simp only [getHeight_node] at *
        refine ⟨(leftBalanced.create v first ?_ ?_).create rlv
          (second.create rv outer ?_ ?_) ?_ ?_, ?_, ?_⟩
        all_goals (try simp only [getHeight_create]); omega

/-- Two balanced trees that differ in height by at most three give a balanced
tree, as high as a plain node over them or one less; when they differ by at most
two it is as high as the plain node. -/
theorem Balanced.balance (v : β) (leftBalanced : l.Balanced) (rightBalanced : r.Balanced) (leftLow :
    l.getHeight <= r.getHeight + 3) (rightLow : r.getHeight <= l.getHeight + 3) :
    (balance l v r).Balanced ∧
      max l.getHeight r.getHeight <= (AVLTree.balance l v r).getHeight ∧
      (AVLTree.balance l v r).getHeight <= max l.getHeight r.getHeight + 1 ∧
      (l.getHeight <= r.getHeight + 2 -> r.getHeight <= l.getHeight + 2 ->
        (AVLTree.balance l v r).getHeight = max l.getHeight r.getHeight + 1) := by
  rw [AVLTree.balance]
  split
  · have rotated := leftBalanced.rotateLeftChild v rightBalanced (by omega)
    exact ⟨rotated.1, by omega, by omega, fun _ _ => by omega⟩
  · split
    · have rotated := leftBalanced.rotateRightChild v rightBalanced (by omega)
      exact ⟨rotated.1, by omega, by omega, fun _ _ => by omega⟩
    · exact ⟨leftBalanced.create v rightBalanced (by omega) (by omega),
        by rw [getHeight_create]; omega, le_of_eq rfl, fun _ _ => rfl⟩

/-! ## Insertion and removal by key -/

section Search

variable {κ : Type*} [LinearOrder κ] (key : β -> κ)

/-- The keys increase strictly in order. -/
def Ordered (t : AVLTree β) : Prop := t.values.Pairwise fun v w => key v < key w

/-- The tree with a value added, in place of one with the same key if there is one. -/
def add (v : β) : AVLTree β -> AVLTree β
  | nil => create nil v nil
  | node left value _ right =>
    if key v = key value then create left v right
    else if key v < key value then balance (left.add v) value right
    else balance left value (right.add v)

/-- The least value of a node, given by its parts, and the tree that is left without it. -/
def removeMin : AVLTree β -> β -> AVLTree β -> AVLTree β × β
  | nil, value, right => (right, value)
  | node ll lv _ lr, value, right =>
    (balance (removeMin ll lv lr).1 value right, (removeMin ll lv lr).2)

/-- Two trees, all of the first before all of the second, as one. -/
def combine : AVLTree β -> AVLTree β -> AVLTree β
  | nil, right => right
  | node ll lv lh lr, nil => node ll lv lh lr
  | node ll lv lh lr, node rl rv _ rr =>
    balance (node ll lv lh lr) (removeMin rl rv rr).2 (removeMin rl rv rr).1

/-- The tree without the value of a key. -/
def remove (k : κ) : AVLTree β -> AVLTree β
  | nil => nil
  | node left value _ right =>
    if k = key value then combine left right
    else if k < key value then balance (left.remove k) value right
    else balance left value (right.remove k)

/-! ### The values -/

theorem values_removeMin (l : AVLTree β) (v : β) (r : AVLTree β) :
    (removeMin l v r).2 :: (removeMin l v r).1.values = l.values ++ v :: r.values := by
  induction l generalizing v r with
  | nil => rfl
  | node ll lv h lr leftHyp _ =>
    rw [removeMin, values_balance, values_node, <- leftHyp lv lr]
    rfl

theorem values_combine (l r : AVLTree β) : (combine l r).values = l.values ++ r.values := by
  cases l with
  | nil => rfl
  | node ll lv lh lr =>
    cases r with
    | nil => simp [combine]
    | node rl rv rh rr =>
      rw [combine, values_balance, values_removeMin, values_node rl]

variable {key}

theorem Ordered.left {v : β} (ordered : Ordered key (node l v h r)) :
    Ordered key l :=
  (pairwise_append.mp ordered).1

theorem Ordered.right {v : β} (ordered : Ordered key (node l v h r)) :
    Ordered key r :=
  (pairwise_cons.mp (pairwise_append.mp ordered).2.1).2

theorem Ordered.left_lt {v x : β}
    (ordered : Ordered key (node l v h r)) (mem : x ∈ l.values) : key x < key v :=
  (pairwise_append.mp ordered).2.2 x mem v mem_cons_self

theorem Ordered.lt_right {v x : β}
    (ordered : Ordered key (node l v h r)) (mem : x ∈ r.values) : key v < key x :=
  (pairwise_cons.mp (pairwise_append.mp ordered).2.1).1 x mem

variable {k : κ}

variable {vs : List β}

theorem filter_lt_eq_self (all : ∀ x ∈ vs, key x < k) :
    vs.filter (key · < k) = vs :=
  filter_eq_self.mpr fun x mem => decide_eq_true (all x mem)

theorem filter_lt_eq_nil (all : ∀ x ∈ vs, k < key x) :
    vs.filter (key · < k) = [] :=
  filter_eq_nil_iff.mpr fun x mem => by simpa using (all x mem).le

theorem filter_gt_eq_self (all : ∀ x ∈ vs, k < key x) :
    vs.filter (k < key ·) = vs :=
  filter_eq_self.mpr fun x mem => decide_eq_true (all x mem)

theorem filter_gt_eq_nil (all : ∀ x ∈ vs, key x < k) :
    vs.filter (k < key ·) = [] :=
  filter_eq_nil_iff.mpr fun x mem => by simpa using (all x mem).le

theorem filter_ne_eq_self (all : ∀ x ∈ vs, key x ≠ k) :
    vs.filter (key · ≠ k) = vs :=
  filter_eq_self.mpr fun x mem => decide_eq_true (all x mem)

variable {t : AVLTree β}

/-- An insertion puts the value between the smaller and the greater ones. -/
theorem values_add (v : β) (ordered : Ordered key t) :
    (t.add key v).values =
      t.values.filter (key · < key v) ++ v :: t.values.filter (key v < key ·) := by
  induction t with
  | nil => rfl
  | node l w h r leftHyp rightHyp =>
    have leftOrdered := leftHyp ordered.left
    have rightOrdered := rightHyp ordered.right
    rw [add, values_node, filter_append, filter_append]
    by_cases same : key v = key w
    · rw [if_pos same, values_create, same,
        filter_lt_eq_self fun x => ordered.left_lt, filter_gt_eq_nil fun x => ordered.left_lt,
        filter_cons_of_neg (by simp), filter_lt_eq_nil fun x => ordered.lt_right,
        filter_cons_of_neg (by simp), filter_gt_eq_self fun x => ordered.lt_right]
      simp
    · rw [if_neg same]
      by_cases before : key v < key w
      · rw [if_pos before, values_balance, leftOrdered,
          filter_cons_of_neg (by simpa using before.le),
          filter_cons_of_pos (by simpa using before),
          filter_lt_eq_nil fun x mem => before.trans (ordered.lt_right mem),
          filter_gt_eq_self fun x mem => before.trans (ordered.lt_right mem)]
        simp
      · have after : key w < key v := lt_of_le_of_ne (not_lt.mp before) (Ne.symm same)
        rw [if_neg before, values_balance, rightOrdered,
          filter_cons_of_pos (by simpa using after),
          filter_cons_of_neg (by simpa using after.le),
          filter_lt_eq_self fun x mem => (ordered.left_lt mem).trans after,
          filter_gt_eq_nil fun x mem => (ordered.left_lt mem).trans after]
        simp

/-- A removal keeps every value with another key. -/
theorem values_remove (k : κ) (ordered : Ordered key t) :
    (t.remove key k).values = t.values.filter (key · ≠ k) := by
  induction t with
  | nil => rfl
  | node l w h r leftHyp rightHyp =>
    have leftOrdered := leftHyp ordered.left
    have rightOrdered := rightHyp ordered.right
    rw [remove, values_node, filter_append]
    by_cases same : k = key w
    · rw [if_pos same, values_combine, filter_cons_of_neg (by simp [same]),
        filter_ne_eq_self fun x mem => same ▸ (ordered.left_lt mem).ne,
        filter_ne_eq_self fun x mem => same ▸ (ordered.lt_right mem).ne']
    · rw [if_neg same]
      by_cases before : k < key w
      · rw [if_pos before, values_balance, leftOrdered,
          filter_cons_of_pos (by simpa using before.ne'),
          filter_ne_eq_self fun x mem => (before.trans (ordered.lt_right mem)).ne']
      · have after : key w < k := lt_of_le_of_ne (not_lt.mp before) (Ne.symm same)
        rw [if_neg before, values_balance, rightOrdered,
          filter_cons_of_pos (by simpa using after.ne),
          filter_ne_eq_self fun x mem => ((ordered.left_lt mem).trans after).ne]

theorem mem_values_add {v x : β} (ordered : Ordered key t) :
    x ∈ (t.add key v).values ↔ x = v ∨ (x ∈ t.values ∧ key x ≠ key v) := by
  rw [values_add v ordered, mem_append, mem_cons, mem_filter, mem_filter,
    decide_eq_true_iff, decide_eq_true_iff, ne_iff_lt_or_gt]
  constructor
  · rintro (⟨mem, less⟩ | same | ⟨mem, greater⟩)
    · exact .inr ⟨mem, .inl less⟩
    · exact .inl same
    · exact .inr ⟨mem, .inr greater⟩
  · rintro (same | ⟨mem, less | greater⟩)
    · exact .inr (.inl same)
    · exact .inl ⟨mem, less⟩
    · exact .inr (.inr ⟨mem, greater⟩)

theorem mem_values_remove {x : β} (ordered : Ordered key t) :
    x ∈ (t.remove key k).values ↔ x ∈ t.values ∧ key x ≠ k := by
  rw [values_remove k ordered, mem_filter, decide_eq_true_iff]

theorem Ordered.add (v : β) (ordered : Ordered key t) : Ordered key (t.add key v) := by
  rw [Ordered, values_add v ordered, pairwise_append, pairwise_cons]
  refine ⟨ordered.filter _, ⟨fun x mem => ?_, ordered.filter _⟩, fun x small y large => ?_⟩
  · simpa using (mem_filter.mp mem).2
  · have less : key x < key v := by simpa using (mem_filter.mp small).2
    rcases mem_cons.mp large with same | greater
    · rw [same]
      exact less
    · exact less.trans (by simpa using (mem_filter.mp greater).2)

theorem Ordered.remove (k : κ) (ordered : Ordered key t) : Ordered key (t.remove key k) := by
  rw [Ordered, values_remove k ordered]
  exact ordered.filter _

/-! ### The balance -/

/-- An insertion makes a tree at most one higher. -/
theorem Balanced.add (v : β) (balanced : t.Balanced) :
    (t.add key v).Balanced ∧ t.getHeight <= (t.add key v).getHeight ∧
      (t.add key v).getHeight <= t.getHeight + 1 := by
  induction t with
  | nil => exact ⟨balanced.create v balanced (by simp) (by simp), by simp, by simp [AVLTree.add]⟩
  | node l w h r leftHyp rightHyp =>
    rcases balanced with ⟨leftBalanced, rightBalanced, exact, leftLow, rightLow⟩
    rw [AVLTree.add, getHeight_node]
    split
    · exact ⟨leftBalanced.create v rightBalanced leftLow rightLow, le_of_eq exact, by
        rw [getHeight_create]; omega⟩
    · split
      · have grown := leftHyp leftBalanced
        have restored := grown.1.balance w rightBalanced (by omega) (by omega)
        exact ⟨restored.1, by omega, by omega⟩
      · have grown := rightHyp rightBalanced
        have restored := leftBalanced.balance w grown.1 (by omega) (by omega)
        exact ⟨restored.1, by omega, by omega⟩

/-- Taking the least value out makes a node at most one lower. -/
theorem Balanced.removeMin (v : β) (h : Nat) (balanced : (node l v h r).Balanced) :
    (removeMin l v r).1.Balanced ∧ h <= (AVLTree.removeMin l v r).1.getHeight + 1 ∧
      (AVLTree.removeMin l v r).1.getHeight <= h := by
  induction l generalizing v r h with
  | nil =>
    rcases balanced with ⟨_, rightBalanced, exact, _, _⟩
    rw [getHeight_nil] at exact
    exact ⟨rightBalanced, by simp only [AVLTree.removeMin]; omega, by
      simp only [AVLTree.removeMin]; omega⟩
  | node ll lv lh lr leftHyp _ =>
    rcases balanced with ⟨leftBalanced, rightBalanced, exact, leftLow, rightLow⟩
    have lowered := leftHyp lv lh leftBalanced
    rw [getHeight_node] at exact leftLow rightLow
    have restored := lowered.1.balance v rightBalanced (by omega) (by omega)
    simp only [AVLTree.removeMin]
    exact ⟨restored.1, by omega, by omega⟩

theorem Balanced.combine (leftBalanced : l.Balanced) (rightBalanced : r.Balanced) (leftLow :
    l.getHeight <= r.getHeight + 2) (rightLow : r.getHeight <= l.getHeight + 2) :
    (combine l r).Balanced ∧
      max l.getHeight r.getHeight <= (AVLTree.combine l r).getHeight ∧
      (AVLTree.combine l r).getHeight <= max l.getHeight r.getHeight + 1 := by
  cases l with
  | nil =>
    refine ⟨rightBalanced, ?_, ?_⟩
    all_goals simp only [AVLTree.combine, getHeight_nil]; omega
  | node ll lv lh lr =>
    cases r with
    | nil =>
      refine ⟨leftBalanced, ?_, ?_⟩
      all_goals simp only [AVLTree.combine, getHeight_nil]; omega
    | node rl rv rh rr =>
      have lowered := rightBalanced.removeMin rv rh
      rw [getHeight_node rl] at leftLow rightLow
      have restored := leftBalanced.balance (AVLTree.removeMin rl rv rr).2 lowered.1
        (by omega) (by omega)
      rw [AVLTree.combine, getHeight_node rl]
      exact ⟨restored.1, by omega, by omega⟩

/-- A removal makes a tree at most one lower. -/
theorem Balanced.remove (k : κ) (balanced : t.Balanced) :
    (t.remove key k).Balanced ∧ t.getHeight <= (t.remove key k).getHeight + 1 ∧
      (t.remove key k).getHeight <= t.getHeight := by
  induction t with
  | nil => exact ⟨balanced, by simp [AVLTree.remove], by simp [AVLTree.remove]⟩
  | node l w h r leftHyp rightHyp =>
    rcases balanced with ⟨leftBalanced, rightBalanced, exact, leftLow, rightLow⟩
    rw [AVLTree.remove, getHeight_node]
    split
    · have combined := leftBalanced.combine rightBalanced leftLow rightLow
      exact ⟨combined.1, by omega, by omega⟩
    · split
      · have lowered := leftHyp leftBalanced
        have restored := lowered.1.balance w rightBalanced (by omega) (by omega)
        exact ⟨restored.1, by omega, by omega⟩
      · have lowered := rightHyp rightBalanced
        have restored := leftBalanced.balance w lowered.1 (by omega) (by omega)
        exact ⟨restored.1, by omega, by omega⟩

end Search

/-! ## Heights -/

/-- The sizes that two subtrees have at least, if the lower one may be two levels lower. -/
theorem two_mul_le_sq {X a b : Nat} (high : X <= b ^ 2) (low : X <= 4 * a ^ 2) :
    2 * X <= (a + b) ^ 2 := by
  have product : X <= 2 * (a * b) := by
    rcases le_total b (2 * a) with wide | narrow
    · nlinarith
    · nlinarith
  nlinarith

/-- The height is at most twice the logarithm of the number of values. -/
theorem Balanced.two_pow_height_le {t : AVLTree β} (balanced : t.Balanced) :
    2 ^ t.getHeight <= (t.values.length + 1) ^ 2 := by
  induction t with
  | nil => exact le_refl 1
  | node l v h r leftHyp rightHyp =>
    rcases balanced with ⟨leftBalanced, rightBalanced, exact, leftLow, rightLow⟩
    have left := leftHyp leftBalanced
    have right := rightHyp rightBalanced
    have quarter {m n : Nat} (near : m <= n + 2) : 2 ^ m <= 4 * 2 ^ n :=
      (Nat.pow_le_pow_right two_pos near).trans_eq (pow_add 2 n 2 ▸ Nat.mul_comm _ _)
    rw [getHeight_node, exact, values_node, length_append, length_cons, pow_succ',
      <- Nat.add_assoc, add_right_comm _ r.values.length, Nat.add_assoc _ r.values.length]
    rcases le_total l.getHeight r.getHeight with lower | lower
    · rw [max_eq_right lower]
      exact two_mul_le_sq right ((quarter rightLow).trans (Nat.mul_le_mul_left 4 left))
    · rw [max_eq_left lower, add_comm (l.values.length + 1)]
      exact two_mul_le_sq left ((quarter leftLow).trans (Nat.mul_le_mul_left 4 right))

end AVLTree
end RelaxedAVL
end LlvmProject
