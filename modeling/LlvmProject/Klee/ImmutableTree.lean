import LlvmProject.Library.RelaxedAVL

namespace LlvmProject
namespace ImmutableTree

open RelaxedAVL

/-!
# Immutable trees

The trees behind `ImmutableMap` and `ImmutableSet`.  A node is never changed
after its construction, so a node is the value of the tree under it, and the
reference counts, which only say when a node may be freed, are left out.  The
empty tree is the `terminator`, whose height is zero.  `balance` is that of the
library, and the order of the keys is a strict total one.

An iterator is a path from the root, the last node first, in a stack whose
capacity is the height of the root.  Pushing beyond the capacity, popping from
the empty stack and a failed assertion give no result.  Nodes on a path are
compared by value: in a search tree no two nodes are equal.
-/

abbrev Node (V : Type) := AVLTree V

variable {K V : Type}

namespace Node

def isTerminator : Node V -> Bool
  | .nil => true
  | .node _ _ _ _ => false

/-! ## Updates -/

/-- The least value and the tree without it.  The terminator has no value. -/
def popMin : Node V -> Option V × Node V
  | .nil => (none, .nil)
  | .node left value _ right =>
    if isTerminator left then (some value, right)
    else ((popMin left).1, AVLTree.balance (popMin left).2 value right)

def popMax : Node V -> Option V × Node V
  | .nil => (none, .nil)
  | .node left value _ right =>
    if isTerminator right then (some value, left)
    else ((popMax right).1, AVLTree.balance left value (popMax right).2)

section Search

variable [LinearOrder K] (key_eq : V -> K)

def insert (v : V) : Node V -> Node V
  | .nil => AVLTree.create .nil v .nil
  | .node left value height right =>
    if key_eq v < key_eq value then AVLTree.balance (insert v left) value right
    else if key_eq value < key_eq v then
      AVLTree.balance left value (insert v right)
    else .node left value height right

def replace (v : V) : Node V -> Node V
  | .nil => AVLTree.create .nil v .nil
  | .node left value _ right =>
    if key_eq v < key_eq value then AVLTree.balance (replace v left) value right
    else if key_eq value < key_eq v then
      AVLTree.balance left value (replace v right)
    else AVLTree.create left v right

def remove (k : K) : Node V -> Node V
  | .nil => .nil
  | .node left value _ right =>
    if k < key_eq value then AVLTree.balance (remove k left) value right
    else if key_eq value < k then AVLTree.balance left value (remove k right)
    else if isTerminator left then right
    else if isTerminator right then left
    else match popMin right with
      | (some min, nr) => AVLTree.balance left min nr
      | (none, nr) => nr

/-! ## Queries -/

def size : Node V -> Nat
  | .nil => 0
  | .node left _ _ right => size left + 1 + size right

def lookup (k : K) : Node V -> Option V
  | .nil => none
  | .node left value _ right =>
    if k < key_eq value then lookup k left
    else if key_eq value < k then lookup k right
    else some value

def count (k : K) : Node V -> Nat
  | .nil => 0
  | .node left value _ right =>
    if k < key_eq value then count k left
    else if key_eq value < k then count k right
    else 1

/-- The loop of `lookup_previous` with its `result`. -/
def lookup_previous (k : K) (result : Option V) : Node V -> Option V
  | .nil => result
  | .node left value _ right =>
    if k < key_eq value then lookup_previous k result left
    else if key_eq value < k then lookup_previous k (some value) right
    else some value

/-- The loops of `min` and `max`, which assert that there is a node. -/
def min : Node V -> Option V
  | .nil => none
  | .node left value _ _ => if isTerminator left then some value else min left

def max : Node V -> Option V
  | .nil => none
  | .node _ value _ right => if isTerminator right then some value else max right

end Search

end Node

/-! ## Iterators -/

/-- A stack of bounded size, the top first. -/
structure FixedStack (V : Type) where
  elts : List (Node V)
  max : Nat
  deriving DecidableEq

namespace FixedStack

def push_back (s : FixedStack V) (n : Node V) : Option (FixedStack V) :=
  if s.elts.length < s.max then some { s with elts := n :: s.elts } else none

/-- `for (; !n->isTerminator(); n = n->left) stack.push_back(n)`. -/
def pushLefts : Node V -> FixedStack V -> Option (FixedStack V)
  | .nil, s => some s
  | .node left value height right, s =>
    (s.push_back (.node left value height right)).bind (pushLefts left)

def pushRights : Node V -> FixedStack V -> Option (FixedStack V)
  | .nil, s => some s
  | .node left value height right, s =>
    (s.push_back (.node left value height right)).bind (pushRights right)

end FixedStack

/-- Pops up to a node of which the popped one is the left child. -/
def climbLeft [DecidableEq V] : Node V -> List (Node V) -> List (Node V)
  | _, [] => []
  | prev, .nil :: rest => climbLeft prev rest
  | prev, .node left value height right :: rest =>
    if prev = left then .node left value height right :: rest
    else climbLeft (.node left value height right) rest

def climbRight [DecidableEq V] : Node V -> List (Node V) -> List (Node V)
  | _, [] => []
  | prev, .nil :: rest => climbRight prev rest
  | prev, .node left value height right :: rest =>
    if prev = right then .node left value height right :: rest
    else climbRight (.node left value height right) rest

structure Iterator (V : Type) where
  root : Node V
  stack : FixedStack V
  deriving DecidableEq

namespace Iterator

def new (root : Node V) (atBeginning : Bool) : Option (Iterator V) :=
  let empty : FixedStack V := ⟨[], root.getHeight⟩
  if atBeginning then (empty.pushLefts root).map (⟨root, ·⟩) else some ⟨root, empty⟩

/-- `operator*`. -/
def value (it : Iterator V) : Option V :=
  match it.stack.elts with
  | .node _ value _ _ :: _ => some value
  | _ => none

variable [DecidableEq V]

/-- `operator++`. -/
def increment (it : Iterator V) : Option (Iterator V) :=
  match it.stack.elts with
  | .node left value height right :: rest =>
    match right with
    | .nil =>
      some { it with stack.elts := climbLeft (.node left value height .nil) rest }
    | .node rl rv rh rr =>
      ((it.stack.push_back (.node rl rv rh rr)).bind (FixedStack.pushLefts rl)).map
        fun stack => { it with stack }
  | _ => none

/-- `operator--`. -/
def decrement (it : Iterator V) : Option (Iterator V) :=
  match it.stack.elts with
  | [] => (it.stack.pushRights it.root).map fun stack => { it with stack }
  | .node left value height right :: rest =>
    match left with
    | .nil =>
      some { it with stack.elts := climbRight (.node .nil value height right) rest }
    | .node ll lv lh lr =>
      ((it.stack.push_back (.node ll lv lh lr)).bind (FixedStack.pushRights lr)).map
        fun stack => { it with stack }
  | .nil :: _ => none

end Iterator

/-! ## Trees -/

section Trees

variable [LinearOrder K] (key_eq : V -> K) [DecidableEq V]

def begin (t : Node V) : Option (Iterator V) := Iterator.new t true

def «end» (t : Node V) : Option (Iterator V) := Iterator.new t false

/-- The descent of `lower_bound`, and whether it ends at a node with the key. -/
def descend (k : K) : Node V -> FixedStack V -> Option (FixedStack V × Bool)
  | .nil, s => some (s, false)
  | .node left value height right, s =>
    (s.push_back (.node left value height right)).bind fun s =>
      if k < key_eq value then descend k left s
      else if key_eq value < k then descend k right s
      else some (s, true)

def lower_bound (t : Node V) (k : K) : Option (Iterator V) :=
  (Iterator.new t false).bind fun it =>
    (descend key_eq k t it.stack).bind fun (stack, found) =>
      let it := { it with stack }
      if found then some it
      else match it.value with
        | some last => if key_eq last < k then it.increment else some it
        | none => some it

def upper_bound (t : Node V) (k : K) : Option (Iterator V) :=
  («end» t).bind fun last =>
    (lower_bound key_eq t k).bind fun it =>
      if it.stack.elts = last.stack.elts then some it
      else it.value.bind fun v => if k < key_eq v then some it else it.increment

def find (t : Node V) (k : K) : Option (Iterator V) :=
  («end» t).bind fun last =>
    (lower_bound key_eq t k).bind fun it =>
      if it.stack.elts = last.stack.elts then some last
      else it.value.bind fun v => if k < key_eq v then some last else some it

end Trees

end ImmutableTree
end LlvmProject

namespace LlvmProject

open List

namespace ImmutableTree

open RelaxedAVL AVLTree

/-!
## Values of immutable trees

The values of a search tree in order, what the updates do to them, and what the
queries read from them.
-/

variable {K V : Type} {t : Node V}

/-! ## Least and greatest value -/

namespace Node

theorem popMin_node (l : Node V) (v : V) (h : Nat) (r : Node V) :
    popMin (.node l v h r) = (some (removeMin l v r).2, (removeMin l v r).1) := by
  induction l generalizing v h r with
  | nil => rfl
  | node ll lv lh lr ih _ =>
    rw [popMin, if_neg (by exact Bool.false_ne_true), ih, removeMin]

theorem values_popMin (t : Node V) :
    (popMin t).1 = t.values.head? ∧ (popMin t).2.values = t.values.tail := by
  cases t with
  | nil => exact ⟨rfl, rfl⟩
  | node l v h r =>
    rw [popMin_node, values_node, <- values_removeMin]
    exact ⟨rfl, rfl⟩

theorem popMin_balanced (balanced : t.Balanced) : (popMin t).2.Balanced := by
  cases t with
  | nil => exact balanced
  | node l v h r =>
    rw [popMin_node]
    exact (balanced.removeMin v h).1

theorem values_ne_nil {l r : Node V} {v : V} {h : Nat} : (AVLTree.node l v h r).values ≠ [] :=
  append_ne_nil_of_right_ne_nil _ (cons_ne_nil _ _)

theorem values_popMax (t : Node V) :
    (popMax t).1 = t.values.getLast? ∧ (popMax t).2.values = t.values.dropLast := by
  induction t with
  | nil => exact ⟨rfl, rfl⟩
  | node l v h r _ ih =>
    rw [values_node]
    cases r with
    | nil => exact ⟨by simp [popMax, isTerminator], by simp [popMax, isTerminator]⟩
    | node rl rv rh rr =>
      have some : v :: (AVLTree.node rl rv rh rr).values ≠ [] := cons_ne_nil _ _
      have inner : (AVLTree.node rl rv rh rr).values ≠ [] := values_ne_nil
      rw [popMax, if_neg (by exact Bool.false_ne_true), values_balance, ih.1,
        ih.2, dropLast_append_of_ne_nil some,
        getLast?_append_of_ne_nil _ some, dropLast_cons_of_ne_nil inner,
        getLast?_cons_of_ne_nil inner]
      exact ⟨rfl, rfl⟩

/-- Taking the greatest value out makes a node at most one lower. -/
theorem popMax_balanced (balanced : t.Balanced) : (popMax t).2.Balanced ∧
    t.getHeight <= (popMax t).2.getHeight + 1 ∧ (popMax t).2.getHeight <= t.getHeight := by
  induction t with
  | nil => exact ⟨balanced, by simp [popMax], by simp [popMax]⟩
  | node l v h r _ ih =>
    rcases balanced with ⟨leftBalanced, rightBalanced, exact, leftLow, rightLow⟩
    rw [getHeight_node]
    cases r with
    | nil =>
      rw [getHeight_nil] at exact leftLow rightLow
      refine ⟨leftBalanced, ?_, ?_⟩
      · show h <= l.getHeight + 1
        omega
      · show l.getHeight <= h
        omega
    | node rl rv rh rr =>
      have lowered := ih rightBalanced
      have restored := leftBalanced.balance v lowered.1 (by omega) (by omega)
      rw [popMax, if_neg (by exact Bool.false_ne_true)]
      refine ⟨restored.1, ?_, ?_⟩
      · show h <= (AVLTree.balance l v _).getHeight + 1
        omega
      · show (AVLTree.balance l v _).getHeight <= h
        omega

theorem min_eq (t : Node V) : min t = t.values.head? := by
  induction t with
  | nil => rfl
  | node l v h r ih _ =>
    cases l with
    | nil => rfl
    | node ll lv lh lr =>
      rw [min, if_neg (by exact Bool.false_ne_true), ih, values_node _ v,
        head?_append_of_ne_nil _ values_ne_nil]

theorem max_eq (t : Node V) : max t = t.values.getLast? := by
  induction t with
  | nil => rfl
  | node l v h r _ ih =>
    cases r with
    | nil => simp [max, isTerminator]
    | node rl rv rh rr =>
      rw [max, if_neg (by exact Bool.false_ne_true), ih, values_node _ v,
        getLast?_append_of_ne_nil _ (cons_ne_nil _ _),
        getLast?_cons_of_ne_nil values_ne_nil]

theorem size_eq (t : Node V) : size t = t.values.length := by
  induction t with
  | nil => rfl
  | node l v h r leftHyp rightHyp =>
    rw [size, leftHyp, rightHyp, values_node, length_append, length_cons]
    omega

/-! ## Updates -/

variable [LinearOrder K] {key_eq : V -> K}

theorem replace_eq_add (v : V) (t : Node V) : replace key_eq v t = t.add key_eq v := by
  induction t with
  | nil => rfl
  | node l w h r leftHyp rightHyp =>
    rw [replace, AVLTree.add, leftHyp, rightHyp]
    rcases lt_trichotomy (key_eq v) (key_eq w) with less | same | greater
    · rw [if_pos less, if_neg less.ne, if_pos less]
    · rw [if_neg same.not_lt, if_neg same.not_gt, if_pos same]
    · rw [if_neg greater.not_gt, if_pos greater, if_neg greater.ne', if_neg greater.not_gt]

theorem remove_eq (k : K) (t : Node V) : remove key_eq k t = AVLTree.remove key_eq k t := by
  induction t with
  | nil => rfl
  | node l w h r leftHyp rightHyp =>
    rw [remove, AVLTree.remove, leftHyp, rightHyp]
    rcases lt_trichotomy k (key_eq w) with less | same | greater
    · rw [if_pos less, if_neg less.ne, if_pos less]
    · rw [if_neg same.not_lt, if_neg same.not_gt, if_pos same]
      cases l with
      | nil => rfl
      | node ll lv lh lr =>
        cases r with
        | nil => rfl
        | node rl rv rh rr =>
          rw [if_neg (by exact Bool.false_ne_true), if_neg (by exact Bool.false_ne_true),
            popMin_node]
          rfl
    · rw [if_neg greater.not_gt, if_pos greater, if_neg greater.ne', if_neg greater.not_gt]

/-- A node over balanced trees is not rotated. -/
theorem balance_of_balanced {l r : Node V} {w : V} {h : Nat}
    (balanced : (AVLTree.node l w h r).Balanced) : AVLTree.balance l w r = .node l w h r := by
  rcases balanced with ⟨-, -, exact, leftLow, rightLow⟩
  rw [AVLTree.balance, if_neg (by omega), if_neg (by omega), exact, AVLTree.create]

theorem insert_present {v : V} (ordered : t.Ordered key_eq) (balanced : t.Balanced)
    (there : ∃ w ∈ t.values, key_eq w = key_eq v) :
    insert key_eq v t = t := by
  induction t with
  | nil => rcases there with ⟨w, mem, -⟩; exact nomatch mem
  | node l w h r leftHyp rightHyp =>
    rcases there with ⟨x, mem, same⟩
    rw [values_node, mem_append, mem_cons] at mem
    rw [insert]
    split
    · rename_i less
      have inside : x ∈ l.values := by
        rcases mem with inside | rfl | inside
        · exact inside
        · exact absurd same less.ne'
        · exact absurd (ordered.lt_right inside) (same ▸ less.not_gt)
      rw [leftHyp ordered.left balanced.1 ⟨x, inside, same⟩, balance_of_balanced balanced]
    · split
      · rename_i greater
        have inside : x ∈ r.values := by
          rcases mem with inside | rfl | inside
          · exact absurd (ordered.left_lt inside) (same ▸ greater.not_gt)
          · exact absurd same greater.ne
          · exact inside
        rw [rightHyp ordered.right balanced.2.1 ⟨x, inside, same⟩, balance_of_balanced balanced]
      · rfl

theorem insert_absent {v : V} (absent : ∀ w ∈ t.values, key_eq w ≠ key_eq v) :
    insert key_eq v t = t.add key_eq v := by
  induction t with
  | nil => rfl
  | node l w h r leftHyp rightHyp =>
    rw [values_node, forall_mem_append, forall_mem_cons] at absent
    rw [insert, AVLTree.add, leftHyp absent.1, rightHyp absent.2.2, if_neg absent.2.1.symm]
    split
    · rfl
    · rw [if_pos (lt_of_le_of_ne (not_lt.mp ‹_›) absent.2.1)]

/-! ## Lookup -/

theorem lookup_eq (k : K) (ordered : t.Ordered key_eq) :
    lookup key_eq k t = t.values.find? fun w => key_eq w = k := by
  induction t with
  | nil => rfl
  | node l w h r leftHyp rightHyp =>
    rw [lookup, leftHyp ordered.left, rightHyp ordered.right, values_node, find?_append]
    rcases lt_trichotomy k (key_eq w) with less | same | greater
    · have later : (w :: r.values).find? (fun w => key_eq w = k) = none := by
        rw [find?_eq_none, forall_mem_cons]
        refine ⟨by simpa using less.ne', fun x mem => ?_⟩
        simpa using (less.trans (ordered.lt_right mem)).ne'
      rw [if_pos less, later, Option.or_none]
    · have earlier : l.values.find? (fun w => key_eq w = k) = none := by
        rw [find?_eq_none]
        exact fun x mem => by simpa using (same ▸ ordered.left_lt mem).ne
      rw [if_neg same.not_lt, if_neg same.not_gt, earlier, find?_cons_of_pos (by simp [same])]
      rfl
    · have earlier : l.values.find? (fun w => key_eq w = k) = none := by
        rw [find?_eq_none]
        exact fun x mem => by simpa using ((ordered.left_lt mem).trans greater).ne
      rw [if_neg greater.not_gt, if_pos greater, earlier,
        find?_cons_of_neg (by simpa using greater.ne)]
      rfl

theorem count_eq (k : K) (t : Node V) :
    count key_eq k t = if (lookup key_eq k t).isSome then 1 else 0 := by
  induction t with
  | nil => rfl
  | node l w h r leftHyp rightHyp =>
    rw [count, lookup, leftHyp, rightHyp]
    split
    · rfl
    · split
      · rfl
      · rfl

theorem lookup_previous_eq (k : K) (result : Option V) (ordered : t.Ordered key_eq) :
    lookup_previous key_eq k result t =
      ((t.values.filter fun w => key_eq w <= k).getLast?).or result := by
  induction t generalizing result with
  | nil => rfl
  | node l w h r leftHyp rightHyp =>
    rw [lookup_previous, leftHyp _ ordered.left, rightHyp _ ordered.right,
      values_node, filter_append]
    rcases lt_trichotomy k (key_eq w) with less | same | greater
    · have later : (w :: r.values).filter (fun w => key_eq w <= k) = [] := by
        rw [filter_eq_nil_iff, forall_mem_cons]
        refine ⟨by simpa using less, fun x mem => ?_⟩
        simpa using less.trans (ordered.lt_right mem)
      rw [if_pos less, later, append_nil]
    · have later : r.values.filter (fun w => key_eq w <= k) = [] := by
        rw [filter_eq_nil_iff]
        exact fun x mem => by simpa using same ▸ ordered.lt_right mem
      rw [if_neg same.not_lt, if_neg same.not_gt, filter_cons_of_pos (by simp [same]), later]
      simp
    · rw [if_neg greater.not_gt, if_pos greater,
        filter_cons_of_pos (by simpa using greater.le),
        getLast?_append_of_ne_nil _ (cons_ne_nil _ _), getLast?_cons]
      cases (r.values.filter fun w => key_eq w <= k).getLast? with
      | none => rfl
      | some x => rfl

end Node

end ImmutableTree
end LlvmProject
