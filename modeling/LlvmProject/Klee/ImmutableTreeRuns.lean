import LlvmProject.Klee.ImmutableTreeIterator
import Mathlib.Data.List.Induction
import Mathlib.Data.List.GetD
import Mathlib.Data.List.Forall2

namespace LlvmProject

open List

namespace ImmutableTree

open RelaxedAVL AVLTree

/-!
# Immutable trees as ordered maps

The searches for an iterator, and what holds of every tree that updates of
earlier trees lead to.
-/

variable {K V : Type} [LinearOrder K] {key_eq : V -> K} {t root sub : Node V}
variable {path : List (Node V)} {before after : List V} {it : Iterator V} {k : K}

/-! ## Splits at a key -/

theorem nodup_of_ordered (ordered : t.Ordered key_eq) : t.values.Nodup :=
  Pairwise.imp (fun less same => less.ne (congrArg key_eq same)) ordered

/-- The values before a value of the tree are less, and those after it greater. -/
theorem around_of_ordered {x : V} (ordered : t.Ordered key_eq)
    (split : t.values = before ++ x :: after) :
    (∀ y ∈ before, key_eq y < key_eq x) ∧ ∀ y ∈ after, key_eq x < key_eq y := by
  rw [Ordered, split, pairwise_append, pairwise_cons] at ordered
  exact ⟨fun y mem => ordered.2.2 y mem x mem_cons_self, ordered.2.1.1⟩

/-! ## Lower and upper bounds -/

/-- Where the descent ends: at a value with the key, or below all values on the
way, between a smaller and a greater one. -/
theorem descend_eq (focus : Focus root path sub before after) (balanced : root.Balanced) (ordered :
    root.Ordered key_eq) (low : ∀ x ∈ before, key_eq x < k) (high : ∀ x ∈ after, k < key_eq x) :
    ∃ elts found, descend key_eq k sub ⟨path, root.getHeight⟩ =
        some (⟨elts, root.getHeight⟩, found) ∧
      ((found = true ∧ ∃ before' x after', Located root elts before' (x :: after') ∧
          key_eq x = k) ∨
        (found = false ∧ ∃ before' after', Focus root elts .nil before' after' ∧
          (∀ x ∈ before', key_eq x < k) ∧ ∀ x ∈ after', k < key_eq x)) := by
  induction sub generalizing path before after with
  | nil => exact ⟨_, _, rfl, .inr ⟨rfl, _, _, focus, low, high⟩⟩
  | node l v h r leftHyp rightHyp =>
    have split : root.values = (before ++ l.values) ++ v :: (r.values ++ after) := by
      simpa using focus.values_eq
    have around := around_of_ordered ordered split
    rw [descend, push_back_eq focus balanced, Option.bind_some]
    rcases lt_trichotomy k (key_eq v) with less | same | greater
    · rw [if_pos less]
      apply leftHyp focus.left low
      rw [cons_append, forall_mem_cons]
      exact ⟨less, fun y mem => less.trans (around.2 y mem)⟩
    · rw [if_neg same.not_lt, if_neg same.not_gt]
      exact ⟨_, _, rfl, .inl ⟨rfl, _, _, _, Located.atNode focus, same.symm⟩⟩
    · rw [if_neg greater.not_gt, if_pos greater]
      apply rightHyp focus.right _ high
      rw [forall_mem_append, forall_mem_singleton]
      exact ⟨fun y mem => (around.1 y mem).trans greater, greater⟩

theorem begin_points (balanced : t.Balanced) :
    ∃ it, begin t = some it ∧ Points t it [] t.values := by
  cases t with
  | nil => exact ⟨_, rfl, ⟨Located.atEnd⟩⟩
  | node l v h r =>
    rcases pushLefts_eq Focus.here balanced nofun with ⟨path, pushed, located⟩
    rw [append_nil] at located
    refine ⟨_, ?_, ⟨located⟩⟩
    show (FixedStack.pushLefts _ _).map _ = _
    rw [pushed]
    rfl

theorem count_eq_mem (k : K) (ordered : t.Ordered key_eq) :
    Node.count key_eq k t = if k ∈ t.values.map key_eq then 1 else 0 := by
  rw [Node.count_eq, Node.lookup_eq k ordered]
  apply if_congr _ rfl rfl
  rw [find?_isSome, mem_map]
  simp

section Searches

variable [DecidableEq V]

/-- `lower_bound` stands before the first value whose key is not less. -/
theorem lower_bound_points (k : K) (balanced : t.Balanced) (ordered : t.Ordered key_eq) :
    ∃ it before after, lower_bound key_eq t k = some it ∧ Points t it before after ∧
      (∀ x ∈ before, key_eq x < k) ∧ ∀ x ∈ after, k <= key_eq x := by
  rcases descend_eq (k := k) Focus.here balanced ordered (forall_mem_nil _)
    (forall_mem_nil _) with ⟨elts, found, descends, cases⟩
  have start : lower_bound key_eq t k = if found then some ⟨t, ⟨elts, t.getHeight⟩⟩ else
      (Iterator.value ⟨t, ⟨elts, t.getHeight⟩⟩).elim (some ⟨t, ⟨elts, t.getHeight⟩⟩) fun last =>
        if key_eq last < k then Iterator.increment ⟨t, ⟨elts, t.getHeight⟩⟩
        else some ⟨t, ⟨elts, t.getHeight⟩⟩ := by
    show (descend key_eq k t ⟨[], t.getHeight⟩).bind _ = _
    rw [descends]
    dsimp only [Option.bind_some]
    cases Iterator.value ⟨t, ⟨elts, t.getHeight⟩⟩ <;> rfl
  rw [start]
  rcases cases with ⟨rfl, before, x, after, located, same⟩ | ⟨rfl, before, after, focus, low, high⟩
  · have around := around_of_ordered ordered located.values_eq
    refine ⟨_, before, x :: after, rfl, ⟨located⟩, ?_, ?_⟩
    · exact fun y mem => same ▸ around.1 y mem
    · rw [forall_mem_cons]
      exact ⟨same.ge, fun y mem => (same ▸ around.2 y mem).le⟩
  · have high' : ∀ x ∈ after, k <= key_eq x := fun x mem => (high x mem).le
    rw [if_neg Bool.false_ne_true]
    cases focus with
    | here => exact ⟨_, _, _, rfl, ⟨Located.atEnd⟩, by simp, forall_mem_nil _⟩
    | @left path l r v h before after above =>
      have points : Points t ⟨t, ⟨.node .nil v h r :: path, t.getHeight⟩⟩ before
          (v :: r.values ++ after) := by
        have located := Located.atNode above
        rw [values_nil, append_nil] at located
        exact ⟨located⟩
      refine ⟨_, _, _, ?_, points, low, high'⟩
      rw [points.value_eq]
      exact if_neg (high v (by simp)).not_gt
    | @right path l r v h before after above =>
      have points : Points t ⟨t, ⟨.node l v h .nil :: path, t.getHeight⟩⟩ (before ++ l.values)
          (v :: after) := ⟨Located.atNode above⟩
      rcases points.increment balanced (nodup_of_ordered ordered) with ⟨it, steps, points'⟩
      refine ⟨it, _, _, ?_, points', low, high'⟩
      rw [points.value_eq, <- steps]
      exact if_pos (low v (by simp))

/-- `upper_bound` stands before the first value whose key is greater. -/
theorem upper_bound_points (k : K) (balanced : t.Balanced) (ordered : t.Ordered key_eq) :
    ∃ it before after, upper_bound key_eq t k = some it ∧ Points t it before after ∧
      (∀ x ∈ before, key_eq x <= k) ∧ ∀ x ∈ after, k < key_eq x := by
  rcases lower_bound_points k balanced ordered with
    ⟨it, before, after, found, points, low, high⟩
  have start : upper_bound key_eq t k = if it.stack.elts = [] then some it
      else it.value.bind fun v => if k < key_eq v then some it else it.increment := by
    show (lower_bound key_eq t k).bind _ = _
    rw [found]
    rfl
  have low' : ∀ x ∈ before, key_eq x <= k := fun x mem => (low x mem).le
  rw [start]
  cases after with
  | nil =>
    exact ⟨it, _, _, if_pos (points.empty_iff.mpr rfl), points, low', forall_mem_nil _⟩
  | cons x after =>
    rw [if_neg (mt points.empty_iff.mp (cons_ne_nil _ _)), points.value_eq]
    have around := around_of_ordered ordered points.values_eq
    rcases (high x mem_cons_self).lt_or_eq with less | same
    · refine ⟨it, _, _, if_pos less, points, low', ?_⟩
      rw [forall_mem_cons]
      exact ⟨less, fun y mem => less.trans (around.2 y mem)⟩
    · rcases points.increment balanced (nodup_of_ordered ordered) with ⟨it', steps, points'⟩
      refine ⟨it', _, _, (if_neg same.not_lt).trans steps, points', ?_, ?_⟩
      · rw [forall_mem_append, forall_mem_singleton]
        exact ⟨low', same.ge⟩
      · exact fun y mem => same.trans_lt (around.2 y mem)

/-- `find` stands at the value with the key, or at the end if there is none. -/
theorem find_points (k : K) (balanced : t.Balanced) (ordered : t.Ordered key_eq) :
    ∃ it before after, find key_eq t k = some it ∧ Points t it before after ∧
      ((∃ x after', after = x :: after' ∧ key_eq x = k) ∨
        after = [] ∧ ∀ x ∈ t.values, key_eq x ≠ k) := by
  rcases lower_bound_points k balanced ordered with
    ⟨it, before, after, found, points, low, high⟩
  have start : find key_eq t k = if it.stack.elts = [] then some ⟨t, ⟨[], t.getHeight⟩⟩
      else it.value.bind fun v =>
        if k < key_eq v then some ⟨t, ⟨[], t.getHeight⟩⟩ else some it := by
    show (lower_bound key_eq t k).bind _ = _
    rw [found]
    rfl
  have atEnd : Points t ⟨t, ⟨[], t.getHeight⟩⟩ t.values [] := ⟨Located.atEnd⟩
  rw [start]
  cases after with
  | nil =>
    refine ⟨_, _, _, if_pos (points.empty_iff.mpr rfl), atEnd, .inr ⟨rfl, ?_⟩⟩
    rw [points.values_eq, append_nil]
    exact fun x mem => (low x mem).ne
  | cons x after =>
    rw [if_neg (mt points.empty_iff.mp (cons_ne_nil _ _)), points.value_eq]
    have around := around_of_ordered ordered points.values_eq
    rcases (high x mem_cons_self).lt_or_eq with less | same
    · refine ⟨_, _, _, if_pos less, atEnd, .inr ⟨rfl, ?_⟩⟩
      rw [points.values_eq, forall_mem_append, forall_mem_cons]
      exact ⟨fun y mem => (low y mem).ne, less.ne', fun y mem => (less.trans (around.2 y mem)).ne'⟩
    · exact ⟨it, _, _, if_neg same.not_lt, points, .inl ⟨x, after, rfl, same.symm⟩⟩

end Searches

/-! ## Runs -/

/-- What a tree offers: its values in the order of their keys, heights that are
right and balanced, searches that agree with the values, and iterators that step
through them in both directions. -/
structure Correct [DecidableEq V] (key_eq : V -> K) (t : Node V) : Prop where
  ordered : t.Ordered key_eq
  balanced : t.Balanced
  size : Node.size t = t.values.length
  min : Node.min t = t.values.head?
  max : Node.max t = t.values.getLast?
  popMin : (Node.popMin t).1 = t.values.head?
  popMax : (Node.popMax t).1 = t.values.getLast?
  lookup (k : K) : Node.lookup key_eq k t = t.values.find? fun x => key_eq x = k
  count (k : K) : Node.count key_eq k t = if k ∈ t.values.map key_eq then 1 else 0
  lookup_previous (k : K) : Node.lookup_previous key_eq k none t =
    (t.values.filter fun x => key_eq x <= k).getLast?
  begin : ∃ it, begin t = some it ∧ Points t it [] t.values
  «end» : ∃ it, «end» t = some it ∧ Points t it t.values []
  lower_bound (k : K) : ∃ it before after, lower_bound key_eq t k = some it ∧
    Points t it before after ∧ (∀ x ∈ before, key_eq x < k) ∧ ∀ x ∈ after, k <= key_eq x
  upper_bound (k : K) : ∃ it before after, upper_bound key_eq t k = some it ∧
    Points t it before after ∧ (∀ x ∈ before, key_eq x <= k) ∧ ∀ x ∈ after, k < key_eq x
  find (k : K) : ∃ it before after, find key_eq t k = some it ∧ Points t it before after ∧
    ((∃ x after', after = x :: after' ∧ key_eq x = k) ∨ after = [] ∧ ∀ x ∈ t.values, key_eq x ≠ k)
  value {it : Iterator V} {before after : List V} :
    Points t it before after -> t.values = before ++ after ∧ it.value = after.head?
  increment {it : Iterator V} {before after : List V} {x : V} :
    Points t it before (x :: after) ->
      ∃ it', it.increment = some it' ∧ Points t it' (before ++ [x]) after
  decrement {it : Iterator V} {before after : List V} {x : V} :
    Points t it (before ++ [x]) after ->
      ∃ it', it.decrement = some it' ∧ Points t it' before (x :: after)

theorem correct_of_ordered [DecidableEq V] (ordered : t.Ordered key_eq)
    (balanced : t.Balanced) : Correct key_eq t where
  ordered := ordered
  balanced := balanced
  size := Node.size_eq t
  min := Node.min_eq t
  max := Node.max_eq t
  popMin := (Node.values_popMin t).1
  popMax := (Node.values_popMax t).1
  lookup k := Node.lookup_eq k ordered
  count k := count_eq_mem k ordered
  lookup_previous k := by rw [Node.lookup_previous_eq k none ordered, Option.or_none]
  begin := begin_points balanced
  «end» := ⟨_, rfl, ⟨Located.atEnd⟩⟩
  lower_bound k := lower_bound_points k balanced ordered
  upper_bound k := upper_bound_points k balanced ordered
  find k := find_points k balanced ordered
  value points := ⟨points.values_eq, points.value_eq⟩
  increment points := points.increment balanced (nodup_of_ordered ordered)
  decrement points := points.decrement balanced (nodup_of_ordered ordered)

/-- The operations that make a tree from another one. -/
inductive Change (K V : Type) where
  | insert (value : V)
  | replace (value : V)
  | remove (key : K)
  | popMin
  | popMax

namespace Change

variable (key_eq)

def apply (t : Node V) : Change K V -> Node V
  | insert value => Node.insert key_eq value t
  | replace value => Node.replace key_eq value t
  | remove key => Node.remove key_eq key t
  | popMin => (Node.popMin t).2
  | popMax => (Node.popMax t).2

/-- The values after the operation. -/
def expected (values : List V) : Change K V -> List V
  | insert value =>
    if key_eq value ∈ values.map key_eq then values
    else values.filter (fun x => key_eq x < key_eq value) ++
      value :: values.filter fun x => key_eq value < key_eq x
  | replace value =>
    values.filter (fun x => key_eq x < key_eq value) ++
      value :: values.filter fun x => key_eq value < key_eq x
  | remove key => values.filter fun x => key_eq x ≠ key
  | popMin => values.tail
  | popMax => values.dropLast

variable {key_eq}

/-- One operation keeps a search tree balanced and ordered, with the values expected. -/
theorem apply_correct (ordered : t.Ordered key_eq) (balanced : t.Balanced) (change : Change K V) :
    (change.apply key_eq t).Ordered key_eq ∧ (change.apply key_eq t).Balanced ∧
      (change.apply key_eq t).values = change.expected key_eq t.values := by
  cases change with
  | insert value =>
    rw [apply, expected]
    split
    · rename_i there
      rw [Node.insert_present ordered balanced (mem_map.mp there)]
      exact ⟨ordered, balanced, rfl⟩
    · rename_i absent
      rw [Node.insert_absent fun w mem same => absent (mem_map.mpr ⟨w, mem, same⟩)]
      exact ⟨ordered.add value, (balanced.add value).1, values_add value ordered⟩
  | replace value =>
    rw [apply, Node.replace_eq_add]
    exact ⟨ordered.add value, (balanced.add value).1, values_add value ordered⟩
  | remove key =>
    rw [apply, Node.remove_eq]
    exact ⟨ordered.remove key, (balanced.remove key).1, values_remove key ordered⟩
  | popMin =>
    have values := (Node.values_popMin t).2
    refine ⟨?_, Node.popMin_balanced balanced, values⟩
    rw [apply, Ordered, values]
    exact Pairwise.tail ordered
  | popMax =>
    have values := (Node.values_popMax t).2
    refine ⟨?_, (Node.popMax_balanced balanced).1, values⟩
    rw [apply, Ordered, values]
    exact Pairwise.sublist (dropLast_sublist _) ordered

end Change

/-- A further tree made from one of those obtained before.  A position beyond them
stands for a newly constructed tree, which is empty. -/
def step (key_eq : V -> K) (trees : List (Node V)) (op : Nat × Change K V) :
    List (Node V) :=
  trees ++ [op.2.apply key_eq (trees.getD op.1 .nil)]

def run (key_eq : V -> K) (operations : List (Nat × Change K V)) : List (Node V) :=
  operations.foldl (step key_eq) []

/-- The same run on the lists of values. -/
def expectedRun (key_eq : V -> K) (operations : List (Nat × Change K V)) : List (List V) :=
  operations.foldl
    (fun values op =>
      values ++ [op.2.expected key_eq (values.getD op.1 [])]) []

theorem run_append (operations more : List (Nat × Change K V)) :
    run key_eq operations <+: run key_eq (operations ++ more) := by
  rw [run, run, foldl_append]
  generalize operations.foldl (step key_eq) [] = trees
  induction more generalizing trees with
  | nil => exact prefix_rfl
  | cons op more ih =>
    exact (prefix_append _ _).trans (ih _)

theorem run_ordered (operations : List (Nat × Change K V)) :
    (∀ t ∈ run key_eq operations, t.Ordered key_eq ∧ t.Balanced) ∧
      (run key_eq operations).map values = expectedRun key_eq operations := by
  induction operations using reverseRecOn with
  | nil => exact ⟨forall_mem_nil _, rfl⟩
  | append_singleton operations op ih =>
    rcases ih with ⟨correct, values⟩
    have source : ((run key_eq operations).getD op.1 .nil).Ordered key_eq ∧
        ((run key_eq operations).getD op.1 .nil).Balanced := by
      rw [getD_eq_getElem?_getD]
      cases found : (run key_eq operations)[op.1]? with
      | none => exact ⟨Pairwise.nil, balanced_nil⟩
      | some t => exact correct t (mem_of_getElem? found)
    have applied := op.2.apply_correct source.1 source.2
    have next : run key_eq (operations ++ [op]) =
        step key_eq (run key_eq operations) op := foldl_append
    have nextValues : expectedRun key_eq (operations ++ [op]) =
        expectedRun key_eq operations ++ [op.2.expected key_eq
          ((expectedRun key_eq operations).getD op.1 [])] := foldl_append
    have same : ((run key_eq operations).getD op.1 .nil).values =
        (expectedRun key_eq operations).getD op.1 [] := by
      rw [<- values]
      exact (getD_map _ AVLTree.nil AVLTree.values).symm
    rw [next, step, nextValues, forall_mem_append, forall_mem_singleton,
      map_append, values, map_singleton, applied.2.2, same]
    exact ⟨⟨correct, applied.1, applied.2.1⟩, rfl⟩

/-- Every tree of a run has the values expected and offers what a tree should,
and later operations leave it as it is. -/
theorem run_correct [DecidableEq V] (operations : List (Nat × Change K V)) :
    (run key_eq operations).map values = expectedRun key_eq operations ∧
      (∀ t ∈ run key_eq operations, Correct key_eq t) ∧
      ∀ more, run key_eq operations <+: run key_eq (operations ++ more) := by
  refine ⟨(run_ordered operations).2, fun t mem => ?_, run_append operations⟩
  rcases (run_ordered operations).1 t mem with ⟨ordered, balanced⟩
  exact correct_of_ordered ordered balanced

/-- The height of a tree, which bounds the steps of a search and the stack of an
iterator, is at most twice the logarithm of the number of values expected. -/
theorem run_height_le (operations : List (Nat × Change K V)) :
    Forall₂ (fun (t : Node V) values => 2 ^ t.getHeight <= (values.length + 1) ^ 2)
      (run key_eq operations) (expectedRun key_eq operations) := by
  rw [<- (run_ordered operations).2, forall₂_map_right_iff, forall₂_same]
  exact fun t mem => ((run_ordered operations).1 t mem).2.two_pow_height_le

end ImmutableTree
end LlvmProject
