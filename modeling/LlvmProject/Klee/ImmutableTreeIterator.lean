import LlvmProject.Klee.ImmutableTree

namespace LlvmProject

open List

namespace ImmutableTree

open RelaxedAVL AVLTree

/-!
# Iterators over immutable trees

The stack of an iterator is a path.  It splits the values of the tree into
those before the iterator and those from it on.  Along a path heights go down by
at least one, so that the path to a node leaves room for the rest of the way to
a leaf, and the capacity is never exceeded.
-/

variable {K V : Type} {root sub n : Node V} {path : List (Node V)} {before after : List V}

/-! ## Paths -/

/-- A subtree below a path, with the values of the tree before and after it. -/
inductive Focus (root : Node V) : List (Node V) -> Node V -> List V -> List V -> Prop where
  | here : Focus root [] root [] []
  | left {path : List (Node V)} {l r : Node V} {v : V} {h : Nat} {before after : List V}
      (above : Focus root path (.node l v h r) before after) :
      Focus root (.node l v h r :: path) l before (v :: r.values ++ after)
  | right {path : List (Node V)} {l r : Node V} {v : V} {h : Nat} {before after : List V}
      (above : Focus root path (.node l v h r) before after) :
      Focus root (.node l v h r :: path) r (before ++ l.values ++ [v]) after

/-- A stack with the values before the iterator and those from it on. -/
inductive Located (root : Node V) : List (Node V) -> List V -> List V -> Prop where
  | atEnd : Located root [] root.values []
  | atNode {path : List (Node V)} {l r : Node V} {v : V} {h : Nat} {before after : List V}
      (focus : Focus root path (.node l v h r) before after) :
      Located root (.node l v h r :: path) (before ++ l.values) (v :: r.values ++ after)

theorem Focus.values_eq (focus : Focus root path sub before after) :
    root.values = before ++ sub.values ++ after := by
  induction focus with
  | here => simp
  | left _ ih => simpa using ih
  | right _ ih => simpa using ih

theorem Located.values_eq (located : Located root path before after) :
    root.values = before ++ after := by
  cases located with
  | atEnd => simp
  | atNode focus => simpa using focus.values_eq

theorem Focus.balanced (focus : Focus root path sub before after) (balanced : root.Balanced) :
    sub.Balanced ∧ path.length + sub.getHeight <= root.getHeight := by
  induction focus with
  | here => exact ⟨balanced, by simp⟩
  | left _ ih =>
    rcases ih with ⟨⟨leftBalanced, -, exact, -⟩, room⟩
    rw [getHeight_node] at room
    exact ⟨leftBalanced, by rw [length_cons]; omega⟩
  | right _ ih =>
    rcases ih with ⟨⟨-, rightBalanced, exact, -⟩, room⟩
    rw [getHeight_node] at room
    exact ⟨rightBalanced, by rw [length_cons]; omega⟩

theorem Focus.left_ne_right {l r : Node V} {v : V} {h : Nat} (focus : Focus root
    path (.node l v h r) before after) (nodup : root.values.Nodup) (some : l ≠ .nil) : l ≠ r := by
  rintro rfl
  rw [focus.values_eq, nodup_append, nodup_append, values_node, nodup_append]
    at nodup
  cases l with
  | nil => exact some rfl
  | node ll lv lh lr =>
    have inside : lv ∈ (AVLTree.node ll lv lh lr).values := by simp
    exact nodup.1.2.1.2.2 lv inside lv (mem_cons_of_mem v inside) rfl

/-! ## Going down -/

theorem push_back_eq {l r : Node V} {v : V} {h : Nat}
    (focus : Focus root path (.node l v h r) before after) (balanced : root.Balanced) :
    FixedStack.push_back ⟨path, root.getHeight⟩ (.node l v h r) =
      some ⟨.node l v h r :: path, root.getHeight⟩ := by
  have facts := focus.balanced balanced
  have pos := facts.1.height_pos
  exact if_pos (show path.length < root.getHeight by
    have room := facts.2
    rw [getHeight_node] at room
    omega)

theorem pushLefts_eq (focus : Focus root path sub before after) (balanced : root.Balanced)
    (some : sub ≠ .nil) :
    ∃ path', FixedStack.pushLefts sub ⟨path, root.getHeight⟩ = .some ⟨path', root.getHeight⟩ ∧
      Located root path' before (sub.values ++ after) := by
  induction sub generalizing path before after with
  | nil => exact absurd rfl some
  | node l v h r ih _ =>
    rw [FixedStack.pushLefts, push_back_eq focus balanced, Option.bind_some]
    by_cases leaf : l = .nil
    · subst leaf
      refine ⟨_, rfl, ?_⟩
      have located := Located.atNode focus
      rwa [values_nil, append_nil] at located
    · rcases ih focus.left leaf with ⟨path', pushed, located⟩
      exact ⟨path', pushed, by simpa using located⟩

theorem pushRights_eq (focus : Focus root path sub before after) (balanced : root.Balanced)
    (some : sub ≠ .nil) :
    ∃ path' before' x,
      FixedStack.pushRights sub ⟨path, root.getHeight⟩ = .some ⟨path', root.getHeight⟩ ∧
        before ++ sub.values = before' ++ [x] ∧ Located root path' before' (x :: after) := by
  induction sub generalizing path before after with
  | nil => exact absurd rfl some
  | node l v h r _ ih =>
    rw [FixedStack.pushRights, push_back_eq focus balanced, Option.bind_some]
    by_cases leaf : r = .nil
    · subst leaf
      exact ⟨_, before ++ l.values, v, rfl, by simp, Located.atNode focus⟩
    · rcases ih focus.right leaf with ⟨path', before', x, pushed, last, located⟩
      exact ⟨path', before', x, pushed, by simpa using last, located⟩

/-! ## Going up -/

variable [DecidableEq V]

theorem climbLeft_located (focus : Focus root path sub before after) (some : sub ≠ .nil)
    (nodup : root.values.Nodup) :
    Located root (climbLeft sub path) (before ++ sub.values) after := by
  induction focus with
  | here => exact Located.atEnd
  | left above _ =>
    rw [climbLeft, if_pos rfl]
    exact Located.atNode above
  | @right path l r v h before after above ih =>
    have differ : r ≠ l := fun same =>
      above.left_ne_right nodup (same ▸ some) same.symm
    rw [climbLeft, if_neg differ]
    simpa using ih nofun

/-- The next value to the left, or the end if there is none. -/
theorem climbRight_located (focus : Focus root path sub before after) (some : sub ≠ .nil)
    (nodup : root.values.Nodup) :
    before = [] ∧ climbRight sub path = [] ∨ ∃ before' x, before = before' ++ [x] ∧
      Located root (climbRight sub path) before' (x :: sub.values ++ after) := by
  induction focus with
  | here => exact .inl ⟨rfl, rfl⟩
  | right above _ =>
    rw [climbRight, if_pos rfl]
    exact .inr ⟨_, _, rfl, Located.atNode above⟩
  | @left path l r v h before after above ih =>
    rw [climbRight, if_neg (above.left_ne_right nodup some)]
    rcases ih nofun with first | ⟨before', x, last, located⟩
    · exact .inl first
    · exact .inr ⟨before', x, last, by simpa using located⟩

/-! ## Iterators -/

/-- The iterator stands in the tree between two parts of its values. -/
inductive Points (t : Node V) : Iterator V -> List V -> List V -> Prop where
  | mk {elts : List (Node V)} {before after : List V} (located : Located t elts before after) :
      Points t ⟨t, ⟨elts, t.getHeight⟩⟩ before after

variable {t : Node V} {it : Iterator V}

omit [DecidableEq V] in
theorem Points.values_eq (points : Points t it before after) : t.values = before ++ after := by
  rcases points with ⟨located⟩
  exact located.values_eq

omit [DecidableEq V] in
theorem Points.value_eq (points : Points t it before after) : it.value = after.head? := by
  rcases points with ⟨located⟩
  cases located with
  | atEnd => rfl
  | atNode focus => rfl

omit [DecidableEq V] in
theorem Points.empty_iff (points : Points t it before after) : it.stack.elts = [] ↔ after = [] := by
  rcases points with ⟨located⟩
  cases located with
  | atEnd => exact iff_of_true rfl rfl
  | atNode focus => exact iff_of_false nofun nofun

/-- Stepping forward goes to the next value. -/
theorem Points.increment {x : V} (points : Points t it before (x :: after))
    (balanced : t.Balanced) (nodup : t.values.Nodup) :
    ∃ it', it.increment = some it' ∧ Points t it' (before ++ [x]) after := by
  rcases points with ⟨located⟩
  generalize same : x :: after = whole at located
  cases located with
  | atEnd => exact nomatch same
  | @atNode path l r v h before after' focus =>
    rcases List.cons.inj same with ⟨rfl, rfl⟩
    cases r with
    | nil =>
      refine ⟨_, rfl, ⟨?_⟩⟩
      simpa using climbLeft_located focus nofun nodup
    | node rl rv rh rr =>
      rcases pushLefts_eq focus.right balanced nofun with ⟨path', pushed, located⟩
      refine ⟨_, ?_, ⟨located⟩⟩
      rw [FixedStack.pushLefts] at pushed
      show ((FixedStack.push_back _ _).bind _).map _ = _
      rw [pushed]
      rfl

/-- Stepping back goes to the value before. -/
theorem Points.decrement {x : V} (points : Points t it (before ++ [x]) after)
    (balanced : t.Balanced) (nodup : t.values.Nodup) :
    ∃ it', it.decrement = some it' ∧ Points t it' before (x :: after) := by
  rcases points with ⟨located⟩
  generalize same : before ++ [x] = whole at located
  cases located with
  | atEnd =>
    have some : t ≠ .nil := by
      rintro rfl
      exact append_ne_nil_of_right_ne_nil _ (cons_ne_nil _ _) same
    rcases pushRights_eq Focus.here balanced some with ⟨path', before', y, pushed, last, located⟩
    rw [nil_append, <- same] at last
    rcases append_inj' last rfl with ⟨rfl, tail⟩
    cases tail
    refine ⟨_, ?_, ⟨located⟩⟩
    show (FixedStack.pushRights t _).map _ = _
    rw [pushed]
    rfl
  | @atNode path l r v h before' after focus =>
    cases l with
    | nil =>
      rw [values_nil, append_nil] at same
      refine ⟨_, rfl, ⟨?_⟩⟩
      rcases climbRight_located focus nofun nodup with ⟨none, -⟩ | ⟨before'', y, last, located⟩
      · exact absurd (same.trans none)
          (append_ne_nil_of_right_ne_nil _ (cons_ne_nil _ _))
      · rcases append_inj' (same.trans last) rfl with ⟨rfl, tail⟩
        cases tail
        exact located
    | node ll lv lh lr =>
      rcases pushRights_eq focus.left balanced nofun with
        ⟨path', before'', y, pushed, last, located⟩
      rcases append_inj' (same.trans last) rfl with ⟨rfl, tail⟩
      cases tail
      refine ⟨_, ?_, ⟨located⟩⟩
      rw [FixedStack.pushRights] at pushed
      show ((FixedStack.push_back _ _).bind _).map _ = _
      rw [pushed]
      rfl

end ImmutableTree
end LlvmProject
