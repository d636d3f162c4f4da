import LlvmProject.Rewrite.RewriteRopeInvariant

namespace LlvmProject

open List Option Nat

namespace RewriteRope

/-!
# The iteration over the rope

The iterator goes through the pieces of a leaf and then to the next leaf in the
order.  In a valid tree the order is that of the leaves below the root, so the
pieces come in the order of the tree.
-/

open SizedParts LinkedOrder

variable {α : Type}

namespace RopePieceBTreeNode

variable {height : Nat} {node : RopePieceBTreeNode α}

/-- The leaves of a valid tree have pieces, and the first of them is found on the
left side. -/
theorem Valid.leaves_spec (valid : Valid height node) :
    (∀ L ∈ node.leaves, L.Pieces ≠ []) ∧ ∃ L rest, node.leaves = L :: rest ∧
      node.firstLeaf = some L := by
  induction height generalizing node with
  | zero =>
    rcases valid.cases with ⟨L, rfl, _, _, nonempty⟩ | ⟨_, _, _, _, never, _⟩
    · refine ⟨?_, L, [], by rw [leaves], by rw [firstLeaf]⟩
      rw [leaves]
      exact forall_mem_singleton.mpr nonempty
    · cases never
  | succ height ih =>
    rcases valid.cases with ⟨_, _, never, _⟩ |
      ⟨below, Size, Children, rfl, same, nonempty, _, _, _, childrenValid⟩
    · cases never
    rcases succ.inj same with rfl
    have all : ∀ Children : List (RopePieceBTreeNode α),
        (∀ Child ∈ Children, Valid height Child) ->
          ∀ L ∈ childrenLeaves Children, L.Pieces ≠ [] := by
      intro Children valid
      induction Children with
      | nil => exact fun L mem => absurd mem not_mem_nil
      | cons Child rest restHypothesis =>
        rcases forall_mem_cons.mp valid with ⟨here, later⟩
        rw [childrenLeaves]
        exact forall_mem_append.mpr ⟨(ih here).1, restHypothesis later⟩
    rcases exists_cons_of_ne_nil nonempty with ⟨Child, others, rfl⟩
    rcases ih (childrenValid Child mem_cons_self) with
      ⟨_, L, rest, first, found⟩
    refine ⟨?_, L, rest ++ childrenLeaves others, ?_, ?_⟩
    · rw [leaves]
      exact all _ childrenValid
    · rw [leaves, childrenLeaves, first, cons_append]
    · rw [firstLeaf, found]

end RopePieceBTreeNode

namespace RopePieceBTree

open RopePieceBTreeNode

variable {T : RopePieceBTree α} {L : RopePieceBTreeLeaf α} {before after : List (RopePieceBTreeLeaf α)}

/-- A leaf below the root is found by its address. -/
theorem getCN_eq (leaves : T.Root.leaves = before ++ L :: after) (distinct : T.Root.ids.Nodup) :
    T.getCN L.id = some L := by
  rw [ids, leaves, map_append, map_cons] at distinct
  rcases nodup_append.mp distinct with ⟨_, _, apart⟩
  have passed : ∀ L' ∈ before, ¬(L'.id == L.id) = true := fun L' mem same =>
    apart L'.id (mem_map_of_mem mem) L.id mem_cons_self (eq_of_beq same)
  rw [getCN, leaves, find?_append, find?_eq_none.mpr passed, none_or]
  exact find?_cons_of_pos (beq_self_eq_true L.id)

theorem next_eq (leaves : T.Root.leaves = before ++ L :: after)
    (threaded : Threaded T.order T.Root.ids) :
    T.order.links.next L.id = after.head?.map RopePieceBTreeLeaf.id := by
  have order := threaded.order
  rw [ids, leaves, map_append, map_cons] at order
  rw [order.next_eq, head?_map]

/-- A leaf with pieces is not skipped. -/
theorem skipEmpty_eq (steps : Nat) (found : T.getCN L.id = some L) (nonempty : L.Pieces ≠ []) :
    T.skipEmpty (steps + 1) (some L.id) = some (some L.id) := by
  rw [skipEmpty, found, bind_eq_bind, bind_some,
    if_neg (fun empty => nonempty (length_eq_zero_iff.mp empty))]

theorem piecesFrom_eq (threaded : Threaded T.order T.Root.ids) (full : ∀ L ∈ T.Root.leaves, L.Pieces
    ≠ []) (steps : Nat) (leaves : T.Root.leaves = before ++ L :: after) {passed rest : List
    (RopePiece α)} {R : RopePiece α} (pieces : L.Pieces = passed ++ R :: rest) (enough : (R :: rest
    ++ after.flatMap RopePieceBTreeLeaf.Pieces).length < steps) :
    T.piecesFrom steps ⟨some L.id, some (L.id, passed.length), 0⟩ =
      some ((R :: rest ++ after.flatMap RopePieceBTreeLeaf.Pieces).map RopePiece.text) := by
  induction steps generalizing before L after passed rest R with
  | zero => exact absurd enough (not_lt_zero _)
  | succ steps ih =>
    have found := getCN_eq leaves threaded.distinct
    have here : L.Pieces[passed.length]? = some R := by
      rw [pieces, getElem?_append_right (le_refl _), Nat.sub_self, getElem?_cons_zero]
    have length : L.Pieces.length = passed.length + rest.length + 1 := by
      rw [pieces, length_append, length_cons, add_assoc]
    have someLeft : ¬L.Pieces.length = 0 := by omega
    rw [cons_append, length_cons] at enough
    rw [piecesFrom, if_neg (by rintro ⟨never, _⟩; cases never), piece, MoveToNextPiece]
    simp only [bind_eq_bind, bind_some, found, here, if_neg someLeft]
    cases rest with
    | cons R' rest =>
      have notLast : (L.id, passed.length) ≠ (L.id, L.Pieces.length - 1) := by
        rw [length, length_cons]
        simp only [ne_eq, Prod.mk.injEq, true_and]
        omega
      have next : L.Pieces = (passed ++ [R]) ++ R' :: rest := by
        rw [pieces, append_cons]
      have later := ih leaves next (by omega)
      rw [length_append, length_singleton] at later
      rw [if_pos notLast]
      simp only [Option.pure_def, bind_some, later]
      rw [cons_append, cons_append, cons_append, map_cons, map_cons, map_cons]
    | nil =>
      have last : ¬(L.id, passed.length) ≠ (L.id, L.Pieces.length - 1) := by
        rw [length, length_nil, add_zero, Nat.add_sub_cancel]
        exact not_not.mpr rfl
      rw [if_neg last, next_eq leaves threaded]
      cases after with
      | nil =>
        rcases steps with _ | steps
        · exact absurd enough (not_lt_zero _ ∘ lt_of_succ_lt_succ)
        · rfl
      | cons L' after =>
        have leaves' : T.Root.leaves = (before ++ [L]) ++ L' :: after := by
          rw [leaves, append_cons]
        have nonempty := full L' (leaves' ▸ mem_append_right _ mem_cons_self)
        have found' := getCN_eq leaves' threaded.distinct
        rcases exists_cons_of_ne_nil nonempty with ⟨R', rest', first⟩
        rw [flatMap_cons, first] at enough ⊢
        rcases steps with _ | steps
        · exact absurd enough (not_lt_zero _ ∘ lt_of_succ_lt_succ)
        have skipped := skipEmpty_eq steps found' nonempty
        have start : L'.Pieces = [] ++ R' :: rest' := first
        have later := ih leaves' start (by simpa using enough)
        rw [head?_cons, map_some, skipped]
        simp only [bind_some, Option.pure_def]
        rw [atFirstPiece, map_some]
        rw [length_nil] at later
        rw [later]
        simp

theorem iterate_eq {height : Nat} (valid : Valid height T.Root)
    (threaded : Threaded T.order T.Root.ids) {steps : Nat} (enough : T.Root.pieces.length < steps) :
    T.iterate steps = some (textOf T.Root.pieces) := by
  rcases valid.leaves_spec with ⟨full, L, after, leaves, first⟩
  have nonempty := full L (leaves ▸ mem_cons_self)
  have here : T.Root.leaves = [] ++ L :: after := leaves
  have found := getCN_eq here threaded.distinct
  rcases exists_cons_of_ne_nil nonempty with ⟨R, rest, pieces⟩
  have all : T.Root.pieces = R :: rest ++ after.flatMap RopePieceBTreeLeaf.Pieces := by
    rw [RopePieceBTreeNode.pieces, leaves, flatMap_cons, pieces]
  rw [all] at enough ⊢
  have start : L.Pieces = [] ++ R :: rest := pieces
  have iterated := piecesFrom_eq threaded full steps here start enough
  rcases steps with _ | steps
  · exact absurd enough (not_lt_zero _)
  rw [iterate, begin, first]
  simp only [bind_eq_bind, bind_some, skipEmpty_eq steps found nonempty,
    Option.pure_def, atFirstPiece, map_some]
  rw [length_nil] at iterated
  rw [iterated, bind_some, textOf]

end RopePieceBTree

end RewriteRope
end LlvmProject
