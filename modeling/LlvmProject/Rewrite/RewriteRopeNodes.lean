import LlvmProject.Rewrite.RewriteRopeLeaves

namespace LlvmProject

open List Option Nat

namespace RewriteRope

/-!
# Operations on the nodes of the rope

An interior node passes an insertion on to the child with the cut, and takes a
new child when that child was split.  A removal goes to the children it
overlaps, and the ones it covers are destroyed.
-/

open SizedParts LinkedOrder

variable {α : Type}

namespace RopePieceBTreeNode

variable {A B Children : List (RopePieceBTreeNode α)} {Child RHS node : RopePieceBTreeNode α}
  {height Offset NumBytes Size : Nat} {l r newPieces : List (RopePiece α)} {R : RopePiece α}
  {result : RopePieceBTreeNode α × Option (RopePieceBTreeNode α) × LeafOrder}

/-! ## New children -/

/-- The new child is put behind the one it was split from, and a full node
becomes two halves. -/
theorem HandleChildPiece_cases (RHS : RopePieceBTreeNode α) (Size : Nat)
    (width : (A ++ Child :: B).length <= 2 * WidthFactor) :
    ((A ++ Child :: RHS :: B).length <= 2 * WidthFactor ∧
      HandleChildPiece A.length RHS Size (A ++ Child :: B) =
        (interior Size (A ++ Child :: RHS :: B), none)) ∨
    ∃ X Y, X ++ Y = A ++ Child :: RHS :: B ∧ X ≠ [] ∧ Y ≠ [] ∧
      X.length <= 2 * WidthFactor ∧ Y.length <= 2 * WidthFactor ∧
      HandleChildPiece A.length RHS Size (A ++ Child :: B) =
        (recomputedInterior X, some (recomputedInterior Y)) := by
  have inserted : ∀ B : List (RopePieceBTreeNode α),
      (A ++ Child :: B).insertIdx (A.length + 1) RHS = A ++ Child :: RHS :: B := by
    intro B
    have place := Weave.insertIdx_append_length (A ++ [Child]) B RHS
    rw [length_append, length_singleton, <- append_cons, <- append_cons] at place
    exact place
  have lengths : (A ++ Child :: B).length = A.length + (B.length + 1) := by
    rw [length_append, length_cons]
  rw [HandleChildPiece]
  by_cases full : isFull (A ++ Child :: B) = true
  · right
    have length : (A ++ Child :: B).length = 2 * WidthFactor := eq_of_beq full
    have wide : 2 * WidthFactor = 16 := rfl
    have half : WidthFactor = 8 := rfl
    rw [full]
    simp only [Bool.not_true, Bool.false_eq_true, if_false]
    by_cases left : A.length < WidthFactor
    · have firstHalf : (A ++ Child :: B).take WidthFactor =
          A ++ Child :: B.take (WidthFactor - A.length - 1) := by
        rw [take_append, take_of_length_le left.le,
          show WidthFactor - A.length = WidthFactor - A.length - 1 + 1 by omega,
          take_succ_cons, Nat.add_sub_cancel]
      have secondHalf : (A ++ Child :: B).drop WidthFactor =
          B.drop (WidthFactor - A.length - 1) := by
        rw [drop_append, drop_of_length_le left.le, nil_append,
          show WidthFactor - A.length = WidthFactor - A.length - 1 + 1 by omega,
          drop_succ_cons, Nat.add_sub_cancel]
      refine ⟨A ++ Child :: RHS :: B.take (WidthFactor - A.length - 1),
        B.drop (WidthFactor - A.length - 1), ?_, ?_, ?_, ?_, ?_, ?_⟩
      · rw [append_assoc, cons_append, cons_append, take_append_drop]
      · exact append_ne_nil_of_right_ne_nil _ (cons_ne_nil _ _)
      · apply ne_nil_of_length_pos
        rw [length_drop]
        omega
      · simp only [length_append, length_cons, length_take]
        omega
      · rw [length_drop]
        omega
      · rw [if_pos left, firstHalf, secondHalf, inserted]
    · have firstHalf : (A ++ Child :: B).take WidthFactor = A.take WidthFactor := by
        rw [take_append_of_le_length (by omega)]
      have secondHalf : (A ++ Child :: B).drop WidthFactor = A.drop WidthFactor ++ Child :: B := by
        rw [drop_append_of_le_length (by omega)]
      have place : A.length - WidthFactor + 1 = (A.drop WidthFactor ++ [Child]).length := by
        rw [length_append, length_drop, length_singleton]
      refine ⟨A.take WidthFactor, A.drop WidthFactor ++ Child :: RHS :: B, ?_, ?_, ?_, ?_, ?_, ?_⟩
      · rw [<- append_assoc, take_append_drop]
      · apply ne_nil_of_length_pos
        rw [length_take]
        omega
      · exact append_ne_nil_of_right_ne_nil _ (cons_ne_nil _ _)
      · rw [length_take]
        omega
      · simp only [length_append, length_cons, length_drop]
        omega
      · rw [if_neg left, firstHalf, secondHalf, place, append_cons,
          Weave.insertIdx_append_length, <- append_cons]
  · left
    have room : (A ++ Child :: B).length ≠ 2 * WidthFactor := fun length =>
      full (by rw [isFull, length]; exact beq_self_eq_true _)
    rw [Bool.not_eq_true] at full
    rw [full, inserted]
    refine ⟨?_, rfl⟩
    simp only [length_append, length_cons] at width room ⊢
    omega

/-- What becomes of an interior node when one of its children became one or two
nodes. -/
theorem handleChild_grown {S : LeafOrder} (width : (A ++ Child :: B).length <= 2 * WidthFactor)
    (valid : ∀ node ∈ A ++ Child :: B, Valid height node) (grown : Grown height S Child.ids
    newPieces result) (sizes : Size = extent RopePiece.size (childrenPieces A ++ newPieces ++
    childrenPieces B)) (small : Size < 2 ^ 32) :
    Grown (height + 1) S (childrenIds (A ++ Child :: B))
      (childrenPieces A ++ newPieces ++ childrenPieces B)
      (handleChild A.length Size (A ++ Child :: B) result) := by
  rcases forall_mem_append.mp valid with ⟨beforeValid, restValid⟩
  rcases forall_mem_cons.mp restValid with ⟨_, afterValid⟩
  have replaced : ∀ Child' : RopePieceBTreeNode α,
      (A ++ Child :: B).set A.length Child' = A ++ Child' :: B := fun Child' => by
    rw [set_append_right _ _ (le_refl _), Nat.sub_self, set_cons_zero]
  have nodes : ∀ node ∈ A ++ nodesOf result ++ B, Valid height node :=
    forall_mem_append.mpr
      ⟨forall_mem_append.mpr ⟨beforeValid, grown.valid⟩, afterValid⟩
  have nodesPieces : childrenPieces (A ++ nodesOf result ++ B) =
      childrenPieces A ++ newPieces ++ childrenPieces B := by
    rw [childrenPieces_append, childrenPieces_append, grown.pieces_eq]
  have threads : ∀ front back, Threaded S (front ++ childrenIds (A ++ Child :: B) ++ back) ->
      Threaded result.2.2 (front ++ childrenIds (A ++ nodesOf result ++ B) ++ back) := by
    intro front back start
    have moved := grown.threaded (front ++ childrenIds A) (childrenIds B ++ back)
      (by simpa [append_assoc] using start)
    simpa [append_assoc] using moved
  rw [<- nodesPieces] at sizes ⊢
  rcases result with ⟨Child', _ | RHS, S'⟩
  · rw [handleChild, replaced]
    have same : A ++ nodesOf (Child', none, S') ++ B = A ++ Child' :: B := by
      rw [nodesOf, toList_none, append_assoc, singleton_append]
    rw [same] at nodes sizes threads ⊢
    refine grown_one (interior_valid
      (append_ne_nil_of_right_ne_nil _ (cons_ne_nil _ _)) ?_ sizes small nodes)
      (pieces_interior _ _) ?_
    · simpa using width
    · simpa using threads
  · have same : A ++ nodesOf (Child', some RHS, S') ++ B = A ++ Child' :: RHS :: B := by
      rw [nodesOf, toList_some, append_assoc, cons_append, singleton_append]
    have width' : (A ++ Child' :: B).length <= 2 * WidthFactor := by simpa using width
    rw [handleChild, replaced]
    rw [same] at nodes sizes threads ⊢
    rcases HandleChildPiece_cases RHS Size width' with
      ⟨room, handled⟩ | ⟨X, Y, halves, firstNonempty, secondNonempty, firstWidth, secondWidth, handled⟩
    · simp only [handled]
      refine grown_one (interior_valid
        (append_ne_nil_of_right_ne_nil _ (cons_ne_nil _ _)) room sizes small nodes)
        (pieces_interior _ _) ?_
      rw [ids_interior]
      exact threads
    · simp only [handled]
      rw [<- halves] at nodes sizes threads ⊢
      rcases forall_mem_append.mp nodes with ⟨firstValid, secondValid⟩
      rw [childrenPieces_append, extent_append] at sizes
      refine grown_two (recomputedInterior_valid firstNonempty firstWidth (by omega) firstValid)
        (recomputedInterior_valid secondNonempty secondWidth (by omega) secondValid) ?_ ?_
      · rw [recomputedInterior, pieces_interior, recomputedInterior, pieces_interior,
          childrenPieces_append]
      · rw [recomputedInterior, ids_interior, recomputedInterior, ids_interior,
          <- childrenIds_append]
        exact threads

theorem extent_children (valid : ∀ node ∈ A, Valid height node) :
    extent size A = extent RopePiece.size (childrenPieces A) := children_size valid

/-! ## Splits -/

theorem splitChild_eq (A B : List (RopePieceBTreeNode α)) (Child : RopePieceBTreeNode α)
    (S : LeafOrder) : splitChild Offset (A ++ Child :: B) A.length S = split Offset Child S := by
  induction A with
  | nil => rfl
  | cons first A ih => exact ih

/-- Making a cut below a node. -/
theorem Valid.split_spec (valid : Valid height node) (within : Offset <= node.size)
    (S : LeafOrder) :
    ∃ result l r, node.split Offset S = some result ∧ Grown height S node.ids (l ++ r) result ∧
      extent RopePiece.size l = Offset ∧ textOf (l ++ r) = textOf node.pieces := by
  induction height generalizing node Offset with
  | zero =>
    rcases valid.cases with ⟨L, rfl, _, leafValid, nonempty⟩ | ⟨_, _, _, _, never, _⟩
    · rcases leafValid.split_spec nonempty within S with
        ⟨result, l, r, run, grown, offset, text⟩
      refine ⟨ofLeaf result, l, r, ?_, ?_, offset, ?_⟩
      · rw [split, if_pos (show Offset <= L.Size from within), run, map_some]
      · rw [ids_leaf]
        exact grown
      · rw [text, pieces_leaf]
    · cases never
  | succ height ih =>
    have unchanged := grown_unchanged valid S
    have whole := valid.size_eq
    have small := valid.size_lt
    rcases valid.cases with ⟨_, _, never, _⟩ |
      ⟨below, Size, Children, rfl, same, nonempty, width, sizes, _, childrenValid⟩
    · cases never
    rcases succ.inj same with rfl
    rw [pieces_interior] at whole unchanged ⊢
    change Offset <= Size at within
    change Size < 2 ^ 32 at small
    change Size = extent RopePiece.size (childrenPieces Children) at whole
    rw [split, if_pos within]
    by_cases outer : Offset = 0 ∨ Offset = Size
    · rw [if_pos outer]
      rcases outer with start | atEnd
      · exact ⟨_, [], childrenPieces Children, rfl, unchanged, start.symm, rfl⟩
      · refine ⟨_, childrenPieces Children, [], rfl, ?_, whole.symm.trans atEnd.symm, ?_⟩
        · rw [append_nil]
          exact unchanged
        · rw [append_nil]
    rw [if_neg outer]
    rw [not_or] at outer
    rcases passWhile_parts size (decide <| · <= Offset) 0 0 nonempty
        (by rw [decide_eq_false_iff_not, zero_add, extent_children childrenValid]; omega)
        (by rw [extent_children childrenValid]; omega) with
      ⟨A, Child, B, rfl, passed, ends, starts⟩
    rcases forall_mem_append.mp childrenValid with ⟨beforeValid, restValid⟩
    have childValid := restValid Child mem_cons_self
    have childSize := childValid.size_eq
    rw [decide_eq_false_iff_not, zero_add, extent_children beforeValid] at ends
    rw [decide_eq_true_eq, zero_add, extent_children beforeValid] at starts
    rw [zero_add, zero_add, extent_children beforeValid] at passed
    rw [passed, bind_some]
    simp only
    have before : extent RopePiece.size (childrenPieces A) <= Offset := by
      rcases starts with rfl | early
      · exact zero_le _
      · exact early
    by_cases already : extent RopePiece.size (childrenPieces A) = Offset
    · rw [if_pos already]
      refine ⟨_, childrenPieces A, childrenPieces (Child :: B), rfl, ?_, already, ?_⟩
      · rw [<- childrenPieces_append]
        exact unchanged
      · rw [<- childrenPieces_append]
    · rw [if_neg already, splitChild_eq, sub32_eq before (by omega)]
      rcases ih childValid
          (show Offset - extent RopePiece.size (childrenPieces A) <= Child.size by omega) with
        ⟨result, l, r, run, grown, offset, text⟩
      have piecesValid : AllValid (l ++ r) := by
        rw [<- grown.pieces_eq]
        exact children_allValid grown.valid
      have kept : extent RopePiece.size (l ++ r) = extent RopePiece.size Child.pieces := by
        rw [<- piecesValid.length_textOf, text, childValid.allValid.length_textOf]
      refine ⟨handleChild A.length Size (A ++ Child :: B) result, childrenPieces A ++ l,
        r ++ childrenPieces B, ?_, ?_, ?_, ?_⟩
      · rw [run, map_some]
      · rw [ids_interior, append_assoc, <- append_assoc l, <- append_assoc]
        refine handleChild_grown width childrenValid grown ?_ small
        rw [whole, childrenPieces_append, childrenPieces_cons]
        simp only [extent_append, kept]
        omega
      · rw [extent_append, offset]
        omega
      · rw [childrenPieces_append, childrenPieces_cons, append_assoc, <- append_assoc l,
          textOf_append, textOf_append (l ++ r), text, textOf_append, textOf_append]

/-! ## Insertions -/

theorem insertChild_eq (R : RopePiece α) (A B : List (RopePieceBTreeNode α))
    (Child : RopePieceBTreeNode α) (S : LeafOrder) :
    insertChild Offset R (A ++ Child :: B) A.length S = insert Offset R Child S := by
  induction A with
  | nil => rfl
  | cons first A ih => exact ih

/-- An insertion goes to a child whose text touches the offset. -/
theorem insertionChild_spec (nonempty : Children ≠ []) (within : Offset <= extent size Children)
    (small : extent size Children < 2 ^ 32) (width : Children.length <= 2 * WidthFactor) :
    ∃ A Child B, Children = A ++ Child :: B ∧
      insertionChild Offset (extent size Children) Children = some (A.length, extent size A) ∧
      extent size A <= Offset ∧ Offset <= extent size A + Child.size := by
  rw [insertionChild]
  by_cases atEnd : Offset = extent size Children
  · rcases eq_nil_or_concat Children with rfl | ⟨A, Child, rfl⟩
    · exact absurd rfl nonempty
    · rw [concat_eq_append] at *
      have wide : 2 * WidthFactor = 16 := rfl
      have length : (A ++ [Child]).length = A.length + 1 := length_append
      have last : sub32 (A ++ [Child]).length 1 = A.length := by
        rw [sub32_eq (by omega) (by omega), length, Nat.add_sub_cancel]
      have whole : extent size (A ++ [Child]) = extent size A + Child.size := by
        rw [extent_append, extent_cons, extent_nil, add_zero]
      refine ⟨A, Child, [], rfl, ?_, ?_, ?_⟩
      · rw [if_pos atEnd]
        simp only [last]
        rw [getElem?_append_right (Nat.le_refl _), Nat.sub_self, getElem?_cons_zero,
          map_some, sub32_eq (by omega) small, whole, Nat.add_sub_cancel]
      · omega
      · omega
  · rcases passWhile_parts size (decide <| · < Offset) 0 0 nonempty
        (by rw [decide_eq_false_iff_not]; omega) (by omega) with
      ⟨A, Child, B, rfl, passed, ends, starts⟩
    rw [decide_eq_false_iff_not] at ends
    rw [decide_eq_true_eq] at starts
    rw [zero_add, zero_add] at passed
    refine ⟨A, Child, B, rfl, ?_, ?_, ?_⟩
    · rw [if_neg atEnd, passed]
    · rcases starts with rfl | early
      · exact zero_le _
      · omega
    · omega

theorem cut_child (valid : ∀ node ∈ A ++ Child :: B, Valid height node)
    (cut : childrenPieces (A ++ Child :: B) = l ++ r)
    (starts : extent RopePiece.size (childrenPieces A) <= extent RopePiece.size l)
    (ends : extent RopePiece.size l <= extent RopePiece.size (childrenPieces A) + Child.size) :
    ∃ l' r', l = childrenPieces A ++ l' ∧ Child.pieces = l' ++ r' ∧ r = r' ++ childrenPieces B := by
  rcases forall_mem_append.mp valid with ⟨beforeValid, restValid⟩
  have childValid := restValid Child mem_cons_self
  rw [childrenPieces_append, childrenPieces_cons] at cut
  rcases cut_second (children_allValid beforeValid).positive cut.symm starts with
    ⟨l', rfl, inRest⟩
  rw [extent_append, childValid.size_eq] at ends
  have positive : ∀ part ∈ l', 0 < part.size := by
    have allValid := children_allValid restValid
    rw [childrenPieces_cons, inRest] at allValid
    exact (allValid_append.mp allValid).1.positive
  rcases cut_first positive inRest.symm (le_of_add_le_add_left ends) with ⟨r', inChild, inAfter⟩
  exact ⟨l', r', rfl, inChild, inAfter⟩

theorem Valid.insert_spec (valid : Valid height node) (pieceValid : R.Valid) (cut : node.pieces = l ++ r)
    (offset : extent RopePiece.size l = Offset) (small : node.size + R.size < 2 ^ 32)
    (S : LeafOrder) :
    ∃ result, node.insert Offset R S = some result ∧
      Grown height S node.ids (l ++ R :: r) result := by
  have whole := valid.size_eq
  rw [cut, extent_append, offset] at whole
  have within : Offset <= node.size := by omega
  induction height generalizing node Offset l r with
  | zero =>
    rcases valid.cases with ⟨L, rfl, _, leafValid, nonempty⟩ | ⟨_, _, _, _, never, _⟩
    · rw [pieces_leaf] at cut
      rcases leafValid.insert_spec pieceValid cut offset small S with ⟨result, run, grown⟩
      refine ⟨ofLeaf result, ?_, ?_⟩
      · rw [insert, if_pos (show Offset <= L.Size from within), run, map_some]
      · rw [ids_leaf]
        exact grown
    · cases never
  | succ height ih =>
    rcases valid.cases with ⟨_, _, never, _⟩ |
      ⟨below, Size, Children, rfl, same, nonempty, width, sizes, _, childrenValid⟩
    · cases never
    rcases succ.inj same with rfl
    rw [pieces_interior] at cut
    change Offset <= Size at within
    change Size + R.size < 2 ^ 32 at small
    change Size = Offset + extent RopePiece.size r at whole
    change Size = extent size Children at sizes
    rcases insertionChild_spec nonempty (sizes ▸ within) (by omega) width with
      ⟨A, Child, B, rfl, found, starts, ends⟩
    rcases forall_mem_append.mp childrenValid with ⟨beforeValid, restValid⟩
    have childValid := restValid Child mem_cons_self
    have childSize := childValid.size_eq
    rw [<- sizes] at found
    rw [extent_children beforeValid] at found starts ends
    rcases cut_child childrenValid cut (offset ▸ starts) (offset ▸ ends) with
      ⟨l', r', rfl, inChild, rfl⟩
    rw [extent_append] at offset whole
    have childWhole := childSize
    rw [inChild, extent_append] at childWhole
    have inner : extent RopePiece.size l' =
        Offset - extent RopePiece.size (childrenPieces A) := by omega
    rcases ih childValid inChild inner (by omega) (by omega) (by omega) with
      ⟨result, run, grown⟩
    refine ⟨handleChild A.length (add32 Size R.size) (A ++ Child :: B) result, ?_, ?_⟩
    · rw [insert, if_pos within, found, bind_some]
      simp only
      rw [insertChild_eq, sub32_eq starts (by omega), run, map_some]
    · have order : childrenPieces A ++ l' ++ R :: (r' ++ childrenPieces B) =
          childrenPieces A ++ (l' ++ R :: r') ++ childrenPieces B := by
        rw [append_assoc, append_assoc, append_assoc, cons_append]
      rw [ids_interior, order, add32_eq small]
      refine handleChild_grown width childrenValid grown ?_ small
      simp only [extent_append, extent_cons]
      omega

end RopePieceBTreeNode

end RewriteRope
end LlvmProject
