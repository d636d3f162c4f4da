import LlvmProject.Library.Weave
import LlvmProject.Rewrite.RewriteRopeInvariant

namespace LlvmProject

open List Option Nat

namespace RewriteRope

/-!
# Operations on the leaves of the rope

A leaf inserts a piece at a cut, makes a cut at an offset, or removes text that
starts at a cut.
-/

open SizedParts LinkedOrder

variable {α : Type}

namespace RopePieceBTreeLeaf

open RopePieceBTreeNode

variable {L : RopePieceBTreeLeaf α} {l r pieces : List (RopePiece α)} {R : RopePiece α}
  {Offset NumBytes : Nat}

/-- The loop that looks for a cut finds it. -/
theorem Valid.passTo_cut (valid : L.Valid) (cut : L.Pieces = l ++ r)
    (offset : extent RopePiece.size l = Offset) :
    passTo Offset L.sizes 0 0 = some (l.length, Offset) := by
  have piecesValid := valid.pieces
  have whole := valid.size
  have small := valid.small
  rw [cut] at piecesValid
  rw [cut, extent_append, offset] at whole
  have positive : ∀ size ∈ l.map RopePiece.size, 0 < size := by
    rw [List.forall_mem_map]
    exact (allValid_append.mp piecesValid).1.positive
  have sum : 0 + (l.map RopePiece.size).sum = Offset := (zero_add _).trans offset
  have passed := passTo_spec (r := r.map RopePiece.size) 0 0 positive sum (by omega)
  rw [zero_add, length_map, <- map_append, <- cut] at passed
  exact passed

/-! ## Insertion -/

theorem Valid.insertPiece_spec (valid : L.Valid) (R : RopePiece α) (cut : L.Pieces = l ++ r)
    (offset : extent RopePiece.size l = Offset) :
    L.insertPiece Offset R = some ⟨L.id, add32 L.Size R.size, l ++ R :: r⟩ := by
  have piecesValid := valid.pieces
  have whole := valid.size
  have small := valid.small
  rw [cut] at piecesValid
  rw [cut, extent_append, offset] at whole
  rcases allValid_append.mp piecesValid with ⟨before, after⟩
  rw [insertPiece]
  by_cases atEnd : Offset = L.Size
  · have none : r = [] := eq_nil_of_extent_eq_zero after.positive (by omega)
    rw [if_pos atEnd, cut, none, append_nil]
    exact congrArg (fun Pieces => some (⟨L.id, add32 L.Size R.size, Pieces⟩ :
      RopePieceBTreeLeaf α)) insertIdx_length_self
  · rw [if_neg atEnd, valid.passTo_cut cut offset]
    simp only [bind_eq_bind, bind_some, if_true]
    rw [cut, Weave.insertIdx_append_length]
    rfl

theorem recomputed (id Size : Nat) (small : extent RopePiece.size pieces < 2 ^ 32) :
    FullRecomputeSizeLocally ⟨id, Size, pieces⟩ = ⟨id, extent RopePiece.size pieces, pieces⟩ := by
  have sum := foldl_add32 (pieces.map RopePiece.size) 0
    (by rw [zero_add]; exact small)
  rw [zero_add] at sum
  exact congrArg (fun Size => (⟨id, Size, pieces⟩ : RopePieceBTreeLeaf α)) sum

theorem exact_valid (id : Nat) (valid : AllValid pieces)
    (small : extent RopePiece.size pieces < 2 ^ 32) (width : pieces.length <= 2 * WidthFactor) :
    RopePieceBTreeLeaf.Valid ⟨id, extent RopePiece.size pieces, pieces⟩ :=
  ⟨valid, rfl, small, width⟩

theorem inserted_valid (id : Nat) (piecesValid : AllValid (l ++ r)) (pieceValid : R.Valid) (room :
    (l ++ r).length < 2 * WidthFactor) (small : extent RopePiece.size (l ++ r) + R.size < 2 ^ 32) :
    RopePieceBTreeNode.Valid 0 (leaf ⟨id, add32 (extent RopePiece.size (l ++ r)) R.size, l ++ R :: r⟩) := by
  rcases allValid_append.mp piecesValid with ⟨before, after⟩
  rw [add32_eq small]
  refine ⟨⟨?_, ?_, small, ?_⟩, append_ne_nil_of_right_ne_nil l (cons_ne_nil R r)⟩
  · exact allValid_append.mpr ⟨before, allValid_cons.mpr ⟨pieceValid, after⟩⟩
  · simp only [extent_append, extent_cons]
    omega
  · rw [length_append] at room
    rw [length_append, length_cons]
    omega

theorem Valid.insert_spec (valid : L.Valid) (pieceValid : R.Valid) (cut : L.Pieces = l ++ r) (offset
    : extent RopePiece.size l = Offset) (small : L.Size + R.size < 2 ^ 32) (S : LeafOrder) :
    ∃ result, L.insert Offset R S = some result ∧
      Grown 0 S [L.id] (l ++ R :: r) (ofLeaf result) := by
  have piecesValid := valid.pieces
  have whole := valid.size
  by_cases full : L.isFull = true
  · have length : L.Pieces.length = 2 * WidthFactor := eq_of_beq full
    rcases S.insertAfterLeafInOrder_spec L.id with ⟨S', linked, threads⟩
    have same : l ++ r = L.Pieces.take WidthFactor ++ L.Pieces.drop WidthFactor := by
      rw [take_append_drop, cut]
    have firstLength : (L.Pieces.take WidthFactor).length = WidthFactor := by
      rw [length_take, length]
      rfl
    have secondLength : (L.Pieces.drop WidthFactor).length = WidthFactor := by
      rw [length_drop, length]
      rfl
    rw [insert, full]
    generalize L.Pieces.take WidthFactor = first at same firstLength ⊢
    generalize L.Pieces.drop WidthFactor = second at same secondLength ⊢
    rw [cut, same, extent_append] at whole
    rw [cut, same] at piecesValid
    rcases allValid_append.mp piecesValid with ⟨firstValid, secondValid⟩
    have half : WidthFactor <= 2 * WidthFactor := Nat.le_mul_of_pos_left _ (by decide)
    have moreThanHalf : WidthFactor < 2 * WidthFactor := by decide
    have nonempty : ∀ part : List (RopePiece α), part.length = WidthFactor -> part ≠ [] := by
      rintro _ length rfl
      cases length
    rw [recomputed _ _ (by omega), recomputed _ _ (by omega)]
    simp only [Bool.not_true, Bool.false_eq_true, if_false, linked, bind_eq_bind, bind_some]
    by_cases early : Offset <= extent RopePiece.size first
    · rcases cut_first (piecesValid.positive · ∘ fun mem => same ▸ mem_append_left r mem)
        same (offset ▸ early) with ⟨middle, rfl, rfl⟩
      have thisValid := exact_valid L.id firstValid (by omega) (firstLength.trans_le half)
      rw [if_pos early, thisValid.insertPiece_spec R rfl offset]
      refine ⟨_, rfl, grown_two (inserted_valid _ firstValid pieceValid
        (firstLength.trans_lt moreThanHalf) (by omega)) ⟨?_, nonempty _ secondLength⟩ ?_
        fun front back threaded => ?_⟩
      · exact exact_valid _ secondValid (by omega) (secondLength.trans_le half)
      · simp
      · simpa using threads front back (by simpa using threaded)
    · rcases cut_second firstValid.positive same (by omega) with ⟨middle, rfl, rfl⟩
      have newValid := exact_valid S.fresh secondValid (by omega) (secondLength.trans_le half)
      have offset' : extent RopePiece.size middle = sub32 Offset (extent RopePiece.size first) := by
        rw [extent_append] at offset
        have : extent RopePiece.size (middle ++ r) =
          extent RopePiece.size middle + extent RopePiece.size r := extent_append _ _
        rw [sub32_eq (by omega) (by omega)]
        omega
      rw [if_neg early, newValid.insertPiece_spec R rfl offset']
      refine ⟨_, rfl, grown_two ⟨?_, nonempty _ firstLength⟩ (inserted_valid _ secondValid
        pieceValid (secondLength.trans_lt moreThanHalf) (by omega)) ?_
        fun front back threaded => ?_⟩
      · exact exact_valid _ firstValid (by omega) (firstLength.trans_le half)
      · simp
      · simpa using threads front back (by simpa using threaded)
  · have room : (l ++ r).length < 2 * WidthFactor := by
      have ne : L.Pieces.length ≠ 2 * WidthFactor := fun length =>
        full (by rw [isFull, length]; exact beq_self_eq_true _)
      rw [<- cut]
      exact lt_of_le_of_ne valid.width ne
    rw [Bool.not_eq_true] at full
    rw [cut] at piecesValid whole
    rw [insert, full, valid.insertPiece_spec R cut offset, whole]
    refine ⟨_, rfl, grown_one
      (inserted_valid L.id piecesValid pieceValid room (whole ▸ small)) ?_
      fun front back threaded => ?_⟩
    · simp
    · simpa using threaded

/-! ## Splits -/

/-- A piece is shrunk to its first part, and the rest is inserted behind it. -/
theorem Valid.split_piece {A B : List (RopePiece α)} (valid : L.Valid) (cut : L.Pieces = A ++ R :: B)
    {k : Nat} (positive : 0 < k) (inside : k < R.size) (S : LeafOrder) :
    ∃ result, insert (extent RopePiece.size A + k) (R.tail k)
        { L with
          Pieces := A ++ R.head k :: B
          Size := add32 (sub32 L.Size R.size) (R.head k).size } S = some result ∧
      Grown 0 S [L.id] ((A ++ [R.head k]) ++ R.tail k :: B) (ofLeaf result) := by
  have piecesValid := valid.pieces
  have whole := valid.size
  have small := valid.small
  have width := valid.width
  rw [cut] at piecesValid
  rw [cut, extent_append, extent_cons] at whole
  rcases allValid_append.mp piecesValid with ⟨before, rest⟩
  rcases allValid_cons.mp rest with ⟨pieceValid, after⟩
  rcases pieceValid.head positive inside with ⟨headValid, headSize, _⟩
  rcases pieceValid.tail inside with ⟨tailValid, tailSize, _⟩
  have shrunk : add32 (sub32 L.Size R.size) (R.head k).size =
      extent RopePiece.size (A ++ R.head k :: B) := by
    rw [extent_append, extent_cons, headSize, sub32_eq (by omega) small, add32_eq (by omega)]
    omega
  have shrunkSize : extent RopePiece.size (A ++ R.head k :: B) + (R.tail k).size = L.Size := by
    rw [extent_append, extent_cons, headSize, tailSize]
    omega
  have shrunkValid := exact_valid L.id
    (allValid_append.mpr ⟨before, allValid_cons.mpr ⟨headValid, after⟩⟩) (by omega)
    (by rw [cut] at width; simpa using width)
  rw [shrunk]
  refine shrunkValid.insert_spec tailValid ?_ ?_ (lt_of_le_of_lt shrunkSize.le small) S
  · exact append_cons A (R.head k) B
  · rw [extent_append, extent_cons, headSize, extent_nil, add_zero]

/-- Making a cut in a leaf. -/
theorem Valid.split_spec (valid : L.Valid) (nonempty : L.Pieces ≠ []) (within : Offset <= L.Size)
    (S : LeafOrder) :
    ∃ result l r, L.split Offset S = some result ∧ Grown 0 S [L.id] (l ++ r) (ofLeaf result) ∧
      extent RopePiece.size l = Offset ∧ textOf (l ++ r) = textOf L.Pieces := by
  have unchanged : Grown 0 S [L.id] L.Pieces (ofLeaf (L, none, S)) := by
    have grown := grown_unchanged (valid_leaf.mpr ⟨valid, nonempty⟩) S
    rw [ids_leaf, pieces_leaf] at grown
    exact grown
  have whole := valid.size
  have small := valid.small
  rw [split]
  by_cases outer : Offset = 0 ∨ Offset = L.Size
  · rw [if_pos outer]
    rcases outer with start | atEnd
    · exact ⟨_, [], L.Pieces, rfl, unchanged, start.symm, rfl⟩
    · refine ⟨_, L.Pieces, [], rfl, ?_, whole.symm.trans atEnd.symm, ?_⟩
      · rw [append_nil]
        exact unchanged
      · rw [append_nil]
  · rw [not_or] at outer
    rcases passWhile_parts RopePiece.size (decide <| · <= Offset) 0 0 nonempty
        (by rw [decide_eq_false_iff_not, zero_add, <- whole]; omega) (by omega) with
      ⟨A, R, B, cut, passed, ends, starts⟩
    rw [decide_eq_false_iff_not, zero_add] at ends
    rw [decide_eq_true_eq, zero_add] at starts
    rw [zero_add, zero_add] at passed
    have before : extent RopePiece.size A <= Offset := by
      rcases starts with rfl | early
      · exact zero_le _
      · exact early
    rw [if_neg (not_or.mpr outer), sizes, passed]
    simp only [bind_eq_bind, bind_some]
    by_cases already : extent RopePiece.size A = Offset
    · rw [if_pos already]
      exact ⟨_, A, R :: B, rfl, cut ▸ unchanged, already, by rw [cut]⟩
    · have pieceValid : R.Valid := valid.pieces R (cut ▸ mem_append_right A mem_cons_self)
      have positive : 0 < Offset - extent RopePiece.size A := by omega
      have inside : Offset - extent RopePiece.size A < R.size := by omega
      rcases valid.split_piece cut positive inside S with ⟨result, inserted, grown⟩
      have found : L.Pieces[A.length]? = some R := by
        rw [cut, getElem?_append_right (Nat.le_refl _), Nat.sub_self, getElem?_cons_zero]
      have replaced : L.Pieces.set A.length (R.head (Offset - extent RopePiece.size A)) =
          A ++ R.head (Offset - extent RopePiece.size A) :: B := by
        rw [cut, set_append_right _ _ (Nat.le_refl _), Nat.sub_self, set_cons_zero]
      refine ⟨result, A ++ [R.head (Offset - extent RopePiece.size A)],
        R.tail (Offset - extent RopePiece.size A) :: B, ?_, grown, ?_, ?_⟩
      · rw [if_neg already, found, sub32_eq before (by omega)]
        rw [Nat.add_sub_cancel' before] at inserted
        simp only [bind_some]
        rw [<- inserted]
        exact congrArg (fun Pieces => insert Offset _ { L with Pieces := Pieces, Size := _ } S)
          replaced
      · rw [extent_append, extent_cons, (pieceValid.head positive inside).2.1, extent_nil]
        omega
      · rw [cut, textOf_append, textOf_append, textOf_append, textOf_cons, textOf_cons, textOf_cons,
          <- pieceValid.text_parts positive inside, textOf_nil, append_nil, append_assoc,
          append_assoc]

/-! ## Erasing -/

/-- A piece loses its first part. -/
theorem shrinkPiece_spec {A B : List (RopePiece α)} {k : Nat} (inside : k < R.size)
    (cut : L.Pieces = A ++ R :: B) :
    L.shrinkPiece A.length k = some ⟨L.id, sub32 L.Size k, A ++ R.tail k :: B⟩ := by
  have found : L.Pieces[A.length]? = some R := by
    rw [cut, getElem?_append_right (le_refl _), Nat.sub_self, getElem?_cons_zero]
  have replaced : L.Pieces.set A.length (R.tail k) = A ++ R.tail k :: B := by
    rw [cut, set_append_right _ _ (le_refl _), Nat.sub_self, set_cons_zero]
  rw [shrinkPiece, found, bind_eq_bind, bind_some, if_pos inside, <- replaced]
  rfl

theorem Valid.erase_spec (valid : L.Valid) (cut : L.Pieces = l ++ r) (offset : extent RopePiece.size
    l = Offset) (positive : 0 < NumBytes) (within : Offset + NumBytes <= L.Size) :
    ∃ r', L.erase Offset NumBytes = some ⟨L.id, L.Size - NumBytes, l ++ r'⟩ ∧ AllValid r' ∧
      textOf r' = (textOf r).drop NumBytes ∧ r'.length <= r.length := by
  have piecesValid := valid.pieces
  have whole := valid.size
  have small := valid.small
  rw [cut] at piecesValid
  rw [cut, extent_append, offset] at whole
  rcases allValid_append.mp piecesValid with ⟨before, rest⟩
  have nonempty : r ≠ [] := by
    rintro rfl
    rw [extent_nil] at whole
    omega
  have remaining : L.sizes.drop l.length = r.map RopePiece.size := by
    rw [sizes, cut, map_append, drop_left' (length_map ..)]
  rcases passWhile_parts RopePiece.size (decide <| · < Offset + NumBytes) l.length Offset nonempty
      (by rw [decide_eq_false_iff_not]; omega) (by omega) with ⟨A, R, B, rfl, passed, ends, starts⟩
  rcases allValid_append.mp rest with ⟨coveredValid, rest⟩
  rcases allValid_cons.mp rest with ⟨pieceValid, after⟩
  rw [decide_eq_false_iff_not] at ends
  rw [decide_eq_true_eq] at starts
  rw [extent_append, extent_cons] at whole
  have found : L.Pieces[l.length + A.length]? = some R := by
    rw [cut, <- append_assoc, <- length_append, getElem?_append_right (Nat.le_refl _),
      Nat.sub_self, getElem?_cons_zero]
  have atEnd : add32 (Offset + extent RopePiece.size A) R.size =
      Offset + extent RopePiece.size A + R.size := add32_eq (by omega)
  have coveredText := coveredValid.length_textOf
  rw [erase, valid.passTo_cut cut offset]
  simp only [bind_eq_bind, bind_some, if_true, add32_eq (show Offset + NumBytes < 2 ^ 32 by omega),
    remaining, passed, found, atEnd]
  by_cases exactly : Offset + NumBytes = Offset + extent RopePiece.size A + R.size
  · -- The last piece is covered completely, too.
    have covered : l.length + A.length + 1 ≠ l.length := by omega
    have pieceText := pieceValid.length_text
    have CoverBytes : sub32 (Offset + extent RopePiece.size A + R.size) Offset = NumBytes := by
      rw [sub32_eq (by omega) (by omega)]
      omega
    have kept : L.Pieces.take l.length ++ L.Pieces.drop (l.length + A.length + 1) = l ++ B := by
      rw [cut, take_left, add_assoc, <- drop_drop, drop_left, <- drop_drop,
        drop_left, drop_succ_cons, drop_zero]
    refine ⟨B, ?_, after, ?_, ?_⟩
    · rw [if_pos exactly, if_pos exactly, if_pos covered, if_pos covered, CoverBytes,
        sub32_eq (Nat.le_refl _) (by omega), Nat.sub_self, if_pos rfl, kept,
        sub32_eq (by omega) small]
      rfl
    · have covers : NumBytes = (textOf A ++ R.text).length := by
        rw [length_append]
        omega
      rw [textOf_append, textOf_cons, <- append_assoc, covers, drop_left]
    · rw [length_append, length_cons]
      omega
  · -- A part of the last piece stays.
    have sizePos := pieceValid.size_pos
    have part : NumBytes - extent RopePiece.size A < R.size := by omega
    have CoverBytes : sub32 (Offset + extent RopePiece.size A) Offset =
        extent RopePiece.size A := by
      rw [sub32_eq (Nat.le_add_right _ _) (by omega), Nat.add_sub_cancel_left]
    have someLeft : NumBytes - extent RopePiece.size A ≠ 0 := by
      rcases starts with rfl | early
      · exact positive.ne'
      · omega
    refine ⟨R.tail (NumBytes - extent RopePiece.size A) :: B, ?_,
      allValid_cons.mpr ⟨(pieceValid.tail part).1, after⟩, ?_, ?_⟩
    · rw [if_neg exactly, if_neg exactly]
      by_cases none : A = []
      · subst none
        have uncovered : ¬(l.length + ([] : List (RopePiece α)).length ≠ l.length) := not_not.mpr rfl
        rw [if_neg uncovered, if_neg uncovered, if_neg positive.ne',
          shrinkPiece_spec (by simpa [extent_nil] using part) cut, sub32_eq (by omega) small]
        rfl
      · have covered : l.length + A.length ≠ l.length := by
          have := length_pos_iff.mpr none
          omega
        have kept : L.Pieces.take l.length ++ L.Pieces.drop (l.length + A.length) =
            l ++ R :: B := by
          rw [cut, take_left, <- drop_drop, drop_left, drop_left]
        have sizes : sub32 (L.Size - extent RopePiece.size A) (NumBytes - extent RopePiece.size A) =
            L.Size - NumBytes := by
          rw [sub32_eq (by omega) (by omega)]
          omega
        rw [if_pos covered, if_pos covered, CoverBytes, sub32_eq (by omega) (by omega),
          if_neg someLeft, kept, sub32_eq (by omega) small, shrinkPiece_spec part rfl, sizes]
    · have enough : NumBytes - extent RopePiece.size A <= R.text.length := by
        rw [pieceValid.length_text]
        exact part.le
      have early : (textOf A).length <= NumBytes := by
        rcases starts with rfl | early
        · exact zero_le _
        · omega
      rw [textOf_append, textOf_cons, textOf_cons, (pieceValid.tail part).2.2, drop_append,
        drop_of_length_le early, nil_append, coveredText, drop_append_of_le_length enough]
    · rw [length_cons, length_append, length_cons]
      omega

end RopePieceBTreeLeaf

end RewriteRope
end LlvmProject
