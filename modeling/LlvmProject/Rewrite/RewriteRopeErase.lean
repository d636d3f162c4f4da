import LlvmProject.Rewrite.RewriteRopeNodes

namespace LlvmProject

open List Option Nat

namespace RewriteRope

/-!
# Removals from the nodes of the rope

A removal that leaves some of the text of a node keeps the node valid: the
nodes that lose all of theirs are destroyed by the node above, and the leaves
among them leave the order.
-/

open SizedParts LinkedOrder

variable {α : Type}

namespace RopePieceBTreeNode

variable {A B Children : List (RopePieceBTreeNode α)} {Child node : RopePieceBTreeNode α}
  {height Offset NumBytes : Nat} {l r : List (RopePiece α)} {S : LeafOrder}

/-! ## Destruction -/

theorem DestroyChildren_threaded (each : ∀ Child ∈ Children, ∀ {S front back},
    Threaded S (front ++ Child.ids ++ back) -> Threaded (Child.Destroy S) (front ++ back))
    {front back : List Nat} (threaded : Threaded S (front ++ childrenIds Children ++ back)) :
    Threaded (DestroyChildren Children S) (front ++ back) := by
  induction Children generalizing S with
  | nil =>
    rw [DestroyChildren]
    simpa using threaded
  | cons Child rest ih =>
    rcases forall_mem_cons.mp each with ⟨here, later⟩
    apply ih later
    rw [append_assoc]
    apply here
    simpa using threaded

/-- The leaves of a destroyed node leave the order. -/
theorem Destroy_threaded (valid : Valid height node) {front back : List Nat}
    (threaded : Threaded S (front ++ node.ids ++ back)) :
    Threaded (node.Destroy S) (front ++ back) := by
  induction height generalizing node S front back with
  | zero =>
    rcases valid.cases with ⟨L, rfl, _, _, _⟩ | ⟨_, _, _, _, never, _⟩
    · apply LeafOrder.deleteLeaf_threaded
      simpa using threaded
    · cases never
  | succ height ih =>
    rcases valid.cases with ⟨_, _, never, _⟩ |
      ⟨below, Size, Children, rfl, same, _, _, _, _, childrenValid⟩
    · cases never
    rcases succ.inj same with rfl
    rw [ids_interior] at threaded
    exact DestroyChildren_threaded
      (fun Child mem _ _ _ => ih (childrenValid Child mem)) threaded

/-! ## Removals -/

/-- A node that had these leaves keeps the pieces before a cut, and shows this
text behind them. -/
structure Erased (height : Nat) (S : LeafOrder) (oldIds : List Nat) (l : List (RopePiece α))
    (rest : List α) (node : RopePieceBTreeNode α) (S' : LeafOrder) : Prop where
  valid : Valid height node
  pieces_eq : ∃ r', node.pieces = l ++ r' ∧ textOf r' = rest
  threaded : ∀ front back, Threaded S (front ++ oldIds ++ back) ->
    Threaded S' (front ++ node.ids ++ back)

/-- A removal that leaves some text. -/
def Erases (height : Nat) (node : RopePieceBTreeNode α) : Prop :=
  ∀ {l r : List (RopePiece α)} {Offset NumBytes : Nat} (S : LeafOrder), node.pieces = l ++ r ->
    extent RopePiece.size l = Offset -> 0 < NumBytes -> Offset + NumBytes <= node.size ->
    NumBytes < node.size ->
    ∃ node' S', node.erase Offset NumBytes S = some (node', S') ∧
      Erased height S node.ids l ((textOf r).drop NumBytes) node' S'

/-- The same of a list of children. -/
structure ErasedChildren (height : Nat) (S : LeafOrder) (oldIds : List Nat)
    (l : List (RopePiece α)) (rest : List α) (Children : List (RopePieceBTreeNode α))
    (S' : LeafOrder) : Prop where
  valid : ∀ Child ∈ Children, Valid height Child
  pieces_eq : ∃ r', childrenPieces Children = l ++ r' ∧ textOf r' = rest
  threaded : ∀ front back, Threaded S (front ++ oldIds ++ back) ->
    Threaded S' (front ++ childrenIds Children ++ back)

/-- Nothing is left to remove. -/
theorem erasedChildren_unchanged (valid : ∀ Child ∈ Children, Valid height Child)
    (cut : childrenPieces Children = l ++ r) (S : LeafOrder) :
    ErasedChildren height S (childrenIds Children) l (textOf r) Children S :=
  ⟨valid, ⟨r, cut, rfl⟩, fun _ _ threaded => threaded⟩

/-- A child in front of changed ones. -/
theorem Erased.cons {S S' S'' : LeafOrder} {rest rest' : List α} {Child' : RopePieceBTreeNode α}
    {Children' : List (RopePieceBTreeNode α)} (first : Erased height S Child.ids l [] Child' S')
    (later : ErasedChildren height S' (childrenIds Children) [] rest Children' S'')
    (same : rest = rest') :
    ErasedChildren height S (childrenIds (Child :: Children)) l rest' (Child' :: Children') S'' := by
  subst same
  rcases first.pieces_eq with ⟨r₁, firstPieces, firstText⟩
  rcases later.pieces_eq with ⟨r₂, laterPieces, laterText⟩
  refine ⟨forall_mem_cons.mpr ⟨first.valid, later.valid⟩, ⟨r₁ ++ r₂, ?_, ?_⟩,
    fun front back threaded => ?_⟩
  · rw [childrenPieces_cons, firstPieces, laterPieces, nil_append, append_assoc]
  · rw [textOf_append, firstText, laterText, nil_append]
  · have moved := first.threaded front (childrenIds Children ++ back)
      (by simpa using threaded)
    have done := later.threaded (front ++ Child'.ids) back (by simpa using moved)
    simpa using done

theorem eraseChildren_spec (each : ∀ {Child : RopePieceBTreeNode α}, Valid height Child -> Erases
    height Child) (valid : ∀ Child ∈ Children, Valid height Child) (cut : childrenPieces Children =
    l ++ r) (offset : extent RopePiece.size l = Offset) (first : ∀ Child ∈ Children.head?, Offset <
    Child.size) (within : Offset + NumBytes <= extent RopePiece.size (childrenPieces Children))
    (small : extent RopePiece.size (childrenPieces Children) < 2 ^ 32) (S : LeafOrder) :
    ∃ Children' S', eraseChildren 0 Offset NumBytes Children S = some (Children', S') ∧
      Children'.length <= Children.length ∧
      ErasedChildren height S (childrenIds Children) l ((textOf r).drop NumBytes) Children' S' := by
  induction Children generalizing l r Offset NumBytes S with
  | nil =>
    have none : NumBytes = 0 := by
      rw [childrenPieces_nil, extent_nil] at within
      omega
    refine ⟨[], S, ?_, le_refl _, ?_⟩
    · rw [eraseChildren, if_pos none]
    · rw [none, drop_zero]
      exact erasedChildren_unchanged valid cut S
  | cons Child rest ih =>
    rw [eraseChildren]
    by_cases none : NumBytes = 0
    · refine ⟨Child :: rest, S, ?_, le_refl _, ?_⟩
      · rw [if_pos none]
      · rw [none, drop_zero]
        exact erasedChildren_unchanged valid cut S
    rcases forall_mem_cons.mp valid with ⟨childValid, restValid⟩
    have starts := first Child rfl
    have childSize := childValid.size_eq
    have childText := childValid.allValid.length_textOf
    rw [childrenPieces_cons, extent_append] at within small
    rw [childrenPieces_cons] at cut
    rcases cut_first (l := l) (r := r) (by
        have allValid := children_allValid valid
        rw [childrenPieces_cons, cut] at allValid
        exact (allValid_append.mp allValid).1.positive) cut.symm (by omega) with
      ⟨middle, inChild, rfl⟩
    have childExtent := childSize
    rw [inChild, extent_append, offset] at childExtent
    have middleText : (textOf middle).length = extent RopePiece.size middle := by
      have allValid := childValid.allValid
      rw [inChild] at allValid
      exact (allValid_append.mp allValid).2.length_textOf
    rw [if_neg none, add32_eq (by omega)]
    simp only
    by_cases inside : Offset + NumBytes < Child.size
    · -- Only this child changes.
      rcases each childValid S inChild offset (by omega) inside.le (by omega) with
        ⟨Child', S', run, erased⟩
      rcases erased.pieces_eq with ⟨r', pieces, text⟩
      refine ⟨Child' :: rest, S', ?_, le_refl _, ?_, ⟨r' ++ childrenPieces rest, ?_, ?_⟩,
        fun front back threaded => ?_⟩
      · rw [if_pos inside, run, map_some]
      · exact forall_mem_cons.mpr ⟨erased.valid, restValid⟩
      · rw [childrenPieces_cons, pieces, append_assoc]
      · rw [textOf_append, text, textOf_append, drop_append_of_le_length (by omega)]
      · have moved := erased.threaded front (childrenIds rest ++ back) (by simpa using threaded)
        simpa using moved
    rw [if_neg inside]
    have nextStarts : ∀ Child ∈ rest.head?, 0 < Child.size := fun Child mem =>
      (restValid Child (mem_of_mem_head? mem)).size_pos
    have left : (textOf (middle ++ childrenPieces rest)).drop NumBytes =
        (textOf (childrenPieces rest)).drop (NumBytes - (Child.size - Offset)) := by
      rw [textOf_append, drop_append, drop_of_length_le (by omega), nil_append, middleText]
      congr 1
      omega
    by_cases start : Offset = 0
    · -- The child is covered.
      have empty : l = [] := by
        have allValid := childValid.allValid
        rw [inChild] at allValid
        exact eq_nil_of_extent_eq_zero (allValid_append.mp allValid).1.positive
          (offset.trans start)
      subst empty
      rw [start, Nat.sub_zero] at left
      rcases ih restValid (nil_append _).symm extent_nil nextStarts
          (show 0 + (NumBytes - Child.size) <= _ by omega) (by omega) (Child.Destroy S) with
        ⟨Children', S', run, fewer, erased⟩
      refine ⟨Children', S', ?_, fewer.trans (le_succ _), erased.valid, ?_,
        fun front back threaded => ?_⟩
      · rw [if_neg (not_not.mpr start), sub32_eq (by omega) (by omega), run]
      · rw [left]
        exact erased.pieces_eq
      · apply erased.threaded
        rw [append_assoc]
        apply Destroy_threaded childValid
        simpa using threaded
    · -- The end of the child is removed.
      have positive : 0 < Child.size - Offset := by omega
      rcases each childValid S inChild offset positive (by omega) (by omega) with
        ⟨Child', S', run, erased⟩
      have nothing : (textOf middle).drop (Child.size - Offset) = [] := drop_of_length_le (by omega)
      rw [nothing] at erased
      rcases ih restValid (nil_append _).symm extent_nil nextStarts
          (show 0 + (NumBytes - (Child.size - Offset)) <= _ by omega) (by omega) S' with
        ⟨Children', S'', restRun, fewer, restErased⟩
      refine ⟨Child' :: Children', S'', ?_, succ_le_succ fewer, erased.cons restErased ?_⟩
      · rw [if_pos start, sub32_eq (by omega) (by omega), run, bind_some]
        simp only
        rw [sub32_eq (by omega) (by omega), restRun, map_some]
      · exact left.symm

/-- The children in front of the index are left alone. -/
theorem eraseChildren_skip (A : List (RopePieceBTreeNode α)) (some_left : NumBytes ≠ 0)
    (S : LeafOrder) :
    eraseChildren A.length Offset NumBytes (A ++ B) S =
      (eraseChildren 0 Offset NumBytes B S).map fun (rest, S) => (A ++ rest, S) := by
  induction A with
  | nil => exact map_id'.symm
  | cons first A ih =>
    rw [cons_append, length_cons, eraseChildren, if_neg some_left]
    simp only
    rw [ih, Option.map_map]
    rfl

/-- The loop that looks for the first child that overlaps with an offset. -/
theorem passChildren_spec (i : Nat) (within : Offset < extent size Children)
    (small : extent size Children < 2 ^ 32) :
    ∃ A Child B, Children = A ++ Child :: B ∧
      passChildren Offset (Children.map size) i = some (i + A.length, Offset - extent size A) ∧
      extent size A <= Offset ∧ Offset < extent size A + Child.size := by
  induction Children generalizing Offset i with
  | nil => exact absurd within (not_lt_zero _)
  | cons Child rest ih =>
    rw [extent_cons] at within small
    rw [map_cons, passChildren]
    by_cases passed : Offset >= Child.size
    · rcases ih (i + 1)
          (show Offset - Child.size < extent size rest by omega) (by omega) with
        ⟨A, found, B, rfl, run, starts, ends⟩
      refine ⟨Child :: A, found, B, rfl, ?_, ?_, ?_⟩
      · rw [if_pos passed, sub32_eq passed (by omega), run, extent_cons, length_cons,
          sub_add_eq, add_assoc, add_comm 1]
      · rw [extent_cons]
        omega
      · rw [extent_cons]
        omega
    · refine ⟨[], Child, rest, rfl, ?_, zero_le _, ?_⟩
      · rw [if_neg passed]
        rfl
      · rw [extent_nil]
        omega

theorem erased_leaf_valid {L : RopePieceBTreeLeaf α} {r' : List (RopePiece α)} (valid : L.Valid)
    (cut : L.Pieces = l ++ r) (within : extent RopePiece.size l + NumBytes <= L.Size) (rest :
    AllValid r') (text : textOf r' = (textOf r).drop NumBytes) (fewer : r'.length <= r.length) :
    RopePieceBTreeLeaf.Valid ⟨L.id, L.Size - NumBytes, l ++ r'⟩ := by
  have piecesValid := valid.pieces
  have whole := valid.size
  have small := valid.small
  have width := valid.width
  rw [cut] at piecesValid width
  rw [cut, extent_append] at whole
  rcases allValid_append.mp piecesValid with ⟨before, after⟩
  have sizes : extent RopePiece.size r' = extent RopePiece.size r - NumBytes := by
    rw [<- rest.length_textOf, text, length_drop, after.length_textOf]
  refine ⟨allValid_append.mpr ⟨before, rest⟩, ?_, ?_, ?_⟩
  · rw [extent_append, sizes]
    dsimp only
    omega
  · dsimp only
    omega
  · rw [length_append] at width ⊢
    omega

/-- A removal that leaves some of the text of a node. -/
theorem Valid.erases (valid : Valid height node) : Erases height node := by
  induction height generalizing node with
  | zero =>
    intro l r Offset NumBytes S cut offset positive within less
    rcases valid.cases with ⟨L, rfl, _, leafValid, nonempty⟩ | ⟨_, _, _, _, never, _⟩
    · rw [pieces_leaf] at cut
      change Offset + NumBytes <= L.Size at within
      change NumBytes < L.Size at less
      have small := leafValid.small
      rcases leafValid.erase_spec cut offset positive within with ⟨r', run, rest, text, fewer⟩
      have stillValid := erased_leaf_valid leafValid cut (offset ▸ within) rest text fewer
      refine ⟨leaf ⟨L.id, L.Size - NumBytes, l ++ r'⟩, S, ?_, ⟨stillValid, ?_⟩, ?_,
        fun front back threaded => ?_⟩
      · rw [erase, add32_eq (by omega), if_pos within, run, map_some]
      · intro empty
        have zero := stillValid.size
        rw [show l ++ r' = [] from empty, extent_nil] at zero
        dsimp only at zero
        omega
      · exact ⟨r', pieces_leaf _, text⟩
      · rw [ids_leaf] at threaded ⊢
        exact threaded
    · cases never
  | succ height ih =>
    intro l r Offset NumBytes S cut offset positive within less
    have small := valid.size_lt
    have whole := valid.size_eq
    rcases valid.cases with ⟨_, _, never, _⟩ |
      ⟨below, Size, Children, rfl, same, nonempty, width, sizes, _, childrenValid⟩
    · cases never
    rcases succ.inj same with rfl
    rw [pieces_interior] at cut whole
    change Offset + NumBytes <= Size at within
    change NumBytes < Size at less
    change Size < 2 ^ 32 at small
    change Size = extent size Children at sizes
    change Size = extent RopePiece.size (childrenPieces Children) at whole
    rcases passChildren_spec 0 (show Offset < extent size Children by omega) (by omega) with
      ⟨A, Child, B, rfl, found, starts, ends⟩
    rcases forall_mem_append.mp childrenValid with ⟨beforeValid, restValid⟩
    rw [zero_add, extent_children beforeValid] at found
    rw [extent_children beforeValid] at starts ends
    rcases cut_child childrenValid cut (offset ▸ starts) (offset ▸ ends.le) with
      ⟨l', r', rfl, inChild, rfl⟩
    rw [extent_append] at offset
    rw [childrenPieces_append, extent_append] at whole
    have rest : childrenPieces (Child :: B) = l' ++ (r' ++ childrenPieces B) := by
      rw [childrenPieces_cons, inChild, append_assoc]
    rcases eraseChildren_spec (fun childValid => ih childValid) restValid rest
        (show extent RopePiece.size l' = Offset - extent RopePiece.size (childrenPieces A) by omega)
        (fun first mem => by
          rw [head?_cons, mem_some_iff] at mem
          subst mem
          omega)
        (show _ + NumBytes <= _ by omega) (by omega) S with
      ⟨Children', S', run, fewer, erased⟩
    rcases erased.pieces_eq with ⟨r'', pieces, text⟩
    have afterValid := children_allValid erased.valid
    have removed : extent RopePiece.size (childrenPieces Children') + NumBytes =
        extent RopePiece.size (childrenPieces (Child :: B)) := by
      have restAll := children_allValid restValid
      rw [pieces] at afterValid
      rw [rest] at restAll
      have after := (allValid_append.mp afterValid).2.length_textOf
      have before := (allValid_append.mp restAll).2.length_textOf
      have parts := @extent_append _ RopePiece.size l' (r' ++ childrenPieces B)
      rw [text, length_drop, before] at after
      rw [rest, parts] at whole ⊢
      rw [pieces, extent_append, <- after]
      omega
    have newSize : Size - NumBytes = extent RopePiece.size (childrenPieces (A ++ Children')) := by
      rw [childrenPieces_append, extent_append]
      omega
    refine ⟨interior (Size - NumBytes) (A ++ Children'), S', ?_, ?_, ?_,
      fun front back threaded => ?_⟩
    · rw [erase, add32_eq (by omega), if_pos within, found, bind_some]
      simp only
      rw [eraseChildren_skip A positive.ne', run, sub32_eq less.le small]
      rfl
    · refine interior_valid ?_ ?_ newSize (by omega)
        (forall_mem_append.mpr ⟨beforeValid, erased.valid⟩)
      · intro empty
        rw [empty, childrenPieces_nil, extent_nil] at newSize
        omega
      · simp only [length_append, length_cons] at width fewer ⊢
        omega
    · refine ⟨r'', ?_, text⟩
      rw [pieces_interior, childrenPieces_append, pieces, append_assoc]
    · rw [ids_interior] at threaded ⊢
      have moved := erased.threaded (front ++ childrenIds A) back
        (by simpa using threaded)
      simpa using moved

end RopePieceBTreeNode

end RewriteRope
end LlvmProject
