import LlvmProject.Library.Runs
import LlvmProject.Rewrite.RewriteRopeErase
import LlvmProject.Rewrite.RewriteRopeIterator

namespace LlvmProject

open List Option Nat

namespace RewriteRope

/-!
# Runs of the rope

Every run of insertions and removals keeps the rope valid and its text that of
a plain string, while the length fits in 32 bits and no removal empties a root
that is an interior node.  Such a root is left without children, and the next
access to its first or last child is out of range.
-/

open SizedParts LinkedOrder

variable {α : Type}

open RopePieceBTreeNode

namespace RopePieceBTree

variable {T : RopePieceBTree α} {text : List α} {Offset NumBytes : Nat} {R : RopePiece α}
  {l r newPieces : List (RopePiece α)}

/-- A root that is an empty leaf. -/
def IsEmptyLeaf (node : RopePieceBTreeNode α) : Prop := ∃ id, node = leaf ⟨id, 0, []⟩

/-- A rope that holds a text. -/
structure Holds (text : List α) (T : RopePieceBTree α) : Prop where
  shape : (∃ height, RopePieceBTreeNode.Valid height T.Root) ∨ IsEmptyLeaf T.Root
  text_eq : textOf T.Root.pieces = text
  threaded : Threaded T.order T.Root.ids

theorem empty_holds : Holds [] (empty : RopePieceBTree α) := by
  refine ⟨.inr ⟨0, rfl⟩, rfl, ⟨rfl, rfl, trivial⟩, pairwise_singleton _ 0, ?_⟩
  exact forall_mem_singleton.mpr zero_lt_one

theorem emptyLeaf_valid (id : Nat) :
    RopePieceBTreeLeaf.Valid (⟨id, 0, []⟩ : RopePieceBTreeLeaf α) :=
  ⟨fun _ mem => absurd mem not_mem_nil, rfl, Nat.two_pow_pos 32, zero_le _⟩

section

variable (holds : Holds text T)
include holds

theorem Holds.allValid : AllValid T.Root.pieces := by
  rcases holds.shape with ⟨height, valid⟩ | ⟨id, leafRoot⟩
  · exact valid.allValid
  · rw [leafRoot, pieces_leaf]
    exact (emptyLeaf_valid id).pieces

theorem Holds.size_eq_extent : T.size = extent RopePiece.size T.Root.pieces := by
  rcases holds.shape with ⟨height, valid⟩ | ⟨id, leafRoot⟩
  · exact valid.size_eq
  · rw [size, leafRoot, pieces_leaf]
    rfl

theorem Holds.size_eq : T.size = text.length := by
  rw [holds.size_eq_extent, <- holds.allValid.length_textOf, holds.text_eq]

theorem Holds.size_lt : T.size < 2 ^ 32 := by
  rcases holds.shape with ⟨height, valid⟩ | ⟨id, leafRoot⟩
  · exact valid.size_lt
  · rw [size, leafRoot]
    exact Nat.two_pow_pos 32

end

/-- A root that became one or two nodes. -/
theorem newRoot_holds {height : Nat} {S : LeafOrder} {oldIds : List Nat}
    {result : RopePieceBTreeNode α × Option (RopePieceBTreeNode α) × LeafOrder}
    (grown : Grown height S oldIds newPieces result) (threaded : Threaded S oldIds)
    (small : extent RopePiece.size newPieces < 2 ^ 32) :
    Holds (textOf newPieces) (newRoot result) ∧ (newRoot result).Root.pieces = newPieces ∧
      ∃ height', RopePieceBTreeNode.Valid height' (newRoot result).Root := by
  have valid := grown.valid
  have pieces := grown.pieces_eq
  have threads := grown.threaded [] [] (by simpa using threaded)
  rcases result with ⟨node, _ | RHS, S'⟩
  · have nodeValid := valid node mem_cons_self
    have nodePieces : node.pieces = newPieces := by
      rw [<- pieces, nodesOf, toList_none, childrenPieces_cons, childrenPieces_nil, append_nil]
    refine ⟨⟨.inl ⟨height, nodeValid⟩, congrArg textOf nodePieces, ?_⟩, nodePieces,
      height, nodeValid⟩
    rw [nodesOf, toList_none, childrenIds_cons, childrenIds_nil] at threads
    simpa [newRoot] using threads
  · rw [nodesOf, toList_some] at valid pieces threads
    have rootPieces : (newInterior node RHS).pieces = newPieces := by
      rw [newInterior, pieces_interior, pieces]
    have sizes : add32 node.size RHS.size = extent RopePiece.size (childrenPieces [node, RHS]) := by
      have sum := children_size valid
      rw [List.map_cons, map_singleton, sum_cons, sum_singleton] at sum
      rw [pieces] at sum ⊢
      change node.size + RHS.size = _ at sum
      rw [add32_eq (by omega), sum]
    have rootValid : RopePieceBTreeNode.Valid (height + 1) (newInterior node RHS) :=
      interior_valid (cons_ne_nil _ _) (by decide : 2 <= 2 * WidthFactor) sizes
        (add32_lt _ _) valid
    refine ⟨⟨.inl ⟨height + 1, rootValid⟩, congrArg textOf rootPieces, ?_⟩, rootPieces,
      height + 1, rootValid⟩
    rw [newRoot, newInterior, ids_interior]
    simpa using threads

section

variable (holds : Holds text T)
include holds

/-- The first step of both operations makes a cut. -/
theorem Holds.split (within : Offset <= text.length) :
    ∃ T', (T.Root.split Offset T.order).map newRoot = some T' ∧ Holds text T' ∧
      (Offset = 0 -> T'.Root = T.Root) ∧
      ∃ l r, T'.Root.pieces = l ++ r ∧ extent RopePiece.size l = Offset := by
  have small := holds.size_lt
  have whole := holds.size_eq
  rcases holds.shape with ⟨height, valid⟩ | ⟨id, leafRoot⟩
  · rcases valid.split_spec (whole ▸ within : Offset <= T.size) T.order with
      ⟨result, l, r, run, grown, offset, kept⟩
    have piecesValid : AllValid (l ++ r) := by
      rw [<- grown.pieces_eq]
      exact children_allValid grown.valid
    have bounded : extent RopePiece.size (l ++ r) < 2 ^ 32 := by
      rw [<- piecesValid.length_textOf, kept, holds.text_eq, <- whole]
      exact small
    rcases newRoot_holds grown holds.threaded bounded with ⟨holds', pieces, _⟩
    rw [kept, holds.text_eq] at holds'
    refine ⟨newRoot result, ?_, holds', fun start => ?_, l, r, pieces, offset⟩
    · rw [run, map_some]
    · -- At the start, nothing is split.
      subst start
      have unchanged : T.Root.split 0 T.order = some (T.Root, none, T.order) := by
        cases T.Root with
        | leaf L => rw [RopePieceBTreeNode.split, if_pos (zero_le _), RopePieceBTreeLeaf.split,
            if_pos (Or.inl rfl)]; rfl
        | interior Size Children => rw [RopePieceBTreeNode.split, if_pos (zero_le _),
            if_pos (Or.inl rfl)]
      rcases some.inj (run.symm.trans unchanged) with rfl
      rfl
  · have start : Offset = 0 := by
      rw [<- whole, size, leafRoot] at within
      exact le_zero.mp within
    subst start
    refine ⟨T, ?_, holds, fun _ => rfl, [], T.Root.pieces, rfl, rfl⟩
    rw [leafRoot, RopePieceBTreeNode.split, if_pos (zero_le _), RopePieceBTreeLeaf.split,
      if_pos (Or.inl rfl)]
    rcases T with ⟨Root, order⟩
    subst leafRoot
    rfl

theorem Holds.text_at (cut : T.Root.pieces = l ++ r) (offset : extent RopePiece.size l = Offset) :
    textOf l = text.take Offset ∧ textOf r = text.drop Offset := by
  have piecesValid := holds.allValid
  rw [cut] at piecesValid
  have before := (allValid_append.mp piecesValid).1.length_textOf
  rw [offset] at before
  have whole := holds.text_eq
  rw [cut, textOf_append] at whole
  constructor
  · rw [<- whole, take_left' before]
  · rw [<- whole, drop_left' before]

theorem insert_holds (pieceValid : R.Valid) (within : Offset <= text.length)
    (fits : T.size + R.size < 2 ^ 32) :
    ∃ T', T.insert Offset R = some T' ∧
      Holds (text.take Offset ++ R.text ++ text.drop Offset) T' := by
  rcases holds.split within with ⟨T₁, split, holds₁, _, l, r, cut, offset⟩
  have whole := holds₁.size_eq_extent
  have sameSize : T₁.size = T.size := holds₁.size_eq.trans holds.size_eq.symm
  have inserted : ∃ height result, T₁.Root.insert Offset R T₁.order = some result ∧
      Grown height T₁.order T₁.Root.ids (l ++ R :: r) result := by
    rcases holds₁.shape with ⟨height, valid⟩ | ⟨id, leafRoot⟩
    · have fits₁ : T₁.Root.size + R.size < 2 ^ 32 := by
        rw [<- sameSize] at fits
        exact fits
      rcases valid.insert_spec pieceValid cut offset fits₁ T₁.order with ⟨result, run, grown⟩
      exact ⟨height, result, run, grown⟩
    · rw [leafRoot, pieces_leaf] at cut
      have start : Offset = 0 := by
        rw [<- offset, (append_eq_nil_iff.mp cut.symm).1, extent_nil]
      have fits₁ : (0 : Nat) + R.size < 2 ^ 32 := by omega
      rcases (emptyLeaf_valid id).insert_spec pieceValid cut offset fits₁ T₁.order with
        ⟨result, run, grown⟩
      refine ⟨0, ofLeaf result, ?_, ?_⟩
      · rw [leafRoot, RopePieceBTreeNode.insert, if_pos (start ▸ Nat.le_refl 0), run, map_some]
      · rw [leafRoot, ids_leaf]
        exact grown
  rcases inserted with ⟨height, result, run, grown⟩
  have bounded : extent RopePiece.size (l ++ R :: r) < 2 ^ 32 := by
    rw [cut, extent_append] at whole
    rw [extent_append, extent_cons]
    omega
  have holds' := (newRoot_holds grown holds₁.threaded bounded).1
  rcases holds₁.text_at cut offset with ⟨before, after⟩
  rw [textOf_append, textOf_cons, before, after, <- List.append_assoc] at holds'
  refine ⟨newRoot result, ?_, holds'⟩
  rw [insert, split, bind_eq_bind, bind_some, run, map_some]

theorem erase_holds (positive : 0 < NumBytes) (within : Offset + NumBytes <=
    text.length) (fits : NumBytes < T.size ∨ ∃ L, T.Root = leaf L) :
    ∃ T', T.erase Offset NumBytes = some T' ∧
      Holds (text.take Offset ++ text.drop (Offset + NumBytes)) T' := by
  rcases holds.split (le_of_add_le_left within) with
    ⟨T₁, split, holds₁, unchanged, l, r, cut, offset⟩
  have sameSize : T₁.size = T.size := holds₁.size_eq.trans holds.size_eq.symm
  have whole := holds₁.size_eq
  have small := holds₁.size_lt
  have within₁ : Offset + NumBytes <= T₁.Root.size := by
    rw [<- whole] at within
    exact within
  rcases holds₁.text_at cut offset with ⟨before, after⟩
  have erased : ∃ node S, T₁.Root.erase Offset NumBytes T₁.order = some (node, S) ∧
      Holds (text.take Offset ++ text.drop (Offset + NumBytes)) ⟨node, S⟩ := by
    by_cases less : NumBytes < T₁.Root.size
    · rcases holds₁.shape with ⟨height, valid⟩ | ⟨id, leafRoot⟩
      · rcases valid.erases T₁.order cut offset positive within₁ less with ⟨node, S, run, result⟩
        rcases result.pieces_eq with ⟨r', pieces, text'⟩
        refine ⟨node, S, run, .inl ⟨height, result.valid⟩, ?_, ?_⟩
        · rw [pieces, textOf_append, before, text', after, drop_drop]
        · have threads := result.threaded [] [] (by simpa using holds₁.threaded)
          simpa using threads
      · rw [leafRoot] at less
        exact absurd less (not_lt_zero _)
    · -- All of the text is removed from a leaf.
      have start : Offset = 0 := by omega
      have rootSame := unchanged start
      rcases fits with less' | ⟨L, leafRoot⟩
      · exact absurd (sameSize ▸ less' : NumBytes < T₁.size) less
      have leafRoot₁ : T₁.Root = leaf L := rootSame.trans leafRoot
      have leafValid : L.Valid := by
        rcases holds₁.shape with ⟨height, valid⟩ | ⟨id, emptyRoot⟩
        · rw [leafRoot₁] at valid
          rcases valid.cases with ⟨L', same, _, leafValid, _⟩ | ⟨_, _, _, never, _⟩
          · cases same
            exact leafValid
          · cases never
        · rw [leafRoot₁] at emptyRoot
          cases emptyRoot
          exact emptyLeaf_valid id
      rw [leafRoot₁] at within₁ less
      rw [leafRoot₁, pieces_leaf] at cut
      change Offset + NumBytes <= L.Size at within₁
      change ¬NumBytes < L.Size at less
      have bounded := leafValid.small
      rcases leafValid.erase_spec cut offset positive within₁ with ⟨r', run, rest, text', fewer⟩
      have stillValid := erased_leaf_valid leafValid cut (offset ▸ within₁) rest text' fewer
      have noSize : L.Size - NumBytes = 0 := by omega
      have noPieces : l ++ r' = [] := by
        apply eq_nil_of_extent_eq_zero stillValid.pieces.positive
        rw [<- noSize]
        exact stillValid.size.symm
      refine ⟨leaf ⟨L.id, L.Size - NumBytes, l ++ r'⟩, T₁.order, ?_, .inr ⟨L.id, ?_⟩, ?_, ?_⟩
      · rw [leafRoot₁, RopePieceBTreeNode.erase, add32_eq (by omega), if_pos within₁, run, map_some]
      · rw [noPieces, noSize]
      · rw [pieces_leaf, textOf_append, before, text', after, drop_drop]
      · have threads := holds₁.threaded
        rw [leafRoot₁, ids_leaf] at threads
        rw [ids_leaf]
        exact threads
  rcases erased with ⟨node, S, run, holds'⟩
  refine ⟨⟨node, S⟩, ?_, holds'⟩
  rw [erase, split, bind_eq_bind, bind_some, run, map_some]

theorem Holds.iterate {steps : Nat}
    (enough : T.Root.pieces.length + 1 < steps) : T.iterate steps = some text := by
  rcases holds.shape with ⟨height, valid⟩ | ⟨id, leafRoot⟩
  · rw [iterate_eq valid holds.threaded (lt_of_succ_lt enough), holds.text_eq]
  · have empty : text = [] := by
      rw [<- holds.text_eq, leafRoot, pieces_leaf, textOf_nil]
    have alone := holds.threaded.order
    rw [leafRoot, ids_leaf] at alone
    have last : T.order.links.next id = none := alone.2.1
    have leaves : T.Root.leaves = [] ++ ⟨id, 0, []⟩ :: [] := by
      rw [leafRoot, RopePieceBTreeNode.leaves, nil_append]
    have found := getCN_eq leaves holds.threaded.distinct
    rcases steps with _ | steps
    · exact absurd enough (not_lt_zero _)
    rw [empty, RopePieceBTree.iterate, begin, leafRoot, firstLeaf]
    simp only [bind_eq_bind, bind_some]
    rw [skipEmpty, found, bind_eq_bind, bind_some, if_pos length_nil, last]
    cases steps <;> rfl

end

/-! ## Edits that do not fit -/

theorem foldl_add32_lt (sizes : List Nat) {start : Nat} (small : start < 2 ^ 32) :
    sizes.foldl add32 start < 2 ^ 32 := by
  induction sizes generalizing start with
  | nil => exact small
  | cons size sizes ih =>
    exact ih (add32_lt start size)

theorem insertPiece_size_lt {L L' : RopePieceBTreeLeaf α} (run : L.insertPiece Offset R = some L') :
    L'.Size < 2 ^ 32 := by
  have inserted : ∃ i, L' = ⟨L.id, add32 L.Size R.size, L.Pieces.insertIdx i R⟩ := by
    rw [RopePieceBTreeLeaf.insertPiece] at run
    by_cases atEnd : Offset = L.Size
    · rw [if_pos atEnd] at run
      exact ⟨_, (some.inj run).symm⟩
    · rw [if_neg atEnd] at run
      rcases bind_eq_some_iff.mp run with ⟨⟨i, SlotOffs⟩, _, rest⟩
      simp only at rest
      split_ifs at rest
      · exact ⟨i, (some.inj rest).symm⟩
      · cases rest
  rcases inserted with ⟨i, rfl⟩
  exact add32_lt _ _

theorem leaf_insert_size_lt {L : RopePieceBTreeLeaf α} {S : LeafOrder}
    {result : RopePieceBTreeLeaf α × Option (RopePieceBTreeLeaf α) × LeafOrder}
    (run : L.insert Offset R S = some result) : result.1.Size < 2 ^ 32 := by
  rw [RopePieceBTreeLeaf.insert] at run
  split_ifs at run
  · rcases bind_eq_some_iff.mp run with ⟨L', inserted, done⟩
    cases done
    exact insertPiece_size_lt inserted
  · rcases bind_eq_some_iff.mp run with ⟨S', _, rest⟩
    split_ifs at rest
    · rcases bind_eq_some_iff.mp rest with ⟨L', inserted, done⟩
      cases done
      exact insertPiece_size_lt inserted
    · rcases bind_eq_some_iff.mp rest with ⟨L', _, done⟩
      cases done
      exact foldl_add32_lt _ (Nat.two_pow_pos 32)

theorem HandleChildPiece_size_lt {i Size : Nat} {RHS : RopePieceBTreeNode α}
    {Children : List (RopePieceBTreeNode α)} (small : Size < 2 ^ 32) :
    (HandleChildPiece i RHS Size Children).1.size < 2 ^ 32 := by
  rw [HandleChildPiece]
  simp only
  split_ifs
  · exact small
  · exact foldl_add32_lt _ (Nat.two_pow_pos 32)
  · exact foldl_add32_lt _ (Nat.two_pow_pos 32)

theorem newRoot_size_lt {S : LeafOrder} {node : RopePieceBTreeNode α}
    {RHS : Option (RopePieceBTreeNode α)} (small : node.size < 2 ^ 32) :
    (newRoot (node, RHS, S)).size < 2 ^ 32 := by
  cases RHS with
  | none =>
    rw [newRoot, size]
    exact small
  | some RHS =>
    rw [newRoot, size, newInterior, RopePieceBTreeNode.size]
    exact add32_lt _ _

/-- Sizes wrap around. -/
theorem insert_size_lt {T' : RopePieceBTree α} (run : T.insert Offset R = some T') :
    T'.size < 2 ^ 32 := by
  rw [insert] at run
  rcases bind_eq_some_iff.mp run with ⟨T₁, _, rest⟩
  rcases map_eq_some_iff.mp rest with ⟨⟨node, RHS, S⟩, inserted, rfl⟩
  apply newRoot_size_lt
  cases root : T₁.Root with
  | leaf L =>
    rw [root, RopePieceBTreeNode.insert] at inserted
    split_ifs at inserted
    rcases map_eq_some_iff.mp inserted with ⟨result, leafInserted, same⟩
    rw [ofLeaf, Prod.mk.injEq] at same
    rw [<- same.1, RopePieceBTreeNode.size]
    exact leaf_insert_size_lt leafInserted
  | interior Size Children =>
    rw [root, RopePieceBTreeNode.insert] at inserted
    split_ifs at inserted
    rcases bind_eq_some_iff.mp inserted with ⟨⟨i, ChildOffs⟩, _, below⟩
    rcases map_eq_some_iff.mp below with ⟨⟨Child, new, S'⟩, _, same⟩
    cases new with
    | none =>
      rw [handleChild, Prod.mk.injEq] at same
      rw [<- same.1, RopePieceBTreeNode.size]
      exact add32_lt Size R.size
    | some new =>
      rw [handleChild, Prod.mk.injEq] at same
      rw [<- same.1]
      exact HandleChildPiece_size_lt (add32_lt Size R.size)

theorem erase_all_interior (holds : Holds text T) {Size : Nat}
    {Children : List (RopePieceBTreeNode α)} (root : T.Root = interior Size Children) :
    ∃ order, T.erase 0 T.size = some ⟨interior 0 [], order⟩ := by
  rcases holds.split (zero_le _) with ⟨T₁, split, holds₁, unchanged, _⟩
  have root₁ : T₁.Root = interior Size Children := (unchanged rfl).trans root
  have sameSize : T₁.size = T.size := holds₁.size_eq.trans holds.size_eq.symm
  have small := holds₁.size_lt
  rcases holds₁.shape with ⟨height, valid⟩ | ⟨id, never⟩
  · have whole := valid.size_eq
    have positive := valid.size_pos
    rcases valid.cases with ⟨_, never, _⟩ |
      ⟨below, Size', Children', same, _, nonempty, _, _, _, childrenValid⟩
    · rw [root₁] at never
      cases never
    rw [root₁] at same whole positive
    cases same
    rw [size, root₁] at sameSize small
    change Size < 2 ^ 32 at small
    change 0 < Size at positive
    change Size = T.size at sameSize
    rw [pieces_interior] at whole
    change Size = _ at whole
    rcases exists_cons_of_ne_nil nonempty with ⟨Child, rest, rfl⟩
    have childPositive := (childrenValid Child mem_cons_self).size_pos
    have found : passChildren 0 ((Child :: rest).map RopePieceBTreeNode.size) 0 = some (0, 0) := by
      rw [List.map_cons, passChildren, if_neg (by omega)]
    rcases eraseChildren_spec (fun childValid => childValid.erases) childrenValid
        (nil_append _).symm extent_nil
        (fun first mem => by
          rw [head?_cons, mem_some_iff] at mem
          exact mem ▸ childPositive)
        (show 0 + Size <= _ by omega) (by omega) T₁.order with ⟨left, S, run, _, erased⟩
    rcases erased.pieces_eq with ⟨r', pieces, nothing⟩
    have piecesValid := children_allValid erased.valid
    have covered : (textOf (childrenPieces (Child :: rest))).drop Size = [] := by
      apply drop_of_length_le
      rw [(children_allValid childrenValid).length_textOf]
      omega
    have none : childrenPieces left = [] := by
      apply piecesValid.eq_nil
      rw [pieces, nil_append, nothing, covered]
    have noChildren : left = [] := by
      rcases left with _ | ⟨first, left⟩
      · rfl
      · rw [childrenPieces_cons] at none
        exact absurd (append_eq_nil_iff.mp none).1
          (erased.valid first mem_cons_self).pieces_ne_nil
    rw [noChildren] at run
    refine ⟨S, ?_⟩
    rw [erase, split, bind_eq_bind, bind_some, root₁, RopePieceBTreeNode.erase,
      <- sameSize, add32_eq (by omega), if_pos (by omega), found, bind_some]
    simp only
    rw [run, map_some, sub32_eq (Nat.le_refl _) small, Nat.sub_self]
    rfl
  · rw [root₁] at never
    cases never

/-! ## Edits -/

end RopePieceBTree

/-- One change of the text. -/
inductive Edit (α : Type)
  | insert (Offset : Nat) (R : RopePiece α)
  | erase (Offset NumBytes : Nat)

namespace Edit

/-- The change of a rope. -/
def apply (T : RopePieceBTree α) : Edit α -> Option (RopePieceBTree α)
  | insert Offset R => T.insert Offset R
  | erase Offset NumBytes => T.erase Offset NumBytes

/-- The same change of a plain string. -/
def onText (text : List α) : Edit α -> List α
  | insert Offset R => text.take Offset ++ R.text ++ text.drop Offset
  | erase Offset NumBytes => text.take Offset ++ text.drop (Offset + NumBytes)

/-- An insertion of a non-empty piece in the text, or a removal of some of it. -/
def Admissible (text : List α) : Edit α -> Prop
  | insert Offset R => Offset <= text.length ∧ R.Valid
  | erase Offset NumBytes => 0 < NumBytes ∧ Offset + NumBytes <= text.length

instance (R : RopePiece α) : Decidable R.Valid :=
  decidable_of_iff (R.StartOffs < R.EndOffs ∧ R.EndOffs <= R.StrData.length ∧ R.EndOffs < 2 ^ 32)
    ⟨fun ⟨nonempty, inside, small⟩ => ⟨nonempty, inside, small⟩,
      fun ⟨nonempty, inside, small⟩ => ⟨nonempty, inside, small⟩⟩

instance (text : List α) : ∀ edit : Edit α, Decidable (edit.Admissible text)
  | insert Offset R => inferInstanceAs (Decidable (Offset <= text.length ∧ R.Valid))
  | erase Offset NumBytes =>
    inferInstanceAs (Decidable (0 < NumBytes ∧ Offset + NumBytes <= text.length))

/-- The length stays a 32-bit number, and a root that is an interior node keeps
some text. -/
def Fits (T : RopePieceBTree α) : Edit α -> Prop
  | insert _ R => T.size + R.size < 2 ^ 32
  | erase _ NumBytes => NumBytes < T.size ∨ ∃ L, T.Root = leaf L

end Edit

namespace RopePieceBTreeNode

mutual

/-- Every size is the sum of the sizes below. -/
def SizesExact : RopePieceBTreeNode α -> Prop
  | leaf L => L.Size = (L.Pieces.map RopePiece.size).sum
  | interior Size Children => Size = (Children.map size).sum ∧ ChildrenExact Children

def ChildrenExact : List (RopePieceBTreeNode α) -> Prop
  | [] => True
  | Child :: rest => SizesExact Child ∧ ChildrenExact rest

end

theorem Valid.sizesExact {height : Nat} {node : RopePieceBTreeNode α} (valid : Valid height node) :
    node.SizesExact := by
  induction height generalizing node with
  | zero =>
    rcases valid.cases with ⟨L, rfl, _, leafValid, _⟩ | ⟨_, _, _, _, never, _⟩
    · exact leafValid.size
    · cases never
  | succ height ih =>
    rcases valid.cases with ⟨_, _, never, _⟩ |
      ⟨below, Size, Children, rfl, same, _, _, sizes, _, childrenValid⟩
    · cases never
    rcases succ.inj same with rfl
    refine ⟨sizes, ?_⟩
    clear sizes valid
    have all : ∀ Children : List (RopePieceBTreeNode α),
        (∀ Child ∈ Children, Valid height Child) -> ChildrenExact Children := by
      intro Children valid
      induction Children with
      | nil => trivial
      | cons Child rest restHypothesis =>
        rcases forall_mem_cons.mp valid with ⟨here, later⟩
        exact ⟨ih here, restHypothesis later⟩
    exact all Children childrenValid

end RopePieceBTreeNode

/-- What a user of the rope sees: its size and its iteration are those of the
text, and every node has the size of what is below it. -/
structure Represents (T : RopePieceBTree α) (text : List α) : Prop where
  size_eq : T.size = text.length
  sizesExact : T.Root.SizesExact
  iterates : ∃ enough, ∀ steps, enough <= steps -> T.iterate steps = some text

/-- A rope and the string after the same admissible edits, all of which fit. -/
inductive Reached : RopePieceBTree α -> List α -> Prop
  | start : Reached RopePieceBTree.empty []
  | step {T T' : RopePieceBTree α} {text : List α} (edit : Edit α) (reached : Reached T text)
      (admissible : edit.Admissible text) (fits : edit.Fits T) (run : edit.apply T = some T') :
      Reached T' (edit.onText text)

namespace RopePieceBTree

variable {T : RopePieceBTree α} {text : List α}

theorem Holds.represents (holds : Holds text T) : Represents T text := by
  refine ⟨holds.size_eq, ?_, T.Root.pieces.length + 2, fun steps enough => holds.iterate enough⟩
  rcases holds.shape with ⟨height, valid⟩ | ⟨id, leafRoot⟩
  · exact valid.sizesExact
  · rw [leafRoot]
    rfl

theorem Holds.apply (holds : Holds text T) {edit : Edit α} (admissible : edit.Admissible text)
    (fits : edit.Fits T) : ∃ T', edit.apply T = some T' ∧ Holds (edit.onText text) T' := by
  cases edit with
  | insert Offset R => exact insert_holds holds admissible.2 admissible.1 fits
  | erase Offset NumBytes => exact erase_holds holds admissible.1 admissible.2 fits

theorem reached_holds (reached : Reached T text) : Holds text T := by
  induction reached with
  | start => exact empty_holds
  | step edit reached admissible fits run ih =>
    rcases ih.apply admissible fits with ⟨T', run', holds⟩
    rcases some.inj (run.symm.trans run') with rfl
    exact holds

theorem Holds.fits (holds : Holds text T) {edit : Edit α} (admissible : edit.Admissible text)
    {T' : RopePieceBTree α} (run : edit.apply T = some T')
    (represents : Represents T' (edit.onText text)) : edit.Fits T := by
  have whole := holds.size_eq
  cases edit with
  | insert Offset R =>
    have small := insert_size_lt run
    rcases admissible with ⟨within, pieceValid⟩
    have length : (Edit.onText text (.insert Offset R)).length = T.size + R.size := by
      rw [Edit.onText, length_append, length_append, length_take,
        length_drop, pieceValid.length_text]
      omega
    rw [represents.size_eq, length] at small
    exact small
  | erase Offset NumBytes =>
    rcases admissible with ⟨positive, within⟩
    by_cases less : NumBytes < T.size
    · exact .inl less
    cases root : T.Root with
    | leaf L => exact .inr ⟨L, root⟩
    | interior Size Children =>
      rcases erase_all_interior holds root with ⟨order, erased⟩
      have all : NumBytes = T.size := by omega
      have start : Offset = 0 := by omega
      rw [Edit.apply, start, all, erased] at run
      rcases some.inj run with rfl
      rcases represents.iterates with ⟨enough, iterates⟩
      cases iterates enough (le_refl _)

/-- After any admissible edits that fit, the rope represents the string after
the same edits.  A further admissible edit succeeds and leaves a rope that
represents the new string if and only if it fits, too. -/
theorem reached_represents (reached : Reached T text) :
    Represents T text ∧ ∀ edit : Edit α, edit.Admissible text ->
      ((∃ T', edit.apply T = some T' ∧ Represents T' (edit.onText text)) ↔ edit.Fits T) := by
  have holds := reached_holds reached
  refine ⟨holds.represents, fun edit admissible => ⟨?_, fun fits => ?_⟩⟩
  · rintro ⟨T', run, represents⟩
    exact holds.fits admissible run represents
  · rcases holds.apply admissible fits with ⟨T', run, holds'⟩
    exact ⟨T', run, holds'.represents⟩

/-- The empty rope is reached, and the first insertion fits. -/
theorem reached_represents_first :
    Represents (empty : RopePieceBTree Char) [] ∧ ∀ edit : Edit Char, edit.Admissible [] ->
      ((∃ T', edit.apply empty = some T' ∧ Represents T' (edit.onText [])) ↔ edit.Fits empty) :=
  reached_represents .start

/-- Seventeen pieces of one character, one behind the other, and then the
removal of all of them. -/
def emptyingEdits : List (Edit Char) :=
  (List.range 17).map (fun i => .insert i ⟨['x'], 0, 1⟩) ++ [.erase 0 17]

/-- All of these edits are admissible and succeed, and after them neither an
insertion nor an iteration does. -/
theorem reached_represents_emptied :
    Runs.Described Edit.onText Edit.Admissible [] emptyingEdits ∧
      ∃ T, Runs.run Edit.apply empty emptyingEdits = some T ∧ T.size = 0 ∧
        T.insert 0 ⟨['y'], 0, 1⟩ = none ∧ ∀ steps, T.begin steps = none := by
  have admissible : Runs.Described Edit.onText Edit.Admissible [] emptyingEdits := by
    decide +kernel
  have sizes : (Runs.run Edit.apply empty emptyingEdits).map size = some 0 := by decide +kernel
  have inserts : ((Runs.run Edit.apply empty emptyingEdits).bind fun T =>
      (T.insert 0 ⟨['y'], 0, 1⟩).map size) = none := by decide +kernel
  have leaves : (Runs.run Edit.apply empty emptyingEdits).map (fun T => T.Root.firstLeaf) =
      some none := by decide +kernel
  rcases map_eq_some_iff.mp sizes with ⟨T, run, size⟩
  rw [run] at inserts leaves
  refine ⟨admissible, T, run, size, ?_, fun steps => ?_⟩
  · exact map_eq_none_iff.mp inserts
  · have first : T.Root.firstLeaf = none := some.inj leaves
    rw [begin, first]
    rfl

end RopePieceBTree

end RewriteRope
end LlvmProject
