import LlvmProject.Rewrite.RewriteRopePieces

namespace LlvmProject

open List

namespace RewriteRope

/-!
# The invariant of the rope

All leaves are at one depth, every size is the sum of the sizes below, every
node is neither empty nor too full, and the links between the leaves follow the
tree.  A root that is a leaf may also be empty.
-/

open SizedParts LinkedOrder

variable {α : Type}

/-! ## The order of the leaves -/

/-- The links lead through exactly these leaves, all of which are known. -/
structure Threaded (S : LeafOrder) (ids : List Nat) : Prop where
  order : S.links.InOrder ids
  distinct : ids.Nodup
  known : ∀ id ∈ ids, id < S.fresh

namespace LeafOrder

variable {S : LeafOrder} {front back : List Nat} {id : Nat}

theorem newLeaf_threaded {ids : List Nat} (threaded : Threaded S ids) :
    S.newLeaf.links.InOrder ids := by
  apply threaded.order.congr
  intro a mem
  have ne : a ≠ S.fresh := (threaded.known a mem).ne
  constructor
  · simp [newLeaf, ne]
  · simp [newLeaf, ne]

/-- The new leaf of a split is put after the leaf it was split from. -/
theorem insertAfterLeafInOrder_spec (S : LeafOrder) (id : Nat) :
    ∃ S', S.newLeaf.insertAfterLeafInOrder S.fresh id = some S' ∧
      ∀ front back, Threaded S (front ++ id :: back) ->
        Threaded S' (front ++ id :: S.fresh :: back) := by
  have unlinked : S.newLeaf.links.prev S.fresh = none ∧ S.newLeaf.links.next S.fresh = none := by
    constructor
    · simp [newLeaf]
    · simp [newLeaf]
  refine ⟨_, if_pos unlinked, fun front back threaded => ?_⟩
  have new : S.fresh ∉ front ++ id :: back := fun mem =>
    lt_irrefl _ (threaded.known _ mem)
  refine ⟨(newLeaf_threaded threaded).insertAfter threaded.distinct new, ?_, ?_⟩
  · have same : (front ++ id :: S.fresh :: back).Perm (S.fresh :: (front ++ id :: back)) := by
      rw [append_cons, append_cons front id back]
      exact perm_middle
    exact same.nodup_iff.mpr (nodup_cons.mpr ⟨new, threaded.distinct⟩)
  · intro a mem
    have cases : a = S.fresh ∨ a ∈ front ++ id :: back := by
      rw [mem_append, mem_cons, mem_cons] at mem
      rw [mem_append, mem_cons]
      tauto
    rcases cases with rfl | old
    · exact Nat.lt_succ_self _
    · exact Nat.lt_succ_of_lt (threaded.known a old)

/-- The destructor of a leaf takes it out of the order. -/
theorem deleteLeaf_threaded (threaded : Threaded S (front ++ id :: back)) :
    Threaded (S.deleteLeaf id) (front ++ back) := by
  have fewer : (front ++ back).Sublist (front ++ id :: back) :=
    List.Sublist.append_left (sublist_cons_self id back) front
  have removed := threaded.order.remove threaded.distinct
  have links : (S.deleteLeaf id).links = S.links.remove id := by
    rw [deleteLeaf]
    split_ifs with linked
    · rfl
    · rw [not_or, not_not, not_not] at linked
      rw [Links.remove, linked.1, linked.2]
  have fresh : (S.deleteLeaf id).fresh = S.fresh := by
    rw [deleteLeaf]
    split_ifs <;> rfl
  refine ⟨links ▸ removed, threaded.distinct.sublist fewer, fun a mem => ?_⟩
  rw [fresh]
  exact threaded.known a (fewer.subset mem)

end LeafOrder

/-! ## Leaves -/

/-- The pieces of a leaf are valid, and its size is theirs. -/
structure RopePieceBTreeLeaf.Valid (L : RopePieceBTreeLeaf α) : Prop where
  pieces : AllValid L.Pieces
  size : L.Size = extent RopePiece.size L.Pieces
  small : L.Size < 2 ^ 32
  width : L.Pieces.length <= 2 * WidthFactor

namespace RopePieceBTreeNode

variable {Children l r : List (RopePieceBTreeNode α)} {Child node : RopePieceBTreeNode α}
  {height : Nat}

/-! ## Nodes -/

/-- The pieces of a tree, in order. -/
def pieces (node : RopePieceBTreeNode α) : List (RopePiece α) :=
  node.leaves.flatMap RopePieceBTreeLeaf.Pieces

def childrenPieces (Children : List (RopePieceBTreeNode α)) : List (RopePiece α) :=
  (childrenLeaves Children).flatMap RopePieceBTreeLeaf.Pieces

/-- The addresses of the leaves of a tree, in order. -/
def ids (node : RopePieceBTreeNode α) : List Nat := node.leaves.map RopePieceBTreeLeaf.id

def childrenIds (Children : List (RopePieceBTreeNode α)) : List Nat :=
  (childrenLeaves Children).map RopePieceBTreeLeaf.id

theorem childrenLeaves_append (l r : List (RopePieceBTreeNode α)) :
    childrenLeaves (l ++ r) = childrenLeaves l ++ childrenLeaves r := by
  induction l with
  | nil => rfl
  | cons Child l ih =>
    rw [cons_append, childrenLeaves, ih, childrenLeaves, append_assoc]

@[simp] theorem pieces_leaf (L : RopePieceBTreeLeaf α) : (leaf L).pieces = L.Pieces := by
  rw [pieces, leaves, flatMap_singleton]

@[simp] theorem pieces_interior (Size : Nat) (Children : List (RopePieceBTreeNode α)) :
    (interior Size Children).pieces = childrenPieces Children := by
  rw [pieces, leaves, childrenPieces]

@[simp] theorem childrenPieces_nil : childrenPieces ([] : List (RopePieceBTreeNode α)) = [] := rfl

@[simp] theorem childrenPieces_cons (Child : RopePieceBTreeNode α)
    (rest : List (RopePieceBTreeNode α)) :
    childrenPieces (Child :: rest) = Child.pieces ++ childrenPieces rest := by
  rw [childrenPieces, childrenLeaves, flatMap_append, pieces, childrenPieces]

@[simp] theorem childrenPieces_append (l r : List (RopePieceBTreeNode α)) :
    childrenPieces (l ++ r) = childrenPieces l ++ childrenPieces r := by
  rw [childrenPieces, childrenLeaves_append, flatMap_append, childrenPieces, childrenPieces]

@[simp] theorem ids_leaf (L : RopePieceBTreeLeaf α) : (leaf L).ids = [L.id] := by
  rw [ids, leaves, map_singleton]

@[simp] theorem ids_interior (Size : Nat) (Children : List (RopePieceBTreeNode α)) :
    (interior Size Children).ids = childrenIds Children := by
  rw [ids, leaves, childrenIds]

@[simp] theorem childrenIds_nil : childrenIds ([] : List (RopePieceBTreeNode α)) = [] := rfl

@[simp] theorem childrenIds_cons (Child : RopePieceBTreeNode α)
    (rest : List (RopePieceBTreeNode α)) :
    childrenIds (Child :: rest) = Child.ids ++ childrenIds rest := by
  rw [childrenIds, childrenLeaves, map_append, ids, childrenIds]

@[simp] theorem childrenIds_append (l r : List (RopePieceBTreeNode α)) :
    childrenIds (l ++ r) = childrenIds l ++ childrenIds r := by
  rw [childrenIds, childrenLeaves_append, map_append, childrenIds, childrenIds]

/-- A node of some height that is neither empty nor too full, with exact sizes
in it and below. -/
def Valid : Nat -> RopePieceBTreeNode α -> Prop
  | 0, leaf L => L.Valid ∧ L.Pieces ≠ []
  | 0, interior _ _ => False
  | _ + 1, leaf _ => False
  | height + 1, interior Size Children =>
    Children ≠ [] ∧ Children.length <= 2 * WidthFactor ∧ Size = (Children.map size).sum ∧
      Size < 2 ^ 32 ∧ ∀ Child ∈ Children, Valid height Child

theorem valid_leaf {L : RopePieceBTreeLeaf α} :
    Valid 0 (leaf L) ↔ L.Valid ∧ L.Pieces ≠ [] := Iff.rfl

theorem Valid.cases (valid : Valid height node) :
    (∃ L, node = leaf L ∧ height = 0 ∧ L.Valid ∧ L.Pieces ≠ []) ∨
      ∃ below Size Children, node = interior Size Children ∧ height = below + 1 ∧
        Children ≠ [] ∧ Children.length <= 2 * WidthFactor ∧ Size = (Children.map size).sum ∧
        Size < 2 ^ 32 ∧ ∀ Child ∈ Children, Valid below Child := by
  cases node with
  | leaf L =>
    cases height with
    | zero => exact .inl ⟨L, rfl, rfl, valid⟩
    | succ below => cases valid
  | interior Size Children =>
    cases height with
    | zero => cases valid
    | succ below => exact .inr ⟨below, Size, Children, rfl, rfl, valid⟩

theorem Valid.size_lt (valid : Valid height node) : node.size < 2 ^ 32 := by
  rcases valid.cases with ⟨L, rfl, _, leafValid, _⟩ | ⟨_, _, _, rfl, _, _, _, _, small, _⟩
  · exact leafValid.small
  · exact small

theorem children_spec (each : ∀ Child ∈ Children, AllValid Child.pieces ∧ Child.size = extent
    RopePiece.size Child.pieces) :
    AllValid (childrenPieces Children) ∧
      (Children.map size).sum = extent RopePiece.size (childrenPieces Children) := by
  induction Children with
  | nil => exact ⟨fun R mem => absurd mem not_mem_nil, rfl⟩
  | cons Child rest ih =>
    rcases forall_mem_cons.mp each with ⟨⟨childPieces, childSize⟩, later⟩
    rcases ih later with ⟨restPieces, restSizes⟩
    rw [childrenPieces_cons, List.map_cons, sum_cons, restSizes, childSize, extent_append]
    exact ⟨allValid_append.mpr ⟨childPieces, restPieces⟩, rfl⟩

theorem Valid.pieces_spec (valid : Valid height node) :
    AllValid node.pieces ∧ node.size = extent RopePiece.size node.pieces ∧ node.pieces ≠ [] := by
  induction height generalizing node with
  | zero =>
    rcases valid.cases with ⟨L, rfl, _, leafValid, nonempty⟩ | ⟨_, _, _, _, never, _⟩
    · rw [pieces_leaf]
      exact ⟨leafValid.pieces, leafValid.size, nonempty⟩
    · cases never
  | succ height ih =>
    rcases valid.cases with ⟨_, _, never, _⟩ |
      ⟨below, Size, Children, rfl, same, nonempty, _, sizes, _, childrenValid⟩
    · cases never
    · rcases Nat.succ.inj same with rfl
      have all := children_spec fun Child mem =>
        ⟨(ih (childrenValid Child mem)).1, (ih (childrenValid Child mem)).2.1⟩
      rw [pieces_interior]
      refine ⟨all.1, sizes.trans all.2, ?_⟩
      rcases exists_cons_of_ne_nil nonempty with ⟨Child, rest, rfl⟩
      have first := (ih (childrenValid Child mem_cons_self)).2.2
      rw [childrenPieces_cons]
      exact append_ne_nil_of_left_ne_nil first _

theorem Valid.allValid (valid : Valid height node) : AllValid node.pieces := valid.pieces_spec.1

theorem Valid.size_eq (valid : Valid height node) :
    node.size = extent RopePiece.size node.pieces := valid.pieces_spec.2.1

theorem Valid.pieces_ne_nil (valid : Valid height node) : node.pieces ≠ [] := valid.pieces_spec.2.2

theorem Valid.size_pos (valid : Valid height node) : 0 < node.size := by
  rw [valid.size_eq]
  exact extent_pos valid.allValid.positive valid.pieces_ne_nil

theorem children_allValid (valid : ∀ Child ∈ Children, Valid height Child) :
    AllValid (childrenPieces Children) :=
  (children_spec fun Child mem => ⟨(valid Child mem).allValid, (valid Child mem).size_eq⟩).1

theorem children_size (valid : ∀ Child ∈ Children, Valid height Child) :
    (Children.map size).sum = extent RopePiece.size (childrenPieces Children) :=
  (children_spec fun Child mem => ⟨(valid Child mem).allValid, (valid Child mem).size_eq⟩).2

theorem interior_valid {Size : Nat} (nonempty : Children ≠ []) (width : Children.length <=
    2 * WidthFactor) (sizes : Size = extent RopePiece.size (childrenPieces Children))
    (small : Size < 2 ^ 32) (valid : ∀ Child ∈ Children, Valid height Child) :
    Valid (height + 1) (interior Size Children) :=
  ⟨nonempty, width, sizes.trans (children_size valid).symm, small, valid⟩

theorem recomputedInterior_valid (nonempty : Children ≠ []) (width : Children.length <=
    2 * WidthFactor) (small : extent RopePiece.size (childrenPieces Children) < 2 ^ 32)
    (valid : ∀ Child ∈ Children, Valid height Child) :
    Valid (height + 1) (recomputedInterior Children) := by
  have sizes := children_size valid
  rw [recomputedInterior, foldl_add32 _ 0 (by rw [zero_add, sizes]; exact small), zero_add, sizes]
  exact interior_valid nonempty width rfl small valid

/-! ## Results of insertions -/

/-- The nodes an operation leaves in the place of one. -/
def nodesOf (result : RopePieceBTreeNode α × Option (RopePieceBTreeNode α) × LeafOrder) :
    List (RopePieceBTreeNode α) := result.1 :: result.2.1.toList

/-- A node of some height became one or two nodes of this height with these
pieces, and their leaves are in order in the place of the leaves it had. -/
structure Grown (height : Nat) (S : LeafOrder) (ids : List Nat) (pieces : List (RopePiece α))
    (result : RopePieceBTreeNode α × Option (RopePieceBTreeNode α) × LeafOrder) : Prop where
  valid : ∀ node ∈ nodesOf result, Valid height node
  pieces_eq : childrenPieces (nodesOf result) = pieces
  threaded : ∀ front back, Threaded S (front ++ ids ++ back) ->
    Threaded result.2.2 (front ++ childrenIds (nodesOf result) ++ back)

theorem grown_one {S S' : LeafOrder} {oldIds : List Nat} {newPieces : List (RopePiece α)}
    (valid : Valid height node) (pieces_eq : node.pieces = newPieces) (threaded : ∀ front back,
    Threaded S (front ++ oldIds ++ back) -> Threaded S' (front ++ node.ids ++ back)) :
    Grown height S oldIds newPieces (node, none, S') := by
  refine ⟨forall_mem_singleton.mpr valid, ?_, fun front back start => ?_⟩
  · rw [nodesOf, Option.toList_none, childrenPieces_cons, childrenPieces_nil, append_nil, pieces_eq]
  · rw [nodesOf, Option.toList_none, childrenIds_cons, childrenIds_nil, append_nil]
    exact threaded front back start

/-- The node became two nodes. -/
theorem grown_two {S S' : LeafOrder} {oldIds : List Nat} {newPieces : List (RopePiece α)}
    {second : RopePieceBTreeNode α} (valid : Valid height node) (secondValid : Valid height second)
    (pieces_eq : node.pieces ++ second.pieces = newPieces) (threaded : ∀ front back, Threaded
    S (front ++ oldIds ++ back) -> Threaded S' (front ++ (node.ids ++ second.ids) ++ back)) :
    Grown height S oldIds newPieces (node, some second, S') := by
  refine ⟨forall_mem_cons.mpr ⟨valid, forall_mem_singleton.mpr secondValid⟩, ?_,
    fun front back start => ?_⟩
  · rw [nodesOf, Option.toList_some, childrenPieces_cons, childrenPieces_cons, childrenPieces_nil,
      append_nil, pieces_eq]
  · rw [nodesOf, Option.toList_some, childrenIds_cons, childrenIds_cons, childrenIds_nil,
      append_nil]
    exact threaded front back start

theorem grown_unchanged (valid : Valid height node) (S : LeafOrder) :
    Grown height S node.ids node.pieces (node, none, S) :=
  grown_one valid rfl fun _ _ threaded => threaded

end RopePieceBTreeNode

end RewriteRope
end LlvmProject
