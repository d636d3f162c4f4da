import LlvmProject.Rewrite.DeltaTree
import Mathlib.Tactic.Ring

namespace LlvmProject

open List

namespace DeltaTree

/-!
# The invariant of the tree of source deltas

The contents of a node are the values in it and below it, in order.  A node is
valid at a height if its leaves are all that far below it, if every node below
it has as many values as a split leaves at least, and if every cached delta is
the sum of the contents.  An insertion records the delta in the contents.
-/

open Tally Weave

namespace DeltaTreeNode

/-- The values in a node and below it, in order. -/
def contents : DeltaTreeNode -> List SourceDelta
  | leaf Values _ => Values
  | interior Values Children _ => weave (Children.map contents) Values

structure LeafValid (least : Nat) (Values : List SourceDelta) (FullDelta : BitVec 32) : Prop where
  least : least <= Values.length
  most : Values.length <= 2 * WidthFactor - 1
  full : FullDelta = total Values

structure InteriorValid (least : Nat) (ChildValid : DeltaTreeNode -> Prop)
    (Values : List SourceDelta) (Children : List DeltaTreeNode) (FullDelta : BitVec 32) :
    Prop where
  least : least <= Values.length
  most : Values.length <= 2 * WidthFactor - 1
  oneMore : Children.length = Values.length + 1
  children : ∀ child ∈ Children, ChildValid child
  full : FullDelta = total (weave (Children.map contents) Values)

/-- A node with at least some number of values, whose leaves are all at one
depth.  All nodes below it have at least `WidthFactor - 1` values. -/
def Valid : Nat -> Nat -> DeltaTreeNode -> Prop
  | least, 0, leaf Values FullDelta => LeafValid least Values FullDelta
  | least, height + 1, interior Values Children FullDelta =>
    InteriorValid least (Valid (WidthFactor - 1) height) Values Children FullDelta
  | _, _, _ => False

variable {least height : Nat}

variable {node : DeltaTreeNode}

theorem Valid.getFullDelta
    (valid : Valid least height node) : node.getFullDelta = total node.contents := by
  cases height with
  | zero =>
    cases node with
    | leaf Values FullDelta =>
      rw [contents]
      exact LeafValid.full valid
    | interior Values Children FullDelta => cases valid
  | succ height =>
    cases node with
    | leaf Values FullDelta => cases valid
    | interior Values Children FullDelta =>
      rw [contents]
      exact InteriorValid.full valid

variable {Values : List SourceDelta}

variable {Children : List DeltaTreeNode}

theorem total_weave (oneMore : Children.length = Values.length + 1) (valid : ∀ child ∈ Children,
    Valid least height child) :
    total (weave (Children.map contents) Values) =
      total Values + (Children.map getFullDelta).sum := by
  rw [total, sum_weave _ (by rw [length_map, oneMore]), map_map]
  refine congrArg (total Values + ·) (congrArg sum (map_congr_left ?_))
  exact fun child mem => (valid child mem).getFullDelta.symm

/-! ## Searching a node -/

/-- A search either finds a record or stops before the first larger value. -/
theorem existingRecord_cases (FileIndex : Nat) (Values : List SourceDelta) :
    (∃ left value right, Values = left ++ ⟨FileIndex, value⟩ :: right ∧
        left.length = insertionPoint FileIndex Values ∧ (∀ v ∈ left, v.key < FileIndex) ∧
        existingRecord FileIndex Values = some ⟨FileIndex, value⟩) ∨
      ∃ left right, Values = left ++ right ∧ left.length = insertionPoint FileIndex Values ∧
        (∀ v ∈ left, v.key < FileIndex) ∧ (∀ v ∈ right.head?, FileIndex < v.key) ∧
        existingRecord FileIndex Values = none := by
  rcases exists_split_findIdx (fun v : SourceDelta => decide (FileIndex <= v.key)) Values with
    ⟨left, right, split, length, passed, found⟩
  have smaller : ∀ v ∈ left, v.key < FileIndex := fun v mem =>
    Nat.lt_of_not_le (of_decide_eq_false (passed v mem))
  have place : Values[insertionPoint FileIndex Values]? = right.head? := by
    rw [insertionPoint, <- length, split, getElem?_append_right (le_refl _), Nat.sub_self,
      head?_eq_getElem?]
  cases right with
  | nil =>
    refine .inr ⟨left, [], split, length, smaller, nofun, ?_⟩
    rw [existingRecord, place]
    rfl
  | cons v right =>
    have bound : FileIndex <= v.key := of_decide_eq_true (found v rfl)
    by_cases same : v.key = FileIndex
    · refine .inl ⟨left, v.value, right, same ▸ split, length, smaller, ?_⟩
      rw [existingRecord, place, <- same]
      exact if_pos (beq_self_eq_true _)
    · refine .inr ⟨left, v :: right, split, length, smaller, ?_, ?_⟩
      · rintro w ⟨⟩
        omega
      · rw [existingRecord, place]
        exact if_neg (by rw [beq_iff_eq]; exact same)

/-- The position of a key between two parts of a node. -/
theorem insertionPoint_append {k : Nat} {left right : List SourceDelta}
    (smaller : ∀ v ∈ left, v.key < k) (larger : ∀ v ∈ right.head?, k < v.key) :
    insertionPoint k (left ++ right) = left.length :=
  findIdx_append_eq (fun v mem => decide_eq_false (Nat.not_le_of_lt (smaller v mem)))
    fun v mem => decide_eq_true (le_of_lt (larger v mem))

/-! ## Leaves -/

theorem isFull_iff (Values : List SourceDelta) : isFull Values = true ↔ Values.length = 15 := by
  rw [isFull, beq_iff_eq]
  rfl

variable {FullDelta : BitVec 32}

variable {least : Nat}

theorem insertIntoLeaf_cases (FileIndex : Nat) (Delta : BitVec 32)
    (valid : LeafValid least Values FullDelta) (sorted : Sorted Values) :
    (∃ node, insertIntoLeaf FileIndex Delta Values FullDelta = some node ∧
        Valid least 0 node ∧ node.contents = record FileIndex Delta Values) ∨
      insertIntoLeaf FileIndex Delta Values FullDelta = none ∧ Values.length = 15 ∧
        ∀ v ∈ Values, v.key ≠ FileIndex := by
  rcases existingRecord_cases FileIndex Values with
    ⟨left, value, right, split, length, smaller, found⟩ |
    ⟨left, right, split, length, smaller, larger, none⟩
  · have merged : mergeRecord FileIndex Delta ⟨FileIndex, value⟩ Values =
        record FileIndex Delta Values := by
      rw [mergeRecord, <- length, split, set_append_right _ _ (le_refl _), Nat.sub_self,
        set_cons_zero, record_append smaller, record_cons_self]
    refine .inl ⟨_, by rw [insertIntoLeaf, found], ?_, by rw [contents, merged]⟩
    have sameLen : (mergeRecord FileIndex Delta ⟨FileIndex, value⟩ Values).length =
        Values.length := length_set
    exact ⟨sameLen ▸ valid.least, sameLen ▸ valid.most, by
      rw [merged, total_record, valid.full]⟩
  · have after : ∀ v ∈ right, FileIndex < v.key :=
      Sorted.forall_lt (pairwise_append.mp (split ▸ sorted)).2.1 larger
    by_cases full : isFull Values
    · refine .inr ⟨by rw [insertIntoLeaf, none, if_pos full], (isFull_iff Values).mp full, ?_⟩
      intro v mem same
      rcases mem_append.mp (split ▸ mem) with inLeft | inRight
      · exact absurd (smaller v inLeft) (by omega)
      · exact absurd (after v inRight) (by omega)
    · have inserted : Values.insertIdx (insertionPoint FileIndex Values) ⟨FileIndex, Delta⟩ =
          record FileIndex Delta Values := by
        rw [<- length, split, insertIdx_append_length, record_append smaller, record_of_lt after]
      have room : Values.length < 15 :=
        lt_of_le_of_ne valid.most fun length => full ((isFull_iff Values).mpr length)
      refine .inl ⟨_, by rw [insertIntoLeaf, none, if_neg full], ?_, by rw [contents, inserted]⟩
      have within : insertionPoint FileIndex Values <= Values.length := by
        rw [<- length, split, length_append]
        exact Nat.le_add_right _ _
      have oneMore := length_insertIdx_of_le_length within ⟨FileIndex, Delta⟩
      refine ⟨?_, ?_, by rw [inserted, total_record, valid.full]⟩
      · rw [oneMore]
        exact Nat.le_succ_of_le valid.least
      · rw [oneMore]
        exact room

/-- What an insertion leaves: a valid node, or two valid halves and a value
between them. -/
def Insertion.Holds (least height : Nat) (expected : List SourceDelta) : Insertion -> Prop
  | done node => Valid least height node ∧ node.contents = expected
  | split InsertRes =>
    Valid (WidthFactor - 1) height InsertRes.LHS ∧ Valid (WidthFactor - 1) height InsertRes.RHS ∧
      InsertRes.LHS.contents ++ InsertRes.Split :: InsertRes.RHS.contents = expected

/-- The parts of a full node. -/
theorem exists_halves {α : Type} {l : List α} (full : l.length = 15) :
    ∃ left pivot right, l = left ++ pivot :: right ∧ left.length = 7 ∧ right.length = 7 ∧
      l[WidthFactor - 1]? = some pivot ∧ l.take (WidthFactor - 1) = left ∧
      l.drop WidthFactor = right := by
  have place : 7 < l.length := by omega
  have split : l = l.take 7 ++ l[7] :: l.drop 8 := by
    rw [getElem_cons_drop, take_append_drop]
  refine ⟨l.take 7, l[7], l.drop 8, split, ?_, ?_, getElem?_eq_getElem place, rfl, rfl⟩
  · rw [length_take]
    omega
  · rw [length_drop]
    omega

theorem leafInsertion_holds (FileIndex : Nat) (Delta : BitVec 32)
    (valid : LeafValid least Values FullDelta) (sorted : Sorted Values) :
    ∃ insertion, leafInsertion FileIndex Delta Values FullDelta = some insertion ∧
      insertion.Holds least 0 (record FileIndex Delta Values) := by
  rcases insertIntoLeaf_cases FileIndex Delta valid sorted with
    ⟨node, inserted, nodeValid, nodeContents⟩ | ⟨failed, length, absent⟩
  · exact ⟨.done node, by rw [leafInsertion, inserted], nodeValid, nodeContents⟩
  · rcases exists_halves length with
      ⟨left, pivot, right, split, leftLength, rightLength, pivotIs, leftIs, rightIs⟩
    rcases pairwise_append.mp (split ▸ sorted) with ⟨leftSorted, pivotSorted, across⟩
    rcases pairwise_cons.mp pivotSorted with ⟨pivotLeast, rightSorted⟩
    have leftValid : LeafValid (WidthFactor - 1) left (total left) :=
      ⟨le_of_eq leftLength.symm, by rw [leftLength]; decide, rfl⟩
    have rightValid : LeafValid (WidthFactor - 1) right (total right) :=
      ⟨le_of_eq rightLength.symm, by rw [rightLength]; decide, rfl⟩
    have halves : splitLeaf Values = some ⟨recomputedLeaf left, recomputedLeaf right, pivot⟩ := by
      rw [splitLeaf, pivotIs, leftIs, rightIs]
      rfl
    have pivotDifferent : pivot.key ≠ FileIndex :=
      absent pivot (split ▸ mem_append_right _ mem_cons_self)
    by_cases before : pivot.key > FileIndex
    · rcases insertIntoLeaf_cases FileIndex Delta leftValid leftSorted with
        ⟨node, inserted, nodeValid, nodeContents⟩ | ⟨_, never, _⟩
      · refine ⟨.split ⟨node, recomputedLeaf right, pivot⟩, ?_, nodeValid, rightValid, ?_⟩
        · rw [leafInsertion, failed, halves]
          simp only [Option.bind_eq_bind, Option.bind_some, recomputedLeaf, if_pos before, inserted]
          rfl
        · rw [nodeContents, recomputedLeaf, contents, split]
          refine (record_append_of_lt fun v mem => ?_).symm
          rcases mem_cons.mp mem with rfl | inRight
          · exact before
          · exact lt_trans before (pivotLeast v inRight)
      · omega
    · rcases insertIntoLeaf_cases FileIndex Delta rightValid rightSorted with
        ⟨node, inserted, nodeValid, nodeContents⟩ | ⟨_, never, _⟩
      · refine ⟨.split ⟨recomputedLeaf left, node, pivot⟩, ?_, leftValid, nodeValid, ?_⟩
        · rw [leafInsertion, failed, halves]
          simp only [Option.bind_eq_bind, Option.bind_some, recomputedLeaf, if_neg before, inserted]
          rfl
        · have smaller : pivot.key < FileIndex := by omega
          rw [nodeContents, recomputedLeaf, contents, split, append_cons,
            append_cons left pivot right]
          refine (record_append fun v mem => ?_).symm
          rcases mem_append.mp mem with inLeft | isPivot
          · exact lt_trans (across v inLeft pivot mem_cons_self) smaller
          · rw [mem_singleton.mp isPivot]
            exact smaller
      · omega

/-! ## Interior nodes -/

/-- The child at a position among the values. -/
theorem exists_child {α : Type} {Children : List α} {left right : List SourceDelta}
    (oneMore : Children.length = (left ++ right).length + 1) :
    ∃ before child after, Children = before ++ child :: after ∧ before.length = left.length ∧
      after.length = right.length ∧ Children[left.length]? = some child := by
  rw [length_append] at oneMore
  have place : left.length < Children.length := by omega
  refine ⟨Children.take left.length, Children[left.length], Children.drop (left.length + 1), ?_, ?_,
    ?_, getElem?_eq_getElem place⟩
  · rw [getElem_cons_drop, take_append_drop]
  · rw [length_take]
    omega
  · rw [length_drop]
    omega

section Focus

variable {left right : List SourceDelta} {first last : List DeltaTreeNode} {child : DeltaTreeNode}

theorem contents_around (sameLen : first.length = left.length) (child : DeltaTreeNode)
    (FullDelta : BitVec 32) :
    (interior (left ++ right) (first ++ child :: last) FullDelta).contents =
      before (first.map contents) left ++ child.contents ++ after right (last.map contents) := by
  rw [contents, map_append, map_cons, weave_append (by rw [length_map, sameLen])]

theorem weave_around_split (sameLen : first.length = left.length) (InsertRes : InsertResult) :
    weave ((first ++ InsertRes.LHS :: InsertRes.RHS :: last).map contents)
        (left ++ InsertRes.Split :: right) =
      before (first.map contents) left ++
        (InsertRes.LHS.contents ++ InsertRes.Split :: InsertRes.RHS.contents) ++
          after right (last.map contents) := by
  rw [map_append, map_cons, map_cons, weave_append (by rw [length_map, sameLen]), after_cons, weave]
  simp only [append_assoc, cons_append]

/-- What comes before a child is below what all values before it are below. -/
theorem before_lt {k : Nat} {expected : List SourceDelta}
    (sorted : Sorted (before (first.map contents) left ++ expected))
    (smaller : ∀ v ∈ left, v.key < k) : ∀ v ∈ before (first.map contents) left, v.key < k :=
  forall_before (fun less bound => lt_trans less bound) (pairwise_append.mp sorted).1
    smaller

theorem lt_after {k : Nat} {expected : List SourceDelta}
    (sorted : Sorted (expected ++ after right (last.map contents)))
    (larger : ∀ v ∈ right.head?, k < v.key) : ∀ v ∈ after right (last.map contents), k < v.key :=
  forall_after (fun less bound => lt_trans bound less) (pairwise_append.mp sorted).2.1
    larger

end Focus

theorem interior_valid (atLeast : least <= Values.length) (atMost : Values.length <= 15) (oneMore :
    Children.length = Values.length + 1) (valid : ∀ child ∈ Children, Valid (WidthFactor - 1) height
    child) (full : FullDelta = total Values + (Children.map getFullDelta).sum) :
    Valid least (height + 1) (interior Values Children FullDelta) :=
  ⟨atLeast, atMost, oneMore, valid, by rw [total_weave oneMore valid, full]⟩

section Split

variable {height : Nat} {left right : List SourceDelta} {first last : List DeltaTreeNode}
  {InsertRes : InsertResult}

theorem set_append_length (child replacement : DeltaTreeNode)
    (sameLen : first.length = left.length) :
    (first ++ child :: last).set left.length replacement = first ++ replacement :: last := by
  rw [<- sameLen, set_append_right _ _ (le_refl _), Nat.sub_self, set_cons_zero]

theorem insertIdx_children (LHS RHS : DeltaTreeNode) (sameLen : first.length = left.length) :
    (first ++ LHS :: last).insertIdx (left.length + 1) RHS = first ++ LHS :: RHS :: last := by
  have place : left.length + 1 = (first ++ [LHS]).length := by
    rw [length_append, sameLen]
    rfl
  rw [append_cons, place, insertIdx_append_length, append_assoc]
  rfl

/-- The sum over the children around a child that was split. -/
theorem sum_getFullDelta_split (left right : List SourceDelta) (first last : List DeltaTreeNode)
    (InsertRes : InsertResult) :
    total (left ++ InsertRes.Split :: right) +
        ((first ++ InsertRes.LHS :: InsertRes.RHS :: last).map getFullDelta).sum =
      total (left ++ right) + ((first ++ InsertRes.LHS :: last).map getFullDelta).sum +
        (InsertRes.Split.value + InsertRes.RHS.getFullDelta) := by
  simp only [total_append, total_cons, map_append, map_cons, sum_append, sum_cons]
  ring

theorem insertIntoHalf_holds (sameFirst : first.length = left.length) (sameLast : last.length =
    right.length) (length : left.length + right.length = 7) (valid : ∀ child ∈ first ++
    InsertRes.LHS :: InsertRes.RHS :: last, Valid (WidthFactor - 1) height child) (smaller : ∀ v ∈
    left, v.key < InsertRes.Split.key) (larger : ∀ v ∈ right, InsertRes.Split.key < v.key) :
    Valid (WidthFactor - 1) (height + 1)
        (insertIntoHalf (left ++ right) (first ++ InsertRes.LHS :: last) InsertRes.Split
          InsertRes.RHS) ∧
      (insertIntoHalf (left ++ right) (first ++ InsertRes.LHS :: last) InsertRes.Split
          InsertRes.RHS).contents =
        weave ((first ++ InsertRes.LHS :: InsertRes.RHS :: last).map contents)
          (left ++ InsertRes.Split :: right) := by
  have point : insertionPoint InsertRes.Split.key (left ++ right) = left.length :=
    insertionPoint_append smaller fun v mem => larger v (mem_of_mem_head? mem)
  have built : insertIntoHalf (left ++ right) (first ++ InsertRes.LHS :: last) InsertRes.Split
        InsertRes.RHS =
      interior (left ++ InsertRes.Split :: right)
        (first ++ InsertRes.LHS :: InsertRes.RHS :: last)
        (total (left ++ right) + ((first ++ InsertRes.LHS :: last).map getFullDelta).sum +
          (InsertRes.Split.value + InsertRes.RHS.getFullDelta)) := by
    simp only [insertIntoHalf, point, insertIdx_append_length, insertIdx_children _ _ sameFirst]
  have length' : (left ++ InsertRes.Split :: right).length = 8 := by
    rw [length_append, length_cons]
    omega
  rw [built, contents]
  refine ⟨interior_valid ?_ ?_ ?_ valid (sum_getFullDelta_split left right first last InsertRes).symm, rfl⟩
  · rw [length']
    decide
  · rw [length']
    decide
  · rw [length', length_append, length_cons, length_cons]
    omega

variable {pivot : SourceDelta}

theorem splitInterior_eq {leftValues rightValues : List SourceDelta}
    {leftChildren rightChildren : List DeltaTreeNode} (values : leftValues.length = WidthFactor - 1)
    (children : leftChildren.length = WidthFactor) :
    splitInterior (leftValues ++ pivot :: rightValues) (leftChildren ++ rightChildren) =
      some ⟨leftValues, leftChildren, pivot, rightValues, rightChildren⟩ := by
  have place : (leftValues ++ pivot :: rightValues)[WidthFactor - 1]? = some pivot := by
    rw [<- values, getElem?_append_right (le_refl _), Nat.sub_self]
    rfl
  have dropped : (leftValues ++ pivot :: rightValues).drop WidthFactor = rightValues := by
    rw [append_cons]
    exact drop_left' (by rw [length_append, values]; rfl)
  rw [splitInterior, place, take_left' values, dropped, take_left' children, drop_left' children]
  rfl

/-- The half of a split node that is left as it is. -/
theorem recomputedInterior_valid (values : Values.length = 7) (children : Children.length = 8)
    (valid : ∀ child ∈ Children, Valid (WidthFactor - 1) height child) :
    Valid (WidthFactor - 1) (height + 1) (recomputedInterior Values Children) :=
  interior_valid (le_of_eq values.symm) (by rw [values]; decide) (by rw [values, children])
    valid rfl

variable {child : DeltaTreeNode}

theorem childSplit_left {inner rightHalf : List SourceDelta} (sameFirst : first.length =
    left.length) (sameLast : last.length = (inner ++ pivot :: rightHalf).length) (leftLength : (left
    ++ inner).length = 7) (rightLength : rightHalf.length = 7) (valid : ∀ child ∈ first ++
    InsertRes.LHS :: InsertRes.RHS :: last, Valid (WidthFactor - 1) height child) (smaller : ∀ v ∈
    left, v.key < InsertRes.Split.key) (larger : ∀ v ∈ inner ++ pivot :: rightHalf,
    InsertRes.Split.key < v.key) :
    ∃ insertion,
      childSplit (left ++ (inner ++ pivot :: rightHalf)) (first ++ child :: last) FullDelta
        left.length InsertRes = some insertion ∧
      insertion.Holds least (height + 1)
        (weave ((first ++ InsertRes.LHS :: InsertRes.RHS :: last).map contents)
          (left ++ InsertRes.Split :: (inner ++ pivot :: rightHalf))) := by
  have before : InsertRes.Split.key < pivot.key := larger pivot (mem_append_right _ mem_cons_self)
  rw [length_append, length_cons] at sameLast
  rw [length_append] at leftLength
  -- The children of the left half after the child that was split.
  rcases (⟨last.take inner.length, last.drop inner.length, (take_append_drop ..).symm, by
    rw [length_take]; omega, by rw [length_drop]; omega⟩ :
    ∃ lastLeft lastRight, last = lastLeft ++ lastRight ∧ lastLeft.length = inner.length ∧
      lastRight.length = 8) with ⟨lastLeft, lastRight, rfl, sameInner, rightChildren⟩
  have leftValid : ∀ child ∈ first ++ InsertRes.LHS :: InsertRes.RHS :: lastLeft,
      Valid (WidthFactor - 1) height child := fun child mem => valid child (by
    rw [append_cons, append_cons, <- append_assoc] at *
    exact mem_append_left _ mem)
  have rightValid : ∀ child ∈ lastRight, Valid (WidthFactor - 1) height child :=
    fun child mem => valid child (by simp [mem])
  rcases insertIntoHalf_holds sameFirst sameInner (by omega) leftValid smaller
    (fun v mem => larger v (mem_append_left _ mem)) with ⟨halfValid, halfContents⟩
  have full : isFull (left ++ (inner ++ pivot :: rightHalf)) = true := by
    rw [isFull_iff, length_append, length_append, length_cons]
    omega
  have halves : splitInterior (left ++ (inner ++ pivot :: rightHalf))
      (first ++ InsertRes.LHS :: (lastLeft ++ lastRight)) =
        some ⟨left ++ inner, first ++ InsertRes.LHS :: lastLeft, pivot, rightHalf, lastRight⟩ := by
    rw [<- append_assoc, <- cons_append, <- append_assoc]
    refine splitInterior_eq (by rw [length_append]; exact leftLength) ?_
    rw [length_append, length_cons, WidthFactor]
    omega
  refine ⟨.split ⟨insertIntoHalf (left ++ inner) (first ++ InsertRes.LHS :: lastLeft)
    InsertRes.Split InsertRes.RHS, recomputedInterior rightHalf lastRight, pivot⟩, ?_, halfValid,
    recomputedInterior_valid rightLength rightChildren rightValid, ?_⟩
  · rw [childSplit, set_append_length child _ sameFirst, if_pos full, halves]
    exact if_pos before
  · have oneMore : ((first ++ InsertRes.LHS :: InsertRes.RHS :: lastLeft).map contents).length =
        (left ++ InsertRes.Split :: inner).length + 1 := by
      rw [length_map, length_append, length_append, length_cons, length_cons, length_cons]
      omega
    have nonempty : lastRight.map contents ≠ [] := by
      intro nil
      have length := congrArg List.length nil
      rw [length_map, rightChildren] at length
      cases length
    have whole : weave _ (_ ++ pivot :: rightHalf) = _ := weave_split oneMore nonempty pivot
    change (insertIntoHalf _ _ _ _).contents ++ pivot :: contents (interior _ _ _) = _
    rw [halfContents, contents, <- whole]
    simp only [map_append, map_cons, append_assoc, cons_append]

theorem childSplit_right {leftHalf inner : List SourceDelta} (sameFirst : first.length = (leftHalf
    ++ pivot :: inner).length) (sameLast : last.length = right.length) (leftLength : leftHalf.length
    = 7) (rightLength : (inner ++ right).length = 7) (valid : ∀ child ∈ first ++ InsertRes.LHS ::
    InsertRes.RHS :: last, Valid (WidthFactor - 1) height child) (smaller : ∀ v ∈ leftHalf ++ pivot
    :: inner, v.key < InsertRes.Split.key) (larger : ∀ v ∈ right, InsertRes.Split.key < v.key) :
    ∃ insertion,
      childSplit (leftHalf ++ pivot :: inner ++ right) (first ++ child :: last) FullDelta
        (leftHalf ++ pivot :: inner).length InsertRes = some insertion ∧
      insertion.Holds least (height + 1)
        (weave ((first ++ InsertRes.LHS :: InsertRes.RHS :: last).map contents)
          (leftHalf ++ pivot :: inner ++ InsertRes.Split :: right)) := by
  have notBefore : ¬ InsertRes.Split.key < pivot.key :=
    Nat.not_lt.mpr (smaller pivot (mem_append_right _ mem_cons_self)).le
  have sameFirst' := sameFirst
  rw [length_append, length_cons] at sameFirst'
  rw [length_append] at rightLength
  -- The children of the right half before the child that was split.
  rcases (⟨first.take 8, first.drop 8, (take_append_drop ..).symm, by
    rw [length_take]; omega, by rw [length_drop]; omega⟩ :
    ∃ firstLeft firstRight, first = firstLeft ++ firstRight ∧ firstLeft.length = 8 ∧
      firstRight.length = inner.length) with ⟨firstLeft, firstRight, rfl, leftChildren, sameInner⟩
  have leftValid : ∀ child ∈ firstLeft, Valid (WidthFactor - 1) height child :=
    fun child mem => valid child (by simp [mem])
  have rightValid : ∀ child ∈ firstRight ++ InsertRes.LHS :: InsertRes.RHS :: last,
      Valid (WidthFactor - 1) height child := fun child mem => valid child (by
    rw [append_assoc]
    exact mem_append_right _ mem)
  rcases insertIntoHalf_holds sameInner sameLast (by omega) rightValid
    (fun v mem => smaller v (mem_append_right _ (mem_cons_of_mem _ mem))) larger with
    ⟨halfValid, halfContents⟩
  have full : isFull (leftHalf ++ pivot :: inner ++ right) = true := by
    rw [isFull_iff, length_append, length_append, length_cons]
    omega
  have halves : splitInterior (leftHalf ++ pivot :: inner ++ right)
      (firstLeft ++ firstRight ++ InsertRes.LHS :: last) =
        some ⟨leftHalf, firstLeft, pivot, inner ++ right, firstRight ++ InsertRes.LHS :: last⟩ := by
    rw [append_assoc, append_assoc, cons_append]
    exact splitInterior_eq leftLength leftChildren
  refine ⟨.split ⟨recomputedInterior leftHalf firstLeft, insertIntoHalf (inner ++ right)
    (firstRight ++ InsertRes.LHS :: last) InsertRes.Split InsertRes.RHS, pivot⟩, ?_,
    recomputedInterior_valid leftLength leftChildren leftValid, halfValid, ?_⟩
  · rw [childSplit, set_append_length child _ sameFirst, if_pos full, halves]
    exact if_neg notBefore
  · have oneMore : (firstLeft.map contents).length = leftHalf.length + 1 := by
      rw [length_map, leftChildren, leftLength]
    have nonempty : (firstRight ++ InsertRes.LHS :: InsertRes.RHS :: last).map contents ≠ [] := by
      intro nil
      have length := congrArg List.length nil
      rw [length_map, length_append, length_cons] at length
      cases length
    have whole : weave _ (_ ++ pivot :: (inner ++ InsertRes.Split :: right)) = _ :=
      weave_split oneMore nonempty pivot
    change contents (interior _ _ _) ++ pivot :: (insertIntoHalf _ _ _ _).contents = _
    rw [halfContents, contents, <- whole]
    simp only [map_append, map_cons, append_assoc, cons_append]

/-- After a child was split, the median and the second node go into the node,
or into one of its halves. -/
theorem childSplit_holds {expected : List SourceDelta} (sameFirst : first.length = left.length)
    (sameLast : last.length = right.length) (atLeast : least <= (left ++ right).length) (atMost :
    (left ++ right).length <= 15) (valid :
    ∀ child ∈ first ++ InsertRes.LHS :: InsertRes.RHS :: last,
    Valid (WidthFactor - 1) height child) (smaller : ∀ v ∈ left, v.key < InsertRes.Split.key)
    (larger : ∀ v ∈ right, InsertRes.Split.key < v.key) (expectedIs : weave ((first ++ InsertRes.LHS
    :: InsertRes.RHS :: last).map contents) (left ++ InsertRes.Split :: right) = expected) (full :
    FullDelta = total expected) :
    ∃ insertion,
      childSplit (left ++ right) (first ++ child :: last) FullDelta left.length InsertRes =
        some insertion ∧ insertion.Holds least (height + 1) expected := by
  by_cases isFullNow : isFull (left ++ right)
  · rcases exists_halves ((isFull_iff _).mp isFullNow) with
      ⟨leftHalf, pivot, rightHalf, split, leftLength, rightLength, _⟩
    subst expectedIs
    -- The pivot is after the child that was split, or before it.
    rcases append_eq_append_iff.mp split with ⟨inner, rfl, rfl⟩ | ⟨inner, rfl, pivotSplit⟩
    · exact childSplit_left sameFirst sameLast leftLength rightLength valid smaller larger
    · cases inner with
      | nil =>
        rw [append_nil] at smaller sameFirst ⊢
        rw [nil_append] at pivotSplit
        subst pivotSplit
        have noInner : (leftHalf ++ []).length = 7 := by rw [append_nil, leftLength]
        exact childSplit_left sameFirst sameLast noInner rightLength valid smaller larger
      | cons first inner =>
        rcases cons.inj pivotSplit with ⟨rfl, rfl⟩
        exact childSplit_right sameFirst sameLast leftLength rightLength valid smaller larger
  · rw [childSplit, set_append_length child _ sameFirst, if_neg isFullNow]
    have room : (left ++ right).length < 15 :=
      lt_of_le_of_ne atMost fun length => isFullNow ((isFull_iff _).mpr length)
    rw [length_append] at atLeast room
    refine ⟨_, rfl, ?_, ?_⟩
    · rw [insertIdx_append_length, insertIdx_children _ _ sameFirst]
      refine ⟨?_, ?_, ?_, valid, by rw [expectedIs, full]⟩
      · rw [length_append, length_cons]
        omega
      · rw [length_append, length_cons]
        exact le_trans (by omega) (le_refl 15)
      · rw [length_append, length_append, length_cons, length_cons, length_cons]
        omega
    · rw [insertIdx_append_length, insertIdx_children _ _ sameFirst, contents, expectedIs]

end Split

/-! ## Insertions -/

theorem DoInsertion_descend {FileIndex : Nat} (Delta : BitVec 32) {child : DeltaTreeNode} (FullDelta
    : BitVec 32) (none : existingRecord FileIndex Values = none) (childIs : Children[insertionPoint
    FileIndex Values]? = some child) :
    DoInsertion FileIndex Delta (interior Values Children FullDelta) =
      match DoInsertion FileIndex Delta child with
      | .none => .none
      | some (.done child) =>
        some (.done (interior Values (Children.set (insertionPoint FileIndex Values) child)
          (FullDelta + Delta)))
      | some (.split InsertRes) =>
        childSplit Values Children (FullDelta + Delta) (insertionPoint FileIndex Values)
          InsertRes := by
  rw [DoInsertion, none]
  simp only
  split
  · rename_i missing
    cases childIs.symm.trans missing
  · rename_i found
    obtain rfl := Option.some.inj (childIs.symm.trans found)
    rfl

theorem forall_mem_replace {α : Type} {p : α -> Prop} {first last middle : List α} {child : α}
    (all : ∀ x ∈ first ++ child :: last, p x) (new : ∀ x ∈ middle, p x) :
    ∀ x ∈ first ++ (middle ++ last), p x := by
  intro x mem
  rcases mem_append.mp mem with inFirst | rest
  · exact all x (mem_append_left _ inFirst)
  · rcases mem_append.mp rest with inMiddle | inLast
    · exact new x inMiddle
    · exact all x (mem_append_right _ (mem_cons_of_mem child inLast))

section Interior

variable {FileIndex : Nat} {Delta FullDelta : BitVec 32} {least height : Nat}
  {left right : List SourceDelta} {first last : List DeltaTreeNode} {child : DeltaTreeNode}

/-- A record found in an interior node is merged there. -/
theorem merge_holds {value : BitVec 32} (sameFirst : first.length = left.length) (sameLast :
    last.length = right.length + 1) (valid : Valid least (height + 1) (interior (left ++ ⟨FileIndex,
    value⟩ :: right) (first ++ child :: last) FullDelta)) (sorted : Sorted (interior (left ++
    ⟨FileIndex, value⟩ :: right) (first ++ child :: last) FullDelta).contents) :
    (Insertion.done (interior (left ++ ⟨FileIndex, value + Delta⟩ :: right)
      (first ++ child :: last) (FullDelta + Delta))).Holds least (height + 1)
        (record FileIndex Delta
          (interior (left ++ ⟨FileIndex, value⟩ :: right) (first ++ child :: last)
            FullDelta).contents) := by
  have recorded : (interior (left ++ ⟨FileIndex, value + Delta⟩ :: right)
      (first ++ child :: last) (FullDelta + Delta)).contents =
        record FileIndex Delta (interior (left ++ ⟨FileIndex, value⟩ :: right)
          (first ++ child :: last) FullDelta).contents := by
    cases last with
    | nil => cases sameLast
    | cons next last =>
      rw [contents_around sameFirst, map_cons, after_cons] at sorted
      rw [contents_around sameFirst, contents_around sameFirst, map_cons, after_cons,
        after_cons, record_append, record_cons_self]
      exact fun v mem => (pairwise_append.mp sorted).2.2 v mem _ mem_cons_self
  have sameLen : (left ++ (⟨FileIndex, value + Delta⟩ : SourceDelta) :: right).length =
      (left ++ (⟨FileIndex, value⟩ : SourceDelta) :: right).length := by
    simp only [length_append, length_cons]
  rcases valid with ⟨atLeast, atMost, oneMore, childrenValid, full⟩
  refine ⟨⟨sameLen ▸ atLeast, sameLen ▸ atMost, sameLen ▸ oneMore, childrenValid, ?_⟩, recorded⟩
  rw [contents] at recorded
  rw [recorded, total_record, contents, full]

/-- A child that took the insertion is put back. -/
theorem childDone_holds (sameFirst : first.length = left.length) (valid : Valid least (height + 1)
    (interior (left ++ right) (first ++ child :: last) FullDelta)) (nodeValid : Valid (WidthFactor -
    1) height node) (recorded : before (first.map contents) left ++ node.contents ++ after right
    (last.map contents) = record FileIndex Delta (interior (left ++ right) (first ++ child :: last)
    FullDelta).contents) :
    (Insertion.done (interior (left ++ right) ((first ++ child :: last).set left.length node)
      (FullDelta + Delta))).Holds least (height + 1)
        (record FileIndex Delta
          (interior (left ++ right) (first ++ child :: last) FullDelta).contents) := by
  rcases valid with ⟨atLeast, atMost, oneMore, childrenValid, full⟩
  rw [set_append_length child node sameFirst]
  rw [<- contents_around sameFirst node (FullDelta + Delta)] at recorded
  have sameLen : (first ++ node :: last).length = (first ++ child :: last).length := by
    simp only [length_append, length_cons]
  refine ⟨⟨atLeast, atMost, sameLen.trans oneMore,
    forall_mem_replace childrenValid (forall_mem_singleton.mpr nodeValid), ?_⟩, recorded⟩
  rw [contents] at recorded
  rw [recorded, total_record, contents, full]

end Interior

theorem DoInsertion_holds (FileIndex : Nat) (Delta : BitVec 32)
    (valid : Valid least height node) (sorted : Sorted node.contents) :
    ∃ insertion, DoInsertion FileIndex Delta node = some insertion ∧
      insertion.Holds least height (record FileIndex Delta node.contents) := by
  induction height generalizing least node with
  | zero =>
    cases node with
    | interior Values Children FullDelta => cases valid
    | leaf Values FullDelta =>
      rw [contents] at sorted ⊢
      rw [DoInsertion]
      exact leafInsertion_holds FileIndex Delta valid sorted
  | succ height ih =>
    cases node with
    | leaf Values FullDelta => cases valid
    | interior Values Children FullDelta =>
      have nodeValid := valid
      rcases valid with ⟨atLeast, atMost, oneMore, childrenValid, full⟩
      rcases existingRecord_cases FileIndex Values with
        ⟨left, value, right, rfl, length, smaller, found⟩ |
        ⟨left, right, rfl, length, smaller, larger, none⟩
      · rcases exists_child oneMore with ⟨first, child, last, rfl, sameFirst, sameLast, _⟩
        refine ⟨_, ?_, merge_holds sameFirst sameLast nodeValid sorted⟩
        rw [DoInsertion, found]
        simp only [mergeRecord]
        rw [<- length, set_append_right _ _ (le_refl _), Nat.sub_self, set_cons_zero]
      · rcases exists_child oneMore with ⟨first, child, last, rfl, sameFirst, sameLast, childIs⟩
        have childValid := childrenValid child (mem_append_right _ mem_cons_self)
        have around : contents (interior (left ++ right) (first ++ child :: last) _) = _ :=
          contents_around sameFirst child FullDelta
        rw [around] at sorted
        rcases pairwise_append.mp sorted with ⟨frontSorted, _, _⟩
        rcases pairwise_append.mp frontSorted with ⟨_, childSorted, _⟩
        have recorded : before (first.map contents) left ++
            record FileIndex Delta child.contents ++ after right (last.map contents) =
              record FileIndex Delta (interior (left ++ right) (first ++ child :: last)
                FullDelta).contents := by
          rw [around, record_append_of_lt (lt_after sorted larger),
            record_append (before_lt frontSorted smaller)]
        rcases ih childValid childSorted with ⟨insertion, inserted, holds⟩
        rw [DoInsertion_descend Delta FullDelta none (length ▸ childIs), inserted, <- length]
        cases insertion with
        | done node =>
          rcases holds with ⟨newValid, newContents⟩
          exact ⟨_, rfl, childDone_holds sameFirst nodeValid newValid (newContents ▸ recorded)⟩
        | split InsertRes =>
          rcases holds with ⟨lhsValid, rhsValid, joined⟩
          have recordedSorted := sorted.record FileIndex Delta
          rw [<- around, <- recorded, <- joined] at recordedSorted
          rcases pairwise_append.mp recordedSorted with ⟨upToSplit, _, acrossAfter⟩
          rcases pairwise_append.mp upToSplit with ⟨_, _, acrossBefore⟩
          have mem : InsertRes.Split ∈
              InsertRes.LHS.contents ++ InsertRes.Split :: InsertRes.RHS.contents :=
            mem_append_right _ mem_cons_self
          refine childSplit_holds sameFirst sameLast atLeast atMost ?_ ?_ ?_ ?_ ?_
          · exact forall_mem_replace childrenValid
              (forall_mem_cons.mpr ⟨lhsValid, forall_mem_singleton.mpr rhsValid⟩)
          · exact fun v inLeft => acrossBefore v
              (mem_before (by rw [length_map, sameFirst]) inLeft) _ mem
          · exact fun v inRight => acrossAfter _ (mem_append_right _ mem) v
              (mem_after (by rw [length_map, sameLast]) inRight)
          · rw [weave_around_split sameFirst, joined, recorded]
          · rw [total_record, full, contents]

end DeltaTreeNode

end DeltaTree
end LlvmProject
