import LlvmProject.Rewrite.DeltaTreeInvariant

namespace LlvmProject

open List hiding after
namespace DeltaTree

/-!
# Runs of the tree of source deltas

After any sequence of recorded changes the tree is valid, and the accumulated
delta at an index is the sum of the deltas recorded before it.
-/

open Tally Weave

namespace DeltaTreeNode

/-! ## Queries -/

theorem skippedValues_eq {FileIndex : Nat} {Values left right : List SourceDelta}
    (split : Values = left ++ right) (length : left.length = insertionPoint FileIndex Values) :
    skippedValues FileIndex Values = left := by
  rw [skippedValues, <- length, split, take_left]

/-- What is before a child is summed up from the values and the full deltas of
the children. -/
theorem total_before {least height : Nat} {left : List SourceDelta} {first : List DeltaTreeNode}
    (sameLen : first.length = left.length) (valid : ∀ child ∈ first, Valid least height child) :
    total (before (first.map contents) left) = total left + (first.map getFullDelta).sum := by
  rw [total, sum_before _ (by rw [length_map, sameLen]), map_map]
  refine congrArg (total left + ·) (congrArg sum (map_congr_left ?_))
  exact fun child mem => (valid child mem).getFullDelta.symm

theorem getDeltaAt_leaf (FileIndex : Nat) (Result : BitVec 32) {Values : List SourceDelta}
    (FullDelta : BitVec 32) (sorted : Sorted Values) :
    getDeltaAt FileIndex Result (leaf Values FullDelta) =
      some (Result + below FileIndex Values) := by
  rcases existingRecord_cases FileIndex Values with
    ⟨left, value, right, split, length, smaller, _⟩ | ⟨left, right, split, length, smaller, larger, _⟩
  · have notBefore : ∀ v ∈ (⟨FileIndex, value⟩ : SourceDelta) :: right, FileIndex <= v.key := by
      rcases pairwise_append.mp (split ▸ sorted) with ⟨_, rest, _⟩
      intro v mem
      rcases mem_cons.mp mem with rfl | later
      · exact le_refl _
      · exact (pairwise_cons.mp rest).1 v later |>.le
    rw [getDeltaAt, skippedValues_eq split length, split, below_append, below_eq_total smaller,
      below_eq_zero notBefore, add_zero]
  · have notBefore : ∀ v ∈ right, FileIndex <= v.key := fun v mem =>
      (Sorted.forall_lt (pairwise_append.mp (split ▸ sorted)).2.1 larger v mem).le
    rw [getDeltaAt, skippedValues_eq split length, split, below_append, below_eq_total smaller,
      below_eq_zero notBefore, add_zero]

/-- One level of a query: the values and the children before the position, and
the child there. -/
theorem getDeltaAt_descend {FileIndex : Nat} (Result : BitVec 32) {left right : List SourceDelta}
    {first last : List DeltaTreeNode} {child : DeltaTreeNode} (FullDelta : BitVec 32)
    (length : left.length = insertionPoint FileIndex (left ++ right))
    (sameFirst : first.length = left.length) :
    getDeltaAt FileIndex Result (interior (left ++ right) (first ++ child :: last) FullDelta) =
      match existingRecord FileIndex (left ++ right) with
      | some _ => some (Result + (total left + (first.map getFullDelta).sum) + child.getFullDelta)
      | none => getDeltaAt FileIndex (Result + (total left + (first.map getFullDelta).sum)) child := by
  have place : (first ++ child :: last)[insertionPoint FileIndex (left ++ right)]? = some child := by
    rw [<- length, <- sameFirst, getElem?_append_right (le_refl _), Nat.sub_self]
    rfl
  have skipped : (first ++ child :: last).take (insertionPoint FileIndex (left ++ right)) = first := by
    rw [<- length, <- sameFirst, take_left]
  rw [getDeltaAt, skippedValues_eq rfl length, skipped]
  split
  · rename_i missing
    cases place.symm.trans missing
  · rename_i found
    obtain rfl := Option.some.inj (place.symm.trans found)
    have regroup := add_assoc Result (total left) (first.map getFullDelta).sum
    exact regroup ▸ rfl

/-- A query adds up the contents before the index, by induction on the
height. -/
theorem getDeltaAt_eq (FileIndex : Nat) (Result : BitVec 32) {least height : Nat}
    {node : DeltaTreeNode} (valid : Valid least height node) (sorted : Sorted node.contents) :
    getDeltaAt FileIndex Result node = some (Result + below FileIndex node.contents) := by
  induction height generalizing least node Result with
  | zero =>
    cases node with
    | interior Values Children FullDelta => cases valid
    | leaf Values FullDelta =>
      rw [contents] at sorted ⊢
      exact getDeltaAt_leaf FileIndex Result FullDelta sorted
  | succ height ih =>
    cases node with
    | leaf Values FullDelta => cases valid
    | interior Values Children FullDelta =>
      rcases valid with ⟨_, _, oneMore, childrenValid, _⟩
      rcases existingRecord_cases FileIndex Values with
        ⟨left, value, right, rfl, length, smaller, found⟩ |
        ⟨left, right, rfl, length, smaller, larger, none⟩
      · rcases exists_child oneMore with ⟨first, child, last, rfl, sameFirst, sameLast, _⟩
        have childValid := childrenValid child (mem_append_right _ mem_cons_self)
        have firstSum := total_before sameFirst fun child mem =>
          childrenValid child (mem_append_left _ mem)
        rw [contents_around sameFirst] at sorted ⊢
        rw [getDeltaAt_descend Result FullDelta length sameFirst, found]
        cases last with
        | nil => cases sameLast
        | cons next last =>
          rw [map_cons, after_cons] at sorted ⊢
          rcases pairwise_append.mp sorted with ⟨_, afterSorted, across⟩
          have inFront : ∀ v ∈ before (first.map contents) left ++ child.contents,
              v.key < FileIndex := fun v mem => across v mem _ mem_cons_self
          have behind : ∀ v ∈ (⟨FileIndex, value⟩ : SourceDelta) ::
              weave (next.contents :: last.map contents) right, FileIndex <= v.key := by
            intro v mem
            rcases mem_cons.mp mem with rfl | later
            · exact le_refl _
            · exact ((pairwise_cons.mp afterSorted).1 v later).le
          rw [below_append, below_eq_total inFront, below_eq_zero behind, add_zero,
            total_append, firstSum, childValid.getFullDelta, add_assoc]
      · rcases exists_child oneMore with ⟨first, child, last, rfl, sameFirst, sameLast, _⟩
        have childValid := childrenValid child (mem_append_right _ mem_cons_self)
        have firstSum := total_before sameFirst fun child mem =>
          childrenValid child (mem_append_left _ mem)
        rw [contents_around sameFirst] at sorted ⊢
        rcases pairwise_append.mp sorted with ⟨frontSorted, _, _⟩
        rcases pairwise_append.mp frontSorted with ⟨_, childSorted, _⟩
        have behind : ∀ v ∈ after right (last.map contents), FileIndex <= v.key :=
          fun v mem => (lt_after sorted larger v mem).le
        rw [getDeltaAt_descend Result FullDelta length sameFirst, none]
        simp only
        rw [ih _ childValid childSorted, below_append, below_append,
          below_eq_total (before_lt frontSorted smaller), below_eq_zero behind, add_zero,
          firstSum, add_assoc]

end DeltaTreeNode

open DeltaTreeNode

/-! ## Recorded changes -/

/-- A tree that records some contents. -/
structure Holds (expected : List SourceDelta) (Root : DeltaTreeNode) : Prop where
  valid : ∃ height, Valid 0 height Root
  sorted : Sorted Root.contents
  records : Root.contents = expected

theorem empty_holds : Holds [] empty := by
  have same : empty.contents = [] := by rw [empty, contents]
  exact ⟨⟨0, Nat.le_refl 0, Nat.zero_le _, rfl⟩, same ▸ Pairwise.nil, same⟩

theorem newRoot_valid {height : Nat} {InsertRes : InsertResult} (lhsValid : Valid (WidthFactor - 1)
    height InsertRes.LHS) (rhsValid : Valid (WidthFactor - 1) height InsertRes.RHS) :
    Valid 0 (height + 1) (interior [InsertRes.Split] [InsertRes.LHS, InsertRes.RHS]
      (InsertRes.LHS.getFullDelta + InsertRes.RHS.getFullDelta + InsertRes.Split.value)) := by
  have childrenValid : ∀ child ∈ [InsertRes.LHS, InsertRes.RHS],
      Valid (WidthFactor - 1) height child :=
    forall_mem_cons.mpr ⟨lhsValid, forall_mem_singleton.mpr rhsValid⟩
  refine interior_valid (Nat.zero_le _) (Nat.le_add_left 1 14) rfl childrenValid ?_
  rw [total, map_singleton, sum_singleton, map_cons,
    map_singleton, sum_cons, sum_singleton, add_comm]

theorem AddDelta_holds (FileIndex : Nat) (Delta : BitVec 32) {expected : List SourceDelta}
    {Root : DeltaTreeNode} (holds : Holds expected Root) :
    ∃ Root', AddDelta FileIndex Delta Root = some Root' ∧
      Holds (record FileIndex Delta expected) Root' := by
  rcases holds with ⟨⟨height, valid⟩, sorted, rfl⟩
  have recordedSorted := sorted.record FileIndex Delta
  rcases DoInsertion_holds FileIndex Delta valid sorted with ⟨insertion, inserted, result⟩
  rw [AddDelta, inserted]
  cases insertion with
  | done node =>
    rcases result with ⟨nodeValid, nodeContents⟩
    exact ⟨node, rfl, ⟨height, nodeValid⟩, nodeContents ▸ recordedSorted, nodeContents⟩
  | split InsertRes =>
    rcases result with ⟨lhsValid, rhsValid, joined⟩
    have rootContents : (interior [InsertRes.Split] [InsertRes.LHS, InsertRes.RHS]
        (InsertRes.LHS.getFullDelta + InsertRes.RHS.getFullDelta +
          InsertRes.Split.value)).contents = record FileIndex Delta Root.contents := by
      rw [contents, map_cons, map_singleton, weave, after_cons, weave, after, append_nil]
      exact joined
    exact ⟨_, rfl, ⟨height + 1, newRoot_valid lhsValid rhsValid⟩,
      rootContents ▸ recordedSorted, rootContents⟩

/-- The sum of the deltas recorded before an index. -/
def deltaBefore (changes : List (Nat × BitVec 32)) (FileIndex : Nat) : BitVec 32 :=
  ((changes.filter (·.1 < FileIndex)).map (·.2)).sum

theorem deltaBefore_cons (change : Nat × BitVec 32) (changes : List (Nat × BitVec 32))
    (FileIndex : Nat) :
    deltaBefore (change :: changes) FileIndex =
      (if change.1 < FileIndex then change.2 else 0) + deltaBefore changes FileIndex := by
  by_cases before : change.1 < FileIndex
  · rw [deltaBefore, filter_cons_of_pos (by simpa using before), if_pos before, map_cons,
      sum_cons, deltaBefore]
  · rw [deltaBefore, filter_cons_of_neg (by simpa using before), if_neg before, zero_add,
      deltaBefore]

theorem AddDeltas_holds (changes : List (Nat × BitVec 32)) {expected : List SourceDelta}
    {Root : DeltaTreeNode} (holds : Holds expected Root) :
    ∃ Root' expected', AddDeltas changes Root = some Root' ∧ Holds expected' Root' ∧
      ∀ FileIndex, below FileIndex expected' =
        below FileIndex expected + deltaBefore changes FileIndex := by
  induction changes generalizing expected Root with
  | nil => exact ⟨Root, expected, rfl, holds, fun _ => (add_zero _).symm⟩
  | cons change changes ih =>
    rcases AddDelta_holds change.1 change.2 holds with ⟨Root', added, holds'⟩
    rcases ih holds' with ⟨Root'', expected'', run, holds'', sums⟩
    refine ⟨Root'', expected'', ?_, holds'', fun FileIndex => ?_⟩
    · rw [AddDeltas, foldlM_cons, added]
      exact run
    · rw [sums, below_record, deltaBefore_cons, add_assoc]

/-- After any sequence of changes in any order the tree is valid: its values
are strictly increasing, its leaves are at one depth, all nodes but the root
have at least `WidthFactor - 1` values and none has more than
`2 * WidthFactor - 1`, and each full delta is the sum of the deltas below.  The
accumulated delta at an index is the sum of all deltas recorded before it. -/
theorem AddDeltas_getDeltaAt (changes : List (Nat × BitVec 32)) :
    ∃ Root height, AddDeltas changes empty = some Root ∧ Valid 0 height Root ∧
      Sorted Root.contents ∧
      ∀ FileIndex, getDeltaAt FileIndex Root = some (deltaBefore changes FileIndex) := by
  rcases AddDeltas_holds changes empty_holds with
    ⟨Root, expected, run, ⟨⟨height, valid⟩, sorted, records⟩, sums⟩
  refine ⟨Root, height, run, valid, sorted, fun FileIndex => ?_⟩
  rw [getDeltaAt, getDeltaAt_eq FileIndex 0 valid sorted, records, sums]
  exact congrArg some ((zero_add _).trans (zero_add _))

end DeltaTree
end LlvmProject
