import LlvmProject.Object.ExportTrie

namespace LlvmProject

open Option

namespace MachO

/-!
# Tries from which the iteration comes back

Neither the offset of a child nor the end of a label is checked, so bytes may lead
outside the trie or around in a cycle.  The iteration is safe on the bytes of a
finite tree that lies inside, up to the first node with neither children nor
terminal information, at which it stops.
-/

mutual

/-- The bytes of the node and of its descendants lie inside and form a finite tree.
The flag tells whether there is a node below at which the walk stops, and what
would come behind that one does not matter. -/
inductive TreeAt (Trie : List UInt8) : UInt64 -> Bool -> Prop where
  | node {offset : UInt64} {State : NodeState} {stops : Bool}
      (read : NodeState.read Trie offset 0 = some State)
      (bottomed : State.ChildCount ≠ 0 ∨ State.IsExportNode = true)
      (edges : EdgesAt Trie State.Current State.ChildCount stops) : TreeAt Trie offset stops
  | stop {offset : UInt64} {State : NodeState} (read : NodeState.read Trie offset 0 = some State)
      (childless : State.ChildCount = 0) (noExport : State.IsExportNode = false) :
      TreeAt Trie offset true

inductive EdgesAt (Trie : List UInt8) : List UInt8 -> Nat -> Bool -> Prop where
  | none {p : List UInt8} : EdgesAt Trie p 0 false
  | stop {p p' rest label : List UInt8} {count : Nat} {offset : UInt64}
      (readsLabel : readLabel p = some (label, p'))
      (readsOffset : decodeULEB128 p' = some (offset, rest)) (child : TreeAt Trie offset true) :
      EdgesAt Trie p (count + 1) true
  | next {p p' rest label : List UInt8} {count : Nat} {offset : UInt64} {stops : Bool}
      (readsLabel : readLabel p = some (label, p'))
      (readsOffset : decodeULEB128 p' = some (offset, rest)) (child : TreeAt Trie offset false)
      (edges : EdgesAt Trie rest count stops) : EdgesAt Trie p (count + 1) stops

end

variable {Trie : List UInt8} {f f' c : Frame} {fs : List Frame} {exports : List Export}

/-! ## Frames of a tree -/

theorem read_eq_map (Trie : List UInt8) (offset : UInt64) (length : Nat) :
    NodeState.read Trie offset length =
      (NodeState.read Trie offset 0).map fun State =>
        { State with ParentStringLength := length } := by
  rw [NodeState.read, NodeState.read]
  cases decodeULEB128 (Trie.drop offset.toNat) with
  | none => rfl
  | some pair =>
    rw [bind_some, bind_some]
    dsimp only
    generalize (if decide (pair.1 ≠ 0) = true then _ else _ : Option NodeState) = info
    cases info with
    | none => rfl
    | some State => cases pair.2.drop pair.1.toNat <;> rfl

theorem read_first {offset : UInt64} {length : Nat} {State : NodeState}
    (read : NodeState.read Trie offset length = some State) : State.NextChildIndex = 0 := by
  rcases bind_eq_some_iff.mp read with ⟨pair, -, read⟩
  rcases bind_eq_some_iff.mp read with ⟨State', -, read⟩
  split at read
  · exact nomatch read
  · cases read
    rfl

/-- The frame stands at the root of a tree. -/
theorem child_eq_some_iff : f.child Trie = some (f', c) ↔ ∃ label p rest offset State,
    readLabel f.state.Current = some (label, p) ∧ decodeULEB128 p = some (offset, rest) ∧
      NodeState.read Trie offset 0 = some State ∧
      f' = ⟨f.name,
        { f.state with Current := rest, NextChildIndex := f.state.NextChildIndex + 1 }⟩ ∧
      c = ⟨f.name ++ label, { State with ParentStringLength := (f.name ++ label).length }⟩ := by
  simp only [Frame.child, bind_eq_some_iff, map_eq_some_iff, Prod.mk.injEq, Prod.exists]
  constructor
  · rintro ⟨label, p, readsLabel, offset, rest, readsOffset, State, read, rfl, rfl⟩
    rw [read_eq_map, map_eq_some_iff] at read
    rcases read with ⟨State, read, rfl⟩
    exact ⟨label, p, rest, offset, State, readsLabel, readsOffset, read, rfl, rfl⟩
  · rintro ⟨label, p, rest, offset, State, readsLabel, readsOffset, read, rfl, rfl⟩
    refine ⟨label, p, readsLabel, offset, rest, readsOffset, _, ?_, rfl, rfl⟩
    rw [read_eq_map, read, map_some]

/-! ## Walks and trees -/

/-- The frames have trees below their further edges. -/
def TreesBelow (Trie : List UInt8) : List Frame -> Prop
  | [] => True
  | f :: fs => ∃ stops,
      EdgesAt Trie f.state.Current (f.state.ChildCount - f.state.NextChildIndex) stops ∧
        (stops = false -> TreesBelow Trie fs)

theorem treesBelow_finished (finished : ¬ f.More) (trees : TreesBelow Trie fs) :
    TreesBelow Trie (f :: fs) := by
  have none : f.state.ChildCount - f.state.NextChildIndex = 0 :=
    Nat.sub_eq_zero_of_le (Nat.not_lt.mp finished)
  rw [TreesBelow, none]
  exact ⟨false, EdgesAt.none, fun _ => trees⟩

theorem remaining_succ (more : f.More) : f.state.ChildCount - f.state.NextChildIndex =
    f.state.ChildCount - (f.state.NextChildIndex + 1) + 1 := by
  rw [Frame.More] at more
  omega

theorem treesBelow_of_walk (walk : Walk Trie fs exports) : TreesBelow Trie fs := by
  induction walk with
  | done => trivial
  | report finished _ _ ih =>
    exact treesBelow_finished finished ih
  | leave finished _ _ ih =>
    exact treesBelow_finished finished ih
  | @descend f f' c fs exports more child bottomed further ih =>
    rcases child_eq_some_iff.mp child with
      ⟨label, p, rest, offset, State, readsLabel, readsOffset, read, rfl, rfl⟩
    rcases ih with ⟨stops, edges, others⟩
    have first := read_first read
    have node : TreeAt Trie offset stops := by
      refine TreeAt.node read (bottomed.imp_left fun more => ?_) ?_
      · exact (Nat.zero_lt_of_lt more).ne'
      · dsimp only at edges
        rwa [first, Nat.sub_zero] at edges
    rw [TreesBelow, remaining_succ more]
    cases stops with
    | true => exact ⟨true, EdgesAt.stop readsLabel readsOffset node, nofun⟩
    | false =>
      rcases others rfl with ⟨stops, edges, others⟩
      exact ⟨stops, EdgesAt.next readsLabel readsOffset node edges, others⟩
  | @halt f f' c fs more child malformed =>
    rcases child_eq_some_iff.mp child with
      ⟨label, p, rest, offset, State, readsLabel, readsOffset, read, rfl, rfl⟩
    have first := read_first read
    have childless : State.ChildCount = 0 := by
      by_contra children
      apply malformed
      refine .inl (show State.NextChildIndex < State.ChildCount from ?_)
      rw [first]
      exact pos_of_ne_zero children
    have noExport : State.IsExportNode = false :=
      Bool.eq_false_iff.mpr fun isExport => malformed (.inr isExport)
    rw [TreesBelow, remaining_succ more]
    exact ⟨true, EdgesAt.stop readsLabel readsOffset (TreeAt.stop read childless noExport), nofun⟩

theorem walk_of_child {label p rest : List UInt8} {offset : UInt64}
    {State : NodeState} (more : f.More) (readsLabel : readLabel f.state.Current = some (label, p))
    (readsOffset : decodeULEB128 p = some (offset, rest)) (read : NodeState.read Trie offset 0 =
    some State) (bottomed : State.ChildCount ≠ 0 ∨ State.IsExportNode = true)
    (walks : ∀ c : Frame, c.state.Current = State.Current -> c.state.NextChildIndex
    + State.ChildCount = c.state.ChildCount -> ∃ exports, Walk Trie (c :: ⟨f.name, {
    f.state with Current := rest, NextChildIndex := f.state.NextChildIndex + 1 }⟩ :: fs) exports) :
    ∃ exports, Walk Trie (f :: fs) exports := by
  have first := read_first read
  have child := child_eq_some_iff.mpr
    ⟨label, p, rest, offset, State, readsLabel, readsOffset, read, rfl, rfl⟩
  rcases walks ⟨f.name ++ label,
    { State with ParentStringLength := (f.name ++ label).length }⟩ rfl (by simp [first]) with
    ⟨exports, walk⟩
  refine ⟨exports, Walk.descend more child (bottomed.imp_left fun children => ?_) walk⟩
  show State.NextChildIndex < State.ChildCount
  rw [first]
  exact pos_of_ne_zero children

/-- Where the edges lead to trees there is a walk, if there is one from the frames
behind, should it come to them. -/
theorem walk_of_edgesAt {p : List UInt8}
    {count : Nat} {stops : Bool} (edges : EdgesAt Trie p count stops) {f : Frame} {fs : List Frame}
    (cur : f.state.Current = p) (remaining : f.state.NextChildIndex + count = f.state.ChildCount)
    (others : stops = false -> ∃ exports, Walk Trie fs exports) :
    ∃ exports, Walk Trie (f :: fs) exports := by
  match edges with
  | .none =>
    have finished : ¬ f.More := (Nat.add_zero _ ▸ remaining).not_lt
    rcases others rfl with ⟨exports, walk⟩
    exact ⟨_, walk.finish finished⟩
  | .stop readsLabel readsOffset child =>
    have more : f.More := by
      rw [Frame.More, <- remaining]
      exact Nat.lt_add_of_pos_right (Nat.succ_pos _)
    subst cur
    match child with
    | .node read bottomed edges =>
      exact walk_of_child more readsLabel readsOffset read bottomed fun c cur remaining =>
        walk_of_edgesAt edges cur remaining nofun
    | .stop read childless noExport =>
      have child := child_eq_some_iff.mpr
        ⟨_, _, _, _, _, readsLabel, readsOffset, read, rfl, rfl⟩
      refine ⟨[], Walk.halt more child ?_⟩
      rintro (more | isExport)
      · exact Nat.not_lt_zero _ (childless ▸ more)
      · exact nomatch noExport.symm.trans isExport
  | .next readsLabel readsOffset child further =>
    have more : f.More := by
      rw [Frame.More, <- remaining]
      exact Nat.lt_add_of_pos_right (Nat.succ_pos _)
    subst cur
    match child with
    | .node read bottomed inner =>
      refine walk_of_child more readsLabel readsOffset read bottomed fun c cur counted =>
        walk_of_edgesAt inner cur counted fun _ => ?_
      refine walk_of_edgesAt further rfl ?_ others
      rw [<- remaining]
      exact Nat.add_right_comm _ _ _

/-- The iteration over the bytes comes to its end, and it reads nothing outside them. -/
def ExportsSafe (Trie : List UInt8) : Prop :=
  ∃ fuel e exports, ExportEntry.start fuel Trie = some e ∧ e.Yields exports

/-- The iteration is safe on a finite tree inside the bytes, and only there. -/
theorem exports_safe_iff (Trie : List UInt8) :
    ExportsSafe Trie ↔ Trie = [] ∨ ∃ stops, TreeAt Trie 0 stops := by
  by_cases empty : Trie = []
  · refine iff_of_true ?_ (.inl empty)
    subst empty
    exact ⟨0, _, [], rfl, ExportEntry.Yields.atEnd rfl⟩
  · rw [or_iff_right empty]
    constructor
    · rintro ⟨fuel, e, exports, started, yields⟩
      rcases (start_yields_iff empty).mp ⟨fuel, e, started, yields⟩ with ⟨root, read, walk⟩
      have first := read_first read
      by_cases bottomed : root.ChildCount ≠ 0 ∨ root.IsExportNode = true
      · rcases treesBelow_of_walk walk with ⟨stops, edges, -⟩
        dsimp only at edges
        rw [first, Nat.sub_zero] at edges
        exact ⟨stops, TreeAt.node read bottomed edges⟩
      · rcases not_or.mp bottomed with ⟨childless, noExport⟩
        exact ⟨true, TreeAt.stop read (not_not.mp childless) (Bool.eq_false_iff.mpr noExport)⟩
    · have safe : ∀ root, NodeState.read Trie 0 0 = some root ->
          (∃ exports, Walk Trie [⟨[], root⟩] exports) -> ExportsSafe Trie := by
        rintro root read ⟨exports, walk⟩
        rcases (start_yields_iff empty).mpr ⟨root, read, walk⟩ with ⟨fuel, e, started, yields⟩
        exact ⟨fuel, e, exports, started, yields⟩
      rintro ⟨stops, tree⟩
      cases tree with
      | @node offset root stops read bottomed edges =>
        apply safe root read
        refine walk_of_edgesAt edges rfl ?_ fun _ => ⟨[], Walk.done⟩
        show root.NextChildIndex + _ = _
        rw [read_first read, zero_add]
      | @stop offset root read childless noExport =>
        apply safe root read
        have finished : ¬ Frame.More ⟨[], root⟩ := by
          rw [Frame.More, childless]
          exact Nat.not_lt_zero _
        exact ⟨[], Walk.leave finished noExport Walk.done⟩

/-- The only edge of the root leads behind the last byte. -/
theorem exports_not_safe_outside : ¬ ExportsSafe [0, 1, 0x61, 0, 0x20] := by
  rintro ⟨fuel, e, exports, started, yields⟩
  rcases (start_yields_iff (by decide)).mp ⟨fuel, e, started, yields⟩ with ⟨root, read, walk⟩
  cases read
  cases walk with
  | report finished => exact finished (show (0 : Nat) < 1 by decide)
  | leave finished => exact finished (show (0 : Nat) < 1 by decide)
  | descend _ child => exact nomatch child
  | halt _ child => exact nomatch child

end MachO
end LlvmProject
