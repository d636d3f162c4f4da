import LlvmProject.Support.LEB128Decode

namespace LlvmProject
namespace MachO

/-!
# The iterator over an export trie

`ExportEntry` walks down a trie with a stack of nodes and one string, the labels on
the way to the current node.

A pointer into the trie is the bytes from it on; reading at the end, or at a
pointer that was moved beyond it, has no result.  The loop of
`pushDownUntilBottom` may not end, so it runs with fuel.
-/

def EXPORT_SYMBOL_FLAGS_REEXPORT : UInt64 := 0x08
def EXPORT_SYMBOL_FLAGS_STUB_AND_RESOLVER : UInt64 := 0x10

/-- `ExportEntry::NodeState`; `Start` is the offset of the node. -/
structure NodeState where
  Start : Nat
  Current : List UInt8
  Flags : UInt64
  Address : UInt64
  Other : UInt64
  ImportName : Option (List UInt8)
  ChildCount : Nat
  NextChildIndex : Nat
  ParentStringLength : Nat
  IsExportNode : Bool
  deriving DecidableEq

namespace NodeState

/-- `NodeState(Ptr)`. -/
def new (Start : Nat) (Ptr : List UInt8) : NodeState where
  Start := Start
  Current := Ptr
  Flags := 0
  Address := 0
  Other := 0
  ImportName := none
  ChildCount := 0
  NextChildIndex := 0
  ParentStringLength := 0
  IsExportNode := false

/-- The part of `pushNode` that reads the terminal information. -/
def readInfo (State : NodeState) : Option NodeState :=
  (decodeULEB128 State.Current).bind fun (Flags, Current) =>
    if Flags &&& EXPORT_SYMBOL_FLAGS_REEXPORT ≠ 0 then
      (decodeULEB128 Current).map fun (Other, Current) =>
        { State with Flags, Address := 0, Other, ImportName := some Current, Current }
    else
      (decodeULEB128 Current).bind fun (Address, Current) =>
        if Flags &&& EXPORT_SYMBOL_FLAGS_STUB_AND_RESOLVER ≠ 0 then
          (decodeULEB128 Current).map fun (Other, Current) =>
            { State with Flags, Address, Other, Current }
        else some { State with Flags, Address, Current }

/-- The node at an offset, as `pushNode` reads it below a string of the given length. -/
def read (Trie : List UInt8) (offset : UInt64) (ParentStringLength : Nat) : Option NodeState :=
  let Start := offset.toNat
  (decodeULEB128 (Trie.drop Start)).bind fun (ExportInfoSize, Current) =>
    let State := { new Start Current with IsExportNode := ExportInfoSize ≠ 0 }
    let Children := Current.drop ExportInfoSize.toNat
    (if State.IsExportNode then State.readInfo else some State).bind fun State =>
      match Children with
      | [] => none
      | ChildCount :: Current =>
        some { State with
          ChildCount := ChildCount.toNat
          Current
          NextChildIndex := 0
          ParentStringLength }

end NodeState

/-- The characters up to a zero, and the pointer behind it. -/
def readLabel : List UInt8 -> Option (List UInt8 × List UInt8)
  | [] => none
  | C :: Current =>
    if C = 0 then some ([], Current) else (readLabel Current).map fun (s, p) => (C :: s, p)

/-- `SmallString::resize`. -/
def resize (s : List UInt8) (length : Nat) : List UInt8 :=
  s.take length ++ List.replicate (length - s.length) 0

/-- The top of the stack is its first node. -/
structure ExportEntry where
  Trie : List UInt8
  CumulativeString : List UInt8
  Stack : List NodeState
  Malformed : Bool
  Done : Bool
  deriving DecidableEq

/-- What an iterator reports.  A re-exported name that does not end is none. -/
structure Export where
  name : List UInt8
  flags : UInt64
  address : UInt64
  other : UInt64
  otherName : Option (List UInt8)
  deriving DecidableEq

/-- What `flags`, `address`, `other` and `otherName` return. -/
def NodeState.export (State : NodeState) (name : List UInt8) : Export where
  name := name
  flags := State.Flags
  address := State.Address
  other := State.Other
  otherName :=
    match State.ImportName with
    | some ImportName => (readLabel ImportName).map Prod.fst
    | none => some []

namespace ExportEntry

/-- `ExportEntry(T)`. -/
def new (T : List UInt8) : ExportEntry where
  Trie := T
  CumulativeString := []
  Stack := []
  Malformed := false
  Done := false

def moveToEnd (e : ExportEntry) : ExportEntry := { e with Stack := [], Done := true }

def pushNode (e : ExportEntry) (offset : UInt64) : Option ExportEntry :=
  (NodeState.read e.Trie offset e.CumulativeString.length).map fun State =>
    { e with Stack := State :: e.Stack }

def pushDownUntilBottom : Nat -> ExportEntry -> Option ExportEntry
  | 0, _ => none
  | fuel + 1, e =>
    match e.Stack with
    | [] => none
    | Top :: Stack =>
      if Top.NextChildIndex < Top.ChildCount then
        (readLabel Top.Current).bind fun (label, Current) =>
          (decodeULEB128 Current).bind fun (childNodeIndex, Current) =>
            let e := { e with
              CumulativeString := resize e.CumulativeString Top.ParentStringLength ++ label
              Stack := { Top with Current, NextChildIndex := Top.NextChildIndex + 1 } :: Stack }
            (e.pushNode childNodeIndex).bind (pushDownUntilBottom fuel)
      else if Top.IsExportNode then some e
      else some { e.moveToEnd with Malformed := true }

/-- The loop of `moveNext`. -/
def unwind (fuel : Nat) (e : ExportEntry) : List NodeState -> Option ExportEntry
  | [] => some { e with Stack := [], Done := true }
  | Top :: Stack =>
    if Top.NextChildIndex < Top.ChildCount then
      pushDownUntilBottom fuel { e with Stack := Top :: Stack }
    else if Top.IsExportNode then
      some { e with
        CumulativeString := resize e.CumulativeString Top.ParentStringLength
        Stack := Top :: Stack }
    else unwind fuel e Stack

def moveNext (fuel : Nat) (e : ExportEntry) : Option ExportEntry :=
  match e.Stack with
  | [] => some { e.moveToEnd with Malformed := true }
  | Top :: Stack =>
    if Top.IsExportNode then unwind fuel e Stack
    else some { e.moveToEnd with Malformed := true }

def moveToFirst (fuel : Nat) (e : ExportEntry) : Option ExportEntry :=
  (e.pushNode 0).bind (pushDownUntilBottom fuel)

/-- `exports(Trie)`: where the iteration starts. -/
def start (fuel : Nat) (Trie : List UInt8) : Option ExportEntry :=
  if Trie.length = 0 then some (new Trie).moveToEnd else moveToFirst fuel (new Trie)

/-- The iteration from the entry to the end terminates, and it reports the exports. -/
inductive Yields : ExportEntry -> List Export -> Prop where
  | atEnd {e : ExportEntry} (ended : e.Done = true) : Yields e []
  | next {e e' : ExportEntry} {Top : NodeState} {Stack : List NodeState}
      {exports : List Export} {fuel : Nat} (going : e.Done = false)
      (top : e.Stack = Top :: Stack) (moved : e.moveNext fuel = some e')
      (further : Yields e' exports) : Yields e (Top.export e.CumulativeString :: exports)

end ExportEntry
end MachO
end LlvmProject

namespace LlvmProject

open List Option

namespace MachO

/-!
## Walks over an export trie

The iterator reports what a depth first walk reports, where a node comes behind its
children, and one ends where the other does.  A walk goes over frames, nodes with
their full names; the one string of the iterator holds the names of all of them.
-/

/-- A node on the way to the current one, with its name. -/
structure Frame where
  name : List UInt8
  state : NodeState

namespace Frame

/-- There is a child that was not visited. -/
def More (f : Frame) : Prop := f.state.NextChildIndex < f.state.ChildCount

/-- The node is not one without children and without terminal information. -/
def Bottomed (f : Frame) : Prop := f.More ∨ f.state.IsExportNode = true

/-- The frame behind the next edge, and the child at its end. -/
def child (Trie : List UInt8) (f : Frame) : Option (Frame × Frame) :=
  (readLabel f.state.Current).bind fun (label, Current) =>
    (decodeULEB128 Current).bind fun (childNodeIndex, Current) =>
      (NodeState.read Trie childNodeIndex (f.name ++ label).length).map fun State =>
        (⟨f.name, { f.state with Current, NextChildIndex := f.state.NextChildIndex + 1 }⟩,
          ⟨f.name ++ label, State⟩)

end Frame

/-- The exports that are reported from the frames on, the innermost frame first. -/
inductive Walk (Trie : List UInt8) : List Frame -> List Export -> Prop where
  | done : Walk Trie [] []
  | report {f : Frame} {fs : List Frame} {exports : List Export} (finished : ¬ f.More)
      (isExport : f.state.IsExportNode = true) (further : Walk Trie fs exports) :
      Walk Trie (f :: fs) (f.state.export f.name :: exports)
  | leave {f : Frame} {fs : List Frame} {exports : List Export} (finished : ¬ f.More)
      (noExport : f.state.IsExportNode = false) (further : Walk Trie fs exports) :
      Walk Trie (f :: fs) exports
  | descend {f f' c : Frame} {fs : List Frame} {exports : List Export} (more : f.More)
      (child : f.child Trie = some (f', c)) (bottomed : c.Bottomed)
      (further : Walk Trie (c :: f' :: fs) exports) : Walk Trie (f :: fs) exports
  | halt {f f' c : Frame} {fs : List Frame} (more : f.More)
      (child : f.child Trie = some (f', c)) (malformed : ¬ c.Bottomed) : Walk Trie (f :: fs) []

/-! ## Frames and iterators -/

/-- The stack and the string of the iterator are those of the frames. -/
structure Represents (Trie : List UInt8) (frames : List Frame) (e : ExportEntry) : Prop where
  trie : e.Trie = Trie
  going : e.Done = false
  lengths : ∀ f ∈ frames, f.state.ParentStringLength = f.name.length
  nested : frames.Pairwise fun f g => g.name <+: f.name
  names : ∀ f ∈ frames, f.name <+: e.CumulativeString

variable {Trie : List UInt8} {f f' c : Frame} {fs : List Frame} {e e' : ExportEntry}
variable {exports : List Export}

theorem resize_of_prefix {s t : List UInt8} (starts : s <+: t) : resize t s.length = s := by
  rcases starts with ⟨rest, rfl⟩
  rw [resize, take_left', length_append, Nat.sub_eq_zero_of_le (Nat.le_add_right _ _)]
  · exact append_nil s
  · rfl

section

variable (represents : Represents Trie (f :: fs) e)
include represents

theorem Represents.resize_eq : resize e.CumulativeString f.state.ParentStringLength = f.name := by
  rw [represents.lengths f mem_cons_self]
  exact resize_of_prefix (represents.names f mem_cons_self)

theorem Represents.tail : Represents Trie fs e where
  trie := represents.trie
  going := represents.going
  lengths g mem := represents.lengths g (mem_cons_of_mem f mem)
  nested := (pairwise_cons.mp represents.nested).2
  names g mem := represents.names g (mem_cons_of_mem f mem)

/-- The string may be cut to the name of the innermost frame. -/
theorem Represents.cut (Stack : List NodeState) :
    Represents Trie (f :: fs) { e with CumulativeString := f.name, Stack } where
  trie := represents.trie
  going := represents.going
  lengths := represents.lengths
  nested := represents.nested
  names := by
    rw [forall_mem_cons]
    exact ⟨prefix_rfl, (pairwise_cons.mp represents.nested).1⟩

end

theorem read_ParentStringLength {offset : UInt64} {length : Nat} {State : NodeState}
    (read : NodeState.read Trie offset length = some State) :
    State.ParentStringLength = length := by
  rw [NodeState.read] at read
  rcases bind_eq_some_iff.mp read with ⟨pair, -, read⟩
  rcases bind_eq_some_iff.mp read with ⟨State', -, read⟩
  split at read
  · exact nomatch read
  · cases read
    rfl

theorem Represents.child (represents : Represents Trie (f :: fs) e)
    (child : f.child Trie = some (f', c)) (Stack : List NodeState) :
    Represents Trie (c :: f' :: fs) { e with CumulativeString := c.name, Stack } := by
  rcases bind_eq_some_iff.mp child with ⟨⟨label, Current⟩, -, child⟩
  rcases bind_eq_some_iff.mp child with ⟨⟨childNodeIndex, Current⟩, -, child⟩
  rcases map_eq_some_iff.mp child with ⟨State, read, same⟩
  cases same
  have below := (pairwise_cons.mp represents.nested).1
  have starts : f.name <+: f.name ++ label := prefix_append _ _
  have names : ∀ g ∈ fs, g.name <+: f.name ++ label := fun g mem => (below g mem).trans starts
  refine ⟨represents.trie, represents.going, ?_, ?_, ?_⟩
  · rw [forall_mem_cons, forall_mem_cons]
    have lengths := forall_mem_cons.mp represents.lengths
    exact ⟨read_ParentStringLength read, lengths⟩
  · rw [pairwise_cons, forall_mem_cons, pairwise_cons]
    exact ⟨⟨starts, names⟩, below, (pairwise_cons.mp represents.nested).2⟩
  · rw [forall_mem_cons, forall_mem_cons]
    exact ⟨prefix_rfl, starts, names⟩

/-! ## Steps of the loop -/

variable {S : List NodeState} {fuel : Nat}

namespace ExportEntry

theorem pushDown_child (represents : Represents Trie (f :: fs) e) (stack : e.Stack = f.state :: S)
    (more : f.More) : pushDownUntilBottom (fuel + 1) e =
      (f.child Trie).bind fun (f', c) => pushDownUntilBottom fuel
        { e with CumulativeString := c.name, Stack := c.state :: f'.state :: S } := by
  rw [pushDownUntilBottom, stack]
  dsimp only
  rw [if_pos (show f.state.NextChildIndex < f.state.ChildCount from more), represents.resize_eq,
    Frame.child]
  simp only [bind_assoc, pushNode, represents.trie]
  refine congrArg _ (funext fun pair => congrArg _ (funext fun pair' => ?_))
  rw [map_eq_bind, map_eq_bind, bind_assoc, bind_assoc]
  rfl

theorem pushDown_bottom (stack : e.Stack = f.state :: S) (finished : ¬ f.More) :
    pushDownUntilBottom (fuel + 1) e = if f.state.IsExportNode then some e
      else some { e.moveToEnd with Malformed := true } := by
  rw [pushDownUntilBottom, stack]
  exact if_neg finished

theorem pushDown_halt (stack : e.Stack = f.state :: S) (malformed : ¬ f.Bottomed) :
    pushDownUntilBottom (fuel + 1) e = some { e.moveToEnd with Malformed := true } := by
  rw [pushDown_bottom stack fun more => malformed (.inl more),
    if_neg fun isExport => malformed (.inr isExport)]

theorem unwind_more (more : f.More) :
    unwind fuel e (f.state :: S) = pushDownUntilBottom fuel { e with Stack := f.state :: S } :=
  if_pos more

theorem unwind_report (represents : Represents Trie (f :: fs) e) (finished : ¬ f.More)
    (isExport : f.state.IsExportNode = true) : unwind fuel e (f.state :: S) =
      some { e with CumulativeString := f.name, Stack := f.state :: S } := by
  rw [unwind, if_neg (show ¬ f.state.NextChildIndex < f.state.ChildCount from finished),
    if_pos isExport, represents.resize_eq]

theorem unwind_leave (finished : ¬ f.More) (noExport : f.state.IsExportNode = false) :
    unwind fuel e (f.state :: S) = unwind fuel e S := by
  rw [unwind, if_neg (show ¬ f.state.NextChildIndex < f.state.ChildCount from finished),
    if_neg (by rw [noExport]; exact Bool.false_ne_true)]

theorem moveNext_export (stack : e.Stack = f.state :: S) (isExport : f.state.IsExportNode = true) :
    e.moveNext fuel = unwind fuel e S := by
  rw [moveNext, stack]
  exact if_pos isExport

end ExportEntry

theorem Represents.withStack (represents : Represents Trie fs e) (Stack : List NodeState) :
    Represents Trie fs { e with Stack } :=
  ⟨represents.trie, represents.going, represents.lengths, represents.nested, represents.names⟩

/-! ## Every walk is one of the iterator -/

open ExportEntry

/-- The loop of `moveNext` goes on to report the exports. -/
def Unwinds (e : ExportEntry) (fs : List Frame) (exports : List Export) : Prop :=
  ∃ fuel e', unwind fuel e (fs.map Frame.state) = some e' ∧ Yields e' exports

/-- So does the way down. -/
def Descends (e : ExportEntry) (exports : List Export) : Prop :=
  ∃ fuel e', pushDownUntilBottom fuel e = some e' ∧ Yields e' exports

theorem descends_child (represents : Represents Trie (f :: fs) e) (stack : e.Stack = f.state :: S)
    (more : f.More) (child : f.child Trie = some (f', c)) (descends :
    Descends { e with CumulativeString := c.name, Stack := c.state :: f'.state :: S } exports) :
    Descends e exports := by
  rcases descends with ⟨fuel, e', ran, yields⟩
  refine ⟨fuel + 1, e', ?_, yields⟩
  rw [pushDown_child represents stack more, child]
  exact ran

theorem unwinds_of_descends (more : f.More)
    (descends : Descends { e with Stack := (f :: fs).map Frame.state } exports) :
    Unwinds e (f :: fs) exports := by
  rcases descends with ⟨fuel, e', ran, yields⟩
  exact ⟨fuel, e', (unwind_more more).trans ran, yields⟩

/-- An export without further children is reported, and the walk goes on above it. -/
theorem yields_report (going : e.Done = false) (stack : e.Stack = (f :: fs).map Frame.state)
    (isExport : f.state.IsExportNode = true) (named : e.CumulativeString = f.name)
    (unwinds : Unwinds e fs exports) : Yields e (f.state.export f.name :: exports) := by
  rcases unwinds with ⟨fuel, e', ran, yields⟩
  rw [<- named]
  exact Yields.next going stack ((moveNext_export stack isExport).trans ran) yields

theorem walk_completes (walk : Walk Trie fs exports) (represents : Represents Trie fs e) :
    Unwinds e fs exports ∧ ∀ f rest, fs = f :: rest -> f.Bottomed ->
      (¬ f.More -> e.CumulativeString = f.name) -> e.Stack = fs.map Frame.state ->
      Descends e exports := by
  induction walk generalizing e with
  | done => exact ⟨⟨0, _, rfl, Yields.atEnd rfl⟩, nofun⟩
  | @report f fs exports finished isExport further ih =>
    constructor
    · have cut := represents.cut ((f :: fs).map Frame.state)
      have unwinds := (ih cut.tail).1
      exact ⟨0, _, unwind_report represents finished isExport,
        yields_report represents.going rfl isExport rfl unwinds⟩
    · rintro f' rest same - named stack
      cases same
      have unwinds := (ih represents.tail).1
      refine ⟨1, e, ?_, yields_report represents.going stack isExport (named finished) unwinds⟩
      rw [pushDown_bottom stack finished, if_pos isExport]
  | @leave f fs exports finished noExport further ih =>
    constructor
    · rcases (ih represents.tail).1 with ⟨fuel, e', ran, yields⟩
      exact ⟨fuel, e', (unwind_leave finished noExport).trans ran, yields⟩
    · rintro f' rest same bottomed - -
      cases same
      rcases bottomed with more | isExport
      · exact absurd more finished
      · exact nomatch noExport.symm.trans isExport
  | @descend f f' c fs exports more child bottomed further ih =>
    have down : ∀ e, Represents Trie (f :: fs) e -> e.Stack = (f :: fs).map Frame.state ->
        Descends e exports := by
      intro e represents stack
      refine descends_child represents stack more child ?_
      exact (ih (represents.child child _)).2 c _ rfl bottomed (fun _ => rfl) rfl
    refine ⟨unwinds_of_descends more (down _ (represents.withStack _) rfl), ?_⟩
    exact fun _ _ _ _ _ stack => down e represents stack
  | @halt f f' c fs more child malformed =>
    have down : ∀ e, Represents Trie (f :: fs) e -> e.Stack = (f :: fs).map Frame.state ->
        Descends e [] := by
      intro e represents stack
      refine descends_child represents stack more child ?_
      exact ⟨1, _, pushDown_halt rfl malformed, Yields.atEnd rfl⟩
    refine ⟨unwinds_of_descends more (down _ (represents.withStack _) rfl), ?_⟩
    exact fun _ _ _ _ _ stack => down e represents stack

/-! ## Every iteration is a walk -/

/-- The iterator is at an export without further children. -/
structure AtExport (Trie : List UInt8) (f : Frame) (fs : List Frame) (e : ExportEntry) : Prop where
  represents : Represents Trie (f :: fs) e
  stack : e.Stack = (f :: fs).map Frame.state
  finished : ¬ f.More
  isExport : f.state.IsExportNode = true
  named : e.CumulativeString = f.name

/-- The iterator went from the frames to the end or to an export, as a walk may. -/
def Reached (Trie : List UInt8) (fs : List Frame) (e' : ExportEntry) : Prop :=
  (e'.Done = true ∧ Walk Trie fs []) ∨ ∃ g gs, AtExport Trie g gs e' ∧
    ∀ exports, Walk Trie (g :: gs) exports -> Walk Trie fs exports

theorem pushDown_reached (ran : pushDownUntilBottom fuel e = some e')
    (represents : Represents Trie (f :: fs) e) (stack : e.Stack = (f :: fs).map Frame.state)
    (bottomed : f.Bottomed) (named : ¬ f.More -> e.CumulativeString = f.name) :
    Reached Trie (f :: fs) e' := by
  induction fuel generalizing e f fs with
  | zero => exact nomatch ran
  | succ fuel ih =>
    by_cases more : f.More
    · rw [pushDown_child represents stack more] at ran
      rcases bind_eq_some_iff.mp ran with ⟨⟨f', c⟩, child, ran⟩
      by_cases further : c.Bottomed
      · rcases ih ran (represents.child child _) rfl further fun _ => rfl with
          ⟨done, walk⟩ | ⟨g, gs, atExport, walks⟩
        · exact .inl ⟨done, Walk.descend more child further walk⟩
        · exact .inr ⟨g, gs, atExport, fun exports walk =>
            Walk.descend more child further (walks exports walk)⟩
      · cases fuel with
        | zero => exact nomatch ran
        | succ fuel =>
          dsimp only at ran
          rw [pushDown_halt rfl further] at ran
          cases ran
          exact .inl ⟨rfl, Walk.halt more child further⟩
    · have isExport := bottomed.resolve_left more
      rw [pushDown_bottom stack more, if_pos isExport] at ran
      cases ran
      exact .inr ⟨f, fs, ⟨represents, stack, more, isExport, named more⟩, fun _ => id⟩

theorem unwind_reached (ran : unwind fuel e (fs.map Frame.state) = some e')
    (represents : Represents Trie fs e) : Reached Trie fs e' := by
  induction fs with
  | nil =>
    cases ran
    exact .inl ⟨rfl, Walk.done⟩
  | cons f fs ih =>
    rw [List.map_cons] at ran
    by_cases more : f.More
    · rw [unwind_more more] at ran
      exact pushDown_reached ran (represents.withStack _) rfl (.inl more) (absurd more)
    · cases isExport : f.state.IsExportNode with
      | true =>
        rw [unwind_report represents more isExport] at ran
        cases ran
        exact .inr ⟨f, fs, ⟨represents.cut _, rfl, more, isExport, rfl⟩, fun _ => id⟩
      | false =>
        rw [unwind_leave more isExport] at ran
        rcases ih ran represents.tail with
          ⟨done, walk⟩ | ⟨g, gs, atExport, walks⟩
        · exact .inl ⟨done, Walk.leave more isExport walk⟩
        · exact .inr ⟨g, gs, atExport, fun exports walk =>
            Walk.leave more isExport (walks exports walk)⟩

theorem eq_nil_of_done (yields : Yields e exports) (done : e.Done = true) : exports = [] := by
  cases yields with
  | atEnd => rfl
  | next going => exact nomatch going.symm.trans done

theorem walk_of_yields (yields : Yields e exports) (atExport : AtExport Trie f fs e) :
    Walk Trie (f :: fs) exports := by
  induction yields generalizing f fs with
  | atEnd ended => exact nomatch atExport.represents.going.symm.trans ended
  | next going top moved further ih =>
    cases top.symm.trans atExport.stack
    rw [moveNext_export atExport.stack atExport.isExport] at moved
    rw [atExport.named]
    apply Walk.report atExport.finished atExport.isExport
    rcases unwind_reached moved atExport.represents.tail with
      ⟨done, walk⟩ | ⟨g, gs, reached, walks⟩
    · rwa [eq_nil_of_done further done]
    · exact walks _ (ih reached)

/-! ## From the root -/

theorem Reached.walk (reached : Reached Trie fs e') (yields : Yields e' exports) :
    Walk Trie fs exports := by
  rcases reached with ⟨done, walk⟩ | ⟨g, gs, atExport, walks⟩
  · rwa [eq_nil_of_done yields done]
  · exact walks _ (walk_of_yields yields atExport)

theorem start_eq (some : Trie ≠ []) : start fuel Trie =
    (NodeState.read Trie 0 0).bind fun root =>
      pushDownUntilBottom fuel { new Trie with Stack := [root] } := by
  rw [start, if_neg (mt length_eq_zero_iff.mp some), moveToFirst, pushNode, map_eq_bind, bind_assoc]
  rfl

/-- Nothing is reported from a root without children and terminal information. -/
theorem walk_malformed_iff (malformed : ¬ f.Bottomed) : Walk Trie [f] exports ↔ exports = [] := by
  constructor
  · intro walk
    cases walk with
    | report finished isExport further => exact absurd (.inr isExport) malformed
    | leave finished noExport further => cases further with | done => rfl
    | descend more child bottomed further => exact absurd (.inl more) malformed
    | halt more child _ => exact absurd (.inl more) malformed
  · rintro rfl
    have noExport : f.state.IsExportNode = false :=
      Bool.eq_false_iff.mpr fun isExport => malformed (.inr isExport)
    exact Walk.leave (fun more => malformed (.inl more)) noExport Walk.done

theorem start_yields_iff (some : Trie ≠ []) :
    (∃ fuel e, start fuel Trie = .some e ∧ Yields e exports) ↔
      ∃ root, NodeState.read Trie 0 0 = .some root ∧ Walk Trie [⟨[], root⟩] exports := by
  have represents : ∀ root, NodeState.read Trie 0 0 = .some root ->
      Represents Trie [⟨[], root⟩] { new Trie with Stack := [root] } := by
    intro root read
    refine ⟨rfl, rfl, ?_, pairwise_singleton _ _, ?_⟩
    · rw [forall_mem_singleton]
      exact read_ParentStringLength read
    · rw [forall_mem_singleton]
      exact prefix_rfl
  simp only [start_eq some]
  constructor
  · rintro ⟨fuel, e, started, yields⟩
    rcases bind_eq_some_iff.mp started with ⟨root, read, ran⟩
    refine ⟨root, read, ?_⟩
    by_cases bottomed : Frame.Bottomed ⟨[], root⟩
    · have reached := pushDown_reached ran (represents root read) rfl bottomed fun _ => rfl
      exact reached.walk yields
    · rw [walk_malformed_iff bottomed]
      cases fuel with
      | zero => exact nomatch ran
      | succ fuel =>
        rw [pushDown_halt rfl bottomed] at ran
        cases ran
        exact eq_nil_of_done yields rfl
  · rintro ⟨root, read, walk⟩
    simp only [read, bind_some]
    by_cases bottomed : Frame.Bottomed ⟨[], root⟩
    · exact (walk_completes walk (represents root read)).2 _ [] rfl bottomed (fun _ => rfl) rfl
    · rw [walk_malformed_iff bottomed] at walk
      subst walk
      exact ⟨1, _, pushDown_halt rfl bottomed, Yields.atEnd rfl⟩

end MachO
end LlvmProject
