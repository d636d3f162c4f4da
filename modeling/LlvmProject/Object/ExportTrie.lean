import LlvmProject.Object.ExportEntry

namespace LlvmProject

open List Option
namespace MachO

/-!
# Export tries

A trie is a tree whose nodes may have terminal information and whose edges have
labels.  Its exports are its nodes with terminal information, each named by the
labels on the way to it, children before their parent.  The iterator reports them
from any bytes that encode the tree.
-/

/-- Terminal information: an address, one with a resolver, or the name and library
of a symbol that is exported again. -/
inductive ExportInfo where
  | regular (flags addr : UInt64)
  | resolver (flags addr other : UInt64)
  | reexport (flags ordinal : UInt64) (importName : List UInt8)
  deriving DecidableEq

def ExportInfo.export (name : List UInt8) : ExportInfo -> Export
  | regular flags addr => ⟨name, flags, addr, 0, some []⟩
  | resolver flags addr other => ⟨name, flags, addr, other, some []⟩
  | reexport flags ordinal importName => ⟨name, flags, 0, ordinal, some importName⟩

mutual

inductive ExportNode where
  | node (info : Option ExportInfo) (edges : ExportEdges)

inductive ExportEdges where
  | nil
  | cons (label : List UInt8) (child : ExportNode) (edges : ExportEdges)

end

def ExportEdges.length : ExportEdges -> Nat
  | nil => 0
  | cons _ _ edges => edges.length + 1

mutual

/-- The exports of the tree below a node, whose name is given. -/
def ExportNode.exports (name : List UInt8) : ExportNode -> List Export
  | .node info edges =>
    edges.exports name ++ (info.map (ExportInfo.export name)).toList

def ExportEdges.exports (name : List UInt8) : ExportEdges -> List Export
  | .nil => []
  | .cons label child edges => child.exports (name ++ label) ++ edges.exports name

end

mutual

/-- Every node below has children or terminal information. -/
def ExportNode.WellFormed : ExportNode -> Prop
  | .node info edges => (edges = .nil -> info.isSome = true) ∧ edges.WellFormed

def ExportEdges.WellFormed : ExportEdges -> Prop
  | .nil => True
  | .cons _ child edges => child.WellFormed ∧ edges.WellFormed

end

/-! ## Encodings -/

/-- The bytes are a number of at most 64 bits. -/
structure EncodesULEB128 (bytes : List UInt8) (n : UInt64) : Prop where
  terminated : LEB128.Terminated bytes
  short : bytes.length <= 10
  value : UInt64.ofNat (LEB128.groups bytes) = n

/-- The characters end with a zero. -/
def EncodesString (bytes s : List UInt8) : Prop := bytes = s ++ [0] ∧ ∀ c ∈ s, c ≠ 0

/-- The payload of a node, which may have more bytes than its information needs. -/
inductive EncodesInfo : List UInt8 -> ExportInfo -> Prop where
  | regular {flagsBytes addressBytes more : List UInt8} {flags addr : UInt64}
      (encodesFlags : EncodesULEB128 flagsBytes flags)
      (encodesAddress : EncodesULEB128 addressBytes addr)
      (own : flags &&& EXPORT_SYMBOL_FLAGS_REEXPORT = 0)
      (single : flags &&& EXPORT_SYMBOL_FLAGS_STUB_AND_RESOLVER = 0) :
      EncodesInfo (flagsBytes ++ addressBytes ++ more) (.regular flags addr)
  | resolver {flagsBytes addressBytes otherBytes more : List UInt8} {flags addr other : UInt64}
      (encodesFlags : EncodesULEB128 flagsBytes flags)
      (encodesAddress : EncodesULEB128 addressBytes addr)
      (encodesOther : EncodesULEB128 otherBytes other)
      (own : flags &&& EXPORT_SYMBOL_FLAGS_REEXPORT = 0)
      (stub : flags &&& EXPORT_SYMBOL_FLAGS_STUB_AND_RESOLVER ≠ 0) :
      EncodesInfo (flagsBytes ++ addressBytes ++ otherBytes ++ more)
        (.resolver flags addr other)
  | reexport {flagsBytes ordinalBytes nameBytes more importName : List UInt8}
      {flags ordinal : UInt64} (encodesFlags : EncodesULEB128 flagsBytes flags)
      (encodesOrdinal : EncodesULEB128 ordinalBytes ordinal)
      (encodesName : EncodesString nameBytes importName)
      (again : flags &&& EXPORT_SYMBOL_FLAGS_REEXPORT ≠ 0) :
      EncodesInfo (flagsBytes ++ ordinalBytes ++ nameBytes ++ more)
        (.reexport flags ordinal importName)

mutual

/-- The node stands at the offset, and its descendants where its edges point to. -/
inductive EncodesNode (Trie : List UInt8) : UInt64 -> ExportNode -> Prop where
  | node {offset size : UInt64} {info : Option ExportInfo} {edges : ExportEdges}
      {sizeBytes payload rest : List UInt8} {count : UInt8}
      (bytes : Trie.drop offset.toNat = sizeBytes ++ payload ++ count :: rest)
      (encodesSize : EncodesULEB128 sizeBytes size) (exact : size.toNat = payload.length)
      (encodesInfo : ∀ i ∈ info, EncodesInfo payload i) (noInfo : info = none -> payload = [])
      (counted : count.toNat = edges.length) (encodesEdges : EncodesEdges Trie rest edges) :
      EncodesNode Trie offset (.node info edges)

inductive EncodesEdges (Trie : List UInt8) : List UInt8 -> ExportEdges -> Prop where
  | nil {rest : List UInt8} : EncodesEdges Trie rest .nil
  | cons {labelBytes label offsetBytes rest : List UInt8} {offset : UInt64} {child : ExportNode}
      {edges : ExportEdges} (encodesLabel : EncodesString labelBytes label)
      (encodesOffset : EncodesULEB128 offsetBytes offset)
      (encodesChild : EncodesNode Trie offset child)
      (encodesEdges : EncodesEdges Trie rest edges) :
      EncodesEdges Trie (labelBytes ++ offsetBytes ++ rest) (.cons label child edges)

end

/-! ## Reading an encoding -/

variable {Trie : List UInt8} {offset : UInt64} {f : Frame} {fs : List Frame}

theorem EncodesULEB128.decode {bytes : List UInt8} {n : UInt64} (encodes : EncodesULEB128 bytes n)
    (rest : List UInt8) : decodeULEB128 (bytes ++ rest) = some (n, rest) := by
  rw [LEB128.decodeULEB128_eq, LEB128.split_append encodes.terminated, bind_some]
  dsimp only
  rw [if_pos encodes.short, encodes.value]

theorem EncodesString.read {bytes s : List UInt8} (encodes : EncodesString bytes s)
    (rest : List UInt8) : readLabel (bytes ++ rest) = some (s, rest) := by
  rcases encodes with ⟨rfl, nonzero⟩
  induction s with
  | nil => rfl
  | cons c s ih =>
    rw [forall_mem_cons] at nonzero
    rw [cons_append, cons_append, readLabel, if_neg nonzero.1, ih nonzero.2]
    rfl

theorem EncodesInfo.read {payload : List UInt8} {i : ExportInfo} (encodes : EncodesInfo payload i)
    (State : NodeState) {rest : List UInt8} (cur : State.Current = payload ++ rest)
    (fresh : State.Other = 0 ∧ State.ImportName = none) :
    ∃ State', State.readInfo = some State' ∧ State'.IsExportNode = State.IsExportNode ∧
      ∀ name, State'.export name = i.export name := by
  rw [NodeState.readInfo, cur]
  cases encodes with
  | regular encodesFlags encodesAddress own single =>
    simp only [append_assoc, encodesFlags.decode, encodesAddress.decode, bind_some]
    rw [if_neg (not_not_intro own), if_neg (not_not_intro single)]
    refine ⟨_, rfl, rfl, fun name => ?_⟩
    simp [NodeState.export, ExportInfo.export, fresh]
  | resolver encodesFlags encodesAddress encodesOther own stub =>
    simp only [append_assoc, encodesFlags.decode, encodesAddress.decode,
      encodesOther.decode, bind_some]
    rw [if_neg (not_not_intro own), if_pos stub]
    refine ⟨_, rfl, rfl, fun name => ?_⟩
    simp [NodeState.export, ExportInfo.export, fresh]
  | reexport encodesFlags encodesOrdinal encodesName again =>
    simp only [append_assoc, encodesFlags.decode, encodesOrdinal.decode, bind_some]
    rw [if_pos again]
    refine ⟨_, rfl, rfl, fun name => ?_⟩
    simp [NodeState.export, ExportInfo.export, encodesName.read]

theorem EncodesInfo.ne_nil {payload : List UInt8} {i : ExportInfo}
    (encodes : EncodesInfo payload i) : payload ≠ [] := by
  intro empty
  cases encodes with
  | regular encodesFlags =>
    exact encodesFlags.terminated.ne_nil (by simp_all)
  | resolver encodesFlags =>
    exact encodesFlags.terminated.ne_nil (by simp_all)
  | reexport encodesFlags =>
    exact encodesFlags.terminated.ne_nil (by simp_all)

/-- The frame is at the first edge of the node. -/
inductive Fresh (Trie : List UInt8) (f : Frame) : ExportNode -> Prop where
  | node {info : Option ExportInfo} {edges : ExportEdges} (first : f.state.NextChildIndex = 0)
      (counted : f.state.ChildCount = edges.length)
      (isExport : f.state.IsExportNode = info.isSome)
      (reports : ∀ i ∈ info, f.state.export f.name = i.export f.name)
      (encodes : EncodesEdges Trie f.state.Current edges) : Fresh Trie f (.node info edges)

theorem EncodesNode.read {node : ExportNode} (encodes : EncodesNode Trie offset node)
    (name : List UInt8) :
    ∃ State, NodeState.read Trie offset name.length = some State ∧
      Fresh Trie ⟨name, State⟩ node := by
  rcases encodes with ⟨bytes, encodesSize, exact, encodesInfo, noInfo, counted, encodesEdges⟩
  rename_i size info edges sizeBytes payload rest count
  have behind : (payload ++ count :: rest).drop size.toNat = count :: rest := by
    rw [exact, drop_left]
  rw [NodeState.read, bytes, append_assoc, encodesSize.decode, bind_some]
  dsimp only
  rw [behind]
  cases info with
  | none =>
    have zero : size = 0 := by
      rw [noInfo rfl] at exact
      exact UInt64.toNat_inj.mp exact
    rw [zero, if_neg (by decide)]
    exact ⟨_, rfl, ⟨rfl, counted, rfl, fun i mem => (by cases mem), encodesEdges⟩⟩
  | some i =>
    have nonzero : size ≠ 0 := by
      rintro rfl
      exact (encodesInfo i rfl).ne_nil (length_eq_zero_iff.mp exact.symm)
    rw [if_pos (decide_eq_true nonzero)]
    let Start := NodeState.new offset.toNat (payload ++ count :: rest)
    rcases (encodesInfo i rfl).read { Start with IsExportNode := size ≠ 0 } rfl ⟨rfl, rfl⟩ with
      ⟨State, read, isExport, reports⟩
    dsimp only [Start] at read
    rw [read]
    refine ⟨_, rfl, ⟨rfl, counted, isExport.trans (decide_eq_true nonzero), ?_, encodesEdges⟩⟩
    rintro i' ⟨⟩
    exact reports name

/-! ## Walking a tree -/

/-- What a frame itself reports. -/
def Frame.own (f : Frame) : List Export :=
  if f.state.IsExportNode then [f.state.export f.name] else []

theorem Walk.finish {exports : List Export} (done : ¬ f.More) (walk : Walk Trie fs exports) :
    Walk Trie (f :: fs) (f.own ++ exports) := by
  rw [Frame.own]
  cases isExport : f.state.IsExportNode with
  | true => exact Walk.report done isExport walk
  | false => exact Walk.leave done isExport walk

theorem Fresh.own {info : Option ExportInfo} {edges : ExportEdges}
    (fresh : Fresh Trie f (.node info edges)) :
    f.own = (info.map (ExportInfo.export f.name)).toList := by
  rcases fresh with ⟨-, -, isExport, reports, -⟩
  rw [Frame.own, isExport]
  cases info with
  | none => rfl
  | some i => rw [reports i rfl]; rfl

theorem Fresh.bottomed {node : ExportNode} (fresh : Fresh Trie f node)
    (wf : node.WellFormed) : f.Bottomed := by
  rcases fresh with ⟨first, counted, isExport, -, -⟩
  rename_i info edges
  rw [ExportNode.WellFormed] at wf
  cases edges with
  | nil => exact .inr (isExport.trans (wf.1 rfl))
  | cons label child edges =>
    refine .inl ?_
    rw [Frame.More, first, counted]
    exact Nat.succ_pos _

mutual

theorem walk_node (node : ExportNode) {f : Frame} {fs : List Frame} {exports : List Export}
    (fresh : Fresh Trie f node) (wf : node.WellFormed) (walk : Walk Trie fs exports) :
    Walk Trie (f :: fs) (node.exports f.name ++ exports) := by
  match node, fresh with
  | .node info edges, fresh =>
    have own := fresh.own
    rcases fresh with ⟨first, counted, -, -, encodes⟩
    rw [ExportNode.exports, <- own, append_assoc]
    rw [ExportNode.WellFormed] at wf
    exact walk_edges edges (by rw [first, counted, zero_add]) encodes wf.2 walk

theorem walk_edges (edges : ExportEdges) {f : Frame} {fs : List Frame} {exports : List Export}
    (remaining : f.state.NextChildIndex + edges.length = f.state.ChildCount) (encodes : EncodesEdges
    Trie f.state.Current edges) (wf : edges.WellFormed) (walk : Walk Trie fs exports) :
    Walk Trie (f :: fs) (edges.exports f.name ++ (f.own ++ exports)) := by
  match edges, encodes with
  | .nil, _ =>
    have done : ¬ f.More := (Nat.add_zero _ ▸ remaining).not_lt
    exact walk.finish done
  | .cons label child edges, encodes =>
    have more : f.More := by
      rw [Frame.More, <- remaining]
      exact Nat.lt_add_of_pos_right (Nat.succ_pos _)
    rw [ExportEdges.WellFormed] at wf
    generalize cur : f.state.Current = bytes at encodes
    rcases encodes with _ | ⟨encodesLabel, encodesOffset, encodesChild, encodesEdges⟩
    rename_i labelBytes offsetBytes rest offset
    rcases encodesChild.read (f.name ++ label) with ⟨State, read, fresh⟩
    let next : Frame :=
      ⟨f.name, { f.state with Current := rest, NextChildIndex := f.state.NextChildIndex + 1 }⟩
    have descends : f.child Trie = some (next, ⟨f.name ++ label, State⟩) := by
      rw [Frame.child, cur, append_assoc, encodesLabel.read, bind_some]
      dsimp only
      rw [encodesOffset.decode, bind_some]
      dsimp only
      rw [read]
      rfl
    have counted : next.state.NextChildIndex + edges.length = next.state.ChildCount := by
      rw [<- show f.state.ChildCount = next.state.ChildCount from rfl, <- remaining,
        ExportEdges.length, Nat.add_comm edges.length, <- Nat.add_assoc]
    have others := walk_edges edges counted encodesEdges wf.2 walk
    rw [ExportEdges.exports, append_assoc]
    apply Walk.descend more descends (fresh.bottomed wf.1)
    exact walk_node child fresh wf.1 others

end

/-- A trie is empty, or every node has children or terminal information. -/
def ExportNode.WellFormedTrie (root : ExportNode) : Prop := root = .node none .nil ∨ root.WellFormed

/-- The iteration over an encoded trie reports its exports. -/
theorem exports_complete {Trie : List UInt8} {root : ExportNode}
    (encodes : EncodesNode Trie 0 root) (wf : root.WellFormedTrie) :
    ∃ fuel e, ExportEntry.start fuel Trie = some e ∧ e.Yields (root.exports []) := by
  have some : Trie ≠ [] := by
    rintro rfl
    rcases encodes with ⟨bytes, -⟩
    exact absurd bytes (by simp)
  rcases encodes.read [] with ⟨State, read, fresh⟩
  rw [start_yields_iff some]
  refine ⟨State, read, ?_⟩
  rcases wf with rfl | wf
  · rcases fresh with ⟨first, counted, isExport, -, -⟩
    have done : ¬ Frame.More ⟨[], State⟩ := by
      rw [Frame.More, first, counted]
      exact lt_irrefl 0
    exact Walk.leave done isExport Walk.done
  · have walk := walk_node root fresh wf Walk.done
    rwa [append_nil] at walk

theorem EncodesULEB128.byte {n : UInt8} (small : n.toNat < 128) :
    EncodesULEB128 [n] (UInt64.ofNat n.toNat) where
  terminated := small
  short := Nat.one_le_ofNat
  value := by
    rw [LEB128.groups, LEB128.groups, Nat.mod_eq_of_lt small]
    rfl

theorem EncodesInfo.byte {n : UInt8} (small : n.toNat < 128) :
    EncodesInfo [0, n] (.regular 0 (UInt64.ofNat n.toNat)) := by
  have flags : EncodesULEB128 [0] 0 := EncodesULEB128.byte (by decide)
  exact EncodesInfo.regular flags (EncodesULEB128.byte small) rfl rfl

/-- Two exports, one a prefix of the other, below a root without information. -/
theorem exports_complete_prefix : ∃ fuel e,
    ExportEntry.start fuel
      [0, 1, 0x5f, 0x61, 0, 6, 2, 0, 0x10, 1, 0x62, 0, 13, 2, 0, 0x20, 0] = some e ∧
    e.Yields [⟨[0x5f, 0x61, 0x62], 0, 0x20, 0, some []⟩, ⟨[0x5f, 0x61], 0, 0x10, 0, some []⟩] := by
  let Trie : List UInt8 := [0, 1, 0x5f, 0x61, 0, 6, 2, 0, 0x10, 1, 0x62, 0, 13, 2, 0, 0x20, 0]
  let long := ExportNode.node (some (.regular 0 0x20)) .nil
  let short := ExportNode.node (some (.regular 0 0x10)) (.cons [0x62] long .nil)
  have encodesLong : EncodesNode Trie 13 long := by
    have bytes : Trie.drop (13 : UInt64).toNat = [2] ++ [0, 0x20] ++ 0 :: [] := rfl
    refine .node bytes (EncodesULEB128.byte (by decide)) rfl ?_ nofun rfl .nil
    rintro i ⟨⟩
    exact EncodesInfo.byte (by decide)
  have encodesShort : EncodesNode Trie 6 short := by
    have bytes : Trie.drop (6 : UInt64).toNat =
        [2] ++ [0, 0x10] ++ 1 :: ([0x62, 0] ++ [13] ++ [2, 0, 0x20, 0]) := rfl
    refine .node bytes (EncodesULEB128.byte (by decide)) rfl ?_ nofun rfl
      (.cons ⟨rfl, by simp⟩ (EncodesULEB128.byte (by decide)) encodesLong .nil)
    rintro i ⟨⟩
    exact EncodesInfo.byte (by decide)
  have encodesRoot : EncodesNode Trie 0 (.node none (.cons [0x5f, 0x61] short .nil)) := by
    have bytes : Trie.drop (0 : UInt64).toNat =
        [0] ++ [] ++ 1 :: ([0x5f, 0x61, 0] ++ [6] ++ Trie.drop 6) := rfl
    exact .node bytes (EncodesULEB128.byte (by decide)) rfl nofun (fun _ => rfl) rfl
      (.cons ⟨rfl, by simp⟩ (EncodesULEB128.byte (by decide)) encodesShort .nil)
  refine exports_complete encodesRoot (.inr ?_)
  simp [ExportNode.WellFormed, ExportEdges.WellFormed, short, long]

end MachO
end LlvmProject
