import Mathlib.Data.BitVec

namespace LlvmProject
namespace LowerSwitch

/-!
# Lowering of switch instructions

A switch instruction is rewritten to a balanced tree of comparisons.  Cases
with adjacent values and one successor become a cluster, and the bounds that
were checked before are used to leave out comparisons.  If the default block is
unreachable its place is taken by the most popular successor.

A function is the list of its basic blocks.  A PHI node is the list of its
incoming blocks and values.  Of a block's instructions only the PHI nodes and
the terminator matter, and whether others are there.  An assertion that fails
has no result.
-/

/-- A 64-bit signed number. -/
def int64 (x : Int) : Int := x.bmod (2 ^ 64)

def INT64_MIN : Int := -2 ^ 63

def INT64_MAX : Int := 2 ^ 63 - 1

structure IntRange where
  Low : Int
  High : Int
  deriving DecidableEq

/-- Return true iff a range is covered by ranges, which must be sorted,
non-overlapping and non-adjacent. -/
def IsInRanges (R : IntRange) (Ranges : List IntRange) : Bool :=
  match Ranges.find? fun A => !decide (A.High < R.High) with
  | none => false
  | some I => decide (I.Low <= R.Low)

/-! ## Functions -/

/-- A switch on a number of some width.  The case values are different, and the
operands, two for the condition and the default and two for each case, are
counted in 32 bits. -/
structure SwitchInst (L : Type) (W : Nat) where
  cases : List (BitVec W × L)
  defaultDest : L
  distinct : (cases.map Prod.fst).Nodup
  numOperands : 2 + 2 * cases.length < 2 ^ 32
  width : 0 < W ∧ W <= 64

inductive Predicate
  | ICMP_SLT
  | ICMP_EQ
  | ICMP_SLE
  | ICMP_ULE
  deriving DecidableEq

/-- A comparison of the value, or of its sum with a constant, with a
constant. -/
structure ICmpInst (W : Nat) where
  predicate : Predicate
  addend : Option (BitVec W)
  rhs : BitVec W
  deriving DecidableEq

def ICmpInst.eval {W : Nat} (Comp : ICmpInst W) (Val : BitVec W) : Bool :=
  let lhs := match Comp.addend with
    | none => Val
    | some addend => Val + addend
  match Comp.predicate with
  | .ICMP_SLT => lhs.slt Comp.rhs
  | .ICMP_EQ => lhs == Comp.rhs
  | .ICMP_SLE => lhs.sle Comp.rhs
  | .ICMP_ULE => lhs.ule Comp.rhs

/-- The terminators the pass reads or writes, and all others with their
successors. -/
inductive Terminator (L : Type) (W : Nat)
  | switch (SI : SwitchInst L W)
  | br (dest : L)
  | condBr (Comp : ICmpInst W) (ifTrue ifFalse : L)
  | unreachable
  | other (successors : List L)

structure Block (L V : Type) (W : Nat) where
  PHIs : List (List (L × V))
  hasInstructions : Bool
  terminator : Terminator L W

/-- The basic blocks with their labels. -/
structure Function (L V : Type) (W : Nat) where
  blocks : List (L × Block L V W)

section Functions

variable {L L' V : Type} {W : Nat}

namespace SwitchInst

/-- The successors, one for each edge. -/
def successors (SI : SwitchInst L W) : List L := SI.defaultDest :: SI.cases.map Prod.snd

/-- The block that the switch branches to. -/
def successor (SI : SwitchInst L W) (Val : BitVec W) : L :=
  ((SI.cases.find? fun c => decide (c.1 = Val)).map Prod.snd).getD SI.defaultDest

def map (f : L -> L') (SI : SwitchInst L W) : SwitchInst L' W where
  cases := SI.cases.map fun c => (c.1, f c.2)
  defaultDest := f SI.defaultDest
  distinct := by simpa [Function.comp_def] using SI.distinct
  numOperands := by simpa using SI.numOperands
  width := SI.width

end SwitchInst

namespace Terminator

def successors : Terminator L W -> List L
  | switch SI => SI.successors
  | br dest => [dest]
  | condBr _ ifTrue ifFalse => [ifTrue, ifFalse]
  | unreachable => []
  | other successors => successors

/-- The next block of a branch, for a value of the condition. -/
def follow (Val : BitVec W) : Terminator L W -> Option L
  | br dest => some dest
  | condBr Comp ifTrue ifFalse => some (if Comp.eval Val then ifTrue else ifFalse)
  | _ => none

def map (f : L -> L') : Terminator L W -> Terminator L' W
  | switch SI => switch (SI.map f)
  | br dest => br (f dest)
  | condBr Comp ifTrue ifFalse => condBr Comp (f ifTrue) (f ifFalse)
  | unreachable => unreachable
  | other successors => other (successors.map f)

def isUnreachable : Terminator L W -> Bool
  | unreachable => true
  | _ => false

end Terminator

def Block.map (f : L -> L') (block : Block L V W) : Block L' V W where
  PHIs := block.PHIs.map fun PN => PN.map fun incoming => (f incoming.1, incoming.2)
  hasInstructions := block.hasInstructions
  terminator := block.terminator.map f

/-- The first instruction that is not a PHI node is unreachable. -/
def Block.startsUnreachable (block : Block L V W) : Bool :=
  !block.hasInstructions && block.terminator.isUnreachable

def Function.map (f : L -> L') (F : Function L V W) : Function L' V W where
  blocks := F.blocks.map fun entry => (f entry.1, entry.2.map f)

variable [DecidableEq L]

namespace Function

def block (F : Function L V W) (BB : L) : Option (Block L V W) :=
  (F.blocks.find? fun entry => decide (entry.1 = BB)).map Prod.snd

/-- Insert a block without PHI nodes. -/
def insert (F : Function L V W) (BB : L) (hasInstructions : Bool) (terminator : Terminator L W) :
    Function L V W :=
  ⟨(BB, ⟨[], hasInstructions, terminator⟩) :: F.blocks⟩

def setTerminator (F : Function L V W) (BB : L) (terminator : Terminator L W) : Function L V W :=
  ⟨F.blocks.map fun entry =>
    if entry.1 = BB then (entry.1, { entry.2 with terminator := terminator }) else entry⟩

/-- Change all PHI nodes of a block. -/
def updatePHIs (F : Function L V W) (BB : L) (update : List (L × V) -> Option (List (L × V))) :
    Option (Function L V W) := do
  let blocks <- F.blocks.mapM fun entry =>
    if entry.1 = BB then do
      let PHIs <- entry.2.PHIs.mapM update
      return (entry.1, { entry.2 with PHIs := PHIs })
    else return entry
  return ⟨blocks⟩

/-- No block has an edge to this one. -/
def hasNoPredecessors (F : Function L V W) (BB : L) : Bool :=
  F.blocks.all fun entry => decide (BB ∉ entry.2.terminator.successors)

/-- Delete a block without predecessors and successors. -/
def DeleteDeadBlock (F : Function L V W) (BB : L) : Option (Function L V W) := do
  let block <- F.block BB
  if block.terminator.successors.isEmpty then
    return ⟨F.blocks.filter fun entry => decide (entry.1 ≠ BB)⟩
  else none

end Function

/-! ## PHI nodes -/

/-- Set the first incoming block that is `OrigBlock`. -/
def setIncomingBlock (OrigBlock NewBlock : L) : List (L × V) -> Option (List (L × V))
  | [] => none
  | incoming :: PN =>
    if incoming.1 = OrigBlock then some ((NewBlock, incoming.2) :: PN)
    else (setIncomingBlock OrigBlock NewBlock PN).map (incoming :: ·)

/-- Remove the first incoming value from a block. -/
def removeIncomingValue (BB : L) : List (L × V) -> Option (List (L × V))
  | [] => none
  | incoming :: PN =>
    if incoming.1 = BB then some PN else (removeIncomingValue BB PN).map (incoming :: ·)

/-- Remove a number of incoming values from a block, one after the other. -/
def removeIncomingValues (BB : L) : Nat -> List (L × V) -> Option (List (L × V))
  | 0, PN => some PN
  | n + 1, PN => (removeIncomingValue BB PN).bind (removeIncomingValues BB n)

/-- Remove the next occurrences, as many as there are up to a number. -/
def removeOccurrences (OrigBB : L) : Nat -> List (L × V) -> List (L × V)
  | 0, PN => PN
  | _, [] => []
  | n + 1, incoming :: PN =>
    if incoming.1 = OrigBB then removeOccurrences OrigBB n PN
    else incoming :: removeOccurrences OrigBB (n + 1) PN

/-- Update the first occurrence of the "switch statement" block in the PHI node
with the "new" one, and remove additional occurrences coming from condensed
cases. -/
def fixPhi (OrigBB NewBB : L) (NumMergedCases : Nat) : List (L × V) -> List (L × V)
  | [] => []
  | incoming :: PN =>
    if incoming.1 = OrigBB then (NewBB, incoming.2) :: removeOccurrences OrigBB NumMergedCases PN
    else incoming :: fixPhi OrigBB NewBB NumMergedCases PN

def fixPhis (F : Function L V W) (SuccBB OrigBB NewBB : L) (NumMergedCases : Nat) :
    Option (Function L V W) :=
  F.updatePHIs SuccBB fun PN => some (fixPhi OrigBB NewBB NumMergedCases PN)

end Functions

/-! ## Clusters -/

/-- A cluster of cases. -/
structure CaseRange (L : Type) (W : Nat) where
  Low : BitVec W
  High : BitVec W
  BB : L
  deriving DecidableEq

section Clusters

variable {L : Type} [DecidableEq L] {W : Nat}

/-- The comparison function for sorting the switch case values. -/
def CaseCmp (C1 C2 : CaseRange L W) : Bool := C1.Low.slt C2.High

/-- Merge neighboring cases that go to the same destination. -/
def mergeCases (I : CaseRange L W) : List (CaseRange L W) -> List (CaseRange L W)
  | [] => [I]
  | J :: rest =>
    if int64 (J.Low.toInt - I.High.toInt) = 1 ∧ I.BB = J.BB then
      mergeCases { I with High := J.High } rest
    else I :: mergeCases J rest

/-- The number of compares.  A range counts double. -/
def numCmps (Cases : List (CaseRange L W)) : Nat :=
  (Cases.map fun I => if I.Low ≠ I.High then 2 else 1).sum

/-- Transform the simple list of cases into clusters. -/
def Clusterify (SI : SwitchInst L W) : List (CaseRange L W) × Nat :=
  let Cases := SI.cases.map fun c => (⟨c.1, c.1, c.2⟩ : CaseRange L W)
  let Cases := Cases.insertionSort fun C1 C2 => ¬ CaseCmp C2 C1 = true
  let Cases := match Cases with
    | [] => []
    | I :: rest => mergeCases I rest
  (Cases, numCmps Cases)

/-- The ranges between the clusters, after the ranges found so far. -/
def unreachableRangesFrom (UnreachableRanges : List IntRange) :
    List (CaseRange L W) -> Option (List IntRange)
  | [] => some UnreachableRanges
  | I :: Cases => do
    let Low := I.Low.toInt
    let High := I.High.toInt
    let LastRange <- UnreachableRanges.getLast?
    let UnreachableRanges <-
      -- There may be nothing left of the previous range.
      if LastRange.Low = Low then some UnreachableRanges.dropLast
      else if Low > LastRange.Low then
        some (UnreachableRanges.dropLast ++ [⟨LastRange.Low, int64 (Low - 1)⟩])
      else none
    let UnreachableRanges :=
      if High ≠ INT64_MAX then UnreachableRanges ++ [⟨int64 (High + 1), INT64_MAX⟩]
      else UnreachableRanges
    unreachableRangesFrom UnreachableRanges Cases

/-- The ranges no case value is in. -/
def unreachableRanges (Cases : List (CaseRange L W)) : Option (List IntRange) :=
  unreachableRangesFrom [⟨INT64_MIN, INT64_MAX⟩] Cases

/-- Count popularity, after the counts so far. -/
def popularSuccessorFrom (Popularity : L -> Nat) (MaxPop : Nat) (PopSucc : Option L) :
    List (CaseRange L W) -> Option L
  | [] => PopSucc
  | I :: Cases =>
    let N := int64 (I.High.toInt - I.Low.toInt + 1)
    let Pop := ((Popularity I.BB + N) % 2 ^ 32).toNat
    let Popularity := fun BB => if BB = I.BB then Pop else Popularity BB
    if Pop > MaxPop then popularSuccessorFrom Popularity Pop (some I.BB) Cases
    else popularSuccessorFrom Popularity MaxPop PopSucc Cases

/-- The most popular block. -/
def popularSuccessor (Cases : List (CaseRange L W)) : Option L :=
  popularSuccessorFrom (fun _ => 0) 0 none Cases

end Clusters

/-! ## The tree -/

/-- The blocks of the function and the blocks that are created, by their place
in the tree. -/
inductive Label (B : Type)
  | block (BB : B)
  | NewDefault
  | NodeBlock (path : List Bool)
  | LeafBlock (path : List Bool)
  deriving DecidableEq

section Tree

variable {B V : Type} [DecidableEq B] {W : Nat}

/-- The comparison of a leaf block. -/
def leafComparison (Leaf : CaseRange (Label B) W) : ICmpInst W :=
  if Leaf.Low = Leaf.High then ⟨.ICMP_EQ, none, Leaf.Low⟩
  -- `Val >= Min && Val <= Hi` is `Val <= Hi`.
  else if Leaf.Low = BitVec.intMin W then ⟨.ICMP_SLE, none, Leaf.High⟩
  -- `Val >= 0 && Val <= Hi` is `Val <=u Hi`.
  else if Leaf.Low = 0 then ⟨.ICMP_ULE, none, Leaf.High⟩
  else
    let NegLo := -Leaf.Low
    ⟨.ICMP_ULE, some NegLo, NegLo + Leaf.High⟩

/-- Create a new leaf block.  It checks if the value is in the range of the
cluster.  If not, then it jumps to the default branch. -/
def newLeafBlock (path : List Bool) (OrigBlock Default : Label B) (Leaf : CaseRange (Label B) W)
    (F : Function (Label B) V W) : Option (Label B × Function (Label B) V W) := do
  let NewLeaf := Label.LeafBlock path
  let F := F.insert NewLeaf true (.condBr (leafComparison Leaf) Leaf.BB Default)
  -- Remove all but one incoming entries from the cluster.
  let Range := ((Leaf.High.toInt - Leaf.Low.toInt) % 2 ^ 64).toNat
  let F <- F.updatePHIs Leaf.BB fun PN => do
    let PN <- removeIncomingValues OrigBlock Range PN
    setIncomingBlock OrigBlock NewLeaf PN
  return (NewLeaf, F)

/-- Convert the switch statement into a binary lookup of the case values.  The
function recursively builds this tree.  The bounds keep track of what has
already been checked. -/
def switchConvert (OrigBlock Default : Label B) (UnreachableRanges : List IntRange)
    (path : List Bool) (LowerBound UpperBound : Option (BitVec W)) (Predecessor : Label B)
    (Cases : List (CaseRange (Label B) W)) (F : Function (Label B) V W) :
    Option (Label B × Function (Label B) V W) :=
  match Cases with
  | [] => none
  | [Begin] =>
    -- The cluster may be squeezed in between already checked bounds.
    if LowerBound = some Begin.Low ∧ UpperBound = some Begin.High then do
      let NumMergedCases := ((Begin.High.toInt - Begin.Low.toInt) % 2 ^ 32).toNat
      let F <- fixPhis F Begin.BB OrigBlock Predecessor NumMergedCases
      return (Begin.BB, F)
    else newLeafBlock path OrigBlock Default Begin F
  | first :: second :: rest => do
    let Cases := first :: second :: rest
    let Mid := Cases.length / 2
    let LHS := Cases.take Mid
    let RHS := Cases.drop Mid
    let Pivot <- Cases[Mid]?
    let Last <- LHS.getLast?
    let NewLowerBound := Pivot.Low
    -- The gap between the highest of the left side and the pivot may be unreachable.
    let Gap : IntRange := ⟨int64 (Last.High.toInt + 1), int64 (NewLowerBound.toInt - 1)⟩
    let NewUpperBound :=
      if !UnreachableRanges.isEmpty && decide (Gap.High >= Gap.Low) &&
          IsInRanges Gap UnreachableRanges then Last.High
      else NewLowerBound - 1
    let NewNode := Label.NodeBlock path
    let (LBranch, F) <- switchConvert OrigBlock Default UnreachableRanges (path ++ [false])
      LowerBound (some NewUpperBound) NewNode LHS F
    let (RBranch, F) <- switchConvert OrigBlock Default UnreachableRanges (path ++ [true])
      (some NewLowerBound) UpperBound NewNode RHS F
    return (NewNode, F.insert NewNode true (.condBr ⟨.ICMP_SLT, none, Pivot.Low⟩ LBranch RBranch))
termination_by Cases.length
decreasing_by
  · simp only [List.length_take, List.length_cons]
    omega
  · simp only [List.length_drop, List.length_cons]
    omega

/-- The end of `processSwitchInst`, for the clusters that are left. -/
def lowerCases (OrigBlock OldDefault Default : Label B) (LowerBound UpperBound : Option (BitVec W))
    (UnreachableRanges : List IntRange) (Cases : List (CaseRange (Label B) W))
    (F : Function (Label B) V W) : Option (Function (Label B) V W) := do
  let F := F.insert .NewDefault false (.br Default)
  -- The entry in the PHI nodes for the default edge.
  let F <- F.updatePHIs Default fun PN => setIncomingBlock OrigBlock .NewDefault PN
  let (SwitchBlock, F) <- switchConvert OrigBlock .NewDefault UnreachableRanges [] LowerBound
    UpperBound OrigBlock Cases F
  let F := F.setTerminator OrigBlock (.br SwitchBlock)
  if F.hasNoPredecessors OldDefault then F.DeleteDeadBlock OldDefault else return F

/-- Replace the switch instruction of a block with a sequence of chained if-then
instructions in a balanced binary search. -/
def processSwitchInst (F : Function B V W) (CurBlock : B) :
    Option (Function (Label B) V W) := do
  let F := F.map Label.block
  let OrigBlock := Label.block CurBlock
  match (<- F.block OrigBlock).terminator with
  | .switch SI =>
    let Default := SI.defaultDest
    -- If there is only the default destination, just branch.
    if SI.cases.isEmpty then return F.setTerminator OrigBlock (.br Default)
    let (Cases, _) := Clusterify SI
    if (<- F.block Default).startsUnreachable then
      let LowerBound := Cases.head?.map CaseRange.Low
      let UpperBound := Cases.getLast?.map CaseRange.High
      let UnreachableRanges <- unreachableRanges Cases
      -- Use the most popular block as the new default.
      let PopSucc <- popularSuccessor Cases
      let Cases := Cases.filter fun I => decide (I.BB ≠ PopSucc)
      -- If there are no cases left, just branch.
      if Cases.isEmpty then return F.setTerminator OrigBlock (.br PopSucc)
      lowerCases OrigBlock Default PopSucc LowerBound UpperBound UnreachableRanges Cases F
    else lowerCases OrigBlock Default Default none none [] Cases F
  | _ => none

end Tree

/-! ## Control flow and PHI nodes -/

section Properties

variable {L V : Type} [DecidableEq L] {W : Nat}

namespace Function

/-- The number of edges from one block to another. -/
def edges (F : Function L V W) (P BB : L) : Nat :=
  (F.blocks.map fun entry =>
    if entry.1 = P then entry.2.terminator.successors.count BB else 0).sum

/-- Each PHI node has exactly one incoming entry for each incoming edge. -/
def Consistent (F : Function L V W) : Prop :=
  ∀ entry ∈ F.blocks, ∀ PN ∈ entry.2.PHIs, ∀ P,
    PN.countP (fun incoming => decide (incoming.1 = P)) = F.edges P entry.1

/-- A well-formed function: labels are different, successors are blocks, and
the PHI nodes are consistent. -/
structure WellFormed (F : Function L V W) : Prop where
  nodup : (F.blocks.map Prod.fst).Nodup
  closed : ∀ entry ∈ F.blocks, ∀ BB ∈ entry.2.terminator.successors, ∃ block, (BB, block) ∈ F.blocks
  consistent : F.Consistent

end Function

/-- The created blocks lead from a block to a block of the function, for a value
of the condition. -/
inductive Leads {B : Type} [DecidableEq B] (F : Function (Label B) V W) (Val : BitVec W) :
    Label B -> B -> Prop
  | arrive (BB : B) : Leads F Val (.block BB) BB
  | step {BB next : Label B} {last : B} {block : Block (Label B) V W}
      (created : ∀ b, BB ≠ .block b) (found : F.block BB = some block)
      (followed : block.terminator.follow Val = some next) (rest : Leads F Val next last) :
      Leads F Val BB last

end Properties

end LowerSwitch
end LlvmProject
