import LlvmProject.Library.LinkSegment
import Mathlib.Algebra.Order.Ring.Nat
import Mathlib.Data.Finset.Card

namespace LlvmProject
namespace FoldingSet

/-!
# Folding sets

A hash table whose chains go through the nodes themselves.  The last node of a
chain points back to the bucket, and a tag tells such a pointer from one to a
node, so that a node can be taken out without its hash.  An unused bucket is
null, and the entry after the last bucket has all bits set, which ends every
iteration.

Nodes are their addresses.  A node's profile does not change, and what computes
it and its hash are parameters.  Reading outside the array, a failed assertion
and a loop that does not end give no result: a walk that takes more steps than
there are nodes has entered a cycle.
-/

/-- A `void *`: null, a node, a tagged pointer to a bucket, or `-1`. -/
inductive Ptr (N : Type) where
  | null
  | node (n : N)
  | bucket (i : Nat)
  | allOnes
  deriving DecidableEq

/-- What a folding set is instantiated with. -/
structure Traits (N ID : Type) where
  profile : N -> ID
  ComputeHash : ID -> Nat

structure FoldingSetImpl (N : Type) where
  Buckets : List (Ptr N)
  NumBuckets : Nat
  NumNodes : Nat
  nextInBucket : N -> Ptr N

variable {N ID : Type}

/-- The low bit of a tagged pointer is set. -/
def GetNextPtr : Ptr N -> Option N
  | .node n => some n
  | _ => none

def GetBucketPtr : Ptr N -> Option Nat
  | .bucket i => some i
  | _ => none

/-- The number of buckets is a power of two. -/
def GetBucketFor (Hash NumBuckets : Nat) : Nat := Hash &&& (NumBuckets - 1)

def AllocateBuckets (NumBuckets : Nat) : List (Ptr N) :=
  List.replicate NumBuckets .null ++ [.allOnes]

/-- The constructor. -/
def FoldingSetImpl.new (Log2InitSize : Nat) : FoldingSetImpl N where
  Buckets := AllocateBuckets (1 <<< Log2InitSize)
  NumBuckets := 1 <<< Log2InitSize
  NumNodes := 0
  nextInBucket := fun _ => .null

namespace FoldingSetImpl

section Operations

variable [DecidableEq N] (t : Traits N ID)

def SetNextInBucket (s : FoldingSetImpl N) (n : N) (p : Ptr N) : FoldingSetImpl N :=
  { s with nextInBucket := Function.update s.nextInBucket n p }

def setBucket (s : FoldingSetImpl N) (i : Nat) (p : Ptr N) : FoldingSetImpl N :=
  { s with Buckets := s.Buckets.set i p }

@[simp] theorem SetNextInBucket_next (s : FoldingSetImpl N) (n : N) (p : Ptr N) :
    (s.SetNextInBucket n p).nextInBucket = Function.update s.nextInBucket n p := rfl

omit [DecidableEq N] in
@[simp] theorem setBucket_next (s : FoldingSetImpl N) (i : Nat) (p : Ptr N) :
    (s.setBucket i p).nextInBucket = s.nextInBucket := rfl

def bucketOf (s : FoldingSetImpl N) (n : N) : Nat :=
  GetBucketFor (t.ComputeHash (t.profile n)) s.NumBuckets

/-! ## Lookup -/

/-- The loop of `FindNodeOrInsertPos`. -/
def findIn [DecidableEq ID] (s : FoldingSetImpl N) (id : ID) : Nat -> Ptr N -> Option (Option N)
  | 0, _ => none
  | steps + 1, Probe =>
    match GetNextPtr Probe with
    | some NodeInBucket =>
      if t.profile NodeInBucket = id then some (some NodeInBucket)
      else findIn s id steps (s.nextInBucket NodeInBucket)
    | none => some none

/-- The node with the profile, or the bucket to insert one at. -/
def FindNodeOrInsertPos [DecidableEq ID] (s : FoldingSetImpl N) (id : ID) :
    Option (Option N × Nat) := do
  let Bucket := GetBucketFor (t.ComputeHash id) s.NumBuckets
  let Probe <- s.Buckets[Bucket]?
  let found <- findIn t s id (s.NumNodes + 1) Probe
  some (found, Bucket)

/-! ## Insertion -/

/-- `InsertNode` after a possible growth. -/
def linkAt (s : FoldingSetImpl N) (n : N) (InsertPos : Nat) : Option (FoldingSetImpl N) := do
  let Next <- s.Buckets[InsertPos]?
  let Next := if Next = .null then .bucket InsertPos else Next
  let counted := { s with NumNodes := (s.NumNodes + 1) % 2 ^ 32 }
  some ((counted.SetNextInBucket n Next).setBucket InsertPos (.node n))

section Growth

variable (insert : FoldingSetImpl N -> N -> Nat -> Option (FoldingSetImpl N))

/-- The loop over the nodes of an old bucket. -/
def rehashFrom : Nat -> FoldingSetImpl N -> Ptr N -> Option (FoldingSetImpl N)
  | 0, _, _ => none
  | steps + 1, s, Probe =>
    match GetNextPtr Probe with
    | some NodeInBucket => do
      let unlinked := s.SetNextInBucket NodeInBucket .null
      let s' <- insert unlinked NodeInBucket (unlinked.bucketOf t NodeInBucket)
      rehashFrom steps s' (s.nextInBucket NodeInBucket)
    | none => some s

/-- `insert` is `InsertNode`, which may call this function. -/
def GrowHashTable (s : FoldingSetImpl N) : Option (FoldingSetImpl N) :=
  let NumBuckets := s.NumBuckets * 2 % 2 ^ 32
  let cleared := { s with Buckets := AllocateBuckets NumBuckets, NumBuckets, NumNodes := 0 }
  (s.Buckets.take s.NumBuckets).foldlM (fun grown Probe =>
    if Probe = .null then some grown else rehashFrom t insert (s.NumNodes + 1) grown Probe) cleared

end Growth

/-- `InsertNode` with at most so many growths inside each other. -/
def insertWithin : Nat -> FoldingSetImpl N -> N -> Nat -> Option (FoldingSetImpl N)
  | 0, _, _, _ => none
  | growths + 1, s, n, InsertPos =>
    if s.nextInBucket n ≠ .null then none
    else if s.NumBuckets * 2 % 2 ^ 32 < (s.NumNodes + 1) % 2 ^ 32 then do
      let grown <- GrowHashTable t (insertWithin growths) s
      grown.linkAt n (grown.bucketOf t n)
    else s.linkAt n InsertPos

/-- The insertions of a growth do not grow the table again. -/
def InsertNode (s : FoldingSetImpl N) (n : N) (InsertPos : Nat) : Option (FoldingSetImpl N) :=
  insertWithin t 2 s n InsertPos

def GetOrInsertNode [DecidableEq ID] (s : FoldingSetImpl N) (n : N) :
    Option (N × FoldingSetImpl N) := do
  let (found, InsertPos) <- FindNodeOrInsertPos t s (t.profile n)
  match found with
  | some e => some (e, s)
  | none => do
    let s' <- InsertNode t s n InsertPos
    some (n, s')

/-! ## Removal -/

/-- The chase around the circle for what points to the node. -/
def unlinkFrom (s : FoldingSetImpl N) (n : N) (NodeNextPtr : Ptr N) :
    Nat -> Ptr N -> Option (FoldingSetImpl N)
  | 0, _ => none
  | steps + 1, p =>
    match GetNextPtr p with
    | some NodeInBucket =>
      if s.nextInBucket NodeInBucket = .node n then
        some (s.SetNextInBucket NodeInBucket NodeNextPtr)
      else unlinkFrom s n NodeNextPtr steps (s.nextInBucket NodeInBucket)
    | none => do
      let Bucket <- GetBucketPtr p
      let first <- s.Buckets[Bucket]?
      if first = .node n then some (s.setBucket Bucket NodeNextPtr)
      else unlinkFrom s n NodeNextPtr steps first

def RemoveNode (s : FoldingSetImpl N) (n : N) : Option (Bool × FoldingSetImpl N) :=
  let p := s.nextInBucket n
  if p = .null then some (false, s)
  else do
    let counted := { s with NumNodes := (s.NumNodes + 2 ^ 32 - 1) % 2 ^ 32 }
    let s' <- unlinkFrom (counted.SetNextInBucket n .null) n p (s.NumNodes + 1) p
    some (true, s')

end Operations

/-! ## Iteration -/

/-- The first bucket that is neither unused nor emptied, or the end. -/
def skipBuckets : List (Ptr N) -> Option (Ptr N)
  | [] => none
  | p :: rest => if p matches .allOnes then some p else
      if (GetNextPtr p).isSome then some p else skipBuckets rest

def iteratorAt (s : FoldingSetImpl N) (Bucket : Nat) : Option (Ptr N) :=
  skipBuckets (s.Buckets.drop Bucket)

def advance (s : FoldingSetImpl N) (n : N) : Option (Ptr N) :=
  let Probe := s.nextInBucket n
  match GetNextPtr Probe with
  | some NextNodeInBucket => some (.node NextNodeInBucket)
  | none => do
    let Bucket <- GetBucketPtr Probe
    s.iteratorAt (Bucket + 1)

/-- The nodes from a position to the end. -/
def visit (s : FoldingSetImpl N) [DecidableEq N] (last : Ptr N) : Nat -> Ptr N -> Option (List N)
  | 0, _ => none
  | steps + 1, NodePtr =>
    if NodePtr = last then some []
    else do
      let n <- GetNextPtr NodePtr
      let NodePtr <- s.advance n
      let rest <- visit s last steps NodePtr
      some (n :: rest)

/-- `for (I = begin(), E = end(); I != E; ++I)`. -/
def nodes [DecidableEq N] (s : FoldingSetImpl N) : Option (List N) := do
  let first <- s.iteratorAt 0
  let last <- s.iteratorAt s.NumBuckets
  s.visit last (s.NumNodes + 1) first

end FoldingSetImpl
end FoldingSet
end LlvmProject

namespace LlvmProject

open List Function

namespace FoldingSet

open LinkSegment

/-!
## Chains

The entry of a bucket is null or starts a segment that ends at the bucket.  The
segments of different buckets have no node in common, and every node of the set
is in the segment of the bucket for its hash.
-/

variable {N ID : Type} {t : Traits N ID} {s s' : FoldingSetImpl N}
variable {there : Finset N} {chain : Nat -> List N} {next : N -> Ptr N} {p : Ptr N} {n : N}
variable {l : List N} {b : Nat}

/-! ## Invariant -/

/-- The entry of a bucket and the nodes in its chain. -/
def Chained (next : N -> Ptr N) (b : Nat) (p : Ptr N) (l : List N) : Prop :=
  p = .null ∧ l = [] ∨ Segment Ptr.node next p l (.bucket b)

structure Sized (s : FoldingSetImpl N) : Prop where
  power : ∃ k, s.NumBuckets = 2 ^ k
  bound : s.NumBuckets < 2 ^ 31
  length : s.Buckets.length = s.NumBuckets + 1
  last : s.Buckets[s.NumBuckets]? = some .allOnes

/-- The table holds the nodes that are present, in the given chains. -/
structure Table (t : Traits N ID) (s : FoldingSetImpl N) (there : Finset N)
    (chain : Nat -> List N) : Prop where
  sized : Sized s
  chained : ∀ b < s.NumBuckets, ∃ p, s.Buckets[b]? = some p ∧ Chained s.nextInBucket b p (chain b)
  nodup : ∀ b < s.NumBuckets, (chain b).Nodup
  mem : ∀ b < s.NumBuckets, ∀ n, n ∈ chain b ↔ n ∈ there ∧ s.bucketOf t n = b
  count : s.NumNodes = there.card

/-- A node outside the set has no link. -/
def Free (s : FoldingSetImpl N) (there : Finset N) : Prop := ∀ n ∉ there, s.nextInBucket n = .null

theorem GetBucketFor_lt (sized : Sized s) (Hash : Nat) :
    GetBucketFor Hash s.NumBuckets < s.NumBuckets := by
  rcases sized.power with ⟨k, power⟩
  rw [GetBucketFor, power, Nat.and_two_pow_sub_one_eq_mod]
  exact Nat.mod_lt _ (Nat.two_pow_pos k)

theorem bucketOf_lt (sized : Sized s) (n : N) : s.bucketOf t n < s.NumBuckets :=
  GetBucketFor_lt sized _

theorem Chained.congr (chained : Chained s.nextInBucket b p l)
    (same : ∀ a ∈ l, s'.nextInBucket a = s.nextInBucket a) :
    Chained s'.nextInBucket b p l :=
  chained.imp_right fun segment => segment.congr same

/-- The nodes of a chain have links. -/
theorem link_ne_null (segment : Segment Ptr.node next p l (.bucket b)) (member : n ∈ l) :
    next n ≠ .null := by
  rcases segment.next_eq member with link | ⟨a, -, link⟩
  · exact link ▸ nofun
  · exact link ▸ nofun

theorem Table.update {there' : Finset N} {l' : List N} (table : Table t s there chain)
    (buckets : s'.NumBuckets = s.NumBuckets) (length : s'.Buckets.length = s.Buckets.length)
    (inside : b < s.NumBuckets) (others : ∀ c, c ≠ b -> s'.Buckets[c]? = s.Buckets[c]?)
    (links : ∀ a, s.bucketOf t a ≠ b -> a ∈ there -> s'.nextInBucket a = s.nextInBucket a)
    (here : ∃ p, s'.Buckets[b]? = some p ∧ Chained s'.nextInBucket b p l')
    (nodup : l'.Nodup) (mem : ∀ n, n ∈ l' ↔ n ∈ there' ∧ s.bucketOf t n = b) (memElse : ∀ n,
    s.bucketOf t n ≠ b -> (n ∈ there' ↔ n ∈ there)) (count : s'.NumNodes = there'.card) :
    Table t s' there' (Function.update chain b l') := by
  have bucketOf : ∀ n, s'.bucketOf t n = s.bucketOf t n := fun n => by
    rw [FoldingSetImpl.bucketOf, buckets]
    rfl
  refine ⟨⟨buckets ▸ table.sized.power, buckets ▸ table.sized.bound, ?_, ?_⟩, ?_, ?_, ?_, count⟩
  · rw [length, buckets, table.sized.length]
  · rw [buckets, others _ inside.ne', table.sized.last]
  · intro c bound
    by_cases same : c = b
    · subst same
      rw [update_self]
      exact here
    · rw [buckets] at bound
      rw [update_of_ne same]
      rcases table.chained c bound with ⟨p, entry, chained⟩
      refine ⟨p, (others c same).trans entry, chained.congr fun a member => ?_⟩
      have facts := (table.mem c bound a).mp member
      exact links a (fun here => same (facts.2.symm.trans here)) facts.1
  · intro c bound
    by_cases same : c = b
    · subst same
      rwa [update_self]
    · rw [update_of_ne same]
      exact table.nodup c (buckets ▸ bound)
  · intro c bound n
    rw [bucketOf]
    by_cases same : c = b
    · subst same
      rw [update_self]
      exact mem n
    · rw [update_of_ne same, table.mem c (buckets ▸ bound) n]
      apply and_congr_left
      intro here
      exact (memElse n fun other => same (here.symm.trans other)).symm

/-! ## The empty table -/

theorem allocated_null {NumBuckets : Nat} (inside : b < NumBuckets) :
    (AllocateBuckets NumBuckets : List (Ptr N))[b]? = some .null := by
  rw [AllocateBuckets, getElem?_append_left (by simpa using inside)]
  simp [inside]

theorem allocated_last (NumBuckets : Nat) :
    (AllocateBuckets NumBuckets : List (Ptr N))[NumBuckets]? = some .allOnes := by
  rw [AllocateBuckets, getElem?_append_right (by simp)]
  simp

theorem Table.empty (power : ∃ k, s.NumBuckets = 2 ^ k) (bound : s.NumBuckets < 2 ^ 31)
    (fresh : s.Buckets = AllocateBuckets s.NumBuckets) (count : s.NumNodes = 0) :
    Table t s ∅ fun _ => [] where
  sized := ⟨power, bound, by rw [fresh]; simp [AllocateBuckets],
    by rw [fresh]; exact allocated_last s.NumBuckets⟩
  chained := fun b inside => ⟨.null, by rw [fresh]; exact allocated_null inside, .inl ⟨rfl, rfl⟩⟩
  nodup := fun _ _ => nodup_nil
  mem := by simp
  count := count

/-! ## All nodes -/

section

variable (table : Table t s there chain)
include table

theorem Table.mem_flatMap : n ∈ (List.range s.NumBuckets).flatMap chain ↔ n ∈ there := by
  rw [List.mem_flatMap]
  constructor
  · rintro ⟨b, bound, member⟩
    exact ((table.mem b (mem_range.mp bound) n).mp member).1
  · intro member
    have bound := bucketOf_lt (t := t) table.sized n
    exact ⟨_, mem_range.mpr bound, (table.mem _ bound n).mpr ⟨member, rfl⟩⟩

theorem Table.nodup_flatMap : ((List.range s.NumBuckets).flatMap chain).Nodup := by
  rw [List.nodup_flatMap]
  refine ⟨fun b bound => table.nodup b (mem_range.mp bound), ?_⟩
  apply List.Nodup.pairwise_of_forall_ne nodup_range
  intro b bound c boundToo differ n member memberToo
  have first := (table.mem b (mem_range.mp bound) n).mp member
  have second := (table.mem c (mem_range.mp boundToo) n).mp memberToo
  exact differ (first.2.symm.trans second.2)

theorem Table.toFinset_flatMap [DecidableEq N] :
    ((List.range s.NumBuckets).flatMap chain).toFinset = there := by
  ext n
  rw [List.mem_toFinset, table.mem_flatMap]

theorem Table.length_flatMap : ((List.range s.NumBuckets).flatMap chain).length = s.NumNodes := by
  classical
  rw [table.count, <- table.toFinset_flatMap, toFinset_card_of_nodup table.nodup_flatMap]

theorem Table.length_chain_le (inside : b < s.NumBuckets) : (chain b).length <= s.NumNodes := by
  classical
  rw [table.count, <- toFinset_card_of_nodup (table.nodup b inside)]
  apply Finset.card_le_card
  intro n member
  exact ((table.mem b inside n).mp (List.mem_toFinset.mp member)).1

end

/-! ## Lookup -/

variable [DecidableEq ID]

theorem findIn_eq {id : ID} (segment : Segment Ptr.node s.nextInBucket p l (.bucket b))
    {steps : Nat} (enough : l.length < steps) :
    s.findIn t id steps p = some (l.find? fun n => t.profile n = id) := by
  induction l generalizing p steps with
  | nil =>
    cases steps with
    | zero => exact nomatch enough
    | succ steps =>
      cases (show p = .bucket b from segment)
      rfl
  | cons n l ih =>
    cases steps with
    | zero => exact nomatch enough
    | succ steps =>
      rcases segment with ⟨rfl, rest⟩
      have tail := ih rest (Nat.lt_of_succ_lt_succ enough)
      show (if t.profile n = id then some (some n) else _) = _
      by_cases same : t.profile n = id
      · simp [same]
      · simp [same, tail]

section

variable (table : Table t s there chain)
include table

theorem Table.find (id : ID) :
    s.FindNodeOrInsertPos t id =
      some ((chain (GetBucketFor (t.ComputeHash id) s.NumBuckets)).find?
        (fun n => t.profile n = id), GetBucketFor (t.ComputeHash id) s.NumBuckets) := by
  have inside := GetBucketFor_lt table.sized (t.ComputeHash id)
  rcases table.chained _ inside with ⟨p, entry, chained⟩
  have enough := Nat.lt_succ_of_le (table.length_chain_le inside)
  have found : s.findIn t id (s.NumNodes + 1) p =
      some ((chain (GetBucketFor (t.ComputeHash id) s.NumBuckets)).find?
        fun n => t.profile n = id) := by
    rcases chained with ⟨rfl, empty⟩ | segment
    · rw [empty]
      rfl
    · exact findIn_eq segment enough
  rw [FoldingSetImpl.FindNodeOrInsertPos, entry]
  simp only [Option.bind_eq_bind, Option.bind_some, found]

/-- Lookup finds a node exactly if one with the profile is present. -/
theorem Table.find_some {id : ID}
    (found : (chain (GetBucketFor (t.ComputeHash id) s.NumBuckets)).find?
      (fun n => t.profile n = id) = some n) : n ∈ there ∧ t.profile n = id := by
  have member := mem_of_find?_eq_some found
  exact ⟨((table.mem _ (GetBucketFor_lt table.sized _) n).mp member).1,
    by simpa using find?_some found⟩

theorem Table.find_none {id : ID}
    (absent : (chain (GetBucketFor (t.ComputeHash id) s.NumBuckets)).find?
      (fun n => t.profile n = id) = none) : ∀ n ∈ there, t.profile n ≠ id := by
  intro n member same
  have inside := bucketOf_lt (t := t) table.sized n
  have chained := (table.mem _ inside n).mpr ⟨member, rfl⟩
  rw [FoldingSetImpl.bucketOf, same] at chained
  exact find?_eq_none.mp absent n chained (decide_eq_true same)

end

end FoldingSet
end LlvmProject
