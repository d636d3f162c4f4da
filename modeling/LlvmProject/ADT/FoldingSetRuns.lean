import LlvmProject.ADT.FoldingSetUpdate

namespace LlvmProject

open List

namespace FoldingSet

open LinkSegment

/-!
# Runs

Whatever is inserted and removed, the chains hold what was inserted and not
removed since, lookups and removals answer accordingly, and an iteration visits
the chains one after the other.
-/

variable {N ID : Type} {t : Traits N ID} {s s' : FoldingSetImpl N}
variable {there : Finset N} {chain : Nat -> List N} {n : N} {b : Nat}

/-! ## Iteration -/

/-- The nodes in the buckets from one on. -/
def nodesFrom (s : FoldingSetImpl N) (chain : Nat -> List N) (b : Nat) : List N :=
  (range' b (s.NumBuckets - b)).flatMap chain

/-- The iterator at the first of the remaining nodes. -/
def place : List N -> Ptr N
  | [] => .allOnes
  | n :: _ => .node n

theorem nodesFrom_of_lt (inside : b < s.NumBuckets) :
    nodesFrom s chain b = chain b ++ nodesFrom s chain (b + 1) := by
  rw [nodesFrom, show s.NumBuckets - b = s.NumBuckets - (b + 1) + 1 by omega, range'_succ,
    flatMap_cons]
  rfl

theorem nodesFrom_zero : nodesFrom s chain 0 = (range s.NumBuckets).flatMap chain := by
  rw [nodesFrom, Nat.sub_zero, range_eq_range']

section

variable (table : Table t s there chain)
include table

theorem Table.iteratorAt (bound : b <= s.NumBuckets) :
    s.iteratorAt b = some (place (nodesFrom s chain b)) := by
  induction rest : s.NumBuckets - b generalizing b with
  | zero =>
    have last : b = s.NumBuckets := by omega
    have here := table.sized.last
    rcases List.getElem?_eq_some_iff.mp here with ⟨inside, same⟩
    rw [last, FoldingSetImpl.iteratorAt, drop_eq_getElem_cons inside, same, nodesFrom, Nat.sub_self]
    rfl
  | succ rest ih =>
    have inside : b < s.NumBuckets := by omega
    have next := ih (b := b + 1) (by omega) (by omega)
    rcases table.chained b inside with ⟨p, entry, chained⟩
    rcases List.getElem?_eq_some_iff.mp entry with ⟨fits, same⟩
    rw [FoldingSetImpl.iteratorAt, drop_eq_getElem_cons fits, same, nodesFrom_of_lt inside]
    rcases chained with ⟨rfl, empty⟩ | segment
    · rw [empty]
      exact next
    · cases here : chain b with
      | nil =>
        rw [here] at segment
        cases (show p = .bucket b from segment)
        exact next
      | cons n l =>
        rw [here] at segment
        cases segment.1
        rfl

theorem Table.advance {before after : List N}
    (split : (range s.NumBuckets).flatMap chain = before ++ n :: after) :
    s.advance n = some (place after) := by
  have nodup := table.nodup_flatMap
  have mem : n ∈ there := table.mem_flatMap.mp (by rw [split]; simp)
  have inside := bucketOf_lt (t := t) table.sized n
  have here := (table.mem _ inside n).mpr ⟨mem, rfl⟩
  rcases append_of_mem here with ⟨l, r, same⟩
  -- the nodes of the earlier buckets, of this one and of the later ones
  have whole : (range s.NumBuckets).flatMap chain =
      ((range (s.bucketOf t n)).flatMap chain ++ l) ++
        n :: (r ++ nodesFrom s chain (s.bucketOf t n + 1)) := by
    have ranges : range s.NumBuckets = range (s.bucketOf t n) ++
        range' (s.bucketOf t n) (s.NumBuckets - s.bucketOf t n) := by
      have sum := Nat.add_sub_cancel' inside.le
      rw [range_eq_range', range_eq_range']
      nth_rewrite 1 [<- sum]
      rw [<- range'_append_1, zero_add]
    rw [ranges, flatMap_append, <- nodesFrom, nodesFrom_of_lt inside, same]
    simp
  have later : after = r ++ nodesFrom s chain (s.bucketOf t n + 1) := by
    rw [split] at whole nodup
    have apart := nodup
    rw [nodup_append, nodup_cons] at apart
    have notBefore : n ∉ before := fun twice => apart.2.2 n twice n mem_cons_self rfl
    exact ((append_cons_inj_of_notMem notBefore apart.2.1.1).mp whole).2.2
  rcases table.chained _ inside with ⟨p, entry, empty | segment⟩
  · rw [empty.2] at here
    exact nomatch here
  · rw [same] at segment
    rcases segment_append.mp segment with ⟨_, -, -, rest⟩
    rw [later]
    cases r with
    | nil =>
      have link : s.nextInBucket n = .bucket (s.bucketOf t n) := rest
      rw [FoldingSetImpl.advance, link]
      exact table.iteratorAt inside
    | cons a r =>
      rw [FoldingSetImpl.advance, rest.1]
      rfl

theorem Table.visit [DecidableEq N] {before after : List N}
    (split : (range s.NumBuckets).flatMap chain = before ++ after) {steps : Nat}
    (enough : after.length < steps) : s.visit .allOnes steps (place after) = some after := by
  induction after generalizing before steps with
  | nil =>
    cases steps with
    | zero => exact nomatch enough
    | succ steps => rfl
  | cons n after ih =>
    cases steps with
    | zero => exact nomatch enough
    | succ steps =>
      have splitRest : (range s.NumBuckets).flatMap chain = (before ++ [n]) ++ after := by
        rw [split, append_assoc, singleton_append]
      have rest := ih splitRest (Nat.lt_of_succ_lt_succ enough)
      show (s.advance n).bind (fun NodePtr => _) = _
      rw [table.advance split, Option.bind_some, rest]
      rfl

/-- An iteration visits the chains one after the other. -/
theorem Table.nodes [DecidableEq N] : s.nodes = some ((range s.NumBuckets).flatMap chain) := by
  have last : nodesFrom s chain s.NumBuckets = [] := by
    rw [nodesFrom, Nat.sub_self]
    rfl
  rw [FoldingSetImpl.nodes, table.iteratorAt (Nat.zero_le _), table.iteratorAt le_rfl, last,
    nodesFrom_zero]
  have enough : ((range s.NumBuckets).flatMap chain).length < s.NumNodes + 1 :=
    table.length_flatMap ▸ Nat.lt_succ_self _
  exact table.visit (nil_append _).symm enough

end

/-! ## Operations -/

variable [DecidableEq ID]

/-- A node that a lookup finds has the profile, and nothing is found only if no
node has it. -/
def Finds (t : Traits N ID) (there : Finset N) (id : ID) : Option N -> Prop
  | some e => e ∈ there ∧ t.profile e = id
  | none => ∀ m ∈ there, t.profile m ≠ id

theorem Table.finds (table : Table t s there chain) (id : ID) :
    ∃ found, s.FindNodeOrInsertPos t id =
        some (found, GetBucketFor (t.ComputeHash id) s.NumBuckets) ∧ Finds t there id found := by
  refine ⟨_, table.find id, ?_⟩
  cases found : (chain (GetBucketFor (t.ComputeHash id) s.NumBuckets)).find?
    (fun n => t.profile n = id) with
  | none => exact table.find_none found
  | some e => exact table.find_some found

inductive Op (N ID : Type) where
  | GetOrInsertNode (n : N)
  /-- `FindNodeOrInsertPos` and, if nothing is found, `InsertNode` at its position. -/
  | InsertNode (n : N)
  | RemoveNode (n : N)
  | FindNodeOrInsertPos (id : ID)

inductive Result (N : Type) where
  | node (found : Option N)
  | removed (found : Bool)
  deriving DecidableEq

variable [DecidableEq N]

def perform (t : Traits N ID) (s : FoldingSetImpl N) :
    Op N ID -> Option (Result N × FoldingSetImpl N)
  | .GetOrInsertNode n => do
    let (e, s') <- s.GetOrInsertNode t n
    some (.node (some e), s')
  | .InsertNode n => do
    let (found, InsertPos) <- s.FindNodeOrInsertPos t (t.profile n)
    match found with
    | some e => some (.node (some e), s)
    | none => do
      let s' <- s.InsertNode t n InsertPos
      some (.node none, s')
  | .RemoveNode n => do
    let (found, s') <- s.RemoveNode n
    some (.removed found, s')
  | .FindNodeOrInsertPos id => do
    let (found, _) <- s.FindNodeOrInsertPos t id
    some (.node found, s)

/-- The nodes that are inserted and not removed, by what an operation returned. -/
def after (there : Finset N) : Op N ID -> Result N -> Finset N
  | .GetOrInsertNode n, .node (some e) => if e = n then insert n there else there
  | .InsertNode n, .node none => insert n there
  | .RemoveNode n, _ => there.erase n
  | _, _ => there

/-- An insertion that makes the table grow leaves it below `2 ^ 31` buckets. -/
def Fits (s : FoldingSetImpl N) : Op N ID -> Prop
  | .GetOrInsertNode _ | .InsertNode _ =>
    s.NumNodes = s.NumBuckets * 2 -> s.NumBuckets * 2 < 2 ^ 31
  | _ => True

/-- The states that operations lead to, with the nodes that are present. -/
inductive Reachable (t : Traits N ID) : FoldingSetImpl N -> Finset N -> Prop where
  | new (Log2InitSize : Nat) (large : 5 < Log2InitSize) (small : Log2InitSize < 31) :
      Reachable t (FoldingSetImpl.new Log2InitSize) ∅
  | step {s s' : FoldingSetImpl N} {there : Finset N} {op : Op N ID} {r : Result N}
      (reachable : Reachable t s there) (fits : Fits s op)
      (performed : perform t s op = some (r, s')) : Reachable t s' (after there op r)

def Answers (t : Traits N ID) (there : Finset N) : Op N ID -> Result N -> Prop
  | .GetOrInsertNode n, .node (some e) => Finds t there (t.profile n) (some e) ∨
      e = n ∧ Finds t there (t.profile n) none
  | .InsertNode n, .node found => Finds t there (t.profile n) found
  | .RemoveNode n, .removed found => found = decide (n ∈ there)
  | .FindNodeOrInsertPos id, .node found => Finds t there id found
  | _, _ => False

/-- What holds in every reachable state. -/
structure Invariant (t : Traits N ID) (s : FoldingSetImpl N) (there : Finset N) : Prop where
  table : ∃ chain, Table t s there chain
  free : ∀ n ∉ there, s.nextInBucket n = .null
  loaded : s.NumNodes <= s.NumBuckets * 2

omit [DecidableEq N] [DecidableEq ID] in
theorem Invariant.new {Log2InitSize : Nat} (small : Log2InitSize < 31) :
    Invariant t (FoldingSetImpl.new Log2InitSize : FoldingSetImpl N) ∅ where
  table := by
    have power : 1 <<< Log2InitSize = 2 ^ Log2InitSize := Nat.one_shiftLeft _
    have bound : 2 ^ Log2InitSize < 2 ^ 31 := Nat.pow_lt_pow_right (by omega) small
    exact ⟨_, Table.empty ⟨_, power⟩ (power.trans_lt bound) rfl rfl⟩
  free := fun _ _ => rfl
  loaded := Nat.zero_le _

omit [DecidableEq ID] in
theorem Invariant.inserted (invariant : Invariant t s there) (missing : Finds t
    there (t.profile n) none) (fits : s.NumNodes = s.NumBuckets * 2 -> s.NumBuckets * 2 < 2 ^ 31) :
    ∃ s', s.InsertNode t n (s.bucketOf t n) = some s' ∧ Invariant t s' (insert n there) := by
  have absent : n ∉ there := fun mem => missing n mem rfl
  rcases invariant.table with ⟨chain, table⟩
  rcases table.insertNode (invariant.free n absent) absent invariant.loaded fits with
    ⟨s', chain', inserted, table', loaded, links⟩
  refine ⟨s', inserted, ⟨chain', table'⟩, fun m outside => ?_, loaded⟩
  rw [Finset.mem_insert, not_or] at outside
  exact (links m outside.1 outside.2).trans (invariant.free m outside.2)

omit [DecidableEq ID] in
theorem Invariant.removed (invariant : Invariant t s there) (n : N) :
    ∃ s', s.RemoveNode n = some (decide (n ∈ there), s') ∧ Invariant t s' (there.erase n) := by
  by_cases mem : n ∈ there
  · rcases invariant.table with ⟨chain, table⟩
    have bound := table.sized.bound
    have loaded := invariant.loaded
    rcases table.remove mem (by omega) with ⟨s', chain', removed, table', sizes, cleared, links⟩
    refine ⟨s', by rw [removed, decide_eq_true mem], ⟨chain', table'⟩, ?_, ?_⟩
    · intro m outside
      by_cases same : m = n
      · rw [same, cleared]
      · have absent : m ∉ there := fun still => outside (Finset.mem_erase.mpr ⟨same, still⟩)
        exact (links m absent).trans (invariant.free m absent)
    · rw [table'.count, sizes]
      have fewer := Finset.card_erase_le (s := there) (a := n)
      have count := table.count
      omega
  · refine ⟨s, ?_, by rwa [Finset.erase_eq_of_notMem mem]⟩
    rw [FoldingSetImpl.RemoveNode, decide_eq_false mem]
    exact if_pos (invariant.free n mem)

/-- Every operation succeeds, answers rightly and keeps the invariant. -/
theorem Invariant.perform (invariant : Invariant t s there) (op : Op N ID) (fits : Fits s op) :
    ∃ r s', perform t s op = some (r, s') ∧ Answers t there op r ∧
      Invariant t s' (after there op r) := by
  rcases invariant.table with ⟨chain, table⟩
  match op with
  | .FindNodeOrInsertPos id =>
    rcases table.finds id with ⟨found, answer, finds⟩
    refine ⟨.node found, s, ?_, finds, invariant⟩
    rw [FoldingSet.perform, answer]
    rfl
  | .RemoveNode n =>
    rcases invariant.removed n with ⟨s', removed, kept⟩
    refine ⟨.removed (decide (n ∈ there)), s', ?_, rfl, kept⟩
    rw [FoldingSet.perform, removed]
    rfl
  | .GetOrInsertNode n =>
    rcases table.finds (t.profile n) with ⟨found, answer, finds⟩
    cases found with
    | some e =>
      refine ⟨.node (some e), s, ?_, .inl finds, ?_⟩
      · rw [FoldingSet.perform, FoldingSetImpl.GetOrInsertNode, answer]
        rfl
      · show Invariant t s (if e = n then insert n there else there)
        by_cases same : e = n
        · rwa [if_pos same, Finset.insert_eq_of_mem (same ▸ finds.1)]
        · rwa [if_neg same]
    | none =>
      rcases invariant.inserted finds fits with ⟨s', inserted, kept⟩
      refine ⟨.node (some n), s', ?_, .inr ⟨rfl, finds⟩, ?_⟩
      · rw [FoldingSet.perform, FoldingSetImpl.GetOrInsertNode, answer]
        show ((s.InsertNode t n (s.bucketOf t n)).bind _).bind _ = _
        rw [inserted]
        rfl
      · show Invariant t s' (if n = n then insert n there else there)
        rwa [if_pos rfl]
  | .InsertNode n =>
    rcases table.finds (t.profile n) with ⟨found, answer, finds⟩
    cases found with
    | some e =>
      refine ⟨.node (some e), s, ?_, finds, invariant⟩
      rw [FoldingSet.perform, answer]
      rfl
    | none =>
      rcases invariant.inserted finds fits with ⟨s', inserted, kept⟩
      refine ⟨.node none, s', ?_, finds, kept⟩
      rw [FoldingSet.perform, answer]
      show (s.InsertNode t n (s.bucketOf t n)).bind _ = _
      rw [inserted]
      rfl

theorem Reachable.invariant (reachable : Reachable t s there) : Invariant t s there := by
  induction reachable with
  | new Log2InitSize large small => exact Invariant.new small
  | @step s s' there op r _ fits performed ih =>
    rcases ih.perform op fits with ⟨r, s', again, -, kept⟩
    cases performed.symm.trans again
    exact kept

/-! ## Correctness -/

/-- What a user of the set relies on. -/
structure Correct (t : Traits N ID) (s : FoldingSetImpl N) (there : Finset N) : Prop where
  chains : ∀ b < s.NumBuckets, ∃ p l, s.Buckets[b]? = some p ∧ Chained s.nextInBucket b p l ∧
    l.Nodup ∧ ∀ n, n ∈ l ↔ n ∈ there ∧ s.bucketOf t n = b
  count : s.NumNodes = there.card
  operations : ∀ op, Fits s op -> ∃ r s', perform t s op = some (r, s') ∧ Answers t there op r
  iteration : ∃ visited, s.nodes = some visited ∧ visited.Nodup ∧ ∀ n, n ∈ visited ↔ n ∈ there

/-- In every state that insertions, removals and lookups lead to, the chains
hold the nodes that are present, the next operation ends and answers for them,
and an iteration visits each of them once. -/
theorem reachable_correct (t : Traits N ID) (s : FoldingSetImpl N) (there : Finset N)
    (reachable : Reachable t s there) : Correct t s there := by
  have invariant := reachable.invariant
  rcases invariant.table with ⟨chain, table⟩
  refine ⟨fun b inside => ?_, table.count, fun op fits => ?_, ?_⟩
  · rcases table.chained b inside with ⟨p, entry, chained⟩
    exact ⟨p, chain b, entry, chained, table.nodup b inside, table.mem b inside⟩
  · rcases invariant.perform op fits with ⟨r, s', performed, answers, -⟩
    exact ⟨r, s', performed, answers⟩
  · exact ⟨_, table.nodes, table.nodup_flatMap, fun n => table.mem_flatMap⟩

/-- Numbers that are their own profiles and hashes. -/
def numbers : Traits Nat Nat := ⟨id, id⟩

/-- Two nodes in one bucket, of which the one inserted first is removed again. -/
theorem reachable_correct_collision :
    ∃ s : FoldingSetImpl Nat, s.nodes = some [65] ∧ Correct numbers s {65} := by
  have start : Reachable numbers (FoldingSetImpl.new 6) ∅ := Reachable.new 6 (by decide) (by decide)
  have next : ∀ {s : FoldingSetImpl Nat} {there} (op : Op Nat Nat), Reachable numbers s there ->
      Fits s op -> (performs : (perform numbers s op).isSome = true) ->
      Reachable numbers ((perform numbers s op).get performs).2
        (after there op ((perform numbers s op).get performs).1) :=
    fun op reachable fits performs => reachable.step fits (Option.some_get performs).symm
  have one := next (.InsertNode 1) start (fun full => nomatch full) (by decide)
  have two := next (.InsertNode 65) one (fun full => absurd full (by decide)) (by decide)
  have three := next (.RemoveNode 1) two trivial (by decide)
  exact ⟨_, by decide, reachable_correct numbers _ _ three⟩

end FoldingSet
end LlvmProject
