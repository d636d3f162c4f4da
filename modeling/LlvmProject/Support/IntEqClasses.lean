import LlvmProject.Library.DescendingForest
import LlvmProject.Library.Runs

namespace LlvmProject

open List Option Nat

namespace IntEqClasses

/-!
# Equivalence classes of small integers

Every integer has an entry that is a smaller member of its class, or itself if
it is the smallest, the leader.  To join two classes both chains of entries are
walked down at once, and the entries passed on the larger side are moved to the
smaller side.  Compressing replaces the entries by the numbers of the classes,
in place, and uncompressing replaces these by the leaders.

An entry outside of the map and a failed assertion have no result.  The loops
have a bound on their steps that depends on the size of the map only; they end
before it is reached.
-/

open DescendingForest Relation

/-- The entries, and the number of classes of a compressed map. -/
structure Classes where
  EC : List Nat
  NumClasses : Nat
  deriving DecidableEq, Repr

/-- A map of no integers. -/
def empty : Classes := ⟨[], 0⟩

/-- Put the integers from the size of the map on into classes of their own. -/
def grow (N : Nat) (s : Classes) : Option Classes :=
  if s.NumClasses = 0 then
    some { s with EC := s.EC ++ (range (N - s.EC.length)).map (s.EC.length + ·) }
  else none

/-- Update entries while searching for the leaders. -/
def joinLoop : Nat -> List Nat -> Nat -> Nat -> Nat -> Nat -> Option (List Nat)
  | 0, _, _, _, _, _ => none
  | steps + 1, EC, a, b, eca, ecb =>
    if eca ≠ ecb then
      if eca < ecb then
        let EC := EC.set b eca
        EC[ecb]?.bind fun next => joinLoop steps EC a ecb eca next
      else
        let EC := EC.set a ecb
        EC[eca]?.bind fun next => joinLoop steps EC eca b next ecb
    else some EC

/-- Join the classes of two integers. -/
def join (a b : Nat) (s : Classes) : Option Classes :=
  if s.NumClasses = 0 then do
    let eca <- s.EC[a]?
    let ecb <- s.EC[b]?
    let EC <- joinLoop (4 * s.EC.length) s.EC a b eca ecb
    return { s with EC := EC }
  else none

/-- Follow the entries to the leader. -/
def findLeaderLoop : Nat -> List Nat -> Nat -> Option Nat
  | 0, _, _ => none
  | steps + 1, EC, a =>
    EC[a]?.bind fun next => if a ≠ next then findLeaderLoop steps EC next else some a

/-- The leader of the class of an integer. -/
def findLeader (s : Classes) (a : Nat) : Option Nat :=
  if s.NumClasses = 0 then findLeaderLoop s.EC.length s.EC a else none

/-- Number one entry, the ones in front of it being numbered. -/
def compressStep (s : Classes) (i : Nat) : Option Classes := do
  let ec <- s.EC[i]?
  if ec = i then return ⟨s.EC.set i s.NumClasses, s.NumClasses + 1⟩
  else
    let number <- s.EC[ec]?
    return { s with EC := s.EC.set i number }

/-- Number the classes. -/
def compress (s : Classes) : Option Classes :=
  if s.NumClasses ≠ 0 then some s
  else (range s.EC.length).foldlM compressStep s

/-- Replace the number of one entry by its leader, which is new or known. -/
def uncompressStep (s : List Nat × List Nat) (i : Nat) : Option (List Nat × List Nat) := do
  let (EC, Leader) := s
  let ec <- EC[i]?
  if ec < Leader.length then
    let leader <- Leader[ec]?
    return (EC.set i leader, Leader)
  else return (EC.set i i, Leader ++ [i])

/-- Go back to the uncompressed representation. -/
def uncompress (s : Classes) : Option Classes :=
  if s.NumClasses = 0 then some s
  else do
    let (EC, _) <- (range s.EC.length).foldlM uncompressStep (s.EC, [])
    return ⟨EC, 0⟩

/-! ## Entries as a forest -/

/-- The entry of an integer, or itself outside of the map. -/
def parent (EC : List Nat) (i : Nat) : Nat := EC.getD i i

variable {EC : List Nat} {a b i e : Nat}

theorem parent_eq (entry : EC[i]? = some e) : parent EC i = e := by
  rw [parent, getD_eq_getElem?_getD, entry, getD_some]

theorem parent_outside (outside : EC.length <= i) : parent EC i = i := by
  rw [parent, getD_eq_getElem?_getD, getElem?_eq_none outside, getD_none]

theorem getElem?_eq_parent (inside : i < EC.length) : EC[i]? = some (parent EC i) := by
  rw [parent, getD_eq_getElem?_getD, getElem?_eq_getElem inside, getD_some]

theorem parent_set (inside : b < EC.length) (e i : Nat) :
    parent (EC.set b e) i = if i = b then e else parent EC i := by
  rw [parent, parent, getD_eq_getElem?_getD, getD_eq_getElem?_getD, getElem?_set]
  by_cases here : b = i
  · rw [if_pos here, if_pos here.symm, if_pos (here ▸ inside), getD_some]
  · rw [if_neg here, if_neg (Ne.symm here)]

/-- No entry is larger than its integer. -/
def Descends (EC : List Nat) : Prop := ∀ i, parent EC i <= i

/-- The entries of a map as a forest. -/
def forest (descends : Descends EC) : Forest := ⟨parent EC, descends⟩

/-! ## Growing -/

theorem parent_grow (EC : List Nat) (N i : Nat) :
    parent (EC ++ (range N).map (EC.length + ·)) i = parent EC i := by
  by_cases inside : i < EC.length
  · rw [parent, parent, getD_eq_getElem?_getD, getElem?_append_left inside,
        <- getD_eq_getElem?_getD]
  · rw [not_lt] at inside
    rw [parent_outside inside, parent, getD_eq_getElem?_getD,
      getElem?_append_right inside, getElem?_map]
    by_cases new : i - EC.length < N
    · rw [getElem?_range new, map_some, getD_some]
      omega
    · rw [getElem?_eq_none (by rw [length_range]; omega), map_none, getD_none]

/-! ## Joining -/

/-- The loop ends, and it adds the pending link to the connections. -/
theorem joinLoop_spec (steps : Nat) (descends : Descends EC) (inA : a < EC.length)
    (inB : b < EC.length) (enough : a + b + parent EC a + parent EC b < steps) :
    ∃ EC', joinLoop steps EC a b (parent EC a) (parent EC b) = some EC' ∧
      EC'.length = EC.length ∧ ∃ descends' : Descends EC',
        ∀ x y, EqvGen (forest descends').Edge x y ↔ EqvGen ((forest descends).Linked a b) x y := by
  induction steps generalizing EC a b with
  | zero => exact absurd enough (not_lt_zero _)
  | succ steps ih =>
    rw [joinLoop]
    by_cases done : parent EC a = parent EC b
    · rw [if_neg (not_not.mpr done)]
      exact ⟨EC, rfl, rfl, descends, fun x y => (Forest.linked_of_same_parent done x y).symm⟩
    rw [if_pos done]
    have ne : a ≠ b := fun same => done (by rw [same])
    have belowA := descends a
    have belowB := descends b
    by_cases smaller : parent EC a < parent EC b
    · have changed := parent_set inB (parent EC a)
      have descends' : Descends (EC.set b (parent EC a)) := by
        intro i
        rw [changed]
        split_ifs with here
        · rw [here]
          exact smaller.le.trans belowB
        · exact descends i
      have length : (EC.set b (parent EC a)).length = EC.length := length_set ..
      have keptA : parent (EC.set b (parent EC a)) a = parent EC a := by
        rw [changed, if_neg ne]
      have nextBelow : parent (EC.set b (parent EC a)) (parent EC b) + parent EC b <
          b + parent EC b := by
        rw [changed]
        split_ifs with here
        · omega
        · have := descends (parent EC b)
          omega
      rcases ih descends' (length ▸ inA)
          (show parent EC b < (EC.set b (parent EC a)).length by omega) (by omega) with
        ⟨EC', run, length', descends'', connected⟩
      refine ⟨EC', ?_, length'.trans length, descends'', fun x y => ?_⟩
      · rw [if_pos smaller]
        simp only
        rw [getElem?_eq_parent (show parent EC b < (EC.set b (parent EC a)).length by omega),
          bind_some, <- run, keptA]
      · have relinked : ∀ i, (forest descends').parent i =
            if i = b then (forest descends).parent a else (forest descends).parent i := changed
        exact (connected x y).trans (Forest.linked_relink relinked ne x y).symm
    · have changed := parent_set inA (parent EC b)
      have larger : parent EC b < parent EC a := by omega
      have descends' : Descends (EC.set a (parent EC b)) := by
        intro i
        rw [changed]
        split_ifs with here
        · rw [here]
          exact larger.le.trans belowA
        · exact descends i
      have length : (EC.set a (parent EC b)).length = EC.length := length_set ..
      have keptB : parent (EC.set a (parent EC b)) b = parent EC b := by
        rw [changed, if_neg ne.symm]
      have nextBelow : parent (EC.set a (parent EC b)) (parent EC a) + parent EC a <
          a + parent EC a := by
        rw [changed]
        split_ifs with here
        · omega
        · have := descends (parent EC a)
          omega
      rcases ih descends'
          (show parent EC a < (EC.set a (parent EC b)).length by omega) (length ▸ inB)
          (by omega) with
        ⟨EC', run, length', descends'', connected⟩
      refine ⟨EC', ?_, length'.trans length, descends'', fun x y => ?_⟩
      · rw [if_neg smaller]
        simp only
        rw [getElem?_eq_parent (show parent EC a < (EC.set a (parent EC b)).length by omega),
          bind_some, <- run, keptB]
      · have relinked : ∀ i, (forest descends').parent i =
            if i = a then (forest descends).parent b else (forest descends).parent i := changed
        have moved := (Forest.linked_relink relinked ne.symm x y).symm
        exact (connected x y).trans ((Forest.linked_comm _ _ _ x y).trans
          (moved.trans (Forest.linked_comm _ _ _ x y)))

/-! ## Leaders -/

theorem findLeaderLoop_eq (steps : Nat) (descends : Descends EC) (inside : a < EC.length)
    (enough : a < steps) :
    findLeaderLoop steps EC a = some ((forest descends).root a) := by
  induction steps generalizing a with
  | zero => exact absurd enough (not_lt_zero _)
  | succ steps ih =>
    have below := descends a
    rw [findLeaderLoop, getElem?_eq_parent inside, bind_some]
    by_cases own : a = parent EC a
    · rw [if_neg (not_not.mpr own), Forest.root_of_eq (F := forest descends) own.symm]
    · rw [if_pos own, ih (by omega) (by omega)]
      exact congrArg some ((forest descends).root_parent a)

/-! ## Compressing -/

/-- The entries while the ones below `i` are numbered. -/
structure Numbered (F : Forest) (i : Nat) (s : Classes) : Prop where
  done : ∀ j, j < i -> s.EC[j]? = some (F.classNumber j)
  left : ∀ j, i <= j -> j < s.EC.length -> s.EC[j]? = some (F.parent j)
  count : s.NumClasses = Nat.count F.IsRoot i

variable {s : Classes}

theorem compressStep_numbered {F : Forest} (numbered : Numbered F i s) (inside : i < s.EC.length) :
    ∃ s', compressStep s i = some s' ∧ Numbered F (i + 1) s' ∧ s'.EC.length = s.EC.length := by
  have entry := numbered.left i (le_refl i) inside
  have others : ∀ {j : Nat} (value : Nat), j ≠ i -> (s.EC.set i value)[j]? = s.EC[j]? :=
    fun value ne => getElem?_set_ne ne.symm
  have number : ∀ value : Nat, value = F.classNumber i ->
      ∀ NumClasses, NumClasses = Nat.count F.IsRoot (i + 1) ->
        Numbered F (i + 1) ⟨s.EC.set i value, NumClasses⟩ := by
    intro value isNumber NumClasses counted
    refine ⟨fun j below => ?_, fun j above bound => ?_, counted⟩
    · rcases Nat.lt_succ_iff_lt_or_eq.mp below with smaller | rfl
      · exact (others value smaller.ne).trans (numbered.done j smaller)
      · exact isNumber ▸ getElem?_set_self inside
    · have bound : j < s.EC.length := lt_of_lt_of_eq bound length_set
      exact (others value (lt_of_succ_le above).ne').trans
        (numbered.left j (le_of_succ_le above) bound)
  rw [compressStep, entry, bind_eq_bind, bind_some]
  by_cases own : F.parent i = i
  · rw [if_pos own]
    refine ⟨_, rfl, number _ ?_ _ ?_, length_set⟩
    · rw [Forest.classNumber, Forest.root_of_eq own, numbered.count]
    · rw [numbered.count, count_succ, if_pos (show F.IsRoot i from own)]
  · have smaller : F.parent i < i := lt_of_le_of_ne (F.parent_le i) own
    rw [if_neg own, numbered.done _ smaller, bind_some, F.classNumber_parent]
    refine ⟨_, rfl, number _ rfl _ ?_, length_set⟩
    rw [numbered.count, count_succ, if_neg (show ¬F.IsRoot i from own), add_zero]

/-- All entries of a compressed map are the numbers of their classes. -/
theorem compress_spec (descends : Descends EC) :
    ∃ c, compress ⟨EC, 0⟩ = some c ∧ c.EC.length = EC.length ∧
      c.NumClasses = Nat.count (forest descends).IsRoot EC.length ∧
      ∀ a, a < EC.length -> c.EC[a]? = some ((forest descends).classNumber a) := by
  have start : Numbered (forest descends) 0 ⟨EC, 0⟩ ∧ EC.length = EC.length :=
    ⟨⟨fun j below => absurd below (not_lt_zero j), fun j _ bound => getElem?_eq_parent bound,
      rfl⟩, rfl⟩
  rcases Runs.foldlM_range compressStep
      (fun i s => Numbered (forest descends) i s ∧ s.EC.length = EC.length) EC.length start
      (fun i s below holds => by
        rcases compressStep_numbered holds.1 (holds.2 ▸ below) with ⟨s', run, numbered, length⟩
        exact ⟨s', run, numbered, length.trans holds.2⟩) with
    ⟨c, run, numbered, length⟩
  exact ⟨c, run, length, numbered.count, numbered.done⟩

/-! ## Uncompressing -/

/-- The entries while the ones below `i` are leaders again. -/
structure Uncompressed (F : Forest) (size i : Nat) (s : List Nat × List Nat) : Prop where
  length : s.1.length = size
  done : ∀ j, j < i -> s.1[j]? = some (F.root j)
  left : ∀ j, i <= j -> j < size -> s.1[j]? = some (F.classNumber j)
  leaders : s.2 = F.rootsBelow i

theorem uncompressStep_uncompressed {F : Forest} {s : List Nat × List Nat} {size : Nat}
    (uncompressed : Uncompressed F size i s) (inside : i < size) :
    ∃ s', uncompressStep s i = some s' ∧ Uncompressed F size (i + 1) s' := by
  rcases s with ⟨EC, Leader⟩
  have length : EC.length = size := uncompressed.length
  have entry : EC[i]? = some (F.classNumber i) := uncompressed.left i (le_refl i) inside
  have leaders : Leader = F.rootsBelow i := uncompressed.leaders
  have known : Leader.length = Nat.count F.IsRoot i := by rw [leaders, F.length_rootsBelow]
  have leader : ∀ Leader', Leader' = F.rootsBelow (i + 1) ->
      Uncompressed F size (i + 1) (EC.set i (F.root i), Leader') := by
    intro Leader' listed
    refine ⟨length_set.trans length, fun j below => ?_, fun j above bound => ?_, listed⟩
    · rcases Nat.lt_succ_iff_lt_or_eq.mp below with smaller | rfl
      · exact (getElem?_set_ne smaller.ne').trans (uncompressed.done j smaller)
      · exact getElem?_set_self (length ▸ inside)
    · exact (getElem?_set_ne (lt_of_succ_le above).ne).trans
        (uncompressed.left j (le_of_succ_le above) bound)
  rw [uncompressStep]
  simp only [entry, bind_eq_bind, bind_some]
  by_cases own : F.IsRoot i
  · have number : F.classNumber i = Leader.length := by
      rw [Forest.classNumber, Forest.root_of_eq own, known]
    rw [if_neg (by omega)]
    have same := leader (Leader ++ [i]) (by rw [F.rootsBelow_succ, if_pos own, leaders])
    rw [Forest.root_of_eq own] at same
    exact ⟨_, rfl, same⟩
  · have smaller : F.root i < i :=
      lt_of_le_of_ne (F.root_le i) fun same => own (same ▸ F.parent_root i)
    have number : F.classNumber i < Leader.length := by
      rw [known]
      exact count_strict_mono (F.parent_root i) smaller
    have found : Leader[F.classNumber i]? = some (F.root i) := by
      rw [leaders]
      exact Forest.getElem?_rootsBelow (F.parent_root i) smaller
    rw [if_pos number, found, bind_some]
    refine ⟨_, rfl, leader Leader ?_⟩
    rw [F.rootsBelow_succ, if_neg own, append_nil, leaders]

/-- Uncompressing what compressing made gives every integer its leader. -/
theorem uncompress_spec (descends : Descends EC) {c : Classes} (length : c.EC.length = EC.length)
    (count : c.NumClasses = Nat.count (forest descends).IsRoot EC.length)
    (numbers : ∀ a, a < EC.length -> c.EC[a]? = some ((forest descends).classNumber a)) :
    ∃ u, uncompress c = some u ∧ u.NumClasses = 0 ∧ u.EC.length = EC.length ∧
      ∀ a, a < EC.length -> u.EC[a]? = some ((forest descends).root a) := by
  rw [uncompress]
  by_cases none : c.NumClasses = 0
  · -- A map without classes has no integers.
    have empty : EC.length = 0 := by
      by_contra some_integer
      have pos : 0 < EC.length := Nat.pos_of_ne_zero some_integer
      have root : (forest descends).IsRoot 0 := le_zero.mp (descends 0)
      have counted := count_strict_mono root pos
      omega
    rw [if_pos none]
    exact ⟨c, rfl, none, length, fun a below => absurd below (by omega)⟩
  · have start : Uncompressed (forest descends) EC.length 0 (c.EC, []) :=
      ⟨length, fun j below => absurd below (not_lt_zero j), fun j _ bound => numbers j bound, rfl⟩
    rcases Runs.foldlM_range uncompressStep (Uncompressed (forest descends) EC.length) EC.length start
        (fun i s below holds => uncompressStep_uncompressed holds below) with
      ⟨⟨EC', Leader⟩, run, done⟩
    rw [if_neg none, length, run]
    exact ⟨⟨EC', 0⟩, rfl, rfl, done.length, done.done⟩

/-! ## Runs -/

/-- One change of an uncompressed map. -/
inductive Op
  | grow (N : Nat)
  | join (a b : Nat)
  deriving DecidableEq, Repr

def apply (s : Classes) : Op -> Option Classes
  | .grow N => grow N s
  | .join a b => join a b s

/-- The size of a map, and the joins made. -/
structure Made where
  size : Nat
  joins : List (Nat × Nat)

namespace Made

def step (made : Made) : Op -> Made
  | .grow N => { made with size := max made.size N }
  | .join a b => { made with joins := made.joins ++ [(a, b)] }

/-- The arguments of a join are below the size. -/
def InRange (made : Made) : Op -> Prop
  | .grow _ => True
  | .join a b => a < made.size ∧ b < made.size

instance (made : Made) : ∀ op, Decidable (made.InRange op)
  | .grow _ => .isTrue trivial
  | .join a b => inferInstanceAs (Decidable (a < made.size ∧ b < made.size))

/-- Connected by the joins made. -/
def Connected (made : Made) (a b : Nat) : Prop := EqvGen (fun x y => (x, y) ∈ made.joins) a b

/-- What is made of no integers by some changes. -/
def ofOps (ops : List Op) : Made := ops.foldl step ⟨0, []⟩

end Made

/-- A map whose entries connect what the joins connect. -/
structure Holds (s : Classes) (made : Made) : Prop where
  uncompressed : s.NumClasses = 0
  size : s.EC.length = made.size
  connects : ∃ descends : Descends s.EC, ∀ x y,
    EqvGen (forest descends).Edge x y ↔ made.Connected x y

theorem empty_holds : Holds empty ⟨0, []⟩ := by
  have own : ∀ i, parent empty.EC i = i := fun i => parent_outside (zero_le i)
  refine ⟨rfl, rfl, fun i => (own i).le, fun x y => eqvGen_eq ?_ ?_ x y⟩
  · intro x y edge
    rw [<- show parent empty.EC x = y from edge, own]
    exact .refl x
  · exact fun x y never => absurd never not_mem_nil

theorem grow_holds {made : Made} (holds : Holds s made) (N : Nat) :
    ∃ s', grow N s = some s' ∧ Holds s' (made.step (.grow N)) := by
  rcases holds.connects with ⟨descends, connected⟩
  have same := parent_grow s.EC (N - s.EC.length)
  refine ⟨_, if_pos holds.uncompressed, holds.uncompressed, ?_, fun i => ?_, fun x y => ?_⟩
  · rw [length_append, length_map, length_range, holds.size, Made.step]
    dsimp only
    omega
  · rw [same]
    exact descends i
  · refine (eqvGen_eq ?_ ?_ x y).trans (connected x y)
    · exact fun x y edge => .rel x y ((same x).symm.trans edge)
    · exact fun x y edge => .rel x y ((same x).trans edge)

theorem join_holds {made : Made} (holds : Holds s made) {a b : Nat}
    (inA : a < made.size) (inB : b < made.size) :
    ∃ s', join a b s = some s' ∧ Holds s' (made.step (.join a b)) := by
  rcases holds.connects with ⟨descends, connected⟩
  rw [<- holds.size] at inA inB
  have belowA := descends a
  have belowB := descends b
  rcases joinLoop_spec (4 * s.EC.length) descends inA inB (by omega) with
    ⟨EC', run, length, descends', joined⟩
  refine ⟨{ s with EC := EC' }, ?_, holds.uncompressed, length.trans holds.size, descends', ?_⟩
  · rw [join, if_pos holds.uncompressed, getElem?_eq_parent inA, getElem?_eq_parent inB]
    simp only [bind_eq_bind, bind_some, run]
    rfl
  · intro x y
    refine (joined x y).trans (eqvGen_eq ?_ ?_ x y)
    · rintro x y (edge | ⟨rfl, rfl⟩)
      · have before := (connected x y).mp (.rel x y edge)
        exact eqvGen_le (fun x y mem => .rel x y (mem_append_left _ mem)) before
      · exact .rel _ _ (mem_append_right _ mem_cons_self)
    · intro x y mem
      rcases mem_append.mp mem with earlier | new
      · have before := (connected x y).mpr (.rel x y earlier)
        exact eqvGen_le (fun x y edge => .rel x y (.inl edge)) before
      · cases mem_singleton.mp new
        exact .rel _ _ (.inr ⟨rfl, rfl⟩)

theorem apply_holds {made : Made} {op : Op} (holds : Holds s made)
    (inRange : made.InRange op) : ∃ s', apply s op = some s' ∧ Holds s' (made.step op) := by
  cases op with
  | grow N => exact grow_holds holds N
  | join a b => exact join_holds holds inRange.1 inRange.2

/-- No entry is larger than its integer, the leader is the smallest integer of
the class, and integers have the same leader when the joins connect them. -/
structure HasLeaders (s : Classes) (made : Made) : Prop where
  entry_le : ∀ i e : Nat, s.EC[i]? = some e -> e <= i
  smallest : ∀ a, a < made.size -> ∃ leader, findLeader s a = some leader ∧
    made.Connected a leader ∧ ∀ b, made.Connected a b -> leader <= b
  same_iff : ∀ a b, a < made.size -> b < made.size ->
    (findLeader s a = findLeader s b ↔ made.Connected a b)

/-- The entries of a compressed map number the classes from 0 on, in the order
of their leaders. -/
structure HasNumbers (s c : Classes) (made : Made) : Prop where
  entry_lt : ∀ a, a < made.size -> ∃ n < c.NumClasses, c.EC[a]? = some n
  all_used : ∀ n : Nat, n < c.NumClasses -> ∃ a < made.size, c.EC[a]? = some n
  same_iff : ∀ a b, a < made.size -> b < made.size -> (c.EC[a]? = c.EC[b]? ↔ made.Connected a b)
  ordered : ∀ a b m n : Nat, findLeader s a = some a -> findLeader s b = some b ->
    c.EC[a]? = some m -> c.EC[b]? = some n -> a < b -> m < n

section Correctness

variable {s c : Classes} {made : Made}

theorem findLeader_eq (uncompressed : s.NumClasses = 0) (descends : Descends s.EC)
    (inside : a < s.EC.length) : findLeader s a = some ((forest descends).root a) := by
  rw [findLeader, if_pos uncompressed]
  exact findLeaderLoop_eq s.EC.length descends inside inside

theorem Holds.hasLeaders (holds : Holds s made) : HasLeaders s made := by
  rcases holds.connects with ⟨descends, connected⟩
  have leader : ∀ a, a < made.size -> findLeader s a = some ((forest descends).root a) :=
    fun a inside => findLeader_eq holds.uncompressed descends (holds.size ▸ inside)
  refine ⟨fun i e entry => ?_, fun a inside => ⟨_, leader a inside, ?_, fun b joined => ?_⟩,
    fun a b inA inB => ?_⟩
  · rw [<- parent_eq entry]
    exact descends i
  · exact (connected a _).mp (Forest.connected_root _ a)
  · exact Forest.root_le_of_connected ((connected a b).mpr joined)
  · rw [leader a inA, leader b inB, some_inj, <- Forest.connected_iff]
    exact connected a b

theorem Holds.numbers (holds : Holds s made) :
    ∃ c, compress s = some c ∧ HasNumbers s c made ∧
      ∃ u, uncompress c = some u ∧ ∀ a, a < made.size ->
        u.EC[a]? = findLeader s a ∧ findLeader u a = findLeader s a := by
  rcases holds.connects with ⟨descends, connected⟩
  have leader : ∀ a, a < s.EC.length -> findLeader s a = some ((forest descends).root a) :=
    fun a inside => findLeader_eq holds.uncompressed descends inside
  have same : s = ⟨s.EC, 0⟩ := by
    rw [<- holds.uncompressed]
  rcases compress_spec descends with ⟨c, compressed, length, count, numbers⟩
  rcases uncompress_spec descends length count numbers with ⟨u, run, free, lengthU, leaders⟩
  have sameSize := holds.size
  refine ⟨c, same ▸ compressed, ?_, u, run, fun a inside => ?_⟩
  · refine ⟨fun a inside => ?_, fun n below => ?_, fun a b inA inB => ?_, ?_⟩
    · exact ⟨_, count ▸ Forest.classNumber_lt (sameSize ▸ inside), numbers a (sameSize ▸ inside)⟩
    · rw [count] at below
      rcases Forest.exists_classNumber below with ⟨a, inside, number⟩
      exact ⟨a, sameSize ▸ inside, number ▸ numbers a inside⟩
    · rw [numbers a (sameSize ▸ inA), numbers b (sameSize ▸ inB), some_inj,
        Forest.classNumber_eq_iff, <- Forest.connected_iff]
      exact connected a b
    · intro a b m n leaderA leaderB numberA numberB smaller
      have inB : b < s.EC.length := length ▸ (List.getElem?_eq_some_iff.mp numberB).1
      have inA := smaller.trans inB
      rw [leader a inA, some_inj] at leaderA
      rw [leader b inB, some_inj] at leaderB
      rw [numbers a inA, some_inj, Forest.classNumber, leaderA] at numberA
      rw [numbers b inB, some_inj, Forest.classNumber, leaderB] at numberB
      rw [<- numberA, <- numberB]
      exact count_strict_mono (leaderA ▸ Forest.parent_root _ a) smaller
  · have inside : a < s.EC.length := sameSize ▸ inside
    have descendsU : Descends u.EC := by
      intro i
      by_cases bound : i < u.EC.length
      · rw [parent_eq (leaders i (lengthU ▸ bound))]
        exact Forest.root_le _ i
      · exact (parent_outside (not_lt.mp bound)).le
    refine ⟨(leaders a inside).trans (leader a inside).symm, ?_⟩
    rw [findLeader_eq free descendsU (lengthU ▸ inside), leader a inside]
    have parentU : ∀ i, i < s.EC.length -> (forest descendsU).parent i = (forest descends).root i :=
      fun i bound => parent_eq (leaders i bound)
    have rootInside := lt_of_le_of_lt (Forest.root_le (forest descends) a) inside
    rw [<- Forest.root_parent, parentU a inside, Forest.root_of_eq]
    rw [parentU _ rootInside, Forest.root_root]

end Correctness

/-- After any sequence of changes in range the leaders are those of the joins;
compressing the map numbers their classes, and uncompressing it again gives
every integer the leader it had. -/
theorem run_classes (ops : List Op) (inRange : Runs.Described Made.step Made.InRange ⟨0, []⟩ ops) :
    ∃ s, Runs.run apply empty ops = some s ∧ HasLeaders s (Made.ofOps ops) ∧
      ∃ c, compress s = some c ∧ HasNumbers s c (Made.ofOps ops) ∧
        ∃ u, uncompress c = some u ∧ ∀ a, a < (Made.ofOps ops).size ->
          u.EC[a]? = findLeader s a ∧ findLeader u a = findLeader s a := by
  rcases Runs.run_progress apply_holds ops empty_holds inRange with ⟨s, run, holds⟩
  exact ⟨s, run, holds.hasLeaders, holds.numbers⟩

/-- Six integers of which three and then two more are joined. -/
theorem run_classes_six :
    let ops := [.grow 4, .join 3 2, .grow 6, .join 5 3, .join 4 1]
    ∃ s, Runs.run apply empty ops = some s ∧ HasLeaders s (Made.ofOps ops) ∧
      ∃ c, compress s = some c ∧ HasNumbers s c (Made.ofOps ops) ∧
        ∃ u, uncompress c = some u ∧ ∀ a, a < (Made.ofOps ops).size ->
          u.EC[a]? = findLeader s a ∧ findLeader u a = findLeader s a :=
  run_classes _ (by decide)

example : (Runs.run apply empty [.grow 6, .join 3 2, .join 5 3, .join 4 1]).bind compress =
    some ⟨[0, 1, 2, 2, 1, 2], 3⟩ := by decide

end IntEqClasses
end LlvmProject
