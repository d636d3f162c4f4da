import LlvmProject.Sanitizer.BitVectorMembers
import Mathlib.Order.Lattice.Nat

namespace LlvmProject
namespace TwoLevelBitVector

/-!
# Iteration over a two-level bit vector

The iterator stands either between two rows, with nothing left of the row
before, or inside a row, with something left of its first-level word or of the
current second-level word.  In both cases the indices still to come are known,
and a step of the iterator takes the first of them away.
-/

open BasicBitVector List Bool

variable {n w : Nat} {x : TwoLevelBitVector n w}

/-! ## The indices still to come -/

/-- The indices of the given words of a row. -/
def rowMembers (x : TwoLevelBitVector n w) (i0 : Fin n) (t : BasicBitVector w) : List Nat :=
  t.ones.flatMap fun i1 => (x.words i0 i1).ones.map fun i2 : Fin w => index w i0 i1 i2

/-- The indices of all rows from the given one on. -/
def rowsMembers (x : TwoLevelBitVector n w) (row : Nat) : List Nat :=
  if below : row < n then
    x.rowMembers ⟨row, below⟩ (x.l1_ ⟨row, below⟩) ++ rowsMembers x (row + 1)
  else []
termination_by n - row

/-- The indices to come inside a row. -/
def pending (x : TwoLevelBitVector n w) (i0 : Fin n) (i1 : Nat) (it1 it2 : BasicBitVector w) :
    List Nat :=
  it2.ones.map (fun i2 : Fin w => index w i0 i1 i2) ++ x.rowMembers i0 it1 ++ x.rowsMembers (i0 + 1)

theorem mem_rowMembers {i0 : Fin n} {t : BasicBitVector w} {idx : Nat} :
    idx ∈ x.rowMembers i0 t ↔ ∃ i1 i2 : Fin w, t.getBit i1 = true ∧
      (x.words i0 i1).getBit i2 = true ∧ index w i0 i1 i2 = idx := by
  simp only [rowMembers, mem_flatMap, mem_map, mem_ones]
  constructor
  · rintro ⟨i1, bit, i2, holds, same⟩
    exact ⟨i1, i2, bit, holds, same⟩
  · rintro ⟨i1, i2, bit, holds, same⟩
    exact ⟨i1, bit, i2, holds, same⟩

theorem rowMembers_sorted (i0 : Fin n) (t : BasicBitVector w) :
    (x.rowMembers i0 t).Pairwise (· < ·) := by
  refine pairwise_flatMap.mpr ⟨fun i1 _ => ?_, (sorted_ones t).imp fun column => ?_⟩
  · exact pairwise_map.mpr ((sorted_ones _).imp fun bit => index_lt_of_bit bit)
  · intro idx mem idx' mem'
    rcases mem_map.mp mem with ⟨i2, -, rfl⟩
    rcases mem_map.mp mem' with ⟨j2, -, rfl⟩
    exact index_lt_of_word i2 column

theorem mem_rowsMembers {row idx : Nat} :
    idx ∈ x.rowsMembers row ↔ ∃ (i0 : Fin n) (i1 i2 : Fin w), row <= i0 ∧
      (x.words i0 i1).getBit i2 = true ∧ index w i0 i1 i2 = idx := by
  fun_induction rowsMembers x row with
  | case1 row below ih =>
    rw [mem_append, mem_rowMembers, ih]
    constructor
    · rintro (⟨i1, i2, -, holds, same⟩ | ⟨i0, i1, i2, above, holds, same⟩)
      · exact ⟨⟨row, below⟩, i1, i2, le_refl _, holds, same⟩
      · exact ⟨i0, i1, i2, Nat.le_of_succ_le above, holds, same⟩
    · rintro ⟨i0, i1, i2, above, holds, same⟩
      rcases eq_or_lt_of_le above with here | later
      · have here : i0 = ⟨row, below⟩ := Fin.ext here.symm
        subst here
        exact .inl ⟨i1, i2, (row_of_mem holds).1, holds, same⟩
      · exact .inr ⟨i0, i1, i2, later, holds, same⟩
  | case2 row beyond =>
    refine iff_of_false not_mem_nil ?_
    rintro ⟨i0, -, -, above, -⟩
    exact beyond (above.trans_lt i0.isLt)

theorem rowsMembers_sorted (row : Nat) : (x.rowsMembers row).Pairwise (· < ·) := by
  fun_induction rowsMembers x row with
  | case1 row below ih =>
    refine pairwise_append.mpr ⟨rowMembers_sorted _ _, ih, ?_⟩
    intro idx mem idx' mem'
    rcases mem_rowMembers.mp mem with ⟨i1, i2, -, -, rfl⟩
    rcases mem_rowsMembers.mp mem' with ⟨j0, j1, j2, above, -, rfl⟩
    exact index_lt_of_row i1 i2 above
  | case2 row beyond => exact Pairwise.nil

/-- The rows together hold the members of the vector. -/
theorem mem_rowsMembers_zero {idx : Nat} : idx ∈ x.rowsMembers 0 ↔ idx ∈ x.members := by
  rw [mem_rowsMembers]
  constructor
  · rintro ⟨i0, i1, i2, -, holds, rfl⟩
    exact index_mem.mpr holds
  · rintro ⟨i0, i1, i2, located, holds⟩
    exact ⟨i0, i1, i2, Nat.zero_le _, holds, (index_of_locate located).symm⟩

namespace Iterator

/-! ## What the iterator yields -/

/-- Calling `next` as long as `hasNext` holds gives the list. -/
inductive Yields (bv_ : TwoLevelBitVector n w) : Iterator w -> List Nat -> Prop
  | done {it : Iterator w} : it.hasNext bv_ = false -> Yields bv_ it []
  | more {it it' : Iterator w} {idx : Nat} {rest : List Nat} : it.hasNext bv_ = true ->
      it.next bv_ = some (idx, it') -> Yields bv_ it' rest -> Yields bv_ it (idx :: rest)

/-- The iterator stands where the list is still to come. -/
inductive Stands (bv_ : TwoLevelBitVector n w) : Iterator w -> List Nat -> Prop
  | between {row i1 : Nat} {it1 it2 : BasicBitVector w} : it1.empty = true -> it2.empty = true ->
      Stands bv_ ⟨row, i1, it1, it2⟩ (bv_.rowsMembers row)
  | inside {i0 : Fin n} {i1 : Nat} {it1 it2 : BasicBitVector w} :
      (it1.empty = false ∨ it2.empty = false) -> (bv_.l1_ i0).empty = false ->
      (∀ i, it1.getBit i = true -> (bv_.l1_ i0).getBit i = true) ->
      Stands bv_ ⟨i0, i1, it1, it2⟩ (bv_.pending i0 i1 it1 it2)

/-- A step from a nonempty second-level word. -/
theorem nextBit_stands {i0 : Fin n} {i1 : Nat} {it1 it2 : BasicBitVector w}
    (some' : it2.empty = false) (occupied : (x.l1_ i0).empty = false)
    (part : ∀ i, it1.getBit i = true -> (x.l1_ i0).getBit i = true) :
    ∃ idx it' rest, x.pending i0 i1 it1 it2 = idx :: rest ∧ Stands x it' rest ∧
      nextBit ⟨i0, i1, it1, it2⟩ = some (idx, it') := by
  rcases getAndClearFirstOne_least some' with ⟨i2, taken, -, -⟩
  have front := getAndClearFirstOne_some taken
  have ahead : x.pending i0 i1 it1 it2 =
      index w i0 i1 i2 :: x.pending i0 i1 it1 (it2.clearBit i2).2 := by
    rw [pending, front]
    rfl
  rw [nextBit, taken, Option.map_some]
  by_cases finished : (it1.empty && (it2.clearBit i2).2.empty) = true
  · have both := and_eq_true_iff.mp finished
    refine ⟨index w i0 i1 i2, ⟨i0 + 1, i1, it1, (it2.clearBit i2).2⟩, x.rowsMembers (i0 + 1), ?_,
      .between both.1 both.2, ?_⟩
    · rw [ahead, pending, ones_eq_nil.mpr both.2, rowMembers, ones_eq_nil.mpr both.1]
      rfl
    · simp only [if_pos finished]
  · refine ⟨index w i0 i1 i2, ⟨i0, i1, it1, (it2.clearBit i2).2⟩, _, ahead,
      .inside ?_ occupied part, ?_⟩
    · rw [and_eq_true, not_and_or, Bool.not_eq_true, Bool.not_eq_true] at finished
      exact finished
    · simp only [if_neg finished]

/-- A step inside a row, which may have to fetch a second-level word. -/
theorem nextWord_stands (valid : x.Valid) {i0 : Fin n} (i1 : Nat) {it1 : BasicBitVector w} (it2 :
    BasicBitVector w) (some' : it1.empty = false ∨ it2.empty = false) (occupied : (x.l1_ i0).empty =
    false) (part : ∀ i, it1.getBit i = true -> (x.l1_ i0).getBit i = true) :
    ∃ idx it' rest, x.pending i0 i1 it1 it2 = idx :: rest ∧ Stands x it' rest ∧
      (if it2.empty then nextWord x ⟨i0, i1, it1, it2⟩ else some ⟨i0, i1, it1, it2⟩).bind nextBit =
        some (idx, it') := by
  cases used : it2.empty with
  | false => exact nextBit_stands used occupied part
  | true =>
    rcases getAndClearFirstOne_least (some'.resolve_right (by simp [used])) with
      ⟨j1, taken, bit, -⟩
    have part' : ∀ i, (it1.clearBit j1).2.getBit i = true -> (x.l1_ i0).getBit i = true := by
      intro i there
      rw [getBit_clearBit, and_eq_true] at there
      exact part i there.1
    have fetched : nextWord x ⟨i0, i1, it1, it2⟩ =
        some ⟨i0, j1, (it1.clearBit j1).2, x.l2_ i0 j1⟩ := by
      rw [nextWord, taken, Option.bind_some]
      exact dif_pos i0.isLt
    have ahead : x.pending i0 i1 it1 it2 = x.pending i0 j1 (it1.clearBit j1).2 (x.l2_ i0 j1) := by
      rw [pending, pending, ones_eq_nil.mpr used, rowMembers, getAndClearFirstOne_some taken,
        flatMap_cons, words_of_bit (part j1 bit)]
      rfl
    rw [if_pos rfl, fetched, ahead]
    exact nextBit_stands (valid i0 j1 (part j1 bit)) occupied part'

theorem nextRow_stands (row i1 : Nat) (it1 : BasicBitVector w) {it2 : BasicBitVector w} (none2 : it2.empty = true) :
    (x.rowsMembers row = [] ∧ ∀ i : Fin n, row <= i -> (x.l1_ i).empty = true) ∨
      ∃ i0 : Fin n, row <= i0 ∧ (x.l1_ i0).empty = false ∧
        nextRow x ⟨row, i1, it1, it2⟩ = ⟨i0, i1, x.l1_ i0, it2⟩ ∧
        x.rowsMembers row = x.pending i0 i1 (x.l1_ i0) it2 := by
  fun_induction rowsMembers x row with
  | case1 row below ih =>
    cases none : (x.l1_ ⟨row, below⟩).empty with
    | false =>
      refine .inr ⟨⟨row, below⟩, le_refl row, none, ?_, ?_⟩
      · rw [nextRow, dif_pos below]
        exact if_neg (by simp [none])
      · rw [pending, ones_eq_nil.mpr none2]
        rfl
    | true =>
      have nothing : x.rowMembers ⟨row, below⟩ (x.l1_ ⟨row, below⟩) = [] := by
        rw [rowMembers, ones_eq_nil.mpr none]
        rfl
      rw [nothing, nil_append]
      rcases ih with ⟨finished, empty⟩ | ⟨i0, above, occupied, entered, ahead⟩
      · refine .inl ⟨finished, fun i above => ?_⟩
        rcases eq_or_lt_of_le above with here | later
        · have here : i = ⟨row, below⟩ := Fin.ext here.symm
          exact here ▸ none
        · exact empty i later
      · refine .inr ⟨i0, Nat.le_of_succ_le above, occupied, ?_, ahead⟩
        rw [nextRow, dif_pos below]
        exact (if_pos none).trans entered
  | case2 row beyond =>
    exact .inl ⟨rfl, fun i above => absurd (above.trans_lt i.isLt) beyond⟩

theorem hasNext_iff {it : Iterator w} : it.hasNext x = true ↔
    it.it1_.empty = false ∨ ∃ i : Fin n, it.i0_ <= i ∧ (x.l1_ i).empty = false := by
  simp [hasNext]

theorem Stands.step (valid : x.Valid) {it : Iterator w} {list : List Nat}
    (stands : Stands x it list) :
    (list = [] ∧ it.hasNext x = false) ∨
      ∃ idx it' rest, list = idx :: rest ∧ it.hasNext x = true ∧ it.next x = some (idx, it') ∧
        Stands x it' rest := by
  cases stands with
  | @between row i1 it1 it2 none1 none2 =>
    have leaves : (it1.empty && it2.empty) = true := and_eq_true_iff.mpr ⟨none1, none2⟩
    rcases nextRow_stands row i1 it1 none2 with
      ⟨finished, empty⟩ | ⟨i0, above, occupied, entered, ahead⟩
    · refine .inl ⟨finished, eq_false_iff.mpr fun more => ?_⟩
      rcases hasNext_iff.mp more with left | ⟨i, above, left⟩
      · exact absurd (left.symm.trans none1) nofun
      · exact absurd (left.symm.trans (empty i above)) nofun
    · rcases nextWord_stands valid i1 it2 (.inl occupied) occupied
        fun _ there => there with ⟨idx, it', rest, front, stands', ran⟩
      refine .inr ⟨idx, it', rest, ahead.trans front,
        hasNext_iff.mpr (.inr ⟨i0, above, occupied⟩), ?_, stands'⟩
      rw [next, if_pos leaves, entered]
      exact ran
  | @inside i0 i1 it1 it2 some' occupied part =>
    have stays : ¬(it1.empty && it2.empty) = true := by
      rw [and_eq_true, not_and_or, Bool.not_eq_true, Bool.not_eq_true]
      exact some'
    rcases nextWord_stands valid i1 it2 some' occupied part with ⟨idx, it', rest, front, stands', ran⟩
    refine .inr ⟨idx, it', rest, front,
      hasNext_iff.mpr (.inr ⟨i0, le_refl _, occupied⟩), ?_, stands'⟩
    rw [next, if_neg stays]
    exact ran

theorem Stands.yields (valid : x.Valid) {it : Iterator w} {list : List Nat}
    (stands : Stands x it list) : Yields x it list := by
  induction list generalizing it with
  | nil =>
    rcases stands.step valid with ⟨-, finished⟩ | ⟨_, _, _, never, -⟩
    · exact .done finished
    · exact absurd never nofun
  | cons idx rest ih =>
    rcases stands.step valid with ⟨never, -⟩ | ⟨_, it', _, same, more, ran, stands'⟩
    · exact absurd never nofun
    · cases same
      exact .more more ran (ih stands')

/-- The iterator yields exactly the members, in increasing order. -/
theorem yields_members (valid : x.Valid) :
    ∃ list, Yields x begin list ∧ list.Pairwise (· < ·) ∧ ∀ idx, idx ∈ list ↔ idx ∈ x.members :=
  ⟨x.rowsMembers 0, (Stands.between empty_clear empty_clear).yields valid, rowsMembers_sorted 0,
    fun _ => mem_rowsMembers_zero⟩

end Iterator
end TwoLevelBitVector
end LlvmProject

namespace LlvmProject
namespace TwoLevelBitVector

/-!
## Two-level bit vectors as sets

Any number of vectors are updated in any order, also with themselves as
operands.  In the specification each of them is a set of indices.  Every
reachable vector represents its set, and every operation succeeds and answers
what the sets tell.

Copying a vector onto itself is left out of the runs: `copyFrom` clears the
target before it reads the operand.
-/

universe u

variable {n w : Nat} {ι : Type u}

inductive Operation (ι : Type u) where
  | setBit (x : ι) (idx : Nat)
  | clearBit (x : ι) (idx : Nat)
  | getAndClearFirstOne (x : ι)
  | setUnion (x v : ι)
  | setIntersection (x v : ι)
  | setDifference (x v : ι)
  | copyFrom (x v : ι)
  | clear (x : ι)
  | setAll (x : ι)

inductive Result where
  | done
  | flag (changed : Bool)
  | index (idx : Nat)

/-! ## Running the code -/

section Execution

variable [DecidableEq ι]

/-- The vector `v` as operand of an update of `x`. -/
def operand (heap : ι -> TwoLevelBitVector n w) (x v : ι) : Operand n w :=
  if v = x then .itself else .other (heap v)

/-- Store the updated vector and return the flag. -/
def store (heap : ι -> TwoLevelBitVector n w) (x : ι) (answer : Bool × TwoLevelBitVector n w) :
    Result × (ι -> TwoLevelBitVector n w) :=
  (.flag answer.1, Function.update heap x answer.2)

def execute (heap : ι -> TwoLevelBitVector n w) :
    Operation ι -> Option (Result × (ι -> TwoLevelBitVector n w))
  | .setBit x idx => ((heap x).setBit idx).map (store heap x)
  | .clearBit x idx => ((heap x).clearBit idx).map (store heap x)
  | .getAndClearFirstOne x => (heap x).getAndClearFirstOne.map fun (idx, x') =>
    (.index idx, Function.update heap x x')
  | .setUnion x v => some (store heap x ((heap x).setUnion (operand heap x v)))
  | .setIntersection x v => some (store heap x ((heap x).setIntersection (operand heap x v)))
  | .setDifference x v => some (store heap x ((heap x).setDifference (operand heap x v)))
  | .copyFrom x v => some (.done, Function.update heap x ((heap x).copyFrom (operand heap x v)))
  | .clear x => some (.done, Function.update heap x (heap x).clear)
  | .setAll x => some (.done, Function.update heap x (heap x).setAll)

end Execution

/-! ## The specification -/

/-- The indices of a vector. -/
def indices (n w : Nat) : Set Nat := {idx | idx < w * w * n}

section Specification

variable [DecidableEq ι]

/-- What the operations do to the sets. -/
noncomputable def effect (n w : Nat) (sets : ι -> Set Nat) : Operation ι -> ι -> Set Nat
  | .setBit x idx => Function.update sets x (insert idx (sets x))
  | .clearBit x idx => Function.update sets x (sets x \ {idx})
  | .getAndClearFirstOne x => Function.update sets x (sets x \ {sInf (sets x)})
  | .setUnion x v => Function.update sets x (sets x ∪ sets v)
  | .setIntersection x v => Function.update sets x (sets x ∩ sets v)
  | .setDifference x v => Function.update sets x (sets x \ sets v)
  | .copyFrom x v => Function.update sets x (sets v)
  | .clear x => Function.update sets x ∅
  | .setAll x => Function.update sets x (indices n w)

/-- The operations that the specification describes. -/
def Allowed (n w : Nat) (sets : ι -> Set Nat) : Operation ι -> Prop
  | .setBit _ idx => idx ∈ indices n w
  | .clearBit _ idx => idx ∈ indices n w
  | .getAndClearFirstOne x => (sets x).Nonempty
  | .copyFrom x v => v ≠ x
  | _ => True

/-- The vector that an operation updates. -/
def Operation.target : Operation ι -> ι
  | .setBit x _ => x
  | .clearBit x _ => x
  | .getAndClearFirstOne x => x
  | .setUnion x _ => x
  | .setIntersection x _ => x
  | .setDifference x _ => x
  | .copyFrom x _ => x
  | .clear x => x
  | .setAll x => x

/-- A flag tells whether the set changes, an index is the least member. -/
def Answers (n w : Nat) (sets : ι -> Set Nat) (op : Operation ι) : Result -> Prop
  | .done => True
  | .flag changed => changed = true ↔ effect n w sets op op.target ≠ sets op.target
  | .index idx => IsLeast (sets op.target) idx

/-- The states that the program reaches, with the sets they stand for.  Before
its first `clear` or `setAll` a vector holds anything. -/
inductive Reachable : (ι -> TwoLevelBitVector n w) -> (ι -> Set Nat) -> Prop
  | start (memory : ι -> TwoLevelBitVector n w) (full : ι -> Bool) :
      Reachable (fun x => if full x then (memory x).setAll else (memory x).clear)
        (fun x => if full x then indices n w else ∅)
  | step {heap heap' : ι -> TwoLevelBitVector n w} {sets : ι -> Set Nat} {result : Result}
      (op : Operation ι) : Reachable heap sets -> Allowed n w sets op ->
      execute heap op = some (result, heap') -> Reachable heap' (effect n w sets op)

end Specification

/-- The vector represents the set. -/
structure Represents (x : TwoLevelBitVector n w) (s : Set Nat) : Prop where
  within : s ⊆ indices n w
  bit : ∀ i0 i1, (x.l1_ i0).getBit i1 = true ↔ ∃ i2 : Fin w, index w i0 i1 i2 ∈ s
  word : ∀ i0 i1, (x.l1_ i0).getBit i1 = true ->
    ∀ i2, (x.l2_ i0 i1).getBit i2 = true ↔ index w i0 i1 i2 ∈ s
  getBit : ∀ idx ∈ indices n w, ∃ bit, x.getBit idx = some bit ∧ (bit = true ↔ idx ∈ s)
  empty : x.empty = true ↔ s = ∅
  yields : ∃ list, Iterator.Yields x .begin list ∧ list.Pairwise (· < ·) ∧
    ∀ idx, idx ∈ list ↔ idx ∈ s

theorem Valid.represents {x : TwoLevelBitVector n w} (valid : x.Valid) :
    Represents x x.members := by
  refine ⟨fun idx => lt_size_of_mem, fun i0 i1 => ?_, fun i0 i1 bit i2 => ?_,
    fun idx below => getBit_members below, empty_members valid, Iterator.yields_members valid⟩
  · rw [valid.bit_eq, Bool.not_eq_true', <- Bool.not_eq_true, BasicBitVector.empty_iff_getBit]
    simp [index_mem]
  · rw [index_mem, words_of_bit bit]

/-! ## Runs -/

variable [DecidableEq ι] {heap heap' : ι -> TwoLevelBitVector n w} {sets : ι -> Set Nat}

/-- The vectors are valid and their members are the sets. -/
def Agrees (heap : ι -> TwoLevelBitVector n w) (sets : ι -> Set Nat) : Prop :=
  ∀ x, (heap x).Valid ∧ (heap x).members = sets x

theorem Agrees.update (agrees : Agrees heap sets) (x : ι) {x' : TwoLevelBitVector n w}
    {s : Set Nat} (valid : x'.Valid) (members : x'.members = s) :
    Agrees (Function.update heap x x') (Function.update sets x s) := by
  intro y
  by_cases same : y = x
  · subst same
    simpa using ⟨valid, members⟩
  · simpa [same] using agrees y

theorem Agrees.operand (agrees : Agrees heap sets) (x v : ι) :
    (operand heap x v).Valid ∧ ((operand heap x v).read (heap x)).members = sets v := by
  rw [TwoLevelBitVector.operand]
  by_cases same : v = x
  · rw [if_pos same]
    exact ⟨trivial, same ▸ (agrees x).2⟩
  · rw [if_neg same]
    exact agrees v

variable {op : Operation ι}

section

variable (agrees : Agrees heap sets)
include agrees

/-- An update of one vector that changes its set in the specified way. -/
theorem Agrees.store {x : ι} {s : Set Nat} {answer : Bool × TwoLevelBitVector n w} (target :
    op.target = x) (effects : effect n w sets op = Function.update sets x s) (valid :
    answer.2.Valid) (members : answer.2.members = s) (flag : answer.1 = true ↔ s ≠ sets x) :
    ∃ result heap', some (TwoLevelBitVector.store heap x answer) = some (result, heap') ∧
      Answers n w sets op result ∧ Agrees heap' (effect n w sets op) := by
  refine ⟨_, _, rfl, ?_, effects ▸ agrees.update x valid members⟩
  show answer.1 = true ↔ effect n w sets op op.target ≠ sets op.target
  rw [effects, target, Function.update_self, flag]

theorem Agrees.replace {x : ι} {s : Set Nat} {x' : TwoLevelBitVector n w} (effects : effect n w sets
    op = Function.update sets x s) (kept : x'.Valid ∧ x'.members = s) :
    ∃ result heap', some (Result.done, Function.update heap x x') = some (result, heap') ∧
      Answers n w sets op result ∧ Agrees heap' (effect n w sets op) :=
  ⟨_, _, rfl, trivial, effects ▸ agrees.update x kept.1 kept.2⟩

/-- One operation from vectors that agree with their sets. -/
theorem Agrees.step (allowed : Allowed n w sets op) :
    ∃ result heap', execute heap op = some (result, heap') ∧ Answers n w sets op result ∧
      Agrees heap' (effect n w sets op) := by
  cases op with
  | setBit x idx =>
    rcases setBit_members (agrees x).1 allowed with ⟨changed, x', ran, valid, members, flag⟩
    rw [(agrees x).2] at members flag
    rw [execute, ran, Option.map_some]
    refine agrees.store rfl rfl valid members (flag.trans ?_)
    rw [Ne, Set.insert_eq_self]
  | clearBit x idx =>
    rcases clearBit_members (agrees x).1 allowed with ⟨changed, x', ran, valid, members, flag⟩
    rw [(agrees x).2] at members flag
    rw [execute, ran, Option.map_some]
    refine agrees.store rfl rfl valid members (flag.trans ?_)
    rw [Ne, sdiff_eq_left, Set.disjoint_singleton_right, not_not]
  | getAndClearFirstOne x =>
    have some' : (heap x).members.Nonempty := (agrees x).2 ▸ allowed
    rcases getAndClearFirstOne_members (agrees x).1 some' with
      ⟨idx, x', ran, valid, least, members⟩
    rw [(agrees x).2] at least members
    have first : sInf (sets x) = idx := least.csInf_eq
    refine ⟨.index idx, _, by rw [execute, ran]; rfl, least, ?_⟩
    exact agrees.update x valid (first ▸ members)
  | setUnion x v =>
    rcases agrees.operand x v with ⟨operand, same⟩
    rcases setUnion_members (agrees x).1 operand with ⟨valid, members, flag⟩
    rw [members, (agrees x).2, same] at flag
    exact agrees.store rfl rfl valid (members.trans (by rw [(agrees x).2, same])) flag
  | setIntersection x v =>
    rcases agrees.operand x v with ⟨operand, same⟩
    rcases setIntersection_members (agrees x).1 operand with ⟨valid, members, flag⟩
    rw [members, (agrees x).2, same] at flag
    exact agrees.store rfl rfl valid (members.trans (by rw [(agrees x).2, same])) flag
  | setDifference x v =>
    rcases agrees.operand x v with ⟨operand, same⟩
    rcases setDifference_members (agrees x).1 operand with ⟨valid, members, flag⟩
    rw [members, (agrees x).2, same] at flag
    exact agrees.store rfl rfl valid (members.trans (by rw [(agrees x).2, same])) flag
  | copyFrom x v =>
    have copied := copyFrom_members (x := heap x) (agrees v).1
    rw [(agrees v).2] at copied
    rw [execute, TwoLevelBitVector.operand, if_neg allowed]
    exact agrees.replace rfl copied
  | clear x => exact agrees.replace rfl clear_members
  | setAll x => exact agrees.replace rfl setAll_members

end

theorem Reachable.agrees (reachable : Reachable heap sets) : Agrees heap sets := by
  induction reachable with
  | start memory full =>
    intro x
    by_cases all : full x = true
    · simp only [if_pos all]
      exact setAll_members
    · simp only [if_neg all]
      exact clear_members
  | step op _ allowed ran ih =>
    rcases ih.step allowed with ⟨_, _, ran', -, agrees⟩
    rcases Prod.mk.inj (Option.some.inj (ran.symm.trans ran')) with ⟨-, rfl⟩
    exact agrees

/-- Every reachable vector represents its set, intersections are recognized,
and every operation succeeds with the answer that the sets tell. -/
theorem Reachable.represents_sets (reachable : Reachable heap sets) :
    (∀ x, Represents (heap x) (sets x)) ∧
      (∀ x v, (heap x).intersectsWith (heap v) = true ↔ (sets x ∩ sets v).Nonempty) ∧
      ∀ op, Allowed n w sets op ->
        ∃ result heap', execute heap op = some (result, heap') ∧ Answers n w sets op result := by
  have agrees := reachable.agrees
  refine ⟨fun x => (agrees x).2 ▸ (agrees x).1.represents, fun x v => ?_, fun op allowed => ?_⟩
  · rw [intersectsWith_members, (agrees x).2, (agrees v).2]
  · rcases agrees.step allowed with ⟨result, heap', ran, answers, -⟩
    exact ⟨result, heap', ran, answers⟩

/-- One vector of 64 bits with nothing in it. -/
def zero : Unit -> TwoLevelBitVector 1 8 := fun _ => ⟨fun _ => .clear, fun _ _ => .clear⟩

/-- Bit 3 is set and taken out again. -/
theorem represents_three :
    ∃ (heap : Unit -> TwoLevelBitVector 1 8) (sets : Unit -> Set Nat) (result : Result)
      (heap' : Unit -> TwoLevelBitVector 1 8), 3 ∈ sets () ∧ Represents (heap ()) (sets ()) ∧
      execute heap (.getAndClearFirstOne ()) = some (result, heap') ∧
      Answers 1 8 sets (.getAndClearFirstOne ()) result := by
  have reachable : Reachable (n := 1) (w := 8) _ _ :=
    .step (.setBit () 3) (.start zero fun _ => false) (show 3 < 8 * 8 * 1 by decide) rfl
  have mem : 3 ∈ effect 1 8 (fun _ : Unit => if false then indices 1 8 else ∅)
      (.setBit () 3) () :=
    Set.mem_insert 3 _
  rcases reachable.represents_sets with ⟨represents, -, answers⟩
  rcases answers (.getAndClearFirstOne ()) ⟨3, mem⟩ with ⟨result, heap', ran, answer⟩
  exact ⟨_, _, result, heap', mem, represents (), ran, answer⟩

/-- After `clear` a second-level word may be nonempty although its bit of the
first level is not set.  Copying a vector onto itself empties it. -/
theorem clear_leaves_words :
    (∃ heap : Unit -> TwoLevelBitVector 1 8, ∃ sets, Reachable heap sets ∧
      ((heap ()).l1_ 0).getBit 0 = false ∧ ((heap ()).l2_ 0 0).empty = false) ∧
    ∃ heap : Unit -> TwoLevelBitVector 1 8, ∃ sets, Reachable heap sets ∧ 0 ∈ sets () ∧
      ∃ heap', execute heap (.copyFrom () ()) = some (.done, heap') ∧ (heap' ()).empty = true := by
  have set : Reachable (n := 1) (w := 8) _ _ :=
    .step (.setBit () 0) (.start zero fun _ => false) (show 0 < 8 * 8 * 1 by decide) rfl
  refine ⟨⟨_, _, .step (.clear ()) set trivial rfl, by decide, by decide⟩,
    _, _, set, Set.mem_insert 0 _, _, rfl, ?_⟩
  exact (empty_members copyFrom_itself.1).mpr copyFrom_itself.2

end TwoLevelBitVector
end LlvmProject
