import Mathlib.Data.List.FinRange
import Mathlib.Data.Nat.Bitwise

namespace LlvmProject

open List BitVec

/-!
# The sanitizers' bit vectors

A `BasicBitVector` is one machine word of `w` bits.  A `TwoLevelBitVector` has
`n` first-level words and, for every bit of a first-level word, a word of the
second level.  Words of the second level are meaningful only while their bit
of the first level is set: `clear` and `setIntersection` leave old contents
behind.

Run-time checks that fail give `none`.  The operand of a binary operation may
be the vector it is applied to.
-/

/-! ## One word -/

structure BasicBitVector (w : Nat) where
  bits_ : BitVec w
deriving DecidableEq

namespace BasicBitVector

variable {w : Nat}

def clear : BasicBitVector w := ⟨0#w⟩

def setAll : BasicBitVector w := ⟨~~~0#w⟩

def empty (x : BasicBitVector w) : Bool := x.bits_ == 0#w

/-- The index is below the word's width, which the source checks. -/
def mask (idx : Fin w) : BitVec w := 1#w <<< idx.val

def setBit (x : BasicBitVector w) (idx : Fin w) : Bool × BasicBitVector w :=
  let bits_ := x.bits_ ||| mask idx
  (bits_ != x.bits_, ⟨bits_⟩)

def clearBit (x : BasicBitVector w) (idx : Fin w) : Bool × BasicBitVector w :=
  let bits_ := x.bits_ &&& ~~~mask idx
  (bits_ != x.bits_, ⟨bits_⟩)

def getBit (x : BasicBitVector w) (idx : Fin w) : Bool := (x.bits_ &&& mask idx) != 0#w

def LeastSignificantSetBitIndex (bits_ : BitVec w) : Option (Fin w) :=
  (finRange w).find? fun idx => bits_.getLsbD idx

def getAndClearFirstOne (x : BasicBitVector w) : Option (Fin w × BasicBitVector w) :=
  (LeastSignificantSetBitIndex x.bits_).map fun idx => (idx, (x.clearBit idx).2)

def setUnion (x v : BasicBitVector w) : Bool × BasicBitVector w :=
  let bits_ := x.bits_ ||| v.bits_
  (bits_ != x.bits_, ⟨bits_⟩)

def setIntersection (x v : BasicBitVector w) : Bool × BasicBitVector w :=
  let bits_ := x.bits_ &&& v.bits_
  (bits_ != x.bits_, ⟨bits_⟩)

def setDifference (x v : BasicBitVector w) : Bool × BasicBitVector w :=
  let bits_ := x.bits_ &&& ~~~v.bits_
  (bits_ != x.bits_, ⟨bits_⟩)

def intersectsWith (x v : BasicBitVector w) : Bool := (x.bits_ &&& v.bits_) != 0#w

/-- The set bits in increasing order. -/
def ones (x : BasicBitVector w) : List (Fin w) := (finRange w).filter x.getBit

/-! ### What a word contains -/

theorem getLsbD_mask (idx i : Fin w) : (mask idx).getLsbD i = decide (i = idx) := by
  rw [mask, <- twoPow_eq, getLsbD_twoPow]
  by_cases same : i = idx
  · simp [same]
  · simp [same, Fin.val_ne_of_ne (Ne.symm same)]

variable {x y : BasicBitVector w}

theorem ext_getLsbD (same : ∀ i : Fin w, x.bits_.getLsbD i = y.bits_.getLsbD i) : x = y := by
  rcases x with ⟨x⟩
  rcases y with ⟨y⟩
  exact congrArg mk (eq_of_getLsbD_eq fun i below => same ⟨i, below⟩)

theorem getBit_eq (x : BasicBitVector w) (idx : Fin w) : x.getBit idx = x.bits_.getLsbD idx := by
  have alone : x.bits_ &&& mask idx = if x.bits_.getLsbD idx then mask idx else 0#w := by
    apply eq_of_getLsbD_eq
    intro i below
    rw [getLsbD_and, getLsbD_mask idx ⟨i, below⟩]
    by_cases same : (⟨i, below⟩ : Fin w) = idx
    · subst same
      cases there : x.bits_.getLsbD i
      · simp
      · simp [getLsbD_mask _ (⟨i, below⟩ : Fin w)]
    · cases x.bits_.getLsbD idx.val
      · simp [same]
      · simp [getLsbD_mask _ (⟨i, below⟩ : Fin w), same]
  have some : mask idx ≠ 0#w := by
    intro none
    have bit := getLsbD_mask idx idx
    rw [none, getLsbD_zero] at bit
    exact absurd bit.symm (by simp)
  rw [getBit, alone]
  cases x.bits_.getLsbD idx.val
  · simp
  · simpa using some

theorem getBit_ext (same : ∀ i, x.getBit i = y.getBit i) : x = y :=
  ext_getLsbD fun i => by rw [<- getBit_eq, <- getBit_eq, same i]

@[simp] theorem getBit_clear (i : Fin w) : (clear : BasicBitVector w).getBit i = false := by
  rw [getBit_eq, clear, getLsbD_zero]

@[simp] theorem getBit_setAll (i : Fin w) : (setAll : BasicBitVector w).getBit i = true := by
  simp [getBit_eq, setAll]

@[simp] theorem getBit_setBit (x : BasicBitVector w) (idx i : Fin w) :
    (x.setBit idx).2.getBit i = (x.getBit i || decide (i = idx)) := by
  rw [getBit_eq, getBit_eq, setBit, getLsbD_or, getLsbD_mask]

@[simp] theorem getBit_clearBit (x : BasicBitVector w) (idx i : Fin w) :
    (x.clearBit idx).2.getBit i = (x.getBit i && !decide (i = idx)) := by
  rw [getBit_eq, getBit_eq, clearBit, getLsbD_and, getLsbD_not, getLsbD_mask,
    decide_eq_true i.isLt, Bool.true_and]

@[simp] theorem getBit_setUnion (x v : BasicBitVector w) (i : Fin w) :
    (x.setUnion v).2.getBit i = (x.getBit i || v.getBit i) := by
  simp [getBit_eq, setUnion]

@[simp] theorem getBit_setIntersection (x v : BasicBitVector w) (i : Fin w) :
    (x.setIntersection v).2.getBit i = (x.getBit i && v.getBit i) := by
  simp [getBit_eq, setIntersection]

@[simp] theorem getBit_setDifference (x v : BasicBitVector w) (i : Fin w) :
    (x.setDifference v).2.getBit i = (x.getBit i && !v.getBit i) := by
  simp [getBit_eq, setDifference]

variable {x : BasicBitVector w}

theorem empty_iff : x.empty = true ↔ x = clear := by
  rcases x with ⟨bits⟩
  simp [empty, clear]

theorem empty_iff_getBit : x.empty = true ↔ ∀ i, x.getBit i = false := by
  refine empty_iff.trans ⟨fun same i => same ▸ getBit_clear i, fun none => getBit_ext fun i => ?_⟩
  rw [none i, getBit_clear]

/-- The flag of every update tells whether the word changed. -/
theorem bne_bits (x y : BasicBitVector w) : (y.bits_ != x.bits_) = true ↔ y ≠ x := by
  rcases x with ⟨x⟩
  rcases y with ⟨y⟩
  simp

theorem setBit_changes (x : BasicBitVector w) (idx : Fin w) : (x.setBit idx).1 = !x.getBit idx := by
  cases there : x.getBit idx
  · refine (bne_bits x (x.setBit idx).2).mpr fun same => ?_
    have bit := getBit_setBit x idx idx
    rw [same, there] at bit
    simp at bit
  · refine Bool.eq_false_iff.mpr fun changed => (bne_bits x (x.setBit idx).2).mp changed ?_
    apply getBit_ext
    intro i
    by_cases same : i = idx
    · simp [same, there]
    · simp [same]

theorem clearBit_changes (x : BasicBitVector w) (idx : Fin w) :
    (x.clearBit idx).1 = x.getBit idx := by
  cases there : x.getBit idx
  · refine Bool.eq_false_iff.mpr fun changed => (bne_bits x (x.clearBit idx).2).mp changed ?_
    apply getBit_ext
    intro i
    by_cases same : i = idx
    · simp [same, there]
    · simp [same]
  · refine (bne_bits x (x.clearBit idx).2).mpr fun same => ?_
    have bit := getBit_clearBit x idx idx
    rw [same, there] at bit
    simp at bit

theorem setIntersection_changes {x v : BasicBitVector w} :
    (x.setIntersection v).1 = true ↔ ∃ i, x.getBit i = true ∧ v.getBit i = false := by
  refine (bne_bits x (x.setIntersection v).2).trans ⟨fun changed => ?_, ?_⟩
  · by_contra kept
    refine changed (getBit_ext fun i => ?_)
    rw [getBit_setIntersection]
    cases bit : x.getBit i
    · rfl
    · exact Bool.of_not_eq_false fun other => kept ⟨i, bit, other⟩
  · rintro ⟨i, bit, other⟩ same
    have both := getBit_setIntersection x v i
    rw [same, bit, other] at both
    exact absurd both nofun

theorem intersectsWith_iff {x v : BasicBitVector w} :
    x.intersectsWith v = true ↔ ∃ i, x.getBit i = true ∧ v.getBit i = true := by
  have apart : x.intersectsWith v = false ↔ (x.setIntersection v).2.empty = true := by
    simp [intersectsWith, setIntersection, empty]
  rw [<- not_iff_not, Bool.not_eq_true, apart, empty_iff_getBit]
  simp

theorem mem_ones {i : Fin w} : i ∈ x.ones ↔ x.getBit i = true := by
  simp [ones]

theorem nodup_ones (x : BasicBitVector w) : x.ones.Nodup := (nodup_finRange w).filter _

theorem sorted_ones (x : BasicBitVector w) : x.ones.Pairwise (· < ·) :=
  (pairwise_lt_finRange w).filter _

/-! ### Taking bits out one by one -/

/-- Filtering a list without duplicates finds the first match, and then what
filtering without that element finds. -/
theorem filter_eq_cons_of_find? {α : Type*} [DecidableEq α] {p : α -> Bool} {list : List α}
    {first : α} (distinct : list.Nodup) (found : list.find? p = some first) :
    list.filter p = first :: list.filter fun a => p a && !decide (a = first) := by
  rcases find?_eq_some_iff_append.mp found with ⟨holds, before, after, rfl, failing⟩
  have apart := nodup_middle.mp distinct
  have other : ∀ a ∈ before ++ after, a ≠ first := fun a mem same =>
    (nodup_cons.mp apart).1 (same ▸ mem)
  have none : before.filter p = [] :=
    filter_eq_nil_iff.mpr fun a mem => by simpa using failing a mem
  have none' : before.filter (fun a => p a && !decide (a = first)) = [] :=
    filter_eq_nil_iff.mpr fun a mem => by
      simp [show p a = false by simpa using failing a mem]
  have rest : after.filter (fun a => p a && !decide (a = first)) = after.filter p :=
    filter_congr fun a mem => by simp [other a (mem_append_right _ mem)]
  rw [filter_append, filter_append, none, none', filter_cons_of_pos holds,
    filter_cons_of_neg (by simp), nil_append, nil_append, rest]

theorem find?_getBit (x : BasicBitVector w) :
    LeastSignificantSetBitIndex x.bits_ = (finRange w).find? x.getBit := by
  rw [LeastSignificantSetBitIndex]
  congr 1
  funext i
  exact (getBit_eq x i).symm

theorem getAndClearFirstOne_none : x.getAndClearFirstOne = none ↔ x.ones = [] := by
  rw [getAndClearFirstOne, Option.map_eq_none_iff, find?_getBit, find?_eq_none, ones,
    filter_eq_nil_iff]

theorem getAndClearFirstOne_some {i : Fin w}
    (taken : x.getAndClearFirstOne = some (i, y)) : x.ones = i :: y.ones := by
  rcases Option.map_eq_some_iff.mp taken with ⟨first, found, same⟩
  rcases Prod.mk.inj same with ⟨rfl, rfl⟩
  rw [find?_getBit] at found
  refine (filter_eq_cons_of_find? (nodup_finRange w) found).trans ?_
  refine congrArg _ (filter_congr fun i _ => ?_)
  rw [getBit_clearBit]

theorem ones_eq_nil : x.ones = [] ↔ x.empty = true := by
  rw [empty_iff_getBit, ones, filter_eq_nil_iff]
  simp

theorem le_of_find? {α : Type*} [Preorder α] {p : α -> Bool} {list : List α} {first a : α}
    (sorted : list.Pairwise (· < ·)) (found : list.find? p = some first) (mem : a ∈ list)
    (holds : p a = true) : first <= a := by
  rcases find?_eq_some_iff_append.mp found with ⟨-, before, after, rfl, failing⟩
  rcases mem_append.mp mem with early | late
  · exact absurd holds (by simpa using failing a early)
  · rcases mem_cons.mp late with rfl | late
    · exact le_rfl
    · exact le_of_lt (rel_of_pairwise_cons (pairwise_append.mp sorted).2.1 late)

/-- A word with a set bit gives the lowest one away. -/
theorem getAndClearFirstOne_least (some' : x.empty = false) :
    ∃ i, x.getAndClearFirstOne = some (i, (x.clearBit i).2) ∧ x.getBit i = true ∧
      ∀ j, x.getBit j = true -> i <= j := by
  rw [getAndClearFirstOne, find?_getBit]
  cases found : (finRange w).find? x.getBit with
  | none =>
    have none := find?_eq_none.mp found
    have zero : x.empty = true :=
      empty_iff_getBit.mpr fun i => Bool.eq_false_iff.mpr (none i (mem_finRange i))
    exact absurd (some'.symm.trans zero) nofun
  | some i =>
    refine ⟨i, rfl, find?_some found, fun j bit => ?_⟩
    exact le_of_find? (pairwise_lt_finRange w) found (mem_finRange j) bit

/-- The loop `while (!t.empty()) body(t.getAndClearFirstOne())`. -/
def whileOnes {σ : Type*} (body : σ -> Fin w -> σ) (t : BasicBitVector w) (state : σ) : σ :=
  match _taken : t.getAndClearFirstOne with
  | none => state
  | some (i, rest) => whileOnes body rest (body state i)
termination_by t.ones.length
decreasing_by
  rw [getAndClearFirstOne_some _taken]
  exact Nat.lt_succ_self _

theorem whileOnes_eq {σ : Type*} (body : σ -> Fin w -> σ) (t : BasicBitVector w) (state : σ) :
    whileOnes body t state = t.ones.foldl body state := by
  fun_induction whileOnes body t state with
  | case1 t state taken => rw [getAndClearFirstOne_none.mp taken, foldl_nil]
  | case2 t state i rest taken ih =>
    rw [getAndClearFirstOne_some taken, foldl_cons, ih]

/-- The loop `while (!t.empty()) if (body(t.getAndClearFirstOne())) return true`. -/
def anyOne (body : Fin w -> Bool) (t : BasicBitVector w) : Bool :=
  match _taken : t.getAndClearFirstOne with
  | none => false
  | some (i, rest) => if body i then true else anyOne body rest
termination_by t.ones.length
decreasing_by
  rw [getAndClearFirstOne_some _taken]
  exact Nat.lt_succ_self _

theorem anyOne_eq (body : Fin w -> Bool) (t : BasicBitVector w) :
    anyOne body t = t.ones.any body := by
  fun_induction anyOne body t with
  | case1 t taken => rw [getAndClearFirstOne_none.mp taken, any_nil]
  | case2 t i rest taken holds => simp [getAndClearFirstOne_some taken, holds]
  | case3 t i rest taken fails ih =>
    simp [getAndClearFirstOne_some taken, fails, ih]

end BasicBitVector

/-! ## Two levels -/

structure TwoLevelBitVector (n w : Nat) where
  l1_ : Fin n -> BasicBitVector w
  l2_ : Fin n -> Fin w -> BasicBitVector w

namespace TwoLevelBitVector

variable {n w : Nat}

def size (_ : TwoLevelBitVector n w) : Nat := w * w * n

def setL1 (x : TwoLevelBitVector n w) (i0 : Fin n) (word : BasicBitVector w) :
    TwoLevelBitVector n w :=
  { x with l1_ := Function.update x.l1_ i0 word }

def setL2 (x : TwoLevelBitVector n w) (i0 : Fin n) (i1 : Fin w) (word : BasicBitVector w) :
    TwoLevelBitVector n w :=
  { x with l2_ := Function.update x.l2_ i0 (Function.update (x.l2_ i0) i1 word) }

/-- The vector before its first `clear` or `setAll` holds anything. -/
def clear (x : TwoLevelBitVector n w) : TwoLevelBitVector n w := { x with l1_ := fun _ => .clear }

def setAll (_ : TwoLevelBitVector n w) : TwoLevelBitVector n w :=
  ⟨fun _ => .setAll, fun _ _ => .setAll⟩

def empty (x : TwoLevelBitVector n w) : Bool := (finRange n).all fun i => (x.l1_ i).empty

theorem idx0_lt {idx : Nat} (below : idx < w * w * n) : idx / (w * w) < n :=
  Nat.div_lt_of_lt_mul below

theorem width_pos {idx : Nat} (below : idx < w * w * n) : 0 < w := by
  refine Nat.pos_of_ne_zero fun none => ?_
  subst none
  simp at below

/-- The indices `idx0`, `idx1` and `idx2`.  The source's `check` lets the size
itself pass; there is no word at that index, which the model treats like a
failed check. -/
def locate (n w idx : Nat) : Option (Fin n × Fin w × Fin w) :=
  if below : idx < w * w * n then
    some (⟨idx / (w * w), idx0_lt below⟩, ⟨idx / w % w, Nat.mod_lt _ (width_pos below)⟩,
      ⟨idx % w, Nat.mod_lt _ (width_pos below)⟩)
  else none

def setBit (x : TwoLevelBitVector n w) (idx : Nat) : Option (Bool × TwoLevelBitVector n w) :=
  (locate n w idx).map fun (i0, i1, i2) =>
    let x := if (x.l1_ i0).getBit i1 then x
      else (x.setL1 i0 ((x.l1_ i0).setBit i1).2).setL2 i0 i1 .clear
    let word := (x.l2_ i0 i1).setBit i2
    (word.1, x.setL2 i0 i1 word.2)

def clearBit (x : TwoLevelBitVector n w) (idx : Nat) : Option (Bool × TwoLevelBitVector n w) :=
  (locate n w idx).map fun (i0, i1, i2) =>
    if (x.l1_ i0).getBit i1 then
      let word := (x.l2_ i0 i1).clearBit i2
      let x := x.setL2 i0 i1 word.2
      (word.1, if word.2.empty then x.setL1 i0 ((x.l1_ i0).clearBit i1).2 else x)
    else (false, x)

def getBit (x : TwoLevelBitVector n w) (idx : Nat) : Option Bool :=
  (locate n w idx).map fun (i0, i1, i2) => (x.l1_ i0).getBit i1 && (x.l2_ i0 i1).getBit i2

/-- The index of a bit of a second-level word. -/
def index (w i0 i1 i2 : Nat) : Nat := i0 * w * w + i1 * w + i2

/-- The first row whose first-level word is not empty gives its first index
away.  Without such a row, or if the second-level word were empty, a check
fails. -/
def getAndClearFirstOne (x : TwoLevelBitVector n w) : Option (Nat × TwoLevelBitVector n w) :=
  ((finRange n).find? fun i0 => !(x.l1_ i0).empty).bind fun i0 =>
    (x.l1_ i0).getAndClearFirstOne.bind fun (i1, l1) =>
      let x := x.setL1 i0 l1
      (x.l2_ i0 i1).getAndClearFirstOne.map fun (i2, word) =>
        let x := x.setL2 i0 i1 word
        (index w i0 i1 i2, if word.empty then x else x.setL1 i0 ((x.l1_ i0).setBit i1).2)

/-- The operand of a binary operation. -/
inductive Operand (n w : Nat) where
  | other (v : TwoLevelBitVector n w)
  | itself

/-- What the operand holds while the operation runs. -/
def Operand.read (x : TwoLevelBitVector n w) : Operand n w -> TwoLevelBitVector n w
  | .other v => v
  | .itself => x

def unionStep (v : Operand n w) (i0 : Fin n) (state : Bool × TwoLevelBitVector n w)
    (i1 : Fin w) : Bool × TwoLevelBitVector n w :=
  let x := state.2
  let l1 := (x.l1_ i0).setBit i1
  let x := x.setL1 i0 l1.2
  let x := if l1.1 then x.setL2 i0 i1 .clear else x
  let word := (x.l2_ i0 i1).setUnion ((v.read x).l2_ i0 i1)
  (state.1 || word.1, x.setL2 i0 i1 word.2)

def unionRow (v : Operand n w) (state : Bool × TwoLevelBitVector n w) (i0 : Fin n) :
    Bool × TwoLevelBitVector n w :=
  BasicBitVector.whileOnes (unionStep v i0) ((v.read state.2).l1_ i0) state

def setUnion (x : TwoLevelBitVector n w) (v : Operand n w) : Bool × TwoLevelBitVector n w :=
  (finRange n).foldl (unionRow v) (false, x)

def intersectionStep (v : Operand n w) (i0 : Fin n) (state : Bool × TwoLevelBitVector n w)
    (i1 : Fin w) : Bool × TwoLevelBitVector n w :=
  let x := state.2
  let word := (x.l2_ i0 i1).setIntersection ((v.read x).l2_ i0 i1)
  let x := x.setL2 i0 i1 word.2
  (state.1 || word.1, if word.2.empty then x.setL1 i0 ((x.l1_ i0).clearBit i1).2 else x)

/-- The source tests whether the first-level word is empty before it starts
the loop, which would not run then. -/
def intersectionRow (v : Operand n w) (state : Bool × TwoLevelBitVector n w) (i0 : Fin n) :
    Bool × TwoLevelBitVector n w :=
  let l1 := (state.2.l1_ i0).setIntersection ((v.read state.2).l1_ i0)
  let state := (state.1 || l1.1, state.2.setL1 i0 l1.2)
  if (state.2.l1_ i0).empty then state
  else BasicBitVector.whileOnes (intersectionStep v i0) (state.2.l1_ i0) state

def setIntersection (x : TwoLevelBitVector n w) (v : Operand n w) :
    Bool × TwoLevelBitVector n w :=
  (finRange n).foldl (intersectionRow v) (false, x)

def differenceStep (v : Operand n w) (i0 : Fin n) (state : Bool × TwoLevelBitVector n w)
    (i1 : Fin w) : Bool × TwoLevelBitVector n w :=
  let x := state.2
  let word := (x.l2_ i0 i1).setDifference ((v.read x).l2_ i0 i1)
  let x := x.setL2 i0 i1 word.2
  (state.1 || word.1, if word.2.empty then x.setL1 i0 ((x.l1_ i0).clearBit i1).2 else x)

def differenceRow (v : Operand n w) (state : Bool × TwoLevelBitVector n w) (i0 : Fin n) :
    Bool × TwoLevelBitVector n w :=
  let t := ((state.2.l1_ i0).setIntersection ((v.read state.2).l1_ i0)).2
  BasicBitVector.whileOnes (differenceStep v i0) t state

def setDifference (x : TwoLevelBitVector n w) (v : Operand n w) : Bool × TwoLevelBitVector n w :=
  (finRange n).foldl (differenceRow v) (false, x)

def copyFrom (x : TwoLevelBitVector n w) (v : Operand n w) : TwoLevelBitVector n w :=
  (x.clear.setUnion v).2

def intersectsWith (x v : TwoLevelBitVector n w) : Bool :=
  (finRange n).any fun i0 =>
    let t := ((x.l1_ i0).setIntersection (v.l1_ i0)).2
    t.anyOne fun i1 => (v.l1_ i0).getBit i1 && (x.l2_ i0 i1).intersectsWith (v.l2_ i0 i1)

/-! ## The iterator -/

/-- The iterator of `bv_`: the current row and word, and what is left of the
row's first-level word and of the current second-level word. -/
structure Iterator (w : Nat) where
  i0_ : Nat
  i1_ : Nat
  it1_ : BasicBitVector w
  it2_ : BasicBitVector w

namespace Iterator

def begin : Iterator w := ⟨0, 0, .clear, .clear⟩

def hasNext (bv_ : TwoLevelBitVector n w) (it : Iterator w) : Bool :=
  !it.it1_.empty || (finRange n).any fun i => it.i0_ <= i && !(bv_.l1_ i).empty

/-- The loop that looks for the next row with a nonempty first-level word. -/
def nextRow (bv_ : TwoLevelBitVector n w) (it : Iterator w) : Iterator w :=
  if below : it.i0_ < n then
    if (bv_.l1_ ⟨it.i0_, below⟩).empty then nextRow bv_ { it with i0_ := it.i0_ + 1 }
    else { it with it1_ := bv_.l1_ ⟨it.i0_, below⟩ }
  else it
termination_by n - it.i0_

/-- The next second-level word of the current row. -/
def nextWord (bv_ : TwoLevelBitVector n w) (it : Iterator w) : Option (Iterator w) :=
  it.it1_.getAndClearFirstOne.bind fun (i1, it1) =>
    if below : it.i0_ < n then
      some { it with i1_ := i1, it1_ := it1, it2_ := bv_.l2_ ⟨it.i0_, below⟩ i1 }
    else none

/-- The next bit of the current second-level word. -/
def nextBit (it : Iterator w) : Option (Nat × Iterator w) :=
  it.it2_.getAndClearFirstOne.map fun (i2, it2) =>
    let res := index w it.i0_ it.i1_ i2
    if it.it1_.empty && it2.empty then (res, { it with i0_ := it.i0_ + 1, it2_ := it2 })
    else (res, { it with it2_ := it2 })

def next (bv_ : TwoLevelBitVector n w) (it : Iterator w) : Option (Nat × Iterator w) :=
  let it := if it.it1_.empty && it.it2_.empty then nextRow bv_ it else it
  (if it.it2_.empty then nextWord bv_ it else some it).bind nextBit

end Iterator
end TwoLevelBitVector
end LlvmProject
