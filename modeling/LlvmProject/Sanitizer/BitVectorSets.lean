import LlvmProject.Library.Sweep
import LlvmProject.Sanitizer.BitVector

namespace LlvmProject

open Bool hiding or_assoc
open Function

namespace TwoLevelBitVector

/-!
# The sets behind the two-level bit vectors

A second-level word counts only while its bit of the first level is set.  The
content of a vector is therefore its family of effective words: the
second-level word, or the empty word where the first-level bit is clear.  In a
valid vector every set first-level bit has a nonempty second-level word, so
the first-level bits can be read off the effective words.

Each update either leaves an effective word alone or puts a new one in its
place.  The binary operations sweep over the words of one row after another,
and a word is never visited twice; this is what makes them right also when a
vector is its own operand.
-/

open BasicBitVector

variable {n w : Nat} {x x' : TwoLevelBitVector n w}

/-! ## Effective words -/

/-- The effective second-level words. -/
def words (x : TwoLevelBitVector n w) (i0 : Fin n) (i1 : Fin w) : BasicBitVector w :=
  if (x.l1_ i0).getBit i1 then x.l2_ i0 i1 else .clear

/-- A first-level bit is set only over a nonempty second-level word. -/
def Valid (x : TwoLevelBitVector n w) : Prop :=
  ∀ i0 i1, (x.l1_ i0).getBit i1 = true -> (x.l2_ i0 i1).empty = false

@[simp] theorem empty_clear : (BasicBitVector.clear : BasicBitVector w).empty = true :=
  empty_iff.mpr rfl

variable {i0 : Fin n}

variable {i1 : Fin w}

theorem words_of_bit (bit : (x.l1_ i0).getBit i1 = true) :
    x.words i0 i1 = x.l2_ i0 i1 :=
  if_pos bit

theorem words_of_not_bit (bit : (x.l1_ i0).getBit i1 = false) :
    x.words i0 i1 = .clear :=
  if_neg (by simp [bit])

theorem Valid.bit_eq (valid : x.Valid) (i0 : Fin n) (i1 : Fin w) :
    (x.l1_ i0).getBit i1 = !(x.words i0 i1).empty := by
  cases bit : (x.l1_ i0).getBit i1
  · simp [words_of_not_bit bit]
  · simp [words_of_bit bit, valid i0 i1 bit]

/-- The vector `x'` is `x` with the effective word at `(i0, i1)` replaced. -/
structure Puts (x : TwoLevelBitVector n w) (i0 : Fin n) (i1 : Fin w) (word : BasicBitVector w)
    (x' : TwoLevelBitVector n w) : Prop where
  bit : (x'.l1_ i0).getBit i1 = !word.empty
  here : word.empty = false -> x'.l2_ i0 i1 = word
  otherBits : ∀ j0 j1, ¬(j0 = i0 ∧ j1 = i1) -> (x'.l1_ j0).getBit j1 = (x.l1_ j0).getBit j1
  otherWords : ∀ j0 j1, ¬(j0 = i0 ∧ j1 = i1) -> x'.l2_ j0 j1 = x.l2_ j0 j1

namespace Puts

variable {i0 : Fin n} {i1 : Fin w} {word : BasicBitVector w}

section

variable (puts : x.Puts i0 i1 word x')
include puts

theorem valid (valid : x.Valid) : x'.Valid := by
  intro j0 j1 bit
  by_cases same : j0 = i0 ∧ j1 = i1
  · rcases same with ⟨rfl, rfl⟩
    rw [puts.bit, not_eq_true'] at bit
    rw [puts.here bit, bit]
  · rw [puts.otherBits j0 j1 same] at bit
    rw [puts.otherWords j0 j1 same]
    exact valid j0 j1 bit

theorem words_here : x'.words i0 i1 = word := by
  cases content : word.empty
  · rw [words_of_bit (by rw [puts.bit, content]; rfl), puts.here content]
  · rw [words_of_not_bit (by rw [puts.bit, content]; rfl), empty_iff.mp content]

theorem words_other {j0 : Fin n} {j1 : Fin w}
    (other : ¬(j0 = i0 ∧ j1 = i1)) : x'.words j0 j1 = x.words j0 j1 := by
  rw [words, words, puts.otherBits j0 j1 other, puts.otherWords j0 j1 other]

theorem words_row : x'.words i0 = update (x.words i0) i1 word := by
  funext j1
  by_cases same : j1 = i1
  · subst same
    rw [puts.words_here, update_self]
  · rw [puts.words_other fun both => same both.2, update_of_ne same]

end

end Puts

/-! ## Writing words -/

section Writing

variable {i0 j0 : Fin n} {i1 j1 : Fin w} {word l1 : BasicBitVector w}

@[simp] theorem setL1_l2 : (x.setL1 i0 word).l2_ = x.l2_ := rfl

@[simp] theorem setL2_l1 : (x.setL2 i0 i1 word).l1_ = x.l1_ := rfl

theorem setL2_l2 : (x.setL2 i0 i1 word).l2_ = update x.l2_ i0 (update (x.l2_ i0) i1 word) := rfl

@[simp] theorem setL1_here : (x.setL1 i0 word).l1_ i0 = word := update_self ..

@[simp] theorem setL2_here : (x.setL2 i0 i1 word).l2_ i0 i1 = word := by
  rw [setL2_l2, update_self, update_self]

theorem setL1_other (other : j0 ≠ i0) : (x.setL1 i0 word).l1_ j0 = x.l1_ j0 := update_of_ne other ..

theorem setL2_other (other : ¬(j0 = i0 ∧ j1 = i1)) :
    (x.setL2 i0 i1 word).l2_ j0 j1 = x.l2_ j0 j1 := by
  by_cases row : j0 = i0
  · subst row
    rw [setL2_l2, update_self, update_of_ne fun column => other ⟨rfl, column⟩]
  · rw [setL2_l2, update_of_ne row]

/-- A second-level word is written, and the first-level word of its row
changes at most in its bit. -/
theorem puts_of_eq (l2 : x'.l2_ i0 i1 = word) (bit : (x'.l1_ i0).getBit i1 = !word.empty)
    (row : ∀ j1, j1 ≠ i1 -> (x'.l1_ i0).getBit j1 = (x.l1_ i0).getBit j1) (rows : ∀ j0, j0 ≠ i0 ->
    x'.l1_ j0 = x.l1_ j0) (others : ∀ j0 j1, ¬(j0 = i0 ∧ j1 = i1) -> x'.l2_ j0 j1 = x.l2_ j0 j1) :
    x.Puts i0 i1 word x' := by
  refine ⟨bit, fun _ => l2, fun j0 j1 other => ?_, others⟩
  by_cases same : j0 = i0
  · subst same
    exact row j1 fun column => other ⟨rfl, column⟩
  · rw [rows j0 same]

theorem puts_setBit (some' : word.empty = false) :
    x.Puts i0 i1 word ((x.setL1 i0 ((x.l1_ i0).setBit i1).2).setL2 i0 i1 word) := by
  apply puts_of_eq
  · exact setL2_here
  · simp [some']
  · intro j1 other
    simp [other]
  · intro j0 other
    rw [setL2_l1, setL1_other other]
  · intro j0 j1 other
    rw [setL2_other other, setL1_l2]

theorem puts_clearBit (bit : (x.l1_ i0).getBit i1 = true) :
    x.Puts i0 i1 word
      (if word.empty then (x.setL2 i0 i1 word).setL1 i0 ((x.l1_ i0).clearBit i1).2
        else x.setL2 i0 i1 word) := by
  cases content : word.empty
  · apply puts_of_eq
    · exact setL2_here
    · simpa [content] using bit
    · exact fun _ _ => rfl
    · exact fun _ _ => rfl
    · exact fun j0 j1 other => setL2_other other
  · rw [if_pos rfl]
    apply puts_of_eq
    · exact setL2_here
    · simp [content]
    · intro j1 other
      simp [other]
    · intro j0 other
      rw [setL1_other other, setL2_l1]
    · intro j0 j1 other
      rw [setL1_l2, setL2_other other]

end Writing

/-! ## Single bits -/

theorem bit_of_words (some' : (x.words i0 i1).empty = false) : (x.l1_ i0).getBit i1 = true := by
  cases bit : (x.l1_ i0).getBit i1
  · rw [words_of_not_bit bit, empty_clear] at some'
    exact absurd some' nofun
  · rfl

theorem empty_of_getBit {word : BasicBitVector w} {i : Fin w} (bit : word.getBit i = true) :
    word.empty = false := by
  refine eq_false_iff.mpr fun none => ?_
  rw [empty_iff_getBit.mp none i] at bit
  exact absurd bit nofun

theorem setL2_setL2 {word word' : BasicBitVector w} :
    (x.setL2 i0 i1 word).setL2 i0 i1 word' = x.setL2 i0 i1 word' := by
  simp [setL2]

/-- Setting a first-level bit that is set changes nothing. -/
theorem setL1_setBit (bit : (x.l1_ i0).getBit i1 = true) :
    x.setL1 i0 ((x.l1_ i0).setBit i1).2 = x := by
  have same : ((x.l1_ i0).setBit i1).2 = x.l1_ i0 := by
    apply getBit_ext
    intro i
    by_cases here : i = i1
    · simp [here, bit]
    · simp [here]
  rw [same, setL1, update_eq_self]

theorem setBit_spec {idx : Nat} {i1 i2 : Fin w} (located : locate n w idx = some (i0, i1, i2)) :
    ∃ x', x.setBit idx = some (((x.words i0 i1).setBit i2).1, x') ∧
      x.Puts i0 i1 ((x.words i0 i1).setBit i2).2 x' := by
  have some' : ((x.words i0 i1).setBit i2).2.empty = false := empty_of_getBit (i := i2) (by simp)
  refine ⟨_, ?_, puts_setBit some'⟩
  rw [TwoLevelBitVector.setBit, located, Option.map_some]
  cases bit : (x.l1_ i0).getBit i1
  · simp [bit, words_of_not_bit bit, setL2_setL2]
  · simp [bit, words_of_bit bit, setL1_setBit bit]

theorem clearBit_spec {idx : Nat} {i1 i2 : Fin w} (located : locate n w idx = some (i0, i1, i2)) :
    ∃ x', x.clearBit idx = some (((x.words i0 i1).clearBit i2).1, x') ∧
      x.Puts i0 i1 ((x.words i0 i1).clearBit i2).2 x' := by
  rw [TwoLevelBitVector.clearBit, located, Option.map_some]
  cases bit : (x.l1_ i0).getBit i1
  · have none : (BasicBitVector.clear : BasicBitVector w).clearBit i2 = (false, .clear) := by
      simp [BasicBitVector.clearBit, BasicBitVector.clear]
    rw [words_of_not_bit bit, none]
    refine ⟨x, by simp [bit], by simp [bit], fun some' => ?_, fun _ _ _ => rfl, fun _ _ _ => rfl⟩
    exact absurd some' (by simp)
  · rw [words_of_bit bit]
    refine ⟨_, ?_, puts_clearBit bit⟩
    simp only [bit, if_true, setL2_l1]

theorem getBit_spec {idx : Nat} {i1 i2 : Fin w} (located : locate n w idx = some (i0, i1, i2)) :
    x.getBit idx = some ((x.words i0 i1).getBit i2) := by
  rw [TwoLevelBitVector.getBit, located, Option.map_some]
  cases bit : (x.l1_ i0).getBit i1
  · simp [bit, words_of_not_bit bit]
  · simp [bit, words_of_bit bit]

/-! ## Binary operations -/

/-- One visit of a binary operation: the effective word is replaced, and the
flag records a change. -/
def Writes (i0 : Fin n) (i1 : Fin w) (word : BasicBitVector w)
    (state next : Bool × TwoLevelBitVector n w) : Prop :=
  state.2.Puts i0 i1 word next.2 ∧ (next.1 = true ↔ state.1 = true ∨ word ≠ state.2.words i0 i1)

theorem flag_iff {flag : Bool} {x y : BasicBitVector w} :
    (flag || (y.bits_ != x.bits_)) = true ↔ flag = true ∨ y ≠ x := by
  rw [or_eq_true, bne_bits]

variable {v : Operand n w} {state : Bool × TwoLevelBitVector n w} {i0 : Fin n} {i1 : Fin w}

theorem unionStep_writes (operand : ((v.read state.2).words i0 i1).empty = false) :
    Writes i0 i1 ((state.2.words i0 i1).setUnion ((v.read state.2).words i0 i1)).2 state
      (unionStep v i0 state i1) := by
  have operandBit := bit_of_words operand
  have some' : ((state.2.words i0 i1).setUnion ((v.read state.2).words i0 i1)).2.empty = false := by
    refine eq_false_iff.mpr fun none => eq_false_iff.mp operand ?_
    refine empty_iff_getBit.mpr fun i => ?_
    have both := empty_iff_getBit.mp none i
    rw [getBit_setUnion, or_eq_false_iff] at both
    exact both.2
  have same : unionStep v i0 state i1 =
      (state.1 || ((state.2.words i0 i1).setUnion ((v.read state.2).words i0 i1)).1,
        (state.2.setL1 i0 ((state.2.l1_ i0).setBit i1).2).setL2 i0 i1
          ((state.2.words i0 i1).setUnion ((v.read state.2).words i0 i1)).2) := by
    rw [words_of_bit operandBit]
    cases bit : (state.2.l1_ i0).getBit i1
    · cases v with
      | other v =>
        simp [unionStep, setBit_changes, bit, words_of_not_bit bit, setL2_setL2, Operand.read]
      | itself => exact absurd operandBit (by simp [Operand.read, bit])
    · cases v <;> simp [unionStep, setBit_changes, bit, words_of_bit bit, Operand.read]
  rw [same]
  exact ⟨puts_setBit some', flag_iff⟩

theorem intersectionStep_writes (v : Operand n w) (i0 : Fin n) (i1 : Fin w) (bit : (state.2.l1_
    i0).getBit i1 = true) (operandBit : ((v.read state.2).l1_ i0).getBit i1 = true) :
    Writes i0 i1 ((state.2.words i0 i1).setIntersection ((v.read state.2).words i0 i1)).2 state
      (intersectionStep v i0 state i1) := by
  rw [words_of_bit bit, words_of_bit operandBit]
  refine ⟨puts_clearBit bit, ?_⟩
  rw [words_of_bit bit]
  exact flag_iff

theorem differenceStep_writes (v : Operand n w) (i0 : Fin n) (i1 : Fin w) (bit : (state.2.l1_
    i0).getBit i1 = true) (operandBit : ((v.read state.2).l1_ i0).getBit i1 = true) :
    Writes i0 i1 ((state.2.words i0 i1).setDifference ((v.read state.2).words i0 i1)).2 state
      (differenceStep v i0 state i1) := by
  rw [words_of_bit bit, words_of_bit operandBit]
  refine ⟨puts_clearBit bit, ?_⟩
  rw [words_of_bit bit]
  exact flag_iff

/-! ## Rows -/

def Operand.Valid : Operand n w -> Prop
  | .other v => v.Valid
  | .itself => True

theorem Operand.Valid.read (operand : v.Valid) (valid : x.Valid) : (v.read x).Valid := by
  cases v with
  | other v => exact operand
  | itself => exact valid

theorem Operand.words_read (same : x.words i0 i1 = x'.words i0 i1) :
    (v.read x).words i0 i1 = (v.read x').words i0 i1 := by
  cases v with
  | other v => rfl
  | itself => exact same

/-- A loop over some words of a row brings the whole row to its target if the
words it leaves out are there already. -/
theorem whileOnes_row (i0 : Fin n) (step : Bool × TwoLevelBitVector n w -> Fin w -> Bool ×
    TwoLevelBitVector n w) (t : BasicBitVector w) (target : Fin w -> BasicBitVector w) (valid :
    state.2.Valid) (steps : ∀ s : Bool × TwoLevelBitVector n w, s.2.Valid -> ∀ i1, t.getBit i1 =
    true
    -> s.2.words i0 i1 = state.2.words i0 i1 -> Writes i0 i1 (target i1) s (step s i1)) (skipped : ∀
    i1, t.getBit i1 = false -> target i1 = state.2.words i0 i1) :
    (whileOnes step t state).2.Valid ∧
      (whileOnes step t state).2.words = update state.2.words i0 target ∧
      ((whileOnes step t state).1 = true ↔ state.1 = true ∨ target ≠ state.2.words i0) := by
  have sweep := Sweep.foldl_sweep (fun s : Bool × TwoLevelBitVector n w => s.2.words i0) Prod.fst
    (fun s => s.2.Valid ∧ ∀ j0, j0 ≠ i0 -> s.2.words j0 = state.2.words j0)
    (state.2.words i0) target step (nodup_ones t) ⟨valid, fun _ _ => rfl⟩ (fun _ _ => rfl) ?_
  · rcases sweep with ⟨⟨kept, others⟩, visited, left, raised⟩
    rw [whileOnes_eq]
    have reached : (t.ones.foldl step state).2.words i0 = target := by
      funext i1
      by_cases mem : i1 ∈ t.ones
      · exact visited i1 mem
      · refine (left i1 mem).trans (skipped i1 ?_).symm
        exact eq_false_iff.mpr fun bit => mem (mem_ones.mpr bit)
    refine ⟨kept, ?_, raised.trans (or_congr_right ⟨?_, ?_⟩)⟩
    · funext j0
      by_cases here : j0 = i0
      · subst here
        rw [reached, update_self]
      · rw [others j0 here, update_of_ne here]
    · rintro ⟨i1, -, changed⟩ same
      exact changed (congrFun same i1)
    · intro changed
      rcases ne_iff.mp changed with ⟨i1, changed⟩
      refine ⟨i1, mem_ones.mpr ?_, changed⟩
      exact of_not_eq_false fun bit => changed (skipped i1 bit)
  · rintro s i1 mem ⟨sValid, others⟩ untouched
    rcases steps s sValid i1 (mem_ones.mp mem) untouched with ⟨puts, flag⟩
    refine ⟨⟨puts.valid sValid, fun j0 other => ?_⟩, puts.words_row, untouched ▸ flag⟩
    funext j1
    exact (puts.words_other fun both => other both.1).trans (congrFun (others j0 other) j1)

/-- What a binary operation does to a row is what it does to the vector. -/
theorem foldl_rows (row : Bool × TwoLevelBitVector n w -> Fin n -> Bool × TwoLevelBitVector n w)
    (target : Fin n -> Fin w -> BasicBitVector w) (valid : x.Valid) (rows : ∀ (s : Bool ×
    TwoLevelBitVector n w) (i0 : Fin n), s.2.Valid -> s.2.words i0 = x.words i0 -> (row s
    i0).2.Valid ∧ (row s i0).2.words = update s.2.words i0 (target i0) ∧ ((row s i0).1 = true ↔ s.1
    = true ∨ target i0 ≠ s.2.words i0)) :
    ((List.finRange n).foldl row (false, x)).2.Valid ∧
      ((List.finRange n).foldl row (false, x)).2.words = target ∧
      (((List.finRange n).foldl row (false, x)).1 = true ↔ target ≠ x.words) := by
  have sweep := Sweep.foldl_sweep (fun s : Bool × TwoLevelBitVector n w => s.2.words) Prod.fst
    (fun s => s.2.Valid) x.words target row (List.nodup_finRange n)
    (show (false, x).2.Valid from valid) (fun _ _ => rfl) ?_
  · rcases sweep with ⟨kept, visited, -, raised⟩
    refine ⟨kept, funext fun i0 => visited i0 (List.mem_finRange i0), raised.trans ⟨?_, ?_⟩⟩
    · rintro (never | ⟨i0, -, changed⟩)
      · exact absurd never nofun
      · exact fun same => changed (congrFun same i0)
    · intro changed
      rcases ne_iff.mp changed with ⟨i0, changed⟩
      exact .inr ⟨i0, List.mem_finRange i0, changed⟩
  · intro s i0 _ sValid untouched
    rcases rows s i0 sValid untouched with ⟨kept, reached, flag⟩
    exact ⟨kept, reached, untouched ▸ flag⟩

/-! ## Union, intersection and difference -/

section

variable (word : BasicBitVector w)

theorem setUnion_clear : (word.setUnion .clear).2 = word := by
  apply getBit_ext
  simp

theorem setIntersection_clear : (word.setIntersection .clear).2 = .clear := by
  apply getBit_ext
  simp

theorem clear_setIntersection : (BasicBitVector.clear.setIntersection word).2 = .clear := by
  apply getBit_ext
  simp

theorem setDifference_clear : (word.setDifference .clear).2 = word := by
  apply getBit_ext
  simp

theorem clear_setDifference : (BasicBitVector.clear.setDifference word).2 = .clear := by
  apply getBit_ext
  simp

end

theorem setUnion_spec (valid : x.Valid) (operand : v.Valid) :
    (x.setUnion v).2.Valid ∧
      (x.setUnion v).2.words =
        (fun i0 i1 => ((x.words i0 i1).setUnion ((v.read x).words i0 i1)).2) ∧
      ((x.setUnion v).1 = true ↔ (x.setUnion v).2.words ≠ x.words) := by
  have sweep := foldl_rows (unionRow v)
    (fun i0 i1 => ((x.words i0 i1).setUnion ((v.read x).words i0 i1)).2) valid ?_
  · exact ⟨sweep.1, sweep.2.1, sweep.2.1.symm ▸ sweep.2.2⟩
  · intro start i0 startValid untouched
    apply whileOnes_row i0 _ _ _ startValid
    · intro s sValid i1 bit same
      have here : s.2.words i0 i1 = x.words i0 i1 := same.trans (congrFun untouched i1)
      have some' : ((v.read s.2).words i0 i1).empty = false := by
        rw [Operand.words_read same]
        rw [(operand.read startValid).bit_eq] at bit
        simpa using bit
      have writes := unionStep_writes some'
      rw [here, Operand.words_read here] at writes
      exact writes
    · intro i1 bit
      have none := words_of_not_bit bit
      rw [Operand.words_read (congrFun untouched i1)] at none
      rw [none, setUnion_clear, untouched]

theorem setDifference_spec (valid : x.Valid) (operand : v.Valid) :
    (x.setDifference v).2.Valid ∧
      (x.setDifference v).2.words =
        (fun i0 i1 => ((x.words i0 i1).setDifference ((v.read x).words i0 i1)).2) ∧
      ((x.setDifference v).1 = true ↔ (x.setDifference v).2.words ≠ x.words) := by
  have sweep := foldl_rows (differenceRow v)
    (fun i0 i1 => ((x.words i0 i1).setDifference ((v.read x).words i0 i1)).2) valid ?_
  · exact ⟨sweep.1, sweep.2.1, sweep.2.1.symm ▸ sweep.2.2⟩
  · intro start i0 startValid untouched
    apply whileOnes_row i0 _ _ _ startValid
    · intro s sValid i1 bit same
      rw [getBit_setIntersection, and_eq_true, startValid.bit_eq,
        (operand.read startValid).bit_eq] at bit
      have here : s.2.words i0 i1 = x.words i0 i1 := same.trans (congrFun untouched i1)
      have writes := differenceStep_writes v i0 i1
        ((sValid.bit_eq i0 i1).trans (same ▸ bit.1))
        (((operand.read sValid).bit_eq i0 i1).trans (Operand.words_read same ▸ bit.2))
      rw [here, Operand.words_read here] at writes
      exact writes
    · intro i1 bit
      rw [untouched, <- Operand.words_read (congrFun untouched i1)]
      rw [getBit_setIntersection, and_eq_false_iff] at bit
      rcases bit with bit | bit
      · rw [<- untouched, words_of_not_bit bit, clear_setDifference]
      · rw [words_of_not_bit bit, setDifference_clear]

/-- The first-level words are intersected first, which empties the effective
words without the operand's bit. -/
theorem intersected_words {state : Bool × TwoLevelBitVector n w} :
    (state.2.setL1 i0 ((state.2.l1_ i0).setIntersection ((v.read state.2).l1_ i0)).2).words i0 =
      fun i1 => if ((v.read state.2).l1_ i0).getBit i1 then state.2.words i0 i1 else .clear := by
  funext i1
  rw [words, words, setL1_here, getBit_setIntersection, setL1_l2]
  cases (state.2.l1_ i0).getBit i1 <;> cases ((v.read state.2).l1_ i0).getBit i1 <;> rfl

theorem words_setL1 {i0 j0 : Fin n} {word : BasicBitVector w} (other : j0 ≠ i0) :
    (x.setL1 i0 word).words j0 = x.words j0 := by
  funext j1
  rw [words, words, setL1_other other, setL1_l2]

theorem intersected_valid {state : Bool × TwoLevelBitVector n w} (valid : state.2.Valid) :
    (state.2.setL1 i0 ((state.2.l1_ i0).setIntersection ((v.read state.2).l1_ i0)).2).Valid := by
  intro j0 j1 bit
  rw [setL1_l2]
  by_cases here : j0 = i0
  · subst here
    rw [setL1_here, getBit_setIntersection, and_eq_true] at bit
    exact valid j0 j1 bit.1
  · rw [setL1_other here] at bit
    exact valid j0 j1 bit

theorem whileOnes_of_empty {σ : Type*} {body : σ -> Fin w -> σ} {t : BasicBitVector w} {s : σ}
    (none : t.empty = true) : whileOnes body t s = s := by
  rw [whileOnes_eq, ones_eq_nil.mpr none, List.foldl_nil]

theorem intersectionRow_spec {start : Bool × TwoLevelBitVector n w} (i0 : Fin n)
    (operand : v.Valid) (valid : start.2.Valid) (same : start.2.words i0 = x.words i0) :
    (intersectionRow v start i0).2.Valid ∧
      (intersectionRow v start i0).2.words = update start.2.words i0 (fun i1 =>
        ((x.words i0 i1).setIntersection ((v.read x).words i0 i1)).2) ∧
      ((intersectionRow v start i0).1 = true ↔ start.1 = true ∨
        (fun i1 => ((x.words i0 i1).setIntersection ((v.read x).words i0 i1)).2) ≠
          start.2.words i0) := by
  let l1 := (start.2.l1_ i0).setIntersection ((v.read start.2).l1_ i0)
  let middle : Bool × TwoLevelBitVector n w := (start.1 || l1.1, start.2.setL1 i0 l1.2)
  let target := fun i1 => ((x.words i0 i1).setIntersection ((v.read x).words i0 i1)).2
  have operandWords : ∀ i1, (v.read start.2).words i0 i1 = (v.read x).words i0 i1 :=
    fun i1 => Operand.words_read (congrFun same i1)
  have middleRow : ∀ i1, middle.2.words i0 i1 =
      if ((v.read start.2).l1_ i0).getBit i1 then start.2.words i0 i1 else .clear :=
    congrFun intersected_words
  have emptied : ∀ i1, ((v.read start.2).l1_ i0).getBit i1 = false -> target i1 = .clear := by
    intro i1 bit
    show ((x.words i0 i1).setIntersection ((v.read x).words i0 i1)).2 = .clear
    rw [<- operandWords, words_of_not_bit bit, setIntersection_clear]
  have loop : intersectionRow v start i0 =
      whileOnes (intersectionStep v i0) (middle.2.l1_ i0) middle := by
    rw [intersectionRow]
    by_cases none : (middle.2.l1_ i0).empty = true
    · exact (if_pos none).trans (whileOnes_of_empty none).symm
    · exact if_neg none
  have middleBit : ∀ i1, (middle.2.l1_ i0).getBit i1 =
      ((start.2.l1_ i0).getBit i1 && ((v.read start.2).l1_ i0).getBit i1) := by
    intro i1
    simp [middle, l1]
  have middleValid : middle.2.Valid := intersected_valid valid
  have row := whileOnes_row i0 (intersectionStep v i0) (middle.2.l1_ i0) target middleValid ?_ ?_
  · rw [loop]
    refine ⟨row.1, row.2.1.trans ?_, row.2.2.trans ?_⟩
    · funext j0
      by_cases here : j0 = i0
      · subst here
        rw [update_self, update_self]
      · rw [update_of_ne here, update_of_ne here]
        exact words_setL1 here
    · have bits : l1.1 = true ↔ ∃ i1, (start.2.l1_ i0).getBit i1 = true ∧
          ((v.read start.2).l1_ i0).getBit i1 = false := setIntersection_changes
      rw [or_eq_true, or_assoc]
      refine or_congr_right ⟨?_, fun changed => ?_⟩
      · rintro (removed | changed) kept
        · rcases bits.mp removed with ⟨i1, bit, operandBit⟩
          have none := (congrFun kept i1).symm.trans (emptied i1 operandBit)
          rw [valid.bit_eq, none, empty_clear] at bit
          exact absurd bit nofun
        · refine changed (funext fun i1 => ?_)
          rw [middleRow]
          cases operandBit : ((v.read start.2).l1_ i0).getBit i1
          · exact emptied i1 operandBit
          · exact congrFun kept i1
      · refine or_iff_not_imp_left.mpr fun unremoved kept => changed (funext fun i1 => ?_)
        cases operandBit : ((v.read start.2).l1_ i0).getBit i1
        · have bit : (start.2.l1_ i0).getBit i1 = false :=
            eq_false_iff.mpr fun bit => unremoved (bits.mpr ⟨i1, bit, operandBit⟩)
          exact (emptied i1 operandBit).trans (words_of_not_bit bit).symm
        · exact (congrFun kept i1).trans ((middleRow i1).trans (if_pos operandBit))
  · intro s sValid i1 bit untouched
    rw [middleBit, and_eq_true] at bit
    have here : s.2.words i0 i1 = start.2.words i0 i1 :=
      untouched.trans ((middleRow i1).trans (if_pos bit.2))
    have writes := intersectionStep_writes v i0 i1
      ((sValid.bit_eq i0 i1).trans (here ▸ (valid.bit_eq i0 i1).symm.trans bit.1))
      (((operand.read sValid).bit_eq i0 i1).trans
        (Operand.words_read here ▸ ((operand.read valid).bit_eq i0 i1).symm.trans bit.2))
    rw [here, congrFun same i1, Operand.words_read (here.trans (congrFun same i1))] at writes
    exact writes
  · intro i1 bit
    rw [middleBit, and_eq_false_iff] at bit
    rw [middleRow]
    rcases bit with bit | bit
    · have none : x.words i0 i1 = .clear := congrFun same i1 ▸ words_of_not_bit bit
      show ((x.words i0 i1).setIntersection ((v.read x).words i0 i1)).2 = _
      rw [congrFun same i1, none, clear_setIntersection, ite_self]
    · rw [emptied i1 bit, bit, if_neg nofun]

theorem setIntersection_spec (valid : x.Valid) (operand : v.Valid) :
    (x.setIntersection v).2.Valid ∧
      (x.setIntersection v).2.words =
        (fun i0 i1 => ((x.words i0 i1).setIntersection ((v.read x).words i0 i1)).2) ∧
      ((x.setIntersection v).1 = true ↔ (x.setIntersection v).2.words ≠ x.words) := by
  have sweep := foldl_rows (intersectionRow v)
    (fun i0 i1 => ((x.words i0 i1).setIntersection ((v.read x).words i0 i1)).2) valid
    fun start i0 => intersectionRow_spec i0 operand
  exact ⟨sweep.1, sweep.2.1, sweep.2.1.symm ▸ sweep.2.2⟩

end TwoLevelBitVector
end LlvmProject
