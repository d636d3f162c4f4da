import Mathlib.Data.BitVec

namespace LlvmProject

open List BitVec Nat

namespace BitWords

/-!
# Sets of positions in words

A sequence of words of one width holds one bit for each position.  The bit
operations on the words are set operations on the positions, and a search for
the lowest bit of a word finds the least position.
-/

variable {w : Nat} {words words' : List (BitVec w)} {i j p : Nat}

/-- The bit at a position. -/
def bit (words : List (BitVec w)) (p : Nat) : Bool := (words[p / w]?.getD 0#w).getLsbD (p % w)

/-- Set the bit at a position. -/
def setBit (words : List (BitVec w)) (p : Nat) : List (BitVec w) :=
  words.modify (p / w) (· ||| 1#w <<< (p % w))

/-- Clear the bit at a position. -/
def clearBit (words : List (BitVec w)) (p : Nat) : List (BitVec w) :=
  words.modify (p / w) (· &&& ~~~(1#w <<< (p % w)))

/-- Test the bit at a position. -/
def testBit (words : List (BitVec w)) (p : Nat) : Bool :=
  words[p / w]?.getD 0#w &&& 1#w <<< (p % w) != 0#w

/-- No bit is set. -/
def isZero (words : List (BitVec w)) : Bool := words.all (· == 0#w)

/-- The number of set bits of a word. -/
def population (x : BitVec w) : Nat := (range w).countP x.getLsbD

/-- The lowest set position in a sequence of words that starts at a word
number. -/
def lowest (words : List (BitVec w)) (wordNumber : Nat) : Option Nat :=
  match words with
  | [] => none
  | x :: words => if x != 0#w then some (wordNumber * w + x.ctz.toNat) else lowest words (wordNumber + 1)

/-- The lowest set position from a position on: the rest of its word, and then
the later words. -/
def lowestFrom (words : List (BitVec w)) (p : Nat) : Option Nat :=
  let rest := words[p / w]?.getD 0#w &&& BitVec.allOnes w <<< (p % w)
  if rest != 0#w then some (p / w * w + rest.ctz.toNat)
  else lowest (words.drop (p / w + 1)) (p / w + 1)

/-! ## Bits -/

theorem same_position (sameWord : p / w = i / w) : p % w = i % w ↔ p = i := by
  constructor
  · intro sameBit
    rw [<- div_add_mod p w, <- div_add_mod i w, sameWord, sameBit]
  · rintro rfl
    rfl

theorem div_lt_length_of_bit (isSet : bit words p = true) : p / w < words.length := by
  by_contra outside
  rw [bit, List.getElem?_eq_none (Nat.le_of_not_lt outside), Option.getD_none,
    getLsbD_zero] at isSet
  cases isSet

theorem bit_modify (f : BitVec w -> BitVec w) (within : p / w < words.length) :
    bit (words.modify (p / w) f) i =
      if p / w = i / w then (f (words[i / w]?.getD 0#w)).getLsbD (i % w) else bit words i := by
  rw [bit, getElem?_modify]
  by_cases same : p / w = i / w
  · simp only [if_pos same]
    rw [List.getElem?_eq_getElem (same ▸ within)]
    rfl
  · simp only [if_neg same]
    rw [bit]
    cases words[i / w]? <;> rfl

section Bits

variable (pos : 0 < w)
include pos

theorem div_eq_of_add (low : j < w) : (i * w + j) / w = i := by
  rw [add_comm, add_mul_div_right j i pos, div_eq_of_lt low, zero_add]

theorem bit_add (low : j < w) : bit words (i * w + j) = (words[i]?.getD 0#w).getLsbD j := by
  rw [bit, div_eq_of_add pos low, mul_add_mod', mod_eq_of_lt low]

theorem eq_of_bit_eq (sameLen : words.length = words'.length)
    (same : ∀ p, bit words p = bit words' p) : words = words' := by
  apply ext_getElem? fun i => ?_
  by_cases within : i < words.length
  · rw [List.getElem?_eq_getElem within, List.getElem?_eq_getElem (sameLen ▸ within)]
    refine congrArg some (eq_of_getLsbD_eq fun j low => ?_)
    have bits := same (i * w + j)
    rw [bit_add pos low, bit_add pos low, List.getElem?_eq_getElem within,
      List.getElem?_eq_getElem (sameLen ▸ within)] at bits
    exact bits
  · rw [List.getElem?_eq_none (Nat.le_of_not_lt within),
      List.getElem?_eq_none (sameLen ▸ Nat.le_of_not_lt within)]

theorem getLsbD_one_shiftLeft (p i : Nat) :
    (1#w <<< (p % w)).getLsbD (i % w) = decide (p % w = i % w) := by
  have low := mod_lt i pos
  rw [getLsbD_shiftLeft, getLsbD_one, decide_eq_true low, Bool.true_and]
  by_cases same : p % w = i % w
  · simp [same, pos]
  · have ne : ¬ (p % w <= i % w ∧ i % w - p % w = 0) := by omega
    by_cases below : i % w < p % w
    · simp [same, below]
    · have : i % w - p % w ≠ 0 := by omega
      simp [same, this]

theorem bit_setBit (within : p / w < words.length) :
    bit (setBit words p) i = (decide (p = i) || bit words i) := by
  rw [setBit, bit_modify _ within]
  by_cases sameWord : p / w = i / w
  · rw [if_pos sameWord, getLsbD_or, getLsbD_one_shiftLeft pos, Bool.or_comm, bit,
      decide_eq_decide.mpr (same_position sameWord)]
  · have ne : p ≠ i := fun same => sameWord (same ▸ rfl)
    rw [if_neg sameWord, decide_eq_false ne, Bool.false_or]

theorem bit_clearBit (within : p / w < words.length) :
    bit (clearBit words p) i = (!decide (p = i) && bit words i) := by
  rw [clearBit, bit_modify _ within]
  by_cases sameWord : p / w = i / w
  · rw [if_pos sameWord, getLsbD_and, getLsbD_not, getLsbD_one_shiftLeft pos,
      decide_eq_true (mod_lt i pos), Bool.true_and, Bool.and_comm, bit,
      decide_eq_decide.mpr (same_position sameWord)]
  · have ne : p ≠ i := fun same => sameWord (same ▸ rfl)
    rw [if_neg sameWord, decide_eq_false ne, Bool.not_false, Bool.true_and]

theorem testBit_eq (p : Nat) : testBit words p = bit words p := by
  rw [testBit, bit, Bool.eq_iff_iff, bne_iff_ne]
  constructor
  · intro nonzero
    by_contra clear
    refine nonzero (eq_of_getLsbD_eq fun j low => ?_)
    have bitIs := getLsbD_one_shiftLeft pos p j
    rw [mod_eq_of_lt low] at bitIs
    rw [getLsbD_and, bitIs, getLsbD_zero]
    by_cases same : p % w = j
    · rw [<- same, Bool.eq_false_iff.mpr clear, Bool.false_and]
    · rw [decide_eq_false same, Bool.and_false]
  · intro isSet zero
    have bitIs := congrArg (·.getLsbD (p % w)) zero
    simp only [getLsbD_and, getLsbD_one_shiftLeft pos, isSet, getLsbD_zero,
      decide_true, Bool.and_self] at bitIs
    cases bitIs

theorem isZero_iff : isZero words = true ↔ ∀ p, bit words p = false := by
  rw [isZero, all_eq_true]
  constructor
  · intro zero p
    rw [bit]
    cases found : words[p / w]? with
    | none => exact getLsbD_zero
    | some x =>
      rw [Option.getD_some, beq_iff_eq.mp (zero x (mem_of_getElem? found))]
      exact getLsbD_zero
  · intro clear x mem
    rcases mem_iff_getElem?.mp mem with ⟨i, found⟩
    refine beq_iff_eq.mpr (eq_of_getLsbD_eq fun j low => ?_)
    have bitIs := clear (i * w + j)
    rw [bit_add pos low, found] at bitIs
    rw [getLsbD_zero]
    exact bitIs

theorem bit_zipWith {op : BitVec w -> BitVec w -> BitVec w} {f : Bool -> Bool -> Bool}
    (bitwise : ∀ x y k, k < w -> (op x y).getLsbD k = f (x.getLsbD k) (y.getLsbD k))
    (clear : f false false = false) (sameLen : words.length = words'.length) (p : Nat) :
    bit (zipWith op words words') p = f (bit words p) (bit words' p) := by
  by_cases within : p / w < words.length
  · rw [bit, bit, bit, getElem?_zipWith, List.getElem?_eq_getElem within,
      List.getElem?_eq_getElem (sameLen ▸ within)]
    exact bitwise _ _ _ (mod_lt p pos)
  · have outside : (zipWith op words words').length <= p / w := by
      rw [length_zipWith, <- sameLen, min_self]
      exact Nat.le_of_not_lt within
    rw [bit, bit, bit, List.getElem?_eq_none outside, List.getElem?_eq_none (Nat.le_of_not_lt within),
      List.getElem?_eq_none (sameLen ▸ Nat.le_of_not_lt within), Option.getD_none,
      getLsbD_zero, clear]

theorem bit_cons (x : BitVec w) (words : List (BitVec w)) (p : Nat) :
    bit (x :: words) p = if p < w then x.getLsbD p else bit words (p - w) := by
  by_cases low : p < w
  · rw [if_pos low, bit, div_eq_of_lt low, mod_eq_of_lt low]
    rfl
  · have above : w <= p := Nat.le_of_not_lt low
    rw [if_neg low, bit, div_eq_sub_div pos above, mod_eq_sub_mod above, bit, getElem?_cons_succ]

theorem bit_drop (words : List (BitVec w)) (n p : Nat) :
    bit (words.drop n) p = bit words (n * w + p) := by
  rw [bit, bit, getElem?_drop, add_comm (n * w), add_mul_div_right p n pos,
    add_mul_mod_self_right, add_comm n]

end Bits

/-! ## The positions of the set bits -/

/-- The positions of the set bits, in increasing order. -/
def positions (words : List (BitVec w)) : List Nat := (range (words.length * w)).filter (bit words)

theorem positions_sorted (words : List (BitVec w)) : (positions words).Pairwise (· < ·) :=
  pairwise_lt_range.filter _

theorem mem_positions (pos : 0 < w) : p ∈ positions words ↔ bit words p = true := by
  rw [positions, mem_filter, mem_range]
  exact and_iff_right_of_imp fun isSet =>
    (div_lt_iff_lt_mul pos).mp (div_lt_length_of_bit isSet)

theorem sum_population (pos : 0 < w) (words : List (BitVec w)) :
    (words.map population).sum = (positions words).length := by
  induction words with
  | nil => rw [positions, length_nil, Nat.zero_mul]; rfl
  | cons x words ih =>
    have first : (range w).countP (bit (x :: words)) = population x := by
      refine countP_congr fun p mem => ?_
      rw [bit_cons pos, if_pos (mem_range.mp mem)]
    have later : ((range (words.length * w)).map (w + ·)).countP (bit (x :: words)) =
        (range (words.length * w)).countP (bit words) := by
      rw [countP_map]
      refine countP_congr fun p _ => ?_
      rw [Function.comp_apply, bit_cons pos, if_neg (by omega), Nat.add_sub_cancel_left]
    rw [positions, <- countP_eq_length_filter] at ih ⊢
    rw [map_cons, sum_cons, ih, length_cons, Nat.succ_mul,
      add_comm (words.length * w), range_add, countP_append, first, later]

/-! ## Searching -/

/-- A search finds the least position, or there is none. -/
theorem lowest_cases (pos : 0 < w) (words : List (BitVec w)) (wordNumber : Nat) :
    (∃ p, lowest words wordNumber = some (wordNumber * w + p) ∧ bit words p = true ∧
        ∀ i, bit words i = true -> p <= i) ∨
      lowest words wordNumber = none ∧ ∀ i, bit words i = false := by
  induction words generalizing wordNumber with
  | nil => exact .inr ⟨rfl, fun i => getLsbD_zero⟩
  | cons x words ih =>
    by_cases zero : x = 0#w
    · have noneLow : ∀ i, i < w -> bit (x :: words) i = false := by
        intro i low
        rw [bit_cons pos, if_pos low, zero, getLsbD_zero]
      have search : lowest (x :: words) wordNumber = lowest words (wordNumber + 1) := by
        rw [lowest, zero, bne_self_eq_false, if_neg Bool.false_ne_true]
      rcases ih (wordNumber + 1) with ⟨p, found, isSet, least⟩ | ⟨failed, clear⟩
      · refine .inl ⟨w + p, ?_, ?_, ?_⟩
        · rw [search, found, Nat.succ_mul, add_assoc]
        · rw [bit_cons pos, if_neg (by omega), Nat.add_sub_cancel_left, isSet]
        · intro i isSet
          by_cases low : i < w
          · rw [noneLow i low] at isSet
            cases isSet
          · rw [bit_cons pos, if_neg low] at isSet
            have bound := least _ isSet
            omega
      · refine .inr ⟨search.trans failed, fun i => ?_⟩
        by_cases low : i < w
        · exact noneLow i low
        · rw [bit_cons pos, if_neg low, clear]
    · have nonzero : (x != 0#w) = true := bne_iff_ne.mpr zero
      have isSet := getLsbD_true_ctz_of_ne_zero zero
      have low : x.ctz.toNat < w := lt_of_getLsbD isSet
      refine .inl ⟨x.ctz.toNat, by rw [lowest, if_pos nonzero], ?_, ?_⟩
      · rw [bit_cons pos, if_pos low, isSet]
      · intro i isSet
        by_contra before
        have below : i < x.ctz.toNat := Nat.lt_of_not_le before
        rw [bit_cons pos, if_pos (below.trans low), getLsbD_false_of_lt_ctz below] at isSet
        cases isSet

/-- A search from a position finds the least position from there on, or there
is none. -/
theorem lowestFrom_cases (pos : 0 < w) (words : List (BitVec w)) (p : Nat) :
    (∃ q, lowestFrom words p = some q ∧ bit words q = true ∧ p <= q ∧
        ∀ i, bit words i = true -> p <= i -> q <= i) ∨
      lowestFrom words p = none ∧ ∀ i, p <= i -> bit words i = false := by
  have inWord : ∀ j, j < w -> (words[p / w]?.getD 0#w &&& BitVec.allOnes w <<< (p % w)).getLsbD j =
      (decide (p <= p / w * w + j) && bit words (p / w * w + j)) := by
    intro j low
    have split := div_add_mod' p w
    rw [getLsbD_and, getLsbD_shiftLeft, getLsbD_allOnes, bit_add pos low,
      Bool.and_comm, decide_eq_true low, Bool.true_and,
      decide_eq_true (lt_of_le_of_lt (sub_le j _) low), Bool.and_true, <- decide_not]
    refine congrArg (· && _) (decide_eq_decide.mpr ?_)
    omega
  have wordOf : ∀ i, i / w = p / w -> i = p / w * w + i % w := fun i same => by
    rw [<- same, div_add_mod']
  generalize rest : words[p / w]?.getD 0#w &&& BitVec.allOnes w <<< (p % w) = x at inWord
  by_cases zero : x = 0#w
  · have search : lowestFrom words p = lowest (words.drop (p / w + 1)) (p / w + 1) := by
      rw [lowestFrom, rest, zero, bne_self_eq_false, if_neg Bool.false_ne_true]
    -- Nothing is set in the rest of the first word.
    have later : ∀ i, bit words i = true -> p <= i -> (p / w + 1) * w <= i := by
      intro i isSet le
      have wordLe := Nat.div_le_div_right (c := w) le
      by_contra before
      have same : i / w = p / w := le_antisymm
        (le_of_lt_succ ((div_lt_iff_lt_mul pos).mpr (Nat.lt_of_not_le before))) wordLe
      have bitIs := inWord (i % w) (mod_lt i pos)
      rw [zero, getLsbD_zero, <- wordOf i same, isSet, decide_eq_true le] at bitIs
      cases bitIs
    have start : p <= (p / w + 1) * w := by
      rw [Nat.succ_mul]
      exact le_of_lt (lt_div_mul_add pos)
    rcases lowest_cases pos (words.drop (p / w + 1)) (p / w + 1) with
      ⟨q, found, isSet, least⟩ | ⟨failed, clear⟩
    · refine .inl ⟨_, search.trans found, bit_drop pos .. ▸ isSet,
        start.trans (le_add_right _ _), fun i isSet le => ?_⟩
      have above := later i isSet le
      have shifted : i = (p / w + 1) * w + (i - (p / w + 1) * w) := by omega
      have bound := least (i - (p / w + 1) * w) (by rw [bit_drop pos, <- shifted, isSet])
      omega
    · refine .inr ⟨search.trans failed, fun i le => ?_⟩
      rw [Bool.eq_false_iff]
      intro isSet
      have above := later i isSet le
      have shifted : i = (p / w + 1) * w + (i - (p / w + 1) * w) := by omega
      have bitIs := clear (i - (p / w + 1) * w)
      rw [bit_drop pos, <- shifted, isSet] at bitIs
      cases bitIs
  · have nonzero : (x != 0#w) = true := bne_iff_ne.mpr zero
    have isSet := getLsbD_true_ctz_of_ne_zero zero
    have low : x.ctz.toNat < w := lt_of_getLsbD isSet
    rw [inWord _ low, Bool.and_eq_true, decide_eq_true_eq] at isSet
    refine .inl ⟨p / w * w + x.ctz.toNat, by rw [lowestFrom, rest, if_pos nonzero], isSet.2,
      isSet.1, fun i isSet le => ?_⟩
    by_contra before
    have wordLe := Nat.div_le_div_right (c := w) le
    have same : i / w = p / w := le_antisymm (le_of_lt_succ
      ((div_lt_iff_lt_mul pos).mpr (by rw [Nat.succ_mul]; omega))) wordLe
    have place := wordOf i same
    have bitIs := inWord (i % w) (mod_lt i pos)
    rw [getLsbD_false_of_lt_ctz (by omega), <- place, isSet, decide_eq_true le] at bitIs
    cases bitIs

theorem find?_eq_some {l : List Nat} (sorted : l.Pairwise (· < ·)) (mem : j ∈ l) (from_p : p <= j)
    (least : ∀ i ∈ l, p <= i -> j <= i) : l.find? (fun i => decide (p <= i)) = some j := by
  rcases append_of_mem mem with ⟨left, right, rfl⟩
  have passed : left.find? (fun i => decide (p <= i)) = none := by
    refine find?_eq_none.mpr fun i inLeft reached => ?_
    have before := (pairwise_append.mp sorted).2.2 i inLeft j mem_cons_self
    exact absurd (least i (mem_append_left _ inLeft) (of_decide_eq_true reached)) (by omega)
  rw [find?_append, passed, Option.none_or, find?_cons, decide_eq_true from_p]

/-- A search finds the first of the positions from there on. -/
theorem lowestFrom_eq (pos : 0 < w) (words : List (BitVec w)) (p : Nat) :
    lowestFrom words p = (positions words).find? fun i => decide (p <= i) := by
  rcases lowestFrom_cases pos words p with ⟨q, found, isSet, le, least⟩ | ⟨failed, clear⟩
  · rw [found, find?_eq_some (positions_sorted words) ((mem_positions pos).mpr isSet) le
      fun i mem => least i ((mem_positions pos).mp mem)]
  · refine failed.trans (find?_eq_none.mpr fun i mem reached => ?_).symm
    have isSet := (mem_positions pos).mp mem
    rw [clear i (of_decide_eq_true reached)] at isSet
    cases isSet

theorem lowest_zero_eq (pos : 0 < w) (words : List (BitVec w)) :
    lowest words 0 = (positions words).head? := by
  have all : (positions words).head? = (positions words).find? fun i => decide (0 <= i) := by
    cases positions words <;> rfl
  rw [all]
  rcases lowest_cases pos words 0 with ⟨q, found, isSet, least⟩ | ⟨failed, clear⟩
  · rw [found, Nat.zero_mul, Nat.zero_add, find?_eq_some (positions_sorted words)
      ((mem_positions pos).mpr isSet) (zero_le q)
      fun i mem _ => least i ((mem_positions pos).mp mem)]
  · refine failed.trans (find?_eq_none.mpr fun i mem _ => ?_).symm
    have isSet := (mem_positions pos).mp mem
    rw [clear i] at isSet
    cases isSet

end BitWords
end LlvmProject
