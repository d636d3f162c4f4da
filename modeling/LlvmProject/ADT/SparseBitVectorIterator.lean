import LlvmProject.ADT.SparseBitVectorSets

namespace LlvmProject

open List BitVec Nat

namespace ADT

/-!
# Walking a sparse bit vector

The members of a vector are the numbers of the set bits, element by element.
An iterator stands at one of the positions of its element, and its current bits
are the rest of the word from there on.  Each step takes it to the next member.
-/

open BitWords KeyedMerge SparseBitVectorElement

variable {L : Layout}

namespace SparseBitVectorElement

/-- The positions of the set bits. -/
def bits (e : SparseBitVectorElement L) : List Nat := positions e.Bits

variable {p : Nat}

theorem mem_bits {e : SparseBitVectorElement L} : p ∈ e.bits ↔ e.bit p = true :=
  mem_positions L.bitwordSize_pos

/-- The number of a bit. -/
def number (e : SparseBitVectorElement L) (p : Nat) : Nat := e.index * L.ElementSize + p

theorem find_first_eq (e : SparseBitVectorElement L) : e.find_first = e.bits.head? :=
  lowest_zero_eq L.bitwordSize_pos e.Bits

theorem find_next_eq (e : SparseBitVectorElement L) (within : p < L.ElementSize) :
    e.find_next p = e.bits.find? fun i => decide (p <= i) := by
  rw [find_next, if_neg (Nat.not_le.mpr within)]
  exact lowestFrom_eq L.bitwordSize_pos e.Bits p

/-- The word of a position. -/
def wordOf (e : SparseBitVectorElement L) (p : Nat) : BitVec L.BITWORD_SIZE :=
  e.Bits[p / L.BITWORD_SIZE]?.getD 0

theorem word_eq (e : SparseBitVectorElement L) (within : p < L.ElementSize) :
    e.word (p / L.BITWORD_SIZE) = some (e.wordOf p) := by
  rw [word, wordOf, List.getElem?_eq_getElem (e.div_lt_length within)]
  rfl

end SparseBitVectorElement

/-! ## The next member -/

namespace SparseBitVectorIterator

theorem skipZeros_eq {w k : Nat} {Bits : BitVec w} (isSet : Bits.getLsbD k = true)
    (clear : ∀ j, j < k -> Bits.getLsbD j = false) {BitNumber : Nat} (bound : BitNumber < 2 ^ 32) :
    skipZeros Bits BitNumber = (Bits >>> k, (BitNumber + k) % 2 ^ 32) := by
  induction k generalizing Bits BitNumber with
  | zero =>
    rw [skipZeros, if_neg fun both => Bool.false_ne_true (both.2.symm.trans isSet),
      ushiftRight_zero, add_zero, mod_eq_of_lt bound]
  | succ k ih =>
    have nonzero : Bits ≠ 0 := by
      rintro rfl
      rw [ofNat_eq_ofNat, getLsbD_zero] at isSet
      cases isSet
    have shiftedSet : (Bits >>> 1).getLsbD k = true := by
      rw [getLsbD_ushiftRight, add_comm, isSet]
    have shiftedClear : ∀ j, j < k -> (Bits >>> 1).getLsbD j = false := fun j below => by
      rw [getLsbD_ushiftRight, clear (1 + j) (by omega)]
    have shifted := ih shiftedSet shiftedClear
      (mod_lt (BitNumber + 1) (by decide))
    rw [skipZeros, if_pos ⟨nonzero, clear 0 (succ_pos k)⟩, shifted, <- BitVec.shiftRight_add,
      mod_add_mod, add_assoc, add_comm 1 k]

theorem skipZeros_zero {w : Nat} (BitNumber : Nat) :
    skipZeros (0 : BitVec w) BitNumber = (0, BitNumber) := by
  rw [skipZeros, if_neg fun both => both.1 rfl]

/-- An iterator at a bit of an element. -/
structure At (it : SparseBitVectorIterator L) (e : SparseBitVectorElement L)
    (rest : List (SparseBitVectorElement L)) (p : Nat) : Prop where
  notAtEnd : it.AtEnd = false
  element : it.Iter = e :: rest
  number : it.BitNumber = e.number p
  bits : it.Bits = e.wordOf p >>> (p % L.BITWORD_SIZE)

variable {it : SparseBitVectorIterator L} {e : SparseBitVectorElement L}
  {rest : List (SparseBitVectorElement L)} {p q : Nat} {before post : List Nat}

theorem enter_spec (valid : e.Valid) (notAtEnd : it.AtEnd = false) (element : it.Iter = e :: rest) :
    ∃ it' p post, it.enter e = some it' ∧ e.bits = p :: post ∧ it'.At e rest p := by
  rcases valid.nonempty with ⟨some, someSet⟩
  cases bits : e.bits with
  | nil => exact absurd (mem_bits.mpr someSet) (by rw [bits]; exact not_mem_nil)
  | cons p post =>
    have isSet := mem_bits.mp (show p ∈ e.bits by rw [bits]; exact mem_cons_self)
    rcases valid.within p isSet with ⟨low, bound⟩
    refine ⟨{ it with
      BitNumber := e.number p
      WordNumber := p / L.BITWORD_SIZE
      Bits := e.wordOf p >>> (p % L.BITWORD_SIZE) }, p, post, ?_, rfl,
      notAtEnd, element, rfl, rfl⟩
    rw [enter, find_first_eq, bits, head?_cons]
    simp only [Option.bind_eq_bind, Option.bind_some, mod_eq_of_lt bound, mul_add_mod',
      mod_eq_of_lt low, word_eq e low]
    rfl

theorem getLsbD_rest (e : SparseBitVectorElement L) (p : Nat) {j : Nat}
    (inWord : p % L.BITWORD_SIZE + 1 + j < L.BITWORD_SIZE) :
    (e.wordOf p >>> (p % L.BITWORD_SIZE) >>> 1).getLsbD j = e.bit (p + 1 + j) := by
  have split := div_add_mod' p L.BITWORD_SIZE
  have place : p + 1 + j =
      p / L.BITWORD_SIZE * L.BITWORD_SIZE + (p % L.BITWORD_SIZE + 1 + j) := by omega
  have isBit : e.bit (p + 1 + j) = (e.wordOf p).getLsbD (p % L.BITWORD_SIZE + 1 + j) := by
    rw [place]
    exact bit_add L.bitwordSize_pos inWord
  rw [isBit, getLsbD_ushiftRight, getLsbD_ushiftRight, add_assoc]

theorem rest_eq_zero (e : SparseBitVectorElement L) (p : Nat)
    (clear : ∀ r, p < r -> r / L.BITWORD_SIZE = p / L.BITWORD_SIZE -> e.bit r = false) :
    e.wordOf p >>> (p % L.BITWORD_SIZE) >>> 1 = 0 := by
  refine eq_of_getLsbD_eq fun j low => ?_
  rw [ofNat_eq_ofNat, getLsbD_zero]
  by_cases inWord : p % L.BITWORD_SIZE + 1 + j < L.BITWORD_SIZE
  · rw [getLsbD_rest e p inWord]
    have split := div_add_mod' p L.BITWORD_SIZE
    refine clear _ (by omega) ?_
    have place : p + 1 + j =
        p / L.BITWORD_SIZE * L.BITWORD_SIZE + (p % L.BITWORD_SIZE + 1 + j) := by omega
    rw [place, div_eq_of_add L.bitwordSize_pos inWord]
  · rw [getLsbD_ushiftRight, getLsbD_ushiftRight]
    exact getLsbD_of_ge _ _ (by omega)

theorem not_mem_between (bits : e.bits = before ++ p :: post) {r : Nat} (after : p < r)
    (early : ∀ q ∈ post.head?, r < q) : e.bit r = false := by
  rw [Bool.eq_false_iff]
  intro isSet
  have sorted : (before ++ p :: post).Pairwise (· < ·) := bits ▸ positions_sorted e.Bits
  rcases pairwise_append.mp sorted with ⟨_, rest, across⟩
  rcases mem_append.mp (bits ▸ mem_bits.mpr isSet) with inBefore | inRest
  · exact absurd (across r inBefore p mem_cons_self) (by omega)
  · rcases mem_cons.mp inRest with rfl | inPost
    · exact lt_irrefl _ after
    · cases post with
      | nil => exact absurd inPost not_mem_nil
      | cons q post =>
        have first := early q rfl
        rcases mem_cons.mp inPost with rfl | later
        · exact lt_irrefl _ first
        · exact absurd ((pairwise_cons.mp rest.of_cons).1 r later) (by omega)

theorem find_next_after (bits : e.bits = before ++ p :: post) (within : p + 1 < L.ElementSize) :
    e.find_next (p + 1) = post.head? := by
  have sorted : (before ++ p :: post).Pairwise (· < ·) := bits ▸ positions_sorted e.Bits
  rcases pairwise_append.mp sorted with ⟨_, rest, across⟩
  rw [find_next_eq e within, bits]
  have passed : (before ++ [p]).find? (fun i => decide (p + 1 <= i)) = none := by
    refine find?_eq_none.mpr fun i mem reached => ?_
    rw [decide_eq_true_eq] at reached
    rcases mem_append.mp mem with inBefore | isLast
    · exact absurd (across i inBefore p mem_cons_self) (by omega)
    · exact absurd (mem_singleton.mp isLast) (by omega)
  rw [append_cons, find?_append, passed, Option.none_or]
  cases post with
  | nil => rfl
  | cons q post =>
    have later : p + 1 <= q := (pairwise_cons.mp rest).1 q mem_cons_self
    rw [find?_cons, decide_eq_true later]
    rfl

/-- Where a step of the iterator starts its search. -/
theorem increment_eq (standing : it.At e rest p) :
    it.increment = AdvanceToNextNonZero
      ⟨false, e :: rest, (e.number p + 1) % 2 ^ 32, it.WordNumber,
        e.wordOf p >>> (p % L.BITWORD_SIZE) >>> 1⟩ := by
  rcases standing with ⟨notAtEnd, element, number, cur⟩
  rw [increment, notAtEnd, element, number, cur]

/-- A step to the next set bit of the element, in the same word or in a later
one. -/
theorem increment_within (valid : e.Valid) (standing : it.At e rest p)
    (bits : e.bits = before ++ p :: q :: post) :
    ∃ it', it.increment = some it' ∧ it'.At e rest q := by
  have sorted : (before ++ p :: q :: post).Pairwise (· < ·) := bits ▸ positions_sorted e.Bits
  have less : p < q := (pairwise_cons.mp (pairwise_append.mp sorted).2.1).1 q mem_cons_self
  have isSet : e.bit q = true := mem_bits.mp (by rw [bits]; simp)
  have low : q < L.ElementSize := (valid.within q isSet).1
  have bound : e.number q < 2 ^ 32 := (valid.within q isSet).2
  have clear : ∀ r, p < r -> r < q -> e.bit r = false := fun r after early =>
    not_mem_between bits after (by rintro _ ⟨⟩; exact early)
  have numberIs : e.number q = e.number p + 1 + (q - (p + 1)) := by
    unfold SparseBitVectorElement.number
    omega
  have step : (e.number p + 1) % 2 ^ 32 = e.number p + 1 :=
    mod_eq_of_lt (lt_of_le_of_lt (numberIs ▸ Nat.le_add_right _ _) bound)
  have pSplit := div_add_mod' p L.BITWORD_SIZE
  have qSplit := div_add_mod' q L.BITWORD_SIZE
  have qLow := mod_lt q L.bitwordSize_pos
  rw [increment_eq standing, AdvanceToNextNonZero, if_neg Bool.false_ne_true]
  by_cases sameWord : q / L.BITWORD_SIZE = p / L.BITWORD_SIZE
  · rw [sameWord] at qSplit
    have bitOfRest : (e.wordOf p >>> (p % L.BITWORD_SIZE) >>> 1).getLsbD (q - (p + 1)) = true := by
      rw [getLsbD_rest e p (by omega), add_sub_of_le less, isSet]
    have clearBelow : ∀ j, j < q - (p + 1) ->
        (e.wordOf p >>> (p % L.BITWORD_SIZE) >>> 1).getLsbD j = false := fun j below => by
      rw [getLsbD_rest e p (by omega), clear _ (by omega) (by omega)]
    have shifted : e.wordOf p >>> (p % L.BITWORD_SIZE) >>> 1 >>> (q - (p + 1)) =
        e.wordOf q >>> (q % L.BITWORD_SIZE) := by
      rw [<- BitVec.shiftRight_add, <- BitVec.shiftRight_add, wordOf, wordOf, sameWord]
      exact congrArg _ (by omega)
    have nonzero : e.wordOf q >>> (q % L.BITWORD_SIZE) ≠ 0 := by
      intro zero
      have lowest := congrArg (·.getLsbD 0) (shifted.trans zero)
      simp only [getLsbD_ushiftRight, add_zero] at lowest bitOfRest
      rw [bitOfRest, ofNat_eq_ofNat, getLsbD_zero] at lowest
      cases lowest
    rw [skipZeros_eq bitOfRest clearBelow (mod_lt _ (by decide)), shifted, step, <- numberIs,
      mod_eq_of_lt bound]
    simp only [if_pos nonzero]
    exact ⟨_, rfl, rfl, rfl, rfl, rfl⟩
  · have later : p / L.BITWORD_SIZE < q / L.BITWORD_SIZE :=
      lt_of_le_of_ne (Nat.div_le_div_right less.le) (Ne.symm sameWord)
    have zero : e.wordOf p >>> (p % L.BITWORD_SIZE) >>> 1 = 0 := by
      refine rest_eq_zero e p fun r after inWord => clear r after ?_
      by_contra reached
      have le := Nat.div_le_div_right (c := L.BITWORD_SIZE) (Nat.le_of_not_lt reached)
      omega
    have place : (e.number p + 1) % L.ElementSize = p + 1 := by
      rw [SparseBitVectorElement.number, add_assoc, mul_add_mod',
        mod_eq_of_lt (lt_of_le_of_lt less low)]
    rw [zero, skipZeros_zero, step]
    simp only [ne_eq, not_true_eq_false, if_false, place,
      find_next_after bits (lt_of_le_of_lt less low), head?_cons, succ_ne_zero,
      decide_false, mod_eq_of_lt low, word_eq e low, Option.bind_eq_bind, Option.bind_some]
    exact ⟨_, rfl, rfl, rfl, mod_eq_of_lt bound, rfl⟩

/-- A step after the last set bit of the element enters the next element. -/
theorem increment_leave (valid : e.Valid) (standing : it.At e rest p)
    (bits : e.bits = before ++ [p]) :
    ∃ it' : SparseBitVectorIterator L, it'.AtEnd = false ∧ it'.Iter = rest ∧
      it.increment = it'.enterCurrent := by
  have isSet : e.bit p = true := mem_bits.mp (by rw [bits]; simp)
  have low : p < L.ElementSize := (valid.within p isSet).1
  have bound : e.number p < 2 ^ 32 := (valid.within p isSet).2
  have clear : ∀ r, p < r -> e.bit r = false := fun r after => not_mem_between bits after nofun
  have zero : e.wordOf p >>> (p % L.BITWORD_SIZE) >>> 1 = 0 :=
    rest_eq_zero e p fun r after _ => clear r after
  refine ⟨⟨false, rest, (e.number p + 1) % 2 ^ 32, 0, 0⟩, rfl, rfl, ?_⟩
  rw [increment_eq standing, AdvanceToNextNonZero, if_neg Bool.false_ne_true, zero, skipZeros_zero]
  simp only [ne_eq, not_true_eq_false, if_false]
  by_cases boundary : (e.number p + 1) % 2 ^ 32 % L.ElementSize = 0
  · rw [decide_eq_true boundary]
    cases e.find_next ((e.number p + 1) % 2 ^ 32 % L.ElementSize) <;> rfl
  · -- The number did not wrap around, and the element is not at its end.
    have noWrap : e.number p + 1 < 2 ^ 32 := by
      refine lt_of_le_of_ne bound fun wrap => boundary ?_
      rw [wrap, mod_self, zero_mod]
    rw [mod_eq_of_lt noWrap] at boundary ⊢
    have inElement : p + 1 < L.ElementSize := by
      refine lt_of_le_of_ne low fun full => boundary ?_
      rw [SparseBitVectorElement.number, add_assoc, mul_add_mod', full, mod_self]
    have place : (e.number p + 1) % L.ElementSize = p + 1 := by
      rw [SparseBitVectorElement.number, add_assoc, mul_add_mod', mod_eq_of_lt inElement]
    rw [place, find_next_after bits inElement]
    rfl

end SparseBitVectorIterator

/-! ## The members -/

/-- The numbers of the set bits. -/
def members (Elements : List (SparseBitVectorElement L)) : List Nat :=
  Elements.flatMap fun e => e.bits.map e.number

section Members

variable {Elements : List (SparseBitVectorElement L)} {i : Nat}

theorem mem_members (valid : ∀ e ∈ Elements, e.Valid) : i ∈ members Elements ↔ Contains Elements i := by
  simp only [members, mem_flatMap, mem_map, mem_bits]
  constructor
  · rintro ⟨e, mem, p, isSet, rfl⟩
    have low := ((valid e mem).within p isSet).1
    refine ⟨e, mem, ?_, ?_⟩
    · exact (div_eq_of_add L.elementSize_pos low).symm
    · rwa [number, mul_add_mod', mod_eq_of_lt low]
  · rintro ⟨e, mem, same, isSet⟩
    exact ⟨e, mem, _, isSet, by rw [number, same, div_add_mod']⟩

theorem Contains.lt (valid : ∀ e ∈ Elements, e.Valid) (contained : Contains Elements i) :
    i < 2 ^ 32 := by
  rcases contained with ⟨e, mem, same, isSet⟩
  have bound := ((valid e mem).within _ isSet).2
  rwa [same, div_add_mod'] at bound

theorem members_sorted (valid : SparseBitVector.ListValid Elements) :
    (members Elements).Pairwise (· < ·) := by
  refine pairwise_flatMap.mpr ⟨fun e _ => ?_, ?_⟩
  · exact (positions_sorted e.Bits).map _ fun p q less => Nat.add_lt_add_left less _
  · refine Pairwise.imp_of_mem ?_ valid.sorted
    intro e e' mem mem' less x inFirst y inSecond
    rcases mem_map.mp inFirst with ⟨p, isSet, rfl⟩
    rcases mem_map.mp inSecond with ⟨q, isSet', rfl⟩
    have low := ((valid.elements e mem).within p (mem_bits.mp isSet)).1
    have step := Nat.mul_le_mul_right L.ElementSize (succ_le_of_lt less)
    rw [Nat.succ_mul] at step
    rw [number, number]
    omega

end Members

/-! ## Walks -/

section Walk

variable {last : SparseBitVectorIterator L}

open SparseBitVectorIterator

variable {it : SparseBitVectorIterator L}

theorem equal_false (notAtEnd : it.AtEnd = false)
    (atEnd : last.AtEnd = true) : it.equal last = false := by
  rw [SparseBitVectorIterator.equal, notAtEnd, atEnd]
  rfl

theorem equal_true (itAtEnd : it.AtEnd = true)
    (atEnd : last.AtEnd = true) : it.equal last = true := by
  rw [SparseBitVectorIterator.equal, itAtEnd, atEnd]
  rfl

theorem walks_element (atEnd : last.AtEnd = true) {e : SparseBitVectorElement L} {rest : List
    (SparseBitVectorElement L)} (valid : e.Valid) (leave : ∀ it before p, At it e rest p -> e.bits =
    before ++ [p] -> ∃ it', it.increment = some it' ∧ Walks last it' (members rest)) {before post :
    List Nat} {p : Nat} (standing : it.At e rest p) (bits : e.bits = before ++ p :: post) :
    Walks last it ((p :: post).map e.number ++ members rest) := by
  have before_end := equal_false standing.notAtEnd atEnd
  rw [List.map_cons, List.cons_append, <- standing.number]
  induction post generalizing it before p with
  | nil =>
    rcases leave it before p standing bits with ⟨it', stepped, walk⟩
    exact .next before_end stepped walk
  | cons q post ih =>
    rcases increment_within valid standing bits with ⟨it', stepped, standing'⟩
    refine .next before_end stepped ?_
    rw [List.map_cons, List.cons_append, <- standing'.number]
    exact ih standing' (by rw [bits, append_cons])
      (equal_false standing'.notAtEnd atEnd)

theorem walks_from (atEnd : last.AtEnd = true) {e : SparseBitVectorElement L}
    {rest : List (SparseBitVectorElement L)} (valid : ∀ a ∈ e :: rest, a.Valid) {before
    post : List Nat} {p : Nat} (standing : it.At e rest p) (bits : e.bits = before ++ p :: post) :
    Walks last it ((p :: post).map e.number ++ members rest) := by
  have eValid := valid e mem_cons_self
  induction rest generalizing e it before post p with
  | nil =>
    refine walks_element atEnd eValid (fun it before p standing bits => ?_) standing bits
    rcases increment_leave eValid standing bits with ⟨it', _, iter, stepped⟩
    refine ⟨{ it' with AtEnd := true }, ?_, .done (equal_true rfl atEnd)⟩
    rw [stepped, enterCurrent, iter]
  | cons e' rest ih =>
    have valid' : ∀ a ∈ e' :: rest, a.Valid := fun a mem => valid a (mem_cons_of_mem e mem)
    have e'Valid := valid' e' mem_cons_self
    refine walks_element atEnd eValid (fun it before p standing bits => ?_) standing bits
    rcases increment_leave eValid standing bits with ⟨it', notAtEnd, iter, stepped⟩
    rcases enter_spec e'Valid notAtEnd iter with ⟨it'', q, post', entered, bits', standing'⟩
    refine ⟨it'', ?_, ?_⟩
    · rw [stepped, enterCurrent, iter]
      exact entered
    · have fromFirst : e'.bits = [] ++ q :: post' := bits'
      have walk := ih valid' standing' fromFirst e'Valid
      rwa [<- bits'] at walk

namespace SparseBitVector

/-- The iteration from the beginning to the end yields exactly the members, in
increasing order. -/
theorem walks_members {v : SparseBitVector L} (valid : v.Valid) :
    ∃ first last, v.beginIterator = some first ∧ v.endIterator = some last ∧
      Walks last first (members v.Elements) := by
  rcases v with ⟨curr, Elements⟩
  cases Elements with
  | nil => exact ⟨_, _, rfl, rfl, .done rfl⟩
  | cons e rest =>
    have entered : ∃ it' p post, enter ⟨false, e :: rest, 0, 2 ^ 32 - 1, 0⟩ e = some it' ∧
        e.bits = [] ++ p :: post ∧ it'.At e rest p :=
      enter_spec (valid.elements e mem_cons_self) rfl rfl
    rcases entered with ⟨first, p, post, entered, bits, standing⟩
    have walk : Walks ⟨true, e :: rest, 0, 2 ^ 32 - 1, 0⟩ first _ :=
      walks_from rfl valid.elements standing bits
    rw [nil_append] at bits
    rw [<- bits] at walk
    exact ⟨first, _, entered, rfl, walk⟩

end SparseBitVector

end Walk

end ADT
end LlvmProject
