import LlvmProject.DebugInfo.DWARFDebugLine
import LlvmProject.Library.PartitionPoint

namespace LlvmProject

open Option hiding mem_map
open List UInt64 Nat

namespace DWARFDebugLine

/-!
# Looking up addresses

`lookupAddress` finds the row for an address, and `lookupAddressRange` those for a range of
addresses.  For the start of the range the latter takes the last row at the address and the former
the first one, so that they disagree if a sequence has several rows there.
-/

open PartitionPoint

/-! ## The code -/

def Sequence.containsPC (this : Sequence) (pc : UInt64) : Bool :=
  decide (this.LowPC <= pc) && decide (pc < this.HighPC)

/-- No row. -/
def unknown_index : UInt32 := 0xffffffff

namespace LineTable

variable (this : LineTable)

/-- The rows of a sequence. -/
def rowsOf (sequence : Sequence) : List Row :=
  (this.Rows.drop sequence.FirstRowIndex.toNat).take
    (sequence.LastRowIndex.toNat - sequence.FirstRowIndex.toNat)

/-- The position of the sequence that can contain the address. -/
def findSequence (addr : UInt64) : Option Nat :=
  let seq_pos := partitionPoint (fun S => decide (S.LowPC < addr)) this.Sequences
  if (this.Sequences[seq_pos]?).any (·.LowPC = addr) then some seq_pos
  else if seq_pos = 0 then none
  else some (seq_pos - 1)

def lookupAddress (addr : UInt64) : UInt32 :=
  match (this.findSequence addr).bind (this.Sequences[·]?) with
  | none => unknown_index
  | some found_seq =>
    if !found_seq.containsPC addr then unknown_index
    else
      let rows := this.rowsOf found_seq
      let row_pos := partitionPoint (fun R => decide (R.Address < addr)) rows
      match rows[row_pos]? with
      | none => found_seq.LastRowIndex - 1
      | some row =>
        let index := found_seq.FirstRowIndex + UInt32.ofNat row_pos
        if row.Address > addr then if row_pos = 0 then unknown_index else index - 1
        else index

/-- The position behind the rows up to the address. -/
def rowsUpTo (sequence : Sequence) (addr : UInt64) : Nat :=
  partitionPoint (fun R => decide (R.Address <= addr)) (this.rowsOf sequence)

/-- The numbers from one to another; a loop up to the largest one does not end. -/
def pushRows (first last : UInt32) : Option (List UInt32) :=
  if last = 0xffffffff then none
  else some ((range' first.toNat (last.toNat + 1 - first.toNat)).map UInt32.ofNat)

/-- The rows of the sequences from `seq_pos` on, of which the first one is `start_pos`. -/
def collectRows (addr end_addr : UInt64) (isStart : Bool) :
    List Sequence -> Option (List UInt32)
  | [] => some []
  | cur_seq :: rest =>
    if cur_seq.LowPC < end_addr then do
      let first_row_index :=
        if isStart then
          -- the row before the first one that is greater, unless that is the first row
          cur_seq.FirstRowIndex + UInt32.ofNat (this.rowsUpTo cur_seq addr - 1)
        else cur_seq.FirstRowIndex
      let last_row_index :=
        if cur_seq.HighPC > end_addr then
          cur_seq.FirstRowIndex + UInt32.ofNat (this.rowsUpTo cur_seq end_addr) - 1
        else cur_seq.LastRowIndex - 1
      let rows <- pushRows first_row_index last_row_index
      let others <- collectRows addr end_addr false rest
      return rows ++ others
    else some []

/-- The rows of a range, if its start is in a sequence. -/
def lookupAddressRange (addr size : UInt64) : Option (List UInt32) := do
  let seq_pos <- this.findSequence addr
  let sequence <- this.Sequences[seq_pos]?
  if sequence.containsPC addr then
    this.collectRows addr (addr + size) true (this.Sequences.drop seq_pos)
  else none

end LineTable

/-! ## Tables -/

/-- Sequences that are sorted and do not overlap, of rows whose addresses do not decrease. -/
structure LineTable.Sorted (table : LineTable) : Prop where
  nonempty : ∀ S ∈ table.Sequences, S.FirstRowIndex < S.LastRowIndex ∧ S.LowPC < S.HighPC
  inside : ∀ S ∈ table.Sequences, S.LastRowIndex.toNat <= table.Rows.length
  first : ∀ S ∈ table.Sequences, ∀ row ∈ (table.rowsOf S).head?, row.Address = S.LowPC
  rows : ∀ S ∈ table.Sequences, (table.rowsOf S).Pairwise (·.Address <= ·.Address)
  apart : table.Sequences.Pairwise (·.HighPC <= ·.LowPC)

variable {table : LineTable} {addr : UInt64} {S : Sequence} {k : Nat}

theorem containsPC_iff : S.containsPC addr = true ↔
    S.LowPC.toNat <= addr.toNat ∧ addr.toNat < S.HighPC.toNat := by
  rw [Sequence.containsPC, Bool.and_eq_true, decide_eq_true_eq, decide_eq_true_eq]
  rfl

namespace LineTable.Sorted

section

variable (sorted : table.Sorted)
include sorted

theorem apart_lt {i j : Nat} {T : Sequence} (before : i < j)
    (first : table.Sequences[i]? = some S) (second : table.Sequences[j]? = some T) :
    S.HighPC.toNat <= T.LowPC.toNat := by
  rcases List.getElem?_eq_some_iff.mp first with ⟨firstInside, rfl⟩
  rcases List.getElem?_eq_some_iff.mp second with ⟨secondInside, rfl⟩
  exact pairwise_iff_getElem.mp sorted.apart i j firstInside secondInside before

theorem low_lt_high (entry : table.Sequences[k]? = some S) :
    S.LowPC.toNat < S.HighPC.toNat :=
  (sorted.nonempty S (mem_of_getElem? entry)).2

theorem partitioned (addr : UInt64) :
    Partitioned (fun S => decide (S.LowPC < addr)) table.Sequences := by
  rw [Partitioned, pairwise_iff_getElem]
  intro i j firstInside secondInside before
  have order := sorted.apart_lt before (getElem?_eq_getElem firstInside)
    (getElem?_eq_getElem secondInside)
  have grows := sorted.low_lt_high (getElem?_eq_getElem firstInside)
  simp only [decide_eq_true_eq, lt_iff_toNat_lt]
  omega

/-- The sequence that contains an address is the one that is found. -/
theorem findSequence_eq (entry : table.Sequences[k]? = some S)
    (contains : S.containsPC addr = true) : table.findSequence addr = some k := by
  rcases containsPC_iff.mp contains with ⟨low, high⟩
  have less {i : Nat} {T : Sequence} (other : table.Sequences[i]? = some T) :
      i < partitionPoint (fun S => decide (S.LowPC < addr)) table.Sequences ↔
        T.LowPC.toNat < addr.toNat := by
    rw [lt_partitionPoint_iff (sorted.partitioned addr) other, decide_eq_true_eq]
    exact lt_iff_toNat_lt
  have bound := partitionPoint_le (fun S => decide (S.LowPC < addr)) table.Sequences
  rw [LineTable.findSequence]
  generalize partitionPoint (fun S => decide (S.LowPC < addr)) table.Sequences = pos at *
  have here := less entry
  -- What comes before the sequence is less than the address, and what comes after it is not.
  have atMost : pos <= k + 1 := by
    by_contra beyond
    have inside : k + 1 < table.Sequences.length := by omega
    have next := getElem?_eq_getElem inside
    have order := sorted.apart_lt (lt_succ_self k) entry next
    have small := (less next).mp (by omega)
    omega
  by_cases same : S.LowPC = addr
  · have position : pos = k := by
      rw [same] at here
      by_contra other
      have inside : pos < table.Sequences.length := by
        have last := (List.getElem?_eq_some_iff.mp entry).1
        omega
      have at_pos := getElem?_eq_getElem inside
      have order := sorted.apart_lt (show pos < k by omega) at_pos entry
      have grows := sorted.low_lt_high at_pos
      have small := mt (less at_pos).mpr (lt_irrefl pos)
      rw [same] at order
      omega
    simp [position, entry, same]
  · have different : S.LowPC.toNat ≠ addr.toNat := fun equal => same (UInt64.toNat_inj.mp equal)
    have position : pos = k + 1 := by omega
    have unequal : ¬(table.Sequences[pos]?).any (·.LowPC = addr) := by
      rw [position]
      cases next : table.Sequences[k + 1]? with
      | none => exact Bool.false_ne_true
      | some T =>
        have order := sorted.apart_lt (lt_succ_self k) entry next
        rw [any_some, decide_eq_true_eq]
        rintro rfl
        omega
    rw [if_neg unequal, if_neg (by omega), position, Nat.add_sub_cancel]

/-! ## Rows -/

theorem rowsOf_length (mem : S ∈ table.Sequences) :
    (table.rowsOf S).length = S.LastRowIndex.toNat - S.FirstRowIndex.toNat := by
  have inside := sorted.inside S mem
  rw [LineTable.rowsOf, length_take, length_drop]
  omega

/-- A property of addresses that holds of the addresses below too. -/
theorem rows_partitioned (mem : S ∈ table.Sequences) {p : UInt64 -> Bool}
    (downward : ∀ x y : UInt64, x <= y -> p y = true -> p x = true) :
    Partitioned (fun R : Row => p R.Address) (table.rowsOf S) :=
  (sorted.rows S mem).imp fun le => downward _ _ le

end

variable {j : Nat}

theorem lt_rowsUpTo_iff (sorted : table.Sorted) (mem : S ∈ table.Sequences) {R : Row}
    (entry : (table.rowsOf S)[j]? = some R) (addr : UInt64) :
    j < table.rowsUpTo S addr ↔ R.Address.toNat <= addr.toNat := by
  rw [LineTable.rowsUpTo, lt_partitionPoint_iff (sorted.rows_partitioned mem
    (p := fun x => decide (x <= addr)) (by
      intro x y le
      simp only [decide_eq_true_eq]
      exact UInt64.le_trans le)) entry, decide_eq_true_eq]
  rfl

theorem rowsUpTo_pos (sorted : table.Sorted) (mem : S ∈ table.Sequences)
    (low : S.LowPC.toNat <= addr.toNat) :
    0 < table.rowsUpTo S addr ∧
      table.rowsUpTo S addr <= S.LastRowIndex.toNat - S.FirstRowIndex.toNat := by
  have length := sorted.rowsOf_length mem
  have some_row : S.FirstRowIndex.toNat < S.LastRowIndex.toNat := (sorted.nonempty S mem).1
  have entry := getElem?_eq_getElem (show 0 < (table.rowsOf S).length by omega)
  refine ⟨(sorted.lt_rowsUpTo_iff mem entry addr).mpr ?_, ?_⟩
  · rw [<- head?_eq_getElem?] at entry
    rw [sorted.first S mem _ entry]
    exact low
  · rw [<- length]
    exact partitionPoint_le _ _

/-- The index of a row in its sequence. -/
def index (S : Sequence) (j : Nat) : UInt32 := S.FirstRowIndex + UInt32.ofNat j

theorem index_toNat (inside : j < S.LastRowIndex.toNat - S.FirstRowIndex.toNat) :
    (index S j).toNat = S.FirstRowIndex.toNat + j := by
  have small := S.LastRowIndex.toNat_lt
  rw [index, UInt32.toNat_add, UInt32.toNat_ofNat']
  omega

theorem index_sub_one (S : Sequence) (positive : 0 < j) :
    S.FirstRowIndex + UInt32.ofNat j - 1 = index S (j - 1) := by
  rcases Nat.exists_eq_add_of_le' positive with ⟨j, rfl⟩
  rw [index, Nat.add_sub_cancel, UInt32.ofNat_add, <- UInt32.add_assoc]
  exact UInt32.add_sub_cancel ..

theorem last_sub_one (sorted : table.Sorted) (mem : S ∈ table.Sequences) :
    S.LastRowIndex - 1 = index S (S.LastRowIndex.toNat - S.FirstRowIndex.toNat - 1) := by
  have some_row : S.FirstRowIndex.toNat < S.LastRowIndex.toNat := (sorted.nonempty S mem).1
  apply UInt32.toNat_inj.mp
  rw [index_toNat (by omega), UInt32.toNat_sub]
  have small := S.LastRowIndex.toNat_lt
  have one : (1 : UInt32).toNat = 1 := rfl
  omega

/-- The row that is found is the first one at the address, or the last one before it. -/
theorem lookupAddress_eq (sorted : table.Sorted) (entry : table.Sequences[k]? = some S)
    (contains : S.containsPC addr = true) :
    ∃ j R, table.lookupAddress addr = index S j ∧ (table.rowsOf S)[j]? = some R ∧
      R.Address.toNat <= addr.toNat ∧
      (R.Address = addr ∧ (∀ i < j, ∀ Q, (table.rowsOf S)[i]? = some Q -> Q.Address < addr) ∨
        R.Address ≠ addr ∧ j + 1 = table.rowsUpTo S addr) := by
  have mem := mem_of_getElem? entry
  have length := sorted.rowsOf_length mem
  rcases containsPC_iff.mp contains with ⟨low, high⟩
  rcases sorted.rowsUpTo_pos mem low with ⟨positive, upTo⟩
  have less {i : Nat} {Q : Row} (other : (table.rowsOf S)[i]? = some Q) :
      i < partitionPoint (fun R => decide (R.Address < addr)) (table.rowsOf S) ↔
        Q.Address.toNat < addr.toNat := by
    rw [lt_partitionPoint_iff (sorted.rows_partitioned mem (p := fun x => decide (x < addr))
      (by
        intro x y le
        simp only [decide_eq_true_eq]
        exact UInt64.lt_of_le_of_lt le)) other, decide_eq_true_eq]
    exact lt_iff_toNat_lt
  have bound := partitionPoint_le (fun R => decide (R.Address < addr)) (table.rowsOf S)
  rw [LineTable.lookupAddress, sorted.findSequence_eq entry contains, bind_some, entry]
  dsimp only
  rw [contains, Bool.not_true, if_neg Bool.false_ne_true]
  generalize partitionPoint (fun R => decide (R.Address < addr)) (table.rowsOf S) = pos at *
  have le_upTo : pos <= table.rowsUpTo S addr := by
    by_contra beyond
    have inside := getElem?_eq_getElem
      (show table.rowsUpTo S addr < (table.rowsOf S).length by omega)
    have small := (less inside).mp (by omega)
    exact lt_irrefl _ ((sorted.lt_rowsUpTo_iff mem inside addr).mpr (le_of_lt small))
  rcases lt_or_eq_of_le le_upTo with before | same
  · -- The row is not after the address and not before it.
    have inside := getElem?_eq_getElem (show pos < (table.rowsOf S).length by omega)
    have atMost := (sorted.lt_rowsUpTo_iff mem inside addr).mp before
    have notLess := mt (less inside).mpr (lt_irrefl pos)
    rw [inside]
    dsimp only
    have notGreater : ¬(table.rowsOf S)[pos].Address > addr := Nat.not_lt_of_le atMost
    rw [if_neg notGreater]
    exact ⟨pos, _, rfl, inside, atMost, .inl ⟨UInt64.toNat_inj.mp (by omega),
      fun i earlier Q other => (less other).mp earlier⟩⟩
  · -- The rows up to the address are less, and the last one of them is taken.
    have inside := getElem?_eq_getElem (show pos - 1 < (table.rowsOf S).length by omega)
    have small := (less inside).mp (by omega)
    refine ⟨pos - 1, _, ?_, inside, le_of_lt small, .inr ⟨fun equal => ?_, by omega⟩⟩
    · cases found : (table.rowsOf S)[pos]? with
      | none =>
        have ends := getElem?_eq_none_iff.mp found
        rw [le_antisymm bound ends, length]
        exact sorted.last_sub_one mem
      | some row =>
        have greater : row.Address > addr := Nat.lt_of_not_le fun le =>
          lt_irrefl pos (same ▸ (sorted.lt_rowsUpTo_iff mem found addr).mpr le)
        dsimp only
        rw [if_pos greater, if_neg (by omega)]
        exact index_sub_one S (by omega)
    · rw [equal] at small
      exact lt_irrefl _ small

/-! ## Ranges -/

theorem mem_pushRows {f c : Nat} (some_row : 0 < c)
    (inside : c <= S.LastRowIndex.toNat - S.FirstRowIndex.toNat) (start : f < c) :
    ∃ rows, pushRows (index S f) (index S (c - 1)) = some rows ∧
      ∀ x, x ∈ rows ↔ ∃ j, f <= j ∧ j < c ∧ x = index S j := by
  have small := S.LastRowIndex.toNat_lt
  have last := @index_toNat S (c - 1) (by omega)
  have first := @index_toNat S f (by omega)
  have notLargest : index S (c - 1) ≠ 0xffffffff := by
    intro largest
    rw [largest] at last
    change 4294967295 = _ at last
    omega
  refine ⟨_, if_neg notLargest, fun x => ?_⟩
  rw [first, last, mem_map]
  constructor
  · rintro ⟨n, listed, rfl⟩
    rw [mem_range'_1] at listed
    refine ⟨n - S.FirstRowIndex.toNat, by omega, by omega, UInt32.toNat_inj.mp ?_⟩
    rw [index_toNat (by omega), UInt32.toNat_ofNat']
    omega
  · rintro ⟨j, low, high, rfl⟩
    refine ⟨S.FirstRowIndex.toNat + j, mem_range'_1.mpr (by omega), ?_⟩
    rw [index, UInt32.ofNat_add, UInt32.ofNat_toNat]

/-- The number of the rows of a sequence up to the end of the range. -/
def rowsBefore (table : LineTable) (S : Sequence) (end_addr : UInt64) : Nat :=
  if S.HighPC > end_addr then table.rowsUpTo S end_addr
  else S.LastRowIndex.toNat - S.FirstRowIndex.toNat

section

variable (sorted : table.Sorted)
include sorted

theorem rowsBefore_spec (mem : S ∈ table.Sequences) {end_addr : UInt64}
    (begins : S.LowPC < end_addr) :
    0 < rowsBefore table S end_addr ∧
      rowsBefore table S end_addr <= S.LastRowIndex.toNat - S.FirstRowIndex.toNat ∧
      (if S.HighPC > end_addr then
        S.FirstRowIndex + UInt32.ofNat (table.rowsUpTo S end_addr) - 1
        else S.LastRowIndex - 1) = index S (rowsBefore table S end_addr - 1) := by
  rcases sorted.rowsUpTo_pos mem (le_of_lt (lt_iff_toNat_lt.mp begins)) with
    ⟨positive, upTo⟩
  have some_row : S.FirstRowIndex.toNat < S.LastRowIndex.toNat := (sorted.nonempty S mem).1
  rw [rowsBefore]
  split
  · exact ⟨positive, upTo, index_sub_one S positive⟩
  · exact ⟨by omega, le_refl _, sorted.last_sub_one mem⟩

theorem mem_collectRows (addr end_addr : UInt64) (rest : List Sequence)
    (members : ∀ T ∈ rest, T ∈ table.Sequences) :
    ∃ rows, table.collectRows addr end_addr false rest = some rows ∧
      ∀ x, x ∈ rows ↔ ∃ T ∈ rest.takeWhile fun T => decide (T.LowPC < end_addr),
        ∃ j < rowsBefore table T end_addr, x = index T j := by
  induction rest with
  | nil => exact ⟨[], rfl, fun x => by simp⟩
  | cons T rest ih =>
    rw [LineTable.collectRows, takeWhile_cons]
    by_cases begins : T.LowPC < end_addr
    · rcases ih fun U mem => members U (mem_cons_of_mem _ mem) with
        ⟨others, ran, spec⟩
      rcases sorted.rowsBefore_spec (members T mem_cons_self) begins with
        ⟨positive, inside, last⟩
      rcases mem_pushRows positive inside positive with ⟨rows, pushed, all⟩
      have first : T.FirstRowIndex = index T 0 := (UInt32.add_zero _).symm
      rw [if_pos begins, if_pos (decide_eq_true begins)]
      dsimp only
      rw [if_neg Bool.false_ne_true, last]
      refine ⟨rows ++ others, ?_, fun x => ?_⟩
      · rw [first, pushed, ran]
        rfl
      · simp only [mem_append, all, spec, mem_cons, exists_eq_or_imp, zero_le, true_and]
    · rw [if_neg begins, if_neg (by simpa using begins)]
      exact ⟨[], rfl, fun x => by simp⟩

theorem mem_lookupAddressRange (entry : table.Sequences[k]? = some S)
    (contains : S.containsPC addr = true) {size : UInt64} (positive : 0 < size.toNat)
    (noWrap : addr.toNat + size.toNat < 2 ^ 64) :
    ∃ rows, table.lookupAddressRange addr size = some rows ∧ ∀ x, x ∈ rows ↔
      (∃ j, table.rowsUpTo S addr - 1 <= j ∧ j < rowsBefore table S (addr + size) ∧ x = index S j) ∨
      ∃ T ∈ table.Sequences.drop (k + 1), T.LowPC < addr + size ∧
        ∃ j < rowsBefore table T (addr + size), x = index T j := by
  have mem := mem_of_getElem? entry
  rcases containsPC_iff.mp contains with ⟨low, high⟩
  have sum : (addr + size).toNat = addr.toNat + size.toNat := by
    rw [UInt64.toNat_add]
    exact mod_eq_of_lt noWrap
  have begins : S.LowPC < addr + size := by
    rw [lt_iff_toNat_lt]
    omega
  rcases sorted.rowsBefore_spec mem begins with ⟨some_row, inside, last⟩
  rcases sorted.rowsUpTo_pos mem low with ⟨upToPos, upTo⟩
  have start : table.rowsUpTo S addr - 1 < rowsBefore table S (addr + size) := by
    rw [rowsBefore]
    split
    · have row := getElem?_eq_getElem
        (show table.rowsUpTo S addr - 1 < (table.rowsOf S).length by
          rw [sorted.rowsOf_length mem]
          omega)
      have small := (sorted.lt_rowsUpTo_iff mem row addr).mp (by omega)
      exact (sorted.lt_rowsUpTo_iff mem row (addr + size)).mpr (by omega)
    · omega
  have suffix : table.Sequences.drop k = S :: table.Sequences.drop (k + 1) := by
    rcases List.getElem?_eq_some_iff.mp entry with ⟨short, rfl⟩
    exact drop_eq_getElem_cons short
  rcases sorted.mem_collectRows addr (addr + size) (table.Sequences.drop (k + 1))
    (fun T listed => mem_of_mem_drop listed) with ⟨others, ran, spec⟩
  rcases mem_pushRows some_row inside start with ⟨rows, pushed, all⟩
  refine ⟨rows ++ others, ?_, fun x => ?_⟩
  · rw [LineTable.lookupAddressRange, sorted.findSequence_eq entry contains]
    simp only [bind_eq_bind, bind_some, entry, contains, if_true, suffix]
    rw [LineTable.collectRows, if_pos begins]
    dsimp only
    rw [if_pos rfl, last]
    change (pushRows (index S _) _).bind _ = _
    rw [pushed, ran]
    rfl
  · have closed : Partitioned (fun T : Sequence => decide (T.LowPC < addr + size))
        (table.Sequences.drop (k + 1)) :=
      (sorted.partitioned (addr + size)).sublist (drop_sublist _ _)
    rw [mem_append, all, spec]
    simp only [mem_takeWhile_iff closed, decide_eq_true_eq, and_assoc]

/-! ## Agreement -/

theorem rows_le (mem : S ∈ table.Sequences) {i j : Nat} {Q R : Row}
    (order : i <= j) (first : (table.rowsOf S)[i]? = some Q)
    (second : (table.rowsOf S)[j]? = some R) : Q.Address.toNat <= R.Address.toNat := by
  rcases List.getElem?_eq_some_iff.mp first with ⟨firstInside, rfl⟩
  rcases List.getElem?_eq_some_iff.mp second with ⟨secondInside, rfl⟩
  rcases lt_or_eq_of_le order with before | rfl
  · exact pairwise_iff_getElem.mp (sorted.rows S mem) i j firstInside secondInside before
  · exact le_refl _

theorem lt_rows (mem : S ∈ table.Sequences) {R : Row} (entry : (table.rowsOf S)[j]? = some R) :
    j < S.LastRowIndex.toNat - S.FirstRowIndex.toNat := by
  rw [<- sorted.rowsOf_length mem]
  exact (List.getElem?_eq_some_iff.mp entry).1

end

theorem lookupAddress_of_not (outside : ∀ S ∈ table.Sequences, S.containsPC addr = false) :
    table.lookupAddress addr = unknown_index := by
  rw [LineTable.lookupAddress]
  cases found : (table.findSequence addr).bind (table.Sequences[·]?) with
  | none => rfl
  | some S =>
    rcases bind_eq_some_iff.mp found with ⟨k, -, entry⟩
    dsimp only
    rw [outside S (mem_of_getElem? entry), Bool.not_false, if_pos rfl]

theorem contains_of_found (found : table.lookupAddress addr ≠ unknown_index) :
    ∃ (k : Nat) (S : Sequence), table.Sequences[k]? = some S ∧ S.containsPC addr = true := by
  by_contra outside
  refine found (lookupAddress_of_not fun S mem => ?_)
  rcases getElem?_of_mem mem with ⟨k, entry⟩
  exact Bool.eq_false_iff.mpr fun contains => outside ⟨k, S, entry, contains⟩

theorem found_of_contains (sorted : table.Sorted) (mem : S ∈ table.Sequences)
    (contains : S.containsPC addr = true) :
    table.lookupAddress addr ≠ unknown_index := by
  rcases getElem?_of_mem mem with ⟨k, entry⟩
  rcases sorted.lookupAddress_eq entry contains with ⟨j, R, found, row, -, -⟩
  have short := sorted.lt_rows mem row
  have value := index_toNat short
  have small := S.LastRowIndex.toNat_lt
  rw [found]
  intro unknown
  rw [unknown] at value
  change 4294967295 = _ at value
  omega

end LineTable.Sorted

/-- The row for an address is the last one up to it in its sequence. -/
def LineTable.ExactAt (table : LineTable) (addr : UInt64) : Prop :=
  (∀ S ∈ table.Sequences, S.containsPC addr = true ->
    ∃ j R, table.lookupAddress addr = LineTable.Sorted.index S j ∧
      (table.rowsOf S)[j]? = some R ∧ R.Address <= addr ∧
      ∀ Q ∈ table.rowsOf S, Q.Address <= addr -> Q.Address <= R.Address) ∧
  (table.lookupAddress addr = unknown_index ↔ ∀ S ∈ table.Sequences, S.containsPC addr = false)

/-- If the address has a row, the rows of a range from it on are those of the addresses there. -/
def LineTable.AgreeAt (table : LineTable) (addr : UInt64) : Prop :=
  table.lookupAddress addr ≠ unknown_index -> ∀ size : UInt64, 0 < size ->
    addr.toNat + size.toNat < 2 ^ 64 ->
      ∃ rows, table.lookupAddressRange addr size = some rows ∧
        ∀ b, addr <= b -> b < addr + size -> table.lookupAddress b ≠ unknown_index ->
          table.lookupAddress b ∈ rows

/-- No two rows of a sequence are at the address. -/
def LineTable.SingleAt (table : LineTable) (addr : UInt64) : Prop :=
  ∀ S ∈ table.Sequences, S.containsPC addr = true -> ∀ (i j : Nat) (R Q : Row), i < j ->
    (table.rowsOf S)[i]? = some R -> (table.rowsOf S)[j]? = some Q ->
      ¬(R.Address = addr ∧ Q.Address = addr)

namespace LineTable.Sorted

theorem exactAt (sorted : table.Sorted) (addr : UInt64) : table.ExactAt addr := by
  constructor
  · intro S mem contains
    rcases getElem?_of_mem mem with ⟨k, entry⟩
    rcases sorted.lookupAddress_eq entry contains with ⟨j, R, found, row, le, which⟩
    refine ⟨j, R, found, row, le, fun Q other small => ?_⟩
    rcases getElem?_of_mem other with ⟨i, place⟩
    rcases which with ⟨same, -⟩ | ⟨-, last⟩
    · rw [same]
      exact small
    · have early := (sorted.lt_rowsUpTo_iff mem place addr).mpr small
      exact sorted.rows_le mem (by omega) place row
  · refine ⟨fun unknown S mem => ?_, lookupAddress_of_not⟩
    exact Bool.eq_false_iff.mpr fun contains => sorted.found_of_contains mem contains unknown

theorem index_inj {i j : Nat} (first : i < S.LastRowIndex.toNat - S.FirstRowIndex.toNat)
    (second : j < S.LastRowIndex.toNat - S.FirstRowIndex.toNat) (same : index S i = index S j) :
    i = j := by
  have values := congrArg UInt32.toNat same
  rw [index_toNat first, index_toNat second] at values
  omega

/-- A row up to the address is among the first ones, as many as the range takes. -/
theorem lt_rowsBefore (sorted : table.Sorted) (mem : S ∈ table.Sequences) {j : Nat} {R : Row}
    (row : (table.rowsOf S)[j]? = some R) {end_addr : UInt64}
    (le : R.Address.toNat <= end_addr.toNat) : j < rowsBefore table S end_addr := by
  rw [rowsBefore]
  split
  · exact (sorted.lt_rowsUpTo_iff mem row end_addr).mpr le
  · exact sorted.lt_rows mem row

theorem single_of_agreeAt (sorted : table.Sorted) (agree : table.AgreeAt addr) :
    table.SingleAt addr := by
  rintro S mem contains i j R Q before first second ⟨sameR, sameQ⟩
  rcases getElem?_of_mem mem with ⟨k, entry⟩
  rcases containsPC_iff.mp contains with ⟨low, high⟩
  have found := sorted.found_of_contains mem contains
  have noWrap : addr.toNat + (1 : UInt64).toNat < 2 ^ 64 := by
    have small := S.HighPC.toNat_lt
    change _ + 1 < _
    omega
  have next : (addr + 1).toNat = addr.toNat + 1 := by
    rw [UInt64.toNat_add]
    exact mod_eq_of_lt noWrap
  rcases agree found 1 (by decide) noWrap with ⟨rows, ran, all⟩
  rcases sorted.mem_lookupAddressRange entry contains (by decide) noWrap with ⟨_, ran', spec⟩
  cases some.inj (ran.symm.trans ran')
  have here := (spec _).mp (all addr (UInt64.le_refl _)
    (lt_iff_toNat_lt.mpr (by omega)) found)
  rcases sorted.lookupAddress_eq entry contains with ⟨m, P, value, row, le, which⟩
  have late := (sorted.lt_rowsUpTo_iff mem second addr).mpr (by rw [sameQ])
  -- The first of the rows at the address is found, which is before the last one.
  have early : m <= i := by
    rcases which with ⟨-, less⟩ | ⟨ne, last⟩
    · by_contra later
      have small := less i (by omega) R first
      rw [sameR] at small
      exact UInt64.lt_irrefl _ small
    · have order := sorted.rows_le mem (show j <= m by omega) second row
      rw [sameQ] at order
      exact absurd (UInt64.toNat_inj.mp (le_antisymm le order)) ne
  rw [value] at here
  rcases here with ⟨n, after, below, same⟩ | ⟨T, other, begins, -⟩
  · rcases sorted.rowsBefore_spec mem (lt_iff_toNat_lt.mpr (by omega) :
      S.LowPC < addr + 1) with ⟨-, most, -⟩
    have position := index_inj (sorted.lt_rows mem row) (by omega) same
    omega
  · rcases getElem?_of_mem other with ⟨n, place⟩
    rw [getElem?_drop] at place
    have order := sorted.apart_lt (show k < k + 1 + n by omega) entry place
    rw [lt_iff_toNat_lt] at begins
    omega

theorem agreeAt_of_single (sorted : table.Sorted) (single : table.SingleAt addr) :
    table.AgreeAt addr := by
  intro found size positive noWrap
  rcases contains_of_found found with ⟨k, S, entry, contains⟩
  rcases containsPC_iff.mp contains with ⟨low, high⟩
  have mem := mem_of_getElem? entry
  rcases sorted.mem_lookupAddressRange entry contains positive noWrap with ⟨rows, ran, spec⟩
  refine ⟨rows, ran, fun b after inside found_b => (spec _).mpr ?_⟩
  rw [le_iff_toNat_le] at after
  have before := lt_iff_toNat_lt.mp inside
  rcases contains_of_found found_b with ⟨l, T, other, containsT⟩
  rcases containsPC_iff.mp containsT with ⟨lowT, highT⟩
  have memberT := mem_of_getElem? other
  rcases sorted.lookupAddress_eq other containsT with ⟨j, R, value, row, le, which⟩
  have last := sorted.lt_rowsBefore memberT row (le_trans le (le_of_lt before))
  rw [value]
  rcases lt_trichotomy l k with earlier | rfl | later
  · have order := sorted.apart_lt earlier other entry
    omega
  · cases some.inj (entry.symm.trans other)
    refine .inl ⟨j, ?_, last, rfl⟩
    by_contra short
    -- Otherwise the next row is not after the start of the range either.
    have next := getElem?_eq_getElem (show j + 1 < (table.rowsOf S).length by
      have upTo := (sorted.rowsUpTo_pos mem low).2
      rw [sorted.rowsOf_length mem]
      omega)
    have small := (sorted.lt_rowsUpTo_iff mem next addr).mp (by omega)
    have order := sorted.rows_le mem (le_succ j) row next
    rcases which with ⟨same, -⟩ | ⟨-, upTo⟩
    · rw [same] at order
      refine single S mem contains j (j + 1) R _ (lt_succ_self j) row next ⟨?_, ?_⟩
      · rw [same]
        exact UInt64.toNat_inj.mp (by omega)
      · exact UInt64.toNat_inj.mp (by omega)
    · have more := (sorted.lt_rowsUpTo_iff mem next b).mpr (by omega)
      omega
  · refine .inr ⟨T, ?_, lt_iff_toNat_lt.mpr (by omega), j, last, rfl⟩
    rw [show l = k + 1 + (l - (k + 1)) by omega, <- getElem?_drop] at other
    exact mem_of_getElem? other

end LineTable.Sorted

/-- The lookups of an address and of a range from it on agree, except if there are several rows at
the address. -/
theorem lookups_agree_iff (table : LineTable) (sorted : table.Sorted) (addr : UInt64) :
    table.ExactAt addr ∧ table.AgreeAt addr ↔ table.SingleAt addr := by
  rw [and_iff_right (sorted.exactAt addr)]
  exact ⟨sorted.single_of_agreeAt, sorted.agreeAt_of_single⟩

/-- A table with one sequence of three rows. -/
def threeRows (middle : UInt64) : LineTable where
  Prologue := {}
  Rows := [Row.reset true, { Row.reset true with Address := middle },
    { Row.reset true with Address := 4 }]
  Sequences := [⟨0, 4, 0, 3, false⟩]

theorem threeRows_sorted {middle : UInt64} (inside : middle <= 4) : (threeRows middle).Sorted where
  nonempty := by simp [threeRows]
  inside := by simp [threeRows]
  first := by simp [threeRows, LineTable.rowsOf, Row.reset]
  rows := by simp [threeRows, LineTable.rowsOf, Row.reset, inside]
  apart := by simp [threeRows]

theorem lookups_agree_three : (threeRows 2).ExactAt 2 ∧ (threeRows 2).AgreeAt 2 ↔
    (threeRows 2).SingleAt 2 :=
  lookups_agree_iff (threeRows 2) (threeRows_sorted (by decide)) 2

/-- The second of two rows at the start of a range is the first one of the range. -/
theorem lookups_disagree : (threeRows 0).Sorted ∧ ¬(threeRows 0).AgreeAt 0 := by
  refine ⟨threeRows_sorted (by decide), fun agree => ?_⟩
  rcases agree (by decide) 1 (by decide) (by decide) with ⟨rows, ran, all⟩
  have here := all 0 (by decide) (by decide) (by decide)
  rw [show (threeRows 0).lookupAddressRange 0 1 = some [1] by decide] at ran
  cases some.inj ran
  revert here
  decide

end DWARFDebugLine
end LlvmProject
