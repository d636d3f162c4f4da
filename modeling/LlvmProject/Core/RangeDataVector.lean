import LlvmProject.Core.RangeMap

namespace LlvmProject

open List

namespace Lldb

/-!
# Vectors of ranges with data

A `RangeDataVector` does not merge its ranges.  To find one with an address, it goes back
from the first range that does not begin before the address, for as long as the range in
front has the address.  It does not find a range that a range without the address follows.
-/

variable {b s : Nat} {T : Type*} [LinearOrder T]

structure RangeData (b s : Nat) (T : Type*) extends Range b s where
  data : T

/-- `operator <` -/
def RangeData.less (lhs rhs : RangeData b s T) : Bool :=
  if lhs.base = rhs.base then
    if lhs.size = rhs.size then lhs.data < rhs.data else lhs.size < rhs.size
  else lhs.base < rhs.base

def RangeDataVector.Sort (entries : List (RangeData b s T)) : List (RangeData b s T) :=
  stable_sort RangeData.less entries

omit [LinearOrder T]

namespace RangeDataVector

/-- Every range of size zero is made to reach to the next larger base. -/
def CalculateSizesOfZeroByteSizeRanges : List (RangeData b s T) -> List (RangeData b s T)
  | [] => []
  | pos :: rest =>
    (if pos.size = 0 then
      match rest.find? (pos.base < ·.base) with
      | some next => { pos with size := (next.base - pos.base).setWidth s }
      | none => pos
    else pos) :: CalculateSizesOfZeroByteSizeRanges rest

/-- `std::lower_bound` for an address. -/
def lower_bound (entries : List (RangeData b s T)) (addr : BitVec b) : Nat :=
  PartitionPoint.partitionPoint (·.base < addr) entries

/-- Go back while the range in front has the address. -/
def walkBack (entries : List (RangeData b s T)) (addr : BitVec b) : Nat -> Nat
  | 0 => 0
  | pos + 1 => if entries[pos]?.any (·.Contains addr) then walkBack entries addr pos else pos + 1

/-- The position that both searches come to. -/
def find (entries : List (RangeData b s T)) (addr : BitVec b) : Option Nat :=
  let pos := walkBack entries addr (lower_bound entries addr)
  if entries[pos]?.any (·.Contains addr) then some pos else none

def FindEntryIndexThatContains (entries : List (RangeData b s T)) (addr : BitVec b) : UInt32 :=
  ((find entries addr).map UInt32.ofNat).getD UINT32_MAX

def FindEntryThatContains (entries : List (RangeData b s T)) (addr : BitVec b) :
    Option (RangeData b s T) :=
  (find entries addr).bind (entries[·]?)

/-! ## Searching -/

variable {entries : List (RangeData b s T)} {addr : BitVec b}

theorem any_iff {pos : Nat} : entries[pos]?.any (·.Contains addr) = true ↔
    ∃ entry, entries[pos]? = some entry ∧ entry.Contains addr = true := by
  rw [Option.any_eq_true]

/-- The search stays, or stops at a range with the address. -/
theorem walkBack_eq (pos : Nat) : walkBack entries addr pos = pos ∨
    entries[walkBack entries addr pos]?.any (·.Contains addr) = true := by
  induction pos with
  | zero => exact .inl rfl
  | succ pos ih =>
    rw [walkBack]
    split
    · next front =>
        rcases ih with stays | moves
        · exact .inr (by rwa [stays])
        · exact .inr moves
    · exact .inl rfl

/-- The search looks only at the last range that begins before the address and at the
first one that does not. -/
theorem find_isSome_iff : (find entries addr).isSome ↔
    ∃ entry, ((entries.takeWhile (·.base < addr)).getLast? = some entry ∨
      (entries.dropWhile (·.base < addr)).head? = some entry) ∧ entry.Contains addr = true := by
  have found : (find entries addr).isSome ↔
      entries[walkBack entries addr (lower_bound entries addr)]?.any (·.Contains addr) = true := by
    simp only [find]
    split <;> simp_all
  have parts := takeWhile_append_dropWhile (p := (·.base < addr)) (l := entries)
  have count : lower_bound entries addr = (entries.takeWhile (·.base < addr)).length := rfl
  simp only [found, count, or_and_right, exists_or, <- Option.any_eq_true]
  clear found count
  generalize entries.takeWhile (·.base < addr) = before at parts ⊢
  generalize entries.dropWhile (·.base < addr) = after at parts ⊢
  subst parts
  have at_head : (before ++ after)[before.length]? = after.head? := by
    rw [getElem?_append_right (le_refl _), Nat.sub_self, head?_eq_getElem?]
  rw [<- at_head]
  rcases eq_nil_or_concat' before with rfl | ⟨before, last, rfl⟩
  · simp [walkBack]
  · have in_front : (before ++ [last] ++ after)[before.length]? = some last := by simp
    rw [length_append, length_singleton, walkBack, in_front, getLast?_concat]
    split
    · next front =>
        refine iff_of_true ?_ (.inl front)
        rcases walkBack_eq before.length with stays | moves
        · rw [stays, in_front]
          exact front
        · exact moves
    · next front => simp [front]

/-- A search that returns an entry with the address whenever there is one, and nothing
otherwise. -/
structure Complete (entries : List (RangeData b s T)) (addr : BitVec b)
    (found : Option (RangeData b s T)) : Prop where
  contains : ∀ entry, found = some entry -> entry ∈ entries ∧ entry.Contains addr = true
  complete : (∃ entry ∈ entries, entry.Contains addr = true) -> found.isSome

/-- The entry with an index, unless that is `UINT32_MAX`. -/
def entryAt (entries : List (RangeData b s T)) (i : UInt32) : Option (RangeData b s T) :=
  if i = UINT32_MAX then none else entries[i.toNat]?

/-- If there is an entry with the address, the last one that begins before the address or
the first one that does not has it. -/
def Seen (entries : List (RangeData b s T)) (addr : BitVec b) : Prop :=
  (∃ entry ∈ entries, entry.Contains addr = true) ->
    ∃ entry, ((entries.takeWhile (·.base < addr)).getLast? = some entry ∨
      (entries.dropWhile (·.base < addr)).head? = some entry) ∧ entry.Contains addr = true

theorem find_spec {i : Nat} (found : find entries addr = some i) :
    ∃ entry, entries[i]? = some entry ∧ entry.Contains addr = true := by
  simp only [find] at found
  split at found
  · next inside =>
      cases found
      simpa [Option.any_eq_true] using inside
  · cases found

theorem complete_iff :
    Complete entries addr (FindEntryThatContains entries addr) ↔ Seen entries addr := by
  have found : ∀ {entry}, FindEntryThatContains entries addr = some entry ->
      entry ∈ entries ∧ entry.Contains addr = true := by
    intro entry found
    rcases Option.bind_eq_some_iff.mp found with ⟨i, at_i, here⟩
    rcases find_spec at_i with ⟨other, there, inside⟩
    cases here.symm.trans there
    exact ⟨mem_of_getElem? here, inside⟩
  have some : (FindEntryThatContains entries addr).isSome ↔ (find entries addr).isSome := by
    cases at_i : find entries addr with
    | none => simp [FindEntryThatContains, at_i]
    | some i =>
      rcases find_spec at_i with ⟨entry, here, -⟩
      simp [FindEntryThatContains, at_i, here]
  rw [Seen, <- find_isSome_iff, <- some]
  exact ⟨Complete.complete, fun seen => ⟨fun _ => found, seen⟩⟩

/-- Indices can tell few entries apart. -/
theorem entryAt_eq (short : entries.length < 2 ^ 32) :
    entryAt entries (FindEntryIndexThatContains entries addr) =
      FindEntryThatContains entries addr := by
  rw [FindEntryIndexThatContains, FindEntryThatContains]
  cases at_i : find entries addr with
  | none => rfl
  | some i =>
    rcases find_spec at_i with ⟨entry, here, -⟩
    have inBounds := (List.getElem?_eq_some_iff.mp here).1
    have index : (UInt32.ofNat i).toNat = i :=
      UInt32.toNat_ofNat_of_lt' (by rw [UInt32.size]; omega)
    have representable : UInt32.ofNat i ≠ UINT32_MAX := by
      intro same
      rw [same] at index
      simp [UINT32_MAX] at index
      omega
    simp [entryAt, representable, index]

/-! ## Sizes -/

theorem getRangeEnd_iff (base next : BitVec b) :
    (⟨base, (next - base).setWidth s⟩ : Range b s).GetRangeEnd = next ↔
      (next - base).toNat < 2 ^ s := by
  have whole := (next - base).isLt
  have atMost := Nat.mod_le (next - base).toNat (2 ^ s)
  rw [Range.GetRangeEnd, <- eq_sub_iff_add_eq', <- BitVec.toNat_inj, BitVec.toNat_setWidth,
    BitVec.toNat_setWidth, Nat.mod_eq_of_lt (by omega)]
  refine ⟨fun same => ?_, Nat.mod_eq_of_lt⟩
  rw [<- same]
  exact Nat.mod_lt _ (Nat.two_pow_pos s)

/-- A size of zero is made to reach to the next larger base exactly if the distance is a
size. -/
theorem sizes_iff {i : Nat} {entry next : RangeData b s T}
    (sorted : entries.Pairwise fun lhs rhs => lhs.base.toNat <= rhs.base.toNat)
    (here : entries[i]? = some entry) (zero : entry.size = 0) (mem : next ∈ entries)
    (later : entry.base < next.base)
    (least : ∀ other ∈ entries, entry.base < other.base -> next.base <= other.base) :
    (CalculateSizesOfZeroByteSizeRanges entries)[i]?.any (·.GetRangeEnd = next.base) = true ↔
      (next.base - entry.base).toNat < 2 ^ s := by
  induction entries generalizing i with
  | nil => cases here
  | cons pos rest ih =>
    rcases pairwise_cons.mp sorted with ⟨first, sortedRest⟩
    have inRest : next ∈ rest := by
      refine (mem_cons.mp mem).resolve_left ?_
      rintro rfl
      rcases mem_cons.mp (mem_of_getElem? here) with rfl | inside
      · exact BitVec.lt_irrefl _ later
      · exact Nat.not_lt.mpr (first entry inside) later
    cases i with
    | zero =>
      cases here
      cases found : rest.find? (entry.base < ·.base) with
      | none => simpa [later] using find?_eq_none.mp found next inRest
      | some nearest =>
        rcases find?_eq_some_iff_append.mp found with ⟨further, as, bs, rfl, front⟩
        have same : nearest.base = next.base := by
          refine BitVec.le_antisymm ?_ (least nearest (by simp) (by simpa using further))
          rcases mem_append.mp inRest with inFront | behind
          · simpa [later] using front next inFront
          · rcases mem_cons.mp behind with rfl | behind
            · exact BitVec.le_refl _
            · exact (pairwise_cons.mp (pairwise_append.mp sortedRest).2.1).1 next behind
        simp only [CalculateSizesOfZeroByteSizeRanges, if_pos zero, found, getElem?_cons_zero,
          Option.any_some, decide_eq_true_iff, same, getRangeEnd_iff]
    | succ i =>
      exact ih sortedRest here inRest fun other mem => least other (mem_cons_of_mem pos mem)

theorem pairwise_sort [LinearOrder T] (entries : List (RangeData b s T)) :
    (RangeDataVector.Sort entries).Pairwise fun lhs rhs => lhs.base.toNat <= rhs.base.toNat := by
  refine (pairwise_stable_sort (fun entry : RangeData b s T =>
    toLex (entry.base.toNat, toLex (entry.size.toNat, entry.data))) (fun lhs rhs => ?_)
    entries).imp fun ordered => ?_
  · rw [Prod.Lex.toLex_lt_toLex, Prod.Lex.toLex_lt_toLex]
    by_cases base : lhs.base = rhs.base <;> by_cases size : lhs.size = rhs.size <;>
      simp [RangeData.less, base, size, BitVec.lt_def, BitVec.toNat_inj]
  · rcases Prod.Lex.toLex_le_toLex.mp ordered with below | same
    · exact below.le
    · exact same.1.le

/-- What the searches for an address find in a sorted vector is what they should exactly if
the address is seen; and a size of zero is made to reach to the next larger base exactly if
the distance is a size. -/
theorem rangeDataVector_correct_iff [LinearOrder T] (vector : List (RangeData b s T))
    (addr : BitVec b) :
    let entries := RangeDataVector.Sort vector
    (Complete entries addr (FindEntryThatContains entries addr) ↔ Seen entries addr) ∧
      (entries.length < 2 ^ 32 ->
        (Complete entries addr (entryAt entries (FindEntryIndexThatContains entries addr)) ↔
          Seen entries addr)) ∧
      ∀ (i : Nat) (entry next : RangeData b s T), entries[i]? = some entry -> entry.size = 0 ->
        next ∈ entries -> entry.base < next.base ->
        (∀ other ∈ entries, entry.base < other.base -> next.base <= other.base) ->
        ((CalculateSizesOfZeroByteSizeRanges entries)[i]?.any (·.GetRangeEnd = next.base) = true ↔
          (next.base - entry.base).toNat < 2 ^ s) := by
  refine ⟨complete_iff, fun short => ?_, fun i entry next here zero mem later least => ?_⟩
  · rw [entryAt_eq short, complete_iff]
  · exact sizes_iff (pairwise_sort vector) here zero mem later least

/-- In `[0, 100)` and `[1, 2)` the address 50 is not found. -/
theorem rangeDataVector_complete_fails :
    let entries := RangeDataVector.Sort [⟨⟨0, 100⟩, 0⟩, (⟨⟨1, 1⟩, 1⟩ : RangeData 64 64 Nat)]
    FindEntryThatContains entries 50 = none ∧
      ¬Complete entries 50 (FindEntryThatContains entries 50) := by
  have sorted : RangeDataVector.Sort [⟨⟨0, 100⟩, 0⟩, (⟨⟨1, 1⟩, 1⟩ : RangeData 64 64 Nat)] =
      [⟨⟨0, 100⟩, 0⟩, ⟨⟨1, 1⟩, 1⟩] := mergeSort_of_pairwise (by decide)
  have missed : FindEntryThatContains [⟨⟨0, 100⟩, 0⟩, (⟨⟨1, 1⟩, 1⟩ : RangeData 64 64 Nat)] 50 =
      none := rfl
  simp only [sorted]
  refine ⟨missed, fun complete => ?_⟩
  have found := complete.complete ⟨⟨⟨0, 100⟩, 0⟩, mem_cons_self, by decide⟩
  rw [missed] at found
  cases found

end RangeDataVector
end Lldb
end LlvmProject
