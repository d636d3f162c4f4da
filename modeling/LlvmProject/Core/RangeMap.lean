import LlvmProject.Library.PartitionPoint
import LlvmProject.Library.StableSort
import Mathlib.Data.BitVec
import Mathlib.Data.Prod.Lex

namespace LlvmProject

open BitVec hiding getElem?_eq_getElem lt_trichotomy or_assoc
open List Nat

namespace Lldb

/-!
# Vectors of ranges

A `RangeVector` collects ranges, sorts them and merges those that follow one another.
The loop compares a range with its predecessor, not with what has been merged so far, and
sets the end of the merged range to the larger one of the two's ends.  An earlier range
that reaches further is cut off then.  Here is said when that does not happen.

The types of bases and of sizes are unsigned, of `b` and of `s` bits.
-/

structure Range (b s : Nat) where
  base : BitVec b
  size : BitVec s
deriving DecidableEq

variable {b s : Nat}

namespace Range

def GetRangeEnd (range : Range b s) : BitVec b := range.base + range.size.setWidth b

def SetRangeEnd (range : Range b s) (ends : BitVec b) : Range b s :=
  { range with size := if range.base < ends then (ends - range.base).setWidth s else 0 }

def Contains (range : Range b s) (r : BitVec b) : Bool := range.base <= r && r < range.GetRangeEnd

def Overlap (lhs rhs : Range b s) : Bool := lhs.base <= rhs.GetRangeEnd && rhs.base <=
    lhs.GetRangeEnd

/-- `operator <` -/
def less (lhs rhs : Range b s) : Bool :=
  if lhs.base = rhs.base then lhs.size < rhs.size else lhs.base < rhs.base

end Range

/-! ## `RangeVector` -/

def RangeVector.Sort (entries : List (Range b s)) : List (Range b s) :=
  stable_sort Range.less entries

/-- Whether a range overlaps with or touches its predecessor. -/
def canCombine (prev : Range b s) : List (Range b s) -> Bool
  | [] => false
  | pos :: rest => prev.Overlap pos || canCombine pos rest

/-- The loop that collects the minimal ranges, the last of which is `back`. -/
def combine (prev back : Range b s) : List (Range b s) -> List (Range b s)
  | [] => [back]
  | pos :: rest =>
    if prev.Overlap pos then
      combine pos (back.SetRangeEnd (if prev.GetRangeEnd < pos.GetRangeEnd then pos.GetRangeEnd
        else prev.GetRangeEnd)) rest
    else back :: combine pos pos rest

def CombineConsecutiveRanges : List (Range b s) -> List (Range b s)
  | [] => []
  | first :: rest => if canCombine first rest then combine first first rest else first :: rest

/-- `std::lower_bound` for an address. -/
def lower_bound (entries : List (Range b s)) (addr : BitVec b) : Nat :=
  PartitionPoint.partitionPoint (·.base < addr) entries

/-- The position that both searches come to. -/
def find (entries : List (Range b s)) (addr : BitVec b) : Option Nat :=
  let pos := lower_bound entries addr
  if entries[pos]?.any (·.Contains addr) then some pos
  else if pos ≠ 0 && entries[pos - 1]?.any (·.Contains addr) then some (pos - 1)
  else none

def UINT32_MAX : UInt32 := 0xffffffff

def FindEntryIndexThatContains (entries : List (Range b s)) (addr : BitVec b) : UInt32 :=
  ((find entries addr).map UInt32.ofNat).getD UINT32_MAX

def FindEntryThatContains (entries : List (Range b s)) (addr : BitVec b) : Option (Range b s) :=
  (find entries addr).bind (entries[·]?)

/-! ## Sorting -/

theorem pairwise_sort (entries : List (Range b s)) :
    (RangeVector.Sort entries).Pairwise fun lhs rhs => lhs.base.toNat <= rhs.base.toNat := by
  refine (pairwise_stable_sort (fun range => toLex (range.base.toNat, range.size.toNat))
    (fun lhs rhs => ?_) entries).imp fun ordered => ?_
  · rw [Prod.Lex.toLex_lt_toLex, Range.less]
    split <;> simp_all [lt_def, toNat_inj]
  · rcases Prod.Lex.toLex_le_toLex.mp ordered with below | same
    · exact below.le
    · exact same.1.le

/-! ## Ranges of numbers -/

namespace Range

/-- The end, if it does not wrap around. -/
def stop (range : Range b s) : Nat := range.base.toNat + range.size.toNat

structure Valid (range : Range b s) : Prop where
  nonempty : 0 < range.size.toNat
  fits : range.stop < 2 ^ b

variable {lhs rhs range : Range b s}

theorem toNat_GetRangeEnd (fits : range.stop < 2 ^ b) : range.GetRangeEnd.toNat = range.stop := by
  have sum : range.base.toNat + range.size.toNat < 2 ^ b := fits
  have size : range.size.toNat % 2 ^ b = range.size.toNat := mod_eq_of_lt (by omega)
  rw [GetRangeEnd, toNat_add, toNat_setWidth, size, mod_eq_of_lt sum, stop]

theorem contains_iff (fits : range.stop < 2 ^ b) (r : BitVec b) :
    range.Contains r = true ↔ range.base.toNat <= r.toNat ∧ r.toNat < range.stop := by
  simp [Contains, le_def, lt_def, toNat_GetRangeEnd fits]

theorem overlap_iff (fits : lhs.stop < 2 ^ b) (fits' : rhs.stop < 2 ^ b)
    (ordered : lhs.base.toNat <= rhs.base.toNat) :
    lhs.Overlap rhs = true ↔ rhs.base.toNat <= lhs.stop := by
  have reaches : lhs.base.toNat <= rhs.stop := by
    rw [stop]
    omega
  simp [Overlap, le_def, toNat_GetRangeEnd fits, toNat_GetRangeEnd fits', reaches]

theorem stop_SetRangeEnd {ends : BitVec b} (after : range.base.toNat <= ends.toNat) :
    (range.SetRangeEnd ends).stop = range.base.toNat + (ends.toNat - range.base.toNat) % 2 ^ s := by
  rw [SetRangeEnd]
  split
  · next less =>
      rw [stop, toNat_setWidth, BitVec.toNat_sub_of_le (BitVec.le_of_lt less)]
  · next less =>
      rw [lt_def] at less
      simp [stop, show ends.toNat - range.base.toNat = 0 by omega]

end Range

/-- Some range has the address. -/
def Covers (entries : List (Range b s)) (addr : Nat) : Prop :=
  ∃ range ∈ entries, range.base.toNat <= addr ∧ addr < range.stop

theorem covers_cons (first : Range b s) (rest : List (Range b s)) (addr : Nat) :
    Covers (first :: rest) addr ↔
      (first.base.toNat <= addr ∧ addr < first.stop) ∨ Covers rest addr := by
  simp [Covers]

/-- The ranges are in order, and there is an address between any two. -/
def Apart (entries : List (Range b s)) : Prop :=
  entries.Pairwise fun lhs rhs => lhs.stop < rhs.base.toNat

/-! ## Merging -/

/-- A run of ranges, each of which begins inside or at the end of its predecessor, starts
at `start`, reaches to `reach`, and its last two end at `before` and `last`: no range
reaches further than these two do, and the run's length is a size. -/
def Kept (s start before last reach : Nat) : Prop := reach = max before last ∧ reach - start < 2 ^ s

/-- Every run is kept, and the next one begins behind all of it. -/
def RunsKept (start before last reach : Nat) : List (Range b s) -> Prop
  | [] => Kept s start before last reach
  | pos :: rest =>
    if pos.base.toNat <= last then RunsKept start last pos.stop (max reach pos.stop) rest
    else (Kept s start before last reach ∧ reach < pos.base.toNat) ∧
      RunsKept pos.base.toNat 0 pos.stop pos.stop rest

/-- The number of runs. -/
def runs (last : Nat) : List (Range b s) -> Nat
  | [] => 1
  | pos :: rest => if pos.base.toNat <= last then runs pos.stop rest else runs pos.stop rest + 1

variable {prev back : Range b s} {rest : List (Range b s)} {start before last reach : Nat}

theorem base_combine (prev back : Range b s) (rest : List (Range b s)) :
    ∀ range ∈ combine prev back rest, ∃ r ∈ back :: rest, range.base = r.base := by
  induction rest generalizing prev back with
  | nil => simp [combine]
  | cons pos rest ih =>
    intro range mem
    rw [combine] at mem
    split at mem
    · rcases ih _ _ range mem with ⟨r, inside, same⟩
      rcases mem_cons.mp inside with rfl | inside
      · exact ⟨back, mem_cons_self, same⟩
      · exact ⟨r, mem_cons_of_mem back (mem_cons_of_mem pos inside), same⟩
    · rcases mem_cons.mp mem with rfl | mem
      · exact ⟨range, mem_cons_self, rfl⟩
      · rcases ih _ _ range mem with ⟨r, inside, same⟩
        exact ⟨r, mem_cons_of_mem back inside, same⟩

theorem exists_base_combine (prev back : Range b s) (rest : List (Range b s)) :
    ∃ range ∈ combine prev back rest, range.base = back.base := by
  induction rest generalizing prev back with
  | nil => exact ⟨back, mem_singleton_self back, rfl⟩
  | cons pos rest ih =>
    rw [combine]
    split
    · exact ih _ _
    · exact ⟨back, mem_cons_self, rfl⟩

/-- The merged range ends where its ranges do exactly if they are kept. -/
theorem kept_iff (bound : max before last <= reach) (starts : start <= max before last) :
    start + (max before last - start) % 2 ^ s = reach ↔ Kept s start before last reach := by
  have less := Nat.mod_lt (max before last - start) (Nat.two_pow_pos s)
  have atMost := Nat.mod_le (max before last - start) (2 ^ s)
  constructor
  · intro same
    exact ⟨by omega, by omega⟩
  · rintro ⟨rfl, fits⟩
    rw [mod_eq_of_lt fits]
    omega

theorem combine_iff (valid : ∀ range ∈ prev :: rest, range.Valid)
    (sorted : (prev :: rest).Pairwise fun lhs rhs => lhs.base.toNat <= rhs.base.toNat)
    (starts : back.base.toNat = start) (within : start <= prev.base.toNat)
    (merged : back.stop = start + (max before prev.stop - start) % 2 ^ s)
    (bound : max before prev.stop <= reach) :
    (Apart (combine prev back rest) ∧ ∀ addr, Covers (combine prev back rest) addr ↔
      (start <= addr ∧ addr < reach) ∨ Covers rest addr) ↔
      RunsKept start before prev.stop reach rest := by
  induction rest generalizing prev back start before reach with
  | nil =>
    have inside : prev.base.toNat <= prev.stop := le_add_right _ _
    have short : back.stop <= reach := by
      have := Nat.mod_le (max before prev.stop - start) (2 ^ s)
      omega
    rw [RunsKept, <- kept_iff bound (by omega), <- merged]
    simp only [combine, Apart, pairwise_singleton, Covers, mem_singleton, exists_eq_left, starts,
      not_mem_nil, false_and, exists_false, or_false, true_and]
    refine ⟨fun same => ?_, fun same addr => by rw [same]⟩
    have atEnd := same back.stop
    omega
  | cons pos rest ih =>
    rcases pairwise_cons.mp sorted with ⟨first, sortedRest⟩
    have later := first pos mem_cons_self
    have validRest : ∀ range ∈ pos :: rest, range.Valid := fun range mem =>
      valid range (mem_cons_of_mem prev mem)
    have fits := (valid prev mem_cons_self).fits
    have fitsPos := (validRest pos mem_cons_self).fits
    have inside : prev.base.toNat <= prev.stop := le_add_right _ _
    have insidePos : pos.base.toNat <= pos.stop := le_add_right _ _
    have overlap := Range.overlap_iff fits fitsPos later
    by_cases touches : pos.base.toNat <= prev.stop
    · have larger : (if prev.GetRangeEnd < pos.GetRangeEnd then pos.GetRangeEnd
          else prev.GetRangeEnd).toNat = max prev.stop pos.stop := by
        have ends := Range.toNat_GetRangeEnd fits
        have endsPos := Range.toNat_GetRangeEnd fitsPos
        split <;> rename_i less <;> rw [lt_def] at less <;> omega
      rw [combine, if_pos (overlap.mpr touches), RunsKept, if_pos touches]
      generalize (if prev.GetRangeEnd < pos.GetRangeEnd then _ else _) = ends at larger ⊢
      have startsToo : (back.SetRangeEnd ends).base.toNat = start := starts
      rw [<- ih validRest sortedRest startsToo (by omega) ?_ (by omega)]
      · refine and_congr_right fun _ => forall_congr' fun addr => ?_
        rw [covers_cons, <- or_assoc]
        refine iff_congr Iff.rfl (or_congr_left ?_)
        omega
      · rw [Range.stop_SetRangeEnd (by omega), larger, starts]
    · rw [combine, if_neg fun yes => touches (overlap.mp yes), RunsKept, if_neg touches,
        <- ih validRest sortedRest rfl (le_refl _) ?_ (by omega), <- kept_iff bound (by omega),
        <- merged]
      · have least : ∀ range ∈ pos :: rest, pos.base.toNat <= range.base.toNat :=
          forall_mem_cons.mpr ⟨le_refl _, (pairwise_cons.mp sortedRest).1⟩
        have leastOut : ∀ range ∈ combine pos pos rest, pos.base.toNat <= range.base.toNat := by
          intro range mem
          rcases base_combine _ _ _ range mem with ⟨r, mem, same⟩
          exact same ▸ least r mem
        have behind : ∀ addr, Covers (combine pos pos rest) addr ∨ Covers (pos :: rest) addr ->
            pos.base.toNat <= addr := by
          rintro addr (⟨range, mem, after, -⟩ | ⟨range, mem, after, -⟩)
          · exact (leastOut range mem).trans after
          · exact (least range mem).trans after
        have shorter := Nat.mod_le (max before prev.stop - start) (2 ^ s)
        simp only [covers_cons back, starts, Apart, pairwise_cons, <- covers_cons pos]
        constructor
        · rintro ⟨⟨gap, apart⟩, same⟩
          rcases exists_base_combine pos pos rest with ⟨head, mem, base⟩
          have before_pos := base ▸ gap head mem
          have whole : back.stop = reach := by
            by_contra other
            rcases (same back.stop).mpr (.inl (by omega)) with early | late
            · omega
            · have := behind _ (.inl late)
              omega
          refine ⟨⟨whole, by omega⟩, apart, fun addr => ⟨fun covered => ?_, fun covered => ?_⟩⟩
          · have := behind _ (.inl covered)
            exact ((same addr).mp (.inr covered)).resolve_left (by omega)
          · have := behind _ (.inr covered)
            exact ((same addr).mpr (.inr covered)).resolve_left (by omega)
        · rintro ⟨⟨whole, gap⟩, apart, same⟩
          refine ⟨⟨fun range mem => ?_, apart⟩, fun addr => or_congr (by rw [whole]) (same addr)⟩
          have := leastOut range mem
          omega
      · have size : pos.size.toNat % 2 ^ s = pos.size.toNat := mod_eq_of_lt pos.size.isLt
        rw [Nat.zero_max, Range.stop, Nat.add_sub_cancel_left, size]

theorem length_combine (back : Range b s) (valid : ∀ range ∈ prev :: rest, range.Valid)
    (sorted : (prev :: rest).Pairwise fun lhs rhs => lhs.base.toNat <= rhs.base.toNat) :
    (combine prev back rest).length = runs prev.stop rest := by
  induction rest generalizing prev back with
  | nil => rfl
  | cons pos rest ih =>
    rcases forall_mem_cons.mp valid with ⟨validPrev, validRest⟩
    rcases pairwise_cons.mp sorted with ⟨first, sortedRest⟩
    have overlap := Range.overlap_iff validPrev.fits (validRest pos mem_cons_self).fits
      (first pos mem_cons_self)
    simp only [combine, runs, overlap]
    split
    · exact ih _ validRest sortedRest
    · rw [length_cons, ih _ validRest sortedRest]

/-- The loop leaves ranges as they are if none can be combined. -/
theorem combine_eq (prev back : Range b s) (rest : List (Range b s))
    (none : canCombine prev rest = false) : combine prev back rest = back :: rest := by
  induction rest generalizing prev back with
  | nil => rfl
  | cons pos rest ih =>
    rw [canCombine, Bool.or_eq_false_iff] at none
    rw [combine, none.1, if_neg Bool.false_ne_true, ih pos pos none.2]

theorem CombineConsecutiveRanges_cons (first : Range b s) (rest : List (Range b s)) :
    CombineConsecutiveRanges (first :: rest) = combine first first rest := by
  rw [CombineConsecutiveRanges]
  split
  · rfl
  · next none => rw [combine_eq first first rest (Bool.eq_false_iff.mpr none)]

/-! ## Searching -/

variable {entries : List (Range b s)} {addr : BitVec b}

theorem Apart.gap (apart : Apart entries) {i j : Nat} {lhs rhs : Range b s} (less : i < j)
    (left : entries[i]? = some lhs) (right : entries[j]? = some rhs) :
    lhs.stop < rhs.base.toNat := by
  rcases List.getElem?_eq_some_iff.mp left with ⟨_, rfl⟩
  rcases List.getElem?_eq_some_iff.mp right with ⟨_, rfl⟩
  exact pairwise_iff_getElem.mp apart i j _ _ less

/-- In ranges that are apart the search finds the one range with the address. -/
theorem find_eq (apart : Apart entries) (fits : ∀ range ∈ entries, range.stop < 2 ^ b)
    {i : Nat} {range : Range b s} (entry : entries[i]? = some range)
    (inside : range.Contains addr = true) : find entries addr = some i := by
  have partitioned : PartitionPoint.Partitioned (fun range : Range b s => range.base < addr)
      entries := by
    refine apart.imp fun {lhs rhs} gap later => ?_
    rw [decide_eq_true_iff, lt_def] at later ⊢
    have : lhs.base.toNat <= lhs.stop := le_add_right _ _
    omega
  have lower : ∀ {j : Nat} {other : Range b s}, entries[j]? = some other ->
      (j < lower_bound entries addr ↔ other.base.toNat < addr.toNat) := by
    intro j other here
    rw [lower_bound, PartitionPoint.lt_partitionPoint_iff partitioned here, decide_eq_true_iff,
      lt_def]
  rcases (Range.contains_iff (fits range (mem_of_getElem? entry)) addr).mp inside with
    ⟨begins, ends⟩
  have inBounds := (List.getElem?_eq_some_iff.mp entry).1
  have here := lower entry
  rcases begins.eq_or_lt with same | less
  · have pos : lower_bound entries addr = i := by
      refine le_antisymm (not_lt.mp fun later => by omega) (not_lt.mp fun earlier => ?_)
      have first := getElem?_eq_getElem (earlier.trans inBounds)
      have gap := apart.gap earlier first entry
      exact lt_irrefl _ ((lower first).mpr (by rw [Range.stop] at gap; omega))
    simp [find, pos, entry, inside]
  · have next : ∀ other, entries[i + 1]? = some other -> addr.toNat < other.base.toNat :=
      fun other found => ends.trans (apart.gap (lt_succ_self i) entry found)
    have pos : lower_bound entries addr = i + 1 := by
      refine le_antisymm (not_lt.mp fun later => ?_) (here.mpr less)
      have bound := later.trans_le (PartitionPoint.partitionPoint_le _ entries)
      have first := getElem?_eq_getElem bound
      exact lt_asymm (next _ first) ((lower first).mp later)
    have misses : entries[i + 1]?.any (·.Contains addr) = false := by
      cases found : entries[i + 1]? with
      | none => rfl
      | some other =>
        have := next other found
        simp [Range.Contains, le_def]
        omega
    simp [find, pos, entry, inside, misses]

theorem find_some {i : Nat} (found : find entries addr = some i) :
    ∃ range, entries[i]? = some range ∧ range.Contains addr = true := by
  simp only [find] at found
  split at found
  · next here =>
      cases found
      simpa [Option.any_eq_true] using here
  · split at found
    · next here =>
        cases found
        rw [Bool.and_eq_true] at here
        simpa [Option.any_eq_true] using here.2
    · cases found

theorem isSome_FindEntryThatContains (apart : Apart entries)
    (fits : ∀ range ∈ entries, range.stop < 2 ^ b) (addr : BitVec b) :
    (FindEntryThatContains entries addr).isSome ↔
      ∃ range ∈ entries, range.Contains addr = true := by
  constructor
  · intro found
    rcases Option.isSome_iff_exists.mp found with ⟨range, found⟩
    rcases Option.bind_eq_some_iff.mp found with ⟨i, at_i, entry⟩
    rcases find_some at_i with ⟨other, here, inside⟩
    exact ⟨other, mem_of_getElem? here, inside⟩
  · rintro ⟨range, mem, inside⟩
    rcases getElem?_of_mem mem with ⟨i, entry⟩
    rw [FindEntryThatContains, find_eq apart fits entry inside, Option.bind_some, entry]
    rfl

/-- The index is one of the addresses' entries as long as there are few entries. -/
theorem FindEntryIndexThatContains_iff (apart : Apart entries) (fits : ∀ range ∈ entries, range.stop
    < 2 ^ b) (short : entries.length < 2 ^ 32) (addr : BitVec b) :
    FindEntryIndexThatContains entries addr ≠ UINT32_MAX ↔
      ∃ range ∈ entries, range.Contains addr = true := by
  rw [<- isSome_FindEntryThatContains apart fits, FindEntryIndexThatContains, FindEntryThatContains]
  cases found : find entries addr with
  | none => simp
  | some i =>
    rcases find_some found with ⟨range, entry, -⟩
    have inBounds := (List.getElem?_eq_some_iff.mp entry).1
    have representable : UInt32.ofNat i ≠ UINT32_MAX := by
      intro same
      have := congrArg UInt32.toNat same
      rw [UInt32.toNat_ofNat_of_lt' (by rw [UInt32.size]; omega)] at this
      simp [UINT32_MAX] at this
      omega
    simp [representable, entry]

/-! ## What is kept -/

theorem stop_SetRangeEnd_lt (range : Range b s) (ends : BitVec b) :
    (range.SetRangeEnd ends).stop < 2 ^ b := by
  by_cases after : range.base.toNat <= ends.toNat
  · have := Nat.mod_le (ends.toNat - range.base.toNat) (2 ^ s)
    rw [Range.stop_SetRangeEnd after]
    omega
  · have early : ¬range.base < ends := by
      rw [lt_def]
      omega
    simp [Range.SetRangeEnd, Range.stop, early, range.base.isLt]

theorem fits_combine (fitsBack : back.stop < 2 ^ b) (valid : ∀ range ∈ rest, range.Valid) :
    ∀ range ∈ combine prev back rest, range.stop < 2 ^ b := by
  induction rest generalizing prev back with
  | nil => simpa [combine] using fitsBack
  | cons pos rest ih =>
    rcases forall_mem_cons.mp valid with ⟨validPos, validRest⟩
    rw [combine]
    split
    · exact ih (stop_SetRangeEnd_lt _ _) validRest
    · exact forall_mem_cons.mpr ⟨fitsBack, ih validPos.fits validRest⟩

theorem covers_iff (fits : ∀ range ∈ entries, range.stop < 2 ^ b) (addr : BitVec b) :
    Covers entries addr.toNat ↔ ∃ range ∈ entries, range.Contains addr = true :=
  exists_congr fun range => and_congr_right fun mem =>
    (Range.contains_iff (fits range mem) addr).symm

/-- The entries are in order, neither overlap nor touch, and have the addresses of the
ranges, and the searches succeed for these. -/
structure Correct (ranges entries : List (Range b s)) : Prop where
  apart : entries.Pairwise fun lhs rhs => lhs.GetRangeEnd < rhs.base
  covers : ∀ addr, (∃ entry ∈ entries, entry.Contains addr = true) ↔
    ∃ range ∈ ranges, range.Contains addr = true
  index : ∀ addr, FindEntryIndexThatContains entries addr ≠ UINT32_MAX ↔
    ∃ range ∈ ranges, range.Contains addr = true
  entry : ∀ addr, (FindEntryThatContains entries addr).isSome ↔
    ∃ range ∈ ranges, range.Contains addr = true

/-- Every run of the sorted ranges is kept, and indices can tell the runs apart. -/
def AllKept : List (Range b s) -> Prop
  | [] => True
  | first :: rest => RunsKept first.base.toNat 0 first.stop first.stop rest ∧
      runs first.stop rest < 2 ^ 32

theorem runsKept_iff {first : Range b s} (valid : ∀ range ∈ first :: rest, range.Valid)
    (sorted : (first :: rest).Pairwise fun lhs rhs => lhs.base.toNat <= rhs.base.toNat)
    (fits : ∀ range ∈ combine first first rest, range.stop < 2 ^ b) :
    ((combine first first rest).Pairwise (fun lhs rhs => lhs.GetRangeEnd < rhs.base) ∧
      ∀ addr, (∃ entry ∈ combine first first rest, entry.Contains addr = true) ↔
        ∃ range ∈ first :: rest, range.Contains addr = true) ↔
      RunsKept first.base.toNat 0 first.stop first.stop rest := by
  have size : first.size.toNat % 2 ^ s = first.size.toNat := mod_eq_of_lt first.size.isLt
  have fitsAll : ∀ range ∈ first :: rest, range.stop < 2 ^ b := fun range mem =>
    (valid range mem).fits
  have merged : first.stop = first.base.toNat + (max 0 first.stop - first.base.toNat) % 2 ^ s := by
    rw [Nat.zero_max, Range.stop, Nat.add_sub_cancel_left, size]
  rw [<- combine_iff valid sorted rfl (le_refl _) merged (by omega)]
  refine and_congr (Pairwise.iff_of_mem fun {lhs rhs} mem _ => ?_)
    ⟨fun same addr => ?_, fun same addr => ?_⟩
  · rw [lt_def, Range.toNat_GetRangeEnd (fits lhs mem)]
  · rw [<- covers_cons]
    by_cases inside : addr < 2 ^ b
    · have := same (BitVec.ofNat b addr)
      rwa [<- covers_iff fits, <- covers_iff fitsAll, toNat_ofNat, mod_eq_of_lt inside] at this
    · refine iff_of_false ?_ ?_ <;> rintro ⟨range, mem, -, less⟩
      · exact inside (less.trans (fits range mem))
      · exact inside (less.trans (fitsAll range mem))
  · rw [<- covers_iff fits, <- covers_iff fitsAll, covers_cons]
    exact same addr.toNat

/-- Merging keeps every address, and the searches find exactly these, if and only if all
runs are kept. -/
theorem rangeVector_correct_iff (ranges : List (Range b s))
    (valid : ∀ range ∈ ranges, range.Valid) :
    Correct ranges (CombineConsecutiveRanges (RangeVector.Sort ranges)) ↔
      AllKept (RangeVector.Sort ranges) := by
  have sorted := pairwise_sort ranges
  have mem : ∀ range, range ∈ RangeVector.Sort ranges ↔ range ∈ ranges := fun range =>
    mem_mergeSort
  have same : ∀ addr, (∃ range ∈ ranges, range.Contains addr = true) ↔
      ∃ range ∈ RangeVector.Sort ranges, range.Contains addr = true := by
    simp only [mem, implies_true]
  have validAll : ∀ range ∈ RangeVector.Sort ranges, range.Valid := fun range inside =>
    valid range ((mem range).mp inside)
  generalize RangeVector.Sort ranges = entries at sorted same validAll
  cases entries with
  | nil =>
    refine iff_of_true ⟨.nil, ?_, ?_, ?_⟩ trivial <;> intro addr <;> rw [same] <;>
      simp [CombineConsecutiveRanges, FindEntryIndexThatContains, FindEntryThatContains, find]
  | cons first rest =>
    have fits : ∀ range ∈ combine first first rest, range.stop < 2 ^ b :=
      fits_combine (validAll first mem_cons_self).fits fun range mem =>
        validAll range (mem_cons_of_mem first mem)
    rw [CombineConsecutiveRanges_cons, AllKept, <- runsKept_iff validAll sorted fits,
      <- length_combine first validAll sorted]
    have apart : ∀ {entries : List (Range b s)}, (∀ range ∈ entries, range.stop < 2 ^ b) ->
        entries.Pairwise (fun lhs rhs => lhs.GetRangeEnd < rhs.base) -> Apart entries := by
      intro entries fits gaps
      refine gaps.imp_of_mem fun {lhs rhs} mem _ gap => ?_
      rwa [lt_def, Range.toNat_GetRangeEnd (fits lhs mem)] at gap
    constructor
    · intro correct
      refine ⟨⟨correct.apart, fun addr => (correct.covers addr).trans (same addr)⟩, ?_⟩
      by_contra long
      have less : 2 ^ 32 - 1 < (combine first first rest).length := by omega
      have last := getElem?_eq_getElem less
      generalize (combine first first rest)[2 ^ 32 - 1] = entry at last
      rcases base_combine _ _ _ entry (mem_of_getElem? last) with ⟨r, inside, base⟩
      have valid := validAll r inside
      have covered : ∃ range ∈ ranges, range.Contains entry.base = true := by
        refine (same _).mpr ⟨r, inside, (Range.contains_iff valid.fits _).mpr ?_⟩
        have := valid.nonempty
        rw [base, Range.stop]
        omega
      rcases (correct.covers entry.base).mpr covered with ⟨other, mem, has⟩
      rcases getElem?_of_mem mem with ⟨i, found⟩
      have inOther := (Range.contains_iff (fits other mem) _).mp has
      have gaps := apart fits correct.apart
      rcases lt_trichotomy i (2 ^ 32 - 1) with before | rfl | after
      · exact lt_asymm inOther.2 (gaps.gap before found last)
      · refine (correct.index entry.base).mpr covered ?_
        rw [FindEntryIndexThatContains, find_eq gaps fits found has]
        rfl
      · have := gaps.gap after last found
        rw [Range.stop] at this
        omega
    · rintro ⟨⟨gaps, covers⟩, short⟩
      have searched := isSome_FindEntryThatContains (apart fits gaps) fits
      have indexed := FindEntryIndexThatContains_iff (apart fits gaps) fits short
      have covered := fun addr => (covers addr).trans (same addr).symm
      exact ⟨gaps, covered, fun addr => (indexed addr).trans (covered addr),
        fun addr => (searched addr).trans (covered addr)⟩

/-- Of `[0, 100)`, `[1, 2)` and `[2, 3)` the addresses from 3 on are lost. -/
theorem rangeVector_correct_fails : ¬Correct [⟨0, 100⟩, ⟨1, 1⟩, (⟨2, 1⟩ : Range 64 64)]
    (CombineConsecutiveRanges (RangeVector.Sort [⟨0, 100⟩, ⟨1, 1⟩, ⟨2, 1⟩])) := by
  have sorted : RangeVector.Sort [⟨0, 100⟩, ⟨1, 1⟩, (⟨2, 1⟩ : Range 64 64)] =
      [⟨0, 100⟩, ⟨1, 1⟩, ⟨2, 1⟩] := mergeSort_of_pairwise (by decide)
  rw [sorted]
  intro correct
  have lost := (correct.covers 50).mpr ⟨⟨0, 100⟩, by decide, by decide⟩
  revert lost
  decide

theorem rangeVector_correct_two : Correct [⟨0, 100⟩, (⟨100, 1⟩ : Range 64 64)]
    (CombineConsecutiveRanges (RangeVector.Sort [⟨0, 100⟩, ⟨100, 1⟩])) := by
  have sorted : RangeVector.Sort [⟨0, 100⟩, (⟨100, 1⟩ : Range 64 64)] = [⟨0, 100⟩, ⟨100, 1⟩] :=
    mergeSort_of_pairwise (by decide)
  refine (rangeVector_correct_iff _ ?_).mpr ?_
  · exact forall_mem_cons.mpr ⟨⟨by decide, by decide⟩,
      forall_mem_cons.mpr ⟨⟨by decide, by decide⟩, forall_mem_nil _⟩⟩
  · rw [sorted]
    simp [AllKept, RunsKept, Kept, runs, Range.stop]

end Lldb
end LlvmProject
