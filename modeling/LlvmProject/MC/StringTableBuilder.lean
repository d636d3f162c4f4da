import Mathlib.Algebra.Order.Ring.Nat
import Mathlib.Data.List.Infix
import Mathlib.Data.List.Sort

namespace LlvmProject

open List

/-!
# Tail-merged string tables

The strings are sorted by their last characters, so that a string comes directly after those
that end with it.  Each string is then either a suffix of the last one that was added to the
table, or is added itself.

The strings are bytes, compared as signed characters.  The map from the strings to their
offsets is a list of its entries in the order of its iteration, which is arbitrary.
-/

/-- The value of a character in a comparison. -/
def charValue (c : UInt8) : Int := if c.toNat < 128 then c.toNat else (c.toNat : Int) - 256

/-- The comparison from the last characters on, of strings that are given backwards. -/
def compareBackwards : List UInt8 -> List UInt8 -> Bool
  | ca :: a, cb :: b =>
    if ca ≠ cb then decide (charValue ca > charValue cb) else compareBackwards a b
  | a, b => decide (a.length > b.length)

def compareBySuffix (a b : List UInt8) : Bool := compareBackwards a.reverse b.reverse

/-- Utility for building string tables with deduplicated suffixes. -/
structure StringTableBuilder where
  StringTable : List UInt8
  StringIndexMap : List (List UInt8 × Nat)
  nodup : (StringIndexMap.map Prod.fst).Nodup

namespace StringTableBuilder

inductive Kind
  | ELF
  | WinCOFF
  | MachO
  deriving DecidableEq

/-- The strings of the builder. -/
def keys (this : StringTableBuilder) : List (List UInt8) := this.StringIndexMap.map Prod.fst

/-- Retrieve the offset of a string. -/
def getOffset (this : StringTableBuilder) (s : List UInt8) : Option Nat :=
  (this.StringIndexMap.find? fun entry => entry.1 = s).map Prod.snd

/-- Assign an offset to a string of the map. -/
def setOffset (this : StringTableBuilder) (s : List UInt8) (offset : Nat) :
    StringTableBuilder where
  StringTable := this.StringTable
  StringIndexMap :=
    this.StringIndexMap.map fun entry => if entry.1 = s then (entry.1, offset) else entry
  nodup := by
    have same : Prod.fst ∘ (fun entry : List UInt8 × Nat =>
        if entry.1 = s then (entry.1, offset) else entry) = Prod.fst := by
      funext entry
      simp only [Function.comp_apply]
      split <;> rfl
    rw [map_map, same]
    exact this.nodup

/-- Append bytes to the table. -/
def append (this : StringTableBuilder) (bytes : List UInt8) : StringTableBuilder :=
  { this with StringTable := this.StringTable ++ bytes }

/-- The length of the names in COFF tables. -/
def NameSize : Nat := 8

/-- One round of the loop over the sorted strings, with the string that was added last. -/
def mergeString (kind : Kind) (state : StringTableBuilder × List UInt8) (s : List UInt8) :
    Option (StringTableBuilder × List UInt8) :=
  let (this, Previous) := state
  if kind = .WinCOFF ∧ ¬s.length > NameSize then none  -- Short string in COFF string table!
  else if s <:+ Previous then
    some (this.setOffset s (this.StringTable.length - 1 - s.length), Previous)
  else some ((this.setOffset s this.StringTable.length).append (s ++ [0]), s)

/-- What the table starts with. -/
def header : Kind -> List UInt8
  | .ELF | .MachO => [0]  -- Start the table with a NUL byte.
  | .WinCOFF => [0, 0, 0, 0]  -- Make room to write the table size later.

/-- A number of 32 bits with its lowest byte first. -/
def littleEndian32 (n : Nat) : List UInt8 :=
  [UInt8.ofNat n, UInt8.ofNat (n / 2 ^ 8), UInt8.ofNat (n / 2 ^ 16), UInt8.ofNat (n / 2 ^ 24)]

/-- The end of the function, when all strings have their offsets. -/
def finish (kind : Kind) (this : StringTableBuilder) : Option StringTableBuilder :=
  let size := this.StringTable.length
  match kind with
  | .ELF => some this
  | .MachO => some (this.append (replicate ((4 - size % 4) % 4) 0))
  | .WinCOFF =>
    if size < 2 ^ 32 then
      some { this with StringTable := littleEndian32 size ++ this.StringTable.drop 4 }
    else none

/-- Analyze the strings and build the final table; a failed assertion is `none`. -/
def finalize (this : StringTableBuilder) (kind : Kind) : Option StringTableBuilder :=
  let Strings := this.keys.insertionSort fun a b => ¬compareBySuffix b a = true
  (Strings.foldlM (mergeString kind) (this.append (header kind), [])).bind fun state =>
    finish kind state.1

/-! ## The order of the strings -/

section Order

variable {a b c : UInt8} {p q m : List UInt8}

theorem charValue_injective (same : charValue a = charValue b) : a = b := by
  have first := a.toNat_lt
  have second := b.toNat_lt
  unfold charValue at same
  apply UInt8.toNat_inj.mp
  split at same <;> split at same <;> omega

theorem compareBackwards_trans (pq : compareBackwards q p = false)
    (qm : compareBackwards m q = false) : compareBackwards m p = false := by
  induction p generalizing q m with
  | nil =>
    cases m <;> cases q <;> simp_all [compareBackwards]
  | cons a p ih =>
    cases q with
    | nil => cases m <;> simp_all [compareBackwards]
    | cons b q =>
      cases m with
      | nil => simp_all [compareBackwards]
      | cons c m =>
        unfold compareBackwards at pq qm ⊢
        by_cases first : b = a
        · by_cases second : c = b
          · rw [if_neg (not_not_intro first)] at pq
            rw [if_neg (not_not_intro second)] at qm
            rw [if_neg (not_not_intro (second.trans first))]
            exact ih pq qm
          · rw [first] at second qm
            rw [if_pos second] at qm ⊢
            exact qm
        · rw [if_pos first, decide_eq_false_iff_not] at pq
          by_cases second : c = b
          · rw [second, if_pos first, decide_eq_false_iff_not]
            exact pq
          · rw [if_pos second, decide_eq_false_iff_not] at qm
            have less : charValue b ≠ charValue a := fun same => first (charValue_injective same)
            have ne : c ≠ a := by
              rintro rfl
              omega
            rw [if_pos ne, decide_eq_false_iff_not]
            omega

theorem compareBackwards_total (p q : List UInt8) :
    compareBackwards q p = false ∨ compareBackwards p q = false := by
  induction p generalizing q with
  | nil => cases q <;> simp [compareBackwards]
  | cons a p ih =>
    cases q with
    | nil => simp [compareBackwards]
    | cons b q =>
      unfold compareBackwards
      by_cases same : b = a
      · rw [if_neg (not_not_intro same), if_neg (not_not_intro same.symm)]
        exact ih q
      · rw [if_pos same, if_pos (Ne.symm same), decide_eq_false_iff_not, decide_eq_false_iff_not]
        omega

/-- A longer string comes before those that it begins with. -/
theorem compareBackwards_of_prefix (isPrefix : p <+: q) (ne : p ≠ q) :
    compareBackwards q p = true := by
  induction p generalizing q with
  | nil =>
    cases q with
    | nil => exact absurd rfl ne
    | cons b q => simp [compareBackwards]
  | cons a p ih =>
    cases q with
    | nil => simp at isPrefix
    | cons b q =>
      rcases cons_prefix_cons.mp isPrefix with ⟨rfl, shorter⟩
      rw [compareBackwards, if_neg (by simp)]
      exact ih shorter fun same => ne (congrArg (a :: ·) same)

/-- What stands between a string and its beginning begins with it, too. -/
theorem prefix_of_between (isPrefix : p <+: q) (after : compareBackwards m q = false)
    (before : compareBackwards p m = false) : p <+: m := by
  induction p generalizing q m with
  | nil => exact nil_prefix
  | cons a p ih =>
    cases q with
    | nil => simp at isPrefix
    | cons b q =>
      rcases cons_prefix_cons.mp isPrefix with ⟨rfl, shorter⟩
      cases m with
      | nil => simp [compareBackwards] at before
      | cons c m =>
        unfold compareBackwards at after before
        by_cases same : c = a
        · rw [if_neg (not_not_intro same)] at after
          rw [if_neg (not_not_intro same.symm)] at before
          exact cons_prefix_cons.mpr
            ⟨same.symm, ih shorter after before⟩
        · rw [if_pos same, decide_eq_false_iff_not] at after
          rw [if_pos (Ne.symm same), decide_eq_false_iff_not] at before
          exact absurd (charValue_injective (by omega)) same

end Order

/-- The order of the sorted strings. -/
def NotAfter (a b : List UInt8) : Prop := ¬compareBySuffix b a = true

instance : DecidableRel NotAfter := fun a b => by
  unfold NotAfter
  infer_instance

instance : Std.Total NotAfter where
  total a b := by
    unfold NotAfter compareBySuffix
    rw [Bool.not_eq_true, Bool.not_eq_true]
    exact compareBackwards_total a.reverse b.reverse

instance : IsTrans (List UInt8) NotAfter where
  trans a b c first second := by
    unfold NotAfter compareBySuffix at *
    rw [Bool.not_eq_true] at *
    exact compareBackwards_trans first second

theorem suffix_of_between {s t m : List UInt8} (isSuffix : s <:+ t) (after : NotAfter t m)
    (before : NotAfter m s) : s <:+ m := by
  unfold NotAfter compareBySuffix at after before
  rw [Bool.not_eq_true] at after before
  rw [<- reverse_prefix] at isSuffix ⊢
  exact prefix_of_between isSuffix after before

theorem not_notAfter_of_suffix {s t : List UInt8} (isSuffix : s <:+ t) (ne : s ≠ t) :
    ¬NotAfter s t := by
  unfold NotAfter compareBySuffix
  rw [not_not]
  exact compareBackwards_of_prefix (List.reverse_prefix.mpr isSuffix)
    fun same => ne (reverse_inj.mp same)

end StringTableBuilder
end LlvmProject
