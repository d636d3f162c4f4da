import LlvmProject.Library.SizedParts
import LlvmProject.Rewrite.RewriteRope

namespace LlvmProject

open List

namespace RewriteRope

/-!
# Pieces and offsets

While the sizes stay below `2 ^ 32`, the loops over offsets find the cut they
look for, and the parts of a piece show the parts of its text.
-/

open SizedParts

variable {α : Type}

/-! ## Unsigned numbers -/

theorem add32_eq {a b : Nat} (small : a + b < 2 ^ 32) : add32 a b = a + b := Nat.mod_eq_of_lt small

theorem add32_lt (a b : Nat) : add32 a b < 2 ^ 32 := Nat.mod_lt _ (Nat.two_pow_pos 32)

theorem sub32_eq {a b : Nat} (le : b <= a) (small : a < 2 ^ 32) : sub32 a b = a - b := by
  rw [sub32, Nat.sub_add_comm le, Nat.add_mod_right, Nat.mod_eq_of_lt (by omega)]

theorem foldl_add32 (sizes : List Nat) (start : Nat) (small : start + sizes.sum < 2 ^ 32) :
    sizes.foldl add32 start = start + sizes.sum := by
  induction sizes generalizing start with
  | nil => rfl
  | cons size sizes ih =>
    rw [sum_cons] at small ⊢
    rw [foldl_cons, add32_eq (by omega), ih _ (by omega), add_assoc]

/-! ## Loops over offsets -/

/-- The loop stops at the first element whose end does not satisfy the
condition. -/
theorem passWhile_spec {more : Nat -> Bool} {sizes : List Nat} (i offs : Nat) (nonempty : sizes ≠
    []) (stops : more (offs + sizes.sum) = false) (small : offs + sizes.sum < 2 ^ 32) :
    ∃ l s r, sizes = l ++ s :: r ∧ passWhile more sizes i offs = some (i + l.length, offs + l.sum) ∧
      more (offs + l.sum + s) = false ∧ (l = [] ∨ more (offs + l.sum) = true) := by
  induction sizes generalizing i offs with
  | nil => exact absurd rfl nonempty
  | cons size sizes ih =>
    rw [sum_cons] at stops small
    rw [passWhile, add32_eq (by omega)]
    by_cases next : more (offs + size) = true
    · have nonempty : sizes ≠ [] := by
        rintro rfl
        rw [sum_nil, add_zero, next] at stops
        cases stops
      rcases ih (i + 1) (offs + size) nonempty
          (by rw [add_assoc]; exact stops) (by omega) with
        ⟨l, s, r, rfl, passed, ends, starts⟩
      refine ⟨size :: l, s, r, rfl, ?_, ?_, .inr ?_⟩
      · rw [if_pos next, passed, length_cons, sum_cons, add_assoc, add_comm 1, add_assoc]
      · rw [sum_cons, <- add_assoc]
        exact ends
      · rw [sum_cons, <- add_assoc]
        rcases starts with rfl | more
        · exact next
        · exact more
    · rw [Bool.not_eq_true] at next
      exact ⟨[], size, sizes, rfl, if_neg (by rw [next]; exact Bool.false_ne_true), next, .inl rfl⟩

theorem passWhile_parts {β : Type*} (size : β -> Nat) (more : Nat -> Bool) {parts : List β}
    (i offs : Nat) (nonempty : parts ≠ []) (stops : more (offs + extent size parts) = false)
    (small : offs + extent size parts < 2 ^ 32) :
    ∃ A x B, parts = A ++ x :: B ∧
      passWhile more (parts.map size) i offs = some (i + A.length, offs + extent size A) ∧
      more (offs + extent size A + size x) = false ∧
      (A = [] ∨ more (offs + extent size A) = true) := by
  rcases passWhile_spec i offs (by simpa using nonempty) stops small with
    ⟨l, s, r, same, passed, ends, starts⟩
  rcases map_eq_append_iff.mp same with ⟨A, rest, rfl, rfl, restSizes⟩
  rcases map_eq_cons_iff.mp restSizes with ⟨x, B, rfl, rfl, rfl⟩
  rw [length_map] at passed
  exact ⟨A, x, B, rfl, passed, ends, starts.imp_left map_eq_nil_iff.mp⟩

/-- The loop that looks for a cut finds it. -/
theorem passTo_spec {Offset : Nat} {l r : List Nat} (i offs : Nat)
    (positive : ∀ size ∈ l, 0 < size) (cut : offs + l.sum = Offset) (small : Offset < 2 ^ 32) :
    passTo Offset (l ++ r) i offs = some (i + l.length, Offset) := by
  induction l generalizing i offs with
  | nil =>
    have here : offs = Offset := cut
    cases r <;> rw [nil_append, passTo, if_neg (by omega), here] <;> rfl
  | cons size l ih =>
    have here := positive size mem_cons_self
    rw [sum_cons] at cut
    rw [List.cons_append, passTo, if_pos (by omega), add32_eq (by omega),
      ih (i + 1) (offs + size)
        (fun size mem => positive size (mem_cons_of_mem _ mem)) (by omega),
      length_cons, add_assoc, add_comm 1]

/-! ## Pieces -/

namespace RopePiece

variable {R : RopePiece α} {k : Nat}

/-- A piece that shows some characters of its string. -/
structure Valid (R : RopePiece α) : Prop where
  nonempty : R.StartOffs < R.EndOffs
  inside : R.EndOffs <= R.StrData.length
  small : R.EndOffs < 2 ^ 32

theorem Valid.size_eq (valid : R.Valid) : R.size = R.EndOffs - R.StartOffs :=
  sub32_eq valid.nonempty.le valid.small

theorem Valid.size_pos (valid : R.Valid) : 0 < R.size := by
  rw [valid.size_eq]
  exact Nat.sub_pos_of_lt valid.nonempty

theorem Valid.length_text (valid : R.Valid) : R.text.length = R.size := by
  have inside := valid.inside
  rw [text, length_take, length_drop, valid.size_eq]
  omega

/-- The first part of a piece. -/
def head (R : RopePiece α) (k : Nat) : RopePiece α := { R with EndOffs := add32 R.StartOffs k }

/-- What is left of a piece without its first part. -/
def tail (R : RopePiece α) (k : Nat) : RopePiece α := { R with StartOffs := add32 R.StartOffs k }

section

variable (valid : R.Valid)
include valid

theorem Valid.add32_start (inside : k < R.size) :
    add32 R.StartOffs k = R.StartOffs + k ∧ R.StartOffs + k < R.EndOffs := by
  have small := valid.small
  rw [valid.size_eq] at inside
  have before : R.StartOffs + k < R.EndOffs := by omega
  exact ⟨add32_eq (before.trans small), before⟩

theorem Valid.head (positive : 0 < k) (inside : k < R.size) :
    (R.head k).Valid ∧ (R.head k).size = k ∧ (R.head k).text = R.text.take k := by
  rcases valid.add32_start inside with ⟨sum, before⟩
  have headValid : (R.head k).Valid := by
    refine ⟨?_, ?_, ?_⟩
    · rw [RopePiece.head, sum]
      exact Nat.lt_add_of_pos_right positive
    · rw [RopePiece.head, sum]
      exact before.le.trans valid.inside
    · rw [RopePiece.head, sum]
      exact before.trans valid.small
  have headSize : (R.head k).size = k := by
    rw [headValid.size_eq, RopePiece.head, sum, Nat.add_sub_cancel_left]
  refine ⟨headValid, headSize, ?_⟩
  rw [text, headSize, text, take_take, min_eq_left inside.le]
  rfl

theorem Valid.tail (inside : k < R.size) :
    (R.tail k).Valid ∧ (R.tail k).size = R.size - k ∧ (R.tail k).text = R.text.drop k := by
  rcases valid.add32_start inside with ⟨sum, before⟩
  have tailValid : (R.tail k).Valid := by
    refine ⟨?_, valid.inside, valid.small⟩
    rw [RopePiece.tail, sum]
    exact before
  have tailSize : (R.tail k).size = R.size - k := by
    rw [tailValid.size_eq, RopePiece.tail, sum, valid.size_eq, Nat.sub_add_eq]
  refine ⟨tailValid, tailSize, ?_⟩
  rw [text, tailSize, RopePiece.tail, sum, text, drop_take, drop_drop]

theorem Valid.text_parts (positive : 0 < k) (inside : k < R.size) :
    (R.head k).text ++ (R.tail k).text = R.text := by
  rw [(valid.head positive inside).2.2, (valid.tail inside).2.2, take_append_drop]

end

end RopePiece

/-- The characters of a sequence of pieces. -/
def textOf (pieces : List (RopePiece α)) : List α := (pieces.map RopePiece.text).flatten

theorem textOf_nil : textOf ([] : List (RopePiece α)) = [] := rfl

theorem textOf_append (l r : List (RopePiece α)) : textOf (l ++ r) = textOf l ++ textOf r := by
  rw [textOf, map_append, flatten_append, textOf, textOf]

theorem textOf_cons (R : RopePiece α) (r : List (RopePiece α)) :
    textOf (R :: r) = R.text ++ textOf r := by
  rw [textOf, List.map_cons, flatten_cons, textOf]

/-- Pieces that all show some characters. -/
def AllValid (pieces : List (RopePiece α)) : Prop := ∀ R ∈ pieces, R.Valid

variable {l r pieces : List (RopePiece α)} {R : RopePiece α}

theorem AllValid.positive (valid : AllValid pieces) : ∀ R ∈ pieces, 0 < R.size :=
  fun R mem => (valid R mem).size_pos

theorem allValid_append : AllValid (l ++ r) ↔ AllValid l ∧ AllValid r := forall_mem_append

theorem allValid_cons : AllValid (R :: r) ↔ R.Valid ∧ AllValid r := forall_mem_cons

theorem AllValid.length_textOf (valid : AllValid pieces) :
    (textOf pieces).length = extent RopePiece.size pieces := by
  induction pieces with
  | nil => rfl
  | cons R pieces ih =>
    rcases allValid_cons.mp valid with ⟨here, rest⟩
    rw [textOf_cons, length_append, here.length_text, ih rest, extent_cons]

theorem AllValid.eq_nil (valid : AllValid pieces) (empty : textOf pieces = []) : pieces = [] := by
  apply eq_nil_of_extent_eq_zero valid.positive
  rw [<- valid.length_textOf, empty, length_nil]

end RewriteRope
end LlvmProject
