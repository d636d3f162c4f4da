import Mathlib.Data.Nat.Digits.Defs
import Mathlib.Data.Nat.ModEq
import Mathlib.Tactic.LinearCombination

namespace LlvmProject

open Nat
namespace Schoolbook

/-!
# Schoolbook multiplication with a leak

Numbers are little-endian lists of digits to a base `b`, read by Mathlib's
`Nat.ofDigits`.  One row of the schoolbook method multiplies all digits of
one factor by a digit `y` of the other and adds the product to a window of
digits already computed.  The carry between two positions is the quotient by
the base, less an amount `lost` that may depend on the carry, on the digit
and on the multiplier.  `exactly` loses nothing.

The product computed with a leak falls short of the true product by the
weight of all lost amounts.  Whether this weight vanishes modulo a power of
the base can be decided on the exact multiplication alone, although the two
runs disagree after the first loss: below the lowest position at which
anything is lost they agree, and at that position they lose the same.
-/

/-- The amount taken from the carry, as a function of the incoming carry, of
the digit and of the multiplier. -/
abbrev Leak := Nat -> Nat -> Nat -> Nat

/-- No amount is ever taken. -/
def exactly : Leak := fun _ _ _ => 0

/-- The digit sum at one position of a row. -/
def total (carry x y digit : Nat) : Nat := carry + x * y + digit

/-- One row.  Missing digits of the window count as zero, and the last carry
becomes a new digit above the window. -/
def row (b : Nat) (lost : Leak) (y : Nat) : Nat -> List Nat -> List Nat -> List Nat
  | carry, _, [] => [carry]
  | carry, window, x :: xs =>
    total carry x y (window.headD 0) % b ::
      row b lost y (total carry x y (window.headD 0) / b - lost carry x y) window.tail xs

/-- The amounts a second leak would take along the same row. -/
def rowLosses (b : Nat) (lost counted : Leak) (y : Nat) :
    Nat -> List Nat -> List Nat -> List Nat
  | _, _, [] => []
  | carry, window, x :: xs =>
    counted carry x y ::
      rowLosses b lost counted y
        (total carry x y (window.headD 0) / b - lost carry x y) window.tail xs

/-- All rows.  The lowest digit of a row is final; the others are the window
of the next row. -/
def rows (b : Nat) (lost : Leak) (xs : List Nat) : List Nat -> List Nat -> List Nat
  | window, [] => window
  | window, y :: ys =>
    (row b lost y 0 window xs).headD 0 :: rows b lost xs (row b lost y 0 window xs).tail ys

/-- Weight of all amounts counted along the rows, in units of the base. -/
def rowsLoss (b : Nat) (lost counted : Leak) (xs : List Nat) : List Nat -> List Nat -> Nat
  | _, [] => 0
  | window, y :: ys =>
    ofDigits b (rowLosses b lost counted y 0 window xs) +
      b * rowsLoss b lost counted xs (row b lost y 0 window xs).tail ys

/-! ## The value of a product -/

section Value

variable {b : Nat} {lost : Leak}

@[simp] theorem length_row (y carry : Nat) (window xs : List Nat) :
    (row b lost y carry window xs).length = xs.length + 1 := by
  induction xs generalizing carry window with
  | nil => rfl
  | cons x xs ih => simp [row, ih]

/-- A carry below the multiplier stays below it, so that it fits in a digit. -/
theorem total_div_le {carry x y digit : Nat} (carryLe : carry <= y) (xLt : x < b)
    (digitLt : digit < b) : total carry x y digit / b <= y := by
  have prod : x * y + y <= b * y := by
    calc x * y + y = (x + 1) * y := by ring
      _ <= b * y := Nat.mul_le_mul_right y xLt
  refine Nat.le_of_lt_succ (Nat.div_lt_of_lt_mul ?_)
  calc total carry x y digit < y + x * y + b := by unfold total; omega
    _ <= b * (y + 1) := by rw [Nat.mul_succ]; omega

private theorem ofDigits_eq_headD_add (digits : List Nat) :
    ofDigits b digits = digits.headD 0 + b * ofDigits b digits.tail := by
  cases digits with
  | nil => simp
  | cons digit digits => simp [ofDigits_cons]

section

variable (within : ∀ carry x y, b * lost carry x y <= carry + x * y)
include within

/-- What a row computes and what it loses together are the exact sum. -/
theorem ofDigits_row (pos : 0 < b) (y
    carry : Nat) (window xs : List Nat) (short : window.length <= xs.length) :
    ofDigits b (row b lost y carry window xs) +
        b * ofDigits b (rowLosses b lost lost y carry window xs) =
      carry + y * ofDigits b xs + ofDigits b window := by
  induction xs generalizing carry window with
  | nil =>
    have empty : window = [] := List.length_eq_zero_iff.mp (le_zero.mp short)
    simp [row, rowLosses, empty]
  | cons x xs ih =>
    have shorter : window.tail.length <= xs.length := by
      rw [List.length_tail]
      simp only [List.length_cons] at short
      omega
    have rest := ih
      (total carry x y (window.headD 0) / b - lost carry x y) window.tail shorter
    have lossLe : lost carry x y <= total carry x y (window.headD 0) / b := by
      refine (le_div_iff_mul_le pos).mpr ?_
      calc lost carry x y * b = b * lost carry x y := mul_comm _ _
        _ <= carry + x * y := within carry x y
        _ <= total carry x y (window.headD 0) := le_add_right _ _
    have split := div_add_mod (total carry x y (window.headD 0)) b
    have windowSplit := ofDigits_eq_headD_add (b := b) window
    obtain ⟨next, nextEq⟩ := Nat.exists_eq_add_of_le lossLe
    have nextCarry : total carry x y (window.headD 0) / b - lost carry x y = next := by omega
    rw [nextEq] at split
    rw [nextCarry] at rest
    simp only [row, rowLosses, ofDigits_cons, nextCarry]
    rw [windowSplit]
    unfold total at split ⊢
    linear_combination b * rest + split

/-- The computed product and its losses together are the true product. -/
theorem ofDigits_rows (pos : 0 < b) (xs window ys : List Nat) (short : window.length <= xs.length) :
    ofDigits b (rows b lost xs window ys) + b * rowsLoss b lost lost xs window ys =
      ofDigits b window + ofDigits b xs * ofDigits b ys := by
  induction ys generalizing window with
  | nil => simp [rows, rowsLoss]
  | cons y ys ih =>
    have first := ofDigits_row within pos y 0 window xs short
    have rest := ih (row b lost y 0 window xs).tail (by simp)
    rw [ofDigits_eq_headD_add (row b lost y 0 window xs)] at first
    simp only [rows, rowsLoss, ofDigits_cons]
    linear_combination first + b * rest

end

end Value

/-! ## Agreement with the exact product -/

/-- The first `m` digits are the same, missing digits being zero. -/
def Agree : Nat -> List Nat -> List Nat -> Prop
  | 0, _, _ => True
  | m + 1, left, right => left.headD 0 = right.headD 0 ∧ Agree m left.tail right.tail

theorem Agree.refl (m : Nat) (digits : List Nat) : Agree m digits digits := by
  induction m generalizing digits with
  | zero => trivial
  | succ m ih => exact ⟨rfl, ih digits.tail⟩

section Agreement

variable {b : Nat} {lost : Leak}

/-- If the exact row loses nothing at its first `m` positions, the leaking row
computes the same first `m` digits and loses the same at the next position. -/
theorem row_agrees (small : ∀ carry x y, lost carry x y < b) (y carry m : Nat)
    (left right xs : List Nat) (agree : Agree m left right)
    (quiet : b ^ m ∣ ofDigits b (rowLosses b exactly lost y carry right xs)) :
    Agree m (row b lost y carry left xs) (row b exactly y carry right xs) ∧
      ofDigits b (rowLosses b lost lost y carry left xs) ≡
        ofDigits b (rowLosses b exactly lost y carry right xs) [MOD b ^ (m + 1)] := by
  induction xs generalizing m carry left right with
  | nil => exact ⟨Agree.refl m _, rfl⟩
  | cons x xs ih =>
    simp only [rowLosses, ofDigits_cons] at quiet ⊢
    cases m with
    | zero =>
      refine ⟨trivial, ?_⟩
      rw [zero_add, pow_one]
      exact ModEq.add_left _ ((modEq_zero_iff_dvd.mpr (dvd_mul_right b _)).trans
        (modEq_zero_iff_dvd.mpr (dvd_mul_right b _)).symm)
    | succ m =>
      rcases agree with ⟨sameHead, sameTail⟩
      have baseDvd : b ∣ lost carry x y :=
        (Nat.dvd_add_left (dvd_mul_right b _)).mp
          ((Dvd.intro_left (b ^ m) rfl).trans quiet)
      have lossless : lost carry x y = 0 := eq_zero_of_dvd_of_lt baseDvd (small carry x y)
      have pos : 0 < b := zero_lt_of_lt (small carry x y)
      rw [lossless, zero_add, pow_succ', Nat.mul_dvd_mul_iff_left pos] at quiet
      rcases ih _ m left.tail right.tail sameTail quiet with
        ⟨restAgree, restLoss⟩
      simp only [row, lossless, sameHead, exactly] at restAgree restLoss quiet ⊢
      refine ⟨⟨rfl, restAgree⟩, ?_⟩
      rw [pow_succ']
      exact ModEq.add_left _ (restLoss.mul_left' b)

/-- The exact multiplication loses nothing below level `m`, row by row. -/
def Quiet (b : Nat) (lost : Leak) (xs : List Nat) : Nat -> List Nat -> List Nat -> Prop
  | 0, _, _ => True
  | _ + 1, _, [] => True
  | m + 1, window, y :: ys =>
    b ^ (m + 1) ∣ ofDigits b (rowLosses b exactly lost y 0 window xs) ∧
      Quiet b lost xs m (row b exactly y 0 window xs).tail ys

theorem Quiet.head {xs window ys : List Nat} {y m : Nat}
    (quiet : Quiet b lost xs m window (y :: ys)) :
    b ^ m ∣ ofDigits b (rowLosses b exactly lost y 0 window xs) := by
  cases m with
  | zero => exact one_dvd _
  | succ m => exact quiet.1

/-- Below the first lost level both multiplications agree, so the weights of
their losses agree one level further. -/
theorem rowsLoss_modEq (small : ∀ carry x y, lost carry x y < b) (m : Nat) (xs left right ys : List
    Nat) (agree : Agree m left right) (quiet : Quiet b lost xs m right ys) :
    rowsLoss b lost lost xs left ys ≡ rowsLoss b exactly lost xs right ys [MOD b ^ (m + 1)] := by
  induction ys generalizing m left right with
  | nil => rfl
  | cons y ys ih =>
    rcases row_agrees small y 0 m left right xs agree quiet.head with ⟨rowAgree, rowLoss⟩
    refine rowLoss.add ?_
    cases m with
    | zero =>
      rw [zero_add, pow_one]
      exact (modEq_zero_iff_dvd.mpr (dvd_mul_right b _)).trans
        (modEq_zero_iff_dvd.mpr (dvd_mul_right b _)).symm
    | succ m =>
      rw [pow_succ']
      exact (ih m _ _ rowAgree.2 quiet.2).mul_left' b

variable {largest : Nat}

/-- The lowest possibly nonzero digit of a multiple of `b ^ m`. -/
private theorem exists_lowest_digit (largestLt : largest < b) (m : Nat) (digits : List Nat) (bounded
    : ∀ digit ∈ digits, digit <= largest) (dvd : b ^ m ∣ ofDigits b digits) :
    ∃ digit higher, ofDigits b digits = b ^ m * digit + b ^ (m + 1) * higher ∧
      digit <= largest := by
  induction digits generalizing m with
  | nil => exact ⟨0, 0, by simp, zero_le _⟩
  | cons first digits ih =>
    rw [List.forall_mem_cons] at bounded
    rw [ofDigits_cons] at dvd ⊢
    cases m with
    | zero => exact ⟨first, ofDigits b digits, by ring, bounded.1⟩
    | succ m =>
      have pos : 0 < b := zero_lt_of_lt largestLt
      have baseDvd : b ∣ first :=
        (Nat.dvd_add_left (dvd_mul_right b _)).mp ((Dvd.intro_left (b ^ m) rfl).trans dvd)
      have firstZero : first = 0 := eq_zero_of_dvd_of_lt baseDvd (bounded.1.trans_lt largestLt)
      rw [firstZero, Nat.zero_add, pow_succ', Nat.mul_dvd_mul_iff_left pos] at dvd
      rcases ih m bounded.2 dvd with ⟨digit, higher, equation, digitLe⟩
      refine ⟨digit, higher, ?_, digitLe⟩
      rw [equation, firstZero]
      ring

section

variable (bounded : ∀ carry x y, lost carry x y <= largest)
include bounded

theorem mem_rowLosses_le (taken : Leak) (y carry : Nat) (window xs : List Nat) :
    ∀ digit ∈ rowLosses b taken lost y carry window xs, digit <= largest := by
  induction xs generalizing carry window with
  | nil => simp [rowLosses]
  | cons x xs ih =>
    rw [rowLosses, List.forall_mem_cons]
    exact ⟨bounded carry x y, ih _ _⟩

/-- The losses at one level add up without overflowing into the next one, so
that their sum shows whether there is any. -/
theorem Quiet.exists_level (largestLt : largest <
    b) (m : Nat) (xs window ys : List Nat) (quiet : Quiet b lost xs m window ys) :
    ∃ level higher, rowsLoss b exactly lost xs window ys = b ^ m * level + b ^ (m + 1) * higher ∧
      level <= ys.length * largest ∧ (level = 0 -> Quiet b lost xs (m + 1) window ys) := by
  induction ys generalizing m window with
  | nil => exact ⟨0, 0, by simp [rowsLoss], zero_le _, fun _ => trivial⟩
  | cons y ys ih =>
    rcases exists_lowest_digit largestLt m _ (mem_rowLosses_le bounded exactly y 0 window xs)
      quiet.head with ⟨digit, higher, rowEq, digitLe⟩
    have quietRow (zero : digit = 0) :
        b ^ (m + 1) ∣ ofDigits b (rowLosses b exactly lost y 0 window xs) := by
      rw [rowEq, zero, mul_zero, Nat.zero_add]
      exact dvd_mul_right _ _
    rw [List.length_cons, succ_mul]
    cases m with
    | zero =>
      refine ⟨digit, higher + rowsLoss b exactly lost xs
        (row b exactly y 0 window xs).tail ys, ?_, by omega, fun zero =>
          ⟨quietRow zero, trivial⟩⟩
      rw [rowsLoss, rowEq]
      ring
    | succ m =>
      rcases ih m _ quiet.2 with ⟨level, above, restEq, levelLe, quietRest⟩
      refine ⟨digit + level, higher + above, ?_, by omega, fun zero =>
        ⟨quietRow (by omega), quietRest (by omega)⟩⟩
      rw [rowsLoss, rowEq, restEq]
      ring

/-- The losses of the leaking multiplication vanish modulo a power of the base
if and only if those counted along the exact one do. -/
theorem pow_dvd_rowsLoss_iff (xs ys : List Nat)
    (few : ys.length * largest < b) (largestLt : largest < b) (n : Nat) :
    (b ^ n ∣ rowsLoss b lost lost xs [] ys ↔ b ^ n ∣ rowsLoss b exactly lost xs [] ys) ∧
      (b ^ n ∣ rowsLoss b exactly lost xs [] ys -> Quiet b lost xs n [] ys) := by
  have small : ∀ carry x y, lost carry x y < b :=
    fun carry x y => (bounded carry x y).trans_lt largestLt
  have pos : 0 < b := zero_lt_of_lt largestLt
  induction n with
  | zero => exact ⟨by simp, fun _ => trivial⟩
  | succ n ih =>
    have lower : b ^ n ∣ b ^ (n + 1) := pow_dvd_pow b (le_succ n)
    by_cases quietBelow : b ^ n ∣ rowsLoss b exactly lost xs [] ys
    · have quiet := ih.2 quietBelow
      have same := rowsLoss_modEq small n xs [] [] ys (Agree.refl n []) quiet
      refine ⟨same.dvd_iff (dvd_refl _), fun dvd => ?_⟩
      rcases quiet.exists_level bounded largestLt with
        ⟨level, higher, equation, levelLe, quietNext⟩
      rw [equation, Nat.dvd_add_left (dvd_mul_right _ _), pow_succ,
        Nat.mul_dvd_mul_iff_left (Nat.pow_pos pos)] at dvd
      exact quietNext (eq_zero_of_dvd_of_lt dvd (levelLe.trans_lt few))
    · refine ⟨iff_of_false (fun dvd => quietBelow ?_) (fun dvd => quietBelow (lower.trans dvd)),
        fun dvd => absurd (lower.trans dvd) quietBelow⟩
      exact ih.1.mp (lower.trans dvd)

/-- The same for a modulus between two neighbouring powers of the base. -/
theorem dvd_rowsLoss_iff (xs ys : List Nat) (few : ys.length * largest < b) (largestLt : largest <
    b) {n modulus : Nat} (above : b ^ n ∣ modulus) (below : modulus ∣ b ^ (n + 1)) :
    modulus ∣ rowsLoss b lost lost xs [] ys ↔ modulus ∣ rowsLoss b exactly lost xs [] ys := by
  have atPower := pow_dvd_rowsLoss_iff bounded xs ys few largestLt n
  by_cases quietBelow : b ^ n ∣ rowsLoss b exactly lost xs [] ys
  · have small : ∀ carry x y, lost carry x y < b :=
      fun carry x y => (bounded carry x y).trans_lt largestLt
    have same := rowsLoss_modEq small n xs [] [] ys (Agree.refl n []) (atPower.2 quietBelow)
    exact same.dvd_iff below
  · refine iff_of_false (fun dvd => quietBelow ?_) (fun dvd => quietBelow (above.trans dvd))
    exact atPower.1.mp (above.trans dvd)

end

end Agreement

end Schoolbook
end LlvmProject
