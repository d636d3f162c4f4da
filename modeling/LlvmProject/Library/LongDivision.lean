import Mathlib.Data.Nat.Digits.Defs
import Mathlib.Tactic.LinearCombination

namespace LlvmProject

open List Nat

namespace LongDivision

/-!
# Long division and trial digits

Long division of a number by `V` to a base `b` keeps a window: the running
remainder followed by the next digit of the dividend.  Each window contributes
one digit of the quotient, namely its own quotient by `V`, and its remainder
becomes the upper part of the next window.  The digits of the dividend that
have not entered the window yet are listed from the highest one down.

Machines cannot divide a window by `V` directly.  They estimate the digit from
the three highest digits of the window and the two highest digits of `V`.  For
a normalised `V` the estimate is never too small, and too large by at most
one; `Excessive` are the windows where it is too large.
-/

/-- The windows of a division, the highest one first. -/
def windows (b V : Nat) : Nat -> List Nat -> List Nat
  | window, [] => [window]
  | window, digit :: below => window :: windows b V (window % V * b + digit) below

/-- The digits of the quotient, the highest one first. -/
def quotientDigits (b V window : Nat) (below : List Nat) : List Nat :=
  (windows b V window below).map (· / V)

/-- The remainder after the last digit. -/
def finalRemainder (b V : Nat) : Nat -> List Nat -> Nat
  | window, [] => window % V
  | window, digit :: below => finalRemainder b V (window % V * b + digit) below

/-- Estimate of a quotient digit from the digits of weight `b ^ (n - 2)` and
higher, where `n` is the number of digits of `V`. -/
def trialDigit (b n V window : Nat) : Nat := min (b - 1) (window / b ^ (n - 2) / (V / b ^ (n - 2)))

/-- The estimate exceeds the digit. -/
def Excessive (b n V window : Nat) : Prop := window / V < trialDigit b n V window

instance (b n V window : Nat) : Decidable (Excessive b n V window) :=
  inferInstanceAs (Decidable (_ < _))

/-! ## Exactness of long division -/

section Exactness

variable {b V : Nat}

theorem quotientDigits_nil (window : Nat) : quotientDigits b V window [] = [window / V] := rfl

theorem quotientDigits_cons (window digit : Nat) (below : List Nat) :
    quotientDigits b V window (digit :: below) =
      window / V :: quotientDigits b V (window % V * b + digit) below := rfl

@[simp] theorem length_windows (window : Nat) (below : List Nat) :
    (windows b V window below).length = below.length + 1 := by
  induction below generalizing window with
  | nil => rfl
  | cons digit below ih => simp [windows, ih]

@[simp] theorem length_quotientDigits (window : Nat) (below : List Nat) :
    (quotientDigits b V window below).length = below.length + 1 := by
  rw [quotientDigits, length_map, length_windows]

theorem finalRemainder_lt (pos : 0 < V) (window : Nat) (below : List Nat) :
    finalRemainder b V window below < V := by
  induction below generalizing window with
  | nil => exact mod_lt _ pos
  | cons digit below ih => exact ih _

theorem ofDigits_reverse_cons (digit : Nat) (below : List Nat) :
    ofDigits b (digit :: below).reverse = ofDigits b below.reverse + b ^ below.length * digit := by
  rw [reverse_cons, ofDigits_append, ofDigits_singleton, length_reverse]

theorem division_recompose (window : Nat) (below : List Nat) :
    ofDigits b (quotientDigits b V window below).reverse * V +
        finalRemainder b V window below =
      window * b ^ below.length + ofDigits b below.reverse := by
  induction below generalizing window with
  | nil =>
    have split := div_add_mod window V
    simp only [quotientDigits_nil, finalRemainder, reverse_singleton,
      ofDigits_singleton, length_nil, pow_zero, reverse_nil, ofDigits_nil]
    linear_combination split
  | cons digit below ih =>
    have split := div_add_mod window V
    have rest := ih (window % V * b + digit)
    rw [quotientDigits_cons, ofDigits_reverse_cons, ofDigits_reverse_cons, finalRemainder,
      length_quotientDigits, length_cons]
    linear_combination rest + b ^ (below.length + 1) * split

/-- Long division computes the quotient. -/
theorem ofDigits_quotientDigits (pos : 0 < V) (window : Nat) (below : List Nat) :
    ofDigits b (quotientDigits b V window below).reverse =
      (window * b ^ below.length + ofDigits b below.reverse) / V := by
  have recompose := division_recompose (b := b) (V := V) window below
  rw [<- recompose, add_comm, add_mul_div_right _ _ pos,
    div_eq_of_lt (finalRemainder_lt pos window below), zero_add]

/-- Long division computes the remainder. -/
theorem finalRemainder_eq (pos : 0 < V) (window : Nat) (below : List Nat) :
    finalRemainder b V window below =
      (window * b ^ below.length + ofDigits b below.reverse) % V := by
  have recompose := division_recompose (b := b) (V := V) window below
  rw [<- recompose, add_comm, add_mul_mod_self_right,
    mod_eq_of_lt (finalRemainder_lt pos window below)]

/-- The next window is again smaller than `b` divisors. -/
theorem next_window_lt (pos : 0 < V) {window digit : Nat} (digitLt : digit < b) :
    window % V * b + digit < b * V := by
  have remainderLt := mod_lt window pos
  calc window % V * b + digit < window % V * b + b := Nat.add_lt_add_left digitLt _
    _ = (window % V + 1) * b := by ring
    _ <= V * b := mul_le_mul_right b remainderLt
    _ = b * V := mul_comm V b

theorem quotientDigits_lt (pos : 0 < V) {window : Nat} {below : List Nat}
    (windowLt : window < b * V) (digits : ∀ digit ∈ below, digit < b) :
    ∀ digit ∈ quotientDigits b V window below, digit < b := by
  induction below generalizing window with
  | nil =>
    intro digit mem
    rw [quotientDigits_nil, mem_singleton] at mem
    rw [mem]
    exact Nat.div_lt_of_lt_mul (by rwa [mul_comm] at windowLt)
  | cons digit below ih =>
    rw [forall_mem_cons] at digits
    rw [quotientDigits_cons, forall_mem_cons]
    exact ⟨Nat.div_lt_of_lt_mul (by rwa [mul_comm] at windowLt),
      ih (next_window_lt pos digits.1) digits.2⟩

end Exactness

/-! ## Trial digits -/

section Trial

variable {b n V window : Nat}

/-- The estimate is never too small. -/
theorem le_trialDigit (basePositive : 0 < b) (leading : b ^ (n - 2) <= V)
    (windowLt : window < b * V) : window / V <= trialDigit b n V window := by
  have weight : 0 < b ^ (n - 2) := Nat.pow_pos basePositive
  have digitLt : window / V < b := Nat.div_lt_of_lt_mul (by rwa [mul_comm] at windowLt)
  have topPositive : 0 < V / b ^ (n - 2) := div_pos leading weight
  refine le_min (by omega) ?_
  rw [Nat.le_div_iff_mul_le topPositive, Nat.le_div_iff_mul_le weight]
  calc window / V * (V / b ^ (n - 2)) * b ^ (n - 2)
      = window / V * (V / b ^ (n - 2) * b ^ (n - 2)) := by ring
    _ <= window / V * V := Nat.mul_le_mul_left _ (div_mul_le_self V _)
    _ <= window := div_mul_le_self window V

/-- Subtracting the estimated multiple of `V` leaves at least `-V`. -/
theorem trialDigit_mul_le (basePositive : 0 < b) (normalised : b ^ (n - 1) <= V) :
    trialDigit b n V window * V <= window + V := by
  have weight : 0 < b ^ (n - 2) := Nat.pow_pos basePositive
  set top := V / b ^ (n - 2) with topDef
  set low := V % b ^ (n - 2) with lowDef
  have split : V = b ^ (n - 2) * top + low := (div_add_mod V _).symm
  have lowLt : low < b ^ (n - 2) := mod_lt V weight
  have estimateLt : trialDigit b n V window <= b - 1 := min_le_left _ _
  have estimateTop : trialDigit b n V window * top <= window / b ^ (n - 2) :=
    (mul_le_mul_right _ (min_le_right _ _)).trans (div_mul_le_self _ _)
  have lowPart : trialDigit b n V window * low <= V := by
    by_cases short : n <= 1
    · have weightOne : b ^ (n - 2) = 1 := by
        rw [show n - 2 = 0 by omega, pow_zero]
      rw [weightOne] at lowLt
      rw [lt_one_iff.mp lowLt, mul_zero]
      exact zero_le V
    · calc trialDigit b n V window * low <= b * b ^ (n - 2) :=
            Nat.mul_le_mul (estimateLt.trans (Nat.sub_le b 1)) lowLt.le
        _ = b ^ (n - 1) := by
            rw [<- pow_succ']
            congr 1
            omega
        _ <= V := normalised
  calc trialDigit b n V window * V
      = trialDigit b n V window * (b ^ (n - 2) * top + low) := by rw [<- split]
    _ = b ^ (n - 2) * (trialDigit b n V window * top) + trialDigit b n V window * low := by ring
    _ <= b ^ (n - 2) * (window / b ^ (n - 2)) + V :=
        Nat.add_le_add (Nat.mul_le_mul_left _ estimateTop) lowPart
    _ <= window + V := Nat.add_le_add_right (Nat.mul_div_le _ _) V

/-- The estimate is at most one too large. -/
theorem trialDigit_le (basePositive : 0 < b) (normalised : b ^ (n - 1) <= V) :
    trialDigit b n V window <= window / V + 1 := by
  have pos : 0 < V := (Nat.pow_pos basePositive).trans_le normalised
  have bound : trialDigit b n V window * V <=
      window + V := trialDigit_mul_le basePositive normalised
  calc trialDigit b n V window <= (window + V) / V := (Nat.le_div_iff_mul_le pos).mpr bound
    _ = window / V + 1 := add_div_right window pos

end Trial

/-! ## Correcting an estimate by the top digit -/

section Estimate

variable {b u2 v0 v1 : Nat}

private theorem mul_divisor_le_iff {dividend k s : Nat} (split : dividend = v0 * k + s) :
    k * (v0 * b + v1) <= dividend * b + u2 ↔ k * v1 <= b * s + u2 := by
  have left : k * (v0 * b + v1) = v0 * k * b + k * v1 := by ring
  have right : dividend * b + u2 = v0 * k * b + (b * s + u2) := by rw [split]; ring
  omega

private theorem estimate_le_top {dividend : Nat} (u2Lt : u2 < b) (pos : 0 < v0) :
    (dividend * b + u2) / (v0 * b + v1) <= dividend / v0 := by
  have basePositive : 0 < b := zero_lt_of_lt u2Lt
  rw [Nat.le_div_iff_mul_le pos]
  refine Nat.le_of_lt_succ (Nat.lt_of_mul_lt_mul_right (a := b) ?_)
  calc (dividend * b + u2) / (v0 * b + v1) * v0 * b
      = (dividend * b + u2) / (v0 * b + v1) * (v0 * b) := mul_assoc _ _ _
    _ <= (dividend * b + u2) / (v0 * b + v1) * (v0 * b + v1) :=
        Nat.mul_le_mul_left _ (Nat.le_add_right _ _)
    _ <= dividend * b + u2 := div_mul_le_self _ _
    _ < (dividend + 1) * b := by rw [succ_mul]; omega

private theorem dividend_le {dividend : Nat}
    (window : dividend * b + u2 < b * (v0 * b + v1 + 1)) : dividend <= v0 * b + v1 := by
  refine Nat.le_of_lt_succ (Nat.lt_of_mul_lt_mul_right (a := b) ?_)
  calc dividend * b <= dividend * b + u2 := Nat.le_add_right _ _
    _ < b * (v0 * b + v1 + 1) := window
    _ = (v0 * b + v1).succ * b := mul_comm _ _

/-- The quotient by the top digit alone is at most one larger than the base. -/
theorem top_estimate_le {dividend : Nat} (v1Lt : v1 < b) (normalised : b <= 2 * v0)
    (window : dividend * b + u2 < b * (v0 * b + v1 + 1)) : dividend / v0 <= b + 1 := by
  refine Nat.le_of_lt_succ (Nat.div_lt_of_lt_mul ?_)
  calc dividend <= v0 * b + v1 := dividend_le window
    _ < v0 * b + 2 * v0 := by omega
    _ = v0 * (b + 1).succ := by rw [Nat.succ_eq_add_one]; ring

/-- The estimate from three digits by two is obtained from the quotient by the
top digit alone by testing twice whether it has to be decreased. -/
theorem corrected_estimate (u2Lt : u2 < b) (v1Lt : v1 < b) (normalised : b <= 2 * v0)
    {dividend qp rp : Nat} (split : dividend = v0 * qp + rp) (rpLt : rp < v0)
    (window : dividend * b + u2 < b * (v0 * b + v1 + 1)) :
    min (b - 1) ((dividend * b + u2) / (v0 * b + v1)) =
      if qp = b ∨ b * rp + u2 < qp * v1 then
        if rp + v0 < b ∧ (qp - 1 = b ∨ b * (rp + v0) + u2 < (qp - 1) * v1) then qp - 1 - 1
        else qp - 1
      else qp := by
  have basePositive : 0 < b := zero_lt_of_lt u2Lt
  have leading : b <= v0 * b := Nat.le_mul_of_pos_left b (by omega)
  have divisorPositive : 0 < v0 * b + v1 := by omega
  have dividendLe := dividend_le window
  have square : (b - 1) * v1 <= b * (2 * v0) := Nat.mul_le_mul (by omega) (by omega)
  have estimateLe : (dividend * b + u2) / (v0 * b + v1) <= dividend / v0 :=
    estimate_le_top u2Lt (by omega)
  have topEq : dividend / v0 = qp := by
    rw [split, mul_add_div (by omega), div_eq_of_lt rpLt, add_zero]
  have qpLe : qp <= b + 1 := by
    rw [<- topEq]
    exact top_estimate_le v1Lt normalised window
  have estimateLeBase : (dividend * b + u2) / (v0 * b + v1) <= b := by
    refine Nat.le_of_lt_succ (Nat.div_lt_of_lt_mul ?_)
    calc dividend * b + u2 < b * (v0 * b + v1) + b := by rw [<- Nat.mul_succ]; exact window
      _ <= b * (v0 * b + v1) + (v0 * b + v1) := by omega
      _ = (v0 * b + v1) * b.succ := by rw [Nat.succ_eq_add_one]; ring
  -- a candidate fits when its multiple of the divisor does
  have fits (k s : Nat) (splitAt : dividend = v0 * k + s) :
      k <= (dividend * b + u2) / (v0 * b + v1) ↔ k * v1 <= b * s + u2 := by
    rw [Nat.le_div_iff_mul_le divisorPositive]
    exact mul_divisor_le_iff splitAt
  rw [topEq] at estimateLe
  have fitsFirst := fits qp rp split
  generalize (dividend * b + u2) / (v0 * b + v1) = estimate at *
  by_cases first : qp = b ∨ b * rp + u2 < qp * v1
  · rw [if_pos first]
    have qpPositive : 1 <= qp := by
      rcases first with equal | exceeds
      · omega
      · exact Nat.pos_of_ne_zero (fun zero => by simp [zero] at exceeds)
    have splitSecond : dividend = v0 * (qp - 1) + (rp + v0) := by
      rw [split]
      obtain ⟨lower, rfl⟩ := Nat.exists_eq_add_of_le qpPositive
      rw [Nat.add_sub_cancel_left]
      ring
    have fitsSecond := fits (qp - 1) (rp + v0) splitSecond
    by_cases second : rp + v0 < b ∧ (qp - 1 = b ∨ b * (rp + v0) + u2 < (qp - 1) * v1)
    · rw [if_pos second]
      have lowerPositive : 1 <= qp - 1 := by
        rcases second.2 with equal | exceeds
        · omega
        · exact Nat.pos_of_ne_zero (fun zero => by simp [zero] at exceeds)
      have splitThird : dividend = v0 * (qp - 1 - 1) + (rp + v0 + v0) := by
        rw [splitSecond]
        obtain ⟨lower, lowerEq⟩ := Nat.exists_eq_add_of_le lowerPositive
        rw [lowerEq, Nat.add_sub_cancel_left]
        ring
      have fitsThird : qp - 1 - 1 <= estimate := by
        refine (fits _ _ splitThird).mpr ?_
        calc (qp - 1 - 1) * v1 <= (b - 1) * v1 := mul_le_mul_right _ (by omega)
          _ <= b * (2 * v0) := square
          _ <= b * (rp + v0 + v0) := Nat.mul_le_mul_left _ (by omega)
          _ <= b * (rp + v0 + v0) + u2 := Nat.le_add_right _ _
      rcases second.2 with equal | exceeds
      · omega
      · omega
    · rw [if_neg second]
      have lowerNe : qp - 1 ≠ b := by
        intro equal
        have wide : ¬ rp + v0 < b := fun below => second ⟨below, Or.inl equal⟩
        rw [equal] at splitSecond
        omega
      have fitsLower : qp - 1 <= estimate := by
        rw [fitsSecond]
        by_cases below : rp + v0 < b
        · have notOver := mt (fun exceeds => (⟨below, Or.inr exceeds⟩ : _ ∧ _)) second
          omega
        · calc (qp - 1) * v1 <= b * b := Nat.mul_le_mul (by omega) v1Lt.le
            _ <= b * (rp + v0) := Nat.mul_le_mul_left _ (by omega)
            _ <= b * (rp + v0) + u2 := Nat.le_add_right _ _
      rcases first with equal | exceeds <;> omega
  · rw [if_neg first]
    omega

end Estimate

end LongDivision
end LlvmProject
