import LlvmProject.APInt.KnuthDiv

namespace LlvmProject

open LongDivision Nat

/-!
# What Knuth's algorithm computes

Each pass of the loop is one window of long division.  A window whose trial
digit is right loses its multiple of the divisor.  A window whose trial digit
is too large is added back; this restores the window, but the digits above it,
through which the borrow passed, keep the value of all ones.  The next borrow
stops at the lowest of these digits, and is not remembered.

The loop therefore tolerates one add-back below the highest position, where no
digits lie above the window, and its quotient is wrong as soon as there are
two.  Both directions are `Outcome`.
-/

/-! ## One quotient digit -/

/-- A divisor whose top bit is set, and its value. -/
structure Normalised (v : List UInt32) : Prop where
  twoDigits : 2 <= v.length
  topBit : 2 ^ 31 <= (v.getD (v.length - 1) 0).toNat

section Step

variable {v u : List UInt32} {window above : Nat}

theorem Normalised.value_ge (normal : Normalised v) :
    2 ^ 31 * (2 ^ 32) ^ (v.length - 1) <= digitsValue v := by
  have topBit := normal.topBit
  rw [toNat_getD] at topBit
  rw [<- Nat.le_div_iff_mul_le (Nat.pow_pos (by decide))]
  exact topBit.trans (Nat.mod_le _ _)

theorem Normalised.leading (normal : Normalised v) :
    (2 ^ 32) ^ (v.length - 1) <= digitsValue v :=
  (Nat.le_mul_of_pos_left _ (by decide)).trans normal.value_ge

theorem Normalised.positive (normal : Normalised v) : 0 < digitsValue v :=
  (Nat.pow_pos (by decide)).trans_le normal.leading

private theorem twoDigits_eq {top : Nat} (small : top < 2 ^ 64) :
    top / 2 ^ 32 % 2 ^ 32 * 2 ^ 32 + top % 2 ^ 32 = top := by
  omega

private theorem threeDigits_eq {top above : Nat} (small : top < 2 ^ 96) :
    ((top + 2 ^ 96 * above) / 2 ^ 32 / 2 ^ 32 % 2 ^ 32 * 2 ^ 32 +
        (top + 2 ^ 96 * above) / 2 ^ 32 % 2 ^ 32) * 2 ^ 32 + (top + 2 ^ 96 * above) % 2 ^ 32 =
      top := by
  have second : (top + 2 ^ 96 * above) / 2 ^ 32 = top / 2 ^ 32 + 2 ^ 64 * above := by omega
  have third : (top / 2 ^ 32 + 2 ^ 64 * above) / 2 ^ 32 =
      top / 2 ^ 32 / 2 ^ 32 + 2 ^ 32 * above := by omega
  rw [second, third]
  omega

/-- The two highest digits of the divisor. -/
private theorem topDigits (normal : Normalised v) :
    (v.getD (v.length - 1) 0).toNat * 2 ^ 32 + (v.getD (v.length - 2) 0).toNat =
      digitsValue v / (2 ^ 32) ^ (v.length - 2) := by
  have twoDigits := normal.twoDigits
  have bound := digitsValue_lt v
  have small : digitsValue v / (2 ^ 32) ^ (v.length - 2) < 2 ^ 64 := by
    refine Nat.div_lt_of_lt_mul ?_
    calc digitsValue v < (2 ^ 32) ^ v.length := bound
      _ = (2 ^ 32) ^ (v.length - 2) * 2 ^ 64 := by
        rw [show (2 : Nat) ^ 64 = (2 ^ 32) ^ 2 by norm_num, <- pow_add]
        congr 1
        omega
  have weight : (2 ^ 32) ^ (v.length - 1) = (2 ^ 32) ^ (v.length - 2) * 2 ^ 32 := by
    rw [<- pow_succ]
    congr 1
    omega
  rw [toNat_getD, toNat_getD, weight, <- Nat.div_div_eq_div_mul]
  exact twoDigits_eq small

/-- The three digits that `D3` reads are the top of the window. -/
private theorem windowDigits (normal : Normalised v) (value : digitsValue u = window + (2 ^ 32) ^
    (v.length + 1) * above) (windowLt : window < 2 ^ 32 * digitsValue v) :
    ((u.getD v.length 0).toNat * 2 ^ 32 + (u.getD (v.length - 1) 0).toNat) * 2 ^ 32 +
        (u.getD (v.length - 2) 0).toNat =
      window / (2 ^ 32) ^ (v.length - 2) := by
  have twoDigits := normal.twoDigits
  have bound := digitsValue_lt v
  have low : (2 ^ 32) ^ (v.length - 1) = (2 ^ 32) ^ (v.length - 2) * 2 ^ 32 := by
    rw [<- pow_succ]
    congr 1
    omega
  have middle : (2 ^ 32) ^ v.length = (2 ^ 32) ^ (v.length - 2) * 2 ^ 32 * 2 ^ 32 := by
    rw [<- pow_succ, <- pow_succ]
    congr 1
    omega
  have high : (2 ^ 32) ^ (v.length + 1) = (2 ^ 32) ^ (v.length - 2) * 2 ^ 96 := by
    rw [show (2 : Nat) ^ 96 = (2 ^ 32) ^ 3 by norm_num, <- pow_add]
    congr 1
    omega
  have small : window / (2 ^ 32) ^ (v.length - 2) < 2 ^ 96 := by
    refine Nat.div_lt_of_lt_mul ?_
    rw [<- high, pow_succ']
    exact windowLt.trans (Nat.mul_lt_mul_of_pos_left bound (by decide))
  have split : digitsValue u / (2 ^ 32) ^ (v.length - 2) =
      window / (2 ^ 32) ^ (v.length - 2) + 2 ^ 96 * above := by
    rw [value, high, mul_assoc, Nat.add_mul_div_left _ _ (Nat.pow_pos (by decide))]
  rw [toNat_getD, toNat_getD, toNat_getD, low, middle, <- Nat.div_div_eq_div_mul,
    <- Nat.div_div_eq_div_mul, split]
  exact threeDigits_eq small

theorem toNat_estimate (normal : Normalised v) (value : digitsValue u = window + (2 ^ 32) ^
    (v.length + 1) * above) (windowLt : window < 2 ^ 32 * digitsValue v) :
    (trialQuotient (u.getD v.length 0) (u.getD (v.length - 1) 0) (u.getD (v.length - 2) 0)
        (v.getD (v.length - 1) 0) (v.getD (v.length - 2) 0)).toNat =
      trialDigit (2 ^ 32) v.length (digitsValue v) window := by
  have weight : 0 < (2 ^ 32) ^ (v.length - 2) := Nat.pow_pos (by decide)
  rw [toNat_trialQuotient normal.topBit, windowDigits normal value windowLt, topDigits normal]
  · rfl
  · rw [windowDigits normal value windowLt, topDigits normal]
    refine Nat.div_lt_of_lt_mul ?_
    calc window < 2 ^ 32 * digitsValue v := windowLt
      _ <= 2 ^ 32 * ((2 ^ 32) ^ (v.length - 2) * (digitsValue v / (2 ^ 32) ^ (v.length - 2) + 1)) :=
        Nat.mul_le_mul_left _ (Nat.lt_mul_div_succ _ weight).le
      _ = (2 ^ 32) ^ (v.length - 2) * (2 ^ 32 * (digitsValue v / (2 ^ 32) ^ (v.length - 2) + 1)) :=
        mul_left_comm _ _ _

private theorem multiplySubtract_exact {qp : UInt64} (qpLt : qp.toNat < 2 ^ 32)
    (room : v.length < u.length) (enough : qp.toNat * digitsValue v <= digitsValue u) :
    (multiplySubtract qp v u).2 = false ∧
      digitsValue (multiplySubtract qp v u).1 = digitsValue u - qp.toNat * digitsValue v := by
  obtain ⟨borrows, difference, flag⟩ := digitsValue_multiplySubtract qpLt v u room
  have bound := digitsValue_lt (multiplySubtract qp v u).1
  rw [length_multiplySubtract] at bound
  have none : borrows = 0 := by
    by_contra some
    have weight := Nat.le_mul_of_pos_left ((2 ^ 32) ^ u.length) (pos_of_ne_zero some)
    omega
  refine ⟨Bool.eq_false_iff.mpr (fun neg => flag.mp neg none), ?_⟩
  rw [none, zero_mul, add_zero] at difference
  omega

/-- `D4` on digits that are too small by no more than their weight. -/
private theorem multiplySubtract_negative {qp : UInt64} (qpLt : qp.toNat < 2 ^ 32)
    (room : v.length < u.length) (short : digitsValue u < qp.toNat * digitsValue v)
    (near : qp.toNat * digitsValue v <= digitsValue u + (2 ^ 32) ^ u.length) :
    (multiplySubtract qp v u).2 = true ∧
      digitsValue (multiplySubtract qp v u).1 + qp.toNat * digitsValue v =
        digitsValue u + (2 ^ 32) ^ u.length := by
  obtain ⟨borrows, difference, flag⟩ := digitsValue_multiplySubtract qpLt v u room
  have bound := digitsValue_lt (multiplySubtract qp v u).1
  rw [length_multiplySubtract] at bound
  have some : borrows ≠ 0 := by
    intro none
    rw [none, zero_mul, add_zero] at difference
    omega
  have one : borrows = 1 := by
    by_contra several
    have weight : 2 * (2 ^ 32) ^ u.length <= borrows * (2 ^ 32) ^ u.length :=
      mul_le_mul_right _ (by omega)
    omega
  rw [one, one_mul] at difference
  exact ⟨flag.mpr some, difference⟩

private theorem trialDigit_lt (n V window : Nat) : trialDigit (2 ^ 32) n V window < 2 ^ 32 :=
  (min_le_left _ _).trans_lt (by decide)

/-- A window whose estimate is right loses its multiple of the divisor. -/
theorem knuthStep_exact (normal : Normalised v) (room : v.length < u.length) (value : digitsValue u
    = window + (2 ^ 32) ^ (v.length + 1) * above) (windowLt : window < 2 ^ 32 * digitsValue v)
    (right : ¬ Excessive (2 ^ 32) v.length (digitsValue v) window) :
    (knuthStep v u).2.toNat = window / digitsValue v ∧
      digitsValue (knuthStep v u).1 =
        window % digitsValue v + (2 ^ 32) ^ (v.length + 1) * above := by
  have estimate := toNat_estimate normal value windowLt
  have leading : (2 ^ 32) ^ (v.length - 2) <= digitsValue v :=
    (Nat.pow_le_pow_right (by decide) (by omega)).trans normal.leading
  have digit : trialDigit (2 ^ 32) v.length (digitsValue v) window = window / digitsValue v :=
    le_antisymm (Nat.le_of_not_lt right) (le_trialDigit (by decide) leading windowLt)
  have estimateLt := trialDigit_lt v.length (digitsValue v) window
  have prod : window / digitsValue v * digitsValue v <= window := div_mul_le_self _ _
  have split := div_add_mod' window (digitsValue v)
  rw [<- estimate] at estimateLt
  rw [digit] at estimate
  obtain ⟨positive, difference⟩ := multiplySubtract_exact estimateLt room (by
    rw [estimate, value]
    omega)
  simp only [knuthStep, positive, Bool.false_eq_true, if_false]
  refine ⟨by rw [toNat_toUInt32 estimateLt, estimate], ?_⟩
  rw [difference, value, estimate]
  omega

/-- The digits above a window that has wrapped around. -/
private theorem div_of_wrapped {wrapped divisor rem weight higher : Nat}
    (higherPositive : 1 <= higher) (remainderLt : rem < divisor)
    (divisorLt : divisor < weight) (restored : wrapped + divisor = rem + weight * higher) :
    wrapped / weight = higher - 1 := by
  obtain ⟨lower, rfl⟩ := Nat.exists_eq_add_of_le' higherPositive
  rw [mul_succ] at restored
  have split : wrapped = weight * lower + (weight + rem - divisor) := by omega
  rw [split, mul_add_div (by omega), div_eq_of_lt (by omega)]
  rfl

/-- A window whose estimate is too large is added back.  The digits above it,
which were zero, are all ones afterwards. -/
theorem knuthStep_addBack (normal : Normalised v) (count : Nat) (length : u.length = v.length + 1 +
    count) (value : digitsValue u = window) (windowLt : window < 2 ^ 32 * digitsValue v) (excessive
    : Excessive (2 ^ 32) v.length (digitsValue v) window) :
    (knuthStep v u).2.toNat = window / digitsValue v ∧
      digitsValue (knuthStep v u).1 =
        window % digitsValue v + (2 ^ 32) ^ (v.length + 1) * ((2 ^ 32) ^ count - 1) := by
  have clear : digitsValue u = window + (2 ^ 32) ^ (v.length + 1) * 0 := by simpa using value
  have estimate := toNat_estimate normal clear windowLt
  have estimateLt := trialDigit_lt v.length (digitsValue v) window
  have digit : trialDigit (2 ^ 32) v.length (digitsValue v) window =
      window / digitsValue v + 1 :=
    le_antisymm (trialDigit_le (by decide) normal.leading) excessive
  have split := div_add_mod' window (digitsValue v)
  have remainderLt := mod_lt window normal.positive
  have divisorLt : digitsValue v < (2 ^ 32) ^ (v.length + 1) :=
    (digitsValue_lt v).trans (Nat.pow_lt_pow_right (by decide) (lt_succ_self _))
  have weight : (2 ^ 32) ^ u.length = (2 ^ 32) ^ (v.length + 1) * (2 ^ 32) ^ count := by
    rw [length, pow_add]
  have countPositive : 1 <= (2 ^ 32) ^ count := Nat.pow_pos (by decide)
  have weightLe : (2 ^ 32) ^ (v.length + 1) <= (2 ^ 32) ^ u.length := by
    rw [weight]
    exact Nat.le_mul_of_pos_right _ countPositive
  rw [<- estimate] at estimateLt
  rw [digit] at estimate
  obtain ⟨neg, difference⟩ := multiplySubtract_negative estimateLt
    (by omega : v.length < u.length)
    (by rw [estimate, value, succ_mul]; omega)
    (by rw [estimate, value, succ_mul]; omega)
  rw [estimate, value, succ_mul] at difference
  simp only [knuthStep, neg, if_true]
  constructor
  · have one : (1 : UInt32) <= UInt64.toUInt32 (trialQuotient (u.getD v.length 0)
        (u.getD (v.length - 1) 0) (u.getD (v.length - 2) 0) (v.getD (v.length - 1) 0)
        (v.getD (v.length - 2) 0)) := by
      rw [UInt32.le_iff_toNat_le, toNat_toUInt32 estimateLt, estimate]
      exact le_add_left _ _
    rw [UInt32.toNat_sub_of_le _ _ one, toNat_toUInt32 estimateLt, estimate]
    exact Nat.add_sub_cancel _ _
  · rw [digitsValue_addBack _ _ _ (by rw [length_multiplySubtract]; omega), Bool.toNat_false,
      add_zero]
    have restored : digitsValue (multiplySubtract (trialQuotient (u.getD v.length 0)
        (u.getD (v.length - 1) 0) (u.getD (v.length - 2) 0) (v.getD (v.length - 1) 0)
        (v.getD (v.length - 2) 0)) v u).1 + digitsValue v =
          window % digitsValue v + (2 ^ 32) ^ (v.length + 1) * (2 ^ 32) ^ count := by omega
    rw [restored, Nat.add_mul_mod_self_left, Nat.mod_eq_of_lt (remainderLt.trans divisorLt),
      div_of_wrapped countPositive remainderLt divisorLt restored]

/-- A window whose estimate is too large keeps its digit when a digit above it
stops the borrow. -/
theorem knuthStep_missed (normal : Normalised v) (room : v.length < u.length) (value : digitsValue u
    = window + (2 ^ 32) ^ (v.length + 1) * above) (windowLt : window < 2 ^ 32 * digitsValue v)
    (dirty : above ≠ 0) (excessive : Excessive (2 ^ 32) v.length (digitsValue v) window) :
    (knuthStep v u).2.toNat = window / digitsValue v + 1 := by
  have estimate := toNat_estimate normal value windowLt
  have estimateLt := trialDigit_lt v.length (digitsValue v) window
  have digit : trialDigit (2 ^ 32) v.length (digitsValue v) window =
      window / digitsValue v + 1 :=
    le_antisymm (trialDigit_le (by decide) normal.leading) excessive
  have weight := Nat.le_mul_of_pos_right ((2 ^ 32) ^ (v.length + 1)) (pos_of_ne_zero dirty)
  have prod : trialDigit (2 ^ 32) v.length (digitsValue v) window * digitsValue v <=
      (2 ^ 32) ^ (v.length + 1) := by
    rw [pow_succ' (2 ^ 32) v.length]
    exact Nat.mul_le_mul estimateLt.le (digitsValue_lt v).le
  rw [<- estimate] at estimateLt prod
  rw [digit] at estimate
  obtain ⟨positive, _⟩ := multiplySubtract_exact estimateLt room (by rw [value]; omega)
  simp only [knuthStep, positive, Bool.false_eq_true, if_false]
  rw [toNat_toUInt32 estimateLt, estimate]

end Step

/-! ## All quotient digits -/

/-- Number of windows whose estimate is too large. -/
def excesses (n V : Nat) (windows : List Nat) : Nat :=
  windows.countP (fun window => Excessive (2 ^ 32) n V window)

/-- What the loop returns when it may add back at no more than `allowed`
positions: the digits of long division exactly if it does not have to add back
more often, and then its remainder as well. -/
structure Outcome (v : List UInt32) (windows : List Nat) (rem allowed : Nat)
    (result : List UInt32 × List UInt32) : Prop where
  digits : result.1.map UInt32.toNat = windows.map (· / digitsValue v) ↔
    excesses v.length (digitsValue v) windows <= allowed
  rest : excesses v.length (digitsValue v) windows <= allowed ->
    digitsValue (result.2.take v.length) = rem

section Loop

variable {v u : List UInt32} {window above : Nat}

@[simp] theorem length_knuthStep (v u : List UInt32) : (knuthStep v u).1.length = u.length := by
  simp only [knuthStep]
  split <;> simp

@[simp] theorem length_knuthLoop (v u below : List UInt32) :
    (knuthLoop v u below).1.length = below.length + 1 := by
  induction below generalizing u with
  | nil => rfl
  | cons digit below ih => simp [knuthLoop, ih]

theorem length_knuthLoop_snd (v u below : List UInt32) :
    (knuthLoop v u below).2.length = u.length + below.length := by
  induction below generalizing u with
  | nil => simp [knuthLoop]
  | cons digit below ih =>
    rw [knuthLoop, ih, List.length_cons, length_knuthStep, List.length_cons]
    omega

theorem excesses_cons (n V : Nat) (rest : List Nat) :
    excesses n V (window :: rest) =
      excesses n V rest + if Excessive (2 ^ 32) n V window then 1 else 0 := by
  simp [excesses, List.countP_cons]

private theorem next_value {digit : UInt32} {rest : List UInt32} {rem : Nat}
    (value : digitsValue rest = rem + (2 ^ 32) ^ (v.length + 1) * above) :
    digitsValue (digit :: rest) = (rem * 2 ^ 32 + digit.toNat) +
      (2 ^ 32) ^ (v.length + 1) * (2 ^ 32 * above) := by
  rw [digitsValue_cons, value]
  ring

private theorem remainder_digits (normal : Normalised v) {rest : List UInt32}
    (value : digitsValue rest = window % digitsValue v + (2 ^ 32) ^ (v.length + 1) * above) :
    digitsValue (rest.take v.length) = window % digitsValue v := by
  have remainderLt := (mod_lt window normal.positive).trans (digitsValue_lt v)
  rw [digitsValue_take, value, pow_succ (2 ^ 32) v.length, mul_assoc,
    Nat.add_mul_mod_self_left, Nat.mod_eq_of_lt remainderLt]

private theorem Outcome.last (normal : Normalised v)
    {allowed : Nat} (digit : (knuthStep v u).2.toNat = window / digitsValue v)
    (value : digitsValue (knuthStep v u).1 = window % digitsValue v + (2 ^ 32) ^ (v.length + 1)
    * above) (allowedHere : Excessive (2 ^ 32) v.length (digitsValue v) window -> 1 <= allowed) :
    Outcome v [window] (window % digitsValue v) allowed (knuthLoop v u []) := by
  have within : excesses v.length (digitsValue v) [window] <= allowed := by
    rw [excesses_cons]
    split
    next excessive => exact allowedHere excessive
    next => exact zero_le _
  refine ⟨iff_of_true ?_ within, fun _ => remainder_digits normal value⟩
  simp [knuthLoop, digit]

/-- A right digit before others. -/
private theorem Outcome.next {digit : UInt32} {below : List UInt32} {rest : List Nat}
    {rem allowed allowedBelow : Nat} (head : (knuthStep v u).2.toNat = window / digitsValue v)
    (outcome : Outcome v rest rem allowedBelow (knuthLoop v (digit :: (knuthStep v u).1) below))
    (budget : ∀ more, more <= allowedBelow ↔
    more + (if Excessive (2 ^ 32) v.length (digitsValue v) window then 1 else 0) <= allowed) :
    Outcome v (window :: rest) rem allowed (knuthLoop v u (digit :: below)) := by
  have here := budget (excesses v.length (digitsValue v) rest)
  rw [<- excesses_cons] at here
  refine ⟨?_, fun within => outcome.rest (here.mpr within)⟩
  rw [<- here, <- outcome.digits]
  simp [knuthLoop, head]

/-- A wrong digit, with no add-back left. -/
private theorem Outcome.wrong {below : List UInt32} {rest : List Nat} {rem : Nat}
    (excessive : Excessive (2 ^ 32) v.length (digitsValue v) window)
    (digit : (knuthStep v u).2.toNat = window / digitsValue v + 1) :
    Outcome v (window :: rest) rem 0 (knuthLoop v u below) := by
  have exceeds : ¬ excesses v.length (digitsValue v) (window :: rest) <= 0 := by
    rw [excesses_cons, if_pos excessive]
    omega
  refine ⟨iff_of_false ?_ exceeds, fun within => absurd within exceeds⟩
  cases below <;> simp [knuthLoop, digit]

/-- Below the highest position, one window may be added back when the digits
above are clear, and none otherwise. -/
theorem knuthLoop_below (normal : Normalised v) (below : List UInt32) (count : Nat) (length :
    u.length = v.length + 1 + (count + 1)) (value : digitsValue u = window + (2 ^ 32) ^ (v.length +
    1) * above) (windowLt : window < 2 ^ 32 * digitsValue v) :
    Outcome v (windows (2 ^ 32) (digitsValue v) window (below.map UInt32.toNat))
      (finalRemainder (2 ^ 32) (digitsValue v) window (below.map UInt32.toNat))
      (if above = 0 then 1 else 0) (knuthLoop v u below) := by
  induction below generalizing u window above count with
  | nil =>
    by_cases excessive : Excessive (2 ^ 32) v.length (digitsValue v) window
    · by_cases clear : above = 0
      · rw [clear, mul_zero, add_zero] at value
        obtain ⟨digit, rest⟩ := knuthStep_addBack normal _ length value windowLt excessive
        exact Outcome.last normal digit rest (fun _ => by rw [if_pos clear])
      · rw [if_neg clear]
        exact Outcome.wrong excessive
          (knuthStep_missed normal (by omega) value windowLt clear excessive)
    · obtain ⟨digit, rest⟩ := knuthStep_exact normal (by omega) value windowLt excessive
      exact Outcome.last normal digit rest (fun never => absurd never excessive)
  | cons digit below ih =>
    have nextLength (rest : List UInt32) (same : rest.length = u.length) :
        (digit :: rest).length = v.length + 1 + (count + 1 + 1) := by
      rw [List.length_cons, same, length]
      rfl
    have nextLt : window % digitsValue v * 2 ^ 32 + digit.toNat < 2 ^ 32 * digitsValue v :=
      next_window_lt normal.positive digit.toNat_lt
    by_cases excessive : Excessive (2 ^ 32) v.length (digitsValue v) window
    · by_cases clear : above = 0
      · rw [clear, mul_zero, add_zero] at value
        obtain ⟨head, rest⟩ := knuthStep_addBack normal _ length value windowLt excessive
        have outcome := ih _ (nextLength _ (length_knuthStep v u))
          (next_value rest) nextLt
        refine Outcome.next head outcome fun more => ?_
        have ones : 2 ^ 32 * ((2 ^ 32) ^ (count + 1) - 1) ≠ 0 := by
          have large : 1 < (2 ^ 32) ^ (count + 1) := one_lt_pow (by omega) (by decide)
          omega
        rw [if_pos clear, if_neg ones, if_pos excessive]
        omega
      · rw [if_neg clear]
        exact Outcome.wrong excessive
          (knuthStep_missed normal (by omega) value windowLt clear excessive)
    · obtain ⟨head, rest⟩ := knuthStep_exact normal (by omega) value windowLt excessive
      have outcome := ih _ (nextLength _ (length_knuthStep v u))
        (next_value rest) nextLt
      refine Outcome.next head outcome fun more => ?_
      rw [if_neg excessive, add_zero]
      simp

/-- At the highest position there is no digit above the window, so that adding
back leaves no trace.  Below it, one add-back is recovered from. -/
theorem knuthLoop_spec (normal : Normalised v) (below : List UInt32)
    (length : u.length = v.length + 1) (windowLt : digitsValue u < 2 ^ 32 * digitsValue v) :
    let below' := below.map UInt32.toNat
    Outcome v (windows (2 ^ 32) (digitsValue v) (digitsValue u) below')
      (finalRemainder (2 ^ 32) (digitsValue v) (digitsValue u) below')
      (1 + if Excessive (2 ^ 32) v.length (digitsValue v) (digitsValue u) then 1 else 0)
      (knuthLoop v u below) := by
  obtain ⟨head, rest⟩ : (knuthStep v u).2.toNat = digitsValue u / digitsValue v ∧
      digitsValue (knuthStep v u).1 =
        digitsValue u % digitsValue v + (2 ^ 32) ^ (v.length + 1) * 0 := by
    by_cases excessive : Excessive (2 ^ 32) v.length (digitsValue v) (digitsValue u)
    · exact knuthStep_addBack normal 0 length rfl windowLt excessive
    · exact knuthStep_exact normal (by omega) (by simp) windowLt excessive
  cases below with
  | nil => exact Outcome.last normal head rest (fun _ => le_add_right _ _)
  | cons digit below =>
    have outcome := knuthLoop_below normal below 0
      (by rw [List.length_cons, length_knuthStep, length] : _ = v.length + 1 + (0 + 1))
      (next_value rest) (next_window_lt normal.positive digit.toNat_lt)
    refine Outcome.next head outcome fun more => ?_
    simp

end Loop

end LlvmProject
