import LlvmProject.Library.SquareRoot

namespace LlvmProject

open BitVec hiding not_or
open Nat Option

namespace APInt

/-!
# Square roots

A value with more than 51 active bits takes the Babylonian method: from a power of two that is
at least the square root, Newton's steps go down to the integer square root.  The closest
integer is then found from the squares of it and of its successor.  The square of the successor
may not fit into the width, and the middle between the squares is rounded down, so that the
value just below the middle is rounded up.
-/

open SquareRoot

variable {W : Nat}

/-- Select a good starting value using binary logarithms. -/
def sqrtStart (n : BitVec W) (i : Nat) (testy : BitVec W) : BitVec W :=
  if i >= W ∨ n <= testy then 1#W <<< (i / 2) else sqrtStart n (i + 2) (testy <<< 2)
termination_by W - i

/-- The Babylonian method to arrive at the integer square root; `none` for a division by zero. -/
def sqrtLoop (n x_old : BitVec W) : Option (BitVec W) :=
  if x_old = 0#W then none
  else
    let x_new := (n / x_old + x_old) / 2#W
    if x_old <= x_new then some x_old else sqrtLoop n x_new
termination_by x_old.toNat
decreasing_by exact BitVec.lt_def.mp (BitVec.not_le.mp (by assumption))

/-- The square root of a value with more than 51 active bits; `none` for a failed assertion. -/
def sqrt (n : BitVec W) : Option (BitVec W) := do
  let x_old <- sqrtLoop n (sqrtStart n 4 16#W)
  -- Make sure we return the closest approximation
  let square := x_old * x_old
  let nextSquare := (x_old + 1#W) * (x_old + 1#W)
  if n < square then return x_old
  else if ¬n <= nextSquare then none
  else
    let midpoint := (nextSquare - square) / 2#W
    let offset := n - square
    if offset < midpoint then return x_old
    return x_old + 1#W

/-! ## The starting value -/

theorem toNat_one_shiftLeft {e : Nat} (small : e < W) : (1#W <<< e).toNat = 2 ^ e := by
  rw [toNat_shiftLeft, BitVec.toNat_ofNat, mod_eq_of_lt (Nat.one_lt_two_pow (by omega)),
    one_shiftLeft, mod_eq_of_lt (Nat.pow_lt_pow_right (by decide) small)]

variable {n : BitVec W}

/-- The starting value is a power of two whose square is at least the value. -/
theorem sqrtStart_spec (wide : 3 <= W) (i : Nat) (testy : BitVec W) (even : 2 ∣ i)
    (small : i <= W + 1) (power : i < W -> testy.toNat = 2 ^ i) :
    ∃ e, (sqrtStart n i testy).toNat = 2 ^ e ∧ 2 * e <= W + 1 ∧ n.toNat <= 2 ^ e * 2 ^ e := by
  fun_induction sqrtStart with
  | case1 i testy stopped =>
    have half : i / 2 + i / 2 = i := by omega
    have shift : i / 2 < W := by omega
    refine ⟨i / 2, toNat_one_shiftLeft shift, by omega, ?_⟩
    rw [<- pow_add, half]
    rcases stopped with wholeWidth | atMost
    · exact n.isLt.le.trans (Nat.pow_le_pow_right (by decide) wholeWidth)
    · by_cases within : i < W
      · rw [<- power within]
        exact le_def.mp atMost
      · exact n.isLt.le.trans (Nat.pow_le_pow_right (by decide) (Nat.le_of_not_lt within))
  | case2 i testy goesOn ih =>
    rw [not_or] at goesOn
    refine ih (by omega) (by omega) fun within => ?_
    rw [toNat_shiftLeft, power (by omega), Nat.shiftLeft_eq, <- pow_add,
      mod_eq_of_lt (Nat.pow_lt_pow_right (by decide) within)]

/-! ## Newton's steps -/

/-- The quotient by a number that is at least the square root. -/
theorem div_le_of_sqrt_le {n x : Nat} (pos : 0 < n.sqrt) (above : n.sqrt <= x) :
    n / x <= n.sqrt + 2 := by
  have bound := sqrt_le_add n
  refine (div_le_div_left above pos).trans ?_
  rw [div_le_iff_le_mul_add_pred pos]
  have expanded : n.sqrt * (n.sqrt + 2) = n.sqrt * n.sqrt + n.sqrt + n.sqrt := by ring
  omega

theorem sqrtLoop_spec {bound : Nat} (pos : 0 < n.toNat.sqrt) (room : 2 * bound + 2 < 2 ^ W)
    (x_old : BitVec W) (above : n.toNat.sqrt <= x_old.toNat) (below : x_old.toNat <= bound) :
    ∃ result, sqrtLoop n x_old = some result ∧ result.toNat = n.toNat.sqrt := by
  have two : (2#W).toNat = 2 := mod_eq_of_lt (by omega)
  fun_induction sqrtLoop with
  | case1 =>
    rw [BitVec.toNat_ofNat, zero_mod] at above
    omega
  | case2 x_old nonzero x_new stopped =>
    have quot := div_le_of_sqrt_le pos above
    have step : x_new.toNat = newton n.toNat x_old.toNat := by
      rw [toNat_udiv, toNat_add, toNat_udiv, two, mod_eq_of_lt (by omega)]
      rfl
    refine ⟨x_old, rfl, le_antisymm (Nat.le_of_not_lt fun more => ?_) above⟩
    have lower := newton_lt more
    rw [<- step] at lower
    exact absurd (le_def.mp stopped) (Nat.not_le_of_lt lower)
  | case3 x_old nonzero x_new goesOn ih =>
    have quot := div_le_of_sqrt_le pos above
    have step : x_new.toNat = newton n.toNat x_old.toNat := by
      rw [toNat_udiv, toNat_add, toNat_udiv, two, mod_eq_of_lt (by omega)]
      rfl
    have lower := BitVec.lt_def.mp (BitVec.not_le.mp goesOn)
    refine ih ?_ (lower.le.trans below)
    rw [step]
    exact sqrt_le_newton (pos.trans_le above)

/-- Both loops end, with the integer square root. -/
theorem sqrtLoop_sqrtStart (wide : 8 <= W) (pos : 0 < n.toNat) :
    ∃ result, sqrtLoop n (sqrtStart n 4 16#W) = some result ∧ result.toNat = n.toNat.sqrt := by
  have sixteen : (16#W).toNat = 2 ^ 4 :=
    mod_eq_of_lt (Nat.pow_lt_pow_right (show 1 < 2 by decide) (show 4 < W by omega))
  rcases sqrtStart_spec (n := n) (by omega) 4 16#W (by decide) (by omega) (fun _ => sixteen) with
    ⟨e, start, small, square⟩
  have room : 2 * 2 ^ e + 2 < 2 ^ W := by
    have far : 2 ^ (e + 2) <= 2 ^ (W - 1) := Nat.pow_le_pow_right (by decide) (by omega)
    have half : 2 ^ W = 2 * 2 ^ (W - 1) := by
      rw [<- Nat.pow_succ', succ_eq_add_one, Nat.sub_add_cancel (by omega)]
    have four : 2 ^ (e + 2) = 4 * 2 ^ e := by rw [Nat.pow_add, Nat.mul_comm]
    have one := Nat.two_pow_pos e
    omega
  refine sqrtLoop_spec (sqrt_pos.mpr pos) room _ ?_ start.le
  rw [start]
  exact (sqrt_le_sqrt square).trans (sqrt_eq _).le

/-! ## Rounding -/

/-- What is computed, if the square of the successor of the integer square root fits. -/
theorem sqrt_of_fits (wide : 8 <= W) (pos : 0 < n.toNat) (fits : (n.toNat.sqrt + 1) ^ 2 < 2 ^ W) :
    ∃ result, sqrt n = some result ∧ result.toNat =
      if n.toNat < n.toNat.sqrt ^ 2 + n.toNat.sqrt then n.toNat.sqrt else n.toNat.sqrt + 1 := by
  rcases sqrtLoop_sqrtStart wide pos with ⟨x_old, looped, root⟩
  have small := sqrt_le' n.toNat
  have large := lt_succ_sqrt' n.toNat
  have expanded : (n.toNat.sqrt + 1) ^ 2 = n.toNat.sqrt ^ 2 + 2 * n.toNat.sqrt + 1 := by ring
  have one : (1#W).toNat = 1 := mod_eq_of_lt (Nat.one_lt_two_pow (by omega))
  have two : (2#W).toNat = 2 :=
    mod_eq_of_lt (Nat.pow_lt_pow_right (show 1 < 2 by decide) (show 1 < W by omega))
  have succ : (x_old + 1#W).toNat = n.toNat.sqrt + 1 := by
    rw [toNat_add, root, one, mod_eq_of_lt]
    exact lt_of_le_of_lt (Nat.le_self_pow (by decide) _) fits
  have square : (x_old * x_old).toNat = n.toNat.sqrt ^ 2 := by
    rw [toNat_mul, root, <- pow_two, mod_eq_of_lt (small.trans_lt n.isLt)]
  have nextSquare : ((x_old + 1#W) * (x_old + 1#W)).toNat = (n.toNat.sqrt + 1) ^ 2 := by
    rw [toNat_mul, succ, <- pow_two, mod_eq_of_lt fits]
  have midpoint : (((x_old + 1#W) * (x_old + 1#W) - x_old * x_old) / 2#W).toNat = n.toNat.sqrt := by
    have ordered : x_old * x_old <= (x_old + 1#W) * (x_old + 1#W) := by
      rw [le_def, square, nextSquare]
      omega
    rw [toNat_udiv, toNat_sub_of_le ordered, nextSquare, square, two, expanded]
    omega
  have offset : (n - x_old * x_old).toNat = n.toNat - n.toNat.sqrt ^ 2 := by
    have ordered : x_old * x_old <= n := by
      rw [le_def, square]
      exact small
    rw [toNat_sub_of_le ordered, square]
  have notBelow : ¬n < x_old * x_old := by
    rw [lt_def, square]
    exact Nat.not_lt_of_le small
  have asserted : n <= (x_old + 1#W) * (x_old + 1#W) := by
    rw [le_def, nextSquare]
    exact large.le
  have rounds : n - x_old * x_old < ((x_old + 1#W) * (x_old + 1#W) - x_old * x_old) / 2#W ↔
      n.toNat < n.toNat.sqrt ^ 2 + n.toNat.sqrt := by
    rw [lt_def, midpoint, offset]
    omega
  unfold sqrt
  simp only [looped, bind_eq_bind, bind_some, if_neg notBelow,
    if_neg (not_not_intro asserted), rounds]
  by_cases down : n.toNat < n.toNat.sqrt ^ 2 + n.toNat.sqrt
  · exact ⟨x_old, by rw [if_pos down]; rfl, by rw [if_pos down, root]⟩
  · exact ⟨x_old + 1#W, by rw [if_neg down]; rfl, by rw [if_neg down, succ]⟩

/-- The assertion fails if the square of the successor does not fit. -/
theorem sqrt_of_not_fits (wide : 8 <= W) (large : 16 <= n.toNat)
    (overflows : 2 ^ W <= (n.toNat.sqrt + 1) ^ 2) : sqrt n = none := by
  rcases sqrtLoop_sqrtStart wide (show 0 < n.toNat by omega) with ⟨x_old, looped, root⟩
  have small := sqrt_le' n.toNat
  have four : 4 <= n.toNat.sqrt := le_sqrt'.mpr large
  have fourfold : 4 * n.toNat.sqrt <= n.toNat.sqrt ^ 2 := by
    rw [pow_two]
    exact mul_le_mul_right _ four
  have expanded : (n.toNat.sqrt + 1) ^ 2 = n.toNat.sqrt ^ 2 + 2 * n.toNat.sqrt + 1 := by ring
  have bound := n.isLt
  have one : (1#W).toNat = 1 := mod_eq_of_lt (Nat.one_lt_two_pow (by omega))
  have succ : (x_old + 1#W).toNat = n.toNat.sqrt + 1 := by
    rw [toNat_add, root, one, mod_eq_of_lt]
    omega
  have square : (x_old * x_old).toNat = n.toNat.sqrt ^ 2 := by
    rw [toNat_mul, root, <- pow_two, mod_eq_of_lt (small.trans_lt n.isLt)]
  have nextSquare : ((x_old + 1#W) * (x_old + 1#W)).toNat = (n.toNat.sqrt + 1) ^ 2 - 2 ^ W := by
    rw [toNat_mul, succ, <- pow_two, mod_eq_sub_mod overflows, mod_eq_of_lt]
    omega
  have notBelow : ¬n < x_old * x_old := by
    rw [lt_def, square]
    exact Nat.not_lt_of_le small
  have fails : ¬n <= (x_old + 1#W) * (x_old + 1#W) := by
    rw [le_def, nextSquare]
    omega
  unfold sqrt
  simp only [looped, bind_eq_bind, bind_some, if_neg notBelow, if_pos fails]

end APInt
end LlvmProject
