import LlvmProject.Library.DoWhile
import LlvmProject.Library.Reciprocal
import Mathlib.Data.BitVec
import Mathlib.Data.Nat.Prime.Basic

namespace LlvmProject

open BitVec Nat

namespace APInt

/-!
# The magic numbers of unsigned division

`magicu` searches for the least scale `2^p` at which the reciprocal of the
divisor is precise enough for all numerators.  It keeps quotient and remainder
of `2^p` by the critical value and of `2^p - 1` by the divisor in registers of
the width of the divisor, and doubles them round by round.  The quotients may
leave their registers; the indicator `a` records when the multiplier does.

The values of this module are bit-vectors, the numbers an `APInt` of that
width stands for.  The critical value of the source is a multiple of the
divisor, one more than the critical value of the theory.  That makes the test
of the loop stricter than needed, never too weak.
-/

open DoWhile Reciprocal

/-- Magic data for unsigned division by a constant. -/
structure mu (W : Nat) where
  m : BitVec W
  a : Bool
  s : Nat
  deriving DecidableEq, Repr

/-- The variables of the loop of `magicu`. -/
structure MagicuState (W : Nat) where
  p : Nat
  a : Bool
  q1 : BitVec W
  r1 : BitVec W
  q2 : BitVec W
  r2 : BitVec W
  delta : BitVec W

variable {W : Nat}

/-- The body of the loop. -/
def magicuBody (d nc : BitVec W) (state : MagicuState W) : MagicuState W :=
  let first :=
    if state.r1 >= nc - state.r1 then
      (state.q1 + state.q1 + 1, state.r1 + state.r1 - nc)
    else (state.q1 + state.q1, state.r1 + state.r1)
  let second :=
    if state.r2 + 1 >= d - state.r2 then
      (if state.q2 >= intMax W then true else state.a,
        state.q2 + state.q2 + 1, state.r2 + state.r2 + 1 - d)
    else
      (if state.q2 >= intMin W then true else state.a, state.q2 + state.q2, state.r2 + state.r2 + 1)
  { p := state.p + 1
    a := second.1
    q1 := first.1
    r1 := first.2
    q2 := second.2.1
    r2 := second.2.2
    delta := d - 1 - second.2.2 }

/-- The test after a round. -/
def magicuAgain (state : MagicuState W) : Bool :=
  decide (state.p < W * 2) &&
    (decide (state.q1 < state.delta) || (state.q1 == state.delta && state.r1 == 0))

/-- The largest multiple of the divisor among the numerators. -/
def magicuCritical (allOnes d : BitVec W) : BitVec W := allOnes - (allOnes - d) % d

/-- The variables before the loop; `delta` has no value yet. -/
def magicuStart (d nc : BitVec W) : MagicuState W :=
  let q1 := intMin W / nc
  let q2 := intMax W / d
  { p := W - 1
    a := false
    q1 := q1
    r1 := intMin W - q1 * nc
    q2 := q2
    r2 := intMax W - q2 * d
    delta := 0 }

/-- Calculate the magic numbers of an unsigned division by a constant, for
numerators whose upper `LeadingZeros` bits are zero. -/
def magicu (fuel : Nat) (d : BitVec W) (LeadingZeros : Nat) : Option (mu W) :=
  let nc := magicuCritical (BitVec.allOnes W >>> LeadingZeros) d
  (doWhile (magicuBody d nc) magicuAgain fuel (magicuStart d nc)).map fun state =>
    { m := state.q2 + 1, a := state.a, s := state.p - W }

/-! ## Registers -/

section Registers

variable {q r c : BitVec W} {x : Nat}

/-- The two registers hold quotient and remainder of a number, the quotient
up to the width. -/
structure Registers (c : BitVec W) (x : Nat) (q r : BitVec W) : Prop where
  quotient : q = BitVec.ofNat W (x / c.toNat)
  remainder : r.toNat = x % c.toNat

theorem Registers.start {x : BitVec W} :
    Registers c x.toNat (x / c) (x - x / c * c) where
  quotient := by rw [<- toNat_udiv, ofNat_toNat, setWidth_eq]
  remainder := by
    have lower : x.toNat / c.toNat * c.toNat <= x.toNat := div_mul_le_self _ _
    have prod : (x / c * c).toNat = x.toNat / c.toNat * c.toNat := by
      rw [toNat_mul, toNat_udiv, mod_eq_of_lt (lt_of_le_of_lt lower x.isLt)]
    rw [BitVec.toNat_sub_of_le (le_def.mpr (prod ▸ lower)), prod, mul_comm, <- mod_eq_sub_mul_div]

section

variable (registers : Registers c x q r) (pos : 0 < c.toNat)
include registers pos

theorem Registers.remainder_lt : r.toNat < c.toNat := registers.remainder ▸ mod_lt x pos

/-- The remainder passes the modulus at the next doubling. -/
theorem Registers.reaches_iff : r >= c - r ↔ c.toNat <= 2 * (x % c.toNat) := by
  have below := registers.remainder_lt pos
  rw [ge_iff_le, le_def, BitVec.toNat_sub_of_le (le_def.mpr below.le), registers.remainder] at *
  omega

theorem Registers.toNat_succ (wide : 0 < W) : (r + 1).toNat = x % c.toNat + 1 := by
  have below := registers.remainder_lt pos
  have one : (1 : BitVec W).toNat = 1 := by
    exact mod_eq_of_lt (Nat.one_lt_two_pow (by omega))
  rw [toNat_add_of_lt, one, registers.remainder]
  have fits := c.isLt
  omega

theorem Registers.reaches_succ_iff
    (wide : 0 < W) : r + 1 >= c - r ↔ c.toNat <= 2 * (x % c.toNat) + 1 := by
  have below := registers.remainder_lt pos
  rw [ge_iff_le, le_def, registers.toNat_succ pos wide,
    BitVec.toNat_sub_of_le (le_def.mpr below.le), registers.remainder]
  have remainder := registers.remainder
  omega

/-- Registers that hold the numbers before reduction hold the doubled
quotient and remainder after it. -/
theorem Registers.double (bit : Bool) :
    if c.toNat <= 2 * (x % c.toNat) + bit.toNat then
      Registers c (2 * x + bit.toNat) (q + q + 1) (r + r + BitVec.ofNat W bit.toNat - c)
    else Registers c (2 * x + bit.toNat) (q + q) (r + r + BitVec.ofNat W bit.toNat) := by
  have isBit : bit.toNat <= 1 := Bool.toNat_le bit
  have remainder := mod_lt x pos
  have fits := c.isLt
  rcases double_div_mod x c.toNat bit.toNat pos isBit with ⟨quotient, rest⟩
  have old : r = BitVec.ofNat W (x % c.toNat) := by
    rw [<- registers.remainder, ofNat_toNat, setWidth_eq]
  have doubled : r + r + BitVec.ofNat W bit.toNat =
      BitVec.ofNat W (2 * (x % c.toNat) + bit.toNat) := by
    rw [old, Nat.two_mul, ofNat_add, ofNat_add]
  by_cases full : c.toNat <= 2 * (x % c.toNat) + bit.toNat
  · rw [if_pos full] at quotient rest ⊢
    have reduced : r + r + BitVec.ofNat W bit.toNat - c =
        BitVec.ofNat W (2 * (x % c.toNat) + bit.toNat - c.toNat) := by
      rw [doubled, <- ofNat_sub_ofNat_of_le _ _ fits full, ofNat_toNat, setWidth_eq]
    constructor
    · rw [quotient, registers.quotient, Nat.two_mul, ofNat_add, ofNat_add]
      rfl
    · rw [rest, reduced, toNat_ofNat, mod_eq_of_lt (by omega)]
  · rw [if_neg full] at quotient rest ⊢
    constructor
    · rw [quotient, registers.quotient, Nat.two_mul, ofNat_add]
    · rw [rest, doubled, toNat_ofNat, mod_eq_of_lt (by omega)]

end

end Registers

/-! ## The loop -/

/-- The multiplier at the scale `2^p`: the quotient rounded up. -/
def magicuMultiplier (d p : Nat) : Nat := (2 ^ p - 1) / d + 1

/-- The excess of the multiplier, the value of `delta`. -/
def magicuExcess (d p : Nat) : Nat := d - 1 - (2 ^ p - 1) % d

theorem magicuMultiplier_mul {d : Nat} (pos : 0 < d) (p : Nat) :
    magicuMultiplier d p * d = 2 ^ p + magicuExcess d p := by
  have split := div_add_mod (2 ^ p - 1) d
  have remainder := mod_lt (2 ^ p - 1) pos
  have scale : 0 < 2 ^ p := Nat.two_pow_pos p
  rw [magicuMultiplier, magicuExcess, Nat.add_mul, Nat.one_mul, Nat.mul_comm]
  omega

theorem double_width (wide : 0 < W) : 2 ^ W = 2 * 2 ^ (W - 1) := by
  rw [<- pow_succ', succ_eq_add_one, Nat.sub_add_cancel wide]

theorem double_scale_pred (p : Nat) : 2 ^ (p + 1) - 1 = 2 * (2 ^ p - 1) + Bool.toNat true := by
  have scale : 0 < 2 ^ p := Nat.two_pow_pos p
  rw [pow_succ', Bool.toNat_true]
  omega

/-- The registers and the indicator describe the current scale. -/
structure MagicuExact (d nc : BitVec W) (state : MagicuState W) : Prop where
  first : Registers nc (2 ^ state.p) state.q1 state.r1
  second : Registers d (2 ^ state.p - 1) state.q2 state.r2
  indicator : state.a = true ↔ 2 ^ W <= magicuMultiplier d.toNat state.p

section Loop

variable {d nc : BitVec W} {state : MagicuState W}

theorem MagicuExact.body_first (exact : MagicuExact d nc state) (critical : 0 < nc.toNat) :
    Registers nc (2 ^ (state.p + 1)) (magicuBody d nc state).q1 (magicuBody d nc state).r1 := by
  have doubled := exact.first.double critical false
  have scale : 2 * 2 ^ state.p + Bool.toNat false = 2 ^ (state.p + 1) := by
    rw [pow_succ', Bool.toNat_false, add_zero]
  have reached := exact.first.reaches_iff critical
  have plain : state.r1 + state.r1 + BitVec.ofNat W (Bool.toNat false) = state.r1 + state.r1 :=
    BitVec.add_zero _
  rw [scale, plain, Bool.toNat_false, add_zero] at doubled
  by_cases full : nc.toNat <= 2 * (2 ^ state.p % nc.toNat)
  · rw [if_pos full] at doubled
    simp only [magicuBody, if_pos (reached.mpr full)]
    exact doubled
  · rw [if_neg full] at doubled
    simp only [magicuBody, if_neg (mt reached.mp full)]
    exact doubled

theorem MagicuExact.body_second (exact : MagicuExact d nc state) (pos : 0 < d.toNat)
    (wide : 0 < W) :
    Registers d (2 ^ (state.p + 1) - 1) (magicuBody d nc state).q2 (magicuBody d nc state).r2 := by
  have doubled := exact.second.double pos true
  have reached := exact.second.reaches_succ_iff pos wide
  rw [<- double_scale_pred, Bool.toNat_true] at doubled
  by_cases full : d.toNat <= 2 * ((2 ^ state.p - 1) % d.toNat) + 1
  · rw [if_pos full] at doubled
    simp only [magicuBody, if_pos (reached.mpr full)]
    exact doubled
  · rw [if_neg full] at doubled
    simp only [magicuBody, if_neg (mt reached.mp full)]
    exact doubled

/-- One assignment to the indicator: it compares the old quotient with the
limit from which on the new multiplier leaves its register. -/
private theorem indicator_step {a : Bool} {q limit : BitVec W} {before after : Nat} (indicator : a =
    true ↔ 2 ^ W <= before + 1) (register : q = BitVec.ofNat W before) (grows : before <= after)
    (crossing : before + 1 < 2 ^ W -> (limit.toNat <= before ↔ 2 ^ W <= after + 1)) :
    (if q >= limit then true else a) = true ↔ 2 ^ W <= after + 1 := by
  cases known : a with
  | true =>
    rw [ite_self]
    exact iff_of_true rfl (le_trans (indicator.mp known) (succ_le_succ grows))
  | false =>
    have small : before + 1 < 2 ^ W := by
      refine Nat.lt_of_not_le fun large => ?_
      rw [indicator.mpr large] at known
      cases known
    have value : q.toNat = before := by
      rw [register, toNat_ofNat, mod_eq_of_lt (by omega)]
    simp only [Bool.if_false_right, Bool.and_true, decide_eq_true_eq]
    rw [ge_iff_le, le_def, value]
    exact crossing small

section

variable (exact : MagicuExact d nc state)
include exact

/-- The indicator is set in the round in which the multiplier leaves its
register, and stays set. -/
theorem MagicuExact.body_indicator (pos : 0 < d.toNat) (wide : 0 < W) :
    (magicuBody d nc state).a = true ↔ 2 ^ W <= magicuMultiplier d.toNat (state.p + 1) := by
  have reached := exact.second.reaches_succ_iff pos wide
  have quotient := (double_div_mod (2 ^ state.p - 1) d.toNat 1 pos (le_refl 1)).1
  have double := double_width wide
  have half : 0 < 2 ^ (W - 1) := Nat.two_pow_pos _
  rw [magicuMultiplier, double_scale_pred, Bool.toNat_true, quotient]
  by_cases full : d.toNat <= 2 * ((2 ^ state.p - 1) % d.toNat) + 1
  · rw [if_pos full]
    simp only [magicuBody, if_pos (reached.mpr full)]
    refine indicator_step exact.indicator exact.second.quotient (by omega) fun small => ?_
    rw [toNat_intMax]
    omega
  · rw [if_neg full]
    simp only [magicuBody, if_neg (mt reached.mp full)]
    refine indicator_step exact.indicator exact.second.quotient (by omega) fun small => ?_
    rw [toNat_intMin_of_pos wide]
    omega

theorem MagicuExact.body (pos : 0 < d.toNat)
    (critical : 0 < nc.toNat) (wide : 0 < W) : MagicuExact d nc (magicuBody d nc state) where
  first := exact.body_first critical
  second := exact.body_second pos wide
  indicator := exact.body_indicator pos wide

theorem MagicuExact.body_delta (pos : 0 < d.toNat) (wide : 0 < W) :
    (magicuBody d nc state).delta.toNat = magicuExcess d.toNat (state.p + 1) := by
  have second := exact.body_second pos wide
  have below := second.remainder_lt pos
  have one : (1 : BitVec W).toNat = 1 := mod_eq_of_lt (Nat.one_lt_two_pow (by omega))
  have pred : (d - 1).toNat = d.toNat - 1 := by
    rw [BitVec.toNat_sub_of_le (le_def.mpr (one ▸ pos)), one]
  change (d - 1 - (magicuBody d nc state).r2).toNat = _
  rw [BitVec.toNat_sub_of_le (le_def.mpr (by omega)), pred, second.remainder]
  rfl

end

theorem magicuStart_exact (wide : 0 < W) :
    MagicuExact d nc (magicuStart d nc) where
  first := by
    change Registers nc (2 ^ (W - 1)) _ _
    rw [<- toNat_intMin_of_pos wide]
    exact Registers.start
  second := by
    change Registers d (2 ^ (W - 1) - 1) _ _
    rw [<- toNat_intMax]
    exact Registers.start
  indicator := by
    have quotient : (2 ^ (W - 1) - 1) / d.toNat <= 2 ^ (W - 1) - 1 := div_le_self _ _
    have double := double_width wide
    have half : 0 < 2 ^ (W - 1) := Nat.two_pow_pos _
    refine iff_of_false Bool.false_ne_true ?_
    change ¬ 2 ^ W <= (2 ^ (W - 1) - 1) / d.toNat + 1
    omega

/-- The invariant after a round.  Every scale before the current one was too
coarse, as far as the last one tells. -/
structure MagicuInvariant (d nc : BitVec W) (state : MagicuState W) : Prop
    extends MagicuExact d nc state where
  delta : state.delta.toNat = magicuExcess d.toNat state.p
  width_le : W <= state.p
  le_double : state.p <= W * 2
  unfinished : state.p = W ∨ 2 ^ (state.p - 1) <= nc.toNat * magicuExcess d.toNat (state.p - 1)

section

variable (inv : MagicuInvariant d nc state)
include inv

/-- While another round is possible, the first quotient has not left its
register. -/
theorem MagicuInvariant.quotient_lt
    (divisor : 2 <= d.toNat) (reaches : d.toNat <= nc.toNat) (below : state.p < W * 2) :
    2 ^ state.p / nc.toNat < 2 ^ W := by
  have wide : 0 < W := by omega
  have width := inv.width_le
  refine Nat.div_lt_of_lt_mul ?_
  by_cases half : 2 ^ (W - 1) < nc.toNat
  · calc 2 ^ state.p <= 2 ^ (W - 1 + W) := Nat.pow_le_pow_right (by decide) (by omega)
      _ = 2 ^ (W - 1) * 2 ^ W := pow_add ..
      _ < nc.toNat * 2 ^ W := mul_lt_mul_of_pos_right half (Nat.two_pow_pos W)
  · have double := double_width wide
    rcases inv.unfinished with first | coarse
    · rw [first]
      calc 2 ^ W < 2 * 2 ^ W := by have := Nat.two_pow_pos W; omega
        _ <= nc.toNat * 2 ^ W := mul_le_mul_right _ (by omega)
    · have excess : magicuExcess d.toNat (state.p - 1) <= d.toNat - 1 := sub_le _ _
      have pos : 0 < nc.toNat := by omega
      calc 2 ^ state.p = 2 * 2 ^ (state.p - 1) := by
            rw [<- pow_succ', succ_eq_add_one, Nat.sub_add_cancel (by omega)]
        _ <= 2 * (nc.toNat * magicuExcess d.toNat (state.p - 1)) := Nat.mul_le_mul_left 2 coarse
        _ = nc.toNat * (2 * magicuExcess d.toNat (state.p - 1)) := by ring
        _ < nc.toNat * 2 ^ W := mul_lt_mul_of_pos_left (by omega) pos

/-- The test asks whether the scale is still too coarse. -/
theorem MagicuInvariant.again_iff (divisor : 2 <= d.toNat) (reaches : d.toNat <= nc.toNat) :
    magicuAgain state = true ↔
      state.p < W * 2 ∧ 2 ^ state.p <= nc.toNat * magicuExcess d.toNat state.p := by
  have test : magicuAgain state = true ↔ state.p < W * 2 ∧
      (state.q1.toNat < state.delta.toNat ∨
        state.q1.toNat = state.delta.toNat ∧ state.r1.toNat = 0) := by
    simp only [magicuAgain, Bool.and_eq_true, Bool.or_eq_true, decide_eq_true_eq, beq_iff_eq,
      lt_def, <- toNat_inj]
    rfl
  rw [test]
  refine and_congr_right fun below => ?_
  have fits := inv.quotient_lt divisor reaches below
  rw [inv.first.quotient, toNat_ofNat, mod_eq_of_lt fits, inv.delta, inv.first.remainder]
  exact unfinished_iff (by omega)

/-- A further round keeps the invariant. -/
theorem MagicuInvariant.body (divisor : 2 <= d.toNat) (reaches : d.toNat <= nc.toNat)
    (again : magicuAgain state = true) : MagicuInvariant d nc (magicuBody d nc state) := by
  rcases (inv.again_iff divisor reaches).mp again with ⟨below, coarse⟩
  have wide : 0 < W := by omega
  exact {
    inv.toMagicuExact.body (by omega) (by omega) wide with
    delta := inv.toMagicuExact.body_delta (by omega) wide
    width_le := le_succ_of_le inv.width_le
    le_double := below
    unfinished := .inr coarse }

end

end Loop

/-! ## The critical value -/

theorem toNat_allOnes_lshr {L : Nat} (within : L <= W) :
    (BitVec.allOnes W >>> L).toNat + 1 = 2 ^ (W - L) := by
  have split : 2 ^ W = 2 ^ (W - L) * 2 ^ L := by rw [<- pow_add, Nat.sub_add_cancel within]
  have pos : 0 < 2 ^ (W - L) := Nat.two_pow_pos _
  have low : 0 < 2 ^ L := Nat.two_pow_pos _
  rw [toNat_ushiftRight, toNat_allOnes, shiftRight_eq_div_pow, split]
  have quotient : (2 ^ (W - L) * 2 ^ L - 1) / 2 ^ L = 2 ^ (W - L) - 1 := by
    have below : (2 ^ (W - L) - 1) * 2 ^ L + 2 ^ L = 2 ^ (W - L) * 2 ^ L := by
      rw [<- Nat.succ_mul, succ_eq_add_one, Nat.sub_add_cancel pos]
    refine Nat.div_eq_of_lt_le (by omega) ?_
    rw [Nat.sub_add_cancel pos]
    exact sub_lt (Nat.mul_pos pos low) one_pos
  rw [quotient, Nat.sub_add_cancel pos]

section Critical

variable {allOnes d : BitVec W}

theorem toNat_magicuCritical (reaches : d <= allOnes) :
    (magicuCritical allOnes d).toNat = allOnes.toNat - allOnes.toNat % d.toNat := by
  have difference := BitVec.toNat_sub_of_le reaches
  have remainder : ((allOnes - d) % d).toNat = allOnes.toNat % d.toNat := by
    rw [toNat_umod, difference, <- mod_eq_sub_mod reaches]
  rw [magicuCritical, BitVec.toNat_sub_of_le, remainder]
  rw [le_def, remainder]
  exact mod_le _ _

theorem le_magicuCritical (reaches : d <= allOnes) (pos : 0 < d.toNat) :
    d.toNat <= (magicuCritical allOnes d).toNat := by
  have remainder := mod_lt allOnes.toNat pos
  have atLeast : d.toNat <= allOnes.toNat := reaches
  have below : d.toNat ∣ (magicuCritical allOnes d).toNat := by
    rw [toNat_magicuCritical reaches]
    exact dvd_sub_mod _
  refine le_of_dvd ?_ below
  rw [toNat_magicuCritical reaches]
  omega

theorem magicuMultiplier_divides {L p n : Nat} (within : L <= W)
    (reaches : d <= BitVec.allOnes W >>> L) (pos : 0 < d.toNat) (notPower : ∀ k, d.toNat ≠ 2 ^ k)
    (precise : (magicuCritical (BitVec.allOnes W >>> L) d).toNat * magicuExcess d.toNat p < 2 ^ p)
    (numerator : n <= (BitVec.allOnes W >>> L).toNat) :
    magicuMultiplier d.toNat p * n / 2 ^ p = n / d.toNat := by
  have reached := le_magicuCritical reaches pos
  have critical := toNat_magicuCritical reaches
  have remainder := mod_lt (BitVec.allOnes W >>> L).toNat pos
  have bounded := mod_le (BitVec.allOnes W >>> L).toNat d.toNat
  have multiple : d.toNat ∣ (magicuCritical (BitVec.allOnes W >>> L) d).toNat := by
    rw [critical]
    exact dvd_sub_mod _
  have next : (BitVec.allOnes W >>> L).toNat % d.toNat + 1 ≠ d.toNat := by
    intro last
    have dividesPower : d.toNat ∣ 2 ^ (W - L) := by
      have following : 2 ^ (W - L) =
          (magicuCritical (BitVec.allOnes W >>> L) d).toNat + d.toNat := by
        rw [<- toNat_allOnes_lshr within]
        omega
      rw [following]
      exact Nat.dvd_add multiple (dvd_refl _)
    rcases (dvd_prime_pow prime_two).mp dividesPower with ⟨k, _, power⟩
    exact notPower k power
  generalize (magicuCritical (BitVec.allOnes W >>> L) d).toNat = nc at *
  refine mul_div_eq (magicuMultiplier_mul pos p) pos ?_
  refine small_of_critical (c := nc - 1) pos ?_ ?_ (by omega)
  · rwa [Nat.sub_add_cancel (by omega)]
  · calc magicuExcess d.toNat p * (nc - 1) <= magicuExcess d.toNat p * nc :=
          Nat.mul_le_mul_left _ (sub_le _ _)
      _ = nc * magicuExcess d.toNat p := mul_comm ..
      _ < 2 ^ p := precise

end Critical

/-! ## The result -/

/-- What the magic numbers stand for: a multiplier of at most one bit more
than the width, the indicator being that bit, and the shift after taking the
high half of the product. -/
structure mu.Divides (magics : mu W) (d : BitVec W) (numerators mult : Nat) : Prop where
  m : magics.m = BitVec.ofNat W mult
  a : magics.a = true ↔ 2 ^ W <= mult
  divides : ∀ n ≤ numerators, mult * n / 2 ^ (W + magics.s) = n / d.toNat
  scale_le : 2 ^ (W + magics.s) <= mult * d.toNat
  shift_le : magics.s <= W
  shift_pos : 2 ^ W <= mult -> 0 < magics.s

/-- Before the last doubling the scale was too coarse, which bounds the
multiplier. -/
theorem MagicuInvariant.multiplier_le {d nc : BitVec W} {state : MagicuState W}
    (inv : MagicuInvariant d nc state) (divisor : 2 <= d.toNat) (wide : 0 < W) :
    state.p = W ∧ magicuMultiplier d.toNat state.p <= 2 ^ (W - 1) ∨
      W < state.p ∧ magicuMultiplier d.toNat state.p <= 2 * nc.toNat := by
  have double := double_width wide
  by_cases first : state.p = W
  · refine .inl ⟨first, ?_⟩
    have quotient : (2 ^ W - 1) / d.toNat <= (2 ^ W - 1) / 2 := div_le_div_left divisor (by decide)
    rw [magicuMultiplier, first]
    have half : 0 < 2 ^ (W - 1) := Nat.two_pow_pos _
    omega
  · have width := inv.width_le
    refine .inr ⟨by omega, ?_⟩
    have coarse := inv.unfinished.resolve_left first
    have excess : magicuExcess d.toNat (state.p - 1) <= d.toNat := by
      rw [magicuExcess]
      omega
    have scale : 2 ^ state.p <= 2 * nc.toNat * d.toNat := by
      calc 2 ^ state.p = 2 * 2 ^ (state.p - 1) := by
            rw [<- pow_succ', succ_eq_add_one, Nat.sub_add_cancel (by omega)]
        _ <= 2 * (nc.toNat * magicuExcess d.toNat (state.p - 1)) := Nat.mul_le_mul_left 2 coarse
        _ <= 2 * (nc.toNat * d.toNat) := Nat.mul_le_mul_left 2 (Nat.mul_le_mul_left _ excess)
        _ = 2 * nc.toNat * d.toNat := (mul_assoc ..).symm
    have pos : 0 < 2 ^ state.p := Nat.two_pow_pos _
    exact Nat.div_lt_of_lt_mul (by rw [mul_comm d.toNat]; omega)

/-- At the end of the loop the scale is precise. -/
theorem MagicuInvariant.precise {d nc : BitVec W} {state : MagicuState W}
    (inv : MagicuInvariant d nc state) (divisor : 2 <= d.toNat)
    (reaches : d.toNat <= nc.toNat) (done : magicuAgain state = false) :
    nc.toNat * magicuExcess d.toNat state.p < 2 ^ state.p := by
  refine Nat.lt_of_not_le fun coarse => ?_
  have notAgain := mt (inv.again_iff divisor reaches).mpr (by rw [done]; decide)
  have last : state.p = W * 2 := by
    have bound := inv.le_double
    by_contra ne
    exact notAgain ⟨by omega, coarse⟩
  have excess : magicuExcess d.toNat state.p <= 2 ^ W := by
    have fits := d.isLt
    rw [magicuExcess]
    omega
  have prod : nc.toNat * magicuExcess d.toNat state.p < 2 ^ W * 2 ^ W :=
    lt_of_le_of_lt (Nat.mul_le_mul_left _ excess)
      (mul_lt_mul_of_pos_right nc.isLt (Nat.two_pow_pos W))
  have scale : 2 ^ state.p = 2 ^ W * 2 ^ W := by rw [last, Nat.mul_two, pow_add]
  rw [scale] at coarse
  omega

/-- The loop ends at a precise scale. -/
theorem magicu_loop {d nc : BitVec W} (divisor : 2 <= d.toNat) (reaches : d.toNat <= nc.toNat)
    (wide : 0 < W) {fuel : Nat} (enough : W < fuel) :
    ∃ final, doWhile (magicuBody d nc) magicuAgain fuel (magicuStart d nc) = some final ∧
      MagicuInvariant d nc final ∧
      nc.toNat * magicuExcess d.toNat final.p < 2 ^ final.p := by
  have start : MagicuExact d nc (magicuStart d nc) := magicuStart_exact wide
  have scale : (magicuStart d nc).p + 1 = W := Nat.sub_add_cancel wide
  have entered : MagicuInvariant d nc (magicuBody d nc (magicuStart d nc)) :=
    { start.body (by omega) (by omega) wide with
      delta := start.body_delta (by omega) wide
      width_le := le_of_eq scale.symm
      le_double := by
        change (magicuStart d nc).p + 1 <= W * 2
        omega
      unfinished := .inl scale }
  rcases doWhile_terminates (MagicuInvariant d nc) (fun state => W * 2 - state.p)
      (fun state inv again => ⟨inv.body divisor reaches again, by
        have bound := ((inv.again_iff divisor reaches).mp again).1
        simp only [magicuBody]
        omega⟩)
      entered (by
        change W * 2 - ((magicuStart d nc).p + 1) < fuel
        omega) with ⟨final, ran, inv, done⟩
  exact ⟨final, ran, inv, inv.precise divisor reaches done⟩

/-- The loop ends, and its magic numbers divide every numerator with the
given leading zeros.  With at least one leading zero the multiplier fits. -/
theorem magicu_spec {d : BitVec W} {LeadingZeros fuel : Nat} (within : LeadingZeros <= W)
    (reaches : d <= BitVec.allOnes W >>> LeadingZeros) (nonzero : d ≠ 0)
    (notPower : ∀ k, d.toNat ≠ 2 ^ k) (enough : W < fuel) :
    ∃ magics mult, magicu fuel d LeadingZeros = some magics ∧
      magics.Divides d (BitVec.allOnes W >>> LeadingZeros).toNat mult ∧
      mult < 2 ^ (W + 1) ∧ (0 < LeadingZeros -> mult < 2 ^ W) := by
  have pos : 0 < d.toNat := pos_of_ne_zero fun zero => nonzero (eq_of_toNat_eq zero)
  have divisor : 2 <= d.toNat := by
    have one := notPower 0
    omega
  have wide : 0 < W := by
    refine pos_of_ne_zero fun empty => ?_
    subst empty
    exact absurd d.isLt (by omega)
  have reached := le_magicuCritical reaches pos
  have critical := toNat_magicuCritical reaches
  have allOnes := toNat_allOnes_lshr within
  rcases magicu_loop divisor reached wide enough with ⟨final, ran, inv, precise⟩
  have width := inv.width_le
  have scale : W + (final.p - W) = final.p := Nat.add_sub_cancel' width
  have bounds := inv.multiplier_le divisor wide
  have double := double_width wide
  have half : 0 < 2 ^ (W - 1) := Nat.two_pow_pos _
  refine ⟨_, magicuMultiplier d.toNat final.p, by rw [magicu, ran]; rfl, {
    m := ?_
    a := inv.indicator
    divides := ?_
    scale_le := ?_
    shift_le := ?_
    shift_pos := ?_ }, ?_, ?_⟩
  · rw [magicuMultiplier, ofNat_add, <- inv.second.quotient]
    rfl
  · intro n numerator
    rw [scale]
    exact magicuMultiplier_divides within reaches pos notPower precise numerator
  · rw [scale, magicuMultiplier_mul pos]
    exact le_add_right _ _
  · exact sub_le_of_le_add (Nat.mul_two W ▸ inv.le_double)
  · intro large
    rcases bounds with ⟨first, small⟩ | ⟨later, _⟩
    · omega
    · exact Nat.sub_pos_of_lt later
  · rw [pow_succ]
    rcases bounds with ⟨_, small⟩ | ⟨_, small⟩ <;> omega
  · intro zeros
    have smaller : 2 ^ (W - LeadingZeros) <= 2 ^ (W - 1) :=
      Nat.pow_le_pow_right (by decide) (by omega)
    rcases bounds with ⟨_, small⟩ | ⟨_, small⟩ <;> omega

end APInt
end LlvmProject
