import LlvmProject.APInt.Magicu

namespace LlvmProject

open Nat Bool

namespace APInt

/-!
# The magic numbers of signed division

`magic` works with the absolute values of the divisor and of the critical
value.  The critical value depends on the sign of the divisor, since the
numerators whose quotient is not negative reach one further for a negative
divisor.  The loop has no bound of its own; it ends because the critical value
and the divisor cannot both be half of the range of a register, so that some
scale below the double width is precise.

As in the unsigned case the values are bit-vectors.
-/

open DoWhile Reciprocal

/-- Magic data for signed division by a constant. -/
structure ms (W : Nat) where
  m : BitVec W
  s : Nat
  deriving DecidableEq, Repr

/-- The variables of the loop of `magic`. -/
structure MagicState (W : Nat) where
  p : Nat
  q1 : BitVec W
  r1 : BitVec W
  q2 : BitVec W
  r2 : BitVec W
  delta : BitVec W

variable {W : Nat}

/-- One of the two updates of a round. -/
def magicUpdate (c q r : BitVec W) : BitVec W × BitVec W :=
  let q := q <<< 1
  let r := r <<< 1
  if r >= c then (q + 1, r - c) else (q, r)

/-- The body of the loop. -/
def magicBody (ad anc : BitVec W) (state : MagicState W) : MagicState W :=
  let first := magicUpdate anc state.q1 state.r1
  let second := magicUpdate ad state.q2 state.r2
  { p := state.p + 1
    q1 := first.1
    r1 := first.2
    q2 := second.1
    r2 := second.2
    delta := ad - second.2 }

/-- The test after a round. -/
def magicAgain (state : MagicState W) : Bool :=
  decide (state.q1 < state.delta) || (state.q1 == state.delta && state.r1 == 0)

/-- The absolute value of the critical value. -/
def magicCritical (d ad : BitVec W) : BitVec W :=
  let t := BitVec.intMin W + d >>> (W - 1)
  t - 1 - t % ad

/-- The variables before the loop; `delta` has no value yet. -/
def magicStart (ad anc : BitVec W) : MagicState W :=
  let q1 := BitVec.intMin W / anc
  let q2 := BitVec.intMin W / ad
  { p := W - 1
    q1 := q1
    r1 := BitVec.intMin W - q1 * anc
    q2 := q2
    r2 := BitVec.intMin W - q2 * ad
    delta := 0 }

/-- Calculate the magic numbers of a signed division by a constant. -/
def magic (fuel : Nat) (d : BitVec W) : Option (ms W) :=
  let ad := d.abs
  let anc := magicCritical d ad
  (doWhile (magicBody ad anc) magicAgain fuel (magicStart ad anc)).map fun state =>
    { m := if d.msb then -(state.q2 + 1) else state.q2 + 1, s := state.p - W }

/-! ## The loop -/

/-- The multiplier at the scale `2^p`: the next number after the quotient. -/
def magicMultiplier (ad p : Nat) : Nat := 2 ^ p / ad + 1

/-- The excess of the multiplier, the value of `delta`. -/
def magicExcess (ad p : Nat) : Nat := ad - 2 ^ p % ad

theorem magicMultiplier_mul {ad : Nat} (pos : 0 < ad) (p : Nat) :
    magicMultiplier ad p * ad = 2 ^ p + magicExcess ad p := by
  have split := div_add_mod (2 ^ p) ad
  have remainder := mod_lt (2 ^ p) pos
  rw [magicMultiplier, magicExcess, add_mul, one_mul, mul_comm]
  omega

theorem magicExcess_pos {ad : Nat} (pos : 0 < ad) (p : Nat) : 0 < magicExcess ad p :=
  Nat.sub_pos_of_lt (mod_lt _ pos)

theorem magicExcess_le (ad p : Nat) : magicExcess ad p <= ad := sub_le _ _

theorem shl_one (x : BitVec W) : x <<< 1 = x + x := by
  apply BitVec.eq_of_toNat_eq
  rw [BitVec.toNat_shiftLeft, BitVec.toNat_add, shiftLeft_eq, pow_one, mul_two]

/-- A register that is at most half of the range is doubled without loss. -/
theorem Registers.update {c q r : BitVec W} {x : Nat} (registers : Registers c x q r)
    (pos : 0 < c.toNat) (half : c.toNat <= 2 ^ (W - 1)) (wide : 0 < W) :
    Registers c (2 * x) (magicUpdate c q r).1 (magicUpdate c q r).2 := by
  have doubled := registers.double pos false
  have below := registers.remainder_lt pos
  have double := double_width wide
  have plain : r + r + BitVec.ofNat W (Bool.toNat false) = r + r := BitVec.add_zero _
  rw [plain, toNat_false, add_zero, add_zero, <- registers.remainder] at doubled
  have value : (r + r).toNat = 2 * r.toNat := by
    rw [BitVec.toNat_add_of_lt (by omega), two_mul]
  simp only [magicUpdate, shl_one]
  by_cases full : c.toNat <= 2 * r.toNat
  · rw [if_pos full] at doubled
    rw [if_pos (BitVec.le_def.mpr (value ▸ full))]
    exact doubled
  · rw [if_neg full] at doubled
    rw [if_neg (fun reached => full (value ▸ BitVec.le_def.mp reached))]
    exact doubled

/-- The absolute values of a divisor and its critical value: both at most half
of the range, and not both equal to it. -/
structure MagicOperands (ad anc : BitVec W) : Prop where
  wide : 3 <= W
  divisor : 2 <= ad.toNat
  divisor_le : ad.toNat <= 2 ^ (W - 1)
  critical_le : anc.toNat <= 2 ^ (W - 1)
  below : ad.toNat ∣ anc.toNat + 1
  reaches : 2 ^ (W - 1) <= anc.toNat + ad.toNat

section Loop

variable {ad anc : BitVec W} {state : MagicState W}

section

variable (operands : MagicOperands ad anc)
include operands

theorem MagicOperands.half_ge : 4 <= 2 ^ (W - 1) := by
  have wide := operands.wide
  calc 4 = 2 ^ 2 := by decide
    _ <= 2 ^ (W - 1) := Nat.pow_le_pow_right (by decide) (by omega)

theorem MagicOperands.divisor_le_critical :
    ad.toNat <= anc.toNat + 1 := le_of_dvd (succ_pos _) operands.below

theorem MagicOperands.critical_ge : 2 <= anc.toNat := by
  have half := operands.half_ge
  have reaches := operands.reaches
  have divisor := operands.divisor_le_critical
  omega

/-- A power of two as divisor makes the critical value odd. -/
theorem MagicOperands.critical_lt_of_power {p : Nat}
    (power : ad.toNat ∣ 2 ^ p) : anc.toNat < 2 ^ (W - 1) := by
  have divisor := operands.divisor
  have wide := operands.wide
  rcases (dvd_prime_pow prime_two).mp power with ⟨k, _, adPower⟩
  have even : 2 ∣ ad.toNat := by
    rw [adPower]
    refine dvd_pow_self 2 fun zero => ?_
    rw [adPower, zero] at divisor
    exact absurd divisor (by decide)
  have odd : 2 ∣ anc.toNat + 1 := dvd_trans even operands.below
  have halfEven : 2 ∣ 2 ^ (W - 1) := dvd_pow_self 2 (by omega)
  have bound := operands.critical_le
  omega

theorem MagicOperands.product_lt : anc.toNat * ad.toNat < 2 ^ (W - 1) * 2 ^ (W - 1) := by
  have half := Nat.two_pow_pos (W - 1)
  rcases Nat.lt_or_eq_of_le operands.divisor_le with smaller | equal
  · exact Nat.mul_lt_mul_of_le_of_lt operands.critical_le smaller half
  · have odd := operands.critical_lt_of_power (equal ▸ dvd_refl _ : ad.toNat ∣ 2 ^ (W - 1))
    rw [equal]
    exact mul_lt_mul_of_pos_right odd half

end

/-- The registers describe the current scale. -/
structure MagicExact (ad anc : BitVec W) (state : MagicState W) : Prop where
  first : Registers anc (2 ^ state.p) state.q1 state.r1
  second : Registers ad (2 ^ state.p) state.q2 state.r2

theorem magicStart_exact (wide : 0 < W) : MagicExact ad anc (magicStart ad anc) where
  first := by
    change Registers anc (2 ^ (W - 1)) _ _
    rw [<- BitVec.toNat_intMin_of_pos wide]
    exact Registers.start
  second := by
    change Registers ad (2 ^ (W - 1)) _ _
    rw [<- BitVec.toNat_intMin_of_pos wide]
    exact Registers.start

theorem MagicExact.body (exact : MagicExact ad anc state) (operands : MagicOperands ad anc) :
    MagicExact ad anc (magicBody ad anc state) := by
  have wide := operands.wide
  have critical := operands.critical_ge
  have divisor := operands.divisor
  have scale : 2 * 2 ^ state.p = 2 ^ (state.p + 1) := (pow_succ' ..).symm
  have first := exact.first.update (by omega) operands.critical_le (by omega)
  have second := exact.second.update (by omega) operands.divisor_le (by omega)
  rw [scale] at first second
  exact ⟨first, second⟩

/-- After a round, `delta` is the excess of the multiplier. -/
theorem MagicExact.body_delta (exact : MagicExact ad anc state) (operands : MagicOperands ad anc) :
    (magicBody ad anc state).delta.toNat = magicExcess ad.toNat (state.p + 1) := by
  have divisor := operands.divisor
  have second := (exact.body operands).second
  have below := second.remainder_lt (by omega)
  change (ad - (magicBody ad anc state).r2).toNat = _
  rw [BitVec.toNat_sub_of_le (BitVec.le_def.mpr below.le), second.remainder]
  rfl

/-- The invariant after a round.  The scale stays below the double width, and
the one before the current was too coarse. -/
structure MagicInvariant (ad anc : BitVec W) (state : MagicState W) : Prop
    extends MagicExact ad anc state where
  delta : state.delta.toNat = magicExcess ad.toNat state.p
  width_le : W <= state.p
  le_double : state.p + 2 <= W * 2
  unfinished : state.p = W ∨ 2 ^ (state.p - 1) <= anc.toNat * magicExcess ad.toNat (state.p - 1)

section

variable (inv : MagicInvariant ad anc state)
include inv

/-- The scale is the double of one that was too coarse. -/
theorem MagicInvariant.scale_le (later : state.p ≠ W) :
    2 ^ state.p <= 2 * (anc.toNat * magicExcess ad.toNat (state.p - 1)) := by
  have width := inv.width_le
  calc 2 ^ state.p = 2 * 2 ^ (state.p - 1) := by
        rw [<- pow_succ', succ_eq_add_one, Nat.sub_add_cancel (by omega)]
    _ <= 2 * (anc.toNat * magicExcess ad.toNat (state.p - 1)) :=
        Nat.mul_le_mul_left 2 (inv.unfinished.resolve_left later)

section

variable (operands : MagicOperands ad anc)
include operands

/-- The first quotient does not leave its register. -/
theorem MagicInvariant.quotient_lt : 2 ^ state.p / anc.toNat < 2 ^ W := by
  have half := operands.half_ge
  have critical := operands.critical_ge
  have wide := operands.wide
  have double := double_width (show 0 < W by omega)
  refine Nat.div_lt_of_lt_mul ?_
  by_cases first : state.p = W
  · rw [first]
    calc 2 ^ W < 2 * 2 ^ W := by omega
      _ <= anc.toNat * 2 ^ W := Nat.mul_le_mul_right _ critical
  · rcases Nat.lt_or_eq_of_le operands.divisor_le with smaller | equal
    · calc 2 ^ state.p <= 2 * (anc.toNat * magicExcess ad.toNat (state.p - 1)) :=
            inv.scale_le first
        _ <= 2 * (anc.toNat * ad.toNat) :=
            Nat.mul_le_mul_left 2 (Nat.mul_le_mul_left _ (magicExcess_le _ _))
        _ = anc.toNat * (2 * ad.toNat) := by ring
        _ < anc.toNat * 2 ^ W := mul_lt_mul_of_pos_left (by omega) (by omega)
    · have divisor := operands.divisor_le_critical
      have bound := inv.le_double
      calc 2 ^ state.p <= 2 ^ (W - 1 + (W - 1)) := Nat.pow_le_pow_right (by decide) (by omega)
        _ = 2 ^ (W - 1) * 2 ^ (W - 1) := pow_add ..
        _ < (anc.toNat * 2) * 2 ^ (W - 1) := mul_lt_mul_of_pos_right (by omega) (by omega)
        _ = anc.toNat * 2 ^ W := by rw [double, mul_assoc]

/-- The test asks whether the scale is still too coarse. -/
theorem MagicInvariant.again_iff :
    magicAgain state = true ↔ 2 ^ state.p <= anc.toNat * magicExcess ad.toNat state.p := by
  have critical := operands.critical_ge
  have test : magicAgain state = true ↔ state.q1.toNat < state.delta.toNat ∨
      state.q1.toNat = state.delta.toNat ∧ state.r1.toNat = 0 := by
    simp only [magicAgain, and_eq_true, or_eq_true, decide_eq_true_eq, beq_iff_eq,
      BitVec.lt_def, <- BitVec.toNat_inj]
    rfl
  rw [test, inv.first.quotient, BitVec.toNat_ofNat, mod_eq_of_lt (inv.quotient_lt operands),
    inv.delta, inv.first.remainder]
  exact unfinished_iff (by omega)

/-- A further round keeps the invariant. -/
theorem MagicInvariant.body (again : magicAgain state = true) :
    MagicInvariant ad anc (magicBody ad anc state) := by
  have coarse := (inv.again_iff operands).mp again
  have wide := operands.wide
  have scale : 2 ^ state.p < 2 ^ (W - 1 + (W - 1)) :=
    calc 2 ^ state.p <= anc.toNat * magicExcess ad.toNat state.p := coarse
      _ <= anc.toNat * ad.toNat := Nat.mul_le_mul_left _ (magicExcess_le _ _)
      _ < 2 ^ (W - 1) * 2 ^ (W - 1) := operands.product_lt
      _ = 2 ^ (W - 1 + (W - 1)) := (pow_add ..).symm
  have below := (Nat.pow_lt_pow_iff_right (by decide)).mp scale
  exact {
    inv.toMagicExact.body operands with
    delta := inv.toMagicExact.body_delta operands
    width_le := le_succ_of_le inv.width_le
    le_double := by
      change state.p + 1 + 2 <= W * 2
      omega
    unfinished := .inr coarse }

end

end

/-- The loop ends at a precise scale. -/
theorem magic_loop (operands : MagicOperands ad anc) {fuel : Nat} (enough : W <= fuel) :
    ∃ final, doWhile (magicBody ad anc) magicAgain fuel (magicStart ad anc) = some final ∧
      MagicInvariant ad anc final ∧
      anc.toNat * magicExcess ad.toNat final.p < 2 ^ final.p := by
  have wide := operands.wide
  have start : MagicExact ad anc (magicStart ad anc) := magicStart_exact (by omega)
  have scale : (magicStart ad anc).p + 1 = W := Nat.sub_add_cancel (by omega)
  have entered : MagicInvariant ad anc (magicBody ad anc (magicStart ad anc)) :=
    { start.body operands with
      delta := start.body_delta operands
      width_le := le_of_eq scale.symm
      le_double := by
        change (magicStart ad anc).p + 1 + 2 <= W * 2
        omega
      unfinished := .inl scale }
  rcases doWhile_terminates (MagicInvariant ad anc) (fun state => W * 2 - 2 - state.p)
      (fun state inv again => ⟨inv.body operands again, by
        have bound := (inv.body operands again).le_double
        change state.p + 1 + 2 <= W * 2 at bound
        change W * 2 - 2 - (state.p + 1) < W * 2 - 2 - state.p
        omega⟩)
      entered (by
        change W * 2 - 2 - ((magicStart ad anc).p + 1) < fuel
        omega) with ⟨final, ran, inv, done⟩
  refine ⟨final, ran, inv, Nat.lt_of_not_le fun coarse => ?_⟩
  rw [(inv.again_iff operands).mpr coarse] at done
  cases done

/-- A full excess at the scale before means that the divisor is a power of
two, and the critical value then leaves room. -/
theorem MagicInvariant.scale_lt (inv : MagicInvariant ad anc state)
    (operands : MagicOperands ad anc) (later : state.p ≠ W) :
    2 ^ state.p < ad.toNat * (2 ^ W - 1) := by
  have half := operands.half_ge
  have divisor := operands.divisor
  have bounded := operands.divisor_le
  have wide := operands.wide
  have double := double_width (show 0 < W by omega)
  have scale := inv.scale_le later
  rcases Nat.lt_or_eq_of_le (magicExcess_le ad.toNat (state.p - 1)) with smaller | full
  · calc 2 ^ state.p <= 2 * (anc.toNat * (ad.toNat - 1)) :=
          le_trans scale (Nat.mul_le_mul_left 2 (Nat.mul_le_mul_left _ (by omega)))
      _ <= 2 * (2 ^ (W - 1) * (ad.toNat - 1)) :=
          Nat.mul_le_mul_left 2 (Nat.mul_le_mul_right _ operands.critical_le)
      _ = 2 ^ W * ad.toNat - 2 ^ W := by
          rw [<- mul_assoc, <- double, Nat.mul_sub, mul_one]
      _ < ad.toNat * 2 ^ W - ad.toNat := by
          rw [mul_comm]
          have above : 2 ^ W <= ad.toNat * 2 ^ W := Nat.le_mul_of_pos_left _ (by omega)
          omega
      _ = ad.toNat * (2 ^ W - 1) := by rw [Nat.mul_sub, mul_one]
  · have power : ad.toNat ∣ 2 ^ (state.p - 1) := by
      rw [dvd_iff_mod_eq_zero]
      rw [magicExcess] at full
      omega
    have room := operands.critical_lt_of_power power
    calc 2 ^ state.p <= 2 * (anc.toNat * ad.toNat) := full ▸ scale
      _ = 2 * anc.toNat * ad.toNat := (mul_assoc ..).symm
      _ < (2 ^ W - 1) * ad.toNat := mul_lt_mul_of_pos_right (by omega) (by omega)
      _ = ad.toNat * (2 ^ W - 1) := mul_comm ..

/-- The multiplier at the last scale fits in the width. -/
theorem MagicInvariant.multiplier_lt (inv : MagicInvariant ad anc state)
    (operands : MagicOperands ad anc) : magicMultiplier ad.toNat state.p < 2 ^ W := by
  have half := operands.half_ge
  have divisor := operands.divisor
  have wide := operands.wide
  have double := double_width (show 0 < W by omega)
  by_cases first : state.p = W
  · have quotient : 2 ^ W / ad.toNat <= 2 ^ W / 2 := div_le_div_left divisor (by decide)
    rw [magicMultiplier, first]
    omega
  · have quotient := Nat.div_lt_of_lt_mul (inv.scale_lt operands first)
    rw [magicMultiplier]
    omega

end Loop

/-! ## Divisors -/

section Divisor

variable {d : BitVec W}

theorem natCast_toNat_abs (d : BitVec W) :
    (d.abs.toNat : Int) = if d.msb then -d.toInt else d.toInt := by
  have fits := d.isLt
  rw [BitVec.toNat_abs, BitVec.toInt_eq_msb_cond]
  cases d.msb with
  | false => rfl
  | true =>
    simp only [if_true]
    rw [cast_sub fits.le]
    push_cast
    ring

theorem toNat_abs_le (wide : 0 < W) : d.abs.toNat <= 2 ^ (W - 1) := by
  have double := double_width wide
  have fits := d.isLt
  have sign := BitVec.msb_eq_decide d
  rw [BitVec.toNat_abs]
  cases known : d.msb with
  | false =>
    rw [known, eq_comm, decide_eq_false_iff_not] at sign
    simp only [false_eq_true, if_false]
    omega
  | true =>
    rw [known, eq_comm, decide_eq_true_eq] at sign
    simp only [if_true]
    omega

theorem two_le_toNat_abs (notZero : d ≠ 0) (notOne : d ≠ 1) (notMinusOne : d ≠ -1) :
    2 <= d.abs.toNat := by
  have absolute := natCast_toNat_abs d
  have known : BitVec.ofInt W d.toInt = d := BitVec.ofInt_toInt
  by_contra small
  have values : d.toInt = 0 ∨ d.toInt = 1 ∨ d.toInt = -1 := by
    split_ifs at absolute <;> omega
  rcases values with zero | one | minusOne
  · rw [zero, BitVec.ofInt_ofNat] at known
    exact notZero known.symm
  · rw [one, BitVec.ofInt_ofNat] at known
    exact notOne known.symm
  · rw [minusOne, BitVec.ofInt_neg, BitVec.ofInt_ofNat] at known
    exact notMinusOne known.symm

/-- The number of numerators whose quotient is not negative. -/
def signedRange (d : BitVec W) : Nat := 2 ^ (W - 1) + d.msb.toNat

theorem toNat_lshr_signBit (x : BitVec W) (wide : 0 < W) : (x >>> (W - 1)).toNat = x.msb.toNat := by
  have double := double_width wide
  have fits := x.isLt
  rw [BitVec.toNat_ushiftRight, shiftRight_eq_div_pow, BitVec.msb_eq_decide]
  by_cases large : 2 ^ (W - 1) <= x.toNat
  · rw [decide_eq_true large, toNat_true]
    exact Nat.div_eq_of_lt_le (by omega) (by omega)
  · rw [decide_eq_false large, toNat_false]
    exact div_eq_of_lt (Nat.lt_of_not_le large)

theorem toNat_magicCritical (wide : 1 < W) (pos : 0 < d.abs.toNat) :
    (magicCritical d d.abs).toNat = signedRange d - 1 - signedRange d % d.abs.toNat := by
  have half : 2 <= 2 ^ (W - 1) := le_self_pow (by omega) 2
  have double := double_width (show 0 < W by omega)
  have bounded : d.abs.toNat <= 2 ^ (W - 1) := toNat_abs_le (by omega)
  have sign : d.msb.toNat <= 1 := toNat_le _
  have one : (1 : BitVec W).toNat = 1 := mod_eq_of_lt (Nat.one_lt_two_pow (by omega))
  have t : (BitVec.intMin W + d >>> (W - 1)).toNat = signedRange d := by
    rw [BitVec.toNat_add_of_lt, BitVec.toNat_intMin_of_pos (by omega),
      toNat_lshr_signBit d (by omega)]
    · rfl
    · rw [BitVec.toNat_intMin_of_pos (by omega), toNat_lshr_signBit d (by omega)]
      omega
  have range : 2 ^ (W - 1) <= signedRange d := le_add_right _ _
  have remainder := mod_lt (signedRange d) pos
  have pred : (BitVec.intMin W + d >>> (W - 1) - 1).toNat = signedRange d - 1 := by
    rw [BitVec.toNat_sub_of_le (BitVec.le_def.mpr (by omega)), t, one]
  rw [magicCritical, BitVec.toNat_sub_of_le, BitVec.toNat_umod, pred, t]
  rw [BitVec.le_def, BitVec.toNat_umod, pred, t]
  omega

/-- The operands of `magic` for a divisor other than 0, 1 and -1.  All
numerators lie below the next critical value. -/
theorem magic_operands (wide : 3 <= W) (divisor : 2 <= d.abs.toNat) :
    MagicOperands d.abs (magicCritical d d.abs) ∧
      signedRange d <= (magicCritical d d.abs).toNat + d.abs.toNat := by
  have critical := toNat_magicCritical (by omega) (show 0 < d.abs.toNat by omega)
  have bounded : d.abs.toNat <= 2 ^ (W - 1) := toNat_abs_le (by omega)
  have range : 2 ^ (W - 1) <= signedRange d := le_add_right _ _
  have sign : d.msb.toNat <= 1 := toNat_le _
  have limit : signedRange d <= 2 ^ (W - 1) + 1 := Nat.add_le_add_left sign _
  have remainder := mod_lt (signedRange d) (show 0 < d.abs.toNat by omega)
  refine ⟨{
    wide := wide
    divisor := divisor
    divisor_le := bounded
    critical_le := by omega
    below := ?_
    reaches := by omega }, by omega⟩
  have multiple : (magicCritical d d.abs).toNat + 1 =
      signedRange d - signedRange d % d.abs.toNat := by omega
  rw [multiple]
  exact dvd_sub_mod _

end Divisor

/-! ## The result -/

/-- What the magic numbers stand for.  The numerator has the sign that makes
the divisor positive. -/
structure ms.Divides (magics : ms W) (d : BitVec W) (mult : Nat) : Prop where
  m : magics.m = BitVec.ofInt W (if d.msb then -mult else mult)
  multiplier_pos : 0 < mult
  multiplier_lt : mult < 2 ^ W
  shift_lt : magics.s < W
  divides : ∀ n : BitVec W, ∀ signed, signed = (if d.msb then -n.toInt else n.toInt) ->
    signed * mult / (2 ^ (W + magics.s) : Nat) +
        (if signed * mult / (2 ^ (W + magics.s) : Nat) < 0 then 1 else 0) =
      n.toInt.tdiv d.toInt

/-- The excess at the next critical value, if that is half of the range: the
divisor then completes the scale with the part of it above that half. -/
theorem small_at_half {ad anc : BitVec W} (operands : MagicOperands ad anc) {p : Nat}
    (width : W <= p) (last : anc.toNat + ad.toNat = 2 ^ (W - 1)) :
    2 ^ (W - 1) % ad.toNat * 2 ^ p + magicExcess ad.toNat p * 2 ^ (W - 1) <= ad.toNat * 2 ^ p := by
  have wide := operands.wide
  have pos : 0 < ad.toNat := lt_of_lt_of_le two_pos operands.divisor
  have scale : 2 ^ p = 2 ^ (p - (W - 1)) * 2 ^ (W - 1) := by
    rw [<- pow_add, Nat.sub_add_cancel (by omega)]
  have completed : ad.toNat ∣ 2 ^ p + 2 ^ (p - (W - 1)) := by
    have next : 2 ^ p + 2 ^ (p - (W - 1)) = 2 ^ (p - (W - 1)) * (anc.toNat + 1 + ad.toNat) := by
      rw [scale, <- last]
      ring
    rw [next]
    exact Nat.dvd_mul_left_of_dvd (Nat.dvd_add operands.below (dvd_refl _)) _
  have excess : magicExcess ad.toNat p <= 2 ^ (p - (W - 1)) :=
    complement_le (Nat.two_pow_pos _) completed
  have remainder : 2 ^ (W - 1) % ad.toNat <= ad.toNat - 1 := le_sub_one_of_lt (mod_lt _ pos)
  calc 2 ^ (W - 1) % ad.toNat * 2 ^ p + magicExcess ad.toNat p * 2 ^ (W - 1)
      <= (ad.toNat - 1) * 2 ^ p + 2 ^ (p - (W - 1)) * 2 ^ (W - 1) :=
        Nat.add_le_add (Nat.mul_le_mul_right _ remainder) (Nat.mul_le_mul_right _ excess)
    _ = (ad.toNat - 1 + 1) * 2 ^ p := by rw [<- scale, add_mul, one_mul]
    _ = ad.toNat * 2 ^ p := by rw [Nat.sub_add_cancel pos]

/-- A precise scale divides every numerator.  Only the least numerator of a
positive divisor may lie at the next critical value. -/
theorem magicMultiplier_divides {d : BitVec W} {p : Nat} (operands : MagicOperands d.abs
    (magicCritical d d.abs)) (range : signedRange d <= (magicCritical d d.abs).toNat + d.abs.toNat)
    (width : W <= p) (precise : (magicCritical d d.abs).toNat * magicExcess d.abs.toNat p < 2 ^ p)
    (n : BitVec W) (signed : Int) (same : signed = if d.msb then -n.toInt else n.toInt) :
    signed * magicMultiplier d.abs.toNat p / (2 ^ p : Nat) +
        (if signed * magicMultiplier d.abs.toNat p / (2 ^ p : Nat) < 0 then 1 else 0) =
      n.toInt.tdiv d.toInt := by
  have pos : 0 < d.abs.toNat := lt_of_lt_of_le two_pos operands.divisor
  have halfCast : ((2 ^ (W - 1) : Nat) : Int) = 2 ^ (W - 1) := by push_cast; rfl
  have lower := BitVec.le_toInt n
  have upper := BitVec.toInt_lt (x := n)
  rw [<- halfCast] at lower upper
  have quotient : n.toInt.tdiv d.toInt = signed.tdiv d.abs.toNat := by
    rw [natCast_toNat_abs, same]
    cases d.msb with
    | false => rfl
    | true => simp only [if_true, Int.neg_tdiv, Int.tdiv_neg, neg_neg]
  rw [quotient]
  rw [mul_comm] at precise
  have strict : signed.natAbs < (magicCritical d d.abs).toNat + d.abs.toNat ->
      signed.natAbs % d.abs.toNat * 2 ^ p + magicExcess d.abs.toNat p * signed.natAbs <
        d.abs.toNat * 2 ^ p :=
    small_of_critical pos operands.below precise
  refine signed_mul_div (magicMultiplier_mul pos p) pos (magicExcess_pos pos p)
    (Nat.two_pow_pos p) signed (fun nonnegative => strict ?_) fun neg => ?_
  · split_ifs at same with sign
    · rw [signedRange, sign, toNat_true] at range
      omega
    · rw [not_eq_true] at sign
      rw [signedRange, sign, toNat_false] at range
      omega
  · by_cases inside : signed.natAbs < (magicCritical d d.abs).toNat + d.abs.toNat
    · exact (strict inside).le
    · have bounded : signed.natAbs <= 2 ^ (W - 1) := by
        split_ifs at same <;> omega
      have half : 2 ^ (W - 1) <= signedRange d := le_add_right _ _
      have last : (magicCritical d d.abs).toNat + d.abs.toNat = 2 ^ (W - 1) := by omega
      have least : signed.natAbs = 2 ^ (W - 1) := by omega
      rw [least]
      exact small_at_half operands width last

/-- The loop ends, and its magic numbers divide every numerator. -/
theorem magic_spec {d : BitVec W} (wide : 3 <= W) (notZero : d ≠ 0) (notOne : d ≠ 1)
    (notMinusOne : d ≠ -1) {fuel : Nat} (enough : W <= fuel) :
    ∃ magics mult, magic fuel d = some magics ∧ magics.Divides d mult := by
  rcases magic_operands wide (two_le_toNat_abs notZero notOne notMinusOne) with ⟨operands, range⟩
  rcases magic_loop operands enough with ⟨final, ran, inv, precise⟩
  have width := inv.width_le
  have bound := inv.le_double
  have scale : W + (final.p - W) = final.p := Nat.add_sub_cancel' width
  have register : final.q2 + 1 = BitVec.ofInt W (magicMultiplier d.abs.toNat final.p) := by
    rw [inv.second.quotient, BitVec.ofInt_natCast, magicMultiplier, BitVec.ofNat_add]
    rfl
  refine ⟨_, magicMultiplier d.abs.toNat final.p, by rw [magic, ran]; rfl, {
    m := ?_
    multiplier_pos := succ_pos _
    multiplier_lt := inv.multiplier_lt operands
    shift_lt := by
      change final.p - W < W
      omega
    divides := ?_ }⟩
  · simp only [register]
    cases d.msb with
    | false => rfl
    | true => exact BitVec.ofInt_neg.symm
  · rw [scale]
    exact magicMultiplier_divides operands range width precise

end APInt
end LlvmProject
