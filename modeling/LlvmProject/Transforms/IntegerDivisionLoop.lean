import LlvmProject.Library.RestoringDivision
import LlvmProject.Transforms.IntegerDivision
import Mathlib.Tactic.Ring

namespace LlvmProject

open BitVec Nat

namespace IntegerDivision

/-!
# The division loop

The blocks of the unsigned division, one after the other.  The invariant of
the loop says what the four values that enter a round stand for when `t` bits
of the dividend are left: the rest of the dividend is in the upper bits of the
quotient register, the bits of the quotient found so far are in its lower bits
and, the last one, in the carry.
-/

open IR RestoringDivision

variable {W : Nat}

/-- An operand that the code of the division does not write. -/
def Outside (x : Operand Register W) : Prop := ∀ name, x ≠ .register (.unsignedDivision name)

/-- Only values of the division were written. -/
def Frame (env env' : Env Register W) : Prop :=
  ∀ register, (∀ name, register ≠ .unsignedDivision name) -> env' register = env register

theorem Frame.refl (env : Env Register W) : Frame env env := fun _ _ => rfl

theorem Frame.trans {first second third : Env Register W} (left : Frame first second)
    (right : Frame second third) : Frame first third :=
  fun register outside => (right register outside).trans (left register outside)

theorem Frame.update {env env' : Env Register W} (frame : Frame env env')
    (name : UnsignedDivision) (value : Value W) :
    Frame env (Function.update env' (.unsignedDivision name) value) := by
  intro register outside
  rw [Function.update_of_ne (outside name)]
  exact frame register outside

theorem Frame.value {env env' : Env Register W} (frame : Frame env env') {x : Operand Register W}
    (outside : Outside x) : x.value env' = x.value env := by
  cases x with
  | constant bits => rfl
  | register name => exact frame name fun written same => outside written (congrArg _ same)

theorem Outside.value_update {x : Operand Register W} (outside : Outside x)
    (env : Env Register W) (name : UnsignedDivision) (value : Value W) :
    x.value (Function.update env (.unsignedDivision name) value) = x.value env :=
  ((Frame.refl env).update name value).value outside

/-! ## The blocks -/

section Blocks

open UnsignedDivision

variable {Dividend Divisor : Operand Register W} {env : Env Register W} {n d : BitVec W}

section SpecialCases

variable (dividendOutside : Outside Dividend) (divisorOutside : Outside Divisor)
  (dividendIs : Dividend.value env = .int n) (divisorIs : Divisor.value env = .int d)

include dividendOutside divisorOutside dividendIs divisorIs

/-- A zero dividend exits, although its leading zeros are undefined. -/
theorem specialCases_zero (before : Code W) (prev : Label) (start : Env Register W)
    (ran : execute start before = some env) (nonzero : d ≠ 0#W) (zero : n = 0#W) :
    ∃ env', (specialCases before Dividend Divisor).run prev start = some (.jump .End env') ∧
      Frame env env' ∧ env' (.unsignedDivision RetVal) = .int 0 := by
  refine ⟨?env, ?run, ?frame, ?retVal⟩
  case run =>
    simp [specialCases, Block.run, enter, execute_append, ran, execute, Instruction.value,
      dividendOutside.value_update, divisorOutside.value_update, dividendIs, divisorIs,
      Terminator.follow, Value.ctlz_int nonzero, zero]
    rfl
  case frame => repeat first | exact Frame.refl env | apply Frame.update
  case retVal => simp

/-- Otherwise the difference of the leading zeros decides. -/
theorem specialCases_nonzero (before : Code W) (prev : Label) (start : Env Register W)
    (ran : execute start before = some env) (dividend : n ≠ 0#W) (divisor : d ≠ 0#W)
    {sr : BitVec W} (srIs : sr = BitVec.ofNat W (W - d.toNat.size) - BitVec.ofNat W (W - n.toNat.size)) :
    ∃ env', (specialCases before Dividend Divisor).run prev start =
        some (.jump (if BitVec.ofNat W (W - 1) < sr ∨ sr = BitVec.ofNat W (W - 1) then .End
          else .BB1) env') ∧
      Frame env env' ∧ env' (.unsignedDivision SR) = .int sr ∧
      env' (.unsignedDivision RetVal) =
        if BitVec.ofNat W (W - 1) < sr then .int 0#W else .int n := by
  refine ⟨?env, ?run, ?frame, ?sr, ?retVal⟩
  case run =>
    simp [specialCases, Block.run, enter, execute_append, ran, execute, Instruction.value,
      dividendOutside.value_update, divisorOutside.value_update, dividendIs, divisorIs,
      Terminator.follow, Value.ctlz_int dividend, Value.ctlz_int divisor, <- srIs, BinaryOp.ints,
      dividend, divisor]
    rfl
  case frame => repeat first | exact Frame.refl env | apply Frame.update
  case sr => simp
  case retVal => simp

end SpecialCases

theorem bb1_run (dividendOutside : Outside Dividend) (dividendIs : Dividend.value env = .int n)
    (prev : Label) {sr shift : BitVec W} (srIs : env (.unsignedDivision SR) = .int sr)
    (shiftIs : BitVec.ofNat W (W - 1) - sr = shift) (inRange : shift.toNat < W) :
    ∃ env', (bb1 Dividend).run prev env =
        some (.jump (if sr + 1 = 0#W then .LoopExit else .Preheader) env') ∧
      Frame env env' ∧ env' (.unsignedDivision SR_1) = .int (sr + 1) ∧
      env' (.unsignedDivision Q) = .int (n <<< shift.toNat) := by
  refine ⟨?env, ?run, ?frame, ?sr1, ?q⟩
  case run =>
    simp [bb1, Block.run, enter, execute, Instruction.value, dividendOutside.value_update,
      dividendIs, srIs, shiftIs, Terminator.follow, BinaryOp.ints, inRange]
    rfl
  case frame => repeat first | exact Frame.refl env | apply Frame.update
  case sr1 => simp
  case q => simp

theorem preheader_run (divisorOutside : Outside Divisor) (dividendIs : Dividend.value env = .int n)
    (divisorIs : Divisor.value env = .int d) (prev : Label) {s : BitVec W} (sIs : env
    (.unsignedDivision SR_1) = .int s) (inRange : s.toNat < W) :
    ∃ env', (preheader Dividend Divisor).run prev env = some (.jump .DoWhile env') ∧
      Frame env env' ∧ env' (.unsignedDivision SR_1) = .int s ∧
      env' (.unsignedDivision Q) = env (.unsignedDivision Q) ∧
      env' (.unsignedDivision Tmp3) = .int (n >>> s.toNat) ∧
      env' (.unsignedDivision Tmp4) = .int (d + -1) := by
  refine ⟨?env, ?run, ?frame, ?sr1, ?q, ?tmp3, ?tmp4⟩
  case run =>
    simp [preheader, Block.run, enter, execute, Instruction.value, divisorOutside.value_update,
      dividendIs, divisorIs, sIs, Terminator.follow, BinaryOp.ints, inRange]
    rfl
  case frame => repeat first | exact Frame.refl env | apply Frame.update
  case sr1 => simp [sIs]
  case q => simp
  case tmp3 => simp
  case tmp4 => simp

/-- The values that enter a round. -/
structure Enters (prev : Label) (env : Env Register W) (carry sr r q : BitVec W) : Prop where
  carry : incoming prev env [(.Preheader, .constant 0#W), (.DoWhile, Carry)] = .int carry
  sr : incoming prev env [(.Preheader, SR_1), (.DoWhile, SR_2)] = .int sr
  r : incoming prev env [(.Preheader, Tmp3), (.DoWhile, R)] = .int r
  q : incoming prev env [(.Preheader, Q), (.DoWhile, Q_1)] = .int q

/-- The shifted remainder of a round. -/
def shifted (r q : BitVec W) : BitVec W := (r <<< 1) ||| (q >>> (W - 1))

/-- All ones if the shifted remainder has reached the divisor, else zero. -/
def reachedMask (d r q : BitVec W) : BitVec W := (d + -1 - shifted r q).sshiftRight (W - 1)

theorem doWhile_run (divisorOutside : Outside Divisor) (divisorIs : Divisor.value env = .int d)
    (wide : 1 < W) (prev : Label) {carry sr r q : BitVec W} (enters : Enters prev env carry sr r q)
    (tmp4Is : env (.unsignedDivision Tmp4) = .int (d + -1)) :
    ∃ env', (doWhile Divisor).run prev env =
        some (.jump (if sr + -1 = 0#W then .LoopExit else .DoWhile) env') ∧
      Frame env env' ∧ env' (.unsignedDivision Tmp4) = .int (d + -1) ∧
      Enters .DoWhile env' (reachedMask d r q &&& 1) (sr + -1)
        (shifted r q - (reachedMask d r q &&& d)) (carry ||| (q <<< 1)) := by
  have one : (1#W).toNat = 1 := mod_eq_of_lt (Nat.one_lt_two_pow (by omega))
  have msb : (BitVec.ofNat W (W - 1)).toNat = W - 1 :=
    mod_eq_of_lt (lt_of_lt_of_le (sub_lt (by omega) one_pos) (Nat.lt_two_pow_self).le)
  have below : W - 1 < W := by omega
  refine ⟨?env, ?run, ?frame, ?tmp4, ?enters⟩
  case run =>
    simp [doWhile, Block.run, enter, enters.carry, enters.sr, enters.r, enters.q, execute,
      Instruction.value, divisorOutside.value_update, divisorIs, tmp4Is, Terminator.follow,
      BinaryOp.ints, one, wide, msb, below]
    rfl
  case frame => repeat first | exact Frame.refl env | apply Frame.update
  case tmp4 => simp [tmp4Is]
  case enters => constructor <;> simp [incoming, shifted, reachedMask]

theorem loopExit_run (wide : 1 < W) {carry q : BitVec W} (carryIs : env (.unsignedDivision Carry) =
    .int carry) (qIs : env (.unsignedDivision Q_1) = .int q) :
    ∃ env', (loopExit : Block Label Register W).run .DoWhile env = some (.jump .End env') ∧
      Frame env env' ∧ env' (.unsignedDivision Q_4) = .int (carry ||| (q <<< 1)) := by
  have one : (1#W).toNat = 1 := mod_eq_of_lt (Nat.one_lt_two_pow (by omega))
  refine ⟨?env, ?run, ?frame, ?q4⟩
  case run =>
    simp [loopExit, Block.run, enter, incoming, carryIs, qIs, execute, Instruction.value,
      Terminator.follow, BinaryOp.ints, one, wide]
    rfl
  case frame => repeat first | exact Frame.refl env | apply Frame.update
  case q4 => simp

end Blocks

/-! ## One round -/

section Round

variable {n d carry sr r q : BitVec W} {t : Nat}

/-- The values that enter a round when `t` bits of the dividend are left. -/
structure Invariant (n d : BitVec W) (t : Nat) (carry sr r q : BitVec W) : Prop where
  count : sr.toNat = t
  remainder : r.toNat = n.toNat / 2 ^ t % d.toNat
  last : carry.toNat = n.toNat / 2 ^ t / d.toNat % 2
  rest : q.toNat = n.toNat % 2 ^ t * 2 ^ (W - t) + n.toNat / 2 ^ t / d.toNat / 2

/-- A shift by the width less one leaves copies of the sign bit. -/
theorem sshiftRight_sign (x : BitVec W) :
    x.sshiftRight (W - 1) = if x.msb then allOnes W else 0 := by
  have bound := x.isLt
  cases W with
  | zero => exact Subsingleton.elim _ _
  | succ W =>
    rw [pow_succ'] at bound
    apply eq_of_toNat_eq
    rw [toNat_sshiftRight, msb_eq_decide, Nat.add_sub_cancel]
    by_cases neg : 2 ^ W <= x.toNat
    · rw [decide_eq_true neg, if_pos rfl, if_pos rfl, shiftRight_eq_div_pow,
        div_eq_of_lt (by rw [pow_succ']; omega), toNat_allOnes, Nat.sub_zero]
    · rw [decide_eq_false neg, if_neg (by decide), if_neg (by decide),
        shiftRight_eq_div_pow, div_eq_of_lt (by omega)]
      rfl

/-- A disjunction of an even number and a bit is their sum. -/
theorem or_bit_eq_add {a b : Nat} (even : a % 2 = 0) (bit : b < 2) : a ||| b = a + b := by
  have double : a = 2 ^ 1 * (a / 2) := by omega
  rw [double]
  exact (two_pow_add_eq_or_of_lt (i := 1) bit (a / 2)).symm

theorem two_pow_eq_double {m k : Nat} (next : m = k + 1) : 2 ^ m = 2 * 2 ^ k := next ▸ pow_succ'

theorem div_two_pow_lt_two_pow (n : BitVec W)
    (within : t <= W) : n.toNat / 2 ^ t < 2 ^ (W - t) := by
  apply Nat.div_lt_of_lt_mul
  rw [<- pow_add, Nat.add_sub_cancel' within]
  exact n.isLt

/-- The bits of the quotient found so far fit below the rest. -/
theorem found_lt (n d : BitVec W) (within : t <= W) :
    n.toNat / 2 ^ t / d.toNat < 2 ^ (W - t) :=
  lt_of_le_of_lt (div_le_self _ _) (div_two_pow_lt_two_pow n within)

theorem Invariant.shifted_toNat (inv : Invariant n d (t + 1) carry sr r q)
    (within : t + 1 <= W) : (shifted r q).toNat = window n.toNat d.toNat t := by
  have small : r.toNat < 2 ^ (W - 1) := by
    rw [inv.remainder]
    calc n.toNat / 2 ^ (t + 1) % d.toNat <= n.toNat / 2 ^ (t + 1) := mod_le _ _
      _ < 2 ^ (W - (t + 1)) := div_two_pow_lt_two_pow n within
      _ <= 2 ^ (W - 1) := Nat.pow_le_pow_right two_pos (by omega)
  have double : 2 ^ W = 2 * 2 ^ (W - 1) := two_pow_eq_double (by omega)
  have left : (r <<< 1).toNat = 2 * r.toNat := by
    rw [toNat_shiftLeft, Nat.shiftLeft_eq, pow_one, mul_comm]
    exact mod_eq_of_lt (by omega)
  have right : (q >>> (W - 1)).toNat = n.toNat / 2 ^ t % 2 := by
    have split : 2 ^ (W - 1) = 2 ^ (W - (t + 1)) * 2 ^ t := by
      rw [<- pow_add, (by omega : W - (t + 1) + t = W - 1)]
    have low : n.toNat / 2 ^ (t + 1) / d.toNat / 2 < 2 ^ (W - (t + 1)) :=
      lt_of_le_of_lt (div_le_self _ _) (found_lt n d within)
    rw [toNat_ushiftRight, shiftRight_eq_div_pow, inv.rest, split,
      <- Nat.div_div_eq_div_mul, mul_comm, mul_add_div (Nat.two_pow_pos _),
      div_eq_of_lt low, add_zero, pow_succ, mod_mul_right_div_self]
  rw [shifted, toNat_or, left, right, window, <- inv.remainder]
  exact or_bit_eq_add (mul_mod_right 2 _) (mod_lt _ two_pos)

theorem Invariant.quotient_toNat (inv : Invariant n d (t + 1) carry sr r q) (within : t + 1 <= W) :
    (carry ||| (q <<< 1)).toNat =
      n.toNat % 2 ^ t * 2 ^ (W - t) + n.toNat / 2 ^ (t + 1) / d.toNat := by
  have found := found_lt n d within
  have width : 2 ^ (W - t) = 2 * 2 ^ (W - (t + 1)) := two_pow_eq_double (by omega)
  have whole : 2 ^ W = 2 ^ t * 2 ^ (W - t) := by
    rw [<- Nat.pow_add, Nat.add_sub_cancel' (by omega)]
  have bits : n.toNat % 2 ^ (t + 1) = 2 ^ t * (n.toNat / 2 ^ t % 2) + n.toNat % 2 ^ t := by
    rw [pow_succ, mod_mul, add_comm]
  have double : 2 * q.toNat = 2 ^ W * (n.toNat / 2 ^ t % 2) +
      (n.toNat % 2 ^ t * 2 ^ (W - t) + 2 * (n.toNat / 2 ^ (t + 1) / d.toNat / 2)) := by
    rw [inv.rest, bits, whole, width]
    ring
  have fits : n.toNat % 2 ^ t * 2 ^ (W - t) + 2 * (n.toNat / 2 ^ (t + 1) / d.toNat / 2) < 2 ^ W := by
    have top : (n.toNat % 2 ^ t + 1) * 2 ^ (W - t) <= 2 ^ W :=
      whole ▸ mul_le_mul_right _ (mod_lt _ (Nat.two_pow_pos t))
    rw [Nat.add_mul, one_mul] at top
    omega
  have left : (q <<< 1).toNat =
      n.toNat % 2 ^ t * 2 ^ (W - t) + 2 * (n.toNat / 2 ^ (t + 1) / d.toNat / 2) := by
    rw [toNat_shiftLeft, Nat.shiftLeft_eq, pow_one, mul_comm, double,
      mul_add_mod, mod_eq_of_lt fits]
  have even : (n.toNat % 2 ^ t * 2 ^ (W - t) + 2 * (n.toNat / 2 ^ (t + 1) / d.toNat / 2)) % 2 = 0 := by
    rw [width, mul_left_comm, <- Nat.mul_add]
    exact mul_mod_right 2 _
  rw [toNat_or, left, inv.last, Nat.or_comm,
    or_bit_eq_add even (mod_lt _ two_pos), add_assoc, div_add_mod]

/-- The sign bit of the difference is the comparison, unless the difference
leaves the signed range. -/
theorem msb_sub_eq {a b : BitVec W} (wide : 0 < W) (below : a.toNat < b.toNat + 2 ^ (W - 1))
    (above : b.toNat <= a.toNat + 2 ^ (W - 1)) :
    (a - b).msb = decide (a.toNat < b.toNat) := by
  have width : 2 ^ W = 2 * 2 ^ (W - 1) := two_pow_eq_double (by omega)
  have first := a.isLt
  have second := b.isLt
  rw [msb_eq_decide, decide_eq_decide, toNat_sub]
  by_cases less : a.toNat < b.toNat
  · rw [mod_eq_of_lt (by omega)]
    omega
  · rw [mod_eq_sub_mod (by omega), mod_eq_of_lt (by omega)]
    omega

theorem toNat_add_neg_one (wide : 0 < W) (pos : 0 < d.toNat) : (d + -1).toNat = d.toNat - 1 := by
  have one : (1#W).toNat = 1 := mod_eq_of_lt (Nat.one_lt_two_pow (by omega))
  rw [<- sub_eq_add_neg, ofNat_eq_ofNat, toNat_sub_of_le (le_def.mpr (one.symm ▸ pos)), one]

/-- A divisor with its top bit set is compared with the whole dividend only. -/
theorem large_window (top : 2 ^ (W - 1) <= d.toNat) (wide : 0 < W)
    (aligned : t + d.toNat.size <= n.toNat.size) :
    2 ^ (W - 1) <= window n.toNat d.toNat t := by
  have divisorSize : W - 1 < d.toNat.size := lt_size.mpr top
  have dividendSize : n.toNat.size <= W := size_le.mpr n.isLt
  have final : t = 0 := by omega
  have dividend : 2 ^ (W - 1) <= n.toNat := lt_size.mp (by omega)
  have half : n.toNat / 2 ^ 1 / d.toNat = 0 :=
    div_eq_of_lt (lt_of_lt_of_le (div_two_pow_lt_two_pow n (by omega)) top)
  have whole := div_two_pow_eq_window n.toNat d.toNat 0
  rw [Nat.zero_add, half, Nat.mul_zero, Nat.zero_add, Nat.pow_zero, Nat.div_one] at whole
  rw [final, <- whole]
  exact dividend

theorem reachedMask_eq (inv : Invariant n d (t + 1) carry sr r q) (within : t + 1 <= W)
    (pos : 0 < d.toNat) (aligned : t + d.toNat.size <= n.toNat.size) :
    reachedMask d r q = if d.toNat <= window n.toNat d.toNat t then allOnes W else 0 := by
  have width : 2 ^ W = 2 * 2 ^ (W - 1) := two_pow_eq_double (by omega)
  have value := inv.shifted_toNat within
  have minusOne := toNat_add_neg_one (by omega : 0 < W) pos
  have shiftedBound := (shifted r q).isLt
  have divisorBound := d.isLt
  have windowBound := window_lt (x := n.toNat) (t := t) pos
  have large := fun top => large_window (n := n) (t := t) (d := d) top (by omega) aligned
  have comparison : (d + -1 - shifted r q).msb = decide (d.toNat <= window n.toNat d.toNat t) := by
    rw [msb_sub_eq (by omega) (by omega) (by omega), decide_eq_decide]
    omega
  rw [reachedMask, sshiftRight_sign, comparison]
  exact ite_congr (decide_eq_true_eq) (fun _ => rfl) (fun _ => rfl)

/-- A round finds one bit of the quotient. -/
theorem Invariant.round (inv : Invariant n d (t + 1) carry sr r q) (within : t + 1 <= W)
    (pos : 0 < d.toNat) (aligned : t + d.toNat.size <= n.toNat.size) :
    Invariant n d t (reachedMask d r q &&& 1) (sr + -1)
      (shifted r q - (reachedMask d r q &&& d)) (carry ||| (q <<< 1)) := by
  have one : (1#W).toNat = 1 := mod_eq_of_lt (Nat.one_lt_two_pow (by omega))
  have value := inv.shifted_toNat within
  have count : (sr + -1).toNat = t := by
    rw [toNat_add_neg_one (by omega) (by rw [inv.count]; omega), inv.count, Nat.add_sub_cancel]
  have quot := inv.quotient_toNat within
  rw [reachedMask_eq inv within pos aligned]
  by_cases reached : d.toNat <= window n.toNat d.toNat t
  · rcases step_reached reached pos with ⟨next, remainder⟩
    rw [if_pos reached, allOnes_and, allOnes_and]
    refine ⟨count, ?_, ?_, ?_⟩
    · rw [toNat_sub_of_le (le_def.mpr (value.symm ▸ reached)), value, remainder]
    · rw [next, ofNat_eq_ofNat, one]
      omega
    · rw [quot, next]
      omega
  · rcases step_below (Nat.lt_of_not_le reached) with ⟨next, remainder⟩
    rw [if_neg reached, ofNat_eq_ofNat, BitVec.zero_and, BitVec.zero_and, BitVec.sub_zero]
    refine ⟨count, value.trans remainder.symm, ?_, ?_⟩
    · rw [next, toNat_ofNat, zero_mod]
      omega
    · rw [quot, next]
      omega

end Round

end IntegerDivision
end LlvmProject
