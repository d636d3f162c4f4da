import LlvmProject.APInt.Truncation
import LlvmProject.Transforms.IntegerDivisionLoop

namespace LlvmProject

open BitVec hiding zero_mul
open Nat

namespace IntegerDivision

/-!
# Runs of expanded divisions

The loop ends when no bit of the dividend is left, so it takes as many rounds
as it enters with.  The unsigned division returns to the code after it with
the quotient, whatever that code is; the entry points are its instances.
-/

open IR RestoringDivision

variable {W : Nat}

section Runs

open UnsignedDivision

variable {Dividend Divisor : Operand Register W} {env : Env Register W} {n d : BitVec W}
  {before after : Code W} {result : Operand Register W} {value : Value W}

/-- The last shift joins the quotient. -/
theorem Invariant.finish {carry sr r q : BitVec W} (inv : Invariant n d 0 carry sr r q) :
    carry ||| (q <<< 1) = n / d := by
  have bound := (n / d).isLt
  have last := inv.last
  have rest := inv.rest
  rw [pow_zero, Nat.div_one] at last rest
  rw [mod_one, zero_mul, zero_add] at rest
  rw [toNat_udiv] at bound
  have left : (q <<< 1).toNat = 2 * (n.toNat / d.toNat / 2) := by
    rw [toNat_shiftLeft, Nat.shiftLeft_eq, rest, pow_one, mul_comm]
    exact mod_eq_of_lt (by omega)
  apply eq_of_toNat_eq
  rw [toNat_or, left, last, Nat.or_comm,
    or_bit_eq_add (mul_mod_right 2 _) (mod_lt _ two_pos), div_add_mod, toNat_udiv]

/-- From the head of the loop, by induction on the bits left. -/
theorem doWhile_returns (divisorOutside : Outside Divisor) (wide : 1 < W) (divisorPositive : 0 <
    d.toNat) {t : Nat} (within : t + 1 <= W) (aligned : t + d.toNat.size <= n.toNat.size) {prev :
    Label} {carry sr r q : BitVec W} (divisorIs : Divisor.value env = .int d) (tmp4Is : env
    (.unsignedDivision Tmp4) = .int (d + -1)) (enters : Enters prev env carry sr r q) (inv :
    Invariant n d (t + 1) carry sr r q) (continuation : ∀ env', Frame env env' -> env'
    (.unsignedDivision Q_4) = .int (n / d) -> (generateUnsignedDivisionCode Dividend Divisor before
    after result).Returns .LoopExit .End env' value) :
    (generateUnsignedDivisionCode Dividend Divisor before after result).Returns prev .DoWhile
      env value := by
  induction t generalizing prev env carry sr r q with
  | zero =>
    rcases doWhile_run divisorOutside divisorIs wide prev enters tmp4Is with
      ⟨env', ran, frame, _, entersNext⟩
    have next := inv.round within divisorPositive aligned
    have zero : sr + -1 = 0#W := eq_of_toNat_eq (next.count.trans rfl)
    rw [if_pos zero] at ran
    have carryIs := entersNext.carry
    have quotientIs := entersNext.q
    rcases loopExit_run wide carryIs quotientIs with ⟨final, exited, exitFrame, q4Is⟩
    refine .jump ran (.jump exited (continuation final (frame.trans exitFrame) ?_))
    rw [q4Is, next.finish]
  | succ t ih =>
    rcases doWhile_run divisorOutside divisorIs wide prev enters tmp4Is with
      ⟨env', ran, frame, tmp4Next, entersNext⟩
    have next := inv.round within divisorPositive aligned
    have nonzero : sr + -1 ≠ 0#W := by
      intro zero
      have count := next.count
      rw [zero] at count
      cases count
    rw [if_neg nonzero] at ran
    refine .jump ran (ih (le_of_succ_le within) (by omega)
      ((frame.value divisorOutside).trans divisorIs) tmp4Next entersNext next
      fun final finalFrame => continuation final (frame.trans finalFrame))

/-- The values that enter the loop. -/
theorem invariant_start {e : Nat} {sr : BitVec W} (divisorPositive : 0 < d.toNat)
    (srIs : sr.toNat = e) (within : e + 1 < W) (aligned : n.toNat.size = e + d.toNat.size) :
    Invariant n d (e + 1) 0 (sr + 1) (n >>> (e + 1)) (n <<< (W - (e + 1))) := by
  have one : (1#W).toNat = 1 := mod_eq_of_lt (Nat.one_lt_two_pow (by omega))
  have below : n.toNat / 2 ^ (e + 1) < d.toNat :=
    div_two_pow_lt (Nat.ne_of_gt divisorPositive) (by omega)
  have found : n.toNat / 2 ^ (e + 1) / d.toNat = 0 := div_eq_of_lt below
  have wide : W < 2 ^ W := Nat.lt_two_pow_self
  refine ⟨?_, ?_, ?_, ?_⟩
  · rw [toNat_add, srIs, ofNat_eq_ofNat, one, mod_eq_of_lt (by omega)]
  · rw [toNat_ushiftRight, shiftRight_eq_div_pow, mod_eq_of_lt below]
  · rw [found, ofNat_eq_ofNat, toNat_ofNat]
    exact zero_mod _
  · have width : 2 ^ W = 2 ^ (e + 1) * 2 ^ (W - (e + 1)) := by
      rw [<- pow_add, Nat.add_sub_cancel' within.le]
    rw [found, Nat.zero_div, toNat_shiftLeft, Nat.shiftLeft_eq, width, mul_mod_mul_right]
    exact (add_zero _).symm

/-- The difference of the leading zeros, in terms of the lengths. -/
theorem toNat_leadingZeros_sub (dividend : n ≠ 0#W) (divisor : d ≠ 0#W) :
    (BitVec.ofNat W (W - d.toNat.size) - BitVec.ofNat W (W - n.toNat.size)).toNat =
      if d.toNat.size <= n.toNat.size then n.toNat.size - d.toNat.size
      else 2 ^ W - (d.toNat.size - n.toNat.size) := by
  have pos {x : BitVec W} (nonzero : x ≠ 0#W) : 0 < x.toNat.size :=
    Nat.size_pos.mpr (pos_of_ne_zero fun zero => nonzero (eq_of_toNat_eq zero))
  have dividendPositive := pos dividend
  have divisorPositive := pos divisor
  have dividendSize : n.toNat.size <= W := size_le.mpr n.isLt
  have divisorSize : d.toNat.size <= W := size_le.mpr d.isLt
  have wide : W < 2 ^ W := Nat.lt_two_pow_self
  have first : (BitVec.ofNat W (W - d.toNat.size)).toNat = W - d.toNat.size :=
    mod_eq_of_lt (by omega)
  have second : (BitVec.ofNat W (W - n.toNat.size)).toNat = W - n.toNat.size :=
    mod_eq_of_lt (by omega)
  rw [toNat_sub, first, second]
  by_cases le : d.toNat.size <= n.toNat.size
  · rw [if_pos le, mod_eq_sub_mod (by omega), mod_eq_of_lt (by omega)]
    omega
  · rw [if_neg le, mod_eq_of_lt (by omega)]
    omega

theorem udiv_eq_zero_of_size_lt (less : n.toNat.size < d.toNat.size) : n / d = 0#W := by
  apply eq_of_toNat_eq
  have below : n.toNat < d.toNat := by
    by_contra reached
    exact absurd (size_le_size (Nat.le_of_not_lt reached)) (Nat.not_le_of_lt less)
  rw [toNat_udiv, div_eq_of_lt below]
  rfl

theorem udiv_eq_self_of_size_one (one : d.toNat.size = 1) : n / d = n := by
  have upper : d.toNat < 2 ^ 1 := size_le.mp (le_of_eq one)
  have lower : 2 ^ 0 <= d.toNat := Nat.lt_size.mp (by omega)
  have unit : d.toNat = 1 := by omega
  apply eq_of_toNat_eq
  rw [toNat_udiv, unit, Nat.div_one]

/-- The blocks before the loop.  The loop is never skipped. -/
theorem bb1_returns (dividendOutside : Outside Dividend) (divisorOutside : Outside Divisor)
    (dividendIs : Dividend.value env = .int n) (divisorIs : Divisor.value env = .int d)
    (divisorPositive : 0 < d.toNat) {sr : BitVec W} {e : Nat} (srIs : env (.unsignedDivision SR) =
    .int sr) (difference : sr.toNat = e) (within : e + 1 < W) (aligned : n.toNat.size = e +
    d.toNat.size) (continuation : ∀ env', Frame env env' -> env' (.unsignedDivision Q_4) = .int (n /
    d) -> (generateUnsignedDivisionCode Dividend Divisor before after result).Returns .LoopExit .End
    env' value) :
    (generateUnsignedDivisionCode Dividend Divisor before after result).Returns .SpecialCases .BB1
      env value := by
  have bits : W < 2 ^ W := Nat.lt_two_pow_self
  have msb : (BitVec.ofNat W (W - 1)).toNat = W - 1 := mod_eq_of_lt (by omega)
  have start := invariant_start (n := n) divisorPositive difference within aligned
  have shiftIs : (BitVec.ofNat W (W - 1) - sr).toNat = W - (e + 1) := by
    rw [toNat_sub_of_le (le_def.mpr (by omega)), msb, difference]
    omega
  rcases bb1_run dividendOutside dividendIs .SpecialCases srIs rfl (by omega) with
    ⟨env1, stepped1, frame1, sr1Is, qIs⟩
  have nonzero : sr + 1 ≠ 0#W := by
    intro zero
    have count := start.count
    rw [zero] at count
    cases count
  rw [if_neg nonzero] at stepped1
  rcases preheader_run divisorOutside ((frame1.value dividendOutside).trans dividendIs)
    ((frame1.value divisorOutside).trans divisorIs) .BB1 sr1Is (by rw [start.count]; omega) with
    ⟨env2, stepped2, frame2, sr2Is, q2Is, tmp3Is, tmp4Is⟩
  have frame := frame1.trans frame2
  rw [start.count] at tmp3Is
  rw [qIs, shiftIs] at q2Is
  refine .jump stepped1 (.jump stepped2 ?_)
  exact doWhile_returns divisorOutside (by omega) divisorPositive within.le (by omega)
    ((frame.value divisorOutside).trans divisorIs) tmp4Is ⟨rfl, sr2Is, tmp3Is, q2Is⟩ start
    fun final finalFrame q4Is => continuation final (frame.trans finalFrame) q4Is

theorem unsignedDivision_returns (wide : 0 < W) (dividendOutside : Outside Dividend) (divisorOutside
    : Outside Divisor) {start : Env Register W} (prev : Label) (ran : execute start before = some
    env) (dividendIs : Dividend.value env = .int n) (divisorIs : Divisor.value env = .int d)
    (divisor : d ≠ 0#W) (continuation : ∀ env', Frame env env' -> env' (.unsignedDivision Q_5) =
    .int (n / d) -> ∃ final, execute env' after = some final ∧ result.value final = value) :
    (generateUnsignedDivisionCode Dividend Divisor before after result).Returns prev
      .SpecialCases start value := by
  have finish : ∀ (source : Label) (env' : Env Register W), Frame env env' ->
      incoming source env' [(.LoopExit, Q_4), (.SpecialCases, RetVal)] = .int (n / d) ->
      (generateUnsignedDivisionCode Dividend Divisor before after result).Returns source .End env'
        value := by
    intro source env' frame quotientIs
    rcases continuation _ (frame.update Q_5 (.int (n / d))) (Function.update_self ..) with
      ⟨final, executed, resultIs⟩
    apply Function.Returns.result
    simp [generateUnsignedDivisionCode, endBlock, Block.run, enter, quotientIs, executed,
      Terminator.follow, resultIs]
  by_cases dividend : n = 0#W
  · rcases specialCases_zero dividendOutside divisorOutside dividendIs divisorIs before prev start
      ran divisor dividend with ⟨env', stepped, frame, retVal⟩
    refine .jump stepped (finish .SpecialCases env' frame ?_)
    rw [dividend, zero_udiv]
    exact retVal
  · rcases specialCases_nonzero dividendOutside divisorOutside dividendIs divisorIs before prev
      start ran dividend divisor rfl with ⟨env', stepped, frame, srIs, retVal⟩
    have difference := toNat_leadingZeros_sub dividend divisor
    generalize BitVec.ofNat W (W - d.toNat.size) - BitVec.ofNat W (W - n.toNat.size) = sr at *
    have divisorPositive : 0 < d.toNat := pos_of_ne_zero fun zero => divisor (eq_of_toNat_eq zero)
    have divisorLength : 0 < d.toNat.size := Nat.size_pos.mpr divisorPositive
    have dividendSize : n.toNat.size <= W := size_le.mpr n.isLt
    have divisorSize : d.toNat.size <= W := size_le.mpr d.isLt
    have bits : W < 2 ^ W := Nat.lt_two_pow_self
    have half : W - 1 < 2 ^ (W - 1) := Nat.lt_two_pow_self
    have double : 2 ^ W = 2 * 2 ^ (W - 1) := two_pow_eq_double (by omega)
    have msb : (BitVec.ofNat W (W - 1)).toNat = W - 1 := mod_eq_of_lt (by omega)
    by_cases le : d.toNat.size <= n.toNat.size
    · rw [if_pos le] at difference
      have notLess : ¬ BitVec.ofNat W (W - 1) < sr := by
        rw [lt_def, msb, difference]
        omega
      rw [if_neg notLess] at retVal
      by_cases last : sr = BitVec.ofNat W (W - 1)
      · rw [if_pos (.inr last)] at stepped
        refine .jump stepped (finish .SpecialCases env' frame ?_)
        rw [last, msb] at difference
        rw [udiv_eq_self_of_size_one (by omega)]
        exact retVal
      · rw [if_neg (not_or.mpr ⟨notLess, last⟩)] at stepped
        have ne : sr.toNat ≠ W - 1 := fun same =>
          last (eq_of_toNat_eq (same.trans msb.symm))
        have inner : n.toNat.size - d.toNat.size + 1 < W := by omega
        refine .jump stepped ?_
        exact bb1_returns dividendOutside divisorOutside
          ((frame.value dividendOutside).trans dividendIs)
          ((frame.value divisorOutside).trans divisorIs) divisorPositive srIs difference inner
          (by omega) fun final finalFrame q4Is => finish .LoopExit final (frame.trans finalFrame) q4Is
    · rw [if_neg le] at difference
      have less : BitVec.ofNat W (W - 1) < sr := by
        rw [lt_def, msb, difference]
        omega
      rw [if_pos (.inl less)] at stepped
      rw [if_pos less] at retVal
      refine .jump stepped (finish .SpecialCases env' frame ?_)
      rw [udiv_eq_zero_of_size_lt (Nat.lt_of_not_le le)]
      exact retVal

end Runs

/-! ## Signs -/

section Signs

/-- A number negated if the truth value says so. -/
def signed (neg : Bool) (x : BitVec W) : BitVec W := if neg then -x else x

/-- All ones or zero. -/
def mask (W : Nat) (neg : Bool) : BitVec W := if neg then allOnes W else 0

theorem xor_mask_sub_mask (neg : Bool) (x : BitVec W) :
    (x ^^^ mask W neg) - mask W neg = signed neg x := by
  cases neg with
  | false => exact (sub_zero _).trans xor_zero
  | true =>
    have inverted : x ^^^ allOnes W = ~~~x := xor_allOnes
    have complement : ~~~x - allOnes W = -x := by
      rw [neg_eq_not_add, <- neg_one_eq_allOnes, sub_eq_add_neg, neg_neg]
    exact (congrArg (· - allOnes W) inverted).trans complement

theorem mask_xor_mask (left right : Bool) :
    mask W left ^^^ mask W right = mask W (left ^^ right) := by
  cases left <;> cases right <;> simp [mask]

theorem sdiv_eq_signed (n d : BitVec W) :
    n.sdiv d = signed (d.msb ^^ n.msb) (signed n.msb n / signed d.msb d) := by
  rw [sdiv]
  cases n.msb <;> cases d.msb <;> rfl

theorem srem_eq_signed (n d : BitVec W) :
    n.srem d = signed n.msb (signed n.msb n % signed d.msb d) := by
  rw [srem]
  cases n.msb <;> cases d.msb <;> rfl

theorem signed_ne_zero {x : BitVec W} (neg : Bool) (nonzero : x ≠ 0#W) : signed neg x ≠ 0#W := by
  cases neg with
  | false => exact nonzero
  | true => exact fun zero => nonzero (neg_eq_zero_iff.mp zero)

end Signs

/-! ## The entry points -/

section EntryPoints

variable {n d : BitVec W}

/-- What an operation computes, as a statement about integers. -/
def IsExact (n d q : BitVec W) : BinaryOp -> Prop
  | .UDiv => q.toNat = n.toNat / d.toNat
  | .URem => q.toNat = n.toNat % d.toNat
  | .SDiv => q.toInt = n.toInt.tdiv d.toInt
  | .SRem => q.toInt = n.toInt.tmod d.toInt
  | _ => False

variable {env env' : Env Register W}

section

variable (frame : Frame env env')
include frame

theorem Frame.signedDivision
    (name : SignedDivision) : env' (.signedDivision name) = env (.signedDivision name) :=
  frame _ fun _ => Register.noConfusion

theorem Frame.signedRemainder
    (name : SignedRemainder) : env' (.signedRemainder name) = env (.signedRemainder name) :=
  frame _ fun _ => Register.noConfusion

theorem Frame.dividend : env' .Dividend = env .Dividend := frame _ fun _ => Register.noConfusion

theorem Frame.divisor : env' .Divisor = env .Divisor := frame _ fun _ => Register.noConfusion

end

theorem ashr_sign (wide : 0 < W) (x : BitVec W) :
    BinaryOp.AShr.ints x (BitVec.ofNat W (W - 1)) = some (mask W x.msb) := by
  have bits : W < 2 ^ W := Nat.lt_two_pow_self
  have msb : (BitVec.ofNat W (W - 1)).toNat = W - 1 := mod_eq_of_lt (by omega)
  rw [BinaryOp.ints, msb, if_pos (by omega), sshiftRight_sign, mask]

theorem sub_mul_udiv (x y : BitVec W) : x - y * (x / y) = x % y := by
  rw [sub_eq_iff_eq_add, add_comm, mul_comm]
  exact (APInt.udiv_mul_add_umod x y).symm

theorem divisionCode_UDiv (wide : 0 < W) (divisor : d ≠ 0#W) :
    ∃ function, divisionCode W .UDiv = .ok function ∧ ∀ prev,
      function.Returns prev function.entry (operands n d) (.int (n / d)) := by
  refine ⟨_, rfl, fun prev => ?_⟩
  refine unsignedDivision_returns wide (by intro; nofun) (by intro; nofun) prev rfl rfl rfl
    divisor fun env' frame quotientIs => ⟨env', rfl, ?_⟩
  exact quotientIs

theorem divisionCode_SDiv (wide : 0 < W) (divisor : d ≠ 0#W) :
    ∃ function, divisionCode W .SDiv = .ok function ∧ ∀ prev,
      function.Returns prev function.entry (operands n d) (.int (n.sdiv d)) := by
  refine ⟨_, rfl, fun prev => ?_⟩
  refine unsignedDivision_returns (n := signed n.msb n) (d := signed d.msb d) wide
    (by intro; nofun) (by intro; nofun) prev (?ran : _ = some ?env) ?dividendIs ?divisorIs
    (signed_ne_zero _ divisor) fun env' frame quotientIs => ⟨?final, ?executed, ?result⟩
  case ran =>
    simp [execute, Instruction.value, operands, ashr_sign wide]
    rfl
  case dividendIs => simp [BitVec.xor_comm (mask W n.msb), xor_mask_sub_mask]
  case divisorIs => simp [BitVec.xor_comm (mask W d.msb), xor_mask_sub_mask]
  case executed =>
    simp [replaceUsesAfter, replaceUses, replaceOperand, execute, Instruction.value, quotientIs,
      frame.signedDivision]
    rfl
  case result =>
    simp [replaceOperand, sdiv_eq_signed, mask_xor_mask, xor_mask_sub_mask]

theorem remainderCode_URem (wide : 0 < W) (divisor : d ≠ 0#W) :
    ∃ function, remainderCode W .URem = .ok function ∧ ∀ prev,
      function.Returns prev function.entry (operands n d) (.int (n % d)) := by
  refine ⟨_, rfl, fun prev => ?_⟩
  refine unsignedDivision_returns wide (by intro; nofun) (by intro; nofun) prev rfl rfl rfl
    divisor fun env' frame quotientIs => ⟨?final, ?executed, ?result⟩
  case executed =>
    simp [replaceUsesAfter, replaceUses, replaceOperand, execute, Instruction.value, quotientIs,
      frame.dividend, frame.divisor, operands]
    rfl
  case result => simp [generatedUnsignedRemainderCode, replaceOperand, sub_mul_udiv]

theorem remainderCode_SRem (wide : 0 < W) (divisor : d ≠ 0#W) :
    ∃ function, remainderCode W .SRem = .ok function ∧ ∀ prev,
      function.Returns prev function.entry (operands n d) (.int (n.srem d)) := by
  refine ⟨_, rfl, fun prev => ?_⟩
  refine unsignedDivision_returns (n := signed n.msb n) (d := signed d.msb d) wide
    (by intro; nofun) (by intro; nofun) prev (?ran : _ = some ?env) ?dividendIs ?divisorIs
    (signed_ne_zero _ divisor) fun env' frame quotientIs => ⟨?final, ?executed, ?result⟩
  case ran =>
    simp [execute, Instruction.value, operands, ashr_sign wide]
    rfl
  case dividendIs => simp [xor_mask_sub_mask]
  case divisorIs => simp [xor_mask_sub_mask]
  case executed =>
    simp [replaceUsesAfter, replaceUses, replaceOperand, execute, Instruction.value, quotientIs,
      frame.signedRemainder]
    rfl
  case result => simp [replaceOperand, srem_eq_signed, xor_mask_sub_mask, sub_mul_udiv]

/-- The code an operation expands to at any width. -/
def expansionCode (W : Nat) : BinaryOp -> Except String (IR.Function Label Register W)
  | .URem => remainderCode W .URem
  | .SRem => remainderCode W .SRem
  | opcode => divisionCode W opcode

/-- The entry point of an operation. -/
def expand (W : Nat) : BinaryOp -> Except String (IR.Function Label Register W)
  | .URem => expandRemainder W .URem
  | .SRem => expandRemainder W .SRem
  | opcode => expandDivision W opcode

theorem expand_eq (supported : W = 32 ∨ W = 64) (opcode : BinaryOp) :
    expand W opcode = expansionCode W opcode := by
  have accepted : ¬ (W ≠ 32 ∧ W ≠ 64) := by omega
  cases opcode <;> exact if_neg accepted

/-- Expanded divisions are exact.  The entry points emit the code for 32 and
64 bits.  At every positive width the code returns a value that is defined, so
it shifts by less than the width throughout and uses no leading zeros of zero;
the value is the quotient truncated toward zero, or the remainder with the
sign of the dividend. -/
theorem expand_exact {W : Nat} (wide : 0 < W) {opcode : BinaryOp}
    (division : opcode ∈ [BinaryOp.UDiv, .SDiv, .URem, .SRem]) {n d : BitVec W} (divisor : d ≠ 0#W)
    (noOverflow : opcode ∈ [BinaryOp.SDiv, .SRem] -> ¬ (n = intMin W ∧ d = -1)) :
    (W = 32 ∨ W = 64 -> expand W opcode = expansionCode W opcode) ∧
      ∃ function, expansionCode W opcode = .ok function ∧
        ∃ q, IsExact n d q opcode ∧
          ∀ prev, function.Returns prev function.entry (operands n d) (.int q) := by
  refine ⟨fun supported => expand_eq supported opcode, ?_⟩
  simp only [List.mem_cons, List.not_mem_nil, or_false] at division noOverflow
  rcases division with rfl | rfl | rfl | rfl
  · rcases divisionCode_UDiv (n := n) wide divisor with ⟨function, generated, returned⟩
    exact ⟨function, generated, n / d, toNat_udiv, returned⟩
  · rcases divisionCode_SDiv (n := n) wide divisor with ⟨function, generated, returned⟩
    refine ⟨function, generated, n.sdiv d, ?_, returned⟩
    exact toInt_sdiv_of_ne_or_ne n d (not_and_or.mp (noOverflow (.inl rfl)))
  · rcases remainderCode_URem (n := n) wide divisor with ⟨function, generated, returned⟩
    exact ⟨function, generated, n % d, toNat_umod, returned⟩
  · rcases remainderCode_SRem (n := n) wide divisor with ⟨function, generated, returned⟩
    exact ⟨function, generated, n.srem d, toInt_srem n d, returned⟩

/-- The most negative number by three. -/
theorem expand_exact_intMin :
    (32 = 32 ∨ 32 = 64 -> expand 32 .SRem = expansionCode 32 .SRem) ∧
      ∃ function, expansionCode 32 .SRem = .ok function ∧
        ∃ q, IsExact (intMin 32) 3 q .SRem ∧
          ∀ prev, function.Returns prev function.entry (operands (intMin 32) 3) (.int q) :=
  expand_exact (by decide) (by decide) (by decide) (fun _ => by decide)

end EntryPoints

end IntegerDivision
end LlvmProject
