import LlvmProject.APInt.Truncation

namespace LlvmProject

open BitVec
namespace APInt

/-!
# Multiplicative inverses

Euclid's algorithm keeps two remainders and, for each, a coefficient: the
multiple of the argument that is congruent to the remainder.  The coefficients
are registers of the width of the argument, so they are exact modulo every
power of two of at most that width.  A modulus that such a power divides is
what the congruence needs; the sign test at the end adds a multiple of it.
-/

variable {V W : Nat}

/-- The loop of `multiplicativeInverse`: the last remainder that is not zero
and its coefficient. -/
def inverseLoop (r r' t t' : BitVec W) : BitVec W × BitVec W :=
  if r' = 0 then (r, t)
  else inverseLoop r' (r % r') t' (t - t' * (r / r'))
termination_by r'.toNat
decreasing_by
  rename_i unfinished
  rw [toNat_umod]
  exact Nat.mod_lt _ (Nat.pos_of_ne_zero fun zero => unfinished (eq_of_toNat_eq zero))

/-- Computes the multiplicative inverse of `a` for a given modulo, zero if
there is none. -/
def multiplicativeInverse (a modulo : BitVec W) : Except String (BitVec W) :=
  if a < modulo then
    let last := inverseLoop modulo a 0 1
    if last.1 ≠ 1 then .ok 0
    else if last.2.msb then .ok (last.2 + modulo)
    else .ok last.2
  else .error "This APInt must be smaller than the modulo"

/-- A coefficient times the argument is the remainder, in the lowest bits. -/
def IsCoefficient (V : Nat) (a r t : BitVec W) : Prop := t.setWidth V * a.setWidth V = r.setWidth V

theorem IsCoefficient.step {a r r' t t' : BitVec W} (narrow : V <= W)
    (first : IsCoefficient V a r t) (second : IsCoefficient V a r' t') :
    IsCoefficient V a (r % r') (t - t' * (r / r')) := by
  have rem : r % r' = r - r' * (r / r') := by
    rw [eq_sub_iff_add_eq, add_comm, mul_comm]
    exact udiv_mul_add_umod r r'
  rw [IsCoefficient] at first second ⊢
  rw [rem, setWidth_sub_mul narrow, setWidth_sub_mul narrow, sub_mul, first, <- second]
  ring

theorem inverseLoop_isCoefficient {a : BitVec W} (narrow : V <= W) (r r' t t' : BitVec W)
    (first : IsCoefficient V a r t) (second : IsCoefficient V a r' t') :
    IsCoefficient V a (inverseLoop r r' t t').1 (inverseLoop r r' t t').2 := by
  fun_induction inverseLoop with
  | case1 r t t' => exact first
  | case2 r r' t t' unfinished ih =>
    exact ih second (first.step narrow second)

/-- The last remainder is the greatest common divisor. -/
theorem toNat_inverseLoop (r r' t t' : BitVec W) :
    (inverseLoop r r' t t').1.toNat = r.toNat.gcd r'.toNat := by
  fun_induction inverseLoop with
  | case1 r t t' => exact (Nat.gcd_zero_right r.toNat).symm
  | case2 r r' t t' unfinished ih =>
    rw [ih, toNat_umod, Nat.gcd_comm, <- Nat.gcd_rec, Nat.gcd_comm]

/-- The inverse of an argument without a common divisor, in the lowest bits
in which the modulo is zero. -/
theorem multiplicativeInverse_spec {a modulo : BitVec W} (wide : 1 < W) (narrow : V <= W) (below : a
    < modulo) (divides : modulo.setWidth V = 0) (coprime : modulo.toNat.gcd a.toNat = 1) :
    ∃ inverse, multiplicativeInverse a modulo = .ok inverse ∧
      inverse.setWidth V * a.setWidth V = 1 := by
  have last : (inverseLoop modulo a 0 1).1 = 1 := by
    apply eq_of_toNat_eq
    rw [toNat_inverseLoop, coprime]
    exact (Nat.mod_eq_of_lt (Nat.one_lt_two_pow (by omega))).symm
  have first : IsCoefficient V a modulo 0 := by
    rw [IsCoefficient, divides, ofNat_eq_ofNat, setWidth_zero]
    exact zero_mul _
  have second : IsCoefficient V a a 1 := by
    rw [IsCoefficient]
    exact (congrArg (· * a.setWidth V) (map_one (truncation narrow))).trans (one_mul _)
  have coefficient : IsCoefficient V a _ _ :=
    inverseLoop_isCoefficient narrow modulo a 0 1 first second
  rw [IsCoefficient, last] at coefficient
  have unit : (inverseLoop modulo a 0 1).2.setWidth V * a.setWidth V = 1 :=
    coefficient.trans (map_one (truncation narrow))
  rw [multiplicativeInverse, if_pos below, if_neg (not_not_intro last)]
  by_cases neg : (inverseLoop modulo a 0 1).2.msb
  · rw [if_pos neg]
    refine ⟨_, rfl, ?_⟩
    rw [setWidth_add _ _ narrow, divides]
    exact (congrArg (· * a.setWidth V) (add_zero _)).trans unit
  · rw [if_neg neg]
    exact ⟨_, rfl, unit⟩

theorem multiplicativeInverse_zero {modulo : BitVec W} (pos : 0 < modulo) :
    multiplicativeInverse 0 modulo = .ok 0 := by
  rw [multiplicativeInverse, if_pos pos, inverseLoop, if_pos rfl]
  by_cases one : modulo = 1
  · rw [if_neg (not_not_intro one), if_neg (by rw [ofNat_eq_ofNat, msb_zero]; decide)]
  · rw [if_pos one]

end APInt
end LlvmProject
