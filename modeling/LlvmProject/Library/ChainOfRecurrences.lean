import Mathlib.Algebra.Group.Nat.Hom
import Mathlib.Data.Nat.Choose.Basic

namespace LlvmProject
namespace ChainOfRecurrences

/-!
# Chains of recurrences

A chain is a list of values of which the first is the one observed.  One step
adds to every element its successor; the last element stays.  After `n` steps
the first element is the sum of the original ones, each as often as the
binomial coefficient of `n` and its index says.
-/

variable {α : Type*} [AddCommMonoid α]

/-- One step of a chain. -/
def advance : List α -> List α
  | [] => []
  | a :: rest => (a + rest.headD 0) :: advance rest

/-- The value observed after a number of steps. -/
def value (n : Nat) (chain : List α) : α := (advance^[n] chain).headD 0

/-- The elements of a chain, weighted by the binomial coefficients of `n` from
the index `i` on. -/
def binomialSum (n : Nat) : Nat -> List α -> α
  | _, [] => 0
  | i, a :: rest => n.choose i • a + binomialSum n (i + 1) rest

theorem binomialSum_zero (i : Nat) (chain : List α) : binomialSum 0 (i + 1) chain = 0 := by
  induction chain generalizing i with
  | nil => rfl
  | cons a rest ih =>
    rw [binomialSum, Nat.choose_zero_succ, zero_nsmul, zero_add, ih]

/-- Pascal's rule for the weights after the first. -/
private theorem binomialSum_succ (n i : Nat) (chain : List α) :
    binomialSum (n + 1) (i + 1) chain =
      n.choose i • chain.headD 0 + binomialSum n (i + 1) (advance chain) := by
  induction chain generalizing i with
  | nil => rw [binomialSum, advance, binomialSum, List.headD_nil, nsmul_zero, add_zero]
  | cons a rest ih =>
    rw [binomialSum, ih, advance, binomialSum, List.headD_cons,
      Nat.choose_succ_succ', add_nsmul, nsmul_add, add_assoc, add_assoc, add_assoc]

theorem binomialSum_advance (n : Nat) (chain : List α) :
    binomialSum n 0 (advance chain) = binomialSum (n + 1) 0 chain := by
  cases chain with
  | nil => rfl
  | cons a rest =>
    rw [advance, binomialSum, binomialSum, binomialSum_succ, Nat.choose_zero_right,
      Nat.choose_zero_right, one_nsmul, one_nsmul, one_nsmul, add_assoc]

/-- The closed form. -/
theorem value_eq_binomialSum (n : Nat) (chain : List α) : value n chain = binomialSum n 0 chain := by
  induction n generalizing chain with
  | zero =>
    cases chain with
    | nil => rfl
    | cons a rest =>
      rw [binomialSum, binomialSum_zero, Nat.choose_zero_right, one_nsmul, add_zero]
      rfl
  | succ n ih =>
    rw [<- binomialSum_advance, <- ih]
    rfl

theorem binomialSum_take_add_drop (n i m : Nat) (chain : List α) :
    binomialSum n i (chain.take m) + binomialSum n (i + m) (chain.drop m) =
      binomialSum n i chain := by
  induction m generalizing i chain with
  | zero => rw [List.take_zero, List.drop_zero, binomialSum, zero_add, add_zero]
  | succ m ih =>
    cases chain with
    | nil => exact zero_add _
    | cons a rest =>
      have shifted := ih (i + 1) rest
      rw [add_right_comm] at shifted
      rw [List.take_succ_cons, List.drop_succ_cons, binomialSum, binomialSum, <- shifted,
        <- add_assoc, add_assoc]

end ChainOfRecurrences
end LlvmProject
