import Mathlib.Logic.Function.Basic

namespace LlvmProject
namespace DoWhile

/-!
# Do-while loops

A loop runs its body, tests the state the body leaves and runs again while the
test succeeds.  The bound on the number of rounds makes the definition total;
a run that needs more rounds has no result.  The rule below establishes a
result for every sufficient bound, together with the invariant and the
negated test.  The invariant need not hold before the first round.
-/

variable {State : Type*}

/-- The state after the last round, if there are at most `fuel` of them. -/
def doWhile (body : State -> State) (again : State -> Bool) : Nat -> State -> Option State
  | 0, _ => none
  | fuel + 1, state =>
    if again (body state) then doWhile body again fuel (body state) else some (body state)

/-- Total correctness.  The first round establishes the invariant, and every
further round keeps it and lowers the measure. -/
theorem doWhile_terminates {body : State -> State} {again : State -> Bool} (inv : State -> Prop)
    (measure : State -> Nat) (kept : ∀ state, inv state -> again state = true -> inv (body state) ∧
    measure (body state) < measure state) {fuel : Nat} {state : State} (entered : inv (body state))
    (enough : measure (body state) < fuel) :
    ∃ final, doWhile body again fuel state = some final ∧ inv final ∧ again final = false := by
  induction fuel generalizing state with
  | zero => exact absurd enough (Nat.not_lt_zero _)
  | succ fuel ih =>
    rw [doWhile]
    cases tested : again (body state) with
    | false => exact ⟨body state, rfl, entered, tested⟩
    | true =>
      rcases kept (body state) entered tested with ⟨next, lower⟩
      exact ih next (by omega)

end DoWhile
end LlvmProject
