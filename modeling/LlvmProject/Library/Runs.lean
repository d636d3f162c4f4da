import Mathlib.Logic.Function.Basic

namespace LlvmProject
namespace Runs

/-!
# Runs of a checked step function

A component is given here by a step function that may refuse an operation:
`none` stands for a failed run-time check, after which the program does not
continue.  A run is the left fold of such a step over a list of operations.

Two rules are enough for the developments above this module.  An invariant
that every admitted step keeps holds after every run, and a relation between
the states of two components that every pair of steps keeps holds after
running both on the same operations.  The second component is total, and may
restrict which operations it describes; the restriction is evaluated along
its own run, so it is a condition on the operations alone.
-/

universe u v w

variable {State : Type u} {Op : Type v} {Spec : Type w}

/-- Execute the operations in order, stopping at the first refused one. -/
def run (step : State -> Op -> Option State) : State -> List Op -> Option State
  | state, [] => some state
  | state, op :: rest => (step state op).bind fun next => run step next rest

theorem run_cons (step : State -> Op -> Option State) (state : State) (op : Op) (rest : List Op) :
    run step state (op :: rest) = (step state op).bind fun next => run step next rest := rfl

variable {step : State -> Op -> Option State}

/-- A successful run of a nonempty list passes through a definite next state. -/
theorem run_cons_eq_some {state final : State} {op : Op} {rest : List Op} :
    run step state (op :: rest) = some final ↔
      ∃ next, step state op = some next ∧ run step next rest = some final :=
  Option.bind_eq_some_iff

/-- Every operation of the list is described by the specification at the
moment it is executed. -/
def Described (specStep : Spec -> Op -> Spec) (described : Spec -> Op -> Prop) :
    Spec -> List Op -> Prop
  | _, [] => True
  | spec, op :: rest =>
    described spec op ∧ Described specStep described (specStep spec op) rest

instance Described.decidable (specStep : Spec -> Op -> Spec) (described : Spec -> Op -> Prop)
    [∀ spec op, Decidable (described spec op)] :
    ∀ (spec : Spec) (ops : List Op), Decidable (Described specStep described spec ops)
  | _, [] => .isTrue trivial
  | spec, op :: rest =>
    have := Described.decidable specStep described (specStep spec op) rest
    inferInstanceAs (Decidable (_ ∧ _))

/-- Forward simulation: related states stay related along every run whose
operations the specification describes. -/
theorem run_simulates {specStep : Spec -> Op -> Spec} {described : Spec -> Op -> Prop} {related :
    State -> Spec -> Prop} (kept : ∀ {state next : State} {spec : Spec} {op : Op}, related
    state spec -> described spec op -> step state op = some next -> related next (specStep spec op))
    (ops : List Op) {state final : State} {spec : Spec} (start : related state spec)
    (covered : Described specStep described spec ops) (ran : run step state ops = some final) :
    related final (ops.foldl specStep spec) := by
  induction ops generalizing state spec with
  | nil =>
    cases ran
    exact start
  | cons op rest ih =>
    rcases run_cons_eq_some.mp ran with ⟨next, stepped, continued⟩
    exact ih (kept start covered.1 stepped) covered.2 continued

/-- Progress: when every described operation succeeds in related states, every
run of such operations does. -/
theorem run_progress {specStep : Spec -> Op -> Spec} {described : Spec -> Op -> Prop}
    {related : State -> Spec -> Prop} (kept : ∀ {state : State} {spec : Spec} {op : Op},
    related state spec -> described spec op -> ∃ next,
    step state op = some next ∧ related next (specStep spec op)) (ops : List Op) {state : State}
    {spec : Spec} (start : related state spec) (covered : Described specStep described spec ops) :
    ∃ final, run step state ops = some final ∧ related final (ops.foldl specStep spec) := by
  induction ops generalizing state spec with
  | nil => exact ⟨state, rfl, start⟩
  | cons op rest ih =>
    rcases kept start covered.1 with ⟨next, stepped, follows⟩
    rcases ih follows covered.2 with ⟨final, ran, ends⟩
    exact ⟨final, run_cons_eq_some.mpr ⟨next, stepped, ran⟩, ends⟩

/-- A loop over the first numbers keeps an invariant that its steps keep. -/
theorem foldlM_range (step : State -> Nat -> Option State)
    (inv : Nat -> State -> Prop) {state : State} (n : Nat) (start : inv 0 state) (kept : ∀ i state,
    i < n -> inv i state -> ∃ next, step state i = some next ∧ inv (i + 1) next) :
    ∃ final, (List.range n).foldlM step state = some final ∧ inv n final := by
  induction n with
  | zero => exact ⟨state, rfl, start⟩
  | succ n ih =>
    rcases ih fun i state below => kept i state (Nat.lt_succ_of_lt below) with
      ⟨next, run, holds⟩
    rcases kept n next (Nat.lt_succ_self n) holds with ⟨final, last, done⟩
    refine ⟨final, ?_, done⟩
    rw [List.range_succ, List.foldlM_append, run]
    simp [last]

end Runs
end LlvmProject
