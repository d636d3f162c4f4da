import Mathlib.Order.WellFounded
import Mathlib.Data.Fintype.Card

namespace LlvmProject
namespace Worklist

/-!
# Worklists

A loop takes the item that was put on a worklist last, visits it and puts further items
on.  A visit may also stop the loop, and it may fail.  When each item that is put on is
smaller than the visited one, in a well-founded order, the items in front of others are
worked off before those.  That gives the loop a result, and an invariant of the worklist
and the state holds when it is empty.
-/

open Relation

variable {State Item : Type*}

/-- The loop over a worklist, the last item first.  A visit gives the new state and the
items that it puts on, or no items to stop. -/
def loop (visit : State -> Item -> Option (State × Option (List Item))) :
    Nat -> List Item -> State -> Option State
  | _, [], state => some state
  | 0, _ :: _, _ => none
  | fuel + 1, item :: rest, state =>
    (visit state item).bind fun visited =>
      match visited.2 with
      | some pushed => loop visit fuel (pushed ++ rest) visited.1
      | none => some visited.1

theorem loop_nil (visit : State -> Item -> Option (State × Option (List Item))) (fuel : Nat)
    (state : State) : loop visit fuel [] state = some state := by
  cases fuel <;> rfl

section Rule

variable {visit : State -> Item -> Option (State × Option (List Item))}
    {smaller : Item -> Item -> Prop}
  {inv : List Item -> State -> Prop} {stopped : State -> Prop}

/-- A visit keeps the invariant and puts smaller items on, or it stops. -/
def Keeps (visit : State -> Item -> Option (State × Option (List Item))) (smaller : Item ->
    Item -> Prop) (inv : List Item -> State -> Prop) (stopped : State -> Prop) : Prop :=
  ∀ item rest state, inv (item :: rest) state ->
    (∃ next pushed, visit state item = some (next, some pushed) ∧ inv (pushed ++ rest) next ∧
      ∀ other ∈ pushed, smaller other item) ∨
    ∃ next, visit state item = some (next, none) ∧ stopped next

/-- The front of a worklist is worked off, or the loop stops meanwhile. -/
def WorksOff (visit : State -> Item -> Option (State × Option (List Item)))
    (inv : List Item -> State -> Prop) (stopped : State -> Prop) (front : List Item) : Prop :=
  ∀ rest state, inv (front ++ rest) state -> ∃ used,
    (∃ next, inv rest next ∧
      ∀ fuel, loop visit (used + fuel) (front ++ rest) state = loop visit fuel rest next) ∨
    ∃ final, stopped final ∧ ∀ fuel, loop visit (used + fuel) (front ++ rest) state = some final

theorem WorksOff.of_each {front : List Item}
    (each : ∀ item ∈ front, WorksOff visit inv stopped [item]) :
    WorksOff visit inv stopped front := by
  induction front with
  | nil => exact fun rest state holds => ⟨0, Or.inl ⟨state, holds, fun fuel => by rw [Nat.zero_add]; rfl⟩⟩
  | cons item front ih =>
    intro rest state holds
    rcases each item List.mem_cons_self (front ++ rest) state holds with
      ⟨used, ⟨next, kept, ran⟩ | ⟨final, stops, ran⟩⟩
    · have others := ih fun item inside => each item (List.mem_cons_of_mem _ inside)
      rcases others rest next kept with ⟨more, outcome⟩
      have first : ∀ fuel, loop visit (used + more + fuel) (item :: front ++ rest) state =
          loop visit (more + fuel) (front ++ rest) next := by
        intro fuel
        rw [Nat.add_assoc]
        exact ran (more + fuel)
      refine ⟨used + more, ?_⟩
      rcases outcome with ⟨last, kept, ran⟩ | ⟨final, stops, ran⟩
      · exact Or.inl ⟨last, kept, fun fuel => (first fuel).trans (ran fuel)⟩
      · exact Or.inr ⟨final, stops, fun fuel => (first fuel).trans (ran fuel)⟩
    · exact ⟨used, Or.inr ⟨final, stops, ran⟩⟩

theorem Keeps.worksOff (keeps : Keeps visit smaller inv stopped)
    (wellFounded : WellFounded smaller) (item : Item) :
    WorksOff visit inv stopped [item] := by
  induction item using wellFounded.induction with
  | _ item ih =>
    intro rest state holds
    rcases keeps item rest state holds with ⟨next, pushed, visited, kept, below⟩ | ⟨next, visited, stops⟩
    · have enter : ∀ fuel, loop visit (fuel + 1) ([item] ++ rest) state =
          loop visit fuel (pushed ++ rest) next := by
        intro fuel
        rw [List.singleton_append, loop, visited, Option.bind_some]
      have others := WorksOff.of_each fun other inside => ih other (below other inside)
      rcases others rest next kept with ⟨used, outcome⟩
      refine ⟨used + 1, ?_⟩
      rcases outcome with ⟨last, kept, ran⟩ | ⟨final, stops, ran⟩
      · refine Or.inl ⟨last, kept, fun fuel => ?_⟩
        rw [Nat.add_right_comm, enter, ran]
      · refine Or.inr ⟨final, stops, fun fuel => ?_⟩
        rw [Nat.add_right_comm, enter, ran]
    · refine ⟨1, Or.inr ⟨next, stops, fun fuel => ?_⟩⟩
      rw [Nat.add_comm, List.singleton_append, loop, visited, Option.bind_some]

/-- Total correctness: with enough fuel the loop has a result.  It was stopped, or the
invariant holds of the empty worklist. -/
theorem Keeps.total (keeps : Keeps visit smaller inv stopped) (wellFounded : WellFounded smaller)
    {items : List Item} {state : State} (start : inv items state) :
    ∃ bound final, (∀ fuel, bound <= fuel -> loop visit fuel items state = some final) ∧
      (inv [] final ∨ stopped final) := by
  have all : WorksOff visit inv stopped items :=
    WorksOff.of_each fun item _ => keeps.worksOff wellFounded item
  rcases all [] state (by rwa [List.append_nil]) with ⟨bound, outcome⟩
  rw [List.append_nil] at outcome
  have split : ∀ fuel, bound <= fuel -> fuel = bound + (fuel - bound) :=
    fun fuel enough => (Nat.add_sub_cancel' enough).symm
  rcases outcome with ⟨final, kept, ran⟩ | ⟨final, stops, ran⟩
  · refine ⟨bound, final, fun fuel enough => ?_, .inl kept⟩
    rw [split fuel enough, ran, loop_nil]
  · refine ⟨bound, final, fun fuel enough => ?_, .inr stops⟩
    rw [split fuel enough, ran]

end Rule

/-! ## Relations without cycles -/

/-- A relation without cycles on a finite type is well founded. -/
theorem wellFounded_of_acyclic [Finite Item] {step : Item -> Item -> Prop}
    (acyclic : ∀ item, ¬TransGen step item item) : WellFounded step := by
  have irreflexive : Std.Irrefl (TransGen step) := ⟨acyclic⟩
  have transitive : IsTrans Item (TransGen step) := ⟨fun _ _ _ => TransGen.trans⟩
  have closed : WellFounded (TransGen step) := Finite.wellFounded_of_trans_of_irrefl _
  exact Subrelation.wf TransGen.single closed

end Worklist
end LlvmProject
