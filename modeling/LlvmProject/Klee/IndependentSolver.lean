import LlvmProject.Library.DoWhile
import LlvmProject.Library.SortedPairs
import Mathlib.Data.Set.Lattice

namespace LlvmProject
namespace IndependentSolver

/-!
# The independent solver

A query asks for the value of an expression under a list of constraints.  The
solver passes on the constraints that are connected with the expression through
the array elements they read, and drops the others.  A set of elements names
single bytes of some arrays and other arrays as a whole.  Arrays are ordered as
their addresses are; what is read from an expression is a parameter.
-/

universe u v w

/-! ## Sets of bytes -/

/-- `DenseSet::add(const DenseSet &)`: whether the set was changed. -/
def DenseSet.add (s b : Finset Nat) : Finset Nat × Bool :=
  (SortedPairs.inOrder b).foldl (fun state x =>
    if state.2 || !decide (x ∈ state.1) then (insert x state.1, true) else state) (s, false)

/-- `DenseSet::intersects`. -/
def DenseSet.intersects (s b : Finset Nat) : Bool := decide (∃ x ∈ s, x ∈ b)

/-! ## Sets of array elements -/

/-- What the slicing looks at in a `ReadExpr`. -/
structure Read (α : Type u) where
  root : α
  /-- Whether the update list has a node. -/
  hasHead : Bool
  /-- The index, when it is a constant. -/
  index : Option Nat

/-- `IndependentElementSet`. -/
structure IndependentElementSet (α : Type u) where
  elements : List (α × Finset Nat)
  wholeObjects : Finset α

namespace IndependentElementSet

variable {α : Type u} [LinearOrder α]

def empty : IndependentElementSet α := ⟨[], ∅⟩

/-- One round of the constructor's loop. -/
def addRead (isConstantArray : α -> Bool) (set : IndependentElementSet α) (re : Read α) :
    IndependentElementSet α :=
  -- Reads of a constant array don't alias.
  if isConstantArray re.root && !re.hasHead then set
  else if re.root ∈ set.wholeObjects then set
  else match re.index with
    | some index =>
      { set with
        elements := SortedPairs.alter re.root (fun dis => insert index (dis.getD ∅))
                      set.elements }
    | none =>
      { elements := SortedPairs.erase re.root set.elements
        wholeObjects := insert re.root set.wholeObjects }

/-- The constructor from the reads of an expression. -/
def ofReads (isConstantArray : α -> Bool) (reads : List (Read α)) : IndependentElementSet α :=
  reads.foldl (addRead isConstantArray) empty

def intersects (a b : IndependentElementSet α) : Bool :=
  decide (∃ array ∈ a.wholeObjects,
    array ∈ b.wholeObjects ∨ (SortedPairs.find array b.elements).isSome) ||
  a.elements.any fun entry =>
    decide (entry.1 ∈ b.wholeObjects) ||
      match SortedPairs.find entry.1 b.elements with
      | some dis => DenseSet.intersects entry.2 dis
      | none => false

/-- One round of the first loop of `add`. -/
def addWhole (state : IndependentElementSet α × Bool) (array : α) :
    IndependentElementSet α × Bool :=
  if (SortedPairs.find array state.1.elements).isSome then
    ({ elements := SortedPairs.erase array state.1.elements
       wholeObjects := insert array state.1.wholeObjects }, true)
  else if array ∈ state.1.wholeObjects then state
  else ({ state.1 with wholeObjects := insert array state.1.wholeObjects }, true)

/-- One round of the second loop of `add`. -/
def addElements (state : IndependentElementSet α × Bool) (entry : α × Finset Nat) :
    IndependentElementSet α × Bool :=
  if entry.1 ∈ state.1.wholeObjects then state
  else match SortedPairs.find entry.1 state.1.elements with
    | none =>
      ({ state.1 with
         elements := SortedPairs.alter entry.1 (fun _ => entry.2) state.1.elements }, true)
    | some dis =>
      ({ state.1 with
         elements := SortedPairs.alter entry.1 (fun _ => (DenseSet.add dis entry.2).1)
                       state.1.elements },
        state.2 || (DenseSet.add dis entry.2).2)

/-- `add`: whether the set was changed. -/
def add (a b : IndependentElementSet α) : IndependentElementSet α × Bool :=
  b.elements.foldl addElements ((SortedPairs.inOrder b.wholeObjects).foldl addWhole (a, false))

end IndependentElementSet

/-! ## Slicing -/

section Slicing

variable {α : Type u} [LinearOrder α] {E : Type v}

/-- The variables of the loop of `getIndependentConstraints`. -/
structure Slicing (α : Type u) (E : Type v) where
  eltsClosure : IndependentElementSet α
  worklist : List (E × IndependentElementSet α)
  newWorklist : List (E × IndependentElementSet α)
  result : List E
  done : Bool

/-- The body of the inner loop. -/
def visit (state : Slicing α E) (item : E × IndependentElementSet α) : Slicing α E :=
  if item.2.intersects state.eltsClosure then
    { state with
      eltsClosure := (state.eltsClosure.add item.2).1
      done := if (state.eltsClosure.add item.2).2 then false else state.done
      result := state.result ++ [item.1] }
  else { state with newWorklist := state.newWorklist ++ [item] }

def visitAll (state : Slicing α E) : Slicing α E :=
  state.worklist.foldl visit { state with done := true, newWorklist := [] }

/-- The body of the outer loop, with the swap at its end. -/
def slicingRound (state : Slicing α E) : Slicing α E :=
  { visitAll state with worklist := (visitAll state).newWorklist, newWorklist := [] }

variable (isConstantArray : α -> Bool) (findReads : E -> List (Read α))

def elementsOf (e : E) : IndependentElementSet α :=
  IndependentElementSet.ofReads isConstantArray (findReads e)

/-- The state before the loop. -/
def startSlicing (constraints : List E) (expr : E) : Slicing α E where
  eltsClosure := elementsOf isConstantArray findReads expr
  worklist := constraints.map fun c => (c, elementsOf isConstantArray findReads c)
  newWorklist := []
  result := []
  done := false

/-- The closure and the required constraints. -/
def getIndependentConstraints (fuel : Nat) (constraints : List E) (expr : E) :
    Option (IndependentElementSet α × List E) :=
  (DoWhile.doWhile slicingRound (fun state => !state.done) fuel
    (startSlicing isConstantArray findReads constraints expr)).map
    fun state => (state.eltsClosure, state.result)

/-! ## Solvers -/

inductive Validity where
  | true
  | false
  | unknown

/-- The three questions; the constraints come first. -/
structure SolverImpl (E : Type v) (W : Type w) where
  computeValidity : List E -> E -> Option Validity
  computeTruth : List E -> E -> Option Bool
  computeValue : List E -> E -> Option W

/-- `IndependentSolver`: every question goes on with the required constraints. -/
def independentSolver {W : Type w} (fuel : Nat) (solver : SolverImpl E W) : SolverImpl E W where
  computeValidity constraints expr :=
    (getIndependentConstraints isConstantArray findReads fuel constraints expr).bind
      fun sliced => solver.computeValidity sliced.2 expr
  computeTruth constraints expr :=
    (getIndependentConstraints isConstantArray findReads fuel constraints expr).bind
      fun sliced => solver.computeTruth sliced.2 expr
  computeValue constraints expr :=
    (getIndependentConstraints isConstantArray findReads fuel constraints expr).bind
      fun sliced => solver.computeValue sliced.2 expr

end Slicing

end IndependentSolver
end LlvmProject

namespace LlvmProject
namespace IndependentSolver

/-!
## Sets of array elements

A set of elements covers pairs of an array and an index.  Two sets intersect
when some element is covered by both, and adding one set to another covers the
elements of either.
-/

universe u

/-- The elements that a read may look at. -/
def Read.touches {α : Type u} (re : Read α) : Set (α × Nat) :=
  {p | p.1 = re.root ∧ ∀ index ∈ re.index, p.2 = index}

/-- Reads of a constant array without updates do not count. -/
def Read.counted {α : Type u} (isConstantArray : α -> Bool) (re : Read α) : Bool :=
  !(isConstantArray re.root && !re.hasHead)

/-! ## Sets of bytes -/

theorem addFold_spec (xs : List Nat) (s : Finset Nat) (modified : Bool) :
    let final := xs.foldl (fun (state : Finset Nat × Bool) x =>
      if state.2 || !decide (x ∈ state.1) then (insert x state.1, true) else state) (s, modified)
    (∀ x, x ∈ final.1 ↔ x ∈ s ∨ x ∈ xs) ∧
      (final.2 = false -> modified = false ∧ ∀ x ∈ xs, x ∈ s) := by
  induction xs generalizing s modified with
  | nil => simp
  | cons first rest ih =>
    intro final
    by_cases changes : (modified || !decide (first ∈ s)) = true
    · have next := ih (insert first s) true
      have same : final = rest.foldl (fun (state : Finset Nat × Bool) x =>
          if state.2 || !decide (x ∈ state.1) then (insert x state.1, true) else state)
          (insert first s, true) := congrArg (rest.foldl _) (if_pos changes)
      rw [<- same] at next
      refine ⟨fun x => ?_, fun unchanged => nomatch (next.2 unchanged).1⟩
      rw [next.1, Finset.mem_insert, List.mem_cons, or_assoc, or_left_comm]
    · have next := ih s modified
      have same : final = rest.foldl (fun (state : Finset Nat × Bool) x =>
          if state.2 || !decide (x ∈ state.1) then (insert x state.1, true) else state)
          (s, modified) := congrArg (rest.foldl _) (if_neg changes)
      rw [<- same] at next
      have here : first ∈ s := by simpa using (by simpa using changes : _ ∧ _).2
      refine ⟨fun x => ?_, fun unchanged => ⟨(next.2 unchanged).1, fun x mem => ?_⟩⟩
      · rw [next.1, List.mem_cons]
        constructor
        · rintro (old | later)
          · exact .inl old
          · exact .inr (.inr later)
        · rintro (old | rfl | later)
          · exact .inl old
          · exact .inl here
          · exact .inr later
      · rcases List.mem_cons.mp mem with rfl | later
        · exact here
        · exact (next.2 unchanged).2 x later

theorem DenseSet.mem_add {s b : Finset Nat} {x : Nat} :
    x ∈ (DenseSet.add s b).1 ↔ x ∈ s ∨ x ∈ b := by
  rw [DenseSet.add, (addFold_spec _ s false).1, Finset.mem_sort]

theorem DenseSet.subset_of_add_unchanged {s b : Finset Nat}
    (unchanged : (DenseSet.add s b).2 = false) : b ⊆ s :=
  fun _ mem => ((addFold_spec _ s false).2 unchanged).2 _ ((Finset.mem_sort _).mpr mem)

namespace IndependentElementSet

variable {α : Type u} [LinearOrder α] {a b : IndependentElementSet α} {array : α} {i : Nat}

/-- Entries are sorted and not empty, and no array is also there as a whole. -/
structure Valid (set : IndependentElementSet α) : Prop where
  sorted : SortedPairs.Sorted set.elements
  nonempty : ∀ {array dis}, SortedPairs.find array set.elements = some dis -> dis.Nonempty
  apart : ∀ {array}, array ∈ set.wholeObjects -> SortedPairs.find array set.elements = none

/-- The elements that a set stands for. -/
def covers (set : IndependentElementSet α) : Set (α × Nat) :=
  {p | p.1 ∈ set.wholeObjects ∨ ∃ dis, SortedPairs.find p.1 set.elements = some dis ∧ p.2 ∈ dis}

theorem valid_empty : (empty : IndependentElementSet α).Valid where
  sorted := List.Pairwise.nil
  nonempty := nofun
  apart := fun mem => absurd mem (Finset.notMem_empty _)

theorem covers_empty : (empty : IndependentElementSet α).covers = ∅ := by
  ext p
  simp [covers, empty, SortedPairs.find]

/-! ## Intersection -/

theorem intersects_iff (validLeft : a.Valid) (validRight : b.Valid) :
    a.intersects b = true ↔ ∃ p, p ∈ a.covers ∧ p ∈ b.covers := by
  rw [intersects, Bool.or_eq_true, decide_eq_true_iff, List.any_eq_true]
  constructor
  · rintro (⟨array, whole, wholeToo | listed⟩ | ⟨⟨array, dis⟩, mem, meets⟩)
    · exact ⟨(array, 0), .inl whole, .inl wholeToo⟩
    · rcases Option.isSome_iff_exists.mp listed with ⟨dis, found⟩
      rcases validRight.nonempty found with ⟨i, mem⟩
      exact ⟨(array, i), .inl whole, .inr ⟨dis, found, mem⟩⟩
    · have found := SortedPairs.find_of_mem validLeft.sorted mem
      rw [Bool.or_eq_true, decide_eq_true_iff] at meets
      rcases meets with whole | meets
      · rcases validLeft.nonempty found with ⟨i, mem⟩
        exact ⟨(array, i), .inr ⟨dis, found, mem⟩, .inl whole⟩
      · cases foundToo : SortedPairs.find array b.elements with
        | none => simp [foundToo] at meets
        | some disToo =>
          simp only [foundToo, DenseSet.intersects, decide_eq_true_iff] at meets
          rcases meets with ⟨i, first, second⟩
          exact ⟨(array, i), .inr ⟨dis, found, first⟩, .inr ⟨disToo, foundToo, second⟩⟩
  · rintro ⟨⟨array, i⟩, whole | ⟨dis, found, mem⟩, right⟩
    · refine .inl ⟨array, whole, ?_⟩
      rcases right with wholeToo | ⟨dis, found, -⟩
      · exact .inl wholeToo
      · exact .inr (Option.isSome_iff_exists.mpr ⟨dis, found⟩)
    · refine .inr ⟨(array, dis), SortedPairs.mem_of_find found, ?_⟩
      rw [Bool.or_eq_true, decide_eq_true_iff]
      rcases right with whole | ⟨disToo, foundToo, memberToo⟩
      · exact .inl whole
      · right
        simp only [foundToo, DenseSet.intersects, decide_eq_true_iff]
        exact ⟨i, mem, memberToo⟩

/-! ## Updates -/

theorem Valid.makeWhole (valid : a.Valid) (array : α) :
    Valid ⟨SortedPairs.erase array a.elements, insert array a.wholeObjects⟩ ∧
      covers ⟨SortedPairs.erase array a.elements, insert array a.wholeObjects⟩ =
        a.covers ∪ {p | p.1 = array} := by
  have find_eq : ∀ k, SortedPairs.find k (SortedPairs.erase array a.elements) =
      if k = array then none else SortedPairs.find k a.elements :=
    fun k => SortedPairs.find_erase valid.sorted
  constructor
  · refine ⟨SortedPairs.sorted_erase valid.sorted, fun {k dis} found => ?_, fun {k} whole => ?_⟩
    · rw [find_eq] at found
      by_cases same : k = array
      · exact absurd found (by rw [if_pos same]; nofun)
      · rw [if_neg same] at found
        exact valid.nonempty found
    · rw [find_eq]
      rcases Finset.mem_insert.mp whole with same | old
      · exact if_pos same
      · rw [valid.apart old, ite_self]
  · ext ⟨k, i⟩
    simp only [covers, Set.mem_ofPred_eq, Set.mem_union, Finset.mem_insert, find_eq]
    by_cases same : k = array
    · simp [same]
    · simp [same]

theorem Valid.setEntry (valid : a.Valid) (apart : array ∉ a.wholeObjects) {f : Option (Finset Nat)
    -> Finset Nat} {part : Finset Nat} (nonempty : part.Nonempty) (entry : ∀ i, i ∈ f
    (SortedPairs.find array a.elements) ↔ (∃ dis, SortedPairs.find array a.elements = some dis ∧ i ∈
    dis) ∨ i ∈ part) :
    Valid { a with elements := SortedPairs.alter array f a.elements } ∧
      covers { a with elements := SortedPairs.alter array f a.elements } =
        a.covers ∪ {p | p.1 = array ∧ p.2 ∈ part} := by
  have find_eq : ∀ k, SortedPairs.find k (SortedPairs.alter array f a.elements) =
      if k = array then some (f (SortedPairs.find array a.elements))
      else SortedPairs.find k a.elements :=
    fun k => SortedPairs.find_alter valid.sorted
  constructor
  · refine ⟨SortedPairs.sorted_alter valid.sorted, fun {k dis} found => ?_, fun {k} whole => ?_⟩
    · rw [find_eq] at found
      by_cases same : k = array
      · rw [if_pos same] at found
        rcases nonempty with ⟨i, mem⟩
        cases found
        exact ⟨i, (entry i).mpr (.inr mem)⟩
      · rw [if_neg same] at found
        exact valid.nonempty found
    · have other : k ≠ array := fun same => apart (same ▸ whole)
      rw [find_eq, if_neg other]
      exact valid.apart whole
  · ext ⟨k, i⟩
    simp only [covers, Set.mem_ofPred_eq, Set.mem_union, find_eq]
    by_cases same : k = array
    · subst same
      simp [entry, or_assoc]
    · simp [same]

/-! ## The constructor -/

variable (isConstantArray : α -> Bool)

theorem addRead_spec (re : Read α) (valid : a.Valid) : (addRead isConstantArray a re).Valid ∧
    (addRead isConstantArray a re).covers =
      a.covers ∪ {p | re.counted isConstantArray = true ∧ p ∈ re.touches} := by
  rw [addRead]
  by_cases skipped : (isConstantArray re.root && !re.hasHead) = true
  · rw [if_pos skipped]
    refine ⟨valid, ?_⟩
    simp [Read.counted, skipped]
  · rw [if_neg skipped]
    have counted : re.counted isConstantArray = true := by simp [Read.counted, skipped]
    simp only [counted, true_and, Set.ofPred_mem_eq]
    by_cases whole : re.root ∈ a.wholeObjects
    · rw [if_pos whole]
      refine ⟨valid, (Set.union_eq_left.mpr fun p touched => .inl ?_).symm⟩
      exact touched.1 ▸ whole
    · rw [if_neg whole]
      cases constant : re.index with
      | none =>
        have touches : re.touches = {p | p.1 = re.root} := by
          ext p
          simp [Read.touches, constant]
        rw [touches]
        exact valid.makeWhole re.root
      | some index =>
        have touches : re.touches = {p | p.1 = re.root ∧ p.2 ∈ ({index} : Finset Nat)} := by
          ext p
          simp [Read.touches, constant]
        rw [touches]
        apply valid.setEntry whole (Finset.singleton_nonempty index)
        intro i
        cases SortedPairs.find re.root a.elements with
        | none => simp
        | some dis => simp [or_comm]

theorem addReads_spec (valid : a.Valid) (reads : List (Read α)) :
    (reads.foldl (addRead isConstantArray) a).Valid ∧
      (reads.foldl (addRead isConstantArray) a).covers =
        a.covers ∪ {p | ∃ re ∈ reads, re.counted isConstantArray = true ∧ p ∈ re.touches} := by
  induction reads generalizing a with
  | nil => exact ⟨valid, by simp⟩
  | cons re rest ih =>
    rcases addRead_spec isConstantArray re valid with ⟨next, covered⟩
    rcases ih next with ⟨last, coveredAll⟩
    refine ⟨last, coveredAll.trans ?_⟩
    rw [covered, Set.union_assoc]
    congr 1
    ext p
    simp

theorem mem_covers_ofReads {reads : List (Read α)} {p : α × Nat} :
    p ∈ (ofReads isConstantArray reads).covers ↔
      ∃ re ∈ reads, re.counted isConstantArray = true ∧ p ∈ re.touches := by
  rw [ofReads, (addReads_spec isConstantArray valid_empty reads).2, covers_empty, Set.empty_union,
    Set.mem_ofPred_eq]

theorem valid_ofReads (reads : List (Read α)) : (ofReads isConstantArray reads).Valid :=
  (addReads_spec isConstantArray valid_empty reads).1

/-! ## Addition -/

/-- The state of the loops covers a further part, and the flag is not set only
if nothing changed. -/
structure Adds (before after : IndependentElementSet α × Bool) (part : Set (α × Nat)) : Prop where
  valid : after.1.Valid
  covers : after.1.covers = before.1.covers ∪ part
  unchanged : after.2 = false -> before.2 = false ∧ part ⊆ before.1.covers

theorem Adds.trans {first second third : IndependentElementSet α × Bool} {p q : Set (α × Nat)}
    (left : Adds first second p) (right : Adds second third q) : Adds first third (p ∪ q) where
  valid := right.valid
  covers := by rw [right.covers, left.covers, Set.union_assoc]
  unchanged := by
    intro flag
    rcases right.unchanged flag with ⟨flag, within⟩
    rcases left.unchanged flag with ⟨flag, withinToo⟩
    rw [left.covers, Set.union_eq_left.mpr withinToo] at within
    exact ⟨flag, Set.union_subset withinToo within⟩

variable {state : IndependentElementSet α × Bool}

theorem addWhole_spec (valid : state.1.Valid) :
    Adds state (addWhole state array) {p | p.1 = array} := by
  rw [addWhole]
  by_cases listed : (SortedPairs.find array state.1.elements).isSome = true
  · rw [if_pos listed]
    exact ⟨(valid.makeWhole array).1, (valid.makeWhole array).2, nofun⟩
  · rw [if_neg listed]
    by_cases whole : array ∈ state.1.wholeObjects
    · rw [if_pos whole]
      have within : {p : α × Nat | p.1 = array} ⊆ state.1.covers := by
        rintro ⟨k, i⟩ rfl
        exact .inl whole
      exact ⟨valid, (Set.union_eq_left.mpr within).symm, fun flag => ⟨flag, within⟩⟩
    · rw [if_neg whole]
      have unlisted := Option.not_isSome_iff_eq_none.mp listed
      have same : SortedPairs.erase array state.1.elements = state.1.elements := by
        apply List.filter_eq_self.mpr
        rintro ⟨k, dis⟩ mem
        apply decide_eq_true
        rintro rfl
        exact nomatch unlisted.symm.trans (SortedPairs.find_of_mem valid.sorted mem)
      have added := valid.makeWhole array
      rw [same] at added
      exact ⟨added.1, added.2, nofun⟩

theorem addElements_spec (valid : state.1.Valid)
    {entry : α × Finset Nat} (nonempty : entry.2.Nonempty) :
    Adds state (addElements state entry) {p | p.1 = entry.1 ∧ p.2 ∈ entry.2} := by
  rw [addElements]
  by_cases whole : entry.1 ∈ state.1.wholeObjects
  · rw [if_pos whole]
    have within : {p : α × Nat | p.1 = entry.1 ∧ p.2 ∈ entry.2} ⊆ state.1.covers := by
      rintro ⟨k, i⟩ ⟨rfl, -⟩
      exact .inl whole
    exact ⟨valid, (Set.union_eq_left.mpr within).symm, fun flag => ⟨flag, within⟩⟩
  · rw [if_neg whole]
    cases found : SortedPairs.find entry.1 state.1.elements with
    | none =>
      rcases valid.setEntry (f := fun _ => entry.2) whole nonempty (by simp [found]) with
        ⟨next, covered⟩
      exact ⟨next, covered, nofun⟩
    | some dis =>
      rcases valid.setEntry (f := fun _ => (DenseSet.add dis entry.2).1) whole nonempty
        (by simp [found, DenseSet.mem_add]) with ⟨next, covered⟩
      refine ⟨next, covered, fun flag => ?_⟩
      rcases Bool.or_eq_false_iff.mp flag with ⟨flag, inner⟩
      refine ⟨flag, ?_⟩
      rintro ⟨k, i⟩ ⟨rfl, mem⟩
      exact .inr ⟨dis, found, DenseSet.subset_of_add_unchanged inner mem⟩

theorem addWholes_spec (arrays : List α)
    (valid : state.1.Valid) : Adds state (arrays.foldl addWhole state) {p | p.1 ∈ arrays} := by
  induction arrays generalizing state with
  | nil => exact ⟨valid, by simp, fun flag => ⟨flag, by simp⟩⟩
  | cons array rest ih =>
    have first : Adds state (addWhole state array) _ := addWhole_spec valid
    have all := first.trans (ih first.valid)
    have parts : {p : α × Nat | p.1 ∈ array :: rest} = {p | p.1 = array} ∪ {p | p.1 ∈ rest} := by
      ext p
      simp
    rw [parts]
    exact all

theorem addAllElements_spec (entries : List (α × Finset Nat)) (nonempty : ∀ entry ∈ entries,
    entry.2.Nonempty) (valid : state.1.Valid) :
    Adds state (entries.foldl addElements state)
      {p | ∃ entry ∈ entries, p.1 = entry.1 ∧ p.2 ∈ entry.2} := by
  induction entries generalizing state with
  | nil => exact ⟨valid, by simp, fun flag => ⟨flag, by simp⟩⟩
  | cons entry rest ih =>
    have first := addElements_spec valid (nonempty entry List.mem_cons_self)
    have all := first.trans
      (ih (fun e mem => nonempty e (List.mem_cons_of_mem _ mem))
        first.valid)
    have parts : {p : α × Nat | ∃ e ∈ entry :: rest, p.1 = e.1 ∧ p.2 ∈ e.2} =
        {p | p.1 = entry.1 ∧ p.2 ∈ entry.2} ∪ {p | ∃ e ∈ rest, p.1 = e.1 ∧ p.2 ∈ e.2} := by
      ext p
      simp
    rw [parts]
    exact all

theorem add_spec (validLeft : a.Valid) (validRight : b.Valid) :
    Adds (a, false) (a.add b) b.covers := by
  have first : Adds (a, false) _ _ := addWholes_spec (b.wholeObjects.sort (· <= ·)) validLeft
  have second := addAllElements_spec b.elements
    (fun entry mem => validRight.nonempty (SortedPairs.find_of_mem validRight.sorted mem))
    first.valid
  have parts : b.covers = {p | p.1 ∈ b.wholeObjects.sort (· <= ·)} ∪
      {p | ∃ entry ∈ b.elements, p.1 = entry.1 ∧ p.2 ∈ entry.2} := by
    ext ⟨k, i⟩
    simp only [covers, Set.mem_ofPred_eq, Set.mem_union, Finset.mem_sort]
    apply or_congr_right
    constructor
    · rintro ⟨dis, found, mem⟩
      exact ⟨(k, dis), SortedPairs.mem_of_find found, rfl, mem⟩
    · rintro ⟨⟨key, dis⟩, listed, rfl, mem⟩
      exact ⟨dis, SortedPairs.find_of_mem validRight.sorted listed, mem⟩
  rw [parts]
  exact first.trans second

end IndependentElementSet
end IndependentSolver
end LlvmProject
