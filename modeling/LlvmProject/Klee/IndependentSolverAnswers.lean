import LlvmProject.Klee.IndependentSolver

namespace LlvmProject

open List
namespace IndependentSolver

/-!
# Slices

The loop ends with the constraints split into those it has moved to the result
and those still on the worklist.  The closure covers what the expression and
the result read, and nothing on the worklist reads a covered element.
-/

universe u v w

variable {α : Type u} [LinearOrder α] {E : Type v}
variable {isConstantArray : α -> Bool} {findReads : E -> List (Read α)}

/-! ## The loop -/

/-- The invariant of the loops; the pending items are the rest of the worklist. -/
structure Visiting (isConstantArray : α -> Bool) (findReads : E -> List (Read α))
    (constraints : List E) (expr : E) (bound : Nat) (pending : List (E × IndependentElementSet α))
    (state : Slicing α E) : Prop where
  valid : state.eltsClosure.Valid
  listed : ∀ item ∈ state.newWorklist ++ pending,
    item.2 = elementsOf isConstantArray findReads item.1
  covers : ∀ p, p ∈ state.eltsClosure.covers ↔
    ∃ e ∈ expr :: state.result, p ∈ (elementsOf isConstantArray findReads e).covers
  split : (state.result ++ (state.newWorklist ++ pending).map Prod.fst).Perm constraints
  /-- While nothing is added, what has been passed over stays apart. -/
  settled : state.done = true -> ∀ item ∈ state.newWorklist,
    ¬∃ p, p ∈ item.2.covers ∧ p ∈ state.eltsClosure.covers
  /-- Whatever is added has left the worklist. -/
  shrinks : state.newWorklist.length + pending.length + (if state.done then 0 else 1) <= bound

variable {constraints : List E}

variable {expr : E}

variable {state : Slicing α E}

theorem Visiting.visit {bound : Nat}
    {item : E × IndependentElementSet α} {pending : List (E × IndependentElementSet α)}
    (visiting : Visiting isConstantArray findReads constraints expr bound (item :: pending) state) :
    Visiting isConstantArray findReads constraints expr bound pending (visit state item) := by
  have itemSet : item.2 = elementsOf isConstantArray findReads item.1 :=
    visiting.listed item (mem_append_right _ List.mem_cons_self)
  have itemValid : item.2.Valid := itemSet ▸ IndependentElementSet.valid_ofReads _ _
  have meets := IndependentElementSet.intersects_iff itemValid visiting.valid
  have shrinks := visiting.shrinks
  rw [length_cons] at shrinks
  rw [IndependentSolver.visit]
  by_cases connected : item.2.intersects state.eltsClosure = true
  · rw [if_pos connected]
    have added := IndependentElementSet.add_spec visiting.valid itemValid
    refine ⟨added.valid, fun other mem => ?_, fun p => ?_, ?_, fun flag => ?_, ?_⟩
    · apply visiting.listed other
      rcases List.mem_append.mp mem with old | later
      · exact List.mem_append_left _ old
      · exact mem_append_right _ (List.mem_cons_of_mem _ later)
    · rw [added.covers, Set.mem_union, visiting.covers]
      simp only [mem_cons, mem_append, not_mem_nil, or_false, itemSet]
      constructor
      · rintro (⟨e, rfl | old, touched⟩ | touched)
        · exact ⟨e, .inl rfl, touched⟩
        · exact ⟨e, .inr (.inl old), touched⟩
        · exact ⟨item.1, .inr (.inr rfl), touched⟩
      · rintro ⟨e, rfl | old | rfl, touched⟩
        · exact .inl ⟨e, .inl rfl, touched⟩
        · exact .inl ⟨e, .inr old, touched⟩
        · exact .inr touched
    · apply Perm.trans _ visiting.split
      rw [append_assoc, map_append, map_append, map_cons]
      show (state.result ++
        item.1 :: (state.newWorklist.map Prod.fst ++ pending.map Prod.fst)).Perm _
      exact perm_middle.symm.append_left _
    · have unchanged : (state.eltsClosure.add item.2).2 = false := by
        by_contra changed
        rw [Bool.not_eq_false] at changed
        simp [changed] at flag
      have doneBefore : state.done = true := by simpa [unchanged] using flag
      intro other mem
      rw [added.covers, Set.union_eq_left.mpr (added.unchanged unchanged).2]
      exact visiting.settled doneBefore other mem
    · by_cases flag : (state.eltsClosure.add item.2).2 = true
      · simp only [flag, if_true, Bool.false_eq_true, if_false]
        omega
      · simp only [flag, Bool.false_eq_true, if_false]
        omega
  · rw [if_neg connected]
    have reorder : ∀ {β : Type v} (f : E × IndependentElementSet α -> β),
        ((state.newWorklist ++ [item]) ++ pending).map f =
          (state.newWorklist ++ item :: pending).map f := fun f => by
      rw [append_assoc, singleton_append]
    refine ⟨visiting.valid, fun other mem => ?_, visiting.covers, ?_, fun flag => ?_, ?_⟩
    · apply visiting.listed other
      rwa [append_assoc, singleton_append] at mem
    · show (state.result ++ _).Perm _
      rw [reorder]
      exact visiting.split
    · intro other mem
      rcases List.mem_append.mp mem with old | same
      · exact visiting.settled flag other old
      · cases mem_singleton.mp same
        exact fun touched => connected (meets.mpr touched)
    · show (state.newWorklist ++ [item]).length + pending.length +
        (if state.done then 0 else 1) <= bound
      rw [length_append, length_singleton]
      omega

theorem Visiting.visitAll {bound : Nat} {pending : List (E × IndependentElementSet α)} (visiting :
    Visiting isConstantArray findReads constraints expr bound pending state) :
    Visiting isConstantArray findReads constraints expr bound []
      (pending.foldl IndependentSolver.visit state) := by
  induction pending generalizing state with
  | nil => exact visiting
  | cons item rest ih => exact ih visiting.visit

/-- Between two rounds of the outer loop. -/
structure Sliced (isConstantArray : α -> Bool) (findReads : E -> List (Read α))
    (constraints : List E) (expr : E) (state : Slicing α E) : Prop where
  valid : state.eltsClosure.Valid
  listed : ∀ item ∈ state.worklist, item.2 = elementsOf isConstantArray findReads item.1
  covers : ∀ p, p ∈ state.eltsClosure.covers ↔
    ∃ e ∈ expr :: state.result, p ∈ (elementsOf isConstantArray findReads e).covers
  split : (state.result ++ state.worklist.map Prod.fst).Perm constraints
  settled : state.done = true -> ∀ item ∈ state.worklist,
    ¬∃ p, p ∈ item.2.covers ∧ p ∈ state.eltsClosure.covers

/-- A round keeps the split, and takes a constraint off the worklist if another
round follows. -/
theorem Sliced.round
    (sliced : Sliced isConstantArray findReads constraints expr { state with done := false }) :
    Sliced isConstantArray findReads constraints expr (slicingRound state) ∧
      (slicingRound state).worklist.length + (if (slicingRound state).done then 0 else 1) <=
        state.worklist.length := by
  have start : Visiting isConstantArray findReads constraints expr state.worklist.length
      state.worklist { state with done := true, newWorklist := [] } :=
    ⟨sliced.valid, sliced.listed, sliced.covers, sliced.split, nofun, by simp⟩
  have final := start.visitAll
  have listed := final.listed
  have split := final.split
  have shrinks := final.shrinks
  rw [append_nil] at listed split
  exact ⟨⟨final.valid, listed, final.covers, split, final.settled⟩, shrinks⟩

theorem sliced_startSlicing (constraints : List E) (expr : E) :
    Sliced isConstantArray findReads constraints expr
      { startSlicing isConstantArray findReads constraints expr with done := false } where
  valid := IndependentElementSet.valid_ofReads _ _
  listed := by
    intro item mem
    rcases mem_map.mp mem with ⟨c, -, rfl⟩
    rfl
  covers := fun p => by simp [startSlicing]
  split := by
    have same : (startSlicing isConstantArray findReads constraints expr).worklist.map Prod.fst =
        constraints := by simp [startSlicing, Function.comp_def]
    exact Perm.of_eq same
  settled := nofun

/-- The loop ends, and splits the constraints into required ones and others
that are separate from them and from the expression. -/
theorem getIndependentConstraints_spec (constraints : List E) (expr : E) {fuel : Nat}
    (enough : constraints.length < fuel) :
    ∃ closure required others,
      getIndependentConstraints isConstantArray findReads fuel constraints expr =
        some (closure, required) ∧
      (required ++ others).Perm constraints ∧
      (∀ p, p ∈ closure.covers ↔
        ∃ e ∈ expr :: required, p ∈ (elementsOf isConstantArray findReads e).covers) ∧
      ∀ c ∈ others, ∀ p ∈ (elementsOf isConstantArray findReads c).covers, p ∉ closure.covers := by
  have entered : Sliced isConstantArray findReads constraints expr
      (slicingRound (startSlicing isConstantArray findReads constraints expr)) ∧ _ :=
    (sliced_startSlicing constraints expr).round
  have kept : ∀ state : Slicing α E, Sliced isConstantArray findReads constraints expr state ->
      (!state.done) = true ->
      Sliced isConstantArray findReads constraints expr (slicingRound state) ∧
        (slicingRound state).worklist.length + (if (slicingRound state).done then 0 else 1) <
          state.worklist.length + (if state.done then 0 else 1) := by
    intro state sliced again
    have next : Sliced isConstantArray findReads constraints expr (slicingRound state) ∧ _ :=
      Sliced.round ⟨sliced.valid, sliced.listed, sliced.covers, sliced.split, nofun⟩
    rw [Bool.not_eq_true'] at again
    rw [again]
    exact ⟨next.1, Nat.lt_succ_of_le next.2⟩
  rcases DoWhile.doWhile_terminates (Sliced isConstantArray findReads constraints expr)
    (fun state => state.worklist.length + (if state.done then 0 else 1)) kept entered.1
    (lt_of_le_of_lt entered.2 (by simpa [startSlicing] using enough)) with
    ⟨final, ran, sliced, stopped⟩
  refine ⟨final.eltsClosure, final.result, final.worklist.map Prod.fst, ?_, sliced.split,
    sliced.covers, fun c mem p touched covered => ?_⟩
  · rw [getIndependentConstraints, ran]
    rfl
  · rcases mem_map.mp mem with ⟨item, listed, rfl⟩
    apply sliced.settled (by simpa using stopped) item listed
    exact ⟨p, sliced.listed item listed ▸ touched, covered⟩

end IndependentSolver
end LlvmProject

namespace LlvmProject
namespace IndependentSolver

/-!
## Answers

An assignment gives the bytes of the symbolic arrays; the bytes of constant
arrays are the same in all of them.  A solution of the required constraints and
a solution of all constraints combine into one that agrees with the first on
the closure and with the second elsewhere.  It solves all constraints, and the
expression has the value it has in the first, so that the required constraints
alone determine the answers.
-/

universe u v w x

variable {α : Type u} {E : Type v} {B : Type w} {W : Type x}

/-! ## Queries -/

abbrev Assignment (α : Type u) (B : Type w) := α -> Nat -> B

/-- The value of an expression depends on the elements of symbolic arrays that
are reported for it. -/
def DependsOnReads (isConstantArray : α -> Bool) (findReads : E -> List (Read α))
    (eval : Assignment α B -> E -> W) : Prop :=
  ∀ e s s', (∀ re ∈ findReads e, isConstantArray re.root = false ->
    ∀ p ∈ re.touches, s p.1 p.2 = s' p.1 p.2) -> eval s e = eval s' e

/-- Two expressions share an element that both may read, leaving out the reads
of a constant array without updates. -/
def Share (isConstantArray : α -> Bool) (findReads : E -> List (Read α)) (c d : E) : Prop :=
  ∃ re ∈ findReads c, ∃ re' ∈ findReads d, re.counted isConstantArray = true ∧
    re'.counted isConstantArray = true ∧ ∃ p, p ∈ re.touches ∧ p ∈ re'.touches

section Query

variable (eval : Assignment α B -> E -> W) (isTrue : W)

def Solves (s : Assignment α B) (constraints : List E) : Prop :=
  ∀ c ∈ constraints, eval s c = isTrue

/-- The expression takes the value under some solution. -/
def Takes (constraints : List E) (expr : E) (value : W) : Prop :=
  ∃ s, Solves eval isTrue s constraints ∧ eval s expr = value

def Valid (constraints : List E) (expr : E) : Prop :=
  ∀ s, Solves eval isTrue s constraints -> eval s expr = isTrue

def Unsatisfiable (constraints : List E) (expr : E) : Prop :=
  ∀ s, Solves eval isTrue s constraints -> eval s expr ≠ isTrue

theorem valid_iff_takes {constraints : List E} {expr : E} :
    Valid eval isTrue constraints expr ↔
      ∀ value, Takes eval isTrue constraints expr value -> value = isTrue := by
  constructor
  · rintro valid value ⟨s, solves, rfl⟩
    exact valid s solves
  · exact fun all s solves => all _ ⟨s, solves, rfl⟩

theorem unsatisfiable_iff_takes {constraints : List E} {expr : E} :
    Unsatisfiable eval isTrue constraints expr ↔ ¬Takes eval isTrue constraints expr isTrue := by
  constructor
  · rintro none ⟨s, solves, same⟩
    exact none s solves same
  · exact fun none s solves same => none ⟨s, solves, same⟩

end Query

/-! ## Combining solutions -/

variable [LinearOrder α] {isConstantArray : α -> Bool} {findReads : E -> List (Read α)}
variable {eval : Assignment α B -> E -> W} {isTrue : W}

variable {s s' : Assignment α B}

theorem DependsOnReads.eval_eq (depends : DependsOnReads isConstantArray findReads eval) {e : E}
    (agree : ∀ p ∈ (elementsOf isConstantArray findReads e).covers, s p.1 p.2 = s' p.1 p.2) :
    eval s e = eval s' e := by
  apply depends e s s'
  intro re mem symbolic p touched
  apply agree p
  refine (IndependentElementSet.mem_covers_ofReads _).mpr ⟨re, mem, ?_, touched⟩
  simp [Read.counted, symbolic]

/-- The first assignment on the elements, and the second elsewhere. -/
noncomputable def combine (elements : Set (α × Nat)) (s s' : Assignment α B) : Assignment α B :=
  open Classical in fun array i => if (array, i) ∈ elements then s array i else s' array i

omit [LinearOrder α] in
theorem combine_of_mem {elements : Set (α × Nat)} {p : α × Nat}
    (mem : p ∈ elements) : combine elements s s' p.1 p.2 = s p.1 p.2 :=
  if_pos mem

omit [LinearOrder α] in
theorem combine_of_not_mem {elements : Set (α × Nat)} {p : α × Nat}
    (absent : p ∉ elements) : combine elements s s' p.1 p.2 = s' p.1 p.2 :=
  if_neg absent

section

variable (depends : DependsOnReads isConstantArray findReads eval)
include depends

/-- The values of the expression are the same when constraints are left out
that touch nothing the expression and the kept ones do. -/
theorem takes_iff {constraints required others : List E} {expr : E}
    {closure : Set (α × Nat)} {value : W} (satisfiable : ∃ s, Solves eval isTrue s constraints)
    (split : (required ++ others).Perm constraints) (inside : ∀ e ∈ expr :: required,
    ∀ p ∈ (elementsOf isConstantArray findReads e).covers, p ∈ closure)
    (outside : ∀ c ∈ others, ∀ p ∈ (elementsOf isConstantArray findReads c).covers, p ∉ closure) :
    Takes eval isTrue constraints expr value ↔ Takes eval isTrue required expr value := by
  constructor
  · rintro ⟨s, solves, takes⟩
    exact ⟨s, fun c mem =>
      solves c (split.mem_iff.mp (List.mem_append_left _ mem)), takes⟩
  · rintro ⟨s, solves, takes⟩
    rcases satisfiable with ⟨s', solvesAll⟩
    have within : ∀ e ∈ expr :: required, eval (combine closure s s') e = eval s e :=
      fun e mem => depends.eval_eq fun p touched =>
        combine_of_mem (inside e mem p touched)
    have without : ∀ c ∈ others, eval (combine closure s s') c = eval s' c :=
      fun c mem => depends.eval_eq fun p touched =>
        combine_of_not_mem (outside c mem p touched)
    refine ⟨combine closure s s', fun c mem => ?_, ?_⟩
    · rcases List.mem_append.mp (split.mem_iff.mpr mem) with kept | left
      · exact (within c (List.mem_cons_of_mem _ kept)).trans (solves c kept)
      · exact (without c left).trans (solvesAll c mem)
    · exact (within expr List.mem_cons_self).trans takes

theorem slice_spec {constraints : List E} (satisfiable : ∃ s, Solves eval isTrue s constraints)
    (expr : E) {fuel : Nat} (enough : constraints.length < fuel) :
    ∃ closure required others,
      getIndependentConstraints isConstantArray findReads fuel constraints expr =
        some (closure, required) ∧
      (required ++ others).Perm constraints ∧
      (∀ c ∈ others, ∀ e ∈ expr :: required, ¬Share isConstantArray findReads c e) ∧
      ∀ value, Takes eval isTrue constraints expr value ↔
        Takes eval isTrue required expr value := by
  obtain ⟨closure, required, others, ran, split, covers, outside⟩ :
      ∃ closure required others,
        getIndependentConstraints isConstantArray findReads fuel constraints expr =
          some (closure, required) ∧ _ :=
    getIndependentConstraints_spec constraints expr enough
  have inside : ∀ e ∈ expr :: required, ∀ p ∈ (elementsOf isConstantArray findReads e).covers,
      p ∈ closure.covers := fun e mem p touched => (covers p).mpr ⟨e, mem, touched⟩
  refine ⟨closure, required, others, ran, split, fun c left e mem => ?_,
    fun value => takes_iff depends satisfiable split inside outside⟩
  rintro ⟨re, listed, re', listed', counted, counted', p, touched, touched'⟩
  apply outside c left p ((IndependentElementSet.mem_covers_ofReads _).mpr
    ⟨re, listed, counted, touched⟩)
  exact inside e mem p ((IndependentElementSet.mem_covers_ofReads _).mpr
    ⟨re', listed', counted', touched'⟩)

end

/-! ## Slicing keeps the answers -/

/-- The loop ends.  A constraint that is left out shares no element of a
symbolic array with the expression or a required constraint, and the expression
is valid, is unsatisfiable or takes a value under the constraints exactly if it
is, or does, under the required ones. -/
theorem getIndependentConstraints_answers (depends : DependsOnReads isConstantArray findReads eval)
    {constraints : List E} (satisfiable : ∃ s, Solves eval isTrue s constraints) (expr : E)
    {fuel : Nat} (enough : constraints.length < fuel) :
    ∃ closure required others,
      getIndependentConstraints isConstantArray findReads fuel constraints expr =
        some (closure, required) ∧
      (required ++ others).Perm constraints ∧
      (∀ c ∈ others, ∀ e ∈ expr :: required, ¬Share isConstantArray findReads c e) ∧
      (Valid eval isTrue constraints expr ↔ Valid eval isTrue required expr) ∧
      (Unsatisfiable eval isTrue constraints expr ↔ Unsatisfiable eval isTrue required expr) ∧
      ∀ value, Takes eval isTrue constraints expr value ↔
        Takes eval isTrue required expr value := by
  rcases slice_spec depends satisfiable expr enough with
    ⟨closure, required, others, ran, split, apart, takes⟩
  refine ⟨closure, required, others, ran, split, apart, ?_, ?_, takes⟩
  · rw [valid_iff_takes, valid_iff_takes]
    exact forall_congr' fun value => imp_congr_left (takes value)
  · rw [unsatisfiable_iff_takes, unsatisfiable_iff_takes]
    exact not_congr (takes isTrue)

/-- An expression that is one byte of an array, for the example below. -/
def byteReads (e : Nat × Nat) : List (Read Nat) := [⟨e.1, false, some e.2⟩]

/-- A constraint on byte 0 and a query about byte 1 of the same array. -/
theorem getIndependentConstraints_answers_bytes :
    ∃ closure required others,
      getIndependentConstraints (fun _ => false) byteReads 2 [(1, 0)] (1, 1) =
        some (closure, required) ∧
      (required ++ others).Perm [(1, 0)] ∧
      (∀ c ∈ others, ∀ e ∈ (1, 1) :: required, ¬Share (fun _ => false) byteReads c e) ∧
      (Valid (fun s e => s e.1 e.2) true [(1, 0)] (1, 1) ↔
        Valid (fun s e => s e.1 e.2) true required (1, 1)) ∧
      (Unsatisfiable (fun s e => s e.1 e.2) true [(1, 0)] (1, 1) ↔
        Unsatisfiable (fun s e => s e.1 e.2) true required (1, 1)) ∧
      ∀ value, Takes (fun s e => s e.1 e.2) true [(1, 0)] (1, 1) value ↔
        Takes (fun s e => s e.1 e.2) true required (1, 1) value := by
  apply getIndependentConstraints_answers
  · intro e s s' agree
    exact agree ⟨e.1, false, some e.2⟩ List.mem_cons_self rfl (e.1, e.2)
      ⟨rfl, fun _ same => Option.some.inj same⟩
  · exact ⟨fun _ _ => true, fun _ _ => rfl⟩
  · decide

/-- A table of constants that both the query and a constraint read does not
connect them. -/
theorem constant_table_shared :
    ∃ (c e : List (Read Nat)) (closure : IndependentElementSet Nat),
      getIndependentConstraints (fun array => array == 0) id 2 [c] e = some (closure, []) ∧
      ∃ re ∈ c, ∃ re' ∈ e, ∃ p, p ∈ re.touches ∧ p ∈ re'.touches :=
  ⟨[⟨0, false, none⟩, ⟨1, false, some 0⟩], [⟨0, false, none⟩, ⟨2, false, some 0⟩], _, rfl,
    ⟨0, false, none⟩, List.mem_cons_self, ⟨0, false, none⟩, List.mem_cons_self, (0, 0),
    ⟨rfl, nofun⟩, ⟨rfl, nofun⟩⟩

/-! ## The solver -/

/-- What a solver that may fail promises for satisfiable constraints. -/
structure SolverImpl.Sound (solver : SolverImpl E W) (eval : Assignment α B -> E -> W)
    (isTrue : W) : Prop where
  validity : ∀ {constraints expr answer}, (∃ s, Solves eval isTrue s constraints) ->
    solver.computeValidity constraints expr = some answer ->
    (answer = .true ↔ Valid eval isTrue constraints expr) ∧
      (answer = .false ↔ Unsatisfiable eval isTrue constraints expr)
  truth : ∀ {constraints expr answer}, (∃ s, Solves eval isTrue s constraints) ->
    solver.computeTruth constraints expr = some answer ->
    (answer = true ↔ Valid eval isTrue constraints expr)
  value : ∀ {constraints expr answer}, (∃ s, Solves eval isTrue s constraints) ->
    solver.computeValue constraints expr = some answer ->
    Takes eval isTrue constraints expr answer

section

variable (depends : DependsOnReads isConstantArray findReads eval)
include depends

/-- With enough rounds, a question about the constraints is a question about a
satisfiable part of them that has the same values. -/
theorem bind_slice
    {constraints : List E} (satisfiable : ∃ s, Solves eval isTrue s constraints) (expr : E)
    {fuel : Nat} (enough : constraints.length < fuel) {R : Type*} (ask : List E -> Option R) :
    ∃ required, (getIndependentConstraints isConstantArray findReads fuel constraints expr).bind
        (fun sliced => ask sliced.2) = ask required ∧
      (∃ s, Solves eval isTrue s required) ∧
      ∀ value, Takes eval isTrue constraints expr value ↔
        Takes eval isTrue required expr value := by
  rcases slice_spec depends satisfiable expr enough with
    ⟨closure, required, others, ran, split, -, takes⟩
  refine ⟨required, by rw [ran, Option.bind_some], ?_, takes⟩
  rcases satisfiable with ⟨s, solves⟩
  exact ⟨s, fun c mem => solves c (split.mem_iff.mp (List.mem_append_left _ mem))⟩

end

/-- A solver for bytes, of which only those in the constraints are known to be true. -/
def byteSolver : SolverImpl (Nat × Nat) Bool where
  computeValidity _ _ := none
  computeTruth constraints expr := some (decide (expr ∈ constraints))
  computeValue _ _ := some true

end IndependentSolver
end LlvmProject
