import LlvmProject.CodeGen.SUnit
import LlvmProject.Library.LongestPath
import Mathlib.Data.Fintype.EquivFin

namespace LlvmProject

open List Function

namespace ScheduleDAG

/-!
# What the caches hold

A unit that is current has current neighbours only, and its value is the maximum over
them.  Both are kept when a unit is marked dirty together with those that depend on it,
and when the dirty units that a unit depends on are computed before it.
-/

open Relation

variable {ι : Type*} {inner outwards : ι -> List (SDep ι)} {cache : Cache ι}
  {isCurrent : ι -> Bool} {SU v : ι}

/-- An edge from one unit to another is in the list of the latter. -/
def Edge (inner : ι -> List (SDep ι)) (u v : ι) : Prop := ∃ dep ∈ inner v, dep.getSUnit = u

/-- The lists outwards have the edges of the lists inwards. -/
def Opposite (inner outwards : ι -> List (SDep ι)) : Prop :=
  ∀ u v, Edge inner u v ↔ Edge outwards v u

/-- The maximum over the edges. -/
def most (value : ι -> UInt32) (deps : List (SDep ι)) (start : UInt32) : UInt32 :=
  deps.foldl (fun most dep => max most (value dep.getSUnit + dep.getLatency)) start

structure Cached (inner : ι -> List (SDep ι)) (cache : Cache ι) : Prop where
  closed : ∀ u v, Edge inner u v -> cache.isCurrent v = true -> cache.isCurrent u = true
  fixed : ∀ v, cache.isCurrent v = true -> cache.value v = most cache.value (inner v) 0

def Acyclic (inner : ι -> List (SDep ι)) : Prop := ∀ v, ¬TransGen (Edge inner) v v

theorem Acyclic.wellFounded [Finite ι] (acyclic : Acyclic inner) :
    WellFounded (Edge inner) :=
  Worklist.wellFounded_of_acyclic acyclic

theorem Acyclic.wellFounded_swap [Finite ι] (acyclic : Acyclic inner) :
    WellFounded fun u v => Edge inner v u := by
  apply Worklist.wellFounded_of_acyclic
  exact fun v path => acyclic v (transGen_swap.mp path)

/-! ## The maximum over the edges -/

theorem mem_scan (cache : Cache ι) (deps : List (SDep ι)) (start : UInt32) (WorkList : List ι) :
    ∀ u, u ∈ (scan cache deps start WorkList).2 ↔
      u ∈ WorkList ∨ ∃ dep ∈ deps, dep.getSUnit = u ∧ cache.isCurrent u = false := by
  induction deps generalizing start WorkList with
  | nil =>
    intro u
    simp only [scan, not_mem_nil, false_and, exists_false, or_false]
  | cons dep deps ih =>
    intro u
    rw [scan]
    cases cur : cache.isCurrent dep.getSUnit with
    | true =>
      rw [if_pos rfl, ih]
      constructor
      · rintro (inside | ⟨other, mem, rfl, dirty⟩)
        · exact .inl inside
        · exact .inr ⟨other, mem_cons_of_mem _ mem, rfl, dirty⟩
      · rintro (inside | ⟨other, mem, rfl, dirty⟩)
        · exact .inl inside
        · rcases mem_cons.mp mem with rfl | mem
          · rw [cur] at dirty
            cases dirty
          · exact .inr ⟨other, mem, rfl, dirty⟩
    | false =>
      rw [if_neg Bool.false_ne_true, ih, mem_cons]
      constructor
      · rintro ((rfl | inside) | ⟨other, mem, rfl, dirty⟩)
        · exact .inr ⟨dep, mem_cons_self, rfl, cur⟩
        · exact .inl inside
        · exact .inr ⟨other, mem_cons_of_mem _ mem, rfl, dirty⟩
      · rintro (inside | ⟨other, mem, rfl, dirty⟩)
        · exact .inl (.inr inside)
        · rcases mem_cons.mp mem with rfl | mem
          · exact .inl (.inl rfl)
          · exact .inr ⟨other, mem, rfl, dirty⟩

variable {deps : List (SDep ι)}

theorem scan_most (start : UInt32) (WorkList : List ι)
    (cur : ∀ dep ∈ deps, cache.isCurrent dep.getSUnit = true) :
    (scan cache deps start WorkList).1 = most cache.value deps start := by
  induction deps generalizing start with
  | nil => rfl
  | cons dep deps ih =>
    rw [scan, if_pos (cur dep mem_cons_self)]
    exact ih _ fun other mem => cur other (mem_cons_of_mem _ mem)

theorem most_congr {value value' : ι -> UInt32} (start : UInt32)
    (same : ∀ dep ∈ deps, value' dep.getSUnit = value dep.getSUnit) :
    most value' deps start = most value deps start := by
  induction deps generalizing start with
  | nil => rfl
  | cons dep deps ih =>
    rw [most, most, foldl_cons, foldl_cons, same dep mem_cons_self]
    exact ih _ fun other mem => same other (mem_cons_of_mem _ mem)


theorem toNat_max (first second : UInt32) :
    (max first second).toNat = max first.toNat second.toNat := by
  have unfolded : max first second = if first <= second then second else first := rfl
  rw [unfolded]
  split
  · rename_i below
    exact (max_eq_right (UInt32.le_iff_toNat_le.mp below)).symm
  · rename_i above
    rw [UInt32.le_iff_toNat_le] at above
    exact (max_eq_left (Nat.le_of_not_le above)).symm

variable {value : ι -> UInt32}

theorem le_most_start (start : UInt32) : start <= most value deps start := by
  induction deps generalizing start with
  | nil => exact UInt32.le_refl start
  | cons dep deps ih =>
    apply UInt32.le_trans _ (ih _)
    rw [UInt32.le_iff_toNat_le, toNat_max]
    exact le_max_left _ _

theorem le_most {dep : SDep ι} (start : UInt32) (mem : dep ∈ deps) :
    value dep.getSUnit + dep.getLatency <= most value deps start := by
  induction deps generalizing start with
  | nil => cases mem
  | cons first deps ih =>
    rcases mem_cons.mp mem with rfl | later
    · have larger : value dep.getSUnit + dep.getLatency <=
          max start (value dep.getSUnit + dep.getLatency) := by
        rw [UInt32.le_iff_toNat_le, toNat_max]
        exact le_max_right _ _
      exact UInt32.le_trans larger (le_most_start _)
    · exact ih _ later

theorem most_cases (value : ι -> UInt32) (deps : List (SDep ι)) (start : UInt32) :
    most value deps start = start ∨
      ∃ dep ∈ deps, value dep.getSUnit + dep.getLatency = most value deps start := by
  induction deps generalizing start with
  | nil => exact .inl rfl
  | cons first deps ih =>
    rcases ih (max start (value first.getSUnit + first.getLatency)) with
      same | ⟨dep, mem, same⟩
    · have unfolded : max start (value first.getSUnit + first.getLatency) =
          if start <= value first.getSUnit + first.getLatency
            then value first.getSUnit + first.getLatency else start := rfl
      rw [most, foldl_cons, <- most, same, unfolded]
      split
      · exact .inr ⟨first, mem_cons_self, rfl⟩
      · exact .inl rfl
    · exact .inr ⟨dep, mem_cons_of_mem _ mem, same⟩

/-- A bound of the edges that is zero or attained is their maximum. -/
theorem most_eq {greatest : UInt32}
    (above : ∀ dep ∈ deps, value dep.getSUnit + dep.getLatency <= greatest)
    (attained : greatest = 0 ∨ ∃ dep ∈ deps, value dep.getSUnit + dep.getLatency = greatest) :
    greatest = most value deps 0 := by
  apply UInt32.le_antisymm
  · rcases attained with rfl | ⟨dep, mem, rfl⟩
    · exact le_most_start 0
    · exact le_most 0 mem
  · rcases most_cases value deps 0 with zero | ⟨dep, mem, same⟩
    · rw [zero]
      exact UInt32.zero_le
    · rw [<- same]
      exact above dep mem

/-! ## Paths -/

/-- The edges with their latencies, as lengths. -/
def weights (inner : ι -> List (SDep ι)) (v : ι) : List (ι × Nat) :=
  (inner v).map fun dep => (dep.getSUnit, dep.getLatency.toNat)

/-- The total latency of a path fits its type. -/
def Bounded (inner : ι -> List (SDep ι)) : Prop :=
  ∀ v total, LongestPath.Path (weights inner) v total -> total < 2 ^ 32

theorem toNat_most (start : UInt32)
    (fits : ∀ dep ∈ deps, (value dep.getSUnit).toNat + dep.getLatency.toNat < 2 ^ 32) :
    (most value deps start).toNat = max start.toNat (LongestPath.greatest
      (fun u => (value u).toNat) (deps.map fun dep => (dep.getSUnit, dep.getLatency.toNat))) := by
  induction deps generalizing start with
  | nil => exact (Nat.max_eq_left (Nat.zero_le _)).symm
  | cons dep deps ih =>
    rw [forall_mem_cons] at fits
    have sum : (value dep.getSUnit + dep.getLatency).toNat =
        (value dep.getSUnit).toNat + dep.getLatency.toNat := by
      rw [UInt32.toNat_add]
      exact Nat.mod_eq_of_lt fits.1
    have larger : (max start (value dep.getSUnit + dep.getLatency)).toNat =
        max start.toNat ((value dep.getSUnit).toNat + dep.getLatency.toNat) := by
      rw [toNat_max, sum]
    calc (most value (dep :: deps) start).toNat
        = max (max start.toNat ((value dep.getSUnit).toNat + dep.getLatency.toNat)) _ := by
          rw [<- larger]
          exact ih _ fits.2
      _ = _ := Nat.max_assoc _ _ _

theorem Cached.isGreatest [Finite ι] (acyclic : Acyclic inner) (bounded : Bounded inner)
    (cached : Cached inner cache) (cur : cache.isCurrent v = true) :
    IsGreatest {total | LongestPath.Path (weights inner) v total} (cache.value v).toNat := by
  induction v using acyclic.wellFounded.induction with
  | _ v ih =>
    have sources : ∀ edge ∈ weights inner v,
        IsGreatest {total | LongestPath.Path (weights inner) edge.1 total}
          (cache.value edge.1).toNat := by
      intro edge mem
      rcases List.mem_map.mp mem with ⟨dep, inside, rfl⟩
      have before : Edge inner dep.getSUnit v := ⟨dep, inside, rfl⟩
      exact ih _ before (cached.closed _ _ before cur)
    have fits : ∀ dep ∈ inner v,
        (cache.value dep.getSUnit).toNat + dep.getLatency.toNat < 2 ^ 32 := by
      intro dep inside
      have mem : (dep.getSUnit, dep.getLatency.toNat) ∈ weights inner v :=
        List.mem_map_of_mem inside
      exact bounded v _ (LongestPath.Path.step mem (sources _ mem).1)
    have value : (cache.value v).toNat =
        LongestPath.greatest (fun u => (cache.value u).toNat) (weights inner v) := by
      rw [cached.fixed v cur, toNat_most 0 fits]
      exact Nat.max_eq_right (Nat.zero_le _)
    rw [value]
    exact LongestPath.isGreatest_greatest sources

/-! ## Marking -/

variable [DecidableEq ι]

/-- What is current after the unit is marked. -/
structure Marked (inner : ι -> List (SDep ι)) (isCurrent isCurrent' : ι -> Bool) (SU : ι) :
    Prop where
  dirty : isCurrent' SU = false
  fewer : ∀ v, isCurrent' v = true -> isCurrent v = true
  closed : ∀ u v, Edge inner u v -> isCurrent' v = true -> isCurrent' u = true

/-- The current units have current neighbours, but for those that wait to be marked. -/
structure Marking (inner : ι -> List (SDep ι)) (start : ι -> Bool) (SU : ι) (WorkList : List ι)
    (isCurrent : ι -> Bool) : Prop where
  pending : isCurrent SU = false ∨ SU ∈ WorkList
  fewer : ∀ v, isCurrent v = true -> start v = true
  closed : ∀ u v, Edge inner u v -> isCurrent v = true -> isCurrent u = true ∨ v ∈ WorkList

theorem dirtyVisit_keeps (opposite : Opposite inner outwards) (start : ι -> Bool) (SU : ι) :
    Worklist.Keeps (dirtyVisit outwards) (fun u v => Edge inner v u) (Marking inner start SU)
      fun _ => False := by
  intro item rest isCurrent marking
  have self : Function.update isCurrent item false item = false := update_self _ _ _
  have fewer : ∀ v, Function.update isCurrent item false v = true ->
      v ≠ item ∧ isCurrent v = true := by
    intro v cur
    by_cases same : v = item
    · rw [same, self] at cur
      cases cur
    · rw [update_of_ne same] at cur
      exact ⟨same, cur⟩
  have mem : ∀ v, v ∈ (((outwards item).map SDep.getSUnit).filter
      (Function.update isCurrent item false)).reverse ↔
      Edge inner item v ∧ Function.update isCurrent item false v = true := by
    intro v
    rw [mem_reverse, mem_filter, List.mem_map, opposite]
    rfl
  refine .inl ⟨_, _, rfl, ⟨?_, ?_, ?_⟩, fun v inside => ((mem v).mp inside).1⟩
  · rcases marking.pending with dirty | inside
    · refine .inl ?_
      cases cur : Function.update isCurrent item false SU with
      | false => rfl
      | true =>
        have both := fewer SU cur
        rw [dirty] at both
        cases both.2
    · rcases mem_cons.mp inside with rfl | inside
      · exact .inl self
      · exact .inr (mem_append_right _ inside)
  · exact fun v cur => marking.fewer v (fewer v cur).2
  · intro u v edge cur
    by_cases source : u = item
    · rw [source] at edge
      exact .inr (mem_append_left _ ((mem v).mpr ⟨edge, cur⟩))
    · rcases marking.closed u v edge (fewer v cur).2 with before | inside
      · left
        rwa [update_of_ne source]
      · rcases mem_cons.mp inside with same | inside
        · exact absurd same (fewer v cur).1
        · exact .inr (mem_append_right _ inside)

/-- A unit is marked.  Its own edges may be new. -/
theorem setDirty_total [Finite ι] (acyclic : Acyclic inner) (opposite : Opposite inner outwards)
    (closed : ∀ u v, Edge inner u v -> v ≠ SU -> isCurrent v = true -> isCurrent u = true) :
    ∃ bound isCurrent', (∀ fuel, bound <= fuel ->
        setDirty fuel outwards isCurrent SU = some isCurrent') ∧
      Marked inner isCurrent isCurrent' SU := by
  cases cur : isCurrent SU with
  | false =>
    refine ⟨0, isCurrent, fun fuel _ => ?_, cur, fun _ => id, fun u v edge later => ?_⟩
    · rw [setDirty, cur, if_neg Bool.false_ne_true]
    · refine closed u v edge ?_ later
      rintro rfl
      rw [cur] at later
      cases later
  | true =>
    have start : Marking inner isCurrent SU [SU] isCurrent := by
      refine ⟨.inr mem_cons_self, fun _ => id, fun u v edge later => ?_⟩
      by_cases same : v = SU
      · exact .inr (mem_singleton.mpr same)
      · exact .inl (closed u v edge same later)
    rcases (dirtyVisit_keeps opposite isCurrent SU).total acyclic.wellFounded_swap start with
      ⟨bound, isCurrent', ran, marked | never⟩
    · refine ⟨bound, isCurrent', fun fuel enough => ?_, ?_, marked.fewer, ?_⟩
      · rw [setDirty, cur, if_pos rfl]
        exact ran fuel enough
      · exact marked.pending.resolve_right not_mem_nil
      · exact fun u v edge later => (marked.closed u v edge later).resolve_right not_mem_nil
    · exact absurd never id

/-! ## Computing -/

theorem update_grows {u : ι} (already : isCurrent u = true) :
    Function.update isCurrent SU true u = true := by
  by_cases same : u = SU
  · rw [same]
    exact update_self _ _ _
  · rwa [update_of_ne same]

/-- The cache after a unit is computed from its neighbours. -/
theorem Cached.update (cached : Cached inner cache)
    (cur : ∀ dep ∈ inner SU, cache.isCurrent dep.getSUnit = true) :
    Cached inner
      { value := Function.update cache.value SU (most cache.value (inner SU) 0)
        isCurrent := Function.update cache.isCurrent SU true } := by
  have unchanged : ∀ u, cache.isCurrent u = true ->
      Function.update cache.value SU (most cache.value (inner SU) 0) u = cache.value u := by
    intro u already
    by_cases same : u = SU
    · rw [same] at already ⊢
      rw [update_self]
      exact (cached.fixed SU already).symm
    · exact update_of_ne same _ _
  constructor
  · intro u v edge already
    by_cases same : v = SU
    · rcases edge with ⟨dep, mem, rfl⟩
      exact update_grows (cur dep (same ▸ mem))
    · apply update_grows
      apply cached.closed u v edge
      exact (update_of_ne same _ _).symm.trans already
  · intro v already
    by_cases same : v = SU
    · rw [same]
      exact (update_self _ _ _).trans
        (most_congr 0 fun dep mem => unchanged _ (cur dep mem)).symm
    · have before : cache.isCurrent v = true :=
        (update_of_ne same _ _).symm.trans already
      calc Function.update cache.value SU (most cache.value (inner SU) 0) v
          = cache.value v := update_of_ne same _ _
        _ = most cache.value (inner v) 0 := cached.fixed v before
        _ = most (Function.update cache.value SU (most cache.value (inner SU) 0))
              (inner v) 0 :=
            (most_congr 0 fun dep mem =>
              unchanged _ (cached.closed _ v ⟨dep, mem, rfl⟩ before)).symm

/-- The units are taken off the worklist, and are current from then on. -/
def Computes (inner outwards : ι -> List (SDep ι)) (units : List ι) : Prop :=
  ∀ cache, Cached inner cache -> ∃ (steps : Nat) (cache' : Cache ι), Cached inner cache' ∧
    (∀ u ∈ units, cache'.isCurrent u = true) ∧
    (∀ u, cache.isCurrent u = true -> cache'.isCurrent u = true) ∧
    ∀ dirtyFuel fuel rest,
      computeLoop inner outwards dirtyFuel (steps + fuel) (units ++ rest) cache =
        computeLoop inner outwards dirtyFuel fuel rest cache'

theorem Computes.nil : Computes inner outwards [] := by
  intro cache cached
  refine ⟨0, cache, cached, fun _ inside => absurd inside not_mem_nil, fun _ => id, ?_⟩
  intro dirtyFuel fuel rest
  rw [zero_add, nil_append]

theorem Computes.cons {u : ι} {units : List ι} (first : Computes inner outwards [u])
    (later : Computes inner outwards units) : Computes inner outwards (u :: units) := by
  intro cache cached
  rcases first cache cached with ⟨steps, middle, cachedMiddle, cur, kept, ran⟩
  rcases later middle cachedMiddle with ⟨more, last, cachedLast, currentLast, keptLast, ranLast⟩
  refine ⟨steps + more, last, cachedLast, ?_, fun v before => keptLast v (kept v before), ?_⟩
  · rw [forall_mem_cons]
    exact ⟨keptLast u (cur u mem_cons_self), currentLast⟩
  · intro dirtyFuel fuel rest
    rw [add_assoc]
    exact (ran dirtyFuel (more + fuel) (units ++ rest)).trans (ranLast dirtyFuel fuel rest)

theorem Computes.list {units : List ι} (each : ∀ u ∈ units, Computes inner outwards [u]) :
    Computes inner outwards units := by
  induction units with
  | nil => exact Computes.nil
  | cons u units ih =>
    rw [forall_mem_cons] at each
    exact each.1.cons (ih each.2)

theorem setDirty_dirty (fuel : Nat) (dirty : isCurrent SU = false) :
    setDirty fuel outwards isCurrent SU = some isCurrent := by
  rw [setDirty, dirty, if_neg Bool.false_ne_true]

/-- A unit with current neighbours leaves the worklist.  It is marked only if it is dirty
already, since the value of a current one does not change. -/
theorem computeLoop_done (cached : Cached inner cache) (cur : ∀ dep ∈ inner SU, cache.isCurrent
    dep.getSUnit = true) (dirtyFuel fuel : Nat) (rest : List ι) :
    computeLoop inner outwards dirtyFuel (fuel + 1) (SU :: rest) cache =
      computeLoop inner outwards dirtyFuel fuel rest
        { value := Function.update cache.value SU (most cache.value (inner SU) 0)
          isCurrent := Function.update cache.isCurrent SU true } := by
  have nothing : (scan cache (inner SU) 0 []).2 = [] := by
    apply eq_nil_iff_forall_not_mem.mpr
    intro u inside
    rcases (mem_scan cache _ _ _ u).mp inside with never | ⟨dep, mem, rfl, dirty⟩
    · cases never
    · rw [cur dep mem] at dirty
      cases dirty
  rw [computeLoop, if_pos nothing, scan_most 0 [] cur]
  by_cases changed : most cache.value (inner SU) 0 ≠ cache.value SU
  · have dirty : cache.isCurrent SU = false := by
      cases already : cache.isCurrent SU with
      | false => rfl
      | true => exact absurd (cached.fixed SU already).symm changed
    rw [if_pos changed, setDirty_dirty dirtyFuel dirty]
    rfl
  · rw [if_neg changed, not_not.mp changed, update_eq_self]

theorem computeLoop_ready (cached : Cached inner cache)
    (cur : ∀ dep ∈ inner SU, cache.isCurrent dep.getSUnit = true) :
    ∃ (steps : Nat) (cache' : Cache ι), Cached inner cache' ∧
      (∀ u ∈ [SU], cache'.isCurrent u = true) ∧
      (∀ u, cache.isCurrent u = true -> cache'.isCurrent u = true) ∧
      ∀ dirtyFuel fuel rest,
        computeLoop inner outwards dirtyFuel (steps + fuel) ([SU] ++ rest) cache =
          computeLoop inner outwards dirtyFuel fuel rest cache' := by
  refine ⟨1, _, cached.update cur, ?_, fun _ => update_grows, ?_⟩
  · exact forall_mem_singleton.mpr (update_self _ _ _)
  · intro dirtyFuel fuel rest
    rw [add_comm, singleton_append]
    exact computeLoop_done cached cur dirtyFuel fuel rest

variable (outwards)

/-- The dirty neighbours are computed before the unit, along the edges. -/
theorem computes [Finite ι] (acyclic : Acyclic inner) (SU : ι) : Computes inner outwards [SU] := by
  induction SU using acyclic.wellFounded.induction with
  | _ SU ih =>
    intro cache cached
    by_cases ready : (scan cache (inner SU) 0 []).2 = []
    · have cur : ∀ dep ∈ inner SU, cache.isCurrent dep.getSUnit = true := by
        intro dep mem
        cases already : cache.isCurrent dep.getSUnit with
        | true => rfl
        | false =>
          have inside := (mem_scan cache (inner SU) 0 [] _).mpr
            (.inr ⟨dep, mem, rfl, already⟩)
          rw [ready] at inside
          cases inside
      exact computeLoop_ready cached cur
    · have before : Computes inner outwards (scan cache (inner SU) 0 []).2 := by
        apply Computes.list
        intro u inside
        rcases (mem_scan cache _ _ _ u).mp inside with never | ⟨dep, mem, rfl, _⟩
        · cases never
        · exact ih _ ⟨dep, mem, rfl⟩
      rcases before cache cached with ⟨steps, middle, cachedMiddle, cur, kept, ran⟩
      have all : ∀ dep ∈ inner SU, middle.isCurrent dep.getSUnit = true := by
        intro dep mem
        cases already : cache.isCurrent dep.getSUnit with
        | true => exact kept _ already
        | false =>
          exact cur _ ((mem_scan cache _ _ _ _).mpr (.inr ⟨dep, mem, rfl, already⟩))
      rcases computeLoop_ready cachedMiddle all with
        ⟨more, last, cachedLast, currentLast, keptLast, ranLast⟩
      refine ⟨steps + more + 1, last, cachedLast, currentLast, ?_, ?_⟩
      · exact fun u already => keptLast u (kept u already)
      · intro dirtyFuel fuel rest
        have order : steps + more + 1 + fuel = (steps + (more + fuel)) + 1 := by omega
        rw [order, singleton_append, computeLoop, if_neg ready, ran]
        exact ranLast dirtyFuel fuel rest
/-- Computing a unit terminates, and the unit is current after it. -/
theorem computeLoop_total [Finite ι] (acyclic : Acyclic inner) (cached : Cached inner cache)
    (SU : ι) : ∃ bound cache', (∀ fuel, bound <= fuel ->
        computeLoop inner outwards fuel fuel [SU] cache = some cache') ∧
      Cached inner cache' ∧ cache'.isCurrent SU = true := by
  rcases computes outwards acyclic SU cache cached with
    ⟨steps, cache', cachedLast, cur, _, ran⟩
  refine ⟨steps, cache', fun fuel enough => ?_, cachedLast, cur SU mem_cons_self⟩
  rcases Nat.exists_eq_add_of_le enough with ⟨more, rfl⟩
  rw [<- append_nil [SU], ran]
  cases more <;> rfl

end ScheduleDAG
end LlvmProject
