import LlvmProject.CodeGen.SUnitLists

namespace LlvmProject

open List Option

namespace ScheduleDAG

/-!
# Cached depths and heights over whole runs

The caches are right as long as an edge that changes without marking its units dirty does
not change their maxima.
-/

variable {ι : Type*} {inner inner' : ι -> List (SDep ι)} {cache : Cache ι} {SU v : ι}
  {D : SDep ι}

/-! ## Edges that change without marking -/

/-- A current unit is not below the edge, which comes from a current one. -/
def Covers (cache : Cache ι) (SU : ι) (D : SDep ι) : Prop :=
  cache.isCurrent SU = true -> cache.isCurrent D.getSUnit = true ∧
    (cache.value D.getSUnit).toNat + D.getLatency.toNat <= (cache.value SU).toNat

/-- The value of a current unit does not need other edges. -/
def Attained (cache : Cache ι) (SU : ι) (deps : List (SDep ι)) : Prop :=
  cache.isCurrent SU = true -> cache.value SU = 0 ∨
    ∃ dep ∈ deps, cache.value dep.getSUnit + dep.getLatency = cache.value SU

section

variable (cached : Cached inner cache)
include cached

/-- The new edges of a unit give the value that it has. -/
theorem Cached.unmarked
    (others : ∀ v, v ≠ SU -> inner' v = inner v)
    (cur : cache.isCurrent SU = true -> ∀ dep ∈ inner' SU,
      cache.isCurrent dep.getSUnit = true ∧
        cache.value dep.getSUnit + dep.getLatency <= cache.value SU)
    (attained : Attained cache SU (inner' SU)) : Cached inner' cache := by
  constructor
  · rintro u v ⟨dep, mem, rfl⟩ already
    by_cases same : v = SU
    · subst same
      exact (cur already dep mem).1
    · rw [others v same] at mem
      exact cached.closed _ v ⟨dep, mem, rfl⟩ already
  · intro v already
    by_cases same : v = SU
    · subst same
      exact most_eq (fun dep mem => (cur already dep mem).2) (attained already)
    · rw [others v same]
      exact cached.fixed v already

/-- What a current unit knows about its edges. -/
theorem Cached.below (cur : cache.isCurrent SU = true) :
    ∀ dep ∈ inner SU, cache.isCurrent dep.getSUnit = true ∧
      cache.value dep.getSUnit + dep.getLatency <= cache.value SU := by
  intro dep mem
  refine ⟨cached.closed _ SU ⟨dep, mem, rfl⟩ cur, ?_⟩
  rw [cached.fixed SU cur]
  exact le_most 0 mem

theorem Cached.attained : Attained cache SU (inner SU) := by
  intro cur
  rw [cached.fixed SU cur]
  exact most_cases cache.value (inner SU) 0

end

theorem Covers.below (covers : Covers cache SU D) (cur : cache.isCurrent SU = true) :
    cache.isCurrent D.getSUnit = true ∧ cache.value D.getSUnit + D.getLatency <=
    cache.value SU := by
  rcases covers cur with ⟨source, bound⟩
  refine ⟨source, ?_⟩
  rw [UInt32.le_iff_toNat_le, UInt32.toNat_add]
  exact (Nat.mod_le _ _).trans bound

section

variable (cached : Cached inner cache)
include cached

theorem Cached.push (covers : Covers cache SU D)
    (others : ∀ v, v ≠ SU -> inner' v = inner v) (pushed : inner' SU = inner SU ++ [D]) :
    Cached inner' cache := by
  apply cached.unmarked others
  · intro cur dep mem
    rw [pushed, mem_append, mem_singleton] at mem
    rcases mem with before | rfl
    · exact cached.below cur dep before
    · exact covers.below cur
  · intro cur
    rcases cached.attained cur with zero | ⟨dep, mem, same⟩
    · exact .inl zero
    · exact .inr ⟨dep, pushed ▸ mem_append_left _ mem, same⟩

/-- A larger latency that the value covers was not the one that gave it. -/
theorem Cached.raise [DecidableEq ι] {I : SDep ι} (lower : I.getLatency < D.getLatency)
    (source : D.getSUnit = I.getSUnit) (covers : Covers cache SU D)
    (nodup : (inner SU).Nodup) (inside : I ∈ inner SU) (others : ∀ v, v ≠ SU -> inner' v = inner v)
    (raised : inner' SU = (inner SU).replace I { I with getLatency := D.getLatency }) :
    Cached inner' cache := by
  apply cached.unmarked others
  · intro cur dep mem
    rw [raised, mem_replace nodup inside] at mem
    rcases mem with ⟨before, _⟩ | rfl
    · exact cached.below cur dep before
    · exact source ▸ covers.below cur
  · intro cur
    rcases cached.attained cur with zero | ⟨dep, mem, same⟩
    · exact .inl zero
    · refine .inr ⟨dep, ?_, same⟩
      rw [raised, mem_replace nodup inside]
      refine .inl ⟨mem, ?_⟩
      rintro rfl
      have bound := (covers cur).2
      rw [UInt32.lt_iff_toNat_lt] at lower
      have sum := congrArg UInt32.toNat same
      rw [UInt32.toNat_add] at sum
      have below := Nat.mod_le ((cache.value dep.getSUnit).toNat + dep.getLatency.toNat) (2 ^ 32)
      rw [source] at bound
      omega

theorem Cached.erase [DecidableEq ι]
    (attained : Attained cache SU ((inner SU).erase D)) (others : ∀ v, v ≠ SU -> inner' v = inner v)
    (erased : inner' SU = (inner SU).erase D) : Cached inner' cache := by
  apply cached.unmarked others
  · intro cur dep mem
    rw [erased] at mem
    exact cached.below cur dep (mem_of_mem_erase mem)
  · rw [erased]
    exact attained

/-- The edges of a unit that is marked may be new. -/
theorem Cached.marked {isCurrent' : ι -> Bool} (others : ∀ v, v ≠ SU -> inner' v = inner v)
    (marked : Marked inner' cache.isCurrent isCurrent' SU) :
    Cached inner' { cache with isCurrent := isCurrent' } := by
  refine ⟨marked.closed, fun v already => ?_⟩
  have other : v ≠ SU := by
    rintro rfl
    exact Bool.false_ne_true (marked.dirty.symm.trans already)
  rw [others v other]
  exact cached.fixed v (marked.fewer v already)

end

theorem Cached.dirty (dirty : ∀ v, cache.isCurrent v = false) : Cached inner cache := by
  constructor
  · intro u v _ already
    rw [dirty v] at already
    cases already
  · intro v already
    rw [dirty v] at already
    cases already

theorem Cached.closed_others (cached : Cached inner cache)
    (others : ∀ v, v ≠ SU -> inner' v = inner v) (u v : ι) (edge : Edge inner' u v)
    (other : v ≠ SU) (cur : cache.isCurrent v = true) : cache.isCurrent u = true := by
  apply cached.closed u v _ cur
  rwa [Edge, <- others v other]

/-! ## Graphs without cycles -/

/-- The units before any edge is added. -/
def SUnits.unlinked : SUnits ι where
  Preds _ := []
  Succs _ := []
  depth := { value := fun _ => 0, isCurrent := fun _ => false }
  height := { value := fun _ => 0, isCurrent := fun _ => false }

/-- The graph has no cycles, and its paths fit the type of the latencies. -/
structure Dag (units : SUnits ι) : Prop where
  acyclic : Acyclic units.Preds
  depths : Bounded units.Preds
  heights : Bounded units.Succs

theorem Acyclic.of_rank (rank : ι -> Nat)
    (increases : ∀ v, ∀ dep ∈ inner v, rank dep.getSUnit < rank v) : Acyclic inner := by
  have path : ∀ u v, Relation.TransGen (Edge inner) u v -> rank u < rank v := by
    intro u v path
    induction path with
    | single edge =>
      rcases edge with ⟨dep, mem, rfl⟩
      exact increases _ dep mem
    | tail _ edge ih =>
      rcases edge with ⟨dep, mem, rfl⟩
      exact ih.trans (increases _ dep mem)
  exact fun v cycle => lt_irrefl _ (path v v cycle)

theorem Bounded.of_rank (rank : ι -> Nat) (fits : ∀ v, rank v < 2 ^ 32)
    (increases : ∀ v, ∀ dep ∈ inner v, rank dep.getSUnit + dep.getLatency.toNat <= rank v) :
    Bounded inner := by
  intro v total path
  apply Nat.lt_of_le_of_lt _ (fits v)
  induction path with
  | here v => exact Nat.zero_le _
  | step edge _ ih =>
    rcases List.mem_map.mp edge with ⟨dep, mem, same⟩
    cases same
    exact (Nat.add_le_add_right ih _).trans (increases _ dep mem)

/-! ## The operations -/

variable [DecidableEq ι] {units units' after : SUnits ι}

structure Consistent (units : SUnits ι) : Prop where
  linked : Linked units
  depth : Cached units.Preds units.depth
  height : Cached units.Succs units.height

/-- The caches are those before, and only the lists at the two ends of an edge are new. -/
structure Relinked (units after : SUnits ι) (SU N : ι) : Prop where
  linked : Linked after
  depth : after.depth = units.depth
  height : after.height = units.height
  others : ∀ v, v ≠ SU -> after.Preds v = units.Preds v
  othersSuccs : ∀ v, v ≠ N -> after.Succs v = units.Succs v

theorem relinked_setLists {N : ι} {preds succs : List (SDep ι)}
    (linked : Linked (units.setLists SU N preds succs)) :
    Relinked units (units.setLists SU N preds succs) SU N where
  linked := linked
  depth := rfl
  height := rfl
  others _ other := setLists_Preds_of_ne units preds succs other
  othersSuccs _ other := setLists_Succs_of_ne units preds succs other

/-- Both ends of the edge are marked. -/
theorem Consistent.markDirty [Finite ι] (consistent : Consistent units) (relinked : Relinked units
    after SU D.getSUnit) (acyclic : Acyclic after.Preds) (latency : D.getLatency ≠ 0) :
    ∃ bound units', (∀ fuel, bound <= fuel -> after.markDirty fuel SU D = some units') ∧
      Consistent units' := by
  have opposite := relinked.linked.opposite
  rcases setDirty_total acyclic opposite (consistent.depth.closed_others relinked.others) with
    ⟨bound, isDepthCurrent, ran, marked⟩
  rcases setDirty_total (acyclic.opposite opposite) opposite.symm
    (consistent.height.closed_others relinked.othersSuccs) with
    ⟨boundHeight, isHeightCurrent, ranHeight, markedHeight⟩
  refine ⟨max bound boundHeight, { after with
    depth := { after.depth with isCurrent := isDepthCurrent }
    height := { after.height with isCurrent := isHeightCurrent } }, fun fuel enough => ?_, ?_⟩
  · have first := ran fuel ((le_max_left _ _).trans enough)
    have second := ranHeight fuel ((le_max_right _ _).trans enough)
    rw [<- relinked.depth] at first
    rw [<- relinked.height] at second
    rw [SUnits.markDirty, if_pos latency, SUnits.setDepthDirty, first, map_some,
      bind_some, SUnits.setHeightDirty, second]
    rfl
  · refine ⟨⟨relinked.linked.mirrored, relinked.linked.distinctPreds,
      relinked.linked.distinctSuccs⟩, ?_, ?_⟩
    · rw [relinked.depth]
      exact consistent.depth.marked relinked.others marked
    · rw [relinked.height]
      exact consistent.height.marked relinked.othersSuccs markedHeight

theorem Consistent.markDirty_skip (relinked : Relinked units after SU D.getSUnit)
    (latency : D.getLatency = 0) (depth : Cached after.Preds units.depth)
    (height : Cached after.Succs units.height) :
    ∃ bound units', (∀ fuel, bound <= fuel -> after.markDirty fuel SU D = some units') ∧
      Consistent units' := by
  refine ⟨0, after, fun fuel _ => ?_, relinked.linked, ?_, ?_⟩
  · rw [SUnits.markDirty, if_neg (not_not.mpr latency)]
  · rwa [relinked.depth]
  · rwa [relinked.height]

/-! ## Runs -/

inductive Operation (ι : Type*) where
  | addPred (SU : ι) (D : SDep ι) (Required : Bool)
  | removePred (SU : ι) (D : SDep ι)
  | getDepth (SU : ι)
  | getHeight (SU : ι)

def execute (fuel : Nat) (units : SUnits ι) : Operation ι -> Option (SUnits ι)
  | .addPred SU D Required => (units.addPred fuel SU D Required).map Prod.snd
  | .removePred SU D => units.removePred fuel SU D
  | .getDepth SU => (units.getDepth fuel SU).map Prod.snd
  | .getHeight SU => (units.getHeight fuel SU).map Prod.snd

/-- An operation has the result, given enough fuel. -/
def Executes (units : SUnits ι) (op : Operation ι) (units' : SUnits ι) : Prop :=
  ∃ bound, ∀ fuel, bound <= fuel -> execute fuel units op = some units'

/-- The unmarked changes are the edges that are added or removed with no latency, and those
whose latency is raised.  They must not change a maximum that is cached. -/
def Sound (units : SUnits ι) : Operation ι -> Prop
  | .addPred SU D Required =>
    match units.redundant SU D Required with
    | none => D.getLatency = 0 ->
        Covers units.depth SU D ∧ Covers units.height D.getSUnit (D.flip SU)
    | some I => Required = true -> I.getLatency < D.getLatency ->
        Covers units.depth SU D ∧ Covers units.height D.getSUnit (D.flip SU)
  | .removePred SU D => D ∈ units.Preds SU -> D.getLatency = 0 ->
      Attained units.depth SU ((units.Preds SU).erase D) ∧
        Attained units.height D.getSUnit ((units.Succs D.getSUnit).erase (D.flip SU))
  | .getDepth _ => True
  | .getHeight _ => True

inductive Reachable : SUnits ι -> Prop
  | start {units : SUnits ι} (linked : Linked units) (graph : Dag units)
      (depth : ∀ v, units.depth.isCurrent v = false)
      (height : ∀ v, units.height.isCurrent v = false) : Reachable units
  | step {units units' : SUnits ι} {op : Operation ι} (reachable : Reachable units)
      (sound : Sound units op) (executes : Executes units op units')
      (graph : Dag units') : Reachable units'

/-! ## What a step keeps -/

section

variable (consistent : Consistent units)
include consistent

theorem Consistent.pushed [Finite ι] {Required : Bool} (new :
    units.redundant SU D Required = none) (sound : D.getLatency = 0 -> Covers units.depth SU D ∧
    Covers units.height D.getSUnit (D.flip SU)) (acyclic : Acyclic (units.pushed SU D).Preds) :
    ∃ bound units', (∀ fuel, bound <= fuel ->
        (units.pushed SU D).markDirty fuel SU D = some units') ∧ Consistent units' := by
  have relinked : Relinked units (units.pushed SU D) SU D.getSUnit :=
    relinked_setLists (consistent.linked.pushed new)
  by_cases latency : D.getLatency = 0
  · rcases sound latency with ⟨covers, coversHeight⟩
    apply Consistent.markDirty_skip relinked latency
    · exact consistent.depth.push covers relinked.others (setLists_Preds_self _ _ _ _ _)
    · exact consistent.height.push coversHeight relinked.othersSuccs
        (setLists_Succs_self _ _ _ _ _)
  · exact consistent.markDirty relinked acyclic latency

theorem Consistent.raised {I : SDep ι} (inside : I ∈ units.Preds SU)
    (source : D.getSUnit = I.getSUnit) (lower : I.getLatency < D.getLatency)
    (covers : Covers units.depth SU D) (coversHeight : Covers units.height D.getSUnit (D.flip SU)) :
    Consistent (units.raised SU D I) := by
  have linked : Linked (units.raised SU D I) := consistent.linked.raised inside
  have relinked : Relinked units (units.raised SU D I) SU I.getSUnit := relinked_setLists linked
  have insideSuccs : I.flip SU ∈ units.Succs I.getSUnit :=
    (consistent.linked.mirrored SU I).mp inside
  have lowerSuccs : (I.flip SU).getLatency < (D.flip SU).getLatency := lower
  refine ⟨linked, ?_, ?_⟩
  · exact consistent.depth.raise lower source covers (consistent.linked.distinctPreds SU).nodup
      inside relinked.others (setLists_Preds_self _ _ _ _ _)
  · rw [source] at coversHeight
    exact consistent.height.raise lowerSuccs rfl coversHeight
      (consistent.linked.distinctSuccs I.getSUnit).nodup insideSuccs relinked.othersSuccs
      (setLists_Succs_self _ _ _ _ _)

theorem Consistent.addPred [Finite ι] {Required : Bool} (sound : Sound units (.addPred SU D
    Required)) (acyclic : Acyclic (units.linkPred SU D Required).2.Preds) :
    ∃ bound added units', (∀ fuel, bound <= fuel ->
        units.addPred fuel SU D Required = some (added, units')) ∧ Consistent units' := by
  simp only [Sound] at sound
  cases found : units.redundant SU D Required with
  | none =>
    rw [found] at sound
    have linked := units.linkPred_none SU D found
    rw [linked] at acyclic
    rcases consistent.pushed found sound acyclic with ⟨bound, units', ran, after⟩
    refine ⟨bound, true, units', fun fuel enough => ?_, after⟩
    simp only [SUnits.addPred, linked, if_true, ran fuel enough, map_some]
  | some I =>
    rw [found] at sound
    have linked := units.linkPred_some SU D found
    refine ⟨0, false, (units.linkPred SU D Required).2, fun fuel _ => ?_, ?_⟩
    · simp only [SUnits.addPred, linked, Bool.false_eq_true, if_false]
    · rw [linked]
      by_cases raises : Required = true ∧ I.getLatency < D.getLatency
      · rw [if_pos raises]
        rcases sound raises.1 raises.2 with ⟨covers, coversHeight⟩
        have overlap := find?_some found
        rw [raises.1, Bool.not_true, Bool.false_and, Bool.false_or] at overlap
        exact consistent.raised (mem_of_find?_eq_some found)
          (SDep.overlaps_iff.mp overlap).1.symm raises.2 covers coversHeight
      · rw [if_neg raises]
        exact consistent

section

variable (acyclic : Acyclic units.Preds)
include acyclic

theorem Consistent.removePred [Finite ι] (sound : Sound units (.removePred SU D)) :
    ∃ bound units', (∀ fuel, bound <= fuel -> units.removePred fuel SU D = some units') ∧
      Consistent units' := by
  by_cases inside : D ∈ units.Preds SU
  · have insideSuccs : D.flip SU ∈ units.Succs D.getSUnit :=
      (consistent.linked.mirrored SU D).mp inside
    have unlinked : units.unlinkPred SU D = some (true, units.erased SU D) := by
      rw [SUnits.unlinkPred, if_pos inside]
      exact if_pos insideSuccs
    have relinked : Relinked units (units.erased SU D) SU D.getSUnit :=
      relinked_setLists consistent.linked.erased
    have fewer : Acyclic (units.erased SU D).Preds := by
      intro v path
      apply acyclic v
      refine Relation.TransGen.mono (fun u w edge => ?_) v v path
      rcases edge with ⟨E, mem, rfl⟩
      refine ⟨E, ?_, rfl⟩
      by_cases target : w = SU
      · rw [target] at mem ⊢
        rw [SUnits.erased, setLists_Preds_self] at mem
        exact mem_of_mem_erase mem
      · rwa [relinked.others w target] at mem
    have marked : ∃ bound units', (∀ fuel, bound <= fuel ->
        (units.erased SU D).markDirty fuel SU D = some units') ∧ Consistent units' := by
      by_cases latency : D.getLatency = 0
      · rcases sound inside latency with ⟨attained, attainedHeight⟩
        apply Consistent.markDirty_skip relinked latency
        · exact consistent.depth.erase attained relinked.others (setLists_Preds_self _ _ _ _ _)
        · exact consistent.height.erase attainedHeight relinked.othersSuccs
            (setLists_Succs_self _ _ _ _ _)
      · exact consistent.markDirty relinked fewer latency
    rcases marked with ⟨bound, units', ran, after⟩
    refine ⟨bound, units', fun fuel enough => ?_, after⟩
    rw [SUnits.removePred, unlinked, bind_some]
    exact ran fuel enough
  · refine ⟨0, units, fun fuel _ => ?_, consistent⟩
    rw [SUnits.removePred, SUnits.unlinkPred, if_neg inside]
    rfl

theorem Consistent.getDepth [Finite ι] (SU : ι) :
    ∃ bound units', (∀ fuel, bound <= fuel ->
        units.getDepth fuel SU = some (units'.depth.value SU, units')) ∧
      Consistent units' ∧ units'.depth.isCurrent SU = true := by
  cases already : units.depth.isCurrent SU with
  | true =>
    refine ⟨0, units, fun fuel _ => ?_, consistent, already⟩
    rw [SUnits.getDepth, already, if_pos rfl]
    rfl
  | false =>
    rcases computeLoop_total units.Succs acyclic consistent.depth SU with
      ⟨bound, depth, ran, cached, cur⟩
    refine ⟨bound, { units with depth := depth }, fun fuel enough => ?_, ?_, cur⟩
    · rw [SUnits.getDepth, already, if_neg Bool.false_ne_true, SUnits.ComputeDepth, ran fuel enough]
      rfl
    · exact ⟨⟨consistent.linked.mirrored, consistent.linked.distinctPreds,
        consistent.linked.distinctSuccs⟩, cached, consistent.height⟩

theorem Consistent.getHeight [Finite ι] (SU : ι) :
    ∃ bound units', (∀ fuel, bound <= fuel ->
        units.getHeight fuel SU = some (units'.height.value SU, units')) ∧
      Consistent units' ∧ units'.height.isCurrent SU = true := by
  cases already : units.height.isCurrent SU with
  | true =>
    refine ⟨0, units, fun fuel _ => ?_, consistent, already⟩
    rw [SUnits.getHeight, already, if_pos rfl]
    rfl
  | false =>
    rcases computeLoop_total units.Preds
      (acyclic.opposite consistent.linked.opposite) consistent.height SU with
      ⟨bound, height, ran, cached, cur⟩
    refine ⟨bound, { units with height := height }, fun fuel enough => ?_, ?_, cur⟩
    · rw [SUnits.getHeight, already, if_neg Bool.false_ne_true, SUnits.ComputeHeight,
        ran fuel enough]
      rfl
    · exact ⟨⟨consistent.linked.mirrored, consistent.linked.distinctPreds,
        consistent.linked.distinctSuccs⟩, consistent.depth, cached⟩

end

end

theorem markDirty_Preds {fuel : Nat} (ran : units.markDirty fuel SU D = some units') :
    units'.Preds = units.Preds := by
  rw [SUnits.markDirty] at ran
  split at ran
  · rcases bind_eq_some_iff.mp ran with ⟨middle, first, second⟩
    rcases map_eq_some_iff.mp first with ⟨_, _, rfl⟩
    rcases map_eq_some_iff.mp second with ⟨_, _, rfl⟩
    rfl
  · exact congrArg SUnits.Preds (Option.some.inj ran).symm

theorem addPred_Preds {fuel : Nat} {Required added : Bool}
    (ran : units.addPred fuel SU D Required = some (added, units')) :
    units'.Preds = (units.linkPred SU D Required).2.Preds := by
  simp only [SUnits.addPred] at ran
  split at ran
  · rcases map_eq_some_iff.mp ran with ⟨marked, done, same⟩
    rw [<- (Prod.mk.inj same).2]
    exact markDirty_Preds done
  · rw [Option.some.inj ran]

theorem Executes.unique {op : Operation ι} {first second : SUnits ι}
    (executes : Executes units op first) (again : Executes units op second) :
    first = second := by
  rcases executes with ⟨bound, ran⟩
  rcases again with ⟨boundAgain, ranAgain⟩
  have same := (ran _ (le_max_left bound boundAgain)).symm.trans
    (ranAgain _ (le_max_right bound boundAgain))
  exact Option.some.inj same

/-- One operation keeps the lists and the caches right. -/
theorem Consistent.step [Finite ι] {op : Operation ι} (consistent : Consistent units)
    (acyclic : Acyclic units.Preds) (sound : Sound units op)
    (executes : Executes units op units') (acyclicAfter : Acyclic units'.Preds) :
    Consistent units' := by
  have reached : ∃ next, Executes units op next ∧ Consistent next := by
    cases op with
    | addPred SU D Required =>
      have linked : Acyclic (units.linkPred SU D Required).2.Preds := by
        rcases executes with ⟨bound, ran⟩
        rcases map_eq_some_iff.mp (ran bound (le_refl bound)) with
          ⟨⟨added, last⟩, done, rfl⟩
        rw [<- addPred_Preds done]
        exact acyclicAfter
      rcases consistent.addPred sound linked with ⟨bound, added, next, ran, after⟩
      refine ⟨next, ⟨bound, fun fuel enough => ?_⟩, after⟩
      rw [execute, ran fuel enough]
      rfl
    | removePred SU D =>
      rcases consistent.removePred acyclic sound with ⟨bound, next, ran, after⟩
      exact ⟨next, ⟨bound, ran⟩, after⟩
    | getDepth SU =>
      rcases consistent.getDepth acyclic SU with ⟨bound, next, ran, after, _⟩
      refine ⟨next, ⟨bound, fun fuel enough => ?_⟩, after⟩
      rw [execute, ran fuel enough]
      rfl
    | getHeight SU =>
      rcases consistent.getHeight acyclic SU with ⟨bound, next, ran, after, _⟩
      refine ⟨next, ⟨bound, fun fuel enough => ?_⟩, after⟩
      rw [execute, ran fuel enough]
      rfl
  rcases reached with ⟨next, again, after⟩
  rw [executes.unique again]
  exact after

theorem Reachable.dag (reachable : Reachable units) : Dag units := by
  cases reachable with
  | start _ graph _ _ => exact graph
  | step _ _ _ graph => exact graph

/-- The lists and the caches are right in every state of a run. -/
theorem Reachable.consistent [Finite ι] (reachable : Reachable units) : Consistent units := by
  induction reachable with
  | start linked _ depth height =>
    exact ⟨linked, Cached.dirty depth, Cached.dirty height⟩
  | step reachable sound executes graph ih =>
    exact ih.step reachable.dag.acyclic sound executes graph.acyclic

theorem Linked.unlinked : Linked (SUnits.unlinked : SUnits ι) where
  mirrored _ _ := iff_of_false not_mem_nil not_mem_nil
  distinctPreds _ := List.Pairwise.nil
  distinctSuccs _ := List.Pairwise.nil

/-- The ranks of two units with latencies that are at most eight. -/
theorem Dag.of_two {units : SUnits (Fin 2)}
    (increases : ∀ v, ∀ dep ∈ units.Preds v,
      dep.getSUnit < v ∧ dep.getSUnit.val * 8 + dep.getLatency.toNat <= v.val * 8)
    (increasesSuccs : ∀ v, ∀ dep ∈ units.Succs v,
      (1 - dep.getSUnit.val) * 8 + dep.getLatency.toNat <= (1 - v.val) * 8) : Dag units where
  acyclic := Acyclic.of_rank Fin.val fun v dep mem => (increases v dep mem).1
  depths := Bounded.of_rank (fun v => v.val * 8) (fun v => by omega)
    fun v dep mem => (increases v dep mem).2
  heights := Bounded.of_rank (fun v => (1 - v.val) * 8) (fun v => by omega) increasesSuccs

/-- Along a run whose unmarked changes do not change a maximum that is cached, current depths
and heights are the greatest total latencies, computing terminates, and both lists have the
edges with their latencies. -/
theorem Reachable.cached [Finite ι] (reachable : Reachable units) :
    (∀ v, units.depth.isCurrent v = true ->
      IsGreatest {total | LongestPath.Path (weights units.Preds) v total}
        (units.depth.value v).toNat) ∧
    (∀ v, units.height.isCurrent v = true ->
      IsGreatest {total | LongestPath.Path (weights units.Succs) v total}
        (units.height.value v).toNat) ∧
    (∀ v, ∃ bound, ∀ fuel, bound <= fuel ->
      (units.ComputeDepth fuel v).isSome ∧ (units.ComputeHeight fuel v).isSome) ∧
    ∀ v D, D ∈ units.Preds v ↔ D.flip v ∈ units.Succs D.getSUnit := by
  have consistent := reachable.consistent
  have graph := reachable.dag
  have acyclicSuccs := graph.acyclic.opposite consistent.linked.opposite
  refine ⟨fun v cur => ?_, fun v cur => ?_, fun v => ?_, consistent.linked.mirrored⟩
  · exact consistent.depth.isGreatest graph.acyclic graph.depths cur
  · exact consistent.height.isGreatest acyclicSuccs graph.heights cur
  · rcases computeLoop_total units.Succs graph.acyclic consistent.depth v with
      ⟨bound, depth, ran, _⟩
    rcases computeLoop_total units.Preds acyclicSuccs consistent.height v with
      ⟨boundHeight, height, ranHeight, _⟩
    refine ⟨max bound boundHeight, fun fuel enough => ⟨?_, ?_⟩⟩
    · rw [SUnits.ComputeDepth, ran fuel ((le_max_left _ _).trans enough)]
      rfl
    · rw [SUnits.ComputeHeight, ranHeight fuel ((le_max_right _ _).trans enough)]
      rfl

/-- An edge of latency three, and the depth after it. -/
theorem cached_three : ∃ units : SUnits (Fin 2), units.depth.isCurrent 1 = true ∧
    IsGreatest {total | LongestPath.Path (weights units.Preds) 1 total} 3 := by
  let add : Operation (Fin 2) := .addPred 1 ⟨0, .Data, 0, 3⟩ true
  let linked : SUnits (Fin 2) := (execute 8 SUnits.unlinked add).get rfl
  let queried : SUnits (Fin 2) := (execute 8 linked (.getDepth 1)).get rfl
  have start : Reachable (SUnits.unlinked : SUnits (Fin 2)) :=
    .start Linked.unlinked (Dag.of_two (by decide) (by decide)) (fun _ => rfl) fun _ => rfl
  have sound : Sound SUnits.unlinked add := fun zero => absurd zero (by decide)
  have adds : Executes SUnits.unlinked add linked := by
    refine ⟨8, fun fuel enough => ?_⟩
    rcases Nat.exists_eq_add_of_le' enough with ⟨more, rfl⟩
    rfl
  have queriesSound : Sound linked (.getDepth 1) := trivial
  have queries : Executes linked (.getDepth 1) queried := by
    refine ⟨8, fun fuel enough => ?_⟩
    rcases Nat.exists_eq_add_of_le' enough with ⟨more, rfl⟩
    rfl
  have reached : Reachable linked := start.step sound adds (Dag.of_two (by decide) (by decide))
  have last : Reachable queried :=
    reached.step queriesSound queries (Dag.of_two (by decide) (by decide))
  exact ⟨queried, rfl, last.cached.1 1 rfl⟩

/-! ## A latency that is raised after the depth is computed -/

/-- The depth stays where it was when a latency is raised from one to five. -/
theorem raised_latency_fails :
    ∃ units : SUnits (Fin 2), (∀ fuel, 8 <= fuel ->
      [Operation.addPred 1 ⟨0, .Data, 0, 1⟩ true, .getDepth 1,
        .addPred 1 ⟨0, .Data, 0, 5⟩ true].foldlM (execute fuel) SUnits.unlinked = some units) ∧
      Dag units ∧ units.depth.isCurrent 1 = true ∧
      ¬IsGreatest {total | LongestPath.Path (weights units.Preds) 1 total}
        (units.depth.value 1).toNat := by
  refine ⟨([Operation.addPred 1 ⟨0, .Data, 0, 1⟩ true, .getDepth 1,
    .addPred 1 ⟨0, .Data, 0, 5⟩ true].foldlM (execute 8) SUnits.unlinked).get rfl,
    fun fuel enough => ?_, Dag.of_two (by decide) (by decide), rfl, fun greatest => ?_⟩
  · rcases Nat.exists_eq_add_of_le' enough with ⟨more, rfl⟩
    rfl
  · have five := greatest.2 (show LongestPath.Path _ 1 (0 + 5) from
      .step mem_cons_self (.here 0))
    exact absurd five (by decide)

end ScheduleDAG
end LlvmProject
