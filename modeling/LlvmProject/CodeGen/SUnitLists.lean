import LlvmProject.CodeGen.SUnitDepth

namespace LlvmProject

open List Function

namespace ScheduleDAG

/-!
# The lists of the edges

The lists of the predecessors and of the successors mirror each other throughout, with the
latencies.
-/

variable {ι : Type*} {units units' : SUnits ι} {SU v : ι} {D : SDep ι}

/-! ## Matching lists -/

/-- An entry as it stands in the list of the other unit. -/
def SDep.flip (D : SDep ι) (SU : ι) : SDep ι := { D with getSUnit := SU }

@[simp] theorem SDep.flip_flip (D : SDep ι) (SU v : ι) : (D.flip SU).flip v = D.flip v := rfl

@[simp] theorem SDep.flip_self (D : SDep ι) : D.flip D.getSUnit = D := rfl

theorem SDep.flip_inj {D E : SDep ι} (target : D.getSUnit = E.getSUnit)
    (same : D.flip SU = E.flip v) : D = E := by
  have back := congrArg (fun dep => SDep.flip dep E.getSUnit) same
  simp only [SDep.flip_flip, SDep.flip_self] at back
  rw [<- back, <- target, SDep.flip_self]

theorem Opposite.symm {inner outwards : ι -> List (SDep ι)}
    (opposite : Opposite inner outwards) : Opposite outwards inner :=
  fun u v => (opposite v u).symm

theorem Acyclic.opposite {inner outwards : ι -> List (SDep ι)} (acyclic : Acyclic inner)
    (opposite : Opposite inner outwards) : Acyclic outwards := by
  intro v path
  apply acyclic v
  apply Relation.transGen_swap.mp
  exact Relation.TransGen.mono (fun u w edge => (opposite w u).mpr edge) v v path

variable [DecidableEq ι]

def Distinct (deps : List (SDep ι)) : Prop := deps.Pairwise fun D E => D.overlaps E = false

structure Linked (units : SUnits ι) : Prop where
  mirrored : ∀ v D, D ∈ units.Preds v ↔ D.flip v ∈ units.Succs D.getSUnit
  distinctPreds : ∀ v, Distinct (units.Preds v)
  distinctSuccs : ∀ v, Distinct (units.Succs v)

theorem SDep.overlaps_iff {D E : SDep ι} : D.overlaps E = true ↔
    D.getSUnit = E.getSUnit ∧ D.getKind = E.getKind ∧ D.Contents = E.Contents := by
  simp only [SDep.overlaps, Bool.and_eq_true, decide_eq_true_eq, and_assoc]

theorem SDep.overlaps_self (D : SDep ι) : D.overlaps D = true := overlaps_iff.mpr ⟨rfl, rfl, rfl⟩

variable {deps : List (SDep ι)}

theorem Distinct.nodup (distinct : Distinct deps) : deps.Nodup := by
  apply List.Pairwise.imp _ distinct
  rintro D E apart rfl
  rw [D.overlaps_self] at apart
  cases apart

theorem Linked.opposite (linked : Linked units) : Opposite units.Preds units.Succs := by
  intro u v
  constructor
  · rintro ⟨D, mem, rfl⟩
    exact ⟨D.flip v, (linked.mirrored v D).mp mem, rfl⟩
  · rintro ⟨E, mem, rfl⟩
    exact ⟨E.flip u, (linked.mirrored E.getSUnit (E.flip u)).mpr mem, rfl⟩

section

variable (units : SUnits ι) (SU N : ι) (preds succs : List (SDep ι))

theorem setLists_Preds_self : (units.setLists SU N preds succs).Preds SU = preds :=
  update_self _ _ _

theorem setLists_Succs_self : (units.setLists SU N preds succs).Succs N = succs := update_self _ _ _

variable {SU N}

theorem setLists_Preds_of_ne (other : v ≠ SU) :
    (units.setLists SU N preds succs).Preds v = units.Preds v :=
  update_of_ne other _ _

theorem setLists_Succs_of_ne (other : v ≠ N) :
    (units.setLists SU N preds succs).Succs v = units.Succs v :=
  update_of_ne other _ _

end

/-- New lists for the two ends of edges agree with the others. -/
theorem Linked.setLists {N : ι} {preds succs : List (SDep ι)} (linked : Linked units)
    (distinctPreds : Distinct preds) (distinctSuccs : Distinct succs) (otherPreds : ∀ E,
    E.getSUnit ≠ N -> (E ∈ preds ↔ E ∈ units.Preds SU)) (otherSuccs : ∀ E, E.getSUnit ≠ SU -> (E ∈
    succs ↔ E ∈ units.Succs N)) (between : ∀ E, E.getSUnit = N -> (E ∈ preds ↔ E.flip SU ∈ succs)) :
    Linked (units.setLists SU N preds succs) := by
  constructor
  · intro v E
    by_cases target : v = SU
    · rw [target, setLists_Preds_self]
      by_cases source : E.getSUnit = N
      · rw [between E source, source, setLists_Succs_self]
      · rw [otherPreds E source, linked.mirrored, setLists_Succs_of_ne _ _ _ source]
    · rw [setLists_Preds_of_ne _ _ _ target, linked.mirrored]
      by_cases source : E.getSUnit = N
      · rw [source, setLists_Succs_self, otherSuccs (E.flip v) target]
      · rw [setLists_Succs_of_ne _ _ _ source]
  · intro v
    by_cases target : v = SU
    · rw [target, setLists_Preds_self]
      exact distinctPreds
    · rw [setLists_Preds_of_ne _ _ _ target]
      exact linked.distinctPreds v
  · intro v
    by_cases source : v = N
    · rw [source, setLists_Succs_self]
      exact distinctSuccs
    · rw [setLists_Succs_of_ne _ _ _ source]
      exact linked.distinctSuccs v

/-! ## The changes of the lists -/

namespace SUnits

variable (units : SUnits ι) (SU : ι) (D : SDep ι)

/-- The entry that makes the wanted edge redundant. -/
def redundant (Required : Bool) : Option (SDep ι) :=
  (units.Preds SU).find? fun I => (!Required && I.getSUnit = D.getSUnit) || I.overlaps D

def pushed : SUnits ι :=
  units.setLists SU D.getSUnit (units.Preds SU ++ [D]) (units.Succs D.getSUnit ++ [D.flip SU])

def raised (I : SDep ι) : SUnits ι :=
  units.setLists SU I.getSUnit
    ((units.Preds SU).replace I { I with getLatency := D.getLatency })
    ((units.Succs I.getSUnit).replace (I.flip SU) { I.flip SU with getLatency := D.getLatency })

def erased : SUnits ι :=
  units.setLists SU D.getSUnit ((units.Preds SU).erase D)
    ((units.Succs D.getSUnit).erase (D.flip SU))

theorem linkPred_none {Required : Bool} (none : units.redundant SU D Required = none) :
    units.linkPred SU D Required = (true, units.pushed SU D) := by
  rw [redundant] at none
  rw [linkPred, none]
  rfl

theorem linkPred_some {Required : Bool} {I : SDep ι}
    (some : units.redundant SU D Required = some I) :
    units.linkPred SU D Required =
      (false, if Required = true ∧ I.getLatency < D.getLatency then units.raised SU D I
        else units) := by
  have found := find?_some some
  rw [redundant] at some
  rw [linkPred, some]
  cases Required with
  | true =>
    by_cases lower : I.getLatency < D.getLatency
    · simp only [lower, if_true, and_self]
      rfl
    · simp only [lower, and_false, if_false]
      rfl
  | false =>
    have source : I.getSUnit = D.getSUnit := by
      rw [Bool.or_eq_true] at found
      rcases found with same | same
      · exact of_decide_eq_true same
      · exact (SDep.overlaps_iff.mp same).1
    simp only [source, Bool.not_false, decide_true, Bool.and_self, if_true,
      Bool.false_eq_true, false_and, if_false]

end SUnits

/-! ## The lists stay mirrored -/

theorem mem_replace {I J E : SDep ι} (nodup : deps.Nodup)
    (inside : I ∈ deps) : E ∈ deps.replace I J ↔ E ∈ deps ∧ E ≠ I ∨ E = J := by
  induction deps with
  | nil => cases inside
  | cons first deps ih =>
    rw [nodup_cons] at nodup
    by_cases same : first = I
    · subst same
      rw [replace_cons_self, mem_cons, mem_cons]
      constructor
      · rintro (rfl | later)
        · exact .inr rfl
        · refine .inl ⟨.inr later, ?_⟩
          rintro rfl
          exact nodup.1 later
      · rintro (⟨rfl | later, other⟩ | rfl)
        · exact absurd rfl other
        · exact .inr later
        · exact .inl rfl
    · have later := (mem_cons.mp inside).resolve_left (Ne.symm same)
      have differs : (I == first) = false := beq_false_of_ne (Ne.symm same)
      rw [replace_cons, differs]
      simp only [mem_cons, ih nodup.2 later]
      constructor
      · rintro (rfl | ⟨mem, other⟩ | rfl)
        · exact .inl ⟨.inl rfl, same⟩
        · exact .inl ⟨.inr mem, other⟩
        · exact .inr rfl
      · rintro (⟨rfl | mem, other⟩ | rfl)
        · exact .inl rfl
        · exact .inr (.inl ⟨mem, other⟩)
        · exact .inr (.inr rfl)

theorem Distinct.concat (distinct : Distinct deps)
    (apart : ∀ E ∈ deps, E.overlaps D = false) : Distinct (deps ++ [D]) := by
  apply pairwise_append.mpr
  refine ⟨distinct, pairwise_singleton _ _, fun E mem other inside => ?_⟩
  rw [mem_singleton.mp inside]
  exact apart E mem

/-- Only the latency of an entry changes. -/
theorem Distinct.replace (distinct : Distinct deps) (I : SDep ι)
    (latency : UInt32) : Distinct (deps.replace I { I with getLatency := latency }) := by
  induction deps with
  | nil => exact distinct
  | cons first deps ih =>
    rcases pairwise_cons.mp distinct with ⟨apart, later⟩
    by_cases same : first = I
    · rw [same, replace_cons_self]
      exact pairwise_cons.mpr ⟨fun E mem => same ▸ apart E mem, later⟩
    · have differs : (I == first) = false := beq_false_of_ne (Ne.symm same)
      rw [replace_cons, differs]
      refine pairwise_cons.mpr ⟨fun E mem => ?_, ih later⟩
      by_cases inside : I ∈ deps
      · rcases (mem_replace (Distinct.nodup later) inside).mp mem with ⟨before, _⟩ | rfl
        · exact apart E before
        · exact apart I inside
      · rw [replace_of_not_mem inside] at mem
        exact apart E mem

theorem Distinct.erase (distinct : Distinct deps) :
    Distinct (deps.erase D) :=
  List.Pairwise.sublist erase_sublist distinct

theorem SDep.overlaps_flip {E : SDep ι} (source : D.getSUnit = v)
    (overlap : E.overlaps (D.flip SU) = true) : (E.flip v).overlaps D = true := by
  rcases overlaps_iff.mp overlap with ⟨_, kind, contents⟩
  exact overlaps_iff.mpr ⟨source.symm, kind, contents⟩

theorem Linked.pushed (linked : Linked units) {Required : Bool}
    (new : units.redundant SU D Required = none) : Linked (units.pushed SU D) := by
  have apart : ∀ E ∈ units.Preds SU, E.overlaps D = false := by
    intro E mem
    have passed := find?_eq_none.mp new E mem
    rw [Bool.or_eq_true, not_or] at passed
    exact Bool.eq_false_iff.mpr passed.2
  have apartSuccs : ∀ E ∈ units.Succs D.getSUnit, E.overlaps (D.flip SU) = false := by
    intro E mem
    cases overlap : E.overlaps (D.flip SU) with
    | false => rfl
    | true =>
      have target : E.getSUnit = SU := (SDep.overlaps_iff.mp overlap).1
      have source : E.flip D.getSUnit ∈ units.Preds SU := by
        rw [linked.mirrored, SDep.flip_flip, <- target, SDep.flip_self]
        exact mem
      have other := apart _ source
      rw [SDep.overlaps_flip rfl overlap] at other
      cases other
  apply linked.setLists ((linked.distinctPreds SU).concat apart)
    ((linked.distinctSuccs D.getSUnit).concat apartSuccs)
  · intro E source
    rw [mem_append, mem_singleton]
    refine or_iff_left ?_
    rintro rfl
    exact source rfl
  · intro E target
    rw [mem_append, mem_singleton]
    refine or_iff_left ?_
    rintro rfl
    exact target rfl
  · intro E source
    rw [mem_append, mem_append, mem_singleton, mem_singleton, linked.mirrored, source]
    refine or_congr_right ⟨?_, SDep.flip_inj source⟩
    rintro rfl
    rfl

theorem Linked.raised {I : SDep ι} (linked : Linked units) (mem : I ∈ units.Preds SU) :
    Linked (units.raised SU D I) := by
  have forward : I.flip SU ∈ units.Succs I.getSUnit := (linked.mirrored SU I).mp mem
  have nodup := (linked.distinctPreds SU).nodup
  have nodupSuccs := (linked.distinctSuccs I.getSUnit).nodup
  apply linked.setLists ((linked.distinctPreds SU).replace I D.getLatency)
    ((linked.distinctSuccs I.getSUnit).replace (I.flip SU) D.getLatency)
  · intro E source
    rw [mem_replace nodup mem]
    constructor
    · rintro (⟨before, _⟩ | rfl)
      · exact before
      · exact absurd rfl source
    · intro before
      refine .inl ⟨before, ?_⟩
      rintro rfl
      exact source rfl
  · intro E target
    rw [mem_replace nodupSuccs forward]
    constructor
    · rintro (⟨before, _⟩ | rfl)
      · exact before
      · exact absurd rfl target
    · intro before
      refine .inl ⟨before, ?_⟩
      rintro rfl
      exact target rfl
  · intro E source
    rw [mem_replace nodup mem, mem_replace nodupSuccs forward, linked.mirrored, source]
    apply or_congr
    · apply and_congr_right
      intro _
      apply not_congr
      constructor
      · rintro rfl
        rfl
      · exact SDep.flip_inj source
    · constructor
      · rintro rfl
        rfl
      · exact fun same => SDep.flip_inj source same

theorem Linked.erased (linked : Linked units) : Linked (units.erased SU D) := by
  have nodup := (linked.distinctPreds SU).nodup
  have nodupSuccs := (linked.distinctSuccs D.getSUnit).nodup
  apply linked.setLists (linked.distinctPreds SU).erase (linked.distinctSuccs D.getSUnit).erase
  · intro E source
    rw [nodup.mem_erase_iff]
    refine and_iff_right ?_
    rintro rfl
    exact source rfl
  · intro E target
    rw [nodupSuccs.mem_erase_iff]
    refine and_iff_right ?_
    rintro rfl
    exact target rfl
  · intro E source
    rw [nodup.mem_erase_iff, nodupSuccs.mem_erase_iff, linked.mirrored, source]
    apply and_congr_left
    intro _
    apply not_congr
    constructor
    · rintro rfl
      rfl
    · exact SDep.flip_inj source

end ScheduleDAG
end LlvmProject
