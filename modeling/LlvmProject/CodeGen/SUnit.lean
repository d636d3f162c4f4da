import LlvmProject.Library.Worklist
import Mathlib.Algebra.Order.Ring.Nat

namespace LlvmProject

open Function
namespace ScheduleDAG

/-!
# Scheduling units and their cached depths and heights

The depth and the height of a unit are computed on demand and marked dirty when an edge
changes.  The functions on heights are those on depths with the predecessors and the
successors exchanged.  The counters of the scheduled and unscheduled neighbours are left
out.
-/

inductive Kind where
  | Data
  | Anti
  | Output
  | Order
deriving DecidableEq

/-- A dependence; `Contents` is the register, or the kind of an ordering dependence. -/
structure SDep (ι : Type*) where
  getSUnit : ι
  getKind : Kind
  Contents : UInt32
  getLatency : UInt32
deriving DecidableEq

/-- `Depth` and `isDepthCurrent`, or `Height` and `isHeightCurrent`. -/
structure Cache (ι : Type*) where
  value : ι -> UInt32
  isCurrent : ι -> Bool

structure SUnits (ι : Type*) where
  Preds : ι -> List (SDep ι)
  Succs : ι -> List (SDep ι)
  depth : Cache ι
  height : Cache ι

variable {ι : Type*} [DecidableEq ι]

def SDep.overlaps (dep other : SDep ι) : Bool :=
  dep.getSUnit = other.getSUnit && dep.getKind = other.getKind && dep.Contents = other.Contents

/-! ## The caches -/

/-- The neighbours that are current are put on the worklist of the dirty ones. -/
def dirtyVisit (outwards : ι -> List (SDep ι)) (isCurrent : ι -> Bool) (SU : ι) :
    Option ((ι -> Bool) × Option (List ι)) :=
  let isCurrent := update isCurrent SU false
  let pushed := ((outwards SU).map SDep.getSUnit).filter isCurrent
  some (isCurrent, some pushed.reverse)

/-- Mark a unit dirty, and those that depend on it. -/
def setDirty (fuel : Nat) (outwards : ι -> List (SDep ι)) (isCurrent : ι -> Bool) (SU : ι) :
    Option (ι -> Bool) :=
  if isCurrent SU then Worklist.loop (dirtyVisit outwards) fuel [SU] isCurrent else some isCurrent

omit [DecidableEq ι] in
/-- The maximum over the edges whose units are current, and the other units. -/
def scan (cache : Cache ι) : List (SDep ι) -> UInt32 -> List ι -> UInt32 × List ι
  | [], most, WorkList => (most, WorkList)
  | dep :: deps, most, WorkList =>
    if cache.isCurrent dep.getSUnit then
      scan cache deps (max most (cache.value dep.getSUnit + dep.getLatency)) WorkList
    else scan cache deps most (dep.getSUnit :: WorkList)

/-- The unit on top of the worklist stays there while an edge comes from a dirty one. -/
def computeLoop (inner outwards : ι -> List (SDep ι)) (dirtyFuel : Nat) :
    Nat -> List ι -> Cache ι -> Option (Cache ι)
  | _, [], cache => some cache
  | 0, _ :: _, _ => none
  | fuel + 1, Cur :: WorkList, cache =>
    let scanned := scan cache (inner Cur) 0 []
    if scanned.2 = [] then
      if scanned.1 ≠ cache.value Cur then
        (setDirty dirtyFuel outwards cache.isCurrent Cur).bind fun isCurrent =>
          computeLoop inner outwards dirtyFuel fuel WorkList
            { value := update cache.value Cur scanned.1
              isCurrent := update isCurrent Cur true }
      else
        computeLoop inner outwards dirtyFuel fuel WorkList
          { cache with isCurrent := update cache.isCurrent Cur true }
    else computeLoop inner outwards dirtyFuel fuel (scanned.2 ++ Cur :: WorkList) cache

namespace SUnits

variable (fuel : Nat) (units : SUnits ι)

def setDepthDirty (SU : ι) : Option (SUnits ι) :=
  (setDirty fuel units.Succs units.depth.isCurrent SU).map fun isCurrent =>
    { units with depth := { units.depth with isCurrent := isCurrent } }

def setHeightDirty (SU : ι) : Option (SUnits ι) :=
  (setDirty fuel units.Preds units.height.isCurrent SU).map fun isCurrent =>
    { units with height := { units.height with isCurrent := isCurrent } }

def ComputeDepth (SU : ι) : Option (SUnits ι) :=
  (computeLoop units.Preds units.Succs fuel fuel [SU] units.depth).map fun depth =>
    { units with depth := depth }

def ComputeHeight (SU : ι) : Option (SUnits ι) :=
  (computeLoop units.Succs units.Preds fuel fuel [SU] units.height).map fun height =>
    { units with height := height }

def getDepth (SU : ι) : Option (UInt32 × SUnits ι) :=
  (if units.depth.isCurrent SU then some units else units.ComputeDepth fuel SU).map fun units =>
    (units.depth.value SU, units)

def getHeight (SU : ι) : Option (UInt32 × SUnits ι) :=
  (if units.height.isCurrent SU then some units else units.ComputeHeight fuel SU).map fun units =>
    (units.height.value SU, units)

/-! ## The edges -/

/-- The dependences in the lists of a unit and of its predecessor. -/
def setLists (SU N : ι) (preds succs : List (SDep ι)) : SUnits ι :=
  { units with
    Preds := update units.Preds SU preds
    Succs := update units.Succs N succs }

/-- The lists with the edge that is wanted.  Another edge, or the same one with a latency that
is not lower, can make it redundant, and the latency of the same one can be raised. -/
def linkPred (SU : ι) (D : SDep ι) (Required : Bool) : Bool × SUnits ι :=
  let N := D.getSUnit
  match (units.Preds SU).find? fun I => (!Required && I.getSUnit = N) || I.overlaps D with
  | some I =>
    if !Required && I.getSUnit = N then (false, units)
    else if I.getLatency < D.getLatency then
      let ForwardD := { I with getSUnit := SU }
      (false, units.setLists SU I.getSUnit
        ((units.Preds SU).replace I { I with getLatency := D.getLatency })
        ((units.Succs I.getSUnit).replace ForwardD { ForwardD with getLatency := D.getLatency }))
    else (false, units)
  | none =>
    (true, units.setLists SU N (units.Preds SU ++ [D])
      (units.Succs N ++ [{ D with getSUnit := SU }]))

/-- The lists without the edge.  There is no result if the lists do not match. -/
def unlinkPred (SU : ι) (D : SDep ι) : Option (Bool × SUnits ι) :=
  let N := D.getSUnit
  let P := { D with getSUnit := SU }
  if D ∈ units.Preds SU then
    if P ∈ units.Succs N then
      some (true, units.setLists SU N ((units.Preds SU).erase D) ((units.Succs N).erase P))
    else none
  else some (false, units)

/-- The depth of the unit and the height of its predecessor are dirty if the latency of the
edge is not zero. -/
def markDirty (SU : ι) (D : SDep ι) : Option (SUnits ι) :=
  if D.getLatency ≠ 0 then
    (units.setDepthDirty fuel SU).bind fun units => units.setHeightDirty fuel D.getSUnit
  else some units

def addPred (SU : ι) (D : SDep ι) (Required : Bool) : Option (Bool × SUnits ι) :=
  let linked := units.linkPred SU D Required
  if linked.1 then (linked.2.markDirty fuel SU D).map fun units => (true, units) else some linked

def removePred (SU : ι) (D : SDep ι) : Option (SUnits ι) :=
  (units.unlinkPred SU D).bind fun unlinked =>
    if unlinked.1 then unlinked.2.markDirty fuel SU D else some unlinked.2

end SUnits
end ScheduleDAG
end LlvmProject
