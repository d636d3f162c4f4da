import LlvmProject.Support.BranchProbability
import Mathlib.Algebra.Order.BigOperators.Group.List
import Mathlib.Data.List.Dedup
import Mathlib.Data.List.Induction
import Mathlib.Data.List.Sort
import Mathlib.Data.List.TakeWhile

namespace LlvmProject

open List Nat

namespace BlockFrequencyInfo

/-!
# Distributing the mass of a block

The edges out of a block have weights of 64 bits.  `normalize` combines the weights of the edges
to the same target and scales them so that their total has 32 bits; `takeMass` then takes the
share of one edge after the other from what remains of the mass.

A failed assertion is `none`.
-/

structure BlockNode where
  Index : UInt32
deriving DecidableEq

def BlockNode.isValid (this : BlockNode) : Bool := decide (this.Index <= 0xfffffffe)

inductive DistType
  | Local
  | Exit
  | Backedge
deriving DecidableEq

/-- Unscaled probability weight of an edge to the target. -/
structure Weight where
  type : DistType
  TargetNode : BlockNode
  Amount : UInt64

/-- The weight of a new entry of a hash table. -/
def Weight.new : Weight := ⟨.Local, ⟨0xffffffff⟩, 0⟩

structure Distribution where
  Weights : List Weight
  Total : UInt64
  DidOverflow : Bool

/-! ## Weights of the same target -/

def combineWeight (W OtherW : Weight) : Option Weight :=
  if !OtherW.TargetNode.isValid then none
  else if W.Amount = 0 then some OtherW
  else if W.type ≠ OtherW.type ∨ W.TargetNode ≠ OtherW.TargetNode ∨ OtherW.Amount = 0 then none
  -- saturate on overflow
  else if W.Amount > W.Amount + OtherW.Amount then some { W with Amount := 0xffffffffffffffff }
  else some { W with Amount := W.Amount + OtherW.Amount }

/-- Combine adjacent edges, of which the first ones are already combined. -/
def combineAdjacent (O : Weight) : List Weight -> Option (List Weight)
  | [] => some [O]
  | L :: rest =>
    if O.TargetNode = L.TargetNode then (combineWeight O L).bind (combineAdjacent · rest)
    else (combineAdjacent L rest).map (O :: ·)

/-- Sort so edges to the same node are adjacent. -/
def combineWeightsBySorting (Weights : List Weight) : Option (List Weight) :=
  match Weights.insertionSort fun L R => L.TargetNode.Index <= R.TargetNode.Index with
  | [] => some []
  | I :: rest => combineAdjacent I rest

/-- Combine a weight with the entry of its target, which is new if there is none. -/
def combineInto : List Weight -> Weight -> Option (List Weight)
  | [], W => (combineWeight Weight.new W).map ([·])
  | C :: Combined, W =>
    if C.TargetNode = W.TargetNode then (combineWeight C W).map (· :: Combined)
    else (combineInto Combined W).map (C :: ·)

/-- Collect the weights in a hash table, which is iterated in an order of its own. -/
def combineWeightsByHashing (order : List Weight -> List Weight) (Weights : List Weight) :
    Option (List Weight) := do
  let Combined <- Weights.foldlM combineInto []
  if Weights.length = Combined.length then return Weights else return order Combined

def combineWeights (order : List Weight -> List Weight) (Weights : List Weight) :
    Option (List Weight) :=
  -- use a hash table for many successors to keep this linear
  if Weights.length > 128 then combineWeightsByHashing order Weights
  else combineWeightsBySorting Weights

/-! ## Distributions -/

def shiftRightAndRound (N : UInt64) (Shift : Nat) : UInt64 :=
  if Shift = 0 then N
  else (N >>> UInt64.ofNat Shift) + (1 &&& (N >>> UInt64.ofNat (Shift - 1)))

/-- For a number that is not zero. -/
def countLeadingZeros (Val : UInt64) : Nat := 63 - Val.toNat.log2

/-- Shift the weights right and sum them. -/
def scaleWeights (Shift : Nat) : List Weight -> UInt64 -> Option (List Weight × UInt64)
  | [], total => some ([], total)
  | W :: rest, total => do
    let Amount := max 1 (shiftRightAndRound W.Amount Shift)
    if !W.TargetNode.isValid || Amount > 0xffffffff then none
    let (Weights, total) <- scaleWeights Shift rest (total + Amount)
    return ({ W with Amount := Amount } :: Weights, total)

namespace Distribution

def new : Distribution := ⟨[], 0, false⟩

def add (this : Distribution) (W : Weight) : Option Distribution :=
  if W.Amount = 0 then none
  else
    let NewTotal := this.Total + W.Amount
    let IsOverflow := decide (NewTotal < this.Total)
    -- It should be impossible to overflow twice.
    if this.DidOverflow && IsOverflow then none
    else some ⟨this.Weights ++ [W], NewTotal, this.DidOverflow || IsOverflow⟩

/-- How much to shift right so that the total fits into 32 bits. -/
def shift (this : Distribution) : Nat :=
  if this.DidOverflow then 33
  else if this.Total > 0xffffffff then 33 - countLeadingZeros this.Total
  else 0

/-- The weights of more than one successor. -/
def scaleDown (this : Distribution) (Weights : List Weight) : Option Distribution :=
  -- early exit if nothing needs to be scaled
  if this.shift = 0 then
    if this.Total = Weights.foldl (fun Sum W => Sum + W.Amount) 0 then
      some { this with Weights := Weights }
    else none
  else do
    let (Weights, Total) <- scaleWeights this.shift Weights 0
    if Total <= 0xffffffff then some { this with Weights := Weights, Total := Total } else none

/-- One weight for each target. -/
def combine (order : List Weight -> List Weight) (Weights : List Weight) : Option (List Weight) :=
  -- only bother if there are multiple successors
  if Weights.length > 1 then combineWeights order Weights else some Weights

def normalize (order : List Weight -> List Weight) (this : Distribution) : Option Distribution :=
  -- early exit for termination nodes
  if this.Weights.isEmpty then some this
  else do
    match <- combine order this.Weights with
    | [W] => some { this with Weights := [{ W with Amount := 1 }], Total := 1 }
    | Weights => this.scaleDown Weights

end Distribution

/-! ## Dithering -/

structure DitheringDistributer where
  RemWeight : UInt32
  RemMass : UInt64

namespace DitheringDistributer

def new (Dist : Distribution) (Mass : UInt64) : DitheringDistributer := ⟨Dist.Total.toUInt32, Mass⟩

/-- The share of the weight; the mass that remains is not less than zero. -/
def takeMass (this : DitheringDistributer) (Weight : UInt32) :
    Option (UInt64 × DitheringDistributer) :=
  if valid : 0 < Weight ∧ Weight <= this.RemWeight then do
    let P : BranchProbability :=
      ⟨Weight, this.RemWeight, UInt32.lt_of_lt_of_le valid.1 valid.2, valid.2⟩
    let Mass <- P.scale this.RemMass
    let Diff := this.RemMass - Mass
    return (Mass, ⟨this.RemWeight - Weight, if Diff > this.RemMass then 0 else Diff⟩)
  else none

/-- The shares of all edges. -/
def takeMasses : DitheringDistributer -> List Weight ->
    Option (List UInt64 × DitheringDistributer)
  | this, [] => some ([], this)
  | this, W :: Weights => do
    let (Mass, this) <- this.takeMass W.Amount.toUInt32
    let (Masses, this) <- takeMasses this Weights
    return (Mass :: Masses, this)

end DitheringDistributer

/-! ## Amounts -/

/-- The exact sum of some weights. -/
def sumOf (ws : List Weight) : Nat := (ws.map fun W => W.Amount.toNat).sum

/-- The exact sum of the weights to a target. -/
def amountTo (ws : List Weight) (t : BlockNode) : Nat :=
  (ws.map fun W => if W.TargetNode = t then W.Amount.toNat else 0).sum

theorem amountTo_cons (W : Weight) (ws : List Weight) (t : BlockNode) :
    amountTo (W :: ws) t = (if W.TargetNode = t then W.Amount.toNat else 0) + amountTo ws t :=
  sum_cons

theorem sumOf_cons (W : Weight) (ws : List Weight) :
    sumOf (W :: ws) = W.Amount.toNat + sumOf ws :=
  sum_cons

theorem amountTo_append (ws ws' : List Weight) (t : BlockNode) :
    amountTo (ws ++ ws') t = amountTo ws t + amountTo ws' t := by
  rw [amountTo, map_append, sum_append_nat]
  rfl

variable {ws : List Weight}

theorem amountTo_of_not_mem {t : BlockNode}
    (other : ∀ W ∈ ws, W.TargetNode ≠ t) : amountTo ws t = 0 := by
  rw [amountTo, map_congr_left fun W mem => if_neg (other W mem), map_const',
    sum_replicate_nat, mul_zero]

theorem sum_indicator {ts : List BlockNode} (nodup : ts.Nodup) {t : BlockNode} (mem : t ∈ ts)
    (a : Nat) : (ts.map fun t' => if t = t' then a else 0).sum = a := by
  induction ts with
  | nil => cases mem
  | cons first ts ih =>
    rcases nodup_cons.mp nodup with ⟨fresh, rest⟩
    rw [map_cons, sum_cons]
    rcases mem_cons.mp mem with rfl | later
    · rw [if_pos rfl, map_congr_left fun t' other =>
        if_neg fun same : t = t' => fresh (same ▸ other), map_const', sum_replicate_nat,
        mul_zero, add_zero]
    · rw [if_neg fun same : t = first => fresh (same ▸ later), ih rest later, zero_add]

theorem sum_amountTo {ts : List BlockNode} (nodup : ts.Nodup)
    (all : ∀ W ∈ ws, W.TargetNode ∈ ts) : (ts.map (amountTo ws)).sum = sumOf ws := by
  induction ws with
  | nil =>
    rw [map_congr_left fun t _ => show amountTo [] t = 0 from rfl, map_const',
      sum_replicate_nat, mul_zero]
    rfl
  | cons W ws ih =>
    rcases forall_mem_cons.mp all with ⟨here, later⟩
    rw [map_congr_left fun t _ => amountTo_cons W ws t, sum_map_add,
      sum_indicator nodup here, ih later, sumOf_cons]

theorem amountTo_le (ws : List Weight) (t : BlockNode) : amountTo ws t <= sumOf ws := by
  induction ws with
  | nil => exact le_refl _
  | cons W ws ih =>
    rw [amountTo_cons, sumOf_cons]
    split_ifs <;> omega

/-! ## Combining -/

/-- What is asserted of the weights. -/
def Allowed (typeOf : BlockNode -> DistType) (ws : List Weight) : Prop :=
  ∀ W ∈ ws, W.TargetNode.isValid = true ∧ 0 < W.Amount.toNat ∧ W.type = typeOf W.TargetNode

/-- One entry for each target, with the saturated sum of the weights to it. -/
structure Merged (ws out : List Weight) : Prop where
  nodup : (out.map Weight.TargetNode).Nodup
  targets : ∀ t, t ∈ out.map Weight.TargetNode ↔ t ∈ ws.map Weight.TargetNode
  amounts : ∀ W ∈ out, W.Amount.toNat = min (amountTo ws W.TargetNode) (2 ^ 64 - 1)

variable {typeOf : BlockNode -> DistType} {ws ws' out : List Weight} {O L C : Weight}

/-- The sum of two weights to one target. -/
structure Joined (O L C : Weight) : Prop where
  target : C.TargetNode = O.TargetNode
  type : C.type = O.type
  same : O.TargetNode = L.TargetNode
  amount : C.Amount.toNat = min (O.Amount.toNat + L.Amount.toNat) (2 ^ 64 - 1)

theorem combineWeight_eq (allowed : Allowed typeOf (O :: L :: ws))
    (same : O.TargetNode = L.TargetNode) : ∃ C, combineWeight O L = some C ∧ Joined O L C := by
  rcases forall_mem_cons.mp allowed with ⟨⟨-, some_left, typeO⟩, later⟩
  rcases (forall_mem_cons.mp later).1 with ⟨valid, some_right, typeL⟩
  have left : O.Amount ≠ 0 := fun zero => by simp [zero] at some_left
  have right : L.Amount ≠ 0 := fun zero => by simp [zero] at some_right
  have sum := UInt64.toNat_add O.Amount L.Amount
  have small := O.Amount.toNat_lt
  have small' := L.Amount.toNat_lt
  rw [combineWeight, valid, Bool.not_true, if_neg Bool.false_ne_true, if_neg left,
    if_neg (by simp [typeO, typeL, same, right])]
  by_cases overflow : O.Amount > O.Amount + L.Amount
  · have less : (O.Amount + L.Amount).toNat < O.Amount.toNat := overflow
    rw [if_pos overflow]
    refine ⟨_, rfl, rfl, rfl, same, ?_⟩
    change 2 ^ 64 - 1 = _
    omega
  · have le : O.Amount.toNat <= (O.Amount + L.Amount).toNat := Nat.le_of_not_lt overflow
    rw [if_neg overflow]
    refine ⟨_, rfl, rfl, rfl, same, ?_⟩
    dsimp only
    omega

theorem Joined.allowed (joined : Joined O L C) (allowed : Allowed typeOf (O :: L :: ws)) :
    Allowed typeOf (C :: ws) := by
  rcases forall_mem_cons.mp allowed with ⟨⟨valid, nonzero, type⟩, later⟩
  have amount := joined.amount
  refine forall_mem_cons.mpr ⟨⟨?_, by omega, ?_⟩, (forall_mem_cons.mp later).2⟩
  · rw [joined.target]
    exact valid
  · rw [joined.type, joined.target]
    exact type

theorem Merged.join (joined : Joined O L C) (merged : Merged (C :: ws) out) :
    Merged (O :: L :: ws) out where
  nodup := merged.nodup
  targets t := by
    rw [merged.targets t]
    simp [joined.target, <- joined.same]
  amounts W mem := by
    have amount := joined.amount
    rw [merged.amounts W mem, amountTo_cons, amountTo_cons, amountTo_cons, joined.target,
      <- joined.same]
    split_ifs <;> omega

/-- A permutation of the weights is combined to the same amounts. -/
theorem Merged.perm (perm : ws'.Perm ws) (merged : Merged ws' out) : Merged ws out where
  nodup := merged.nodup
  targets t := by rw [merged.targets t, (perm.map _).mem_iff]
  amounts W mem := by rw [merged.amounts W mem, amountTo, amountTo, (perm.map _).sum_eq]

theorem Merged.cons (fresh : O.TargetNode ∉ ws.map Weight.TargetNode) (merged : Merged ws out) :
    Merged (O :: ws) (O :: out) where
  nodup := nodup_cons.mpr ⟨by rwa [merged.targets], merged.nodup⟩
  targets t := by
    rw [map_cons, map_cons, mem_cons, mem_cons, merged.targets t]
  amounts := by
    have small := O.Amount.toNat_lt
    refine forall_mem_cons.mpr ⟨?_, fun W mem => ?_⟩
    · rw [amountTo_cons, if_pos rfl, amountTo_of_not_mem fun V listed same =>
        fresh (mem_map.mpr ⟨V, listed, same⟩)]
      omega
    · rw [amountTo_cons, if_neg fun same : O.TargetNode = W.TargetNode => fresh (same ▸
        (merged.targets _).mp (mem_map_of_mem mem)), zero_add, merged.amounts W mem]

/-- Weights that all have their own targets stay as they are. -/
theorem merged_self (nodup : (ws.map Weight.TargetNode).Nodup) : Merged ws ws := by
  induction ws with
  | nil => exact ⟨nodup, fun _ => Iff.rfl, nofun⟩
  | cons W ws ih =>
    rcases nodup_cons.mp nodup with ⟨fresh, rest⟩
    exact (ih rest).cons fresh

theorem combineAdjacent_merged (allowed : Allowed typeOf (O :: ws))
    (sorted : (O :: ws).Pairwise fun L R => L.TargetNode.Index <= R.TargetNode.Index) :
    ∃ out, combineAdjacent O ws = some out ∧ Merged (O :: ws) out := by
  induction ws generalizing O with
  | nil => exact ⟨[O], rfl, merged_self (nodup_singleton _)⟩
  | cons L ws ih =>
    rcases pairwise_cons.mp sorted with ⟨first, later⟩
    rw [combineAdjacent]
    by_cases same : O.TargetNode = L.TargetNode
    · rcases combineWeight_eq allowed same with ⟨C, ran, joined⟩
      rcases pairwise_cons.mp later with ⟨behind, rest⟩
      rw [<- same, <- joined.target] at behind
      rcases ih (joined.allowed allowed) (pairwise_cons.mpr ⟨behind, rest⟩) with
        ⟨out, rest, merged⟩
      refine ⟨out, ?_, merged.join joined⟩
      rw [if_pos same, ran]
      exact rest
    · rcases ih (forall_mem_cons.mp allowed).2 later with ⟨out, ran, merged⟩
      refine ⟨O :: out, by rw [if_neg same, ran]; rfl, merged.cons fun mem => same ?_⟩
      -- The first of the others has a greater index, and so have all of them.
      rcases mem_map.mp mem with ⟨W, listed, equal⟩
      have from_first := first L mem_cons_self
      have to_last : L.TargetNode.Index <= W.TargetNode.Index := by
        rcases mem_cons.mp listed with rfl | beyond
        · exact UInt32.le_refl _
        · exact (pairwise_cons.mp later).1 W beyond
      rw [equal] at to_last
      exact congrArg BlockNode.mk (UInt32.le_antisymm from_first to_last)

theorem combineWeightsBySorting_merged (allowed : Allowed typeOf ws) :
    ∃ out, combineWeightsBySorting ws = some out ∧ Merged ws out := by
  have perm := perm_insertionSort
    (fun L R : Weight => L.TargetNode.Index <= R.TargetNode.Index) ws
  have sorted := pairwise_insertionSort
    (fun L R : Weight => L.TargetNode.Index <= R.TargetNode.Index) ws
  rw [combineWeightsBySorting]
  generalize ws.insertionSort (fun L R : Weight => L.TargetNode.Index <= R.TargetNode.Index) = ws'
    at perm sorted ⊢
  cases ws' with
  | nil => exact ⟨[], rfl, Merged.perm perm (merged_self nodup_nil)⟩
  | cons I rest =>
    rcases combineAdjacent_merged (fun W mem => allowed W (perm.mem_iff.mp mem)) sorted with
      ⟨out, ran, merged⟩
    exact ⟨out, ran, merged.perm perm⟩

theorem combineInto_new {acc : List Weight} (valid : O.TargetNode.isValid = true)
    (fresh : O.TargetNode ∉ acc.map Weight.TargetNode) : combineInto acc O = some (acc ++ [O]) := by
  induction acc with
  | nil =>
    rw [combineInto, combineWeight, valid, Bool.not_true, if_neg Bool.false_ne_true]
    rfl
  | cons C acc ih =>
    rw [map_cons, mem_cons, not_or] at fresh
    rw [combineInto, if_neg (Ne.symm fresh.1), ih fresh.2]
    rfl

theorem combineInto_old {l r : List Weight} (fresh : L.TargetNode ∉ l.map Weight.TargetNode)
    (same : O.TargetNode = L.TargetNode) :
    combineInto (l ++ O :: r) L = (combineWeight O L).map fun C => l ++ C :: r := by
  induction l with
  | nil => rw [nil_append, combineInto, if_pos same]; rfl
  | cons V l ih =>
    rw [map_cons, mem_cons, not_or] at fresh
    rw [cons_append, combineInto, if_neg (Ne.symm fresh.1), ih fresh.2, Option.map_map]
    rfl

theorem foldlM_combineInto {acc : List Weight} (nodup : (acc.map Weight.TargetNode).Nodup)
    (allowed : Allowed typeOf (acc ++ ws)) :
    ∃ out, ws.foldlM combineInto acc = some out ∧ Merged (acc ++ ws) out := by
  induction ws generalizing acc with
  | nil =>
    rw [append_nil]
    exact ⟨acc, rfl, merged_self nodup⟩
  | cons L ws ih =>
    rw [foldlM_cons]
    by_cases known : L.TargetNode ∈ acc.map Weight.TargetNode
    · rcases mem_map.mp known with ⟨O, mem, same⟩
      rcases append_of_mem mem with ⟨l, r, rfl⟩
      have front : (l ++ O :: r ++ L :: ws).Perm (O :: L :: (l ++ r ++ ws)) :=
        perm_middle.trans ((perm_middle.append_right ws).cons L) |>.trans (.swap ..)
      have allowed' : Allowed typeOf (O :: L :: (l ++ r ++ ws)) := fun W listed =>
        allowed W (front.mem_iff.mpr listed)
      rcases combineWeight_eq allowed' same with ⟨C, ran, joined⟩
      have back : (l ++ C :: r ++ ws).Perm (C :: (l ++ r ++ ws)) := perm_middle.append_right ws
      have keys : (l ++ C :: r).map Weight.TargetNode = (l ++ O :: r).map Weight.TargetNode := by
        simp only [map_append, map_cons, joined.target]
      rcases ih (keys ▸ nodup) (fun W listed => joined.allowed allowed' W
        (back.mem_iff.mp listed)) with ⟨out, rest, merged⟩
      refine ⟨out, ?_, ((merged.perm back).join joined).perm front.symm⟩
      rw [combineInto_old ?_ same, ran]
      · exact rest
      · rw [map_append, map_cons, nodup_middle, nodup_cons, same] at nodup
        exact fun old => nodup.1 (mem_append_left _ old)
    · rw [combineInto_new (allowed L (by simp)).1 known, append_cons acc L ws]
      rw [append_cons] at allowed
      refine ih ?_ allowed
      rw [map_append]
      exact nodup.append (nodup_singleton _) (by simpa using known)

variable {order : List Weight -> List Weight}

theorem combineWeightsByHashing_merged
    (anyOrder : ∀ l, (order l).Perm l) (allowed : Allowed typeOf ws) :
    ∃ out, combineWeightsByHashing order ws = some out ∧ Merged ws out := by
  have collected : ∃ out, ws.foldlM combineInto [] = some out ∧ Merged ws out :=
    foldlM_combineInto nodup_nil allowed
  rcases collected with ⟨out, ran, merged⟩
  rw [combineWeightsByHashing, ran]
  by_cases unchanged : ws.length = out.length
  · have subset := subperm_of_subset merged.nodup fun t => (merged.targets t).mp
    have perm := subset.perm_of_length_le (by simp [unchanged])
    exact ⟨ws, if_pos unchanged, merged_self (perm.nodup_iff.mp merged.nodup)⟩
  · have perm := (anyOrder out).map Weight.TargetNode
    exact ⟨order out, if_neg unchanged, perm.nodup_iff.mpr merged.nodup,
      fun t => perm.mem_iff.trans (merged.targets t),
      fun W mem => merged.amounts W ((anyOrder out).mem_iff.mp mem)⟩

theorem combineWeights_merged (anyOrder : ∀ l, (order l).Perm l) (allowed : Allowed typeOf ws) :
    ∃ out, combineWeights order ws = some out ∧ Merged ws out := by
  rw [combineWeights]
  split_ifs
  · exact combineWeightsByHashing_merged anyOrder allowed
  · exact combineWeightsBySorting_merged allowed

/-! ## Scaling -/

/-- A number divided by a power of two, to the nearest, and at least one. -/
def rounded (s a : Nat) : Nat := max 1 ((a + 2 ^ (s - 1)) / 2 ^ s)

theorem shiftRightAndRound_eq (N : UInt64) {s : Nat} (pos : 0 < s) (small : s <= 33) :
    (max 1 (shiftRightAndRound N s)).toNat = rounded s N.toNat := by
  have shifted {k : Nat} (le : k <= 33) : (N >>> UInt64.ofNat k).toNat = N.toNat / 2 ^ k := by
    rw [UInt64.toNat_shiftRight, UInt64.toNat_ofNat', mod_eq_of_lt (show k < 2 ^ 64 by omega),
      mod_eq_of_lt (show k < 64 by omega), shiftRight_eq_div_pow]
  have largest (x : UInt64) : (max 1 x).toNat = max 1 x.toNat := by
    by_cases le : 1 <= x
    · exact (congrArg UInt64.toNat (if_pos le)).trans (max_eq_right le).symm
    · exact (congrArg UInt64.toNat (if_neg le)).trans (max_eq_left (by
        have less : ¬ (1 <= x.toNat) := le
        omega)).symm
  -- A half is rounded up.
  have half : (N.toNat + 2 ^ (s - 1)) / 2 ^ s = N.toNat / 2 ^ s + N.toNat / 2 ^ (s - 1) % 2 := by
    rw [<- Nat.pow_pred_mul pos, <- Nat.div_div_eq_div_mul, <- Nat.div_div_eq_div_mul,
      add_div_right _ (Nat.two_pow_pos _)]
    omega
  have below : N.toNat / 2 ^ s <= N.toNat / 2 := div_le_div_left (Nat.le_self_pow pos.ne' 2) two_pos
  have bounded := N.toNat_lt
  rw [largest, rounded, half, shiftRightAndRound, if_neg pos.ne', UInt64.toNat_add, shifted small,
    UInt64.toNat_and, shifted (by omega), show (1 : UInt64).toNat = 1 from rfl, Nat.and_comm,
    and_one_is_mod, mod_eq_of_lt (by omega)]

theorem rounded_le {s a : Nat} (pos : 0 < s)
    (bound : a < 2 ^ (s + 31)) : rounded s a <= 2 ^ 31 := by
  have half : 2 ^ (s - 1) * 2 = 2 ^ s := Nat.pow_pred_mul pos
  have power := Nat.two_pow_pos (s - 1)
  refine max_le (by decide) (Nat.lt_succ_iff.mp
    ((Nat.div_lt_iff_lt_mul (Nat.two_pow_pos s)).mpr ?_))
  rw [pow_add] at bound
  omega

theorem scaleWeights_spec {s : Nat} (pos : 0 < s) (small : s <= 33) {total : UInt64}
    (valid : ∀ W ∈ ws, W.TargetNode.isValid = true ∧ W.Amount.toNat < 2 ^ (s + 31))
    (room : total.toNat + 2 ^ 31 * ws.length < 2 ^ 64) :
    ∃ out total', scaleWeights s ws total = some (out, total') ∧
      out.map Weight.TargetNode = ws.map Weight.TargetNode ∧ (∀ W ∈ out, 1 <= W.Amount.toNat) ∧
      sumOf out = (ws.map fun W => rounded s W.Amount.toNat).sum ∧
      total'.toNat = total.toNat + sumOf out := by
  induction ws generalizing total with
  | nil => exact ⟨[], total, rfl, rfl, nofun, rfl, rfl⟩
  | cons W ws ih =>
    rcases forall_mem_cons.mp valid with ⟨⟨here, bound⟩, later⟩
    have amount := shiftRightAndRound_eq W.Amount pos small
    have le := rounded_le pos bound
    rw [scaleWeights]
    dsimp only
    generalize max 1 (shiftRightAndRound W.Amount s) = Amount at amount ⊢
    rw [length_cons] at room
    have sum : (total + Amount).toNat = total.toNat + Amount.toNat := by
      rw [UInt64.toNat_add]
      omega
    have room' : (total + Amount).toNat + 2 ^ 31 * ws.length < 2 ^ 64 := by omega
    rcases ih later room' with
      ⟨out, total', ran, targets, some_amount, amounts, totals⟩
    have fits : ¬ Amount > 0xffffffff := fun large => by
      have more : 0xffffffff < Amount.toNat := large
      omega
    refine ⟨{ W with Amount := Amount } :: out, total', ?_, ?_,
      forall_mem_cons.mpr ⟨?_, some_amount⟩, ?_, ?_⟩
    · rw [here, decide_eq_false fits, ran]
      rfl
    · rw [map_cons, targets, map_cons]
    · exact amount ▸ le_max_left ..
    · rw [sumOf_cons, amounts, map_cons, sum_cons, amount]
    · rw [totals, sum, sumOf_cons, add_assoc]

/-! ## Taking the masses -/

theorem DitheringDistributer.takeMass_spec {this : DitheringDistributer} {Weight : UInt32}
    (pos : 0 < Weight.toNat) (le : Weight.toNat <= this.RemWeight.toNat) :
    ∃ Mass, this.takeMass Weight =
        some (Mass, ⟨this.RemWeight - Weight, this.RemMass - Mass⟩) ∧
      Mass.toNat <= this.RemMass.toNat ∧ (Weight = this.RemWeight -> Mass = this.RemMass) := by
  have nonzero : this.RemWeight ≠ 0 := fun zero => by simp [zero] at le; omega
  rcases BranchProbability.scale_spec this.RemMass Weight nonzero with ⟨Mass, ran, value⟩
  have share : this.RemMass.toNat * Weight.toNat / this.RemWeight.toNat <= this.RemMass.toNat :=
    Nat.div_le_of_le_mul (Nat.mul_comm .. ▸ Nat.mul_le_mul_right _ le)
  have part : Mass.toNat <= this.RemMass.toNat := by omega
  have rest : ¬ this.RemMass - Mass > this.RemMass := fun more => by
    have less : this.RemMass.toNat < (this.RemMass - Mass).toNat := more
    rw [UInt64.toNat_sub_of_le _ _ part] at less
    omega
  refine ⟨Mass, ?_, part, fun same => ?_⟩
  · rw [takeMass, dif_pos ⟨pos, le⟩]
    change (LlvmProject.scale this.RemMass Weight this.RemWeight >>= _) = _
    rw [ran]
    exact congrArg (fun m => some (Mass, (⟨_, m⟩ : DitheringDistributer))) (if_neg rest)
  · rw [same, Nat.mul_div_cancel _ (same ▸ pos)] at value
    have small := this.RemMass.toNat_lt
    exact UInt64.toNat_inj.mp (by omega)

/-- The last edge takes what is left. -/
theorem DitheringDistributer.takeMasses_lossless {this : DitheringDistributer} (nonempty : ws ≠ [])
    (pos : ∀ W ∈ ws, 1 <= W.Amount.toNat) (total : this.RemWeight.toNat = sumOf ws) :
    ∃ Masses, this.takeMasses ws = some (Masses, ⟨0, 0⟩) ∧
      (Masses.map UInt64.toNat).sum = this.RemMass.toNat := by
  induction ws generalizing this with
  | nil => exact absurd rfl nonempty
  | cons W ws ih =>
    rcases forall_mem_cons.mp pos with ⟨here, later⟩
    rw [sumOf_cons] at total
    have small := this.RemWeight.toNat_lt
    have amount : W.Amount.toUInt32.toNat = W.Amount.toNat := by
      rw [UInt64.toNat_toUInt32]
      omega
    have nonzero : 0 < W.Amount.toUInt32.toNat := by omega
    have le : W.Amount.toUInt32.toNat <= this.RemWeight.toNat := by omega
    rcases takeMass_spec nonzero le with ⟨Mass, ran, part, whole⟩
    rw [takeMasses, ran]
    by_cases last : ws = []
    · subst last
      have same : W.Amount.toUInt32 = this.RemWeight := UInt32.toNat_inj.mp (by
        rw [amount, total]
        rfl)
      rw [same, whole same, UInt32.sub_self, UInt64.sub_self]
      exact ⟨[this.RemMass], rfl, add_zero _⟩
    · let next : DitheringDistributer :=
        ⟨this.RemWeight - W.Amount.toUInt32, this.RemMass - Mass⟩
      have left : next.RemWeight.toNat = sumOf ws := by
        rw [UInt32.toNat_sub_of_le _ _ le]
        omega
      rcases ih last later left with ⟨Masses, rest, sum⟩
      refine ⟨Mass :: Masses, ?_, ?_⟩
      · change (takeMasses _ ws >>= _) = _
        rw [rest]
        rfl
      · rw [map_cons, sum_cons, sum, UInt64.toNat_sub_of_le _ _ part]
        omega

/-! ## Adding the weights -/

/-- The weights are added one after the other. -/
def addAll (ws : List Weight) : Option Distribution := ws.foldlM Distribution.add Distribution.new

/-- The distribution after that. -/
def added (ws : List Weight) : Distribution :=
  ⟨ws, UInt64.ofNat (sumOf ws), decide (2 ^ 64 <= sumOf ws)⟩

theorem addAll_eq (nonzero : ∀ W ∈ ws, 0 < W.Amount.toNat) (bound : sumOf ws < 2 ^ 65) :
    addAll ws = some (added ws) := by
  induction ws using reverseRecOn with
  | nil => rfl
  | append_singleton ws W ih =>
    have sum : sumOf (ws ++ [W]) = sumOf ws + W.Amount.toNat := by simp [sumOf]
    rw [added, sum]
    rw [sum] at bound
    have some_amount : W.Amount ≠ 0 := fun zero => by
      have pos := nonzero W (by simp)
      simp [zero] at pos
    have total : UInt64.ofNat (sumOf ws) + W.Amount = UInt64.ofNat (sumOf ws + W.Amount.toNat) := by
      rw [UInt64.ofNat_add, UInt64.ofNat_toNat]
    have overflow : UInt64.ofNat (sumOf ws + W.Amount.toNat) < UInt64.ofNat (sumOf ws) ↔
        sumOf ws < 2 ^ 64 ∧ 2 ^ 64 <= sumOf ws + W.Amount.toNat := by
      have small := W.Amount.toNat_lt
      rw [UInt64.lt_iff_toNat_lt, UInt64.toNat_ofNat', UInt64.toNat_ofNat']
      omega
    have before := ih (fun V mem => nonzero V (mem_append_left _ mem)) (by omega)
    rw [addAll, added] at before
    rw [addAll, foldlM_append, before]
    change (Distribution.add _ W >>= pure) = _
    rw [Distribution.add, if_neg some_amount]
    dsimp only
    have never : (decide (2 ^ 64 <= sumOf ws) && decide
        (UInt64.ofNat (sumOf ws + W.Amount.toNat) < UInt64.ofNat (sumOf ws))) = false := by
      rw [<- Bool.decide_and, decide_eq_false_iff_not, overflow]
      omega
    have either : (decide (2 ^ 64 <= sumOf ws) || decide
        (UInt64.ofNat (sumOf ws + W.Amount.toNat) < UInt64.ofNat (sumOf ws))) =
        decide (2 ^ 64 <= sumOf ws + W.Amount.toNat) := by
      rw [<- Bool.decide_or, decide_eq_decide, overflow]
      omega
    rw [total, never, either]
    rfl

/-! ## Normalizing -/

/-- One entry for each target, with amounts whose sum is the total and fits in 32 bits. -/
structure Normalized (ws : List Weight) (D : Distribution) : Prop where
  nodup : (D.Weights.map Weight.TargetNode).Nodup
  targets : ∀ t, t ∈ D.Weights.map Weight.TargetNode ↔ t ∈ ws.map Weight.TargetNode
  pos : ∀ W ∈ D.Weights, 1 <= W.Amount.toNat
  total : D.Total.toNat = sumOf D.Weights
  fits : D.Total.toNat <= 2 ^ 32 - 1

/-- The amount of a target, at most `2 ^ 64 - 1`, in units of `2 ^ 33`. -/
def scaledAmount (ws : List Weight) (t : BlockNode) : Nat :=
  rounded 33 (min (amountTo ws t) (2 ^ 64 - 1))

def scaledTotal (ws : List Weight) : Nat :=
  ((ws.map Weight.TargetNode).dedup.map (scaledAmount ws)).sum

/-- The weights do not overflow, or few enough is rounded up. -/
def Fits (ws : List Weight) : Prop := sumOf ws < 2 ^ 64 ∨ scaledTotal ws < 2 ^ 32

instance (ws : List Weight) : Decidable (Fits ws) := inferInstanceAs (Decidable (_ ∨ _))

/-- What is expected of the result. -/
def Expected (fits : Prop) [Decidable fits] (ws : List Weight) (result : Option Distribution) :
    Prop :=
  if fits then ∃ D, result = some D ∧ Normalized ws D else result = none

section

variable (merged : Merged ws out)
include merged

theorem Merged.scaledTotal : (out.map fun W => rounded 33 W.Amount.toNat).sum = scaledTotal ws := by
  have perm : (out.map Weight.TargetNode).Perm (ws.map Weight.TargetNode).dedup :=
    (perm_ext_iff_of_nodup merged.nodup (nodup_dedup _)).mpr fun t => by
      rw [merged.targets t, mem_dedup]
  rw [BlockFrequencyInfo.scaledTotal, <- (perm.map _).sum_eq, map_map]
  refine congrArg List.sum (map_congr_left fun W mem => ?_)
  rw [Function.comp_apply, scaledAmount, <- merged.amounts W mem]

theorem Merged.sum_amountTo : (out.map fun W => amountTo ws W.TargetNode).sum = sumOf ws := by
  rw [<- BlockFrequencyInfo.sum_amountTo merged.nodup fun W mem =>
    (merged.targets _).mpr (mem_map_of_mem mem), map_map]
  rfl

theorem Merged.sumOf_le : sumOf out <= sumOf ws := by
  rw [<- merged.sum_amountTo]
  exact sum_le_sum fun W mem => by
    rw [merged.amounts W mem]
    exact min_le_left ..

theorem Merged.sumOf_eq (small : sumOf ws < 2 ^ 64) : sumOf out = sumOf ws := by
  rw [<- merged.sum_amountTo]
  refine congrArg List.sum (map_congr_left fun W mem => ?_)
  have le := amountTo_le ws W.TargetNode
  rw [merged.amounts W mem, min_eq_left (by omega)]

theorem Merged.length_le : out.length <= ws.length := by
  have sub := subperm_of_subset merged.nodup fun t => (merged.targets t).mp
  simpa only [length_map] using sub.length_le

end

theorem sum_rounded_le (ws : List Weight) (s : Nat) :
    2 ^ s * (ws.map fun W => rounded s W.Amount.toNat).sum <= sumOf ws + 2 ^ s * ws.length := by
  induction ws with
  | nil => exact zero_le _
  | cons W ws ih =>
    have one : 2 ^ s * rounded s W.Amount.toNat <= W.Amount.toNat + 2 ^ s := by
      have quot := mul_div_le (W.Amount.toNat + 2 ^ (s - 1)) (2 ^ s)
      have half : 2 ^ (s - 1) <= 2 ^ s := Nat.pow_le_pow_right two_pos (sub_le s 1)
      rw [rounded, <- Nat.mul_max_mul_left]
      omega
    rw [map_cons, sum_cons, sumOf_cons, length_cons, mul_add, mul_succ]
    omega

theorem foldl_amounts (ws : List Weight) (total : UInt64) :
    ws.foldl (fun Sum W => Sum + W.Amount) total = total + UInt64.ofNat (sumOf ws) := by
  induction ws generalizing total with
  | nil => exact (UInt64.add_zero total).symm
  | cons W ws ih =>
    rw [foldl_cons, ih, sumOf_cons, UInt64.ofNat_add, UInt64.ofNat_toNat, UInt64.add_assoc]

theorem Merged.valid (merged : Merged ws out) (allowed : Allowed typeOf ws) {W : Weight}
    (mem : W ∈ out) : W.TargetNode.isValid = true := by
  rcases mem_map.mp ((merged.targets _).mp (mem_map_of_mem mem)) with ⟨V, listed, same⟩
  exact same ▸ (allowed V listed).1

theorem Merged.pos (merged : Merged ws out) (allowed : Allowed typeOf ws) {W : Weight}
    (mem : W ∈ out) : 1 <= W.Amount.toNat := by
  rcases mem_map.mp ((merged.targets _).mp (mem_map_of_mem mem)) with ⟨V, listed, same⟩
  have some_amount := (allowed V listed).2.1
  rcases append_of_mem listed with ⟨l, r, rfl⟩
  rw [merged.amounts W mem, amountTo_append, amountTo_cons, if_pos same]
  omega

theorem scaleDown_scaled {D : Distribution} {s : Nat} (shift : D.shift = s) (pos : 0 < s)
    (small : s <= 33) (merged : Merged ws out) (few : ws.length <= 2 ^ 16)
    (valid : ∀ W ∈ out, W.TargetNode.isValid = true ∧ W.Amount.toNat < 2 ^ (s + 31)) :
    Expected ((out.map fun W => rounded s W.Amount.toNat).sum < 2 ^ 32) ws (D.scaleDown out) := by
  have shorter := merged.length_le
  have zero : (0 : UInt64).toNat = 0 := rfl
  have room : (0 : UInt64).toNat + 2 ^ 31 * out.length < 2 ^ 64 := by omega
  rcases scaleWeights_spec pos small valid room with
    ⟨out', total', ran, targets, some_amount, amounts, total⟩
  rw [zero, zero_add] at total
  rw [Expected, Distribution.scaleDown, shift, if_neg pos.ne', ran, <- amounts, <- total]
  by_cases fits : total' <= 0xffffffff
  · have le : total'.toNat <= 2 ^ 32 - 1 := fits
    rw [if_pos (by omega)]
    exact ⟨_, if_pos fits, targets ▸ merged.nodup, fun t => targets ▸ merged.targets t, some_amount,
      total, le⟩
  · have more : ¬ total'.toNat <= 2 ^ 32 - 1 := fits
    rw [if_neg (by omega)]
    exact if_neg fits

theorem scaleDown_spec (allowed : Allowed typeOf ws) (few : ws.length <= 2 ^ 16)
    (bound : sumOf ws < 2 ^ 65) (merged : Merged ws out) :
    Expected (Fits ws) ws ((added ws).scaleDown out) := by
  rw [added]
  by_cases overflow : 2 ^ 64 <= sumOf ws
  · have scaled := scaleDown_scaled (s := 33)
      (D := ⟨ws, UInt64.ofNat (sumOf ws), decide (2 ^ 64 <= sumOf ws)⟩)
      (if_pos (decide_eq_true overflow)) (by decide) (by decide) merged few
      fun W mem => ⟨merged.valid allowed mem, W.Amount.toNat_lt⟩
    have fits : Fits ws ↔ scaledTotal ws < 2 ^ 32 := or_iff_right (by omega)
    simpa only [fits, merged.scaledTotal] using scaled
  · have total : (UInt64.ofNat (sumOf ws)).toNat = sumOf ws := by
      rw [UInt64.toNat_ofNat']
      omega
    have fits : Fits ws := .inl (Nat.lt_of_not_le overflow)
    rw [Expected, if_pos fits, decide_eq_false overflow]
    by_cases small : sumOf ws < 2 ^ 32
    · have unscaled : Distribution.shift ⟨ws, UInt64.ofNat (sumOf ws), false⟩ = 0 := by
        rw [Distribution.shift, if_neg Bool.false_ne_true, if_neg fun large => ?_]
        have more : 0xffffffff < (UInt64.ofNat (sumOf ws)).toNat := large
        omega
      have sum := merged.sumOf_eq (by omega)
      refine ⟨⟨out, UInt64.ofNat (sumOf ws), false⟩, ?_, merged.nodup, merged.targets,
        fun W => merged.pos allowed, total.trans sum.symm, by rw [total]; omega⟩
      rw [Distribution.scaleDown, if_pos unscaled, foldl_amounts, UInt64.zero_add, sum, if_pos rfl]
    · have large : UInt64.ofNat (sumOf ws) > 0xffffffff := by
        change 0xffffffff < (UInt64.ofNat (sumOf ws)).toNat
        omega
      have low : 32 <= (sumOf ws).log2 := (le_log2 (by omega)).mpr (by omega)
      have high : (sumOf ws).log2 < 64 := (log2_lt (by omega)).mpr (by omega)
      have next : sumOf ws < 2 ^ ((sumOf ws).log2 - 30 + 31) := by
        rw [show (sumOf ws).log2 - 30 + 31 = (sumOf ws).log2 + 1 by omega]
        exact lt_log2_self
      have scaled := scaleDown_scaled (s := (sumOf ws).log2 - 30)
        (D := ⟨ws, UInt64.ofNat (sumOf ws), false⟩) ?_ (by omega) (by omega) merged few
        fun W mem => ⟨merged.valid allowed mem, ?_⟩
      · rwa [Expected, if_pos ?_] at scaled
        have sum := sum_rounded_le out ((sumOf ws).log2 - 30)
        have le := merged.sumOf_le
        have shorter := merged.length_le
        rw [pow_add] at next
        have power := Nat.two_pow_pos ((sumOf ws).log2 - 30)
        refine Nat.lt_of_mul_lt_mul_left (a := 2 ^ ((sumOf ws).log2 - 30)) ?_
        have length := Nat.mul_le_mul_left (2 ^ ((sumOf ws).log2 - 30)) (shorter.trans few)
        omega
      · rw [Distribution.shift, if_neg Bool.false_ne_true, if_pos large, countLeadingZeros, total]
        omega
      · have le := amountTo_le ws W.TargetNode
        rw [merged.amounts W mem]
        omega

theorem combine_merged (anyOrder : ∀ l, (order l).Perm l) (allowed : Allowed typeOf ws) :
    ∃ out, Distribution.combine order ws = some out ∧ Merged ws out := by
  rw [Distribution.combine]
  by_cases several : ws.length > 1
  · rw [if_pos several]
    exact combineWeights_merged anyOrder allowed
  · refine ⟨ws, if_neg several, merged_self ?_⟩
    rcases ws with _ | ⟨W, _ | ⟨V, rest⟩⟩
    · exact nodup_nil
    · exact nodup_singleton _
    · exact absurd (succ_lt_succ (succ_pos _)) several

theorem normalize_spec (anyOrder : ∀ l, (order l).Perm l)
    (nonempty : ws ≠ []) (allowed : Allowed typeOf ws) (few : ws.length <= 2 ^ 16)
    (bound : sumOf ws < 2 ^ 65) : Expected (Fits ws) ws ((added ws).normalize order) := by
  rcases combine_merged anyOrder allowed with ⟨out, ran, merged⟩
  rw [added, Distribution.normalize, if_neg fun empty => nonempty (isEmpty_iff.mp empty), ran]
  rcases out with _ | ⟨W, _ | ⟨V, rest⟩⟩
  · exact scaleDown_spec allowed few bound merged
  · have fits : Fits ws := by
      right
      rw [<- merged.scaledTotal, map_singleton, sum_singleton]
      exact (rounded_le (by decide) W.Amount.toNat_lt).trans_lt (by decide)
    rw [Expected, if_pos fits]
    exact ⟨_, rfl, merged.nodup, merged.targets, forall_mem_singleton.mpr (le_refl 1), rfl,
      le_of_ble_eq_true rfl⟩
  · exact scaleDown_spec allowed few bound merged

/-! ## Nothing is lost -/

/-- The added weights are normalized, and their shares of each mass sum to it. -/
def Lossless (order : List Weight -> List Weight) (ws : List Weight) : Prop :=
  ∃ D D', addAll ws = some D ∧ D.normalize order = some D' ∧ Normalized ws D' ∧
    ∀ Mass, ∃ Masses,
      (DitheringDistributer.new D' Mass).takeMasses D'.Weights = some (Masses, ⟨0, 0⟩) ∧
      (Masses.map UInt64.toNat).sum = Mass.toNat

end BlockFrequencyInfo
end LlvmProject
