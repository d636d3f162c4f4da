import LlvmProject.ADT.SparseBitVectorFlags
import LlvmProject.ADT.SparseBitVectorIterator

namespace LlvmProject

open List Finset Function

namespace ADT

/-!
# Runs of sparse bit vectors

A store has a vector for every name, and an operation changes one of them, with
others as operands.  After any sequence of operations from empty vectors each
vector represents the set that the same operations on sets give, and every
query answers for that set.
-/

open BitWords KeyedMerge SparseBitVectorElement SparseBitVector

variable {L : Layout}

/-! ## What a vector represents -/

/-- A vector represents a set of unsigned numbers. -/
structure Represents (v : SparseBitVector L) (s : Finset (BitVec 32)) : Prop where
  valid : v.Valid
  mem_iff : ∀ i : BitVec 32, i ∈ s ↔ Contains v.Elements i.toNat

theorem toNat_unsigned {i : Nat} (bound : i < 2 ^ 32) : (BitVec.ofNat 32 i).toNat = i := by
  rw [BitVec.toNat_ofNat, Nat.mod_eq_of_lt bound]

section Queries

variable {v v' : SparseBitVector L} {s s' : Finset (BitVec 32)}

section

variable (rep : Represents v s)
include rep

theorem Represents.mem_members {i : Nat} : i ∈ members v.Elements ↔ ∃ b ∈ s, b.toNat = i := by
  rw [ADT.mem_members rep.valid.elements]
  constructor
  · intro contained
    have bound := contained.lt rep.valid.elements
    refine ⟨BitVec.ofNat 32 i, (rep.mem_iff _).mpr ?_, toNat_unsigned bound⟩
    rwa [toNat_unsigned bound]
  · rintro ⟨b, mem, rfl⟩
    exact (rep.mem_iff b).mp mem

theorem Represents.length_members : (members v.Elements).length = s.card := by
  have nodup : (members v.Elements).Nodup := (members_sorted rep.valid.list).imp fun less => less.ne
  have same : (members v.Elements).toFinset = s.image BitVec.toNat := by
    ext i
    rw [mem_toFinset, rep.mem_members, mem_image]
  rw [<- toFinset_card_of_nodup nodup, same,
    card_image_of_injective s fun _ _ => BitVec.eq_of_toNat_eq]

theorem Represents.test (i : BitVec 32) : ∃ v', v.test i.toNat = some (decide (i ∈ s), v') := by
  rcases test_spec rep.valid i.toNat with ⟨answer, v', tested, answers, _⟩
  refine ⟨v', ?_⟩
  rw [tested, Bool.eq_iff_iff.mpr (answers.trans ((rep.mem_iff i).symm.trans
    decide_eq_true_iff.symm))]

/-- The number of members, which wraps around if every number is one. -/
theorem Represents.count : v.count = s.card % 2 ^ 32 := by
  have elements : v.Elements.map SparseBitVectorElement.count =
      v.Elements.map fun e => (e.bits.map e.number).length :=
    map_congr_left fun e _ => by
      rw [length_map]
      exact sum_population L.bitwordSize_pos e.Bits
  rw [SparseBitVector.count, elements, <- rep.length_members, members, length_flatMap]

/-- The least member as an `int`, or `-1` for the empty set. -/
theorem Represents.find_first :
    (s = ∅ ∧ v.find_first = some (-1)) ∨
      ∃ least ∈ s, (∀ i ∈ s, least <= i) ∧ v.find_first = some least.toInt := by
  have sorted := members_sorted rep.valid.list
  have membersOf := fun i => rep.mem_members (i := i)
  rw [SparseBitVector.find_first]
  cases elements : v.Elements with
  | nil =>
    refine .inl ⟨eq_empty_iff_forall_notMem.mpr fun i mem => ?_, rfl⟩
    have contained := (rep.mem_iff i).mp mem
    rw [elements] at contained
    exact absurd contained.choose_spec.1 not_mem_nil
  | cons e rest =>
    have eValid := rep.valid.elements e (by rw [elements]; exact mem_cons_self)
    rcases eValid.nonempty with ⟨p, isSet⟩
    cases bits : e.bits with
    | nil => exact absurd (mem_bits.mpr isSet) (by rw [bits]; exact not_mem_nil)
    | cons q post =>
      rw [elements, members, flatMap_cons, bits, List.map_cons, cons_append] at sorted membersOf
      rcases (membersOf _).mp mem_cons_self with ⟨least, mem, leastIs⟩
      refine .inr ⟨least, mem, fun i inSet => ?_, ?_⟩
      · have le : e.number q <= i.toNat := by
          rcases mem_cons.mp ((membersOf i.toNat).mpr ⟨i, inSet, rfl⟩) with same | later
          · exact same.ge
          · exact ((pairwise_cons.mp sorted).1 _ later).le
        rw [BitVec.le_def, leastIs]
        exact le
      · simp only [find_first_eq, bits, head?_cons, Option.bind_eq_bind, Option.bind_some]
        refine congrArg (fun b : BitVec 32 => some b.toInt) (BitVec.eq_of_toNat_eq ?_)
        have bound := least.isLt
        rw [leastIs] at bound
        rw [leastIs]
        exact toNat_unsigned bound

theorem Represents.mem_elements (rep' : Represents v' s)
    {e : SparseBitVectorElement L} (mem : e ∈ v.Elements) : e ∈ v'.Elements := by
  have eValid := rep.valid.elements e mem
  have memberOf : ∀ {p}, e.bit p = true -> ∃ a ∈ v'.Elements, a.index = e.index ∧ a.bit p =
      true := by
    intro p isSet
    rcases eValid.within p isSet with ⟨low, _⟩
    have inMembers : e.number p ∈ members v.Elements :=
      mem_flatMap.mpr ⟨e, mem, mem_map.mpr ⟨p, mem_bits.mpr isSet, rfl⟩⟩
    have contained := (ADT.mem_members rep'.valid.elements).mp
      (rep'.mem_members.mpr (rep.mem_members.mp inMembers))
    rcases contained with ⟨a, inOther, same, isSet'⟩
    rw [number, div_eq_of_add L.elementSize_pos low] at same
    rw [number, Nat.mul_add_mod', Nat.mod_eq_of_lt low] at isSet'
    exact ⟨a, inOther, same, isSet'⟩
  rcases eValid.nonempty with ⟨p, isSet⟩
  rcases memberOf isSet with ⟨a, inOther, same, _⟩
  have subset : ∀ q, e.bit q = true -> a.bit q = true := fun q isSet => by
    rcases memberOf isSet with ⟨b, inOther', same', isSet'⟩
    rwa [rep'.valid.sorted.eq_of_key_eq inOther inOther' (same.trans same'.symm)]
  have superset : ∀ q, a.bit q = true -> e.bit q = true := fun q isSet => by
    have aValid := rep'.valid.elements a inOther
    rcases aValid.within q isSet with ⟨low, _⟩
    have inMembers : a.number q ∈ members v'.Elements :=
      mem_flatMap.mpr ⟨a, inOther, mem_map.mpr ⟨q, mem_bits.mpr isSet, rfl⟩⟩
    rcases (ADT.mem_members rep.valid.elements).mp
      (rep.mem_members.mpr (rep'.mem_members.mp inMembers)) with
      ⟨b, inFirst, same', isSet'⟩
    rw [number, div_eq_of_add L.elementSize_pos low] at same'
    rw [number, Nat.mul_add_mod', Nat.mod_eq_of_lt low] at isSet'
    rwa [rep.valid.sorted.eq_of_key_eq mem inFirst (same.symm.trans same'.symm)]
  have equal : e = a := SparseBitVectorElement.eq_of_bit_eq same.symm fun q =>
    Bool.eq_iff_iff.mpr ⟨subset q, superset q⟩
  exact equal ▸ inOther

/-- A set has only one list of elements. -/
theorem Represents.elements_eq_iff (rep' : Represents v' s') :
    v.Elements = v'.Elements ↔ s = s' := by
  constructor
  · intro same
    ext i
    rw [rep.mem_iff, rep'.mem_iff, same]
  · rintro rfl
    exact rep.valid.sorted.eq_of_mem_iff rep'.valid.sorted fun e =>
      ⟨rep.mem_elements rep', rep'.mem_elements rep⟩

end

theorem equalElements_iff (l l' : List (SparseBitVectorElement L)) :
    equalElements l l' = true ↔ l = l' := by
  induction l generalizing l' with
  | nil => cases l' <;> simp [equalElements]
  | cons e l ih =>
    cases l' with
    | nil => simp [equalElements]
    | cons e' l' =>
      rw [equalElements]
      by_cases same : e = e'
      · rw [if_neg (by simp [same]), ih, same, cons.injEq, and_iff_right rfl]
      · have ne : e.ElementIndex ≠ e'.ElementIndex ∨ e.Bits ≠ e'.Bits := by
          by_contra both
          rw [not_or, not_not, not_not] at both
          exact same (SparseBitVectorElement.eq_of_bit_eq both.1 fun p =>
            congrArg (BitWords.bit · p) both.2)
        rw [if_pos ne]
        exact iff_of_false Bool.false_ne_true fun equal => same (cons.inj equal).1

/-- Comparing the vectors compares the sets. -/
theorem Represents.equal (rep : Represents v s) (rep' : Represents v' s') :
    v.equal v' = true ↔ s = s' :=
  (equalElements_iff _ _).trans (rep.elements_eq_iff rep')

end Queries

/-! ## Operations -/

/-- The operations on the vectors of a store.  A union or an intersection may
have one vector as both operands. -/
inductive Operation (Name : Type)
  | set (this : Name) (Idx : BitVec 32)
  | reset (this : Name) (Idx : BitVec 32)
  | test (this : Name) (Idx : BitVec 32)
  | test_and_set (this : Name) (Idx : BitVec 32)
  | clear (this : Name)
  | assign (this RHS : Name) (another : RHS ≠ this)
  | orAssign (this RHS : Name)
  | andAssign (this RHS : Name)
  | intersectWithComplement (this RHS : Name) (distinct : RHS ≠ this)
  | intersectWithComplementOf (this RHS1 RHS2 : Name) (distinct : RHS1 ≠ this ∧ RHS2 ≠ this)

namespace Operation

variable {Name : Type}

/-- The vector that changes. -/
def this : Operation Name -> Name
  | set this _ | reset this _ | test this _ | test_and_set this _ | clear this => this
  | assign this _ _ | orAssign this _ | andAssign this _ => this
  | intersectWithComplement this _ _ | intersectWithComplementOf this _ _ _ => this

/-- What becomes of that vector. -/
def result (store : Name -> SparseBitVector L) : Operation Name -> Option (SparseBitVector L)
  | set this Idx => (store this).set Idx.toNat
  | reset this Idx => (store this).reset Idx.toNat
  | test this Idx => ((store this).test Idx.toNat).map (·.2)
  | test_and_set this Idx => ((store this).test_and_set Idx.toNat).map (·.2)
  | clear this => some (store this).clear
  | assign _ RHS _ => some (SparseBitVector.assign (store RHS))
  | orAssign this RHS => some ((store this).orAssign (store RHS)).1
  | andAssign this RHS => some ((store this).andAssign (store RHS)).1
  | intersectWithComplement this RHS _ => some ((store this).intersectWithComplement (store RHS)).1
  | intersectWithComplementOf _ RHS1 RHS2 _ =>
    some (SparseBitVector.intersectWithComplementOf (store RHS1) (store RHS2))

/-- What the operation is on sets. -/
def resultSet (sets : Name -> Finset (BitVec 32)) : Operation Name -> Finset (BitVec 32)
  | set this Idx => insert Idx (sets this)
  | reset this Idx => (sets this).erase Idx
  | test this _ => sets this
  | test_and_set this Idx => insert Idx (sets this)
  | clear _ => ∅
  | assign _ RHS _ => sets RHS
  | orAssign this RHS => sets this ∪ sets RHS
  | andAssign this RHS => sets this ∩ sets RHS
  | intersectWithComplement this RHS _ => sets this \ sets RHS
  | intersectWithComplementOf _ RHS1 RHS2 _ => sets RHS1 \ sets RHS2

variable {store : Name -> SparseBitVector L}

variable {sets : Name -> Finset (BitVec 32)}

theorem result_represents (op : Operation Name)
    (rep : ∀ name, Represents (store name) (sets name)) :
    ∃ v, op.result store = some v ∧ Represents v (op.resultSet sets) := by
  cases op with
  | set this Idx =>
    rcases set_spec (rep this).valid Idx.isLt with ⟨v, done, valid, contents⟩
    refine ⟨v, done, valid, fun i => ?_⟩
    rw [resultSet, mem_insert, contents, (rep this).mem_iff, BitVec.toNat_inj]
  | reset this Idx =>
    rcases reset_spec (rep this).valid Idx.toNat with ⟨v, done, valid, contents⟩
    refine ⟨v, done, valid, fun i => ?_⟩
    rw [resultSet, mem_erase, contents, (rep this).mem_iff, ne_eq, ne_eq, BitVec.toNat_inj]
  | test this Idx =>
    rcases test_spec (rep this).valid Idx.toNat with ⟨answer, v, done, _, same, valid⟩
    refine ⟨v, by rw [result, done]; rfl, valid, fun i => ?_⟩
    rw [same]
    exact (rep this).mem_iff i
  | test_and_set this Idx =>
    rcases test_spec (rep this).valid Idx.toNat with ⟨answer, v, done, answers, same, valid⟩
    rw [result, SparseBitVector.test_and_set, done]
    cases answer with
    | true =>
      refine ⟨v, rfl, valid, fun i => ?_⟩
      have there := ((rep this).mem_iff Idx).mpr (answers.mp rfl)
      rw [resultSet, insert_eq_self.mpr there, same]
      exact (rep this).mem_iff i
    | false =>
      rcases set_spec valid Idx.isLt with ⟨v', done', valid', contents⟩
      refine ⟨v', ?_, valid', fun i => ?_⟩
      · simp only [Option.bind_eq_bind, Option.bind_some, Bool.not_false, if_true, done']
        rfl
      · rw [resultSet, mem_insert, contents, (rep this).mem_iff, same, BitVec.toNat_inj]
  | clear this =>
    refine ⟨_, rfl, clear_valid _, fun i => ?_⟩
    exact iff_of_false (notMem_empty i) fun ⟨_, mem, _⟩ => absurd mem not_mem_nil
  | assign this RHS another =>
    exact ⟨_, rfl, assign_spec (rep RHS).valid, (rep RHS).mem_iff⟩
  | orAssign this RHS =>
    rcases orAssign_spec (rep this).valid (rep RHS).valid with ⟨valid, contents⟩
    refine ⟨_, rfl, valid, fun i => ?_⟩
    rw [resultSet, mem_union, contents, (rep this).mem_iff, (rep RHS).mem_iff]
  | andAssign this RHS =>
    rcases andAssign_spec (rep this).valid (rep RHS).valid with ⟨valid, contents⟩
    refine ⟨_, rfl, valid, fun i => ?_⟩
    rw [resultSet, mem_inter, contents, (rep this).mem_iff, (rep RHS).mem_iff]
  | intersectWithComplement this RHS distinct =>
    rcases intersectWithComplement_spec (rep this).valid (rep RHS).valid with
      ⟨valid, contents⟩
    refine ⟨_, rfl, valid, fun i => ?_⟩
    rw [resultSet, mem_sdiff, contents, (rep this).mem_iff, (rep RHS).mem_iff]
  | intersectWithComplementOf this RHS1 RHS2 distinct =>
    rcases intersectWithComplementOf_spec (rep RHS1).valid (rep RHS2).valid with
      ⟨valid, contents⟩
    refine ⟨_, rfl, valid, fun i => ?_⟩
    rw [resultSet, mem_sdiff, contents, (rep RHS1).mem_iff, (rep RHS2).mem_iff]

variable [DecidableEq Name]

/-- One step of a store. -/
def step (store : Name -> SparseBitVector L) (op : Operation Name) :
    Option (Name -> SparseBitVector L) :=
  (op.result store).map (update store op.this)

def stepSets (sets : Name -> Finset (BitVec 32)) (op : Operation Name) :
    Name -> Finset (BitVec 32) :=
  update sets op.this (op.resultSet sets)

/-- A sequence of steps from empty vectors. -/
def run (operations : List (Operation Name)) : Option (Name -> SparseBitVector L) :=
  operations.foldlM step fun _ => SparseBitVector.new

def runSets (operations : List (Operation Name)) : Name -> Finset (BitVec 32) :=
  operations.foldl stepSets fun _ => ∅

theorem step_represents (op : Operation Name) (rep : ∀ name, Represents (store name) (sets name)) :
    ∃ store', step store op = some store' ∧
      ∀ name, Represents (store' name) (stepSets sets op name) := by
  rcases op.result_represents rep with ⟨v, done, vRepresents⟩
  refine ⟨update store op.this v, by rw [step, done]; rfl, fun name => ?_⟩
  rw [stepSets]
  by_cases changed : name = op.this
  · rw [changed, update_self, update_self]
    exact vRepresents
  · rw [update_of_ne changed, update_of_ne changed]
    exact rep name

theorem steps_represent (operations : List (Operation Name))
    (rep : ∀ name, Represents (store name) (sets name)) :
    ∃ store', operations.foldlM step store = some store' ∧
      ∀ name, Represents (store' name) (operations.foldl stepSets sets name) := by
  induction operations generalizing store sets with
  | nil => exact ⟨store, rfl, rep⟩
  | cons op operations ih =>
    rcases step_represents op rep with ⟨store', stepped, rep'⟩
    rcases ih rep' with ⟨store'', ran, rep''⟩
    refine ⟨store'', ?_, rep''⟩
    rw [foldlM_cons, stepped]
    exact ran

theorem run_represents (operations : List (Operation Name)) :
    ∃ store : Name -> SparseBitVector L, run operations = some store ∧
      ∀ name, Represents (store name) (runSets operations name) :=
  steps_represent operations fun _ => ⟨new_valid, fun i =>
    iff_of_false (notMem_empty i) fun ⟨_, mem, _⟩ => absurd mem not_mem_nil⟩

end Operation

/-! ## Agreement with a set -/

/-- A vector agrees with a set: its elements have strictly increasing indices
and are not zero, the current element is a position of a list that is not
empty, and the queries answer for the set. -/
structure Agrees (v : SparseBitVector L) (s : Finset (BitVec 32)) : Prop where
  increasing : v.Elements.Pairwise fun e e' => e.index < e'.index
  nonzero : ∀ e ∈ v.Elements, e.empty = false
  position : v.Elements ≠ [] -> ∃ curr, v.CurrElementIter = some curr ∧ curr <= v.Elements.length
  test : ∀ i : BitVec 32, ∃ v', v.test i.toNat = some (decide (i ∈ s), v')
  count : v.count = s.card % 2 ^ 32
  find_first : (s = ∅ ∧ v.find_first = some (-1)) ∨
    ∃ least ∈ s, (∀ i ∈ s, least <= i) ∧ v.find_first = some least.toInt
  iteration : ∃ first last numbers, v.beginIterator = some first ∧ v.endIterator = some last ∧
    Walks last first numbers ∧ numbers.Pairwise (· < ·) ∧ ∀ i, i ∈ numbers ↔ ∃ b ∈ s, b.toNat = i

theorem Represents.agrees {v : SparseBitVector L} {s : Finset (BitVec 32)}
    (rep : Represents v s) : Agrees v s where
  increasing := rep.valid.sorted
  nonzero e mem := isZero_eq_false_iff.mpr (rep.valid.elements e mem).nonempty
  position := rep.valid.position
  test := rep.test
  count := rep.count
  find_first := rep.find_first
  iteration := by
    rcases walks_members rep.valid with ⟨first, last, starts, ends, walk⟩
    exact ⟨first, last, _, starts, ends, walk, members_sorted rep.valid.list,
      fun i => rep.mem_members⟩

open Operation

/-- After any sequence of operations on empty vectors every vector agrees with
the set that the operations give, and comparing two vectors compares their
sets. -/
theorem run_agrees {Name : Type} [DecidableEq Name] (L : Layout)
    (operations : List (Operation Name)) :
    ∃ store : Name -> SparseBitVector L, run operations = some store ∧
      (∀ name, Agrees (store name) (runSets operations name)) ∧
      ∀ name name', (store name).equal (store name') = true ↔
        runSets operations name = runSets operations name' := by
  rcases run_represents (L := L) operations with ⟨store, ran, rep⟩
  exact ⟨store, ran, fun name => (rep name).agrees, fun name name' => (rep name).equal (rep name')⟩

theorem Represents.contains {v v' : SparseBitVector L} {s s' : Finset (BitVec 32)}
    (rep : Represents v s) (rep' : Represents v' s') : v.contains v' = true ↔ s' ⊆ s := by
  have both : Represents ((SparseBitVector.assign v).andAssign v').1 (s ∩ s') := by
    rcases andAssign_spec (assign_spec rep.valid) rep'.valid with ⟨valid, contents⟩
    refine ⟨valid, fun i => ?_⟩
    rw [mem_inter, rep.mem_iff, rep'.mem_iff, contents]
    rfl
  exact (both.equal rep').trans inter_eq_right

/-- The first set bit is an `int`.  For the greatest unsigned number that is
what is returned if no bits are set. -/
theorem find_first_of_greatest :
    ¬ ∀ (operations : List (Operation Unit)) (store : Unit -> SparseBitVector Layout.default),
      run operations = some store ->
        ∀ name, (store name).find_first = some (-1) -> runSets operations name = ∅ := by
  intro all
  have nothing := all [.set () 4294967295#32] _ rfl () (by decide +kernel)
  exact absurd nothing (by decide)

end ADT
end LlvmProject
