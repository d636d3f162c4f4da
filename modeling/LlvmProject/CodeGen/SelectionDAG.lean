import Mathlib.Data.BitVec

namespace LlvmProject

/-!
# Nodes of the selection graph

The expansions of a division by a constant build a small expression over the
numerator.  A value has the opcodes these expansions use, and a meaning: the
bits it has for a numerator.  A shift by the width or more has no meaning.
Shift amounts are numbers, since the type the target gives them is irrelevant
here.
-/

/-- The opcodes of arithmetic nodes.  The `LOHI` nodes have two results. -/
inductive ISD
  | ADD
  | SUB
  | MUL
  | MULHU
  | MULHS
  | UMUL_LOHI
  | SMUL_LOHI
  deriving DecidableEq, Repr

/-- The opcodes of shift nodes. -/
inductive ISDShift
  | SRL
  | SRA
  deriving DecidableEq, Repr

/-- The answers of the target about one type. -/
structure TargetLowering where
  isTypeLegal : Bool
  isOperationLegal : ISD -> Bool
  isOperationLegalOrCustom : ISD -> Bool

/-- The query of the expansions: custom lowering counts until legalization. -/
def TargetLowering.supports (target : TargetLowering) (IsAfterLegalization : Bool) (opcode : ISD) :
    Bool :=
  if IsAfterLegalization then target.isOperationLegal opcode
  else target.isOperationLegalOrCustom opcode

/-- One of the two nodes that give the high half of a product is there. -/
def TargetLowering.supportsHigh (target : TargetLowering) (IsAfterLegalization : Bool)
    (high lohi : ISD) : Bool :=
  target.supports IsAfterLegalization high || target.supports IsAfterLegalization lohi

variable {W : Nat}

/-- The high half of an unsigned product. -/
def mulhu (x y : BitVec W) : BitVec W := BitVec.ofNat W (x.toNat * y.toNat / 2 ^ W)

/-- The high half of a signed product. -/
def mulhs (x y : BitVec W) : BitVec W := BitVec.ofInt W (x.toInt * y.toInt / 2 ^ W)

/-- The meaning of a result of an arithmetic node. -/
def ISD.apply (x y : BitVec W) (result : Nat) : ISD -> BitVec W
  | ADD => x + y
  | SUB => x - y
  | MUL => x * y
  | MULHU => mulhu x y
  | MULHS => mulhs x y
  | UMUL_LOHI => if result = 0 then x * y else mulhu x y
  | SMUL_LOHI => if result = 0 then x * y else mulhs x y

/-- The meaning of a shift in range. -/
def ISDShift.apply (x : BitVec W) (amount : Nat) : ISDShift -> BitVec W
  | SRL => x >>> amount
  | SRA => x.sshiftRight amount

/-- A value: the numerator of the division, a constant, or a result of a
node. -/
inductive SDValue (W : Nat)
  | operand
  | constant (value : BitVec W)
  | node (opcode : ISD) (x y : SDValue W) (result : Nat)
  | shift (opcode : ISDShift) (x : SDValue W) (amount : Nat)
  deriving DecidableEq, Repr

/-- The meaning of a value for a numerator. -/
def SDValue.eval (numerator : BitVec W) : SDValue W -> Option (BitVec W)
  | operand => some numerator
  | constant value => some value
  | node opcode x y result => do
    return opcode.apply (<- x.eval numerator) (<- y.eval numerator) result
  | shift opcode x amount => do
    let x <- x.eval numerator
    if amount < W then return opcode.apply x amount else none

/-- The shift amounts in a value. -/
def SDValue.shifts : SDValue W -> List Nat
  | operand => []
  | constant _ => []
  | node _ x y _ => x.shifts ++ y.shifts
  | shift _ x amount => amount :: x.shifts

/-- What an expansion returns: the empty value, a failed assertion, or a
value.  The nodes it created are reported to the combiner in either case. -/
inductive Expansion (W : Nat)
  | empty (created : List (SDValue W))
  | assertion (message : String)
  | sequence (value : SDValue W) (created : List (SDValue W))
  deriving DecidableEq, Repr

/-- The high half of a product, by whichever node the target has. -/
def highProduct (target : TargetLowering) (IsAfterLegalization : Bool) (high lohi : ISD)
    (Q : SDValue W) (m : BitVec W) : Option (SDValue W) :=
  if target.supports IsAfterLegalization high then some (.node high Q (.constant m) 0)
  else if target.supports IsAfterLegalization lohi then some (.node lohi Q (.constant m) 1)
  else none

section Evaluation

variable {numerator a b : BitVec W} {x y : SDValue W}

theorem SDValue.eval_node (opcode : ISD) (result : Nat) (left : x.eval numerator = some a)
    (right : y.eval numerator = some b) :
    (node opcode x y result).eval numerator = some (opcode.apply a b result) := by
  rw [eval, left, right]
  rfl

theorem SDValue.eval_shift (opcode : ISDShift) {amount : Nat} (known : x.eval numerator = some a)
    (within : amount < W) :
    (shift opcode x amount).eval numerator = some (opcode.apply a amount) := by
  rw [eval, known]
  exact if_pos within

/-- The product is missing exactly if the target has neither node, and else
has the meaning of the high half. -/
theorem highProduct_cases (target : TargetLowering) (IsAfterLegalization : Bool) {high lohi : ISD}
    (Q : SDValue W) (m : BitVec W) (agree : ∀ a, lohi.apply a m 1 = high.apply a m 0) :
    highProduct target IsAfterLegalization high lohi Q m = none ∧
        target.supportsHigh IsAfterLegalization high lohi = false ∨
      ∃ prod, highProduct target IsAfterLegalization high lohi Q m = some prod ∧
        target.supportsHigh IsAfterLegalization high lohi = true ∧
        ∀ n a, Q.eval n = some a -> prod.eval n = some (high.apply a m 0) := by
  unfold highProduct TargetLowering.supportsHigh
  cases hasHigh : target.supports IsAfterLegalization high with
  | true => exact .inr ⟨_, rfl, rfl, fun n a known => SDValue.eval_node high 0 known rfl⟩
  | false =>
    cases hasLohi : target.supports IsAfterLegalization lohi with
    | true =>
      refine .inr ⟨_, rfl, rfl, fun n a known => ?_⟩
      rw [SDValue.eval_node lohi 1 known rfl, agree]
    | false => exact .inl ⟨rfl, rfl⟩

/-- A value that has a meaning shifts by less than the width throughout. -/
theorem SDValue.shifts_lt (known : x.eval numerator = some a) :
    ∀ amount ∈ x.shifts, amount < W := by
  induction x generalizing a with
  | operand => exact fun _ mem => absurd mem List.not_mem_nil
  | constant value => exact fun _ mem => absurd mem List.not_mem_nil
  | node opcode x y result left right =>
    rcases Option.bind_eq_some_iff.mp known with ⟨_, leftKnown, rest⟩
    rcases Option.bind_eq_some_iff.mp rest with ⟨_, rightKnown, _⟩
    intro amount mem
    rcases List.mem_append.mp mem with inLeft | inRight
    · exact left leftKnown amount inLeft
    · exact right rightKnown amount inRight
  | shift opcode x shifted inner =>
    rcases Option.bind_eq_some_iff.mp known with ⟨_, innerKnown, rest⟩
    have within : shifted < W := by
      by_contra outside
      rw [if_neg outside] at rest
      cases rest
    intro amount mem
    rcases List.mem_cons.mp mem with rfl | inInner
    · exact within
    · exact inner innerKnown amount inInner

end Evaluation

/-- An expansion computes a function: it has a value if the target supports
it, with the meaning of the function at every numerator and shifts below the
width, and no assertion fails. -/
def Expansion.Computes (supported : Bool) (function : BitVec W -> BitVec W) : Expansion W -> Prop
  | empty _ => supported = false
  | assertion _ => False
  | sequence value _ => supported = true ∧
      (∀ numerator, value.eval numerator = some (function numerator)) ∧
      ∀ amount ∈ value.shifts, amount < W

/-- The bound on the shifts follows from the meaning. -/
theorem Expansion.computes_sequence {supported : Bool} {function : BitVec W -> BitVec W}
    {value : SDValue W} {created : List (SDValue W)} (supports : supported = true)
    (known : ∀ numerator, value.eval numerator = some (function numerator)) :
    (Expansion.sequence value created).Computes supported function :=
  ⟨supports, known, SDValue.shifts_lt (known 0)⟩

end LlvmProject
