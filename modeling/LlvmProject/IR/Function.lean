import Mathlib.Data.BitVec
import Mathlib.Data.Nat.Size

namespace LlvmProject

/-!
# Functions in SSA form

A function is a control flow graph of blocks: nodes that select a value by the
block control came from, instructions, and a terminator.  Registers and labels
are arbitrary types.  Integers have one width; comparisons give truth values.

A value may be undefined.  What is computed from it is undefined as well,
except that a disjunction with a true operand is true, and that a selection
ignores the operand it does not select.  So a value that is defined does not
depend on any that is not.  Execution has no result where it branches on an
undefined value, where it divides by zero or by an undefined value, and where
it shifts by the width or more or by an undefined amount.
-/

namespace IR

inductive BinaryOp
  | Add | Sub | Mul | UDiv | SDiv | URem | SRem | Shl | LShr | AShr | And | Or | Xor
  deriving DecidableEq, Repr

inductive Predicate
  | EQ | UGT
  deriving DecidableEq, Repr

inductive Value (W : Nat)
  | int (bits : BitVec W)
  | bool (truth : Bool)
  | undef
  deriving DecidableEq, Repr

inductive Operand (R : Type) (W : Nat)
  | register (name : R)
  | constant (bits : BitVec W)
  deriving DecidableEq, Repr

/-- Instructions.  The leading zeros of zero are undefined. -/
inductive Instruction (R : Type) (W : Nat)
  | binary (op : BinaryOp) (x y : Operand R W)
  | icmp (predicate : Predicate) (x y : Operand R W)
  | ctlz (x : Operand R W)
  | select (cond x y : Operand R W)
  deriving DecidableEq, Repr

inductive Terminator (L R : Type) (W : Nat)
  | br (target : L)
  | condBr (cond : Operand R W) (target otherwise : L)
  | ret (x : Operand R W)
  deriving DecidableEq, Repr

structure Block (L R : Type) (W : Nat) where
  phis : List (R × List (L × Operand R W))
  body : List (R × Instruction R W)
  terminator : Terminator L R W
  deriving Repr

structure Function (L R : Type) (W : Nat) where
  entry : L
  block : L -> Block L R W

/-! ## Values -/

section Values

variable {W : Nat}

/-- The meaning on defined integers. -/
def BinaryOp.ints (x y : BitVec W) : BinaryOp -> Option (BitVec W)
  | Add => some (x + y)
  | Sub => some (x - y)
  | Mul => some (x * y)
  | UDiv => if y = 0 then none else some (x / y)
  | SDiv => if y = 0 ∨ x = BitVec.intMin W ∧ y = -1 then none else some (x.sdiv y)
  | URem => if y = 0 then none else some (x % y)
  | SRem => if y = 0 ∨ x = BitVec.intMin W ∧ y = -1 then none else some (x.srem y)
  | Shl => if y.toNat < W then some (x <<< y.toNat) else none
  | LShr => if y.toNat < W then some (x >>> y.toNat) else none
  | AShr => if y.toNat < W then some (x.sshiftRight y.toNat) else none
  | And => some (x &&& y)
  | Or => some (x ||| y)
  | Xor => some (x ^^^ y)

/-- The second operand must be defined. -/
def BinaryOp.restricted : BinaryOp -> Bool
  | UDiv | SDiv | URem | SRem | Shl | LShr | AShr => true
  | Add | Sub | Mul | And | Or | Xor => false

def BinaryOp.apply (op : BinaryOp) : Value W -> Value W -> Option (Value W)
  | .int x, .int y => (op.ints x y).map .int
  | .bool x, .bool y => if op = Or then some (.bool (x || y)) else none
  | x, y =>
    if op = Or ∧ (x = .bool true ∨ y = .bool true) then some (.bool true)
    else if op.restricted then none else some .undef

def Predicate.apply (predicate : Predicate) : Value W -> Value W -> Value W
  | .int x, .int y =>
    match predicate with
    | EQ => .bool (x == y)
    | UGT => .bool (decide (y < x))
  | _, _ => Value.undef

/-- The number of leading zeros. -/
def Value.ctlz : Value W -> Value W
  | .int x => if x = 0 then .undef else .int (BitVec.ofNat W (W - x.toNat.size))
  | _ => .undef

def Value.select : Value W -> Value W -> Value W -> Value W
  | .bool cond, x, y => if cond then x else y
  | _, _, _ => .undef

@[simp] theorem BinaryOp.ints_sub (x y : BitVec W) : Sub.ints x y = some (x - y) := rfl

@[simp] theorem BinaryOp.ints_mul (x y : BitVec W) : Mul.ints x y = some (x * y) := rfl

@[simp] theorem BinaryOp.ints_xor (x y : BitVec W) : Xor.ints x y = some (x ^^^ y) := rfl

@[simp] theorem BinaryOp.apply_int (op : BinaryOp) (x y : BitVec W) :
    op.apply (.int x) (.int y) = (op.ints x y).map .int := rfl

@[simp] theorem BinaryOp.or_bool (x y : Bool) :
    Or.apply (.bool x : Value W) (.bool y) = some (.bool (x || y)) := rfl

@[simp] theorem BinaryOp.or_true_undef :
    Or.apply (.bool true : Value W) .undef = some (.bool true) := rfl

@[simp] theorem BinaryOp.sub_undef (x : Value W) : Sub.apply x .undef = some .undef := by
  cases x <;> rfl

@[simp] theorem Predicate.eq_int (x y : BitVec W) :
    EQ.apply (.int x) (.int y) = .bool (x == y) := rfl

@[simp] theorem Predicate.ugt_int (x y : BitVec W) :
    UGT.apply (.int x) (.int y) = .bool (decide (y < x)) := rfl

@[simp] theorem Predicate.undef_left (predicate : Predicate) (y : Value W) :
    predicate.apply .undef y = .undef := rfl

theorem Value.ctlz_int {x : BitVec W} (nonzero : x ≠ 0) :
    Value.ctlz (.int x) = .int (BitVec.ofNat W (W - x.toNat.size)) := if_neg nonzero

@[simp] theorem Value.ctlz_zero : Value.ctlz (.int 0#W) = .undef := by
  rw [Value.ctlz, BitVec.ofNat_eq_ofNat, if_pos rfl]

@[simp] theorem Value.select_bool (cond : Bool) (x y : Value W) :
    Value.select (.bool cond) x y = if cond then x else y := rfl

end Values

/-! ## Execution -/

section Execution

variable {L R : Type} {W : Nat}

/-- The values of the registers. -/
abbrev Env (R : Type) (W : Nat) : Type := R -> Value W

def Operand.value (env : Env R W) : Operand R W -> Value W
  | register name => env name
  | constant bits => .int bits

def Instruction.value (env : Env R W) : Instruction R W -> Option (Value W)
  | binary op x y => op.apply (x.value env) (y.value env)
  | icmp predicate x y => some (predicate.apply (x.value env) (y.value env))
  | ctlz x => some (x.value env).ctlz
  | select cond x y => some ((cond.value env).select (x.value env) (y.value env))

@[simp] theorem Operand.value_register (env : Env R W) (name : R) :
    (register name : Operand R W).value env = env name := rfl

@[simp] theorem Operand.value_constant (env : Env R W) (bits : BitVec W) :
    (constant bits : Operand R W).value env = .int bits := rfl

variable [DecidableEq R]

/-- The instructions of a block, in order. -/
def execute (env : Env R W) : List (R × Instruction R W) -> Option (Env R W)
  | [] => some env
  | (name, instruction) :: rest => do
    let value <- instruction.value env
    execute (Function.update env name value) rest

variable [DecidableEq L]

/-- The value a node selects. -/
def incoming (prev : L) (env : Env R W) (choices : List (L × Operand R W)) : Value W :=
  match choices.find? (·.1 = prev) with
  | some choice => choice.2.value env
  | none => Value.undef

/-- The nodes of a block read their operands before any of them is written. -/
def enter (prev : L) (env : Env R W) (phis : List (R × List (L × Operand R W))) : Env R W :=
  phis.foldl (fun written phi => Function.update written phi.1 (incoming prev env phi.2)) env

/-- What a block leads to. -/
inductive Outcome (L R : Type) (W : Nat)
  | jump (target : L) (env : Env R W)
  | result (value : Value W)

def Terminator.follow (env : Env R W) : Terminator L R W -> Option (Outcome L R W)
  | br target => some (.jump target env)
  | condBr cond target otherwise =>
    match cond.value env with
    | .bool truth => some (.jump (if truth then target else otherwise) env)
    | _ => none
  | ret x => some (.result (x.value env))

def Block.run (prev : L) (env : Env R W) (block : Block L R W) : Option (Outcome L R W) := do
  let env <- execute (enter prev env block.phis) block.body
  block.terminator.follow env

/-- The value a function returns from a block, if it takes no more blocks than
the bound. -/
def Function.runFrom (function : Function L R W) :
    Nat -> L -> L -> Env R W -> Option (Value W)
  | 0, _, _, _ => none
  | fuel + 1, prev, label, env =>
    match (function.block label).run prev env with
    | none => none
    | some (.result value) => some value
    | some (.jump target env) => function.runFrom fuel label target env

/-- Execution from a block returns a value, for every sufficient bound. -/
def Function.Returns (function : Function L R W) (prev label : L) (env : Env R W)
    (value : Value W) : Prop :=
  ∃ bound, ∀ fuel, bound <= fuel -> function.runFrom fuel prev label env = some value

theorem Function.Returns.jump {function : Function L R W} {prev label target : L} {env env' : Env R
    W} {value : Value W} (step : (function.block label).run prev env = some (.jump target env'))
    (rest : function.Returns label target env' value) :
    function.Returns prev label env value := by
  rcases rest with ⟨bound, returned⟩
  refine ⟨bound + 1, fun fuel enough => ?_⟩
  rcases Nat.exists_eq_add_of_le' enough with ⟨extra, rfl⟩
  rw [<- add_assoc, runFrom, step]
  exact returned (extra + bound) (Nat.le_add_left bound extra)

theorem Function.Returns.result {function : Function L R W} {prev label : L} {env : Env R W}
    {value : Value W} (step : (function.block label).run prev env = some (.result value)) :
    function.Returns prev label env value := by
  refine ⟨1, fun fuel enough => ?_⟩
  rcases Nat.exists_eq_add_of_le' enough with ⟨extra, rfl⟩
  rw [runFrom, step]

/-! ## Executing instruction by instruction -/

theorem execute_append (env : Env R W) (first second : List (R × Instruction R W)) :
    execute env (first ++ second) = (execute env first).bind fun env => execute env second := by
  induction first generalizing env with
  | nil => rfl
  | cons head rest ih =>
    rcases head with ⟨name, instruction⟩
    rw [List.cons_append, execute, execute]
    cases instruction.value env with
    | none => rfl
    | some value => exact ih _

end Execution

end IR
end LlvmProject
