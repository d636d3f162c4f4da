import Mathlib.Data.BitVec

namespace LlvmProject
namespace Klee

/-!
# Expressions

An expression is a bit vector computed from constants and from the bytes of
arrays.  A read looks through a list of updates before it looks into the array
itself.  Arrays are told apart by their addresses, and widths are natural
numbers.

The value of an expression is asked for at a width, which for a well-typed
expression is the width of its type.  It is meant where no divisor is zero,
shifts stay below the width and reads are in bounds.
-/

/-! ## Syntax -/

/-- The constant values of a symbolic array are empty. -/
structure Array where
  address : Nat
  size : Nat
  constantValues : List (BitVec 8)
  sized : constantValues = [] ∨ constantValues.length = size
  small : size < 2 ^ 32

instance : DecidableEq Array := fun a b =>
  decidable_of_iff
    (a.address = b.address ∧ a.size = b.size ∧ a.constantValues = b.constantValues) (by
      cases a
      cases b
      simp)

def Array.isSymbolicArray (array : Array) : Bool := array.constantValues.isEmpty

structure ConstantExpr where
  width : Nat
  value : BitVec width
  deriving DecidableEq

inductive BinaryKind where
  | Add | Sub | Mul | UDiv | SDiv | URem | SRem | And | Or | Xor | Shl | LShr | AShr
  deriving DecidableEq

inductive CmpKind where
  | Eq | Ne | Ult | Ule | Ugt | Uge | Slt | Sle | Sgt | Sge
  deriving DecidableEq

mutual

inductive Expr where
  | constant (c : ConstantExpr)
  | notOptimized (src : Expr)
  | read (updates : UpdateList) (index : Expr)
  | select (cond trueExpr falseExpr : Expr)
  | concat (left right : Expr)
  | extract (expr : Expr) (offset width : Nat)
  | zext (src : Expr) (width : Nat)
  | sext (src : Expr) (width : Nat)
  | not (expr : Expr)
  | binary (kind : BinaryKind) (left right : Expr)
  | cmp (kind : CmpKind) (left right : Expr)
  deriving DecidableEq

/-- The most recent update comes first. -/
inductive UpdateList where
  | root (array : Array)
  | extend (index value : Expr) (next : UpdateList)
  deriving DecidableEq

end

namespace Expr

def width : Expr -> Nat
  | constant c => c.width
  | notOptimized src => src.width
  | read _ _ => 8
  | select _ trueExpr _ => trueExpr.width
  | concat left right => left.width + right.width
  | extract _ _ width => width
  | zext _ width => width
  | sext _ width => width
  | not expr => expr.width
  | binary _ left _ => left.width
  | cmp _ _ _ => 1

/-- `isa<ConstantExpr>`. -/
def isConstant : Expr -> Bool
  | constant _ => true
  | _ => false

end Expr

def UpdateList.array : UpdateList -> Array
  | root array => array
  | extend _ _ next => next.array

/-! ## Operations on bit vectors -/

namespace BinaryKind

variable {w : Nat}

def apply : BinaryKind -> BitVec w -> BitVec w -> BitVec w
  | Add, x, y => x + y
  | Sub, x, y => x - y
  | Mul, x, y => x * y
  | UDiv, x, y => x / y
  | SDiv, x, y => x.sdiv y
  | URem, x, y => x % y
  | SRem, x, y => x.srem y
  | And, x, y => x &&& y
  | Or, x, y => x ||| y
  | Xor, x, y => x ^^^ y
  | Shl, x, y => x <<< y
  | LShr, x, y => x >>> y
  | AShr, x, y => x.sshiftRight' y

/-- Which right operands have a meaning. -/
def Defined : BinaryKind -> BitVec w -> Prop
  | UDiv, y | SDiv, y | URem, y | SRem, y => y ≠ 0
  | Shl, y | LShr, y | AShr, y => y.toNat < w
  | _, _ => True

end BinaryKind

def CmpKind.apply {w : Nat} : CmpKind -> BitVec w -> BitVec w -> Bool
  | Eq, x, y => x == y
  | Ne, x, y => x != y
  | Ult, x, y => x.ult y
  | Ule, x, y => x.ule y
  | Ugt, x, y => y.ult x
  | Uge, x, y => y.ule x
  | Slt, x, y => x.slt y
  | Sle, x, y => x.sle y
  | Sgt, x, y => y.slt x
  | Sge, x, y => y.sle x

/-! ## Types -/

mutual

/-- The expression is well typed and has the width. -/
def Expr.Typed : Expr -> Nat -> Prop
  | .constant c, w => c.width = w
  | .notOptimized src, w => src.Typed w
  | .read updates index, w => w = 8 ∧ updates.Typed ∧ index.Typed 32
  | .select cond trueExpr falseExpr, w => cond.Typed 1 ∧ trueExpr.Typed w ∧ falseExpr.Typed w
  | .concat left right, w =>
    left.Typed left.width ∧ right.Typed right.width ∧ left.width + right.width = w
  | .extract expr offset width, w =>
    width = w ∧ expr.Typed expr.width ∧ 0 < width ∧ offset + width <= expr.width
  | .zext src width, w => width = w ∧ src.Typed src.width ∧ src.width <= width
  | .sext src width, w => width = w ∧ src.Typed src.width ∧ src.width <= width
  | .not expr, w => expr.Typed w
  | .binary _ left right, w => left.Typed w ∧ right.Typed w
  | .cmp _ left right, w => w = 1 ∧ left.Typed left.width ∧ right.Typed left.width

def UpdateList.Typed : UpdateList -> Prop
  | .root _ => True
  | .extend index value next => index.Typed 32 ∧ value.Typed 8 ∧ next.Typed

end

/-! ## Values -/

/-- The bytes of the symbolic arrays. -/
abbrev Assignment := Array -> Nat -> BitVec 8

def Array.byte (array : Array) (s : Assignment) (i : Nat) : BitVec 8 :=
  if array.isSymbolicArray then s array i else array.constantValues.getD i 0

mutual

def Expr.eval (s : Assignment) : Expr -> (w : Nat) -> BitVec w
  | .constant c, w => c.value.setWidth w
  | .notOptimized src, w => src.eval s w
  | .read updates index, w => (updates.read s (index.eval s 32)).setWidth w
  | .select cond trueExpr falseExpr, w =>
    if cond.eval s 1 = 1 then trueExpr.eval s w else falseExpr.eval s w
  | .concat left right, w =>
    (left.eval s left.width ++ right.eval s right.width).setWidth w
  | .extract expr offset width, w =>
    ((expr.eval s expr.width).extractLsb' offset width).setWidth w
  | .zext src width, w => ((src.eval s src.width).setWidth width).setWidth w
  | .sext src width, w => ((src.eval s src.width).signExtend width).setWidth w
  | .not expr, w => ~~~(expr.eval s w)
  | .binary kind left right, w => kind.apply (left.eval s w) (right.eval s w)
  | .cmp kind left right, w =>
    (BitVec.ofBool (kind.apply (left.eval s left.width) (right.eval s left.width))).setWidth w

/-- The byte at an index, through the updates. -/
def UpdateList.read (s : Assignment) : UpdateList -> BitVec 32 -> BitVec 8
  | .root array, i => array.byte s i.toNat
  | .extend index value next, i => if i = index.eval s 32 then value.eval s 8 else next.read s i

end

mutual

/-- Nothing in the expression divides by zero, shifts by the width or more, or
reads out of bounds. -/
def Expr.Defined (s : Assignment) : Expr -> Prop
  | .constant _ => True
  | .notOptimized src => src.Defined s
  | .read updates index =>
    updates.Defined s ∧ index.Defined s ∧ (index.eval s 32).toNat < updates.array.size
  | .select cond trueExpr falseExpr => cond.Defined s ∧ trueExpr.Defined s ∧ falseExpr.Defined s
  | .concat left right => left.Defined s ∧ right.Defined s
  | .extract expr _ _ => expr.Defined s
  | .zext src _ => src.Defined s
  | .sext src _ => src.Defined s
  | .not expr => expr.Defined s
  | .binary kind left right =>
    left.Defined s ∧ right.Defined s ∧ kind.Defined (right.eval s left.width)
  | .cmp _ left right => left.Defined s ∧ right.Defined s

def UpdateList.Defined (s : Assignment) : UpdateList -> Prop
  | .root _ => True
  | .extend index value next => index.Defined s ∧ value.Defined s ∧ next.Defined s

end

theorem Expr.width_eq : ∀ (e : Expr) {w : Nat}, e.Typed w -> e.width = w
  | .constant _, _, typed => typed
  | .notOptimized src, _, typed => width_eq src typed
  | .read _ _, _, typed => typed.1.symm
  | .select _ trueExpr _, _, typed => width_eq trueExpr typed.2.1
  | .concat _ _, _, typed => typed.2.2
  | .extract _ _ _, _, typed => typed.1
  | .zext _ _, _, typed => typed.1
  | .sext _ _, _, typed => typed.1
  | .not expr, _, typed => width_eq expr typed
  | .binary _ left _, _, typed => width_eq left typed.1
  | .cmp _ _ _, _, typed => typed.1.symm

theorem Expr.Typed.width_eq {e : Expr} {w : Nat} (typed : e.Typed w) : e.width = w :=
  Expr.width_eq e typed

theorem Expr.Typed.self {e : Expr} {w : Nat} (typed : e.Typed w) : e.Typed e.width :=
  typed.width_eq.symm ▸ typed

end Klee
end LlvmProject
