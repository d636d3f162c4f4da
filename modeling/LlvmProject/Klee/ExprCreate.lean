import LlvmProject.Klee.Expr

namespace LlvmProject

open Prod
namespace Klee

/-!
# Simplifying constructors

Every kind of expression has a `create` that folds constants and rewrites some
shapes before it allocates a node; a constructor of `Expr` stands for `alloc`.
The functions of the source that end in `_create`, `_createPartial` and
`_createPartialR` keep their names: the first has operands that are not both
constant, the others have one constant operand.

The rules for sums call each other on the operands' operands, and so do those
for extracts and concatenations; the former end because the operands get
smaller.  Assertions on the operands' widths are left to typing, and the flag
is the option `const-array-opt`.
-/

/-! ## Constants -/

namespace ConstantExpr

def isZero (c : ConstantExpr) : Bool := c.value == 0

def isOne (c : ConstantExpr) : Bool := c.value.toNat == 1

def isAllOnes (c : ConstantExpr) : Bool := c.value == BitVec.allOnes c.width

def isTrue (c : ConstantExpr) : Bool := c.width == 1 && c.value != 0

def isFalse (c : ConstantExpr) : Bool := c.width == 1 && c.value == 0

def Concat (l r : ConstantExpr) : ConstantExpr := ⟨l.width + r.width, l.value ++ r.value⟩

def Extract (c : ConstantExpr) (offset w : Nat) : ConstantExpr :=
  ⟨w, (c.value.sshiftRight offset).setWidth w⟩

def ZExt (c : ConstantExpr) (w : Nat) : ConstantExpr := ⟨w, c.value.setWidth w⟩

def SExt (c : ConstantExpr) (w : Nat) : ConstantExpr := ⟨w, c.value.signExtend w⟩

protected def Not (c : ConstantExpr) : ConstantExpr := ⟨c.width, ~~~c.value⟩

/-- `Add` to `AShr`. -/
def binary (kind : BinaryKind) (l r : ConstantExpr) : ConstantExpr :=
  ⟨l.width, kind.apply l.value (r.value.setWidth l.width)⟩

/-- `Eq` to `Sge`. -/
def cmp (kind : CmpKind) (l r : ConstantExpr) : ConstantExpr :=
  ⟨1, BitVec.ofBool (kind.apply l.value (r.value.setWidth l.width))⟩

end ConstantExpr

/-- `dyn_cast<ConstantExpr>`. -/
def Expr.asConstant : Expr -> Option ConstantExpr
  | .constant c => some c
  | _ => none

/-- The constant of type `Bool`. -/
def Expr.bool (value : Bool) : Expr := .constant ⟨1, BitVec.ofBool value⟩

/-! ## Extracts and concatenations -/

/-- Two extracts of one expression that meet: the expression, and where they start. -/
def contiguousExtracts : Expr -> Expr -> Option (Expr × Nat)
  | .extract left leftOffset _, .extract right offset width =>
    if left = right ∧ offset + width = leftOffset then some (left, offset) else none
  | _, _ => none

theorem contiguousExtracts_eq {l r e : Expr} {offset : Nat}
    (contiguous : contiguousExtracts l r = some (e, offset)) :
    ∃ wl wr, l = .extract e (offset + wr) wl ∧ r = .extract e offset wr := by
  unfold contiguousExtracts at contiguous
  split at contiguous
  · rename_i left leftOffset wl right rightOffset wr
    by_cases meets : left = right ∧ rightOffset + wr = leftOffset
    · rw [if_pos meets] at contiguous
      cases contiguous
      exact ⟨wl, wr, by rw [meets.2], by rw [meets.1]⟩
    · rw [if_neg meets] at contiguous
      exact nomatch contiguous
  · exact nomatch contiguous

/-- Two operands that are not contiguous extracts. -/
def ConcatExpr.fold (l r : Expr) : Expr :=
  match l.asConstant, r.asConstant with
  | some lCE, some rCE => .constant (lCE.Concat rCE)
  | _, _ => .concat l r

theorem ConcatExpr.fold_ne_extract {l r e : Expr} {offset w : Nat} :
    ConcatExpr.fold l r ≠ .extract e offset w := by
  unfold ConcatExpr.fold
  split
  · exact nofun
  · exact nofun

/-- What `ExtractExpr::create` returns: an extract only of an expression that is
no larger than the operand. -/
structure ExtractOf (bound : Nat) where
  result : Expr
  inner_le : ∀ {inner offset w}, result = .extract inner offset w -> sizeOf inner <= bound

def ExtractOf.mono {bound larger : Nat} (e : ExtractOf bound) (le : bound <= larger) :
    ExtractOf larger :=
  ⟨e.result, fun same => (e.inner_le same).trans le⟩

/-- `ExtractExpr::create`, with `ConcatExpr::create` of the two parts of a
concatenation written out. -/
def ExtractExpr.createBounded (expr : Expr) (offset w : Nat) : ExtractOf (sizeOf expr) :=
  if w = expr.width then ⟨expr, by rintro inner offset w rfl; simp; omega⟩
  else match expr with
  | .constant c => ⟨.constant (c.Extract offset w), nofun⟩
  | .concat left right =>
    -- the extract skips the right side, or the left side
    if right.width <= offset then
      (createBounded left (offset - right.width) w).mono (by simp; omega)
    else if offset + w <= right.width then
      (createBounded right offset w).mono (by simp)
    else
      let high := createBounded left 0 (w + offset - right.width)
      let low := createBounded right offset (right.width - offset)
      match contiguous : contiguousExtracts high.result low.result with
      | some (e, start) =>
        (createBounded e start (high.result.width + low.result.width)).mono (by
          rcases contiguousExtracts_eq contiguous with ⟨_, _, same, -⟩
          have := high.inner_le same
          simp
          omega)
      | none =>
        ⟨ConcatExpr.fold high.result low.result, fun same => absurd same ConcatExpr.fold_ne_extract⟩
  | expr => ⟨.extract expr offset w, by rintro inner offset w same; cases same; exact le_rfl⟩
termination_by sizeOf expr
decreasing_by
  · rw [Expr.concat.sizeOf_spec]
    omega
  · rw [Expr.concat.sizeOf_spec]
    omega
  · rw [Expr.concat.sizeOf_spec]
    omega
  · rw [Expr.concat.sizeOf_spec]
    omega
  · rcases contiguousExtracts_eq contiguous with ⟨_, _, same, -⟩
    have := high.inner_le same
    rw [Expr.concat.sizeOf_spec]
    omega

def ExtractExpr.create (expr : Expr) (offset w : Nat) : Expr :=
  (ExtractExpr.createBounded expr offset w).result

def ConcatExpr.create (l r : Expr) : Expr :=
  match contiguousExtracts l r with
  | some (e, start) => ExtractExpr.create e start (l.width + r.width)
  | none => ConcatExpr.fold l r

/-! ## Casts -/

def ZExtExpr.create (e : Expr) (w : Nat) : Expr :=
  if w = e.width then e
  else if w < e.width then ExtractExpr.create e 0 w
  else match e.asConstant with
    | some CE => .constant (CE.ZExt w)
    | none => .zext e w

def SExtExpr.create (e : Expr) (w : Nat) : Expr :=
  if w = e.width then e
  else if w < e.width then ExtractExpr.create e 0 w
  else match e.asConstant with
    | some CE => .constant (CE.SExt w)
    | none => .sext e w

def NotExpr.create (e : Expr) : Expr :=
  match e.asConstant with
  | some CE => .constant CE.Not
  | none => .not e

/-! ## Dispatch on constant operands -/

/-- The body of the macro `BCREATE_R`. -/
def BCREATE_R (kind : BinaryKind) (create : Expr -> Expr -> Expr) (partialL : Expr ->
    ConstantExpr -> Expr) (partialR : ConstantExpr -> Expr -> Expr) (l r : Expr) : Expr :=
  match l.asConstant, r.asConstant with
  | some cl, some cr => .constant (cl.binary kind cr)
  | some cl, none => partialR cl r
  | none, some cr => partialL l cr
  | none, none => create l r

/-- The body of the macro `BCREATE`. -/
def BCREATE (kind : BinaryKind) (create : Expr -> Expr -> Expr) (l r : Expr) : Expr :=
  match l.asConstant, r.asConstant with
  | some cl, some cr => .constant (cl.binary kind cr)
  | _, _ => create l r

/-- The body of the macro `CMPCREATE`. -/
def CMPCREATE (kind : CmpKind) (create : Expr -> Expr -> Expr) (l r : Expr) : Expr :=
  match l.asConstant, r.asConstant with
  | some cl, some cr => .constant (cl.cmp kind cr)
  | _, _ => create l r

/-- The body of the macro `CMPCREATE_T`. -/
def CMPCREATE_T (kind : CmpKind) (create : Expr -> Expr -> Expr) (partialL : Expr ->
    ConstantExpr -> Expr) (partialR : ConstantExpr -> Expr -> Expr) (l r : Expr) : Expr :=
  match l.asConstant, r.asConstant with
  | some cl, some cr => .constant (cl.cmp kind cr)
  | some cl, none => partialR cl r
  | none, some cr => partialL l cr
  | none, none => create l r

/-! ## Conjunction, disjunction and products -/

def AndExpr_createPartial (l : Expr) (cr : ConstantExpr) : Expr :=
  if cr.isAllOnes then l else if cr.isZero then .constant cr else .binary .And l (.constant cr)

def AndExpr_createPartialR (cl : ConstantExpr) (r : Expr) : Expr := AndExpr_createPartial r cl

def AndExpr_create (l r : Expr) : Expr := .binary .And l r

def AndExpr.create : Expr -> Expr -> Expr :=
  BCREATE_R .And AndExpr_create AndExpr_createPartial AndExpr_createPartialR

def OrExpr_createPartial (l : Expr) (cr : ConstantExpr) : Expr :=
  if cr.isAllOnes then .constant cr else if cr.isZero then l else .binary .Or l (.constant cr)

def OrExpr_createPartialR (cl : ConstantExpr) (r : Expr) : Expr := OrExpr_createPartial r cl

def OrExpr_create (l r : Expr) : Expr := .binary .Or l r

def OrExpr.create : Expr -> Expr -> Expr :=
  BCREATE_R .Or OrExpr_create OrExpr_createPartial OrExpr_createPartialR

def MulExpr_createPartialR (cl : ConstantExpr) (r : Expr) : Expr :=
  if cl.width = 1 then AndExpr_createPartialR cl r
  else if cl.isOne then r
  else if cl.isZero then .constant cl
  else .binary .Mul (.constant cl) r

def MulExpr_createPartial (l : Expr) (cr : ConstantExpr) : Expr := MulExpr_createPartialR cr l

def MulExpr_create (l r : Expr) : Expr := if l.width = 1 then .binary .And l r else .binary .Mul l r

def MulExpr.create : Expr -> Expr -> Expr :=
  BCREATE_R .Mul MulExpr_create MulExpr_createPartial MulExpr_createPartialR

/-! ## Equality -/

def EqExpr_create (l r : Expr) : Expr := if l = r then .bool true else .cmp .Eq l r

/-- `EqExpr::create` with a constant on the right, where the result for another
left operand is given. -/
def EqExpr.foldOr (l : Expr) (cr : ConstantExpr) (other : Expr) : Expr :=
  match l.asConstant with
  | some cl => .constant (cl.cmp .Eq cr)
  | none => other

/-- The loop of `TryConstArrayOpt` over the values from index `i` on.  It gives
up at the hundred and first match. -/
def TryConstArrayOpt.loop (cl : ConstantExpr) (giveUp : Expr) (mayBe : Nat -> Expr) :
    List (BitVec 8) -> Nat -> Nat -> Expr -> Expr
  | [], _, _, res => res
  | value :: rest, i, numMatches, res =>
    if cl = ⟨8, value⟩ then
      if 100 < numMatches + 1 then giveUp
      else loop cl giveUp mayBe rest (i + 1) (numMatches + 1) (OrExpr.create res (mayBe i))
    else loop cl giveUp mayBe rest (i + 1) numMatches res

/-- A constant compared with a read; `mayBe` compares the index with a number. -/
def TryConstArrayOpt (cl : ConstantExpr) (updates : UpdateList) (index : Expr)
    (mayBe : Nat -> Expr) : Expr :=
  match updates with
  | .root array =>
    if array.isSymbolicArray then EqExpr_create (.constant cl) (.read updates index)
    else TryConstArrayOpt.loop cl (EqExpr_create (.constant cl) (.read updates index)) mayBe
      array.constantValues 0 0 (.bool false)
  | .extend _ _ _ => EqExpr_create (.constant cl) (.read updates index)

variable (constArrayOpt : Bool)

def EqExpr_createPartialR (cl : ConstantExpr) (r : Expr) : Expr :=
  if cl.width = 1 then
    if cl.isTrue then r
    else match r with
      | .cmp .Eq left right =>
        -- 0 == (0 == A) => A
        match left.asConstant with
        | some CE =>
          if CE.isFalse then right else EqExpr_create (.constant cl) (.cmp .Eq left right)
        | none => EqExpr_create (.constant cl) (.cmp .Eq left right)
      | .binary .Or left right =>
        -- not(or(a,b)) to and(not a, not b)
        AndExpr.create
          (EqExpr.foldOr left ⟨left.width, 0⟩ (EqExpr_createPartialR ⟨left.width, 0⟩ left))
          (EqExpr.foldOr right ⟨right.width, 0⟩ (EqExpr_createPartialR ⟨right.width, 0⟩ right))
      | r => EqExpr_create (.constant cl) r
  else match r with
    | .sext src _ =>
      if cl = (cl.ZExt src.width).SExt cl.width then
        EqExpr.foldOr src (cl.ZExt src.width) (EqExpr_createPartialR (cl.ZExt src.width) src)
      else .bool false
    | .zext src _ =>
      if cl = (cl.ZExt src.width).ZExt cl.width then
        EqExpr.foldOr src (cl.ZExt src.width) (EqExpr_createPartialR (cl.ZExt src.width) src)
      else .bool false
    | .binary .Add left right =>
      -- c0 = c1 + b => c0 - c1 = b
      match left.asConstant with
      | some c => EqExpr_createPartialR (cl.binary .Sub c) right
      | none => EqExpr_create (.constant cl) (.binary .Add left right)
    | .binary .Sub left right =>
      -- c0 = c1 - b => c1 - c0 = b
      match left.asConstant with
      | some c => EqExpr_createPartialR (c.binary .Sub cl) right
      | none => EqExpr_create (.constant cl) (.binary .Sub left right)
    | .read updates index =>
      if constArrayOpt then
        TryConstArrayOpt cl updates index fun i =>
          EqExpr.foldOr index ⟨index.width, BitVec.ofNat _ i⟩
            (EqExpr_createPartialR ⟨index.width, BitVec.ofNat _ i⟩ index)
      else EqExpr_create (.constant cl) (.read updates index)
    | r => EqExpr_create (.constant cl) r

def EqExpr_createPartial (l : Expr) (cr : ConstantExpr) : Expr :=
  EqExpr_createPartialR constArrayOpt cr l

def EqExpr.create : Expr -> Expr -> Expr :=
  CMPCREATE_T .Eq EqExpr_create (EqExpr_createPartial constArrayOpt)
    (EqExpr_createPartialR constArrayOpt)

def Expr.createIsZero (e : Expr) : Expr := EqExpr.create constArrayOpt e (.constant ⟨e.width, 0⟩)

def NeExpr.create (l r : Expr) : Expr :=
  EqExpr.create constArrayOpt (.bool false) (EqExpr.create constArrayOpt l r)

/-! ## Sums -/

def XorExpr_createPartialR (cl : ConstantExpr) (r : Expr) : Expr :=
  if cl.isZero then r
  else if cl.width = 1 then EqExpr_createPartial constArrayOpt r ⟨1, 0⟩
  else .binary .Xor (.constant cl) r

def XorExpr_createPartial (l : Expr) (cr : ConstantExpr) : Expr :=
  XorExpr_createPartialR constArrayOpt cr l

def XorExpr_create (l r : Expr) : Expr := .binary .Xor l r

def XorExpr.create : Expr -> Expr -> Expr :=
  BCREATE_R .Xor XorExpr_create (XorExpr_createPartial constArrayOpt)
    (XorExpr_createPartialR constArrayOpt)

/-- A sum or a difference whose first kid is a constant. -/
inductive ConstantSum where
  | add (c : ConstantExpr) (e : Expr)
  | sub (c : ConstantExpr) (e : Expr)

def Expr.constantSum : Expr -> Option ConstantSum
  | .binary .Add (.constant c) e => some (.add c e)
  | .binary .Sub (.constant c) e => some (.sub c e)
  | _ => none

variable {e a : Expr}

variable {c : ConstantExpr}

theorem Expr.eq_of_constantSum_add
    (sum : e.constantSum = some (.add c a)) : e = .binary .Add (.constant c) a := by
  unfold constantSum at sum
  split at sum
  · cases sum
    rfl
  · exact nomatch sum
  · exact nomatch sum

theorem Expr.eq_of_constantSum_sub
    (sum : e.constantSum = some (.sub c a)) : e = .binary .Sub (.constant c) a := by
  unfold constantSum at sum
  split at sum
  · exact nomatch sum
  · cases sum
    rfl
  · exact nomatch sum

theorem Expr.sizeOf_of_constantSum_add
    (sum : e.constantSum = some (.add c a)) : sizeOf a < sizeOf e := by
  rw [e.eq_of_constantSum_add sum, Expr.binary.sizeOf_spec]
  omega

theorem Expr.sizeOf_of_constantSum_sub
    (sum : e.constantSum = some (.sub c a)) : sizeOf a < sizeOf e := by
  rw [e.eq_of_constantSum_sub sum, Expr.binary.sizeOf_spec]
  omega

/-- An operation on a constant and an operand, where the result for an operand
that is not a constant is given. -/
def foldOr (kind : BinaryKind) (cl : ConstantExpr) (r other : Expr) : Expr :=
  match r.asConstant with
  | some cr => .constant (cl.binary kind cr)
  | none => other

mutual

def AddExpr_createPartialR (cl : ConstantExpr) (r : Expr) : Expr :=
  if cl.width = 1 then XorExpr_createPartialR constArrayOpt cl r
  else if cl.isZero then r
  else match _sum : r.constantSum with
    | some (.add c b) => -- A + (B+c) == (A+B) + c
        foldOr .Add (cl.binary .Add c) b (AddExpr_createPartialR (cl.binary .Add c) b)
    | some (.sub c b) => -- A + (B-c) == (A+B) - c
        foldOr .Sub (cl.binary .Add c) b (SubExpr_createPartialR (cl.binary .Add c) b)
    | none => .binary .Add (.constant cl) r
termination_by sizeOf r
decreasing_by
  · exact r.sizeOf_of_constantSum_add _sum
  · exact r.sizeOf_of_constantSum_sub _sum

def SubExpr_createPartialR (cl : ConstantExpr) (r : Expr) : Expr :=
  if cl.width = 1 then XorExpr_createPartialR constArrayOpt cl r
  else match _sum : r.constantSum with
    | some (.add c b) => -- A - (B+c) == (A-B) - c
        foldOr .Sub (cl.binary .Sub c) b (SubExpr_createPartialR (cl.binary .Sub c) b)
    | some (.sub c b) => -- A - (B-c) == (A-B) + c
        foldOr .Add (cl.binary .Sub c) b (AddExpr_createPartialR (cl.binary .Sub c) b)
    | none => .binary .Sub (.constant cl) r
termination_by sizeOf r
decreasing_by
  · exact r.sizeOf_of_constantSum_add _sum
  · exact r.sizeOf_of_constantSum_sub _sum

end

def AddExpr_createPartial (l : Expr) (cr : ConstantExpr) : Expr :=
  AddExpr_createPartialR constArrayOpt cr l

/-- `l - c` is `l + (-c)`. -/
def SubExpr_createPartial (l : Expr) (cr : ConstantExpr) : Expr :=
  AddExpr_createPartial constArrayOpt l ((ConstantExpr.mk cr.width 0).binary .Sub cr)

/-- `AddExpr::create` and `SubExpr::create` with a constant on the left. -/
def AddExpr.createConstant (cl : ConstantExpr) (r : Expr) : Expr :=
  foldOr .Add cl r (AddExpr_createPartialR constArrayOpt cl r)

def SubExpr.createConstant (cl : ConstantExpr) (r : Expr) : Expr :=
  foldOr .Sub cl r (SubExpr_createPartialR constArrayOpt cl r)

/-- `SubExpr::create` with a constant on the right. -/
def SubExpr.subtractConstant (l : Expr) (cr : ConstantExpr) : Expr :=
  match l.asConstant with
  | some cl => .constant (cl.binary .Sub cr)
  | none => SubExpr_createPartial constArrayOpt l cr

mutual

def AddExpr.create (l r : Expr) : Expr :=
  BCREATE_R .Add (fun _ _ => AddExpr_create l r) (AddExpr_createPartial constArrayOpt)
    (AddExpr_createPartialR constArrayOpt) l r
termination_by (sizeOf l + sizeOf r, 1)

def AddExpr_create (l r : Expr) : Expr :=
  if l.width = 1 then XorExpr_create l r
  else match _left : l.constantSum with
    | some (.add k a) => -- (k+a)+b = k+(a+b)
        AddExpr.createConstant constArrayOpt k (AddExpr.create a r)
    | some (.sub k a) => -- (k-a)+b = k+(b-a)
        AddExpr.createConstant constArrayOpt k (SubExpr.create r a)
    | none => match _right : r.constantSum with
      | some (.add k b) => -- a + (k+b) = k+(a+b)
          AddExpr.createConstant constArrayOpt k (AddExpr.create l b)
      | some (.sub k b) => -- a + (k-b) = k+(a-b)
          AddExpr.createConstant constArrayOpt k (SubExpr.create l b)
      | none => .binary .Add l r
termination_by (sizeOf l + sizeOf r, 0)
decreasing_by
  · have := l.sizeOf_of_constantSum_add _left
    exact Lex.left _ _ (by omega)
  · have := l.sizeOf_of_constantSum_sub _left
    exact Lex.left _ _ (by omega)
  · have := r.sizeOf_of_constantSum_add _right
    exact Lex.left _ _ (by omega)
  · have := r.sizeOf_of_constantSum_sub _right
    exact Lex.left _ _ (by omega)

def SubExpr.create (l r : Expr) : Expr :=
  BCREATE_R .Sub (fun _ _ => SubExpr_create l r) (SubExpr_createPartial constArrayOpt)
    (SubExpr_createPartialR constArrayOpt) l r
termination_by (sizeOf l + sizeOf r, 1)

def SubExpr_create (l r : Expr) : Expr :=
  if l.width = 1 then XorExpr_create l r
  else if l = r then .constant ⟨l.width, 0⟩
  else match _left : l.constantSum with
    | some (.add k a) => -- (k+a)-b = k+(a-b)
        AddExpr.createConstant constArrayOpt k (SubExpr.create a r)
    | some (.sub k a) => -- (k-a)-b = k-(a+b)
        SubExpr.createConstant constArrayOpt k (AddExpr.create a r)
    | none => match _right : r.constantSum with
      | some (.add k b) => -- a - (k+b) = (a-b) - k
          SubExpr.subtractConstant constArrayOpt (SubExpr.create l b) k
      | some (.sub k b) => -- a - (k-b) = (a+b) - k
          SubExpr.subtractConstant constArrayOpt (AddExpr.create l b) k
      | none => .binary .Sub l r
termination_by (sizeOf l + sizeOf r, 0)
decreasing_by
  · have := l.sizeOf_of_constantSum_add _left
    exact Lex.left _ _ (by omega)
  · have := l.sizeOf_of_constantSum_sub _left
    exact Lex.left _ _ (by omega)
  · have := r.sizeOf_of_constantSum_add _right
    exact Lex.left _ _ (by omega)
  · have := r.sizeOf_of_constantSum_sub _right
    exact Lex.left _ _ (by omega)

end

/-! ## Division and shifts -/

def UDivExpr_create (l r : Expr) : Expr := if l.width = 1 then l else .binary .UDiv l r

def SDivExpr_create (l r : Expr) : Expr := if l.width = 1 then l else .binary .SDiv l r

def URemExpr_create (l r : Expr) : Expr := if l.width = 1 then .bool false else .binary .URem l r

def SRemExpr_create (l r : Expr) : Expr := if l.width = 1 then .bool false else .binary .SRem l r

def ShlExpr_create (l r : Expr) : Expr :=
  if l.width = 1 then AndExpr.create l (r.createIsZero constArrayOpt) else .binary .Shl l r

def LShrExpr_create (l r : Expr) : Expr :=
  if l.width = 1 then AndExpr.create l (r.createIsZero constArrayOpt) else .binary .LShr l r

def AShrExpr_create (l r : Expr) : Expr := if l.width = 1 then l else .binary .AShr l r

def UDivExpr.create : Expr -> Expr -> Expr := BCREATE .UDiv UDivExpr_create

def SDivExpr.create : Expr -> Expr -> Expr := BCREATE .SDiv SDivExpr_create

def URemExpr.create : Expr -> Expr -> Expr := BCREATE .URem URemExpr_create

def SRemExpr.create : Expr -> Expr -> Expr := BCREATE .SRem SRemExpr_create

def ShlExpr.create : Expr -> Expr -> Expr := BCREATE .Shl (ShlExpr_create constArrayOpt)

def LShrExpr.create : Expr -> Expr -> Expr := BCREATE .LShr (LShrExpr_create constArrayOpt)

def AShrExpr.create : Expr -> Expr -> Expr := BCREATE .AShr AShrExpr_create

/-! ## Orders -/

def UltExpr_create (l r : Expr) : Expr :=
  if l.width = 1 then AndExpr.create (l.createIsZero constArrayOpt) r else .cmp .Ult l r

def UleExpr_create (l r : Expr) : Expr :=
  if l.width = 1 then OrExpr.create (l.createIsZero constArrayOpt) r else .cmp .Ule l r

def SltExpr_create (l r : Expr) : Expr :=
  if l.width = 1 then AndExpr.create l (r.createIsZero constArrayOpt) else .cmp .Slt l r

def SleExpr_create (l r : Expr) : Expr :=
  if l.width = 1 then OrExpr.create l (r.createIsZero constArrayOpt) else .cmp .Sle l r

def UltExpr.create : Expr -> Expr -> Expr := CMPCREATE .Ult (UltExpr_create constArrayOpt)

def UleExpr.create : Expr -> Expr -> Expr := CMPCREATE .Ule (UleExpr_create constArrayOpt)

def SltExpr.create : Expr -> Expr -> Expr := CMPCREATE .Slt (SltExpr_create constArrayOpt)

def SleExpr.create : Expr -> Expr -> Expr := CMPCREATE .Sle (SleExpr_create constArrayOpt)

def UgtExpr.create (l r : Expr) : Expr := UltExpr.create constArrayOpt r l

def UgeExpr.create (l r : Expr) : Expr := UleExpr.create constArrayOpt r l

def SgtExpr.create (l r : Expr) : Expr := SltExpr.create constArrayOpt r l

def SgeExpr.create (l r : Expr) : Expr := SleExpr.create constArrayOpt r l

/-! ## Reads and selections -/

/-- The update that a read surely finds, as far as the list can be told apart. -/
def ReadExpr.rollback (index : Expr) : UpdateList -> Option Expr
  | .root _ => none
  | .extend unIndex unValue next =>
    match (EqExpr.create constArrayOpt index unIndex).asConstant with
    | some CE => if CE.isTrue then some unValue else rollback index next
    | none => none

def ReadExpr.create (updates : UpdateList) (index : Expr) : Expr :=
  match ReadExpr.rollback constArrayOpt index updates with
  | some value => value
  | none => .read updates index

def SelectExpr.create (c t f : Expr) : Expr :=
  match c.asConstant with
  | some CE => if CE.isTrue then t else f
  | none =>
    if t = f then t
    else if t.width = 1 then -- c ? t : f  <=> (c and t) or (not c and f)
      match t.asConstant, f.asConstant with
      | some CE, _ =>
        if CE.isTrue then OrExpr.create c f
        else AndExpr.create (c.createIsZero constArrayOpt) f
      | none, some CE =>
        if CE.isTrue then OrExpr.create (c.createIsZero constArrayOpt) t
        else AndExpr.create c t
      | none, none => .select c t f
    else .select c t f

/-! ## All kinds -/

/-- The `create` of each kind of binary operation. -/
def BinaryKind.create : BinaryKind -> Expr -> Expr -> Expr
  | Add => AddExpr.create constArrayOpt
  | Sub => SubExpr.create constArrayOpt
  | Mul => MulExpr.create
  | UDiv => UDivExpr.create
  | SDiv => SDivExpr.create
  | URem => URemExpr.create
  | SRem => SRemExpr.create
  | And => AndExpr.create
  | Or => OrExpr.create
  | Xor => XorExpr.create constArrayOpt
  | Shl => ShlExpr.create constArrayOpt
  | LShr => LShrExpr.create constArrayOpt
  | AShr => AShrExpr.create

/-- The `create` of each kind of comparison. -/
def CmpKind.create : CmpKind -> Expr -> Expr -> Expr
  | Eq => EqExpr.create constArrayOpt
  | Ne => NeExpr.create constArrayOpt
  | Ult => UltExpr.create constArrayOpt
  | Ule => UleExpr.create constArrayOpt
  | Ugt => UgtExpr.create constArrayOpt
  | Uge => UgeExpr.create constArrayOpt
  | Slt => SltExpr.create constArrayOpt
  | Sle => SleExpr.create constArrayOpt
  | Sgt => SgtExpr.create constArrayOpt
  | Sge => SgeExpr.create constArrayOpt

/-- The `create` that belongs to the kind of a node, applied to the node's
operands: what `rebuild` does with unchanged kids. -/
def Expr.create : Expr -> Expr
  | .constant c => .constant c
  | .notOptimized src => .notOptimized src
  | .read updates index => ReadExpr.create constArrayOpt updates index
  | .select cond trueExpr falseExpr => SelectExpr.create constArrayOpt cond trueExpr falseExpr
  | .concat left right => ConcatExpr.create left right
  | .extract expr offset width => ExtractExpr.create expr offset width
  | .zext src width => ZExtExpr.create src width
  | .sext src width => SExtExpr.create src width
  | .not expr => NotExpr.create expr
  | .binary kind left right => kind.create constArrayOpt left right
  | .cmp kind left right => kind.create constArrayOpt left right

end Klee
end LlvmProject
