import LlvmProject.IR.Function

namespace LlvmProject
namespace IntegerDivision

/-!
# Expansion of divisions

Targets without a division get it as code.  Remainders and signed divisions
are reduced to an unsigned division by straight-line code around it; the
unsigned division becomes a loop that shifts and subtracts.  Early exits cover
a zero dividend, a divisor with fewer leading zeros than the dividend, and a
divisor of one when the dividend has its top bit set.

The registers carry the names the code gives to its values, those of the loop
in a type of their own.  The operands are registers, so nothing is folded.
The widths the entry points accept are 32 and 64; the generators use the width
only through the constant `W - 1`.
-/

open IR

/-- The values of `generateUnsignedDivisionCode`. -/
inductive UnsignedDivision
  | Ret0_1 | Ret0_2 | Ret0_3 | Tmp0 | Tmp1 | SR | Ret0_4 | Ret0 | RetDividend | RetVal | EarlyRet
  | SR_1 | Tmp2 | Q | SkipLoop
  | Tmp3 | Tmp4
  | Carry_1 | SR_3 | R_1 | Q_2
  | Tmp5 | Tmp6 | Tmp7 | Tmp8 | Q_1 | Tmp9 | Tmp10 | Carry | Tmp11 | R | SR_2 | Tmp12
  | Carry_2 | Q_3 | Tmp13 | Q_4
  | Q_5
  deriving DecidableEq, Repr

/-- The values of `generateSignedRemainderCode`. -/
inductive SignedRemainder
  | DividendSign | DivisorSign | DvdXor | DvsXor | UDividend | UDivisor | URem | Xored | SRem
  deriving DecidableEq, Repr

/-- The values of `generatedUnsignedRemainderCode`. -/
inductive UnsignedRemainder
  | Quotient | Product | Remainder
  deriving DecidableEq, Repr

/-- The values of `generateSignedDivisionCode`. -/
inductive SignedDivision
  | Tmp | Tmp1 | Tmp2 | U_Dvnd | Tmp3 | U_Dvsr | Q_Sgn | Q_Mag | Tmp4 | Q
  deriving DecidableEq, Repr

/-- The operands of the expanded instruction, its own value, and the values of
the generators. -/
inductive Register
  | Dividend
  | Divisor
  | expanded
  | signedRemainder (name : SignedRemainder)
  | unsignedRemainder (name : UnsignedRemainder)
  | signedDivision (name : SignedDivision)
  | unsignedDivision (name : UnsignedDivision)
  deriving DecidableEq, Repr

/-- The blocks of `generateUnsignedDivisionCode`. -/
inductive Label
  | SpecialCases | BB1 | Preheader | DoWhile | LoopExit | End
  deriving DecidableEq, Repr

variable {W : Nat}

abbrev Code (W : Nat) : Type := List (Register × Instruction Register W)

instance : Coe SignedRemainder (Operand Register W) := ⟨fun name => .register (.signedRemainder name)⟩
instance : Coe UnsignedRemainder (Operand Register W) :=
  ⟨fun name => .register (.unsignedRemainder name)⟩
instance : Coe SignedDivision (Operand Register W) := ⟨fun name => .register (.signedDivision name)⟩
instance : Coe UnsignedDivision (Operand Register W) :=
  ⟨fun name => .register (.unsignedDivision name)⟩

/-! ## Straight-line code -/

/-- Generate code to compute the remainder of two signed integers: the code
and the remainder. -/
def generateSignedRemainderCode (Dividend Divisor : Operand Register W) :
    Code W × Operand Register W :=
  let Shift := Operand.constant (BitVec.ofNat W (W - 1))
  let name := Register.signedRemainder
  ([(name .DividendSign, .binary .AShr Dividend Shift),
    (name .DivisorSign, .binary .AShr Divisor Shift),
    (name .DvdXor, .binary .Xor Dividend SignedRemainder.DividendSign),
    (name .DvsXor, .binary .Xor Divisor SignedRemainder.DivisorSign),
    (name .UDividend, .binary .Sub SignedRemainder.DvdXor SignedRemainder.DividendSign),
    (name .UDivisor, .binary .Sub SignedRemainder.DvsXor SignedRemainder.DivisorSign),
    (name .URem, .binary .URem SignedRemainder.UDividend SignedRemainder.UDivisor),
    (name .Xored, .binary .Xor SignedRemainder.URem SignedRemainder.DividendSign),
    (name .SRem, .binary .Sub SignedRemainder.Xored SignedRemainder.DividendSign)],
    SignedRemainder.SRem)

/-- Generate code to compute the remainder of two unsigned integers: the code
and the remainder. -/
def generatedUnsignedRemainderCode (Dividend Divisor : Operand Register W) :
    Code W × Operand Register W :=
  let name := Register.unsignedRemainder
  ([(name .Quotient, .binary .UDiv Dividend Divisor),
    (name .Product, .binary .Mul Divisor UnsignedRemainder.Quotient),
    (name .Remainder, .binary .Sub Dividend UnsignedRemainder.Product)],
    UnsignedRemainder.Remainder)

/-- Generate code to divide two signed integers: the code and the quotient. -/
def generateSignedDivisionCode (Dividend Divisor : Operand Register W) :
    Code W × Operand Register W :=
  let Shift := Operand.constant (BitVec.ofNat W (W - 1))
  let name := Register.signedDivision
  ([(name .Tmp, .binary .AShr Dividend Shift),
    (name .Tmp1, .binary .AShr Divisor Shift),
    (name .Tmp2, .binary .Xor SignedDivision.Tmp Dividend),
    (name .U_Dvnd, .binary .Sub SignedDivision.Tmp2 SignedDivision.Tmp),
    (name .Tmp3, .binary .Xor SignedDivision.Tmp1 Divisor),
    (name .U_Dvsr, .binary .Sub SignedDivision.Tmp3 SignedDivision.Tmp1),
    (name .Q_Sgn, .binary .Xor SignedDivision.Tmp1 SignedDivision.Tmp),
    (name .Q_Mag, .binary .UDiv SignedDivision.U_Dvnd SignedDivision.U_Dvsr),
    (name .Tmp4, .binary .Xor SignedDivision.Q_Mag SignedDivision.Q_Sgn),
    (name .Q, .binary .Sub SignedDivision.Tmp4 SignedDivision.Q_Sgn)],
    SignedDivision.Q)

/-! ## The loop -/

section Loop

open UnsignedDivision

/-- The block that ends in the early exit, after the code before the division. -/
def specialCases (before : Code W) (Dividend Divisor : Operand Register W) :
    Block Label Register W :=
  let Zero := Operand.constant (0 : BitVec W)
  let MSB := Operand.constant (BitVec.ofNat W (W - 1))
  let name := Register.unsignedDivision
  { phis := []
    body := before ++
      [(name Ret0_1, .icmp .EQ Divisor Zero),
        (name Ret0_2, .icmp .EQ Dividend Zero),
        (name Ret0_3, .binary .Or Ret0_1 Ret0_2),
        (name Tmp0, .ctlz Divisor),
        (name Tmp1, .ctlz Dividend),
        (name SR, .binary .Sub Tmp0 Tmp1),
        (name Ret0_4, .icmp .UGT SR MSB),
        (name Ret0, .binary .Or Ret0_3 Ret0_4),
        (name RetDividend, .icmp .EQ SR MSB),
        (name RetVal, .select Ret0 Zero Dividend),
        (name EarlyRet, .binary .Or Ret0 RetDividend)]
    terminator := .condBr EarlyRet .End .BB1 }

def bb1 (Dividend : Operand Register W) : Block Label Register W :=
  let Zero := Operand.constant (0 : BitVec W)
  let One := Operand.constant (1 : BitVec W)
  let MSB := Operand.constant (BitVec.ofNat W (W - 1))
  let name := Register.unsignedDivision
  { phis := []
    body :=
      [(name SR_1, .binary .Add SR One),
        (name Tmp2, .binary .Sub MSB SR),
        (name Q, .binary .Shl Dividend Tmp2),
        (name SkipLoop, .icmp .EQ SR_1 Zero)]
    terminator := .condBr SkipLoop .LoopExit .Preheader }

def preheader (Dividend Divisor : Operand Register W) : Block Label Register W :=
  let NegOne := Operand.constant (-1 : BitVec W)
  let name := Register.unsignedDivision
  { phis := []
    body := [(name Tmp3, .binary .LShr Dividend SR_1), (name Tmp4, .binary .Add Divisor NegOne)]
    terminator := .br .DoWhile }

def doWhile (Divisor : Operand Register W) : Block Label Register W :=
  let Zero := Operand.constant (0 : BitVec W)
  let One := Operand.constant (1 : BitVec W)
  let NegOne := Operand.constant (-1 : BitVec W)
  let MSB := Operand.constant (BitVec.ofNat W (W - 1))
  let name := Register.unsignedDivision
  { phis :=
      [(name Carry_1, [(.Preheader, Zero), (.DoWhile, Carry)]),
        (name SR_3, [(.Preheader, SR_1), (.DoWhile, SR_2)]),
        (name R_1, [(.Preheader, Tmp3), (.DoWhile, R)]),
        (name Q_2, [(.Preheader, Q), (.DoWhile, Q_1)])]
    body :=
      [(name Tmp5, .binary .Shl R_1 One),
        (name Tmp6, .binary .LShr Q_2 MSB),
        (name Tmp7, .binary .Or Tmp5 Tmp6),
        (name Tmp8, .binary .Shl Q_2 One),
        (name Q_1, .binary .Or Carry_1 Tmp8),
        (name Tmp9, .binary .Sub Tmp4 Tmp7),
        (name Tmp10, .binary .AShr Tmp9 MSB),
        (name Carry, .binary .And Tmp10 One),
        (name Tmp11, .binary .And Tmp10 Divisor),
        (name R, .binary .Sub Tmp7 Tmp11),
        (name SR_2, .binary .Add SR_3 NegOne),
        (name Tmp12, .icmp .EQ SR_2 Zero)]
    terminator := .condBr Tmp12 .LoopExit .DoWhile }

def loopExit : Block Label Register W :=
  let Zero := Operand.constant (0 : BitVec W)
  let One := Operand.constant (1 : BitVec W)
  let name := Register.unsignedDivision
  { phis :=
      [(name Carry_2, [(.BB1, Zero), (.DoWhile, Carry)]), (name Q_3, [(.BB1, Q), (.DoWhile, Q_1)])]
    body := [(name Tmp13, .binary .Shl Q_3 One), (name Q_4, .binary .Or Carry_2 Tmp13)]
    terminator := .br .End }

/-- The block after the division, with the code after it. -/
def endBlock (after : Code W) (result : Operand Register W) : Block Label Register W :=
  { phis := [(.unsignedDivision Q_5, [(.LoopExit, Q_4), (.SpecialCases, RetVal)])]
    body := after
    terminator := .ret result }

/-- Generates code to divide two unsigned scalar integers, between the code
before the division and the code after it. -/
def generateUnsignedDivisionCode (Dividend Divisor : Operand Register W) (before after : Code W)
    (result : Operand Register W) : IR.Function Label Register W where
  entry := .SpecialCases
  block
    | .SpecialCases => specialCases before Dividend Divisor
    | .BB1 => bb1 Dividend
    | .Preheader => preheader Dividend Divisor
    | .DoWhile => doWhile Divisor
    | .LoopExit => loopExit
    | .End => endBlock after result

end Loop

/-! ## The entry points -/

/-- Replace the uses of a register. -/
def replaceOperand (old : Register) (new : Operand Register W) :
    Operand Register W -> Operand Register W
  | .register name => if name = old then new else .register name
  | .constant bits => .constant bits

def replaceUses (old : Register) (new : Operand Register W) :
    Instruction Register W -> Instruction Register W
  | .binary op x y => .binary op (replaceOperand old new x) (replaceOperand old new y)
  | .icmp predicate x y => .icmp predicate (replaceOperand old new x) (replaceOperand old new y)
  | .ctlz x => .ctlz (replaceOperand old new x)
  | .select cond x y =>
    .select (replaceOperand old new cond) (replaceOperand old new x)
      (replaceOperand old new y)

def replaceUsesAfter (old : Register) (new : Operand Register W) (code : Code W) : Code W :=
  code.map fun line => (line.1, replaceUses old new line.2)

/-- Code with a result, and the instruction in it to expand next. -/
structure Expansion (W : Nat) where
  code : Code W
  result : Operand Register W
  next : Register

/-- The code before the next instruction, its opcode and operands, and the
code after it. -/
def Expansion.split (expansion : Expansion W) :
    Option (Code W × BinaryOp × Operand Register W × Operand Register W × Code W) :=
  match expansion.code.span (fun line => line.1 ≠ expansion.next) with
  | (before, (_, .binary op x y) :: after) => some (before, op, x, y, after)
  | _ => none

/-- Replace the remainder to expand next by a division. -/
def expandUnsignedRemainder (expansion : Expansion W) : Except String (Expansion W) :=
  match expansion.split with
  | some (before, .URem, x, y, after) =>
    let new := generatedUnsignedRemainderCode x y
    .ok {
      code := before ++ new.1 ++ replaceUsesAfter expansion.next new.2 after
      result := replaceOperand expansion.next new.2 expansion.result
      next := .unsignedRemainder .Quotient }
  | _ => .error "Trying to expand rem from a non-rem function"

/-- Replace the division to expand next by the loop. -/
def expandUnsignedDivision (expansion : Expansion W) :
    Except String (IR.Function Label Register W) :=
  match expansion.split with
  | some (before, .UDiv, x, y, after) =>
    let new : Operand Register W := UnsignedDivision.Q_5
    .ok (generateUnsignedDivisionCode x y before (replaceUsesAfter expansion.next new after)
      (replaceOperand expansion.next new expansion.result))
  | _ => .error "Non-udiv in expansion?"

/-- The expansion of a remainder at any width. -/
def remainderCode (W : Nat) (opcode : BinaryOp) : Except String (IR.Function Label Register W) :=
  let Dividend := Operand.register Register.Dividend
  let Divisor := Operand.register Register.Divisor
  match opcode with
  | .SRem => do
    let (code, Remainder) := generateSignedRemainderCode Dividend Divisor
    expandUnsignedDivision
      (<- expandUnsignedRemainder ⟨code, Remainder, .signedRemainder .URem⟩)
  | .URem => do
    expandUnsignedDivision (<- expandUnsignedRemainder
      ⟨[(.expanded, .binary .URem Dividend Divisor)], .register .expanded, .expanded⟩)
  | _ => .error "Trying to expand rem from a non-rem function"

/-- The expansion of a division at any width. -/
def divisionCode (W : Nat) (opcode : BinaryOp) : Except String (IR.Function Label Register W) :=
  let Dividend := Operand.register Register.Dividend
  let Divisor := Operand.register Register.Divisor
  match opcode with
  | .SDiv =>
    let (code, Quotient) := generateSignedDivisionCode Dividend Divisor
    expandUnsignedDivision ⟨code, Quotient, .signedDivision .Q_Mag⟩
  | .UDiv =>
    expandUnsignedDivision
      ⟨[(.expanded, .binary .UDiv Dividend Divisor)], .register .expanded, .expanded⟩
  | _ => .error "Trying to expand division from a non-division function"

/-- Replace a remainder with generated code. -/
def expandRemainder (W : Nat) (opcode : BinaryOp) : Except String (IR.Function Label Register W) :=
  if W ≠ 32 ∧ W ≠ 64 then .error "Div of bitwidth other than 32 or 64 not supported"
  else remainderCode W opcode

/-- Replace a division with generated code. -/
def expandDivision (W : Nat) (opcode : BinaryOp) : Except String (IR.Function Label Register W) :=
  if W ≠ 32 ∧ W ≠ 64 then .error "Div of bitwidth other than 32 or 64 not supported"
  else divisionCode W opcode

/-- The function that reads its operands from an environment. -/
def operands (n d : BitVec W) : Env Register W
  | .Dividend => .int n
  | .Divisor => .int d
  | _ => .undef

end IntegerDivision
end LlvmProject
