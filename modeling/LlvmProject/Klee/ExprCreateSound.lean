import LlvmProject.Klee.ExprCreateSums

namespace LlvmProject

open BitVec

namespace Klee

/-!
# Soundness of the constructors

Divisions, shifts, orders, reads and selections, and with them every kind of
operation: the created expression has the operation's type, and the operation's
value wherever the operation has a meaning.
-/

variable {s : Assignment}

/-! ## Division and shifts -/

namespace Refines

variable {l r : Expr} {kind : BinaryKind}

/-- At width one the only divisor is one, and the only shift amount is zero. -/
theorem bool_left (bool : l.width = 1)
    (law : ∀ x y : BitVec 1, kind.Defined y -> kind.apply x y = x) :
    Refines s (.binary kind l r) l := by
  apply Refines.binary_left
  intro w left _ _ _ operand
  cases left.width_eq.symm.trans bool
  exact law _ _ operand

theorem bool_zero (bool : l.width = 1)
    (law : ∀ x y : BitVec 1, kind.Defined y -> kind.apply x y = 0) :
    Refines s (.binary kind l r) (.bool false) where
  typed := fun typed => bool.symm.trans typed.1.width_eq
  value := by
    rintro w ⟨left, -⟩ ⟨-, -, operand⟩
    cases left.width_eq.symm.trans bool
    rw [left.width_eq] at operand
    refine ⟨trivial, ?_⟩
    rw [Expr.eval_bool, Expr.eval, law _ _ operand]
    rfl

/-- At width one a shift masks the left operand with `r == 0`. -/
theorem bool_shift (bool : l.width = 1)
    (law : ∀ x y : BitVec 1, kind.Defined y -> kind.apply x y = x &&& ofBool (y == 0)) :
    Refines s (.binary kind l r) (.binary .And l (.cmp .Eq r (.constant ⟨r.width, 0⟩))) where
  typed := by
    rintro w ⟨left, right⟩
    cases left.width_eq.symm.trans bool
    exact ⟨left, rfl, right.self, rfl⟩
  value := by
    rintro w ⟨left, right⟩ ⟨defLeft, defRight, operand⟩
    cases left.width_eq.symm.trans bool
    rw [left.width_eq] at operand
    refine ⟨⟨defLeft, ⟨defRight, trivial⟩, trivial⟩, ?_⟩
    rw [Expr.eval, Expr.eval, Expr.eval_eq right, law _ _ operand]
    show _ &&& ofBool (_ == (0#r.width).setWidth 1) = _
    rw [setWidth_zero]
    rfl

end Refines

theorem UDivExpr.create_refines (l r : Expr) :
    Refines s (.binary .UDiv l r) (UDivExpr.create l r) := by
  apply BCREATE_refines
  unfold UDivExpr_create
  split
  · rename_i bool
    exact Refines.bool_left bool (by unfold BinaryKind.Defined; decide)
  · exact Refines.refl _

theorem SDivExpr.create_refines (l r : Expr) :
    Refines s (.binary .SDiv l r) (SDivExpr.create l r) := by
  apply BCREATE_refines
  unfold SDivExpr_create
  split
  · rename_i bool
    exact Refines.bool_left bool (by unfold BinaryKind.Defined; decide)
  · exact Refines.refl _

theorem URemExpr.create_refines (l r : Expr) :
    Refines s (.binary .URem l r) (URemExpr.create l r) := by
  apply BCREATE_refines
  unfold URemExpr_create
  split
  · rename_i bool
    exact Refines.bool_zero bool (by unfold BinaryKind.Defined; decide)
  · exact Refines.refl _

theorem SRemExpr.create_refines (l r : Expr) :
    Refines s (.binary .SRem l r) (SRemExpr.create l r) := by
  apply BCREATE_refines
  unfold SRemExpr_create
  split
  · rename_i bool
    exact Refines.bool_zero bool (by unfold BinaryKind.Defined; decide)
  · exact Refines.refl _

variable (constArrayOpt : Bool)

theorem ShlExpr.create_refines (l r : Expr) :
    Refines s (.binary .Shl l r) (ShlExpr.create constArrayOpt l r) := by
  apply BCREATE_refines
  unfold ShlExpr_create
  split
  · rename_i bool
    apply (Refines.bool_shift bool (by unfold BinaryKind.Defined; decide)).trans
    apply Refines.trans _ (AndExpr.create_refines _ _)
    exact (Refines.refl l).binary .And (r.createIsZero_refines constArrayOpt)
  · exact Refines.refl _

theorem LShrExpr.create_refines (l r : Expr) :
    Refines s (.binary .LShr l r) (LShrExpr.create constArrayOpt l r) := by
  apply BCREATE_refines
  unfold LShrExpr_create
  split
  · rename_i bool
    apply (Refines.bool_shift bool (by unfold BinaryKind.Defined; decide)).trans
    apply Refines.trans _ (AndExpr.create_refines _ _)
    exact (Refines.refl l).binary .And (r.createIsZero_refines constArrayOpt)
  · exact Refines.refl _

theorem AShrExpr.create_refines (l r : Expr) :
    Refines s (.binary .AShr l r) (AShrExpr.create l r) := by
  apply BCREATE_refines
  unfold AShrExpr_create
  split
  · rename_i bool
    exact Refines.bool_left bool (by unfold BinaryKind.Defined; decide)
  · exact Refines.refl _

/-! ## Orders -/

namespace Refines

variable {l r : Expr} {kind : CmpKind}

theorem eval_cmp {w : Nat} (typed : l.Typed w) :
    (Expr.cmp kind l r).eval s 1 = ofBool (kind.apply (l.eval s w) (r.eval s w)) := by
  cases typed.width_eq
  exact setWidth_eq _

/-- A comparison of bits is an operation on one bit and the negation of the other. -/
theorem cmp_bool_left (bool : l.width = 1) (op : BinaryKind) (total : ∀ {w} (y : BitVec w),
    op.Defined y) (law : ∀ x y : BitVec 1, ofBool (kind.apply x y) = op.apply (ofBool (x == 0)) y) :
    Refines s (.cmp kind l r) (.binary op (.cmp .Eq l (.constant ⟨l.width, 0⟩)) r) where
  typed := by
    rintro w ⟨rfl, left, right⟩
    exact ⟨⟨rfl, left, rfl⟩, bool ▸ right⟩
  value := by
    rintro w ⟨rfl, left, right⟩ ⟨defLeft, defRight⟩
    refine ⟨⟨⟨defLeft, trivial⟩, defRight, total _⟩, ?_⟩
    rw [bool] at left
    rw [Expr.eval, Expr.eval_eq left, eval_cmp left, law]
    show op.apply (ofBool (_ == (0#l.width).setWidth 1)) _ = _
    rw [setWidth_zero]
    rfl

theorem cmp_bool_right (bool : l.width = 1) (op : BinaryKind) (total : ∀ {w} (y : BitVec w),
    op.Defined y) (law : ∀ x y : BitVec 1, ofBool (kind.apply x y) = op.apply x (ofBool (y == 0))) :
    Refines s (.cmp kind l r) (.binary op l (.cmp .Eq r (.constant ⟨r.width, 0⟩))) where
  typed := by
    rintro w ⟨rfl, left, right⟩
    exact ⟨bool ▸ left, rfl, right.self, rfl⟩
  value := by
    rintro w ⟨rfl, left, right⟩ ⟨defLeft, defRight⟩
    refine ⟨⟨defLeft, ⟨defRight, trivial⟩, total _⟩, ?_⟩
    rw [bool] at left right
    rw [Expr.eval, Expr.eval_eq right, eval_cmp left, law]
    show op.apply _ (ofBool (_ == (0#r.width).setWidth 1)) = _
    rw [setWidth_zero]
    rfl

/-- A comparison and its mirror image. -/
theorem cmp_swap {kind : CmpKind} (mirror : CmpKind)
    (law : ∀ {w} (x y : BitVec w), kind.apply x y = mirror.apply y x) (l r : Expr) :
    Refines s (.cmp kind l r) (.cmp mirror r l) where
  typed := by
    rintro w ⟨rfl, left, right⟩
    exact ⟨rfl, right.self, right.width_eq.symm ▸ left⟩
  value := by
    rintro w ⟨rfl, left, right⟩ ⟨defLeft, defRight⟩
    refine ⟨⟨defRight, defLeft⟩, ?_⟩
    rw [Expr.eval, Expr.eval, right.width_eq, law]

/-- `l != r` is `0 == (l == r)`. -/
theorem ne_eq_false (l r : Expr) :
    Refines s (.cmp .Ne l r) (.cmp .Eq (.bool false) (.cmp .Eq l r)) where
  typed := by
    rintro w ⟨rfl, left, right⟩
    exact ⟨rfl, rfl, rfl, left, right⟩
  value := by
    rintro w ⟨rfl, left, right⟩ ⟨defLeft, defRight⟩
    refine ⟨⟨trivial, defLeft, defRight⟩, ?_⟩
    have zero : (Expr.bool false).Typed 1 := rfl
    rw [Expr.eval_eq zero, Expr.eval_bool, Expr.eval_eq left, Expr.eval, setWidth_eq]
    show _ = ofBool (_ != _)
    rw [bne]
    cases l.eval s l.width == r.eval s l.width with
    | true => rfl
    | false => rfl

end Refines

section

variable (l r : Expr)

theorem NeExpr.create_refines : Refines s (.cmp .Ne l r) (NeExpr.create constArrayOpt l r) := by
  apply (Refines.ne_eq_false l r).trans
  apply Refines.trans _ (EqExpr.create_refines constArrayOpt _ _)
  exact (Refines.refl _).cmp .Eq (EqExpr.create_refines constArrayOpt l r)

theorem UltExpr.create_refines : Refines s (.cmp .Ult l r) (UltExpr.create constArrayOpt l r) := by
  apply CMPCREATE_refines
  unfold UltExpr_create
  split
  · rename_i bool
    apply (Refines.cmp_bool_left bool .And (fun _ => trivial) (by decide)).trans
    apply Refines.trans _ (AndExpr.create_refines _ _)
    exact (l.createIsZero_refines constArrayOpt).binary .And (Refines.refl r)
  · exact Refines.refl _

theorem UleExpr.create_refines : Refines s (.cmp .Ule l r) (UleExpr.create constArrayOpt l r) := by
  apply CMPCREATE_refines
  unfold UleExpr_create
  split
  · rename_i bool
    apply (Refines.cmp_bool_left bool .Or (fun _ => trivial) (by decide)).trans
    apply Refines.trans _ (OrExpr.create_refines _ _)
    exact (l.createIsZero_refines constArrayOpt).binary .Or (Refines.refl r)
  · exact Refines.refl _

theorem SltExpr.create_refines : Refines s (.cmp .Slt l r) (SltExpr.create constArrayOpt l r) := by
  apply CMPCREATE_refines
  unfold SltExpr_create
  split
  · rename_i bool
    apply (Refines.cmp_bool_right bool .And (fun _ => trivial) (by decide)).trans
    apply Refines.trans _ (AndExpr.create_refines _ _)
    exact (Refines.refl l).binary .And (r.createIsZero_refines constArrayOpt)
  · exact Refines.refl _

theorem SleExpr.create_refines : Refines s (.cmp .Sle l r) (SleExpr.create constArrayOpt l r) := by
  apply CMPCREATE_refines
  unfold SleExpr_create
  split
  · rename_i bool
    apply (Refines.cmp_bool_right bool .Or (fun _ => trivial) (by decide)).trans
    apply Refines.trans _ (OrExpr.create_refines _ _)
    exact (Refines.refl l).binary .Or (r.createIsZero_refines constArrayOpt)
  · exact Refines.refl _

end

theorem CmpKind.create_refines (kind : CmpKind) (l r : Expr) :
    Refines s (.cmp kind l r) (kind.create constArrayOpt l r) := by
  cases kind with
  | Eq => exact EqExpr.create_refines constArrayOpt l r
  | Ne => exact NeExpr.create_refines constArrayOpt l r
  | Ult => exact UltExpr.create_refines constArrayOpt l r
  | Ule => exact UleExpr.create_refines constArrayOpt l r
  | Slt => exact SltExpr.create_refines constArrayOpt l r
  | Sle => exact SleExpr.create_refines constArrayOpt l r
  | Ugt =>
    exact (Refines.cmp_swap .Ult (fun _ _ => rfl) l r).trans
      (UltExpr.create_refines constArrayOpt r l)
  | Uge =>
    exact (Refines.cmp_swap .Ule (fun _ _ => rfl) l r).trans
      (UleExpr.create_refines constArrayOpt r l)
  | Sgt =>
    exact (Refines.cmp_swap .Slt (fun _ _ => rfl) l r).trans
      (SltExpr.create_refines constArrayOpt r l)
  | Sge =>
    exact (Refines.cmp_swap .Sle (fun _ _ => rfl) l r).trans
      (SleExpr.create_refines constArrayOpt r l)

theorem BinaryKind.create_refines (kind : BinaryKind) (l r : Expr) :
    Refines s (.binary kind l r) (kind.create constArrayOpt l r) := by
  cases kind with
  | Add => exact AddExpr.create_refines constArrayOpt l r
  | Sub => exact SubExpr.create_refines constArrayOpt l r
  | Mul => exact MulExpr.create_refines l r
  | UDiv => exact UDivExpr.create_refines l r
  | SDiv => exact SDivExpr.create_refines l r
  | URem => exact URemExpr.create_refines l r
  | SRem => exact SRemExpr.create_refines l r
  | And => exact AndExpr.create_refines l r
  | Or => exact OrExpr.create_refines l r
  | Xor => exact XorExpr.create_refines constArrayOpt l r
  | Shl => exact ShlExpr.create_refines constArrayOpt l r
  | LShr => exact LShrExpr.create_refines constArrayOpt l r
  | AShr => exact AShrExpr.create_refines l r

/-! ## Reads -/

/-- A comparison that folds to a constant tells whether the values are the same. -/
theorem EqExpr.create_constant {l r : Expr} {w : Nat} {CE : ConstantExpr} (left : l.Typed w)
    (right : r.Typed w) (defLeft : l.Defined s) (defRight : r.Defined s)
    (constant : (EqExpr.create constArrayOpt l r).asConstant = some CE) :
    CE.isTrue = true ↔ l.eval s w = r.eval s w := by
  have refines := EqExpr.create_refines (s := s) constArrayOpt l r
  have typed : (Expr.cmp .Eq l r).Typed 1 := ⟨rfl, left.self, left.width_eq.symm ▸ right⟩
  rw [Expr.eq_of_asConstant constant] at refines
  have width : CE.width = 1 := refines.typed typed
  have same := (refines.value typed ⟨defLeft, defRight⟩).2
  rw [Expr.eval_eq left] at same
  rcases CE with ⟨v, value⟩
  cases width
  have same : value = _ := (setWidth_eq value).symm.trans same
  rw [same]
  by_cases equal : l.eval s w = r.eval s w
  · simp [ConstantExpr.isTrue, equal]
  · simp [ConstantExpr.isTrue, equal, beq_eq_false_iff_ne.mpr equal]

/-- The updates that are skipped are at other indices than the read. -/
theorem ReadExpr.rollback_refines {index value : Expr} (typed : index.Typed 32)
    (defined : index.Defined s) : ∀ {updates : UpdateList}, updates.Typed -> updates.Defined s ->
      ReadExpr.rollback constArrayOpt index updates = some value ->
      value.Typed 8 ∧ value.Defined s ∧ value.eval s 8 = updates.read s (index.eval s 32)
  | .root _, _, _, found => by
    rw [ReadExpr.rollback] at found
    cases found
  | .extend unIndex unValue next, ⟨typedIndex, typedValue, typedNext⟩,
      ⟨defIndex, defValue, defNext⟩, found => by
    rw [ReadExpr.rollback] at found
    rw [UpdateList.read]
    cases compared : (EqExpr.create constArrayOpt index unIndex).asConstant with
    | none =>
      rw [compared] at found
      cases found
    | some CE =>
      have same := EqExpr.create_constant constArrayOpt typed typedIndex defined defIndex compared
      simp only [compared] at found
      by_cases isTrue : CE.isTrue = true
      · rw [if_pos isTrue] at found
        cases found
        exact ⟨typedValue, defValue, (if_pos (same.mp isTrue)).symm⟩
      · rw [if_neg isTrue] at found
        rw [if_neg (mt same.mpr isTrue)]
        exact rollback_refines typed defined typedNext defNext found

theorem ReadExpr.rollback_typed {index value : Expr} : ∀ {updates : UpdateList}, updates.Typed ->
    ReadExpr.rollback constArrayOpt index updates = some value -> value.Typed 8
  | .root _, _, found => nomatch found
  | .extend unIndex unValue next, ⟨_, typedValue, typedNext⟩, found => by
    rw [ReadExpr.rollback] at found
    split at found
    · split at found
      · cases found
        exact typedValue
      · exact rollback_typed typedNext found
    · exact nomatch found

theorem ReadExpr.create_refines (updates : UpdateList) (index : Expr) :
    Refines s (.read updates index) (ReadExpr.create constArrayOpt updates index) := by
  unfold ReadExpr.create
  split
  · rename_i value found
    constructor
    · rintro w ⟨rfl, typedUpdates, -⟩
      exact rollback_typed constArrayOpt typedUpdates found
    · rintro w ⟨rfl, typedUpdates, typedIndex⟩ ⟨defUpdates, defIndex, -⟩
      have read := rollback_refines constArrayOpt typedIndex defIndex typedUpdates defUpdates found
      exact ⟨read.2.1, read.2.2.trans (setWidth_eq _).symm⟩
  · exact Refines.refl _

/-! ## Selections -/

namespace Refines

variable (c t f : Expr)

theorem select_constant (k : ConstantExpr) :
    Refines s (.select (.constant k) t f) (if k.isTrue then t else f) where
  typed := by
    rintro w ⟨-, typedTrue, typedFalse⟩
    split
    · exact typedTrue
    · exact typedFalse
  value := by
    rintro w ⟨width, -, -⟩ ⟨-, defTrue, defFalse⟩
    rcases k with ⟨v, value⟩
    cases width
    rw [Expr.eval, Expr.eval, setWidth_eq]
    by_cases one : value = 1
    · subst one
      exact ⟨defTrue, rfl⟩
    · have zero : value = 0 := (show ∀ v : BitVec 1, v ≠ 1 -> v = 0 by decide) value one
      subst zero
      exact ⟨defFalse, rfl⟩

theorem select_same : Refines s (.select c t t) t where
  typed := fun typed => typed.2.1
  value := fun _ defined => ⟨defined.2.1, (ite_self _).symm⟩

/-- A selection between bits is an operation on the condition, or its negation,
and one of them. -/
theorem select_bool {kind : BinaryKind}
    {c t f a b : Expr} (typed : c.Typed 1 -> t.Typed 1 -> f.Typed 1 -> a.Typed 1 ∧ b.Typed 1)
    (bool : t.width = 1) (total : ∀ {w} (y : BitVec w), kind.Defined y) (defined : c.Defined s ->
    t.Defined s -> f.Defined s -> a.Defined s ∧ b.Defined s) (value : c.Typed 1 -> f.Typed 1 ->
    kind.apply (a.eval s 1) (b.eval s 1) = if c.eval s 1 = 1 then t.eval s 1 else f.eval s 1) :
    Refines s (.select c t f) (.binary kind a b) where
  typed := by
    rintro w ⟨typedCond, typedTrue, typedFalse⟩
    cases typedTrue.width_eq.symm.trans bool
    exact typed typedCond typedTrue typedFalse
  value := by
    rintro w ⟨typedCond, typedTrue, typedFalse⟩ ⟨defCond, defTrue, defFalse⟩
    cases typedTrue.width_eq.symm.trans bool
    rcases defined defCond defTrue defFalse with ⟨left, right⟩
    exact ⟨⟨left, right, total _⟩, value typedCond typedFalse⟩

end Refines

theorem ConstantExpr.eval_bit {k : ConstantExpr} (bool : k.width = 1) :
    (Expr.constant k).eval s 1 = ofBool k.isTrue := by
  rcases k with ⟨w, value⟩
  cases bool
  rw [Expr.eval, setWidth_eq]
  revert value
  decide

theorem Expr.eval_isZero {e : Expr} {w : Nat} (typed : e.Typed w) :
    (cmp .Eq e (.constant ⟨e.width, 0⟩)).eval s 1 = ofBool (e.eval s w == 0) := by
  rw [Expr.eval_eq typed]
  show ofBool (_ == (0#e.width).setWidth w) = _
  rw [setWidth_zero]
  rfl

theorem SelectExpr.create_refines (c t f : Expr) :
    Refines s (.select c t f) (SelectExpr.create constArrayOpt c t f) := by
  have isZero := c.createIsZero_refines (s := s) constArrayOpt
  unfold SelectExpr.create
  split
  · rename_i k constant
    rw [Expr.eq_of_asConstant constant]
    exact Refines.select_constant t f k
  · split
    · rename_i same
      rw [<- same]
      exact Refines.select_same c t
    · split
      · rename_i bool
        split
        · rename_i k constant
          rw [Expr.eq_of_asConstant constant] at bool ⊢
          have kValue : (Expr.constant k).eval s 1 = _ := ConstantExpr.eval_bit bool
          split
          · rename_i isTrue
            rw [isTrue] at kValue
            apply Refines.trans _ (OrExpr.create_refines _ _)
            refine Refines.select_bool (fun c _ f => ⟨c, f⟩) bool (fun _ => trivial)
              (fun c _ f => ⟨c, f⟩) fun _ _ => ?_
            rw [kValue]
            exact (show ∀ x z : BitVec 1, x ||| z = if x = 1 then 1 else z by decide) _ _
          · rename_i isFalse
            rw [Bool.eq_false_of_not_eq_true isFalse] at kValue
            apply Refines.trans _ (AndExpr.create_refines _ _)
            apply Refines.trans _ (isZero.binary .And (Refines.refl f))
            refine Refines.select_bool (fun c _ f => ⟨⟨rfl, c.self, rfl⟩, f⟩) bool
              (fun _ => trivial) (fun c _ f => ⟨⟨c, trivial⟩, f⟩) fun typed _ => ?_
            rw [kValue, Expr.eval_isZero typed]
            exact (show ∀ x z : BitVec 1, ofBool (x == 0) &&& z =
              if x = 1 then 0 else z by decide) _ _
        · rename_i k _ constant
          rw [Expr.eq_of_asConstant constant]
          split
          · rename_i isTrue
            apply Refines.trans _ (OrExpr.create_refines _ _)
            apply Refines.trans _ (isZero.binary .Or (Refines.refl t))
            refine Refines.select_bool (fun c t _ => ⟨⟨rfl, c.self, rfl⟩, t⟩) bool
              (fun _ => trivial) (fun c t _ => ⟨⟨c, trivial⟩, t⟩) fun typed width => ?_
            rw [ConstantExpr.eval_bit width, isTrue, Expr.eval_isZero typed]
            exact (show ∀ x y : BitVec 1, ofBool (x == 0) ||| y =
              if x = 1 then y else 1 by decide) _ _
          · rename_i isFalse
            apply Refines.trans _ (AndExpr.create_refines _ _)
            refine Refines.select_bool (fun c t _ => ⟨c, t⟩) bool (fun _ => trivial)
              (fun c t _ => ⟨c, t⟩) fun _ width => ?_
            rw [ConstantExpr.eval_bit width, Bool.eq_false_of_not_eq_true isFalse]
            exact (show ∀ x y : BitVec 1, x &&& y = if x = 1 then y else 0 by decide) _ _
        · exact Refines.refl _
      · exact Refines.refl _

/-! ## All kinds -/

/-- The operands of the operation are well typed, and so is the operation but
that a cast at the top may also narrow. -/
def Expr.OperationTyped : Expr -> Nat -> Prop
  | .zext src width, w | .sext src width, w => width = w ∧ 0 < width ∧ src.Typed src.width
  | e, w => e.Typed w

section Casts

variable {e : Expr} {w : Nat} (pos : 0 < w) (typed : e.Typed e.width)
include pos typed

/-- A cast that narrows is an extract of the low bits. -/
theorem Refines.narrow (s : Assignment) (narrow : w < e.width) :
    (ExtractExpr.create e 0 w).Typed w ∧ (e.Defined s -> (ExtractExpr.create e 0 w).eval s w =
      (e.eval s e.width).setWidth w) := by
  have refines := ExtractExpr.create_refines (s := s) e 0 w
  have extract : (Expr.extract e 0 w).Typed w := ⟨rfl, typed, pos, by omega⟩
  refine ⟨refines.typed extract, fun defined => ?_⟩
  rw [(refines.value extract defined).2, Expr.eval, setWidth_eq]
  apply eq_of_getLsbD_eq
  intro i below
  simp [below]

theorem ZExtExpr.create_sound (s : Assignment) : (ZExtExpr.create e w).Typed w ∧
    (e.Defined s -> (ZExtExpr.create e w).eval s w = (Expr.zext e w).eval s w) := by
  by_cases narrow : w < e.width
  · rw [ZExtExpr.create, if_neg narrow.ne, if_pos narrow, Expr.eval, setWidth_eq]
    exact Refines.narrow pos typed s narrow
  · have refines := ZExtExpr.create_refines (s := s) e w
    have cast : (Expr.zext e w).Typed w := ⟨rfl, typed, not_lt.mp narrow⟩
    exact ⟨refines.typed cast, fun defined => (refines.value cast defined).2⟩

theorem SExtExpr.create_sound (s : Assignment) : (SExtExpr.create e w).Typed w ∧
    (e.Defined s -> (SExtExpr.create e w).eval s w = (Expr.sext e w).eval s w) := by
  by_cases narrow : w < e.width
  · rw [SExtExpr.create, if_neg narrow.ne, if_pos narrow, Expr.eval, setWidth_eq,
      signExtend_eq_setWidth_of_le _ narrow.le]
    exact Refines.narrow pos typed s narrow
  · have refines := SExtExpr.create_refines (s := s) e w
    have cast : (Expr.sext e w).Typed w := ⟨rfl, typed, not_lt.mp narrow⟩
    exact ⟨refines.typed cast, fun defined => (refines.value cast defined).2⟩

end Casts

theorem Expr.create_refines : ∀ e : Expr, (∀ src width, e ≠ .zext src width) ->
    (∀ src width, e ≠ .sext src width) -> Refines s e (e.create constArrayOpt)
  | .constant _, _, _ => Refines.refl _
  | .notOptimized _, _, _ => Refines.refl _
  | .read updates index, _, _ => ReadExpr.create_refines constArrayOpt updates index
  | .select cond trueExpr falseExpr, _, _ =>
    SelectExpr.create_refines constArrayOpt cond trueExpr falseExpr
  | .concat left right, _, _ => ConcatExpr.create_refines left right
  | .extract expr offset width, _, _ => ExtractExpr.create_refines expr offset width
  | .zext src width, other, _ => absurd rfl (other src width)
  | .sext src width, _, other => absurd rfl (other src width)
  | .not expr, _, _ => NotExpr.create_refines expr
  | .binary kind left right, _, _ => kind.create_refines constArrayOpt left right
  | .cmp kind left right, _, _ => kind.create_refines constArrayOpt left right

end Klee
end LlvmProject
