import LlvmProject.Klee.ExprCreateExtract

namespace LlvmProject

open BitVec

namespace Klee

/-!
# Conjunction, disjunction and products

Constants fold, and a neutral or absorbing constant operand leaves one of the
operands.
-/

variable {s : Assignment} {kind : BinaryKind}

namespace Refines

theorem fold_binary (kind : BinaryKind) (cl cr : ConstantExpr) :
    Refines s (.binary kind (.constant cl) (.constant cr)) (.constant (cl.binary kind cr)) where
  typed := fun typed => typed.1
  value := by
    rintro w ⟨left, right⟩ -
    cases (show cl.width = w from left)
    refine ⟨trivial, ?_⟩
    show (kind.apply cl.value (cr.value.setWidth cl.width)).setWidth cl.width =
      kind.apply (cl.value.setWidth cl.width) (cr.value.setWidth cl.width)
    rw [setWidth_eq, setWidth_eq]

theorem fold_cmp (kind : CmpKind) (cl cr : ConstantExpr) :
    Refines s (.cmp kind (.constant cl) (.constant cr)) (.constant (cl.cmp kind cr)) where
  typed := fun typed => typed.1.symm
  value := by
    rintro w ⟨rfl, left, right⟩ -
    refine ⟨trivial, ?_⟩
    show (ofBool _).setWidth 1 = (ofBool (kind.apply (cl.value.setWidth cl.width)
      (cr.value.setWidth cl.width))).setWidth 1
    rw [setWidth_eq cl.value]

/-- Operands of a symmetric operation change places. -/
theorem binary_comm (kind : BinaryKind) (comm : ∀ {w} (x y : BitVec w), kind.apply x y = kind.apply
    y x) (total : ∀ {w} (y : BitVec w), kind.Defined y) (l r : Expr) :
    Refines s (.binary kind l r) (.binary kind r l) where
  typed := fun typed => ⟨typed.2, typed.1⟩
  value := fun _ defined => ⟨⟨defined.2.1, defined.1, total _⟩, comm _ _⟩

variable {l r : Expr}

/-- A law that leaves the left operand. -/
theorem binary_left (value : ∀ {w}, l.Typed w -> r.Typed w -> l.Defined s -> r.Defined s ->
    kind.Defined (r.eval s w) -> kind.apply (l.eval s w) (r.eval s w) = l.eval s w) :
    Refines s (.binary kind l r) l where
  typed := And.left
  value := by
    rintro w ⟨left, right⟩ ⟨defLeft, defRight, operand⟩
    rw [left.width_eq] at operand
    exact ⟨defLeft, (value left right defLeft defRight operand).symm⟩

/-- A law that leaves the right operand. -/
theorem binary_right
    (value : ∀ {w}, l.Typed w -> r.Typed w -> kind.apply (l.eval s w) (r.eval s w) = r.eval s w) :
    Refines s (.binary kind l r) r where
  typed := And.right
  value := by
    rintro w ⟨left, right⟩ ⟨defLeft, defRight, -⟩
    exact ⟨defRight, (value left right).symm⟩

/-- A law for two operations on the same operands. -/
theorem binary_kind {kind' : BinaryKind} (total : ∀ {w} (y : BitVec w), kind'.Defined y)
    (value : ∀ {w}, l.Typed w -> kind.apply (l.eval s w) (r.eval s w) =
    kind'.apply (l.eval s w) (r.eval s w)) : Refines s (.binary kind l r) (.binary kind' l r) where
  typed := id
  value := fun typed defined =>
    ⟨⟨defined.1, defined.2.1, total _⟩, (value typed.1).symm⟩

end Refines

/-! ## Constant operands -/

variable {c : ConstantExpr}

theorem ConstantExpr.eval_eq_zero (zero : c.isZero = true) (w : Nat) :
    (Expr.constant c).eval s w = 0 := by
  show c.value.setWidth w = 0
  rw [beq_iff_eq.mp zero]
  exact setWidth_zero _ _

theorem ConstantExpr.eval_eq_allOnes (ones : c.isAllOnes = true) {w : Nat}
    (typed : (Expr.constant c).Typed w) : (Expr.constant c).eval s w = allOnes w := by
  cases (show c.width = w from typed)
  show c.value.setWidth c.width = _
  rw [setWidth_eq]
  exact beq_iff_eq.mp ones

theorem ConstantExpr.eval_eq_one (one : c.isOne = true) {w : Nat}
    (typed : (Expr.constant c).Typed w) : (Expr.constant c).eval s w = 1 := by
  cases (show c.width = w from typed)
  show c.value.setWidth c.width = _
  have value : c.value.toNat = 1 := beq_iff_eq.mp one
  rw [setWidth_eq]
  apply eq_of_toNat_eq
  have bound := c.value.isLt
  rw [value] at bound ⊢
  exact (Nat.mod_eq_of_lt bound).symm

/-! ## Dispatch -/

section Dispatch

variable {create : Expr -> Expr -> Expr} {partialL : Expr -> ConstantExpr -> Expr}
variable {partialR : ConstantExpr -> Expr -> Expr} {l r : Expr}

theorem BCREATE_R_refines (neither : Refines s (.binary kind l r) (create l r))
    (right : ∀ cr, Refines s (.binary kind l (.constant cr)) (partialL l cr))
    (left : ∀ cl, Refines s (.binary kind (.constant cl) r) (partialR cl r)) :
    Refines s (.binary kind l r) (BCREATE_R kind create partialL partialR l r) := by
  unfold BCREATE_R
  split
  · rename_i cl cr leftConstant rightConstant
    rw [Expr.eq_of_asConstant leftConstant, Expr.eq_of_asConstant rightConstant]
    exact Refines.fold_binary kind cl cr
  · rename_i cl leftConstant _
    rw [Expr.eq_of_asConstant leftConstant]
    exact left cl
  · rename_i cr _ rightConstant
    rw [Expr.eq_of_asConstant rightConstant]
    exact right cr
  · exact neither

theorem BCREATE_refines (other : Refines s (.binary kind l r) (create l r)) :
    Refines s (.binary kind l r) (BCREATE kind create l r) := by
  unfold BCREATE
  split
  · rename_i cl cr leftConstant rightConstant
    rw [Expr.eq_of_asConstant leftConstant, Expr.eq_of_asConstant rightConstant]
    exact Refines.fold_binary kind cl cr
  · exact other

theorem CMPCREATE_refines {kind : CmpKind} (other : Refines s (.cmp kind l r) (create l r)) :
    Refines s (.cmp kind l r) (CMPCREATE kind create l r) := by
  unfold CMPCREATE
  split
  · rename_i cl cr leftConstant rightConstant
    rw [Expr.eq_of_asConstant leftConstant, Expr.eq_of_asConstant rightConstant]
    exact Refines.fold_cmp kind cl cr
  · exact other

theorem CMPCREATE_T_refines {kind : CmpKind} (neither : Refines s (.cmp kind l r) (create l r))
    (right : ∀ cr, Refines s (.cmp kind l (.constant cr)) (partialL l cr))
    (left : ∀ cl, Refines s (.cmp kind (.constant cl) r) (partialR cl r)) :
    Refines s (.cmp kind l r) (CMPCREATE_T kind create partialL partialR l r) := by
  unfold CMPCREATE_T
  split
  · rename_i cl cr leftConstant rightConstant
    rw [Expr.eq_of_asConstant leftConstant, Expr.eq_of_asConstant rightConstant]
    exact Refines.fold_cmp kind cl cr
  · rename_i cl leftConstant _
    rw [Expr.eq_of_asConstant leftConstant]
    exact left cl
  · rename_i cr _ rightConstant
    rw [Expr.eq_of_asConstant rightConstant]
    exact right cr
  · exact neither

end Dispatch

/-! ## Constructors -/

theorem Refines.and_comm (l r : Expr) : Refines s (.binary .And l r) (.binary .And r l) :=
  Refines.binary_comm .And BitVec.and_comm (fun _ => trivial) l r

theorem Refines.or_comm (l r : Expr) : Refines s (.binary .Or l r) (.binary .Or r l) :=
  Refines.binary_comm .Or BitVec.or_comm (fun _ => trivial) l r

theorem AndExpr_createPartial_refines (l : Expr) (cr : ConstantExpr) :
    Refines s (.binary .And l (.constant cr)) (AndExpr_createPartial l cr) := by
  unfold AndExpr_createPartial
  split
  · rename_i ones
    apply Refines.binary_left
    intro w _ typed _ _ _
    rw [ConstantExpr.eval_eq_allOnes ones typed]
    exact and_allOnes
  · split
    · rename_i zero
      apply Refines.binary_right
      intro w _ _
      rw [ConstantExpr.eval_eq_zero zero]
      exact and_zero
    · exact Refines.refl _

theorem AndExpr_createPartialR_refines (cl : ConstantExpr) (r : Expr) :
    Refines s (.binary .And (.constant cl) r) (AndExpr_createPartialR cl r) :=
  (Refines.and_comm _ _).trans (AndExpr_createPartial_refines r cl)

theorem AndExpr.create_refines (l r : Expr) : Refines s (.binary .And l r) (AndExpr.create l r) :=
  BCREATE_R_refines (Refines.refl _) (AndExpr_createPartial_refines l)
    (AndExpr_createPartialR_refines · r)

theorem OrExpr_createPartial_refines (l : Expr) (cr : ConstantExpr) :
    Refines s (.binary .Or l (.constant cr)) (OrExpr_createPartial l cr) := by
  unfold OrExpr_createPartial
  split
  · rename_i ones
    apply Refines.binary_right
    intro w _ typed
    rw [ConstantExpr.eval_eq_allOnes ones typed]
    exact or_allOnes
  · split
    · rename_i zero
      apply Refines.binary_left
      intro w _ _ _ _ _
      rw [ConstantExpr.eval_eq_zero zero]
      exact or_zero
    · exact Refines.refl _

theorem OrExpr_createPartialR_refines (cl : ConstantExpr) (r : Expr) :
    Refines s (.binary .Or (.constant cl) r) (OrExpr_createPartialR cl r) :=
  (Refines.or_comm _ _).trans (OrExpr_createPartial_refines r cl)

theorem OrExpr.create_refines (l r : Expr) : Refines s (.binary .Or l r) (OrExpr.create l r) :=
  BCREATE_R_refines (Refines.refl _) (OrExpr_createPartial_refines l)
    (OrExpr_createPartialR_refines · r)

/-- Bits multiply as they are conjoined. -/
theorem Refines.mul_bool {l r : Expr} (bool : l.width = 1) :
    Refines s (.binary .Mul l r) (.binary .And l r) := by
  apply Refines.binary_kind
  · exact fun _ => trivial
  · intro w typed
    cases typed.width_eq.symm.trans bool
    generalize l.eval s 1 = x
    generalize r.eval s 1 = y
    revert x y
    decide

theorem MulExpr_createPartialR_refines (cl : ConstantExpr) (r : Expr) :
    Refines s (.binary .Mul (.constant cl) r) (MulExpr_createPartialR cl r) := by
  unfold MulExpr_createPartialR
  split
  · rename_i bool
    exact (Refines.mul_bool (l := .constant cl) bool).trans (AndExpr_createPartialR_refines cl r)
  · split
    · rename_i one
      apply Refines.binary_right
      intro w typed _
      rw [ConstantExpr.eval_eq_one one typed]
      exact one_mul _
    · split
      · rename_i zero
        apply Refines.binary_left
        intro w _ _ _ _ _
        rw [ConstantExpr.eval_eq_zero zero]
        exact zero_mul
      · exact Refines.refl _

theorem MulExpr_createPartial_refines (l : Expr) (cr : ConstantExpr) :
    Refines s (.binary .Mul l (.constant cr)) (MulExpr_createPartial l cr) :=
  (Refines.binary_comm .Mul mul_comm (fun _ => trivial) _ _).trans
    (MulExpr_createPartialR_refines cr l)

theorem MulExpr.create_refines (l r : Expr) :
    Refines s (.binary .Mul l r) (MulExpr.create l r) := by
  apply BCREATE_R_refines _ (MulExpr_createPartial_refines l) (MulExpr_createPartialR_refines · r)
  unfold MulExpr_create
  split
  · rename_i bool
    exact Refines.mul_bool bool
  · exact Refines.refl _

end Klee
end LlvmProject
