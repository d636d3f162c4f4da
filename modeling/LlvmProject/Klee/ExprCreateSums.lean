import LlvmProject.Klee.ExprCreateEquality

namespace LlvmProject

open BitVec Prod
namespace Klee

/-!
# Sums

Constants move to the left of sums and differences and are added up there.
-/

variable {s : Assignment}

/-! ## Laws -/

namespace Refines

variable (a b c : Expr)

theorem add_comm : Refines s (.binary .Add a b) (.binary .Add b a) :=
  Refines.binary_comm .Add BitVec.add_comm (fun _ => trivial) a b

theorem add_add : Refines s (.binary .Add (.binary .Add a b) c)
    (.binary .Add a (.binary .Add b c)) where
  typed := fun ⟨⟨a, b⟩, c⟩ => ⟨a, b, c⟩
  value := by
    rintro w - ⟨⟨a, b, -⟩, c, -⟩
    refine ⟨⟨a, ⟨b, c, trivial⟩, trivial⟩, ?_⟩
    simp only [Expr.eval, BinaryKind.apply]
    ring

theorem sub_add : Refines s (.binary .Add (.binary .Sub a b) c)
    (.binary .Add a (.binary .Sub c b)) where
  typed := fun ⟨⟨a, b⟩, c⟩ => ⟨a, c, b⟩
  value := by
    rintro w - ⟨⟨a, b, -⟩, c, -⟩
    refine ⟨⟨a, ⟨c, b, trivial⟩, trivial⟩, ?_⟩
    simp only [Expr.eval, BinaryKind.apply]
    ring

theorem add_sub_right : Refines s (.binary .Add a (.binary .Sub b c))
    (.binary .Sub (.binary .Add a b) c) where
  typed := fun ⟨a, b, c⟩ => ⟨⟨a, b⟩, c⟩
  value := by
    rintro w - ⟨a, ⟨b, c, -⟩, -⟩
    refine ⟨⟨⟨a, b, trivial⟩, c, trivial⟩, ?_⟩
    simp only [Expr.eval, BinaryKind.apply]
    ring

theorem add_right : Refines s (.binary .Add a (.binary .Add b c))
    (.binary .Add b (.binary .Add a c)) where
  typed := fun ⟨a, b, c⟩ => ⟨b, a, c⟩
  value := by
    rintro w - ⟨a, ⟨b, c, -⟩, -⟩
    refine ⟨⟨b, ⟨a, c, trivial⟩, trivial⟩, ?_⟩
    simp only [Expr.eval, BinaryKind.apply]
    ring

theorem add_sub : Refines s (.binary .Add a (.binary .Sub b c))
    (.binary .Add b (.binary .Sub a c)) where
  typed := fun ⟨a, b, c⟩ => ⟨b, a, c⟩
  value := by
    rintro w - ⟨a, ⟨b, c, -⟩, -⟩
    refine ⟨⟨b, ⟨a, c, trivial⟩, trivial⟩, ?_⟩
    simp only [Expr.eval, BinaryKind.apply]
    ring

theorem add_assoc_right : Refines s (.binary .Add a (.binary .Add b c))
    (.binary .Add (.binary .Add a b) c) where
  typed := fun ⟨a, b, c⟩ => ⟨⟨a, b⟩, c⟩
  value := by
    rintro w - ⟨a, ⟨b, c, -⟩, -⟩
    refine ⟨⟨⟨a, b, trivial⟩, c, trivial⟩, ?_⟩
    simp only [Expr.eval, BinaryKind.apply]
    ring

theorem add_sub_left : Refines s (.binary .Sub (.binary .Add a b) c)
    (.binary .Add a (.binary .Sub b c)) where
  typed := fun ⟨⟨a, b⟩, c⟩ => ⟨a, b, c⟩
  value := by
    rintro w - ⟨⟨a, b, -⟩, c, -⟩
    refine ⟨⟨a, ⟨b, c, trivial⟩, trivial⟩, ?_⟩
    simp only [Expr.eval, BinaryKind.apply]
    ring

theorem sub_sub_left : Refines s (.binary .Sub (.binary .Sub a b) c)
    (.binary .Sub a (.binary .Add b c)) where
  typed := fun ⟨⟨a, b⟩, c⟩ => ⟨a, b, c⟩
  value := by
    rintro w - ⟨⟨a, b, -⟩, c, -⟩
    refine ⟨⟨a, ⟨b, c, trivial⟩, trivial⟩, ?_⟩
    simp only [Expr.eval, BinaryKind.apply]
    ring

theorem sub_add_right : Refines s (.binary .Sub a (.binary .Add b c))
    (.binary .Sub (.binary .Sub a b) c) where
  typed := fun ⟨a, b, c⟩ => ⟨⟨a, b⟩, c⟩
  value := by
    rintro w - ⟨a, ⟨b, c, -⟩, -⟩
    refine ⟨⟨⟨a, b, trivial⟩, c, trivial⟩, ?_⟩
    simp only [Expr.eval, BinaryKind.apply]
    ring

theorem sub_sub_right : Refines s (.binary .Sub a (.binary .Sub b c))
    (.binary .Add (.binary .Sub a b) c) where
  typed := fun ⟨a, b, c⟩ => ⟨⟨a, b⟩, c⟩
  value := by
    rintro w - ⟨a, ⟨b, c, -⟩, -⟩
    refine ⟨⟨⟨a, b, trivial⟩, c, trivial⟩, ?_⟩
    simp only [Expr.eval, BinaryKind.apply]
    ring

theorem sub_add_swap : Refines s (.binary .Sub a (.binary .Add b c))
    (.binary .Sub (.binary .Sub a c) b) where
  typed := fun ⟨a, b, c⟩ => ⟨⟨a, c⟩, b⟩
  value := by
    rintro w - ⟨a, ⟨b, c, -⟩, -⟩
    refine ⟨⟨⟨a, c, trivial⟩, b, trivial⟩, ?_⟩
    simp only [Expr.eval, BinaryKind.apply]
    ring

theorem sub_sub_swap : Refines s (.binary .Sub a (.binary .Sub b c))
    (.binary .Sub (.binary .Add a c) b) where
  typed := fun ⟨a, b, c⟩ => ⟨⟨a, c⟩, b⟩
  value := by
    rintro w - ⟨a, ⟨b, c, -⟩, -⟩
    refine ⟨⟨⟨a, c, trivial⟩, b, trivial⟩, ?_⟩
    simp only [Expr.eval, BinaryKind.apply]
    ring

theorem sub_self : Refines s (.binary .Sub a a) (.constant ⟨a.width, 0⟩) where
  typed := fun typed => typed.1.width_eq
  value := by
    intro w typed defined
    refine ⟨trivial, ?_⟩
    simp only [Expr.eval, BinaryKind.apply]
    show (0#a.width).setWidth w = _
    rw [setWidth_zero]
    exact (BitVec.sub_self _).symm

/-- Bits are added and subtracted by exclusive or. -/
theorem add_bool (bool : a.width = 1) : Refines s (.binary .Add a b) (.binary .Xor a b) := by
  apply Refines.binary_kind
  · exact fun _ => trivial
  · intro w typed
    cases typed.width_eq.symm.trans bool
    generalize a.eval s 1 = x
    generalize b.eval s 1 = y
    revert x y
    decide

theorem sub_bool (bool : a.width = 1) : Refines s (.binary .Sub a b) (.binary .Xor a b) := by
  apply Refines.binary_kind
  · exact fun _ => trivial
  · intro w typed
    cases typed.width_eq.symm.trans bool
    generalize a.eval s 1 = x
    generalize b.eval s 1 = y
    revert x y
    decide

theorem sub_constant (k : ConstantExpr) : Refines s (.binary .Sub a (.constant k))
    (.binary .Add (.constant ((ConstantExpr.mk k.width 0).binary .Sub k)) a) where
  typed := fun ⟨a, k⟩ => ⟨k, a⟩
  value := by
    rintro w ⟨-, typed⟩ ⟨a, -⟩
    cases (show k.width = w from typed)
    refine ⟨⟨trivial, a, trivial⟩, ?_⟩
    simp only [Expr.eval, BinaryKind.apply]
    show (0 - k.value.setWidth k.width).setWidth k.width + _ = _ - k.value.setWidth k.width
    rw [setWidth_eq, setWidth_eq]
    ring

end Refines

/-! ## Exclusive or -/

variable (constArrayOpt : Bool)

theorem XorExpr_createPartialR_refines (cl : ConstantExpr) (r : Expr) :
    Refines s (.binary .Xor (.constant cl) r) (XorExpr_createPartialR constArrayOpt cl r) := by
  unfold XorExpr_createPartialR
  split
  · rename_i zero
    apply Refines.binary_right
    intro w _ _
    rw [ConstantExpr.eval_eq_zero zero]
    exact zero_xor
  · rename_i nonzero
    split
    · rename_i bool
      have one : cl = ⟨1, 1⟩ := by
        rcases cl with ⟨w, value⟩
        cases bool
        congr
        exact (show ∀ v : BitVec 1, v ≠ 0 -> v = 1 by decide) value 
          (by simpa [ConstantExpr.isZero] using nonzero)
      rw [one]
      apply Refines.trans _ (EqExpr_createPartialR_refines constArrayOpt ⟨1, 0⟩ r)
      constructor
      · exact fun {w} typed => ⟨(show 1 = w from typed.1).symm, rfl,
          (show r.Typed 1 from (show 1 = w from typed.1) ▸ typed.2)⟩
      · rintro w ⟨left, right⟩ ⟨-, defined, -⟩
        cases (show 1 = w from left)
        refine ⟨⟨trivial, defined⟩, ?_⟩
        have zero : (Expr.constant ⟨1, 0⟩).Typed 1 := rfl
        rw [Expr.eval_eq zero, Expr.eval]
        show ofBool ((0#1).setWidth 1 == r.eval s 1) = (1#1).setWidth 1 ^^^ r.eval s 1
        generalize r.eval s 1 = y
        revert y
        decide
    · exact Refines.refl _

theorem XorExpr_createPartial_refines (l : Expr) (cr : ConstantExpr) :
    Refines s (.binary .Xor l (.constant cr)) (XorExpr_createPartial constArrayOpt l cr) :=
  (Refines.binary_comm .Xor BitVec.xor_comm (fun _ => trivial) _ _).trans
    (XorExpr_createPartialR_refines constArrayOpt cr l)

theorem XorExpr.create_refines (l r : Expr) :
    Refines s (.binary .Xor l r) (XorExpr.create constArrayOpt l r) :=
  BCREATE_R_refines (Refines.refl _) (XorExpr_createPartial_refines constArrayOpt l)
    (XorExpr_createPartialR_refines constArrayOpt · r)

/-! ## Sums with a constant -/

theorem foldOr_refines {kind : BinaryKind} {cl : ConstantExpr} {r other : Expr}
    (refines : Refines s (.binary kind (.constant cl) r) other) :
    Refines s (.binary kind (.constant cl) r) (foldOr kind cl r other) := by
  unfold foldOr
  split
  · rename_i c constant
    rw [Expr.eq_of_asConstant constant]
    exact Refines.fold_binary kind cl c
  · exact refines

mutual

theorem AddExpr_createPartialR_refines (cl : ConstantExpr) (r : Expr) :
    Refines s (.binary .Add (.constant cl) r) (AddExpr_createPartialR constArrayOpt cl r) := by
  rw [AddExpr_createPartialR.eq_def]
  split
  · rename_i bool
    exact (Refines.add_bool (.constant cl) r bool).trans (XorExpr_createPartialR_refines _ cl r)
  · split
    · rename_i zero
      apply Refines.binary_right
      intro w _ _
      rw [ConstantExpr.eval_eq_zero zero]
      exact zero_add _
    · split
      · rename_i c b sum
        rw [r.eq_of_constantSum_add sum]
        have inner := AddExpr_createPartialR_refines (cl.binary .Add c) b
        apply (Refines.add_assoc_right _ _ _).trans
        exact ((Refines.fold_binary .Add cl c).binary .Add (Refines.refl b)).trans
          (foldOr_refines inner)
      · rename_i c b sum
        rw [r.eq_of_constantSum_sub sum]
        have inner := SubExpr_createPartialR_refines (cl.binary .Add c) b
        apply (Refines.add_sub_right _ _ _).trans
        exact ((Refines.fold_binary .Add cl c).binary .Sub (Refines.refl b)).trans
          (foldOr_refines inner)
      · exact Refines.refl _
termination_by sizeOf r
decreasing_by
  · exact r.sizeOf_of_constantSum_add ‹_›
  · exact r.sizeOf_of_constantSum_sub ‹_›

theorem SubExpr_createPartialR_refines (cl : ConstantExpr) (r : Expr) :
    Refines s (.binary .Sub (.constant cl) r) (SubExpr_createPartialR constArrayOpt cl r) := by
  rw [SubExpr_createPartialR.eq_def]
  split
  · rename_i bool
    exact (Refines.sub_bool (.constant cl) r bool).trans (XorExpr_createPartialR_refines _ cl r)
  · split
    · rename_i c b sum
      rw [r.eq_of_constantSum_add sum]
      have inner := SubExpr_createPartialR_refines (cl.binary .Sub c) b
      apply (Refines.sub_add_right _ _ _).trans
      exact ((Refines.fold_binary .Sub cl c).binary .Sub (Refines.refl b)).trans
        (foldOr_refines inner)
    · rename_i c b sum
      rw [r.eq_of_constantSum_sub sum]
      have inner := AddExpr_createPartialR_refines (cl.binary .Sub c) b
      apply (Refines.sub_sub_right _ _ _).trans
      exact ((Refines.fold_binary .Sub cl c).binary .Add (Refines.refl b)).trans
        (foldOr_refines inner)
    · exact Refines.refl _
termination_by sizeOf r
decreasing_by
  · exact r.sizeOf_of_constantSum_add ‹_›
  · exact r.sizeOf_of_constantSum_sub ‹_›

end

theorem AddExpr_createPartial_refines (l : Expr) (cr : ConstantExpr) :
    Refines s (.binary .Add l (.constant cr)) (AddExpr_createPartial constArrayOpt l cr) :=
  (Refines.add_comm _ _).trans (AddExpr_createPartialR_refines constArrayOpt cr l)

theorem SubExpr_createPartial_refines (l : Expr) (cr : ConstantExpr) :
    Refines s (.binary .Sub l (.constant cr)) (SubExpr_createPartial constArrayOpt l cr) :=
  (Refines.sub_constant l cr).trans (AddExpr_createPartialR_refines constArrayOpt _ l)

theorem AddExpr.createConstant_refines (cl : ConstantExpr) (r : Expr) :
    Refines s (.binary .Add (.constant cl) r) (AddExpr.createConstant constArrayOpt cl r) :=
  foldOr_refines (AddExpr_createPartialR_refines constArrayOpt cl r)

theorem SubExpr.createConstant_refines (cl : ConstantExpr) (r : Expr) :
    Refines s (.binary .Sub (.constant cl) r) (SubExpr.createConstant constArrayOpt cl r) :=
  foldOr_refines (SubExpr_createPartialR_refines constArrayOpt cl r)

theorem SubExpr.subtractConstant_refines (l : Expr) (cr : ConstantExpr) :
    Refines s (.binary .Sub l (.constant cr)) (SubExpr.subtractConstant constArrayOpt l cr) := by
  unfold SubExpr.subtractConstant
  split
  · rename_i c constant
    rw [Expr.eq_of_asConstant constant]
    exact Refines.fold_binary .Sub c cr
  · exact SubExpr_createPartial_refines constArrayOpt l cr

/-! ## Sums -/

mutual

theorem AddExpr.create_refines (l r : Expr) :
    Refines s (.binary .Add l r) (AddExpr.create constArrayOpt l r) := by
  rw [AddExpr.create]
  exact BCREATE_R_refines (AddExpr_create_refines l r)
    (AddExpr_createPartial_refines constArrayOpt l)
    (AddExpr_createPartialR_refines constArrayOpt · r)
termination_by (sizeOf l + sizeOf r, 1)

theorem AddExpr_create_refines (l r : Expr) :
    Refines s (.binary .Add l r) (AddExpr_create constArrayOpt l r) := by
  rw [AddExpr_create.eq_def]
  split
  · exact Refines.add_bool l r ‹_›
  · split
    · rename_i k a sum
      have inner := AddExpr.create_refines a r
      rw [l.eq_of_constantSum_add sum]
      exact ((Refines.add_add _ _ _).trans (Refines.binary .Add (Refines.refl _) inner)).trans
        (AddExpr.createConstant_refines constArrayOpt k _)
    · rename_i k a sum
      have inner := SubExpr.create_refines r a
      rw [l.eq_of_constantSum_sub sum]
      exact ((Refines.sub_add _ _ _).trans (Refines.binary .Add (Refines.refl _) inner)).trans
        (AddExpr.createConstant_refines constArrayOpt k _)
    · split
      · rename_i k b sum
        have inner := AddExpr.create_refines l b
        rw [r.eq_of_constantSum_add sum]
        exact ((Refines.add_right _ _ _).trans (Refines.binary .Add (Refines.refl _) inner)).trans
          (AddExpr.createConstant_refines constArrayOpt k _)
      · rename_i k b sum
        have inner := SubExpr.create_refines l b
        rw [r.eq_of_constantSum_sub sum]
        exact ((Refines.add_sub _ _ _).trans (Refines.binary .Add (Refines.refl _) inner)).trans
          (AddExpr.createConstant_refines constArrayOpt k _)
      · exact Refines.refl _
termination_by (sizeOf l + sizeOf r, 0)
decreasing_by
  · have := l.sizeOf_of_constantSum_add ‹_›
    exact Lex.left _ _ (by omega)
  · have := l.sizeOf_of_constantSum_sub ‹_›
    exact Lex.left _ _ (by omega)
  · have := r.sizeOf_of_constantSum_add ‹_›
    exact Lex.left _ _ (by omega)
  · have := r.sizeOf_of_constantSum_sub ‹_›
    exact Lex.left _ _ (by omega)

theorem SubExpr.create_refines (l r : Expr) :
    Refines s (.binary .Sub l r) (SubExpr.create constArrayOpt l r) := by
  rw [SubExpr.create]
  exact BCREATE_R_refines (SubExpr_create_refines l r)
    (SubExpr_createPartial_refines constArrayOpt l)
    (SubExpr_createPartialR_refines constArrayOpt · r)
termination_by (sizeOf l + sizeOf r, 1)

theorem SubExpr_create_refines (l r : Expr) :
    Refines s (.binary .Sub l r) (SubExpr_create constArrayOpt l r) := by
  rw [SubExpr_create.eq_def]
  split
  · exact Refines.sub_bool l r ‹_›
  · split
    · rename_i same
      rw [<- same]
      exact Refines.sub_self l
    · split
      · rename_i k a sum
        have inner := SubExpr.create_refines a r
        rw [l.eq_of_constantSum_add sum]
        exact ((Refines.add_sub_left _ _ _).trans
          (Refines.binary .Add (Refines.refl _) inner)).trans
          (AddExpr.createConstant_refines constArrayOpt k _)
      · rename_i k a sum
        have inner := AddExpr.create_refines a r
        rw [l.eq_of_constantSum_sub sum]
        exact ((Refines.sub_sub_left _ _ _).trans
          (Refines.binary .Sub (Refines.refl _) inner)).trans
          (SubExpr.createConstant_refines constArrayOpt k _)
      · split
        · rename_i k b sum
          have inner := SubExpr.create_refines l b
          rw [r.eq_of_constantSum_add sum]
          exact ((Refines.sub_add_swap _ _ _).trans (inner.binary .Sub (Refines.refl _))).trans
            (SubExpr.subtractConstant_refines constArrayOpt _ k)
        · rename_i k b sum
          have inner := AddExpr.create_refines l b
          rw [r.eq_of_constantSum_sub sum]
          exact ((Refines.sub_sub_swap _ _ _).trans (inner.binary .Sub (Refines.refl _))).trans
            (SubExpr.subtractConstant_refines constArrayOpt _ k)
        · exact Refines.refl _
termination_by (sizeOf l + sizeOf r, 0)
decreasing_by
  · have := l.sizeOf_of_constantSum_add ‹_›
    exact Lex.left _ _ (by omega)
  · have := l.sizeOf_of_constantSum_sub ‹_›
    exact Lex.left _ _ (by omega)
  · have := r.sizeOf_of_constantSum_add ‹_›
    exact Lex.left _ _ (by omega)
  · have := r.sizeOf_of_constantSum_sub ‹_›
    exact Lex.left _ _ (by omega)

end

end Klee
end LlvmProject
