import LlvmProject.Klee.ExprCreateLogic

namespace LlvmProject

open BitVec hiding not_and or_assoc
namespace Klee

/-!
# Equality

A comparison with a constant is pushed through casts, through sums with
constants and through negated disjunctions.  A comparison of a constant with a
read from a table becomes a disjunction over the places where the table has it.
-/

variable {s : Assignment} {l r : Expr} {cl cr : ConstantExpr}

/-! ## Values -/

theorem Expr.eval_constant (c : ConstantExpr) : (constant c).eval s c.width = c.value :=
  setWidth_eq _

theorem Expr.eval_eq {w : Nat} (typed : l.Typed w) :
    (cmp .Eq l r).eval s 1 = ofBool (l.eval s w == r.eval s w) := by
  cases typed.width_eq
  rw [Expr.eval, setWidth_eq]
  rfl

theorem Expr.eval_bool (value : Bool) : (bool value).eval s 1 = ofBool value := setWidth_eq _

/-- A law for a comparison with a constant, at the constant's type. -/
theorem Refines.eq_constant {e : Expr} (typed : r.Typed cl.width -> e.Typed 1) (value : r.Typed
    cl.width -> r.Defined s -> e.Defined s ∧ e.eval s 1 = ofBool (cl.value == r.eval s cl.width)) :
    Refines s (.cmp .Eq (.constant cl) r) e where
  typed := by
    rintro w ⟨rfl, -, right⟩
    exact typed right
  value := by
    rintro w ⟨rfl, left, right⟩ ⟨-, defined⟩
    have left : (Expr.constant cl).Typed cl.width := rfl
    rw [Expr.eval_eq left, Expr.eval_constant]
    exact value right defined

theorem Refines.cmpEq_comm (l r : Expr) : Refines s (.cmp .Eq l r) (.cmp .Eq r l) where
  typed := by
    rintro w ⟨rfl, left, right⟩
    exact ⟨rfl, right.self, right.width_eq.symm ▸ left⟩
  value := by
    rintro w ⟨rfl, left, right⟩ ⟨defLeft, defRight⟩
    refine ⟨⟨defRight, defLeft⟩, ?_⟩
    rw [Expr.eval_eq right, Expr.eval_eq left, Bool.beq_comm]

/-! ## Laws -/

namespace Refines

theorem eq_self (e : Expr) : Refines s (.cmp .Eq e e) (.bool true) where
  typed := fun typed => typed.1.symm
  value := by
    rintro w ⟨rfl, typed, -⟩ -
    refine ⟨trivial, ?_⟩
    rw [Expr.eval_eq typed, Expr.eval_bool, beq_self_eq_true]

/-- `1 == A` is `A`. -/
theorem eq_true (r : Expr) : Refines s (.cmp .Eq (.constant ⟨1, 1⟩) r) r := by
  refine eq_constant id fun _ defined => ⟨defined, ?_⟩
  show r.eval s 1 = ofBool (1#1 == r.eval s 1)
  generalize r.eval s 1 = y
  revert y
  decide

/-- `0 == (0 == A)` is `A`. -/
theorem eq_false_eq_false (r : Expr) :
    Refines s (.cmp .Eq (.constant ⟨1, 0⟩) (.cmp .Eq (.constant ⟨1, 0⟩) r)) r := by
  refine eq_constant (fun typed => typed.2.2) fun typed defined => ⟨defined.2, ?_⟩
  have zero : (Expr.constant ⟨1, 0⟩).Typed 1 := rfl
  show r.eval s 1 = ofBool (0#1 == Expr.eval s _ 1)
  rw [Expr.eval_eq zero]
  show r.eval s 1 = ofBool (0#1 == ofBool ((0#1).setWidth 1 == r.eval s 1))
  generalize r.eval s 1 = y
  revert y
  decide

/-- `0 == (a or b)` is `a == 0 and b == 0`. -/
theorem eq_false_or (l r : Expr) :
    Refines s (.cmp .Eq (.constant ⟨1, 0⟩) (.binary .Or l r))
      (.binary .And (.cmp .Eq l (.constant ⟨l.width, 0⟩))
        (.cmp .Eq r (.constant ⟨r.width, 0⟩))) := by
  apply eq_constant
  · rintro ⟨left, right⟩
    exact ⟨⟨rfl, left.self, rfl⟩, rfl, right.self, rfl⟩
  · rintro ⟨left, right⟩ ⟨defLeft, defRight, -⟩
    refine ⟨⟨⟨defLeft, trivial⟩, ⟨defRight, trivial⟩, trivial⟩, ?_⟩
    rw [Expr.eval, Expr.eval_eq left, Expr.eval_eq right, Expr.eval, Expr.eval]
    show ofBool (l.eval s 1 == (0#l.width).setWidth 1) &&&
        ofBool (r.eval s 1 == (0#r.width).setWidth 1) =
      ofBool (0#1 == l.eval s 1 ||| r.eval s 1)
    rw [setWidth_zero, setWidth_zero]
    generalize l.eval s 1 = x
    generalize r.eval s 1 = y
    revert x y
    decide

/-- `c0 == c1 + b` is `c0 - c1 == b`. -/
theorem eq_add (cl c : ConstantExpr) (r : Expr) :
    Refines s (.cmp .Eq (.constant cl) (.binary .Add (.constant c) r))
      (.cmp .Eq (.constant (cl.binary .Sub c)) r) := by
  apply eq_constant
  · rintro ⟨-, right⟩
    exact ⟨rfl, rfl, right⟩
  · rintro ⟨same, right⟩ ⟨-, defined, -⟩
    refine ⟨⟨trivial, defined⟩, ?_⟩
    have left : (Expr.constant (cl.binary .Sub c)).Typed cl.width := rfl
    rw [Expr.eval_eq left, Expr.eval]
    congr 1
    rw [Bool.eq_iff_iff, beq_iff_eq, beq_iff_eq]
    show (cl.value - c.value.setWidth cl.width).setWidth cl.width = r.eval s cl.width ↔
      cl.value = c.value.setWidth cl.width + r.eval s cl.width
    rw [setWidth_eq, sub_eq_iff_eq_add, add_comm]

/-- `c0 == c1 - b` is `c1 - c0 == b`. -/
theorem eq_sub (cl c : ConstantExpr) (r : Expr) :
    Refines s (.cmp .Eq (.constant cl) (.binary .Sub (.constant c) r))
      (.cmp .Eq (.constant (c.binary .Sub cl)) r) := by
  apply eq_constant
  · rintro ⟨same, right⟩
    have same : c.width = cl.width := same
    refine ⟨rfl, rfl, ?_⟩
    show r.Typed c.width
    rw [same]
    exact right
  · rintro ⟨same, right⟩ ⟨-, defined, -⟩
    refine ⟨⟨trivial, defined⟩, ?_⟩
    rcases c with ⟨w, value⟩
    cases (show w = cl.width from same)
    have left : (Expr.constant ((ConstantExpr.mk cl.width value).binary .Sub cl)).Typed cl.width :=
      rfl
    rw [Expr.eval_eq left, Expr.eval]
    congr 1
    rw [Bool.eq_iff_iff, beq_iff_eq, beq_iff_eq]
    show (value - cl.value.setWidth cl.width).setWidth cl.width = r.eval s cl.width ↔
      cl.value = value.setWidth cl.width - r.eval s cl.width
    rw [setWidth_eq, setWidth_eq, setWidth_eq, sub_eq_iff_eq_add,
      eq_sub_iff_add_eq, add_comm, eq_comm]

end Refines

/-! ## Casts -/

/-- A comparison with an extension: the operand is compared with the truncated
constant if that extends to the constant. -/
theorem Refines.eq_extension {src ext : Expr}
    (extend : BitVec src.width -> BitVec cl.width) (typed :
    ext.Typed cl.width -> src.Typed src.width) (defined : ext.Defined s -> src.Defined s) (inverse :
    ext.Typed cl.width -> ∀ y, (extend y).setWidth src.width = y) (value : ext.Typed cl.width ->
    ext.eval s cl.width = extend (src.eval s src.width)) :
    Refines s (.cmp .Eq (.constant cl) ext)
      (if cl.value = extend (cl.value.setWidth src.width) then
        .cmp .Eq src (.constant (cl.ZExt src.width)) else .bool false) := by
  split
  · rename_i fits
    apply Refines.eq_constant
    · exact fun typedExt => ⟨rfl, typed typedExt, rfl⟩
    · intro typedExt defExt
      refine ⟨⟨defined defExt, trivial⟩, ?_⟩
      rw [Expr.eval_eq (typed typedExt), value typedExt]
      congr 1
      rw [Bool.eq_iff_iff, beq_iff_eq, beq_iff_eq]
      show src.eval s src.width = (cl.value.setWidth src.width).setWidth src.width ↔
        cl.value = extend (src.eval s src.width)
      rw [setWidth_eq]
      constructor
      · intro same
        rw [same]
        exact fits
      · intro same
        rw [same, inverse typedExt]
  · rename_i other
    apply Refines.eq_constant
    · exact fun _ => rfl
    · intro typedExt defExt
      refine ⟨trivial, ?_⟩
      rw [Expr.eval_bool, value typedExt]
      congr 1
      apply Eq.symm
      rw [beq_eq_false_iff_ne]
      intro same
      apply other
      rw [same, inverse typedExt]

theorem BitVec.setWidth_signExtend {v w : Nat} (wider : v <= w) (y : BitVec v) :
    (y.signExtend w).setWidth v = y := by
  apply eq_of_getLsbD_eq
  intro i below
  have within : i < w := by omega
  rw [getLsbD_setWidth, getLsbD_signExtend]
  simp [below, within]

theorem Refines.eq_sext (cl : ConstantExpr) (src : Expr) (w : Nat) :
    Refines s (.cmp .Eq (.constant cl) (.sext src w))
      (if cl = (cl.ZExt src.width).SExt cl.width then
        .cmp .Eq src (.constant (cl.ZExt src.width)) else .bool false) := by
  have same : cl = (cl.ZExt src.width).SExt cl.width ↔
      cl.value = (cl.value.setWidth src.width).signExtend cl.width := by
    rcases cl with ⟨v, value⟩
    rw [ConstantExpr.SExt, ConstantExpr.mk.injEq]
    exact ⟨fun both => eq_of_heq both.2, fun value => ⟨rfl, heq_of_eq value⟩⟩
  simp only [same]
  apply Refines.eq_extension (fun y => y.signExtend cl.width)
  · exact fun typed => typed.2.1
  · exact id
  · rintro ⟨rfl, -, wider⟩ y
    exact BitVec.setWidth_signExtend wider y
  · rintro ⟨rfl, -⟩
    rw [Expr.eval, setWidth_eq]

theorem Refines.eq_zext (cl : ConstantExpr) (src : Expr) (w : Nat) :
    Refines s (.cmp .Eq (.constant cl) (.zext src w))
      (if cl = (cl.ZExt src.width).ZExt cl.width then
        .cmp .Eq src (.constant (cl.ZExt src.width)) else .bool false) := by
  have same : cl = (cl.ZExt src.width).ZExt cl.width ↔
      cl.value = (cl.value.setWidth src.width).setWidth cl.width := by
    rcases cl with ⟨v, value⟩
    rw [ConstantExpr.ZExt, ConstantExpr.ZExt, ConstantExpr.mk.injEq]
    exact ⟨fun both => eq_of_heq both.2, fun value => ⟨rfl, heq_of_eq value⟩⟩
  simp only [same]
  apply Refines.eq_extension (fun y => y.setWidth cl.width)
  · exact fun typed => typed.2.1
  · exact id
  · rintro ⟨rfl, -, wider⟩ y
    rw [setWidth_setWidth_of_le _ wider, setWidth_eq]
  · rintro ⟨rfl, -⟩
    rw [Expr.eval, setWidth_eq]

/-! ## Constants of type Bool -/

variable {c : ConstantExpr}

theorem ConstantExpr.eq_of_isTrue (isTrue : c.isTrue = true) : c = ⟨1, 1⟩ := by
  rcases c with ⟨w, value⟩
  rcases Bool.and_eq_true_iff.mp isTrue with ⟨width, nonzero⟩
  cases beq_iff_eq.mp width
  congr
  exact (show ∀ v : BitVec 1, v ≠ 0 -> v = 1 by decide) value (by simpa using nonzero)

theorem ConstantExpr.eq_of_isFalse (isFalse : c.isFalse = true) : c = ⟨1, 0⟩ := by
  rcases c with ⟨w, value⟩
  rcases Bool.and_eq_true_iff.mp isFalse with ⟨width, zero⟩
  cases beq_iff_eq.mp width
  congr
  exact beq_iff_eq.mp zero

theorem ConstantExpr.eq_of_not_isTrue (width : c.width = 1)
    (isFalse : ¬c.isTrue = true) : c = ⟨1, 0⟩ := by
  apply ConstantExpr.eq_of_isFalse
  rw [ConstantExpr.isTrue, Bool.and_eq_true, not_and] at isFalse
  rw [ConstantExpr.isFalse, Bool.and_eq_true]
  have one : (c.width == 1) = true := beq_iff_eq.mpr width
  exact ⟨one, by simpa using isFalse one⟩

/-! ## Nodes -/

theorem EqExpr_create_refines (l r : Expr) : Refines s (.cmp .Eq l r) (EqExpr_create l r) := by
  unfold EqExpr_create
  split
  · rename_i same
    rw [same]
    exact Refines.eq_self r
  · exact Refines.refl _

theorem EqExpr.foldOr_refines {other : Expr}
    (refines : Refines s (.cmp .Eq (.constant cr) l) other) :
    Refines s (.cmp .Eq l (.constant cr)) (EqExpr.foldOr l cr other) := by
  unfold EqExpr.foldOr
  split
  · rename_i c constant
    rw [Expr.eq_of_asConstant constant]
    exact Refines.fold_cmp .Eq c cr
  · exact (Refines.cmpEq_comm _ _).trans refines

/-! ## Tables -/

variable {mayBe : Nat -> Expr}

theorem TryConstArrayOpt.loop_typed {giveUp : Expr}
    (gaveUp : giveUp.Typed 1) (compared : ∀ i, (mayBe i).Typed 1) (values : List (BitVec 8))
    (i numMatches : Nat) {res : Expr} (typed : res.Typed 1) :
    (TryConstArrayOpt.loop cl giveUp mayBe values i numMatches res).Typed 1 := by
  induction values generalizing i numMatches res with
  | nil => exact typed
  | cons value rest ih =>
    rw [TryConstArrayOpt.loop]
    split
    · split
      · exact gaveUp
      · apply ih
        have either : (Expr.binary .Or res (mayBe i)).Typed 1 := ⟨typed, compared i⟩
        exact (OrExpr.create_refines (s := fun _ _ => 0) res (mayBe i)).typed either
    · exact ih _ _ typed

theorem TryConstArrayOpt.loop_value {giveUp : Expr} (index : Nat) {answer : Bool} (found : Bool)
    (gaveUp : giveUp.Defined s ∧ giveUp.eval s 1 = ofBool answer) (compared : ∀ i, i < 2 ^ 32
    -> (mayBe i).Typed 1 ∧ (mayBe i).Defined s ∧ (mayBe i).eval s 1 = ofBool (decide (index =
    i))) (values : List (BitVec 8)) (i numMatches : Nat) {res : Expr} (small : i + values.length < 2
    ^ 32) (typed : res.Typed 1) (defined : res.Defined s) (value : res.eval s 1 = ofBool
    found) (places : answer = true ↔ found = true ∨ ∃ j value, values[j]? = some value ∧ cl = ⟨8,
    value⟩ ∧ index = i + j) :
    (TryConstArrayOpt.loop cl giveUp mayBe values i numMatches res).Defined s ∧
      (TryConstArrayOpt.loop cl giveUp mayBe values i numMatches res).eval s 1 = ofBool answer := by
  induction values generalizing i numMatches res found with
  | nil =>
    have same : answer = found := by
      rw [Bool.eq_iff_iff, places]
      simp
    exact ⟨defined, value.trans (congrArg _ same.symm)⟩
  | cons first rest ih =>
    rw [List.length_cons] at small
    rw [TryConstArrayOpt.loop]
    split
    · rename_i here
      split
      · exact gaveUp
      · rcases compared i (by omega) with ⟨typedHere, defHere, valueHere⟩
        have either : (Expr.binary .Or res (mayBe i)).Typed 1 := ⟨typed, typedHere⟩
        have created := OrExpr.create_refines (s := s) res (mayBe i)
        rcases created.value either ⟨defined, defHere, trivial⟩ with ⟨defBoth, valueBoth⟩
        apply ih (found || decide (index = i)) (i + 1) (numMatches + 1)
          (by omega) (created.typed either) defBoth
        · rw [valueBoth, Expr.eval, value, valueHere]
          exact (ofBool_or_ofBool).symm ▸ rfl
        · rw [places, Bool.or_eq_true, decide_eq_true_iff, or_assoc]
          apply or_congr_right
          constructor
          · rintro ⟨j, v, at_, is_, place⟩
            cases j with
            | zero => exact .inl place
            | succ j => exact .inr ⟨j, v, at_, is_, by omega⟩
          · rintro (place | ⟨j, v, at_, is_, place⟩)
            · exact ⟨0, first, rfl, here, place⟩
            · exact ⟨j + 1, v, at_, is_, by omega⟩
    · rename_i other
      apply ih found (i + 1) numMatches (by omega) typed defined value
      rw [places]
      apply or_congr_right
      constructor
      · rintro ⟨j, v, at_, is_, place⟩
        cases j with
        | zero =>
          cases Option.some.inj at_
          exact absurd is_ other
        | succ j => exact ⟨j, v, at_, is_, by omega⟩
      · rintro ⟨j, v, at_, is_, place⟩
        exact ⟨j + 1, v, at_, is_, by omega⟩

theorem TryConstArrayOpt_refines {updates : UpdateList} {index : Expr} (compared : ∀ i, Refines s
    (.cmp .Eq index (.constant ⟨index.width, BitVec.ofNat _ i⟩)) (mayBe i)) :
    Refines s (.cmp .Eq (.constant cl) (.read updates index))
      (TryConstArrayOpt cl updates index mayBe) := by
  unfold TryConstArrayOpt
  cases updates with
  | extend unIndex unValue next => exact EqExpr_create_refines _ _
  | root array =>
    simp only
    split
    · exact EqExpr_create_refines _ _
    · rename_i constant
      have full : array.constantValues.length = array.size := by
        apply array.sized.resolve_left
        intro empty
        exact constant (List.isEmpty_iff.mpr empty)
      have gaveUp := EqExpr_create_refines (s := s) (.constant cl) (.read (.root array) index)
      rcases cl with ⟨width, value⟩
      constructor
      · intro w typed
        cases typed.1
        have typedIndex : index.Typed 32 := typed.2.2.2.2
        apply TryConstArrayOpt.loop_typed (gaveUp.typed typed)
        · exact fun i => (compared i).typed ⟨rfl, typedIndex.self, rfl⟩
        · rfl
      · intro w typed defined
        cases typed.1
        rcases typed.2.2 with ⟨eight, -, typedIndex⟩
        cases (show width = 8 from eight)
        rcases defined.2 with ⟨-, defIndex, bound⟩
        have bound : (index.eval s 32).toNat < array.constantValues.length := full ▸ bound
        have read : (Expr.read (.root array) index).eval s 8 =
            array.constantValues.getD (index.eval s 32).toNat 0 := by
          rw [Expr.eval, setWidth_eq, UpdateList.read, Array.byte, if_neg constant]
        have answer : (Expr.cmp .Eq (.constant ⟨8, value⟩) (.read (.root array) index)).eval s 1 =
            ofBool (value == array.constantValues.getD (index.eval s 32).toNat 0) := by
          have left : (Expr.constant ⟨8, value⟩).Typed 8 := rfl
          rw [Expr.eval_eq left, read]
          congr 2
        rcases gaveUp.value typed defined with ⟨defGiveUp, sameGiveUp⟩
        rw [answer]
        apply TryConstArrayOpt.loop_value (index.eval s 32).toNat false
          ⟨defGiveUp, sameGiveUp.trans answer⟩
        · intro i small
          have typedPlace : (Expr.cmp .Eq index
              (.constant ⟨index.width, BitVec.ofNat _ i⟩)).Typed 1 := ⟨rfl, typedIndex.self, rfl⟩
          rcases (compared i).value typedPlace ⟨defIndex, trivial⟩ with ⟨defPlace, samePlace⟩
          refine ⟨(compared i).typed typedPlace, defPlace, ?_⟩
          rw [samePlace, Expr.eval_eq typedIndex]
          congr 1
          rw [Bool.eq_iff_iff, beq_iff_eq, decide_eq_true_iff]
          show index.eval s 32 = (BitVec.ofNat index.width i).setWidth 32 ↔ _
          rw [typedIndex.width_eq, setWidth_eq]
          constructor
          · intro same
            rw [same, toNat_ofNat, Nat.mod_eq_of_lt small]
          · intro same
            rw [<- same, ofNat_toNat, setWidth_eq]
        · rw [full, zero_add]
          exact array.small
        · exact (rfl : (Expr.bool false).Typed 1)
        · trivial
        · exact Expr.eval_bool false
        · rw [beq_iff_eq, List.getD_eq_getElem?_getD]
          constructor
          · intro same
            refine .inr ⟨(index.eval s 32).toNat, value, ?_, rfl, (zero_add _).symm⟩
            rw [same, List.getElem?_eq_getElem bound]
            rfl
          · rintro (no | ⟨j, v, place, same, here⟩)
            · exact nomatch no
            · rw [zero_add] at here
              rw [here, place]
              cases same
              rfl

/-! ## Constructors -/

variable (constArrayOpt : Bool)

theorem EqExpr_createPartialR_refines (cl : ConstantExpr) (r : Expr) :
    Refines s (.cmp .Eq (.constant cl) r) (EqExpr_createPartialR constArrayOpt cl r) := by
  fun_induction EqExpr_createPartialR constArrayOpt cl r with
  | case1 r cl _ isTrue =>
    rw [ConstantExpr.eq_of_isTrue isTrue]
    exact Refines.eq_true r
  | case2 cl width isFalse left right c constant isFalseToo =>
    rw [ConstantExpr.eq_of_not_isTrue width isFalse, Expr.eq_of_asConstant constant,
      ConstantExpr.eq_of_isFalse isFalseToo]
    exact Refines.eq_false_eq_false right
  | case5 cl width isFalse left right leftIH rightIH =>
    rw [ConstantExpr.eq_of_not_isTrue width isFalse]
    apply (Refines.eq_false_or left right).trans
    apply Refines.trans _ (AndExpr.create_refines _ _)
    exact Refines.binary .And (EqExpr.foldOr_refines leftIH) (EqExpr.foldOr_refines rightIH)
  | case7 cl _ src w fits ih =>
    have law := Refines.eq_sext (s := s) cl src w
    rw [if_pos fits] at law
    exact law.trans (EqExpr.foldOr_refines ih)
  | case8 cl _ src w misfit =>
    have law := Refines.eq_sext (s := s) cl src w
    rw [if_neg misfit] at law
    exact law
  | case9 cl _ src w fits ih =>
    have law := Refines.eq_zext (s := s) cl src w
    rw [if_pos fits] at law
    exact law.trans (EqExpr.foldOr_refines ih)
  | case10 cl _ src w misfit =>
    have law := Refines.eq_zext (s := s) cl src w
    rw [if_neg misfit] at law
    exact law
  | case11 cl _ left right c constant ih =>
    rw [Expr.eq_of_asConstant constant]
    exact (Refines.eq_add cl c right).trans ih
  | case13 cl _ left right c constant ih =>
    rw [Expr.eq_of_asConstant constant]
    exact (Refines.eq_sub cl c right).trans ih
  | case15 cl _ updates index _ ih =>
    exact TryConstArrayOpt_refines fun i => EqExpr.foldOr_refines (ih i)
  | _ => exact EqExpr_create_refines _ _

theorem EqExpr.create_refines (l r : Expr) :
    Refines s (.cmp .Eq l r) (EqExpr.create constArrayOpt l r) :=
  CMPCREATE_T_refines (EqExpr_create_refines l r)
    (fun cr => (Refines.cmpEq_comm _ _).trans (EqExpr_createPartialR_refines constArrayOpt cr l))
    (EqExpr_createPartialR_refines constArrayOpt · r)

theorem Expr.createIsZero_refines (e : Expr) :
    Refines s (.cmp .Eq e (.constant ⟨e.width, 0⟩)) (e.createIsZero constArrayOpt) :=
  EqExpr.create_refines constArrayOpt e _

end Klee
end LlvmProject
