import LlvmProject.Klee.ExprCreate
import Mathlib.Tactic.Ring

namespace LlvmProject
namespace Klee

/-!
# Refinement of expressions

One expression refines another at an assignment if it has the same type and,
where the other has a meaning, the same value.  This is a preorder that all
kinds of nodes respect, so that a rule of the simplifier is a law about two
nodes and its uses are chains of laws.
-/

structure Refines (s : Assignment) (e e' : Expr) : Prop where
  typed : ∀ {w}, e.Typed w -> e'.Typed w
  value : ∀ {w}, e.Typed w -> e.Defined s -> e'.Defined s ∧ e'.eval s w = e.eval s w

attribute [local simp] Expr.eval

namespace Refines

variable {s : Assignment} {a a' b b' c c' : Expr}

theorem refl (e : Expr) : Refines s e e where
  typed := id
  value := fun _ defined => ⟨defined, rfl⟩

theorem trans (first : Refines s a b) (second : Refines s b c) : Refines s a c where
  typed := fun typed => second.typed (first.typed typed)
  value := by
    intro w typed defined
    rcases first.value typed defined with ⟨defined, same⟩
    rcases second.value (first.typed typed) defined with ⟨defined, sameToo⟩
    exact ⟨defined, sameToo.trans same⟩

theorem width_eq (refines : Refines s a a') {w : Nat} (typed : a.Typed w) : a'.width = a.width :=
  (refines.typed typed).width_eq.trans typed.width_eq.symm

/-! ## Nodes -/

theorem concat (left : Refines s a a') (right : Refines s b b') :
    Refines s (.concat a b) (.concat a' b') where
  typed := by
    rintro w ⟨typedLeft, typedRight, sum⟩
    exact ⟨(left.typed typedLeft).self, (right.typed typedRight).self,
      by rw [left.width_eq typedLeft, right.width_eq typedRight, sum]⟩
  value := by
    rintro w ⟨typedLeft, typedRight, sum⟩ ⟨defLeft, defRight⟩
    rcases left.value typedLeft defLeft with ⟨defLeft, sameLeft⟩
    rcases right.value typedRight defRight with ⟨defRight, sameRight⟩
    refine ⟨⟨defLeft, defRight⟩, ?_⟩
    rw [Expr.eval, Expr.eval, left.width_eq typedLeft, right.width_eq typedRight, sameLeft,
      sameRight]

theorem binary (kind : BinaryKind) (left : Refines s a a') (right : Refines s b b') :
    Refines s (.binary kind a b) (.binary kind a' b') where
  typed := fun typed => ⟨left.typed typed.1, right.typed typed.2⟩
  value := by
    rintro w ⟨typedLeft, typedRight⟩ ⟨defLeft, defRight, operand⟩
    rcases left.value typedLeft defLeft with ⟨defLeft, sameLeft⟩
    rcases right.value typedRight defRight with ⟨defRight, sameRight⟩
    rw [typedLeft.width_eq] at operand
    refine ⟨⟨defLeft, defRight, ?_⟩, ?_⟩
    · rwa [left.width_eq typedLeft, typedLeft.width_eq, sameRight]
    · simp [sameLeft, sameRight]

theorem cmp (kind : CmpKind) (left : Refines s a a') (right : Refines s b b') :
    Refines s (.cmp kind a b) (.cmp kind a' b') where
  typed := by
    rintro w ⟨one, typedLeft, typedRight⟩
    exact ⟨one, (left.typed typedLeft).self,
      by rw [left.width_eq typedLeft]; exact right.typed typedRight⟩
  value := by
    rintro w ⟨one, typedLeft, typedRight⟩ ⟨defLeft, defRight⟩
    rcases left.value typedLeft defLeft with ⟨defLeft, sameLeft⟩
    rcases right.value typedRight defRight with ⟨defRight, sameRight⟩
    refine ⟨⟨defLeft, defRight⟩, ?_⟩
    rw [Expr.eval, Expr.eval, left.width_eq typedLeft, sameLeft, sameRight]

end Refines

/-! ## Constants -/

theorem Expr.eq_of_asConstant {e : Expr} {c : ConstantExpr} (constant : e.asConstant = some c) :
    e = .constant c := by
  cases e with
  | constant d => exact congrArg _ (Option.some.inj constant)
  | _ => exact nomatch constant

end Klee
end LlvmProject

namespace LlvmProject

open BitVec

namespace Klee

/-!
## Extracts, concatenations and casts

An extract of a concatenation is an extract of one side or a concatenation of
extracts of both, and two extracts that meet are one.
-/

variable {s : Assignment}

/-! ## Bits -/

theorem Expr.getLsbD_extract {e : Expr} {offset width w i : Nat} (below : i < w)
    (inside : i < width) :
    ((extract e offset width).eval s w).getLsbD i = (e.eval s e.width).getLsbD (offset + i) := by
  rw [Expr.eval, getLsbD_setWidth, getLsbD_extractLsb', decide_eq_true below,
    decide_eq_true inside, Bool.true_and, Bool.true_and]

variable {l r : Expr}

theorem Expr.getLsbD_concat {w i : Nat} (below : i < w) :
    ((concat l r).eval s w).getLsbD i =
      if i < r.width then (r.eval s r.width).getLsbD i
      else (l.eval s l.width).getLsbD (i - r.width) := by
  rw [Expr.eval, getLsbD_setWidth, getLsbD_append, decide_eq_true below, Bool.true_and]

/-! ## Laws -/

namespace Refines

theorem extract_self (e : Expr) (offset : Nat) : Refines s (.extract e offset e.width) e where
  typed := by
    rintro w ⟨rfl, typed, -⟩
    exact typed
  value := by
    rintro w ⟨rfl, typed, pos, inside⟩ defined
    have start : offset = 0 := by omega
    subst start
    exact ⟨defined, by rw [Expr.eval, setWidth_eq, extractLsb'_eq_self]⟩

theorem extract_constant (c : ConstantExpr) (offset width : Nat) :
    Refines s (.extract (.constant c) offset width) (.constant (c.Extract offset width)) where
  typed := fun typed => typed.1
  value := by
    rintro w ⟨rfl, typed, pos, inside⟩ -
    refine ⟨trivial, ?_⟩
    rw [Expr.eval, Expr.eval]
    apply eq_of_getLsbD_eq
    intro i below
    have inside : offset + width <= c.width := inside
    have within : offset + i < c.width := by omega
    simp [ConstantExpr.Extract, Expr.eval, Expr.width, below, within, getLsbD_sshiftRight]
    omega

variable {offset width : Nat}

theorem extract_concat_left (skips : r.width <= offset) :
    Refines s (.extract (.concat l r) offset width) (.extract l (offset - r.width) width) where
  typed := by
    rintro w ⟨same, typed, pos, inside⟩
    have inside : offset + width <= l.width + r.width := inside
    exact ⟨same, typed.1, pos, by omega⟩
  value := by
    rintro w ⟨rfl, typed, pos, inside⟩ defined
    refine ⟨defined.1, eq_of_getLsbD_eq fun i below => ?_⟩
    have inside : offset + width <= l.width + r.width := inside
    have within : offset + i < (Expr.concat l r).width := by show _ < l.width + r.width; omega
    rw [Expr.getLsbD_extract below below, Expr.getLsbD_extract below below,
      Expr.getLsbD_concat within, if_neg (by omega)]
    congr 1
    omega

theorem extract_concat_right (skips : offset + width <= r.width) :
    Refines s (.extract (.concat l r) offset width) (.extract r offset width) where
  typed := by
    rintro w ⟨same, typed, pos, -⟩
    exact ⟨same, typed.2.1, pos, skips⟩
  value := by
    rintro w ⟨rfl, typed, pos, -⟩ defined
    refine ⟨defined.2, eq_of_getLsbD_eq fun i below => ?_⟩
    have within : offset + i < (Expr.concat l r).width := by show _ < l.width + r.width; omega
    rw [Expr.getLsbD_extract below below, Expr.getLsbD_extract below below,
      Expr.getLsbD_concat within, if_pos (by omega)]

theorem extract_concat_span (right : offset < r.width) (left : r.width < offset + width) :
    Refines s (.extract (.concat l r) offset width)
      (.concat (.extract l 0 (width + offset - r.width))
        (.extract r offset (r.width - offset))) where
  typed := by
    rintro w ⟨rfl, typed, pos, inside⟩
    have inside : offset + width <= l.width + r.width := inside
    refine ⟨⟨rfl, typed.1, ?_, ?_⟩, ⟨rfl, typed.2.1, ?_, ?_⟩, ?_⟩
    · omega
    · omega
    · omega
    · omega
    · show width + offset - r.width + (r.width - offset) = width
      omega
  value := by
    rintro w ⟨rfl, typed, pos, inside⟩ defined
    refine ⟨defined, eq_of_getLsbD_eq fun i below => ?_⟩
    have inside : offset + width <= l.width + r.width := inside
    have within : offset + i < (Expr.concat l r).width := by show _ < l.width + r.width; omega
    have sideWidth : (Expr.extract r offset (r.width - offset)).width = r.width - offset := rfl
    have otherWidth : (Expr.extract l 0 (width + offset - r.width)).width =
      width + offset - r.width := rfl
    rw [Expr.getLsbD_extract below below, Expr.getLsbD_concat below, Expr.getLsbD_concat within,
      sideWidth, otherWidth]
    by_cases low : i < r.width - offset
    · rw [if_pos low, if_pos (by omega), Expr.getLsbD_extract low low]
    · have short : i - (r.width - offset) < width + offset - r.width := by omega
      rw [if_neg low, if_neg (by omega), Expr.getLsbD_extract short short]
      congr 1
      omega

theorem concat_constants (cl cr : ConstantExpr) :
    Refines s (.concat (.constant cl) (.constant cr)) (.constant (cl.Concat cr)) where
  typed := fun typed => typed.2.2
  value := by
    rintro w ⟨-, -, rfl⟩ -
    refine ⟨trivial, ?_⟩
    rw [Expr.eval, Expr.eval, Expr.eval, Expr.eval]
    show (cl.value ++ cr.value).setWidth _ =
      (cl.value.setWidth cl.width ++ cr.value.setWidth cr.width).setWidth _
    rw [setWidth_eq, setWidth_eq]

theorem concat_extracts (e : Expr) (offset wl wr : Nat) :
    Refines s (.concat (.extract e (offset + wr) wl) (.extract e offset wr))
      (.extract e offset (wl + wr)) where
  typed := by
    rintro w ⟨⟨-, -, pos, inside⟩, ⟨-, typed, -⟩, sum⟩
    exact ⟨sum, typed, Nat.add_pos_left pos wr, by omega⟩
  value := by
    rintro w ⟨⟨-, -, pos, inside⟩, ⟨-, typed, -⟩, sum⟩ defined
    have sum : wl + wr = w := sum
    subst sum
    refine ⟨defined.1, eq_of_getLsbD_eq fun i below => ?_⟩
    have lowWidth : (Expr.extract e offset wr).width = wr := rfl
    have highWidth : (Expr.extract e (offset + wr) wl).width = wl := rfl
    rw [Expr.getLsbD_extract below below, Expr.getLsbD_concat below, lowWidth, highWidth]
    by_cases low : i < wr
    · rw [if_pos low, Expr.getLsbD_extract low low]
    · have short : i - wr < wl := by omega
      rw [if_neg low, Expr.getLsbD_extract short short]
      congr 1
      omega

end Refines

/-! ## Constructors -/

theorem ConcatExpr.fold_refines (l r : Expr) : Refines s (.concat l r) (ConcatExpr.fold l r) := by
  unfold ConcatExpr.fold
  split
  · rename_i cl cr left right
    rw [Expr.eq_of_asConstant left, Expr.eq_of_asConstant right]
    exact Refines.concat_constants cl cr
  · exact Refines.refl _

theorem contiguousExtracts_refines {l r e : Expr} {start : Nat}
    (contiguous : contiguousExtracts l r = some (e, start)) :
    Refines s (.concat l r) (.extract e start (l.width + r.width)) := by
  rcases contiguousExtracts_eq contiguous with ⟨wl, wr, rfl, rfl⟩
  exact Refines.concat_extracts e start wl wr

theorem ExtractExpr.createBounded_refines (e : Expr) (offset w : Nat) :
    Refines s (.extract e offset w) (ExtractExpr.createBounded e offset w).result := by
  fun_induction ExtractExpr.createBounded e offset w with
  | case1 e offset => exact Refines.extract_self e offset
  | case2 offset w c => exact Refines.extract_constant c offset w
  | case3 offset w l r skips _ ih =>
    exact (Refines.extract_concat_left skips).trans ih
  | case4 offset w l r _ skips _ ih =>
    exact (Refines.extract_concat_right skips).trans ih
  | case5 offset w l r right left high low e start contiguous _ highIH lowIH mergedIH =>
    have parts := (Refines.extract_concat_span (not_le.mp right) (not_le.mp left)).trans
      (highIH.concat lowIH)
    exact (parts.trans (contiguousExtracts_refines contiguous)).trans mergedIH
  | case6 offset w l r right left high low _ _ highIH lowIH =>
    have parts := (Refines.extract_concat_span (not_le.mp right) (not_le.mp left)).trans
      (highIH.concat lowIH)
    exact parts.trans (ConcatExpr.fold_refines _ _)
  | case7 offset w e => exact Refines.refl _

theorem ExtractExpr.create_refines (e : Expr) (offset w : Nat) :
    Refines s (.extract e offset w) (ExtractExpr.create e offset w) :=
  ExtractExpr.createBounded_refines e offset w

theorem ConcatExpr.create_refines (l r : Expr) :
    Refines s (.concat l r) (ConcatExpr.create l r) := by
  unfold ConcatExpr.create
  split
  · rename_i contiguous
    exact (contiguousExtracts_refines contiguous).trans (ExtractExpr.create_refines _ _ _)
  · exact ConcatExpr.fold_refines l r

/-! ## Casts -/

theorem NotExpr.create_refines (e : Expr) : Refines s (.not e) (NotExpr.create e) := by
  unfold NotExpr.create
  split
  · rename_i c constant
    rw [Expr.eq_of_asConstant constant]
    refine ⟨id, fun {w} typed _ => ⟨trivial, ?_⟩⟩
    cases (show c.width = w from typed)
    show (~~~c.value).setWidth _ = ~~~(c.value.setWidth _)
    rw [setWidth_eq, setWidth_eq]
  · exact Refines.refl _

theorem ZExtExpr.create_refines (e : Expr) (w : Nat) :
    Refines s (.zext e w) (ZExtExpr.create e w) := by
  unfold ZExtExpr.create
  by_cases same : w = e.width
  · rw [if_pos same]
    subst same
    refine ⟨?_, ?_⟩
    · rintro w ⟨rfl, typed, -⟩
      exact typed
    · rintro w ⟨rfl, typed, -⟩ defined
      exact ⟨defined, by rw [Expr.eval, setWidth_eq, setWidth_eq]⟩
  · rw [if_neg same]
    by_cases narrow : w < e.width
    · refine ⟨?_, ?_⟩
      · rintro v ⟨-, -, wider⟩
        omega
      · rintro v ⟨-, -, wider⟩
        omega
    · rw [if_neg narrow]
      split
      · rename_i c constant
        rw [Expr.eq_of_asConstant constant]
        refine ⟨fun typed => typed.1, ?_⟩
        rintro v ⟨rfl, -, -⟩ -
        refine ⟨trivial, ?_⟩
        show (c.value.setWidth w).setWidth w = ((c.value.setWidth c.width).setWidth w).setWidth w
        rw [setWidth_eq c.value]
      · exact Refines.refl _

theorem SExtExpr.create_refines (e : Expr) (w : Nat) :
    Refines s (.sext e w) (SExtExpr.create e w) := by
  unfold SExtExpr.create
  by_cases same : w = e.width
  · rw [if_pos same]
    subst same
    refine ⟨?_, ?_⟩
    · rintro w ⟨rfl, typed, -⟩
      exact typed
    · rintro w ⟨rfl, typed, -⟩ defined
      exact ⟨defined, by rw [Expr.eval, setWidth_eq, BitVec.signExtend_eq]⟩
  · rw [if_neg same]
    by_cases narrow : w < e.width
    · refine ⟨?_, ?_⟩
      · rintro v ⟨-, -, wider⟩
        omega
      · rintro v ⟨-, -, wider⟩
        omega
    · rw [if_neg narrow]
      split
      · rename_i c constant
        rw [Expr.eq_of_asConstant constant]
        refine ⟨fun typed => typed.1, ?_⟩
        rintro v ⟨rfl, -, -⟩ -
        refine ⟨trivial, ?_⟩
        show (c.value.signExtend w).setWidth w =
          ((c.value.setWidth c.width).signExtend w).setWidth w
        rw [setWidth_eq c.value]
      · exact Refines.refl _

end Klee
end LlvmProject
