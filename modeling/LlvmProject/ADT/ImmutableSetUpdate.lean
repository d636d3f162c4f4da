import LlvmProject.ADT.ImmutableSetNodes

namespace LlvmProject

open Option

namespace ImmutableSet

/-!
# Insertion and removal in the memory

`balanceTree`, `add_internal` and `remove_internal` build, in the memory, the
tree that the operation on search trees of the same name gives.  Each one only
adds nodes, so that the trees they start from are still there.
-/

open RelaxedAVL

variable {β : Type}

namespace ImutAVLFactory

variable {s s' : ImutAVLFactory β} {old live live' : Finset Addr} {a : Addr} {n : ImutAVLTree β}
  {L R T : TreePtr} {l r t : AVLTree β}

/-! ## Building on top of what was built -/

/-- The operation succeeds, and the tree that it gives is built. -/
def Builds (s : ImutAVLFactory β) (old live : Finset Addr)
    (result : Option (TreePtr × ImutAVLFactory β)) (t : AVLTree β) : Prop :=
  ∃ T s' live', result = some (T, s') ∧ Grows s s' old live live' ∧ Built s' old live' T t

theorem Grows.createNode (grows : Grows s s' old live live') (leftUsable : s'.Usable old L)
    (rightUsable : s'.Usable old R) (V : β) (left : s'.Represents (s'.Region old) L l)
    (right : s'.Represents (s'.Region old) R r) :
    ∃ T s'' live'', s'.createNode L V R = some (T, s'') ∧ Grows s' s'' old live' live'' ∧
      Grows s s'' old live live'' ∧ Built s'' old live'' T (AVLTree.create l V r) := by
  rcases createNode_spec grows.working leftUsable rightUsable V left right with
    ⟨T, s'', live'', created, step, built⟩
  exact ⟨T, s'', live'', created, step, grows.trans step, built⟩

theorem Grows.createNodeFrom (grows : Grows s s' old live live') (alive : a ∈ live)
    (found : s.memory a = some n) (leftUsable : s'.Usable old L) (rightUsable : s'.Usable old R)
    (left : s'.Represents (s'.Region old) L l) (right : s'.Represents (s'.Region old) R r) :
    ∃ T s'' live'', s'.createNodeFrom L (some a) R = some (T, s'') ∧
      Grows s' s'' old live' live'' ∧ Grows s s'' old live live'' ∧
      Built s'' old live'' T (AVLTree.create l n.value r) := by
  rcases (grows.same a alive).exists found with ⟨n', found', core⟩
  injection core with _ _ _ _ value
  rw [createNodeFrom_eq found', <- value]
  exact grows.createNode leftUsable rightUsable n'.value left right

theorem getHeight_eq (found : s.memory a = some n) : s.getHeight (some a) = some n.height := by
  rw [ImutAVLFactory.getHeight, found]
  rfl

theorem deref_eq (found : s.memory a = some n) : s.deref (some a) = some n := found

/-! ## Balancing -/

section

variable (working : Working s old live)
include working

theorem balanceTree_left (rightUsable : s.Usable old R) (V : β) (left : s.Represents (s.Region old)
    L l) (right : s.Represents (s.Region old) R r) (high : r.getHeight + 2 < l.getHeight) :
    Builds s old live (s.balanceTree L V R) (AVLTree.rotateLeftChild l V r) := by
  cases l with
  | nil => exact absurd high (Nat.not_lt_zero _)
  | node ll lv h lr =>
    rcases left with ⟨a, n, ptr, inside, found, value, height, outer, inner⟩
    subst ptr value height
    have alive := working.region_live inside
    have outerUsable := outer.usable working alive found (Or.inl rfl)
    have innerUsable := inner.usable working alive found (Or.inr rfl)
    have tall : n.height > r.getHeight + 2 := high
    have refl := Grows.refl working
    simp only [balanceTree, getHeight_eq found, right.getHeight, deref_eq found,
      outer.getHeight, inner.getHeight, bind_eq_bind, bind_some, if_pos tall]
    by_cases single : lr.getHeight <= ll.getHeight
    · rcases refl.createNode innerUsable rightUsable V inner right with
        ⟨T, s₁, live₁, created₁, step₁, grows₁, built₁⟩
      rcases grows₁.createNodeFrom alive found (outerUsable.grow working grows₁) built₁.usable
        (outer.grow working grows₁) built₁.represents with
        ⟨U, s₂, live₂, created₂, step₂, grows₂, built₂⟩
      refine ⟨U, s₂, live₂, ?_, grows₂, ?_⟩
      · simp only [if_pos (show ll.getHeight >= lr.getHeight from single), created₁,
          bind_some, created₂]
      · simp only [AVLTree.rotateLeftChild, if_pos single]
        exact built₂
    · cases lr with
      | nil => exact absurd (Nat.zero_le _) single
      | node lrl lrv lrh lrr =>
        rcases inner with ⟨b, m, ptr, insideB, foundB, value, height, first, second⟩
        subst value height
        have aliveB := working.region_live insideB
        have firstUsable := first.usable working aliveB foundB (Or.inl rfl)
        have secondUsable := second.usable working aliveB foundB (Or.inr rfl)
        rcases refl.createNodeFrom alive found outerUsable firstUsable outer first with
          ⟨T, s₁, live₁, created₁, step₁, grows₁, built₁⟩
        rcases grows₁.createNode (secondUsable.grow working grows₁)
          (rightUsable.grow working grows₁) V (second.grow working grows₁)
          (right.grow working grows₁) with
          ⟨U, s₂, live₂, created₂, step₂, grows₂, built₂⟩
        rcases grows₂.createNodeFrom aliveB foundB
          (built₁.usable.grow grows₁.working step₂) built₂.usable
          (built₁.represents.grow grows₁.working step₂) built₂.represents with
          ⟨W, s₃, live₃, created₃, step₃, grows₃, built₃⟩
        refine ⟨W, s₃, live₃, ?_, grows₃, ?_⟩
        · simp only [if_neg (show ¬ll.getHeight >= AVLTree.getHeight (.node lrl _ _ lrr) from
              single),
            ptr, deref_eq foundB, bind_some, created₁, created₂,
            created₃]
        · rw [AVLTree.rotateLeftChild, if_neg single]
          exact built₃

theorem balanceTree_right (leftUsable : s.Usable old L) (V : β) (left : s.Represents (s.Region old)
    L l) (right : s.Represents (s.Region old) R r) (high : l.getHeight + 2 < r.getHeight) :
    Builds s old live (s.balanceTree L V R) (AVLTree.rotateRightChild l V r) := by
  cases r with
  | nil => exact absurd high (Nat.not_lt_zero _)
  | node rl rv h rr =>
    rcases right with ⟨a, n, ptr, inside, found, value, height, inner, outer⟩
    subst ptr value height
    have alive := working.region_live inside
    have innerUsable := inner.usable working alive found (Or.inl rfl)
    have outerUsable := outer.usable working alive found (Or.inr rfl)
    have tall : n.height > l.getHeight + 2 := high
    have notLeft : ¬l.getHeight > n.height + 2 := by omega
    have refl := Grows.refl working
    simp only [balanceTree, getHeight_eq found, left.getHeight, deref_eq found, outer.getHeight,
      inner.getHeight, bind_eq_bind, bind_some, if_neg notLeft, if_pos tall]
    by_cases single : rl.getHeight <= rr.getHeight
    · rcases refl.createNode leftUsable innerUsable V left inner with
        ⟨T, s₁, live₁, created₁, step₁, grows₁, built₁⟩
      rcases grows₁.createNodeFrom alive found built₁.usable (outerUsable.grow working grows₁)
        built₁.represents (outer.grow working grows₁) with
        ⟨U, s₂, live₂, created₂, step₂, grows₂, built₂⟩
      refine ⟨U, s₂, live₂, ?_, grows₂, ?_⟩
      · simp only [if_pos (show rr.getHeight >= rl.getHeight from single), created₁,
          bind_some, created₂]
      · simp only [AVLTree.rotateRightChild, if_pos single]
        exact built₂
    · cases rl with
      | nil => exact absurd (Nat.zero_le _) single
      | node rll rlv rlh rlr =>
        rcases inner with ⟨b, m, ptr, insideB, foundB, value, height, first, second⟩
        subst value height
        have aliveB := working.region_live insideB
        have firstUsable := first.usable working aliveB foundB (Or.inl rfl)
        have secondUsable := second.usable working aliveB foundB (Or.inr rfl)
        rcases refl.createNode leftUsable firstUsable V left first with
          ⟨T, s₁, live₁, created₁, step₁, grows₁, built₁⟩
        rcases grows₁.createNodeFrom alive found (secondUsable.grow working grows₁)
          (outerUsable.grow working grows₁) (second.grow working grows₁)
          (outer.grow working grows₁) with
          ⟨U, s₂, live₂, created₂, step₂, grows₂, built₂⟩
        rcases grows₂.createNodeFrom aliveB foundB
          (built₁.usable.grow grows₁.working step₂) built₂.usable
          (built₁.represents.grow grows₁.working step₂) built₂.represents with
          ⟨W, s₃, live₃, created₃, step₃, grows₃, built₃⟩
        refine ⟨W, s₃, live₃, ?_, grows₃, ?_⟩
        · simp only [if_neg (show ¬rr.getHeight >= AVLTree.getHeight (.node rll _ _ rlr) from
              single),
            ptr, deref_eq foundB, bind_some, created₁, created₂,
            created₃]
        · rw [AVLTree.rotateRightChild, if_neg single]
          exact built₃

theorem balanceTree_spec (leftUsable : s.Usable old L) (rightUsable : s.Usable old R)
    (V : β) (left : s.Represents (s.Region old) L l) (right : s.Represents (s.Region old) R r) :
    Builds s old live (s.balanceTree L V R) (AVLTree.balance l V r) := by
  rw [AVLTree.balance]
  by_cases leftHigh : r.getHeight + 2 < l.getHeight
  · rw [if_pos leftHigh]
    exact balanceTree_left working rightUsable V left right leftHigh
  · rw [if_neg leftHigh]
    by_cases rightHigh : l.getHeight + 2 < r.getHeight
    · rw [if_pos rightHigh]
      exact balanceTree_right working leftUsable V left right rightHigh
    · rw [if_neg rightHigh]
      have plain : s.balanceTree L V R = s.createNode L V R := by
        simp only [balanceTree, left.getHeight, right.getHeight, bind_eq_bind,
          bind_some, if_neg (show ¬l.getHeight > r.getHeight + 2 from leftHigh),
          if_neg (show ¬r.getHeight > l.getHeight + 2 from rightHigh)]
      rw [plain]
      exact createNode_spec working leftUsable rightUsable V left right

end

theorem Grows.balanceTree (grows : Grows s s' old live live') (leftUsable : s'.Usable old L)
    (rightUsable : s'.Usable old R) (V : β) (left : s'.Represents (s'.Region old) L l)
    (right : s'.Represents (s'.Region old) R r) :
    ∃ T s'' live'', s'.balanceTree L V R = some (T, s'') ∧ Grows s s'' old live live'' ∧
      Built s'' old live'' T (AVLTree.balance l V r) := by
  rcases balanceTree_spec grows.working leftUsable rightUsable V left right with
    ⟨T, s'', live'', balanced, step, built⟩
  exact ⟨T, s'', live'', balanced, grows.trans step, built⟩

/-- A result that becomes the left subtree of a balanced node. -/
theorem Builds.balanceLeft {result : Option (TreePtr × ImutAVLFactory β)}
    (builds : Builds s old live result l) (working : Working s old live)
    (rightUsable : s.Usable old R) (V : β) (right : s.Represents (s.Region old) R r) :
    Builds s old live (result.bind fun (T, s) => s.balanceTree T V R) (AVLTree.balance l V r) := by
  rcases builds with ⟨T, s₁, live₁, rfl, grows, built⟩
  exact grows.balanceTree built.usable (rightUsable.grow working grows) V built.represents
    (right.grow working grows)

theorem Builds.balanceRight {result : Option (TreePtr × ImutAVLFactory β)}
    (builds : Builds s old live result r) (working : Working s old live)
    (leftUsable : s.Usable old L) (V : β) (left : s.Represents (s.Region old) L l) :
    Builds s old live (result.bind fun (T, s) => s.balanceTree L V T) (AVLTree.balance l V r) := by
  rcases builds with ⟨T, s₁, live₁, rfl, grows, built⟩
  exact grows.balanceTree (leftUsable.grow working grows) built.usable V
    (left.grow working grows) built.represents

/-! ## Old trees -/

section

variable (represents : s.Represents (· ∈ old) T t)
include represents

theorem Represents.region :
    s.Represents (s.Region old) T t :=
  represents.frame (fun a _ => SameNode.refl s a) fun _ isOld => .inl isOld

/-- An old subtree as the result of an operation. -/
theorem Represents.built (working : Working s old live)
    (usable : s.Usable old T) : Built s old live T t where
  represents := represents.region
  usable := usable
  root := by
    intro a ptr isCreated
    exact absurd (ptr ▸ represents).inside (working.created a isCreated).2.1

/-- An old subtree of an old node may become part of a new node. -/
theorem Represents.usable_old (working : Working s old live) (parent : a ∈ old)
    (found : s.memory a = some n) (link : n.left = T ∨ n.right = T) : s.Usable old T :=
  represents.region.usable working (working.guarded.subset parent) found link

end

/-! ## The operations -/

/-- `removeMinBinding` takes the least node out of an old tree. -/
theorem removeMinBinding_spec (working : Working s old live) {v : β} {h fuel : Nat}
    (represents : s.Represents (· ∈ old) T (.node l v h r)) (usable : s.Usable old T)
    (balanced : (AVLTree.node l v h r).Balanced) (enough : h <= fuel) :
    ∃ T' a m s' live', s.removeMinBinding fuel T = some (T', some a, s') ∧ a ∈ old ∧
      s.memory a = some m ∧ m.value = (AVLTree.removeMin l v r).2 ∧ Grows s s' old live live' ∧
      Built s' old live' T' (AVLTree.removeMin l v r).1 := by
  induction l generalizing T v h r fuel with
  | nil =>
    rcases represents with ⟨a, n, ptr, isOld, found, value, height, left, right⟩
    subst ptr
    cases fuel with
    | zero => exact absurd enough (Nat.not_le_of_gt balanced.height_pos)
    | succ fuel =>
      refine ⟨n.right, a, n, s, live, ?_, isOld, found, value, Grows.refl working,
        right.built working (right.usable_old working isOld found (.inr rfl))⟩
      simp only [removeMinBinding, deref_eq found, bind_eq_bind, bind_some,
        if_pos (represents_nil.mp left)]
  | node ll lv lh lr leftHyp _ =>
    rcases represents with ⟨a, n, ptr, isOld, found, value, height, left, right⟩
    subst ptr
    cases fuel with
    | zero => exact absurd enough (Nat.not_le_of_gt balanced.height_pos)
    | succ fuel =>
      have exactHeight := balanced.2.2.1
      rw [AVLTree.getHeight_node] at exactHeight
      have leftUsable := left.usable_old working isOld found (.inl rfl)
      have rightUsable := right.usable_old working isOld found (.inr rfl)
      rcases leftHyp left leftUsable balanced.1 (show lh <= fuel by omega) with
        ⟨T', b, m, s₁, live₁, removed, isOldB, foundB, valueB, grows₁, built₁⟩
      rcases grows₁.balanceTree built₁.usable (rightUsable.grow working grows₁) v
        built₁.represents (right.region.grow working grows₁) with
        ⟨U, s₂, live₂, rebuilt, grows₂, built₂⟩
      have notLeaf : n.left ≠ none := by
        rcases left with ⟨c, _, pointerC, _⟩
        rw [pointerC]
        exact some_ne_none c
      refine ⟨U, b, m, s₂, live₂, ?_, isOldB, foundB, valueB, grows₂, built₂⟩
      simp only [removeMinBinding, deref_eq found, bind_eq_bind, bind_some,
        if_neg notLeaf, removed, value, rebuilt]

/-- `combineTrees` joins the two subtrees of an old node. -/
theorem combineTrees_spec (working : Working s old live) {fuel : Nat}
    (left : s.Represents (· ∈ old) L l) (right : s.Represents (· ∈ old) R r) (leftUsable : s.Usable
    old L) (rightUsable : s.Usable old R) (balanced : r.Balanced) (enough : r.getHeight <= fuel) :
    Builds s old live (s.combineTrees fuel L R) (AVLTree.combine l r) := by
  cases l with
  | nil =>
    refine ⟨R, s, live, ?_, Grows.refl working, right.built working rightUsable⟩
    rw [combineTrees, if_pos (represents_nil.mp left)]
  | node ll lv lh lr =>
    have leftFull : L ≠ none := by
      rcases left with ⟨a, _, ptr, _⟩
      rw [ptr]
      exact some_ne_none a
    cases r with
    | nil =>
      refine ⟨L, s, live, ?_, Grows.refl working, left.built working leftUsable⟩
      rw [combineTrees, if_neg leftFull, if_pos (represents_nil.mp right)]
    | node rl rv rh rr =>
      have rightFull : R ≠ none := by
        rcases right with ⟨a, _, ptr, _⟩
        rw [ptr]
        exact some_ne_none a
      rcases removeMinBinding_spec working right rightUsable balanced enough with
        ⟨T', b, m, s₁, live₁, removed, isOldB, foundB, valueB, grows₁, built₁⟩
      rcases (grows₁.same b (working.guarded.subset isOldB)).exists foundB with
        ⟨m', foundB', core⟩
      injection core with _ _ _ _ valueSame
      rcases grows₁.balanceTree (leftUsable.grow working grows₁) built₁.usable m'.value
        (left.region.grow working grows₁) built₁.represents with
        ⟨U, s₂, live₂, rebuilt, grows₂, built₂⟩
      refine ⟨U, s₂, live₂, ?_, grows₂, ?_⟩
      · simp only [combineTrees, if_neg leftFull, if_neg rightFull, removed,
          bind_eq_bind, bind_some, deref_eq foundB', rebuilt]
      · rw [AVLTree.combine, <- valueB, <- valueSame]
        exact built₂

section Search

variable {κ : Type} [LinearOrder κ] (KeyOfValue : β -> κ)

theorem add_internal_spec (working : Working s old live) (V : β) {fuel : Nat} (represents :
    s.Represents (· ∈ old) T t) (balanced : t.Balanced) (enough : t.getHeight <= fuel) :
    Builds s old live (s.add_internal KeyOfValue V fuel T) (t.add KeyOfValue V) := by
  induction t generalizing T fuel with
  | nil =>
    rw [represents_nil] at represents
    subst represents
    have nothing : s.Usable old none := by
      intro a ptr
      cases ptr
    rcases createNode_spec working nothing nothing V (l := .nil) (r := .nil) rfl rfl with
      ⟨T', s', live', created, grows, built⟩
    refine ⟨T', s', live', ?_, grows, built⟩
    rw [<- created]
    cases fuel <;> rfl
  | node l w h r leftHyp rightHyp =>
    rcases represents with ⟨a, n, ptr, isOld, found, value, height, left, right⟩
    subst ptr value
    cases fuel with
    | zero => exact absurd enough (Nat.not_le_of_gt balanced.height_pos)
    | succ fuel =>
      have exactHeight := balanced.2.2.1
      rw [AVLTree.getHeight_node] at enough
      have leftUsable := left.usable_old working isOld found (.inl rfl)
      have rightUsable := right.usable_old working isOld found (.inr rfl)
      have asserted := working.immutable a isOld n found
      simp only [add_internal, found, bind_eq_bind, bind_some, asserted,
        Bool.false_eq_true, if_false, AVLTree.add]
      split
      · exact createNode_spec working leftUsable rightUsable V left.region right.region
      · split
        · exact (leftHyp left balanced.1 (show l.getHeight <= fuel by omega)).balanceLeft working
            rightUsable n.value right.region
        · exact (rightHyp right balanced.2.1 (show r.getHeight <= fuel by omega)).balanceRight
              working
            leftUsable n.value left.region

/-- `remove_internal` builds the tree without the key; the root of an old tree is
returned only when it has an old parent. -/
theorem remove_internal_spec (working : Working s old live) (K : κ) {fuel : Nat} (represents :
    s.Represents (· ∈ old) T t) (balanced : t.Balanced) (enough : t.getHeight <= fuel) :
    Builds s old live (s.remove_internal KeyOfValue K fuel T) (t.remove KeyOfValue K) := by
  induction t generalizing T fuel with
  | nil =>
    rw [represents_nil] at represents
    subst represents
    have nothing : s.Usable old none := by
      intro a ptr
      cases ptr
    have empty : s.Represents (· ∈ old) none .nil := rfl
    refine ⟨none, s, live, ?_, Grows.refl working, empty.built working nothing⟩
    cases fuel <;> rfl
  | node l w h r leftHyp rightHyp =>
    rcases represents with ⟨a, n, ptr, isOld, found, value, height, left, right⟩
    subst ptr value
    cases fuel with
    | zero => exact absurd enough (Nat.not_le_of_gt balanced.height_pos)
    | succ fuel =>
      have exactHeight := balanced.2.2.1
      rw [AVLTree.getHeight_node] at enough
      have leftUsable := left.usable_old working isOld found (.inl rfl)
      have rightUsable := right.usable_old working isOld found (.inr rfl)
      have asserted := working.immutable a isOld n found
      simp only [remove_internal, found, bind_eq_bind, bind_some, asserted,
        Bool.false_eq_true, if_false, AVLTree.remove]
      split
      · exact combineTrees_spec working left right leftUsable rightUsable balanced.2.1
          (by omega)
      · split
        · exact (leftHyp left balanced.1 (show l.getHeight <= fuel by omega)).balanceLeft working
            rightUsable n.value right.region
        · exact (rightHyp right balanced.2.1 (show r.getHeight <= fuel by omega)).balanceRight
              working
            leftUsable n.value left.region

end Search

end ImutAVLFactory
end ImmutableSet
end LlvmProject
