import LlvmProject.ADT.ImmutableSetFinish

namespace LlvmProject

open List Option Function Finset

namespace ImmutableSet

/-!
# Runs of additions and removals

A session applies additions and removals to any tree obtained before; a set
object may also retain the root of a tree.  Each tree that it obtained is, at
every later time, a balanced search tree with the contents that the abstract map
had when the tree was obtained.
-/

open RelaxedAVL

variable {β κ : Type} [LinearOrder κ]

/-- A step of a session; a tree is given by its place among those obtained, and
any other place stands for the empty tree. -/
inductive Operation (β κ : Type) where
  | add (tree : Nat) (V : β)
  | remove (tree : Nat) (K : κ)
  | retain (tree : Nat)

/-- A factory and the roots of the trees obtained from it. -/
structure Session (β : Type) where
  factory : ImutAVLFactory β
  roots : List TreePtr

/-- The contents of a tree by key. -/
abbrev Contents (β κ : Type) := κ -> Option β

namespace Session

def initial : Session β := ⟨.empty, []⟩

def root (session : Session β) (tree : Nat) : TreePtr := session.roots.getD tree none

def step (KeyOfValue : β -> κ) (session : Session β) : Operation β κ -> Option (Session β)
  | .add tree V => do
    let (T, factory) <- session.factory.add KeyOfValue (session.root tree) V
    some ⟨factory, session.roots ++ [T]⟩
  | .remove tree K => do
    let (T, factory) <- session.factory.remove KeyOfValue (session.root tree) K
    some ⟨factory, session.roots ++ [T]⟩
  | .retain tree => do
    let factory <- session.factory.retain (session.root tree)
    some ⟨factory, session.roots⟩

def run (KeyOfValue : β -> κ) (operations : List (Operation β κ)) : Option (Session β) :=
  operations.foldlM (step KeyOfValue) initial

/-- What the trees obtained by a step should contain. -/
def expectedStep (KeyOfValue : β -> κ) (contents : List (Contents β κ)) :
    Operation β κ -> List (Contents β κ)
  | .add tree V => contents ++
      [update (contents.getD tree fun _ => none) (KeyOfValue V) (some V)]
  | .remove tree K => contents ++ [update (contents.getD tree fun _ => none) K none]
  | .retain _ => contents

def expected (KeyOfValue : β -> κ) (operations : List (Operation β κ)) : List (Contents β κ) :=
  operations.foldl (expectedStep KeyOfValue) []

/-- A balanced search tree with given contents. -/
structure SearchTree (KeyOfValue : β -> κ) (contents : Contents β κ) (t : AVLTree β) : Prop where
  balanced : t.Balanced
  ordered : t.Ordered KeyOfValue
  contents : ∀ v, v ∈ t.values ↔ contents (KeyOfValue v) = some v

/-- A root in the memory of a factory is that of a balanced search tree. -/
def Holds (KeyOfValue : β -> κ) (factory : ImutAVLFactory β) (p : TreePtr)
    (contents : Contents β κ) : Prop :=
  ∃ t, factory.Represents (fun _ => True) p t ∧ SearchTree KeyOfValue contents t

/-! ## Trees and their contents -/

variable {KeyOfValue : β -> κ} {c : Contents β κ} {t : AVLTree β}

theorem SearchTree.nil : SearchTree KeyOfValue (fun _ => none) .nil where
  balanced := AVLTree.balanced_nil
  ordered := Pairwise.nil
  contents := fun v => by
    rw [AVLTree.values_nil]
    exact ⟨fun mem => absurd mem not_mem_nil, fun found => by cases found⟩

theorem SearchTree.add (search : SearchTree KeyOfValue c t) (V : β) :
    SearchTree KeyOfValue (update c (KeyOfValue V) (some V)) (t.add KeyOfValue V) where
  balanced := (search.balanced.add V).1
  ordered := search.ordered.add V
  contents := by
    intro v
    rw [AVLTree.mem_values_add search.ordered, search.contents]
    by_cases same : KeyOfValue v = KeyOfValue V
    · rw [same, update_self, Option.some.injEq]
      constructor
      · rintro (isV | ⟨_, ne⟩)
        · exact isV.symm
        · exact absurd rfl ne
      · exact fun isV => .inl isV.symm
    · rw [update_of_ne same]
      constructor
      · rintro (isV | ⟨found, _⟩)
        · exact absurd (congrArg KeyOfValue isV) same
        · exact found
      · exact fun found => .inr ⟨found, same⟩

theorem SearchTree.remove (search : SearchTree KeyOfValue c t) (K : κ) :
    SearchTree KeyOfValue (update c K none) (t.remove KeyOfValue K) where
  balanced := (search.balanced.remove K).1
  ordered := search.ordered.remove K
  contents := by
    intro v
    rw [AVLTree.mem_values_remove search.ordered, search.contents]
    by_cases same : KeyOfValue v = K
    · rw [same, update_self]
      exact ⟨fun both => absurd rfl both.2, fun found => by cases found⟩
    · rw [update_of_ne same]
      exact and_iff_left same

/-! ## The invariant of a session -/

/-- The old nodes hold every tree obtained so far, and no operation is under way. -/
structure Sound (KeyOfValue : β -> κ) (session : Session β) (contents : List (Contents β κ))
    (old live : Finset Addr) : Prop where
  working : session.factory.Working old live
  finished : session.factory.createdNodes = []
  held : Forall₂ (fun p c => ∃ t, session.factory.Represents (· ∈ old) p t ∧
    SearchTree KeyOfValue c t) session.roots contents

/-- What a step keeps: the roots obtained before it and the trees below them. -/
structure Keeps (before after : Session β) : Prop where
  roots : before.roots <+: after.roots
  trees : ∀ p ∈ before.roots, ∀ t, before.factory.Represents (fun _ => True) p t ->
    after.factory.Represents (fun _ => True) p t

variable {session before after : Session β} {contents : List (Contents β κ)}
  {old live : Finset Addr}

theorem Keeps.refl (session : Session β) : Keeps session session :=
  ⟨prefix_refl _, fun _ _ _ rep => rep⟩

theorem Keeps.trans {last : Session β} (first : Keeps before after) (second : Keeps after last) :
    Keeps before last where
  roots := first.roots.trans second.roots
  trees := fun p mem t rep =>
    second.trees p (first.roots.subset mem) t (first.trees p mem t rep)

variable {factory : ImutAVLFactory β}

theorem represents_unique {within within' : Addr -> Prop} {p : TreePtr} {t t' : AVLTree β} (first :
    factory.Represents within p t) (second : factory.Represents within' p t') : t = t' := by
  induction t generalizing p t' with
  | nil =>
    rw [ImutAVLFactory.represents_nil] at first
    cases t' with
    | nil => rfl
    | node l v h r =>
      rcases second with ⟨a, n, ptr, -⟩
      rw [first] at ptr
      cases ptr
  | node l v h r leftHyp rightHyp =>
    rcases first with ⟨a, n, ptr, _, found, value, height, left, right⟩
    cases t' with
    | nil =>
      rw [ImutAVLFactory.represents_nil.mp second] at ptr
      cases ptr
    | node l' v' h' r' =>
      rcases second with ⟨a', n', ptr', _, found', value', height', left', right'⟩
      rw [ptr] at ptr'
      rw [<- Option.some.inj ptr', found] at found'
      rw [<- Option.some.inj found'] at value' height' left' right'
      rw [leftHyp left left', rightHyp right right', <- value, <- height, value', height']

theorem sound_initial : Sound KeyOfValue (initial : Session β) [] ∅ ∅ where
  working := {
    owned := {
      allocated := fun _ mem => absurd mem (notMem_empty _)
      freeAllocated := fun _ mem => absurd mem not_mem_nil
      freeDead := fun _ mem => absurd mem not_mem_nil
      freeNodup := nodup_nil
      node := fun _ mem => absurd mem (notMem_empty _)
      child := fun _ mem => absurd mem (notMem_empty _)
      pendingLive := fun _ mem => absurd mem not_mem_nil
      counted := fun _ mem => absurd mem (notMem_empty _) }
    guarded := ⟨Finset.Subset.refl _, fun _ mem => absurd mem (notMem_empty _)⟩
    immutable := fun _ mem => absurd mem (notMem_empty _)
    closed := fun _ mem => absurd mem (notMem_empty _)
    created := fun _ mem => absurd mem not_mem_nil }
  finished := rfl
  held := Forall₂.nil

theorem forall₂_getD {α γ : Type*} {R : α -> γ -> Prop} {xs : List α} {ys : List γ} {x : α} {y : γ}
    (related : Forall₂ R xs ys) (base : R x y) (i : Nat) : R (xs.getD i x) (ys.getD i y) := by
  induction related generalizing i with
  | nil => exact base
  | cons first _ ih =>
    cases i with
    | zero => exact first
    | succ i => exact ih i

theorem forall₂_exists {α γ : Type*} {R : α -> γ -> Prop} {xs : List α} {ys : List γ} {x : α}
    (related : Forall₂ R xs ys) (mem : x ∈ xs) : ∃ y, R x y := by
  induction related with
  | nil => cases mem
  | cons first _ ih =>
    rcases mem_cons.mp mem with same | rest
    · exact ⟨_, same ▸ first⟩
    · exact ih rest

theorem Sound.root (sound : Sound KeyOfValue session contents old live) (tree : Nat) :
    ∃ t, session.factory.Represents (· ∈ old) (session.root tree) t ∧
      SearchTree KeyOfValue (contents.getD tree fun _ => none) t := by
  have nothing : ∃ t : AVLTree β, session.factory.Represents (· ∈ old) none t ∧
      SearchTree KeyOfValue (fun _ => none) t := ⟨.nil, rfl, SearchTree.nil⟩
  exact forall₂_getD sound.held nothing tree

/-- The end of an addition or a removal, seen from the session. -/
theorem Sound.extend (sound : Sound KeyOfValue session contents old live) {T : TreePtr} {t : AVLTree
    β} {c : Contents β κ} {live₁ : Finset Addr} (grows : session.factory.Grows factory old live
    live₁) (built : factory.Built old live₁ T t) (search : SearchTree KeyOfValue c t) :
    ∃ factory' old' live', factory.finish T = some (T, factory') ∧
      Sound KeyOfValue ⟨factory', session.roots ++ [T]⟩ (contents ++ [c]) old' live' ∧
      Keeps session ⟨factory', session.roots ++ [T]⟩ := by
  rcases ImutAVLFactory.finish_spec grows.working built search.balanced with
    ⟨factory', old', live', finished, working, nothingCreated, wider, same, rep⟩
  have unchanged : ∀ a ∈ old, session.factory.SameNode factory' a := fun a isOld =>
    (grows.same a (sound.working.guarded.subset isOld)).trans (same a isOld)
  have keeps : ∀ p t, session.factory.Represents (· ∈ old) p t ->
      factory'.Represents (· ∈ old') p t := fun p t rep =>
    rep.frame unchanged fun a isOld => wider isOld
  refine ⟨factory', old', live', finished, ⟨working, nothingCreated, ?_⟩, ⟨prefix_append _ _, ?_⟩⟩
  · apply rel_append
    · exact sound.held.imp fun p c ⟨t, rep, search⟩ => ⟨t, keeps p t rep, search⟩
    · exact Forall₂.cons ⟨t, rep, search⟩ Forall₂.nil
  · intro p mem t representsAny
    rcases forall₂_exists sound.held mem with ⟨c, t', rep, -⟩
    rw [represents_unique representsAny rep]
    exact (keeps p t' rep).frame (fun a _ => ImutAVLFactory.SameNode.refl factory' a)
      fun _ _ => trivial

theorem represents_of_old {p : TreePtr} {t : AVLTree β}
    (rep : factory.Represents (· ∈ old) p t) : factory.Represents (fun _ => True) p t :=
  rep.frame (fun a _ => ImutAVLFactory.SameNode.refl factory a) fun _ _ => trivial

/-- Every step succeeds, gives the tree it should, and keeps the trees obtained before it. -/
theorem step_sound (sound : Sound KeyOfValue session contents old live) (op : Operation β κ) :
    ∃ session' old' live', step KeyOfValue session op = some session' ∧
      Sound KeyOfValue session' (expectedStep KeyOfValue contents op) old' live' ∧
      Keeps session session' := by
  cases op with
  | add tree V =>
    rcases sound.root tree with ⟨t, rep, search⟩
    rcases ImutAVLFactory.add_internal_spec KeyOfValue sound.working V
      rep search.balanced le_rfl with ⟨T, factory, live₁, added, grows, built⟩
    rcases sound.extend grows built (search.add V) with
      ⟨factory', old', live', finished, sound', keeps⟩
    refine ⟨_, old', live', ?_, sound', keeps⟩
    simp only [step, ImutAVLFactory.add, rep.getHeight, added, finished, bind_eq_bind, bind_some]
  | remove tree K =>
    rcases sound.root tree with ⟨t, rep, search⟩
    rcases ImutAVLFactory.remove_internal_spec KeyOfValue sound.working K
      rep search.balanced le_rfl with ⟨T, factory, live₁, removed, grows, built⟩
    rcases sound.extend grows built (search.remove K) with
      ⟨factory', old', live', finished, sound', keeps⟩
    refine ⟨_, old', live', ?_, sound', keeps⟩
    simp only [step, ImutAVLFactory.remove, rep.getHeight, removed, finished,
      bind_eq_bind, bind_some]
  | retain tree =>
    rcases sound.root tree with ⟨t, rep, -⟩
    have alive : ∀ c, session.root tree = some c -> c ∈ live := fun c ptr =>
      sound.working.guarded.subset (ptr ▸ rep).inside
    rcases ImutAVLFactory.retain_owned sound.working.owned alive with
      ⟨factory, retained, owned, same, _, _, _, created⟩
    have keeps : ∀ p t, session.factory.Represents (· ∈ old) p t ->
        factory.Represents (· ∈ old) p t := fun p t rep =>
      rep.frame (fun a _ => same a) fun _ isOld => isOld
    refine ⟨⟨factory, session.roots⟩, old, live, ?_, ⟨?_, ?_, ?_⟩, prefix_refl _, ?_⟩
    · simp only [step, retained, bind_eq_bind, bind_some]
    · exact sound.working.congr owned.forget (fun b _ => same b) created
    · exact created.trans sound.finished
    · exact sound.held.imp fun p c ⟨t, rep, search⟩ => ⟨t, keeps p t rep, search⟩
    · intro p _ t rep
      exact rep.frame (fun a _ => same a) fun _ _ => trivial

/-- A run succeeds, gives the trees it should, and keeps those it started with. -/
theorem run_sound (sound : Sound KeyOfValue session contents old live)
    (operations : List (Operation β κ)) :
    ∃ session' old' live', operations.foldlM (step KeyOfValue) session = some session' ∧
      Sound KeyOfValue session' (operations.foldl (expectedStep KeyOfValue) contents) old' live' ∧
      Keeps session session' := by
  induction operations generalizing session contents old live with
  | nil => exact ⟨session, old, live, rfl, sound, Keeps.refl session⟩
  | cons op operations ih =>
    rcases step_sound sound op with ⟨session₁, old₁, live₁, stepped, sound₁, keeps₁⟩
    rcases ih sound₁ with ⟨session₂, old₂, live₂, ran, sound₂, keeps₂⟩
    refine ⟨session₂, old₂, live₂, ?_, sound₂, keeps₁.trans keeps₂⟩
    rw [foldlM_cons, stepped]
    exact ran

/-- **Trees are persistent balanced search trees.**  Every run succeeds without a
failed assertion.  Each tree it obtained is a balanced search tree whose nodes
record their heights, with the contents expected of it, and every tree that an
initial part of the run obtained is still the same tree, node by node. -/
theorem run_persistent (KeyOfValue : β -> κ) (operations : List (Operation β κ)) :
    ∃ session, run KeyOfValue operations = some session ∧
      Forall₂ (Holds KeyOfValue session.factory) session.roots
        (expected KeyOfValue operations) ∧
      ∀ earlier later before, operations = earlier ++ later ->
        run KeyOfValue earlier = some before -> Keeps before session := by
  have start : Sound KeyOfValue (initial : Session β) [] ∅ ∅ := sound_initial
  rcases run_sound start operations with ⟨session, old, live, ran, sound, -⟩
  refine ⟨session, ran, ?_, ?_⟩
  · exact sound.held.imp fun p c ⟨t, rep, search⟩ =>
      ⟨t, represents_of_old rep, search⟩
  · intro earlier later before split ranBefore
    rcases run_sound start earlier with ⟨before', old₁, live₁, ran₁, sound₁, -⟩
    rw [run, ran₁] at ranBefore
    rw [<- Option.some.inj ranBefore]
    rcases run_sound sound₁ later with ⟨session', old₂, live₂, ran₂, -, keeps⟩
    rw [split, foldlM_append, ran₁, bind_eq_bind, bind_some, ran₂] at ran
    rw [<- Option.some.inj ran]
    exact keeps

/-- In every run the height that the root of a tree records is at most twice the
logarithm of the number of its keys. -/
theorem run_height_recorded (KeyOfValue : β -> κ) (operations : List (Operation β κ)) :
    ∃ session, run KeyOfValue operations = some session ∧
      Forall₂ (fun p (contents : Contents β κ) => ∃ height,
        session.factory.getHeight p = some height ∧ ∀ keys : Finset κ,
          (∀ k, contents k ≠ none -> k ∈ keys) -> 2 ^ height <= (keys.card + 1) ^ 2)
        session.roots (expected KeyOfValue operations) := by
  rcases run_sound (sound_initial : Sound KeyOfValue initial [] ∅ ∅) operations with
    ⟨session, old, live, ran, sound, -⟩
  refine ⟨session, ran, sound.held.imp fun p contents ⟨t, rep, search⟩ => ?_⟩
  refine ⟨t.getHeight, rep.getHeight, fun keys all => search.balanced.two_pow_height_le.trans ?_⟩
  have nodup : (t.values.map KeyOfValue).Nodup :=
    pairwise_map.mpr (search.ordered.imp fun less => less.ne)
  have within : (t.values.map KeyOfValue).toFinset ⊆ keys := by
    intro k mem
    rcases List.mem_map.mp (mem_toFinset.mp mem) with ⟨v, inTree, rfl⟩
    exact all _ (by rw [(search.contents v).mp inTree]; exact some_ne_none v)
  have count := card_le_card within
  rw [toFinset_card_of_nodup nodup, length_map] at count
  exact Nat.pow_le_pow_left (Nat.succ_le_succ count) 2

end Session
end ImmutableSet
end LlvmProject
