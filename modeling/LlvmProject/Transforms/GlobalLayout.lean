import LlvmProject.Library.SortedPairs

namespace LlvmProject

open List Option

/-!
# The layout of globals for bit sets

A layout is assembled from fragments.  A new fragment takes the members of a set one by one:
a member that no fragment has is appended, and for one that a fragment has, the whole content
of that fragment is moved.  The map from members to fragments is only brought up to date
afterwards, so further members of a fragment that was moved find it empty.
-/

structure GlobalLayoutBuilder where
  /-- The computed layout. -/
  Fragments : List (List Nat)
  /-- Mapping from object index to fragment index, zero for an object that was not seen. -/
  FragmentMap : List Nat

namespace GlobalLayoutBuilder

def new (NumObjects : Nat) : GlobalLayoutBuilder := ⟨[[]], replicate NumObjects 0⟩

/-- One round of the loop over the members of a set; `none` for an index that is out of bounds. -/
def appendObject (FragmentMap : List Nat) (FragmentIndex : Nat) (Fragments : List (List Nat))
    (ObjIndex : Nat) : Option (List (List Nat)) := do
  let OldFragmentIndex <- FragmentMap[ObjIndex]?
  if OldFragmentIndex = 0 then
    -- We haven't seen this object index before, so just add it to the current fragment.
    return Fragments.modify FragmentIndex (· ++ [ObjIndex])
  else
    let OldFragment <- Fragments[OldFragmentIndex]?
    return (Fragments.modify FragmentIndex (· ++ OldFragment)).set OldFragmentIndex []

/-- Add a set to the layout while trying to keep its indices contiguous. -/
def addFragment (this : GlobalLayoutBuilder) (F : Finset Nat) : Option GlobalLayoutBuilder := do
  let FragmentIndex := this.Fragments.length
  let Fragments <- (SortedPairs.inOrder F).foldlM (appendObject this.FragmentMap FragmentIndex)
    (this.Fragments ++ [[]])
  let Fragment <- Fragments[FragmentIndex]?
  return ⟨Fragments, Fragment.foldl (fun map ObjIndex => map.set ObjIndex FragmentIndex)
    this.FragmentMap⟩

/-- Add sets one after the other. -/
def addFragments (NumObjects : Nat) (sets : List (Finset Nat)) : Option GlobalLayoutBuilder :=
  sets.foldlM addFragment (new NumObjects)

/-! ## Fragments -/

/-- The content of a fragment. -/
def fragment (Fragments : List (List Nat)) (k : Nat) : List Nat := (Fragments[k]?).getD []

section Fragments

variable {Fragments : List (List Nat)} {k n : Nat} {content : List Nat}

theorem mem_flatten_iff {i : Nat} : i ∈ Fragments.flatten ↔ ∃ k, i ∈ fragment Fragments k := by
  rw [mem_flatten]
  constructor
  · rintro ⟨content, mem, inside⟩
    rcases mem_iff_getElem?.mp mem with ⟨k, isThere⟩
    exact ⟨k, by rwa [fragment, isThere]⟩
  · rintro ⟨k, inside⟩
    cases isThere : Fragments[k]? with
    | none =>
      rw [fragment, isThere] at inside
      exact absurd inside not_mem_nil
    | some content =>
      rw [fragment, isThere] at inside
      exact ⟨content, mem_of_getElem? isThere, inside⟩

theorem fragment_contiguous (k : Nat) : fragment Fragments k <:+: Fragments.flatten := by
  cases isThere : Fragments[k]? with
  | none =>
    rw [fragment, isThere]
    exact nil_infix
  | some content =>
    rw [fragment, isThere]
    rcases append_of_mem (mem_of_getElem? isThere) with ⟨before, after, rfl⟩
    refine ⟨before.flatten, after.flatten, ?_⟩
    rw [flatten_append, flatten_cons, append_assoc]
    rfl

theorem fragment_snoc (k : Nat) : fragment (Fragments ++ [[]]) k = fragment Fragments k := by
  rw [fragment, fragment, getElem?_append]
  split
  · rfl
  · rename_i outside
    rw [getElem?_eq_none (Nat.le_of_not_lt outside)]
    cases k - Fragments.length <;> rfl

theorem fragment_modify_self (within : n < Fragments.length) :
    fragment (Fragments.modify n (· ++ content)) n = fragment Fragments n ++ content := by
  simp [fragment, getElem?_eq_getElem within]

theorem fragment_modify_of_ne (ne : k ≠ n) :
    fragment (Fragments.modify n (· ++ content)) k = fragment Fragments k := by
  simp [fragment, Ne.symm ne]

theorem fragment_clear_self : fragment (Fragments.set k []) k = [] := by
  rw [fragment, getElem?_set_self']
  cases Fragments[k]? <;> rfl

theorem fragment_clear_of_ne (ne : k ≠ n) :
    fragment (Fragments.set k []) n = fragment Fragments n := by
  rw [fragment, fragment, getElem?_set_ne ne]

theorem flatten_nodup (each : ∀ k, (fragment Fragments k).Nodup)
    (apart : ∀ i j k, i ∈ fragment Fragments j -> i ∈ fragment Fragments k -> j = k) :
    Fragments.flatten.Nodup := by
  rw [nodup_flatten]
  constructor
  · intro content mem
    rcases mem_iff_getElem?.mp mem with ⟨k, isThere⟩
    have nodup := each k
    rwa [fragment, isThere] at nodup
  · rw [pairwise_iff_getElem]
    intro j k within within' less i inFirst inSecond
    have same := apart i j k (by rwa [fragment, getElem?_eq_getElem within])
      (by rwa [fragment, getElem?_eq_getElem within'])
    omega

end Fragments

/-! ## The map -/

/-- Assigning a fragment to members leaves the other ones alone. -/
theorem getElem?_foldl_set (content map : List Nat) (n i : Nat) :
    (content.foldl (fun map ObjIndex => map.set ObjIndex n) map)[i]? =
      if i ∈ content ∧ i < map.length then some n else map[i]? := by
  induction content generalizing map with
  | nil => simp
  | cons j content ih =>
    rw [foldl_cons, ih, length_set, getElem?_set]
    by_cases here : j = i
    · subst here
      by_cases within : j < map.length
      · simp [within]
      · simp [within]
    · simp [here, Ne.symm here]

theorem length_foldl_set (content map : List Nat) (n : Nat) :
    (content.foldl (fun map ObjIndex => map.set ObjIndex n) map).length = map.length := by
  induction content generalizing map with
  | nil => rfl
  | cons j content ih =>
    rw [foldl_cons, ih, length_set]

/-- The map tells for every object the fragment that has it. -/
structure Valid (NumObjects : Nat) (this : GlobalLayoutBuilder) : Prop where
  length : this.FragmentMap.length = NumObjects
  within : ∀ i k : Nat, this.FragmentMap[i]? = some k -> k < this.Fragments.length
  linked : ∀ i k : Nat, i ∈ fragment this.Fragments k ↔ this.FragmentMap[i]? = some k ∧ k ≠ 0
  nodup : ∀ k, (fragment this.Fragments k).Nodup

theorem new_valid (NumObjects : Nat) : (new NumObjects).Valid NumObjects where
  length := length_replicate
  within i k isThere := by
    have zero : k = 0 := eq_of_mem_replicate (mem_of_getElem? isThere)
    rw [zero]
    exact one_pos
  linked i k := by
    have empty : fragment (new NumObjects).Fragments k = [] := by
      rw [fragment, new]
      rcases k with _ | k <;> rfl
    rw [empty]
    refine iff_of_false not_mem_nil fun both => both.2 ?_
    exact eq_of_mem_replicate (mem_of_getElem? both.1)
  nodup k := by
    have empty : fragment (new NumObjects).Fragments k = [] := by
      rw [fragment, new]
      rcases k with _ | k <;> rfl
    rw [empty]
    exact nodup_nil

/-! ## The loop over the members of a set -/

/-- A member that was processed belongs to the fragment. -/
def Touched (FragmentMap done : List Nat) (k : Nat) : Prop :=
  k ≠ 0 ∧ ∃ j ∈ done, FragmentMap[j]? = some k

/-- What holds when some members of a set are processed. -/
structure Gathered (this : GlobalLayoutBuilder) (done : List Nat)
    (Fragments : List (List Nat)) : Prop where
  length : Fragments.length = this.Fragments.length + 1
  moved : ∀ k, k ≠ this.Fragments.length -> Touched this.FragmentMap done k ->
    fragment Fragments k = []
  kept : ∀ k, k ≠ this.Fragments.length -> ¬Touched this.FragmentMap done k ->
    fragment Fragments k = fragment this.Fragments k
  nodup : (fragment Fragments this.Fragments.length).Nodup
  members : ∀ i, i ∈ fragment Fragments this.Fragments.length ↔
    (i ∈ done ∧ this.FragmentMap[i]? = some 0) ∨
      ∃ k, this.FragmentMap[i]? = some k ∧ Touched this.FragmentMap done k
  blocks : ∀ k, Touched this.FragmentMap done k ->
    fragment this.Fragments k <:+: fragment Fragments this.Fragments.length

section Loop

variable {NumObjects : Nat} {this : GlobalLayoutBuilder} {done : List Nat}
  {Fragments : List (List Nat)} {j : Nat}

theorem touched_snoc {FragmentMap : List Nat} {k : Nat} :
    Touched FragmentMap (done ++ [j]) k ↔
      Touched FragmentMap done k ∨ (k ≠ 0 ∧ FragmentMap[j]? = some k) := by
  simp only [Touched, mem_append, mem_singleton]
  constructor
  · rintro ⟨nonzero, i, inDone | rfl, isThere⟩
    · exact .inl ⟨nonzero, i, inDone, isThere⟩
    · exact .inr ⟨nonzero, isThere⟩
  · rintro (⟨nonzero, i, inDone, isThere⟩ | ⟨nonzero, isThere⟩)
    · exact ⟨nonzero, i, .inl inDone, isThere⟩
    · exact ⟨nonzero, j, .inr rfl, isThere⟩

/-- One round of the loop. -/
theorem Gathered.step (gathered : Gathered this done Fragments) (valid : this.Valid NumObjects)
    (small : j < NumObjects) (fresh : j ∉ done) :
    ∃ next, appendObject this.FragmentMap this.Fragments.length Fragments j = some next ∧
      Gathered this (done ++ [j]) next := by
  have inMap : j < this.FragmentMap.length := by rwa [valid.length]
  have newest : this.Fragments.length < Fragments.length := by
    rw [gathered.length]
    exact Nat.lt_succ_self _
  have found : this.FragmentMap[j]? = some this.FragmentMap[j] := getElem?_eq_getElem inMap
  generalize this.FragmentMap[j] = old at found
  have before := valid.within j old found
  rw [appendObject, found]
  by_cases unseen : old = 0
  · subst unseen
    have same (k : Nat) : Touched this.FragmentMap (done ++ [j]) k ↔
        Touched this.FragmentMap done k := by
      rw [touched_snoc, or_iff_left]
      rintro ⟨nonzero, isThere⟩
      rw [found, some.injEq] at isThere
      exact nonzero isThere.symm
    have absent : j ∉ fragment Fragments this.Fragments.length := by
      rw [gathered.members]
      rintro (⟨inDone, _⟩ | ⟨k, isThere, nonzero, _⟩)
      · exact fresh inDone
      · rw [found, some.injEq] at isThere
        exact nonzero isThere.symm
    refine ⟨_, rfl, ?_, fun k older touched => ?_, fun k older untouched => ?_, ?_, fun i => ?_,
      fun k touched => ?_⟩
    · rw [length_modify, gathered.length]
    · rw [fragment_modify_of_ne older]
      exact gathered.moved k older ((same k).mp touched)
    · rw [fragment_modify_of_ne older]
      exact gathered.kept k older fun touched => untouched ((same k).mpr touched)
    · rw [fragment_modify_self newest]
      exact gathered.nodup.append (nodup_singleton j)
        (disjoint_singleton.mpr absent)
    · rw [fragment_modify_self newest, mem_append, gathered.members, mem_singleton]
      simp only [same, mem_append, mem_singleton]
      constructor
      · rintro ((seen | moved) | rfl)
        · exact .inl ⟨.inl seen.1, seen.2⟩
        · exact .inr moved
        · exact .inl ⟨.inr rfl, found⟩
      · rintro (⟨inDone | rfl, isThere⟩ | moved)
        · exact .inl (.inl ⟨inDone, isThere⟩)
        · exact .inr rfl
        · exact .inl (.inr moved)
    · rw [fragment_modify_self newest]
      exact (gathered.blocks k ((same k).mp touched)).trans (prefix_append _ _).isInfix
  · have older : old ≠ this.Fragments.length := ne_of_lt before
    have inRange : old < Fragments.length := before.trans newest
    have content : Fragments[old]? = some (fragment Fragments old) := by
      rw [fragment, getElem?_eq_getElem inRange]
      rfl
    have touches (k : Nat) : Touched this.FragmentMap (done ++ [j]) k ↔
        Touched this.FragmentMap done k ∨ k = old := by
      rw [touched_snoc, found, some.injEq]
      refine or_congr_right ⟨fun both => both.2.symm, ?_⟩
      rintro rfl
      exact ⟨unseen, rfl⟩
    -- What is moved is the old fragment, or nothing if it was moved before.
    have cases : (Touched this.FragmentMap done old ∧ fragment Fragments old = []) ∨
        (¬Touched this.FragmentMap done old ∧
          fragment Fragments old = fragment this.Fragments old) := by
      by_cases touched : Touched this.FragmentMap done old
      · exact .inl ⟨touched, gathered.moved old older touched⟩
      · exact .inr ⟨touched, gathered.kept old older touched⟩
    have latest : fragment ((Fragments.modify this.Fragments.length
        (· ++ fragment Fragments old)).set old []) this.Fragments.length =
        fragment Fragments this.Fragments.length ++ fragment Fragments old := by
      rw [fragment_clear_of_ne older, fragment_modify_self newest]
    simp only [bind_eq_bind, bind_some, if_neg unseen, content]
    refine ⟨_, rfl, ?_, fun k other touched => ?_, fun k other untouched => ?_, ?_, fun i => ?_,
      fun k touched => ?_⟩
    · rw [length_set, length_modify, gathered.length]
    · by_cases here : k = old
      · rw [here, fragment_clear_self]
      · rw [fragment_clear_of_ne (Ne.symm here), fragment_modify_of_ne other]
        exact gathered.moved k other (((touches k).mp touched).resolve_right here)
    · have notOld : k ≠ old := fun here => untouched ((touches k).mpr (.inr here))
      rw [fragment_clear_of_ne (Ne.symm notOld), fragment_modify_of_ne other]
      exact gathered.kept k other fun touched => untouched ((touches k).mpr (.inl touched))
    · rw [latest]
      rcases cases with ⟨_, empty⟩ | ⟨untouched, whole⟩
      · rw [empty, append_nil]
        exact gathered.nodup
      · rw [whole]
        refine gathered.nodup.append (valid.nodup old) fun i inNew inOld => ?_
        have isOld := ((valid.linked i old).mp inOld).1
        rcases (gathered.members i).mp inNew with ⟨_, zero⟩ | ⟨k, isThere, touched⟩
        · rw [isOld, some.injEq] at zero
          exact unseen zero
        · rw [isOld, some.injEq] at isThere
          exact untouched (isThere ▸ touched)
    · rw [latest, mem_append, gathered.members]
      simp only [touches, mem_append, mem_singleton]
      constructor
      · rintro ((⟨inDone, zero⟩ | ⟨k, isThere, touched⟩) | inOld)
        · exact .inl ⟨.inl inDone, zero⟩
        · exact .inr ⟨k, isThere, .inl touched⟩
        · rcases cases with ⟨_, empty⟩ | ⟨_, whole⟩
          · rw [empty] at inOld
            exact absurd inOld not_mem_nil
          · rw [whole] at inOld
            exact .inr ⟨old, ((valid.linked i old).mp inOld).1, .inr rfl⟩
      · rintro (⟨inDone | rfl, zero⟩ | ⟨k, isThere, touched | rfl⟩)
        · exact .inl (.inl ⟨inDone, zero⟩)
        · rw [found, some.injEq] at zero
          exact absurd zero unseen
        · exact .inl (.inr ⟨k, isThere, touched⟩)
        · rcases cases with ⟨touched, _⟩ | ⟨_, whole⟩
          · exact .inl (.inr ⟨k, isThere, touched⟩)
          · rw [whole]
            exact .inr ((valid.linked i k).mpr ⟨isThere, unseen⟩)
    · rw [latest]
      rcases (touches k).mp touched with earlier | rfl
      · exact (gathered.blocks k earlier).trans (prefix_append _ _).isInfix
      · rcases cases with ⟨earlier, _⟩ | ⟨_, whole⟩
        · exact (gathered.blocks k earlier).trans (prefix_append _ _).isInfix
        · rw [whole]
          exact (suffix_append _ _).isInfix

/-- The loop over the members. -/
theorem Gathered.run (gathered : Gathered this done Fragments) (valid : this.Valid NumObjects)
    {rest : List Nat} (small : ∀ i ∈ rest, i < NumObjects) (nodup : (done ++ rest).Nodup) :
    ∃ next, rest.foldlM (appendObject this.FragmentMap this.Fragments.length) Fragments =
      some next ∧ Gathered this (done ++ rest) next := by
  induction rest generalizing done Fragments with
  | nil =>
    rw [append_nil]
    exact ⟨Fragments, rfl, gathered⟩
  | cons j rest ih =>
    have fresh : j ∉ done := fun mem =>
      (nodup_append.mp nodup).2.2 j mem j mem_cons_self rfl
    rcases gathered.step valid (small j mem_cons_self) fresh with ⟨next, stepped, further⟩
    have regroup : done ++ j :: rest = (done ++ [j]) ++ rest := by simp
    rw [regroup] at nodup ⊢
    rw [foldlM_cons, stepped]
    exact ih further (fun i mem => small i (mem_cons_of_mem j mem))
      nodup

theorem gathered_start (this : GlobalLayoutBuilder) :
    Gathered this [] (this.Fragments ++ [[]]) := by
  have untouched (k : Nat) : ¬Touched this.FragmentMap [] k := by
    rintro ⟨_, j, mem, _⟩
    exact absurd mem not_mem_nil
  have empty : fragment this.Fragments this.Fragments.length = [] := by
    rw [fragment, getElem?_eq_none (le_refl _)]
    rfl
  refine ⟨?_, fun k _ touched => absurd touched (untouched k), fun k _ _ => fragment_snoc k, ?_,
    fun i => ?_, fun k touched => absurd touched (untouched k)⟩
  · rw [length_append, length_singleton]
  · rw [fragment_snoc, empty]
    exact nodup_nil
  · rw [fragment_snoc, empty]
    refine iff_of_false not_mem_nil ?_
    rintro (⟨mem, _⟩ | ⟨k, _, touched⟩)
    · exact absurd mem not_mem_nil
    · exact untouched k touched

end Loop

end GlobalLayoutBuilder
end LlvmProject
