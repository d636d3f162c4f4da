import LlvmProject.Transforms.GlobalLayout

namespace LlvmProject

open Option SortedPairs

open List hiding Disjoint
namespace GlobalLayoutBuilder

/-!
# Layouts of sequences of sets

Every fragment is moved as a whole, so what was inside one fragment stays inside one, in the
same order.  If smaller sets come first and no two sets overlap properly, a fragment consists
of one of the sets.
-/

section Add

variable {NumObjects i : Nat} {this next : GlobalLayoutBuilder} {F : Finset Nat}

theorem mem_inOrder : i ∈ inOrder F ↔ i ∈ F := Finset.mem_sort (· <= ·)

/-- A set is gathered into the new fragment, and the map is brought up to date. -/
theorem addFragment_spec (valid : this.Valid NumObjects) (small : ∀ i ∈ F, i < NumObjects) :
    ∃ next, this.addFragment F = some next ∧ next.Valid NumObjects ∧
      Gathered this (inOrder F) next.Fragments := by
  have start := gathered_start this
  rcases start.run valid (fun i mem => small i (mem_inOrder.mp mem))
      (Finset.sort_nodup F (· <= ·)) with ⟨Fragments, ran, gathered⟩
  rw [nil_append] at gathered
  have newest : this.Fragments.length < Fragments.length := by
    rw [gathered.length]
    exact Nat.lt_succ_self _
  have content : Fragments[this.Fragments.length]? =
      some (fragment Fragments this.Fragments.length) := by
    rw [fragment, getElem?_eq_getElem newest]
    rfl
  have added : this.addFragment F = some ⟨Fragments,
      (fragment Fragments this.Fragments.length).foldl
        (fun map ObjIndex => map.set ObjIndex this.Fragments.length) this.FragmentMap⟩ := by
    rw [addFragment, ran]
    simp only [bind_eq_bind, bind_some, content]
    rfl
  refine ⟨_, added, ?_, gathered⟩
  have entries (i : Nat) := getElem?_foldl_set (fragment Fragments this.Fragments.length)
    this.FragmentMap this.Fragments.length i
  have inMap : ∀ i ∈ fragment Fragments this.Fragments.length, i < this.FragmentMap.length := by
    intro i mem
    rcases (gathered.members i).mp mem with ⟨_, isThere⟩ | ⟨k, isThere, _⟩
    · exact (List.getElem?_eq_some_iff.mp isThere).1
    · exact (List.getElem?_eq_some_iff.mp isThere).1
  refine ⟨(length_foldl_set _ _ _).trans valid.length, fun i k isThere => ?_, fun i k => ?_,
    fun k => ?_⟩
  · rw [entries] at isThere
    split at isThere
    · rw [<- some.inj isThere]
      exact newest
    · exact (valid.within i k isThere).trans newest
  · rw [entries]
    by_cases latest : k = this.Fragments.length
    · rw [latest]
      by_cases mem : i ∈ fragment Fragments this.Fragments.length
      · rw [if_pos ⟨mem, inMap i mem⟩]
        refine iff_of_true mem ⟨rfl, fun empty => ?_⟩
        rcases (gathered.members i).mp mem with ⟨_, isThere⟩ | ⟨k, isThere, _⟩ <;>
        · have bound := valid.within i _ isThere
          omega
      · rw [if_neg fun both => mem both.1]
        refine iff_of_false mem fun both => ?_
        exact absurd (valid.within i _ both.1) (lt_irrefl _)
    · by_cases mem : i ∈ fragment Fragments this.Fragments.length
      · rw [if_pos ⟨mem, inMap i mem⟩]
        refine iff_of_false (fun inOther => ?_) fun both => latest (some.inj both.1).symm
        by_cases touched : Touched this.FragmentMap (inOrder F) k
        · rw [gathered.moved k latest touched] at inOther
          exact absurd inOther not_mem_nil
        · rw [gathered.kept k latest touched, valid.linked] at inOther
          rcases (gathered.members i).mp mem with ⟨_, zero⟩ | ⟨other, isThere, isTouched⟩
          · rw [inOther.1, some.injEq] at zero
            exact inOther.2 zero
          · rw [inOther.1, some.injEq] at isThere
            exact touched (isThere ▸ isTouched)
      · rw [if_neg fun both => mem both.1, <- valid.linked]
        by_cases touched : Touched this.FragmentMap (inOrder F) k
        · rw [gathered.moved k latest touched]
          refine iff_of_false not_mem_nil fun inOld => mem ?_
          exact (gathered.members i).mpr (.inr ⟨k, ((valid.linked i k).mp inOld).1, touched⟩)
        · rw [gathered.kept k latest touched]
  · by_cases latest : k = this.Fragments.length
    · rw [latest]
      exact gathered.nodup
    · by_cases touched : Touched this.FragmentMap (inOrder F) k
      · change (fragment Fragments k).Nodup
        rw [gathered.moved k latest touched]
        exact nodup_nil
      · change (fragment Fragments k).Nodup
        rw [gathered.kept k latest touched]
        exact valid.nodup k

section

variable (gathered : Gathered this (inOrder F) next.Fragments)
include gathered

/-- The members of the set are in the new fragment. -/
theorem Gathered.covers
    (valid : this.Valid NumObjects) (small : ∀ i ∈ F, i < NumObjects) (mem : i ∈ F) :
    i ∈ fragment next.Fragments this.Fragments.length := by
  have inMap : i < this.FragmentMap.length := by
    rw [valid.length]
    exact small i mem
  have inDone : i ∈ inOrder F := mem_inOrder.mpr mem
  have found : this.FragmentMap[i]? = some this.FragmentMap[i] := getElem?_eq_getElem inMap
  rw [gathered.members]
  by_cases unseen : this.FragmentMap[i] = 0
  · rw [unseen] at found
    exact .inl ⟨inDone, found⟩
  · exact .inr ⟨_, found, unseen, i, inDone, found⟩

/-- What is inside a fragment stays inside one, in the same order. -/
theorem Gathered.carries
    (k : Nat) : ∃ k' < next.Fragments.length,
      fragment this.Fragments k <:+: fragment next.Fragments k' := by
  have newest : this.Fragments.length < next.Fragments.length := by
    rw [gathered.length]
    exact Nat.lt_succ_self _
  by_cases touched : Touched this.FragmentMap (inOrder F) k
  · exact ⟨this.Fragments.length, newest, gathered.blocks k touched⟩
  · by_cases older : k < this.Fragments.length
    · exact ⟨k, older.trans newest, by rw [gathered.kept k older.ne touched]⟩
    · have empty : fragment this.Fragments k = [] := by
        rw [fragment, getElem?_eq_none (Nat.le_of_not_lt older)]
        rfl
      rw [empty]
      exact ⟨this.Fragments.length, newest, nil_infix⟩

/-- The objects of the new fragment are those of the set and of the fragments it meets. -/
theorem Gathered.mem_newest
    (valid : this.Valid NumObjects) (mem : i ∈ fragment next.Fragments this.Fragments.length) :
    i ∈ F ∨ ∃ k, i ∈ fragment this.Fragments k ∧ ∃ j ∈ F, j ∈ fragment this.Fragments k := by
  rcases (gathered.members i).mp mem with ⟨inDone, _⟩ | ⟨k, isThere, nonzero, j, inDone, found⟩
  · exact .inl (mem_inOrder.mp inDone)
  · exact .inr ⟨k, (valid.linked i k).mpr ⟨isThere, nonzero⟩, j, mem_inOrder.mp inDone,
      (valid.linked j k).mpr ⟨found, nonzero⟩⟩

theorem Gathered.older
    {k : Nat} (notNewest : k ≠ this.Fragments.length) (mem : i ∈ fragment next.Fragments k) :
    fragment next.Fragments k = fragment this.Fragments k := by
  by_cases touched : Touched this.FragmentMap (inOrder F) k
  · rw [gathered.moved k notNewest touched] at mem
    exact absurd mem not_mem_nil
  · exact gathered.kept k notNewest touched

end

end Add

/-! ## Sequences of sets -/

/-- What holds after some sets are added. -/
structure Laid (NumObjects : Nat) (sets : List (Finset Nat)) (this : GlobalLayoutBuilder) :
    Prop where
  valid : this.Valid NumObjects
  seen : ∀ i, (∃ k, i ∈ fragment this.Fragments k) ↔ ∃ s ∈ sets, i ∈ s
  together : ∀ s ∈ sets, ∃ k < this.Fragments.length, ∀ i ∈ s, i ∈ fragment this.Fragments k

/-- Every fragment consists of one of the sets, and every set is a block of a fragment. -/
structure Nested (sets : List (Finset Nat)) (this : GlobalLayoutBuilder) : Prop where
  whole : ∀ i k, i ∈ fragment this.Fragments k ->
    ∃ s ∈ sets, ∀ j, j ∈ fragment this.Fragments k ↔ j ∈ s
  blocks : ∀ s ∈ sets, ∃ k block, block <:+: fragment this.Fragments k ∧ ∀ i, i ∈ block ↔ i ∈ s

section Sequences

variable {NumObjects : Nat} {sets : List (Finset Nat)} {this next : GlobalLayoutBuilder}
  {F : Finset Nat}

theorem Laid.step (laid : Laid NumObjects sets this) (small : ∀ i ∈ F, i < NumObjects)
    (valid : next.Valid NumObjects) (gathered : Gathered this (inOrder F) next.Fragments) :
    Laid NumObjects (sets ++ [F]) next := by
  refine ⟨valid, fun i => ?_, fun s mem => ?_⟩
  · simp only [mem_append, mem_singleton]
    constructor
    · rintro ⟨k, inside⟩
      have before : (∃ k, i ∈ fragment this.Fragments k) -> ∃ s, (s ∈ sets ∨ s = F) ∧ i ∈ s := by
        intro old
        rcases (laid.seen i).mp old with ⟨s, mem, inSet⟩
        exact ⟨s, .inl mem, inSet⟩
      by_cases latest : k = this.Fragments.length
      · rw [latest] at inside
        rcases gathered.mem_newest laid.valid inside with isNew | ⟨old, inOld, _⟩
        · exact ⟨F, .inr rfl, isNew⟩
        · exact before ⟨old, inOld⟩
      · rw [gathered.older latest inside] at inside
        exact before ⟨k, inside⟩
    · rintro ⟨s, mem | rfl, inSet⟩
      · rcases (laid.seen i).mpr ⟨s, mem, inSet⟩ with ⟨k, inside⟩
        rcases gathered.carries k with ⟨k', _, part⟩
        exact ⟨k', part.subset inside⟩
      · exact ⟨_, gathered.covers laid.valid small inSet⟩
  · rcases mem_append.mp mem with old | isNew
    · rcases laid.together s old with ⟨k, _, all⟩
      rcases gathered.carries k with ⟨k', within, part⟩
      exact ⟨k', within, fun i inSet => part.subset (all i inSet)⟩
    · rw [mem_singleton.mp isNew]
      refine ⟨this.Fragments.length, ?_, fun i inSet => gathered.covers laid.valid small inSet⟩
      rw [gathered.length]
      exact Nat.lt_succ_self _

theorem Nested.step (nested : Nested sets this) (laid : Laid NumObjects sets this)
    (small : ∀ i ∈ F, i < NumObjects) (gathered : Gathered this (inOrder F) next.Fragments)
    (laminar : ∀ s ∈ sets, s.card <= F.card ∧ (s ⊆ F ∨ F ⊆ s ∨ Disjoint s F)) :
    Nested (sets ++ [F]) next := by
  -- A smaller set that meets the new one is a part of it.
  have part : ∀ s ∈ sets, ∀ j ∈ F, j ∈ s -> s ⊆ F := by
    intro s mem j inNew inSet
    rcases (laminar s mem).2 with inside | outside | apart
    · exact inside
    · exact (Finset.eq_of_subset_of_card_le outside (laminar s mem).1).superset
    · exact absurd inNew (Finset.disjoint_left.mp apart inSet)
  have newest : ∀ i, i ∈ fragment next.Fragments this.Fragments.length ↔ i ∈ F := by
    intro i
    refine ⟨fun inside => ?_, gathered.covers laid.valid small⟩
    rcases gathered.mem_newest laid.valid inside with isNew | ⟨k, inOld, j, inNew, common⟩
    · exact isNew
    · rcases nested.whole i k inOld with ⟨s, mem, same⟩
      exact part s mem j inNew ((same j).mp common) ((same i).mp inOld)
  refine ⟨fun i k inside => ?_, fun s mem => ?_⟩
  · by_cases latest : k = this.Fragments.length
    · exact ⟨F, mem_append_right sets mem_cons_self, fun j => latest ▸ newest j⟩
    · have same := gathered.older latest inside
      rw [same] at inside ⊢
      rcases nested.whole i k inside with ⟨s, mem, equal⟩
      exact ⟨s, mem_append_left _ mem, equal⟩
  · rcases mem_append.mp mem with old | isNew
    · rcases nested.blocks s old with ⟨k, block, isBlock, equal⟩
      rcases gathered.carries k with ⟨k', _, inside⟩
      exact ⟨k', block, isBlock.trans inside, equal⟩
    · rw [mem_singleton.mp isNew]
      exact ⟨_, _, infix_rfl, newest⟩

theorem Laid.run {rest : List (Finset Nat)} (laid : Laid NumObjects sets this)
    (small : ∀ s ∈ rest, ∀ i ∈ s, i < NumObjects) :
    ∃ result, rest.foldlM addFragment this = some result ∧
      Laid NumObjects (sets ++ rest) result ∧
      (Nested sets this -> (sets ++ rest).Pairwise
        (fun s t => s.card <= t.card ∧ (s ⊆ t ∨ t ⊆ s ∨ Disjoint s t)) ->
        Nested (sets ++ rest) result) := by
  induction rest generalizing sets this with
  | nil =>
    rw [append_nil]
    exact ⟨this, rfl, laid, fun nested _ => nested⟩
  | cons F rest ih =>
    have smallF := small F mem_cons_self
    rcases addFragment_spec laid.valid smallF with ⟨next, added, valid, gathered⟩
    rcases ih (laid.step smallF valid gathered)
        (fun s mem => small s (mem_cons_of_mem F mem)) with
      ⟨result, ran, laidResult, nestedResult⟩
    have regroup : sets ++ F :: rest = (sets ++ [F]) ++ rest := by simp
    refine ⟨result, ?_, ?_, fun nested laminar => ?_⟩
    · rw [foldlM_cons, added]
      exact ran
    · rw [regroup]
      exact laidResult
    · have first : ∀ s ∈ sets, s.card <= F.card ∧ (s ⊆ F ∨ F ⊆ s ∨ Disjoint s F) :=
        fun s mem => (pairwise_append.mp laminar).2.2 s mem F mem_cons_self
      rw [regroup] at laminar ⊢
      exact nestedResult (nested.step laid smallF gathered first) laminar

theorem laid_new (NumObjects : Nat) : Laid NumObjects [] (new NumObjects) := by
  refine ⟨new_valid NumObjects, fun i => ?_, fun s mem => absurd mem not_mem_nil⟩
  refine iff_of_false ?_ fun ⟨s, mem, _⟩ => absurd mem not_mem_nil
  rintro ⟨k, inside⟩
  have both := ((new_valid NumObjects).linked i k).mp inside
  exact both.2 (eq_of_mem_replicate (mem_of_getElem? both.1))

theorem nested_new (NumObjects : Nat) : Nested [] (new NumObjects) := by
  refine ⟨fun i k inside => ?_, fun s mem => absurd mem not_mem_nil⟩
  rcases ((laid_new NumObjects).seen i).mp ⟨k, inside⟩ with ⟨s, mem, _⟩
  exact absurd mem not_mem_nil

end Sequences

/-- The layout has every object of the sets exactly once and no others, and every set is inside
one fragment.  If smaller sets come first and no two of them overlap properly, every set is a
block of the layout. -/
theorem addFragments_layout (NumObjects : Nat) (sets : List (Finset Nat))
    (small : ∀ s ∈ sets, ∀ i ∈ s, i < NumObjects) :
    ∃ result, addFragments NumObjects sets = some result ∧
      (∀ i, result.Fragments.flatten.count i = if ∃ s ∈ sets, i ∈ s then 1 else 0) ∧
      (∀ s ∈ sets, ∃ Fragment ∈ result.Fragments, ∀ i ∈ s, i ∈ Fragment) ∧
      (sets.Pairwise (fun s t => s.card <= t.card ∧ (s ⊆ t ∨ t ⊆ s ∨ Disjoint s t)) ->
        ∀ s ∈ sets, ∃ block, block <:+: result.Fragments.flatten ∧ ∀ i, i ∈ block ↔ i ∈ s) := by
  rcases (laid_new NumObjects).run small with ⟨result, ran, laid, nestedResult⟩
  rw [nil_append] at laid nestedResult
  refine ⟨result, ran, fun i => ?_, fun s mem => ?_, fun laminar s mem => ?_⟩
  · have nodup : result.Fragments.flatten.Nodup := by
      refine flatten_nodup laid.valid.nodup fun i j k inFirst inSecond => ?_
      have first := ((laid.valid.linked i j).mp inFirst).1
      have second := ((laid.valid.linked i k).mp inSecond).1
      exact some.inj (first.symm.trans second)
    have members : i ∈ result.Fragments.flatten ↔ ∃ s ∈ sets, i ∈ s :=
      mem_flatten_iff.trans (laid.seen i)
    by_cases seen : ∃ s ∈ sets, i ∈ s
    · rw [if_pos seen]
      exact count_eq_one_of_mem nodup (members.mpr seen)
    · rw [if_neg seen]
      exact count_eq_zero.mpr fun inside => seen (members.mp inside)
  · rcases laid.together s mem with ⟨k, within, all⟩
    refine ⟨result.Fragments[k], getElem_mem within, fun i inSet => ?_⟩
    have inside := all i inSet
    rwa [fragment, getElem?_eq_getElem within] at inside
  · rcases (nestedResult (nested_new NumObjects) laminar).blocks s mem with
      ⟨k, block, isBlock, same⟩
    exact ⟨block, isBlock.trans (fragment_contiguous k), same⟩

theorem addFragments_layout_nested :
    ∃ result, addFragments 5 [{2}, {0, 2}, {1, 3}] = some result ∧
      ∃ block, block <:+: result.Fragments.flatten ∧
        ∀ i, i ∈ block ↔ i ∈ ({0, 2} : Finset Nat) := by
  rcases addFragments_layout 5 [{2}, {0, 2}, {1, 3}] (by decide) with
    ⟨result, added, _, _, contiguous⟩
  exact ⟨result, added, contiguous (by decide) {0, 2} (by decide)⟩

end GlobalLayoutBuilder
end LlvmProject
