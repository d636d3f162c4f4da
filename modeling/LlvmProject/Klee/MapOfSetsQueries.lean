import LlvmProject.Klee.MapOfSets
import Mathlib.Data.List.TakeWhile

namespace LlvmProject

open List Option SortedPairs

namespace MapOfSets

/-!
# The queries of a map indexed by sets

Each query is a filtered list of the entries, or the first one of such a list.
The walks cut off children and elements early; the orders of the children and
of the elements make sure that nothing is lost.
-/

universe u v

variable {K : Type u} {V : Type v} [LinearOrder K]

/-- An entry with the elements that lead to its node. -/
def under (accum : Finset K) (entry : List K × V) : Finset K × V :=
  (accum ∪ entry.1.toFinset, entry.2)

theorem under_cons (key : K) (accum : Finset K) :
    (under accum ∘ fun entry : List K × V => (key :: entry.1, entry.2)) =
      under (insert key accum) := by
  funext entry
  simp [under]

variable {n child : Node K V} {children : List (K × Node K V)} {accum : Finset K}
  {key elt : K} {elements next : List K}

/-! ## Paths and elements -/

/-- The entries whose paths satisfy a condition, under some elements. -/
def select (cond : List K -> Prop) [DecidablePred cond] (accum : Finset K)
    (list : List (List K × V)) : List (Finset K × V) :=
  (list.filter fun entry => cond entry.1).map (under accum)

section Select

variable {cond cond' : List K -> Prop} [DecidablePred cond]
  [DecidablePred cond'] {list list' : List (List K × V)}

theorem select_append : select cond accum (list ++ list') =
    select cond accum list ++ select cond accum list' := by
  rw [select, filter_append, map_append]
  rfl

theorem select_congr (same : ∀ entry ∈ list, cond entry.1 ↔ cond' entry.1) :
    select cond accum list = select cond' accum list := by
  rw [select, select]
  congr 1
  exact filter_congr fun entry mem => decide_eq_decide.mpr (same entry mem)

theorem select_none (none : ∀ entry ∈ list, ¬cond entry.1) : select cond accum list = [] := by
  rw [select, filter_eq_nil_iff.mpr fun entry mem => by simpa using none entry mem, map_nil]

theorem select_cons (key : K) : select cond accum
      (list.map fun entry => (key :: entry.1, entry.2)) =
    select (fun path => cond (key :: path)) (insert key accum) list := by
  rw [select, List.filter_map, List.map_map, under_cons]
  rfl

theorem select_own : select cond accum (if n.isEndOfSet then [([], n.value)] else []) =
    if cond [] then result n accum else [] := by
  by_cases own : n.isEndOfSet = true
  · by_cases holds : cond []
    · simp [select, result, own, holds, under]
    · simp [select, own, holds]
  · simp [select, result, own]

end Select

/-! ## Subsets -/

theorem subset_cons_iff {list list' : List K} (above : ∀ k ∈ list, elt < k) :
    list ⊆ elt :: list' ↔ list ⊆ list' := by
  refine ⟨fun subset k mem => ?_, fun subset k mem => mem_cons_of_mem _ (subset mem)⟩
  exact (mem_cons.mp (subset mem)).resolve_left (ne_of_gt (above k mem))

/-- The children whose keys are above an element. -/
def Above (elt : K) (children : List (K × Node K V)) : Prop := ∀ pair ∈ children, elt < pair.1

theorem Above.path (above : Above elt children) (good : GoodBelow children)
    {entry : List K × V} (mem : entry ∈ entriesBelow children) : ∀ k ∈ entry.1, elt < k := by
  rcases mem_entriesBelow.mp mem with ⟨key, child, rest, here, inner, same⟩
  rw [same, forall_mem_cons]
  refine ⟨above _ here, fun k later => lt_trans (above _ here) ?_⟩
  exact (goodBelow_iff.mp good _ here).1.above _ inner k later

theorem select_below_subset (sorted : Sorted children) (good : GoodBelow children)
    (rest : List K) (beyond : ∀ k ∈ rest, elt < k) :
    select (· ⊆ elt :: rest) accum (entriesBelow children) =
      (match find elt children with
        | some child => select (· ⊆ rest) (insert elt accum) (entries child)
        | none => []) ++ select (· ⊆ rest) accum (entriesBelow children) := by
  induction children with
  | nil => rfl
  | cons pair children ih =>
    rcases pair with ⟨key, child⟩
    rcases pairwise_cons.mp sorted with ⟨above, sorted⟩
    rcases good with ⟨⟨fits, goodChild⟩, good⟩
    rw [entriesBelow, select_append, select_append, select_cons, select_cons, find]
    rcases lt_trichotomy key elt with below | rfl | beyondKey
    · have absent : key ∉ elt :: rest := by
        rw [mem_cons, not_or]
        exact ⟨ne_of_lt below, fun later => lt_asymm below (beyond key later)⟩
      have none : select (fun path => key :: path ⊆ elt :: rest) (insert key accum)
          (entries child) = [] :=
        select_none fun _ _ subset => absent (subset mem_cons_self)
      have none' : select (fun path => key :: path ⊆ rest) (insert key accum)
          (entries child) = [] :=
        select_none fun _ _ subset =>
          absent (mem_cons_of_mem elt (subset mem_cons_self))
      rw [if_neg (ne_of_lt below), ih sorted good, none, none']
      rfl
    · have absent : key ∉ rest := fun mem => lt_irrefl key (beyond key mem)
      have first : select (fun path => key :: path ⊆ key :: rest) (insert key accum)
          (entries child) = select (· ⊆ rest) (insert key accum) (entries child) := by
        refine select_congr fun entry mem => ?_
        rw [cons_subset, subset_cons_iff (fits.above entry mem)]
        exact and_iff_right mem_cons_self
      have others : select (· ⊆ key :: rest) accum (entriesBelow children) =
          select (· ⊆ rest) accum (entriesBelow children) :=
        select_congr fun entry mem => subset_cons_iff (Above.path above good mem)
      have none : select (fun path => key :: path ⊆ rest) (insert key accum)
          (entries child) = [] :=
        select_none fun _ _ subset => absent (subset mem_cons_self)
      rw [if_pos rfl, first, others, none]
      rfl
    · have absent : find elt children = none :=
        find_none_of_lt fun pair mem => lt_trans beyondKey (above pair mem)
      have first : select (fun path => key :: path ⊆ elt :: rest) (insert key accum)
          (entries child) = select (fun path => key :: path ⊆ rest) (insert key accum)
          (entries child) := by
        refine select_congr fun entry mem => subset_cons_iff ?_
        exact forall_mem_cons.mpr
          ⟨beyondKey, fun k later => lt_trans beyondKey (fits.above entry mem k later)⟩
      rw [if_neg (ne_of_gt beyondKey), ih sorted good, absent, first]
      rfl

theorem findSubsetsLoop_eq (good : Good n) (sorted : elements.Pairwise (· < ·)) :
    findSubsetsLoop n accum elements = select (· ⊆ elements) accum (entriesBelow n.children) := by
  induction elements generalizing n accum with
  | nil =>
    refine (select_none fun entry mem subset => ?_).symm
    exact ne_nil_of_mem_entriesBelow mem (subset_nil.mp subset)
  | cons elt rest ih =>
    rcases good_iff.mp good with ⟨sortedChildren, goodBelow⟩
    rcases pairwise_cons.mp sorted with ⟨beyond, sortedRest⟩
    rw [findSubsetsLoop, select_below_subset sortedChildren goodBelow rest beyond,
      ih good sortedRest]
    congr 1
    cases found : find elt n.children with
    | none => rfl
    | some child =>
      have goodChild := (goodBelow_iff.mp goodBelow _ (mem_of_find found)).2
      show result child _ ++ findSubsetsLoop child _ rest = select _ _ (entries child)
      rw [ih goodChild sortedRest, entries_eq, select_append, select_own, if_pos (nil_subset _)]

theorem findSubsets_eq (good : Good n) (sorted : elements.Pairwise (· < ·)) :
    findSubsets n accum elements = select (· ⊆ elements) accum (entries n) := by
  rw [findSubsets, findSubsetsLoop_eq good sorted, entries_eq, select_append, select_own,
    if_pos (nil_subset _)]

/-! ## Supersets -/

theorem cons_subset_cons_iff {path : List K} (beyond : ∀ k ∈ next, key < k) :
    key :: next ⊆ key :: path ↔ next ⊆ path := by
  rw [cons_subset, subset_cons_iff beyond]
  exact and_iff_right mem_cons_self

theorem select_all {list : List (List K × V)} :
    select ([] ⊆ ·) accum list = list.map (under accum) := by
  rw [select, filter_eq_self.mpr fun entry _ => decide_eq_true (nil_subset entry.1)]

mutual

theorem findSupersets_eq : ∀ (n : Node K V) (accum : Finset K) (elements : List K), Good n ->
    elements.Pairwise (· < ·) ->
    findSupersets n accum elements = select (elements ⊆ ·) accum (entries n)
  | .mk value isEndOfSet children, accum, [], good, _ => by
    rw [findSupersets, findSupersetsAll_eq children accum good.2, select_all, entries, map_append]
    congr 1
    cases isEndOfSet <;> simp [under]
  | .mk value isEndOfSet children, accum, elt :: next, good, increasing => by
    have own : select (elt :: next ⊆ ·) accum
        (if isEndOfSet then [(([] : List K), value)] else []) = [] := by
      refine select_none fun entry mem subset => ?_
      have empty : entry.1 = [] := by
        cases isEndOfSet with
        | true => exact congrArg Prod.fst (mem_singleton.mp mem)
        | false => exact absurd mem not_mem_nil
      rw [empty] at subset
      exact not_mem_nil (subset mem_cons_self)
    rw [findSupersets, findSupersetsTo_eq children accum elt next good.1 good.2 increasing,
      entries, select_append, own]
    rfl

theorem findSupersetsAll_eq : ∀ (children : List (K × Node K V)) (accum : Finset K),
    GoodBelow children ->
    findSupersetsAll children accum = (entriesBelow children).map (under accum)
  | [], _, _ => rfl
  | (key, child) :: rest, accum, good => by
    rw [findSupersetsAll, findSupersets_eq child _ [] good.1.2 List.Pairwise.nil,
      findSupersetsAll_eq rest accum good.2, entriesBelow, map_append, List.map_map,
      under_cons, select_all]

theorem findSupersetsTo_eq : ∀ (children : List (K × Node K V)) (accum : Finset K) (elt : K)
    (next : List K), Sorted children -> GoodBelow children ->
    (elt :: next).Pairwise (· < ·) ->
    findSupersetsTo children accum elt next = select (elt :: next ⊆ ·) accum (entriesBelow children)
  | [], _, _, _, _, _, _ => rfl
  | (key, child) :: rest, accum, elt, next, sorted, good, increasing => by
    rcases pairwise_cons.mp sorted with ⟨above, sorted⟩
    rcases pairwise_cons.mp increasing with ⟨beyond, increasingNext⟩
    have later := findSupersetsTo_eq rest accum elt next sorted good.2 increasing
    rw [findSupersetsTo, entriesBelow, select_append, select_cons]
    rcases lt_trichotomy key elt with below | rfl | beyondKey
    · have here := findSupersets_eq child (insert key accum) (elt :: next) good.1.2 increasing
      rw [if_neg (ne_of_gt below), if_pos below, here, later]
      congr 1
      refine select_congr fun entry _ => (subset_cons_iff ?_).symm
      exact forall_mem_cons.mpr ⟨below, fun k mem => lt_trans below (beyond k mem)⟩
    · have here := findSupersets_eq child (insert key accum) next good.1.2 increasingNext
      rw [if_pos rfl, here, later]
      congr 1
      exact select_congr fun entry _ => (cons_subset_cons_iff beyond).symm
    · rw [if_neg (ne_of_lt beyondKey), if_neg (lt_asymm beyondKey), select_none, select_none]
      · rfl
      · intro entry mem subset
        have higher : Above elt rest := fun pair here => lt_trans beyondKey (above pair here)
        exact lt_irrefl elt (higher.path good.2 mem elt (subset mem_cons_self))
      · intro entry mem subset
        rcases mem_cons.mp (subset mem_cons_self) with same | deeper
        · exact ne_of_lt beyondKey same
        · exact lt_asymm beyondKey (good.1.1.above entry mem elt deeper)

end

/-! ## First answers -/

/-- The value of the first entry whose path satisfies the condition and whose
value satisfies the predicate. -/
def first (cond : List K -> Prop) [DecidablePred cond] (p : V -> Bool)
    (list : List (List K × V)) : Option V :=
  (list.filter fun entry => cond entry.1 && p entry.2).head?.map Prod.snd

section First

variable {cond cond' : List K -> Prop} [DecidablePred cond]
  [DecidablePred cond'] {list list' : List (List K × V)} {p : V -> Bool}

omit [LinearOrder K] in
theorem first_append : first cond p (list ++ list') =
    (first cond p list).or (first cond p list') := by
  rw [first, first, first, filter_append, head?_append]
  cases (list.filter _).head? <;> rfl

omit [LinearOrder K] in
theorem first_congr (same : ∀ entry ∈ list, cond entry.1 ↔ cond' entry.1) :
    first cond p list = first cond' p list := by
  rw [first, first]
  congr 2
  refine filter_congr fun entry mem => ?_
  rw [decide_eq_decide.mpr (same entry mem)]

omit [LinearOrder K] in
theorem first_none (fails : ∀ entry ∈ list, ¬cond entry.1) : first cond p list = none := by
  rw [first, filter_eq_nil_iff.mpr fun entry mem => by simp [fails entry mem]]
  rfl

omit [LinearOrder K] in
theorem first_cons (key : K) : first cond p
      (list.map fun entry => (key :: entry.1, entry.2)) =
    first (fun path => cond (key :: path)) p list := by
  rw [first, first, List.filter_map, head?_map, Option.map_map]
  rfl

omit [LinearOrder K] in
theorem first_own {value : V} {isEndOfSet : Bool} :
    first cond p (if isEndOfSet then [([], value)] else []) =
      if cond [] ∧ (isEndOfSet && p value) = true then some value else none := by
  cases isEndOfSet <;> by_cases holds : cond [] <;> cases content : p value <;>
    simp [first, holds, content]

end First

theorem subset_dropWhile_iff {path elements : List K} (above : ∀ k ∈ path, key <= k) :
    path ⊆ elements.dropWhile (· < key) ↔ path ⊆ elements := by
  constructor
  · exact fun subset k mem => (dropWhile_sublist _).subset (subset mem)
  · intro subset k mem
    have there := subset mem
    rw [<- takeWhile_append_dropWhile (p := (· < key)) (l := elements)] at there
    refine (mem_append.mp there).resolve_left fun early => ?_
    have lower := mem_takeWhile_imp early
    exact not_lt_of_ge (above k mem) (by simpa using lower)

theorem Above.of_sorted (sorted : Sorted ((key, child) :: children)) :
    Above key children := (pairwise_cons.mp sorted).1

theorem path_ge (sorted : Sorted ((key, child) :: children))
    (good : GoodBelow ((key, child) :: children)) {entry : List K × V}
    (mem : entry ∈ entriesBelow ((key, child) :: children)) : ∀ k ∈ entry.1, key <= k := by
  intro k inPath
  rcases mem_append.mp mem with here | later
  · rcases List.mem_map.mp here with ⟨inner, inside, rfl⟩
    rcases mem_cons.mp inPath with rfl | deeper
    · exact le_rfl
    · exact le_of_lt (good.1.1.above inner inside k deeper)
  · exact le_of_lt ((Above.of_sorted sorted).path good.2 later k inPath)

mutual

theorem findSubsetFrom_eq (p : V -> Bool) : ∀ (n : Node K V) (elements : List K), Good n ->
    elements.Pairwise (· < ·) ->
    findSubsetFrom p n elements = first (· ⊆ elements) p (entries n)
  | .mk value isEndOfSet children, [], good, _ => by
    have none : first (· ⊆ []) p (entriesBelow children) = none :=
      first_none fun entry mem subset =>
        ne_nil_of_mem_entriesBelow mem (subset_nil.mp subset)
    rw [findSubsetFrom, entries, first_append, first_own, none]
    by_cases own : (isEndOfSet && p value) = true
    · rw [if_pos own, if_pos ⟨nil_subset _, own⟩]
      rfl
    · rw [if_neg own, if_neg fun both => own both.2]
      rfl
  | .mk value isEndOfSet children, elt :: next, good, increasing => by
    rw [findSubsetFrom, entries, first_append, first_own]
    by_cases own : (isEndOfSet && p value) = true
    · rw [if_pos own, if_pos ⟨nil_subset _, own⟩]
      rfl
    · rw [if_neg own, if_neg fun both => own both.2]
      exact findSubsetLoop_eq p children _ good.1 good.2 increasing

theorem findSubsetLoop_eq (p : V -> Bool) : ∀ (children : List (K × Node K V)) (elements : List K),
    Sorted children -> GoodBelow children -> elements.Pairwise (· < ·) ->
    findSubsetLoop p children elements = first (· ⊆ elements) p (entriesBelow children)
  | [], _, _, _, _ => rfl
  | (key, child) :: rest, elements, sorted, good, increasing => by
    have above := Above.of_sorted sorted
    have sortedRest := (pairwise_cons.mp sorted).2
    have dropped : first (· ⊆ elements) p (entriesBelow ((key, child) :: rest)) =
        first (· ⊆ elements.dropWhile (· < key)) p (entriesBelow ((key, child) :: rest)) := by
      exact first_congr fun entry mem =>
        (subset_dropWhile_iff (path_ge sorted good mem)).symm
    have increasing' := increasing.sublist (dropWhile_sublist (· < key))
    rw [findSubsetLoop, dropped]
    cases left : elements.dropWhile (· < key) with
    | nil =>
      refine (first_none fun entry mem subset => ?_).symm
      exact ne_nil_of_mem_entriesBelow mem (subset_nil.mp subset)
    | cons elt next =>
      rw [left] at increasing'
      rcases pairwise_cons.mp increasing' with ⟨beyond, increasingNext⟩
      rw [entriesBelow, first_append, first_cons]
      by_cases same : elt = key
      · subst same
        have here : first (fun path => elt :: path ⊆ elt :: next) p (entries child) =
            first (· ⊆ next) p (entries child) := by
          refine first_congr fun entry mem => ?_
          rw [cons_subset, subset_cons_iff (good.1.1.above entry mem)]
          exact and_iff_right mem_cons_self
        have later : first (· ⊆ elt :: next) p (entriesBelow rest) =
            first (· ⊆ next) p (entriesBelow rest) :=
          first_congr fun entry mem => subset_cons_iff (above.path good.2 mem)
        have inside := findSubsetFrom_eq p child next good.1.2 increasingNext
        rw [here, later, <- inside]
        show (if elt = elt then _ else _) = _
        rw [if_pos rfl]
        cases findSubsetFrom p child next with
        | some value => rfl
        | none =>
          cases next with
          | nil =>
            have done : first (· ⊆ []) p (entriesBelow rest) = none :=
              first_none fun entry mem subset =>
                ne_nil_of_mem_entriesBelow mem (subset_nil.mp subset)
            exact done.symm
          | cons elt' next =>
            exact findSubsetLoop_eq p rest _ sortedRest good.2 increasingNext
      · have notBelow : ¬elt < key := by
          have head := head?_dropWhile_not (· < key) elements
          rw [left] at head
          exact of_decide_eq_false head
        have below : key < elt := lt_of_le_of_ne (not_lt.mp notBelow) (Ne.symm same)
        have absent : key ∉ elt :: next := by
          rw [mem_cons, not_or]
          exact ⟨ne_of_lt below, fun later => lt_asymm below (beyond key later)⟩
        have nothing : first (fun path => key :: path ⊆ elt :: next) p (entries child) = none :=
          first_none fun _ _ subset => absent (subset mem_cons_self)
        rw [nothing]
        show (if elt = key then _ else _) = _
        rw [if_neg same]
        exact findSubsetLoop_eq p rest _ sortedRest good.2 increasing'

end

/-- An element below all keys is on no path. -/
theorem first_missing (part : List K -> List K) {list : List (List K × V)} {p : V -> Bool}
    (above : ∀ entry ∈ list, ∀ k ∈ part entry.1, elt < k) :
    first (fun path => elt :: next ⊆ part path) p list = none :=
  first_none fun entry mem subset =>
    lt_irrefl elt (above entry mem elt (subset mem_cons_self))

mutual

theorem findSupersetFrom_eq (p : V -> Bool) : ∀ (n : Node K V) (elements : List K), Good n ->
    elements.Pairwise (· < ·) ->
    findSupersetFrom p n elements = first (elements ⊆ ·) p (entries n)
  | .mk value isEndOfSet children, [], good, _ => by
    rw [findSupersetFrom, entries, first_append, first_own]
    by_cases own : (isEndOfSet && p value) = true
    · rw [if_pos own, if_pos ⟨nil_subset _, own⟩]
      rfl
    · rw [if_neg own, if_neg fun both => own both.2,
        findSupersetAll_eq p children [] good.2 List.Pairwise.nil, none_or]
      exact first_congr fun _ _ => iff_of_true (nil_subset _) (nil_subset _)
  | .mk value isEndOfSet children, elt :: next, good, increasing => by
    have own : ¬(elt :: next ⊆ [] ∧ (isEndOfSet && p value) = true) := fun both =>
      not_mem_nil (both.1 mem_cons_self)
    rw [findSupersetFrom, entries, first_append, first_own, if_neg own, none_or,
      <- findSupersetMid_eq p children elt next good.1 good.2 increasing]
    cases findSupersetAll p children (elt :: next) <;> rfl

/-- The loop over the children looks for all elements below their keys. -/
theorem findSupersetAll_eq (p : V -> Bool) : ∀ (children : List (K × Node K V)) (elements : List K),
    GoodBelow children -> elements.Pairwise (· < ·) ->
    findSupersetAll p children elements =
      first (fun path => elements ⊆ path.tail) p (entriesBelow children)
  | [], _, _, _ => rfl
  | (key, child) :: rest, elements, good, increasing => by
    have here := findSupersetFrom_eq p child elements good.1.2 increasing
    have later := findSupersetAll_eq p rest elements good.2 increasing
    rw [findSupersetAll, here, later, entriesBelow, first_append, first_cons]
    show _ = (first (fun path => elements ⊆ path) p (entries child)).or _
    cases first (fun path => elements ⊆ path) p (entries child) <;> rfl

/-- The child at `lower_bound` completes the loop over all children. -/
theorem findSupersetMid_eq (p : V -> Bool) : ∀ (children : List (K × Node K V)) (elt : K)
    (next : List K), Sorted children -> GoodBelow children ->
    (elt :: next).Pairwise (· < ·) ->
    (findSupersetAll p children (elt :: next)).or (findSupersetMid p children elt next) =
      first (elt :: next ⊆ ·) p (entriesBelow children)
  | [], _, _, _, _, _ => rfl
  | (key, child) :: rest, elt, next, sorted, good, increasing => by
    have above := Above.of_sorted sorted
    rcases pairwise_cons.mp increasing with ⟨beyond, increasingNext⟩
    have later := findSupersetMid_eq p rest elt next (pairwise_cons.mp sorted).2 good.2
      increasing
    have all := findSupersetAll_eq p ((key, child) :: rest) (elt :: next) good increasing
    have here := findSupersetFrom_eq p child (elt :: next) good.1.2 increasing
    have inside := findSupersetFrom_eq p child next good.1.2 increasingNext
    rw [findSupersetMid, entriesBelow, first_append, first_cons]
    rcases lt_or_ge key elt with below | notBelow
    · have same : first (fun path => elt :: next ⊆ key :: path) p (entries child) =
          first (elt :: next ⊆ ·) p (entries child) :=
        first_congr fun entry _ => subset_cons_iff (forall_mem_cons.mpr
          ⟨below, fun k mem => lt_trans below (beyond k mem)⟩)
      rw [if_pos below, same, <- later, <- here, <- Option.or_assoc, findSupersetAll]
      cases findSupersetFrom p child (elt :: next) <;> rfl
    · have deeper : ∀ entry ∈ entries child, ∀ k ∈ entry.1, elt < k := fun entry mem k path =>
        lt_of_le_of_lt notBelow (good.1.1.above entry mem k path)
      have beside : ∀ entry ∈ entriesBelow rest, ∀ k ∈ entry.1, elt < k :=
        fun entry mem k path => lt_of_le_of_lt notBelow (above.path good.2 mem k path)
      have nothing : findSupersetAll p ((key, child) :: rest) (elt :: next) = none := by
        rw [all, entriesBelow, first_append, first_cons]
        refine or_eq_none_iff.mpr ⟨first_missing id deeper, ?_⟩
        exact first_missing List.tail fun entry mem k path =>
          beside entry mem k (mem_of_mem_tail path)
      have others : first (elt :: next ⊆ ·) p (entriesBelow rest) = none := first_missing id beside
      rw [if_neg (not_lt_of_ge notBelow), nothing, others, none_or, or_none]
      by_cases same : elt = key
      · subst same
        rw [if_pos rfl, inside]
        exact first_congr fun entry _ => (cons_subset_cons_iff beyond).symm
      · rw [if_neg same]
        refine (first_missing (key :: ·) fun entry mem => ?_).symm
        exact forall_mem_cons.mpr ⟨lt_of_le_of_ne notBelow same, deeper entry mem⟩

end

end MapOfSets
end LlvmProject
