import LlvmProject.Klee.MapOfSetsQueries

namespace LlvmProject
namespace MapOfSets
namespace Iterator

/-!
# Iteration over a map indexed by sets

The stack of an iterator tells what is still to be visited: at each level the
children behind the current one.  If the iterator stands at a node on entry,
the node itself and all its children are to come as well.
-/

universe u v

variable {K : Type u} {V : Type v} [LinearOrder K]

/-- The elements on the way to the node at the top of the stack. -/
def setOf (stack : List (List (K × Node K V))) : Finset K :=
  (stack.filterMap List.head?).foldr (fun top s => insert top.1 s) ∅

/-- The entries behind the nodes on the stack. -/
def behind : List (List (K × Node K V)) -> List (Finset K × V)
  | [] => []
  | top :: below => (entriesBelow top.tail).map (under (setOf below)) ++ behind below

/-- The pairs that the iterator visits up to the end. -/
inductive Visits : Iterator K V -> List (Finset K × V) -> Prop
  | done {it : Iterator K V} : it.atEnd = true -> Visits it []
  | more {it it' : Iterator K V} {pair : Finset K × V} {rest : List (Finset K × V)} :
      it.atEnd = false -> it.deref = some pair -> it.step = some it' -> Visits it' rest ->
      Visits it (pair :: rest)

/-- The iterator stands where the pairs are still to come. -/
inductive Stands (root : Node K V) : Iterator K V -> List (Finset K × V) -> Prop
  | done : Stands root ⟨root, false, []⟩ []
  | entered {n : Node K V} {stack : List (List (K × Node K V))} :
      current ⟨root, true, stack⟩ = some n -> n.isEndOfSet = true -> GoodBelow n.children ->
      (∀ children ∈ stack, GoodBelow children) ->
      Stands root ⟨root, true, stack⟩
        ((setOf stack, n.value) :: (entriesBelow n.children).map (under (setOf stack)) ++
          behind stack)

variable {root n : Node K V} {children rest : List (K × Node K V)}
  {stack : List (List (K × Node K V))} {key : K} {child : Node K V}

/-- The entries of a list of children, split at the first child. -/
theorem entries_first : (entriesBelow ((key, child) :: rest)).map (under (setOf stack)) ++
      behind stack =
    (entries child).map (under (setOf (((key, child) :: rest) :: stack))) ++
      behind (((key, child) :: rest) :: stack) := by
  rw [entriesBelow, List.map_append, List.map_map, under_cons, List.append_assoc]
  rfl

theorem entries_of_end (isEnd : n.isEndOfSet = true) (accum : Finset K) :
    (entries n).map (under accum) =
      (accum, n.value) :: (entriesBelow n.children).map (under accum) := by
  rw [entries_eq, if_pos isEnd, List.map_append, List.map_singleton]
  simp [under]

omit [LinearOrder K] in
theorem entries_of_not_end (isEnd : n.isEndOfSet = false) :
    entries n = entriesBelow n.children := by
  rw [entries_eq, isEnd]
  rfl

/-! ## Going down -/

mutual

theorem descend_spec (root : Node K V) : ∀ (n : Node K V) (stack : List (List (K × Node K V))),
    n.children ≠ [] -> GoodBelow n.children -> (∀ children ∈ stack, GoodBelow children) ->
    ∃ stack', descend n stack = (true, stack') ∧ Stands root ⟨root, true, stack'⟩
      ((entriesBelow n.children).map (under (setOf stack)) ++ behind stack)
  | .mk _ _ children, stack, some', good, goodStack =>
    descendFirst_spec root children stack some' good goodStack

theorem descendFirst_spec (root : Node K V) : ∀ (children : List (K × Node K V))
    (stack : List (List (K × Node K V))), children ≠ [] -> GoodBelow children ->
    (∀ children ∈ stack, GoodBelow children) ->
    ∃ stack', descendFirst children stack = (true, stack') ∧ Stands root ⟨root, true, stack'⟩
      ((entriesBelow children).map (under (setOf stack)) ++ behind stack)
  | [], _, some', _, _ => absurd rfl some'
  | (key, child) :: rest, stack, _, good, goodStack => by
    have goodChild := (good_iff.mp good.1.2).2
    have goodStack' : ∀ children ∈ ((key, child) :: rest) :: stack, GoodBelow children :=
      List.forall_mem_cons.mpr ⟨good, goodStack⟩
    rw [descendFirst, entries_first]
    cases isEnd : child.isEndOfSet with
    | true =>
      refine ⟨_, rfl, ?_⟩
      rw [entries_of_end isEnd]
      exact .entered rfl isEnd goodChild goodStack'
    | false =>
      have needed := good.1.1.needed.resolve_left (by simp [isEnd])
      rw [entries_of_not_end isEnd]
      exact descend_spec root child _ needed goodChild goodStack'

end

mutual

theorem descendToEnd_spec (root : Node K V) : ∀ (n : Node K V)
    (stack : List (List (K × Node K V))), current ⟨root, true, stack⟩ = some n ->
    (n.isEndOfSet = true ∨ n.children ≠ []) -> GoodBelow n.children ->
    (∀ children ∈ stack, GoodBelow children) ->
    ∃ stack', descendToEnd n stack = some stack' ∧ Stands root ⟨root, true, stack'⟩
      ((entries n).map (under (setOf stack)) ++ behind stack)
  | .mk value true children, stack, here, _, good, goodStack => by
    refine ⟨stack, rfl, ?_⟩
    rw [entries_of_end rfl]
    exact .entered here rfl good goodStack
  | .mk value false children, stack, _, needed, good, goodStack => by
    rw [entries_of_not_end rfl]
    exact descendToEndFirst_spec root children stack (needed.resolve_left nofun) good goodStack

theorem descendToEndFirst_spec (root : Node K V) : ∀ (children : List (K × Node K V))
    (stack : List (List (K × Node K V))), children ≠ [] -> GoodBelow children ->
    (∀ children ∈ stack, GoodBelow children) ->
    ∃ stack', descendToEndFirst children stack = some stack' ∧ Stands root ⟨root, true, stack'⟩
      ((entriesBelow children).map (under (setOf stack)) ++ behind stack)
  | [], _, some', _, _ => absurd rfl some'
  | (key, child) :: rest, stack, _, good, goodStack => by
    rw [entries_first]
    exact descendToEnd_spec root child _ rfl good.1.1.needed (good_iff.mp good.1.2).2
      (List.forall_mem_cons.mpr ⟨good, goodStack⟩)

end

/-! ## One step -/

theorem advance_spec (root : Node K V) (goodStack : ∀ children ∈ stack, GoodBelow children) :
    ∃ it, advance root stack = some it ∧ Stands root it (behind stack) := by
  induction stack with
  | nil => exact ⟨_, rfl, .done⟩
  | cons top below ih =>
    rcases List.forall_mem_cons.mp goodStack with ⟨good, goodBelow⟩
    rw [advance, behind]
    cases later : top.tail with
    | nil => exact ih goodBelow
    | cons pair rest =>
      rcases pair with ⟨key, child⟩
      have goodLater : GoodBelow ((key, child) :: rest) := goodBelow_iff.mpr fun pair member =>
        goodBelow_iff.mp good pair (List.mem_of_mem_tail (later ▸ member))
      rw [entries_first]
      rcases descendToEnd_spec root child (((key, child) :: rest) :: below) rfl
        goodLater.1.1.needed (good_iff.mp goodLater.1.2).2
        (List.forall_mem_cons.mpr ⟨goodLater, goodBelow⟩) with ⟨stack', ran, stands⟩
      exact ⟨_, congrArg (Option.map _) ran, stands⟩

/-- A step on entry goes on with the children of the node. -/
theorem step_spec (here : current ⟨root, true, stack⟩ = some n) (good : GoodBelow n.children)
    (goodStack : ∀ children ∈ stack, GoodBelow children) :
    ∃ it, step ⟨root, true, stack⟩ = some it ∧
      Stands root it ((entriesBelow n.children).map (under (setOf stack)) ++ behind stack) := by
  rw [step, if_pos rfl, here, Option.bind_some]
  by_cases leaf : n.children = []
  · have stays : descend n stack = (false, stack) := by
      cases n
      exact congrArg (fun children => descendFirst children stack) leaf
    rw [stays, leaf]
    exact advance_spec root goodStack
  · rcases descend_spec root n stack leaf good goodStack with ⟨stack', ran, stands⟩
    rw [ran]
    exact ⟨_, rfl, stands⟩

theorem Stands.visits {it : Iterator K V} {list : List (Finset K × V)}
    (stands : Stands root it list) : Visits it list := by
  induction list generalizing it with
  | nil =>
    cases stands
    exact .done rfl
  | cons pair list ih =>
    cases stands with
    | entered here isEnd good goodStack =>
      rcases step_spec here good goodStack with ⟨it', ran, stands'⟩
      refine .more rfl ?_ ran (ih stands')
      exact congrArg (Option.map _) here

/-- Iterating from `begin()` to `end()` visits the entries in order. -/
theorem begin_visits (good : Good root) :
    ∃ it, begin root = some it ∧ Visits it ((entries root).map (under ∅)) := by
  have goodBelow := (good_iff.mp good).2
  have noStack : ∀ children ∈ ([] : List (List (K × Node K V))), GoodBelow children :=
    fun _ none => absurd none List.not_mem_nil
  rw [begin]
  cases isEnd : root.isEndOfSet with
  | true =>
    have stands : Stands root ⟨root, true, []⟩ _ := .entered rfl isEnd goodBelow noStack
    refine ⟨_, rfl, ?_⟩
    rw [behind, List.append_nil] at stands
    rw [entries_of_end isEnd]
    exact stands.visits
  | false =>
    have here : current ⟨root, true, []⟩ = some root := rfl
    rcases step_spec here goodBelow noStack with ⟨it, ran, stands⟩
    refine ⟨it, ran, ?_⟩
    rw [behind, List.append_nil] at stands
    rw [entries_of_not_end isEnd]
    exact stands.visits

end Iterator
end MapOfSets
end LlvmProject

namespace LlvmProject

open List List Function SortedPairs

namespace MapOfSets

/-!
## Runs of a map indexed by sets

In the specification the map is a partial function on finite sets.  After
every sequence of insertions and clearings there is a list of the stored pairs,
without repetitions, and all queries and the iteration are read off this list.
-/

universe u v

variable {K : Type u} {V : Type v} [LinearOrder K]

/-- The trees that the operations build, with the maps they stand for. -/
inductive Reachable [Inhabited V] : Node K V -> (Finset K -> Option V) -> Prop
  | empty : Reachable clear fun _ => none
  | clear {root : Node K V} {stored : Finset K -> Option V} : Reachable root stored ->
      Reachable clear fun _ => none
  | insert {root : Node K V} {stored : Finset K -> Option V} (set : Finset K) (value : V) :
      Reachable root stored ->
      Reachable (MapOfSets.insert root set value) (update stored set (some value))

/-- The list holds the stored pairs, and the queries are answered from it. -/
structure Answers (root : Node K V) (stored : Finset K -> Option V)
    (list : List (Finset K × V)) : Prop where
  once : (list.map Prod.fst).Nodup
  mem : ∀ set value, (set, value) ∈ list ↔ stored set = some value
  lookup : ∀ set, lookup root set = stored set
  subsets : ∀ set, subsets root set = list.filter fun pair => pair.1 ⊆ set
  supersets : ∀ set, supersets root set = list.filter fun pair => set ⊆ pair.1
  findSubset : ∀ set (p : V -> Bool), findSubset root set p =
    ((list.filter fun pair => pair.1 ⊆ set && p pair.2).head?).map Prod.snd
  findSuperset : ∀ set (p : V -> Bool), findSuperset root set p =
    ((list.filter fun pair => set ⊆ pair.1 && p pair.2).head?).map Prod.snd
  iteration : ∃ it, Iterator.begin root = some it ∧ it.Visits list

variable {root : Node K V} {stored : Finset K -> Option V}

/-! ## Sets and paths -/

theorem sort_sorted (set : Finset K) : (inOrder set).Pairwise (· < ·) :=
  (Finset.sortedLT_sort set).pairwise

theorem sort_of_sorted {path : List K} (sorted : path.Pairwise (· < ·)) :
    inOrder path.toFinset = path :=
  ((toFinset_sort (· <= ·) (sorted.imp ne_of_lt)).mpr (sorted.imp le_of_lt))

theorem under_empty (entry : List K × V) : under ∅ entry = (entry.1.toFinset, entry.2) := by
  rw [under, Finset.empty_union]

mutual

theorem entries_nodup : ∀ n : Node K V, Good n ->
    (entries n).Pairwise fun a b => a.1 ≠ b.1
  | .mk value isEndOfSet children, good => by
    have below := entriesBelow_nodup children good.1 good.2
    rw [entries]
    cases isEndOfSet with
    | false => exact below
    | true =>
      refine pairwise_cons.mpr ⟨fun entry member => ?_, below⟩
      exact (ne_nil_of_mem_entriesBelow member).symm

theorem entriesBelow_nodup : ∀ children : List (K × Node K V), Sorted children ->
    GoodBelow children -> (entriesBelow children).Pairwise fun a b => a.1 ≠ b.1
  | [], _, _ => Pairwise.nil
  | (key, child) :: rest, sorted, good => by
    rw [entriesBelow]
    refine pairwise_append.mpr ⟨pairwise_map.mpr ?_,
      entriesBelow_nodup rest (pairwise_cons.mp sorted).2 good.2, ?_⟩
    · exact (entries_nodup child good.1.2).imp fun other same => other (cons.inj same).2
    · intro entry here entry' later same
      rcases mem_map.mp here with ⟨inner, -, rfl⟩
      have above := (Above.of_sorted sorted).path good.2 later key
      exact lt_irrefl key (above (same ▸ mem_cons_self))

end

/-! ## Answers -/

/-- The stored pairs in the order of the tree. -/
def pairs (root : Node K V) : List (Finset K × V) := (entries root).map (under ∅)

theorem mem_pairs (good : Good root) {set : Finset K} {value : V} :
    (set, value) ∈ pairs root ↔ (inOrder set, value) ∈ entries root := by
  rw [pairs, mem_map]
  constructor
  · rintro ⟨⟨path, _⟩, member, same⟩
    rw [under_empty] at same
    cases same
    rwa [sort_of_sorted (good.sorted_path member)]
  · intro member
    refine ⟨_, member, ?_⟩
    rw [under_empty, Finset.sort_toFinset]

theorem pairs_nodup (good : Good root) : ((pairs root).map Prod.fst).Nodup := by
  rw [pairs, List.map_map]
  refine pairwise_map.mpr ((entries_nodup root good).imp_of_mem ?_)
  rintro ⟨path, value⟩ ⟨path', value'⟩ member member' other same
  simp only [comp_apply, under_empty] at same
  refine other ?_
  rw [<- sort_of_sorted (good.sorted_path member), same, sort_of_sorted (good.sorted_path member')]

/-- A condition on paths that is one on sets selects from the stored pairs. -/
theorem select_eq_filter (cond : List K -> Prop) [DecidablePred cond]
    (P : Finset K -> Prop) [DecidablePred P] (same : ∀ path, cond path ↔ P path.toFinset) :
    select cond ∅ (entries root) = (pairs root).filter fun pair => P pair.1 := by
  rw [select, pairs, filter_map]
  congr 1
  refine filter_congr fun entry _ => ?_
  simp only [comp_apply, under_empty]
  exact decide_eq_decide.mpr (same entry.1)

theorem first_eq_filter (cond : List K -> Prop) [DecidablePred cond]
    (P : Finset K -> Prop) [DecidablePred P] (p : V -> Bool)
    (same : ∀ path, cond path ↔ P path.toFinset) : first cond p (entries root) =
      ((pairs root).filter fun pair => P pair.1 && p pair.2).head?.map Prod.snd := by
  rw [first, pairs, filter_map, head?_map, Option.map_map]
  congr 2
  refine filter_congr fun entry _ => ?_
  simp only [comp_apply, under_empty]
  rw [decide_eq_decide.mpr (same entry.1)]

theorem subset_sort_iff (set : Finset K) (path : List K) :
    path ⊆ inOrder set ↔ path.toFinset ⊆ set := by
  simp [subset_def, Finset.subset_iff]

theorem sort_subset_iff (set : Finset K) (path : List K) :
    inOrder set ⊆ path ↔ set ⊆ path.toFinset := by
  simp [subset_def, Finset.subset_iff]

theorem answers (good : Good root)
    (holds : ∀ set value, (inOrder set, value) ∈ entries root ↔ stored set = some value) :
    Answers root stored (pairs root) where
  once := pairs_nodup good
  mem set value := (mem_pairs good).trans (holds set value)
  lookup set := by
    refine Option.ext fun value => ?_
    exact (lookupPath_iff good).trans (holds set value)
  subsets set := by
    rw [MapOfSets.subsets, findSubsets_eq good (sort_sorted set)]
    exact select_eq_filter (· ⊆ inOrder set) (· ⊆ set) (subset_sort_iff set)
  supersets set := by
    rw [MapOfSets.supersets, findSupersets_eq root ∅ _ good (sort_sorted set)]
    exact select_eq_filter (inOrder set ⊆ ·) (set ⊆ ·) (sort_subset_iff set)
  findSubset set p := by
    rw [MapOfSets.findSubset, findSubsetFrom_eq p root _ good (sort_sorted set)]
    exact first_eq_filter (· ⊆ inOrder set) (· ⊆ set) p (subset_sort_iff set)
  findSuperset set p := by
    rw [MapOfSets.findSuperset, findSupersetFrom_eq p root _ good (sort_sorted set)]
    exact first_eq_filter (inOrder set ⊆ ·) (set ⊆ ·) p (sort_subset_iff set)
  iteration := Iterator.begin_visits good

/-! ## Runs -/

theorem Reachable.invariant [Inhabited V] (reachable : Reachable root stored) :
    Good root ∧ ∀ set value, (inOrder set, value) ∈ entries root ↔ stored set = some value := by
  have new : Good (MapOfSets.clear : Node K V) ∧
      ∀ set value, (inOrder set, value) ∈ entries (MapOfSets.clear : Node K V) ↔
        none = some value :=
    ⟨good_new, fun _ _ => iff_of_false not_mem_nil nofun⟩
  induction reachable with
  | empty => exact new
  | clear _ _ => exact new
  | @insert root stored set value _ ih =>
    rcases ih with ⟨good, holds⟩
    refine ⟨good.insertPath (sort_sorted set), fun set' value' => ?_⟩
    refine (mem_entries_insertPath good).trans ?_
    by_cases same : set' = set
    · subst same
      simp [eq_comm]
    · have other : inOrder set' ≠ inOrder set := fun equal => same <|
        calc set' = (inOrder set').toFinset := (Finset.sort_toFinset ..).symm
          _ = (inOrder set).toFinset := congrArg _ equal
          _ = set := Finset.sort_toFinset ..
      simp [same, other, holds]

/-- Every tree that the operations build answers all queries exactly, and its
iterator visits every stored pair once. -/
theorem Reachable.queries_correct [Inhabited V] (reachable : Reachable root stored) :
    ∃ list, Answers root stored list :=
  ⟨pairs root, MapOfSets.answers reachable.invariant.1 reachable.invariant.2⟩

/-- A map with one set. -/
theorem answers_one : ∃ list, Answers (MapOfSets.insert (MapOfSets.clear : Node Nat Nat) {1, 2} 7)
    (update (fun _ => none) {1, 2} (some 7)) list ∧ ({1, 2}, 7) ∈ list := by
  rcases (Reachable.empty.insert {1, 2} 7).queries_correct with ⟨list, answers⟩
  exact ⟨list, answers, (answers.mem _ _).mpr (update_self ..)⟩

end MapOfSets
end LlvmProject
