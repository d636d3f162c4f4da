import LlvmProject.Library.SortedPairs

namespace LlvmProject
namespace MapOfSets

/-!
# Maps indexed by sets

A set is stored as the path of its elements in increasing order through a tree.
A node holds a value if its path is a stored set, and its children in the order
of their keys.  A `std::set` is a finite set here, and is iterated in
increasing order.

An iterator into the children of a node is the list of the children from there
on, and an iterator past the end is the empty list.
-/

universe u v

inductive Node (K : Type u) (V : Type v) where
  | mk (value : V) (isEndOfSet : Bool) (children : List (K × Node K V))

variable {K : Type u} {V : Type v}

namespace Node

def value : Node K V -> V
  | mk value _ _ => value

def isEndOfSet : Node K V -> Bool
  | mk _ isEndOfSet _ => isEndOfSet

def children : Node K V -> List (K × Node K V)
  | mk _ _ children => children

/-- A new node. -/
def new [Inhabited V] : Node K V := mk default false []

end Node

/-- The root of an empty map. -/
def clear [Inhabited V] : Node K V := Node.mk default false []

section Update

variable [LinearOrder K] [Inhabited V]

/-- The walk down the elements of the set, which makes the nodes that are not
there yet. -/
def insertPath (value : V) : List K -> Node K V -> Node K V
  | [], n => .mk value true n.children
  | key :: rest, n => .mk n.value n.isEndOfSet
      (SortedPairs.alter key (fun child => insertPath value rest (child.getD .new)) n.children)

protected def insert (root : Node K V) (set : Finset K) (value : V) : Node K V :=
  insertPath value (SortedPairs.inOrder set) root

end Update

section Search

variable [LinearOrder K]

def lookupPath : List K -> Node K V -> Option V
  | [], n => if n.isEndOfSet then some n.value else none
  | key :: rest, n => (SortedPairs.find key n.children).bind (lookupPath rest)

def lookup (root : Node K V) (set : Finset K) : Option V := lookupPath (SortedPairs.inOrder set) root

/-- The pair that a node adds to the results. -/
def result (n : Node K V) (accum : Finset K) : List (Finset K × V) :=
  if n.isEndOfSet then [(accum, n.value)] else []

/-- The loop of `findSubsets` over the elements from an iterator on. -/
def findSubsetsLoop (n : Node K V) (accum : Finset K) : List K -> List (Finset K × V)
  | [] => []
  | elt :: rest =>
    (match SortedPairs.find elt n.children with
      | some child => result child (insert elt accum) ++
          findSubsetsLoop child (insert elt accum) rest
      | none => []) ++ findSubsetsLoop n accum rest

def findSubsets (n : Node K V) (accum : Finset K) (elements : List K) : List (Finset K × V) :=
  result n accum ++ findSubsetsLoop n accum elements

def subsets (root : Node K V) (set : Finset K) : List (Finset K × V) :=
  findSubsets root ∅ (SortedPairs.inOrder set)

mutual

def findSupersets : Node K V -> Finset K -> List K -> List (Finset K × V)
  | .mk value isEndOfSet children, accum, [] =>
    (if isEndOfSet then [(accum, value)] else []) ++ findSupersetsAll children accum
  | .mk _ _ children, accum, elt :: next => findSupersetsTo children accum elt next

/-- The loop over the children when no element is left. -/
def findSupersetsAll : List (K × Node K V) -> Finset K -> List (Finset K × V)
  | [], _ => []
  | (key, child) :: rest, accum =>
    findSupersets child (insert key accum) [] ++ findSupersetsAll rest accum

/-- The loop over the children up to the first element that is left. -/
def findSupersetsTo : List (K × Node K V) -> Finset K -> K -> List K -> List (Finset K × V)
  | [], _, _, _ => []
  | (key, child) :: rest, accum, elt, next =>
    if elt = key then
      findSupersets child (insert key accum) next ++ findSupersetsTo rest accum elt next
    else if key < elt then
      findSupersets child (insert key accum) (elt :: next) ++ findSupersetsTo rest accum elt next
    else []

end

def supersets (root : Node K V) (set : Finset K) : List (Finset K × V) :=
  findSupersets root ∅ (SortedPairs.inOrder set)

mutual

def findSubsetFrom (p : V -> Bool) : Node K V -> List K -> Option V
  | .mk value isEndOfSet children, elements =>
    if isEndOfSet && p value then some value
    else match elements with
      | [] => none
      | _ :: _ => findSubsetLoop p children elements

/-- The two iterators, into the children and into the elements.  A child below
the current element is skipped, at the start by `lower_bound`, later by the
second inner loop; the elements below the child are skipped by the first. -/
def findSubsetLoop (p : V -> Bool) : List (K × Node K V) -> List K -> Option V
  | [], _ => none
  | (key, child) :: rest, elements =>
    match elements.dropWhile (· < key) with
    | [] => none
    | elt :: next =>
      if elt = key then
        match findSubsetFrom p child next with
        | some value => some value
        | none => match next with
          | [] => none
          | _ :: _ => findSubsetLoop p rest next
      else findSubsetLoop p rest (elt :: next)

end

def findSubset (root : Node K V) (set : Finset K) (p : V -> Bool) : Option V :=
  findSubsetFrom p root (SortedPairs.inOrder set)

mutual

def findSupersetFrom (p : V -> Bool) : Node K V -> List K -> Option V
  | .mk value isEndOfSet children, [] =>
    if isEndOfSet && p value then some value else findSupersetAll p children []
  | .mk _ _ children, elt :: next =>
    match findSupersetAll p children (elt :: next) with
    | some value => some value
    | none => findSupersetMid p children elt next

/-- The loop over all children with the same elements. -/
def findSupersetAll (p : V -> Bool) : List (K × Node K V) -> List K -> Option V
  | [], _ => none
  | (_, child) :: rest, elements =>
    match findSupersetFrom p child elements with
    | some value => some value
    | none => findSupersetAll p rest elements

/-- The child at `lower_bound`, if it has the first element as its key. -/
def findSupersetMid (p : V -> Bool) : List (K × Node K V) -> K -> List K -> Option V
  | [], _, _ => none
  | (key, child) :: rest, elt, next =>
    if key < elt then findSupersetMid p rest elt next
    else if elt = key then findSupersetFrom p child next
    else none

end

def findSuperset (root : Node K V) (set : Finset K) (p : V -> Bool) : Option V :=
  findSupersetFrom p root (SortedPairs.inOrder set)

end Search

/-! ## The iterator -/

/-- The stack of iterators, with the innermost one first. -/
structure Iterator (K : Type u) (V : Type v) where
  root : Node K V
  onEntry : Bool
  stack : List (List (K × Node K V))

namespace Iterator

/-- The node at an iterator into children. -/
def second (iterator : List (K × Node K V)) : Option (Node K V) := iterator.head?.map Prod.snd

/-- The node at the top of the stack. -/
def current (it : Iterator K V) : Option (Node K V) :=
  match it.stack with
  | [] => some it.root
  | top :: _ => second top

mutual

/-- First children are pushed until one is the end of a set.  The result tells
whether one was found. -/
def descend : Node K V -> List (List (K × Node K V)) -> Bool × List (List (K × Node K V))
  | .mk _ _ children, stack => descendFirst children stack

def descendFirst : List (K × Node K V) -> List (List (K × Node K V)) ->
    Bool × List (List (K × Node K V))
  | [], stack => (false, stack)
  | (key, child) :: rest, stack =>
    if child.isEndOfSet then (true, ((key, child) :: rest) :: stack)
    else descend child (((key, child) :: rest) :: stack)

end

mutual

/-- First children are pushed while the node is not the end of a set.  A node
without children fails the assertion. -/
def descendToEnd : Node K V -> List (List (K × Node K V)) -> Option (List (List (K × Node K V)))
  | .mk _ isEndOfSet children, stack =>
    if isEndOfSet then some stack else descendToEndFirst children stack

def descendToEndFirst : List (K × Node K V) -> List (List (K × Node K V)) ->
    Option (List (List (K × Node K V)))
  | [], _ => none
  | (key, child) :: rest, stack => descendToEnd child (((key, child) :: rest) :: stack)

end

/-- The loop that advances the innermost iterator, and leaves it at the end of
its node's children. -/
def advance (root : Node K V) : List (List (K × Node K V)) -> Option (Iterator K V)
  | [] => some ⟨root, false, []⟩
  | top :: below =>
    match top.tail with
    | [] => advance root below
    | (key, child) :: rest =>
      (descendToEnd child (((key, child) :: rest) :: below)).map fun stack => ⟨root, true, stack⟩

def step (it : Iterator K V) : Option (Iterator K V) :=
  if it.onEntry then
    it.current.bind fun n =>
      match descend n it.stack with
      | (true, stack) => some { it with onEntry := true, stack := stack }
      | (false, stack) => advance it.root stack
  else advance it.root it.stack

/-- The iterator `begin()`. -/
def begin (root : Node K V) : Option (Iterator K V) :=
  if root.isEndOfSet then some ⟨root, true, []⟩ else step ⟨root, true, []⟩

/-- Comparison with `end()`, which does not look at the root. -/
def atEnd (it : Iterator K V) : Bool := !it.onEntry && it.stack.isEmpty

/-- The set and the value at the iterator. -/
def deref [DecidableEq K] (it : Iterator K V) : Option (Finset K × V) :=
  if it.onEntry || !it.stack.isEmpty then
    it.current.map fun n =>
      ((it.stack.filterMap List.head?).foldr (fun top s => insert top.1 s) ∅, n.value)
  else none

end Iterator

end MapOfSets
end LlvmProject

namespace LlvmProject

open List SortedPairs

namespace MapOfSets

/-!
## The entries of the tree

The entries of a node are the paths below it that are stored sets, with their
values, in the order of a walk that visits a node before its children.  In a
good tree the children of each node are in order, keys increase along every
path, and no node below the root is superfluous.
-/

universe u v

variable {K : Type u} {V : Type v}

mutual

def entries : Node K V -> List (List K × V)
  | .mk value isEndOfSet children =>
    (if isEndOfSet then [([], value)] else []) ++ entriesBelow children

def entriesBelow : List (K × Node K V) -> List (List K × V)
  | [] => []
  | (key, child) :: rest =>
    (entries child).map (fun entry => (key :: entry.1, entry.2)) ++ entriesBelow rest

end

theorem entries_eq (n : Node K V) :
    entries n = (if n.isEndOfSet then [([], n.value)] else []) ++ entriesBelow n.children := by
  cases n
  rfl

variable {value : V}

variable {path : List K}

theorem mem_entriesBelow {children : List (K × Node K V)} :
    (path, value) ∈ entriesBelow children ↔
      ∃ key child rest, (key, child) ∈ children ∧ (rest, value) ∈ entries child ∧
        path = key :: rest := by
  induction children with
  | nil => simp [entriesBelow]
  | cons pair children ih =>
    rcases pair with ⟨key, child⟩
    rw [entriesBelow, mem_append, ih, List.mem_map]
    constructor
    · rintro (⟨⟨rest, _⟩, mem, same⟩ | ⟨k, c, rest, here, mem, same⟩)
      · cases same
        exact ⟨key, child, rest, mem_cons_self, mem, rfl⟩
      · exact ⟨k, c, rest, mem_cons_of_mem _ here, mem, same⟩
    · rintro ⟨k, c, rest, here, mem, rfl⟩
      rcases mem_cons.mp here with same | here
      · cases same
        exact .inl ⟨(rest, value), mem, rfl⟩
      · exact .inr ⟨k, c, rest, here, mem, rfl⟩

theorem mem_entries {n : Node K V} :
    (path, value) ∈ entries n ↔ path = [] ∧ n.isEndOfSet = true ∧ value = n.value ∨
      (path, value) ∈ entriesBelow n.children := by
  rw [entries_eq, mem_append]
  refine or_congr_left ?_
  cases n.isEndOfSet <;> simp [and_comm]

/-- Paths below the root are not empty. -/
theorem ne_nil_of_mem_entriesBelow {children : List (K × Node K V)} {entry : List K × V}
    (mem : entry ∈ entriesBelow children) : entry.1 ≠ [] := by
  rcases mem_entriesBelow.mp mem with ⟨key, child, rest, -, -, same⟩
  rw [same]
  exact cons_ne_nil key rest

theorem entries_new [Inhabited V] : entries (Node.new : Node K V) = [] := rfl

/-! ## Good trees -/

section Good

variable [LinearOrder K]

/-- A child is needed, and its paths go on above its key. -/
structure Fits (key : K) (child : Node K V) : Prop where
  needed : child.isEndOfSet = true ∨ child.children ≠ []
  above : ∀ entry ∈ entries child, ∀ k ∈ entry.1, key < k

mutual

def Good : Node K V -> Prop
  | .mk _ _ children => Sorted children ∧ GoodBelow children

def GoodBelow : List (K × Node K V) -> Prop
  | [] => True
  | (key, child) :: rest => (Fits key child ∧ Good child) ∧ GoodBelow rest

end

variable {n child : Node K V} {children rest : List (K × Node K V)} {key : K}

theorem good_iff : Good n ↔ Sorted n.children ∧ GoodBelow n.children := by
  cases n
  exact Iff.rfl

theorem goodBelow_iff :
    GoodBelow children ↔ ∀ pair ∈ children, Fits pair.1 pair.2 ∧ Good pair.2 := by
  induction children with
  | nil => exact ⟨fun _ _ none => absurd none not_mem_nil, fun _ => trivial⟩
  | cons pair children ih =>
    rw [forall_mem_cons, <- ih]
    exact Iff.rfl

theorem good_new [Inhabited V] : Good (Node.new : Node K V) := ⟨List.Pairwise.nil, trivial⟩

/-- The keys along a path increase. -/
theorem Good.sorted_path (good : Good n)
    (mem : (path, value) ∈ entries n) : path.Pairwise (· < ·) := by
  induction path generalizing n with
  | nil => exact List.Pairwise.nil
  | cons key path ih =>
    rcases (mem_entries.mp mem).resolve_left nofun with below
    rcases mem_entriesBelow.mp below with ⟨_, child, _, here, mem, same⟩
    cases same
    rcases goodBelow_iff.mp (good_iff.mp good).2 _ here with ⟨fits, goodChild⟩
    exact pairwise_cons.mpr ⟨fits.above _ mem, ih goodChild mem⟩

/-! ## Looking up and inserting -/

theorem lookupPath_iff (good : Good n) :
    lookupPath path n = some value ↔ (path, value) ∈ entries n := by
  induction path generalizing n with
  | nil =>
    rw [lookupPath, mem_entries]
    have none : ([], value) ∉ entriesBelow n.children := fun mem =>
      ne_nil_of_mem_entriesBelow mem rfl
    cases n.isEndOfSet <;> simp [none, eq_comm]
  | cons key path ih =>
    have goodBelow := goodBelow_iff.mp (good_iff.mp good).2
    rw [lookupPath, Option.bind_eq_some_iff, mem_entries, or_iff_right (by simp), mem_entriesBelow]
    constructor
    · rintro ⟨child, found, looked⟩
      have here := mem_of_find found
      exact ⟨key, child, path, here, (ih (goodBelow _ here).2).mp looked, rfl⟩
    · rintro ⟨_, child, _, here, mem, same⟩
      cases same
      exact ⟨child, find_of_mem (good_iff.mp good).1 here, (ih (goodBelow _ here).2).mpr mem⟩

section Insert

variable [Inhabited V]

/-- The child that an insertion goes on with. -/
def base (key : K) (children : List (K × Node K V)) : Node K V :=
  (SortedPairs.find key children).getD .new

theorem mem_entries_base (sorted : Sorted children) :
    (path, value) ∈ entries (base key children) ↔
      ∃ child, (key, child) ∈ children ∧ (path, value) ∈ entries child := by
  rw [base]
  cases found : SortedPairs.find key children with
  | none =>
    rw [Option.getD_none, entries_new]
    refine iff_of_false not_mem_nil ?_
    rintro ⟨child, here, -⟩
    rw [find_of_mem sorted here] at found
    exact absurd found nofun
  | some child =>
    refine ⟨fun mem => ⟨child, mem_of_find found, mem⟩, ?_⟩
    rintro ⟨other, here, mem⟩
    rw [find_of_mem sorted here] at found
    cases found
    exact mem

theorem good_base (key : K) (good : GoodBelow children) : Good (base key children) := by
  rw [base]
  cases found : SortedPairs.find key children with
  | none => exact good_new
  | some child => exact (goodBelow_iff.mp good _ (mem_of_find found)).2

theorem insertPath_children :
    (insertPath value (key :: path) n).children =
      SortedPairs.alter key (fun child => insertPath value path (child.getD .new)) n.children := rfl

/-- An insertion changes the entry of its own path and no other. -/
theorem mem_entries_insertPath {path p : List K} {value v : V} (good : Good n) :
    (p, v) ∈ entries (insertPath value path n) ↔
      p = path ∧ v = value ∨ p ≠ path ∧ (p, v) ∈ entries n := by
  induction path generalizing n p with
  | nil =>
    rw [mem_entries, mem_entries]
    constructor
    · rintro (⟨rfl, -, rfl⟩ | below)
      · exact .inl ⟨rfl, rfl⟩
      · exact .inr ⟨ne_nil_of_mem_entriesBelow below, .inr below⟩
    · rintro (⟨rfl, rfl⟩ | ⟨other, here | below⟩)
      · exact .inl ⟨rfl, rfl, rfl⟩
      · exact absurd here.1 other
      · exact .inr below
  | cons key path ih =>
    rcases good_iff.mp good with ⟨sorted, goodBelow⟩
    have changed : ∀ {r : List K},
        (r, v) ∈ entries (insertPath value path (base key n.children)) ↔
        r = path ∧ v = value ∨ r ≠ path ∧ (r, v) ∈ entries (base key n.children) :=
      ih (good_base key goodBelow)
    rw [mem_entries, mem_entries, insertPath_children, mem_entriesBelow, mem_entriesBelow]
    constructor
    · rintro (here | ⟨k, c, r, here, mem, rfl⟩)
      · exact .inr ⟨here.1 ▸ nofun, .inl here⟩
      · rcases (SortedPairs.mem_alter sorted).mp here with ⟨rfl, rfl⟩ | ⟨other, here⟩
        · rcases changed.mp mem with ⟨rfl, rfl⟩ | ⟨other, mem⟩
          · exact .inl ⟨rfl, rfl⟩
          · rcases (mem_entries_base sorted).mp mem with ⟨child, here, mem⟩
            exact .inr ⟨fun same => other (List.cons.inj same).2,
              .inr ⟨k, child, r, here, mem, rfl⟩⟩
        · exact .inr ⟨fun same => other (List.cons.inj same).1, .inr ⟨k, c, r, here, mem, rfl⟩⟩
    · have chosen : (key, insertPath value path (base key n.children)) ∈ SortedPairs.alter key
          (fun child => insertPath value path (child.getD .new)) n.children :=
        (SortedPairs.mem_alter sorted).mpr (.inl ⟨rfl, rfl⟩)
      rintro (⟨rfl, rfl⟩ | ⟨other, here | ⟨k, c, r, here, mem, rfl⟩⟩)
      · exact .inr ⟨key, _, path, chosen, changed.mpr (.inl ⟨rfl, rfl⟩), rfl⟩
      · exact .inl here
      · by_cases same : k = key
        · subst same
          refine .inr ⟨k, _, r, chosen, changed.mpr (.inr ⟨?_, ?_⟩), rfl⟩
          · exact fun equal => other (equal ▸ rfl)
          · exact (mem_entries_base sorted).mpr ⟨c, here, mem⟩
        · exact .inr ⟨k, c, r, (SortedPairs.mem_alter sorted).mpr (.inr ⟨same, here⟩), mem, rfl⟩

theorem needed_insertPath :
    (insertPath value path n).isEndOfSet = true ∨ (insertPath value path n).children ≠ [] := by
  cases path with
  | nil => exact .inl rfl
  | cons key path =>
    refine .inr fun none => ?_
    rw [insertPath_children] at none
    exact alter_ne_nil none

theorem Good.insertPath (good : Good n)
    (sorted : path.Pairwise (· < ·)) : Good (insertPath value path n) := by
  induction path generalizing n with
  | nil => exact good_iff.mp good
  | cons key path ih =>
    rcases good_iff.mp good with ⟨sortedChildren, goodBelow⟩
    rcases pairwise_cons.mp sorted with ⟨above, sortedPath⟩
    have goodBase := good_base key goodBelow
    refine good_iff.mpr ⟨SortedPairs.sorted_alter sortedChildren, ?_⟩
    refine goodBelow_iff.mpr fun pair here => ?_
    rcases pair with ⟨k, c⟩
    rcases (SortedPairs.mem_alter sortedChildren).mp here with ⟨rfl, rfl⟩ | ⟨-, here⟩
    · refine ⟨⟨needed_insertPath, ?_⟩, ih goodBase sortedPath⟩
      rintro ⟨r, v⟩ mem
      rcases (mem_entries_insertPath goodBase).mp mem with ⟨rfl, -⟩ | ⟨-, mem⟩
      · exact above
      · rcases (mem_entries_base sortedChildren).mp mem with ⟨child, here, mem⟩
        exact (goodBelow_iff.mp goodBelow _ here).1.above _ mem
    · exact goodBelow_iff.mp goodBelow _ here

end Insert

end Good

end MapOfSets
end LlvmProject
