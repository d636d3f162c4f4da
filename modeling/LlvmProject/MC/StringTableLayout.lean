import LlvmProject.MC.StringTableBuilder

namespace LlvmProject

open List

namespace StringTableBuilder

/-!
# The layout of string tables

The table always ends with the string that was added last and a NUL byte, and the string that
was processed last is a suffix of it.  A string that is a suffix of another one comes after
it in the order, so it is a suffix of whatever was processed directly before it.
-/

/-! ## Strings in a table -/

section Tables

variable {table more : List UInt8} {s p : List UInt8} {offset : Nat}

/-- The string and a NUL byte are stored at the offset. -/
def StoredAt (table s : List UInt8) (offset : Nat) : Prop := s ++ [0] <+: table.drop offset

theorem StoredAt.append (stored : StoredAt table s offset) (more : List UInt8) :
    StoredAt (table ++ more) s offset := by
  unfold StoredAt at *
  rw [drop_append]
  exact stored.trans (prefix_append _ _)

theorem storedAt_end (table s : List UInt8) : StoredAt (table ++ (s ++ [0])) s table.length := by
  unfold StoredAt
  rw [drop_left]

theorem storedAt_suffix (ends : p ++ [0] <:+ table) (isSuffix : s <:+ p) :
    StoredAt table s (table.length - 1 - s.length) := by
  rcases ends with ⟨before, rfl⟩
  rcases isSuffix with ⟨front, rfl⟩
  have split : before ++ (front ++ s ++ [0]) = (before ++ front) ++ (s ++ [0]) := by simp
  have offset : (before ++ (front ++ s ++ [0])).length - 1 - s.length =
      (before ++ front).length := by
    simp only [length_append, length_singleton]
    omega
  rw [offset, split]
  exact storedAt_end (before ++ front) s

/-- The first bytes of a table may be overwritten. -/
theorem StoredAt.overwrite (stored : StoredAt table s offset) {start : List UInt8}
    (after : start.length <= offset) : StoredAt (start ++ table.drop start.length) s offset := by
  unfold StoredAt at *
  have rest : (start ++ table.drop start.length).drop offset = table.drop offset := by
    rw [drop_append, drop_eq_nil_of_le after, nil_append, drop_drop]
    congr 1
    omega
  rw [rest]
  exact stored

end Tables

/-! ## The map -/

section Map

variable (this : StringTableBuilder) (s : List UInt8) (offset : Nat) (bytes : List UInt8)

@[simp] theorem keys_setOffset : (this.setOffset s offset).keys = this.keys := by
  have same : Prod.fst ∘ (fun entry : List UInt8 × Nat =>
      if entry.1 = s then (entry.1, offset) else entry) = Prod.fst := by
    funext entry
    simp only [Function.comp_apply]
    split <;> rfl
  rw [keys, setOffset, map_map, same, keys]

@[simp] theorem StringTable_setOffset :
    (this.setOffset s offset).StringTable = this.StringTable := rfl

@[simp] theorem keys_append : (this.append bytes).keys = this.keys := rfl

@[simp] theorem StringTable_append :
    (this.append bytes).StringTable = this.StringTable ++ bytes := rfl

@[simp] theorem getOffset_append : (this.append bytes).getOffset s = this.getOffset s := rfl

end Map

section Offsets

variable {s t : List UInt8} {offset : Nat}

theorem find?_assigned (entries : List (List UInt8 × Nat)) (mem : s ∈ entries.map Prod.fst) :
    ((entries.map fun entry => if entry.1 = s then (entry.1, offset) else entry).find?
      fun entry => decide (entry.1 = s)).map Prod.snd = some offset := by
  induction entries with
  | nil => exact absurd mem not_mem_nil
  | cons entry entries ih =>
    by_cases here : entry.1 = s
    · simp [here]
    · rw [map_cons, mem_cons] at mem
      have later := ih (mem.resolve_left (Ne.symm here))
      simp only [map_cons, if_neg here, find?_cons, decide_eq_false here]
      exact later

theorem find?_others (ne : t ≠ s) (entries : List (List UInt8 × Nat)) :
    ((entries.map fun entry => if entry.1 = s then (entry.1, offset) else entry).find?
      fun entry => decide (entry.1 = t)).map Prod.snd =
      (entries.find? fun entry => decide (entry.1 = t)).map Prod.snd := by
  induction entries with
  | nil => rfl
  | cons entry entries ih =>
    by_cases here : entry.1 = s
    · have other : entry.1 ≠ t := fun same => ne (same.symm.trans here)
      simp only [map_cons, if_pos here, find?_cons, decide_eq_false other]
      exact ih
    · by_cases found : entry.1 = t
      · simp only [map_cons, if_neg here, find?_cons, decide_eq_true found]
      · simp only [map_cons, if_neg here, find?_cons, decide_eq_false found]
        exact ih

theorem getOffset_setOffset_self (this : StringTableBuilder) (offset : Nat)
    (mem : s ∈ this.keys) : (this.setOffset s offset).getOffset s = some offset :=
  find?_assigned this.StringIndexMap mem

theorem getOffset_setOffset_of_ne (this : StringTableBuilder) (offset : Nat)
    (ne : t ≠ s) : (this.setOffset s offset).getOffset t = this.getOffset t :=
  find?_others ne this.StringIndexMap

end Offsets

/-! ## The loop -/

/-- What holds when some of the sorted strings are processed. -/
structure Merged (kind : Kind) (keys done emitted : List (List UInt8))
    (state : StringTableBuilder × List UInt8) : Prop where
  sameKeys : state.1.keys = keys
  table : state.1.StringTable = header kind ++ (emitted.map (· ++ [0])).flatten
  ends : state.2 ++ [0] <:+ state.1.StringTable
  previous : state.2 = [] ∨ (header kind).length + state.2.length + 1 <= state.1.StringTable.length
  last : ∀ s, done.getLast? = some s -> s <:+ state.2
  found : ∀ s ∈ done, ∃ offset, state.1.getOffset s = some offset ∧
    StoredAt state.1.StringTable s offset ∧ (s ≠ [] -> (header kind).length <= offset)
  maximal : ∀ s ∈ emitted, s ∈ keys ∧ ∀ t ∈ keys, s <:+ t -> s = t

section Loop

variable {kind : Kind} {keys done emitted rest : List (List UInt8)} {s : List UInt8}
  {state : StringTableBuilder × List UInt8}

section

variable (merged : Merged kind keys done emitted state)
include merged

/-- A proper suffix of a string of the set is a suffix of the string that was added last. -/
theorem Merged.suffix (sorted : (done ++ s :: rest).Pairwise NotAfter) {t : List UInt8}
    (isSuffix : s <:+ t) (ne : s ≠ t) (mem : t ∈ done ++ s :: rest) : s <:+ state.2 := by
  rcases pairwise_append.mp sorted with ⟨ordered, others, across⟩
  have inDone : t ∈ done := by
    rcases mem_append.mp mem with inDone | later
    · exact inDone
    · rcases mem_cons.mp later with rfl | inRest
      · exact absurd rfl ne
      · exact absurd ((pairwise_cons.mp others).1 t inRest)
          (not_notAfter_of_suffix isSuffix ne)
  rcases eq_nil_or_concat done with rfl | ⟨front, latest, rfl⟩
  · exact absurd inDone not_mem_nil
  · rw [concat_eq_append] at *
    have near := merged.last latest getLast?_concat
    have before : NotAfter latest s :=
      across latest (mem_append_right front mem_cons_self) s mem_cons_self
    rcases mem_append.mp inDone with inFront | isLatest
    · have after := (pairwise_append.mp ordered).2.2 t inFront latest mem_cons_self
      exact (suffix_of_between isSuffix after before).trans near
    · rw [mem_singleton.mp isLatest] at isSuffix
      exact isSuffix.trans near

/-- One round of the loop. -/
theorem Merged.step (sorted : (done ++ s :: rest).Pairwise NotAfter) (whole : ∀ t, t ∈ keys ↔ t ∈
    done ++ s :: rest) (long : kind = .WinCOFF -> s.length > NameSize) :
    ∃ state' emitted', mergeString kind state s = some state' ∧
      Merged kind keys (done ++ [s]) emitted' state' := by
  rcases state with ⟨this, Previous⟩
  have inKeys : s ∈ keys := (whole s).mpr (mem_append_right done mem_cons_self)
  have inMap : s ∈ this.keys := by
    rw [merged.sameKeys]
    exact inKeys
  have allowed : ¬(kind = .WinCOFF ∧ ¬s.length > NameSize) := fun both => both.2 (long both.1)
  -- What is known about the strings before stays true.
  have old (offset : Nat) (bytes : List UInt8) :
      ∀ t ∈ done, t ≠ s -> ∃ place,
        ((this.setOffset s offset).append bytes).getOffset t = some place ∧
        StoredAt ((this.setOffset s offset).append bytes).StringTable t place ∧
        (t ≠ [] -> (header kind).length <= place) := by
    intro t mem ne
    rcases merged.found t mem with ⟨place, isThere, stored, after⟩
    refine ⟨place, ?_, stored.append bytes, after⟩
    rw [getOffset_append, getOffset_setOffset_of_ne this offset ne]
    exact isThere
  by_cases isSuffix : s <:+ Previous
  · refine ⟨(this.setOffset s (this.StringTable.length - 1 - s.length), Previous), emitted, ?_, ?_⟩
    · rw [mergeString]
      simp only [if_neg allowed, if_pos isSuffix]
    · refine ⟨?_, merged.table, merged.ends, merged.previous, ?_, ?_, merged.maximal⟩
      · rw [keys_setOffset, merged.sameKeys]
      · intro t isLast
        rw [getLast?_concat, Option.some.injEq] at isLast
        exact isLast ▸ isSuffix
      · intro t mem
        by_cases same : t = s
        · rw [same]
          refine ⟨_, getOffset_setOffset_self this _ inMap,
            storedAt_suffix merged.ends isSuffix, fun nonempty => ?_⟩
          have pos := length_pos_of_ne_nil nonempty
          have shorter := isSuffix.length_le
          rcases merged.previous with empty | room
          · rw [show Previous = [] from empty] at shorter
            rw [length_nil] at shorter
            omega
          · change (header kind).length + Previous.length + 1 <= this.StringTable.length at room
            omega
        · have inDone : t ∈ done := by
            simpa [same] using mem
          have kept := old (this.StringTable.length - 1 - s.length) [] t inDone same
          simpa only [getOffset_append, StringTable_append, append_nil] using kept
  · refine ⟨((this.setOffset s this.StringTable.length).append (s ++ [0]), s), emitted ++ [s],
      ?_, ?_⟩
    · rw [mergeString]
      simp only [if_neg allowed, if_neg isSuffix]
    · have table : this.StringTable = header kind ++ (emitted.map (· ++ [0])).flatten :=
        merged.table
      refine ⟨?_, ?_, ?_, ?_, ?_, ?_, ?_⟩
      · rw [keys_append, keys_setOffset, merged.sameKeys]
      · rw [StringTable_append, StringTable_setOffset, table, map_append,
          flatten_append, append_assoc]
        simp
      · exact suffix_append _ _
      · right
        rw [StringTable_append, StringTable_setOffset, table]
        simp only [length_append, length_singleton]
        omega
      · intro t isLast
        rw [getLast?_concat, Option.some.injEq] at isLast
        rw [isLast]
      · intro t mem
        by_cases same : t = s
        · rw [same]
          refine ⟨this.StringTable.length, ?_, storedAt_end _ s, fun _ => ?_⟩
          · rw [getOffset_append]
            exact getOffset_setOffset_self this _ inMap
          · rw [table, length_append]
            omega
        · exact old _ _ t (by simpa [same] using mem) same
      · intro t mem
        rcases mem_append.mp mem with before | isNew
        · exact merged.maximal t before
        · rw [mem_singleton.mp isNew]
          refine ⟨inKeys, fun other inSet longer => ?_⟩
          by_contra ne
          exact isSuffix (merged.suffix sorted longer ne ((whole other).mp inSet))

/-- The loop over the sorted strings. -/
theorem Merged.run (sorted : (done ++ rest).Pairwise NotAfter) (whole : ∀ t, t ∈ keys ↔ t ∈ done ++
    rest) (long : kind = .WinCOFF -> ∀ s ∈ rest, s.length > NameSize) :
    ∃ state' emitted', rest.foldlM (mergeString kind) state = some state' ∧
      Merged kind keys (done ++ rest) emitted' state' := by
  induction rest generalizing done emitted state with
  | nil =>
    rw [append_nil]
    exact ⟨state, emitted, rfl, merged⟩
  | cons s rest ih =>
    rcases merged.step sorted whole fun coff => long coff s mem_cons_self with
      ⟨next, emitted', stepped, mergedNext⟩
    have regroup : done ++ s :: rest = (done ++ [s]) ++ rest := by simp
    rw [regroup] at sorted whole ⊢
    rw [foldlM_cons, stepped]
    exact ih mergedNext sorted whole
      fun coff t mem => long coff t (mem_cons_of_mem s mem)

end

theorem merged_start (this : StringTableBuilder) (kind : Kind) (fresh : this.StringTable = []) :
    Merged kind this.keys [] [] (this.append (header kind), []) := by
  refine ⟨rfl, ?_, ?_, .inl rfl, ?_, ?_, ?_⟩
  · rw [StringTable_append, fresh]
    simp
  · rw [StringTable_append, fresh]
    cases kind
    · exact suffix_rfl
    · exact ⟨[0, 0, 0], rfl⟩
    · exact suffix_rfl
  · simp
  · simp
  · simp

end Loop

/-! ## The finished table -/

/-- The table is the header, the strings that were added, each with a NUL byte, and padding.  Only
strings that are no suffix of another string are added, and every string is found at its offset.
The table of a COFF file is refused if its size does not fit into the header. -/
theorem finalize_valid (this : StringTableBuilder) (kind : Kind) (fresh : this.StringTable = [])
    (long : kind = .WinCOFF -> ∀ s ∈ this.keys, s.length > NameSize) :
    ∃ emitted : List (List UInt8),
      (∀ s ∈ emitted, s ∈ this.keys ∧ ∀ t ∈ this.keys, s <:+ t -> s = t) ∧
      if kind = .WinCOFF ∧ 2 ^ 32 <= 4 + (emitted.map (· ++ [0])).flatten.length then
        this.finalize kind = none
      else ∃ result, this.finalize kind = some result ∧
        (∃ start padding,
          result.StringTable = start ++ (emitted.map (· ++ [0])).flatten ++ padding ∧
          start.length = (header kind).length ∧ ∀ c ∈ padding, c = 0) ∧
        ∀ s ∈ this.keys, ∃ offset, result.getOffset s = some offset ∧
          StoredAt result.StringTable s offset := by
  have perm := perm_insertionSort NotAfter this.keys
  have sorted := pairwise_insertionSort NotAfter this.keys
  have unfolded : this.finalize kind = ((this.keys.insertionSort NotAfter).foldlM
      (mergeString kind) (this.append (header kind), [])).bind fun state =>
        finish kind state.1 := rfl
  generalize this.keys.insertionSort NotAfter = Strings at perm sorted unfolded
  rcases (merged_start this kind fresh).run sorted (fun t => perm.mem_iff.symm)
      (fun coff s mem => long coff s (perm.mem_iff.mp mem)) with
    ⟨⟨built, Previous⟩, emitted, ran, merged⟩
  have finalized : this.finalize kind = finish kind built := by
    rw [unfolded, ran, Option.bind_some]
  have table : built.StringTable = header kind ++ (emitted.map (· ++ [0])).flatten := merged.table
  have found (s : List UInt8) (mem : s ∈ this.keys) := merged.found s (perm.mem_iff.mpr mem)
  refine ⟨emitted, merged.maximal, ?_⟩
  rw [finalized]
  cases kind with
  | ELF =>
    rw [if_neg (by simp)]
    refine ⟨built, rfl, ⟨[0], [], ?_, rfl, by simp⟩, fun s mem => ?_⟩
    · rw [table, append_nil]
      rfl
    · rcases found s mem with ⟨offset, isThere, stored, _⟩
      exact ⟨offset, isThere, stored⟩
  | MachO =>
    rw [if_neg (by simp)]
    have finished : finish .MachO built = some (built.append
        (replicate ((4 - built.StringTable.length % 4) % 4) 0)) := rfl
    generalize (4 - built.StringTable.length % 4) % 4 = zeros at finished
    refine ⟨_, finished, ⟨[0], replicate zeros 0, ?_, rfl, fun c mem => ?_⟩, fun s mem => ?_⟩
    · rw [StringTable_append, table]
      rfl
    · exact eq_of_mem_replicate mem
    · rcases found s mem with ⟨offset, isThere, stored, _⟩
      exact ⟨offset, isThere, stored.append _⟩
  | WinCOFF =>
    have size : built.StringTable.length = 4 + (emitted.map (· ++ [0])).flatten.length := by
      rw [table, length_append]
      rfl
    rw [finish]
    simp only [size, true_and]
    by_cases large : 2 ^ 32 <= 4 + (emitted.map (· ++ [0])).flatten.length
    · rw [if_pos large, if_neg (Nat.not_lt_of_le large)]
    · rw [if_neg large, if_pos (Nat.lt_of_not_le large)]
      refine ⟨_, rfl, ⟨littleEndian32 (4 + (emitted.map (· ++ [0])).flatten.length), [], ?_, rfl,
        by simp⟩, fun s mem => ?_⟩
      · rw [table, append_nil]
        rfl
      · rcases found s mem with ⟨offset, isThere, stored, after⟩
        have nonempty : s ≠ [] := by
          have bound := long rfl s mem
          rintro rfl
          exact absurd bound (by decide)
        exact ⟨offset, isThere, stored.overwrite (after nonempty)⟩

theorem finalize_valid_suffix :
    ∃ emitted : List (List UInt8),
      (∀ s ∈ emitted, s ∈ [[98], [97, 98], []] ∧ ∀ t ∈ [[98], [97, 98], []], s <:+ t -> s = t) ∧
      (⟨[], [([98], 0), ([97, 98], 0), ([], 0)], by decide⟩ : StringTableBuilder).finalize .ELF ≠
        none := by
  rcases finalize_valid ⟨[], [([98], 0), ([97, 98], 0), ([], 0)], by decide⟩ .ELF rfl
    (by simp) with ⟨emitted, maximal, table⟩
  rw [if_neg (by simp)] at table
  rcases table with ⟨result, finalized, _⟩
  exact ⟨emitted, maximal, by rw [finalized]; exact Option.some_ne_none result⟩

end StringTableBuilder
end LlvmProject
