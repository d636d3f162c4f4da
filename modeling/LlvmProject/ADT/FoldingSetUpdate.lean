import LlvmProject.ADT.FoldingSet

namespace LlvmProject
namespace FoldingSet

open LinkSegment List FoldingSetImpl

/-!
# Linking and unlinking

A node is linked at the front of its bucket's chain.  To take one out, the
chase goes from the node to the end of its chain, to the bucket and then along
the chain up to what points to the node.
-/

variable {N ID : Type} [DecidableEq N] {t : Traits N ID} {s s' : FoldingSetImpl N}
variable {there : Finset N} {chain : Nat -> List N} {p : Ptr N} {n : N} {l : List N} {b : Nat}

/-! ## Linking -/

/-- The state after the node is put at the front of a bucket with an entry. -/
def FoldingSetImpl.linked (s : FoldingSetImpl N) (n : N) (b : Nat) (p : Ptr N) :
    FoldingSetImpl N where
  Buckets := s.Buckets.set b (.node n)
  NumBuckets := s.NumBuckets
  NumNodes := (s.NumNodes + 1) % 2 ^ 32
  nextInBucket := Function.update s.nextInBucket n (if p = .null then .bucket b else p)

theorem linkAt_eq (entry : s.Buckets[b]? = some p) : s.linkAt n b = some (s.linked n b p) := by
  rw [FoldingSetImpl.linkAt, entry]
  rfl

theorem Chained.front (chained : Chained s.nextInBucket b p l) :
    Segment Ptr.node s.nextInBucket (if p = .null then .bucket b else p) l (.bucket b) := by
  rcases chained with ⟨rfl, rfl⟩ | segment
  · exact if_pos rfl
  · have notNull : p ≠ .null := by
      rintro rfl
      cases l with
      | nil => exact nomatch (show Ptr.null = .bucket b from segment)
      | cons a l => exact nomatch segment.1
    rwa [if_neg notNull]

theorem Table.linked (table : Table t s there chain) (absent : n ∉ there)
    (room : s.NumNodes + 1 < 2 ^ 32) (entry : s.Buckets[s.bucketOf t n]? = some p) :
    Table t (s.linked n (s.bucketOf t n) p) (insert n there)
      (Function.update chain (s.bucketOf t n) (n :: chain (s.bucketOf t n))) := by
  have inside := bucketOf_lt (t := t) table.sized n
  have fits : s.bucketOf t n < s.Buckets.length := by
    rw [table.sized.length]
    exact Nat.lt_succ_of_lt inside
  have outside : n ∉ chain (s.bucketOf t n) := fun member =>
    absent ((table.mem _ inside n).mp member).1
  rcases table.chained _ inside with ⟨_, here, chained⟩
  cases entry.symm.trans here
  apply table.update (show (s.linked n (s.bucketOf t n) p).NumBuckets = _ from rfl)
    (length_set ..) inside
  · exact fun c differ => getElem?_set_ne differ.symm
  · intro a other _
    exact Function.update_of_ne (fun same => other (congrArg (s.bucketOf t) same)) ..
  · refine ⟨.node n, getElem?_set_self fits, .inr ⟨rfl, ?_⟩⟩
    have link : (s.linked n (s.bucketOf t n) p).nextInBucket n =
        if p = .null then .bucket (s.bucketOf t n) else p := Function.update_self ..
    rw [link]
    exact chained.front.update outside
  · exact nodup_cons.mpr ⟨outside, table.nodup _ inside⟩
  · intro m
    rw [mem_cons, table.mem _ inside m, Finset.mem_insert]
    by_cases same : m = n
    · simp [same]
    · simp [same]
  · intro m other
    rw [Finset.mem_insert, or_iff_right fun same => other (congrArg (s.bucketOf t) same)]
  · show (s.NumNodes + 1) % 2 ^ 32 = _
    rw [Nat.mod_eq_of_lt room, Finset.card_insert_of_notMem absent, table.count]

theorem Table.linkAt (table : Table t s there chain) (absent : n ∉ there)
    (room : s.NumNodes + 1 < 2 ^ 32) :
    ∃ s' chain', s.linkAt n (s.bucketOf t n) = some s' ∧
      Table t s' (insert n there) chain' ∧ s'.NumBuckets = s.NumBuckets ∧
      ∀ m ≠ n, s'.nextInBucket m = s.nextInBucket m := by
  rcases table.chained _ (bucketOf_lt (t := t) table.sized n) with ⟨p, entry, -⟩
  exact ⟨_, _, linkAt_eq entry, table.linked absent room entry, rfl,
    fun _ differ => Function.update_of_ne differ ..⟩

/-! ## Unlinking -/

/-- The chase walks along a part of a chain that does not point to the node. -/
theorem unlinkFrom_walk {q next : Ptr N} (segment : Segment Ptr.node s.nextInBucket p l q)
    (outside : n ∉ l) (notLast : q ≠ .node n) (steps : Nat) :
    s.unlinkFrom n next (steps + l.length) p = s.unlinkFrom n next steps q := by
  have passes : ∀ a ∈ l, s.nextInBucket a ≠ .node n := by
    intro a member link
    rcases segment.next_eq member with last | ⟨c, visited, inner⟩
    · exact notLast (last.symm.trans link)
    · cases inner.symm.trans link
      exact outside visited
  clear outside
  induction l generalizing p with
  | nil =>
    cases (show p = q from segment)
    rfl
  | cons a l ih =>
    rcases segment with ⟨rfl, rest⟩
    show (if s.nextInBucket a = .node n then _ else _) = _
    rw [if_neg (passes a mem_cons_self)]
    exact ih rest fun c member => passes c (mem_cons_of_mem a member)

/-- The state after the node is taken out of the count and its link cleared. -/
def FoldingSetImpl.uncounted (s : FoldingSetImpl N) (n : N) : FoldingSetImpl N where
  Buckets := s.Buckets
  NumBuckets := s.NumBuckets
  NumNodes := (s.NumNodes + 2 ^ 32 - 1) % 2 ^ 32
  nextInBucket := Function.update s.nextInBucket n .null

theorem Table.erase (table : Table t s there chain) (member : n ∈ there) (small : s.NumNodes < 2 ^
    32) {l' : List N} (buckets : s'.NumBuckets = s.NumBuckets) (nodes : s'.NumNodes = (s.uncounted
    n).NumNodes) (length : s'.Buckets.length = s.Buckets.length) (others : ∀ c, c ≠ s.bucketOf t n
    -> s'.Buckets[c]? = s.Buckets[c]?) (links : ∀ a, s.bucketOf t a ≠ s.bucketOf t n -> a ∈ there ->
    s'.nextInBucket a = s.nextInBucket a) (here : ∃ p, s'.Buckets[s.bucketOf t n]? = some p ∧
    Chained s'.nextInBucket (s.bucketOf t n) p l') (rest : l' = (chain (s.bucketOf t n)).erase n) :
    Table t s' (there.erase n) (Function.update chain (s.bucketOf t n) l') := by
  have inside := bucketOf_lt (t := t) table.sized n
  have nodup := table.nodup _ inside
  apply table.update buckets length inside others links here
  · exact rest ▸ nodup.erase n
  · intro m
    rw [rest, nodup.mem_erase_iff, table.mem _ inside m, Finset.mem_erase, and_assoc]
  · intro m other
    rw [Finset.mem_erase, and_iff_right fun same => other (congrArg (s.bucketOf t) same)]
  · have pos : 0 < s.NumNodes := table.count ▸ Finset.card_pos.mpr ⟨n, member⟩
    rw [nodes, Finset.card_erase_of_mem member, <- table.count]
    show (s.NumNodes + 2 ^ 32 - 1) % 2 ^ 32 = _
    omega

section Chase

variable {cleared : FoldingSetImpl N} (sameBuckets : cleared.Buckets = s.Buckets)
variable (unlinked : cleared.nextInBucket = Function.update s.nextInBucket n .null)
include unlinked

/-- The link of the node itself plays no role in the chase. -/
theorem segment_cleared {q : Ptr N} (segment : Segment Ptr.node s.nextInBucket p l q)
    (outside : n ∉ l) : Segment Ptr.node cleared.nextInBucket p l q :=
  unlinked ▸ segment.update outside

/-- After the bucket's entry the chase ends at the node that points to the node. -/
theorem unlinkFrom_link {m : N} {next : Ptr N} (left : Segment Ptr.node s.nextInBucket p l (.node
    m)) (outside : n ∉ l) (differ : m ≠ n) (link : s.nextInBucket m = .node n) (steps : Nat) :
    cleared.unlinkFrom n next (steps + 1 + l.length) p = some (cleared.SetNextInBucket m next) := by
  have left := segment_cleared unlinked left outside
  have link : cleared.nextInBucket m = .node n := by
    rw [unlinked, Function.update_of_ne differ, link]
  rw [unlinkFrom_walk left outside fun same => differ (Ptr.node.inj same)]
  exact if_pos link

include sameBuckets

/-- The chase goes to the end of the chain and to the bucket's entry, which may
be what points to the node. -/
theorem unlinkFrom_bucket {r : List N} {next : Ptr N} (entry : s.Buckets[b]? = some p) (right :
    Segment Ptr.node s.nextInBucket next r (.bucket b)) (outside : n ∉ r) (steps : Nat) :
    cleared.unlinkFrom n next (steps + 1 + r.length) next =
      if p = .node n then some (cleared.setBucket b next)
      else cleared.unlinkFrom n next steps p := by
  rw [unlinkFrom_walk (segment_cleared unlinked right outside) outside nofun]
  show (cleared.Buckets[b]?).bind _ = _
  rw [sameBuckets, entry]
  rfl

/-- Taking a node out of its chain changes the bucket or the link of the node before. -/
theorem unlinkFrom_eq {r : List N} (fits : b < s.Buckets.length)
    (entry : s.Buckets[b]? = some p) (left : Segment Ptr.node s.nextInBucket p l (.node n))
    (right : Segment Ptr.node s.nextInBucket (s.nextInBucket n) r (.bucket b))
    (nodup : (l ++ n :: r).Nodup) {steps : Nat} (enough : (l ++ n :: r).length < steps) :
    ∃ s', cleared.unlinkFrom n (s.nextInBucket n) steps (s.nextInBucket n) = some s' ∧
      s'.NumBuckets = cleared.NumBuckets ∧ s'.NumNodes = cleared.NumNodes ∧
      s'.Buckets.length = s.Buckets.length ∧ (∀ c ≠ b, s'.Buckets[c]? = s.Buckets[c]?) ∧
      (∀ a ∉ l ++ n :: r, s'.nextInBucket a = s.nextInBucket a) ∧ s'.nextInBucket n = .null ∧
      ∃ p', s'.Buckets[b]? = some p' ∧
        Segment Ptr.node s'.nextInBucket p' (l ++ r) (.bucket b) := by
  have apart := nodup
  rw [nodup_append, nodup_cons] at apart
  rcases apart with ⟨-, ⟨outside, -⟩, apart⟩
  have before : n ∉ l := fun twice => apart n twice n mem_cons_self rfl
  rw [length_append, length_cons] at enough
  have chase := unlinkFrom_bucket sameBuckets unlinked entry right outside (steps - r.length - 1)
  rw [show steps - r.length - 1 + 1 + r.length = steps by omega] at chase
  rcases eq_nil_or_concat l with rfl | ⟨l, m, rfl⟩
  · cases (show p = .node n from left)
    rw [if_pos rfl] at chase
    refine ⟨_, chase, rfl, rfl, ?_, ?_, ?_, ?_, s.nextInBucket n, ?_, ?_⟩
    · rw [setBucket, length_set, sameBuckets]
    · intro c differ
      rw [setBucket, getElem?_set_ne differ.symm, sameBuckets]
    · intro a notMember
      have differ : a ≠ n := fun same => notMember (same ▸ mem_cons_self)
      rw [setBucket_next, unlinked, Function.update_of_ne differ]
    · rw [setBucket_next, unlinked, Function.update_self]
    · exact getElem?_set_self (sameBuckets ▸ fits)
    · exact segment_cleared unlinked right outside
  · rw [concat_eq_append] at left nodup before apart enough ⊢
    rw [segment_concat] at left
    rcases left with ⟨left, link⟩
    rw [mem_append, mem_singleton, not_or] at before
    rw [length_append, length_singleton] at enough
    have differ : m ≠ n := fun same => before.2 same.symm
    have notHere : p ≠ .node n := by
      rintro rfl
      cases l with
      | nil => exact before.2 (Ptr.node.inj left)
      | cons a l => exact before.1 (Ptr.node.inj left.1 ▸ mem_cons_self)
    rw [if_neg notHere,
      show steps - r.length - 1 = steps - r.length - 2 - l.length + 1 + l.length by omega,
      unlinkFrom_link unlinked left before.1 differ link] at chase
    have whole : Segment Ptr.node s.nextInBucket p (l ++ m :: n :: r) (.bucket b) :=
      segment_append.mpr ⟨_, left, rfl, link, right⟩
    rw [append_assoc, singleton_append] at nodup
    refine ⟨_, chase, rfl, rfl, congrArg _ sameBuckets, ?_, ?_, ?_, p, ?_, ?_⟩
    · exact fun c _ => congrArg (·[c]?) sameBuckets
    · intro a notMember
      have other : a ≠ m := fun same => notMember (by simp [same])
      have otherToo : a ≠ n := fun same => notMember (by simp [same])
      rw [SetNextInBucket_next, Function.update_of_ne other, unlinked,
        Function.update_of_ne otherToo]
    · rw [SetNextInBucket_next, Function.update_of_ne differ.symm, unlinked, Function.update_self]
    · exact (congrArg (·[b]?) sameBuckets).trans entry
    · rw [append_assoc, singleton_append]
      apply (whole.unlink nodup).congr
      intro a member
      have other : a ≠ n := by
        rintro rfl
        rw [mem_append, mem_cons] at member
        rcases member with member | same | member
        · exact before.1 member
        · exact before.2 same
        · exact outside member
      rw [SetNextInBucket_next, unlinked]
      by_cases same : a = m
      · rw [same, Function.update_self, Function.update_self]
      · rw [Function.update_of_ne same, Function.update_of_ne other, Function.update_of_ne same]

end Chase

theorem Table.remove (table : Table t s there chain) (member : n ∈ there)
    (small : s.NumNodes < 2 ^ 32) :
    ∃ s' chain', s.RemoveNode n = some (true, s') ∧ Table t s' (there.erase n) chain' ∧
      s'.NumBuckets = s.NumBuckets ∧ s'.nextInBucket n = .null ∧
      ∀ m ∉ there, s'.nextInBucket m = s.nextInBucket m := by
  have inside := bucketOf_lt (t := t) table.sized n
  have chained := (table.mem _ inside n).mpr ⟨member, rfl⟩
  rcases table.chained _ inside with ⟨p, entry, empty | segment⟩
  · rw [empty.2] at chained
    exact nomatch chained
  · rcases append_of_mem chained with ⟨l, r, same⟩
    have nodup := same ▸ table.nodup _ inside
    rw [same] at segment
    rcases segment_append.mp segment with ⟨_, left, rfl, right⟩
    have enough : (l ++ n :: r).length < s.NumNodes + 1 :=
      same ▸ Nat.lt_succ_of_le (table.length_chain_le inside)
    have fits : s.bucketOf t n < s.Buckets.length := by
      rw [table.sized.length]
      exact Nat.lt_succ_of_lt inside
    have sameBuckets : (s.uncounted n).Buckets = s.Buckets := by rw [uncounted]
    have cleared : (s.uncounted n).nextInBucket = Function.update s.nextInBucket n .null := by
      rw [uncounted]
    rcases unlinkFrom_eq sameBuckets cleared fits entry left right nodup enough with
      ⟨s', unlinked, buckets, nodes, length, others, links, null, p', entry', segment'⟩
    have outside : n ∉ l := fun twice => by
      rw [nodup_append] at nodup
      exact nodup.2.2 n twice n mem_cons_self rfl
    have sameNumber : (s.uncounted n).NumBuckets = s.NumBuckets := by
      rw [uncounted]
    have erased := table.erase member small (buckets.trans sameNumber) nodes length others
      (fun a other _ => links a fun visited =>
        other ((table.mem _ inside a).mp (same.symm ▸ visited)).2)
      ⟨p', entry', .inr segment'⟩ (by rw [same, erase_append_right _ outside, erase_cons_head])
    refine ⟨s', _, ?_, erased, buckets.trans sameNumber, null, fun m absent => links m ?_⟩
    · rw [RemoveNode]
      simp only [if_neg (link_ne_null segment (mem_append_right l mem_cons_self))]
      show ((s.uncounted n).unlinkFrom n _ _ _).bind _ = _
      rw [unlinked]
      rfl
    · exact fun visited => absent ((table.mem _ inside m).mp (same.symm ▸ visited)).1

end FoldingSet
end LlvmProject

namespace LlvmProject

open List

namespace FoldingSet

open LinkSegment

/-!
## Growth

The nodes of the old chains are linked one after the other into a table of
twice the size, in which there is room for all of them.  While this goes on, a
node that is still to be moved keeps its old link.
-/

variable {N ID : Type} [DecidableEq N] {t : Traits N ID} {s grown : FoldingSetImpl N}
variable {there moved : Finset N} {chain : Nat -> List N} {p : Ptr N} {n : N} {l : List N}
variable {b : Nat}

/-- Clearing the link of a node outside the set. -/
theorem Table.setNext (table : Table t s there chain) (absent : n ∉ there) (p : Ptr N) :
    Table t (s.SetNextInBucket n p) there chain where
  sized := ⟨table.sized.power, table.sized.bound, table.sized.length, table.sized.last⟩
  chained := by
    intro b inside
    rcases table.chained b inside with ⟨q, entry, chained⟩
    refine ⟨q, entry, chained.congr fun a member => ?_⟩
    have differ : a ≠ n := fun same => absent (same ▸ ((table.mem b inside a).mp member).1)
    exact Function.update_of_ne differ ..
  nodup := table.nodup
  mem := table.mem
  count := table.count

theorem insertWithin_eq (growths InsertPos : Nat) (free : s.nextInBucket n = .null)
    (sized : Sized s) (room : s.NumNodes < s.NumBuckets * 2) :
    s.insertWithin t (growths + 1) n InsertPos = s.linkAt n InsertPos := by
  have bound := sized.bound
  rw [FoldingSetImpl.insertWithin, if_neg (not_not.mpr free), if_neg]
  omega

/-! ## Rehashing -/

theorem rehashFrom_eq (table : Table t grown moved chain) (segment : Segment Ptr.node
    grown.nextInBucket p l (.bucket b)) (nodup : l.Nodup) (unmoved : ∀ n ∈ l, n ∉ moved) (room :
    moved.card + l.length <= grown.NumBuckets * 2) {steps : Nat} (enough : l.length < steps) :
    ∃ grown' chain', FoldingSetImpl.rehashFrom t (FoldingSetImpl.insertWithin t 1) steps grown p =
        some grown' ∧ Table t grown' (moved ∪ l.toFinset) chain' ∧
      grown'.NumBuckets = grown.NumBuckets ∧
      ∀ m ∉ l, grown'.nextInBucket m = grown.nextInBucket m := by
  induction l generalizing grown moved chain p steps with
  | nil =>
    cases steps with
    | zero => exact nomatch enough
    | succ steps =>
      cases (show p = .bucket b from segment)
      refine ⟨grown, chain, rfl, ?_, rfl, fun _ _ => rfl⟩
      rwa [toFinset_nil, Finset.union_empty]
  | cons n l ih =>
    cases steps with
    | zero => exact nomatch enough
    | succ steps =>
      rcases segment with ⟨rfl, rest⟩
      rw [nodup_cons] at nodup
      rw [length_cons] at room enough
      have absent := unmoved n mem_cons_self
      have unlinked := table.setNext absent .null
      have cleared : (grown.SetNextInBucket n .null).nextInBucket n = .null :=
        Function.update_self ..
      have bound := table.sized.bound
      have count := table.count
      have fits : grown.NumNodes < grown.NumBuckets * 2 := by omega
      rcases unlinked.linkAt absent (show grown.NumNodes + 1 < 2 ^ 32 by omega) with
        ⟨linked, chain', link, tableLinked, buckets, others⟩
      have links : ∀ m ≠ n, linked.nextInBucket m = grown.nextInBucket m := fun m differ =>
        (others m differ).trans (Function.update_of_ne differ ..)
      have unmovedRest : ∀ m ∈ l, m ∉ insert n moved := by
        intro m member twice
        rcases Finset.mem_insert.mp twice with rfl | twice
        · exact nodup.1 member
        · exact unmoved m (mem_cons_of_mem n member) twice
      have roomRest : (insert n moved).card + l.length <= linked.NumBuckets * 2 := by
        rw [Finset.card_insert_of_notMem absent, buckets]
        show _ <= grown.NumBuckets * 2
        omega
      have segmentRest : Segment Ptr.node linked.nextInBucket (grown.nextInBucket n) l
          (.bucket b) :=
        rest.congr fun m member => links m (ne_of_mem_of_not_mem member nodup.1)
      rcases ih tableLinked segmentRest nodup.2 unmovedRest roomRest
        (Nat.lt_of_succ_lt_succ enough) with ⟨grown', chain'', rehashed, table', sizes, same⟩
      refine ⟨grown', chain'', ?_, ?_, sizes.trans buckets, ?_⟩
      · show (FoldingSetImpl.insertWithin t 1 (grown.SetNextInBucket n .null) n _).bind _ = _
        rw [insertWithin_eq 0 _ cleared unlinked.sized fits, link]
        exact rehashed
      · rwa [toFinset_cons, Finset.union_insert, <- Finset.insert_union]
      · intro m outside
        rw [mem_cons, not_or] at outside
        exact (same m outside.2).trans (links m outside.1)

/-- A chain that is still to be moved, whatever its bucket was. -/
def OldChain (grown : FoldingSetImpl N) (p : Ptr N) (l : List N) : Prop :=
  ∃ b, Chained grown.nextInBucket b p l

theorem rehashBucket_eq (table : Table t grown moved chain) (old : OldChain grown p l) (nodup :
    l.Nodup) (unmoved : ∀ n ∈ l, n ∉ moved) (room : moved.card + l.length <= grown.NumBuckets * 2)
    {steps : Nat} (enough : l.length < steps) :
    ∃ grown' chain', (if p = .null then some grown else
        FoldingSetImpl.rehashFrom t (FoldingSetImpl.insertWithin t 1) steps grown p) =
        some grown' ∧ Table t grown' (moved ∪ l.toFinset) chain' ∧
      grown'.NumBuckets = grown.NumBuckets ∧
      ∀ m ∉ l, grown'.nextInBucket m = grown.nextInBucket m := by
  rcases old with ⟨b, ⟨rfl, rfl⟩ | segment⟩
  · refine ⟨grown, chain, if_pos rfl, ?_, rfl, fun _ _ => rfl⟩
    rwa [toFinset_nil, Finset.union_empty]
  · have notNull : p ≠ .null := by
      rintro rfl
      cases l with
      | nil => exact nomatch (show Ptr.null = .bucket b from segment)
      | cons a l => exact nomatch segment.1
    rw [if_neg notNull]
    exact rehashFrom_eq table segment nodup unmoved room enough

/-- The loop over the old buckets moves the nodes of their chains. -/
theorem rehash_eq {probes : List (Ptr N)} {chains : List (List N)} {steps : Nat} (table : Table t
    grown moved chain) (old : Forall₂ (OldChain grown) probes chains) (nodup :
    chains.flatten.Nodup) (unmoved : ∀ n ∈ chains.flatten, n ∉ moved) (room : moved.card +
    chains.flatten.length <= grown.NumBuckets * 2) (enough : chains.flatten.length < steps) :
    ∃ grown' chain', probes.foldlM (fun grown Probe => if Probe = .null then some grown
        else FoldingSetImpl.rehashFrom t (FoldingSetImpl.insertWithin t 1) steps grown Probe)
        grown = some grown' ∧ Table t grown' (moved ∪ chains.flatten.toFinset) chain' ∧
      grown'.NumBuckets = grown.NumBuckets ∧
      ∀ m ∉ chains.flatten, grown'.nextInBucket m = grown.nextInBucket m := by
  induction probes generalizing grown moved chain chains with
  | nil =>
    cases old
    refine ⟨grown, chain, rfl, ?_, rfl, fun _ _ => rfl⟩
    rwa [flatten_nil, toFinset_nil, Finset.union_empty]
  | cons p probes ih =>
    cases old with
    | @cons _ l _ chains first rest =>
      rw [flatten_cons] at nodup unmoved room enough ⊢
      rw [length_append] at room enough
      rw [nodup_append] at nodup
      rcases nodup with ⟨nodupFirst, nodupRest, apart⟩
      have enoughFirst : l.length < steps := by omega
      rcases rehashBucket_eq table first nodupFirst
        (fun n member => unmoved n (mem_append_left _ member)) (by omega)
        enoughFirst with ⟨middle, chain', moves, tableMiddle, sizes, links⟩
      have oldRest : Forall₂ (OldChain middle) probes chains := by
        rw [forall₂_iff_get] at rest ⊢
        refine ⟨rest.1, fun i inside insideToo => ?_⟩
        rcases rest.2 i inside insideToo with ⟨b, chained⟩
        refine ⟨b, chained.congr fun a member => links a fun twice => ?_⟩
        exact apart a twice a (mem_flatten.mpr ⟨_, get_mem .., member⟩) rfl
      have unmovedRest : ∀ n ∈ chains.flatten, n ∉ moved ∪ l.toFinset := by
        intro n member twice
        rw [Finset.mem_union, mem_toFinset] at twice
        rcases twice with twice | twice
        · exact unmoved n (mem_append_right l member) twice
        · exact apart n twice n member rfl
      have roomRest : (moved ∪ l.toFinset).card + chains.flatten.length <=
          middle.NumBuckets * 2 := by
        have union := Finset.card_union_le moved l.toFinset
        have few := l.toFinset_card_le
        rw [sizes]
        omega
      rcases ih tableMiddle oldRest nodupRest unmovedRest roomRest
        (by omega) with ⟨grown', chain'', rehashed, table', sizesToo, linksToo⟩
      refine ⟨grown', chain'', ?_, ?_, sizesToo.trans sizes, ?_⟩
      · rw [foldlM_cons, moves]
        exact rehashed
      · rwa [toFinset_append, <- Finset.union_assoc]
      · intro m outside
        rw [mem_append, not_or] at outside
        exact (linksToo m outside.2).trans (links m outside.1)

/-! ## The new table -/

theorem Table.grow (table : Table t s there chain) (loaded : s.NumNodes <= s.NumBuckets * 2)
    (fits : s.NumBuckets * 2 < 2 ^ 31) :
    ∃ grown chain', FoldingSetImpl.GrowHashTable t (FoldingSetImpl.insertWithin t 1) s =
        some grown ∧ Table t grown there chain' ∧ grown.NumBuckets = s.NumBuckets * 2 ∧
      ∀ m ∉ there, grown.nextInBucket m = s.nextInBucket m := by
  have doubled : s.NumBuckets * 2 % 2 ^ 32 = s.NumBuckets * 2 := Nat.mod_eq_of_lt (by omega)
  let cleared : FoldingSetImpl N := { s with
    Buckets := AllocateBuckets (s.NumBuckets * 2), NumBuckets := s.NumBuckets * 2, NumNodes := 0 }
  have start : Table t cleared ∅ fun _ => [] := by
    rcases table.sized.power with ⟨k, power⟩
    exact Table.empty ⟨k + 1, by rw [pow_succ, <- power]⟩ fits rfl rfl
  let chains := (range s.NumBuckets).map chain
  have flatten : chains.flatten = (range s.NumBuckets).flatMap chain := flatMap_def.symm
  have old : Forall₂ (OldChain cleared) (s.Buckets.take s.NumBuckets) chains := by
    rw [forall₂_iff_get]
    have length := table.sized.length
    refine ⟨by simp [chains, length], fun i inside insideToo => ?_⟩
    have bound : i < s.NumBuckets := by simpa [chains] using insideToo
    rcases table.chained i bound with ⟨p, entry, chained⟩
    refine ⟨i, ?_⟩
    rcases List.getElem?_eq_some_iff.mp entry with ⟨here, same⟩
    simpa [chains, same] using chained
  have room : (∅ : Finset N).card + chains.flatten.length <= cleared.NumBuckets * 2 := by
    rw [flatten, table.length_flatMap, Finset.card_empty]
    show _ <= s.NumBuckets * 2 * 2
    omega
  have enough : chains.flatten.length < s.NumNodes + 1 := by
    rw [flatten, table.length_flatMap]
    exact Nat.lt_succ_self _
  rcases rehash_eq start old (flatten ▸ table.nodup_flatMap) (by simp) room enough with
    ⟨grown, chain', rehashed, table', sizes, links⟩
  rw [flatten] at table' links
  rw [Finset.empty_union, table.toFinset_flatMap] at table'
  refine ⟨grown, chain', ?_, table', sizes, fun m absent => links m fun member =>
    absent (table.mem_flatMap.mp member)⟩
  rw [FoldingSetImpl.GrowHashTable]
  simp only [doubled]
  exact rehashed

theorem Table.insertNode (table : Table t s there chain) (free : s.nextInBucket n = .null)
    (absent : n ∉ there) (loaded : s.NumNodes <= s.NumBuckets * 2)
    (fits : s.NumNodes = s.NumBuckets * 2 -> s.NumBuckets * 2 < 2 ^ 31) :
    ∃ s' chain', s.InsertNode t n (s.bucketOf t n) = some s' ∧
      Table t s' (insert n there) chain' ∧ s'.NumNodes <= s'.NumBuckets * 2 ∧
      ∀ m ≠ n, m ∉ there -> s'.nextInBucket m = s.nextInBucket m := by
  have bound := table.sized.bound
  by_cases room : s.NumNodes < s.NumBuckets * 2
  · rcases table.linkAt absent (by omega) with ⟨s', chain', linked, table', sizes, links⟩
    refine ⟨s', chain', ?_, table', ?_, fun m differ _ => links m differ⟩
    · rw [FoldingSetImpl.InsertNode, insertWithin_eq 1 _ free table.sized room, linked]
    · rw [table'.count, Finset.card_insert_of_notMem absent, <- table.count, sizes]
      omega
  · have full : s.NumNodes = s.NumBuckets * 2 := by omega
    rcases table.grow loaded (fits full) with ⟨grown, chain', grows, tableGrown, sizes, links⟩
    have count := tableGrown.count.trans table.count.symm
    rcases tableGrown.linkAt absent (by omega) with
      ⟨s', chain'', linked, table', sizesToo, linksToo⟩
    refine ⟨s', chain'', ?_, table', ?_, fun m differ outside =>
      (linksToo m differ).trans (links m outside)⟩
    · have grow : s.NumBuckets * 2 % 2 ^ 32 < (s.NumNodes + 1) % 2 ^ 32 := by omega
      rw [FoldingSetImpl.InsertNode, FoldingSetImpl.insertWithin, if_neg (not_not.mpr free),
        if_pos grow, grows]
      exact linked
    · rw [table'.count, Finset.card_insert_of_notMem absent, <- table.count, sizesToo, sizes]
      have pos : 0 < s.NumBuckets := by
        rcases table.sized.power with ⟨k, power⟩
        exact power ▸ Nat.two_pow_pos k
      omega

end FoldingSet
end LlvmProject
