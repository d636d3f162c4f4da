import Mathlib.Data.BitVec
import Mathlib.Data.Nat.Bitwise

namespace LlvmProject

open List BitVec Option

namespace FoldingSetNodeID

/-!
# Folding set profiles

A node's profile is a sequence of 32-bit words to which its fields are added
one after the other.  Nothing in it tells where a field ends: a 64-bit integer
takes one word or two, and a string its size and then its bytes.

Sizes and positions in a string are `unsigned`, and the bytes of a string are
read in the host's order, four at a time where the data is aligned.
-/

abbrev Byte := BitVec 8

abbrev Word := BitVec 32

/-! ## Host -/

inductive Endian where
  | little | big
  deriving DecidableEq

/-- The `unsigned` at the address of the first of four bytes. -/
def Endian.load : Endian -> Byte -> Byte -> Byte -> Byte -> Word
  | little, b0, b1, b2, b3 => b3 ++ b2 ++ b1 ++ b0
  | big, b0, b1, b2, b3 => b0 ++ b1 ++ b2 ++ b3

/-- Four bytes put together by shifts, the most significant first. -/
def combine (b3 b2 b1 b0 : Byte) : Word :=
  b3.setWidth 32 <<< 24 ||| b2.setWidth 32 <<< 16 ||| b1.setWidth 32 <<< 8 ||| b0.setWidth 32

def Endian.assemble : Endian -> Byte -> Byte -> Byte -> Byte -> Word
  | little, b0, b1, b2, b3 => combine b3 b2 b1 b0
  | big, b0, b1, b2, b3 => combine b0 b1 b2 b3

/-! ## Adding fields -/

def AddInteger32 (ID : List Word) (I : BitVec 32) : List Word := ID ++ [I]

/-- The high word is added only if it is not zero. -/
def AddInteger64 (ID : List Word) (I : BitVec 64) : List Word :=
  let low := AddInteger32 ID (I.setWidth 32)
  if (I.setWidth 32).setWidth 64 ≠ I then low ++ [(I >>> 32).setWidth 32] else low

section Strings

variable (host : Endian)

/-- The bulk transfer of a number of words. -/
def alignedWords : Nat -> List Byte -> List Word
  | Units + 1, b0 :: b1 :: b2 :: b3 :: rest => host.load b0 b1 b2 b3 :: alignedWords Units rest
  | _, _ => []

/-- The loop over the string that is not aligned, with the position after it.
It reads outside the string, or does not end, where there is no result. -/
def unalignedWords (String : List Byte) (Size : Nat) : Nat -> Nat -> Option (List Word × Nat)
  | 0, _ => none
  | rounds + 1, Pos =>
    if Pos <= Size then do
      let b0 <- String[(Pos + 2 ^ 32 - 4) % 2 ^ 32]?
      let b1 <- String[(Pos + 2 ^ 32 - 3) % 2 ^ 32]?
      let b2 <- String[(Pos + 2 ^ 32 - 2) % 2 ^ 32]?
      let b3 <- String[(Pos + 2 ^ 32 - 1) % 2 ^ 32]?
      let (words, last) <- unalignedWords String Size rounds ((Pos + 4) % 2 ^ 32)
      some (host.assemble b0 b1 b2 b3 :: words, last)
    else some ([], Pos)

def shiftIn (V : Word) (b : Byte) : Word := V <<< 8 ||| b.setWidth 32

/-- The word for the bytes left over, by how much the position overshoots the size. -/
def leftover (String : List Byte) (Size : Nat) : Nat -> Option Word
  | 1 => some (shiftIn (shiftIn (shiftIn 0 (String.getD (Size - 3) 0))
      (String.getD (Size - 2) 0)) (String.getD (Size - 1) 0))
  | 2 => some (shiftIn (shiftIn 0 (String.getD (Size - 2) 0)) (String.getD (Size - 1) 0))
  | 3 => some (shiftIn 0 (String.getD (Size - 1) 0))
  | _ => none

/-- The full words of a string whose data is at a multiple of four, or not, and
the position after them. -/
def transfer (aligned : Bool) (String : List Byte) (Size : Nat) : Option (List Word × Nat) :=
  let Units := Size / 4
  if aligned then some (alignedWords host Units String, (Units + 1) * 4 % 2 ^ 32)
  else unalignedWords host String Size (Units + 1) 4

/-- The size, the full words and a word for what is left over. -/
def AddString (aligned : Bool) (ID : List Word) (String : List Byte) : Option (List Word) :=
  let Size := String.length % 2 ^ 32
  let sized := ID ++ [BitVec.ofNat 32 Size]
  if Size = 0 then some sized
  else do
    let (words, Pos) <- transfer host aligned String Size
    some (sized ++ words ++ (leftover String Size ((Pos + 2 ^ 32 - Size) % 2 ^ 32)).toList)

end Strings

/-- `operator==`. -/
def equal (l r : List Word) : Bool :=
  if l.length ≠ r.length then false else (l.zip r).all fun pair => pair.1 == pair.2

/-! ## Profiles -/

inductive Kind where
  | int32 | int64 | string
  deriving DecidableEq

inductive Field where
  | int32 (I : BitVec 32)
  | int64 (I : BitVec 64)
  | string (String : List Byte)
  deriving DecidableEq

def Field.kind : Field -> Kind
  | int32 _ => .int32
  | int64 _ => .int64
  | string _ => .string

/-- The call that adds a field.  The flag says whether a string's data is aligned. -/
def Add (host : Endian) (ID : List Word) : Field × Bool -> Option (List Word)
  | (.int32 I, _) => some (AddInteger32 ID I)
  | (.int64 I, _) => some (AddInteger64 ID I)
  | (.string String, aligned) => AddString host aligned ID String

def profile (host : Endian) (calls : List (Field × Bool)) : Option (List Word) :=
  calls.foldlM (Add host) []

/-- Calls of given kinds with strings of at most `limit` bytes. -/
structure Calls (kinds : List Kind) (limit : Nat) (calls : List (Field × Bool)) : Prop where
  kinds_eq : calls.map (·.1.kind) = kinds
  short : ∀ String aligned, (Field.string String, aligned) ∈ calls -> String.length <= limit

/-- Calls with different fields give different profiles. -/
def Faithful (host : Endian) (kinds : List Kind) (limit : Nat) : Prop :=
  ∀ calls calls', Calls kinds limit calls -> Calls kinds limit calls' ->
    calls.map Prod.fst ≠ calls'.map Prod.fst ->
    ∃ ID ID', profile host calls = some ID ∧ profile host calls' = some ID' ∧ equal ID ID' = false

/-- Only 32-bit integers come after a 64-bit integer. -/
def LongLast : List Kind -> Prop
  | [] => True
  | .int64 :: rest => ∀ kind ∈ rest, kind = .int32
  | _ :: rest => LongLast rest

/-! ## Words and bytes -/

theorem equal_iff {l r : List Word} : equal l r = true ↔ l = r := by
  unfold equal
  constructor
  · intro same
    split at same
    · exact nomatch same
    · rename_i length
      apply ext_getElem (not_not.mp length)
      intro i left right
      have here := List.all_eq_true.mp same (l[i], r[i]) (by
        rw [mem_iff_getElem]
        exact ⟨i, by simp [left, right], by simp⟩)
      exact beq_iff_eq.mp here
  · rintro rfl
    rw [if_neg (not_not.mpr rfl), List.all_eq_true]
    intro pair found
    rcases mem_iff_getElem.mp found with ⟨i, _, rfl⟩
    simp

theorem combine_eq (b3 b2 b1 b0 : Byte) : combine b3 b2 b1 b0 = b3 ++ b2 ++ b1 ++ b0 := by
  ext i below
  simp [combine]
  grind

theorem Endian.assemble_eq (host : Endian) (b0 b1 b2 b3 : Byte) :
    host.assemble b0 b1 b2 b3 = host.load b0 b1 b2 b3 := by
  cases host with
  | little => exact combine_eq b3 b2 b1 b0
  | big => exact combine_eq b0 b1 b2 b3

theorem append_toNat {n : Nat} (x : BitVec n) (b : Byte) :
    (x ++ b).toNat = x.toNat * 256 + b.toNat := by
  rw [toNat_append, <- Nat.shiftLeft_add_eq_or_of_lt b.isLt, Nat.shiftLeft_eq]

theorem append_append_inj {b0 b1 b2 b3 c0 c1 c2 c3 : Byte}
    (same : b3 ++ b2 ++ b1 ++ b0 = c3 ++ c2 ++ c1 ++ c0) :
    b3 = c3 ∧ b2 = c2 ∧ b1 = c1 ∧ b0 = c0 := by
  have values := congrArg BitVec.toNat same
  simp only [append_toNat] at values
  simp only [toNat_inj.symm]
  omega

theorem Endian.load_inj {host : Endian} {b0 b1 b2 b3 c0 c1 c2 c3 : Byte}
    (same : host.load b0 b1 b2 b3 = host.load c0 c1 c2 c3) :
    b0 = c0 ∧ b1 = c1 ∧ b2 = c2 ∧ b3 = c3 := by
  cases host with
  | little =>
    rcases append_append_inj same with ⟨three, two, one, zero⟩
    exact ⟨zero, one, two, three⟩
  | big => exact append_append_inj same

theorem shiftIn_toNat {V : Word} (b : Byte) (small : V.toNat < 2 ^ 24) :
    (shiftIn V b).toNat = V.toNat * 256 + b.toNat := by
  have wide : (b.setWidth 32).toNat = b.toNat := by
    rw [toNat_setWidth, Nat.mod_eq_of_lt (by omega)]
  rw [shiftIn, toNat_or, toNat_shiftLeft, Nat.shiftLeft_eq,
    Nat.mod_eq_of_lt (by omega), wide, <- Nat.shiftLeft_eq,
    <- Nat.shiftLeft_add_eq_or_of_lt b.isLt, Nat.shiftLeft_eq]

theorem shiftIn_inj {V V' : Word} {b b' : Byte} (small : V.toNat < 2 ^ 24)
    (small' : V'.toNat < 2 ^ 24) (same : shiftIn V b = shiftIn V' b') : V = V' ∧ b = b' := by
  have values := congrArg BitVec.toNat same
  rw [shiftIn_toNat b small, shiftIn_toNat b' small'] at values
  have bound := b.isLt
  have bound' := b'.isLt
  exact ⟨eq_of_toNat_eq (by omega), eq_of_toNat_eq (by omega)⟩

theorem shiftIn_lt {V : Word} {k : Nat} (b : Byte) (small : V.toNat < 2 ^ k) (few : k <= 24) :
    (shiftIn V b).toNat < 2 ^ (k + 8) := by
  have bound := b.isLt
  have power : 2 ^ k <= 2 ^ 24 := Nat.pow_le_pow_right (by omega) few
  rw [shiftIn_toNat b (by omega), pow_add]
  omega

theorem shiftIn_zero_lt (b0 b1 : Byte) :
    (shiftIn 0 b0).toNat < 2 ^ 24 ∧ (shiftIn (shiftIn 0 b0) b1).toNat < 2 ^ 24 := by
  have one : (shiftIn 0 b0).toNat < 2 ^ 8 := shiftIn_lt b0 (k := 0) (by decide) (by omega)
  have two := shiftIn_lt b1 one (by omega)
  exact ⟨by omega, by omega⟩

/-! ## Words of a string -/

/-- The words that follow the size. -/
def stringWords (host : Endian) : List Byte -> List Word
  | b0 :: b1 :: b2 :: b3 :: rest => host.load b0 b1 b2 b3 :: stringWords host rest
  | [b0, b1, b2] => [shiftIn (shiftIn (shiftIn 0 b0) b1) b2]
  | [b0, b1] => [shiftIn (shiftIn 0 b0) b1]
  | [b0] => [shiftIn 0 b0]
  | [] => []

variable {host : Endian}

theorem leftover_cons (b : Byte) (String : List Byte) {excess : Nat} (pos : 0 < excess)
    (enough : 4 <= String.length + excess) :
    leftover (b :: String) (String.length + 1) excess = leftover String String.length excess := by
  match excess with
  | 1 =>
    have three : String.length + 1 - 3 = String.length - 3 + 1 := by omega
    have two : String.length + 1 - 2 = String.length - 2 + 1 := by omega
    have one : String.length + 1 - 1 = String.length - 1 + 1 := by omega
    rw [leftover, leftover, three, two, one, getD_cons_succ, getD_cons_succ, getD_cons_succ]
  | 2 =>
    have two : String.length + 1 - 2 = String.length - 2 + 1 := by omega
    have one : String.length + 1 - 1 = String.length - 1 + 1 := by omega
    rw [leftover, leftover, two, one, getD_cons_succ, getD_cons_succ]
  | 3 =>
    have one : String.length + 1 - 1 = String.length - 1 + 1 := by omega
    rw [leftover, leftover, one, getD_cons_succ]
  | _ + 4 => rfl

/-- The bulk transfer and the bytes left over are the words of the string. -/
theorem stringWords_eq (String : List Byte) : stringWords host String =
    alignedWords host (String.length / 4) String ++
      (leftover String String.length (4 - String.length % 4)).toList := by
  fun_induction stringWords host String with
  | case1 b0 b1 b2 b3 rest ih =>
    have units : (rest.length + 4) / 4 = rest.length / 4 + 1 := by omega
    have excess : 4 - (rest.length + 4) % 4 = 4 - rest.length % 4 := by omega
    have length : (b0 :: b1 :: b2 :: b3 :: rest).length = rest.length + 4 := rfl
    rw [length, units, excess, alignedWords, List.cons_append, ih]
    congr 3
    have bound := Nat.mod_le rest.length 4
    have pos : 0 < 4 - rest.length % 4 := by omega
    exact (((leftover_cons b0 (b1 :: b2 :: b3 :: rest) pos (by simp; omega)).trans
      (leftover_cons b1 (b2 :: b3 :: rest) pos (by simp; omega))).trans
      ((leftover_cons b2 (b3 :: rest) pos (by simp; omega)).trans
        (leftover_cons b3 rest pos (by omega)))).symm
  | case2 b0 b1 b2 => simp [alignedWords, leftover]
  | case3 b0 b1 => simp [alignedWords, leftover]
  | case4 b0 => simp [alignedWords, leftover]
  | case5 => rfl

variable {String : List Byte}

/-- The loop reads the words that the bulk transfer reads. -/
theorem unalignedWords_eq (host : Endian) (small : String.length < 2 ^ 32 - 4) :
    ∀ left read, read + left = String.length / 4 ->
      unalignedWords host String String.length (left + 1) (4 * (read + 1)) =
        some (alignedWords host left (String.drop (4 * read)), 4 * (String.length / 4 + 1)) := by
  intro left
  induction left with
  | zero =>
    intro read sum
    rw [unalignedWords, if_neg (by omega), <- sum]
    rfl
  | succ left ih =>
    intro read sum
    have inside : 4 * read + 3 < String.length := by omega
    rw [unalignedWords, if_pos (by omega)]
    have zero : (4 * (read + 1) + 2 ^ 32 - 4) % 2 ^ 32 = 4 * read := by omega
    have one : (4 * (read + 1) + 2 ^ 32 - 3) % 2 ^ 32 = 4 * read + 1 := by omega
    have two : (4 * (read + 1) + 2 ^ 32 - 2) % 2 ^ 32 = 4 * read + 2 := by omega
    have three : (4 * (read + 1) + 2 ^ 32 - 1) % 2 ^ 32 = 4 * read + 3 := by omega
    have next : (4 * (read + 1) + 4) % 2 ^ 32 = 4 * (read + 1 + 1) := by omega
    have tail : String.drop (4 * read) = String[4 * read] :: String[4 * read + 1] ::
        String[4 * read + 2] :: String[4 * read + 3] :: String.drop (4 * (read + 1)) := by
      rw [drop_eq_getElem_cons (by omega), drop_eq_getElem_cons (by omega),
        drop_eq_getElem_cons (by omega), drop_eq_getElem_cons (by omega)]
      rfl
    rw [zero, one, two, three, next, ih (read + 1) (by omega),
      List.getElem?_eq_getElem (by omega), List.getElem?_eq_getElem (by omega),
      List.getElem?_eq_getElem (by omega), List.getElem?_eq_getElem (by omega), tail,
      alignedWords, <- host.assemble_eq]
    rfl

/-- A position that cannot pass the size never leaves the loop. -/
theorem unalignedWords_eq_none {Size : Nat} (large : 2 ^ 32 - 4 <= Size)
    (rounds Pos : Nat) (multiple : Pos % 4 = 0) (bound : Pos < 2 ^ 32) :
    unalignedWords host String Size rounds Pos = none := by
  induction rounds generalizing Pos with
  | zero => rfl
  | succ rounds ih =>
    rw [unalignedWords, if_pos (by omega), ih _ (by omega) (by omega)]
    simp only [bind_eq_bind, bind_none, bind_fun_none]

/-- What a string of a size that fits is added as, wherever its data is. -/
theorem AddString_eq (aligned : Bool) (ID : List Word)
    (small : String.length < 2 ^ 32 - 4) : AddString host aligned ID String =
      some (ID ++ BitVec.ofNat 32 String.length :: stringWords host String) := by
  have size : String.length % 2 ^ 32 = String.length := Nat.mod_eq_of_lt (by omega)
  unfold AddString
  simp only [size]
  by_cases empty : String.length = 0
  · rw [if_pos empty, eq_nil_of_length_eq_zero empty]
    rfl
  · have start := unalignedWords_eq host small (String.length / 4) 0 (by omega)
    have words : transfer host aligned String String.length =
        some (alignedWords host (String.length / 4) String, (String.length / 4 + 1) * 4) := by
      cases aligned with
      | true => rw [transfer, if_pos rfl, Nat.mod_eq_of_lt (by omega)]
      | false =>
        rw [transfer, if_neg Bool.false_ne_true, mul_comm _ 4]
        exact start
    have excess : ((String.length / 4 + 1) * 4 + 2 ^ 32 - String.length) % 2 ^ 32 =
        4 - String.length % 4 := by omega
    rw [if_neg empty, words]
    simp only [bind_eq_bind, bind_some, excess]
    rw [stringWords_eq, List.append_assoc, List.append_assoc]
    rfl

/-- A string whose size comes close to `2 ^ 32` is added only where its data is
aligned. -/
theorem AddString_large (host : Endian) (ID : List Word)
    (large : 2 ^ 32 - 4 <= String.length % 2 ^ 32) :
    AddString host true ID String ≠ none ∧ AddString host false ID String = none := by
  have nonempty : String.length % 2 ^ 32 ≠ 0 := by omega
  constructor
  · unfold AddString
    simp only [if_neg nonempty]
    exact some_ne_none _
  · unfold AddString
    simp only [if_neg nonempty]
    rw [transfer, if_neg Bool.false_ne_true, unalignedWords_eq_none large _ 4 (by omega) (by omega)]
    rfl

end FoldingSetNodeID
end LlvmProject
