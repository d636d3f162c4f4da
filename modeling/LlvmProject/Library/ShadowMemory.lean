import Mathlib.Data.List.Basic

namespace LlvmProject

open List Nat

namespace ShadowMemory

/-!
# Shadow memory

Each shadow byte tells for one granule of memory how much of it may be accessed: all of it for
zero, the first `k` bytes for a `k` between zero and the granularity, and nothing otherwise.
Shadow bytes that are put behind each other describe memory that is put behind each other, so
the shadow of an object is read off the parts that it is assembled from.
-/

/-- The shadow bytes of memory that starts at zero allow an access to this byte. -/
def Addressable (granularity : Nat) (shadow : List UInt8) (byte : Nat) : Prop :=
  ∃ k, shadow[byte / granularity]? = some k ∧
    (k = 0 ∨ k.toNat < granularity ∧ byte % granularity < k.toNat)

variable {granularity : Nat} {shadow rest : List UInt8} {byte : Nat}

section

variable (pos : 0 < granularity)
include pos

theorem Addressable.lt_size
    (addressable : Addressable granularity shadow byte) : byte < shadow.length * granularity := by
  rcases addressable with ⟨k, isThere, -⟩
  exact (Nat.div_lt_iff_lt_mul pos).mp (List.getElem?_eq_some_iff.mp isThere).1

theorem addressable_append :
    Addressable granularity (shadow ++ rest) byte ↔
      Addressable granularity shadow byte ∨ shadow.length * granularity <= byte ∧
        Addressable granularity rest (byte - shadow.length * granularity) := by
  by_cases inside : byte < shadow.length * granularity
  · have index : byte / granularity < shadow.length :=
      (Nat.div_lt_iff_lt_mul pos).mpr inside
    rw [Addressable, getElem?_append_left index]
    exact ⟨Or.inl, fun either => either.resolve_right fun behind =>
      absurd behind.1 (Nat.not_le_of_lt inside)⟩
  · have behind := Nat.le_of_not_lt inside
    have index : shadow.length <= byte / granularity := (Nat.le_div_iff_mul_le pos).mpr behind
    have quot : (byte - shadow.length * granularity) / granularity =
        byte / granularity - shadow.length := by
      rw [Nat.mul_comm, sub_mul_div]
    have rem : (byte - shadow.length * granularity) % granularity = byte % granularity := by
      rw [Nat.mul_comm, sub_mul_mod (Nat.mul_comm _ _ ▸ behind)]
    have same : Addressable granularity (shadow ++ rest) byte ↔
        Addressable granularity rest (byte - shadow.length * granularity) := by
      rw [Addressable, Addressable, getElem?_append_right index, quot, rem]
    rw [same]
    exact ⟨fun addressable => Or.inr ⟨behind, addressable⟩, fun either => by
      rcases either with before | after
      · exact absurd (before.lt_size pos) inside
      · exact after.2⟩

/-! ## Parts of a shadow -/

theorem addressable_zeros (count : Nat) :
    Addressable granularity (List.replicate count 0) byte ↔ byte < count * granularity := by
  constructor
  · intro addressable
    have bound := addressable.lt_size pos
    rwa [length_replicate] at bound
  · intro inside
    have index := (Nat.div_lt_iff_lt_mul pos).mpr inside
    exact ⟨0, by rw [getElem?_replicate, if_pos index], .inl rfl⟩

theorem addressable_partial {k : UInt8} (nonzero : k ≠ 0)
    (small : k.toNat < granularity) : Addressable granularity [k] byte ↔ byte < k.toNat := by
  constructor
  · rintro addressable
    have bound := addressable.lt_size pos
    rw [length_singleton, Nat.one_mul] at bound
    rcases addressable with ⟨k', isThere, all | first⟩
    · rw [div_eq_of_lt bound] at isThere
      exact absurd ((Option.some.inj isThere).trans all) nonzero
    · rw [div_eq_of_lt bound] at isThere
      have same : k = k' := Option.some.inj isThere
      rw [mod_eq_of_lt bound, <- same] at first
      exact first.2
  · intro inside
    have bound := Nat.lt_trans inside small
    exact ⟨k, by rw [div_eq_of_lt bound]; rfl, Or.inr ⟨small, by rwa [mod_eq_of_lt bound]⟩⟩

end

theorem not_addressable_poison {magic : UInt8} (nonzero : magic ≠ 0)
    (large : granularity <= magic.toNat) (count : Nat) :
    ¬ Addressable granularity (List.replicate count magic) byte := by
  rintro ⟨k, isThere, readable⟩
  have same : k = magic := eq_of_mem_replicate (mem_of_getElem? isThere)
  rw [same] at readable
  rcases readable with zero | ⟨small, -⟩
  · exact nonzero zero
  · exact absurd small (Nat.not_lt_of_le large)

/-! ## The shadow of an object -/

/-- The shadow of the granules that an object of this size touches, from its first byte on. -/
def objectShadow (granularity size : Nat) : List UInt8 :=
  List.replicate (size / granularity) 0 ++
    if size % granularity ≠ 0 then [UInt8.ofNat (size % granularity)] else []

theorem addressable_objectShadow (pos : 0 < granularity) (bound : granularity <= 256)
    (size : Nat) : Addressable granularity (objectShadow granularity size) byte ↔ byte < size := by
  have split := div_add_mod' size granularity
  have rem := mod_lt size pos
  rw [objectShadow, addressable_append pos, addressable_zeros pos, length_replicate]
  by_cases exact : size % granularity = 0
  · have nothing : ¬ Addressable granularity [] (byte - size / granularity * granularity) :=
      fun addressable => absurd (addressable.lt_size pos) (by simp)
    rw [if_neg (not_not.mpr exact)]
    rw [exact, Nat.add_zero] at split
    rw [split] at nothing ⊢
    exact ⟨fun either => either.resolve_right fun behind => nothing behind.2, Or.inl⟩
  · have count : (UInt8.ofNat (size % granularity)).toNat = size % granularity :=
      UInt8.toNat_ofNat_of_lt' (Nat.lt_of_lt_of_le rem bound)
    have nonzero : UInt8.ofNat (size % granularity) ≠ 0 := by
      intro zero
      rw [zero] at count
      exact exact count.symm
    rw [if_pos exact, addressable_partial pos nonzero (by rwa [count]), count]
    omega

/-- With the poison behind it, an object takes up as many shadow bytes as its granules and
those of the gap together. -/
theorem length_objectShadow (pos : 0 < granularity) {size total : Nat}
    (fits : size <= total) (whole : granularity ∣ total) :
    (objectShadow granularity size).length + (total - size) / granularity =
      total / granularity := by
  rcases whole with ⟨count, rfl⟩
  have split := div_add_mod' size granularity
  have rem := mod_lt size pos
  rw [objectShadow, length_append, length_replicate, Nat.mul_div_cancel_left _ pos]
  generalize size / granularity = full at *
  by_cases exact : size % granularity = 0
  · rw [if_neg (not_not.mpr exact), length_nil]
    have gap : granularity * count - size = granularity * (count - full) := by
      rw [Nat.mul_sub, Nat.mul_comm granularity full]
      omega
    have atMost : full <= count := Nat.le_of_mul_le_mul_left
      (by rw [Nat.mul_comm granularity full]; omega) pos
    rw [gap, Nat.mul_div_cancel_left _ pos]
    omega
  · rw [if_pos exact, length_singleton]
    have below : full < count := Nat.lt_of_mul_lt_mul_left (a := granularity)
      (by rw [Nat.mul_comm granularity full]; omega)
    have gap : granularity * count - size =
        granularity * (count - full - 1) + (granularity - size % granularity) := by
      have expand : granularity * count =
          granularity * (count - full - 1) + granularity * full + granularity := by
        rw [<- Nat.mul_add, <- Nat.mul_succ]
        congr 1
        omega
      rw [expand, Nat.mul_comm granularity full]
      omega
    rw [gap, mul_add_div pos, div_eq_of_lt (by omega)]
    omega

end ShadowMemory
end LlvmProject
