import LlvmProject.APInt.StringsPrint

namespace LlvmProject

open Nat Option

/-!
# The width that a string needs

The width is computed from the length of the string where the radix is a power of two that
divides the word.  For the other radixes the digits are first read at a width that is meant
to be large enough, and the logarithm of the result decides.  Two digits of radix 36 do not
always fit into the ten bits that are taken for them, a decimal numeral with many leading
zeros is refused at the width of its value, and the lengths are reduced to an `unsigned`.
-/

namespace APInt

/-- The string is read, at the width that it is said to need, as the number it denotes. -/
def ReadsExactly (radix : Nat) (str : List Char) : Prop :=
  ∃ bits : Nat, ∃ x : APInt bits, getBitsNeeded str radix = some bits ∧
    fromString bits str radix = some x ∧
    (if str.head? = some '-' then x.toInt else (x.toNat : Int)) = denotes radix str

/-- One if there is a minus sign. -/
def minusSigns (str : List Char) : Nat := if str.head? = some '-' then 1 else 0

/-- The width at which the digits are read for their logarithm. -/
def sufficientBits (radix slen : Nat) : Nat :=
  (if radix = 10 then (if slen = 1 then 4 else slen * 64 / 18)
    else (if slen = 1 then 7 else slen * 16 / 3)) % 2 ^ 32

/-- The condition under which the width suffices. -/
def WidthSuffices (radix : Nat) (str : List Char) : Prop :=
  let slen := (unsignedPart str).length
  let value := magnitude radix (unsignedPart str)
  if radix = 2 then slen + minusSigns str < 2 ^ 32
  else if radix = 8 then slen * 3 + minusSigns str < 2 ^ 32
  else if radix = 16 then slen * 4 + minusSigns str < 2 ^ 32
  else if radix = 10 then
    (slen = 1 ∨ slen * 64 / 18 < 2 ^ 32) ∧ (slen - 1) * 64 / 22 <= max 1 value.size + minusSigns str
  else
    let sufficient := sufficientBits radix slen
    (0 < sufficient ∧ value < 2 ^ sufficient ∧ (minusSigns str = 1 -> value.size + 1 < 2 ^ 32)) ∨
      (sufficient = 1 ∧ minusSigns str = 1 ∧ value = 2)

/-! ## Reading at a given width -/

section Width

variable {radix bits : Nat} {str : List Char}

/-- The widths at which a value is represented. -/
def Represents (bits value : Nat) (str : List Char) : Prop :=
  if str.head? = some '-' then value <= 2 ^ (bits - 1) else value < 2 ^ bits

theorem toInt_eq_neg_iff {W value : Nat} (x : APInt W)
    (residue : (x.toNat : Int) = -(value : Int) % (2 ^ W : Nat)) :
    x.toInt = -(value : Int) ↔ value <= 2 ^ (W - 1) := by
  have positive := x.positive
  have double : 2 ^ W = 2 ^ (W - 1) + 2 ^ (W - 1) := by
    rw [<- Nat.two_mul, <- pow_succ', succ_eq_add_one, Nat.sub_add_cancel positive]
  have bound := x.toNat_lt
  have cast : ((2 ^ W : Nat) : Int) = 2 ^ W := by push_cast; rfl
  unfold toInt signBit
  constructor
  · intro same
    by_cases top : 2 ^ (W - 1) <= x.toNat
    · rw [decide_eq_true top, if_pos rfl] at same
      omega
    · rw [decide_eq_false top, if_neg Bool.false_ne_true] at same
      omega
  · intro small
    by_cases zero : value = 0
    · rw [zero] at residue
      have none : x.toNat = 0 := by simpa using residue
      rw [none, decide_eq_false (by have half := Nat.two_pow_pos (W - 1); omega), zero]
      rfl
    · have shifted : -(value : Int) = ((2 ^ W - value : Nat) : Int) - (2 ^ W : Nat) := by omega
      rw [shifted, Int.sub_emod_right, Int.emod_eq_of_lt (by omega) (by omega)] at residue
      have top : 2 ^ (W - 1) <= x.toNat := by omega
      rw [decide_eq_true top, if_pos rfl]
      omega

/-- A numeral is read exactly if it passes the assertions and the width represents it. -/
theorem reads_iff (known : radix ∈ radixes) (numeral : IsNumeral radix str) :
    (∃ x : APInt bits, fromString bits str radix = some x ∧
      (if str.head? = some '-' then x.toInt else (x.toNat : Int)) = denotes radix str) ↔
    (0 < bits ∧ bits < 2 ^ 32 ∧ digitsFit bits radix (unsignedPart str).length) ∧
      Represents bits (magnitude radix (unsignedPart str)) str := by
  by_cases fits : 0 < bits ∧ bits < 2 ^ 32 ∧ digitsFit bits radix (unsignedPart str).length
  · rcases fromString_spec known numeral fits.1 fits.2.1 fits.2.2 with ⟨x, read, value⟩
    have unique : (∃ y : APInt bits, fromString bits str radix = some y ∧
        (if str.head? = some '-' then y.toInt else (y.toNat : Int)) = denotes radix str) ↔
        (if str.head? = some '-' then x.toInt else (x.toNat : Int)) = denotes radix str := by
      simp only [read, some.injEq, exists_eq_left']
    rw [unique, and_iff_right fits]
    unfold Represents
    unfold denotes at value ⊢
    by_cases minus : str.head? = some '-'
    · simp only [if_pos minus] at value ⊢
      exact toInt_eq_neg_iff x value
    · simp only [if_neg minus] at value ⊢
      have residue : x.toNat = magnitude radix (unsignedPart str) % 2 ^ bits := by
        exact_mod_cast value
      rw [Nat.cast_inj, residue, mod_eq_iff_lt (Nat.ne_of_gt (Nat.two_pow_pos bits))]
  · refine iff_of_false ?_ fun both => fits both.1
    rintro ⟨x, read, _⟩
    rw [fromString_eq_none numeral fits] at read
    exact absurd read (some_ne_none x).symm

/-- What it means to be read exactly at the width that is needed. -/
theorem readsExactly_iff (known : radix ∈ radixes) (numeral : IsNumeral radix str) :
    ReadsExactly radix str ↔ ∃ bits, getBitsNeeded str radix = some bits ∧
      (0 < bits ∧ bits < 2 ^ 32 ∧ digitsFit bits radix (unsignedPart str).length) ∧
      Represents bits (magnitude radix (unsignedPart str)) str := by
  simp only [<- reads_iff known numeral]
  constructor
  · rintro ⟨bits, x, needed, read, value⟩
    exact ⟨bits, needed, x, read, value⟩
  · rintro ⟨bits, needed, x, read, value⟩
    exact ⟨bits, x, needed, read, value⟩

end Width

/-! ## Radixes that are powers of two -/

section Powers

variable {radix k : Nat} {str : List Char}

theorem readsExactly_power (known : radix ∈ radixes) (numeral : IsNumeral radix str)
    (power : radix = 2 ^ k) (positive : 0 < k) (low : k <= 4) (needed : getBitsNeeded str radix =
    some (((unsignedPart str).length * k + minusSigns str) % 2 ^ 32))
    (fits : ∀ bits, digitsFit bits radix (unsignedPart str).length ↔
    ((unsignedPart str).length - 1) * k <= bits ∧ (k = 1 -> (unsignedPart str).length <= bits)) :
    ReadsExactly radix str ↔ (unsignedPart str).length * k + minusSigns str < 2 ^ 32 := by
  have nonempty := List.length_pos_of_ne_nil numeral.1
  have bound := magnitude_lt numeral.2
  rw [readsExactly_iff known numeral]
  simp only [needed, some.injEq, exists_eq_left', fits]
  rw [power, <- pow_mul, mul_comm k] at bound
  rw [power]
  generalize magnitude (2 ^ k) (unsignedPart str) = value at *
  generalize (unsignedPart str).length = slen at *
  have sign : minusSigns str <= 1 := by
    unfold minusSigns
    split <;> omega
  have several : slen * k = (slen - 1) * k + k := by
    rw [<- Nat.succ_mul, succ_eq_add_one, Nat.sub_add_cancel nonempty]
  have alone : k = 1 -> slen * k = slen := fun one => by rw [one, mul_one]
  generalize slen * k = prod at *
  generalize (slen - 1) * k = shorter at *
  constructor
  · rintro ⟨⟨_, _, enough⟩, _⟩
    by_cases one : k = 1
    · have all := enough.2 one
      omega
    · omega
  · intro small
    rw [mod_eq_of_lt small]
    refine ⟨⟨by omega, small, by omega, fun one => ?_⟩, ?_⟩
    · have all := alone one
      omega
    · unfold Represents minusSigns
      by_cases minus : str.head? = some '-'
      · rw [if_pos minus, if_pos minus, Nat.add_sub_cancel]
        exact bound.le
      · rw [if_neg minus, if_neg minus, add_zero]
        exact bound

end Powers

/-! ## Radixes that take a logarithm -/

section Logarithm

variable {radix bits : Nat} {str : List Char}

/-- The logarithm is one less than the binary length. -/
theorem logBase2_eq {W : Nat} (x : APInt W) :
    x.logBase2 = if x.toNat = 0 then 2 ^ 32 - 1 else x.toNat.size - 1 := by
  have zeros := x.countLeadingZeros_add_size
  have narrow := x.fits
  unfold logBase2
  by_cases zero : x.toNat = 0
  · rw [if_pos zero]
    rw [zero, size_zero] at zeros
    omega
  · have positive : 0 < x.toNat.size := Nat.size_pos.mpr (pos_of_ne_zero zero)
    rw [if_neg zero]
    omega

theorem not_sign_of_isDigit {c : Char} (valid : IsDigit radix c) : ¬(c = '-' ∨ c = '+') := by
  rcases valid with ⟨digit, _, value⟩
  rintro (rfl | rfl) <;> exact absurd value (some_ne_none digit).symm

/-- The digits are a numeral of their own. -/
theorem unsignedPart_numeral (numeral : IsNumeral radix str) :
    unsignedPart (unsignedPart str) = unsignedPart str ∧ (unsignedPart str).head? ≠ some '-' := by
  rcases numeral with ⟨nonempty, valid⟩
  generalize unsignedPart str = digits at *
  cases digits with
  | nil => exact absurd rfl nonempty
  | cons first rest =>
    have ne := not_sign_of_isDigit (valid first List.mem_cons_self)
    refine ⟨?_, fun minus => ne (.inl (some.inj minus))⟩
    rw [unsignedPart, if_neg ne]

theorem sufficientBits_lt (radix slen : Nat) : sufficientBits radix slen < 2 ^ 32 :=
  mod_lt _ (by decide)

theorem minusSigns_le (str : List Char) : minusSigns str <= 1 := by
  unfold minusSigns
  split <;> omega

/-- The width is computed from the value modulo the first width. -/
theorem getBitsNeeded_logarithm (known : radix = 10 ∨ radix = 36) (numeral : IsNumeral radix str) :
    getBitsNeeded str radix = some bits ↔
      (0 < sufficientBits radix (unsignedPart str).length ∧
        digitsFit (sufficientBits radix (unsignedPart str).length) radix
          (unsignedPart str).length) ∧
      bits = (max 1 (magnitude radix (unsignedPart str) %
        2 ^ sufficientBits radix (unsignedPart str).length).size + minusSigns str) % 2 ^ 32 := by
  have listed : radix ∈ radixes := by rcases known with rfl | rfl <;> decide
  have ne : radix ≠ 2 ∧ radix ≠ 8 ∧ radix ≠ 16 := by omega
  have sign := minusSigns_le str
  rcases unsignedPart_numeral numeral with ⟨same, plain⟩
  have digits : IsNumeral radix (unsignedPart str) := by
    unfold IsNumeral
    rw [same]
    exact numeral
  have computed : getBitsNeeded str radix =
      (fromString (sufficientBits radix (unsignedPart str).length) (unsignedPart str) radix).bind
        fun tmp => if tmp.logBase2 = 2 ^ 32 - 1 then some (minusSigns str + 1)
          else some ((minusSigns str + tmp.logBase2 + 1) % 2 ^ 32) := by
    unfold getBitsNeeded
    simp only [withoutSign_of_isNumeral numeral, bind_eq_bind, bind_some,
      if_neg (not_not_intro listed), if_neg ne.1, if_neg ne.2.1, if_neg ne.2.2]
    rfl
  have below := sufficientBits_lt radix (unsignedPart str).length
  rw [computed]
  generalize sufficientBits radix (unsignedPart str).length = sufficient at *
  by_cases fits : 0 < sufficient ∧ digitsFit sufficient radix (unsignedPart str).length
  · have fit : digitsFit sufficient radix (unsignedPart (unsignedPart str)).length := by
      rw [same]
      exact fits.2
    rcases fromString_spec listed digits fits.1 below fit with ⟨tmp, read, value⟩
    unfold denotes at value
    rw [if_neg plain, same] at value
    have residue : tmp.toNat = magnitude radix (unsignedPart str) % 2 ^ sufficient := by
      exact_mod_cast value
    have sizeLe : tmp.toNat.size <= sufficient := size_le.mpr tmp.toNat_lt
    rw [read, bind_some, and_iff_right fits, logBase2_eq, <- residue]
    by_cases zero : tmp.toNat = 0
    · rw [if_pos zero, if_pos rfl, zero, size_zero, some.injEq]
      omega
    · have positive : 0 < tmp.toNat.size := Nat.size_pos.mpr (pos_of_ne_zero zero)
      rw [if_neg zero, if_neg (by omega), some.injEq]
      omega
  · have none : fromString sufficient (unsignedPart str) radix = none := by
      refine fromString_eq_none digits fun all => fits ⟨all.1, ?_⟩
      rw [<- same]
      exact all.2.2
    rw [none, bind_none]
    exact iff_of_false (some_ne_none bits).symm fun both => fits both.1

theorem represents_size (value : Nat) (str : List Char) :
    Represents (max 1 value.size + minusSigns str) value str := by
  have small : value < 2 ^ max 1 value.size :=
    lt_of_lt_of_le (lt_size_self value)
      (Nat.pow_le_pow_right (by decide) (le_max_right 1 value.size))
  unfold Represents minusSigns
  by_cases minus : str.head? = some '-'
  · rw [if_pos minus, if_pos minus, Nat.add_sub_cancel]
    exact small.le
  · rw [if_neg minus, if_neg minus, add_zero]
    exact small

/-! ### Decimal numerals -/

theorem ten_pow_le (n : Nat) : 10 ^ n <= 2 ^ ((10 * n + 2) / 3) := by
  induction n using Nat.strong_induction_on with
  | _ n ih =>
    by_cases small : n < 3
    · interval_cases n <;> decide
    · have before := ih (n - 3) (by omega)
      have exponent : (10 * n + 2) / 3 = (10 * (n - 3) + 2) / 3 + 10 := by omega
      calc 10 ^ n = 10 ^ (n - 3) * 10 ^ 3 := by rw [<- pow_add, Nat.sub_add_cancel (by omega)]
        _ <= 2 ^ ((10 * (n - 3) + 2) / 3) * 2 ^ 10 := Nat.mul_le_mul before (by decide)
        _ = 2 ^ ((10 * n + 2) / 3) := by rw [exponent, pow_add]

theorem length_le_sufficient {slen : Nat} (positive : 0 < slen) :
    slen = 1 ∨ (10 * slen + 2) / 3 <= slen * 64 / 18 := by
  by_cases two : slen = 2
  · exact .inr (by rw [two])
  · omega

/-- A first width that overflows does not pass the assertion about the number of digits. -/
theorem overflow_misfits {slen : Nat} (large : 2 ^ 32 <= slen * 64 / 18) :
    slen * 64 / 18 % 2 ^ 32 < (slen - 1) * 64 / 22 := by
  have whole : 1 <= slen * 64 / 18 / 2 ^ 32 := by omega
  have parts := div_add_mod (slen * 64 / 18) (2 ^ 32)
  have rest := mod_lt (slen * 64 / 18) (show 0 < 2 ^ 32 by decide)
  generalize slen * 64 / 18 / 2 ^ 32 = overflows at *
  generalize slen * 64 / 18 % 2 ^ 32 = kept at *
  omega

theorem digitsFit_decimal (slen : Nat) : digitsFit bits 10 slen ↔ (slen - 1) * 64 / 22 <= bits := by
  unfold digitsFit
  omega

/-- A decimal numeral is read exactly unless its length overflows or it has too many zeros in
front. -/
theorem readsExactly_decimal (numeral : IsNumeral 10 str) :
    ReadsExactly 10 str ↔
      ((unsignedPart str).length = 1 ∨ (unsignedPart str).length * 64 / 18 < 2 ^ 32) ∧
        ((unsignedPart str).length - 1) * 64 / 22 <=
          max 1 (magnitude 10 (unsignedPart str)).size + minusSigns str := by
  have nonempty := List.length_pos_of_ne_nil numeral.1
  have sign := minusSigns_le str
  have bound : magnitude 10 (unsignedPart str) < 2 ^ ((10 * (unsignedPart str).length + 2) / 3) :=
    lt_of_lt_of_le (magnitude_lt numeral.2) (ten_pow_le _)
  have represented := represents_size (magnitude 10 (unsignedPart str)) str
  have sizeLe := size_le.mpr bound
  rw [readsExactly_iff (by decide) numeral]
  simp only [getBitsNeeded_logarithm (.inl rfl) numeral, digitsFit_decimal]
  have sufficient : sufficientBits 10 (unsignedPart str).length =
      (if (unsignedPart str).length = 1 then 4
        else (unsignedPart str).length * 64 / 18) % 2 ^ 32 := rfl
  generalize sufficientBits 10 (unsignedPart str).length = firstWidth at *
  generalize magnitude 10 (unsignedPart str) = value at *
  generalize (unsignedPart str).length = slen at *
  have whole (room : slen = 1 ∨ slen * 64 / 18 < 2 ^ 32) :
      (10 * slen + 2) / 3 <= firstWidth ∧ (10 * slen + 2) / 3 + 1 < 2 ^ 32 := by
    have shorter := length_le_sufficient nonempty
    by_cases one : slen = 1
    · rw [if_pos one] at sufficient
      omega
    · rw [if_neg one, mod_eq_of_lt (room.resolve_left one)] at sufficient
      omega
  have exact (room : slen = 1 ∨ slen * 64 / 18 < 2 ^ 32) :
      (max 1 (value % 2 ^ firstWidth).size + minusSigns str) % 2 ^ 32 =
        max 1 value.size + minusSigns str := by
    have smaller : value < 2 ^ firstWidth :=
      lt_of_lt_of_le bound (Nat.pow_le_pow_right (by decide) (whole room).1)
    rw [mod_eq_of_lt smaller, mod_eq_of_lt]
    have room := (whole room).2
    omega
  constructor
  · rintro ⟨bits, ⟨⟨_, fit⟩, rfl⟩, ⟨_, _, enough⟩, _⟩
    have room : slen = 1 ∨ slen * 64 / 18 < 2 ^ 32 := by
      refine Decidable.or_iff_not_imp_left.mpr fun several => Nat.lt_of_not_le fun large => ?_
      rw [if_neg several] at sufficient
      exact Nat.not_lt_of_le fit (sufficient ▸ overflow_misfits large)
    rw [exact room] at enough
    exact ⟨room, enough⟩
  · rintro ⟨room, enough⟩
    have wide := whole room
    refine ⟨max 1 value.size + minusSigns str, ⟨⟨by omega, by omega⟩, (exact room).symm⟩,
      ⟨by omega, by omega, enough⟩, represented⟩

/-! ### Numerals of radix 36 -/

theorem digitsFit_36 (slen : Nat) : digitsFit bits 36 slen := by
  unfold digitsFit
  omega

/-- A negative number that loses bits in the first width is represented only by chance. -/
theorem represented_by_chance {sufficient value : Nat} (positive : 0 < sufficient)
    (below : sufficient < 2 ^ 32) (large : 2 ^ sufficient <= value)
    (wide : 0 < (max 1 (value % 2 ^ sufficient).size + 1) % 2 ^ 32)
    (shown : value <= 2 ^ ((max 1 (value % 2 ^ sufficient).size + 1) % 2 ^ 32 - 1)) :
    sufficient = 1 ∧ value = 2 := by
  have sizeLe : (value % 2 ^ sufficient).size <= sufficient :=
    size_le.mpr (mod_lt value (Nat.two_pow_pos sufficient))
  have noWrap : (max 1 (value % 2 ^ sufficient).size + 1) % 2 ^ 32 - 1 =
      max 1 (value % 2 ^ sufficient).size := by omega
  rw [noWrap] at shown
  have upper : 2 ^ max 1 (value % 2 ^ sufficient).size <= 2 ^ sufficient :=
    Nat.pow_le_pow_right (by decide) (by omega)
  have same : value = 2 ^ sufficient := by omega
  have lost : value % 2 ^ sufficient = 0 := by rw [same, mod_self]
  rw [lost, size_zero, same] at shown
  have one : sufficient = 1 :=
    le_antisymm ((Nat.pow_le_pow_iff_right (by decide)).mp shown) positive
  exact ⟨one, by rw [same, one, pow_one]⟩

/-- A numeral of radix 36 is read exactly if it fits into the first width. -/
theorem readsExactly_36 (numeral : IsNumeral 36 str) :
    ReadsExactly 36 str ↔
      (0 < sufficientBits 36 (unsignedPart str).length ∧
        magnitude 36 (unsignedPart str) < 2 ^ sufficientBits 36 (unsignedPart str).length ∧
        (minusSigns str = 1 -> (magnitude 36 (unsignedPart str)).size + 1 < 2 ^ 32)) ∨
      (sufficientBits 36 (unsignedPart str).length = 1 ∧ minusSigns str = 1 ∧
        magnitude 36 (unsignedPart str) = 2) := by
  have sign := minusSigns_le str
  have represented := represents_size (magnitude 36 (unsignedPart str)) str
  have below := sufficientBits_lt 36 (unsignedPart str).length
  rw [readsExactly_iff (by decide) numeral]
  simp only [getBitsNeeded_logarithm (.inr rfl) numeral, digitsFit_36, and_true]
  generalize sufficientBits 36 (unsignedPart str).length = sufficient at *
  generalize magnitude 36 (unsignedPart str) = value at *
  constructor
  · rintro ⟨bits, ⟨positive, rfl⟩, ⟨wide, narrow⟩, shown⟩
    have sizeLe : (value % 2 ^ sufficient).size <= sufficient :=
      size_le.mpr (mod_lt value (Nat.two_pow_pos sufficient))
    by_cases small : value < 2 ^ sufficient
    · refine .inl ⟨positive, small, fun minus => ?_⟩
      rw [mod_eq_of_lt small] at wide sizeLe
      omega
    · unfold Represents minusSigns at *
      by_cases minus : str.head? = some '-'
      · simp only [if_pos minus] at shown wide ⊢
        rcases represented_by_chance positive below (Nat.le_of_not_lt small) wide shown with
          ⟨one, two⟩
        exact .inr ⟨one, trivial, two⟩
      · simp only [if_neg minus, add_zero] at shown
        have shorter : 2 ^ (max 1 (value % 2 ^ sufficient).size % 2 ^ 32) <= 2 ^ sufficient :=
          Nat.pow_le_pow_right (by decide) (by omega)
        exact absurd (lt_of_lt_of_le shown shorter) small
  · rintro (⟨positive, small, room⟩ | ⟨one, minus, two⟩)
    · have sizeLe := size_le.mpr small
      rw [mod_eq_of_lt small]
      have exact : (max 1 value.size + minusSigns str) % 2 ^ 32 =
          max 1 value.size + minusSigns str := by
        apply mod_eq_of_lt
        omega
      rw [exact]
      exact ⟨_, ⟨positive, rfl⟩, ⟨by omega, by omega⟩, represented⟩
    · rw [one, minus, two]
      refine ⟨2, ⟨by decide, by decide⟩, by decide, ?_⟩
      unfold Represents
      split <;> decide

end Logarithm

/-! ## The conversions as a whole -/

section Conversions

variable {radix : Nat} {str : List Char}

theorem readsExactly_iff_widthSuffices (known : radix ∈ radixes) (numeral : IsNumeral radix str) :
    ReadsExactly radix str ↔ WidthSuffices radix str := by
  have found := withoutSign_of_isNumeral numeral
  simp only [radixes, List.mem_cons, List.not_mem_nil, or_false] at known
  rcases known with rfl | rfl | rfl | rfl | rfl
  · exact readsExactly_decimal numeral
  · refine readsExactly_power (k := 3) (by decide) numeral rfl (by decide) (by decide) ?_ ?_
    · simp [getBitsNeeded, found, radixes, minusSigns]
    · intro bits
      unfold digitsFit
      omega
  · refine readsExactly_power (k := 4) (by decide) numeral rfl (by decide) (by decide) ?_ ?_
    · simp [getBitsNeeded, found, radixes, minusSigns]
    · intro bits
      unfold digitsFit
      omega
  · have exact := readsExactly_power (k := 1) (by decide) numeral rfl (by decide) (by decide)
      (by simp [getBitsNeeded, found, radixes, minusSigns])
      (by intro bits; unfold digitsFit; omega)
    rwa [mul_one] at exact
  · exact readsExactly_36 numeral

/-- A value is read back from what is printed for it, and a numeral is read exactly at the width
that it is said to need if and only if that width suffices. -/
theorem strings_exact_iff (radix : Nat) (str : List Char) (known : radix ∈ radixes)
    (numeral : IsNumeral radix str) :
    ((∀ (W : Nat) (x : APInt W) (Signed : Bool), ∃ printed,
        x.toString radix Signed false = some printed ∧ fromString W printed radix = some x) ∧
      ReadsExactly radix str) ↔ WidthSuffices radix str := by
  rw [and_iff_right fun W x Signed => fromString_toString known x Signed]
  exact readsExactly_iff_widthSuffices known numeral

theorem strings_exact_iff_negative : ReadsExactly 16 "-80".toList := by
  have numeral : IsNumeral 16 "-80".toList := by
    refine ⟨by decide, ?_⟩
    simp [unsignedPart, IsDigit, digitValue]
  have enough : WidthSuffices 16 "-80".toList := by
    simp [WidthSuffices, unsignedPart, minusSigns]
  exact ((strings_exact_iff 16 "-80".toList (by decide) numeral).mpr enough).2

/-- The digits SG of radix 36 are 1024, which is read as zero. -/
theorem twoDigits_overflow : ¬ReadsExactly 36 "SG".toList := by
  have numeral : IsNumeral 36 "SG".toList := by
    refine ⟨by decide, ?_⟩
    simp [unsignedPart, IsDigit, digitValue]
  rw [readsExactly_36 numeral]
  simp [sufficientBits, minusSigns, unsignedPart, magnitude, digitValue]

end Conversions

end APInt

end LlvmProject
