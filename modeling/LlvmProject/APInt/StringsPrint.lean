import LlvmProject.APInt.Strings
import Mathlib.Data.Nat.Digits.Lemmas

namespace LlvmProject

open List Nat Option

/-!
# Printing integers

What is printed are the digits of the absolute value, after a minus sign for a negative
value that is printed as signed.  It passes the assertions of the reader at the width of
the integer, and is read as the same integer.
-/

namespace APInt

variable {W : Nat}

/-- The digits of a number from the highest one. -/
def numeral (radix n : Nat) : List Char := ((Nat.digits radix n).map digitChar).reverse

section Loops

variable {radix : Nat}

theorem fillBuffer_spec (base : 2 <= radix) (room N : Nat) (small : N < 2 ^ room)
    (Buf : List Char) : fillBuffer radix room N Buf = some (numeral radix N ++ Buf) := by
  induction room generalizing N Buf with
  | zero =>
    have zero : N = 0 := lt_one_iff.mp small
    rw [fillBuffer, if_pos zero, zero, numeral, digits_zero]
    rfl
  | succ room ih =>
    rw [fillBuffer]
    by_cases zero : N = 0
    · rw [if_pos zero, zero, numeral, digits_zero]
      rfl
    · have smaller : N / radix < 2 ^ room := by
        have half : N / radix <= N / 2 := div_le_div_left base (by decide)
        rw [pow_succ] at small
        omega
      rw [if_neg zero, ih (N / radix) smaller]
      rw [numeral, numeral, digits_def' base (pos_of_ne_zero zero), List.map_cons,
        reverse_cons, List.append_assoc]
      rfl

/-- Taking the lowest digit off leaves the quotient by the radix. -/
def TakesDigit (radix : Nat) (takeOut : APInt W -> Nat × APInt W) : Prop :=
  ∀ Tmp, (takeOut Tmp).1 = Tmp.toNat % radix ∧ (takeOut Tmp).2.toNat = Tmp.toNat / radix

theorem pushDigits_spec {takeOut : APInt W -> Nat × APInt W} (base : 2 <= radix) (takes : TakesDigit
    radix takeOut) (fuel : Nat) (Tmp : APInt W) (small : Tmp.toNat < 2 ^ fuel) (Str : List Char) :
    pushDigits radix takeOut fuel Tmp Str =
      some (Str ++ (Nat.digits radix Tmp.toNat).map digitChar) := by
  induction fuel generalizing Tmp Str with
  | zero =>
    have zero : Tmp.toNat = 0 := lt_one_iff.mp small
    rw [pushDigits, if_pos zero, zero, digits_zero, map_nil, append_nil]
  | succ fuel ih =>
    rw [pushDigits]
    by_cases zero : Tmp.toNat = 0
    · rw [if_pos zero, zero, digits_zero, map_nil, append_nil]
    · rcases takes Tmp with ⟨digit, rest⟩
      have smaller : (takeOut Tmp).2.toNat < 2 ^ fuel := by
        have half : Tmp.toNat / radix <= Tmp.toNat / 2 := div_le_div_left base (by decide)
        rw [rest]
        rw [pow_succ] at small
        omega
      have isDigit : (takeOut Tmp).1 < radix := by
        rw [digit]
        exact mod_lt _ (by omega)
      rw [if_neg zero]
      simp only
      rw [if_neg (not_not_intro isDigit), ih _ smaller, digit, rest,
        digits_def' base (pos_of_ne_zero zero), List.map_cons, List.append_assoc]
      rfl

theorem shiftOut_takesDigit (shifts : radix = 2 ∨ radix = 8 ∨ radix = 16) :
    TakesDigit radix (shiftOut (W := W) radix) := by
  have power : ∃ k ≤ 64, radix = 2 ^ k ∧
      (if radix = 16 then 4 else if radix = 8 then 3 else 1) = k := by
    rcases shifts with rfl | rfl | rfl
    · exact ⟨1, by decide, rfl, rfl⟩
    · exact ⟨3, by decide, rfl, rfl⟩
    · exact ⟨4, by decide, rfl, rfl⟩
  rcases power with ⟨k, small, rfl, shift⟩
  intro Tmp
  have mask : (UInt64.ofNat (2 ^ k - 1)).toNat = 2 ^ k - 1 := by
    rw [UInt64.toNat_ofNat']
    have bound : 2 ^ k <= 2 ^ 64 := Nat.pow_le_pow_right (by decide) small
    have positive : 0 < 2 ^ k := Nat.two_pow_pos k
    exact mod_eq_of_lt (by omega)
  constructor
  · rw [shiftOut, UInt64.toNat_and, mask, and_two_pow_sub_one_eq_mod, VAL_eq_mod]
    exact mod_mod_of_dvd _ (pow_dvd_pow 2 small)
  · rw [shiftOut, shift, lshr, toNat_withValue]
    exact mod_eq_of_lt (lt_of_le_of_lt (div_le_self _ _) Tmp.toNat_lt)

theorem divideOut_takesDigit (base : 2 <= radix) (small : radix < 2 ^ 32) :
    TakesDigit radix (divideOut (W := W) radix) := by
  intro Tmp
  have divisor : (UInt64.ofNat radix).toNat = radix := by
    rw [UInt64.toNat_ofNat']
    exact mod_eq_of_lt (lt_trans small (by decide))
  rcases @divide_digit Tmp.pVal (UInt64.ofNat radix) (by omega) (by omega) with
    ⟨_, lengthR, quot, rem⟩
  rcases length_eq_one_iff.mp lengthR with ⟨word, words⟩
  rw [divisor] at quot rem
  constructor
  · rw [divideOut, words]
    rw [words, wordsValue_cons, wordsValue_nil, mul_zero, add_zero] at rem
    exact rem
  · rw [divideOut, toNat_copyBack, quot]
    exact mod_eq_of_lt (lt_of_le_of_lt (div_le_self _ _) Tmp.toNat_lt)

end Loops

/-! ## What is printed -/

theorem toInt_neg_iff (x : APInt W) : x.toInt < 0 ↔ x.signBit = true := by
  have bound := x.toNat_lt
  have cast : ((2 ^ W : Nat) : Int) = 2 ^ W := by push_cast; rfl
  unfold toInt
  cases x.signBit with
  | true =>
    rw [if_pos rfl]
    exact iff_of_true (by omega) rfl
  | false =>
    rw [if_neg Bool.false_ne_true]
    exact iff_of_false (by omega) Bool.false_ne_true

theorem toNat_flipAllBits_increment (x : APInt W) (nonzero : x.toNat ≠ 0) :
    x.flipAllBits.increment.toNat = 2 ^ W - x.toNat := by
  have bound := x.toNat_lt
  rw [increment, toNat_withValue, flipAllBits, toNat_withValue_of_lt _ (by omega),
    mod_eq_of_lt (by omega)]
  omega

/-- The number whose digits are printed. -/
def printedMagnitude (Signed : Bool) (x : APInt W) : Nat :=
  if Signed = true ∧ x.toInt < 0 then 2 ^ W - x.toNat else x.toNat

theorem printedMagnitude_lt (Signed : Bool) (x : APInt W) : x.printedMagnitude Signed < 2 ^ W := by
  have bound := x.toNat_lt
  have positive : 0 < 2 ^ W := Nat.two_pow_pos W
  have half : 2 ^ W = 2 ^ (W - 1) * 2 := by
    rw [<- Nat.pow_succ, succ_eq_add_one, Nat.sub_add_cancel x.positive]
  have halfPositive : 0 < 2 ^ (W - 1) := Nat.two_pow_pos _
  unfold printedMagnitude
  split
  next neg =>
    have sign := (toInt_neg_iff x).mp neg.2
    rw [signBit, decide_eq_true_iff] at sign
    omega
  next => exact bound

theorem printedMagnitude_eq_zero_iff (Signed : Bool) (x : APInt W) :
    x.printedMagnitude Signed = 0 ↔ x.toNat = 0 := by
  have bound := x.toNat_lt
  have positive : ¬(x.toNat = 0 ∧ x.toInt < 0) := by
    rintro ⟨zero, neg⟩
    rw [toInt_neg_iff, signBit, decide_eq_true_iff, zero] at neg
    exact not_le.mpr (Nat.two_pow_pos _) neg
  unfold printedMagnitude
  split
  next neg => exact iff_of_false (by omega) fun zero => positive ⟨zero, neg.2⟩
  next => exact Iff.rfl

theorem singleWord_magnitude (x : APInt W) (Signed : Bool) (single : W <= 64) :
    (if ¬Signed = true then x.toNat
      else if x.toInt >= 0 then x.toInt.toNat else ((-x.toInt) % 2 ^ 64).toNat) =
      x.printedMagnitude Signed := by
  have bound := x.toNat_lt
  have small := x.printedMagnitude_lt Signed
  have word : 2 ^ W <= 2 ^ 64 := Nat.pow_le_pow_right (by decide) single
  unfold printedMagnitude at small ⊢
  cases Signed with
  | false => simp
  | true =>
    by_cases neg : x.toInt < 0
    · have value : x.toInt = x.toNat - 2 ^ W := by
        rw [toInt, if_pos ((toInt_neg_iff x).mp neg)]
      have cast : ((2 ^ W : Nat) : Int) = 2 ^ W := by push_cast; rfl
      rw [if_pos ⟨rfl, neg⟩] at small
      rw [if_neg (not_not_intro (rfl : true = true)), if_neg (by omega), if_pos ⟨rfl, neg⟩,
        value, Int.emod_eq_of_lt (by omega) (by omega)]
      omega
    · have value : x.toInt = x.toNat := by
        rw [toInt, if_neg fun sign => neg ((toInt_neg_iff x).mpr sign)]
      rw [if_neg (not_not_intro (rfl : true = true)), if_pos (by omega),
        if_neg (fun both => neg both.2), value]
      rfl

theorem toString_spec {radix : Nat} (known : radix ∈ radixes) (x : APInt W) (Signed : Bool) :
    x.toString radix Signed false =
      some ((if Signed = true ∧ x.toInt < 0 then ['-'] else []) ++
        if x.toNat = 0 then ['0'] else numeral radix (x.printedMagnitude Signed)) := by
  have base := (radix_bounds known).1
  have small := x.printedMagnitude_lt Signed
  unfold toString
  rw [if_neg (not_not_intro known)]
  by_cases zero : x.toNat = 0
  · have positive : ¬x.toInt < 0 := by
      rw [toInt_neg_iff, signBit, decide_eq_true_iff, zero]
      exact not_le.mpr (Nat.two_pow_pos _)
    simp [zero, positive]
  · by_cases single : W <= 64
    · have room : x.printedMagnitude Signed < 2 ^ 65 :=
        lt_of_lt_of_le small (Nat.pow_le_pow_right (by decide) (by omega))
      simp only [Bool.false_eq_true, if_false, bind_eq_bind, bind_some, zero,
        isSingleWord, single, decide_true, if_true, singleWord_magnitude x Signed single,
        fillBuffer_spec base 65 _ room, append_nil]
      rfl
    · have takes : TakesDigit (W := W) radix
          (if radix = 2 ∨ radix = 8 ∨ radix = 16 then shiftOut radix else divideOut radix) := by
        split
        next shifts => exact shiftOut_takesDigit shifts
        next =>
          have small : radix < 2 ^ 32 := lt_of_le_of_lt (radix_bounds known).2 (by decide)
          exact divideOut_takesDigit base small
      have sign : (Signed && x.signBit) = true ↔ Signed = true ∧ x.toInt < 0 := by
        rw [Bool.and_eq_true, toInt_neg_iff]
      have magnitude : (if (Signed && x.signBit) = true then x.flipAllBits.increment else x).toNat =
          x.printedMagnitude Signed := by
        unfold printedMagnitude
        by_cases neg : (Signed && x.signBit) = true
        · rw [if_pos neg, if_pos (sign.mp neg), toNat_flipAllBits_increment x zero]
        · rw [if_neg neg, if_neg fun both => neg (sign.mpr both)]
      have pushes := pushDigits_spec base takes W
        (if (Signed && x.signBit) = true then x.flipAllBits.increment else x)
        (by rw [magnitude]; exact small) []
      rw [magnitude, nil_append] at pushes
      simp only [Bool.false_eq_true, if_false, bind_eq_bind, bind_some, zero,
        isSingleWord, single, decide_false, pushes, append_nil]
      simp only [sign]
      rfl

/-! ## The round trip -/

section RoundTrip

variable {radix : Nat}

theorem digitValue_digitChar {digit : Nat} (small : digit < 36) :
    digitValue (digitChar digit) = some digit := by
  revert digit
  decide

theorem digitChar_not_sign {digit : Nat} (small : digit < 36) :
    digitChar digit ≠ '-' ∧ digitChar digit ≠ '+' := by
  revert digit
  decide

theorem magnitude_reverse {digits : List Nat} (small : ∀ digit ∈ digits, digit < 36) :
    magnitude radix (digits.map digitChar).reverse = ofDigits radix digits := by
  induction digits with
  | nil => rfl
  | cons digit digits ih =>
    have rest := ih fun other mem => small other (mem_cons_of_mem _ mem)
    rw [List.map_cons, reverse_cons, magnitude_snoc, rest,
      digitValue_digitChar (small digit mem_cons_self), getD_some, ofDigits_cons]
    ring

/-- What is printed for a number: its digits, or a zero. -/
def printed (radix n : Nat) : List Char := if n = 0 then ['0'] else numeral radix n

theorem printed_isDigit (known : radix ∈ radixes) (n : Nat) :
    ∀ c ∈ printed radix n, IsDigit radix c ∧ c ≠ '-' ∧ c ≠ '+' := by
  have bounds := radix_bounds known
  intro c mem
  unfold printed at mem
  split at mem
  · rw [mem_singleton.mp mem]
    exact ⟨⟨0, by omega, rfl⟩, by decide, by decide⟩
  · rw [numeral, mem_reverse, List.mem_map] at mem
    rcases mem with ⟨digit, inDigits, rfl⟩
    have below := digits_lt_base bounds.1 inDigits
    exact ⟨⟨digit, below, digitValue_digitChar (by omega)⟩, digitChar_not_sign (by omega)⟩

theorem printed_ne_nil (radix n : Nat) : printed radix n ≠ [] := by
  unfold printed
  split
  next => exact cons_ne_nil _ _
  next nonzero =>
    rw [numeral, Ne, reverse_eq_nil_iff, map_eq_nil_iff]
    exact digits_ne_nil_iff_ne_zero.mpr nonzero

theorem magnitude_printed (known : radix ∈ radixes) (n : Nat) :
    magnitude radix (printed radix n) = n := by
  have bounds := radix_bounds known
  unfold printed
  split
  next zero =>
    rw [zero]
    show 0 * radix + 0 = 0
    rw [zero_mul]
  next =>
    rw [numeral, magnitude_reverse, ofDigits_digits]
    intro digit mem
    exact lt_of_lt_of_le (digits_lt_base bounds.1 mem) bounds.2

/-- The digits of a number below `2 ^ W` pass the assertions at the width. -/
theorem printed_fits (known : radix ∈ radixes) {n : Nat} (small : n < 2 ^ W) (wide : 0 < W) :
    digitsFit W radix (printed radix n).length := by
  have base := (radix_bounds known).1
  have length : radix ^ ((printed radix n).length - 1) < 2 ^ W := by
    unfold printed
    by_cases zero : n = 0
    · rw [if_pos zero]
      exact Nat.one_lt_two_pow (ne_of_gt wide)
    · have nonempty : Nat.digits radix n ≠ [] := digits_ne_nil_iff_ne_zero.mpr zero
      have positive := length_pos_of_ne_nil nonempty
      rw [if_neg zero, numeral, length_reverse, length_map]
      exact lt_of_le_of_lt
        ((lt_digits_length_iff base n).mp (sub_lt positive one_pos)) small
  have bits (k : Nat) (power : 2 ^ k <= radix) : k * ((printed radix n).length - 1) < W := by
    have below : 2 ^ (k * ((printed radix n).length - 1)) < 2 ^ W := by
      rw [pow_mul]
      exact lt_of_le_of_lt (Nat.pow_le_pow_left power _) length
    exact (Nat.pow_lt_pow_iff_right (by decide)).mp below
  simp only [radixes, mem_cons, not_mem_nil, or_false] at known
  unfold digitsFit
  rcases known with rfl | rfl | rfl | rfl | rfl
  · have three := bits 3 (by decide)
    omega
  · have three := bits 3 (by decide)
    omega
  · have four := bits 4 (by decide)
    omega
  · have one := bits 1 (by decide)
    omega
  · omega

theorem denotes_signed (neg : Prop) [Decidable neg] {digits : List Char}
    (nonempty : digits ≠ []) (notSign : ∀ c ∈ digits, c ≠ '-' ∧ c ≠ '+') :
    unsignedPart ((if neg then ['-'] else []) ++ digits) = digits ∧
      (((if neg then ['-'] else []) ++ digits).head? = some '-' ↔ neg) := by
  by_cases sign : neg
  · rw [if_pos sign]
    have unsigned : unsignedPart ('-' :: digits) = digits := by simp [unsignedPart]
    exact ⟨unsigned, iff_of_true rfl sign⟩
  · rw [if_neg sign, nil_append]
    cases digits with
    | nil => exact absurd rfl nonempty
    | cons first rest =>
      have ne := notSign first mem_cons_self
      have unsigned : unsignedPart (first :: rest) = first :: rest := by
        simp [unsignedPart, ne]
      exact ⟨unsigned, iff_of_false (fun same => ne.1 (some.inj same)) sign⟩

/-- The integer is read back from what was printed for it. -/
theorem fromString_toString (known : radix ∈ radixes) (x : APInt W) (Signed : Bool) :
    ∃ str, x.toString radix Signed false = some str ∧ fromString W str radix = some x := by
  have printedAs : x.toString radix Signed false =
      some ((if Signed = true ∧ x.toInt < 0 then ['-'] else []) ++
        printed radix (x.printedMagnitude Signed)) := by
    simp only [toString_spec known, printed, printedMagnitude_eq_zero_iff]
  have digits := printed_isDigit known (x.printedMagnitude Signed)
  rcases denotes_signed (Signed = true ∧ x.toInt < 0) (printed_ne_nil radix _)
      (fun c mem => (digits c mem).2) with ⟨unsigned, sign⟩
  refine ⟨_, printedAs, ?_⟩
  generalize (if Signed = true ∧ x.toInt < 0 then ['-'] else []) ++
    printed radix (x.printedMagnitude Signed) = str at *
  have isNumeral : IsNumeral radix str := by
    unfold IsNumeral
    rw [unsigned]
    exact ⟨printed_ne_nil radix _, fun c mem => (digits c mem).1⟩
  have fit : digitsFit W radix (unsignedPart str).length := by
    rw [unsigned]
    exact printed_fits known (x.printedMagnitude_lt Signed) x.positive
  rcases fromString_spec known isNumeral x.positive x.fits fit with ⟨result, found, value⟩
  rw [found]
  refine congrArg some (ext_toNat ?_)
  unfold denotes at value
  rw [unsigned, magnitude_printed known] at value
  have bound := x.toNat_lt
  have positive : 0 < 2 ^ W := Nat.two_pow_pos W
  unfold printedMagnitude at value
  by_cases neg : Signed = true ∧ x.toInt < 0
  · have shifted : -((2 ^ W - x.toNat : Nat) : Int) = x.toNat - (2 ^ W : Nat) := by omega
    rw [if_pos (sign.mpr neg), if_pos neg, shifted, Int.sub_emod_right,
      Int.emod_eq_of_lt (by omega) (by omega)] at value
    exact Int.ofNat.inj value
  · rw [if_neg (fun minus => neg (sign.mp minus)), if_neg neg,
      Int.emod_eq_of_lt (by omega) (by omega)] at value
    exact Int.ofNat.inj value

end RoundTrip

end APInt

end LlvmProject
