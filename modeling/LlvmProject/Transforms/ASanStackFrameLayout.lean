import LlvmProject.Library.ShadowMemory
import Mathlib.Algebra.Order.Ring.Nat
import Mathlib.Data.List.Sort

namespace LlvmProject

/-!
# The layout of a stack frame for AddressSanitizer

The variables of a frame are sorted by alignment and put behind each other with red zones in
between.  A red zone is chosen so that the next variable is aligned, and the bytes of the shadow
memory are computed in the same pass.

Sizes and offsets are natural numbers: a frame whose size does not fit into 64 bits has more
shadow bytes than can be allocated.
-/

structure ASanStackVariableDescription where
  /-- Name of the variable that will be displayed if a stack-related bug is reported. -/
  Name : String
  /-- Size of the variable in bytes. -/
  Size : Nat
  /-- Alignment of the variable. -/
  Alignment : Nat
  /-- Offset from the beginning of the frame; set by `ComputeASanStackFrameLayout`. -/
  Offset : Nat
  deriving DecidableEq

structure ASanStackFrameLayout where
  /-- Frame description. -/
  DescriptionString : String
  /-- The contents of the shadow memory for the stack frame. -/
  ShadowBytes : List UInt8
  /-- Alignment for the entire frame. -/
  FrameAlignment : Nat
  /-- Size of the frame in bytes. -/
  FrameSize : Nat
  deriving DecidableEq

namespace ASanStackFrameLayout

def kAsanStackLeftRedzoneMagic : UInt8 := 0xf1
def kAsanStackMidRedzoneMagic : UInt8 := 0xf2
def kAsanStackRightRedzoneMagic : UInt8 := 0xf3

/-- The stack variables are sorted by alignment, largest first. -/
def CompareVars (a b : ASanStackVariableDescription) : Bool := decide (a.Alignment > b.Alignment)

/-- Minimal alignment for all variables, so that those with a smaller one are not reordered. -/
def kMinAlignment : Nat := 16

def RoundUpToAlignment (Value Align : Nat) : Nat := (Value + Align - 1) / Align * Align

/-- The larger the variable size the larger is the redzone. -/
def VarAndRedzoneSize (Size Alignment : Nat) : Nat :=
  let Res :=
    if Size <= 4 then 16
    else if Size <= 16 then 32
    else if Size <= 128 then Size + 32
    else if Size <= 512 then Size + 64
    else if Size <= 4096 then Size + 128
    else Size + 256
  RoundUpToAlignment Res Alignment

/-- What the loop over the variables writes. -/
structure Progress where
  Offset : Nat
  SB : List UInt8
  StackDescription : String
  deriving DecidableEq

/-- The alignment up to which the red zone behind a variable is rounded. -/
def nextAlignment (Granularity : Nat) : List ASanStackVariableDescription -> Nat
  | [] => Granularity
  | next :: _ => max Granularity next.Alignment

/-- One round of the loop over the variables, which the variables in `rest` follow. -/
def placeVar (Granularity FrameAlignment : Nat) (progress : Progress)
    (var : ASanStackVariableDescription) (rest : List ASanStackVariableDescription) :
    Option (Progress × ASanStackVariableDescription) :=
  let IsLast := rest.isEmpty
  let Alignment := max Granularity var.Alignment
  let Size := var.Size
  if Alignment &&& (Alignment - 1) = 0 ∧ FrameAlignment >= Alignment ∧
      progress.Offset % Alignment = 0 ∧ Size > 0 then
    let StackDescription := progress.StackDescription ++ " " ++ toString progress.Offset ++ " " ++
      toString Size ++ " " ++ toString var.Name.utf8ByteSize ++ " " ++ var.Name
    let SizeWithRedzone := VarAndRedzoneSize Size (nextAlignment Granularity rest)
    let SB := progress.SB ++ List.replicate (Size / Granularity) 0
    let SB := SB ++ if Size % Granularity ≠ 0 then [UInt8.ofNat (Size % Granularity)] else []
    let SB := SB ++ List.replicate ((SizeWithRedzone - Size) / Granularity)
      (if IsLast then kAsanStackRightRedzoneMagic else kAsanStackMidRedzoneMagic)
    some (⟨progress.Offset + SizeWithRedzone, SB, StackDescription⟩,
      { var with Offset := progress.Offset })
  else none

/-- The loop over the variables. -/
def placeVars (Granularity FrameAlignment : Nat) :
    Progress -> List ASanStackVariableDescription ->
      Option (Progress × List ASanStackVariableDescription)
  | progress, [] => some (progress, [])
  | progress, var :: rest => do
    let (progress, var) <- placeVar Granularity FrameAlignment progress var rest
    let (progress, rest) <- placeVars Granularity FrameAlignment progress rest
    return (progress, var :: rest)

/-- The red zone that makes the frame size a multiple of the size of the header. -/
def extraRedzone (Granularity MinHeaderSize : Nat) (progress : Progress) : Progress :=
  if progress.Offset % MinHeaderSize ≠ 0 then
    let ExtraRedzone := MinHeaderSize - progress.Offset % MinHeaderSize
    { progress with
      SB := progress.SB ++ List.replicate (ExtraRedzone / Granularity) kAsanStackRightRedzoneMagic
      Offset := progress.Offset + ExtraRedzone }
  else progress

/-- Force the minimal alignment. -/
def raiseAlignment (var : ASanStackVariableDescription) : ASanStackVariableDescription :=
  { var with Alignment := max var.Alignment kMinAlignment }

/-- The variables as they are placed, and the layout; `none` for a failed assertion. -/
def ComputeASanStackFrameLayout (Vars : List ASanStackVariableDescription)
    (Granularity MinHeaderSize : Nat) :
    Option (List ASanStackVariableDescription × ASanStackFrameLayout) := do
  guard (Granularity >= 8 ∧ Granularity <= 64 ∧ Granularity &&& (Granularity - 1) = 0)
  guard (MinHeaderSize >= 16 ∧ MinHeaderSize &&& (MinHeaderSize - 1) = 0 ∧
    MinHeaderSize >= Granularity)
  let NumVars := Vars.length
  let Vars := (Vars.map raiseAlignment).insertionSort fun a b => ¬ CompareVars b a
  let first <- Vars.head?
  let FrameAlignment := max Granularity first.Alignment
  let Offset := max (max MinHeaderSize Granularity) first.Alignment
  guard (Offset % Granularity = 0)
  let (progress, Vars) <- placeVars Granularity FrameAlignment
    ⟨Offset, List.replicate (Offset / Granularity) kAsanStackLeftRedzoneMagic,
      toString NumVars⟩ Vars
  let progress := extraRedzone Granularity MinHeaderSize progress
  guard (progress.Offset % MinHeaderSize = 0)
  guard (progress.Offset / Granularity = progress.SB.length)
  return (Vars, ⟨progress.StackDescription, progress.SB, FrameAlignment, progress.Offset⟩)

end ASanStackFrameLayout
end LlvmProject

namespace LlvmProject

open List Nat

namespace ASanStackFrameLayout

open ShadowMemory

/-!
## The layout of a stack frame is exact

Sorting makes the alignments fall, and as they are powers of two, an offset that is aligned for
a variable is aligned for all that follow.  The shadow bytes are followed through the loop: each
round leaves them as many as the granules up to the offset, and makes the bytes of one more
variable addressable.
-/

/-! ## Alignments -/

section Alignments

variable {a b : Nat}

theorem dvd_of_isPowerOfTwo_of_le (left : a.isPowerOfTwo) (right : b.isPowerOfTwo) (le : a <= b) :
    a ∣ b := by
  rcases left with ⟨i, rfl⟩
  rcases right with ⟨j, rfl⟩
  exact Nat.pow_dvd_pow 2 ((Nat.pow_le_pow_iff_right Nat.one_lt_two).mp le)

theorem isPowerOfTwo_max (left : a.isPowerOfTwo) (right : b.isPowerOfTwo) :
    (max a b).isPowerOfTwo := by
  rcases max_choice a b with same | same
  · rwa [same]
  · rwa [same]

theorem and_sub_one_of_isPowerOfTwo (power : a.isPowerOfTwo) : a &&& (a - 1) = 0 :=
  (ne_zero_and_sub_one_eq_zero_iff_isPowerOfTwo.mpr power).2

theorem isPowerOfTwo_kMinAlignment : kMinAlignment.isPowerOfTwo := ⟨4, rfl⟩

theorem dvd_RoundUpToAlignment (Value Align : Nat) : Align ∣ RoundUpToAlignment Value Align :=
  dvd_mul_left Align _

theorem le_RoundUpToAlignment (Value : Nat) {Align : Nat} (positive : 0 < Align) :
    Value <= RoundUpToAlignment Value Align := by
  have split := div_add_mod' (Value + Align - 1) Align
  have rem := mod_lt (Value + Align - 1) positive
  rw [RoundUpToAlignment]
  omega

theorem dvd_VarAndRedzoneSize (Size Alignment : Nat) :
    Alignment ∣ VarAndRedzoneSize Size Alignment := dvd_RoundUpToAlignment _ _

/-- A red zone is added to the variable, nothing is taken away. -/
theorem le_VarAndRedzoneSize (Size : Nat) {Alignment : Nat} (positive : 0 < Alignment) :
    Size <= VarAndRedzoneSize Size Alignment := by
  refine le_trans ?_ (le_RoundUpToAlignment _ positive)
  split_ifs <;> omega

end Alignments

/-! ## One round of the loop -/

/-- The byte of the frame belongs to the variable. -/
def Inside (var : ASanStackVariableDescription) (byte : Nat) : Prop :=
  var.Offset <= byte ∧ byte < var.Offset + var.Size

section Placement

variable {Granularity FrameAlignment : Nat} {progress after : Progress}
  {var : ASanStackVariableDescription} {Vars rest placed : List ASanStackVariableDescription}

/-- What the loop asks of the variables that it has not placed yet. -/
structure Placeable (Granularity FrameAlignment : Nat) (var : ASanStackVariableDescription) :
    Prop where
  power : var.Alignment.isPowerOfTwo
  positive : 0 < var.Size
  bound : max Granularity var.Alignment <= FrameAlignment

theorem nextAlignment_pos (positive : 0 < Granularity)
    (rest : List ASanStackVariableDescription) : 0 < nextAlignment Granularity rest := by
  cases rest with
  | nil => exact positive
  | cons next rest => exact lt_of_lt_of_le positive (le_max_left _ _)

theorem dvd_nextAlignment (powerGranularity : Granularity.isPowerOfTwo)
    (powers : ∀ next ∈ rest, next.Alignment.isPowerOfTwo) :
    Granularity ∣ nextAlignment Granularity rest := by
  cases rest with
  | nil => exact dvd_rfl
  | cons next rest =>
    have power := powers next mem_cons_self
    exact dvd_of_isPowerOfTwo_of_le powerGranularity (isPowerOfTwo_max powerGranularity power)
      (le_max_left _ _)

theorem nextAlignment_dvd (powerGranularity : Granularity.isPowerOfTwo) (powers : ∀ next ∈ var ::
    rest, next.Alignment.isPowerOfTwo) (falling : ∀ next ∈ rest, next.Alignment <= var.Alignment) :
    nextAlignment Granularity rest ∣ max Granularity var.Alignment := by
  have powerHere := isPowerOfTwo_max powerGranularity (powers var mem_cons_self)
  cases rest with
  | nil => exact dvd_of_isPowerOfTwo_of_le powerGranularity powerHere (le_max_left _ _)
  | cons next rest =>
    have power := powers next (mem_cons_of_mem _ mem_cons_self)
    exact dvd_of_isPowerOfTwo_of_le (isPowerOfTwo_max powerGranularity power) powerHere
      (max_le_max_left _ (falling next mem_cons_self))

/-- The state of the loop: the shadow bytes are those of the granules up to the offset. -/
def Progress.Whole (Granularity : Nat) (progress : Progress) : Prop :=
  progress.SB.length * Granularity = progress.Offset

/-- A round puts the variable at the offset, and makes its bytes and no others addressable. -/
theorem placeVar_spec (powerGranularity : Granularity.isPowerOfTwo) (small : Granularity <= 64)
    (placeable : Placeable Granularity FrameAlignment var) (powers : ∀ next ∈ rest,
    next.Alignment.isPowerOfTwo) (aligned : max Granularity var.Alignment ∣ progress.Offset) (whole
    : progress.Whole Granularity) :
    ∃ after, placeVar Granularity FrameAlignment progress var rest =
        some (after, { var with Offset := progress.Offset }) ∧
      after.Offset = progress.Offset + VarAndRedzoneSize var.Size (nextAlignment Granularity rest) ∧
      after.Whole Granularity ∧
      ∀ byte, Addressable Granularity after.SB byte ↔ Addressable Granularity progress.SB byte ∨
        Inside { var with Offset := progress.Offset } byte := by
  have positive := pos_of_isPowerOfTwo powerGranularity
  have powerHere := isPowerOfTwo_max powerGranularity placeable.power
  have divides := dvd_nextAlignment powerGranularity powers
  have fits := le_VarAndRedzoneSize var.Size (nextAlignment_pos positive rest)
  have multiple := divides.trans (dvd_VarAndRedzoneSize var.Size (nextAlignment Granularity rest))
  rw [placeVar, if_pos ⟨and_sub_one_of_isPowerOfTwo powerHere, placeable.bound,
    mod_eq_zero_of_dvd aligned, placeable.positive⟩]
  generalize VarAndRedzoneSize var.Size (nextAlignment Granularity rest) = total at fits multiple ⊢
  generalize hmagic : (if rest.isEmpty = true then kAsanStackRightRedzoneMagic
    else kAsanStackMidRedzoneMagic) = magic
  have poison : magic ≠ 0 ∧ 64 <= magic.toNat := by
    rw [<- hmagic]
    split
    · exact ⟨by decide, by decide⟩
    · exact ⟨by decide, by decide⟩
  have count := length_objectShadow positive fits multiple
  refine ⟨_, rfl, rfl, ?_, fun byte => ?_⟩
  · simp only [Progress.Whole, append_assoc] at whole ⊢
    rw [<- append_assoc (List.replicate _ 0), <- objectShadow, length_append, length_append,
      length_replicate, count, add_mul, whole, Nat.div_mul_cancel multiple]
  · simp only [append_assoc]
    rw [<- append_assoc (List.replicate _ 0), <- objectShadow, addressable_append positive,
      addressable_append positive, whole, addressable_objectShadow positive
      (le_trans small (by decide))]
    have gap : ∀ byte, ¬ Addressable Granularity
        (List.replicate ((total - var.Size) / Granularity) magic) byte := fun byte =>
      not_addressable_poison poison.1 (le_trans small poison.2) _
    refine or_congr_right ⟨fun behind => ⟨behind.1, ?_⟩, fun inside => ⟨inside.1, .inl ?_⟩⟩
    · have bound := behind.2.resolve_right fun inGap => gap _ inGap.2
      have start := behind.1
      simp only
      omega
    · have start := inside.1
      have stop := inside.2
      simp only at start stop
      omega

/-! ## The loop -/

/-- The identity of a variable, which the placement keeps. -/
def identity (var : ASanStackVariableDescription) : String × Nat × Nat :=
  (var.Name, var.Size, var.Alignment)

/-- The variables have been placed behind each other from one state of the loop to another. -/
structure Placed (Granularity : Nat) (progress after : Progress)
    (Vars placed : List ASanStackVariableDescription) : Prop where
  same : placed.map identity = Vars.map identity
  aligned : ∀ var ∈ placed, max Granularity var.Alignment ∣ var.Offset
  apart : placed.Pairwise fun a b => a.Offset + a.Size <= b.Offset
  within : ∀ var ∈ placed, progress.Offset <= var.Offset ∧ var.Offset + var.Size <= after.Offset
  grows : progress.Offset <= after.Offset
  whole : after.Whole Granularity
  readable : ∀ byte, Addressable Granularity after.SB byte ↔
    Addressable Granularity progress.SB byte ∨ ∃ var ∈ placed, Inside var byte

theorem placeVars_spec (powerGranularity : Granularity.isPowerOfTwo) (small : Granularity <= 64)
    (placeable : ∀ var ∈ Vars, Placeable Granularity FrameAlignment var)
    (sorted : Vars.Pairwise fun a b => b.Alignment <= a.Alignment)
    (aligned : nextAlignment Granularity Vars ∣ progress.Offset)
    (whole : progress.Whole Granularity) :
    ∃ after placed, placeVars Granularity FrameAlignment progress Vars = some (after, placed) ∧
      Placed Granularity progress after Vars placed := by
  induction Vars generalizing progress with
  | nil =>
    refine ⟨progress, [], rfl, rfl, ?_, List.Pairwise.nil, ?_, le_refl _, whole, ?_⟩
    · exact fun var mem => absurd mem not_mem_nil
    · exact fun var mem => absurd mem not_mem_nil
    · simp
  | cons var rest ih =>
    have falling := pairwise_cons.mp sorted
    have powers : ∀ next ∈ var :: rest, next.Alignment.isPowerOfTwo :=
      fun next mem => (placeable next mem).power
    rcases placeVar_spec powerGranularity small (placeable var mem_cons_self)
      (fun next mem => powers next (mem_cons_of_mem _ mem)) aligned whole with
      ⟨middle, step, offset, wholeMiddle, readableHere⟩
    have nextAligned : nextAlignment Granularity rest ∣ middle.Offset := by
      rw [offset]
      exact Nat.dvd_add ((nextAlignment_dvd powerGranularity powers falling.1).trans aligned)
        (dvd_VarAndRedzoneSize _ _)
    rcases ih (fun next mem => placeable next (mem_cons_of_mem _ mem))
      falling.2 nextAligned wholeMiddle with ⟨after, placed, run, behind⟩
    have positive : 0 < nextAlignment Granularity rest :=
      nextAlignment_pos (pos_of_isPowerOfTwo powerGranularity) rest
    have size := le_VarAndRedzoneSize var.Size positive
    refine ⟨after, { var with Offset := progress.Offset } :: placed, ?_, ?_⟩
    · rw [placeVars, step]
      simp only [Option.bind_eq_bind, Option.bind_some, run, Option.pure_def]
    · have start : progress.Offset + var.Size <= middle.Offset := by
        rw [offset]
        exact Nat.add_le_add_left size _
      constructor
      · rw [List.map_cons, List.map_cons, behind.same]
        rfl
      · intro next mem
        rcases mem_cons.mp mem with rfl | mem
        · exact aligned
        · exact behind.aligned next mem
      · exact pairwise_cons.mpr ⟨fun next mem =>
          le_trans start (behind.within next mem).1, behind.apart⟩
      · intro next mem
        rcases mem_cons.mp mem with rfl | mem
        · exact ⟨le_refl _, le_trans start behind.grows⟩
        · exact ⟨le_trans (le_of_add_right_le start) (behind.within next mem).1,
            (behind.within next mem).2⟩
      · exact le_trans (le_of_add_right_le start) behind.grows
      · exact behind.whole
      · intro byte
        rw [behind.readable, readableHere, or_assoc, exists_mem_cons_iff]

/-- The last red zone fills the frame up to a multiple of the size of the header. -/
theorem extraRedzone_spec {MinHeaderSize : Nat} (positive : 0 < Granularity)
    (small : Granularity <= 64) (divides : Granularity ∣ MinHeaderSize)
    (headerPositive : 0 < MinHeaderSize) (whole : progress.Whole Granularity) :
    MinHeaderSize ∣ (extraRedzone Granularity MinHeaderSize progress).Offset ∧
      progress.Offset <= (extraRedzone Granularity MinHeaderSize progress).Offset ∧
      (extraRedzone Granularity MinHeaderSize progress).Whole Granularity ∧
      ∀ byte, Addressable Granularity (extraRedzone Granularity MinHeaderSize progress).SB byte ↔
        Addressable Granularity progress.SB byte := by
  by_cases multiple : progress.Offset % MinHeaderSize = 0
  · rw [extraRedzone, if_neg (not_not.mpr multiple)]
    exact ⟨dvd_of_mod_eq_zero multiple, le_refl _, whole, fun _ => Iff.rfl⟩
  · have rem := mod_lt progress.Offset headerPositive
    have aligned : Granularity ∣ progress.Offset := ⟨progress.SB.length, by
      rw [<- whole, mul_comm]⟩
    rw [extraRedzone, if_pos multiple]
    refine ⟨⟨progress.Offset / MinHeaderSize + 1, ?_⟩, Nat.le_add_right _ _, ?_, fun byte => ?_⟩
    · have split := div_add_mod progress.Offset MinHeaderSize
      simp only [mul_add, mul_one]
      omega
    · have gap : Granularity ∣ MinHeaderSize - progress.Offset % MinHeaderSize :=
        Nat.dvd_sub divides ((dvd_mod_iff divides).mpr aligned)
      simp only [Progress.Whole] at whole ⊢
      rw [length_append, length_replicate, add_mul, whole, Nat.div_mul_cancel gap]
    · rw [addressable_append positive]
      exact or_iff_left fun behind => not_addressable_poison
        (by decide : kAsanStackRightRedzoneMagic ≠ 0) (le_trans small (by decide)) _ behind.2

end Placement

/-! ## The layout -/

section Sorting

variable {Vars : List ASanStackVariableDescription}

theorem not_CompareVars_iff (a b : ASanStackVariableDescription) :
    (¬ CompareVars b a = true) ↔ b.Alignment <= a.Alignment := by
  rw [CompareVars, decide_eq_true_eq, not_lt]

/-- The variables in the order in which they are placed. -/
def sortedVars (Vars : List ASanStackVariableDescription) : List ASanStackVariableDescription :=
  (Vars.map raiseAlignment).insertionSort fun a b => ¬ CompareVars b a

theorem perm_sortedVars (Vars : List ASanStackVariableDescription) :
    (sortedVars Vars).Perm (Vars.map raiseAlignment) :=
  perm_insertionSort _ _

theorem pairwise_sortedVars : (sortedVars Vars).Pairwise fun a b => b.Alignment <= a.Alignment := by
  have total : Std.Total fun a b : ASanStackVariableDescription => ¬ CompareVars b a = true := by
    refine ⟨fun a b => ?_⟩
    rw [not_CompareVars_iff, not_CompareVars_iff]
    exact le_total _ _
  have transitive : IsTrans _ fun a b : ASanStackVariableDescription =>
      ¬ CompareVars b a = true := by
    refine ⟨fun a b c left right => ?_⟩
    rw [not_CompareVars_iff] at left right ⊢
    exact le_trans right left
  exact (pairwise_insertionSort (fun a b : ASanStackVariableDescription =>
    ¬ CompareVars b a = true) _).imp fun {a b} => (not_CompareVars_iff a b).mp

theorem mem_sortedVars_iff {var : ASanStackVariableDescription} :
    var ∈ sortedVars Vars ↔ ∃ given ∈ Vars, raiseAlignment given = var := by
  rw [(perm_sortedVars Vars).mem_iff, mem_map]

theorem sortedVars_ne_nil (nonempty : Vars ≠ []) : sortedVars Vars ≠ [] := by
  intro empty
  have perm := perm_sortedVars Vars
  rw [empty] at perm
  exact nonempty (map_eq_nil_iff.mp (nil_perm.mp perm))

end Sorting

/-- The frame is laid out exactly: each variable has its place, and the shadow bytes tell which
bytes of the frame belong to a variable. -/
structure MemoryExact (Granularity MinHeaderSize : Nat)
    (Vars placed : List ASanStackVariableDescription) (Layout : ASanStackFrameLayout) :
    Prop where
  /-- The variables are those that were given, with the minimal alignment. -/
  same : (placed.map identity).Perm
    (Vars.map fun var => (var.Name, var.Size, max var.Alignment kMinAlignment))
  aligned : ∀ var ∈ placed, max Granularity var.Alignment ∣ var.Offset
  alignedAsGiven : ∀ var ∈ placed, ∀ given ∈ Vars,
    var.Alignment = max given.Alignment kMinAlignment ->
    max Granularity given.Alignment ∣ var.Offset
  apart : placed.Pairwise fun a b => a.Offset + a.Size <= b.Offset
  within : ∀ var ∈ placed, var.Offset + var.Size <= Layout.FrameSize
  header : MinHeaderSize ∣ Layout.FrameSize
  length : Layout.ShadowBytes.length = Layout.FrameSize / Granularity
  readable : ∀ byte < Layout.FrameSize,
    Addressable Granularity Layout.ShadowBytes byte ↔ ∃ var ∈ placed, Inside var byte

/-- The layout is computed without a failed assertion, and it is exact. -/
theorem ComputeASanStackFrameLayout_exact {Vars : List ASanStackVariableDescription} {Granularity
    MinHeaderSize : Nat} (nonempty : Vars ≠ []) (sizes : ∀ var ∈ Vars, 0 < var.Size) (powers : ∀ var
    ∈ Vars, var.Alignment.isPowerOfTwo) (admissible : Granularity ∈ [8, 16, 32, 64]) (header :
    MinHeaderSize.isPowerOfTwo ∧ 16 <= MinHeaderSize ∧ Granularity <= MinHeaderSize) :
    ∃ placed Layout, ComputeASanStackFrameLayout Vars Granularity MinHeaderSize =
        some (placed, Layout) ∧
      MemoryExact Granularity MinHeaderSize Vars placed Layout := by
  have granularity : Granularity.isPowerOfTwo ∧ 8 <= Granularity ∧ Granularity <= 64 := by
    simp only [mem_cons, not_mem_nil, or_false] at admissible
    rcases admissible with rfl | rfl | rfl | rfl
    · exact ⟨⟨3, rfl⟩, by decide, by decide⟩
    · exact ⟨⟨4, rfl⟩, by decide, by decide⟩
    · exact ⟨⟨5, rfl⟩, by decide, by decide⟩
    · exact ⟨⟨6, rfl⟩, by decide, by decide⟩
  rcases granularity with ⟨powerGranularity, least, small⟩
  rcases header with ⟨powerHeader, leastHeader, covers⟩
  have positive := pos_of_isPowerOfTwo powerGranularity
  rcases exists_cons_of_ne_nil (sortedVars_ne_nil nonempty) with ⟨first, rest, sortedForm⟩
  have sorted : (first :: rest).Pairwise fun a b => b.Alignment <= a.Alignment :=
    sortedForm ▸ pairwise_sortedVars
  have placeable : ∀ var ∈ first :: rest,
      Placeable Granularity (max Granularity first.Alignment) var := by
    intro var mem
    have largest : var.Alignment <= first.Alignment := by
      rcases mem_cons.mp mem with rfl | behind
      · exact le_refl _
      · exact (pairwise_cons.mp sorted).1 var behind
    rw [<- sortedForm, mem_sortedVars_iff] at mem
    rcases mem with ⟨given, memberGiven, rfl⟩
    exact ⟨isPowerOfTwo_max (powers given memberGiven) isPowerOfTwo_kMinAlignment,
      sizes given memberGiven, max_le_max_left _ largest⟩
  have powerFirst := (placeable first mem_cons_self).power
  have powerStart := isPowerOfTwo_max (isPowerOfTwo_max powerHeader powerGranularity) powerFirst
  have start : Granularity ∣ max (max MinHeaderSize Granularity) first.Alignment :=
    dvd_of_isPowerOfTwo_of_le powerGranularity powerStart
      (le_max_of_le_left (le_max_right _ _))
  have startFirst : max Granularity first.Alignment ∣
      max (max MinHeaderSize Granularity) first.Alignment :=
    dvd_of_isPowerOfTwo_of_le (isPowerOfTwo_max powerGranularity powerFirst) powerStart
      (max_le_max_right _ (le_max_right _ _))
  generalize hOffset : max (max MinHeaderSize Granularity) first.Alignment = Offset
    at start startFirst
  have wholeStart : Progress.Whole Granularity ⟨Offset, List.replicate (Offset / Granularity)
      kAsanStackLeftRedzoneMagic, toString Vars.length⟩ := by
    rw [Progress.Whole, length_replicate, Nat.div_mul_cancel start]
  rcases placeVars_spec powerGranularity small placeable sorted (by exact startFirst)
    wholeStart with ⟨after, placed, run, result⟩
  rcases extraRedzone_spec positive small
    (dvd_of_isPowerOfTwo_of_le powerGranularity powerHeader covers)
    (pos_of_isPowerOfTwo powerHeader) result.whole with
    ⟨divides, grows, whole, readable⟩
  have count : (extraRedzone Granularity MinHeaderSize after).Offset / Granularity =
      (extraRedzone Granularity MinHeaderSize after).SB.length := by
    rw [<- whole, Nat.mul_div_cancel _ positive]
  refine ⟨placed, ⟨(extraRedzone Granularity MinHeaderSize after).StackDescription,
    (extraRedzone Granularity MinHeaderSize after).SB, max Granularity first.Alignment,
    (extraRedzone Granularity MinHeaderSize after).Offset⟩, ?_, ?_⟩
  · have sortedList : (Vars.map raiseAlignment).insertionSort
        (fun a b => ¬ CompareVars b a = true) = first :: rest := sortedForm
    rw [ComputeASanStackFrameLayout, sortedList]
    simp only [guard, head?_cons, Option.bind_eq_bind, Option.bind_some, Option.pure_def, hOffset]
    rw [if_pos ⟨least, small, and_sub_one_of_isPowerOfTwo powerGranularity⟩, if_pos ⟨leastHeader,
      and_sub_one_of_isPowerOfTwo powerHeader, covers⟩, if_pos (mod_eq_zero_of_dvd start)]
    simp only [Option.bind_some, run]
    rw [if_pos (mod_eq_zero_of_dvd divides), if_pos count]
    rfl
  · constructor
    · rw [result.same, <- sortedForm]
      have perm := (perm_sortedVars Vars).map identity
      rwa [map_map] at perm
    · exact result.aligned
    · intro var mem given memberGiven same
      have powerGiven := powers given memberGiven
      have powerVar : var.Alignment.isPowerOfTwo := by
        rw [same]
        exact isPowerOfTwo_max powerGiven isPowerOfTwo_kMinAlignment
      exact (dvd_of_isPowerOfTwo_of_le (isPowerOfTwo_max powerGranularity powerGiven)
        (isPowerOfTwo_max powerGranularity powerVar)
        (max_le_max_left _ (same ▸ le_max_left _ _))).trans (result.aligned var mem)
    · exact result.apart
    · exact fun var mem => le_trans (result.within var mem).2 grows
    · exact divides
    · exact count.symm
    · intro byte _
      rw [readable, result.readable]
      exact or_iff_right (not_addressable_poison
        (by decide : kAsanStackLeftRedzoneMagic ≠ 0) (le_trans small (by decide)) _)

/-- Three variables, two of them with an alignment above the granularity. -/
theorem ComputeASanStackFrameLayout_exact_three :
    ∃ placed Layout, ComputeASanStackFrameLayout
        [⟨"a", 17, 64, 0⟩, ⟨"b", 40, 128, 0⟩, ⟨"c", 3, 1, 0⟩] 8 32 = some (placed, Layout) ∧
      MemoryExact 8 32 [⟨"a", 17, 64, 0⟩, ⟨"b", 40, 128, 0⟩, ⟨"c", 3, 1, 0⟩] placed Layout :=
  ComputeASanStackFrameLayout_exact (by decide) (by decide) (by decide) (by decide) (by decide)

end ASanStackFrameLayout
end LlvmProject
