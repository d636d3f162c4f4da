import LlvmProject.Support.CommandLine
import Mathlib.Data.List.TakeWhile

namespace LlvmProject

open UInt32 hiding mul_zero
open List Option Nat

namespace Windows

/-!
# Quoting arguments for Windows

`flattenArgs` writes all arguments into one buffer, whose length is computed before.  An
argument is put into double quotes when it has certain characters; a double quote in it
and the backslashes in front of one, or of the closing one, are escaped.

A position in an argument is given by the characters before it and those from there on.
Counts and lengths are `unsigned`.  A write past the end of the buffer has no result.
-/

open CommandLine

/-! ## The code -/

/-- Whether the argument needs to be quoted when calling `CreateProcess`. -/
def ArgNeedsQuotes (Str : List Char) : Bool :=
  Str = [] || Str.any fun C => ['\t', ' ', '"', '&', '\'', '(', ')', '*', '<', '>', '\\', '`', '^',
    '|'].contains C

/-- The number of backslashes at the end of the characters. -/
def trailing (before : List Char) : Nat := (before.reverse.takeWhile (· = '\\')).length

def CountPrecedingBackslashes (before : List Char) : UInt32 := ofNat (trailing before)

/-- A backslash for every backslash at the end of the characters. -/
def EscapePrecedingEscapes (before : List Char) : List Char :=
  replicate (CountPrecedingBackslashes before).toNat '\\'

/-- The loop over the characters from a position on. -/
def lenLoop (before : List Char) : List Char -> UInt32 -> UInt32
  | [], len => len
  | C :: Str, len =>
    let len := if C = '"' then len + (CountPrecedingBackslashes before + 1) else len
    lenLoop (before ++ [C]) Str (len + 1)

def ArgLenWithQuotes (Str : List Char) : UInt32 :=
  let Quoted := ArgNeedsQuotes Str
  let len := lenLoop [] Str (if Quoted then 2 else 0)
  if Quoted then len + (CountPrecedingBackslashes Str + 1) else len

/-- What is written for the characters from a position on. -/
def writeLoop (before : List Char) : List Char -> List Char
  | [] => []
  | C :: arg =>
    (if C = '"' then EscapePrecedingEscapes before ++ ['\\'] else []) ++
      C :: writeLoop (before ++ [C]) arg

/-- What is written for an argument. -/
def writeArg (arg : List Char) : List Char :=
  if ArgNeedsQuotes arg then
    '"' :: (writeLoop [] arg ++ EscapePrecedingEscapes arg ++ ['"', ' '])
  else writeLoop [] arg ++ [' ']

/-- The length of the buffer without the place of the final NUL. -/
def commandLength (args : List (List Char)) : UInt32 :=
  args.foldl (fun len arg => len + (ArgLenWithQuotes arg + 1)) 0

def flattenArgs (args : List (List Char)) : Option (List Char) :=
  let command := args.flatMap writeArg
  if command.length + 1 <= (commandLength args + 1).toNat then some command else none

/-! ## Counting the pending backslashes

What is written for a character depends on the number of backslashes directly in front
of it. -/

/-- What is written for the characters after `pending` backslashes. -/
def escape : Nat -> List Char -> List Char
  | _, [] => []
  | pending, C :: arg =>
    if C = '"' then replicate pending '\\' ++ '\\' :: '"' :: escape 0 arg
    else if C = '\\' then '\\' :: escape (pending + 1) arg
    else C :: escape 0 arg

theorem trailing_append (before : List Char) (C : Char) :
    trailing (before ++ [C]) = if C = '\\' then trailing before + 1 else 0 := by
  rw [trailing, reverse_append, reverse_singleton, singleton_append, takeWhile_cons]
  by_cases backslash : C = '\\' <;> simp [backslash, trailing]

theorem trailing_le_length (before : List Char) : trailing before <= before.length := by
  rw [trailing]
  exact ((List.takeWhile_prefix _).length_le).trans (le_of_eq length_reverse)

theorem toNat_CountPrecedingBackslashes {before : List Char} (short : before.length < 2 ^ 32) :
    (CountPrecedingBackslashes before).toNat = trailing before := by
  rw [CountPrecedingBackslashes, toNat_ofNat']
  exact mod_eq_of_lt (lt_of_le_of_lt (trailing_le_length before) short)

theorem writeLoop_eq_escape (before arg : List Char) (short : before.length + arg.length < 2 ^ 32) :
    writeLoop before arg = escape (trailing before) arg := by
  induction arg generalizing before with
  | nil => rfl
  | cons C arg ih =>
    rw [length_cons] at short
    have next := ih (before ++ [C])
      (by rw [length_append, length_singleton]; omega)
    rw [trailing_append] at next
    rw [writeLoop, escape, next, EscapePrecedingEscapes, toNat_CountPrecedingBackslashes (by omega)]
    by_cases quote : C = '"'
    · subst quote
      simp
    · by_cases backslash : C = '\\'
      · subst backslash
        simp
      · simp [quote, backslash]

theorem lenLoop_eq (before arg : List Char) (total : Nat) :
    lenLoop before arg (ofNat total) = ofNat (total + (escape (trailing before) arg).length) := by
  induction arg generalizing before total with
  | nil => rfl
  | cons C arg ih =>
    rw [lenLoop, escape]
    by_cases quote : C = '"'
    · subst quote
      have step : (ofNat total + (CountPrecedingBackslashes before + 1)) + 1 =
          ofNat (total + (trailing before + 1) + 1) := by
        rw [ofNat_add, ofNat_add, ofNat_add]
        rfl
      rw [if_pos rfl, if_pos rfl, step, ih, trailing_append, if_neg (by decide),
        length_append, length_replicate, length_cons, length_cons]
      congr 1
      omega
    · have step : ofNat total + 1 = ofNat (total + 1) := by
        rw [ofNat_add]
        rfl
      rw [if_neg quote, if_neg quote, step, ih, trailing_append]
      by_cases backslash : C = '\\'
      · rw [if_pos backslash, if_pos backslash, length_cons]
        congr 1
        omega
      · rw [if_neg backslash, if_neg backslash, length_cons]
        congr 1
        omega

/-- The number of pending backslashes at the end. -/
def pendingAfter : Nat -> List Char -> Nat
  | pending, [] => pending
  | pending, C :: arg => pendingAfter (if C = '\\' then pending + 1 else 0) arg

theorem trailing_eq_pendingAfter (before arg : List Char) :
    trailing (before ++ arg) = pendingAfter (trailing before) arg := by
  induction arg generalizing before with
  | nil => rw [append_nil, pendingAfter]
  | cons C arg ih =>
    have next := ih (before ++ [C])
    rw [append_assoc, singleton_append, trailing_append] at next
    exact next

/-! ## Runs of backslashes in a quoted token -/

section Tokenizer

variable {MarkEOLs : Bool} {Token rest more : List Char} {NewArgv : Argv}

theorem windowsLoop_QUOTED_backslash (Src : List Char) :
    windowsLoop MarkEOLs .QUOTED Token ('\\' :: Src) NewArgv =
      (parseBackslash Src Token).bind fun result =>
        windowsLoop MarkEOLs .QUOTED result.1 result.2 NewArgv := by
  rw [windowsLoop, if_neg (by decide), if_pos rfl]
  split
  · next parsed => rw [parsed, bind_some]
  · next failed => rw [failed, bind_none]

theorem windowsLoop_QUOTED_quote :
    windowsLoop MarkEOLs .QUOTED Token ('"' :: more) NewArgv =
      windowsLoop MarkEOLs .UNQUOTED Token more NewArgv := by
  rw [windowsLoop, if_pos rfl]

/-- What is read for a run of backslashes. -/
theorem parseBackslash_replicate (n : Nat) (ends : rest.head? ≠ some '\\') :
    parseBackslash (replicate n '\\' ++ rest) Token =
      if n + 1 < 2 ^ 31 then
        if rest.head? = some '"' then
          if (n + 1) % 2 = 0 then some (Token ++ replicate ((n + 1) / 2) '\\', rest)
          else some (Token ++ replicate ((n + 1) / 2) '\\' ++ ['"'], rest.drop 1)
        else some (Token ++ replicate (n + 1) '\\', rest)
      else none := by
  have stops : rest.takeWhile (fun C => decide (C = '\\')) = [] ∧
      rest.dropWhile (fun C => decide (C = '\\')) = rest := by
    cases rest with
    | nil => exact ⟨rfl, rfl⟩
    | cons C rest =>
      have ne : C ≠ '\\' := fun same => ends (congrArg some same)
      rw [takeWhile_cons, dropWhile_cons, if_neg (by simpa using ne), if_neg (by simpa using ne)]
      exact ⟨rfl, rfl⟩
  have all : ∀ C ∈ replicate n '\\', decide (C = '\\') = true := fun C mem =>
    decide_eq_true (eq_of_mem_replicate mem)
  have run : (replicate n '\\' ++ rest).takeWhile (fun C => decide (C = '\\')) =
      replicate n '\\' := by
    rw [takeWhile_append_of_pos all, stops.1, append_nil]
  have left : (replicate n '\\' ++ rest).dropWhile (fun C => decide (C = '\\')) = rest := by
    rw [dropWhile_append_of_pos all, stops.2]
  simp only [parseBackslash, run, left, length_replicate, add_comm 1 n]

/-- An even number of backslashes in front of a double quote. -/
theorem windowsLoop_even (k : Nat) :
    windowsLoop MarkEOLs .QUOTED Token (replicate (2 * k) '\\' ++ '"' :: more) NewArgv =
      if 2 * k < 2 ^ 31 then
        windowsLoop MarkEOLs .UNQUOTED (Token ++ replicate k '\\') more NewArgv
      else none := by
  cases k with
  | zero =>
    rw [if_pos (by decide), mul_zero, replicate_zero, nil_append, append_nil]
    exact windowsLoop_QUOTED_quote
  | succ k =>
    rw [show 2 * (k + 1) = 2 * k + 1 + 1 by omega, replicate_succ, cons_append,
      windowsLoop_QUOTED_backslash, parseBackslash_replicate _ (by simp)]
    by_cases fits : 2 * k + 1 + 1 < 2 ^ 31
    · rw [if_pos fits, if_pos fits, head?_cons, if_pos rfl, if_pos (by omega), bind_some,
        show (2 * k + 1 + 1) / 2 = k + 1 by omega]
      exact windowsLoop_QUOTED_quote
    · rw [if_neg fits, if_neg fits, bind_none]

/-- An odd number of backslashes in front of a double quote. -/
theorem windowsLoop_odd (k : Nat) :
    windowsLoop MarkEOLs .QUOTED Token (replicate (2 * k + 1) '\\' ++ '"' :: more) NewArgv =
      if 2 * k + 1 < 2 ^ 31 then
        windowsLoop MarkEOLs .QUOTED (Token ++ replicate k '\\' ++ ['"']) more NewArgv
      else none := by
  rw [replicate_succ, cons_append, windowsLoop_QUOTED_backslash,
    parseBackslash_replicate _ (by simp)]
  by_cases fits : 2 * k + 1 < 2 ^ 31
  · rw [if_pos fits, if_pos fits, head?_cons, if_pos rfl, if_neg (by omega), bind_some,
      show (2 * k + 1) / 2 = k by omega]
    rfl
  · rw [if_neg fits, if_neg fits, bind_none]

/-- Backslashes in front of another character. -/
theorem windowsLoop_literal (n : Nat) {C : Char} (quote : C ≠ '"') (backslash : C ≠ '\\') :
    windowsLoop MarkEOLs .QUOTED Token (replicate n '\\' ++ C :: more) NewArgv =
      if n < 2 ^ 31 then
        windowsLoop MarkEOLs .QUOTED (Token ++ replicate n '\\' ++ [C]) more NewArgv
      else none := by
  have plain : ∀ Token, windowsLoop MarkEOLs .QUOTED Token (C :: more) NewArgv =
      windowsLoop MarkEOLs .QUOTED (Token ++ [C]) more NewArgv := by
    intro Token
    rw [windowsLoop, if_neg quote, if_neg backslash]
  cases n with
  | zero =>
    rw [if_pos (by decide), replicate_zero, nil_append, append_nil]
    exact plain Token
  | succ n =>
    rw [replicate_succ, cons_append, windowsLoop_QUOTED_backslash,
      parseBackslash_replicate _ (by simpa using backslash)]
    by_cases fits : n + 1 < 2 ^ 31
    · rw [if_pos fits, if_pos fits, if_neg (by simpa using quote), bind_some]
      exact plain _
    · rw [if_neg fits, if_neg fits, bind_none]

/-! ## One argument -/

/-- The runs of backslashes that the tokenizer counts fit into an `int`.  A run in front
of a double quote, or of the end, is written twice. -/
def backslashesFit : Nat -> List Char -> Bool
  | pending, [] => decide (2 * pending < 2 ^ 31)
  | pending, C :: arg =>
    if C = '"' then decide (2 * pending + 1 < 2 ^ 31) && backslashesFit 0 arg
    else if C = '\\' then backslashesFit (pending + 1) arg
    else decide (pending < 2 ^ 31) && backslashesFit 0 arg

/-- Between the double quotes the argument is read back. -/
theorem windowsLoop_escape (pending : Nat) (arg Token : List Char) :
    windowsLoop MarkEOLs .QUOTED Token
        (replicate pending '\\' ++ (escape pending arg ++
          (replicate (pendingAfter pending arg) '\\' ++ '"' :: more))) NewArgv =
      if backslashesFit pending arg then
        windowsLoop MarkEOLs .UNQUOTED (Token ++ replicate pending '\\' ++ arg) more NewArgv
      else none := by
  induction arg generalizing pending Token with
  | nil =>
    have doubled : replicate pending '\\' ++
        (replicate pending '\\' ++ '"' :: more) =
        replicate (2 * pending) '\\' ++ '"' :: more := by
      rw [<- append_assoc, replicate_append_replicate, two_mul]
    rw [escape, pendingAfter, nil_append, doubled, windowsLoop_even, append_nil]
    by_cases fits : 2 * pending < 2 ^ 31 <;> simp [backslashesFit]
  | cons C arg ih =>
    rw [escape, pendingAfter, backslashesFit]
    by_cases quote : C = '"'
    · subst quote
      have written : replicate pending '\\' ++
          (replicate pending '\\' ++ '\\' :: '"' :: escape 0 arg ++
            (replicate (pendingAfter 0 arg) '\\' ++ '"' :: more)) =
          replicate (2 * pending + 1) '\\' ++ '"' :: (escape 0 arg ++
            (replicate (pendingAfter 0 arg) '\\' ++ '"' :: more)) := by
        rw [two_mul, replicate_add, replicate_add, replicate_one]
        simp only [append_assoc, cons_append, nil_append]
      have next := ih 0 (Token ++ replicate pending '\\' ++ ['"'])
      rw [replicate_zero, nil_append, append_nil, <- append_cons] at next
      rw [if_pos rfl, if_neg (by decide), if_pos rfl, written, windowsLoop_odd]
      by_cases fits : 2 * pending + 1 < 2 ^ 31
      · rw [if_pos fits, decide_eq_true fits, Bool.true_and]
        exact next
      · rw [if_neg fits, decide_eq_false fits, Bool.false_and]
        rfl
    · by_cases backslash : C = '\\'
      · subst backslash
        have next := ih (pending + 1) Token
        rw [replicate_add, replicate_one] at next
        simp only [append_assoc, cons_append, nil_append] at next
        rw [if_neg quote, if_pos rfl, if_pos rfl, if_neg quote, if_pos rfl]
        simpa only [append_assoc, cons_append, nil_append] using next
      · have next := ih 0 (Token ++ replicate pending '\\' ++ [C])
        rw [replicate_zero, nil_append, append_nil, <- append_cons] at next
        rw [if_neg quote, if_neg backslash, if_neg backslash, if_neg quote, if_neg backslash,
          cons_append, windowsLoop_literal pending quote backslash]
        by_cases fits : pending < 2 ^ 31
        · rw [if_pos fits, decide_eq_true fits, Bool.true_and]
          exact next
        · rw [if_neg fits, decide_eq_false fits, Bool.false_and]
          rfl

/-- The characters that the arguments must not have. -/
def Permitted (arg : List Char) : Prop := ∀ C ∈ ['\x00', '\n', '\r', '\x0c', '\x0b'], C ∉ arg

instance (arg : List Char) : Decidable (Permitted arg) :=
  inferInstanceAs (Decidable (∀ C ∈ ['\x00', '\n', '\r', '\x0c', '\x0b'], C ∉ arg))

/-- A character that stands for itself outside of double quotes. -/
def Plain (C : Char) : Prop := isWhitespace C = false ∧ C ≠ '"' ∧ C ≠ '\\'

variable {arg : List Char}

theorem plain_of_not_needs (permitted : Permitted arg)
    (unquoted : ArgNeedsQuotes arg = false) : arg ≠ [] ∧ ∀ C ∈ arg, Plain C := by
  rw [ArgNeedsQuotes, Bool.or_eq_false_iff, decide_eq_false_iff_not, List.any_eq_false] at unquoted
  refine ⟨unquoted.1, fun C mem => ?_⟩
  have outside := unquoted.2 C mem
  simp only [contains_eq_mem, decide_eq_true_iff, mem_cons, not_mem_nil, or_false,
    not_or] at outside
  have other : C ≠ '\x00' ∧ C ≠ '\n' ∧ C ≠ '\r' ∧ C ≠ '\x0c' ∧ C ≠ '\x0b' := by
    refine ⟨?_, ?_, ?_, ?_, ?_⟩ <;> rintro rfl <;> exact permitted _ (by simp) mem
  refine ⟨?_, outside.2.2.1, outside.2.2.2.2.2.2.2.2.2.2.1⟩
  simp [isWhitespace, strchr, outside, other]

section

variable (plain : ∀ C ∈ arg, Plain C)
include plain

theorem escape_plain (pending : Nat) : escape pending arg = arg := by
  induction arg generalizing pending with
  | nil => rfl
  | cons C arg ih =>
    have here := plain C mem_cons_self
    rw [escape, if_neg here.2.1, if_neg here.2.2, ih fun D mem => plain D (mem_cons_of_mem C mem)]

theorem backslashesFit_plain : backslashesFit 0 arg = true := by
  induction arg with
  | nil => rfl
  | cons C arg ih =>
    have here := plain C mem_cons_self
    rw [backslashesFit, if_neg here.2.1, if_neg here.2.2,
      ih fun D mem => plain D (mem_cons_of_mem C mem)]
    rfl

theorem windowsLoop_plain (Token : List Char) :
    windowsLoop MarkEOLs .UNQUOTED Token (arg ++ more) NewArgv =
      windowsLoop MarkEOLs .UNQUOTED (Token ++ arg) more NewArgv := by
  induction arg generalizing Token with
  | nil => rw [nil_append, append_nil]
  | cons C arg ih =>
    have here := plain C mem_cons_self
    rw [cons_append, windowsLoop, here.1, if_neg Bool.false_ne_true, if_neg here.2.1,
      if_neg here.2.2, append_cons Token C arg]
    exact ih (fun D mem => plain D (mem_cons_of_mem C mem)) _

end

/-- The blank after an argument ends it, also when it is empty. -/
theorem windowsLoop_blank (permitted : Permitted arg) :
    windowsLoop MarkEOLs .UNQUOTED arg (' ' :: more) NewArgv =
      windowsLoop MarkEOLs .INIT [] more (NewArgv ++ [some arg]) := by
  have whole : arg.takeWhile (fun C => decide (C ≠ '\x00')) = arg := by
    apply takeWhile_eq_self_iff.mpr
    intro C mem
    apply decide_eq_true
    rintro rfl
    exact permitted _ mem_cons_self mem
  rw [windowsLoop, if_pos (by decide), SaveString, whole, markEOL,
    if_neg (by cases MarkEOLs <;> decide)]

theorem windowsLoop_writeArg (permitted : Permitted arg) (short : arg.length < 2 ^ 32) :
    windowsLoop MarkEOLs .INIT [] (writeArg arg ++ more) NewArgv =
      if backslashesFit 0 arg then windowsLoop MarkEOLs .INIT [] more (NewArgv ++ [some arg])
      else none := by
  have body := writeLoop_eq_escape [] arg (by rw [length_nil]; omega)
  cases needs : ArgNeedsQuotes arg with
  | true =>
    have closing : EscapePrecedingEscapes arg = replicate (pendingAfter 0 arg) '\\' := by
      rw [EscapePrecedingEscapes, toNat_CountPrecedingBackslashes short]
      exact congrArg (replicate · '\\') (trailing_eq_pendingAfter [] arg)
    have written : writeArg arg ++ more = '"' :: (escape 0 arg ++
        (replicate (pendingAfter 0 arg) '\\' ++ '"' :: ' ' :: more)) := by
      rw [writeArg, if_pos needs, body, closing]
      simp only [trailing, reverse_nil, takeWhile_nil, length_nil,
        cons_append, append_assoc, nil_append]
    have read : windowsLoop MarkEOLs .QUOTED [] (escape 0 arg ++
        (replicate (pendingAfter 0 arg) '\\' ++ '"' :: ' ' :: more)) NewArgv =
        if backslashesFit 0 arg then windowsLoop MarkEOLs .UNQUOTED arg (' ' :: more) NewArgv
        else none := windowsLoop_escape 0 arg []
    rw [written, windowsLoop, if_neg (by decide), if_pos rfl, read, windowsLoop_blank permitted]
  | false =>
    rcases plain_of_not_needs permitted needs with ⟨some, plain⟩
    have written : writeArg arg ++ more = arg ++ ' ' :: more := by
      rw [writeArg, if_neg (by rw [needs]; exact Bool.false_ne_true), body, escape_plain plain,
        append_assoc, singleton_append]
    rw [written, backslashesFit_plain plain, if_pos rfl, <- windowsLoop_blank permitted]
    cases arg with
    | nil => exact absurd rfl some
    | cons C arg =>
      have here := plain C mem_cons_self
      rw [cons_append, windowsLoop, here.1, if_neg Bool.false_ne_true, if_neg here.2.1,
        if_neg here.2.2, nil_append,
        windowsLoop_plain fun D mem => plain D (mem_cons_of_mem C mem)]
      rfl

/-! ## All arguments -/

theorem windowsLoop_writeArgs {args : List (List Char)} (permitted : ∀ arg ∈ args, Permitted arg)
    (short : ∀ arg ∈ args, arg.length < 2 ^ 32) :
    windowsLoop MarkEOLs .INIT [] (args.flatMap writeArg) NewArgv =
      if args.all (backslashesFit 0) then some ([], NewArgv ++ args.map some) else none := by
  induction args generalizing NewArgv with
  | nil =>
    rw [flatMap_nil, windowsLoop, map_nil, append_nil]
    rfl
  | cons arg args ih =>
    rw [flatMap_cons, windowsLoop_writeArg (permitted arg mem_cons_self)
        (short arg mem_cons_self), ih
        (fun other mem => permitted other (mem_cons_of_mem arg mem))
        (fun other mem => short other (mem_cons_of_mem arg mem)),
      all_cons, map_cons, append_assoc, singleton_append]
    cases backslashesFit 0 arg <;> rfl

end Tokenizer

/-! ## The length of the buffer -/

/-- The characters that are counted for an argument. -/
def argLength (arg : List Char) : Nat :=
  (escape 0 arg).length + if ArgNeedsQuotes arg then 2 + (trailing arg + 1) else 0

/-- The characters that are counted for all arguments, with the blanks. -/
def totalLength (args : List (List Char)) : Nat := (args.map fun arg => argLength arg + 1).sum

theorem ArgLenWithQuotes_eq (arg : List Char) : ArgLenWithQuotes arg = ofNat (argLength arg) := by
  rw [ArgLenWithQuotes, argLength]
  cases ArgNeedsQuotes arg with
  | true =>
    have counted := lenLoop_eq [] arg 2
    simp only [if_true]
    rw [show (2 : UInt32) = ofNat 2 from rfl, counted, CountPrecedingBackslashes,
      show (1 : UInt32) = ofNat 1 from rfl, <- ofNat_add, <- ofNat_add]
    congr 1
    simp only [trailing, reverse_nil, takeWhile_nil, length_nil]
    omega
  | false =>
    have counted := lenLoop_eq [] arg 0
    simp only [Bool.false_eq_true, if_false]
    rw [show (0 : UInt32) = ofNat 0 from rfl, counted, zero_add]
    rfl

theorem commandLength_eq (args : List (List Char)) :
    commandLength args = ofNat (totalLength args) := by
  have general : ∀ n, args.foldl (fun len arg => len + (ArgLenWithQuotes arg + 1))
      (ofNat n) = ofNat (n + totalLength args) := by
    induction args with
    | nil => exact fun n => rfl
    | cons arg args ih =>
      intro n
      have step : ofNat n + (ArgLenWithQuotes arg + 1) = ofNat (n + (argLength arg + 1)) := by
        rw [ArgLenWithQuotes_eq, ofNat_add, ofNat_add]
        rfl
      rw [foldl_cons, step, ih, totalLength, totalLength, map_cons, sum_cons, add_assoc]
  have all := general 0
  rwa [zero_add] at all

/-- An argument takes up one character less than counted if it is quoted. -/
theorem length_writeArg {arg : List Char} (short : arg.length < 2 ^ 32) :
    (writeArg arg).length + (if ArgNeedsQuotes arg then 1 else 0) = argLength arg + 1 := by
  have body := writeLoop_eq_escape [] arg (by rw [length_nil]; omega)
  rw [writeArg, argLength, body, EscapePrecedingEscapes, toNat_CountPrecedingBackslashes short]
  have start : trailing [] = 0 := rfl
  cases ArgNeedsQuotes arg with
  | true =>
    simp only [if_true, start, length_cons, length_append, length_replicate, length_nil]
    omega
  | false =>
    simp only [Bool.false_eq_true, if_false, start, length_append, length_singleton]

theorem length_le_escape (pending : Nat) (arg : List Char) :
    arg.length <= (escape pending arg).length := by
  induction arg generalizing pending with
  | nil => exact le_refl _
  | cons C arg ih =>
    rw [escape]
    split
    · rw [length_append, length_cons, length_cons, length_cons]
      have rest := ih 0
      omega
    · split
      · exact succ_le_succ (ih _)
      · exact succ_le_succ (ih _)

theorem length_le_writeLoop (before arg : List Char) :
    arg.length <= (writeLoop before arg).length := by
  induction arg generalizing before with
  | nil => exact le_refl _
  | cons C arg ih =>
    have rest := ih (before ++ [C])
    rw [writeLoop, length_append, length_cons, length_cons]
    omega

theorem length_lt_writeArg (arg : List Char) : arg.length < (writeArg arg).length := by
  have body := length_le_writeLoop [] arg
  rw [writeArg]
  split
  · simp only [length_cons, length_append]
    omega
  · rw [length_append, length_singleton]
    omega

/-- What is counted and what is written for all arguments: one more for each that is
quoted, and such an argument takes up three characters at least. -/
theorem length_writeArgs {args : List (List Char)} (short : ∀ arg ∈ args, arg.length < 2 ^ 32) :
    (args.flatMap writeArg).length <= totalLength args ∧
      3 * totalLength args <= 4 * (args.flatMap writeArg).length := by
  induction args with
  | nil => exact ⟨le_refl _, le_refl _⟩
  | cons arg args ih =>
    have here := length_writeArg (short arg mem_cons_self)
    have others := ih fun other mem =>
      short other (mem_cons_of_mem arg mem)
    have total : totalLength (arg :: args) = argLength arg + 1 + totalLength args := by
      rw [totalLength, map_cons, sum_cons, totalLength]
    have three : (if ArgNeedsQuotes arg then 1 else 0) * 3 <= (writeArg arg).length := by
      cases needs : ArgNeedsQuotes arg with
      | true =>
        rw [writeArg, if_pos needs]
        simp only [if_true, length_cons, length_append, length_nil]
        omega
      | false => exact zero_le _
    rw [flatMap_cons, length_append, total]
    constructor
    · omega
    · omega

/-! ## Exactly when the arguments are read back -/

/-- The computed length and the counted backslashes fit into their types. -/
def Fits (args : List (List Char)) : Prop :=
  totalLength args + 1 < 2 ^ 32 ∧ ∀ arg ∈ args, backslashesFit 0 arg = true

theorem length_lt_totalLength {args : List (List Char)} {arg : List Char} (mem : arg ∈ args) :
    arg.length < totalLength args := by
  induction args with
  | nil => exact absurd mem not_mem_nil
  | cons other args ih =>
    rw [totalLength, map_cons, sum_cons]
    rcases mem_cons.mp mem with rfl | later
    · have body := length_le_escape 0 arg
      rw [argLength]
      omega
    · have rest := ih later
      rw [totalLength] at rest
      omega

instance (args : List (List Char)) : Decidable (Fits args) := inferInstanceAs (Decidable (_ ∧ _))

/-- All characters fit into the buffer exactly when its length does not wrap around. -/
theorem flattenArgs_fits_iff (args : List (List Char)) :
    (args.flatMap writeArg).length + 1 <= (commandLength args + 1).toNat ↔
      totalLength args + 1 < 2 ^ 32 := by
  have buffer : (commandLength args + 1).toNat = (totalLength args + 1) % 2 ^ 32 := by
    rw [commandLength_eq, show (1 : UInt32) = ofNat 1 from rfl, <- ofNat_add, toNat_ofNat']
  rw [buffer]
  by_cases short : ∀ arg ∈ args, arg.length < 2 ^ 32
  · rcases length_writeArgs short with ⟨fewer, many⟩
    constructor
    · intro fits
      by_contra large
      omega
    · intro small
      rw [mod_eq_of_lt small]
      omega
  · rw [not_forall] at short
    rcases short with ⟨arg, long⟩
    rw [Classical.not_imp, not_lt] at long
    have written : arg.length < (args.flatMap writeArg).length := by
      rw [flatMap_def]
      exact lt_of_lt_of_le (length_lt_writeArg arg)
        (sublist_flatten_of_mem (mem_map_of_mem long.1)).length_le
    have counted := length_lt_totalLength long.1
    omega

/-- The string that is built is split into the arguments again, and it fits into the
buffer, exactly when the lengths fit into their types. -/
theorem flattenArgs_tokenize_iff (MarkEOLs : Bool) (args : List (List Char))
    (permitted : ∀ arg ∈ args, Permitted arg) :
    (∃ command, flattenArgs args = some command ∧
      TokenizeWindowsCommandLine command MarkEOLs =
        some (args.map some ++ if MarkEOLs then [none] else [])) ↔ Fits args := by
  have read : ∀ (_ : totalLength args + 1 < 2 ^ 32),
      TokenizeWindowsCommandLine (args.flatMap writeArg) MarkEOLs =
        if args.all (backslashesFit 0) then
          some (args.map some ++ if MarkEOLs then [none] else [])
        else none := by
    intro small
    have short : ∀ arg ∈ args, arg.length < 2 ^ 32 := by
      intro arg mem
      have counted := length_lt_totalLength mem
      omega
    rw [TokenizeWindowsCommandLine, windowsLoop_writeArgs permitted short]
    cases args.all (backslashesFit 0) with
    | true => cases MarkEOLs <;> simp [finish]
    | false => rfl
  constructor
  · rintro ⟨command, built, tokens⟩
    rw [flattenArgs] at built
    by_cases fits : (args.flatMap writeArg).length + 1 <= (commandLength args + 1).toNat
    · rw [if_pos fits] at built
      have small := (flattenArgs_fits_iff args).mp fits
      rw [<- Option.some.inj built, read small] at tokens
      refine ⟨small, ?_⟩
      by_contra some
      rw [if_neg (by rwa [List.all_eq_true])] at tokens
      cases tokens
    · rw [if_neg fits] at built
      cases built
  · rintro ⟨small, backslashes⟩
    refine ⟨args.flatMap writeArg, if_pos ((flattenArgs_fits_iff args).mpr small), ?_⟩
    rw [read small, if_pos (all_eq_true.mpr backslashes)]

theorem flattenArgs_tokenize_three : ∃ command,
    flattenArgs ["a\\\\\"b".toList, [], "c d\\".toList] = some command ∧
      TokenizeWindowsCommandLine command false =
        some ([some "a\\\\\"b".toList, some [], some "c d\\".toList] ++ []) :=
  (flattenArgs_tokenize_iff false ["a\\\\\"b".toList, [], "c d\\".toList]
    (by simp [Permitted])).mpr (by decide)

theorem flattenArgs_long (n : Nat) (large : 2 ^ 32 <= n) :
    flattenArgs [replicate n 'a'] = none := by
  apply if_neg
  rw [flattenArgs_fits_iff]
  have counted : (replicate n 'a').length < totalLength [replicate n 'a'] :=
    length_lt_totalLength mem_cons_self
  rw [length_replicate] at counted
  omega

/-- The computed length of a single argument of `2 ^ 32` letters is `1`. -/
theorem flattenArgs_long_fails :
    Permitted (replicate (2 ^ 32) 'a') ∧ flattenArgs [replicate (2 ^ 32) 'a'] = none := by
  refine ⟨fun C bad mem => ?_, flattenArgs_long (2 ^ 32) (le_refl _)⟩
  rw [eq_of_mem_replicate mem] at bad
  exact absurd bad (by decide)

end Windows
end LlvmProject
