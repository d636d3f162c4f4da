import LlvmProject.Support.CommandLine
import Mathlib.Data.List.TakeWhile

namespace LlvmProject

open List

namespace Driver

/-!
# Arguments in response files

A tool's arguments are written to a response file in double quotes, and double quotes
and backslashes in them are escaped.  The GNU tokenizer reads back each argument that
is not empty; of an empty one it keeps nothing.
-/

open CommandLine

/-! ## `Command` -/

inductive ResponseFileSupport
  | RF_Full
  | RF_FileList
  | RF_None

/-- A command: what its creator supports, its arguments and the files of its list. -/
structure Command where
  ResponseFilesSupport : ResponseFileSupport
  Arguments : List (List Char)
  InputFileList : List (List Char)

def withEscapes (Arg : List Char) : List Char :=
  Arg.flatMap fun C => if C = '"' || C = '\\' then ['\\', C] else [C]

def writeArgument (Arg : List Char) : List Char := '"' :: (withEscapes Arg ++ ['"', ' '])

def Command.writeResponseFile (command : Command) : List Char :=
  match command.ResponseFilesSupport with
  | .RF_FileList => command.InputFileList.flatMap fun Arg => Arg ++ ['\n']
  | _ => command.Arguments.flatMap writeArgument

/-! ## One argument -/

theorem quotedString_withEscapes (Arg Token rest : List Char) :
    quotedString '"' Token (withEscapes Arg ++ '"' :: rest) = (Token ++ Arg, '"' :: rest) := by
  induction Arg generalizing Token with
  | nil =>
    rw [withEscapes, flatMap_nil, nil_append, append_nil]
    cases rest <;> rfl
  | cons C Arg ih =>
    have next := ih (Token ++ [C])
    rw [append_assoc, singleton_append] at next
    rw [withEscapes, flatMap_cons, <- withEscapes]
    by_cases special : C = '"' || C = '\\'
    · have escapes : isGNUSpecial C = true := by
        rw [Bool.or_eq_true, decide_eq_true_iff, decide_eq_true_iff] at special
        rcases special with rfl | rfl <;> rfl
      have step : quotedString '"' Token ('\\' :: C :: (withEscapes Arg ++ '"' :: rest)) =
          quotedString '"' (Token ++ [C]) (withEscapes Arg ++ '"' :: rest) := by
        rw [quotedString, if_neg (by decide), if_pos (by rw [escapes]; rfl)]
      rw [if_pos special]
      exact step.trans next
    · rw [if_neg special, singleton_append]
      rw [Bool.or_eq_true, decide_eq_true_iff, decide_eq_true_iff, not_or] at special
      cases tail : withEscapes Arg ++ '"' :: rest with
      | nil => simp at tail
      | cons D Src =>
        rw [cons_append, tail, quotedString, if_neg special.1, if_neg (by simp [special.2])]
        rw [tail] at next
        exact next

theorem gnuLoop_of_beforeToken {MarkEOLs : Bool} {Token Src Src' : List Char} {C : Char} {NewArgv
    NewArgv' : Argv} (found : beforeToken MarkEOLs Token Src NewArgv = (C :: Src', NewArgv')) :
    gnuLoop MarkEOLs Token Src NewArgv =
      if C = '\\' && Src'.head?.any isGNUSpecial then
        gnuLoop MarkEOLs (Token ++ Src'.take 1) (Src'.drop 1) NewArgv'
      else if isQuote C then
        match (quotedString C Token Src').2 with
        | [] => ((quotedString C Token Src').1, NewArgv')
        | _ :: _ => gnuLoop MarkEOLs (quotedString C Token Src').1
            ((quotedString C Token Src').2.drop 1) NewArgv'
      else if isWhitespace C then
        gnuLoop MarkEOLs [] Src' (if Token = [] then NewArgv' else NewArgv' ++ [SaveString Token])
      else gnuLoop MarkEOLs (Token ++ [C]) Src' NewArgv' := by
  rw [gnuLoop]
  split
  · next done => cases found.symm.trans done
  · next other =>
      cases found.symm.trans other
      rfl

theorem gnuLoop_of_end {MarkEOLs : Bool} {Token Src : List Char} {NewArgv NewArgv' : Argv}
    (found : beforeToken MarkEOLs Token Src NewArgv = ([], NewArgv')) :
    gnuLoop MarkEOLs Token Src NewArgv = (Token, NewArgv') := by
  rw [gnuLoop]
  split
  · next done =>
      cases found.symm.trans done
      rfl
  · next other => cases found.symm.trans other

/-- A blank between tokens is consumed. -/
theorem gnuLoop_blank (Src : List Char) (NewArgv : Argv) :
    gnuLoop false [] (' ' :: Src) NewArgv = gnuLoop false [] Src NewArgv := by
  have skipped : beforeToken false [] (' ' :: Src) NewArgv = beforeToken false [] Src NewArgv := rfl
  cases rest : beforeToken false [] Src NewArgv with
  | mk Src' NewArgv' =>
    cases Src' with
    | nil => rw [gnuLoop_of_end rest, gnuLoop_of_end (skipped.trans rest)]
    | cons C Src' =>
      rw [gnuLoop_of_beforeToken rest, gnuLoop_of_beforeToken (skipped.trans rest)]

theorem gnuLoop_blank_token {Token : List Char} (some : Token ≠ []) (Src : List Char)
    (NewArgv : Argv) :
    gnuLoop false Token (' ' :: Src) NewArgv =
      gnuLoop false [] Src (NewArgv ++ [SaveString Token]) := by
  have here : beforeToken false Token (' ' :: Src) NewArgv = (' ' :: Src, NewArgv) := if_neg some
  rw [gnuLoop_of_beforeToken here, if_neg (by simp), if_neg (by decide), if_pos (by decide),
    if_neg some]

theorem SaveString_of_nulFree {Arg : List Char} (nulFree : '\x00' ∉ Arg) :
    SaveString Arg = some Arg := by
  rw [SaveString, takeWhile_eq_self_iff.mpr]
  intro C mem
  rw [decide_eq_true_iff]
  rintro rfl
  exact nulFree mem

/-- What the tokenizer keeps of an argument. -/
def kept (Arg : List Char) : Argv := if Arg = [] then [] else [some Arg]

theorem gnuLoop_writeArgument {Arg : List Char} (nulFree : '\x00' ∉ Arg) (rest : List Char)
    (NewArgv : Argv) :
    gnuLoop false [] (writeArgument Arg ++ rest) NewArgv =
      gnuLoop false [] rest (NewArgv ++ kept Arg) := by
  have quoted := quotedString_withEscapes Arg [] (' ' :: rest)
  rw [nil_append] at quoted
  have here : beforeToken false [] (writeArgument Arg ++ rest) NewArgv =
      ('"' :: (withEscapes Arg ++ '"' :: ' ' :: rest), NewArgv) := by
    rw [writeArgument, cons_append, append_assoc]
    rfl
  rw [gnuLoop_of_beforeToken here, if_neg (by simp), if_pos (by decide), quoted]
  simp only [drop_one, tail_cons]
  by_cases empty : Arg = []
  · rw [empty, gnuLoop_blank, kept, if_pos rfl, append_nil]
  · rw [gnuLoop_blank_token empty, SaveString_of_nulFree nulFree, kept, if_neg empty]

/-! ## All arguments -/

section

variable (Arguments : List (List Char))

theorem gnuLoop_writeArguments (nulFree : ∀ Arg ∈ Arguments, '\x00' ∉ Arg) (NewArgv : Argv) :
    gnuLoop false [] (Arguments.flatMap writeArgument) NewArgv =
      ([], NewArgv ++ Arguments.flatMap kept) := by
  induction Arguments generalizing NewArgv with
  | nil =>
    rw [flatMap_nil, flatMap_nil, append_nil]
    exact gnuLoop_of_end rfl
  | cons Arg Arguments ih =>
    rw [flatMap_cons, gnuLoop_writeArgument (nulFree Arg mem_cons_self),
      ih fun other mem => nulFree other (mem_cons_of_mem Arg mem),
      flatMap_cons, append_assoc]

/-- The empty arguments are lost. -/
theorem tokenize_writeArguments (nulFree : ∀ Arg ∈ Arguments, '\x00' ∉ Arg) :
    TokenizeGNUCommandLine (Arguments.flatMap writeArgument) false = Arguments.flatMap kept := by
  rw [TokenizeGNUCommandLine, gnuLoop_writeArguments Arguments nulFree]
  rfl

theorem flatMap_kept :
    Arguments.flatMap kept = (Arguments.filter fun Arg => Arg ≠ []).map some := by
  induction Arguments with
  | nil => rfl
  | cons Arg Arguments ih =>
    rw [flatMap_cons, ih, kept]
    by_cases empty : Arg = []
    · rw [if_pos empty, filter_cons_of_neg (by simpa using empty), nil_append]
    · rw [if_neg empty, filter_cons_of_pos (by simpa using empty), List.map_cons, singleton_append]

end

/-- The arguments are read back exactly when none is empty. -/
theorem writeResponseFile_tokenize_iff (command : Command) (regular : command.ResponseFilesSupport ≠
    .RF_FileList) (nulFree : ∀ Arg ∈ command.Arguments, '\x00' ∉ Arg) :
    TokenizeGNUCommandLine command.writeResponseFile false = command.Arguments.map some ↔
      ∀ Arg ∈ command.Arguments, Arg ≠ [] := by
  have written : command.writeResponseFile = command.Arguments.flatMap writeArgument := by
    rw [Command.writeResponseFile]
    cases mode : command.ResponseFilesSupport with
    | RF_FileList => exact absurd mode regular
    | RF_Full => rfl
    | RF_None => rfl
  rw [written, tokenize_writeArguments _ nulFree, flatMap_kept]
  constructor
  · intro same Arg mem
    have all := map_injective_iff.mpr (fun _ _ => Option.some.inj) same
    rw [filter_eq_self] at all
    exact of_decide_eq_true (all Arg mem)
  · intro some
    rw [filter_eq_self.mpr fun Arg mem => decide_eq_true (some Arg mem)]

theorem writeResponseFile_tokenize_two :
    TokenizeGNUCommandLine
      (Command.writeResponseFile ⟨.RF_Full, ["a \"b".toList, "c\\".toList], []⟩) false =
      [some "a \"b".toList, some "c\\".toList] :=
  (writeResponseFile_tokenize_iff ⟨.RF_Full, ["a \"b".toList, "c\\".toList], []⟩
    (by simp) (by decide)).mpr (by decide)

/-- An empty argument in front of another is not read back. -/
theorem writeResponseFile_empty_lost :
    TokenizeGNUCommandLine (Command.writeResponseFile ⟨.RF_Full, [[], ['x']], []⟩) false =
        [some ['x']] ∧
      TokenizeGNUCommandLine (Command.writeResponseFile ⟨.RF_Full, [[], ['x']], []⟩) false ≠
        [[], ['x']].map some := by
  have read := tokenize_writeArguments [[], ['x']] (by decide)
  exact ⟨read, fun same => absurd (read.symm.trans same) (by decide)⟩

end Driver
end LlvmProject
