import Mathlib.Data.List.Basic
import Mathlib.Algebra.Order.Ring.Nat

namespace LlvmProject
namespace CommandLine

/-!
# Splitting a command line into arguments

The two tokenizers walk over a string `Src`; here they consume it from the front.
The arguments are collected in `NewArgv`, which also has the marks of the ends of
lines, the null pointers.  Each token is saved as a C string, hence up to its first
NUL.
-/

/-- `strchr` finds the NUL at the end of the set, too. -/
def strchr (set : List Char) (C : Char) : Bool := C = '\x00' || set.contains C

def isWhitespace (C : Char) : Bool := strchr [' ', '\t', '\n', '\r', '\x0c', '\x0b'] C

def isQuote (C : Char) : Bool := C = '"' || C = '\''

def isGNUSpecial (C : Char) : Bool := strchr ['\\', '"', '\'', ' '] C

/-- The arguments and, as `none`, the marks of the ends of lines. -/
abbrev Argv := List (Option (List Char))

/-- `StringSaver::SaveString` of the token as a C string. -/
def SaveString (Token : List Char) : Option (List Char) := some (Token.takeWhile (· ≠ '\x00'))

/-- Mark the end of a line if the character is one. -/
def markEOL (MarkEOLs : Bool) (C : Char) (NewArgv : Argv) : Argv :=
  if MarkEOLs && C = '\n' then NewArgv ++ [none] else NewArgv

/-- What follows the loop over the characters: the last token, and the mark of the
end of the file. -/
def finish (MarkEOLs : Bool) (Token : List Char) (NewArgv : Argv) : Argv :=
  let NewArgv := if Token = [] then NewArgv else NewArgv ++ [SaveString Token]
  if MarkEOLs then NewArgv ++ [none] else NewArgv

/-! ## `TokenizeGNUCommandLine` -/

/-- Consume runs of whitespace. -/
def skipWhitespace (MarkEOLs : Bool) : List Char -> Argv -> List Char × Argv
  | [], NewArgv => ([], NewArgv)
  | C :: Src, NewArgv =>
    if isWhitespace C then skipWhitespace MarkEOLs Src (markEOL MarkEOLs C NewArgv)
    else (C :: Src, NewArgv)

/-- Consume a quoted string: the token, and what is left from the closing quote on. -/
def quotedString (Quote : Char) : List Char -> List Char -> List Char × List Char
  | Token, [] => (Token, [])
  | Token, [C] => if C = Quote then (Token, [C]) else (Token ++ [C], [])
  | Token, C :: D :: Src =>
    if C = Quote then (Token, C :: D :: Src)
    -- backslashes are literal, unless they escape a special character
    else if C = '\\' && isGNUSpecial D then quotedString Quote (Token ++ [D]) Src
    else quotedString Quote (Token ++ [C]) (D :: Src)

theorem length_skipWhitespace (MarkEOLs : Bool) (Src : List Char) (NewArgv : Argv) :
    (skipWhitespace MarkEOLs Src NewArgv).1.length <= Src.length := by
  induction Src generalizing NewArgv with
  | nil => exact le_refl _
  | cons C Src ih =>
    rw [skipWhitespace]
    split
    · exact Nat.le_succ_of_le (ih _)
    · exact le_refl _

theorem length_quotedString (Quote : Char) (Token Src : List Char) :
    (quotedString Quote Token Src).2.length <= Src.length := by
  fun_induction quotedString Quote Token Src <;> simp_all <;> omega

/-- The run of whitespace in front of a token. -/
def beforeToken (MarkEOLs : Bool) (Token Src : List Char) (NewArgv : Argv) : List Char × Argv :=
  if Token = [] then skipWhitespace MarkEOLs Src NewArgv else (Src, NewArgv)

theorem length_lt_of_beforeToken {MarkEOLs : Bool} {Token Src rest : List Char} {C : Char} {NewArgv
    NewArgv' : Argv} (found : beforeToken MarkEOLs Token Src NewArgv = (C :: rest, NewArgv')) :
    rest.length < Src.length := by
  have bound : (beforeToken MarkEOLs Token Src NewArgv).1.length <= Src.length := by
    rw [beforeToken]
    split
    · exact length_skipWhitespace MarkEOLs Src NewArgv
    · exact le_refl _
  rw [found] at bound
  exact bound

/-- The loop over the characters: the token at its end, and the arguments. -/
def gnuLoop (MarkEOLs : Bool) (Token Src : List Char) (NewArgv : Argv) : List Char × Argv :=
  match _found : beforeToken MarkEOLs Token Src NewArgv with
  | ([], NewArgv) => (Token, NewArgv)
  | (C :: Src, NewArgv) =>
    -- backslashes can escape backslashes, spaces, and other quotes
    if C = '\\' && Src.head?.any isGNUSpecial then
      gnuLoop MarkEOLs (Token ++ Src.take 1) (Src.drop 1) NewArgv
    else if isQuote C then
      let quoted := quotedString C Token Src
      match quoted.2 with
      | [] => (quoted.1, NewArgv)
      | _ :: _ => gnuLoop MarkEOLs quoted.1 (quoted.2.drop 1) NewArgv
    else if isWhitespace C then
      gnuLoop MarkEOLs [] Src (if Token = [] then NewArgv else NewArgv ++ [SaveString Token])
    else gnuLoop MarkEOLs (Token ++ [C]) Src NewArgv
termination_by Src.length
decreasing_by
  all_goals have shorter := length_lt_of_beforeToken _found
  · rw [List.length_drop]
    omega
  · have quoted := length_quotedString C Token Src
    rw [List.length_drop]
    omega
  · exact shorter
  · exact shorter

def TokenizeGNUCommandLine (Src : List Char) (MarkEOLs : Bool) : Argv :=
  let result := gnuLoop MarkEOLs [] Src []
  finish MarkEOLs result.1 result.2

/-! ## `TokenizeWindowsCommandLine` -/

/-- Consume a run of backslashes, whose first is in front of `Src`, and the double quote
after it if that is escaped: the token, and the characters that are left.  There is no
result if `BackslashCount`, an `int`, overflows. -/
def parseBackslash (Src Token : List Char) : Option (List Char × List Char) :=
  let BackslashCount := 1 + (Src.takeWhile (· = '\\')).length
  let rest := Src.dropWhile (· = '\\')
  if BackslashCount < 2 ^ 31 then
    if rest.head? = some '"' then
      let Token := Token ++ List.replicate (BackslashCount / 2) '\\'
      if BackslashCount % 2 = 0 then some (Token, rest)
      else some (Token ++ ['"'], rest.drop 1)
    else some (Token ++ List.replicate BackslashCount '\\', rest)
  else none

theorem length_parseBackslash {Src Token : List Char} {result : List Char × List Char}
    (parsed : parseBackslash Src Token = some result) : result.2.length <= Src.length := by
  have shorter := (List.dropWhile_suffix (l := Src) fun C => decide (C = '\\')).length_le
  simp only [parseBackslash] at parsed
  split at parsed
  · split at parsed
    · split at parsed
      · rw [<- Option.some.inj parsed]
        exact shorter
      · rw [<- Option.some.inj parsed, List.length_drop]
        omega
    · rw [<- Option.some.inj parsed]
      exact shorter
  · cases parsed

/-- The states of the tokenizer: between tokens, in a token, and between double quotes. -/
inductive State
  | INIT
  | UNQUOTED
  | QUOTED

/-- The loop over the characters: the token at its end, and the arguments. -/
def windowsLoop (MarkEOLs : Bool) :
    State -> List Char -> List Char -> Argv -> Option (List Char × Argv)
  | _, Token, [], NewArgv => some (Token, NewArgv)
  | .INIT, Token, C :: Src, NewArgv =>
    if isWhitespace C then windowsLoop MarkEOLs .INIT Token Src (markEOL MarkEOLs C NewArgv)
    else if C = '"' then windowsLoop MarkEOLs .QUOTED Token Src NewArgv
    else if C = '\\' then
      match _parsed : parseBackslash Src Token with
      | some (Token, Src) => windowsLoop MarkEOLs .UNQUOTED Token Src NewArgv
      | none => none
    else windowsLoop MarkEOLs .UNQUOTED (Token ++ [C]) Src NewArgv
  | .UNQUOTED, Token, C :: Src, NewArgv =>
    if isWhitespace C then
      windowsLoop MarkEOLs .INIT [] Src (markEOL MarkEOLs C (NewArgv ++ [SaveString Token]))
    else if C = '"' then windowsLoop MarkEOLs .QUOTED Token Src NewArgv
    else if C = '\\' then
      match _parsed : parseBackslash Src Token with
      | some (Token, Src) => windowsLoop MarkEOLs .UNQUOTED Token Src NewArgv
      | none => none
    else windowsLoop MarkEOLs .UNQUOTED (Token ++ [C]) Src NewArgv
  | .QUOTED, Token, C :: Src, NewArgv =>
    if C = '"' then windowsLoop MarkEOLs .UNQUOTED Token Src NewArgv
    else if C = '\\' then
      match _parsed : parseBackslash Src Token with
      | some (Token, Src) => windowsLoop MarkEOLs .QUOTED Token Src NewArgv
      | none => none
    else windowsLoop MarkEOLs .QUOTED (Token ++ [C]) Src NewArgv
termination_by _ _ Src => Src.length
decreasing_by
  all_goals first
    | exact Nat.lt_succ_self _
    | exact Nat.lt_succ_of_le (length_parseBackslash _parsed)

def TokenizeWindowsCommandLine (Src : List Char) (MarkEOLs : Bool) : Option Argv :=
  (windowsLoop MarkEOLs .INIT [] Src []).map fun result => finish MarkEOLs result.1 result.2

end CommandLine
end LlvmProject
