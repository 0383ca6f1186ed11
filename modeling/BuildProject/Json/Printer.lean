import BuildProject.Text

/-!
# Writing JSON

Strings are written with as few escapes as possible: the quote, the backslash and the control
characters, five of them by a letter and the others by their code. Everything else stands as it
is.
-/

namespace BuildProject.Json

/-- The hexadecimal digit of a value below sixteen. -/
def hexDigit (n : Nat) : Char :=
  if n < 10 then Char.ofNat ('0'.toNat + n) else Char.ofNat ('a'.toNat + (n - 10))

/-- How a character is written inside a string. -/
def escapeChar (c : Char) : List Char :=
  if c = '"' then ['\\', '"']
  else if c = '\\' then ['\\', '\\']
  else if c = '\x08' then ['\\', 'b']
  else if c = '\x0c' then ['\\', 'f']
  else if c = '\n' then ['\\', 'n']
  else if c = '\r' then ['\\', 'r']
  else if c = '\t' then ['\\', 't']
  else if c.toNat < 0x20 then
    ['\\', 'u', '0', '0', hexDigit (c.toNat / 16), hexDigit (c.toNat % 16)]
  else [c]

/-- Writes a string. -/
def printString (s : String) : List Char :=
  '"' :: s.toList.flatMap escapeChar ++ ['"']

/-- Writes a record of texts on one line. -/
def printTexts (fields : List (String × String)) : List Char :=
  '\x7b' :: [','].intercalate (fields.map fun (key, value) =>
    printString key ++ [':'] ++ printString value) ++ ['\x7d']

/-- Writes an object over several lines, with its closing bracket indented by `depth` times two
blanks and its members one step deeper. Values are given as they are written. -/
def printLines (depth : Nat) (members : List (String × List Char)) : List Char :=
  if members.isEmpty then ['\x7b', '\x7d']
  else
    let line (depth : Nat) : List Char := '\n' :: List.replicate (2 * depth) ' '
    '\x7b' :: [','].intercalate (members.map fun (key, value) =>
      line (depth + 1) ++ printString key ++ [':', ' '] ++ value) ++ line depth ++ ['\x7d']

end BuildProject.Json
