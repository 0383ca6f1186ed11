import BuildProject.Text

/-!
# Identifiers of projects

A project carries a globally unique identifier of 128 bits, written as 32 hexadecimal digits in
groups of 8, 4, 4, 4 and 12. Reading accepts the digits without hyphens, with hyphens, with braces
around that, and with `urn:uuid:` before it; the case of letters does not count.
-/

namespace BuildProject

/-- An identifier, by its hexadecimal digits. -/
structure Guid where
  digits : List (Fin 16)
  length_eq : digits.length = 32
deriving DecidableEq

namespace Guid

/-! ## Digits -/

/-- The character for a digit, with small letters. -/
def digitChar (d : Fin 16) : Char :=
  if d.val < 10 then Char.ofNat ('0'.toNat + d.val) else Char.ofNat ('a'.toNat + (d.val - 10))

/-- The digit that a character writes. -/
def digit? (c : Char) : Option (Fin 16) :=
  (List.finRange 16).find? fun d => digitChar d == c.toLower

/-- The identifier that 32 characters write. -/
def ofDigits? (cs : List Char) : Option Guid := do
  let digits ← cs.mapM digit?
  if h : digits.length = 32 then some ⟨digits, h⟩ else none

/-! ## Text -/

/-- The lengths of the groups of digits. -/
def groupLengths : List Nat := [8, 4, 4, 4, 12]

/-- Cuts a list into pieces of the given lengths. -/
def cut (cs : List α) : List Nat → List (List α)
  | [] => []
  | n :: ns => cs.take n :: cut (cs.drop n) ns

/-- The identifier with hyphens and small letters. -/
def hyphenated (g : Guid) : List Char :=
  ['-'].intercalate (cut (g.digits.map digitChar) groupLengths)

/-- The identifier as it is shown. -/
def render (g : Guid) : String :=
  String.ofList g.hyphenated

/-- The identifier as projects store it: with braces and capital letters. -/
def stored (g : Guid) : String :=
  String.ofList ('\x7b' :: g.hyphenated.map Char.toUpper ++ ['\x7d'])

/-- Reads an identifier with hyphens. -/
def ofHyphenated? (cs : List Char) : Option Guid :=
  let groups := cs.splitOn '-'
  if groups.map List.length = groupLengths then ofDigits? groups.flatten else none

/-- What may stand before an identifier to say that it is one. -/
def scheme : List Char := "urn:uuid:".toList

/-- Reads an identifier in any of its forms. -/
def parse? (text : String) : Option Guid :=
  let cs := text.toList
  if cs.length = 32 then ofDigits? cs
  else if cs.head? = some '\x7b' ∧ cs.getLast? = some '\x7d' then
    ofHyphenated? (cs.drop 1).dropLast
  else if (cs.take scheme.length).map Char.toLower = scheme then
    ofHyphenated? (cs.drop scheme.length)
  else ofHyphenated? cs

end Guid

end BuildProject
