import BuildProject.Text
import BuildProject.Markup.Fault

/-!
# References

A reference `&name;` or `&#number;` stands for one character. `unescape` replaces every reference
of a text; `escapeText` and `escapeValue` write the references that keep a text from being read
as markup. Five names are predefined; a number is decimal, or hexadecimal after a small `x`.

`unescape` ends because each reference it replaces leaves a shorter rest.
-/

namespace BuildProject.Markup

open Text

/-! ## Numbers -/

/-- The value of a digit, if it is one in the given base (at most sixteen). -/
def digitValue? (base : Nat) (c : Char) : Option Nat :=
  let value? :=
    if '0' ≤ c ∧ c ≤ '9' then some (c.toNat - '0'.toNat)
    else if 'a' ≤ c ∧ c ≤ 'f' then some (c.toNat - 'a'.toNat + 10)
    else if 'A' ≤ c ∧ c ≤ 'F' then some (c.toNat - 'A'.toNat + 10)
    else none
  value?.filter (· < base)

/-- Reads digits after those that make `code`, as long as the number fits in 32 bits. -/
def readDigits (base code : Nat) : List Char → Except CharRefFault Nat
  | [] => .ok code
  | c :: cs =>
    match digitValue? base c with
    | none => .error .badDigit
    | some digit =>
      if code * base + digit < 2 ^ 32 then readDigits base (code * base + digit) cs
      else .error .tooLarge

/-- Reads a whole number without a sign. -/
def readNumber (base : Nat) : List Char → Except CharRefFault Nat
  | [] => .error .empty
  | c :: cs => if c = '+' ∨ c = '-' then .error .sign else readDigits base 0 (c :: cs)

/-- The character that a number refers to. -/
def charOfCode (code : Nat) : Except CharRefFault Char :=
  if code = 0 then .error .zero
  else if code.isValidChar then .ok (Char.ofNat code)
  else .error (.notScalar code)

/-- The character that the text between `&#` and `;` refers to. -/
def charOfReference (digits : List Char) : Except CharRefFault Char :=
  match digits with
  | 'x' :: hex => readNumber 16 hex >>= charOfCode
  | _ => readNumber 10 digits >>= charOfCode

/-! ## Reading -/

/-- The character that a predefined name stands for. -/
def predefined? (name : List Char) : Option Char :=
  if name = ['l', 't'] then some '<'
  else if name = ['g', 't'] then some '>'
  else if name = ['a', 'm', 'p'] then some '&'
  else if name = ['a', 'p', 'o', 's'] then some '\''
  else if name = ['q', 'u', 'o', 't'] then some '"'
  else none

/-- The character that a reference stands for, where `start` is the offset of its body. -/
def decodeReference (start : Nat) (body : List Char) : Except EntityFault Char :=
  match body with
  | '#' :: digits => (charOfReference digits).mapError .charRef
  | _ =>
    match predefined? body with
    | some c => .ok c
    | none => .error (.unknown start (start + byteLength body) (String.ofList body))

/-- The characters that may stand inside a reference. -/
def isReferenceBody (c : Char) : Bool :=
  c != '&' && c != ';'

/-- Replaces the references in the rest of a text, where `offset` is the length of what came
before and `total` the length of the whole. -/
def unescapeFrom (total offset : Nat) : List Char → Except EntityFault (List Char)
  | [] => .ok []
  | c :: cs =>
    if c = '&' then
      match h : cs.dropWhile isReferenceBody with
      | ';' :: rest => do
        let body := cs.takeWhile isReferenceBody
        let decoded ← decodeReference (offset + 1) body
        let unescaped ← unescapeFrom total (offset + 1 + byteLength body + 1) rest
        return decoded :: unescaped
      | _ => .error (.unterminated offset total)
    else do
      let unescaped ← unescapeFrom total (offset + c.utf8Size) cs
      return c :: unescaped
termination_by cs => cs.length
decreasing_by
  · have hle := length_dropWhile_le isReferenceBody cs
    rw [h] at hle
    simp only [List.length_cons] at hle ⊢
    omega
  · simp

/-- The text with its references replaced by what they stand for. -/
def unescape (cs : List Char) : Except EntityFault (List Char) :=
  unescapeFrom (byteLength cs) 0 cs

/-! ## Writing -/

/-- How a character is written inside a text. -/
def escapeTextChar (c : Char) : List Char :=
  if c = '<' then "&lt;".toList
  else if c = '>' then "&gt;".toList
  else if c = '&' then "&amp;".toList
  else [c]

/-- How a character is written inside a value between double quotes. -/
def escapeValueChar (c : Char) : List Char :=
  if c = '"' then "&quot;".toList else escapeTextChar c

/-- A text with references in place of the characters that markup needs for itself. -/
def escapeText (cs : List Char) : List Char :=
  cs.flatMap escapeTextChar

/-- A value with references in place of the characters that a quoted value cannot hold. Single
quotes stay as they are: conditions are full of them. -/
def escapeValue (cs : List Char) : List Char :=
  cs.flatMap escapeValueChar

end BuildProject.Markup
