import BuildProject.Text

/-!
# Scanning JSON

The words, numbers and strings of JSON text, and the skipping of whole values.

A scanner answers what it read together with the rest of the text and the fact that the rest is
shorter (`Consumed`), which is what every loop over scanners ends by. A fault is one of three
kinds: the text breaks the grammar, it ends too early, or it is well formed but says something
else than is wanted. The first fault from the left is the one that counts.

Strings that are wanted are decoded, so the halves of a surrogate pair have to come together;
strings that are skipped may hold any escapes.
-/

namespace BuildProject.Json

open Text

/-- What is wrong with a JSON text. -/
inductive Fault where
  /-- The text breaks the grammar. -/
  | malformed
  /-- The text is well formed and says something else than is wanted. -/
  | mismatched
  /-- The text ends too early. -/
  | ended
deriving DecidableEq, Repr

/-- The name of the kind of fault. -/
def Fault.category : Fault → String
  | .malformed => "syntax"
  | .mismatched => "data"
  | .ended => "eof"

/-- Something read from the front of `cs`, and the shorter rest. -/
structure Consumed (α : Type) (cs : List Char) where
  value : α
  rest : List Char
  shorter : rest.length < cs.length

namespace Consumed

/-- The same with another value. -/
def map (f : α → β) (c : Consumed α cs) : Consumed β cs :=
  ⟨f c.value, c.rest, c.shorter⟩

/-- The same seen from a longer text. -/
def widen (c : Consumed α cs) (h : cs.length ≤ ds.length) : Consumed α ds :=
  ⟨c.value, c.rest, Nat.lt_of_lt_of_le c.shorter h⟩

end Consumed

/-- The rest of a text behind a part of it, which may be empty. -/
abbrev Rest (cs : List Char) := { rest : List Char // rest.length ≤ cs.length }

namespace Rest

/-- The whole text. -/
def all (cs : List Char) : Rest cs :=
  ⟨cs, Nat.le_refl _⟩

/-- The same seen from a text with one more character in front. -/
def behind (c : Char) (r : Rest cs) : Rest (c :: cs) :=
  ⟨r.val, Nat.le_succ_of_le r.property⟩

end Rest

/-! ## White space and words -/

/-- White space between the parts of JSON. -/
def isSpace (c : Char) : Bool :=
  c == ' ' || c == '\n' || c == '\t' || c == '\r'

/-- The next character that is not white space, and what follows it. -/
def nextVisible (cs : List Char) : Option (Consumed Char cs) :=
  match h : cs.dropWhile isSpace with
  | [] => none
  | c :: rest =>
    some ⟨c, rest, by
      have hle := length_dropWhile_le isSpace cs
      rw [h] at hle
      exact hle⟩

/-- Reads the rest of a word. -/
def scanWord (cs : List Char) : List Char → Except Fault (Rest cs)
  | [] => .ok (Rest.all cs)
  | expected :: word =>
    match cs with
    | [] => .error .ended
    | c :: cs =>
      if c = expected then (scanWord cs word).map (Rest.behind c) else .error .malformed

/-! ## Strings -/

/-- The value of a hexadecimal digit. -/
def hexDigit? (c : Char) : Option Nat :=
  if '0' ≤ c ∧ c ≤ '9' then some (c.toNat - '0'.toNat)
  else if 'a' ≤ c ∧ c ≤ 'f' then some (c.toNat - 'a'.toNat + 10)
  else if 'A' ≤ c ∧ c ≤ 'F' then some (c.toNat - 'A'.toNat + 10)
  else none

/-- Reads the four digits of a code unit. Fewer than four bytes are an early end, whatever they
hold. -/
def scanCodeUnit (cs : List Char) : Except Fault (Consumed Nat cs) :=
  if byteLength (cs.take 4) < 4 then .error .ended
  else
    match cs with
    | a :: b :: c :: d :: rest =>
      match hexDigit? a, hexDigit? b, hexDigit? c, hexDigit? d with
      | some a, some b, some c, some d =>
        .ok ⟨((a * 16 + b) * 16 + c) * 16 + d, rest, by simp only [List.length_cons]; omega⟩
      | _, _, _, _ => .error .malformed
    | _ => .error .malformed

/-- Whether a code unit is the first half of a surrogate pair. -/
def isLeading (unit : Nat) : Bool :=
  0xD800 ≤ unit && unit ≤ 0xDBFF

/-- Whether a code unit is the second half of a surrogate pair. -/
def isTrailing (unit : Nat) : Bool :=
  0xDC00 ≤ unit && unit ≤ 0xDFFF

/-- Reads the character that an escape with code units stands for. -/
def scanCode (cs : List Char) : Except Fault (Consumed Char cs) := do
  let first ← scanCodeUnit cs
  if isTrailing first.value then throw .malformed
  else if !isLeading first.value then return first.map Char.ofNat
  else
    match h : first.rest with
    | [] => throw .ended
    | '\\' :: [] => throw .ended
    | '\\' :: 'u' :: rest =>
      let second ← scanCodeUnit rest
      if isTrailing second.value then
        let code := (first.value - 0xD800) * 0x400 + (second.value - 0xDC00) + 0x10000
        return ⟨Char.ofNat code, second.rest, by
          have h₁ := first.shorter
          have h₂ := second.shorter
          rw [h] at h₁
          simp only [List.length_cons] at h₁
          omega⟩
      else throw .malformed
    | _ => throw .malformed

/-- The character that a one-letter escape stands for. -/
def simpleEscape? : Char → Option Char
  | '"' => some '"'
  | '\\' => some '\\'
  | '/' => some '/'
  | 'b' => some '\x08'
  | 'f' => some '\x0c'
  | 'n' => some '\n'
  | 'r' => some '\r'
  | 't' => some '\t'
  | _ => none

/-- Reads what follows a backslash. An escape that is `skipped` need not stand for a character. -/
def scanEscape (skipped : Bool) (cs : List Char) : Except Fault (Consumed Char cs) :=
  match cs with
  | [] => .error .ended
  | 'u' :: cs =>
    if skipped then
      (scanCodeUnit cs).map fun c => (c.map fun _ => '\x00').widen (by simp)
    else (scanCode cs).map fun c => c.widen (by simp)
  | c :: cs =>
    match simpleEscape? c with
    | some decoded => .ok ⟨decoded, cs, by simp⟩
    | none => .error .malformed

/-- Reads the rest of a string, behind the quote that opens it. -/
def scanString (skipped : Bool) (cs : List Char) : Except Fault (Consumed (List Char) cs) :=
  match cs with
  | [] => .error .ended
  | c :: cs =>
    if c = '"' then .ok ⟨[], cs, by simp⟩
    else if c = '\\' then do
      let escaped ← scanEscape skipped cs
      have := escaped.shorter
      let others ← scanString skipped escaped.rest
      return ⟨escaped.value :: others.value, others.rest, by
        have := others.shorter
        simp only [List.length_cons]
        omega⟩
    else if c.toNat < 0x20 then .error .malformed
    else do
      let others ← scanString skipped cs
      return ⟨c :: others.value, others.rest, by
        have := others.shorter
        simp only [List.length_cons]
        omega⟩
termination_by cs.length

end BuildProject.Json
