import BuildProject.Json.Scanner

/-!
# Numbers

No text of the library holds a number that is wanted, but a number where something else is wanted
still has to be read: one that breaks the grammar, and one that is too large for a double, is a
fault of the text and not of its meaning (`faultOfNumber`).

Whether a number is too large is decided on its first digits, as many as fit in 64 bits
(`absorb`), and the power of ten that is left: both are rounded to the 53 bits of a double before
they are multiplied. Numbers that are skipped only have to follow the grammar (`skipNumber`).
-/

namespace BuildProject.Json

/-! ## Size -/

/-- The nearest number with 53 significant bits; a tie goes to the even one. -/
def roundTo53Bits (n : Nat) : Nat :=
  let excess := n.log2 + 1 - 53
  let unit := Nat.pow 2 excess
  let quotient := n / unit
  let remainder := n % unit
  let up := 2 * remainder > unit || (2 * remainder == unit && quotient % 2 == 1)
  (if up then quotient + 1 else quotient) * unit

/-- Half a step above the largest double: from here on a number rounds to infinity. -/
def doubleLimit : Nat :=
  Nat.pow 2 1024 - Nat.pow 2 970

/-- Whether a significand times a power of ten rounds to more than the largest double. -/
def exceedsDouble (significand : Nat) (exponent : Int) : Bool :=
  if significand = 0 ∨ exponent < 0 then false
  else if exponent > 308 then true
  else
    roundTo53Bits significand * roundTo53Bits (Nat.pow 10 exponent.toNat) ≥ doubleLimit

/-- Adds digits to a significand as long as it fits in 64 bits; answers the significand and how
many digits it took. -/
def absorb (significand : Nat) : List Char → Nat × Nat
  | [] => (significand, 0)
  | c :: cs =>
    let next := significand * 10 + (c.toNat - '0'.toNat)
    if next < Nat.pow 2 64 then
      let (total, count) := absorb next cs
      (total, count + 1)
    else (significand, 0)

/-- The number that decimal digits write. -/
def decimalValue (digits : List Char) : Nat :=
  digits.foldl (fun n c => n * 10 + (c.toNat - '0'.toNat)) 0

/-! ## Numbers that are not wanted -/

/-- The fault of a number whose digits are known: the whole ones, those behind the point, and the
exponent with its sign. -/
def faultOfSize (whole fraction : List Char) (negative : Bool) (exponent : List Char) : Fault :=
  let (significand, wholeCount) := absorb 0 whole
  let (significand, fractionCount) := absorb significand fraction
  let shift : Int := (whole.length - wholeCount : Nat) - (fractionCount : Int)
  let power : Int := decimalValue exponent
  let total := if negative then shift - power else shift + power
  if exceedsDouble significand total then .malformed else .mismatched

/-- The fault of a number from its exponent on. -/
def faultOfExponent (whole fraction cs : List Char) : Fault :=
  match cs with
  | 'e' :: cs | 'E' :: cs =>
    let negative := cs.head? = some '-'
    let cs := if negative ∨ cs.head? = some '+' then cs.drop 1 else cs
    match cs with
    | [] => .ended
    | c :: _ =>
      if c.isDigit then faultOfSize whole fraction negative (cs.takeWhile Char.isDigit)
      else .malformed
  | _ => faultOfSize whole fraction false []

/-- The fault of a number from its point on. -/
def faultOfFraction (whole cs : List Char) : Fault :=
  match cs with
  | '.' :: cs =>
    match cs with
    | [] => .ended
    | c :: _ =>
      if c.isDigit then
        faultOfExponent whole (cs.takeWhile Char.isDigit) (cs.dropWhile Char.isDigit)
      else .malformed
  | _ => faultOfExponent whole [] cs

/-- The fault of a number without a sign that stands where something else is wanted. -/
def faultOfDigits (cs : List Char) : Fault :=
  match cs with
  | [] => .ended
  | '0' :: cs =>
    if (cs.head?.any Char.isDigit) then .malformed else faultOfFraction ['0'] cs
  | c :: _ =>
    if c.isDigit then faultOfFraction (cs.takeWhile Char.isDigit) (cs.dropWhile Char.isDigit)
    else .malformed

/-- The fault of a number that stands where something else is wanted. -/
def faultOfNumber : List Char → Fault
  | '-' :: cs => faultOfDigits cs
  | cs => faultOfDigits cs

/-! ## Numbers that are skipped -/

/-- Skips digits, at least one. -/
def skipDigits (cs : List Char) : Except Fault (Rest cs) :=
  if cs.head?.any Char.isDigit then
    .ok ⟨cs.dropWhile Char.isDigit, Text.length_dropWhile_le _ cs⟩
  else .error .malformed

/-- Skips an exponent, if there is one. -/
def skipExponent (cs : List Char) : Except Fault (Rest cs) :=
  match cs with
  | [] => .ok (Rest.all [])
  | c :: cs =>
    if c = 'e' ∨ c = 'E' then
      let signed := cs.head?.any fun c => c = '-' ∨ c = '+'
      (skipDigits (if signed then cs.drop 1 else cs)).map fun ⟨rest, h⟩ =>
        ⟨rest, by
          have : (if signed then cs.drop 1 else cs).length ≤ cs.length := by
            split <;> simp
          simp only [List.length_cons]
          omega⟩
    else .ok (Rest.all (c :: cs))

/-- Skips a point and the digits behind it, if there is one, and an exponent. -/
def skipFraction (cs : List Char) : Except Fault (Rest cs) :=
  match cs with
  | '.' :: cs => do
    let ⟨digits, hdigits⟩ ← skipDigits cs
    let ⟨rest, hrest⟩ ← skipExponent digits
    return ⟨rest, by simp only [List.length_cons]; omega⟩
  | cs => skipExponent cs

/-- Skips a number without a sign. An early end counts as a breach of the grammar here. -/
def skipNumber (cs : List Char) : Except Fault (Rest cs) :=
  match cs with
  | '0' :: cs =>
    if cs.head?.any Char.isDigit then .error .malformed
    else (skipFraction cs).map (Rest.behind '0')
  | cs => do
    let ⟨digits, hdigits⟩ ← skipDigits cs
    let ⟨rest, hrest⟩ ← skipFraction digits
    return ⟨rest, Nat.le_trans hrest hdigits⟩

end BuildProject.Json
