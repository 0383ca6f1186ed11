import BuildProject.Json.Number

/-!
# Skipping values

A value that nobody wants is read for its grammar only. `skipFrom` keeps the brackets that are open
on a stack, so values may be nested to any depth, and ends because every step takes at least one
character.
-/

namespace BuildProject.Json

/-- What a bracket opened. -/
inductive Bracket where
  | array
  | object
deriving DecidableEq, Repr

/-- The bracket that closes it. -/
def Bracket.close : Bracket → Char
  | .array => ']'
  | .object => '}'

/-- What may come next inside a value that is skipped. -/
inductive Expectation where
  /-- A value; right behind an opening bracket also the closing one. -/
  | value (orClose : Bool)
  /-- A key; right behind an opening bracket also the closing one. -/
  | key (orClose : Bool)
  /-- A comma or a closing bracket. -/
  | next
deriving DecidableEq, Repr

/-- What is expected behind an opening bracket. -/
def Bracket.first : Bracket → Expectation
  | .array => .value true
  | .object => .key true

/-- What is expected behind a comma. -/
def Bracket.other : Bracket → Expectation
  | .array => .value false
  | .object => .key false

/-- Skips a value that is no array and no object, where `c` is its first character. -/
def skipScalar (c : Char) (cs : List Char) : Except Fault (Rest cs) :=
  if c = 'n' then scanWord cs ['u', 'l', 'l']
  else if c = 't' then scanWord cs ['r', 'u', 'e']
  else if c = 'f' then scanWord cs ['a', 'l', 's', 'e']
  else if c = '"' then (scanString true cs).map fun s => ⟨s.rest, Nat.le_of_lt s.shorter⟩
  else if c = '-' then skipNumber cs
  else if c = '0' then
    if cs.head?.any Char.isDigit then .error .malformed else skipFraction cs
  else if c.isDigit then
    (skipFraction (cs.dropWhile Char.isDigit)).map fun ⟨rest, h⟩ =>
      ⟨rest, Nat.le_trans h (Text.length_dropWhile_le _ cs)⟩
  else .error .malformed

/-- Skips the rest of a key and the colon behind it. -/
def skipKey (cs : List Char) : Except Fault (Rest cs) := do
  let key ← scanString true cs
  match nextVisible key.rest with
  | none => throw .ended
  | some colon =>
    if colon.value = ':' then
      return ⟨colon.rest, Nat.le_of_lt (Nat.lt_trans colon.shorter key.shorter)⟩
    else throw .malformed

/-- Skips up to the end of the outermost value. `stack` holds the brackets that are open,
innermost first. -/
def skipFrom (stack : List Bracket) (expected : Expectation) (cs : List Char) :
    Except Fault (Consumed Unit cs) :=
  match nextVisible cs with
  | none => .error .ended
  | some c =>
    have := c.shorter
    let proceed (stack : List Bracket) (expected : Expectation) (rest : Rest c.rest) :
        Except Fault (Consumed Unit cs) :=
      have := rest.property
      (skipFrom stack expected rest.val).map (·.widen (by omega))
    let leave (stack : List Bracket) (rest : Rest c.rest) : Except Fault (Consumed Unit cs) :=
      match stack with
      | [] => .ok ⟨(), rest.val, Nat.lt_of_le_of_lt rest.property c.shorter⟩
      | _ => proceed stack .next rest
    let here : Rest c.rest := Rest.all c.rest
    match stack, expected with
    | bracket :: below, .next =>
      if c.value = ',' then proceed stack bracket.other here
      else if c.value = bracket.close then leave below here
      else .error .malformed
    | [], .next => .error .malformed
    | stack, .value orClose =>
      if orClose ∧ c.value = ']' then leave stack.tail here
      else if c.value = '[' then proceed (.array :: stack) Bracket.array.first here
      else if c.value = '{' then proceed (.object :: stack) Bracket.object.first here
      else skipScalar c.value c.rest >>= leave stack
    | stack, .key orClose =>
      if orClose ∧ c.value = '}' then leave stack.tail here
      else if c.value = '"' then skipKey c.rest >>= proceed stack (.value false)
      else .error .malformed
termination_by cs.length

/-- Skips a value. -/
def skipValue (cs : List Char) : Except Fault (Consumed Unit cs) :=
  skipFrom [] (.value false) cs

end BuildProject.Json
