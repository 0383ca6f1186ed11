import BuildProject.Json.Skip

/-!
# Records

A record is written as an object, or as an array of its fields in their order. A shape says which
fields there are; each holds a text, or a table of texts. Fields that the shape does not know are
skipped in an object and refused in an array; a field that is given twice is a mismatch, found as
soon as its key has been read. Which fields may be missing is for the caller to say, who sees the
fields that are there.
-/

namespace BuildProject.Json

/-- What a field holds. -/
inductive FieldKind where
  | text
  | table
deriving DecidableEq, Repr

/-- The fields of a record in their order. -/
abbrev Shape := List (String × FieldKind)

/-- The value of a field. -/
inductive FieldValue where
  | text (value : String)
  | table (entries : List (String × String))
deriving DecidableEq, Repr

/-- The fields that a record was given. -/
abbrev Record := List (String × FieldValue)

/-! ## Values -/

/-- The fault of a value that starts with `c` where something of another type is wanted: a value
that is no array and no object is read to its end first. -/
def faultOfOther (c : Char) (cs : List Char) : Fault :=
  let afterWord (scanned : Except Fault (Rest cs)) : Fault :=
    match scanned with
    | .ok _ => .mismatched
    | .error fault => fault
  if c = 'n' then afterWord (scanWord cs ['u', 'l', 'l'])
  else if c = 't' then afterWord (scanWord cs ['r', 'u', 'e'])
  else if c = 'f' then afterWord (scanWord cs ['a', 'l', 's', 'e'])
  else if c = '"' then
    match scanString false cs with
    | .ok _ => .mismatched
    | .error fault => fault
  else if c = '-' ∨ c.isDigit then faultOfNumber (c :: cs)
  else if c = '[' ∨ c = '{' then .mismatched
  else .malformed

/-- Reads a text. -/
def readText (cs : List Char) : Except Fault (Consumed String cs) :=
  match nextVisible cs with
  | none => .error .ended
  | some c =>
    if c.value = '"' then
      (scanString false c.rest).map fun s =>
        (s.map String.ofList).widen (Nat.le_of_lt c.shorter)
    else .error (faultOfOther c.value c.rest)

/-- Reads the colon behind a key. -/
def readColon (cs : List Char) : Except Fault (Rest cs) :=
  match nextVisible cs with
  | none => .error .ended
  | some c =>
    if c.value = ':' then .ok ⟨c.rest, Nat.le_of_lt c.shorter⟩ else .error .malformed

/-- Reads a key whose first character has been read. -/
def readKeyAt (first : Consumed Char cs) : Except Fault (Consumed (Option String) cs) :=
  if first.value = '"' then
    (scanString false first.rest).map fun s =>
      (s.map fun key => some (String.ofList key)).widen (Nat.le_of_lt first.shorter)
  else .error .malformed

/-- Reads what comes next in an object, a key or the closing bracket; `first` says that nothing
came before. A comma comes before every key but the first. -/
def readKey (first : Bool) (cs : List Char) : Except Fault (Consumed (Option String) cs) :=
  match nextVisible cs with
  | none => .error .ended
  | some c =>
    if c.value = '}' then .ok (c.map fun _ => none)
    else if first then readKeyAt c
    else if c.value = ',' then
      match nextVisible c.rest with
      | none => .error .ended
      | some q => (readKeyAt q).map (·.widen (Nat.le_of_lt c.shorter))
    else .error .malformed

/-- Reads the entries of a table up to its closing bracket. -/
def readEntries (first : Bool) (cs : List Char) :
    Except Fault (Consumed (List (String × String)) cs) := do
  let key ← readKey first cs
  match key.value with
  | none => return key.map fun _ => []
  | some name =>
    let afterColon ← readColon key.rest
    let text ← readText afterColon.val
    have h : text.rest.length < cs.length :=
      Nat.lt_trans (Nat.lt_of_lt_of_le text.shorter afterColon.property) key.shorter
    let others ← readEntries false text.rest
    return ⟨(name, text.value) :: others.value, others.rest, Nat.lt_trans others.shorter h⟩
termination_by cs.length

/-- Reads a table. -/
def readTable (cs : List Char) : Except Fault (Consumed (List (String × String)) cs) :=
  match nextVisible cs with
  | none => .error .ended
  | some c =>
    if c.value = '{' then (readEntries true c.rest).map (·.widen (Nat.le_of_lt c.shorter))
    else .error (faultOfOther c.value c.rest)

/-- Reads the value of a field. -/
def readField (kind : FieldKind) (cs : List Char) : Except Fault (Consumed FieldValue cs) :=
  match kind with
  | .text => (readText cs).map (·.map .text)
  | .table => (readTable cs).map (·.map .table)

/-! ## Records -/

/-- Reads the fields of an object up to its closing bracket; `given` are the fields that came
before, the last one first. -/
def readMembers (shape : Shape) (given : Record) (first : Bool) (cs : List Char) :
    Except Fault (Consumed Record cs) := do
  let key ← readKey first cs
  match key.value with
  | none => return key.map fun _ => given.reverse
  | some name =>
    match shape.lookup name with
    | none =>
      let afterColon ← readColon key.rest
      let skipped ← skipValue afterColon.val
      have h : skipped.rest.length < cs.length :=
        Nat.lt_trans (Nat.lt_of_lt_of_le skipped.shorter afterColon.property) key.shorter
      (readMembers shape given false skipped.rest).map (·.widen (Nat.le_of_lt h))
    | some kind =>
      if (given.lookup name).isSome then throw .mismatched
      else
        let afterColon ← readColon key.rest
        let value ← readField kind afterColon.val
        have h : value.rest.length < cs.length :=
          Nat.lt_trans (Nat.lt_of_lt_of_le value.shorter afterColon.property) key.shorter
        (readMembers shape ((name, value.value) :: given) false value.rest).map
          (·.widen (Nat.le_of_lt h))
termination_by cs.length

/-- Reads the end of an array whose fields have all been read. -/
def readArrayEnd (cs : List Char) : Except Fault (Rest cs) :=
  match nextVisible cs with
  | none => .error .ended
  | some c =>
    if c.value = ']' then .ok ⟨c.rest, Nat.le_of_lt c.shorter⟩ else .error .malformed

/-- Reads the fields of an array up to its closing bracket. The array may end early. -/
def readElements (first : Bool) (cs : List Char) : Shape → Except Fault (Record × List Char)
  | [] => (readArrayEnd cs).map fun rest => ([], rest.val)
  | (name, kind) :: shape =>
    match nextVisible cs with
    | none => .error .ended
    | some c =>
      let field (cs : List Char) : Except Fault (Record × List Char) := do
        let value ← readField kind cs
        let (others, rest) ← readElements false value.rest shape
        return ((name, value.value) :: others, rest)
      if c.value = ']' then .ok ([], c.rest)
      else if first then field cs
      else if c.value = ',' then
        match nextVisible c.rest with
        | none => .error .ended
        | some next => if next.value = ']' then .error .malformed else field c.rest
      else .error .malformed

/-- Reads a record. -/
def readRecord (shape : Shape) (cs : List Char) : Except Fault (Record × List Char) :=
  match nextVisible cs with
  | none => .error .ended
  | some c =>
    if c.value = '{' then
      (readMembers shape [] true c.rest).map fun fields => (fields.value, fields.rest)
    else if c.value = '[' then readElements true c.rest shape
    else .error (faultOfOther c.value c.rest)

/-- Reads a text that holds one record and nothing else. `build` makes the answer from the fields
that were given; it says no if one is missing. -/
def readWhole (shape : Shape) (build : Record → Option α) (text : String) : Except Fault α := do
  let (fields, rest) ← readRecord shape text.toList
  match build fields with
  | none => throw .mismatched
  | some answer =>
    if (nextVisible rest).isSome then throw .malformed else return answer

/-- The text that a record holds in a field. -/
def Record.text? (fields : Record) (name : String) : Option String :=
  match fields.lookup name with
  | some (.text value) => some value
  | _ => none

/-- The table that a record holds in a field. -/
def Record.table? (fields : Record) (name : String) : Option (List (String × String)) :=
  match fields.lookup name with
  | some (.table entries) => some entries
  | _ => none

end BuildProject.Json
