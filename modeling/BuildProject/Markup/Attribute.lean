import BuildProject.Markup.Entity

/-!
# Attributes

A tag has a name and attributes in order. `scanAttributes` reads the attributes behind the name of
a tag, with their values as they are written; it stops at the first fault and keeps what it read
before, since a value is unescaped before the next attribute is looked at and the faults of
values and of attributes have to come out in their order.

The scan ends because every attribute takes at least its key from the text.
-/

namespace BuildProject.Markup

open Text

/-- A named value of an element. -/
structure Attribute where
  name : String
  value : String
deriving DecidableEq, Repr

/-- The name of an element and its attributes in order. -/
structure Tag where
  name : String
  attributes : List Attribute
deriving DecidableEq, Repr

namespace Tag

/-- The value of the attribute with the given name. -/
def attribute? (tag : Tag) (name : String) : Option String :=
  (tag.attributes.find? (·.name == name)).map Attribute.value

/-- The attributes with one set: in its place if it is there, after the others if not. -/
def setIn (name value : String) : List Attribute → List Attribute
  | [] => [⟨name, value⟩]
  | a :: as => if a.name = name then ⟨a.name, value⟩ :: as else a :: setIn name value as

/-- The tag with an attribute set. -/
def set (tag : Tag) (name value : String) : Tag :=
  { tag with attributes := setIn name value tag.attributes }

/-- What has been set is found, and nothing else has changed. -/
theorem attribute?_set (tag : Tag) (name value other : String) :
    (tag.set name value).attribute? other =
      if other = name then some value else tag.attribute? other := by
  obtain ⟨tagName, attributes⟩ := tag
  simp only [set, attribute?]
  induction attributes with
  | nil =>
    by_cases h : name = other
    · simp [setIn, h]
    · simp [setIn, h, Ne.symm h]
  | cons a as ih =>
    by_cases ha : a.name = name
    · by_cases h : name = other
      · simp [setIn, ha, h]
      · simp [setIn, ha, h, Ne.symm h]
    · by_cases h : a.name = other
      · have hne : other ≠ name := fun heq => ha (h.trans heq)
        simp [setIn, h, hne]
      · simpa [setIn, ha, h] using ih

/-- The tag without the attribute of the given name. -/
def erase (tag : Tag) (name : String) : Tag :=
  { tag with attributes := tag.attributes.eraseP (·.name == name) }

end Tag

/-! ## Scanning -/

/-- White space between the parts of markup. -/
def isSpace (c : Char) : Bool :=
  c == ' ' || c == '\t' || c == '\r' || c == '\n'

/-- The characters of a key behind its first. -/
def isKeyRest (c : Char) : Bool :=
  c != '=' && !isSpace c

/-- An attribute as it is written: its key and what stands between the quotes. -/
structure RawAttribute where
  key : List Char
  value : List Char
deriving DecidableEq, Repr

/-- Attributes up to the first fault. -/
structure RawAttributes where
  items : List RawAttribute
  fault? : Option AttributeFault
deriving DecidableEq, Repr

/-- Reads a quoted value that starts at offset `position` or behind white space there. The answer
is the value, the offset behind its closing quote, and the rest. -/
def readValue (position : Nat) (cs : List Char) :
    Except AttributeFault (List Char × Nat × List Char) :=
  let opening := position + byteLength (cs.takeWhile isSpace)
  match cs.dropWhile isSpace with
  | [] => .error (.missingValue opening)
  | quote :: quoted =>
    if quote = '"' ∨ quote = '\'' then
      let value := quoted.takeWhile (· != quote)
      let closing := opening + 1 + byteLength value
      match quoted.dropWhile (· != quote) with
      | [] => .error (.unclosedQuote closing quote)
      | _ :: rest => .ok (value, closing + 1, rest)
    else .error (.unquoted opening)

/-- What follows a value is shorter than what it was read from. -/
theorem length_of_readValue {position : Nat} {cs value rest : List Char} {stop : Nat}
    (h : readValue position cs = .ok (value, stop, rest)) : rest.length < cs.length := by
  have hspace := length_dropWhile_le isSpace cs
  simp only [readValue] at h
  split at h
  · simp at h
  · rename_i quote quoted hquoted
    split at h
    · have hvalue := length_dropWhile_le (· != quote) quoted
      split at h
      · simp at h
      · rename_i hrest
        simp only [Except.ok.injEq, Prod.mk.injEq] at h
        rw [hrest, h.2.2] at hvalue
        rw [hquoted] at hspace
        simp only [List.length_cons] at hvalue hspace
        omega
    · simp at h

/-- Reads the attribute whose key starts with `c` at offset `start`; `seen` lists the earlier
keys with their offsets, and a key among them is a fault. The answer is the attribute, the offset
behind it, and the rest. -/
def readAttribute (seen : List (List Char × Nat)) (start : Nat) (c : Char) (body : List Char) :
    Except AttributeFault (RawAttribute × Nat × List Char) :=
  let key := c :: body.takeWhile isKeyRest
  let afterKey := body.dropWhile isKeyRest
  let equals := start + byteLength key + byteLength (afterKey.takeWhile isSpace)
  match afterKey.dropWhile isSpace with
  | '=' :: afterEquals =>
    match seen.lookup key with
    | some previous => .error (.duplicated start previous)
    | none => (readValue (equals + 1) afterEquals).map fun (value, rest) => (⟨key, value⟩, rest)
  | _ => .error (.missingEquals equals)

/-- What follows an attribute is no longer than what followed the first character of its key. -/
theorem length_of_readAttribute {seen : List (List Char × Nat)} {start stop : Nat} {c : Char}
    {body rest : List Char} {raw : RawAttribute}
    (h : readAttribute seen start c body = .ok (raw, stop, rest)) :
    rest.length ≤ body.length := by
  have hkey := length_dropWhile_le isKeyRest body
  have hspace := length_dropWhile_le isSpace (body.dropWhile isKeyRest)
  simp only [readAttribute] at h
  split at h
  · rename_i afterEquals hequals
    split at h
    · simp at h
    · match hvalue : readValue (start + byteLength (c :: body.takeWhile isKeyRest) +
          byteLength ((body.dropWhile isKeyRest).takeWhile isSpace) + 1) afterEquals with
      | .error fault => simp [hvalue, Except.map] at h
      | .ok (value, stop', rest') =>
        simp only [hvalue, Except.map, Except.ok.injEq, Prod.mk.injEq] at h
        have hlength := length_of_readValue hvalue
        rw [hequals] at hspace
        simp only [List.length_cons] at hspace
        rw [← h.2.2]
        omega
  · simp at h

/-- Reads attributes from the rest of a tag, where `position` is the offset of the rest. With
`distinct`, a key that was seen before is a fault. -/
def scanAttributes (distinct : Bool) (seen : List (List Char × Nat)) (position : Nat)
    (cs : List Char) : RawAttributes :=
  match hspace : cs.dropWhile isSpace with
  | [] => ⟨[], none⟩
  | c :: body =>
    let start := position + byteLength (cs.takeWhile isSpace)
    match hread : readAttribute seen start c body with
    | .error fault => ⟨[], some fault⟩
    | .ok (raw, stop, rest) =>
      have : rest.length < cs.length := by
        have hle := length_dropWhile_le isSpace cs
        have hlength := length_of_readAttribute hread
        rw [hspace] at hle
        simp only [List.length_cons] at hle
        omega
      let seen := if distinct then (raw.key, start) :: seen else seen
      let others := scanAttributes distinct seen stop rest
      ⟨raw :: others.items, others.fault?⟩
termination_by cs.length

/-! ## Tags -/

/-- The attribute with its value unescaped. -/
def RawAttribute.decode (raw : RawAttribute) : Except Fault Attribute :=
  match unescape raw.value with
  | .ok value => .ok ⟨String.ofList raw.key, String.ofList value⟩
  | .error fault => .error (.entity fault)

/-- The attributes with their values unescaped, each before the next is looked at. -/
def RawAttributes.decode (raw : RawAttributes) : Except Fault (List Attribute) := do
  let attributes ← raw.items.mapM RawAttribute.decode
  match raw.fault? with
  | some fault => throw (.attribute fault)
  | none => return attributes

/-- Reads a tag: its name runs to the first white space, its attributes have distinct keys. -/
def readTag (content : List Char) : Except Fault Tag := do
  let name := content.takeWhile (!isSpace ·)
  let rest := content.dropWhile (!isSpace ·)
  let attributes ← (scanAttributes true [] (byteLength name) rest).decode
  return ⟨String.ofList name, attributes⟩

end BuildProject.Markup
