import BuildProject.Text
import BuildProject.Condition

/-!
# The text form of conditions

```text
'$(Configuration)|$(Platform)' == 'Debug|AnyCPU'
```

The left side lists references to variables, the right side as many raw values, both cut at
bars. Nothing is escaped, so a name has to be an identifier and a value may hold neither a quote
nor a bar; `Condition.fault?` says which of the two rules a condition breaks.

`parseConditions` reads in three steps, and each has an error of its own: the quoted shape
(`quotedSides?`), the names from left to right (`readName`), the two counts.
-/

namespace BuildProject

open Text

/-! ## Names and values -/

/-- The characters an identifier may start with. -/
def isIdentifierStart (c : Char) : Bool :=
  c.isAlpha || c == '_'

/-- The characters an identifier may go on with. -/
def isIdentifierRest (c : Char) : Bool :=
  c.isAlphanum || c == '_' || c == '-'

/-- A variable name is a letter or underscore, then letters, digits, underscores and hyphens,
all of them ASCII. -/
def isIdentifier : List Char → Bool
  | [] => false
  | c :: cs => isIdentifierStart c && cs.all isIdentifierRest

/-- The characters that delimit values in the text form. -/
def isValueDelimiter (c : Char) : Bool :=
  c == '\'' || c == '|'

/-- What keeps a condition from being written: its name first, then its value. -/
def Condition.fault? (c : Condition) : Option ConditionError :=
  if !isIdentifier c.name.toList then some (.invalidName c.name)
  else if c.value.toList.any isValueDelimiter then some (.invalidValue c.value)
  else none

/-! ## Writing -/

/-- The reference `$(name)` to a variable. -/
def reference (name : String) : List Char :=
  '$' :: '(' :: name.toList ++ [')']

/-- A list between single quotes. -/
def inQuotes (cs : List Char) : List Char :=
  '\'' :: cs ++ ['\'']

/-- The references to the variables, with bars between them. -/
def joinNames (conditions : List Condition) : List Char :=
  ['|'].intercalate (conditions.map fun c => reference c.name)

/-- The values, with bars between them. -/
def joinValues (conditions : List Condition) : List Char :=
  ['|'].intercalate (conditions.map fun c => c.value.toList)

/-- The text form of conditions, with one blank at either end. Nothing is checked. -/
def serializeConditions (conditions : List Condition) : String :=
  String.ofList <|
    ' ' :: inQuotes (joinNames conditions) ++ [' ', '=', '=', ' ']
      ++ inQuotes (joinValues conditions) ++ [' ']

/-! ## Reading -/

/-- A quoted run at the front of a text: what is between the quotes, and what follows. -/
def quoted? : List Char → Option (List Char × List Char)
  | '\'' :: cs =>
    match cs.dropWhile (· != '\'') with
    | [] => none
    | _ :: rest => some (cs.takeWhile (· != '\''), rest)
  | _ => none

/-- The two sides of an equality of quoted runs. Blanks may stand around the operator only. -/
def quotedSides? (cs : List Char) : Option (List Char × List Char) :=
  match quoted? cs with
  | none => none
  | some (left, rest) =>
    match rest.dropWhile isBlank with
    | '=' :: '=' :: rest =>
      match quoted? (rest.dropWhile isBlank) with
      | some (right, []) => some (left, right)
      | _ => none
    | _ => none

/-- The identifier inside a reference. -/
def referencedName? : List Char → Option (List Char)
  | '$' :: '(' :: cs =>
    if cs.getLast? = some ')' && isIdentifier cs.dropLast then some cs.dropLast else none
  | _ => none

/-- One entry of the left side. -/
def readName (entry : List Char) : Except ConditionError String :=
  match referencedName? entry with
  | some name => .ok (String.ofList name)
  | none => .error (.invalidName (String.ofList entry))

/-- Reads the text form of conditions. Blanks around the whole text are ignored, and an empty
right side is one empty value. -/
def parseConditions (text : String) : Except ConditionError (List Condition) :=
  match quotedSides? (trim text.toList) with
  | none => .error (.invalidText text)
  | some (left, right) => do
    let names ← (left.splitOn '|').mapM readName
    let values := (right.splitOn '|').map String.ofList
    if names.length = values.length then
      return List.zipWith Condition.mk names values
    else
      throw (.countMismatch names.length values.length)

end BuildProject
