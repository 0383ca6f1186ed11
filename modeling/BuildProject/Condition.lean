/-!
# Conditions

A condition compares one build variable with a value, as `$(Configuration) == Debug` does. The
text form that carries a list of them is in `Condition/Grammar.lean`, the sets without repeated
names in `Condition/Set.lean`.
-/

namespace BuildProject

/-- A variable name and the value that the variable must have. -/
structure Condition where
  /-- The variable, without the `$(` and `)` around it. -/
  name : String
  /-- The value the variable must equal. -/
  value : String
deriving DecidableEq, Repr

/-- Why conditions cannot be read, written or looked up. -/
inductive ConditionError where
  /-- The text is not an equality of two quoted lists. -/
  | invalidText (text : String)
  /-- A name is not an identifier, or is not written as a reference. -/
  | invalidName (name : String)
  /-- The two sides of the equality have different lengths. -/
  | countMismatch (names values : Nat)
  /-- A value holds a quote or a bar, which the text form uses for itself. -/
  | invalidValue (value : String)
  /-- A set has at least one condition. -/
  | emptySet
  /-- A set names each variable once. -/
  | duplicateName (name : String)
  /-- The set says nothing about this variable. -/
  | notFound (name : String)
deriving DecidableEq, Repr

/-- The text shown for an error. -/
def ConditionError.message : ConditionError → String
  | .invalidText text => s!"invalid condition text: {text}"
  | .invalidName name => s!"invalid configuration name: {name}"
  | .countMismatch names values =>
    s!"count mismatch: {names} name(s) but {values} value(s)"
  | .invalidValue value => s!"invalid condition value: {value}"
  | .emptySet => "empty condition set"
  | .duplicateName name => s!"duplicate condition name: {name}"
  | .notFound name => s!"condition not found: {name}"

/-- A condition as it is shown to a reader. -/
def Condition.render (c : Condition) : String :=
  s!"$({c.name}) == {c.value}"

end BuildProject
