import BuildProject.Condition.Set
import BuildProject.Json.Record
import BuildProject.Json.Printer

/-!
# Conditions as JSON

A single condition is a record of its name and its value. A set is one string, its condition text,
because that is the form in which it reads back.
-/

namespace BuildProject

namespace Condition

/-- The fields in the order in which they are written. -/
def shape : Json.Shape :=
  [("name", .text), ("value", .text)]

/-- The condition that a record gives; both fields have to be there. -/
def ofRecord? (fields : Json.Record) : Option Condition := do
  let name ← Json.Record.text? fields "name"
  let value ← Json.Record.text? fields "value"
  return ⟨name, value⟩

/-- Reads a condition from JSON. -/
def parseJson (text : String) : Except Json.Fault Condition :=
  Json.readWhole shape ofRecord? text

/-- Writes a condition as JSON. -/
def renderJson (c : Condition) : String :=
  String.ofList (Json.printTexts [("name", c.name), ("value", c.value)])

end Condition

/-- Writes a set of conditions as JSON. -/
def ConditionSet.renderJson (s : ConditionSet) : String :=
  String.ofList (Json.printString s.text)

end BuildProject
