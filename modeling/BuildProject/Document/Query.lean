import BuildProject.Document
import BuildProject.Condition.Set

/-!
# Groups, properties, items and imports

What the elements of a project mean is decided by their names and places: a `PropertyGroup`
below the root, at any depth, is a property group and its child elements are properties; an
`ItemGroup` holds items in the same way; an `Import` pulls in another project file. The lists here
go through the document from top to bottom, group by group.

Groups may carry a condition. `conditionalGroups` reads the conditions and keeps an unreadable one
as an error in its place.
-/

namespace BuildProject

open Text

/-! ## Names -/

/-- The name of a property group. -/
def propertyGroupElement : String := "PropertyGroup"

/-- The name of an item group. -/
def itemGroupElement : String := "ItemGroup"

/-- The name of an import. -/
def importElement : String := "Import"

/-- The attribute that holds a condition. -/
def conditionAttribute : String := "Condition"

/-- The attribute that labels a group. -/
def labelAttribute : String := "Label"

/-- The attribute that names the file or assembly of an item. -/
def includeAttribute : String := "Include"

/-- The attribute that names the project file of an import. -/
def projectAttribute : String := "Project"

/-- The variable that names the build configuration. -/
def configurationVariable : String := "Configuration"

/-! ## Elements by their meaning -/

namespace Element

/-- The condition of a group, property, item or import, as written. -/
def condition? (e : Element) : Option String :=
  e.attribute? conditionAttribute

/-- The label of a group. -/
def label? (e : Element) : Option String :=
  e.attribute? labelAttribute

/-- The file or assembly that an item refers to. -/
def include? (e : Element) : Option String :=
  e.attribute? includeAttribute

/-- The project file that an import pulls in. -/
def project? (e : Element) : Option String :=
  e.attribute? projectAttribute

/-- The metadata of an item: the text of a child element or, failing that, an attribute. -/
def metadata? (e : Element) (name : String) : Option String :=
  ((e.child? name).map Element.text).or (e.attribute? name)

end Element

namespace Document

/-- The elements below the root that have the given name. -/
def elementsNamed (d : Document) (name : String) : List Element :=
  d.elements.filter (·.name == name)

/-- The property groups, at any depth. -/
def propertyGroups (d : Document) : List Element :=
  d.elementsNamed propertyGroupElement

/-- The properties of all property groups. -/
def properties (d : Document) : List Element :=
  d.propertyGroups.flatMap Element.children

/-- The item groups, at any depth. -/
def itemGroups (d : Document) : List Element :=
  d.elementsNamed itemGroupElement

/-- The items of all item groups. -/
def items (d : Document) : List Element :=
  d.itemGroups.flatMap Element.children

/-- The imports, at any depth. -/
def imports (d : Document) : List Element :=
  d.elementsNamed importElement

/-- The group around a property or an item: its parent, if that has the name of a group. -/
def groupOf? (d : Document) (groupName : String) (e : Element) : Option Element :=
  (d.parent? e).filter (·.name == groupName)

/-! ### Finding -/

/-- The property groups that satisfy a predicate. -/
def findPropertyGroups (d : Document) (p : Element → Bool) : List Element :=
  d.propertyGroups.filter p

/-- The first property group that satisfies a predicate. -/
def findPropertyGroup? (d : Document) (p : Element → Bool) : Option Element :=
  (d.findPropertyGroups p).head?

/-- The properties that satisfy a predicate. -/
def findProperties (d : Document) (p : Element → Bool) : List Element :=
  d.properties.filter p

/-- The first property that satisfies a predicate. -/
def findProperty? (d : Document) (p : Element → Bool) : Option Element :=
  (d.findProperties p).head?

/-- The item groups that satisfy a predicate. -/
def findItemGroups (d : Document) (p : Element → Bool) : List Element :=
  d.itemGroups.filter p

/-- The first item group that satisfies a predicate. -/
def findItemGroup? (d : Document) (p : Element → Bool) : Option Element :=
  (d.findItemGroups p).head?

/-- The items that satisfy a predicate. -/
def findItems (d : Document) (p : Element → Bool) : List Element :=
  d.items.filter p

/-- The first item that satisfies a predicate. -/
def findItem? (d : Document) (p : Element → Bool) : Option Element :=
  (d.findItems p).head?

/-- The imports that satisfy a predicate. -/
def findImports (d : Document) (p : Element → Bool) : List Element :=
  d.imports.filter p

/-- The first import that satisfies a predicate. -/
def findImport? (d : Document) (p : Element → Bool) : Option Element :=
  (d.findImports p).head?

end Document

/-! ## Conditions of groups -/

/-- The condition of an element, unless it is missing or blank: such a condition always holds. -/
def Element.guard? (e : Element) : Option String :=
  e.condition?.filter (!isAllBlank ·)

namespace Document

/-- The property groups with a condition, and what their conditions say. Groups whose condition
does not satisfy `keep` are left out; an unreadable condition stays as an error. -/
def conditionalGroups (d : Document) (keep : ConditionSet → Bool) :
    List (Except ConditionError (ConditionSet × Element)) :=
  d.propertyGroups.filterMap fun group =>
    group.guard?.bind fun text =>
      match ConditionSet.parse text with
      | .ok conditions => if keep conditions then some (.ok (conditions, group)) else none
      | .error fault => some (.error fault)

/-- The property groups whose condition mentions the configuration, and the configuration they
ask for. Unreadable conditions stay as errors. -/
def configurationGroups (d : Document) (keep : String → Bool) :
    List (Except ConditionError (String × Element)) :=
  (d.conditionalGroups fun conditions => conditions.contains configurationVariable).filterMap
    fun
      | .ok (conditions, group) =>
        (conditions.get? configurationVariable).bind fun configuration =>
          if keep configuration then some (.ok (configuration, group)) else none
      | .error fault => some (.error fault)

/-- The first group with exactly the given conditions, as long as no unreadable condition comes
before it. -/
def firstGuardedBy (conditions : ConditionSet) :
    List (Except ConditionError (ConditionSet × Element)) →
      Except ConditionError (Option Element)
  | [] => .ok none
  | .error fault :: _ => .error fault
  | .ok (candidate, group) :: others =>
    if candidate = conditions then .ok (some group) else firstGuardedBy conditions others

/-- The first property group guarded by exactly the given conditions, in the given order. -/
def findConditionalGroup? (d : Document) (conditions : ConditionSet) :
    Except ConditionError (Option Element) :=
  firstGuardedBy conditions (d.conditionalGroups fun _ => true)

end Document

end BuildProject
