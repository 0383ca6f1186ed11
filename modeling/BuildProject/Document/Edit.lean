import BuildProject.Document.Query

/-!
# Editing documents

An edit is an action on a document: it answers or fails, and either way the document it leaves is
there to look at. Every edit starts by resolving the reference it is given, so it fails on foreign
and on removed elements before it touches anything. A change that is made counts one revision; the
edits at the end of this file are made of several changes and count each of them.
-/

namespace BuildProject

open Markup

/-- An action on a document. What it changed before it failed stays changed. -/
abbrev Edit := ExceptT DocumentError (StateM Document)

namespace Edit

/-- The element that a reference refers to. -/
def resolve (r : ElementRef) : Edit Element := do
  match (← get).resolve r with
  | .ok e => return e
  | .error fault => throw fault

/-- Replaces the tree and counts a revision. -/
def change (f : Tree → Tree) : Edit Unit :=
  modify fun d => { d with tree := f d.tree, revision := d.revision + 1 }

/-! ## Single changes -/

/-- Sets an attribute: in its place if the element has it, after the others if not. -/
def setAttribute (r : ElementRef) (name value : String) : Edit Unit := do
  let e ← resolve r
  change (·.setAttribute e.id name value)

/-- Removes an attribute and answers its value. Nothing changes if the element does not have it. -/
def removeAttribute (r : ElementRef) (name : String) : Edit (Option String) := do
  let e ← resolve r
  match e.attribute? name with
  | none => return none
  | some value =>
    change (·.eraseAttribute e.id name)
    return some value

/-- Makes a text the only content of an element. -/
def setText (r : ElementRef) (text : String) : Edit Unit := do
  let e ← resolve r
  change (·.setText e.id text)

/-- Adds an empty element as the last child of another. -/
def appendElement (parent : ElementRef) (name : String) : Edit ElementRef := do
  let e ← resolve parent
  let d ← get
  change (·.appendElement e.id name)
  return ⟨d.id, d.tree.next⟩

/-- Adds an empty element right before or right after another, which must not be the root. -/
def insertElement (anchor : ElementRef) (name : String) (after : Bool) : Edit ElementRef := do
  let e ← resolve anchor
  if e.id = rootId then throw .invalidAnchor
  let d ← get
  change (·.insertElement e.id name after)
  return ⟨d.id, d.tree.next⟩

/-- Removes an element, which must not be the root, with everything below it. -/
def remove (r : ElementRef) : Edit Unit := do
  let e ← resolve r
  if e.id = rootId then throw .invalidAnchor
  change (·.remove e.id)

/-! ## Groups and imports -/

/-- Adds an empty property group beside an element. -/
def createPropertyGroup (anchor : ElementRef) (after : Bool) : Edit ElementRef :=
  insertElement anchor propertyGroupElement after

/-- Adds an empty item group beside an element. -/
def createItemGroup (anchor : ElementRef) (after : Bool) : Edit ElementRef :=
  insertElement anchor itemGroupElement after

/-- The reference to the root. -/
def rootRef : Edit ElementRef := do
  let d ← get
  return d.ref d.root

/-- Adds an empty property group at the end of the project. -/
def addPropertyGroup : Edit ElementRef := do
  appendElement (← rootRef) propertyGroupElement

/-- Adds an empty item group at the end of the project. -/
def addItemGroup : Edit ElementRef := do
  appendElement (← rootRef) itemGroupElement

/-- Adds an import at the end of the project. -/
def addImport (project : String) : Edit ElementRef := do
  let added ← appendElement (← rootRef) importElement
  setAttribute added projectAttribute project
  return added

/-! ## Conditions, properties, items -/

/-- Sets the condition of an element, or removes it. -/
def setCondition (r : ElementRef) : Option ConditionSet → Edit Unit
  | some conditions => setAttribute r conditionAttribute conditions.text
  | none => do
    let _ ← removeAttribute r conditionAttribute

/-- Fails unless the element has the given name. -/
def expectKind (r : ElementRef) (expected : String) : Edit Unit := do
  let e ← resolve r
  if e.name ≠ expected then throw (.wrongKind expected e.name)

/-- The first child with the given name, added at the end if there is none. -/
def childNamed (r : ElementRef) (name : String) : Edit ElementRef := do
  let e ← resolve r
  match e.child? name with
  | some child => return (← get).ref child
  | none => appendElement r name

/-- Sets a property of a group: the first of that name, or a new one. -/
def setProperty (group : ElementRef) (name value : String) : Edit ElementRef := do
  expectKind group propertyGroupElement
  let child ← childNamed group name
  setText child value
  return child

/-- Adds an item at the end of an item group. -/
def addItem (group : ElementRef) (kind includeText : String) : Edit ElementRef := do
  expectKind group itemGroupElement
  let item ← appendElement group kind
  setAttribute item includeAttribute includeText
  return item

/-- Sets what an item refers to. -/
def setItemInclude (item : ElementRef) (includeText : String) : Edit Unit :=
  setAttribute item includeAttribute includeText

/-- Sets metadata of an item in the form of a child element. -/
def setMetadata (item : ElementRef) (name value : String) : Edit ElementRef := do
  let child ← childNamed item name
  setText child value
  return child

end Edit

end BuildProject
