import BuildProject.Document.Arena
import BuildProject.Document.Edit

/-!
# Editing documents in an arena

The edits of a document, made on an arena. Every edit checks the reference it is given, and then
looks up what it needs once more: the element whose attributes it changes, or the parent of the
element that it puts another beside. Each of these has a fault of its own, and a node that was made
before the fault stays in the table.
-/

namespace BuildProject

open Markup

/-- An action on a document in an arena. What it changed before it failed stays changed; it may also
have no result. -/
abbrev ArenaEdit := ExceptT DocumentError (StateT ArenaDocument Option)

namespace ArenaEdit

/-- The node that a reference refers to, if it is an element and attached. -/
def check (r : ElementRef) : ArenaEdit NodeId := do
  let d ← get
  if r.document ≠ d.id then throw .foreignNode
  let attached ← d.arena.isAttached r.node
  if !attached || (d.arena.tag? r.node).isNone then throw .detached
  return r.node

/-- Changes the arena. -/
def change (f : Arena → Option Arena) : ArenaEdit Unit := do
  let d ← get
  let arena ← f d.arena
  set { d with arena }

/-- Counts a revision. -/
def touch : ArenaEdit Unit :=
  modify fun d => { d with revision := d.revision + 1 }

/-- A reference to a node of the document. -/
def ref (id : NodeId) : ArenaEdit ElementRef := do
  return ⟨(← get).id, id⟩

/-- Adds a node that is not attached anywhere yet. -/
def create (name : String) : ArenaEdit NodeId := do
  let d ← get
  set { d with arena := d.arena.create (.element ⟨name, []⟩) }
  return d.arena.next

/-! ## Single changes -/

/-- Sets an attribute: in its place if the element has it, after the others if not. -/
def setAttribute (r : ElementRef) (name value : String) : ArenaEdit Unit := do
  let id ← check r
  match (← get).arena.tag? id with
  | none => throw .detached
  | some tag =>
    change (·.setTag id (tag.set name value))
    touch

/-- Removes an attribute and answers its value. Nothing changes if the element does not have it. -/
def removeAttribute (r : ElementRef) (name : String) : ArenaEdit (Option String) := do
  let id ← check r
  match (← get).arena.tag? id with
  | none => throw .detached
  | some tag =>
    match tag.attribute? name with
    | none => return none
    | some value =>
      change (·.setTag id (tag.erase name))
      touch
      return some value

/-- Makes a text the only content of an element. -/
def setText (r : ElementRef) (text : String) : ArenaEdit Unit := do
  let id ← check r
  change (·.setText id text)
  touch

/-- Adds an empty element as the last child of another. -/
def appendElement (parent : ElementRef) (name : String) : ArenaEdit ElementRef := do
  let parent ← check parent
  let new ← create name
  change (·.appendChild parent new)
  touch
  ref new

/-- Adds an empty element right before or right after another, which must not be the root. -/
def insertElement (anchor : ElementRef) (name : String) (after : Bool) : ArenaEdit ElementRef := do
  let anchor ← check anchor
  if anchor = rootId then throw .invalidAnchor
  let new ← create name
  let d ← get
  let (inserted, arena) ← d.arena.insertSibling anchor new after
  set { d with arena }
  if !inserted then throw .invalidAnchor
  touch
  ref new

/-- Removes an element, which must not be the root, with everything below it. -/
def remove (r : ElementRef) : ArenaEdit Unit := do
  let id ← check r
  if id = rootId then throw .invalidAnchor
  change (·.detach id)
  touch

/-! ## Groups and imports -/

/-- Adds an empty group at the end of the project. -/
def addGroup (name : String) : ArenaEdit ElementRef := do
  appendElement (← ref rootId) name

/-- Adds an import at the end of the project. -/
def addImport (project : String) : ArenaEdit ElementRef := do
  let added ← appendElement (← ref rootId) importElement
  setAttribute added projectAttribute project
  return added

/-! ## Conditions, properties, items -/

/-- Sets the condition of an element, or removes it. -/
def setCondition (r : ElementRef) : Option ConditionSet → ArenaEdit Unit
  | some conditions => setAttribute r conditionAttribute conditions.text
  | none => do
    let _ ← removeAttribute r conditionAttribute

/-- Fails unless the element has the given name. -/
def expectKind (r : ElementRef) (expected : String) : ArenaEdit Unit := do
  let id ← check r
  let found := ((← get).arena.tag? id).elim "" (·.name)
  if found ≠ expected then throw (.wrongKind expected found)

/-- The first child with the given name, added at the end if there is none. -/
def childNamed (r : ElementRef) (name : String) : ArenaEdit ElementRef := do
  let id ← check r
  let arena := (← get).arena
  let node ← arena.node? id
  match ← arena.firstNamed name node.children with
  | some child => ref child
  | none => appendElement r name

/-- Sets a property of a group: the first of that name, or a new one. -/
def setProperty (group : ElementRef) (name value : String) : ArenaEdit ElementRef := do
  expectKind group propertyGroupElement
  let child ← childNamed group name
  setText child value
  return child

/-- Adds an item at the end of an item group. -/
def addItem (group : ElementRef) (kind includeText : String) : ArenaEdit ElementRef := do
  expectKind group itemGroupElement
  let item ← appendElement group kind
  setAttribute item includeAttribute includeText
  return item

/-- Sets metadata of an item in the form of a child element. -/
def setMetadata (item : ElementRef) (name value : String) : ArenaEdit ElementRef := do
  let child ← childNamed item name
  setText child value
  return child

end ArenaEdit

end BuildProject
