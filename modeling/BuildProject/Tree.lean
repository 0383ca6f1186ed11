import BuildProject.Tree.Forest

/-!
# Trees

A tree is one element, the root, with everything below it, and the first identity it has not
handed out yet. The root has identity zero. A node that leaves the tree is gone: its identity is
never used again, so an identity that was handed out finds its element or nothing.
-/

namespace BuildProject

open Markup

/-- The root element and its content. -/
structure Tree where
  tag : Tag
  content : Forest
  /-- The identity that the next new node gets. -/
  next : NodeId
deriving DecidableEq, Repr

/-- The identity of the root. -/
def rootId : NodeId := 0

namespace Tree

/-- A root without content. -/
def ofTag (tag : Tag) : Tree :=
  ⟨tag, .nil, rootId + 1⟩

/-! ## Walking -/

/-- The root as an element. -/
def root (t : Tree) : Element :=
  ⟨rootId, t.tag, t.content⟩

/-- The elements below the root, in document order. -/
def elements (t : Tree) : List Element :=
  t.content.elements

/-- The root and the elements below it, in document order, each with the number of elements around
it. -/
def outline (t : Tree) : List (Nat × Element) :=
  (0, t.root) :: t.content.outline 1

/-- The element with the given identity, the root included. -/
def find? (t : Tree) (id : NodeId) : Option Element :=
  (t.root :: t.elements).find? (·.id == id)

/-- The parent of the node with the given identity. -/
def parent? (t : Tree) (id : NodeId) : Option Element :=
  if id = rootId then none else t.content.parent? t.root id

/-- The place of an element: the path of child positions that leads to it from the root. -/
def place? (t : Tree) (id : NodeId) : Option (List Nat) :=
  if id = rootId then some [] else t.content.place? 0 id

/-! ## Changing -/

/-- Changes the tag and the content of an element. -/
def modify (t : Tree) (id : NodeId) (onTag : Tag → Tag) (onContent : Forest → Forest) : Tree :=
  if id = rootId then { t with tag := onTag t.tag, content := onContent t.content }
  else { t with content := t.content.modify id onTag onContent }

/-- Sets an attribute of an element. -/
def setAttribute (t : Tree) (id : NodeId) (name value : String) : Tree :=
  t.modify id (·.set name value) (fun content => content)

/-- Removes an attribute of an element. -/
def eraseAttribute (t : Tree) (id : NodeId) (name : String) : Tree :=
  t.modify id (·.erase name) (fun content => content)

/-- Makes a text the only content of an element; an empty text leaves it without content. -/
def setText (t : Tree) (id : NodeId) (text : String) : Tree :=
  if text.isEmpty then t.modify id (fun tag => tag) (fun _ => .nil)
  else
    { t.modify id (fun tag => tag) (fun _ => .ofLeaf t.next (.text text)) with
      next := t.next + 1 }

/-- A new element with the next identity, without attributes or content. -/
def newElement (t : Tree) (name : String) : Element :=
  ⟨t.next, ⟨name, []⟩, .nil⟩

/-- Adds a new element behind the content of an element. -/
def appendElement (t : Tree) (parent : NodeId) (name : String) : Tree :=
  let new := t.newElement name
  { t.modify parent (fun tag => tag) (· ++ .ofElement new) with next := t.next + 1 }

/-- Puts a new element right before or right after an element below the root. -/
def insertElement (t : Tree) (anchor : NodeId) (name : String) (after : Bool) : Tree :=
  let new := t.newElement name
  let around := fun old =>
    if after then .ofElement old ++ .ofElement new else .ofElement new ++ .ofElement old
  { t with content := t.content.replaceAt anchor around, next := t.next + 1 }

/-- Removes an element below the root, with everything below it. -/
def remove (t : Tree) (id : NodeId) : Tree :=
  { t with content := t.content.replaceAt id fun _ => .nil }

end Tree

/-! ## Elements -/

namespace Element

/-- The name of the element. -/
def name (e : Element) : String :=
  e.tag.name

/-- The value of an attribute. -/
def attribute? (e : Element) (name : String) : Option String :=
  e.tag.attribute? name

/-- The text directly inside the element. -/
def text (e : Element) : String :=
  e.content.text

/-- The elements directly inside the element. -/
def children (e : Element) : List Element :=
  e.content.children

/-- The first element directly inside that has the given name. -/
def child? (e : Element) (name : String) : Option Element :=
  e.children.find? (·.name == name)

/-- The element that a path of child positions leads to. -/
def descend? : List Nat → Element → Option Element
  | [], e => some e
  | position :: path, e => e.children[position]?.bind (descend? path)

end Element

/-! ## Places -/

/-- A place as text: `/` for the root, `/0/2` for the third child of the first. -/
def renderPlace : List Nat → String
  | [] => "/"
  | path => String.join (path.map fun position => s!"/{position}")

/-- Reads a place. -/
def readPlace (text : String) : Option (List Nat) :=
  ((text.toList.splitOn '/').filter (!·.isEmpty)).mapM fun digits =>
    (String.ofList digits).toNat?

end BuildProject
