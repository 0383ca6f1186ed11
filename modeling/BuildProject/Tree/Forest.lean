import BuildProject.Markup.Attribute

/-!
# Forests of nodes

The content of an element is a forest: its child nodes in document order. `Forest` is written as
first child and next sibling, so that one induction goes through a whole document. Every node has
an identity; identities are handed out by the tree that owns the forest (`Tree.lean`) and never
twice, and operations find the node they work on by its identity.

Two operations change a forest at an element: `modify` changes the element itself, its tag or its
content, and `replaceAt` puts a forest in its place. Everything an edit does to the structure is
one of them.
-/

namespace BuildProject

open Markup

/-- The identity of a node within its document. -/
abbrev NodeId := Nat

/-- A node without children. -/
inductive Leaf where
  | text (content : String)
  | comment (content : String)
  | cdata (content : String)
deriving DecidableEq, Repr

/-- What a leaf adds to the text of the element around it. -/
def Leaf.text? : Leaf → Option String
  | .text content => some content
  | .cdata content => some content
  | .comment _ => none

/-- Nodes that stand side by side, each with what is below it. -/
inductive Forest where
  | nil
  | element (id : NodeId) (tag : Tag) (content rest : Forest)
  | leaf (id : NodeId) (leaf : Leaf) (rest : Forest)
deriving DecidableEq, Repr

/-- An element taken out of its forest, with everything below it. -/
structure Element where
  id : NodeId
  tag : Tag
  content : Forest
deriving DecidableEq, Repr

namespace Forest

/-! ## Joining -/

/-- The nodes of one forest followed by those of another. -/
def append : Forest → Forest → Forest
  | nil, g => g
  | element id tag content rest, g => element id tag content (append rest g)
  | leaf id l rest, g => leaf id l (append rest g)

instance : Append Forest := ⟨append⟩

@[simp] theorem nil_append (f : Forest) : nil ++ f = f := rfl

@[simp] theorem element_append (id : NodeId) (tag : Tag) (content rest f : Forest) :
    element id tag content rest ++ f = element id tag content (rest ++ f) := rfl

@[simp] theorem leaf_append (id : NodeId) (l : Leaf) (rest f : Forest) :
    leaf id l rest ++ f = leaf id l (rest ++ f) := rfl

@[simp] theorem append_nil (f : Forest) : f ++ nil = f := by
  induction f with
  | nil => rfl
  | element id tag content rest _ ih => rw [element_append, ih]
  | leaf id l rest ih => rw [leaf_append, ih]

theorem append_assoc (f g h : Forest) : f ++ g ++ h = f ++ (g ++ h) := by
  induction f with
  | nil => rfl
  | element id tag content rest _ ih => rw [element_append, element_append, element_append, ih]
  | leaf id l rest ih => rw [leaf_append, leaf_append, leaf_append, ih]

/-- The forest that holds one element and nothing else. -/
def ofElement (e : Element) : Forest :=
  element e.id e.tag e.content nil

/-- The forest that holds one leaf and nothing else. -/
def ofLeaf (id : NodeId) (l : Leaf) : Forest :=
  leaf id l nil

/-! ## Walking -/

/-- Whether there are no nodes at all. -/
def isEmpty : Forest → Bool
  | nil => true
  | _ => false

/-- The elements in document order, each before what is below it. -/
def elements : Forest → List Element
  | nil => []
  | element id tag content rest => ⟨id, tag, content⟩ :: (elements content ++ elements rest)
  | leaf _ _ rest => elements rest

/-- The elements in document order, each with the number of elements around it; the elements at the
top have `depth` of them. -/
def outline (depth : Nat) : Forest → List (Nat × Element)
  | nil => []
  | element id tag content rest =>
    (depth, ⟨id, tag, content⟩) :: (outline (depth + 1) content ++ outline depth rest)
  | leaf _ _ rest => outline depth rest

/-- The identities of all nodes in document order. -/
def nodeIds : Forest → List NodeId
  | nil => []
  | element id _ content rest => id :: (nodeIds content ++ nodeIds rest)
  | leaf id _ rest => id :: nodeIds rest

/-- The elements that stand side by side at the top. -/
def children : Forest → List Element
  | nil => []
  | element id tag content rest => ⟨id, tag, content⟩ :: children rest
  | leaf _ _ rest => children rest

/-- The leaves at the top. -/
def leaves : Forest → List Leaf
  | nil => []
  | element _ _ _ rest => leaves rest
  | leaf _ l rest => l :: leaves rest

/-! ### Walking through a joined forest -/

@[simp] theorem elements_append (f g : Forest) : (f ++ g).elements = f.elements ++ g.elements := by
  induction f with
  | nil => rfl
  | element id tag content rest _ ih => simp [elements, ih]
  | leaf id l rest ih => simp [elements, ih]

@[simp] theorem nodeIds_append (f g : Forest) : (f ++ g).nodeIds = f.nodeIds ++ g.nodeIds := by
  induction f with
  | nil => rfl
  | element id tag content rest _ ih => simp [nodeIds, ih]
  | leaf id l rest ih => simp [nodeIds, ih]

@[simp] theorem children_append (f g : Forest) : (f ++ g).children = f.children ++ g.children := by
  induction f with
  | nil => rfl
  | element id tag content rest _ ih => simp [children, ih]
  | leaf id l rest ih => simp [children, ih]

@[simp] theorem leaves_append (f g : Forest) : (f ++ g).leaves = f.leaves ++ g.leaves := by
  induction f with
  | nil => rfl
  | element id tag content rest _ ih => simp [leaves, ih]
  | leaf id l rest ih => simp [leaves, ih]

/-! ### Looking -/

/-- The text and character data at the top, joined. -/
def text (f : Forest) : String :=
  String.join (f.leaves.filterMap Leaf.text?)

/-- The parent of the node with the given identity, where `above` is the parent of the nodes at
the top. -/
def parent? (above : Element) (target : NodeId) : Forest → Option Element
  | nil => none
  | element id tag content rest =>
    if id = target then some above
    else (parent? ⟨id, tag, content⟩ target content).or (parent? above target rest)
  | leaf id _ rest => if id = target then some above else parent? above target rest

/-- The place of the element with the given identity: the position among its siblings, elements
only, of every element on the way down to it. The first element at the top has position `index`. -/
def place? (index : Nat) (target : NodeId) : Forest → Option (List Nat)
  | nil => none
  | element id _ content rest =>
    if id = target then some [index]
    else ((place? 0 target content).map (index :: ·)).or (place? (index + 1) target rest)
  | leaf _ _ rest => place? index target rest

/-! ## Changing -/

/-- Changes the tag and the content of the element with the given identity. -/
def modify (target : NodeId) (onTag : Tag → Tag) (onContent : Forest → Forest) : Forest → Forest
  | nil => nil
  | element id tag content rest =>
    if id = target then element id (onTag tag) (onContent content) rest
    else
      element id tag (modify target onTag onContent content)
        (modify target onTag onContent rest)
  | leaf id l rest => leaf id l (modify target onTag onContent rest)

/-- Puts a forest in the place of the element with the given identity. -/
def replaceAt (target : NodeId) (replacement : Element → Forest) : Forest → Forest
  | nil => nil
  | element id tag content rest =>
    if id = target then replacement ⟨id, tag, content⟩ ++ rest
    else
      element id tag (replaceAt target replacement content) (replaceAt target replacement rest)
  | leaf id l rest => leaf id l (replaceAt target replacement rest)

end Forest

end BuildProject
