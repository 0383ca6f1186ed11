import BuildProject.Document

/-!
# Reading documents

`Builder.run` turns events into a tree. Elements that are open lie on a stack, innermost first;
each event works on the top of it. Identities are handed out to the nodes inside the root in the
order in which they start.

Inside an element that holds other elements or comments and no text but blanks, the blanks are
indentation: `Forest.settle` drops them. An element with other text keeps all of its text.

What stands outside the root is dropped, except the comments before it and the last declaration.
-/

namespace BuildProject

open Markup Text

/-! ## Building the tree -/

/-- An element that has been opened, with what it holds so far. -/
structure OpenElement where
  id : NodeId
  tag : Tag
  content : Forest
deriving DecidableEq, Repr

namespace Forest

/-- Builds on a forest by one node at its end. -/
def push (f : Forest) (e : Element) : Forest :=
  f ++ .ofElement e

end Forest

/-- What has been read of a document. -/
structure Builder where
  /-- The elements that are open, innermost first. -/
  stack : List OpenElement
  /-- The root, once it is closed. -/
  root? : Option (Tag × Forest)
  /-- The identity of the next node. -/
  next : NodeId
  declaration? : Option Declaration
  prolog : List String
deriving DecidableEq, Repr

namespace Builder

/-- Nothing has been read. -/
def start : Builder :=
  ⟨[], none, rootId, none, []⟩

/-- Adds a node to the innermost open element; outside the root it is dropped. -/
def addLeaf (b : Builder) (l : Leaf) : Builder :=
  match b.stack with
  | [] => b
  | top :: below =>
    { b with
      stack := { top with content := top.content ++ .ofLeaf b.next l } :: below
      next := b.next + 1 }

/-- Adds a finished element to the element around it; without one it is the root. -/
def addElement (b : Builder) (e : Element) : Builder :=
  match b.stack with
  | [] => { b with root? := some (e.tag, e.content) }
  | top :: below => { b with stack := { top with content := top.content.push e } :: below }

/-- Opens an element. The first one of a document has to be a project, and there is only one
outermost element. -/
def openElement (b : Builder) (tag : Tag) : Except DocumentError Builder :=
  if b.stack.isEmpty ∧ b.root?.isSome then .error (.secondRoot tag.name)
  else if b.stack.isEmpty ∧ tag.name ≠ projectElement then .error (.invalidRoot tag.name)
  else .ok { b with stack := ⟨b.next, tag, .nil⟩ :: b.stack, next := b.next + 1 }

/-- Closes the innermost open element. -/
def closeElement (b : Builder) : Builder :=
  match b.stack with
  | [] => b
  | top :: below => { b with stack := below }.addElement ⟨top.id, top.tag, top.content⟩

/-- Takes one event in. -/
def step (b : Builder) : Event → Except DocumentError Builder
  | .declaration declaration => .ok { b with declaration? := some declaration }
  | .instruction _ => .ok b
  | .doctype _ => .ok b
  | .comment content =>
    if b.stack.isEmpty ∧ b.root?.isNone then .ok { b with prolog := b.prolog ++ [content] }
    else .ok (b.addLeaf (.comment content))
  | .cdata content => .ok (b.addLeaf (.cdata content))
  | .text content => .ok (b.addLeaf (.text content))
  | .startTag tag => b.openElement tag
  | .emptyTag tag => (b.openElement tag).map closeElement
  | .endTag _ => .ok b.closeElement

/-- Takes events in, one after the other. -/
def run (b : Builder) : List Event → Except DocumentError Builder
  | [] => .ok b
  | event :: events => b.step event >>= fun b => run b events

end Builder

/-! ## Indentation -/

namespace Forest

/-- Whether there is an element or a comment at the top. -/
def hasStructure : Forest → Bool
  | nil => false
  | element _ _ _ _ => true
  | leaf _ (.comment _) _ => true
  | leaf _ _ rest => hasStructure rest

/-- Whether there is a text at the top that is more than blanks. Character data does not count. -/
def hasWords : Forest → Bool
  | nil => false
  | element _ _ _ rest => hasWords rest
  | leaf _ (.text content) rest => !isAllBlank content || hasWords rest
  | leaf _ _ rest => hasWords rest

/-- Whether the blanks at the top are indentation. -/
def isIndented (f : Forest) : Bool :=
  f.hasStructure && !f.hasWords

/-- The forest without indentation at any depth, where `indented` says whether the blanks at the
top are indentation. -/
def settle (indented : Bool) : Forest → Forest
  | nil => nil
  | element id tag content rest =>
    element id tag (settle content.isIndented content) (settle indented rest)
  | leaf id (.text content) rest =>
    if indented && isAllBlank content then settle indented rest
    else leaf id (.text content) (settle indented rest)
  | leaf id l rest => leaf id l (settle indented rest)

end Forest

/-! ## Whole documents -/

/-- The document that the events of a text make up. -/
def DocumentContent.ofEvents (stream : EventStream) : Except DocumentError DocumentContent := do
  let built ← Builder.start.run stream.events
  match stream.fault? with
  | some fault => throw (.markup fault)
  | none =>
    if !built.stack.isEmpty then throw .unclosedElement
    match built.root? with
    | none => throw .missingRoot
    | some (tag, content) =>
      return {
        tree := ⟨tag, content.settle content.isIndented, built.next⟩
        declaration? := built.declaration?
        prolog := built.prolog }

/-- The text without a byte order mark at its start. -/
def dropMark : List Char → List Char
  | [] => []
  | c :: cs => if c.toNat = 0xFEFF then cs else c :: cs

/-- Reads a document. The text may start with a byte order mark, and even with two: the second
belongs to the markup. -/
def DocumentContent.parse (text : String) : Except DocumentError DocumentContent :=
  DocumentContent.ofEvents (scanEvents (dropMark (dropMark text.toList)))

/-- Reads a document that belongs to no file. -/
def Document.parse (id : DocumentId) (text : String) : Except DocumentError Document :=
  (DocumentContent.parse text).map (Document.ofContent id)

end BuildProject
