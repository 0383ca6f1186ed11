import BuildProject.Tree.Arena
import BuildProject.Document.Reader

/-!
# Documents in an arena

A document whose tree is kept in an arena is read in the way a document is, node by node: an element
that starts is a new last child of the innermost open element, and is linked from both sides at
once. When everything has been read, blanks that are indentation are detached, one after the other.

Like the operations of an arena, reading has no result where it would look outside the table.
-/

namespace BuildProject

open Markup Text

/-- A project document whose tree is in an arena. -/
structure ArenaDocument where
  arena : Arena
  declaration? : Option Declaration
  /-- The comments before the root element. -/
  prolog : List String
  id : DocumentId
  /-- The file that the document was loaded from or will be saved to. -/
  path? : Option String
  /-- How many changes the document has seen. -/
  revision : Nat
deriving DecidableEq, Repr

/-! ## Indentation -/

namespace NodeKind

/-- Whether the node is an element or a comment. -/
def isStructure : NodeKind → Bool
  | .element _ => true
  | .leaf (.comment _) => true
  | .leaf _ => false

/-- Whether the node is a text of blanks. -/
def isBlank : NodeKind → Bool
  | .leaf (.text content) => isAllBlank content
  | _ => false

/-- Whether the node is a text that is more than blanks. -/
def isWords : NodeKind → Bool
  | .leaf (.text content) => !isAllBlank content
  | _ => false

end NodeKind

namespace Arena

/-- The nodes among some that are texts of blanks. -/
def blanks (a : Arena) : List NodeId → Option (List NodeId)
  | [] => some []
  | id :: ids => do
    let node ← a.node? id
    let others ← blanks a ids
    return if node.kind.isBlank then id :: others else others

/-- Detaches the blanks directly inside an element, if they are indentation. -/
def settleAt (a : Arena) (id : NodeId) : Option Arena := do
  let node ← a.node? id
  let hasStructure ← node.children.anyM fun child => return (← a.node? child).kind.isStructure
  let hasWords ← node.children.anyM fun child => return (← a.node? child).kind.isWords
  if !hasStructure || hasWords then return a
  let blanks ← a.blanks node.children
  blanks.foldlM detach a

/-- Drops indentation from the root and every element below it. -/
def settle (a : Arena) : Option Arena := do
  let below ← a.descendants rootId
  (rootId :: below).foldlM settleAt a

end Arena

/-! ## Reading -/

/-- What has been read of a document into an arena. -/
structure ArenaBuilder where
  /-- The arena, once the root is opened. -/
  arena? : Option Arena
  /-- The elements that are open, innermost first. -/
  stack : List NodeId
  declaration? : Option Declaration
  prolog : List String
deriving DecidableEq, Repr

namespace ArenaBuilder

/-- Nothing has been read. -/
def start : ArenaBuilder :=
  ⟨none, [], none, []⟩

/-- Adds a node to the innermost open element; outside the root it is dropped. -/
def addLeaf (b : ArenaBuilder) (l : Leaf) : Option ArenaBuilder :=
  match b.arena?, b.stack with
  | some a, parent :: _ => do
    let a' ← (a.create (.leaf l)).appendChild parent a.next
    return { b with arena? := some a' }
  | _, _ => some b

/-- Adds an element to the innermost open one. The first element of a document has to be a project,
and there is only one outermost element. -/
def addElement (b : ArenaBuilder) (tag : Tag) :
    ExceptT DocumentError Option (NodeId × ArenaBuilder) :=
  match b.arena? with
  | none =>
    if tag.name ≠ projectElement then throw (.invalidRoot tag.name)
    else return (rootId, { b with arena? := some (.ofTag tag) })
  | some a =>
    match b.stack with
    | [] => throw (.secondRoot tag.name)
    | parent :: _ => do
      let a' ← (a.create (.element tag)).appendChild parent a.next
      return (a.next, { b with arena? := some a' })

/-- Takes one event in. -/
def step (b : ArenaBuilder) : Event → ExceptT DocumentError Option ArenaBuilder
  | .declaration declaration => return { b with declaration? := some declaration }
  | .instruction _ => return b
  | .doctype _ => return b
  | .comment content =>
    if b.stack.isEmpty then
      if b.arena?.isNone then return { b with prolog := b.prolog ++ [content] } else return b
    else b.addLeaf (.comment content)
  | .cdata content => b.addLeaf (.cdata content)
  | .text content => b.addLeaf (.text content)
  | .startTag tag => do
    let (id, b) ← b.addElement tag
    return { b with stack := id :: b.stack }
  | .emptyTag tag => do
    let (_, b) ← b.addElement tag
    return b
  | .endTag _ => return { b with stack := b.stack.tail }

/-- Takes events in, one after the other. -/
def run (b : ArenaBuilder) : List Event → ExceptT DocumentError Option ArenaBuilder
  | [] => return b
  | event :: events => b.step event >>= fun b => run b events

end ArenaBuilder

/-! ## Whole documents -/

namespace ArenaDocument

/-- An empty project. -/
def empty (id : DocumentId) : ArenaDocument where
  arena := .ofTag Document.emptyContent.tree.tag
  declaration? := Document.emptyContent.declaration?
  prolog := Document.emptyContent.prolog
  id
  path? := none
  revision := 0

/-- The document that the events of a text make up. -/
def ofEvents (id : DocumentId) (stream : EventStream) :
    ExceptT DocumentError Option ArenaDocument := do
  let built ← ArenaBuilder.start.run stream.events
  match stream.fault? with
  | some fault => throw (.markup fault)
  | none =>
    if !built.stack.isEmpty then throw .unclosedElement
    match built.arena? with
    | none => throw .missingRoot
    | some a =>
      let arena ← a.settle
      return {
        arena
        declaration? := built.declaration?
        prolog := built.prolog
        id
        path? := none
        revision := 0 }

/-- Reads a document that belongs to no file. -/
def parse (id : DocumentId) (text : String) : ExceptT DocumentError Option ArenaDocument :=
  ofEvents id (scanEvents (dropMark (dropMark text.toList)))

/-- A copy with an identity of its own, and with the whole table. -/
def copy (d : ArenaDocument) (id : DocumentId) : ArenaDocument :=
  { d with id, revision := 0 }

/-- The elements below the root, in document order. -/
def elements (d : ArenaDocument) : Option (List NodeId) :=
  d.arena.descendants rootId

end ArenaDocument

end BuildProject
