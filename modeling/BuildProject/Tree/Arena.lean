import BuildProject.Tree

/-!
# Trees in an arena

An arena keeps the nodes of a tree in a table. The identity of a node is its position, and every
link is stored twice: a node knows its parent, and an element lists its children. A node that leaves
the tree stays in the table, and so does what is below it; only the links between it and its parent
are cut. So positions are never used again.

Nothing in the table keeps links from pointing nowhere, or a way up from going in a circle. Where an
operation reads a position outside the table, or takes more steps than a tree of that many nodes
allows, it has no result: it is `none`.
-/

namespace BuildProject

open Markup

/-- What a node is, apart from its place. -/
inductive NodeKind where
  | element (tag : Tag)
  | leaf (leaf : Leaf)
deriving DecidableEq, Repr

/-- A node in a table: what it is, the node above it, and the nodes directly below it. -/
structure ArenaNode where
  kind : NodeKind
  parent? : Option NodeId
  children : List NodeId
deriving DecidableEq, Repr

/-- A table of nodes. The first one is the root. -/
structure Arena where
  nodes : Array ArenaNode
deriving DecidableEq, Repr

/-- The tag of an element. -/
def NodeKind.tag? : NodeKind → Option Tag
  | .element tag => some tag
  | .leaf _ => none

namespace Arena

/-- A root without content. -/
def ofTag (tag : Tag) : Arena :=
  ⟨#[⟨.element tag, none, []⟩]⟩

/-! ## Looking -/

/-- The node at a position of the table. -/
def node? (a : Arena) (id : NodeId) : Option ArenaNode :=
  a.nodes[id]?

/-- The tag of the node, if it is an element. -/
def tag? (a : Arena) (id : NodeId) : Option Tag :=
  (a.node? id).bind (·.kind.tag?)

/-- The nodes that a node lists as its children. -/
def children (a : Arena) (id : NodeId) : List NodeId :=
  (a.node? id).elim [] (·.children)

/-- The parent that a node has stored. -/
def parent? (a : Arena) (id : NodeId) : Option NodeId :=
  (a.node? id).bind (·.parent?)

/-- Goes up from node to parent until there is none, and says whether that was at the root. A way up
that is longer than `steps` nodes has no result. -/
def climb (a : Arena) : Nat → NodeId → Option Bool
  | 0, _ => none
  | steps + 1, id => do
    if id = rootId then return true
    let node ← a.node? id
    match node.parent? with
    | some parent => climb a steps parent
    | none => return false

/-- Whether the root is reached from a node. A way up that is longer than the table goes in a
circle, and never ends. -/
def isAttached (a : Arena) (id : NodeId) : Option Bool :=
  if id < a.nodes.size then a.climb a.nodes.size id else some false

/-- The first element on a stack of nodes, and the stack with its children in its place. Leaves
above it are dropped. -/
def next? (a : Arena) : List NodeId → Option (Option (NodeId × List NodeId))
  | [] => some none
  | id :: stack => do
    let node ← a.node? id
    match node.kind with
    | .element _ => return some (id, node.children ++ stack)
    | .leaf _ => next? a stack

/-- Takes one element after the other from a stack of nodes, until there is none. A stack that gives
`steps` elements or more has no result. -/
def walk (a : Arena) : Nat → List NodeId → Option (List NodeId)
  | 0, _ => none
  | steps + 1, stack => do
    match ← a.next? stack with
    | none => return []
    | some (id, stack) =>
      let others ← walk a steps stack
      return id :: others

/-- The elements below a node. A walk that gives as many elements as the table has nodes comes to
some node twice, and may never end. -/
def descendants (a : Arena) (id : NodeId) : Option (List NodeId) := do
  let node ← a.node? id
  a.walk a.nodes.size node.children

/-- The first element of a name among some nodes. -/
def firstNamed (a : Arena) (name : String) : List NodeId → Option (Option NodeId)
  | [] => some none
  | id :: ids => do
    let node ← a.node? id
    match node.kind with
    | .element tag => if tag.name = name then return some id else firstNamed a name ids
    | .leaf _ => firstNamed a name ids

/-- The node that a path of child positions leads to, counting elements only. -/
def descend? (a : Arena) : List Nat → NodeId → Option NodeId
  | [], id => some id
  | position :: path, id =>
    ((a.children id).filter fun child => (a.tag? child).isSome)[position]?.bind (descend? a path)

/-! ## Changing -/

/-- Changes the node at a position. -/
def update (a : Arena) (id : NodeId) (f : ArenaNode → ArenaNode) : Option Arena :=
  if id < a.nodes.size then some ⟨a.nodes.modify id f⟩ else none

/-- The position that the next new node gets. -/
def next (a : Arena) : NodeId :=
  a.nodes.size

/-- Adds a node that is not attached anywhere yet. -/
def create (a : Arena) (kind : NodeKind) : Arena :=
  ⟨a.nodes.push ⟨kind, none, []⟩⟩

/-- Makes an element of a node. -/
def setTag (a : Arena) (id : NodeId) (tag : Tag) : Option Arena :=
  a.update id fun node => { node with kind := .element tag }

/-- Cuts the links between a node and its parent. -/
def detach (a : Arena) (id : NodeId) : Option Arena := do
  let node ← a.node? id
  match node.parent? with
  | none => return a
  | some parent =>
    let a ← a.update id fun node => { node with parent? := none }
    a.update parent fun node => { node with children := node.children.filter (· ≠ id) }

/-- Makes a node the last child of another. -/
def appendChild (a : Arena) (parent child : NodeId) : Option Arena := do
  let a ← a.detach child
  let a ← a.update child fun node => { node with parent? := some parent }
  a.update parent fun node => { node with children := node.children ++ [child] }

/-- The nodes with another one right before or right after an anchor, or at the end if the anchor is
not among them. -/
def insertBeside (siblings : List NodeId) (anchor child : NodeId) (after : Bool) : List NodeId :=
  let position := ((siblings.idxOf? anchor).map fun i => if after then i + 1 else i).getD
    siblings.length
  siblings.insertIdx position child

/-- Makes a node a sibling of another, right before or right after it; answers whether there is a
parent to do so. -/
def insertSibling (a : Arena) (anchor child : NodeId) (after : Bool) : Option (Bool × Arena) := do
  let node ← a.node? anchor
  match node.parent? with
  | none => return (false, a)
  | some parent =>
    let a ← a.detach child
    let a ← a.update parent fun node =>
      { node with children := insertBeside node.children anchor child after }
    let a ← a.update child fun node => { node with parent? := some parent }
    return (true, a)

/-- Takes away all children of a node. -/
def clear (a : Arena) (id : NodeId) : Option Arena := do
  let node ← a.node? id
  let a ← a.update id fun node => { node with children := [] }
  node.children.foldlM (fun a child => a.update child fun node => { node with parent? := none }) a

/-- Makes a text the only child of a node; an empty text leaves it without children. -/
def setText (a : Arena) (id : NodeId) (text : String) : Option Arena := do
  let a ← a.clear id
  if text.isEmpty then return a
  (a.create (.leaf (.text text))).appendChild id a.next

end Arena

end BuildProject
