import BuildProject.Tree
import BuildProject.Markup.Event
import BuildProject.Files.Fault

/-!
# Documents

A project document is a tree with a `Project` element at its root, the declaration and the
comments that come before it, and the file it belongs to. Every document has an identity of its
own, and a reference to an element carries the identity of its document, so an element of one
document can never be used to change another.

`Document.resolve` is the only way from a reference to an element. It fails in two ways: the
reference is foreign, or what it refers to has left the tree.
-/

namespace BuildProject

open Markup

/-- The identity of a document. Documents made by parsing, by loading and by copying have
identities of their own. -/
structure DocumentId where
  index : Nat
deriving DecidableEq, Repr

/-- An element of a document, by identity. -/
structure ElementRef where
  document : DocumentId
  node : NodeId
deriving DecidableEq, Repr

/-- Why a document cannot be read, written or edited. -/
inductive DocumentError where
  /-- The file cannot be read or written. -/
  | file (fault : FileFault)
  /-- The text is not markup. -/
  | markup (fault : Fault)
  /-- The text has no element. -/
  | missingRoot
  /-- The first element is not a project. -/
  | invalidRoot (name : String)
  /-- An element follows the root. -/
  | secondRoot (name : String)
  /-- The text ends inside an element. -/
  | unclosedElement
  /-- The reference belongs to another document. -/
  | foreignNode
  /-- The element has been removed. -/
  | detached
  /-- The root has no siblings. -/
  | invalidAnchor
  /-- The edit asks for an element of another name. -/
  | wrongKind (expected found : String)
  /-- The document belongs to no file. -/
  | noPath
deriving DecidableEq, Repr

/-- The text shown for an error. -/
def DocumentError.message : DocumentError → String
  | .file fault => s!"I/O error: {fault.message}"
  | .markup fault => s!"XML error: {fault.message}"
  | .missingRoot => "Document has no root element"
  | .invalidRoot name => s!"Unexpected root element <{name}>, expected <Project>"
  | .secondRoot name => s!"Malformed XML: second root element <{name}>"
  | .unclosedElement => "Malformed XML: unexpected end of document inside an element"
  | .foreignNode => "child of current project required"
  | .detached => "Element is not attached to the document"
  | .invalidAnchor => "Element cannot be used as an insertion anchor"
  | .wrongKind expected found => s!"Expected <{expected}> element, found <{found}>"
  | .noPath => "Document has no file path"

/-- A document without the identity and the file that it has in memory: what its text says. -/
structure DocumentContent where
  tree : Tree
  declaration? : Option Declaration
  /-- The comments before the root element. -/
  prolog : List String
deriving DecidableEq, Repr

/-- A project document in memory. -/
structure Document extends DocumentContent where
  id : DocumentId
  /-- The file that the document was loaded from or will be saved to. -/
  path? : Option String
  /-- How many changes the document has seen. -/
  revision : Nat
deriving DecidableEq, Repr

/-- The name that the root element has to have. -/
def projectElement : String := "Project"

/-- The namespace of project files. -/
def projectNamespace : String := "http://schemas.microsoft.com/developer/msbuild/2003"

namespace Document

/-- The content of an empty project. -/
def emptyContent : DocumentContent where
  tree := .ofTag ⟨projectElement, [⟨"ToolsVersion", "4.0"⟩, ⟨"xmlns", projectNamespace⟩]⟩
  declaration? := some ⟨"1.0", some "utf-8", none⟩
  prolog := []

/-- A document with the given identity and content, without a file. -/
def ofContent (id : DocumentId) (content : DocumentContent) : Document :=
  { content with id, path? := none, revision := 0 }

/-- An empty project. -/
def empty (id : DocumentId) : Document :=
  ofContent id emptyContent

/-- A copy with an identity of its own. The elements keep their identities, so `counterpart?`
can carry references over. -/
def copy (d : Document) (id : DocumentId) : Document :=
  { d with id, revision := 0 }

/-! ## Elements -/

/-- The root element. -/
def root (d : Document) : Element :=
  d.tree.root

/-- The elements below the root, in document order. -/
def elements (d : Document) : List Element :=
  d.tree.elements

/-- The reference to an element of this document. -/
def ref (d : Document) (e : Element) : ElementRef :=
  ⟨d.id, e.id⟩

/-- The element a reference refers to. -/
def resolve (d : Document) (r : ElementRef) : Except DocumentError Element :=
  if r.document ≠ d.id then .error .foreignNode
  else
    match d.tree.find? r.node with
    | some e => .ok e
    | none => .error .detached

/-- The parent of an element; the root has none. -/
def parent? (d : Document) (e : Element) : Option Element :=
  d.tree.parent? e.id

/-- The reference here that corresponds to one of the document that this one was copied from. -/
def counterpart? (d : Document) (r : ElementRef) : Option ElementRef :=
  (d.tree.find? r.node).map d.ref

/-- The element that a path of child positions leads to. -/
def elementAt? (d : Document) (path : List Nat) : Option Element :=
  d.root.descend? path

end Document

end BuildProject
