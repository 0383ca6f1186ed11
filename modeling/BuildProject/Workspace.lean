import BuildProject.Project.File
import BuildProject.Table

/-!
# Workspaces

Everything that operations on several projects share: the host, the projects in memory, and the
registry, which says what project is loaded for which path.

A project is reached through its handle, by all who share it. While someone works on it, its cell
is borrowed: by any number of readers, or by one writer alone. Operations that would pull the
project away under them look at that first.
-/

namespace BuildProject

/-- The name by which a project in memory is shared. -/
structure Handle where
  index : Nat
deriving DecidableEq, Repr

/-- Who works on a project. -/
inductive Borrow where
  /-- Readers, perhaps none. -/
  | readers (count : Nat)
  /-- One writer. -/
  | writer
deriving DecidableEq, Repr

/-- Nobody works on a project. -/
def Borrow.free : Borrow := .readers 0

/-- A project in memory and who works on it. -/
structure Cell where
  project : Project
  borrow : Borrow
deriving DecidableEq

namespace Cell

/-- The project, unless someone writes it. -/
def readable? (cell : Cell) : Option Project :=
  match cell.borrow with
  | .readers _ => some cell.project
  | .writer => none

/-- The project, unless someone works on it. -/
def writable? (cell : Cell) : Option Project :=
  if cell.borrow = .free then some cell.project else none

/-- The cell with one more reader, or with a writer. -/
def hold? (cell : Cell) (exclusive : Bool) : Option Cell :=
  match cell.borrow, exclusive with
  | .readers count, false => some { cell with borrow := .readers (count + 1) }
  | .readers 0, true => some { cell with borrow := .writer }
  | _, _ => none

/-- The cell with one reader less, or without its writer. -/
def letGo (cell : Cell) : Cell :=
  match cell.borrow with
  | .readers count => { cell with borrow := .readers (count - 1) }
  | .writer => { cell with borrow := .free }

end Cell

/-- The loaded projects by the normal forms of their paths. -/
structure Registry where
  /-- The conventions of every project loaded here. -/
  conventions : Conventions
  /-- The handles by the normal forms of the paths. -/
  handles : Table String Handle
deriving DecidableEq

namespace Registry

/-- A registry without projects. -/
def empty (c : Conventions) : Registry := ⟨c, []⟩

/-- The handle registered for a key. -/
def find? (r : Registry) (key : String) : Option Handle :=
  r.handles.find? key

/-- The keys that have a handle. -/
def keys (r : Registry) : List String :=
  r.handles.keys

/-- The registry without a key. -/
def erase (r : Registry) (key : String) : Registry :=
  { r with handles := r.handles.erase key }

/-- The registry with a handle for a key. -/
def insert (r : Registry) (key : String) (handle : Handle) : Registry :=
  { r with handles := r.handles.insert key handle }

end Registry

/-- A host, the projects in memory, and the registry. -/
structure Workspace where
  host : Host
  /-- The projects in the order of their handles. -/
  cells : List Cell
  /-- The identity that the next document gets. -/
  nextDocument : Nat
  registry : Registry

namespace Workspace

/-- The cell behind a handle. -/
def cell? (w : Workspace) (handle : Handle) : Option Cell :=
  w.cells[handle.index]?

/-- The workspace with another cell behind a handle. -/
def setCell (w : Workspace) (handle : Handle) (cell : Cell) : Workspace :=
  { w with cells := w.cells.set handle.index cell }

/-- The workspace with another project behind a handle. -/
def setProject (w : Workspace) (handle : Handle) (project : Project) : Workspace :=
  { w with cells := w.cells.modify handle.index fun cell => { cell with project } }

/-- An identity for a new document. -/
def freshDocument (w : Workspace) : DocumentId × Workspace :=
  (⟨w.nextDocument⟩, { w with nextDocument := w.nextDocument + 1 })

/-- Puts a project into memory. -/
def addProject (w : Workspace) (project : Project) : Handle × Workspace :=
  (⟨w.cells.length⟩, { w with cells := w.cells ++ [⟨project, .free⟩] })

end Workspace

end BuildProject
