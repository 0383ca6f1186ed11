import BuildProject.Document.Reader
import BuildProject.Document.Printer
import BuildProject.Files.Host

/-!
# Documents and their files

Loading ties a document to its file. Writing leaves the document as it is; only `saveAs` ties it to
another file, and only if it was written there.
-/

namespace BuildProject.Document

/-- Loads a document from a file. -/
def load (id : DocumentId) (host : Host) (path : String) : Except DocumentError Document := do
  let text ← (host.readText path).mapError .file
  let d ← Document.parse id text
  return { d with path? := some path }

/-- Writes a document to a file and makes the directories above it. -/
def writeTo (d : Document) (path : String) (host : Host) : Except DocumentError Unit × Host :=
  let (answer, host) := host.save path d.render
  (answer.mapError .file, host)

/-- Writes a document to its own file. -/
def save (d : Document) (host : Host) : Except DocumentError Unit × Host :=
  match d.path? with
  | some path => d.writeTo path host
  | none => (.error .noPath, host)

/-- Writes a document to a file that becomes its own. -/
def saveAs (d : Document) (path : String) (host : Host) :
    Except DocumentError Unit × Document × Host :=
  match d.writeTo path host with
  | (.ok (), host) => (.ok (), { d with path? := some path }, host)
  | (.error fault, host) => (.error fault, d, host)

end BuildProject.Document
