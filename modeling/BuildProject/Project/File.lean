import BuildProject.Project
import BuildProject.Document.File

/-!
# Projects and their files

A project is saved as its document, after its evaluation has been renewed. A disposed project is
not saved at all.
-/

namespace BuildProject.Project

/-- Loads a project from a file. -/
def load (id : DocumentId) (c : Conventions) (host : Host) (path : String) :
    Except ProjectError Project := do
  let d ← (Document.load id host path).mapError .document
  return ofDocument d c

/-- Saves a project by writing its document. -/
def saveWith (write : Document → Host → Except DocumentError Unit × Host) (p : Project)
    (host : Host) : Except ProjectError Unit × Project × Host :=
  if p.isDisposed then (.error .disposed, p, host)
  else
    let p := p.reevaluate.2
    match write p.document host with
    | (.ok (), host) => (.ok (), { p with saved := true }, host)
    | (.error fault, host) => (.error (.document fault), p, host)

/-- Saves a project to its own file. -/
def save (p : Project) (host : Host) : Except ProjectError Unit × Project × Host :=
  p.saveWith Document.save host

/-- Saves a project to another file. The project keeps its own. -/
def saveAs (p : Project) (path : String) (host : Host) :
    Except ProjectError Unit × Project × Host :=
  p.saveWith (fun d host => d.writeTo path host) host

end BuildProject.Project
