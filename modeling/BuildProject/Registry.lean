import BuildProject.Workspace

/-!
# The registry

At most one project is loaded for a path, whatever the spelling of the path: all operations start
by bringing it to its normal form, the key. A project that leaves the registry is disposed, unless
someone works on it at that moment; loading and copying refuse to replace a project that someone
works on.

`clone` copies a project to a new path. The copy is registered and in memory only, and its sources
are rebased so that they name the same files from the new place. Everything that can be refused
is checked before the project at the target is unloaded.
-/

namespace BuildProject

/-- An action on a workspace. What it changed before it failed stays changed. -/
abbrev RegistryAction := ExceptT ProjectError (StateM Workspace)

namespace Workspace

/-! ## Looking -/

/-- The key of a path. -/
def key (w : Workspace) (path : String) : Except FileFault String :=
  w.host.normalize path

/-- The project loaded for a path. -/
def get? (w : Workspace) (path : String) : Option Handle :=
  match w.key path with
  | .ok key => w.registry.find? key
  | .error _ => none

/-- Whether a project is loaded for a path. -/
def contains (w : Workspace) (path : String) : Bool :=
  (w.get? path).isSome

/-- Whether the project behind a handle can be replaced or disposed. -/
def isFree (w : Workspace) (handle : Handle) : Bool :=
  (w.cell? handle).all (·.writable?.isSome)

/-! ## Unloading -/

/-- Disposes a project that leaves the registry, unless someone works on it. -/
def release (w : Workspace) (handle : Handle) : Workspace :=
  match (w.cell? handle).bind Cell.writable? with
  | none => w
  | some project =>
    let (id, w) := w.freshDocument
    w.setProject handle (project.dispose id).2

/-- Takes the project of a key out of the registry, and says whether there was one. -/
def unloadKey (w : Workspace) (key : String) : Bool × Workspace :=
  match w.registry.find? key with
  | none => (false, w)
  | some handle => (true, { w with registry := w.registry.erase key }.release handle)

/-- Takes the project of a path out of the registry, and says whether there was one. -/
def unload (w : Workspace) (path : String) : Bool × Workspace :=
  match w.key path with
  | .ok key => w.unloadKey key
  | .error _ => (false, w)

/-- Unloads paths one after the other and counts the projects. -/
def unloadEach (w : Workspace) : List String → Nat × Workspace
  | [] => (0, w)
  | path :: paths =>
    let (found, w) := w.unload path
    let (count, w) := w.unloadEach paths
    (if found then count + 1 else count, w)

/-- Takes all projects out of the registry and counts them. -/
def unloadAll (w : Workspace) : Nat × Workspace :=
  w.unloadEach w.registry.keys

end Workspace

namespace RegistryAction

/-- The key of a path. -/
def keyOf (path : String) : RegistryAction String := do
  match (← get).key path with
  | .ok key => return key
  | .error fault => throw (.path fault)

/-- Fails if someone works on the project of a key. -/
def ensureReplaceable (key : String) : RegistryAction Unit := do
  let w ← get
  match w.registry.find? key with
  | some handle => if !w.isFree handle then throw (.inUse key)
  | none => return

/-- Puts a project into memory and registers it for a key. -/
def register (key : String) (project : Project) : RegistryAction Handle := do
  let (handle, w) := (← get).addProject project
  set { w with registry := w.registry.insert key handle }
  return handle

/-- An identity for a new document. -/
def freshDocument : RegistryAction DocumentId :=
  modifyGet Workspace.freshDocument

/-! ## Loading -/

/-- Loads the project of a path, in the place of the one that was loaded. If the file cannot be
loaded, none is left. -/
def load (path : String) : RegistryAction Handle := do
  let key ← keyOf path
  ensureReplaceable key
  modify fun w => (w.unloadKey key).2
  let id ← freshDocument
  let w ← get
  match Project.load id w.registry.conventions w.host key with
  | .ok project => register key project
  | .error fault => throw fault

/-- The project loaded for a path; it is loaded if it is not. -/
def getOrLoad (path : String) : RegistryAction Handle := do
  match (← get).get? path with
  | some handle => return handle
  | none => load path

/-! ## Copying -/

/-- The document of a project that is to be copied, and the directory it is written for. -/
def sourceOf (source : Handle) : RegistryAction (Document × String) := do
  match ((← get).cell? source).bind Cell.readable? with
  | none => throw .sourceBusy
  | some project =>
    if project.isDisposed then throw .disposed
    match project.directory? with
    | none => throw .sourceWithoutPath
    | some directory =>
      let id ← freshDocument
      return (project.document.copy id, directory)

/-- Makes room for a copy: unloads what it overwrites, or makes sure that it overwrites nothing. -/
def clearTarget (key : String) (overwrite : Bool) : RegistryAction Unit := do
  if overwrite then
    ensureReplaceable key
    modify fun w => (w.unload key).2
  else
    let w ← get
    if (w.registry.find? key).isSome then throw (.alreadyLoaded key)
    else if w.host.exists? key then throw (.alreadyExists key)

/-- Copies a project to a path and registers the copy. -/
def clone (source : Handle) (path : String) (overwrite : Bool) : RegistryAction Handle := do
  if path.isEmpty then throw .emptyPath
  let key ← keyOf path
  let (document, directory) ← sourceOf source
  clearTarget key overwrite
  let conventions := (← get).registry.conventions
  let copy := Project.ofDocument { document with path? := some key } conventions
  match (Project.rebaseSources directory).run.run copy with
  | (.ok (), project) => register key project
  | (.error fault, _) => throw fault

/-! ## Saving -/

/-- Saves a project to its own file. -/
def save (handle : Handle) : RegistryAction Unit := do
  let w ← get
  match (w.cell? handle).bind Cell.writable? with
  | none => throw .busy
  | some project =>
    let (answer, project, host) := project.save w.host
    set { w.setProject handle project with host }
    match answer with
    | .ok () => return
    | .error fault => throw fault

/-- Saves all registered projects, up to the first that cannot be saved. -/
def saveAll : RegistryAction Unit := do
  (← get).registry.handles.forM fun (_, handle) => save handle

end RegistryAction

end BuildProject
