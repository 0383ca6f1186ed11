import BuildProject.Document.Edit
import BuildProject.Document.Reader
import BuildProject.Document.Printer
import BuildProject.Document.Evaluation
import BuildProject.Conventions
import BuildProject.Include
import BuildProject.Guid

/-!
# Projects

A project is a document together with its evaluation and the three places found when it was made:
the default property group, the default item group and the import of the build tools. The places
are references, so edits may remove what they refer to, and they are not looked for again.

The evaluation is renewed when it is asked for and out of date. A project that is no longer needed
is disposed: an empty document takes the place of its own, and from then on it can neither be
saved nor changed by way of the project.
-/

namespace BuildProject

open Text

/-- Why an operation on projects fails. -/
inductive ProjectError where
  /-- The path of a new project is empty. -/
  | emptyPath
  /-- The source of a copy is being changed. -/
  | sourceBusy
  /-- The source of a copy belongs to no file. -/
  | sourceWithoutPath
  /-- The project belongs to no file. -/
  | noPath
  /-- A project is registered under the path of a copy. -/
  | alreadyLoaded (path : String)
  /-- There is something at the path of a copy. -/
  | alreadyExists (path : String)
  /-- The project to be replaced is in use. -/
  | inUse (path : String)
  /-- The project to be saved is in use. -/
  | busy
  /-- The project has been disposed. -/
  | disposed
  /-- The document cannot be read, written or edited. -/
  | document (fault : DocumentError)
  /-- A condition cannot be read. -/
  | condition (fault : ConditionError)
  /-- A path has no absolute form. -/
  | path (fault : FileFault)
deriving DecidableEq, Repr

namespace ProjectError

/-- The text shown for an error. -/
def message : ProjectError → String
  | .emptyPath => "Invalid argument: new project path must not be empty"
  | .sourceBusy => "Invalid argument: source project is being modified"
  | .sourceWithoutPath => "Invalid argument: source project has no file path"
  | .noPath => "Invalid argument: project has no file path"
  | .alreadyLoaded file => s!"Project is already loaded: {file}"
  | .alreadyExists file => s!"Project file already exists: {file}"
  | .inUse file => s!"Project is in use and cannot be replaced: {file}"
  | .busy => "Project is in use"
  | .disposed => "Project has been unloaded"
  | .document fault => fault.message
  | .condition fault => fault.message
  | .path fault => s!"I/O error: {fault.message}"

/-- Whether the operation was refused because of what is at its path, rather than tried. -/
def isRefusal : ProjectError → Bool
  | .alreadyLoaded _ => true
  | .alreadyExists _ => true
  | .inUse _ => true
  | _ => false

end ProjectError

/-- A project in memory. -/
structure Project where
  document : Document
  evaluation : Evaluation
  conventions : Conventions
  /-- The property group with the identifier. -/
  propertyGroup? : Option ElementRef
  /-- The item group with the baseline reference. -/
  itemGroup? : Option ElementRef
  /-- The import of the build tools. -/
  buildTools? : Option ElementRef
  /-- Whether the project has been saved. -/
  saved : Bool
  isDisposed : Bool
deriving DecidableEq

/-! ## Discovery -/

/-- Whether a reference names an assembly, whatever version and key follow the first comma. -/
def isReferenceTo (assembly includeText : String) : Bool :=
  let name := includeText.toList.takeWhile (· != ',')
  sameIgnoringCase (String.ofList (trim name)) assembly

namespace Conventions

/-- Whether a property group holds the identifier. -/
def holdsIdentifier (c : Conventions) (group : Element) : Bool :=
  (group.child? c.identifierProperty).isSome

/-- Whether an item group holds the baseline reference. -/
def holdsBaseline (c : Conventions) (group : Element) : Bool :=
  group.children.any fun item =>
    item.name == c.referenceItem && item.include?.any (isReferenceTo c.baselineReference)

/-- Whether an element imports the build tools. -/
def importsBuildTools (c : Conventions) (e : Element) : Bool :=
  e.project?.any c.isBuildToolsImport

end Conventions

namespace Project

/-- A project with the given document. -/
def ofDocument (d : Document) (c : Conventions) : Project where
  document := d
  evaluation := .evaluate d c.globalProperties
  conventions := c
  propertyGroup? := (d.findPropertyGroup? c.holdsIdentifier).map d.ref
  itemGroup? := (d.findItemGroup? c.holdsBaseline).map d.ref
  buildTools? := (d.findImport? c.importsBuildTools).map d.ref
  saved := false
  isDisposed := false

/-! ## Looking -/

/-- The file that the project belongs to. -/
def path? (p : Project) : Option String :=
  p.document.path?

/-- The directory of the project's file. -/
def directory? (p : Project) : Option String :=
  p.path?.map parentPath

/-- The element that one of the places refers to, if it is still there and has its name. -/
def place? (p : Project) (ref? : Option ElementRef) (name : String) : Option Element :=
  ref?.bind fun ref => (p.document.resolve ref).toOption.filter (·.name == name)

/-- The property group with the identifier. -/
def defaultPropertyGroup? (p : Project) : Option Element :=
  p.place? p.propertyGroup? propertyGroupElement

/-- The item group with the baseline reference. -/
def defaultItemGroup? (p : Project) : Option Element :=
  p.place? p.itemGroup? itemGroupElement

/-- The import of the build tools. -/
def buildToolsImport? (p : Project) : Option Element :=
  p.place? p.buildTools? importElement

/-- The identifier of the project. -/
def guid? (p : Project) : Option Guid :=
  p.defaultPropertyGroup?.bind fun group =>
    (group.child? p.conventions.identifierProperty).bind fun property =>
      Guid.parse? (trimmed property.text)

/-! ## Changing -/

/-- An action on a project. What it changed before it failed stays changed. -/
abbrev Action := ExceptT ProjectError (StateM Project)

/-- Fails if the project has been disposed. -/
def ensureLive : Action Unit := do
  if (← get).isDisposed then throw .disposed

/-- Edits the document of a project. -/
def edit (action : Edit α) : Action α := do
  let p ← get
  let (answer, document) := action.run.run p.document
  set { p with document }
  match answer with
  | .ok answer => return answer
  | .error fault => throw (.document fault)

/-- Evaluates the project again if its evaluation is out of date, and says whether it did. -/
def reevaluate (p : Project) : Bool × Project :=
  if p.evaluation.isCurrent p.document then (false, p)
  else
    (true, { p with evaluation := .evaluate p.document p.conventions.globalProperties })

/-- The value of a property in the document as it is now. -/
def evaluatedProperty? (p : Project) (name : String) : Option String × Project :=
  let p := p.reevaluate.2
  (p.evaluation.property? name, p)

/-- The last of the groups whose conditions name the given variables in the given order, unless
one of the conditions cannot be read. -/
def lastGuardedAlike (conditions : ConditionSet) :
    Option Element → List (Except ConditionError (ConditionSet × Element)) →
      Except ConditionError (Option Element)
  | found?, [] => .ok found?
  | _, .error fault :: _ => .error fault
  | found?, .ok (candidate, group) :: others =>
    lastGuardedAlike conditions
      (if candidate.names = conditions.names then some group else found?) others

/-- Lifts the answer of a question about conditions. -/
def askCondition (answer : Except ConditionError α) : Action α :=
  match answer with
  | .ok answer => return answer
  | .error fault => throw (.condition fault)

/-- The property group guarded by exactly the given conditions. If there is none, one is made: right
behind the last group with conditions on the same variables, else right behind the default
property group, else at the end of the project. -/
def conditionalPropertyGroup (conditions : ConditionSet) : Action ElementRef := do
  ensureLive
  let p ← get
  match ← askCondition (p.document.findConditionalGroup? conditions) with
  | some group => return p.document.ref group
  | none =>
    let alike? ← askCondition <|
      lastGuardedAlike conditions none (p.document.conditionalGroups fun _ => true)
    let default? := p.propertyGroup?.filter fun ref => (p.document.resolve ref).isOk
    let group ← edit <|
      match (alike?.map p.document.ref).or default? with
      | some anchor => Edit.createPropertyGroup anchor true
      | none => Edit.addPropertyGroup
    edit (Edit.setCondition group (some conditions))
    return group

/-- Releases the document. An empty one with identity `fresh` takes its place and keeps its file.
Says whether there was something to release. -/
def dispose (p : Project) (fresh : DocumentId) : Bool × Project :=
  if p.isDisposed then (false, p)
  else
    (true, { p with
      document := { Document.empty fresh with path? := p.document.path? }
      evaluation := .empty
      propertyGroup? := none
      itemGroup? := none
      buildTools? := none
      isDisposed := true })

/-! ## Creating -/

/-- Adds the properties that give global properties their usual values, each for the case that it
is not set. -/
def addDefaults (group : ElementRef) : List (String × String) → Action Unit
  | [] => return
  | (name, value) :: entries => do
    let property ← edit (Edit.setProperty group name value)
    let unset ← askCondition (ConditionSet.ofPairs [(name, "")])
    edit (Edit.setAttribute property conditionAttribute unset.text)
    addDefaults group entries

/-- Fills an empty project: a property group with defaults and the identifier, an item group with
the baseline reference, the import of the build tools. -/
def addSkeleton (guid : Guid) : Action Unit := do
  let c := (← get).conventions
  let group ← edit Edit.addPropertyGroup
  addDefaults group c.globalProperties.entries
  let _ ← edit (Edit.setProperty group c.identifierProperty guid.stored)
  let items ← edit Edit.addItemGroup
  let _ ← edit (Edit.addItem items c.referenceItem c.baselineReference)
  let _ ← edit (Edit.addImport ("$(MSBuildToolsPath)\\" ++ c.buildToolsImport))

/-- A new project with the given identifier, which belongs to no file yet. It fails if a global
property has a name that no condition can mention. -/
def create (id : DocumentId) (guid : Guid) (c : Conventions) : Except ProjectError Project :=
  let (answer, p) := (addSkeleton guid).run.run (ofDocument (.empty id) c)
  answer.map fun _ => ofDocument p.document c

/-! ## Sources -/

/-- Whether an include starts with a reference to a property: where it leads is not known before
the project is evaluated. -/
def startsWithReference (includeText : String) : Bool :=
  (trimStart includeText.toList).take 2 = ['$', '(']

/-- The parts of an include that names several files. -/
def includeParts (includeText : String) : List String :=
  ((includeText.toList.splitOn ';').map trim).filter (!·.isEmpty) |>.map String.ofList

/-- An include that names from the directory `destination` the files it named from `source`. -/
def rebaseParts (parts : List String) (source destination : String) : String :=
  ";".intercalate (parts.map fun part => rebaseInclude part source destination)

/-- Rebases the include of one item, and gives the item a link with the name of the file if it
has none. Items that name several files get no link. -/
def rebaseItem (source destination : String) (item : ElementRef) (includeText : String)
    (linked : Bool) : Action Unit := do
  let link := (← get).conventions.linkMetadata
  if startsWithReference includeText then return
  let parts := includeParts includeText
  edit (Edit.setItemInclude item (rebaseParts parts source destination))
  match linked, parts with
  | false, [part] =>
    match includeFileName? part with
    | some fileName =>
      let _ ← edit (Edit.setMetadata item link fileName)
    | none => return
  | _, _ => return

/-- A source item that is to be rebased: where it is, what it includes, whether it has a link. -/
structure SourceItem where
  item : ElementRef
  includeText : String
  linked : Bool
deriving DecidableEq, Repr

/-- The compiled sources of a project that include something. -/
def sourceItems (p : Project) : List SourceItem :=
  (p.document.findItems (·.name == p.conventions.sourceItem)).filterMap fun item =>
    item.include?.map fun includeText =>
      ⟨p.document.ref item, includeText,
        (item.metadata? p.conventions.linkMetadata).isSome⟩

/-- Rebases the compiled sources, which were written in the directory `source`: from the directory
of the project they name the same files. -/
def rebaseSources (source : String) : Action Unit := do
  let p ← get
  match p.directory? with
  | none => throw .noPath
  | some destination =>
    p.sourceItems.forM fun found =>
      rebaseItem source destination found.item found.includeText found.linked

end Project

end BuildProject
