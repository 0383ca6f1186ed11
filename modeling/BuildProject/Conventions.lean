import BuildProject.Document.Evaluation
import BuildProject.Files.Host
import BuildProject.Json.Record
import BuildProject.Json.Printer

/-!
# Conventions

The names that projects of one flavour agree on: where the identifier is, which reference marks
the default item group, which import brings the build tools, what compiled sources are called. They
are kept as a JSON record, in which every field may be left out.
-/

namespace BuildProject

open Text

/-- The names by which the parts of a project are found. -/
structure Conventions where
  /-- The property with the identifier; its group is the default property group. -/
  identifierProperty : String := "ProjectGuid"
  /-- The kind of items that refer to assemblies. -/
  referenceItem : String := "Reference"
  /-- The assembly whose reference marks the default item group. -/
  baselineReference : String := "System"
  /-- The file that the build-tools import names. -/
  buildToolsImport : String := "Microsoft.CSharp.targets"
  /-- The kind of items that are compiled. -/
  sourceItem : String := "Compile"
  /-- The metadata with the path an item is shown under. -/
  linkMetadata : String := "Link"
  /-- The properties that every evaluation starts from. -/
  globalProperties : GlobalProperties := .ofList [("Configuration", "Debug"), ("Platform", "AnyCPU")]
deriving DecidableEq

/-- Why conventions cannot be loaded. -/
inductive ConventionsError where
  | file (fault : FileFault)
  | json (fault : Json.Fault)
deriving DecidableEq, Repr

namespace Conventions

/-- Whether an import of the given project file brings the build tools; case does not count. -/
def isBuildToolsImport (c : Conventions) (project : String) : Bool :=
  let fileName := lastPiece (fun ch => ch == '\\' || ch == '/') project.toList
  sameIgnoringCase (String.ofList fileName) c.buildToolsImport

/-! ## JSON -/

/-- The fields in the order in which they are written. -/
def shape : Json.Shape :=
  [("identifier_property", .text), ("reference_item", .text), ("baseline_reference", .text),
    ("build_tools_import", .text), ("source_item", .text), ("link_metadata", .text),
    ("global_properties", .table)]

/-- The conventions that a record gives; a field that is missing has its usual value. -/
def ofRecord (fields : Json.Record) : Conventions :=
  let usual : Conventions := {}
  let text (name usual : String) : String := (Json.Record.text? fields name).getD usual
  { identifierProperty := text "identifier_property" usual.identifierProperty
    referenceItem := text "reference_item" usual.referenceItem
    baselineReference := text "baseline_reference" usual.baselineReference
    buildToolsImport := text "build_tools_import" usual.buildToolsImport
    sourceItem := text "source_item" usual.sourceItem
    linkMetadata := text "link_metadata" usual.linkMetadata
    globalProperties :=
      ((Json.Record.table? fields "global_properties").map GlobalProperties.ofList).getD
        usual.globalProperties }

/-- Reads conventions. -/
def parse (text : String) : Except Json.Fault Conventions :=
  Json.readWhole shape (fun fields => some (ofRecord fields)) text

/-- The fields that hold texts, in their order. -/
def texts (c : Conventions) : List (String × String) :=
  [("identifier_property", c.identifierProperty), ("reference_item", c.referenceItem),
    ("baseline_reference", c.baselineReference), ("build_tools_import", c.buildToolsImport),
    ("source_item", c.sourceItem), ("link_metadata", c.linkMetadata)]

/-- Writes conventions. -/
def render (c : Conventions) : String :=
  let quoted := fun (key, value) => (key, Json.printString value)
  let globals := Json.printLines 1 (c.globalProperties.entries.map quoted)
  String.ofList (Json.printLines 0 (c.texts.map quoted ++ [("global_properties", globals)]))

/-! ## Files -/

/-- The usual place for conventions. -/
def defaultPath (host : Host) : String :=
  Host.joinPath host.configDirectory "projkit/conventions.json"

/-- Loads conventions from a file. -/
def load (host : Host) (path : String) : Except ConventionsError Conventions := do
  let text ← (host.readText path).mapError .file
  (parse text).mapError .json

/-- Loads conventions from their usual place. Without a file there, the usual ones hold. -/
def loadOrDefault (host : Host) : Except ConventionsError Conventions :=
  if host.exists? (defaultPath host) then load host (defaultPath host) else .ok {}

/-- Saves conventions to a file and makes the directories above it. -/
def save (host : Host) (c : Conventions) (path : String) : Except FileFault Unit × Host :=
  host.save path c.render

end Conventions

end BuildProject
