import BuildProject.Files.FileSystem

/-!
# Hosts

The machine that a project lives on: its files, the directory that relative paths start from, and
the places that the environment names.
-/

namespace BuildProject

/-- A machine as far as projects see it. -/
structure Host where
  files : FileSystem
  workingDirectory : String
  /-- The home directory. -/
  home : String
  /-- The directory for configuration files, if the environment names one. -/
  configHome? : Option String

namespace Host

/-- The absolute form of a path, which all its spellings share. -/
def normalize (host : Host) (path : String) : Except FileFault String :=
  normalizePath host.workingDirectory path

/-- Whether a path leads to something. -/
def exists? (host : Host) (path : String) : Bool :=
  host.files.exists? host.workingDirectory path

/-- The text of a file. -/
def readText (host : Host) (path : String) : Except FileFault String :=
  host.files.readText host.workingDirectory path

/-- Runs an action on the files of a host. -/
def onFiles (host : Host) (action : FileAction α) : Except FileFault α × Host :=
  let (answer, files) := action.run.run host.files
  (answer, { host with files })

/-- Writes a text to a file and makes the directories above it. -/
def save (host : Host) (path text : String) : Except FileFault Unit × Host :=
  host.onFiles (.save host.workingDirectory path text)

/-- Whether a path is absolute. -/
def isAbsolute (path : String) : Bool :=
  path.toList.head? = some '/'

/-- A path below a directory; an absolute path stays itself. -/
def joinPath (directory path : String) : String :=
  if isAbsolute path ∨ directory.isEmpty then path
  else if directory.toList.getLast? = some '/' then directory ++ path
  else directory ++ "/" ++ path

/-- The directory for configuration files: the one the environment names, if that is an absolute
path, else the usual one below the home directory. -/
def configDirectory (host : Host) : String :=
  match host.configHome? with
  | some directory =>
    if isAbsolute directory then directory else joinPath host.home ".config"
  | none => joinPath host.home ".config"

end Host

end BuildProject
