import BuildProject.Files.Path
import BuildProject.Table

/-!
# File systems

A file system is a list of directories and files by location: the names that lead to them from the
root, which is a directory of its own. Paths are followed step by step, as an operating system
does: every name but the last has to be there and be a directory, `..` leads to the directory
above, and a slash at the end asks for a directory. A path and the names in it have a greatest
length, and a path cannot hold a NUL character.

Each operation answers and leaves a file system; one that fails may have made directories before.
-/

namespace BuildProject

/-- The names that lead from the root to something. -/
abbrev Location := List (List Char)

/-- Something in a file system. -/
inductive Entry where
  | directory
  | file (content : ByteArray)

/-- Whether something is a directory. -/
def Entry.isDirectory : Entry → Bool
  | .directory => true
  | .file _ => false

/-- Directories and files by their locations. The root is not listed. -/
structure FileSystem where
  entries : Table Location Entry

/-- An action on a file system. -/
abbrev FileAction := ExceptT FileFault (StateM FileSystem)

namespace FileSystem

/-- What is at a location. -/
def lookup? (fs : FileSystem) (location : Location) : Option Entry :=
  if location = [] then some .directory else fs.entries.find? location

/-- The file system with something at a location. -/
def put (fs : FileSystem) (location : Location) (entry : Entry) : FileSystem :=
  ⟨fs.entries.insert location entry⟩

/-- The file system without what is at a location. -/
def erase (fs : FileSystem) (location : Location) : FileSystem :=
  ⟨fs.entries.erase location⟩

/-! ## Limits -/

/-- The greatest number of bytes in a name. -/
def longestName : Nat := 255

/-- The greatest number of bytes in a path. -/
def longestPath : Nat := 4095

/-- Whether a name has more bytes than a name may have. -/
def isTooLong (name : List Char) : Bool :=
  decide (longestName < Text.byteLength name)

/-- What keeps a path from being followed at all. -/
def pathFault? (path : List Char) : Option FileFault :=
  if path.contains '\x00' then some .nulCharacter
  else if path.isEmpty then some .notFound
  else if longestPath < Text.byteLength path then some .nameTooLong
  else none

/-! ## Following paths -/

/-- Follows names from a directory. -/
def walk (fs : FileSystem) (here : Location) : List (List Char) → Except FileFault Location
  | [] => .ok here
  | name :: names =>
    match fs.lookup? here with
    | some .directory =>
      if isTooLong name then .error .nameTooLong
      else
        let there := followName here name
        if (fs.lookup? there).isSome then fs.walk there names else .error .notFound
    | some (.file _) => .error .notDirectory
    | none => .error .notFound

/-- The names that a path goes through. -/
def namesOf (path : List Char) : List (List Char) :=
  (pathNames path).filter (!·.isEmpty)

/-- Whether a path ends with a slash, and so asks for a directory. -/
def asksForDirectory (path : List Char) : Bool :=
  path.getLast? = some '/'

/-- The location of something that is there. A slash at the end is a last step from the directory
to itself. -/
def find (fs : FileSystem) (workingDirectory path : List Char) : Except FileFault Location :=
  match pathFault? path with
  | some fault => .error fault
  | none =>
    fs.walk (startOf workingDirectory path)
      (if asksForDirectory path then namesOf path ++ [['.']] else namesOf path)

/-- The location of something that may still have to be made: its directory is there. A slash at
the end of the path and the length of the last name are left to the caller. -/
def findNew (fs : FileSystem) (workingDirectory path : List Char) :
    Except FileFault Location :=
  match pathFault? path with
  | some fault => .error fault
  | none =>
    match (namesOf path).getLast? with
    | none => .ok (startOf workingDirectory path)
    | some last => do
      let directory ← fs.walk (startOf workingDirectory path) (namesOf path).dropLast
      match fs.lookup? directory with
      | some .directory => return followName directory last
      | _ => throw .notDirectory

/-- Fails if the last name of a location is too long for something to be made there. -/
def ensureNameable (location : Location) : Except FileFault Unit :=
  if location.getLast?.any isTooLong then .error .nameTooLong else .ok ()

/-- Whether a path leads to something. -/
def exists? (fs : FileSystem) (workingDirectory path : String) : Bool :=
  (fs.find workingDirectory.toList path.toList).isOk

/-- Whether a path leads to a directory. -/
def isDirectory (fs : FileSystem) (workingDirectory path : String) : Bool :=
  match fs.find workingDirectory.toList path.toList with
  | .ok location => (fs.lookup? location).any Entry.isDirectory
  | .error _ => false

/-- The text of a file. -/
def readText (fs : FileSystem) (workingDirectory path : String) : Except FileFault String := do
  let location ← fs.find workingDirectory.toList path.toList
  match fs.lookup? location with
  | some (.file content) =>
    match String.fromUTF8? content with
    | some text => return text
    | none => throw .notText
  | some .directory => throw .isDirectory
  | none => throw .notFound

/-- The locations of all files. -/
def files (fs : FileSystem) : List Location :=
  fs.entries.filterMap fun (location, entry) =>
    match entry with
    | .directory => none
    | .file _ => some location

end FileSystem

namespace FileAction

/-- The answer of a question to the file system. -/
def ask (question : FileSystem → Except FileFault α) : FileAction α := do
  match question (← get) with
  | .ok answer => return answer
  | .error fault => throw fault

/-- Writes a file, in the place of one that is there. -/
def write (workingDirectory path : String) (content : ByteArray) : FileAction Unit := do
  let location ← ask (·.findNew workingDirectory.toList path.toList)
  if FileSystem.asksForDirectory path.toList then throw .isDirectory
  ask fun _ => FileSystem.ensureNameable location
  match (← get).lookup? location with
  | some .directory => throw .isDirectory
  | _ => modify (·.put location (.file content))

/-- Makes a directory where nothing is. -/
def makeDirectory (workingDirectory path : String) : FileAction Unit := do
  let location ← ask (·.findNew workingDirectory.toList path.toList)
  ask fun _ => FileSystem.ensureNameable location
  match (← get).lookup? location with
  | some _ => throw .alreadyExists
  | none => modify (·.put location .directory)

/-- Makes a directory unless it is there. -/
def ensureDirectory (workingDirectory path : String) : FileAction Unit :=
  tryCatch (makeDirectory workingDirectory path) fun fault => do
    if !(← get).isDirectory workingDirectory path then throw fault

/-- Makes a directory and those above it that are missing, which are at most `depth`. The empty
path is the working directory, which is there. -/
def ensureDirectoriesWithin (depth : Nat) (workingDirectory path : String) : FileAction Unit :=
  match depth with
  | 0 => return
  | depth + 1 =>
    if path.isEmpty then return
    else
      tryCatch (ensureDirectory workingDirectory path) fun
        | .notFound => do
          ensureDirectoriesWithin depth workingDirectory (parentPath path)
          ensureDirectory workingDirectory path
        | fault => throw fault

/-- Makes a directory and those above it that are missing. There are at most as many of them as the
path has characters. -/
def ensureDirectories (workingDirectory path : String) : FileAction Unit :=
  ensureDirectoriesWithin path.length workingDirectory path

/-- Writes a text to a file and makes the directories above it. -/
def save (workingDirectory path text : String) : FileAction Unit := do
  ensureDirectories workingDirectory (parentPath path)
  write workingDirectory path text.toUTF8

/-- Removes a file. Directories stay. -/
def remove (workingDirectory path : String) : FileAction Unit := do
  let location ← ask (·.find workingDirectory.toList path.toList)
  match (← get).lookup? location with
  | some (.file _) => modify (·.erase location)
  | some .directory => throw .isDirectory
  | none => throw .notFound

end FileAction

end BuildProject
