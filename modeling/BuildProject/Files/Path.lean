import BuildProject.Text
import BuildProject.Files.Fault

/-!
# Paths of files

Paths are texts with `/` between their names. Two operations look at the text alone and ask no
file system: `parentPath`, which cuts the last name off and keeps the rest as it is written, and
`normalizePath`, which gives every spelling of a path one form.
-/

namespace BuildProject

/-- The names between the slashes of a path; there are empty ones where slashes meet. -/
def pathNames (path : List Char) : List (List Char) :=
  path.splitOn '/'

/-- A name that stands for nothing: the empty one, and the dot. -/
def isIdleName (name : List Char) : Bool :=
  name = [] || name = ['.']

/-- The name that leads up. -/
def upName : List Char := ['.', '.']

/-! ## Parents -/

/-- What a path starts with before its names: the slash of an absolute path, or the dot of a path
such as `./a`. -/
def pathHead : List Char → List Char
  | '/' :: _ => ['/']
  | '.' :: rest => if rest.head?.all (· = '/') then ['.'] else []
  | _ => []

/-- Drops the names at the end that stand for nothing. -/
def dropIdleNames (names : List (List Char)) : List (List Char) :=
  (names.reverse.dropWhile isIdleName).reverse

/-- The path without its last name; the empty text if there is no name to cut off, and also if
nothing remains. -/
def parentOf (path : List Char) : List Char :=
  let head := pathHead path
  let names := dropIdleNames (pathNames (path.drop head.length))
  if names.isEmpty then []
  else head ++ ['/'].intercalate (dropIdleNames names.dropLast)

/-- The directory that holds the file with the given path, as it is written. -/
def parentPath (path : String) : String :=
  String.ofList (parentOf path.toList)

/-! ## Normal form -/

/-- Follows one name from a directory, given as the names that lead to it from the root. -/
def followName (location : List (List Char)) (name : List Char) : List (List Char) :=
  if isIdleName name then location
  else if name = upName then location.dropLast
  else location ++ [name]

/-- The absolute path through the given names. -/
def renderLocation (location : List (List Char)) : List Char :=
  '/' :: ['/'].intercalate location

/-- Where a path starts: at the root if it is absolute, in the working directory if not. -/
def startOf (workingDirectory path : List Char) : List (List Char) :=
  if path.head? = some '/' then [] else (pathNames workingDirectory).foldl followName []

/-- The names that lead from the root to the file with the given path. `..` cancels the name
before it, whatever that name stands for, and nothing above the root. -/
def locationOf (workingDirectory path : List Char) : List (List Char) :=
  (pathNames path).foldl followName (startOf workingDirectory path)

/-- The absolute form of a path without idle names. -/
def normalizePath (workingDirectory path : String) : Except FileFault String :=
  if path.isEmpty then .error .emptyPath
  else
    .ok <| String.ofList <| renderLocation <| locationOf workingDirectory.toList path.toList

end BuildProject
