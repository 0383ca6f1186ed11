import BuildProject.Text

/-!
# Include paths

Items name their files by paths with `\` or `/` between the names and perhaps a drive such as
`C:` in front, whatever machine the project is on. These paths are handled as text; nothing here
asks a file system.

A path in this form is always clean: reading it cancels `.` and `..` and drops empty names, so a
rooted path has no `..` and an unrooted one has them at its front only. `resolve` reads a path from
a directory, `relativeTo?` writes it from another, and `rebaseInclude` does both.
-/

namespace BuildProject

open Text

/-- A path split into its root and its names. -/
structure IncludePath where
  /-- The letter of the drive. -/
  drive? : Option Char
  /-- Whether the path starts at a root. -/
  rooted : Bool
  /-- The names from the root, or from wherever the path is read. -/
  segments : List (List Char)
deriving DecidableEq, Repr

/-- The characters that separate names; written paths use the backslash. -/
def isSeparator (c : Char) : Bool :=
  c == '\\' || c == '/'

/-- The letter of the drive that a path starts with, and the rest of the path. -/
def splitDrive : List Char → Option Char × List Char
  | letter :: ':' :: rest =>
    if letter.isAlpha then (some letter, rest) else (none, letter :: ':' :: rest)
  | cs => (none, cs)

namespace IncludePath

/-! ## Reading -/

/-- The name that leads up. -/
def up : List Char := ['.', '.']

/-- Follows one name from the end of a path. Nothing is above a root. -/
def step (rooted : Bool) (segments : List (List Char)) (segment : List Char) :
    List (List Char) :=
  if segment = [] ∨ segment = ['.'] then segments
  else if segment = up then
    if segments.getLast?.any (· ≠ up) then segments.dropLast
    else if rooted then segments
    else segments ++ [up]
  else segments ++ [segment]

/-- Follows a relative path from the end of a path. -/
def push (p : IncludePath) (cs : List Char) : IncludePath :=
  { p with segments := (cs.splitOnP isSeparator).foldl (step p.rooted) p.segments }

/-- Reads a path. -/
def ofChars (cs : List Char) : IncludePath :=
  let (drive?, rest) := splitDrive cs
  push ⟨drive?, rest.head?.any isSeparator, []⟩ rest

/-! ## Writing -/

/-- Writes names with backslashes between them. -/
def joinSegments (segments : List (List Char)) : List Char :=
  ['\\'].intercalate segments

/-- Writes a path. -/
def toChars (p : IncludePath) : List Char :=
  p.drive?.elim [] (fun letter => [letter, ':']) ++ (if p.rooted then ['\\'] else []) ++
    joinSegments p.segments

/-! ## Comparing -/

/-- Whether two drives are the same; case does not count. -/
def sameDrive : Option Char → Option Char → Bool
  | some a, some b => a.toLower == b.toLower
  | none, none => true
  | _, _ => false

/-- Whether two paths start from the same place. -/
def sameRoot (p q : IncludePath) : Bool :=
  p.rooted == q.rooted && sameDrive p.drive? q.drive?

/-- Whether two names are the same. On a drive, case does not count. -/
def sameSegment (onDrive : Bool) (a b : List Char) : Bool :=
  if onDrive then a.map Char.toLower == b.map Char.toLower else a == b

/-- What remains of two lists of names behind their common start. -/
def afterCommon (onDrive : Bool) :
    List (List Char) → List (List Char) → List (List Char) × List (List Char)
  | a :: as, b :: bs =>
    if sameSegment onDrive a b then afterCommon onDrive as bs else (a :: as, b :: bs)
  | as, bs => (as, bs)

/-! ## Resolving -/

/-- The path that `target` names when it is read in the directory `base`. A path with a drive but
no root continues a base on its own drive; against any other base it stays as it is. -/
def resolve (base target : List Char) : IncludePath :=
  let path := ofChars target
  let directory := ofChars base
  if path.rooted then path
  else if path.drive?.isSome ∧ !sameRoot directory path then path
  else directory.push (splitDrive target).2

/-- The names that lead from the directory `base` to `target`, if the two start from the same
place. -/
def relativeTo? (target base : IncludePath) : Option (List (List Char)) :=
  if sameRoot target base then
    let (down, out) := afterCommon base.drive?.isSome target.segments base.segments
    some (out.map (fun _ => up) ++ down)
  else none

end IncludePath

/-- The clean form of an include that is read in a directory. -/
def resolveInclude (base target : String) : String :=
  String.ofList (IncludePath.resolve base.toList target.toList).toChars

/-- The include that names from the directory `destination` what `target` names from the directory
`source`: relative if the two start from the same place, else the clean form of the whole path. -/
def rebaseInclude (target source destination : String) : String :=
  let path := IncludePath.resolve source.toList target.toList
  match path.relativeTo? (IncludePath.ofChars destination.toList) with
  | some segments => String.ofList (IncludePath.joinSegments segments)
  | none => String.ofList path.toChars

/-- The name of the file that an include refers to. -/
def includeFileName? (target : String) : Option String :=
  let name := lastPiece isSeparator target.toList
  if name = [] ∨ name = ['.'] ∨ name = IncludePath.up then none else some (String.ofList name)

end BuildProject
