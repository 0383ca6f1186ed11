/-!
# Faults of files

Why reading or writing a file can fail, with the wording shown for each cause.
-/

namespace BuildProject

/-- What can go wrong with a file. -/
inductive FileFault where
  /-- Nothing has this path. -/
  | notFound
  /-- Something on the way is a file. -/
  | notDirectory
  /-- A directory stands where a file should. -/
  | isDirectory
  /-- Something has this path already. -/
  | alreadyExists
  /-- The path, or a name in it, is longer than a file system takes. -/
  | nameTooLong
  /-- The path holds the character that ends a path for the system. -/
  | nulCharacter
  /-- The bytes of a file are no text. -/
  | notText
  /-- The empty path has no absolute form. -/
  | emptyPath
deriving DecidableEq, Repr

/-- The text shown for a fault. -/
def FileFault.message : FileFault → String
  | .notFound => "No such file or directory (os error 2)"
  | .notDirectory => "Not a directory (os error 20)"
  | .isDirectory => "Is a directory (os error 21)"
  | .alreadyExists => "File exists (os error 17)"
  | .nameTooLong => "File name too long (os error 36)"
  | .nulCharacter => "file name contained an unexpected NUL byte"
  | .notText => "stream did not contain valid UTF-8"
  | .emptyPath => "cannot make an empty path absolute"

end BuildProject
