/-!
# Directories

Reading files by path (`Directory.read`), as a file system does it: a path is followed name by name
from the working directory, or from the root if it starts with a slash.
-/

namespace ClassicalPlanner.CommandLine

/-- Why a file cannot be read. -/
inductive FileError where
  | notFound
  /-- Something other than a directory stands in the middle of the path. -/
  | notDirectory
  | isDirectory
  | nameTooLong
  | other (cause : String)
deriving DecidableEq, Repr

namespace FileError

/-- The wording of an error. -/
def message : FileError → String
  | notFound => "No such file or directory (os error 2)"
  | notDirectory => "Not a directory (os error 20)"
  | isDirectory => "Is a directory (os error 21)"
  | nameTooLong => "File name too long (os error 36)"
  | other cause => cause

/-- The error with a number of the operating system. -/
def ofCode? : UInt32 → Option FileError
  | 2 => some notFound
  | 20 => some notDirectory
  | 21 => some isDirectory
  | 36 => some nameTooLong
  | _ => none

end FileError

/-- The names in a path, split at the slashes. -/
def pathNames (path : String) : List (List Char) :=
  go [] path.toList
where
  /-- `name` is the name being read, backwards. -/
  go (name : List Char) : List Char → List (List Char)
    | [] => [name.reverse]
    | c :: cs => if c == '/' then name.reverse :: go [] cs else go (c :: name) cs

/-- The files known by their paths; those of the working directory do not start with a slash. -/
structure Directory where
  files : List (String × String)

namespace Directory

/-- The names that lead to a path; the root counts as an empty name. -/
def location (path : String) : List (List Char) :=
  (pathNames path).take 1 ++ ((pathNames path).drop 1).filter (!·.isEmpty)

/-- Where a walk along a path has come to. -/
inductive Place where
  /-- A directory, by the names that lead to it in reverse. -/
  | directory (names : List (List Char))
  | file (text : String)
  /-- A directory of which nothing is known. -/
  | elsewhere

/-- Goes to what has a name. -/
def enter (d : Directory) : Place → List Char → Except FileError Place
  | .file _, _ => .error .notDirectory
  | place, [] | place, ['.'] => .ok place
  | .directory [[]], ['.', '.'] => .ok (.directory [[]])
  | .directory (_ :: names), ['.', '.'] => .ok (.directory names)
  | _, ['.', '.'] => .ok .elsewhere
  | place, name =>
    if 255 < (String.ofList name).utf8ByteSize then .error .nameTooLong
    else
      match place with
      | .directory names =>
        let wanted := (name :: names).reverse
        match d.files.find? (location ·.1 == wanted) with
        | some (_, text) => .ok (.file text)
        | none =>
          if d.files.any fun (path, _) => wanted.isPrefixOf (location path) then
            .ok (.directory (name :: names))
          else .error .notFound
      | _ => .error .notFound

/-- The contents of the file that a path leads to. -/
def read (d : Directory) (path : String) : Except FileError String := do
  if 4096 ≤ path.utf8ByteSize then throw .nameTooLong
  if path.isEmpty then throw .notFound
  let start := if path.startsWith "/" then Place.directory [[]] else .directory []
  match ← (pathNames path).foldlM d.enter start with
  | .file text => return text
  | _ => throw .isDirectory

end Directory

end ClassicalPlanner.CommandLine
