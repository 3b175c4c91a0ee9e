/-!
What commands need of a file system, and what can go wrong with it. A path is a text: names with
slashes between them, where a dot is the directory itself and two dots are the one above it.
-/
namespace StackForge

inductive FileFault where
  | notFound
  | alreadyExists
  | notDirectory
  | isDirectory
  /-- A name or a path has too many bytes. -/
  | nameTooLong
  /-- A path contains the character with number zero. -/
  | zeroInName
  | other (text : String)
  deriving DecidableEq, Repr

def FileFault.message : FileFault → String
  | .notFound => "No such file or directory (os error 2)"
  | .alreadyExists => "File exists (os error 17)"
  | .notDirectory => "Not a directory (os error 20)"
  | .isDirectory => "Is a directory (os error 21)"
  | .nameTooLong => "File name too long (os error 36)"
  | .zeroInName => "file name contained an unexpected NUL byte"
  | .other text => text

/-- The path of a file in a directory. An absolute path stays what it is. -/
def joinPath (directory file : String) : String :=
  if directory.isEmpty || file.startsWith "/" then file
  else if directory.endsWith "/" then directory ++ file
  else directory ++ "/" ++ file

/-- The names in a path, dots included. -/
def pathNames (path : String) : List String :=
  ((path.toList.splitOn '/').filter (· ≠ [])).map String.ofList

/-- The names that count for what is above a path: a dot counts only as the first name of a
relative path. -/
def pathStages (path : String) : List String :=
  match pathNames path with
  | [] => []
  | first :: rest =>
    (if first = "." && path.startsWith "/" then [] else [first]) ++ rest.filter (· ≠ ".")

/-- The paths above a path, the nearest one first. -/
def pathsAbove (path : String) : List String :=
  let stages := pathStages path
  let root := if path.startsWith "/" then "/" else ""
  (List.range stages.length).reverse.filterMap fun k =>
    if k = 0 then none else some (root ++ "/".intercalate (stages.take k))

class FileSystem (m : Type → Type) where
  read : String → m (Except FileFault String)
  write : String → String → m (Except FileFault Unit)
  /-- Make one directory in a directory that is there. -/
  makeDirectory : String → m (Except FileFault Unit)
  isDirectory : String → m Bool

namespace FileSystem

variable {m : Type → Type} [Monad m] [FileSystem m]

/-- Make a directory that may be there already. -/
def ensureDirectory (path : String) : m (Except FileFault Unit) := do
  match ← makeDirectory path with
  | .ok () => return .ok ()
  | .error fault => return if ← isDirectory path then .ok () else .error fault

/-- Make the first of some paths, and before it those of the others that it needs. Directories
that have been made stay, whatever happens later. -/
def makeFirst : List String → m (Except FileFault Unit)
  | [] => return .ok ()
  | path :: above => do
    match ← ensureDirectory path with
    | .error .notFound =>
      match ← makeFirst above with
      | .ok () => ensureDirectory path
      | .error fault => return .error fault
    | result => return result

/-- Make a directory and all directories above it; those that exist are left alone. -/
def makeDirectories (path : String) : m (Except FileFault Unit) :=
  if path.isEmpty then return .ok () else makeFirst (path :: pathsAbove path)

end FileSystem
end StackForge
