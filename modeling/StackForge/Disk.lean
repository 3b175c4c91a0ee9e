import StackForge.FileSystem

/-!
A file system as a value: the files and directories below a root that is always there. A path is
followed from the root, name by name.
-/
namespace StackForge

inductive Node where
  | directory
  | file (text : String)
  deriving DecidableEq, Repr

/-- Every file and directory with the names that lead to it. -/
structure Disk where
  nodes : List (List String × Node) := []
  deriving DecidableEq, Repr

namespace Disk

def find? (d : Disk) (location : List String) : Option Node :=
  if location.isEmpty then some .directory else d.nodes.lookup location

/-- Put a node at its location in place of what is there. -/
def place (location : List String) (node : Node) :
    List (List String × Node) → List (List String × Node)
  | [] => [(location, node)]
  | (other, old) :: rest =>
    if other = location then (location, node) :: rest
    else (other, old) :: place location node rest

def insert (d : Disk) (location : List String) (node : Node) : Disk :=
  ⟨place location node d.nodes⟩

theorem lookup_place_self (location : List String) (node : Node)
    (nodes : List (List String × Node)) :
    (place location node nodes).lookup location = some node := by
  induction nodes with
  | nil => simp [place]
  | cons entry rest ih =>
    obtain ⟨other, old⟩ := entry
    by_cases h : other = location
    · simp [place, h]
    · have h' : (location == other) = false := by simpa using fun e => h e.symm
      simp [place, h, List.lookup_cons, h', ih]

theorem lookup_place_of_ne {location other : List String} (node : Node)
    (nodes : List (List String × Node)) (hne : other ≠ location) :
    (place location node nodes).lookup other = nodes.lookup other := by
  have hfalse : (other == location) = false := by simpa using hne
  induction nodes with
  | nil => simp [place, List.lookup_cons, hfalse]
  | cons entry rest ih =>
    obtain ⟨next, old⟩ := entry
    by_cases h : next = location
    · subst h
      simp [place, List.lookup_cons, hfalse]
    · simp only [place, h, if_false, List.lookup_cons]
      split
      · rfl
      · exact ih

theorem find?_insert_self (d : Disk) {location : List String} (node : Node)
    (h : location ≠ []) : (d.insert location node).find? location = some node := by
  simp [find?, insert, h, lookup_place_self]

theorem find?_insert_of_ne (d : Disk) {location other : List String} (node : Node)
    (h : other ≠ location) : (d.insert location node).find? other = d.find? other := by
  simp [find?, insert, lookup_place_of_ne node d.nodes h]

def erase (d : Disk) (location : List String) : Disk :=
  ⟨d.nodes.filter fun (other, _) => other ≠ location⟩

/-- Whether a path ends in a slash, so that it can only mean a directory. -/
def isClosed (path : String) : Bool := path.endsWith "/"

/-- Names have at most this many bytes. -/
def maxName : Nat := 255

/-- Paths have at most this many bytes. -/
def maxPath : Nat := 4095

/-- Go from a directory to one that is in it or above it. -/
def enter (d : Disk) (here : List String) (name : String) : Except FileFault (List String) :=
  if name = "." then .ok here
  else if name = ".." then .ok here.dropLast
  else if maxName < name.utf8ByteSize then .error .nameTooLong
  else
    match d.find? (here ++ [name]) with
    | some .directory => .ok (here ++ [name])
    | some (.file _) => .error .notDirectory
    | none => .error .notFound

/-- What a path means: a directory that is there, or a place in one where something may be. -/
inductive Destination where
  | directory (location : List String)
  | entry (location : List String)
  deriving DecidableEq, Repr

/-- Follow names from a directory. Everything before the last name has to be a directory. -/
def follow (d : Disk) : List String → List String → Except FileFault Destination
  | here, [] => .ok (.directory here)
  | here, name :: rest =>
    if rest.isEmpty && name ≠ "." && name ≠ ".." then
      if maxName < name.utf8ByteSize then .error .nameTooLong else .ok (.entry (here ++ [name]))
    else
      match d.enter here name with
      | .ok next => d.follow next rest
      | .error fault => .error fault

/-- What a path means; the empty path means nothing. -/
def locate (d : Disk) (path : String) : Except FileFault Destination :=
  if path.toList.contains '\x00' then .error .zeroInName
  else if path.isEmpty then .error .notFound
  else if maxPath < path.utf8ByteSize then .error .nameTooLong
  else d.follow [] (pathNames path)

def read (d : Disk) (path : String) : Except FileFault String := do
  match ← d.locate path with
  | .directory _ => throw .isDirectory
  | .entry location =>
    match d.find? location with
    | none => throw .notFound
    | some .directory => throw .isDirectory
    | some (.file text) => if isClosed path then throw .notDirectory else return text

/-- Make a file or replace its text. -/
def write (d : Disk) (path text : String) : Except FileFault Disk := do
  match ← d.locate path with
  | .directory _ => throw .isDirectory
  | .entry location =>
    if isClosed path || d.find? location = some .directory then throw .isDirectory
    else return d.insert location (.file text)

/-- Make a directory where nothing is. -/
def makeDirectory (d : Disk) (path : String) : Except FileFault Disk := do
  match ← d.locate path with
  | .directory _ => throw .alreadyExists
  | .entry location =>
    if (d.find? location).isSome then throw .alreadyExists
    else return d.insert location .directory

/-- The location of the directory that a path means. -/
def directory (d : Disk) (path : String) : Except FileFault (List String) := do
  match ← d.locate path with
  | .directory location => return location
  | .entry location =>
    match d.find? location with
    | some .directory => return location
    | some (.file _) => throw .notDirectory
    | none => throw .notFound

def isDirectory (d : Disk) (path : String) : Bool := (d.directory path).isOk

/-- Remove a file. -/
def remove (d : Disk) (path : String) : Except FileFault Disk := do
  match ← d.locate path with
  | .directory _ => throw .isDirectory
  | .entry location =>
    match d.find? location with
    | none => throw .notFound
    | some .directory => throw .isDirectory
    | some (.file _) => if isClosed path then throw .notDirectory else return d.erase location

/-- The name of a node that is directly in a directory. -/
def childName? (directory location : List String) : Option String :=
  match location.getLast? with
  | some name => if location.dropLast = directory then some name else none
  | none => none

/-- What is in a directory, in the order of the names. -/
def contents (d : Disk) (path : String) : Except FileFault (List (String × Node)) := do
  let location ← d.directory path
  let children := d.nodes.filterMap fun (other, node) =>
    (childName? location other).map (·, node)
  return children.mergeSort fun x y => x.1 ≤ y.1

/-- Do something to the disk, and leave it alone if that fails. -/
def attempt (change : Disk → Except FileFault Disk) : StateM Disk (Except FileFault Unit) := do
  match change (← get) with
  | .ok d => set d; return .ok ()
  | .error fault => return .error fault

instance : FileSystem (StateM Disk) where
  read path := do return (← get).read path
  write path text := attempt (·.write path text)
  makeDirectory path := attempt (·.makeDirectory path)
  isDirectory path := do return (← get).isDirectory path

end Disk
end StackForge
