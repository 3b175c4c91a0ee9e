import StackForge.Diagnostic.Json
import StackForge.FileSystem
import StackForge.Generation

/-!
Writing generated source texts, and comparing them with what is there. A command that cannot do its
work ends with a fault.
-/
namespace StackForge

/-- Why a command ends without doing its work. -/
inductive CommandFault where
  | generation (fault : GenerationFault)
  | file (path : String) (fault : FileFault)
  /-- The conventions in a file cannot be read. -/
  | conventions (path : String)
  deriving DecidableEq, Repr

namespace CommandFault

def message : CommandFault → String
  | .generation fault => fault.message
  | .file path fault => s!"{path}: {fault.message}"
  | .conventions path => s!"invalid config {path}"

/-- The fault as JSON: the diagnostics of a draft, otherwise the message. -/
def jsonText (f : CommandFault) : String :=
  match f with
  | .generation (.invalid _ log) => log.toJson.prettyText
  | _ => (Json.object [("error", .string f.message)]).compactText

end CommandFault

namespace Command

variable {m : Type → Type} [Monad m] [FileSystem m]

def readFile (path : String) : ExceptT CommandFault m (Except FileFault String) :=
  ExceptT.lift (FileSystem.read path)

/-- Let a fault of the file system end the command. -/
def onFile {α : Type} (path : String) (action : m (Except FileFault α)) :
    ExceptT CommandFault m α := do
  match ← ExceptT.lift action with
  | .ok a => return a
  | .error fault => throw (.file path fault)

/-- The conventions in a file, or the default ones. -/
def loadConventions : Option String → ExceptT CommandFault m Conventions
  | none => return {}
  | some path => do
    let text ← onFile path (FileSystem.read path)
    match Conventions.read? text with
    | some c => return c
    | none => throw (.conventions path)

/-- The machines asked for; all of them if none is named. -/
def selectDomains (requested : List String) : Except CommandFault (List String) :=
  if requested.isEmpty then .ok Catalog.names
  else
    match requested.find? fun name => (Catalog.draft? name).isNone with
    | some name => .error (.generation (.unknownDomain name))
    | none => .ok requested

/-- Generate machines of the catalog. -/
def generate (names : List String) (c : Conventions) : Except CommandFault (List Generation) :=
  names.mapM fun name => (Generation.ofName name c).mapError .generation

inductive FileStatus where
  | written | unchanged
  deriving DecidableEq, Repr

def FileStatus.text : FileStatus → String
  | .written => "written"
  | .unchanged => "unchanged"

/-- Write a file unless it already has this text. -/
def writeIfChanged (path text : String) : ExceptT CommandFault m FileStatus := do
  match ← readFile path with
  | .ok existing => if existing = text then return .unchanged
  | .error .notFound => pure ()
  | .error fault => throw (.file path fault)
  onFile path (FileSystem.write path text)
  return .written

/-- The name of the file that lists what has been generated. -/
def manifestName : String := "manifest.json"

/-- Every generated file with its path and its text. -/
def targets (directory : String) (gs : List Generation) : List (String × String) :=
  gs.flatMap fun g => g.emission.files.map fun f => (joinPath directory f.name, f.contents)

/-- Write files in order. -/
def writeAll : List (String × String) → ExceptT CommandFault m (List (String × FileStatus))
  | [] => return []
  | (path, text) :: rest => do
    let status ← writeIfChanged path text
    return (path, status) :: (← writeAll rest)

/-- The list of all that has been generated, as a file. -/
def manifestText (gs : List Generation) : String := (Generation.manifest gs).prettyText ++ "\n"

/-- Write every source text and then the manifest. -/
def writeArtifacts (directory : String) (gs : List Generation) :
    ExceptT CommandFault m (List (String × FileStatus)) := do
  onFile directory (FileSystem.makeDirectories directory)
  let written ← writeAll (targets directory gs)
  let path := joinPath directory manifestName
  let status ← writeIfChanged path (manifestText gs)
  return written ++ [(path, status)]

inductive Staleness where
  | missing | differs
  deriving DecidableEq, Repr

def Staleness.text : Staleness → String
  | .missing => "missing"
  | .differs => "differs"

/-- The word in messages. -/
def Staleness.label : Staleness → String
  | .missing => "Missing"
  | .differs => "Differs"

/-- What is wrong with a file that should have this text. -/
def staleness? (path text : String) : ExceptT CommandFault m (Option Staleness) := do
  match ← readFile path with
  | .ok existing => return if existing = text then none else some .differs
  | .error .notFound => return some .missing
  | .error fault => throw (.file path fault)

def staleAmong : List (String × String) → ExceptT CommandFault m (List (String × Staleness))
  | [] => return []
  | (path, text) :: rest => do
    let first ← staleness? path text
    let others ← staleAmong rest
    return match first with
      | some reason => (path, reason) :: others
      | none => others

/-- The source texts that are not in the directory as they would be written now. -/
def checkArtifacts (directory : String) (gs : List Generation) :
    ExceptT CommandFault m (List (String × Staleness)) :=
  staleAmong (targets directory gs)

end Command
end StackForge
