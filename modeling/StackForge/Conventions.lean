import StackForge.Descriptor
import StackForge.Json.Reader

/-!
The names that the generated sources share: modules, files and the label of the failure exit.
-/
namespace StackForge

structure Conventions where
  /-- The label of the one exit for failures. -/
  errorLabel : String := "error"
  /-- The path of the code that generated sources build on. -/
  runtimePath : String := "stackgen_eval"
  declModule : String := "decl"
  engineModule : String := "engine"
  wrapperModule : String := "wrapper"
  /-- File names, with the name of the machine in place of the marker. -/
  engineFile : String := "interp_\x7bname\x7d.rs"
  declFile : String := "interp_\x7bname\x7d_decl.rs"
  glueFile : String := "wrapper_\x7bname\x7d.rs"
  deriving DecidableEq, Repr

namespace Conventions

/-- The marker for the name of the machine in file names. -/
def nameMarker : String := "\x7bname\x7d"

/-- Put characters in place of each marker, from the front on. The characters of a marker are passed
over one by one. -/
def fillFrom (marker filling : List Char) : Nat → List Char → List Char
  | _, [] => []
  | passed + 1, _ :: cs => fillFrom marker filling passed cs
  | 0, c :: cs =>
    if marker.isPrefixOf (c :: cs) then filling ++ fillFrom marker filling (marker.length - 1) cs
    else c :: fillFrom marker filling 0 cs

/-- A pattern with a text in place of each marker. -/
def fill (marker filling pattern : String) : String :=
  String.ofList (fillFrom marker.toList filling.toList 0 pattern.toList)

def fileName (c : Conventions) (a : Artifact) (machine : String) : String :=
  let pattern :=
    match a with
    | .engine => c.engineFile
    | .decl => c.declFile
    | .glue => c.glueFile
  fill nameMarker machine pattern

def moduleName (c : Conventions) : Artifact → String
  | .engine => c.engineModule
  | .decl => c.declModule
  | .glue => c.wrapperModule

/-- The label as it is written in code. -/
def label (c : Conventions) : String := "'" ++ c.errorLabel

/-- Every convention with the name it has in JSON. -/
def fields (c : Conventions) : List (String × String) :=
  [("error_label", c.errorLabel), ("runtime_crate", c.runtimePath),
   ("decl_module", c.declModule), ("engine_module", c.engineModule),
   ("wrapper_module", c.wrapperModule), ("engine_file", c.engineFile),
   ("decl_file", c.declFile), ("glue_file", c.glueFile)]

/-- The names of all fields in JSON. -/
def fieldNames : List String := ({} : Conventions).fields.map (·.1)

/-- Conventions from the values of all fields in order; those that are not given keep their
default. -/
def ofValues (values : List (Option String)) : Conventions :=
  let default : Conventions := {}
  let value (k : Nat) (d : String) : String := (values[k]?.join).getD d
  { errorLabel := value 0 default.errorLabel
    runtimePath := value 1 default.runtimePath
    declModule := value 2 default.declModule
    engineModule := value 3 default.engineModule
    wrapperModule := value 4 default.wrapperModule
    engineFile := value 5 default.engineFile
    declFile := value 6 default.declFile
    glueFile := value 7 default.glueFile }

/-- The value of a member that may be absent, but not given twice. -/
def member? (members : List (String × Json)) (key : String) : Option (Option String) :=
  match Json.valuesOf key members with
  | [] => some none
  | [.string s] => some (some s)
  | _ => none

/-- Conventions from JSON: an object with any of the fields, or an array with values of the first
fields. -/
def ofJson? : Json → Option Conventions
  | .object members =>
    (fieldNames.mapM (member? members)).map ofValues
  | .array items =>
    if items.length ≤ fieldNames.length then
      (items.mapM Json.string?).map fun values => ofValues (values.map some)
    else none
  | _ => none

/-- Read conventions from JSON text. What other members hold does not count. -/
def read? (text : String) : Option Conventions := (Json.readKnown? fieldNames text).bind ofJson?

def toJson (c : Conventions) : Json := .object (c.fields.map fun (k, v) => (k, .string v))

end Conventions
end StackForge
