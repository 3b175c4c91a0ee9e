import StackForge.Catalog
import StackForge.Emission
import StackForge.Sha256

/-!
From a draft to finished source texts with their fingerprint, and the manifest that lists them.
-/
namespace StackForge

/-- The version of the generator. -/
def version : String := "0.1.1"

/-- The source texts of a machine, with everything known about them. -/
structure Generation where
  descriptor : Descriptor
  emission : Emission
  fingerprint : String

/-- Why nothing is generated. -/
inductive GenerationFault where
  | invalid (interpreter : String) (log : Log)
  | emission (fault : EmissionFault)
  | unknownDomain (name : String)
  deriving DecidableEq, Repr

namespace GenerationFault

def message : GenerationFault → String
  | .invalid interpreter log => s!"descriptor `{interpreter}` is invalid:\n" ++ log.text
  | .emission fault => fault.message
  | .unknownDomain name =>
    s!"unknown domain `{name}` (known: " ++ ", ".intercalate Catalog.names ++ ")"

/-- What is wrong with the draft, if that is the reason. -/
def diagnostics? : GenerationFault → Option Log
  | .invalid _ log => some log
  | .emission _ | .unknownDomain _ => none

end GenerationFault

namespace Emission

/-- The digest over names and contents of all files, each followed by a zero byte. -/
def fingerprint (e : Emission) : String :=
  Sha256.hex (e.files.flatMap fun f => f.name.toUTF8.toList ++ 0 :: f.contents.toUTF8.toList ++ [0])

end Emission

namespace Generation

/-- Generate from a descriptor. -/
def ofDescriptor (d : Descriptor) (c : Conventions) : Except EmissionFault Generation :=
  (Emission.ofDescriptor d c).map fun e => ⟨d, e, e.fingerprint⟩

/-- Check a draft and generate from it. -/
def ofDraft (draft : Draft) (c : Conventions) : Except GenerationFault Generation :=
  match draft.build with
  | (none, log) => .error (.invalid draft.name log)
  | (some d, _) => (ofDescriptor d c).mapError .emission

/-- Generate a machine of the catalog. -/
def ofName (name : String) (c : Conventions) : Except GenerationFault Generation :=
  match Catalog.draft? name with
  | none => .error (.unknownDomain name)
  | some draft => ofDraft draft c

/-- The entry of the manifest. -/
def toJson (g : Generation) : Json :=
  .object
    [("name", .string g.descriptor.name),
     ("fingerprint", .string g.fingerprint),
     ("files", .array (g.emission.files.map fun f => .object
       [("artifact", .string f.artifact.text),
        ("file_name", .string f.name),
        ("sha256", .string (Sha256.ofText f.contents))]))]

/-- The list of all that has been generated. -/
def manifest (gs : List Generation) : Json :=
  .object
    [("generator", .string "stackgen"),
     ("version", .string version),
     ("interpreters", .array (gs.map toJson))]

end Generation

namespace Catalog

/-- The descriptor of a machine of the catalog. -/
def descriptor (name : String) : Except GenerationFault Descriptor :=
  match draft? name with
  | none => .error (.unknownDomain name)
  | some draft =>
    match draft.build with
    | (some d, _) => .ok d
    | (none, log) => .error (.invalid name log)

end Catalog
end StackForge
