import StackForge.Emission.Decl
import StackForge.Emission.Glue

/-!
The three source texts generated for a machine.
-/
namespace StackForge

/-- One generated source text. -/
structure SourceFile where
  artifact : Artifact
  name : String
  contents : String
  deriving DecidableEq, Repr

/-- All source texts of a machine. -/
structure Emission where
  interpreter : String
  files : List SourceFile
  deriving DecidableEq, Repr

namespace Emission

/-- The items of one artifact. -/
def items (d : Descriptor) (c : Conventions) : Artifact → Except EmissionFault (List Layout.Item)
  | .engine => engineItems d c
  | .decl => declItems d
  | .glue => glueItems d c

def file (d : Descriptor) (c : Conventions) (a : Artifact) : Except EmissionFault SourceFile :=
  (items d c a).map fun items => ⟨a, c.fileName a d.name, Layout.textOf items⟩

/-- Generate all source texts; they depend on nothing but descriptor and conventions. -/
def ofDescriptor (d : Descriptor) (c : Conventions) : Except EmissionFault Emission :=
  (Artifact.all.mapM (file d c)).map fun files => ⟨d.name, files⟩

/-- The text of an artifact. -/
def source (e : Emission) (a : Artifact) : String :=
  match e.files.find? fun f => f.artifact = a with
  | some f => f.contents
  | none => ""

end Emission
end StackForge
