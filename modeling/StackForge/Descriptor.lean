import StackForge.Instruction
import StackForge.Power

/-!
The complete description of a machine, from which code is generated and programs are run.
-/
namespace StackForge

/-- The source texts generated for a machine. -/
inductive Artifact where
  | engine | decl | glue
  deriving DecidableEq, Repr

namespace Artifact

def all : List Artifact := [.engine, .decl, .glue]

def text : Artifact → String
  | .engine => "engine"
  | .decl => "decl"
  | .glue => "glue"

end Artifact

/-- Authored code for each artifact, empty where there is none. -/
structure Snippets where
  engine : String := ""
  decl : String := ""
  glue : String := ""
  deriving DecidableEq, Repr

namespace Snippets

def get (s : Snippets) : Artifact → String
  | .engine => s.engine
  | .decl => s.decl
  | .glue => s.glue

def set (s : Snippets) (a : Artifact) (code : String) : Snippets :=
  match a with
  | .engine => { s with engine := code }
  | .decl => { s with decl := code }
  | .glue => { s with glue := code }

@[simp] theorem get_set_self (s : Snippets) (a : Artifact) (code : String) :
    (s.set a code).get a = code := by cases a <;> rfl

end Snippets

/-- What authored code defines for the use of bodies. -/
inductive HelperKind where
  | function (arity : Nat) (fallible : Bool)
  | const
  deriving DecidableEq, Repr

structure Helper where
  name : String
  kind : HelperKind
  deriving DecidableEq, Repr

def Helper.isFallible (h : Helper) : Bool :=
  match h.kind with
  | .function _ fallible => fallible
  | .const => false

/-- Which instruction calls the host, and how. -/
structure HostCall where
  instruction : String
  doc : String
  deriving DecidableEq, Repr

/-- The helper that bodies use to call the host. -/
def callHost : String := "call_host"

/-- The instruction and the helper that raise to an immediate exponent. -/
def powerName : String := "ipow"

structure Descriptor where
  name : String
  storage : Storage
  chunks : List Chunk
  /-- The letters of signatures and the names of their chunks. -/
  letters : List (Char × String)
  instructions : List Instruction
  headers : Snippets
  footers : Snippets
  helpers : List Helper
  power : Option Power.Spec
  hostCall : Option HostCall
  deriving Repr

namespace Descriptor

/-- The chunk that plays a role. -/
def chunk? (d : Descriptor) (role : Role) : Option Chunk :=
  d.chunks.find? fun c => c.role = role

def chunkNamed? (d : Descriptor) (name : String) : Option Chunk :=
  d.chunks.find? fun c => c.name = name

def instruction? (d : Descriptor) (name : String) : Option Instruction :=
  d.instructions.find? fun i => i.name = name

/-- The instruction that a word selects. -/
def byOpcode? (d : Descriptor) (op : Int32) : Option Instruction :=
  if op < 0 then none else d.instructions[op.toInt.toNat]?

def helper? (d : Descriptor) (name : String) : Option Helper :=
  d.helpers.find? fun h => h.name = name

/-- Whether some body calls the host. -/
def callsHost (d : Descriptor) : Bool := d.instructions.any fun i => i.body.calls callHost

end Descriptor

/-- The names that the generated engine uses itself, and the chunks it gets as parameters. -/
def reservedNames (chunks : List Chunk) : List String :=
  ["pc", "sp", "base", "op", "failure", powerName, callHost] ++ chunks.map (·.name)

end StackForge
