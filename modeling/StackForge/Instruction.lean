import StackForge.Expr
import StackForge.Signature

/-!
Instructions of a machine, and their rows in the instruction table.
-/
namespace StackForge

structure Instruction where
  name : String
  /-- The word that selects the instruction: its position in the table. -/
  opcode : Int32
  /-- The signature as it was written. -/
  signatureText : String
  signature : Signature
  /-- The body as it was written. -/
  bodyText : String
  body : Body
  /-- Whether the body may fail. -/
  usesErrorHandler : Bool
  deriving Repr

namespace Instruction

def width (i : Instruction) : Nat := i.signature.width

def isVariadic (i : Instruction) : Bool := i.signature.isVariadic

/-- Whether the instruction ends the program. -/
def isTerminal (i : Instruction) : Bool := i.body.isTerminal

/-- The name of the opcode constant in generated code. -/
def constName (i : Instruction) : String := "OP_" ++ i.name.map Char.toUpper

end Instruction
end StackForge
