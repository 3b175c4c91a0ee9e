import StackForge.Descriptor
import StackForge.Json

/-!
The instruction table of a machine as JSON and as a document.
-/
namespace StackForge

/-- The row of an instruction. -/
def Instruction.toJson (i : Instruction) : Json :=
  .object
    [("name", .string i.name),
     ("opcode", .int i.opcode.toInt),
     ("signature", .string i.signatureText),
     ("width", .nat i.width),
     ("pops", .nat i.signature.fixedPops),
     ("pushes", .nat i.signature.pushes),
     ("variadic", .bool i.isVariadic),
     ("uses_error_handler", .bool i.usesErrorHandler),
     ("terminal", .bool i.isTerminal)]

def Power.Spec.rangeJson (s : Power.Spec) : Json := .array [.int s.low, .int s.high]

namespace Reference

/-- The table as JSON. -/
def toJson (d : Descriptor) : Json :=
  .object
    [("interpreter", .string d.name),
     ("storage", .string d.storage.name),
     ("rust_type", .string d.storage.typePath),
     ("ipow_range", .ofOption Power.Spec.rangeJson d.power),
     ("host_call", .ofOption (fun h => .string h.instruction) d.hostCall),
     ("instructions", .array (d.instructions.map Instruction.toJson))]

def jsonText (d : Descriptor) : String := (toJson d).prettyText

def mark (flag : Bool) : String := if flag then "yes" else ""

/-- One line of the document. -/
def row (i : Instruction) : String :=
  "| " ++ " | ".intercalate
    [toString i.opcode.toInt, s!"`{i.name}`", s!"`{i.signatureText}`", toString i.width,
     toString i.signature.fixedPops, toString i.signature.pushes, mark i.isVariadic,
     mark i.usesErrorHandler, mark i.isTerminal] ++ " |\n"

/-- The table as a document. -/
def documentText (d : Descriptor) : String :=
  s!"# `{d.name}` interpreter\n\nStorage: `{d.storage.name}` (`{d.storage.typePath}`)\n\n"
  ++ (match d.power with
      | some s => s!"Integer powers: `ipow` immediates in `{s.low}..={s.high}`\n\n"
      | none => "")
  ++ "| opcode | name | signature | width | pops | pushes | variadic | fails | terminal |\n"
  ++ "|---:|---|---|---:|---:|---:|---|---|---|\n"
  ++ String.join (d.instructions.map row)
  ++ (match d.hostCall with
      | some h => s!"\n## Host callback\n\n`{h.instruction}`: {h.doc}\n"
      | none => "")

end Reference
end StackForge
