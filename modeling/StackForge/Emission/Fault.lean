import StackForge.Descriptor

/-!
Why source text cannot be generated. None of this happens to a descriptor that has been checked,
apart from authored code whose margin cannot be removed.
-/
namespace StackForge

inductive EmissionFault where
  /-- An input of an instruction names a chunk that does not exist. -/
  | unknownChunk (instruction chunk : String)
  /-- An input that needs an immediate has none. -/
  | noImmediate (instruction : String) (input : Nat)
  /-- An output does not go to the stack. -/
  | outputOffStack (machine instruction : String) (output : Nat)
  /-- The instruction said to call the host does not exist. -/
  | noHostCall (instruction : String)
  /-- The instruction said to call the host does not select what to call. -/
  | noHostIndex (instruction : String)
  | missingChunk (machine : String) (role : Role)
  /-- The margin of authored code ends inside a character. -/
  | unevenMargin
  deriving DecidableEq, Repr

namespace EmissionFault

/-- Faults that only a descriptor with broken invariants has. -/
def isInternal : EmissionFault → Bool
  | .missingChunk _ _ | .unevenMargin => false
  | _ => true

def message : EmissionFault → String
  | .unknownChunk instruction chunk =>
    s!"internal codegen error: {instruction}: unknown chunk `{chunk}`"
  | .noImmediate instruction input =>
    s!"internal codegen error: {instruction}: input {input} has no bytecode immediate"
  | .outputOffStack machine instruction output =>
    s!"internal codegen error: {machine}::{instruction}: output o{output} is not a stack element"
  | .noHostCall instruction =>
    s!"internal codegen error: host call convention names unknown instruction `{instruction}`"
  | .noHostIndex instruction =>
    s!"internal codegen error: `{instruction}` has no indexed host-constant input"
  | .missingChunk machine role => s!"descriptor `{machine}` has no `{role.text}` chunk"
  | .unevenMargin => "the margin of authored code ends inside a character"

end EmissionFault
end StackForge
