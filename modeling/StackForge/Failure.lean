/-!
Why an evaluation ends without a result.
-/
namespace StackForge

inductive Failure where
  /-- A function of the host raised an error. -/
  | hostCall (function message : String)
  /-- A value of the host has no counterpart in the domain. -/
  | conversion (value domain : String)
  | notCallable (object : String)
  /-- An operation has no result for its operands. -/
  | domain (op message : String)
  | unknownOpcode (opcode : Int32) (pc : Nat)
  | missingReturn (pc : Nat)
  | badBytecode (pc : Nat) (message : String)
  | argCount (expected got : Nat)
  | programMismatch (expected found : String)
  /-- Something a body uses is not defined in the domain. -/
  | missingHelper (name : String)
  | malformedBody (instruction message : String)
  deriving DecidableEq, Repr

namespace Failure

def message : Failure → String
  | .hostCall function text => s!"host function `{function}` failed: {text}"
  | .conversion value into => s!"cannot convert `{value}` to a `{into}` value"
  | .notCallable object => s!"`{object}` is not callable"
  | .domain op text => s!"{op}: {text}"
  | .unknownOpcode opcode pc => s!"unknown opcode {opcode.toInt} at pc {pc}"
  | .missingReturn pc => s!"bytecode ended at pc {pc} without a return"
  | .badBytecode pc text => s!"malformed bytecode at pc {pc}: {text}"
  | .argCount expected got => s!"expected {expected} arguments, got {got}"
  | .programMismatch expected found =>
    s!"program was assembled for `{found}`, not `{expected}`"
  | .missingHelper name => s!"no implementation of `{name}`"
  | .malformedBody instruction text => s!"instruction `{instruction}`: {text}"

end Failure
end StackForge
