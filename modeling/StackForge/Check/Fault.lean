import StackForge.Diagnostic
import StackForge.Expr
import StackForge.Power
import StackForge.Storage
import StackForge.Chunk

/-!
What can be wrong with a description whose texts can be read.
-/
namespace StackForge

inductive CheckFault where
  -- the machine as a whole
  | letterNotCapital (letter : Char) (chunk : String)
  | letterTaken (letter : Char)
  | machineName (name : String)
  | chunkName (name : String)
  | chunkTwice (name : String)
  | chunkStorage (chunk : String) (role : Role) (storage : Storage)
  | roleMissing (role : Role)
  | roleShared (n : Nat) (role : Role)
  | helperName (name : String)
  | helperTwice (name : String)
  | helperReserved (name : String)
  | tooManyInstructions
  | instructionName (name : String)
  | instructionTwice (name : String)
  | noTerminal
  | unreadInstruction
  -- powers
  | powerWithoutSpec
  | powerWithoutInstruction
  | powerRange (low high : Int)
  | powerTable (size : Nat)
  | powerShape (signature : String)
  | powerSquare (helper : String)
  -- calls of the host
  | hostShape (instruction signature : String)
  | hostHandler (instruction : String)
  | hostConvention (instruction : String)
  | hostNeverCalled (instruction : String)
  | hostUnknown (instruction : String)
  -- signatures
  | needsIndex (k : Nat) (chunk : String)
  | indexNotCode (k : Nat) (chunk : String)
  | cannotIndex (k : Nat) (chunk : String)
  | countNotCode (k : Nat)
  | variadicNotStack (k : Nat)
  | outputReadOnly (k : Nat) (chunk : String)
  | outputNotSingle (k : Nat)
  -- bodies
  | needsOneOutput (n : Nat)
  | afterReturn
  | shadows (name : String)
  | assignedTwice (k : Nat)
  | noSuchOutput (k outputs : Nat)
  | notAnOutput (name : String)
  | returnWithOutputs
  | neverAssigned (k : Nat)
  | neverUsed (k : Nat)
  | undeclaredHandler
  | unusedHandler
  -- expressions
  | countOfFixed (k : Nat)
  | readBeforeAssigned (k : Nat)
  | outputOutOfRange (k : Nat)
  | inputOutOfRange (name : String)
  | unknownName (name : String) (visible : List String)
  | unknownFunction (name : String)
  | argumentCount (function : String) (arity given : Nat)
  | uncheckedCall (function : String)
  | tryOnFunction (function : String)
  | unknownMethod (storage : Storage) (name : String)
  | methodArgumentCount (method : String) (arity given : Nat)
  | tryOnMethod (method : String)
  | tryOnOther
  deriving DecidableEq, Repr

namespace CheckFault

def code : CheckFault → Code
  | .letterNotCapital _ _ | .machineName _ | .chunkName _ | .helperName _ | .tooManyInstructions
  | .instructionName _ => .invalidName
  | .letterTaken _ | .chunkTwice _ => .duplicateChunk
  | .chunkStorage _ _ _ => .storageMismatch
  | .roleMissing _ => .missingRole
  | .roleShared _ _ => .duplicateRole
  | .helperTwice _ | .helperReserved _ => .duplicateHelper
  | .instructionTwice _ => .duplicateInstruction
  | .noTerminal => .missingReturn
  | .unreadInstruction => .unexpectedToken
  | .powerRange _ _ | .powerTable _ => .invalidPowerRange
  | .powerWithoutSpec | .powerWithoutInstruction | .powerShape _ | .powerSquare _ =>
    .powerMismatch
  | .hostShape _ _ | .hostHandler _ | .hostConvention _ | .hostNeverCalled _ | .hostUnknown _ =>
    .hostCallConvention
  | .needsIndex _ _ | .indexNotCode _ _ | .cannotIndex _ _ | .countNotCode _
  | .variadicNotStack _ | .outputNotSingle _ => .invalidAccess
  | .outputReadOnly _ _ => .readOnlyWrite
  | .needsOneOutput _ => .expressionNeedsOneOutput
  | .afterReturn => .statementAfterReturn
  | .shadows _ => .shadowedBinding
  | .assignedTwice _ => .assignedTwice
  | .noSuchOutput _ _ | .neverAssigned _ | .outputOutOfRange _ => .outputArity
  | .notAnOutput _ => .invalidAssignment
  | .returnWithOutputs => .returnWithOutputs
  | .neverUsed _ | .inputOutOfRange _ => .inputArity
  | .undeclaredHandler => .undeclaredErrorHandler
  | .unusedHandler => .unusedErrorHandler
  | .countOfFixed _ => .countOfFixedInput
  | .readBeforeAssigned _ | .unknownName _ _ | .unknownFunction _ => .unknownIdentifier
  | .argumentCount _ _ _ | .methodArgumentCount _ _ _ => .argumentCount
  | .uncheckedCall _ => .uncheckedFallibleCall
  | .tryOnFunction _ | .tryOnMethod _ | .tryOnOther => .tryOnInfallible
  | .unknownMethod _ _ => .unknownMethod

def message : CheckFault → String
  | .letterNotCapital letter chunk =>
    s!"chunk letter '{letter}' of `{chunk}` is not an ASCII capital"
  | .letterTaken letter => s!"letter '{letter}' is already bound to a chunk"
  | .machineName name => s!"interpreter name `{name}` must be a lower-case identifier"
  | .chunkName name => s!"chunk name `{name}` is not a valid identifier"
  | .chunkTwice name => s!"chunk `{name}` is declared twice"
  | .chunkStorage chunk role storage =>
    s!"chunk `{chunk}` ({role.text}) cannot hold `{storage.name}` values"
  | .roleMissing role => s!"no chunk plays the `{role.text}` role"
  | .roleShared n role => s!"{n} chunks play the `{role.text}` role"
  | .helperName name => s!"extern `{name}` is not a valid identifier"
  | .helperTwice name => s!"extern `{name}` is declared twice"
  | .helperReserved name => s!"extern `{name}` collides with a name the engine defines"
  | .tooManyInstructions => "too many instructions for an i32 opcode"
  | .instructionName name => s!"instruction name `{name}` must be a lower-case identifier"
  | .instructionTwice name => s!"instruction `{name}` is declared twice"
  | .noTerminal => "no instruction ends evaluation with `return`"
  | .unreadInstruction => "instruction failed to parse"
  | .powerWithoutSpec => "`ipow` instruction declared without an integer-power spec"
  | .powerWithoutInstruction =>
    "integer-power spec given but no `ipow` instruction is declared"
  | .powerRange low high => s!"ipow range ({low}, {high}) must satisfy lo <= hi within i32"
  | .powerTable size =>
    s!"ipow inline table up to {size} exceeds the maximum of {Power.maxInline}"
  | .powerShape signature => s!"`ipow` must have signature `SD->S`, found `{signature}`"
  | .powerSquare helper =>
    s!"square helper `{helper}` must be an infallible extern of arity 1"
  | .hostShape instruction signature =>
    s!"`{instruction}` calls `call_host` but its signature `{signature}` is not `P[D]S@D->S`"
  | .hostHandler instruction =>
    s!"`{instruction}` calls the host but does not use the error handler"
  | .hostConvention instruction =>
    s!"host callback `{instruction}` has no calling convention entry"
  | .hostNeverCalled instruction =>
    s!"`{instruction}` is documented as the host callback but never calls the host"
  | .hostUnknown instruction =>
    s!"host call convention names unknown instruction `{instruction}`"
  | .needsIndex k chunk =>
    s!"input i{k}: `{chunk}` can only be read through a code index, e.g. `X[D]`"
  | .indexNotCode k chunk => s!"input i{k}: index of `{chunk}` must come from the code chunk"
  | .cannotIndex k chunk => s!"input i{k}: `{chunk}` cannot be indexed"
  | .countNotCode k => s!"input i{k}: element count must come from the code chunk"
  | .variadicNotStack k => s!"input i{k}: only the stack can be read variadically"
  | .outputReadOnly k chunk => s!"output o{k} writes to read-only chunk `{chunk}`"
  | .outputNotSingle k => s!"output o{k} must be a single stack element"
  | .needsOneOutput n => s!"expression body needs exactly one output, signature has {n}"
  | .afterReturn => "statement after `return` never runs"
  | .shadows name => s!"`let {name}` hides a name that is already visible"
  | .assignedTwice k => s!"output o{k} is assigned more than once"
  | .noSuchOutput k outputs => s!"o{k} assigned but the signature has {outputs} outputs"
  | .notAnOutput name => s!"only outputs can be assigned, not `{name}`"
  | .returnWithOutputs => "`return` in an instruction that pushes outputs"
  | .neverAssigned k => s!"output o{k} is never assigned"
  | .neverUsed k => s!"input i{k} is never used"
  | .undeclaredHandler => "`?` used but the instruction does not declare the error handler"
  | .unusedHandler => "error handler declared but the body never fails"
  | .countOfFixed k => s!"`n_i{k}` names the count of a fixed-size input"
  | .readBeforeAssigned k => s!"output o{k} is read before it is assigned"
  | .outputOutOfRange k => s!"`o{k}` used but the signature has fewer outputs"
  | .inputOutOfRange name => s!"`{name}` used but the signature has fewer inputs"
  | .unknownName name _ => s!"unknown identifier `{name}`"
  | .unknownFunction name => s!"unknown function `{name}`"
  | .argumentCount function arity given =>
    s!"`{function}` takes {arity} arguments, {given} given"
  | .uncheckedCall function => s!"`{function}` can fail and must be called with `?`"
  | .tryOnFunction function => s!"`?` applied to `{function}`, which cannot fail"
  | .unknownMethod storage name => s!"`{storage.name}` has no method `{name}`"
  | .methodArgumentCount method arity given =>
    s!"`.{method}()` takes {arity} arguments, {given} given"
  | .tryOnMethod method => s!"`?` applied to `.{method}()`, which cannot fail"
  | .tryOnOther => "`?` can only follow a call"

def suggestion : CheckFault → Option String
  | .noTerminal => some "add e.g. `return` with signature `S` and body `return i0;`"
  | .unknownName _ visible =>
    let names := ", ".intercalate visible
    some s!"visible names: {names}"
  | .uncheckedCall function => some s!"{function}(..)?"
  | .unknownMethod storage _ =>
    let names := ", ".intercalate (storage.methods.map (·.name))
    some s!"available: {names}"
  | _ => none

/-- A handler that is never needed does no harm. -/
def severity : CheckFault → Severity
  | .unusedHandler => .warning
  | _ => .error

/-- The diagnostic of a fault at a place of a text. -/
def located (f : CheckFault) (src : Source) (span : Span) : Diagnostic :=
  { src.diagnose f.code f.message span with suggestion := f.suggestion, severity := f.severity }

/-- The diagnostic of a fault that no text shows. -/
def structural (f : CheckFault) (origin : String) : Diagnostic :=
  { Diagnostic.structural origin f.code f.message with
    suggestion := f.suggestion, severity := f.severity }

end CheckFault
end StackForge
