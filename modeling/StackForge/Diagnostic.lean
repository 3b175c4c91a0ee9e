import StackForge.Source

/-!
Located diagnostics about an authored description. The code of a diagnostic decides its category;
a diagnostic read from elsewhere may carry any category.
-/
namespace StackForge

inductive Severity where
  | error | warning
  deriving DecidableEq, Repr

/-- What part of a description a diagnostic is about. -/
inductive Category where
  | grammar | arity | chunk | instruction | range | overall
  deriving DecidableEq, Repr

/-- The number of a diagnostic. -/
structure Code where
  number : UInt16
  deriving DecidableEq, Repr

namespace Severity

def text : Severity → String
  | .error => "error"
  | .warning => "warning"

def ofText? : String → Option Severity
  | "error" => some .error
  | "warning" => some .warning
  | _ => none

end Severity

namespace Category

def text : Category → String
  | .grammar => "syntax"
  | .arity => "arity"
  | .chunk => "chunk"
  | .instruction => "instruction"
  | .range => "range"
  | .overall => "structure"

def ofText? : String → Option Category
  | "syntax" => some .grammar
  | "arity" => some .arity
  | "chunk" => some .chunk
  | "instruction" => some .instruction
  | "range" => some .range
  | "structure" => some .overall
  | _ => none

@[simp] theorem ofText?_text (c : Category) : ofText? c.text = some c := by cases c <;> rfl

end Category

@[simp] theorem Severity.ofText?_text (s : Severity) : ofText? s.text = some s := by
  cases s <;> rfl

namespace Code

def unexpectedToken : Code := ⟨100⟩
def unexpectedCharacter : Code := ⟨101⟩
def malformedSignature : Code := ⟨102⟩
def invalidNumber : Code := ⟨103⟩

def inputArity : Code := ⟨200⟩
def outputArity : Code := ⟨201⟩
def assignedTwice : Code := ⟨202⟩
def argumentCount : Code := ⟨203⟩
def countOfFixedInput : Code := ⟨204⟩
def returnWithOutputs : Code := ⟨205⟩

def undeclaredChunk : Code := ⟨300⟩
def duplicateChunk : Code := ⟨301⟩
def missingRole : Code := ⟨302⟩
def duplicateRole : Code := ⟨303⟩
def readOnlyWrite : Code := ⟨304⟩
def invalidAccess : Code := ⟨305⟩
def storageMismatch : Code := ⟨306⟩

def duplicateInstruction : Code := ⟨400⟩
def undeclaredErrorHandler : Code := ⟨401⟩
def unusedErrorHandler : Code := ⟨402⟩
def unknownIdentifier : Code := ⟨403⟩
def unknownMethod : Code := ⟨404⟩
def uncheckedFallibleCall : Code := ⟨405⟩
def tryOnInfallible : Code := ⟨406⟩
def missingReturn : Code := ⟨407⟩
def hostCallConvention : Code := ⟨408⟩
def statementAfterReturn : Code := ⟨409⟩
def shadowedBinding : Code := ⟨410⟩
def invalidAssignment : Code := ⟨411⟩
def expressionNeedsOneOutput : Code := ⟨412⟩

def invalidPowerRange : Code := ⟨500⟩
def powerMismatch : Code := ⟨501⟩

def invalidName : Code := ⟨600⟩
def duplicateHelper : Code := ⟨601⟩

/-- Hundreds give the category; anything outside them is about the structure. -/
def category (c : Code) : Category :=
  match c.number.toNat / 100 with
  | 1 => .grammar
  | 2 => .arity
  | 3 => .chunk
  | 4 => .instruction
  | 5 => .range
  | _ => .overall

def text (c : Code) : String := s!"E{c.number.toNat}"

end Code

structure Diagnostic where
  /-- The element of the description, such as an instruction, that the text belongs to. -/
  origin : String
  code : Code
  severity : Severity
  category : Category
  message : String
  span : Span
  sourceLine : String
  suggestion : Option String
  deriving DecidableEq, Repr

namespace Diagnostic

def make (origin : String) (code : Code) (message : String) (span : Span)
    (sourceLine : String) : Diagnostic :=
  { origin, code, severity := .error, category := code.category, message, span, sourceLine,
    suggestion := none }

/-- A diagnostic about a description as a whole, which has no text to point at. -/
def structural (origin : String) (code : Code) (message : String) : Diagnostic :=
  make origin code message (Span.point 1 1) ""

def withSuggestion (d : Diagnostic) (text : String) : Diagnostic :=
  { d with suggestion := some text }

def asWarning (d : Diagnostic) : Diagnostic := { d with severity := .warning }

def text (d : Diagnostic) : String :=
  s!"{d.origin}:{d.span.text}: {d.code.text} [{d.category.text}] {d.message}"

end Diagnostic

/-- A diagnostic at a place of this text, quoting the line it starts on. -/
def Source.diagnose (src : Source) (code : Code) (message : String) (span : Span) :
    Diagnostic :=
  Diagnostic.make src.origin code message span (src.lineOf span)

end StackForge
