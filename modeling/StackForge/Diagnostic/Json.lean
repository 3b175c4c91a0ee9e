import StackForge.Diagnostic.Log
import StackForge.Json.Reader

/-!
Diagnostics as JSON. The place of a diagnostic is spread over four members, and a suggestion that
is absent is not written. Reading ignores members it does not know and refuses a known one that
is given twice.
-/
namespace StackForge

namespace Diagnostic

/-- Codes have sixteen bits. -/
def codeLimit : Nat := 65536

/-- Lines and columns have thirty-two bits. -/
def placeLimit : Nat := 4294967296

def toJson (d : Diagnostic) : Json :=
  .object <|
    [("origin", .string d.origin),
     ("code", .nat d.code.number.toNat),
     ("severity", .string d.severity.text),
     ("category", .string d.category.text),
     ("message", .string d.message),
     ("line", .nat d.span.startLine),
     ("column", .nat d.span.startCol),
     ("end_line", .nat d.span.endLine),
     ("end_column", .nat d.span.endCol),
     ("source_line", .string d.sourceLine)]
    ++ (match d.suggestion with
        | none => []
        | some text => [("suggestion", .string text)])

/-- The value of a member that has to be there exactly once. -/
def required? (key : String) (members : List (String × Json)) : Option Json :=
  match Json.valuesOf key members with
  | [v] => some v
  | _ => none

/-- A whole number below the limit. -/
def below? (limit : Nat) : Json → Option Nat
  | .int (.ofNat n) => if n < limit then some n else none
  | _ => none

/-- A name out of a fixed set: the name itself, or an object that gives it `null`. -/
def tag? : Json → Option String
  | .string s => some s
  | .object [(s, .null)] => some s
  | _ => none

/-- A member that may be absent or `null`. -/
def optionalString? (key : String) (members : List (String × Json)) : Option (Option String) :=
  match Json.valuesOf key members with
  | [] => some none
  | [.null] => some none
  | [.string s] => some (some s)
  | _ => none

def ofMembers? (members : List (String × Json)) : Option Diagnostic := do
  let origin ← (required? "origin" members).bind Json.string?
  let code ← (required? "code" members).bind (below? codeLimit)
  let severity ← ((required? "severity" members).bind tag?).bind Severity.ofText?
  let category ← ((required? "category" members).bind tag?).bind Category.ofText?
  let message ← (required? "message" members).bind Json.string?
  let startLine ← (required? "line" members).bind (below? placeLimit)
  let startCol ← (required? "column" members).bind (below? placeLimit)
  let endLine ← (required? "end_line" members).bind (below? placeLimit)
  let endCol ← (required? "end_column" members).bind (below? placeLimit)
  let sourceLine ← (required? "source_line" members).bind Json.string?
  let suggestion ← optionalString? "suggestion" members
  return {
    origin, severity, category, message, sourceLine, suggestion
    code := ⟨UInt16.ofNat code⟩
    span := ⟨startLine, startCol, endLine, endCol⟩ }

/-- The deepest nesting that is read. -/
def maxDepth : Nat := 127

def ofJson? (v : Json) : Option Diagnostic :=
  match v with
  | .object members =>
    if v.depth ≤ maxDepth && v.isFinite then ofMembers? members else none
  | _ => none

/-- Read one diagnostic from JSON text. -/
def read? (text : String) : Option Diagnostic := (Json.read? text).bind ofJson?

end Diagnostic

namespace Log

def toJson (log : Log) : Json :=
  .object
    [("errors", .array (log.errors.map Diagnostic.toJson)),
     ("warnings", .array (log.warnings.map Diagnostic.toJson)),
     ("total_errors", .nat log.totalErrors),
     ("total_warnings", .nat log.totalWarnings)]

end Log
end StackForge
