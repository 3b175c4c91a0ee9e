import StackForge.Diagnostic

/-!
Collected diagnostics. Only the first twenty errors are stored, all of them are counted; warnings
are all stored.
-/
namespace StackForge

structure Log where
  errors : List Diagnostic := []
  warnings : List Diagnostic := []
  totalErrors : Nat := 0
  totalWarnings : Nat := 0
  deriving DecidableEq, Repr

namespace Log

/-- The number of errors that are stored. -/
def capacity : Nat := 20

def empty : Log := {}

def hasErrors (log : Log) : Bool := 0 < log.totalErrors

/-- Whether collecting should stop. -/
def isFull (log : Log) : Bool := capacity ≤ log.totalErrors

def push (log : Log) (d : Diagnostic) : Log :=
  match d.severity with
  | .error =>
    { log with
      errors := if log.errors.length < capacity then log.errors ++ [d] else log.errors
      totalErrors := log.totalErrors + 1 }
  | .warning =>
    { log with
      warnings := log.warnings ++ [d]
      totalWarnings := log.totalWarnings + 1 }

def pushAll (log : Log) (ds : List Diagnostic) : Log := ds.foldl push log

def ofList (ds : List Diagnostic) : Log := empty.pushAll ds

/-- Add everything another log holds; its errors that were only counted are counted on. -/
def append (log other : Log) : Log :=
  let withErrors := log.pushAll other.errors
  let unstored := other.totalErrors - other.errors.length
  { withErrors with totalErrors := withErrors.totalErrors + unstored }.pushAll other.warnings

instance : Append Log := ⟨append⟩

/-- Whether a stored error has this code. -/
def contains (log : Log) (code : Code) : Bool := log.errors.any fun d => d.code = code

/-- Whether a warning has this code. -/
def warns (log : Log) (code : Code) : Bool := log.warnings.any fun d => d.code = code

/-- One line per stored error, and one for the number of errors not stored. -/
def text (log : Log) : String :=
  let shown := String.join (log.errors.map fun d => d.text ++ "\n")
  let unstored := log.totalErrors - log.errors.length
  if unstored = 0 then shown else shown ++ s!"... and {unstored} more errors\n"

@[simp] theorem pushAll_nil (log : Log) : log.pushAll [] = log := rfl

@[simp] theorem pushAll_cons (log : Log) (d : Diagnostic) (ds : List Diagnostic) :
    log.pushAll (d :: ds) = (log.push d).pushAll ds := rfl

theorem pushAll_append (log : Log) (ds es : List Diagnostic) :
    log.pushAll (ds ++ es) = (log.pushAll ds).pushAll es := by
  simp [pushAll, List.foldl_append]

end Log
end StackForge
