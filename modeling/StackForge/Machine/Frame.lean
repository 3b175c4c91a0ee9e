import StackForge.Binding
import StackForge.Host

/-!
The values that the names of a body are bound to while it runs.
-/
namespace StackForge

/-- What a name can be bound to. -/
inductive Operand (V : Type) where
  | value (v : V)
  /-- An immediate. -/
  | word (w : Int32)
  /-- The number of elements of a variadic input. -/
  | count (n : Nat)
  | host (o : Host.Object)
  /-- The elements of a variadic input. -/
  | slice (items : List V)

/-- What kind of thing an operand is. -/
def Operand.kind {V : Type} : Operand V → String
  | .value _ => "value"
  | .word _ => "immediate"
  | .count _ => "count"
  | .host _ => "host object"
  | .slice _ => "value slice"

/-- Inputs, outputs and locals of one run of a body. -/
structure Frame (V : Type) where
  inputs : List (Operand V) := []
  outputs : List (Option V)
  locals : List (String × Operand V) := []

namespace Frame

variable {V : Type}

def empty (outputs : Nat) : Frame V := { outputs := List.replicate outputs none }

/-- Bind the next input. -/
def pushInput (f : Frame V) (o : Operand V) : Frame V := { f with inputs := f.inputs ++ [o] }

/-- The number of elements of an input, if it is a slice. -/
def count? (f : Frame V) (k : Nat) : Option Nat :=
  match f.inputs[k]? with
  | some (.slice items) => some items.length
  | _ => none

def get? (f : Frame V) (name : String) : Option (Operand V) :=
  match Binding.classify name with
  | .input k => f.inputs[k]?
  | .count k => (f.count? k).map .count
  | .output k => (f.outputs[k]?.join).map .value
  | .other => f.locals.lookup name

/-- Bind a local name; a name bound later hides one bound before. -/
def define (f : Frame V) (name : String) (o : Operand V) : Frame V :=
  { f with locals := (name, o) :: f.locals }

/-- Assign an output, if there is one with this number. -/
def setOutput? (f : Frame V) (k : Nat) (v : V) : Option (Frame V) :=
  if k < f.outputs.length then some { f with outputs := f.outputs.set k (some v) } else none

/-- All values from some output on, or the number of the first one without a value. -/
def valuesFrom : Nat → List (Option V) → Except Nat (List V)
  | _, [] => .ok []
  | k, none :: _ => .error k
  | k, some v :: rest => (valuesFrom (k + 1) rest).map (v :: ·)

/-- The values of all outputs, or the number of the first one without a value. -/
def results (f : Frame V) : Except Nat (List V) := valuesFrom 0 f.outputs

end Frame
end StackForge
