import StackForge.Double.Text

/-!
How values are stored, and what bodies can do with them. There are four kinds of stored values, the
ones that come with the generator; storage that an author describes anew, with a name, a type and
methods of its own, is not covered.
-/
namespace StackForge

/-- A method of a stored value. -/
structure Method where
  name : String
  /-- The number of arguments besides the receiver. -/
  arity : Nat
  deriving DecidableEq, Repr

/-- The kinds of stored values. -/
inductive Storage where
  | double
  | doubleComplex
  /-- References to objects of the host. -/
  | hostObject
  /-- Words of bytecode. -/
  | code
  deriving DecidableEq, Repr

namespace Storage

def name : Storage → String
  | .double => "double"
  | .doubleComplex => "double_complex"
  | .hostObject => "host_object"
  | .code => "code"

/-- The type that generated code uses. -/
def typePath : Storage → String
  | .double => "f64"
  | .doubleComplex => "num_complex::Complex64"
  | .hostObject => "stackgen_eval::host::HostObject"
  | .code => "i32"

/-- Whether the values own state of the host. -/
def isManaged : Storage → Bool
  | .hostObject => true
  | _ => false

/-- The text around the digits of a literal, if bodies can contain literals of this kind. -/
def literalFrame : Storage → Option (String × String)
  | .double => some ("", "_f64")
  | .doubleComplex => some ("Raw::new(", ", 0.0)")
  | _ => none

/-- The frame with a pair of braces in place of the digits. -/
def literalTemplate (s : Storage) : String :=
  match s.literalFrame with
  | some (before, after) => before ++ "\x7b\x7d" ++ after
  | none => ""

/-- A number of a body in generated code. -/
def renderLiteral (s : Storage) (x : Double) : String :=
  match s.literalFrame with
  | some (before, after) => before ++ x.literalText ++ after
  | none => ""

def methods : Storage → List Method
  | .double =>
    (["sqrt", "sin", "cos", "tan", "asin", "acos", "atan", "sinh", "cosh", "tanh", "asinh",
      "acosh", "atanh", "exp", "ln", "abs", "floor", "ceil", "recip"].map (⟨·, 0⟩))
      ++ [⟨"powf", 1⟩]
  | .doubleComplex =>
    (["sqrt", "sin", "cos", "tan", "asin", "acos", "atan", "sinh", "cosh", "tanh", "asinh",
      "acosh", "atanh", "exp", "ln", "inv", "conj"].map (⟨·, 0⟩))
      ++ [⟨"powc", 1⟩]
  | .hostObject => []
  | .code => []

def method? (s : Storage) (name : String) : Option Method :=
  s.methods.find? fun m => m.name = name

end Storage
end StackForge
