import StackForge.Complex

/-!
The host's side: the numbers it works with, the functions it lets a program call, and the objects
a program keeps for it.
-/
namespace StackForge.Host

/-- A number of the host. -/
inductive Value where
  | int (n : Int64)
  | real (x : Double)
  | complex (z : Complex)
  /-- A value that can only be described. -/
  | symbolic (text : String)
  deriving DecidableEq, Repr

namespace Value

/-- The value as a real number, if it has no imaginary part. -/
def toReal? : Value → Option Double
  | .int n => some (.ofInt64 n)
  | .real x => some x
  | .complex z => if z.im.isZero then some z.re else none
  | .symbolic _ => none

def toComplex? : Value → Option Complex
  | .int n => some (.ofDouble (.ofInt64 n))
  | .real x => some (.ofDouble x)
  | .complex z => some z
  | .symbolic _ => none

def text : Value → String
  | .int n => toString n.toInt
  | .real x => x.literalText
  | .complex z => z.text
  | .symbolic s => s

/-- Whether two values are one constant: the same kind and the same bits. -/
def same (v w : Value) : Bool := v = w

end Value

/-- A function of the host. Two functions are one when their numbers agree, whatever they are
called. -/
structure Function where
  number : Nat
  name : String
  /-- The result, or the message of the error it raises. -/
  run : List Value → Except String Value

/-- What a program can keep for the host. -/
inductive Object where
  | function (f : Function)
  | value (v : Value)

namespace Object

def function? : Object → Option Function
  | .function f => some f
  | .value _ => none

def text : Object → String
  | .function f => s!"<function {f.name}>"
  | .value v => v.text

/-- Whether two objects are one: the same function, or the same constant. -/
def same : Object → Object → Bool
  | .function f, .function g => f.number = g.number
  | .value v, .value w => v.same w
  | _, _ => false

end Object
end StackForge.Host
