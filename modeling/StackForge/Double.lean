/-!
Machine doubles, identified with their bit patterns. Two patterns that are not a number may
differ, which a floating point value alone cannot tell; every other operation is the floating
point one.
-/
namespace StackForge

/-- A machine double, given by its sixty-four bits. -/
structure Double where
  bits : UInt64
  deriving DecidableEq, Repr

namespace Double

def toFloat (x : Double) : Float := Float.ofBits x.bits

def ofFloat (x : Float) : Double := ⟨x.toBits⟩

def zero : Double := ⟨0⟩
def one : Double := ⟨0x3ff0000000000000⟩
def infinity : Double := ⟨0x7ff0000000000000⟩

/-- The quiet pattern that constants and undefined real results use. -/
def nan : Double := ⟨0x7ff8000000000000⟩

/-- The pattern an invalid operation on numbers produces. -/
def invalid : Double := ⟨0xfff8000000000000⟩

/-- The sign bit, which zeros and patterns that are not a number carry too. -/
def signBit (x : Double) : Bool := x.bits &&& 0x8000000000000000 != 0

def exponentField (x : Double) : Nat := (x.bits.toNat / Nat.pow 2 52) % 2048

def fractionField (x : Double) : Nat := x.bits.toNat % Nat.pow 2 52

def isNaN (x : Double) : Bool := x.exponentField == 2047 && x.fractionField != 0

def isInfinite (x : Double) : Bool := x.exponentField == 2047 && x.fractionField == 0

def isFinite (x : Double) : Bool := x.exponentField != 2047

def isZero (x : Double) : Bool := x.exponentField == 0 && x.fractionField == 0

/-- Flip the sign bit, whatever the rest of the pattern. -/
def neg (x : Double) : Double := ⟨x.bits ^^^ 0x8000000000000000⟩

/-- Clear the sign bit. -/
def abs (x : Double) : Double := ⟨x.bits &&& 0x7fffffffffffffff⟩

def quiet (x : Double) : Double := ⟨x.bits ||| 0x0008000000000000⟩

/-- Apply a floating point function; a result that is not a number repeats the operand if that
was not one already. -/
def map (f : Float → Float) (x : Double) : Double :=
  let r := f x.toFloat
  if r.isNaN then (if x.isNaN then x.quiet else invalid) else ofFloat r

/-- Apply a binary floating point function; a result that is not a number repeats the first
operand that was not one. -/
def map₂ (f : Float → Float → Float) (x y : Double) : Double :=
  let r := f x.toFloat y.toFloat
  if r.isNaN then
    (if x.isNaN then x.quiet else if y.isNaN then y.quiet else invalid)
  else ofFloat r

instance : Neg Double := ⟨neg⟩
instance : Add Double := ⟨map₂ (· + ·)⟩
instance : Sub Double := ⟨map₂ (· - ·)⟩
instance : Mul Double := ⟨map₂ (· * ·)⟩
instance : Div Double := ⟨map₂ (· / ·)⟩

/-- Numeric order: false as soon as one side is not a number. -/
def lt (x y : Double) : Bool := x.toFloat < y.toFloat

/-- Numeric equality: the two zeros are equal, and nothing equals a pattern that is not a
number. -/
def eqv (x y : Double) : Bool := x.toFloat == y.toFloat

def ofInt64 (n : Int64) : Double := ofFloat n.toFloat

/-- The magnitude of a finite double as `m * 2 ^ q`. -/
def magnitude (x : Double) : Nat × Int :=
  if x.exponentField = 0 then (x.fractionField, -1074)
  else (x.fractionField + Nat.pow 2 52, (x.exponentField : Int) - 1075)

/-- Whether a finite double has no fractional part. -/
def isWhole (x : Double) : Bool := x.toFloat.floor == x.toFloat

@[simp] theorem neg_neg (x : Double) : x.neg.neg = x := by
  simp only [neg, UInt64.xor_assoc, UInt64.xor_self, UInt64.xor_zero]

end Double
end StackForge
