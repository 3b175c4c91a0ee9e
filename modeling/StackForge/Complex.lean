import StackForge.Double.Functions
import StackForge.Double.Text

/-!
Complex doubles and their elementary functions, each given by a fixed formula in the real ones.
-/
namespace StackForge

structure Complex where
  re : Double
  im : Double
  deriving DecidableEq, Repr

namespace Complex

def zero : Complex := ⟨.zero, .zero⟩
def one : Complex := ⟨.one, .zero⟩
def i : Complex := ⟨.zero, .one⟩
def ofDouble (x : Double) : Complex := ⟨x, .zero⟩

instance : Add Complex := ⟨fun z w => ⟨z.re + w.re, z.im + w.im⟩⟩
instance : Sub Complex := ⟨fun z w => ⟨z.re - w.re, z.im - w.im⟩⟩
instance : Neg Complex := ⟨fun z => ⟨-z.re, -z.im⟩⟩
instance : Mul Complex :=
  ⟨fun z w => ⟨z.re * w.re - z.im * w.im, z.re * w.im + z.im * w.re⟩⟩
instance : Div Complex :=
  ⟨fun z w =>
    let n := w.re * w.re + w.im * w.im
    ⟨(z.re * w.re + z.im * w.im) / n, (z.im * w.re - z.re * w.im) / n⟩⟩

def two : Complex := one + one

/-- Numeric equality of both parts. -/
def eqv (z w : Complex) : Bool := z.re.eqv w.re && z.im.eqv w.im

/-- Divide both parts by a real number. -/
def unscale (z : Complex) (x : Double) : Complex := ⟨z.re / x, z.im / x⟩

def conj (z : Complex) : Complex := ⟨z.re, -z.im⟩

def inv (z : Complex) : Complex :=
  let n := z.re * z.re + z.im * z.im
  ⟨z.re / n, -z.im / n⟩

def norm (z : Complex) : Double := Double.hypot z.re z.im

def arg (z : Complex) : Double := Double.atan2 z.im z.re

def ofPolar (r t : Double) : Complex := ⟨r * t.cos, r * t.sin⟩

/-- `z * z` with one multiplication fewer than the general product. -/
def square (z : Complex) : Complex :=
  ⟨z.re * z.re - z.im * z.im, (Double.one + Double.one) * z.re * z.im⟩

def ln (z : Complex) : Complex := ⟨z.norm.ln, z.arg⟩

/-- The exponential; an infinite real part or one that is not a number decides by itself where
the polar form would not. -/
def exp (z : Complex) : Complex :=
  let polar := ofPolar z.re.exp z.im
  if z.re.isInfinite then
    if z.re.signBit then
      (if z.im.isFinite then polar else zero)
    else if z.im.isZero || !z.im.isFinite then
      ⟨z.re, if z.im.isInfinite then .nan else z.im⟩
    else polar
  else if z.re.isNaN && z.im.isZero then z
  else polar

/-- The principal root; on both axes it is taken from the real root, and the sign of a zero
imaginary part decides the side of the cut. -/
def sqrt (z : Complex) : Complex :=
  if z.im.isZero then
    if z.re.signBit then
      let y := (-z.re).sqrt
      ⟨.zero, if z.im.signBit then -y else y⟩
    else ⟨z.re.sqrt, z.im⟩
  else if z.re.isZero then
    let x := (z.im.abs / (Double.one + Double.one)).sqrt
    ⟨x, if z.im.signBit then -x else x⟩
  else ofPolar z.norm.sqrt (z.arg / (Double.one + Double.one))

/-- The power; exponent zero always gives one. -/
def pow (z w : Complex) : Complex :=
  if w.eqv zero then one else (w * z.ln).exp

def sin (z : Complex) : Complex := ⟨z.re.sin * z.im.cosh, z.re.cos * z.im.sinh⟩

def cos (z : Complex) : Complex := ⟨z.re.cos * z.im.cosh, -z.re.sin * z.im.sinh⟩

def tan (z : Complex) : Complex :=
  let a := z.re + z.re
  let b := z.im + z.im
  unscale ⟨a.sin, b.sinh⟩ (a.cos + b.cosh)

def sinh (z : Complex) : Complex := ⟨z.re.sinh * z.im.cos, z.re.cosh * z.im.sin⟩

def cosh (z : Complex) : Complex := ⟨z.re.cosh * z.im.cos, z.re.sinh * z.im.sin⟩

def tanh (z : Complex) : Complex :=
  let a := z.re + z.re
  let b := z.im + z.im
  unscale ⟨a.sinh, b.sin⟩ (a.cosh + b.cos)

def asin (z : Complex) : Complex := -i * (sqrt (one - z * z) + i * z).ln

def acos (z : Complex) : Complex := -i * (i * sqrt (one - z * z) + z).ln

/-- The inverse tangent, infinite at the two poles. -/
def atan (z : Complex) : Complex :=
  if z.eqv i then ⟨.zero, .infinity⟩
  else if z.eqv (-i) then ⟨.zero, .neg .infinity⟩
  else ((one + i * z).ln - (one - i * z).ln) / (two * i)

def asinh (z : Complex) : Complex := (z + sqrt (one + z * z)).ln

def acosh (z : Complex) : Complex :=
  two * (sqrt ((z + one) / two) + sqrt ((z - one) / two)).ln

/-- The inverse hyperbolic tangent, infinite at the two poles. -/
def atanh (z : Complex) : Complex :=
  if z.eqv one then ⟨.infinity, .zero⟩
  else if z.eqv (-one) then ⟨.neg .infinity, .zero⟩
  else ((one + z).ln - (one - z).ln) / two

/-- Both parts in plain form with an `i` after the second. A part below zero shows its sign and
then its magnitude; a negative zero is not below zero and keeps its own sign. -/
def text (z : Complex) : String :=
  let part (x : Double) : String :=
    (if x.lt .zero then Double.zero - x else x).plainText
  (if z.re.lt .zero then "-" else "") ++ part z.re
    ++ (if z.im.lt .zero then "-" else "+") ++ part z.im ++ "i"

end Complex
end StackForge
