import StackForge.Double.Rounding

/-!
Elementary functions of a double.
-/
namespace StackForge.Double

def sqrt : Double → Double := map Float.sqrt
def sin : Double → Double := map Float.sin
def cos : Double → Double := map Float.cos
def tan : Double → Double := map Float.tan
def asin : Double → Double := map Float.asin
def acos : Double → Double := map Float.acos
def atan : Double → Double := map Float.atan
def sinh : Double → Double := map Float.sinh
def cosh : Double → Double := map Float.cosh
def tanh : Double → Double := map Float.tanh
def atanh : Double → Double := map Float.atanh
def exp : Double → Double := map Float.exp
def ln : Double → Double := map Float.log
def floor : Double → Double := map Float.floor
def ceil : Double → Double := map Float.ceil
def recip (x : Double) : Double := one / x
def pow : Double → Double → Double := map₂ Float.pow
def atan2 : Double → Double → Double := map₂ Float.atan2

def asinh : Double → Double := map Float.asinh

/-- Beyond this one the square of a double is so large that one more or less does not count. -/
def acoshSplit : Double := ofBinary 1 28

/-- The inverse hyperbolic cosine, undefined below one. For large operands it is the logarithm of
twice the operand, taken apart so that nothing overflows. -/
def acosh (x : Double) : Double :=
  if lt x one then nan
  else if lt acoshSplit x then ln x + ln (one + one)
  else ln (x + sqrt (x - one) * sqrt (x + one))

end StackForge.Double
