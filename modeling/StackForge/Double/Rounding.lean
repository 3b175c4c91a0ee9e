import StackForge.Double

/-!
Correct rounding to a double, in exact natural number arithmetic. Every function here rounds the
exact real result once, to the nearest double, a tie going to the even neighbour.
-/
namespace StackForge.Double

/-- Divide and round to the nearest whole number, a tie going to the even neighbour. -/
def roundDiv (n d : Nat) : Nat :=
  let floor := n / d
  let twice := 2 * (n % d)
  if twice < d then floor
  else if d < twice then floor + 1
  else floor + floor % 2

/-- Round `m * 2 ^ e`. The exponent field and the mantissa are added up, so that a mantissa which
rounds up to the next power of two carries into the exponent. -/
def ofBinary (m : Nat) (e : Int) : Double :=
  if m = 0 then zero
  else
    let unit : Int := max (e + m.log2 - 52) (-1074)
    let mantissa :=
      if unit ≤ e then m * Nat.pow 2 (e - unit).toNat
      else roundDiv m (Nat.pow 2 (unit - e).toNat)
    let pattern := (unit + 1074).toNat * Nat.pow 2 52 + mantissa
    if pattern < 2047 * Nat.pow 2 52 then ⟨UInt64.ofNat pattern⟩ else infinity

/-- Round `n / d * 2 ^ e`. The quotient is taken to at least sixty-six bits, and one more bit
tells whether anything was left over. -/
def ofQuotient (n d : Nat) (e : Int) : Double :=
  let shift := d.log2 + 67 - n.log2
  let scaled := n * Nat.pow 2 shift
  let rest := if scaled % d = 0 then 0 else 1
  ofBinary (2 * (scaled / d) + rest) (e - shift - 1)

/-- Round `m * 10 ^ e`. Exponents whose result is certainly infinite or zero are settled before
any power is formed. -/
def ofDecimal (m : Nat) (e : Int) : Double :=
  if m = 0 then zero
  else if 400 < e then infinity
  else if e + (m.log2 + 1) < -400 then zero
  else if 0 ≤ e then ofBinary (m * Nat.pow 10 e.toNat) 0
  else ofQuotient m (Nat.pow 10 (-e).toNat) 0

/-- The whole part of a square root, settled bit by bit below position `k`. -/
def floorRootFrom (n : Nat) : Nat → Nat → Nat
  | 0, root => root
  | k + 1, root =>
    let next := root + Nat.pow 2 k
    if next * next ≤ n then floorRootFrom n k next else floorRootFrom n k root

/-- The largest number whose square is at most `n`. -/
def floorRoot (n : Nat) : Nat := floorRootFrom n (n.log2 / 2 + 1) 0

/-- Round the square root of `n * 4 ^ e`. -/
def ofRoot (n : Nat) (e : Int) : Double :=
  let shift := 67 - n.log2 / 2
  let scaled := n * Nat.pow 4 shift
  let root := floorRoot scaled
  let rest := if root * root = scaled then 0 else 1
  ofBinary (2 * root + rest) (e - shift - 1)

/-- The length of the hypotenuse over two legs. An infinite leg wins over one that is not a
number. -/
def hypot (x y : Double) : Double :=
  if x.isInfinite || y.isInfinite then infinity
  else if x.isNaN then x.quiet
  else if y.isNaN then y.quiet
  else
    let (m, p) := x.magnitude
    let (n, q) := y.magnitude
    let unit := min p q
    let a := m * Nat.pow 2 (p - unit).toNat
    let b := n * Nat.pow 2 (q - unit).toNat
    ofRoot (a * a + b * b) unit

end StackForge.Double
