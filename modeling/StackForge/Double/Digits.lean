import StackForge.Double.Rounding

/-!
Decimal digits of a finite double. `shortest` gives the fewest digits that still identify the
double; `significant` gives a chosen number of digits of its exact value.
-/
namespace StackForge

/-- The number `digits * 10 ^ exponent`. -/
structure Decimal where
  digits : Nat
  exponent : Int
  deriving DecidableEq, Repr

namespace Decimal

/-- The digits as text, without a point. -/
def text (d : Decimal) : List Char := Nat.toDigits 10 d.digits

/-- How many digits stand before the decimal point; zero or less when the number is below one. -/
def point (d : Decimal) : Int := d.text.length + d.exponent

/-- Drop zeros at the end, at most `fuel` of them. -/
def trimFrom : Nat → Decimal → Decimal
  | 0, d => d
  | fuel + 1, d =>
    if d.digits % 10 = 0 && d.digits != 0 then trimFrom fuel ⟨d.digits / 10, d.exponent + 1⟩ else d

def trim (d : Decimal) : Decimal := trimFrom d.text.length d

end Decimal

namespace Double

/-- The exponent `p` with `10 ^ p ≤ n / d < 10 ^ (p + 1)`, for positive `n` and `d`: an estimate
from the bit lengths, then moved by one place where it missed. -/
def decimalExponent (n d : Nat) : Int :=
  let atLeast (p : Int) : Bool := d * Nat.pow 10 p.toNat ≤ n * Nat.pow 10 (-p).toNat
  let guess := ((n.log2 : Int) - d.log2) * 30103 / 100000
  if atLeast (guess + 1) then guess + 1 else if atLeast guess then guess else guess - 1

/-- A positive finite double with the bounds of the reals that round to it, all three as
numerators over `den`. -/
structure Interval where
  low : Nat
  value : Nat
  high : Nat
  den : Nat
  /-- Whether the bounds themselves still round to the value. -/
  closed : Bool

/-- The half way points to both neighbours. Below a power of two the lower neighbour is twice as
near. -/
def interval (x : Double) : Interval :=
  let (m, q) := x.magnitude
  let unit := Nat.pow 2 q.toNat
  let near := m = Nat.pow 2 52 && 1 < x.exponentField
  { low := 4 * m * unit - (if near then unit else 2 * unit)
    value := 4 * m * unit
    high := 4 * m * unit + 2 * unit
    den := 4 * Nat.pow 2 (-q).toNat
    closed := m % 2 = 0 }

/-- The first grid of at most `17` digits that has a point rounding to the value. Of two such
points the nearer one is taken, and the upper one when both are equally near. -/
def shortestFrom (i : Interval) (p : Int) : Nat → Nat → Decimal
  | 0, n => ⟨0, p - n⟩
  | fuel + 1, n =>
    let g := p + 1 - n
    let cell := i.den * Nat.pow 10 g.toNat
    let scale := Nat.pow 10 (-g).toNat
    let value := i.value * scale
    let floor := value / cell
    let inside (c : Nat) : Bool :=
      if i.closed then i.low * scale ≤ c * cell && c * cell ≤ i.high * scale
      else i.low * scale < c * cell && c * cell < i.high * scale
    let down := inside floor
    let up := inside (floor + 1)
    if up && (!down || cell ≤ 2 * (value % cell)) then ⟨floor + 1, g⟩
    else if down then ⟨floor, g⟩
    else shortestFrom i p fuel (n + 1)

/-- The fewest digits that read back as this positive finite double. -/
def shortest (x : Double) : Decimal :=
  if x.isZero then ⟨0, 0⟩
  else
    let i := x.interval
    (shortestFrom i (decimalExponent i.value i.den) 17 1).trim

/-- The first `n` significant digits of the exact value, a tie going to the even digit. -/
def significant (x : Double) (n : Nat) : Decimal :=
  if x.isZero then ⟨0, 0⟩
  else
    let i := x.interval
    let g := decimalExponent i.value i.den + 1 - n
    let cell := i.den * Nat.pow 10 g.toNat
    let value := i.value * Nat.pow 10 (-g).toNat
    let digits := roundDiv value cell
    if digits = Nat.pow 10 n then ⟨Nat.pow 10 (n - 1), g + 1⟩ else ⟨digits, g⟩

end Double
end StackForge
