import StackForge.Double.Digits

/-!
The written forms of a double. The plain form never uses an exponent and writes whole numbers
without a point. The literal form always shows a point or an exponent. The scientific form has a
fixed number of digits.
-/
namespace StackForge.Double

/-- Sign and words around the digits of a finite magnitude. -/
def decorate (x : Double) (finite : Double → String) : String :=
  if x.isNaN then "NaN"
  else
    let body := if x.isInfinite then "inf" else finite x.abs
    if x.signBit then "-" ++ body else body

/-- Positional form: whole part, and after a point the fraction if there is one. -/
def positional (d : Decimal) : String × String :=
  let digits := d.text
  let point := d.point
  if point ≤ 0 then
    ("0", String.ofList (List.replicate (-point).toNat '0' ++ digits))
  else if digits.length ≤ point.toNat then
    (String.ofList (digits ++ List.replicate (point.toNat - digits.length) '0'), "")
  else
    (String.ofList (digits.take point.toNat), String.ofList (digits.drop point.toNat))

/-- One digit, the others after a point, and the exponent without plus sign or padding. -/
def exponential (d : Decimal) : String :=
  let digits := d.text
  let lead := String.ofList (digits.take 1)
  let tail := String.ofList (digits.drop 1)
  let mantissa := if tail.isEmpty then lead else lead ++ "." ++ tail
  mantissa ++ "e" ++ toString (d.point - 1)

/-- The shortest digits, positional whatever the size. -/
def plainText (x : Double) : String :=
  x.decorate fun a =>
    if a.isZero then "0"
    else
      let (whole, fraction) := positional a.shortest
      if fraction.isEmpty then whole else whole ++ "." ++ fraction

/-- The shortest digits with at least one after the point; an exponent from `10 ^ 16` on and
below `10 ^ -4`. -/
def literalText (x : Double) : String :=
  x.decorate fun a =>
    if a.isZero then "0.0"
    else
      let d := a.shortest
      if 16 < d.point || d.point < -3 then exponential d
      else
        let (whole, fraction) := positional d
        whole ++ "." ++ (if fraction.isEmpty then "0" else fraction)

/-- Scientific form with `n` significant digits of the exact value. -/
def scientificText (n : Nat) (x : Double) : String :=
  x.decorate fun a =>
    if a.isZero then
      (if n ≤ 1 then "0e0" else "0." ++ String.ofList (List.replicate (n - 1) '0') ++ "e0")
    else exponential (a.significant n)

end StackForge.Double
