import StackForge.Domain

/-!
The domain of real doubles.
-/
namespace StackForge.Domain

/-- `base ^ exponent`; a finite negative base has no power with a finite fractional exponent. -/
def realPower (base exponent : Double) : Except Failure Double :=
  if base.lt .zero && base.isFinite && exponent.isFinite && !exponent.isWhole then
    .error (.domain "pow"
      s!"negative base {base.plainText} raised to fractional power {exponent.plainText}")
  else .ok (base.pow exponent)

/-- The methods without arguments. -/
def realMethod? : String → Option (Double → Double)
  | "sqrt" => some .sqrt
  | "sin" => some .sin
  | "cos" => some .cos
  | "tan" => some .tan
  | "asin" => some .asin
  | "acos" => some .acos
  | "atan" => some .atan
  | "sinh" => some .sinh
  | "cosh" => some .cosh
  | "tanh" => some .tanh
  | "asinh" => some .asinh
  | "acosh" => some .acosh
  | "atanh" => some .atanh
  | "exp" => some .exp
  | "ln" => some .ln
  | "abs" => some .abs
  | "floor" => some .floor
  | "ceil" => some .ceil
  | "recip" => some .recip
  | _ => none

def real : Domain Double where
  name := "rdf"
  zero := .zero
  one := .one
  literal x := x
  binary op x y :=
    match op with
    | .add => x + y
    | .sub => x - y
    | .mul => x * y
    | .div => x / y
  neg x := -x
  method name x args :=
    if name = "powf" then
      match args with
      | [e] => .ok (x.pow e)
      | _ => wrongArity name 1 args.length
    else if args.isEmpty then
      match realMethod? name with
      | some f => .ok (f x)
      | none => .error (.missingHelper s!"f64::{name}")
    else wrongArity name 0 args.length
  helper name args :=
    if name = "rdf_pow" then
      match args with
      | [base, exponent] => realPower base exponent
      | _ => wrongArity name 2 args.length
    else .error (.missingHelper name)
  toHost x := .real x
  ofHost v :=
    match v.toReal? with
    | some x => .ok x
    | none => .error (.conversion v.text "rdf")

end StackForge.Domain
