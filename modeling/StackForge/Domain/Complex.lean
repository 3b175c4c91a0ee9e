import StackForge.Domain

/-!
The domain of complex doubles.
-/
namespace StackForge.Domain

/-- The methods without arguments. -/
def complexMethod? : String → Option (Complex → Complex)
  | "sqrt" => some .sqrt
  | "sin" => some .sin
  | "cos" => some .cos
  | "tan" => some .tan
  | "asin" => some .asin
  | "acos" => some .acos
  | "atan" => some .atan
  | "sinh" => some .sinh
  | "cosh" => some .cosh
  | "tanh" => some .tanh
  | "asinh" => some .asinh
  | "acosh" => some .acosh
  | "atanh" => some .atanh
  | "exp" => some .exp
  | "ln" => some .ln
  | "inv" => some .inv
  | "conj" => some .conj
  | _ => none

def complex : Domain Complex where
  name := "cdf"
  zero := .zero
  one := .one
  literal x := .ofDouble x
  binary op z w :=
    match op with
    | .add => z + w
    | .sub => z - w
    | .mul => z * w
    | .div => z / w
  neg z := -z
  method name z args :=
    if name = "powc" then
      match args with
      | [w] => .ok (z.pow w)
      | _ => wrongArity name 1 args.length
    else if args.isEmpty then
      match complexMethod? name with
      | some f => .ok (f z)
      | none => .error (.missingHelper s!"Complex64::{name}")
    else wrongArity name 0 args.length
  helper name args :=
    if name = "csquare" then
      match args with
      | [z] => .ok z.square
      | _ => wrongArity name 1 args.length
    else if name = "cabs" then
      match args with
      | [z] => .ok (.ofDouble z.norm)
      | _ => wrongArity name 1 args.length
    else .error (.missingHelper name)
  toHost z := .complex z
  ofHost v :=
    match v.toComplex? with
    | some z => .ok z
    | none => .error (.conversion v.text "cdf")

end StackForge.Domain
