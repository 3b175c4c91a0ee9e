import StackForge.Draft

/-!
The machines that come with the library: real doubles and complex doubles. Both start from the
same loads, the return and the call of the host, and add their arithmetic.
-/
namespace StackForge.Catalog

/-- How calls of the host work. -/
def hostCallDoc : String :=
  "host_call k n: pops n stack values, converts each with raw_to_host, "
    ++ "calls host_constants[k] with them and pushes host_to_raw of the result. "
    ++ "Any failure ends evaluation."

/-- Loads, the return and the call of the host. -/
def core (name : String) (storage : Storage) : Draft :=
  Draft.stackMachine name storage
    |>.add (.block "load_arg" "A[D]->S" "o0 = i0;")
    |>.add (.block "load_const" "C[D]->S" "o0 = i0;")
    |>.add (.block "return" "S" "return i0;")
    |>.add (DraftInstruction.block "host_call" "P[D]S@D->S" "o0 = call_host(i0, i1)?;").mayFail
    |>.withHostCall "host_call" hostCallDoc

/-- The four operations, with the division under two names. -/
def arithmetic : List DraftInstruction :=
  [("add", "+"), ("sub", "-"), ("mul", "*"), ("div", "/"), ("truediv", "/")].map
    fun (name, op) => .operator name "SS->S" op

/-- Instructions named after the method they call. -/
def methods (names : List String) : List DraftInstruction :=
  names.map fun name => .method name "S->S" name

/-- Lines of code, each with its newline, after an empty one. -/
def code (lines : List String) : String := "\n" ++ String.join (lines.map (· ++ "\n"))

def realEngineHeader : String := code
  ["fn rdf_pow(base: Raw, exp: Raw) -> Result<Raw, EvalFailure> \x7b",
   "    if base < 0.0 && base.is_finite() && exp.is_finite() && exp.fract() != 0.0 \x7b",
   "        return Err(EvalFailure::Domain \x7b",
   "            op: \"pow\".to_string(),",
   "            message: format!(\"negative base \x7bbase\x7d raised to fractional power "
     ++ "\x7bexp\x7d\"),",
   "        \x7d);",
   "    \x7d",
   "    Ok(base.powf(exp))",
   "\x7d"]

/-- The two conversions between host values and stack values. -/
def conversions (doc : List String) (read argument variant : String) : String := code <|
  doc ++
  ["pub fn host_to_raw(value: &HostValue) -> Result<Raw, EvalFailure> \x7b",
   s!"    value.{read}().ok_or_else(|| EvalFailure::Conversion \x7b",
   "        value: value.to_string(),",
   "        domain: decl::INTERPRETER.to_string(),",
   "    \x7d)",
   "\x7d",
   "",
   s!"pub fn raw_to_host({argument}: Raw) -> HostValue \x7b",
   s!"    HostValue::{variant}({argument})",
   "\x7d"]

def realGlueHeader : String :=
  conversions
    ["/// Convert a host number to a real double. Complex values with a nonzero",
     "/// imaginary part do not convert."]
    "to_real" "x" "Real"

/-- Real doubles. -/
def real : Draft :=
  core "rdf" .double
    |>.header .engine realEngineHeader
    |>.header .glue realGlueHeader
    |>.addFallible "rdf_pow" 2
    |>.withPower (.full none)
    |>.addAll arithmetic
    |>.add (DraftInstruction.block "pow" "SS->S" "o0 = rdf_pow(i0, i1)?;").mayFail
    |>.add (.call₂ "ipow" "SD->S" "ipow")
    |>.add (.expression "neg" "S->S" "-i0")
    |>.add (.expression "invert" "S->S" "1 / i0")
    |>.add (.method "abs" "S->S" "abs")
    |>.addAll (methods ["sqrt", "floor", "ceil", "sin", "cos", "tan", "asin", "acos", "atan",
        "sinh", "cosh", "tanh", "asinh", "acosh", "atanh", "exp"])
    |>.add (.method "log" "S->S" "ln")

def complexEngineHeader : String := code
  ["fn csquare(z: Raw) -> Raw \x7b",
   "    Raw::new(z.re * z.re - z.im * z.im, 2.0 * z.re * z.im)",
   "\x7d",
   "",
   "fn cabs(z: Raw) -> Raw \x7b",
   "    Raw::new(z.norm(), 0.0)",
   "\x7d"]

def complexGlueHeader : String :=
  conversions ["/// Convert a host number to a complex double."] "to_complex" "z" "Complex"

/-- Complex doubles. -/
def complex : Draft :=
  core "cdf" .doubleComplex
    |>.header .engine complexEngineHeader
    |>.header .glue complexGlueHeader
    |>.addFunction "csquare" 1
    |>.addFunction "cabs" 1
    |>.withPower (.full (some "csquare"))
    |>.addAll arithmetic
    |>.add (.expression "pow" "SS->S" "i0.powc(i1)")
    |>.add (.call₂ "ipow" "SD->S" "ipow")
    |>.add (.expression "neg" "S->S" "-i0")
    |>.add (.expression "invert" "S->S" "1 / i0")
    |>.add (.call₁ "abs" "S->S" "cabs")
    |>.addAll (methods ["sqrt", "sin", "cos", "tan", "asin", "acos", "atan", "sinh", "cosh",
        "tanh", "asinh", "acosh", "atanh", "exp"])
    |>.add (.method "log" "S->S" "ln")

/-- The names of the machines, in the order in which they are generated. -/
def names : List String := ["cdf", "rdf"]

def draft? : String → Option Draft
  | "cdf" => some complex
  | "rdf" => some real
  | _ => none

end StackForge.Catalog
