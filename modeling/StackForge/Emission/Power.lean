import StackForge.Layout
import StackForge.Power

/-!
The power function of a generated engine: straight line code for small exponents, a loop for the
others.
-/
namespace StackForge.Power

open Layout

/-- The square of a variable. -/
def squareText (spec : Spec) (x : String) : String :=
  match spec.square with
  | some f => f ++ "(" ++ x ++ ")"
  | none => x ++ " * " ++ x

/-- The case of one small exponent. -/
def inlineItems (spec : Spec) (n : Nat) : List Item :=
  let p := plan n
  let product := " * ".intercalate (p.factors.map variableName)
  if p.squarings = 0 then [.line s!"{n} => {product},"]
  else
    let squares := (List.range p.squarings).map fun s =>
      let previous := squareText spec (variableName (Nat.pow 2 s))
      Item.line s!"let {variableName (Nat.pow 2 (s + 1))} = {previous};"
    [.enter s!"{n} => \x7b"] ++ squares ++ [.line product, .leave "\x7d"]

/-- The case of all other exponents. -/
def loopItems (spec : Spec) (decl : String) : List Item :=
  [.enter "_ => \x7b",
   .line "let mut acc: Option<Raw> = None;",
   .line "let mut base = z;",
   .line "let mut n = n;",
   .enter "while n != 0 \x7b",
   .enter "if n & 1 == 1 \x7b",
   .enter "acc = Some(match acc \x7b",
   .line "Some(a) => a * base,",
   .line "None => base,",
   .leave "\x7d);",
   .leave "\x7d",
   .line "n >>= 1;",
   .enter "if n != 0 \x7b",
   .line ("base = " ++ squareText spec "base" ++ ";"),
   .leave "\x7d",
   .leave "\x7d",
   .line s!"acc.unwrap_or({decl}::ONE)",
   .leave "\x7d"]

/-- The power function and the one for exponents that are not negative. -/
def items (spec : Spec) (decl : String) : List Item :=
  [.line "/// `z` raised to a bytecode integer exponent.",
   .enter "pub fn ipow(z: Raw, exp: i32) -> Raw \x7b",
   .enter "if exp < 0 \x7b",
   .line s!"{decl}::ONE / ipow_magnitude(z, exp.unsigned_abs())",
   .turn "\x7d else \x7b",
   .line "ipow_magnitude(z, exp.unsigned_abs())",
   .leave "\x7d",
   .leave "\x7d",
   .blank,
   .enter "fn ipow_magnitude(z: Raw, n: u32) -> Raw \x7b",
   .enter "match n \x7b",
   .line s!"0 => {decl}::ONE,"]
  ++ (List.range spec.inlineMax).flatMap (fun k => inlineItems spec (k + 1))
  ++ loopItems spec decl
  ++ [.leave "\x7d", .leave "\x7d"]

end StackForge.Power
