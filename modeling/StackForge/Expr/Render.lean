import StackForge.Expr
import StackForge.Storage

/-!
Expressions as generated code. Parentheses of the body are dropped, and those that the evaluation
order needs are put back.
-/
namespace StackForge

/-- How tightly an operator binds. -/
def BinOp.level : BinOp → Nat
  | .add | .sub => 1
  | .mul | .div => 2

/-- What surrounds a rendered expression. -/
structure Rendering where
  storage : Storage
  /-- Where a failed attempt goes. -/
  label : String

namespace Expr

def negationLevel : Nat := 3

def postfixLevel : Nat := 4

/-- How tightly the outermost operation of an expression binds. -/
def level : Expr → Nat
  | .binary op _ _ _ => op.level
  | .neg _ _ => negationLevel
  | .paren inner _ => level inner
  | .number _ _ | .var _ | .call _ _ _ | .method _ _ _ _ | .attempt _ _ => postfixLevel

/-- Whether an expression is a negation inside any parentheses. -/
def isNegation (e : Expr) : Bool :=
  match e.stripParens with
  | .neg _ _ => true
  | _ => false

def parenthesize (needed : Bool) (text : String) : String :=
  if needed then "(" ++ text ++ ")" else text

mutual

/-- The expression in generated code. An operand on the right is kept together even where its
operator binds as tightly: the arithmetic is not associative. -/
def render (r : Rendering) : Expr → String
  | .number x _ => r.storage.renderLiteral x
  | .var id => id.name
  | .paren inner _ => render r inner
  | .neg x _ => "-" ++ parenthesize (x.level < negationLevel || x.isNegation) (render r x)
  | .binary op left right _ =>
    parenthesize (left.level < op.level) (render r left) ++ " " ++ op.text ++ " "
      ++ parenthesize (right.level ≤ op.level) (render r right)
  | .call callee args _ => callee.name ++ "(" ++ ", ".intercalate (renderAll r args) ++ ")"
  | .method receiver name args _ =>
    parenthesize (receiver.level < postfixLevel) (render r receiver) ++ "." ++ name.name ++ "("
      ++ ", ".intercalate (renderAll r args) ++ ")"
  | .attempt inner _ =>
    "match " ++ render r inner ++ " \x7b Ok(v) => v, Err(e) => break " ++ r.label ++ " e \x7d"

def renderAll (r : Rendering) : List Expr → List String
  | [] => []
  | e :: rest => render r e :: renderAll r rest

end

end Expr
end StackForge
