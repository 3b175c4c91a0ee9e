import StackForge.Double
import StackForge.Span

/-!
Instruction bodies: expressions over inputs, helpers and methods, and blocks of statements. Every
node carries its place in the body text.
-/
namespace StackForge

/-- A name and its place. -/
structure Ident where
  name : String
  span : Span
  deriving DecidableEq, Repr

inductive BinOp where
  | add | sub | mul | div
  deriving DecidableEq, Repr

def BinOp.text : BinOp → String
  | .add => "+"
  | .sub => "-"
  | .mul => "*"
  | .div => "/"

inductive Expr where
  | number (value : Double) (span : Span)
  | var (name : Ident)
  | neg (operand : Expr) (span : Span)
  | binary (op : BinOp) (left right : Expr) (span : Span)
  | call (callee : Ident) (args : List Expr) (span : Span)
  | method (receiver : Expr) (name : Ident) (args : List Expr) (span : Span)
  /-- A call whose failure ends the evaluation. -/
  | attempt (inner : Expr) (span : Span)
  | paren (inner : Expr) (span : Span)
  deriving Repr

namespace Expr

def span : Expr → Span
  | .number _ s | .neg _ s | .binary _ _ _ s | .call _ _ s | .method _ _ _ s | .attempt _ s
  | .paren _ s => s
  | .var name => name.span

/-- Join two operands; the place covers both. -/
def join (op : BinOp) (left right : Expr) : Expr :=
  .binary op left right (left.span.merge right.span)

/-- The expression inside any parentheses. -/
def stripParens : Expr → Expr
  | .paren inner _ => stripParens inner
  | e => e

mutual

/-- The expression and all expressions inside it, outermost first. -/
def nodes : Expr → List Expr
  | e@(.number _ _) => [e]
  | e@(.var _) => [e]
  | e@(.neg x _) => e :: nodes x
  | e@(.binary _ l r _) => e :: (nodes l ++ nodes r)
  | e@(.call _ args _) => e :: nodesOf args
  | e@(.method r _ args _) => e :: (nodes r ++ nodesOf args)
  | e@(.attempt x _) => e :: nodes x
  | e@(.paren x _) => e :: nodes x

def nodesOf : List Expr → List Expr
  | [] => []
  | e :: rest => nodes e ++ nodesOf rest

end

def isAttempt : Expr → Bool
  | .attempt _ _ => true
  | _ => false

/-- Whether a failure mark occurs anywhere. -/
def containsAttempt (e : Expr) : Bool := e.nodes.any isAttempt

/-- Whether the expression is a call of this function. -/
def isCallOf (name : String) : Expr → Bool
  | .call callee _ _ => callee.name = name
  | _ => false

/-- The name, if the expression is just a name. -/
def varName? : Expr → Option String
  | .var id => some id.name
  | _ => none

/-- The names read anywhere in the expression, in order. -/
def varNames (e : Expr) : List String := e.nodes.filterMap varName?

end Expr

inductive Stmt where
  | bind (name : Ident) (value : Expr) (span : Span)
  | assign (target : Ident) (value : Expr) (span : Span)
  | ret (value : Expr) (span : Span)
  deriving Repr

namespace Stmt

def span : Stmt → Span
  | .bind _ _ s | .assign _ _ s | .ret _ s => s

def value : Stmt → Expr
  | .bind _ e _ | .assign _ e _ | .ret e _ => e

def isReturn : Stmt → Bool
  | .ret _ _ => true
  | _ => false

end Stmt

/-- Statements in order. -/
structure Block where
  stmts : List Stmt
  span : Span
  deriving Repr

namespace Block

/-- Whether the last statement returns. -/
def isTerminal (b : Block) : Bool :=
  match b.stmts.getLast? with
  | some s => s.isReturn
  | none => false

/-- Every expression node, in order. -/
def nodes (b : Block) : List Expr := b.stmts.flatMap fun s => s.value.nodes

end Block

/-- The body of an instruction: one expression for the first output, or a block. -/
inductive Body where
  | expression (e : Expr)
  | block (b : Block)
  deriving Repr

namespace Body

def nodes : Body → List Expr
  | .expression e => e.nodes
  | .block b => b.nodes

def span : Body → Span
  | .expression e => e.span
  | .block b => b.span

def containsAttempt (b : Body) : Bool := b.nodes.any Expr.isAttempt

/-- Whether running the body ends the program. -/
def isTerminal : Body → Bool
  | .expression _ => false
  | .block b => b.isTerminal

/-- Whether a function is called anywhere. -/
def calls (b : Body) (name : String) : Bool := b.nodes.any (Expr.isCallOf name)

end Body
end StackForge
