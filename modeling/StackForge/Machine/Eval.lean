import StackForge.Descriptor
import StackForge.Domain
import StackForge.Machine.Frame

/-!
Evaluating bodies. Failures propagate by themselves; a failure mark only says where they may
arise.
-/
namespace StackForge

/-- Everything outside of the frame that a body can refer to. -/
structure BodyContext (V : Type) where
  domain : Domain V
  /-- The instruction the body belongs to. -/
  instruction : String
  helpers : List Helper
  /-- How powers with an immediate exponent are computed. -/
  power : V → Int32 → Except Failure V

/-- What a body comes to: values for the outputs, or a value that ends the program. -/
inductive BodyResult (V : Type) where
  | outputs (values : List V)
  | ret (value : V)

namespace BodyContext

variable {V : Type}

def malformed {α : Type} (ctx : BodyContext V) (message : String) : Except Failure α :=
  .error (.malformedBody ctx.instruction message)

/-- The value that an operand is. -/
def asValue (ctx : BodyContext V) : Operand V → Except Failure V
  | .value v => .ok v
  | other => ctx.malformed s!"expected a value, found a {other.kind}"

/-- The values that the operands of a function are. -/
def asValues (ctx : BodyContext V) (function : String) : List (Operand V) → Except Failure (List V)
  | [] => .ok []
  | .value v :: rest => (ctx.asValues function rest).map (v :: ·)
  | other :: _ => ctx.malformed s!"`{function}` expects values, found a {other.kind}"

def isConst (ctx : BodyContext V) (name : String) : Bool :=
  match ctx.helpers.find? fun h => h.name = name with
  | some h => h.kind = .const
  | none => false

/-- The value of a name. -/
def lookup (ctx : BodyContext V) (f : Frame V) (name : String) : Except Failure (Operand V) :=
  match f.get? name with
  | some operand => .ok operand
  | none =>
    if ctx.isConst name then (ctx.domain.constant name).map .value
    else ctx.malformed s!"`{name}` is not bound"

/-- Call a function. Powers and calls of the host take operands that are not values. -/
def call (ctx : BodyContext V) (name : String) (operands : List (Operand V)) :
    Except Failure V :=
  match operands with
  | [.value z, .word k] =>
    if name = powerName then ctx.power z k
    else do ctx.domain.helper name (← ctx.asValues name operands)
  | [.host o, .slice items] =>
    if name = callHost then ctx.domain.callHost o items
    else do ctx.domain.helper name (← ctx.asValues name operands)
  | _ => do ctx.domain.helper name (← ctx.asValues name operands)

mutual

/-- What an expression stands for. -/
def operand (ctx : BodyContext V) (f : Frame V) : Expr → Except Failure (Operand V)
  | .number x _ => .ok (.value (ctx.domain.literal x))
  | .var id => ctx.lookup f id.name
  | .neg x _ => do
    let v ← ctx.asValue (← operand ctx f x)
    return .value (ctx.domain.neg v)
  | .binary op l r _ => do
    let v ← ctx.asValue (← operand ctx f l)
    let w ← ctx.asValue (← operand ctx f r)
    return .value (ctx.domain.binary op v w)
  | .call callee args _ => do
    return .value (← ctx.call callee.name (← operands ctx f args))
  | .method receiver name args _ => do
    let v ← ctx.asValue (← operand ctx f receiver)
    return .value (← ctx.domain.method name.name v (← values ctx f args))
  | .attempt inner _ => operand ctx f inner
  | .paren inner _ => operand ctx f inner

def operands (ctx : BodyContext V) (f : Frame V) : List Expr → Except Failure (List (Operand V))
  | [] => .ok []
  | e :: rest => do
    let first ← operand ctx f e
    return first :: (← operands ctx f rest)

def values (ctx : BodyContext V) (f : Frame V) : List Expr → Except Failure (List V)
  | [] => .ok []
  | e :: rest => do
    let first ← ctx.asValue (← operand ctx f e)
    return first :: (← values ctx f rest)

end

/-- The value of an expression. -/
def value (ctx : BodyContext V) (f : Frame V) (e : Expr) : Except Failure V := do
  ctx.asValue (← ctx.operand f e)

/-- Run statements in order until one returns. -/
def runStmts (ctx : BodyContext V) : Frame V → List Stmt → Except Failure (Frame V × Option V)
  | f, [] => .ok (f, none)
  | f, .bind id e _ :: rest => do
    let v ← ctx.operand f e
    ctx.runStmts (f.define id.name v) rest
  | f, .assign target e _ :: rest => do
    let v ← ctx.value f e
    match Binding.classify target.name with
    | .output k =>
      match f.setOutput? k v with
      | some f => ctx.runStmts f rest
      | none => ctx.malformed s!"cannot assign `{target.name}`"
    | _ => ctx.malformed s!"cannot assign `{target.name}`"
  | f, .ret e _ :: _ => do
    let v ← ctx.value f e
    return (f, some v)

/-- The values of all outputs at the end of a body. -/
def finish (ctx : BodyContext V) (f : Frame V) : Except Failure (BodyResult V) :=
  match f.results with
  | .ok values => .ok (.outputs values)
  | .error k => ctx.malformed s!"o{k} is never assigned"

/-- Run a body. A body that is an expression is the value of the first output. -/
def runBody (ctx : BodyContext V) (f : Frame V) : Body → Except Failure (BodyResult V)
  | .expression e => do
    let v ← ctx.value f e
    ctx.finish ((f.setOutput? 0 v).getD f)
  | .block b => do
    match ← ctx.runStmts f b.stmts with
    | (_, some v) => return .ret v
    | (f, none) => ctx.finish f

end BodyContext
end StackForge
