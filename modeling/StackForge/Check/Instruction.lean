import StackForge.Check.Fault
import StackForge.Scope

/-!
Checking one instruction: its parameters reach their chunks in a way the machine can carry out,
and every name, call and method of its body is there and used as declared. Each check gives the
list of what is wrong.
-/
namespace StackForge.Check

/-- What the checks of an instruction need to know about its machine. -/
structure Context where
  storage : Storage
  chunks : List Chunk
  globals : Globals

namespace Context

def roleNamed? (ctx : Context) (name : String) : Option Role :=
  (ctx.chunks.find? fun c => c.name = name).map (·.role)

/-- The names every body sees: helpers, the call of the host if there are host objects, and the
power if it is set up. -/
def make (storage : Storage) (chunks : List Chunk) (helpers : List Helper)
    (power : Option Power.Spec) : Context :=
  let globals := Globals.ofHelpers helpers
  let globals :=
    if chunks.any fun c => c.role = .hostConstants then
      globals.addFunction callHost ⟨2, true⟩
    else globals
  let globals := if power.isSome then globals.addFunction powerName ⟨2, false⟩ else globals
  { storage, chunks, globals := { globals with reserved := reservedNames chunks } }

end Context

/-- What is wrong with an input. -/
def inputFault? (ctx : Context) (k : Nat) (p : Param) : Option CheckFault :=
  match p.kind with
  | .single => if p.role = .stack then none else some (.needsIndex k p.chunk)
  | .indexed index =>
    if ctx.roleNamed? index ≠ some .code then some (.indexNotCode k p.chunk)
    else if p.role = .stack || p.role = .code then some (.cannotIndex k p.chunk)
    else none
  | .variadic count =>
    if ctx.roleNamed? count ≠ some .code then some (.countNotCode k)
    else if p.role ≠ .stack then some (.variadicNotStack k)
    else none
  | .immediate => none

/-- What is wrong with an output. -/
def outputFault? (ctx : Context) (k : Nat) (p : Param) : Option CheckFault :=
  if !ctx.chunks.any fun c => c.name = p.chunk && !c.isReadOnly then
    some (.outputReadOnly k p.chunk)
  else if p.kind ≠ .single then some (.outputNotSingle k)
  else none

/-- The faults of parameters, each at the place of its parameter. -/
def paramFaults (fault? : Nat → Param → Option CheckFault) (src : Source) (params : List Param) :
    List Diagnostic :=
  params.zipIdx.filterMap fun (p, k) => (fault? k p).map (·.located src p.span)

def signature (ctx : Context) (src : Source) (sig : Signature) : List Diagnostic :=
  paramFaults (inputFault? ctx) src sig.inputs ++ paramFaults (outputFault? ctx) src sig.outputs

/-- What is wrong with reading a name. -/
def varFault? (scope : Scope) (name : String) : Option CheckFault :=
  match scope.resolve name with
  | .input _ | .local | .const => none
  | .count k => if scope.isVariadic k then none else some (.countOfFixed k)
  | .output k => if scope.isAssigned k then none else some (.readBeforeAssigned k)
  | .outOfRange (.output k) => some (.outputOutOfRange k)
  | .outOfRange _ => some (.inputOutOfRange name)
  | .unknown => some (.unknownName name scope.visible)

/-- What is wrong with calling a function; `tried` says whether a failure mark follows. The
faults are at the name, the last one at the whole call. -/
def callFaults (scope : Scope) (src : Source) (callee : Ident) (given : Nat) (span : Span)
    (tried : Bool) : List Diagnostic :=
  match scope.function? callee.name with
  | none => [(CheckFault.unknownFunction callee.name).located src callee.span]
  | some f =>
    (if f.arity = given then []
     else [(CheckFault.argumentCount callee.name f.arity given).located src callee.span])
    ++ (if f.fallible && !tried then [(CheckFault.uncheckedCall callee.name).located src span]
        else if !f.fallible && tried then
          [(CheckFault.tryOnFunction callee.name).located src span]
        else [])

/-- What is wrong with calling a method. -/
def methodFaults (ctx : Context) (src : Source) (name : Ident) (given : Nat) (span : Span)
    (tried : Bool) : List Diagnostic :=
  (match ctx.storage.method? name.name with
   | none => [(CheckFault.unknownMethod ctx.storage name.name).located src name.span]
   | some m =>
     if m.arity = given then []
     else [(CheckFault.methodArgumentCount m.name m.arity given).located src name.span])
  ++ (if tried then [(CheckFault.tryOnMethod name.name).located src span] else [])

/-- Whether a failure mark may stand behind an expression, parentheses aside. -/
def isCallLike : Expr → Bool
  | .call _ _ _ | .method _ _ _ _ => true
  | _ => false

mutual

/-- What is wrong with an expression; `tried` says whether a failure mark stands behind it. -/
def expr (ctx : Context) (scope : Scope) (src : Source) (tried : Bool) : Expr → List Diagnostic
  | .number _ _ => []
  | .var id => ((varFault? scope id.name).map (·.located src id.span)).toList
  | .neg x _ => expr ctx scope src false x
  | .binary _ l r _ => expr ctx scope src false l ++ expr ctx scope src false r
  | .paren x _ => expr ctx scope src tried x
  | .call callee args span =>
    callFaults scope src callee args.length span tried ++ exprs ctx scope src args
  | .method receiver name args span =>
    methodFaults ctx src name args.length span tried
      ++ expr ctx scope src false receiver ++ exprs ctx scope src args
  | .attempt inner span =>
    if isCallLike inner.stripParens then expr ctx scope src true inner
    else CheckFault.tryOnOther.located src span :: expr ctx scope src false inner

def exprs (ctx : Context) (scope : Scope) (src : Source) : List Expr → List Diagnostic
  | [] => []
  | e :: rest => expr ctx scope src false e ++ exprs ctx scope src rest

end

/-- What is wrong with the target of a statement, and the names visible after it. -/
def target (scope : Scope) (src : Source) : Stmt → List Diagnostic × Scope
  | .bind name _ _ =>
    if scope.wouldShadow name.name then
      ([(CheckFault.shadows name.name).located src name.span], scope)
    else ([], scope.define name.name)
  | .assign name _ _ =>
    match Binding.classify name.name with
    | .output k =>
      if k < scope.outputs then
        if scope.canAssign k then ([], scope.assign k)
        else ([(CheckFault.assignedTwice k).located src name.span], scope)
      else ([(CheckFault.noSuchOutput k scope.outputs).located src name.span], scope)
    | _ => ([(CheckFault.notAnOutput name.name).located src name.span], scope)
  | .ret _ span =>
    (if 0 < scope.outputs then [CheckFault.returnWithOutputs.located src span] else [], scope)

/-- Statements in order; `returned` says whether an earlier one returns. -/
def stmts (ctx : Context) (src : Source) : Scope → Bool → List Stmt → List Diagnostic × Scope
  | scope, _, [] => ([], scope)
  | scope, returned, s :: rest =>
    let late := if returned then [CheckFault.afterReturn.located src s.span] else []
    let value := expr ctx scope src false s.value
    let (targets, next) := target (scope.noteAll s.value.varNames) src s
    let (others, last) := stmts ctx src next (returned || s.isReturn) rest
    (late ++ value ++ targets ++ others, last)

/-- The statements or the expression of a body, and the names visible at its end. -/
def bodyParts (ctx : Context) (scope : Scope) (src : Source) : Body → List Diagnostic × Scope
  | .expression e =>
    ((if scope.outputs = 1 then []
      else [(CheckFault.needsOneOutput scope.outputs).located src e.span])
      ++ expr ctx scope src false e,
     (scope.noteAll e.varNames).assign 0)
  | .block b => stmts ctx src scope false b.stmts

/-- The declared error handler and the failure marks of a body go together. -/
def handlerFault? (body : Body) (usesErrorHandler : Bool) : Option CheckFault :=
  if body.containsAttempt && !usesErrorHandler then some .undeclaredHandler
  else if !body.containsAttempt && usesErrorHandler then some .unusedHandler
  else none

def body (ctx : Context) (src : Source) (i : Instruction) : List Diagnostic :=
  let (parts, scope) := bodyParts ctx (Scope.ofSignature ctx.globals i.signature) src i.body
  let whole (f : CheckFault) : Diagnostic := f.located src i.body.span
  parts
    ++ (if i.isTerminal then [] else scope.unassigned.map fun k => whole (.neverAssigned k))
    ++ (scope.unused.map fun k => whole (.neverUsed k))
    ++ ((handlerFault? i.body i.usesErrorHandler).map whole).toList

/-- Everything that is wrong with an instruction. -/
def instruction (ctx : Context) (signatureSource bodySource : Source) (i : Instruction) :
    List Diagnostic :=
  signature ctx signatureSource i.signature ++ body ctx bodySource i

end StackForge.Check
