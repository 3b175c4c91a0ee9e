import StackForge.Emission.Glue
import StackForge.Machine

/-!
The generated engine as it runs. It takes the arm of each opcode without checking the bytecode: an
access outside of a chunk, and a stack pointer that would become negative, crash it.
-/
namespace StackForge

/-- An engine for one descriptor, with everything that is fixed in its source text. -/
structure Engine (V : Type) where
  domain : Domain V
  descriptor : Descriptor
  arms : List Arm
  /-- The instruction that calls the host, and the word that selects what it calls. -/
  hostCall : Option (Instruction × Nat)

namespace Engine

variable {V : Type}

/-- How a run ends. -/
inductive Outcome (V : Type) where
  | returned (value : V)
  | failed (failure : Failure)
  | crashed

/-- The engine that is generated for a descriptor. -/
def ofDescriptor (D : Domain V) (d : Descriptor) : Except EmissionFault (Engine V) := do
  let arms ← d.arms
  let hostCall ← d.hostCall.mapM (Emission.hostCallSite d)
  return { domain := D, descriptor := d, arms, hostCall }

/-- Powers by the generated function: straight line code for small exponents, otherwise the
loop. -/
def magnitude (D : Domain V) (spec : Power.Spec) (z : V) (n : Nat) : Except Failure V :=
  if n = 0 then .ok D.one
  else if n ≤ spec.inlineMax then
    Power.byPlan D.one (D.binary .mul) (D.square spec.square) z n
  else Power.bySquaring D.one (D.binary .mul) (D.square spec.square) z n

def power (e : Engine V) (z : V) (exponent : Int32) : Except Failure V :=
  match e.descriptor.power with
  | none => .error (.missingHelper powerName)
  | some spec => do
    let size ← magnitude e.domain spec z exponent.toInt.natAbs
    return if exponent < 0 then e.domain.binary .div e.domain.one size else size

/-- A program with its constants converted. -/
structure Wrapper (V : Type) where
  engine : Engine V
  nArgs : Nat
  constants : List V
  hostConstants : List Host.Object
  code : List Int32
  maxStack : Nat

def wrap (e : Engine V) (p : Program) : Except Failure (Wrapper V) := do
  if p.interpreter ≠ e.descriptor.name then
    throw (.programMismatch e.descriptor.name p.interpreter)
  let constants ← p.constants.mapM e.domain.ofHost
  return {
    engine := e, nArgs := p.nArgs, constants, hostConstants := p.hostConstants, code := p.code
    maxStack := p.maxStack }

/-- The registers of a run. -/
structure State (V : Type) where
  stack : List V
  pc : Nat := 0
  sp : Nat := 0

/-- A word as an index. -/
def index? (w : Int32) : Option Nat := if w < 0 then none else some w.toInt.toNat

def orCrash {α : Type} : Option α → Except (Outcome V) α
  | some a => .ok a
  | none => .error .crashed

/-- The size of an extent, with the counts of inputs. -/
def size? (counts : List (Nat × Nat)) (e : Extent) : Option Nat :=
  (e.counted.mapM fun k => counts.lookup k).map fun ns => ns.foldl (· + ·) e.fixed

/-- The values in a chunk. -/
def values? (w : Wrapper V) (args : List V) (s : State V) : Role → Option (List V)
  | .args => some args
  | .constants => some w.constants
  | .stack => some s.stack
  | .hostConstants | .code => none

/-- One element of a chunk. -/
def element? (w : Wrapper V) (args : List V) (s : State V) (role : Role) (index : Nat) :
    Option (Operand V) :=
  match role with
  | .args => args[index]?.map .value
  | .constants => w.constants[index]?.map .value
  | .stack => s.stack[index]?.map .value
  | .hostConstants => w.hostConstants[index]?.map .host
  | .code => w.code[index]?.map .word

/-- What an input reads. -/
def read? (w : Wrapper V) (args : List V) (s : State V) (counts : List (Nat × Nat)) (base : Nat) :
    Access → Option (Operand V)
  | .element chunk offset => do
    element? w args s chunk.role (base + (← size? counts offset))
  | .selected chunk word => do
    element? w args s chunk.role (← index? (← w.code[s.pc + word]?))
  | .word word => (w.code[s.pc + word]?).map .word
  | .slice chunk offset k => do
    let items ← slice? (← values? w args s chunk.role) (base + (← size? counts offset))
      (← counts.lookup k)
    return .slice items

/-- The position below all that an arm takes. -/
def base? (counts : List (Nat × Nat)) (sp : Nat) (a : Arm) : Option Nat :=
  if a.usesStack then do
    let n ← size? counts a.taken
    if n ≤ sp then some (sp - n) else none
  else some sp

/-- Bind the inputs of an arm. Counts are read first, because they say where the inputs are. -/
def bind? (w : Wrapper V) (args : List V) (s : State V) (a : Arm) : Option (Nat × Frame V) := do
  let counts ← a.counts.mapM fun (k, word) => do return (k, ← index? (← w.code[s.pc + word]?))
  let base ← base? counts s.sp a
  let inputs ← a.inputs.mapM (read? w args s counts base)
  return (base, { inputs, outputs := List.replicate a.instruction.signature.outputs.length none })

/-- What the body of an arm can refer to. -/
def context (e : Engine V) (i : Instruction) : BodyContext V where
  domain := e.domain
  instruction := i.name
  helpers := e.descriptor.helpers
  power := e.power

/-- Run one arm. -/
def runArm (w : Wrapper V) (args : List V) (s : State V) (a : Arm) :
    Except (Outcome V) (State V) := do
  let i := a.instruction
  let (base, frame) ← orCrash (bind? w args s a)
  match (w.engine.context i).runBody frame i.body with
  | .error failure => throw (.failed failure)
  | .ok (.ret v) => throw (.returned v)
  | .ok (.outputs values) =>
    let stack ← orCrash (overwrite? s.stack base values)
    return {
      stack
      pc := s.pc + i.width
      sp := if a.usesStack then base + i.signature.pushes else s.sp }

/-- Run the arm that the next word selects. -/
def step (w : Wrapper V) (args : List V) (s : State V) : Except (Outcome V) (State V) :=
  match w.code[s.pc]? with
  | none => .error (.failed (.missingReturn s.pc))
  | some op =>
    match (index? op).bind (w.engine.arms[·]?) with
    | none => .error (.failed (.unknownOpcode op s.pc))
    | some arm => runArm w args s arm

/-- Run at most `n` arms. -/
def run (w : Wrapper V) (args : List V) : Nat → State V → Outcome V
  | 0, s => .failed (.missingReturn s.pc)
  | n + 1, s =>
    match step w args s with
    | .error outcome => outcome
    | .ok s => run w args n s

/-- Evaluate with values of the domain. Each call has its own stack. -/
def Wrapper.callRaw (w : Wrapper V) (args : List V) : Outcome V :=
  if args.length ≠ w.nArgs then .failed (.argCount w.nArgs args.length)
  else
    run w args (w.code.length + 1)
      { stack := List.replicate w.maxStack w.engine.domain.zero }

/-- Evaluate with values of the host. Arguments are converted before they are counted. -/
def Wrapper.call (w : Wrapper V) (args : List Host.Value) : Outcome Host.Value :=
  match args.mapM w.engine.domain.ofHost with
  | .error failure => .failed failure
  | .ok values =>
    match w.callRaw values with
    | .returned v => .returned (w.engine.domain.toHost v)
    | .failed failure => .failed failure
    | .crashed => .crashed

/-- The host objects that at most `n` instructions from a position on refer to. -/
def hostCallsFrom (w : Wrapper V) (site : Instruction × Nat) : Nat → Nat → List Host.Object
  | 0, _ => []
  | n + 1, pc =>
    match w.code[pc]? with
    | none => []
    | some op =>
      match (index? op).bind (w.engine.descriptor.instructions[·]?) with
      | none => []
      | some i =>
        let called :=
          if op = site.1.opcode then
            (w.code[pc + site.2]?.bind index?).bind (w.hostConstants[·]?)
          else none
        called.toList ++ hostCallsFrom w site n (pc + i.width)

/-- What the program calls, in the order of its code. -/
def Wrapper.hostCalls (w : Wrapper V) : List Host.Object :=
  match w.engine.hostCall with
  | none => []
  | some site => hostCallsFrom w site w.code.length 0

end Engine
end StackForge
