import StackForge.Descriptor
import StackForge.Host

/-!
Bytecode programs: a flat stream of words, opcodes each followed by their immediates, and the
pools the immediates point into.

Programs are assembled call by call. Every call is checked against the machine before its words are
added. Equal constants share a place in their pool, and so do equal functions of the host. A pool
entry that was added for a call stays there when the call itself is refused.
-/
namespace StackForge

structure Program where
  /-- The machine the program is for. -/
  interpreter : String
  nArgs : Nat
  code : List Int32
  constants : List Host.Value
  hostConstants : List Host.Object
  /-- The stack depth the code needs. -/
  maxStack : Nat

/-- Why a call is refused. -/
inductive AssemblyFault where
  | unknownInstruction (interpreter name : String)
  | immediateCount (instruction : String) (expected got : Nat)
  | immediateOutOfRange (instruction : String) (value low high : Int)
  | indexOutOfRange (instruction chunk : String) (index : Int32) (size : Nat)
  | stackUnderflow (instruction : String) (needed depth : Nat)
  | afterReturn (instruction : String)
  | unterminated
  deriving DecidableEq, Repr

namespace AssemblyFault

def message : AssemblyFault → String
  | .unknownInstruction interpreter name => s!"`{interpreter}` has no instruction `{name}`"
  | .immediateCount instruction expected got =>
    s!"`{instruction}` takes {expected} immediates, got {got}"
  | .immediateOutOfRange instruction value low high =>
    s!"`{instruction}` immediate {value} is outside {low}..={high}"
  | .indexOutOfRange instruction chunk index size =>
    s!"`{instruction}` indexes {chunk} slot {index.toInt}, but it has {size}"
  | .stackUnderflow instruction needed depth =>
    s!"`{instruction}` pops {needed} values with {depth} on the stack"
  | .afterReturn instruction => s!"`{instruction}` follows the terminal instruction"
  | .unterminated => "program does not end with a terminal instruction"

end AssemblyFault

/-- A program under construction. -/
structure Assembler where
  nArgs : Nat
  code : List Int32 := []
  constants : List Host.Value := []
  hostConstants : List Host.Object := []
  depth : Nat := 0
  maxDepth : Nat := 0
  terminated : Bool := false

namespace Assembler

/-- The assembler after a call, and why the call was refused if it was. -/
abbrev Attempt := Assembler × Option AssemblyFault

def start (nArgs : Nat) : Assembler := { nArgs }

/-- The largest value of a word. -/
def wordMax : Nat := 2147483647

/-- A number as a word. -/
def word (instruction : String) (n : Nat) : Except AssemblyFault Int32 :=
  if n ≤ wordMax then .ok (Int32.ofNat n)
  else .error (.immediateOutOfRange instruction (min n 9223372036854775807) 0 wordMax)

/-- The size of the pool that an indexed parameter selects from. -/
def poolSize? (a : Assembler) : Role → Option Nat
  | .args => some a.nArgs
  | .constants => some a.constants.length
  | .hostConstants => some a.hostConstants.length
  | .stack | .code => none

/-- What is wrong with the immediate of one parameter. -/
def immediateFault? (d : Descriptor) (a : Assembler) (i : Instruction) (p : Param)
    (value : Int32) : Option AssemblyFault :=
  match p.kind with
  | .indexed _ =>
    match a.poolSize? p.role with
    | some size =>
      if value < 0 || size ≤ value.toInt.toNat then
        some (.indexOutOfRange i.name p.chunk value size)
      else none
    | none => none
  | .immediate =>
    match d.power with
    | some spec =>
      if i.name = powerName && !spec.contains value.toInt then
        some (.immediateOutOfRange i.name value.toInt spec.low spec.high)
      else none
    | none => none
  | .variadic _ =>
    if value < 0 then some (.immediateOutOfRange i.name value.toInt 0 wordMax) else none
  | .single => none

/-- What is wrong with the first bad immediate. -/
def immediatesFault? (d : Descriptor) (a : Assembler) (i : Instruction) :
    List Param → List Int32 → Option AssemblyFault
  | [], _ => none
  | p :: rest, words =>
    if p.immediates = 0 then immediatesFault? d a i rest words
    else
      match words with
      | [] => none
      | value :: words =>
        match immediateFault? d a i p value with
        | some fault => some fault
        | none => immediatesFault? d a i rest words

/-- Add an instruction with its immediates. A refused call changes nothing. -/
def emit (d : Descriptor) (name : String) (words : List Int32) (a : Assembler) :
    Except AssemblyFault Assembler :=
  match d.instruction? name with
  | none => .error (.unknownInstruction d.name name)
  | some i =>
    let pops := (i.signature.popsWith words).getD 0
    let depth := a.depth - pops + i.signature.pushes
    if a.terminated then .error (.afterReturn name)
    else if words.length ≠ i.signature.immediates then
      .error (.immediateCount name i.signature.immediates words.length)
    else
      match immediatesFault? d a i i.signature.inputs words with
      | some fault => .error fault
      | none =>
        if a.depth < pops then .error (.stackUnderflow name pops a.depth)
        else
          .ok { a with
            code := a.code ++ i.opcode :: words
            depth
            maxDepth := max a.maxDepth depth
            terminated := i.isTerminal }

/-- Turn a checked step into an attempt that keeps the assembler when it is refused. -/
def attempt (a : Assembler) (step : Assembler → Except AssemblyFault Assembler) : Attempt :=
  match step a with
  | .ok next => (next, none)
  | .error fault => (a, some fault)

def instr (d : Descriptor) (name : String) (words : List Int32) (a : Assembler) : Attempt :=
  a.attempt (emit d name words)

/-- Push an argument. -/
def loadArg (d : Descriptor) (index : Nat) (a : Assembler) : Attempt :=
  a.attempt fun a => do
    let slot ← word "load_arg" index
    emit d "load_arg" [slot] a

/-- The place of a constant in the pool, which grows if it is new. -/
def intern (v : Host.Value) (a : Assembler) : Nat × Assembler :=
  match a.constants.findIdx? (·.same v) with
  | some slot => (slot, a)
  | none => (a.constants.length, { a with constants := a.constants ++ [v] })

/-- The place of an object in the pool of host objects. -/
def internHost (o : Host.Object) (a : Assembler) : Nat × Assembler :=
  match a.hostConstants.findIdx? (·.same o) with
  | some slot => (slot, a)
  | none => (a.hostConstants.length, { a with hostConstants := a.hostConstants ++ [o] })

/-- Push a constant. -/
def loadConst (d : Descriptor) (v : Host.Value) (a : Assembler) : Attempt :=
  let (slot, a) := a.intern v
  a.attempt fun a => do
    let slot ← word "load_const" slot
    emit d "load_const" [slot] a

/-- The instruction that calls the host. -/
def hostInstruction (d : Descriptor) : String :=
  match d.hostCall with
  | some conv => conv.instruction
  | none => "host_call"

/-- Take values from the stack, call a function of the host with them, and push its result. -/
def callHost (d : Descriptor) (f : Host.Function) (n : Nat) (a : Assembler) : Attempt :=
  let (slot, a) := a.internHost (.function f)
  a.attempt fun a => do
    let slot ← word (hostInstruction d) slot
    let count ← word (hostInstruction d) n
    emit d (hostInstruction d) [slot, count] a

/-- The exponent as an immediate, if the machine has a power instruction for it. -/
def powerWord? (d : Descriptor) (k : Int64) : Option Int32 :=
  match d.power with
  | some spec =>
    if spec.contains k.toInt && Power.wordLow ≤ k.toInt && k.toInt ≤ Power.wordHigh
        && (d.instruction? powerName).isSome then
      some (Int32.ofInt k.toInt)
    else none
  | none => none

/-- Raise the top of the stack to a power: by the power instruction where its range allows,
otherwise by a constant and the general power. -/
def power (d : Descriptor) (k : Int64) (a : Assembler) : Attempt :=
  match powerWord? d k with
  | some exponent => a.instr d powerName [exponent]
  | none =>
    match a.loadConst d (.int k) with
    | (a, some fault) => (a, some fault)
    | (a, none) => a.instr d "pow" []

/-- The finished program, which has to end with a terminal instruction. -/
def finish (d : Descriptor) (a : Assembler) : Except AssemblyFault Program :=
  if a.terminated then
    .ok { interpreter := d.name
          nArgs := a.nArgs
          code := a.code
          constants := a.constants
          hostConstants := a.hostConstants
          maxStack := a.maxDepth }
  else .error .unterminated

end Assembler
end StackForge
