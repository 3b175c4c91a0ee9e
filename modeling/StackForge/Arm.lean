import StackForge.Emission.Fault

/-!
The cases of a generated engine as data: where an instruction finds its inputs and puts its
outputs. The same arms are written as source text and run by the engine.
-/
namespace StackForge

/-- A number of stack elements: some known beforehand, and the counts of some inputs. -/
structure Extent where
  fixed : Nat := 0
  /-- The inputs whose counts belong to it. -/
  counted : List Nat := []
  deriving DecidableEq, Repr

namespace Extent

def addFixed (e : Extent) : Extent := { e with fixed := e.fixed + 1 }

def addCount (e : Extent) (k : Nat) : Extent := { e with counted := e.counted ++ [k] }

def isEmpty (e : Extent) : Bool := e.fixed = 0 && e.counted.isEmpty

/-- What an input takes from the stack. -/
def add (e : Extent) (k : Nat) (p : Param) : Extent :=
  match p.kind with
  | .variadic _ => e.addCount k
  | .single => if p.role = .stack then e.addFixed else e
  | .indexed _ | .immediate => e

/-- What all inputs take, from the one with number `k` on. -/
def ofInputs : Extent → Nat → List Param → Extent
  | e, _, [] => e
  | e, k, p :: rest => ofInputs (e.add k p) (k + 1) rest

end Extent

/-- Where an input is. Words are counted from the opcode. -/
inductive Access where
  /-- The element of a chunk at some distance above the base. -/
  | element (chunk : Chunk) (offset : Extent)
  /-- The element of a chunk that a word selects. -/
  | selected (chunk : Chunk) (word : Nat)
  | word (word : Nat)
  /-- As many elements as the count of this input says. -/
  | slice (chunk : Chunk) (offset : Extent) (input : Nat)
  deriving DecidableEq, Repr

/-- One case of the engine. -/
structure Arm where
  instruction : Instruction
  /-- Inputs with a count, and the words that hold them. -/
  counts : List (Nat × Nat)
  /-- All that is taken from the stack. -/
  taken : Extent
  inputs : List Access
  /-- The chunk that each output goes to; none if the instruction ends the program. -/
  stores : List String

namespace Arm

/-- Whether the arm needs to know where its elements start. -/
def usesStack (a : Arm) : Bool := !a.taken.isEmpty || 0 < a.instruction.signature.pushes

/-- The word with the immediate of an input. -/
def immediate (i : Instruction) (k : Nat) : Except EmissionFault Nat :=
  match i.signature.immediateOffset? k with
  | some offset => .ok offset
  | none => .error (.noImmediate i.name k)

/-- The words with the counts of variadic inputs. -/
def countsFrom (i : Instruction) : Nat → List Param → Except EmissionFault (List (Nat × Nat))
  | _, [] => .ok []
  | k, p :: rest =>
    if p.isVariadic then do
      let word ← immediate i k
      return (k, word) :: (← countsFrom i (k + 1) rest)
    else countsFrom i (k + 1) rest

/-- Where one input is, above what the inputs before it take. -/
def access (d : Descriptor) (i : Instruction) (k : Nat) (below : Extent) (p : Param) :
    Except EmissionFault Access :=
  match d.chunkNamed? p.chunk with
  | none => .error (.unknownChunk i.name p.chunk)
  | some chunk =>
    match p.kind with
    | .single => .ok (.element chunk below)
    | .indexed _ => (immediate i k).map (.selected chunk ·)
    | .immediate => (immediate i k).map .word
    | .variadic _ => .ok (.slice chunk below k)

def inputsFrom (d : Descriptor) (i : Instruction) :
    Nat → Extent → List Param → Except EmissionFault (List Access)
  | _, _, [] => .ok []
  | k, below, p :: rest => do
    let first ← access d i k below p
    return first :: (← inputsFrom d i (k + 1) (below.add k p) rest)

/-- The chunks that outputs go to. -/
def storesFrom (d : Descriptor) (i : Instruction) :
    Nat → List Param → Except EmissionFault (List String)
  | _, [] => .ok []
  | k, p :: rest =>
    if !p.onStack then .error (.outputOffStack d.name i.name k)
    else
      match d.chunk? .stack with
      | none => .error (.missingChunk d.name .stack)
      | some chunk => (storesFrom d i (k + 1) rest).map (chunk.name :: ·)

/-- The arm of an instruction. -/
def ofInstruction (d : Descriptor) (i : Instruction) : Except EmissionFault Arm := do
  let sig := i.signature
  let counts ← countsFrom i 0 sig.inputs
  let inputs ← inputsFrom d i 0 {} sig.inputs
  let stores ← if i.isTerminal then .ok [] else storesFrom d i 0 sig.outputs
  return { instruction := i, counts, taken := .ofInputs {} 0 sig.inputs, inputs, stores }

end Arm

namespace Descriptor

/-- All arms, in the order of the opcodes. -/
def arms (d : Descriptor) : Except EmissionFault (List Arm) :=
  d.instructions.mapM (Arm.ofInstruction d)

end Descriptor
end StackForge
