import StackForge.Chunk
import StackForge.Span

/-!
The stack effect of an instruction: where its inputs come from and where its outputs go. Inputs
that are selected, counted or given by a word of bytecode take that word, their immediate, from
the words behind the opcode, in order.
-/
namespace StackForge

/-- How a parameter reaches its chunk. -/
inductive ParamKind where
  /-- One element at the current stack position. -/
  | single
  /-- The element that an immediate selects. -/
  | indexed (indexChunk : String)
  /-- As many elements as an immediate says. -/
  | variadic (countChunk : String)
  /-- The immediate itself. -/
  | immediate
  deriving DecidableEq, Repr

structure Param where
  chunk : String
  role : Role
  kind : ParamKind
  span : Span
  deriving DecidableEq, Repr

namespace Param

/-- The number of immediates the parameter takes. -/
def immediates (p : Param) : Nat :=
  match p.kind with
  | .single => 0
  | .indexed _ | .variadic _ | .immediate => 1

/-- The number of immediates that parameters take together. -/
def immediatesOf : List Param → Nat
  | [] => 0
  | p :: ps => p.immediates + immediatesOf ps

@[simp] theorem immediatesOf_nil : immediatesOf [] = 0 := rfl

@[simp] theorem immediatesOf_cons (p : Param) (ps : List Param) :
    immediatesOf (p :: ps) = p.immediates + immediatesOf ps := rfl

@[simp] theorem immediatesOf_append (ps qs : List Param) :
    immediatesOf (ps ++ qs) = immediatesOf ps + immediatesOf qs := by
  induction ps with
  | nil => simp
  | cons p ps ih => simp [ih, Nat.add_assoc]

def isVariadic (p : Param) : Bool :=
  match p.kind with
  | .variadic _ => true
  | _ => false

def isIndexed (p : Param) : Bool :=
  match p.kind with
  | .indexed _ => true
  | _ => false

/-- Whether the parameter is one stack element. -/
def isFixed (p : Param) : Bool := p.role = .stack && p.kind = .single

/-- Whether the parameter lives on the stack. -/
def onStack (p : Param) : Bool := p.role = .stack && (p.kind = .single || p.isVariadic)

end Param

structure Signature where
  inputs : List Param
  outputs : List Param
  /-- Whether an arrow is written, even one without outputs. -/
  hasArrow : Bool
  deriving DecidableEq, Repr

namespace Signature

/-- All immediates, those of the inputs first. -/
def immediates (sig : Signature) : Nat := Param.immediatesOf (sig.inputs ++ sig.outputs)

/-- The words an instruction takes in bytecode. -/
def width (sig : Signature) : Nat := 1 + sig.immediates

/-- How far behind the opcode the immediate of an input is, if it has one. -/
def immediateOffset? (sig : Signature) (k : Nat) : Option Nat :=
  match sig.inputs[k]? with
  | none => none
  | some p =>
    if p.immediates = 0 then none
    else some (1 + Param.immediatesOf (sig.inputs.take k))

/-- The stack elements taken apart from counted ones. -/
def fixedPops (sig : Signature) : Nat := (sig.inputs.filter Param.isFixed).length

/-- The stack elements pushed. -/
def pushes (sig : Signature) : Nat := (sig.outputs.filter Param.onStack).length

def isVariadic (sig : Signature) : Bool := sig.inputs.any Param.isVariadic

/-- The stack elements that inputs take with these immediates. -/
def popsOf : List Param → List Int32 → Option Nat
  | [], _ => some 0
  | p :: rest, words =>
    match p.kind with
    | .variadic _ =>
      match words with
      | n :: words =>
        if n < 0 then none else (popsOf rest words).map (n.toInt.toNat + ·)
      | [] => none
    | _ =>
      (popsOf rest (words.drop p.immediates)).map ((if p.isFixed then 1 else 0) + ·)

/-- The stack elements taken with these immediates; none if a count is missing or negative. -/
def popsWith (sig : Signature) (words : List Int32) : Option Nat := popsOf sig.inputs words

end Signature
end StackForge
