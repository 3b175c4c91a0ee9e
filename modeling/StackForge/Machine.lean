import StackForge.Machine.Eval
import StackForge.Program

/-!
The reference machine. It decodes bytecode and runs the bodies of instructions directly, with
every access checked.
-/
namespace StackForge

/-- A program with its constants and arguments in a domain, ready to run. -/
structure Machine (V : Type) where
  domain : Domain V
  descriptor : Descriptor
  code : List Int32
  args : List V
  constants : List V
  hostConstants : List Host.Object
  maxStack : Nat

/-- How far a run is. -/
inductive Status (V : Type) where
  | ready
  | running
  | returned (value : V)
  | failed (failure : Failure)

def Status.isFinal {V : Type} : Status V → Bool
  | .ready | .running => false
  | .returned _ | .failed _ => true

/-- A run of a machine between two instructions. -/
structure Execution (V : Type) where
  stack : List V
  pc : Nat := 0
  sp : Nat := 0
  status : Status V := .ready
  /-- The instructions completed so far. -/
  steps : Nat := 0

/-- The part of the stack in use, bottom first. -/
def Execution.live {V : Type} (s : Execution V) : List V := s.stack.take s.sp

/-- The result of a run that is over. -/
def Execution.outcome {V : Type} (s : Execution V) : Except Failure V :=
  match s.status with
  | .returned v => .ok v
  | .failed failure => .error failure
  | .ready | .running => .error (.missingReturn s.pc)

/-- Whether a list has at least so many elements. Nothing behind them is looked at. -/
def hasLength {α : Type} (xs : List α) (n : Nat) : Bool := (xs.take n).length = n

@[simp] theorem hasLength_iff {α : Type} {xs : List α} {n : Nat} :
    hasLength xs n = true ↔ n ≤ xs.length := by
  simp only [hasLength, decide_eq_true_eq, List.length_take]
  omega

/-- Elements of a list, if it has all of them. -/
def slice? {α : Type} (xs : List α) (start count : Nat) : Option (List α) :=
  if hasLength xs (start + count) then some ((xs.drop start).take count) else none

/-- Overwrite elements of a list, if it has all of them. -/
def overwrite? {α : Type} (xs : List α) (start : Nat) (new : List α) : Option (List α) :=
  if hasLength xs (start + new.length) then
    some (xs.take start ++ new ++ xs.drop (start + new.length))
  else none

theorem length_of_slice? {α : Type} {xs ys : List α} {start count : Nat}
    (h : slice? xs start count = some ys) : ys.length = count := by
  unfold slice? at h
  split at h
  · rename_i hlen
    rw [hasLength_iff] at hlen
    cases h
    simp
    omega
  · cases h

theorem length_of_overwrite? {α : Type} {xs ys new : List α} {start : Nat}
    (h : overwrite? xs start new = some ys) : ys.length = xs.length := by
  unfold overwrite? at h
  split at h
  · rename_i hlen
    rw [hasLength_iff] at hlen
    cases h
    simp
    omega
  · cases h

namespace Machine

variable {V : Type}

/-- A domain can only run descriptors of its own name. -/
def accepts (D : Domain V) (d : Descriptor) : Except Failure Unit :=
  if d.name = D.name then .ok () else .error (.programMismatch D.name d.name)

/-- Convert arguments and constants. -/
def load (D : Domain V) (d : Descriptor) (p : Program) (args : List Host.Value) :
    Except Failure (Machine V) := do
  if p.interpreter ≠ d.name then throw (.programMismatch d.name p.interpreter)
  if args.length ≠ p.nArgs then throw (.argCount p.nArgs args.length)
  let args ← args.mapM D.ofHost
  let constants ← p.constants.mapM D.ofHost
  return {
    domain := D, descriptor := d, code := p.code, args, constants
    hostConstants := p.hostConstants, maxStack := p.maxStack }

def start (m : Machine V) : Execution V :=
  { stack := List.replicate m.maxStack m.domain.zero }

def bad {α : Type} (pc : Nat) (message : String) : Except Failure α :=
  .error (.badBytecode pc message)

/-- The element of a pool that an immediate selects. -/
def indexed? (m : Machine V) (role : Role) (index : Nat) : Option (Operand V) :=
  match role with
  | .args => m.args[index]?.map .value
  | .constants => m.constants[index]?.map .value
  | .hostConstants => m.hostConstants[index]?.map .host
  | .stack | .code => none

/-- Bind inputs from left to right. Immediates are taken in order and stack elements from `offset`
on. -/
def bind (m : Machine V) (stack : List V) (pc : Nat) :
    List Param → List Int32 → Nat → Frame V → Except Failure (Frame V)
  | [], _, _, f => .ok f
  | p :: rest, words, offset, f =>
    match p.kind, words with
    | .single, words =>
      match stack[offset]? with
      | some v => m.bind stack pc rest words (offset + 1) (f.pushInput (.value v))
      | none => bad pc "stack read out of range"
    | .indexed _, w :: words =>
      match if w < 0 then none else m.indexed? p.role w.toInt.toNat with
      | some operand => m.bind stack pc rest words offset (f.pushInput operand)
      | none => bad pc s!"{p.role.text} index {w.toInt} out of range"
    | .immediate, w :: words => m.bind stack pc rest words offset (f.pushInput (.word w))
    | .variadic _, w :: words =>
      if w < 0 then bad pc "negative operand count"
      else
        match slice? stack offset w.toInt.toNat with
        | some items =>
          m.bind stack pc rest words (offset + w.toInt.toNat) (f.pushInput (.slice items))
        | none => bad pc "stack read out of range"
    | _, [] => bad pc "missing immediate"

/-- Powers as the descriptor describes them. -/
def power (m : Machine V) (z : V) (exponent : Int32) : Except Failure V :=
  match m.descriptor.power with
  | some spec => m.domain.power spec z exponent
  | none => .error (.missingHelper powerName)

/-- What the bodies of an instruction can refer to. -/
def context (m : Machine V) (i : Instruction) : BodyContext V where
  domain := m.domain
  instruction := i.name
  helpers := m.descriptor.helpers
  power := m.power

/-- An instruction found at a position of the code, with its immediates. -/
structure Decoded where
  instruction : Instruction
  words : List Int32

/-- The instruction at a position. -/
def decode (m : Machine V) (pc : Nat) : Except Failure Decoded :=
  match m.code[pc]? with
  | none => .error (.missingReturn pc)
  | some op =>
    match m.descriptor.byOpcode? op with
    | none => .error (.unknownOpcode op pc)
    | some i =>
      match slice? m.code (pc + 1) (i.width - 1) with
      | none => bad pc s!"`{i.name}` is truncated"
      | some words => .ok ⟨i, words⟩

/-- The stack pointer below all that an instruction takes. -/
def base (pc sp : Nat) (d : Decoded) : Except Failure Nat :=
  match d.instruction.signature.popsWith d.words with
  | none => bad pc "negative operand count"
  | some n =>
    if n ≤ sp then .ok (sp - n) else bad pc s!"`{d.instruction.name}` underflows the stack"

/-- An instruction with its inputs taken and its body done. -/
structure Dispatched (V : Type) where
  instruction : Instruction
  base : Nat
  result : BodyResult V

/-- Take the inputs of the next instruction and run its body. -/
def dispatch (m : Machine V) (s : Execution V) : Except Failure (Dispatched V) := do
  let d ← m.decode s.pc
  let i := d.instruction
  let base ← base s.pc s.sp d
  let frame ← m.bind s.stack s.pc i.signature.inputs d.words base
    (.empty i.signature.outputs.length)
  let result ← (m.context i).runBody frame i.body
  return ⟨i, base, result⟩

/-- Store what an instruction came to. -/
def complete (s : Execution V) (d : Dispatched V) : Execution V :=
  let s := { s with steps := s.steps + 1 }
  match d.result with
  | .ret v => { s with status := .returned v }
  | .outputs values =>
    match overwrite? s.stack d.base values with
    | none =>
      let message := s!"`{d.instruction.name}` overflows the stack"
      { s with status := .failed (.badBytecode s.pc message) }
    | some stack =>
      { s with
        stack
        sp := d.base + d.instruction.signature.pushes
        pc := s.pc + d.instruction.width
        status := .running }

/-- Run one instruction. A run that is over stays as it is. -/
def step (m : Machine V) (s : Execution V) : Execution V :=
  if s.status.isFinal then s
  else
    match m.dispatch s with
    | .error failure => { s with status := .failed failure }
    | .ok d => complete s d

/-- Run at most `n` instructions. -/
def run (m : Machine V) : Nat → Execution V → Execution V
  | 0, s => s
  | n + 1, s => m.run n (m.step s)

@[simp] theorem run_zero (m : Machine V) (s : Execution V) : m.run 0 s = s := rfl

theorem run_succ (m : Machine V) (n : Nat) (s : Execution V) :
    m.run (n + 1) s = m.run n (m.step s) := rfl

theorem run_add (m : Machine V) (j k : Nat) (s : Execution V) :
    m.run (j + k) s = m.run k (m.run j s) := by
  induction j generalizing s with
  | zero => rw [Nat.zero_add]; rfl
  | succ j ih => rw [Nat.succ_add]; exact ih (m.step s)

theorem step_of_isFinal (m : Machine V) {s : Execution V} (h : s.status.isFinal) :
    m.step s = s := by
  simp [step, h]

theorem run_of_isFinal (m : Machine V) (n : Nat) {s : Execution V} (h : s.status.isFinal) :
    m.run n s = s := by
  induction n with
  | zero => rfl
  | succ n ih => rw [run_succ, m.step_of_isFinal h, ih]

/-- Run to the end. Every instruction moves forward, so a run has at most one step for each word of
the code and one that finds its end. -/
def result (m : Machine V) : Except Failure V :=
  (m.run (m.code.length + 1) m.start).outcome

/-- The states of a run: the first one, the one after each step up to the final one, and the one
after another step. -/
def trace (m : Machine V) : Nat → Execution V → List (Execution V)
  | 0, s => [s]
  | n + 1, s => if s.status.isFinal then [s, m.step s] else s :: m.trace n (m.step s)

/-- Evaluate a program on arguments of the host. -/
def call (D : Domain V) (d : Descriptor) (p : Program) (args : List Host.Value) :
    Except Failure Host.Value := do
  let m ← load D d p args
  return D.toHost (← m.result)

end Machine
end StackForge
