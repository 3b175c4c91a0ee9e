import StackForge.Check.Machine
import StackForge.Expr.Parser
import StackForge.Signature.Reader

/-!
Descriptions as their authors write them, with signatures and bodies still text. `Draft.build`
reads and checks a draft; it gives a descriptor exactly when nothing is wrong.
-/
namespace StackForge

/-- The text of a body. -/
inductive DraftBody where
  | expression (text : String)
  | block (text : String)
  deriving DecidableEq, Repr

def DraftBody.text : DraftBody → String
  | .expression t | .block t => t

structure DraftInstruction where
  name : String
  signature : String
  body : DraftBody
  usesErrorHandler : Bool := false
  deriving DecidableEq, Repr

namespace DraftInstruction

/-- One expression for the first output. -/
def expression (name signature text : String) : DraftInstruction :=
  { name, signature, body := .expression text }

def block (name signature text : String) : DraftInstruction :=
  { name, signature, body := .block text }

/-- Allow the body to fail. -/
def mayFail (d : DraftInstruction) : DraftInstruction := { d with usesErrorHandler := true }

/-- An operator between two inputs. -/
def operator (name signature op : String) : DraftInstruction :=
  expression name signature s!"i0 {op} i1"

/-- A method of the first input. -/
def method (name signature m : String) : DraftInstruction :=
  expression name signature s!"i0.{m}()"

/-- A function of the first input. -/
def call₁ (name signature f : String) : DraftInstruction :=
  expression name signature s!"{f}(i0)"

/-- A function of the first two inputs. -/
def call₂ (name signature f : String) : DraftInstruction :=
  expression name signature s!"{f}(i0, i1)"

end DraftInstruction

structure Draft where
  name : String
  storage : Storage
  chunks : List (Char × Chunk) := []
  helpers : List Helper := []
  headers : Snippets := {}
  footers : Snippets := {}
  power : Option Power.Spec := none
  hostCall : Option HostCall := none
  instructions : List DraftInstruction := []
  deriving Repr

namespace Draft

/-- A draft without any chunk. -/
def empty (name : String) (storage : Storage) : Draft := { name, storage }

def addChunk (d : Draft) (letter : Char) (name : String) (role : Role) (storage : Storage) :
    Draft :=
  { d with chunks := d.chunks ++ [(letter, ⟨name, role, storage⟩)] }

/-- A stack machine with the five usual chunks and their letters. -/
def stackMachine (name : String) (storage : Storage) : Draft :=
  empty name storage
    |>.addChunk 'A' "args" .args storage
    |>.addChunk 'C' "constants" .constants storage
    |>.addChunk 'P' "host_constants" .hostConstants .hostObject
    |>.addChunk 'S' "stack" .stack storage
    |>.addChunk 'D' "code" .code .code

def addHelper (d : Draft) (h : Helper) : Draft := { d with helpers := d.helpers ++ [h] }

def addFunction (d : Draft) (name : String) (arity : Nat) : Draft :=
  d.addHelper ⟨name, .function arity false⟩

/-- A function that may fail, so that bodies mark its calls. -/
def addFallible (d : Draft) (name : String) (arity : Nat) : Draft :=
  d.addHelper ⟨name, .function arity true⟩

def addConst (d : Draft) (name : String) : Draft := d.addHelper ⟨name, .const⟩

/-- Code for the front of an artifact. -/
def header (d : Draft) (a : Artifact) (code : String) : Draft :=
  { d with headers := d.headers.set a code }

/-- Code for the end of an artifact. -/
def footer (d : Draft) (a : Artifact) (code : String) : Draft :=
  { d with footers := d.footers.set a code }

def withPower (d : Draft) (spec : Power.Spec) : Draft := { d with power := some spec }

def withHostCall (d : Draft) (instruction doc : String) : Draft :=
  { d with hostCall := some ⟨instruction, doc⟩ }

/-- Add an instruction; its opcode is its position. -/
def add (d : Draft) (i : DraftInstruction) : Draft :=
  { d with instructions := d.instructions ++ [i] }

def addAll (d : Draft) (is : List DraftInstruction) : Draft := is.foldl add d

/-- Bind letters in order. A letter that is no capital is reported and left out, and so is one
that is bound already. -/
def lettersFrom : Letters → List (Char × Chunk) → Letters × List CheckFault
  | letters, [] => (letters, [])
  | letters, (c, chunk) :: rest =>
    if !c.isUpper then
      let (letters, faults) := lettersFrom letters rest
      (letters, .letterNotCapital c chunk.name :: faults)
    else if letters.contains c then
      let (letters, faults) := lettersFrom letters rest
      (letters, .letterTaken c :: faults)
    else lettersFrom (letters.insert c chunk) rest

/-- The texts of an instruction, named after machine and instruction. -/
def sources (machine : String) (i : DraftInstruction) : Source × Source :=
  let origin := s!"{machine}::{i.name}"
  (⟨origin, i.signature⟩, ⟨origin, i.body.text⟩)

/-- Read a body; a body with anything wrong is refused. -/
def readBody (src : Source) : DraftBody → Except Log Body
  | .expression _ =>
    match Expr.parse src with
    | (some e, log) => if log.hasErrors then .error log else .ok (.expression e)
    | (none, log) => .error log
  | .block _ =>
    let (b, log) := Block.parse src
    if log.hasErrors then .error log else .ok (.block b)

/-- Opcodes are words that are not negative. -/
def opcodeLimit : Nat := 2147483648

/-- The instruction at a position of the table, from its texts. -/
def instructionOf (i : DraftInstruction) (index : Nat) (signature : Signature) (body : Body) :
    Instruction :=
  { name := i.name
    opcode := Int32.ofNat index
    signatureText := i.signature
    signature
    bodyText := i.body.text
    body
    usesErrorHandler := i.usesErrorHandler }

/-- Read and check the instructions from a position on, adding to a log. -/
def readInstructions (ctx : Check.Context) (letters : Letters) (machine : String) :
    Nat → Log → List DraftInstruction → List Instruction × Log
  | _, log, [] => ([], log)
  | index, log, i :: rest =>
    let (signatureSource, bodySource) := sources machine i
    let signature := Signature.read letters signatureSource
    let body := readBody bodySource i.body
    match signature, body with
    | .ok signature, .ok body =>
      if index < opcodeLimit then
        let instruction := instructionOf i index signature body
        let log := log.pushAll (Check.instruction ctx signatureSource bodySource instruction)
        let (others, log) := readInstructions ctx letters machine (index + 1) log rest
        (instruction :: others, log)
      else
        let log := log.push (CheckFault.tooManyInstructions.structural signatureSource.origin)
        readInstructions ctx letters machine (index + 1) log rest
    | .error e, .ok _ => readInstructions ctx letters machine (index + 1) (log ++ e) rest
    | .ok _, .error e => readInstructions ctx letters machine (index + 1) (log ++ e) rest
    | .error e, .error e' =>
      readInstructions ctx letters machine (index + 1) (log ++ e ++ e') rest

/-- The descriptor of a draft whose letters and instructions have been read. -/
def descriptorOf (d : Draft) (letters : Letters) (instructions : List Instruction) :
    Descriptor :=
  { name := d.name
    storage := d.storage
    chunks := d.chunks.map (·.2)
    letters := letters.entries.map fun (c, chunk) => (c, chunk.name)
    instructions
    headers := d.headers
    footers := d.footers
    helpers := d.helpers
    power := d.power
    hostCall := d.hostCall }

/-- What the instructions of a draft are checked against. -/
def context (d : Draft) : Check.Context :=
  .make d.storage (d.chunks.map (·.2)) d.helpers d.power

/-- The letters that signatures of a draft are read with. -/
def letters (d : Draft) : Letters := (lettersFrom .empty d.chunks).1

/-- The table of instructions and all that was reported before a draft is built or refused. -/
def checked (d : Draft) : List Instruction × Log :=
  let report (log : Log) (faults : List CheckFault) : Log :=
    log.pushAll (faults.map (·.structural d.name))
  let first := report .empty ((lettersFrom .empty d.chunks).2 ++ Check.machineName d.name
    ++ Check.chunks d.storage (d.chunks.map (·.2))
    ++ Check.helpersFrom d.context.globals.reserved [] d.helpers)
  let (read, log) := readInstructions d.context d.letters d.name 0 first d.instructions
  (read, report log (Check.instructionSet (d.instructions.map (·.name)) read
    ++ Check.power d.context.globals d.power read ++ Check.hostCall d.hostCall read))

/-- Read and check everything. There is a descriptor if nothing is wrong; warnings stand beside
it. -/
def build (d : Draft) : Option Descriptor × Log :=
  let (read, log) := d.checked
  if log.hasErrors then (none, log)
  else if read.length ≠ d.instructions.length then
    (none, log.push (CheckFault.unreadInstruction.structural d.name))
  else (some (d.descriptorOf d.letters read), log)

/-- The instructions from a position on, without any check; the first text that cannot be read
ends it. -/
def readUnchecked (letters : Letters) (machine : String) :
    Nat → List DraftInstruction → Except Log (List Instruction)
  | _, [] => .ok []
  | index, i :: rest => do
    let (signatureSource, bodySource) := sources machine i
    let signature ← Signature.read letters signatureSource
    let body ← readBody bodySource i.body
    let others ← readUnchecked letters machine (index + 1) rest
    return instructionOf i index signature body :: others

/-- A descriptor from a draft that is only read, not checked. Of two chunks with one letter the
later one has it. -/
def trust (d : Draft) : Except Log Descriptor := do
  let letters := d.chunks.foldl (fun ls (c, chunk) => ls.insert c chunk) Letters.empty
  let instructions ← readUnchecked letters d.name 0 d.instructions
  return d.descriptorOf letters instructions

end Draft
end StackForge
