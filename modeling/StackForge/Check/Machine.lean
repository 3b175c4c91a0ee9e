import StackForge.Check.Instruction

/-!
Checking a machine as a whole: names, chunks, helpers, the set of instructions, powers and calls
of the host.
-/
namespace StackForge

namespace Name

/-- Words that a description may not use as names of generated code. -/
def keywords : List String :=
  ["as", "async", "await", "break", "const", "continue", "crate", "dyn", "else", "enum",
   "extern", "false", "fn", "for", "if", "impl", "in", "let", "loop", "match", "mod", "move",
   "mut", "pub", "ref", "return", "self", "Self", "static", "struct", "super", "trait", "true",
   "type", "unsafe", "use", "where", "while"]

/-- Small letters, digits and underscores, starting with a letter. -/
def isSnake (name : String) : Bool :=
  match name.toList with
  | [] => false
  | c :: cs => c.isLower && cs.all fun c => c.isLower || c.isDigit || c = '_'

/-- Letters, digits and underscores, not starting with a digit, and none of the words above. -/
def isIdentifier (name : String) : Bool :=
  match name.toList with
  | [] => false
  | c :: cs =>
    (c.isAlpha || c = '_') && cs.all (fun c => c.isAlphanum || c = '_')
      && name != "_" && !keywords.contains name

end Name

namespace Check

def machineName (name : String) : List CheckFault :=
  if Name.isSnake name then [] else [.machineName name]

/-- Whether a chunk's storage suits its role. -/
def fits (domain : Storage) (c : Chunk) : Bool :=
  match c.role with
  | .args | .constants | .stack => c.storage = domain
  | .hostConstants => c.storage.isManaged
  | .code => c.storage = .code

/-- Each chunk by itself, and against the names before it. -/
def chunksFrom (domain : Storage) (seen : List String) : List Chunk → List CheckFault
  | [] => []
  | c :: rest =>
    (if Name.isIdentifier c.name then [] else [.chunkName c.name])
    ++ (if seen.contains c.name then [.chunkTwice c.name] else [])
    ++ (if fits domain c then [] else [.chunkStorage c.name c.role c.storage])
    ++ chunksFrom domain (c.name :: seen) rest

/-- Every role is played exactly once. -/
def roles (chunks : List Chunk) : List CheckFault :=
  Role.all.filterMap fun role =>
    match (chunks.filter fun c => c.role = role).length with
    | 0 => some (.roleMissing role)
    | 1 => none
    | n => some (.roleShared n role)

def chunks (domain : Storage) (cs : List Chunk) : List CheckFault :=
  chunksFrom domain [] cs ++ roles cs

/-- Helper names, against those before and those of the engine. -/
def helpersFrom (reserved seen : List String) : List Helper → List CheckFault
  | [] => []
  | h :: rest =>
    (if Name.isIdentifier h.name then [] else [.helperName h.name])
    ++ (if seen.contains h.name then [.helperTwice h.name] else [])
    ++ (if reserved.contains h.name then [.helperReserved h.name] else [])
    ++ helpersFrom reserved (h.name :: seen) rest

def instructionNamesFrom (seen : List String) : List String → List CheckFault
  | [] => []
  | name :: rest =>
    (if Name.isSnake name then [] else [.instructionName name])
    ++ (if seen.contains name then [.instructionTwice name] else [])
    ++ instructionNamesFrom (name :: seen) rest

/-- The names of all instructions, and one instruction that ends the program. That last check
needs all of them to be read. -/
def instructionSet (names : List String) (read : List Instruction) : List CheckFault :=
  instructionNamesFrom [] names
    ++ (if read.length = names.length && !read.any Instruction.isTerminal then [.noTerminal]
        else [])

/-- The shape of the power instruction: a stack element and an immediate to one output. -/
def isPowerShape (sig : Signature) : Bool :=
  match sig.inputs with
  | [p, q] => p.isFixed && q.kind = .immediate && sig.outputs.length = 1
  | _ => false

/-- The settings of powers and the power instruction come together. -/
def power (globals : Globals) (spec : Option Power.Spec) (read : List Instruction) :
    List CheckFault :=
  match spec, read.find? fun i => i.name = powerName with
  | none, none => []
  | none, some _ => [.powerWithoutSpec]
  | some _, none => [.powerWithoutInstruction]
  | some s, some i =>
    (if s.high < s.low || s.low < Power.wordLow || Power.wordHigh < s.low
        || s.high < Power.wordLow || Power.wordHigh < s.high then [.powerRange s.low s.high]
     else [])
    ++ (if Power.maxInline < s.inlineMax then [.powerTable s.inlineMax] else [])
    ++ (if isPowerShape i.signature then [] else [.powerShape i.signatureText])
    ++ (match s.square with
        | none => []
        | some helper =>
          match globals.function? helper with
          | some f => if f.arity = 1 && !f.fallible then [] else [.powerSquare helper]
          | none => [.powerSquare helper])

/-- The shape that a call of the host needs: an indexed host object first, and counted stack
elements. -/
def isHostShape (sig : Signature) : Bool :=
  (match sig.inputs.head? with
   | some p => p.role = .hostConstants && p.isIndexed
   | none => false)
  && sig.inputs.any fun p => p.role = .stack && p.isVariadic

/-- One instruction that calls the host. -/
def hostCaller (convention : Option HostCall) (i : Instruction) : List CheckFault :=
  (if isHostShape i.signature then [] else [.hostShape i.name i.signatureText])
  ++ (if i.usesErrorHandler then [] else [.hostHandler i.name])
  ++ (if convention.map (·.instruction) = some i.name then [] else [.hostConvention i.name])

/-- Every instruction that calls the host keeps the convention, and the convention names one. -/
def hostCall (convention : Option HostCall) (read : List Instruction) : List CheckFault :=
  (read.filter fun i => i.body.calls callHost).flatMap (hostCaller convention)
  ++ (match convention with
      | none => []
      | some conv =>
        match read.find? fun i => i.name = conv.instruction with
        | none => [.hostUnknown conv.instruction]
        | some i => if i.body.calls callHost then [] else [.hostNeverCalled conv.instruction])

end Check
end StackForge
