import StackForge.Arm
import StackForge.Conventions
import StackForge.Emission.Power
import StackForge.Expr.Render

/-!
The source text of the engine: a loop that takes the arm of each opcode, with one exit for all
failures.
-/
namespace StackForge

open Layout

namespace Emission

/-- The first line of every generated file. -/
def banner (d : Descriptor) : Item :=
  .line s!"// @generated by stackgen from the `{d.name}` descriptor. Do not edit."

/-- Authored code as it stands; nothing if it is blank. -/
def authored (code : String) : Except EmissionFault (List Item) :=
  if Text.allBlank code.toList then .ok []
  else
    match verbatim? code with
    | some items => .ok items
    | none => .error .unevenMargin

/-- Authored code at the front, with an empty line after it. -/
def header (d : Descriptor) (a : Artifact) : Except EmissionFault (List Item) :=
  (authored (d.headers.get a)).map fun items => if items.isEmpty then [] else items ++ [.blank]

/-- Authored code at the end, with an empty line before it. -/
def footer (d : Descriptor) (a : Artifact) : Except EmissionFault (List Item) :=
  (authored (d.footers.get a)).map fun items => if items.isEmpty then [] else .blank :: items

end Emission

namespace Extent

/-- The summands of an extent in generated code. -/
def summands (e : Extent) : List String :=
  (if e.fixed = 0 then [] else [toString e.fixed]) ++ e.counted.map fun k => s!"n_i{k}"

/-- The position at this distance above the base. -/
def offsetText (e : Extent) : String := " + ".intercalate ("base" :: e.summands)

/-- The position below all that is taken. -/
def baseText (e : Extent) : String :=
  match e.summands with
  | [] => "sp"
  | [one] => "sp - " ++ one
  | many => "sp - (" ++ " + ".intercalate many ++ ")"

end Extent

/-- An input in generated code. -/
def Access.text (code : String) : Access → String
  | .element chunk offset => chunk.element offset.offsetText
  | .selected chunk w => chunk.element s!"{code}[pc + {w}] as usize"
  | .word w => s!"{code}[pc + {w}]"
  | .slice chunk offset k =>
    let first := offset.offsetText
    s!"&{chunk.name}[{first}..{first} + n_i{k}]"

/-- A statement in generated code. -/
def Stmt.render (r : Rendering) : Stmt → String
  | .bind id e _ => "let " ++ id.name ++ " = " ++ e.render r ++ ";"
  | .assign target e _ => target.name ++ " = " ++ e.render r ++ ";"
  | .ret e _ => "return Ok(" ++ e.render r ++ ");"

namespace Arm

def bodyItems (r : Rendering) (i : Instruction) : List Item :=
  match i.body with
  | .expression e => [.line ("let o0: Raw = " ++ e.render r ++ ";")]
  | .block b =>
    (List.range i.signature.outputs.length).map (fun k => .line s!"let o{k}: Raw;")
      ++ b.stmts.map fun s => .line (s.render r)

/-- Put the outputs in their places and go on to the next instruction. -/
def storeItems (a : Arm) : List Item :=
  let sig := a.instruction.signature
  if a.instruction.isTerminal then []
  else
    (a.stores.zipIdx.map fun (chunk, k) =>
      Item.line (chunk ++ "[" ++ { fixed := k : Extent }.offsetText ++ s!"] = o{k};"))
    ++ (if a.usesStack then
          [.line (if sig.pushes = 0 then "sp = base;" else s!"sp = base + {sig.pushes};")]
        else [])
    ++ [.line s!"pc += {sig.width};"]

def items (c : Conventions) (storage : Storage) (code : String) (a : Arm) : List Item :=
  [.enter s!"{c.declModule}::{a.instruction.constName} => \x7b"]
  ++ (a.counts.map fun (k, word) => .line s!"let n_i{k} = {code}[pc + {word}] as usize;")
  ++ (if a.usesStack then [.line ("let base = " ++ a.taken.baseText ++ ";")] else [])
  ++ (a.inputs.zipIdx.map fun (input, k) => .line (s!"let i{k} = " ++ input.text code ++ ";"))
  ++ bodyItems ⟨storage, c.label⟩ a.instruction
  ++ a.storeItems
  ++ [.leave "\x7d"]

end Arm

namespace Emission

/-- The type of a chunk's elements in the engine. -/
def elementType (d : Descriptor) (chunk : Chunk) : String :=
  if chunk.storage = d.storage then "Raw"
  else if chunk.storage.isManaged then "HostObject"
  else chunk.storage.typePath

/-- The loop that runs bytecode. -/
def runItems (d : Descriptor) (c : Conventions) : Except EmissionFault (List Item) :=
  match d.chunk? .code with
  | none => .error (.missingChunk d.name .code)
  | some code => do
    let arms ← d.arms
    return (
      [.line s!"/// Run `{d.name}` bytecode until its terminal instruction returns.",
       .enter "pub fn run("]
      ++ (d.chunks.map fun chunk => .line (chunk.declare (elementType d chunk) ++ ","))
      ++ [.turn ") -> Result<Raw, EvalFailure> \x7b",
       .line "let mut pc: usize = 0;",
       .line "let mut sp: usize = 0;",
       .enter s!"let failure: EvalFailure = {c.label}: \x7b",
       .enter "loop \x7b",
       .enter s!"let op = match {code.name}.get(pc) \x7b",
       .line "Some(&op) => op,",
       .line s!"None => break {c.label} EvalFailure::MissingReturn \x7b pc \x7d,",
       .leave "\x7d;",
       .enter "match op \x7b"]
      ++ (arms.flatMap fun a => a.items c d.storage code.name)
      ++ [.line s!"op => break {c.label} EvalFailure::UnknownOpcode \x7b opcode: op, pc \x7d,",
       .leave "\x7d",
       .leave "\x7d",
       .leave "\x7d;",
       .line "Err(failure)",
       .leave "\x7d"])

/-- The engine. -/
def engineItems (d : Descriptor) (c : Conventions) : Except EmissionFault (List Item) := do
  let front ← header d .engine
  let run ← runItems d c
  let back ← footer d .engine
  return (
    [banner d,
     .blank,
     .line s!"use super::{c.declModule}::\x7bself, Raw\x7d;",
     .line s!"use {c.runtimePath}::host::\x7bEvalFailure, HostObject\x7d;"]
    ++ (if d.callsHost then [.line s!"use super::{c.wrapperModule}::{callHost};"] else [])
    ++ [.blank]
    ++ front
    ++ (match d.power with
        | some spec => Power.items spec c.declModule ++ [.blank]
        | none => [])
    ++ run
    ++ back)

end Emission
end StackForge
