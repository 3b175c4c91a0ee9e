import StackForge.Emission.Engine

/-!
The source text between engine and host: calls of the host, and the wrapper that keeps a program
with its constants converted.
-/
namespace StackForge

open Layout

namespace Emission

/-- The function that calls the host. -/
def callHostItems : List Item :=
  [.line "/// Call a host function with raw arguments, converting both ways.",
   .enter ("pub fn " ++ callHost
     ++ "(f: &HostObject, args: &[Raw]) -> Result<Raw, EvalFailure> \x7b"),
   .line "let function = f.as_function().ok_or_else(|| EvalFailure::NotCallable \x7b",
   .line "    object: f.to_string(),",
   .line "\x7d)?;",
   .line "let host_args: Vec<HostValue> = args.iter().copied().map(raw_to_host).collect();",
   .enter "let result = function.invoke(&host_args).map_err(|e| EvalFailure::HostCall \x7b",
   .line "function: function.name().to_string(),",
   .line "message: e.to_string(),",
   .leave "\x7d)?;",
   .line "host_to_raw(&result)",
   .leave "\x7d"]

/-- What the wrapper passes for a chunk. -/
def argumentText (chunk : Chunk) : String :=
  match chunk.role with
  | .args => "args"
  | .constants => "&self.constants"
  | .hostConstants => "&self.host_constants"
  | .stack => "&mut stack"
  | .code => "&self.code"

/-- The instruction that calls the host, and the word that selects what it calls. -/
def hostCallSite (d : Descriptor) (h : HostCall) : Except EmissionFault (Instruction × Nat) := do
  let some i := d.instruction? h.instruction | throw (.noHostCall h.instruction)
  let isSite (p : Param) : Bool := p.role = .hostConstants && p.isIndexed
  let some k := i.signature.inputs.findIdx? isSite | throw (.noHostIndex i.name)
  let word ← Arm.immediate i k
  return (i, word)

/-- The function that lists what a program calls. -/
def hostCallsItems (d : Descriptor) (c : Conventions) : Except EmissionFault (List Item) := do
  let walk ←
    match d.hostCall with
    | none => .ok [.line "Vec::new()"]
    | some h => do
      let (i, word) ← hostCallSite d h
      pure
        [.line "let mut calls = Vec::new();",
         .line "let mut pc = 0;",
         .enter "while let Some(&op) = self.code.get(pc) \x7b",
         .enter ("let Some(info) = usize::try_from(op).ok().and_then(|ix| " ++ c.declModule
           ++ "::INSTRUCTIONS.get(ix)) else \x7b"),
         .line "break;",
         .leave "\x7d;",
         .enter s!"if op == {c.declModule}::{i.constName} \x7b",
         .line s!"let slot = self.code.get(pc + {word}).copied();",
         .enter ("if let Some(f) = slot.and_then(|ix| usize::try_from(ix).ok())"
           ++ ".and_then(|ix| self.host_constants.get(ix)) \x7b"),
         .line "calls.push(f);",
         .leave "\x7d",
         .leave "\x7d",
         .line "pc += info.width;",
         .leave "\x7d",
         .line "calls"]
  return (
    [.line "/// Host functions this program calls back into, in bytecode order.",
     .enter "pub fn host_calls(&self) -> Vec<&HostObject> \x7b"]
    ++ walk
    ++ [.leave "\x7d"])

/-- The wrapper. -/
def wrapperItems (d : Descriptor) (c : Conventions) : Except EmissionFault (List Item) := do
  let hostCalls ← hostCallsItems d c
  let arguments := ", ".intercalate (d.chunks.map argumentText)
  return (
    [.line s!"/// A `{d.name}` program converted to raw values, ready to evaluate.",
     .line "#[derive(Debug, Clone)]",
     .enter "pub struct Wrapper \x7b",
     .line "n_args: usize,",
     .line "constants: Vec<Raw>,",
     .line "host_constants: Vec<HostObject>,",
     .line "code: Vec<i32>,",
     .line "max_stack: usize,",
     .leave "\x7d",
     .blank,
     .enter "impl Wrapper \x7b",
     .enter "pub fn new(program: &Program) -> Result<Self, EvalFailure> \x7b",
     .enter s!"if program.interpreter() != {c.declModule}::INTERPRETER \x7b",
     .enter "return Err(EvalFailure::ProgramMismatch \x7b",
     .line s!"expected: {c.declModule}::INTERPRETER.to_string(),",
     .line "found: program.interpreter().to_string(),",
     .leave "\x7d);",
     .leave "\x7d",
     .line "let constants = program",
     .line "    .constants()",
     .line "    .iter()",
     .line "    .map(host_to_raw)",
     .line "    .collect::<Result<Vec<_>, _>>()?;",
     .enter "Ok(Self \x7b",
     .line "n_args: program.n_args(),",
     .line "constants,",
     .line "host_constants: program.host_constants().to_vec(),",
     .line "code: program.code().to_vec(),",
     .line "max_stack: program.max_stack(),",
     .leave "\x7d)",
     .leave "\x7d",
     .blank,
     .line "/// Evaluate with host values.",
     .enter "pub fn call(&self, args: &[HostValue]) -> Result<HostValue, EvalFailure> \x7b",
     .line "let raw = args.iter().map(host_to_raw).collect::<Result<Vec<_>, _>>()?;",
     .line "self.call_raw(&raw).map(raw_to_host)",
     .leave "\x7d",
     .blank,
     .line "/// Evaluate with raw values. Each call gets its own stack.",
     .enter "pub fn call_raw(&self, args: &[Raw]) -> Result<Raw, EvalFailure> \x7b",
     .enter "if args.len() != self.n_args \x7b",
     .enter "return Err(EvalFailure::ArgCount \x7b",
     .line "expected: self.n_args,",
     .line "got: args.len(),",
     .leave "\x7d);",
     .leave "\x7d",
     .line s!"let mut stack = vec![{c.declModule}::ZERO; self.max_stack];",
     .line s!"super::{c.engineModule}::run({arguments})",
     .leave "\x7d",
     .blank]
    ++ hostCalls
    ++ [.blank,
     .enter "pub fn n_args(&self) -> usize \x7b",
     .line "self.n_args",
     .leave "\x7d",
     .blank,
     .enter "pub fn max_stack(&self) -> usize \x7b",
     .line "self.max_stack",
     .leave "\x7d",
     .leave "\x7d"])

/-- Everything between engine and host. -/
def glueItems (d : Descriptor) (c : Conventions) : Except EmissionFault (List Item) := do
  let front ← header d .glue
  let wrapper ← wrapperItems d c
  let back ← footer d .glue
  return (
    [banner d,
     .blank,
     .line s!"use super::{c.declModule}::\x7bself, Raw\x7d;",
     .line s!"use {c.runtimePath}::host::\x7bEvalFailure, HostObject, HostValue\x7d;",
     .line s!"use {c.runtimePath}::program::Program;",
     .blank]
    ++ front
    ++ callHostItems
    ++ [.blank]
    ++ wrapper
    ++ back)

end Emission
end StackForge
