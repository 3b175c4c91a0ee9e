import StackForge.Emission.Engine
import StackForge.Text.Quoted

/-!
The source text of the declarations: types, opcodes and the instruction table.
-/
namespace StackForge

open Layout

namespace Emission

/-- The row of an instruction in the table. -/
def rowItems (i : Instruction) : List Item :=
  [.enter "InstructionInfo \x7b",
   .line ("name: " ++ Text.quoted i.name ++ ","),
   .line s!"opcode: {i.opcode.toInt},",
   .line s!"width: {i.width},",
   .line s!"pops: {i.signature.fixedPops},",
   .line s!"pushes: {i.signature.pushes},",
   .line s!"variadic: {i.isVariadic},",
   .line s!"uses_error_handler: {i.usesErrorHandler},",
   .line s!"terminal: {i.isTerminal},",
   .leave "\x7d,"]

/-- The exponents that the power instruction takes. -/
def rangeText : Option Power.Spec → String
  | some spec => s!"Some(({spec.low}, {spec.high}))"
  | none => "None"

/-- The declarations. -/
def declItems (d : Descriptor) : Except EmissionFault (List Item) := do
  let front ← header d .decl
  let back ← footer d .decl
  return (
    [banner d, .blank]
    ++ front
    ++ [.line "/// Interpreter this header belongs to.",
     .line ("pub const INTERPRETER: &str = " ++ Text.quoted d.name ++ ";"),
     .blank,
     .line "/// Raw machine value held in the stack, argument and constant chunks.",
     .line s!"pub type Raw = {d.storage.typePath};",
     .line ("pub const ZERO: Raw = " ++ d.storage.renderLiteral .zero ++ ";"),
     .line ("pub const ONE: Raw = " ++ d.storage.renderLiteral .one ++ ";"),
     .blank]
    ++ (d.instructions.map fun i => .line s!"pub const {i.constName}: i32 = {i.opcode.toInt};")
    ++ [.blank,
     .line "/// Legal immediate exponents of `ipow`, inclusive.",
     .line ("pub const IPOW_RANGE: Option<(i64, i64)> = " ++ rangeText d.power ++ ";"),
     .blank,
     .line "#[derive(Debug, Clone, Copy, PartialEq, Eq)]",
     .enter "pub struct InstructionInfo \x7b",
     .line "pub name: &'static str,",
     .line "pub opcode: i32,",
     .line "pub width: usize,",
     .line "pub pops: usize,",
     .line "pub pushes: usize,",
     .line "pub variadic: bool,",
     .line "pub uses_error_handler: bool,",
     .line "pub terminal: bool,",
     .leave "\x7d",
     .blank,
     .line "/// One row per instruction, indexed by opcode.",
     .enter "pub const INSTRUCTIONS: &[InstructionInfo] = &["]
    ++ d.instructions.flatMap rowItems
    ++ [.leave "];",
     .blank,
     .line "/// Opcode of the instruction called `name`.",
     .enter "pub fn opcode(name: &str) -> Option<i32> \x7b",
     .line "INSTRUCTIONS.iter().find(|i| i.name == name).map(|i| i.opcode)",
     .leave "\x7d"]
    ++ back)

end Emission
end StackForge
