import StackForge.Command.Arguments
import StackForge.Command.Files
import StackForge.Reference

/-!
The commands: generating and checking source texts, listing the machines of the catalog, and
describing one of them.
-/
namespace StackForge.Command

/-- What is known about a machine at a glance. -/
structure Summary where
  name : String
  storage : String
  instructions : Nat
  power : Option Power.Spec
  deriving DecidableEq, Repr

namespace Summary

def ofDescriptor (d : Descriptor) : Summary :=
  { name := d.name
    storage := d.storage.typePath
    instructions := d.instructions.length
    power := d.power }

def line (s : Summary) : String :=
  let range :=
    match s.power with
    | some p => s!"ipow {p.low}..={p.high}"
    | none => "no ipow"
  s!"{s.name}\t{s.storage}\t{s.instructions} instructions\t{range}\n"

end Summary

def descriptor (name : String) : Except CommandFault Descriptor :=
  (Catalog.descriptor name).mapError .generation

/-- All machines of the catalog. -/
def summaries : Except CommandFault (List Summary) :=
  Catalog.names.mapM fun name => (descriptor name).map Summary.ofDescriptor

/-- The instruction table of a machine. -/
def describe (name : String) (format : Format) : Except CommandFault String :=
  (descriptor name).map fun d =>
    match format with
    | .document => Reference.documentText d
    | .json => Reference.jsonText d

/-- What a command leaves behind. -/
structure Report where
  exitCode : Nat := 0
  output : String := ""
  errors : String := ""
  deriving DecidableEq, Repr

def usage : String :=
  "Generate stack-machine bytecode interpreters\n\n"
  ++ "Usage: stackgen <COMMAND>\n\n"
  ++ "Commands:\n"
  ++ "  generate  Emit interpreter sources and a manifest\n"
  ++ "  list      List the shipped domains\n"
  ++ "  describe  Print the instruction reference of a domain\n"

variable {m : Type → Type} [Monad m] [FileSystem m]

def reportStale (stale : List (String × Staleness)) : Report :=
  { exitCode := if stale.isEmpty then 0 else 1
    errors := String.join (stale.map fun (path, reason) => s!"stale ({reason.label}): {path}\n") }

/-- Generate, and write or compare. -/
def runGenerate (o : GenerateOptions) : ExceptT CommandFault m Report := do
  let conventions ← loadConventions o.conventions
  let names ← liftExcept (selectDomains o.domains)
  let generated ← liftExcept (generate names conventions)
  let directory := o.directory.getD defaultDirectory
  if o.check then
    return reportStale (← checkArtifacts directory generated)
  else
    let _ ← writeArtifacts directory generated
    return {
      output := String.join (generated.map fun g =>
        s!"{g.descriptor.name} {g.fingerprint}\n") }
where
  liftExcept {α : Type} (e : Except CommandFault α) : ExceptT CommandFault m α := .mk (pure e)

/-- Report a fault, as JSON on the output if that is asked for. -/
def reportFault (json : Bool) (fault : CommandFault) : Report :=
  if json then { exitCode := 1, output := fault.jsonText ++ "\n" }
  else { exitCode := 1, errors := s!"error: {fault.message}\n" }

def reportText (json : Bool) : Except CommandFault String → Report
  | .ok text => { output := text }
  | .error fault => reportFault json fault

def runRequest : Request → m Report
  | .generate o => do
    match ← (runGenerate o : ExceptT CommandFault m Report).run with
    | .ok report => return report
    | .error fault => return reportFault o.json fault
  | .list =>
    return reportText false (summaries.map fun all => String.join (all.map Summary.line))
  | .describe domain format => return reportText false (describe domain format)
  | .version => return { output := s!"stackgen {version}\n" }
  | .help => return { output := usage }

/-- Do what a command line asks for. -/
def run (args : List String) : m Report :=
  match readArguments args with
  | some request => runRequest request
  | none => return { exitCode := 2, errors := "error: invalid arguments\n\n" ++ usage }

end StackForge.Command
