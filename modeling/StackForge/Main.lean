import StackForge.Command

/-!
The command line.
-/
namespace StackForge

/-- The number of an error; some calls of the system report it with its sign changed. -/
def errorNumber (code : UInt32) : UInt32 := if code < 0x80000000 then code else 0 - code

/-- What an error of the system means for a command. -/
def faultOfError : IO.Error → FileFault
  | .noFileOrDirectory .. => .notFound
  | .alreadyExists .. => .alreadyExists
  | .inappropriateType _ code details =>
    if errorNumber code = 20 then .notDirectory
    else if errorNumber code = 21 then .isDirectory
    else .other details
  | e => .other (toString e)

/-- Do something and keep its error as a value. -/
def guardFault {α : Type} (action : IO α) : IO (Except FileFault α) := do
  match ← action.toBaseIO with
  | .ok a => return .ok a
  | .error e => return .error (faultOfError e)

instance : FileSystem IO where
  read path := guardFault (IO.FS.readFile path)
  write path text := guardFault (IO.FS.writeFile path text)
  makeDirectory path := guardFault (IO.FS.createDir path)
  isDirectory path := do
    return (← guardFault (IO.FS.readFile path)) matches .error .isDirectory

end StackForge

def main (args : List String) : IO UInt32 := do
  let report ← StackForge.Command.run args
  IO.print report.output
  IO.eprint report.errors
  return UInt32.ofNat report.exitCode
