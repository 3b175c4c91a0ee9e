/-!
Command lines. An option takes its value from behind an equals sign, or from the next argument
unless that looks like an option itself; a short option also takes what is written directly behind
it.
-/
namespace StackForge.Command

/-- How the table of a machine is shown. -/
inductive Format where
  | document | json
  deriving DecidableEq, Repr

def Format.ofText? : String → Option Format
  | "markdown" => some .document
  | "json" => some .json
  | _ => none

structure GenerateOptions where
  domains : List String := []
  directory : Option String := none
  check : Bool := false
  conventions : Option String := none
  json : Bool := false
  deriving DecidableEq, Repr

/-- Where files go if nothing else is said. -/
def defaultDirectory : String := "generated"

structure DescribeOptions where
  domain : Option String := none
  format : Option Format := none
  deriving DecidableEq, Repr

/-- What a command line asks for. -/
inductive Request where
  | generate (options : GenerateOptions)
  | list
  | describe (domain : String) (format : Format)
  | version
  | help
  deriving DecidableEq, Repr

/-- One argument, read by its form. -/
inductive Argument where
  | long (name : String) (value : Option String)
  /-- One dash, an option letter and what stands behind it. -/
  | short (letter : Char) (rest : String)
  /-- Two dashes: everything behind them is a value. -/
  | separator
  | plain (text : String)
  deriving DecidableEq, Repr

namespace Argument

/-- Cut at the first equals sign. -/
def splitValue (cs : List Char) : String × Option String :=
  let name := String.ofList (cs.takeWhile (· ≠ '='))
  match cs.dropWhile (· ≠ '=') with
  | [] => (name, none)
  | _ :: value => (name, some (String.ofList value))

def ofText (text : String) : Argument :=
  match text.toList with
  | ['-', '-'] => .separator
  | '-' :: '-' :: rest => let (name, value) := splitValue rest; .long name value
  | '-' :: c :: rest => .short c (String.ofList rest)
  | _ => .plain text

/-- Whether an argument can be the value of an option before it. -/
def isValue (text : String) : Bool :=
  match ofText text with
  | .plain _ => true
  | _ => false

end Argument

/-- The value of an option and the arguments behind it. -/
def takeValue? (attached : Option String) (rest : List String) : Option (String × List String) :=
  match attached, rest with
  | some value, rest => some (value, rest)
  | none, value :: rest => if Argument.isValue value then some (value, rest) else none
  | none, [] => none

/-- What stands behind an option letter; an equals sign at its front is dropped. -/
def attachedTo (rest : String) : Option String :=
  match rest.toList with
  | [] => none
  | '=' :: value => some (String.ofList value)
  | _ => some rest

theorem length_of_takeValue? {attached : Option String} {rest left : List String} {value : String}
    (h : takeValue? attached rest = some (value, left)) : left.length ≤ rest.length := by
  unfold takeValue? at h
  split at h
  · simp_all
  · split at h
    · simp only [Option.some.injEq, Prod.mk.injEq] at h
      simp [← h.2]
    · simp at h
  · simp at h

/-- Options with a value that generating takes. -/
inductive GenerateField where
  | domain | directory | conventions
  deriving DecidableEq, Repr

def GenerateField.ofLong? : String → Option GenerateField
  | "domain" => some .domain
  | "out-dir" => some .directory
  | "config" => some .conventions
  | _ => none

def GenerateField.ofShort? : Char → Option GenerateField
  | 'd' => some .domain
  | 'o' => some .directory
  | _ => none

/-- Set a field. Paths are not empty and are given once. -/
def GenerateOptions.set? (o : GenerateOptions) (field : GenerateField) (value : String) :
    Option GenerateOptions :=
  match field with
  | .domain => some { o with domains := o.domains ++ [value] }
  | .directory =>
    if value.isEmpty || o.directory.isSome then none else some { o with directory := some value }
  | .conventions =>
    if value.isEmpty || o.conventions.isSome then none
    else some { o with conventions := some value }

/-- Set a flag, which is given once. -/
def GenerateOptions.flag? (o : GenerateOptions) : String → Option GenerateOptions
  | "check" => if o.check then none else some { o with check := true }
  | "json" => if o.json then none else some { o with json := true }
  | _ => none

def isHelp : Argument → Bool
  | .long "help" none => true
  | .short 'h' _ => true
  | _ => false

/-- Read the arguments of generating. -/
def readGenerate (o : GenerateOptions) : List String → Option Request
  | [] => some (.generate o)
  | text :: rest =>
    match Argument.ofText text with
    | .separator => if rest.isEmpty then some (.generate o) else none
    | .plain _ => none
    | .long name value =>
      match GenerateField.ofLong? name with
      | some field =>
        match h : takeValue? value rest with
        | some (v, left) =>
          have := length_of_takeValue? h
          (o.set? field v).bind fun o => readGenerate o left
        | none => none
      | none =>
        if isHelp (.long name value) then some .help
        else if value.isSome then none
        else (o.flag? name).bind fun o => readGenerate o rest
    | .short c attached =>
      match GenerateField.ofShort? c with
      | some field =>
        match h : takeValue? (attachedTo attached) rest with
        | some (v, left) =>
          have := length_of_takeValue? h
          (o.set? field v).bind fun o => readGenerate o left
        | none => none
      | none => if isHelp (.short c attached) then some .help else none
  termination_by args => args.length

/-- Read what is left of the arguments of describing as values. -/
def readDescribeValues (o : DescribeOptions) : List String → Option DescribeOptions
  | [] => some o
  | text :: rest =>
    if o.domain.isSome then none else readDescribeValues { o with domain := some text } rest

/-- Describing needs a machine, and shows a document if nothing else is said. -/
def DescribeOptions.request? (o : DescribeOptions) : Option Request :=
  o.domain.map fun domain => .describe domain (o.format.getD .document)

/-- Read the arguments of describing. -/
def readDescribe (o : DescribeOptions) : List String → Option Request
  | [] => o.request?
  | text :: rest =>
    match Argument.ofText text with
    | .separator => (readDescribeValues o rest).bind DescribeOptions.request?
    | .plain v =>
      if o.domain.isSome then none else readDescribe { o with domain := some v } rest
    | .long name value =>
      if name = "format" then
        match h : takeValue? value rest with
        | some (v, left) =>
          have := length_of_takeValue? h
          if o.format.isSome then none
          else
            match Format.ofText? v with
            | some format => readDescribe { o with format := some format } left
            | none => none
        | none => none
      else if isHelp (.long name value) then some .help
      else none
    | .short c attached => if isHelp (.short c attached) then some .help else none
  termination_by args => args.length

/-- Read the arguments of listing, which takes none. -/
def readList : List String → Option Request
  | [] => some .list
  | text :: rest =>
    if isHelp (Argument.ofText text) then some .help
    else if Argument.ofText text = .separator && rest.isEmpty then some .list
    else none

/-- Read the arguments of asking for help: the name of a command, if any. -/
def readHelp : List String → Option Request
  | [] => some .help
  | [name] => if name ∈ ["generate", "list", "describe", "help"] then some .help else none
  | _ => none

/-- Read a command line; none if it is not understood. -/
def readArguments : List String → Option Request
  | [] => none
  | text :: rest =>
    match Argument.ofText text with
    | .long "version" none => some .version
    | .short 'V' _ => some .version
    | .plain "generate" => readGenerate {} rest
    | .plain "list" => readList rest
    | .plain "describe" => readDescribe {} rest
    | .plain "help" => readHelp rest
    | argument => if isHelp argument then some .help else none

end StackForge.Command
