import StackForge.Binding
import StackForge.Descriptor

/-!
The names visible to a body: those of the whole machine, and those of one body as its statements
are read in order.
-/
namespace StackForge

/-- A function that bodies can call. -/
structure Callable where
  arity : Nat
  fallible : Bool
  deriving DecidableEq, Repr

/-- Names that every body of a machine sees. A function declared later hides one of the same name
declared before. -/
structure Globals where
  functions : List (String × Callable) := []
  constants : List String := []
  /-- Names the engine binds itself. -/
  reserved : List String := []
  deriving Repr

namespace Globals

def addFunction (g : Globals) (name : String) (f : Callable) : Globals :=
  { g with functions := (name, f) :: g.functions }

def addConstant (g : Globals) (name : String) : Globals :=
  { g with constants := g.constants ++ [name] }

def addHelper (g : Globals) (h : Helper) : Globals :=
  match h.kind with
  | .function arity fallible => g.addFunction h.name ⟨arity, fallible⟩
  | .const => g.addConstant h.name

def ofHelpers (helpers : List Helper) : Globals := helpers.foldl addHelper {}

def function? (g : Globals) (name : String) : Option Callable := g.functions.lookup name

end Globals

/-- What a name in an expression stands for. -/
inductive Resolved where
  | input (k : Nat)
  | count (k : Nat)
  | output (k : Nat)
  | local
  | const
  /-- A name of an input, count or output that the signature does not have. -/
  | outOfRange (b : Binding)
  | unknown
  deriving DecidableEq, Repr

/-- The names of one body, up to some statement. -/
structure Scope where
  globals : Globals
  /-- For each input, whether it is variadic. -/
  variadic : List Bool
  outputs : Nat
  locals : List String := []
  /-- The outputs assigned so far. -/
  assigned : List Nat := []
  /-- The inputs read so far. -/
  used : List Nat := []
  deriving Repr

/-- Strings in increasing order without repetition. -/
def sortedNames (names : List String) : List String :=
  (names.eraseDups).mergeSort fun a b => a ≤ b

namespace Scope

def ofSignature (globals : Globals) (sig : Signature) : Scope :=
  { globals, variadic := sig.inputs.map Param.isVariadic, outputs := sig.outputs.length }

def inputs (s : Scope) : Nat := s.variadic.length

def resolve (s : Scope) (name : String) : Resolved :=
  match Binding.classify name with
  | .input k => if k < s.inputs then .input k else .outOfRange (.input k)
  | .count k => if k < s.inputs then .count k else .outOfRange (.count k)
  | .output k => if k < s.outputs then .output k else .outOfRange (.output k)
  | .other =>
    if s.locals.contains name then .local
    else if s.globals.constants.contains name then .const
    else .unknown

/-- Note that a name is read. -/
def note (s : Scope) (name : String) : Scope :=
  match s.resolve name with
  | .input k | .count k => { s with used := k :: s.used }
  | _ => s

def noteAll (s : Scope) (names : List String) : Scope := names.foldl note s

def isVariadic (s : Scope) (k : Nat) : Bool := s.variadic.getD k false

def function? (s : Scope) (name : String) : Option Callable := s.globals.function? name

/-- Whether binding a name would hide one that is visible. -/
def wouldShadow (s : Scope) (name : String) : Bool :=
  Binding.classify name != .other || s.locals.contains name
    || s.globals.constants.contains name || (s.function? name).isSome
    || s.globals.reserved.contains name

def define (s : Scope) (name : String) : Scope := { s with locals := name :: s.locals }

def isAssigned (s : Scope) (k : Nat) : Bool := s.assigned.contains k

/-- Whether an output exists and can still be assigned. -/
def canAssign (s : Scope) (k : Nat) : Bool := k < s.outputs && !s.isAssigned k

def assign (s : Scope) (k : Nat) : Scope :=
  if s.canAssign k then { s with assigned := k :: s.assigned } else s

def unassigned (s : Scope) : List Nat :=
  (List.range s.outputs).filter fun k => !s.isAssigned k

def unused (s : Scope) : List Nat := (List.range s.inputs).filter fun k => !s.used.contains k

/-- The names that can be read here: inputs, then locals and constants in alphabetical order. -/
def visible (s : Scope) : List String :=
  (List.range s.inputs).map (fun k => s!"i{k}")
    ++ sortedNames s.locals ++ sortedNames s.globals.constants

end Scope
end StackForge
