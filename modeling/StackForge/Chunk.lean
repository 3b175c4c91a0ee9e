import StackForge.Storage

/-!
The memory of a stack machine: named chunks, each playing one of five roles, and the letters by
which signatures refer to them.
-/
namespace StackForge

inductive Role where
  | args | constants | hostConstants | stack | code
  deriving DecidableEq, Repr

namespace Role

def all : List Role := [.args, .constants, .hostConstants, .stack, .code]

def text : Role → String
  | .args => "args"
  | .constants => "constants"
  | .hostConstants => "host_constants"
  | .stack => "stack"
  | .code => "code"

/-- Instructions write to the stack only. -/
def isWritable : Role → Bool
  | .stack => true
  | _ => false

end Role

structure Chunk where
  name : String
  role : Role
  storage : Storage
  deriving DecidableEq, Repr

namespace Chunk

def isReadOnly (c : Chunk) : Bool := !c.role.isWritable

/-- The element type in generated code; the storage of the domain goes by a name of its own. -/
def elementType (c : Chunk) (domainType : String) (domain : Storage) : String :=
  if c.storage = domain then domainType else c.storage.typePath

/-- The parameter declaration of the chunk. -/
def declare (c : Chunk) (type : String) : String :=
  if c.isReadOnly then s!"{c.name}: &[{type}]" else s!"{c.name}: &mut [{type}]"

/-- The access to one element. -/
def element (c : Chunk) (index : String) : String :=
  if c.storage.isManaged then s!"&{c.name}[{index}]" else s!"{c.name}[{index}]"

end Chunk

/-- Letters and the chunks they stand for, in the order of the letters. -/
structure Letters where
  entries : List (Char × Chunk)
  deriving DecidableEq, Repr

namespace Letters

def empty : Letters := ⟨[]⟩

def find? (letters : Letters) (c : Char) : Option Chunk := letters.entries.lookup c

def contains (letters : Letters) (c : Char) : Bool := (letters.find? c).isSome

/-- Put an entry at its place in the order; an entry with the same letter gives way. -/
def place (c : Char) (chunk : Chunk) : List (Char × Chunk) → List (Char × Chunk)
  | [] => [(c, chunk)]
  | (d, other) :: rest =>
    if c < d then (c, chunk) :: (d, other) :: rest
    else if c = d then (c, chunk) :: rest
    else (d, other) :: place c chunk rest

theorem lookup_place_self (c : Char) (chunk : Chunk) (entries : List (Char × Chunk)) :
    (place c chunk entries).lookup c = some chunk := by
  induction entries with
  | nil => simp [place]
  | cons entry rest ih =>
    obtain ⟨d, other⟩ := entry
    unfold place
    split
    · simp
    · split
      · simp
      · rename_i hne
        have hfalse : (c == d) = false := by simpa using hne
        simp [List.lookup_cons, hfalse, ih]

theorem lookup_place_of_ne {c d : Char} (chunk : Chunk) (entries : List (Char × Chunk))
    (hne : d ≠ c) : (place c chunk entries).lookup d = entries.lookup d := by
  have hfalse : (d == c) = false := by simpa using hne
  induction entries with
  | nil => simp [place, List.lookup_cons, hfalse]
  | cons entry rest ih =>
    obtain ⟨e, other⟩ := entry
    unfold place
    split
    · simp [List.lookup_cons, hfalse]
    · split
      · rename_i heq
        subst heq
        simp [List.lookup_cons, hfalse]
      · simp only [List.lookup_cons]
        split
        · rfl
        · exact ih

def insert (letters : Letters) (c : Char) (chunk : Chunk) : Letters :=
  ⟨place c chunk letters.entries⟩

@[simp] theorem find?_insert_self (letters : Letters) (c : Char) (chunk : Chunk) :
    (letters.insert c chunk).find? c = some chunk := lookup_place_self c chunk letters.entries

theorem find?_insert_of_ne (letters : Letters) {c d : Char} (chunk : Chunk) (h : d ≠ c) :
    (letters.insert c chunk).find? d = letters.find? d :=
  lookup_place_of_ne chunk letters.entries h

/-- All letters as one text. -/
def text (letters : Letters) : String := String.ofList (letters.entries.map (·.1))

end Letters
end StackForge
