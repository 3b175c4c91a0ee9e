import StackForge.Diagnostic.Log
import StackForge.Signature
import StackForge.Text.Blank

/-!
Reading signatures. Blanks do not count.

    signature = { param } [ "->" { param } ]
    param     = letter [ "[" letter "]" ] [ "@" letter ]

The letters are those of the machine's chunks. A bare letter of the code chunk is an immediate,
any other bare letter a single element. The first fault ends the reading. Columns have
no limit, so they are right for texts of fewer than `2 ^ 32 - 1` characters.
-/
namespace StackForge

/-- What can be wrong with a signature. -/
inductive SignatureFault where
  | unexpected (c : Char)
  | unknownLetter (c : Char) (known : String)
  | letterWanted (after got : Char)
  | letterMissing (after : Char)
  | bracketWanted (got : Char)
  | bracketMissing
  | indexedAndVariadic
  | arrowWanted
  | secondArrow
  deriving DecidableEq, Repr

namespace SignatureFault

def code : SignatureFault → Code
  | .unknownLetter _ _ => .undeclaredChunk
  | _ => .malformedSignature

def message : SignatureFault → String
  | .unexpected c => s!"unexpected '{c}' in signature"
  | .unknownLetter c _ => s!"unknown chunk letter '{c}'"
  | .letterWanted after got => s!"expected a chunk letter after '{after}', got '{got}'"
  | .letterMissing after => s!"expected a chunk letter after '{after}'"
  | .bracketWanted got => s!"expected ']', got '{got}'"
  | .bracketMissing => "unclosed '['"
  | .indexedAndVariadic => "a parameter cannot be both indexed and variadic"
  | .arrowWanted => "expected '->'"
  | .secondArrow => "a signature has at most one '->'"

def suggestion : SignatureFault → Option String
  | .unknownLetter _ known => some s!"declared letters: {known}"
  | _ => none

end SignatureFault

namespace Signature

/-- A character and its column. -/
abbrev Mark := Nat × Char

/-- A fault and the column it is at. -/
abbrev Located := SignatureFault × Nat

/-- The characters that count, with their columns. -/
def marksFrom : Nat → List Char → List Mark
  | _, [] => []
  | col, c :: rest =>
    if Text.isBlank c then marksFrom (col + 1) rest else (col, c) :: marksFrom (col + 1) rest

def marks (text : String) : List Mark := marksFrom 1 text.toList

/-- The column behind the last character that counts. -/
def endCol (ms : List Mark) : Nat :=
  match ms.getLast? with
  | some (col, _) => col + 1
  | none => 1

/-- The chunk of a letter. -/
def chunkOf (letters : Letters) (c : Char) (col : Nat) : Except Located Chunk :=
  match letters.find? c with
  | some chunk => .ok chunk
  | none => .error (.unknownLetter c letters.text, col)

/-- The chunk named by the letter that has to follow a bracket or an at sign. `stop` is the
column to report when nothing follows. -/
def readLetter (letters : Letters) (stop : Nat) (after : Char) (ms : List Mark) :
    Except Located (Chunk × { rest : List Mark // rest.length < ms.length }) :=
  match ms with
  | [] => .error (.letterMissing after, stop)
  | (col, c) :: rest =>
    if c.isAlpha then (chunkOf letters c col).map (·, ⟨rest, by simp⟩)
    else .error (.letterWanted after c, col)

/-- An index in brackets, if there is one. -/
def readIndex (letters : Letters) (stop : Nat) (ms : List Mark) :
    Except Located (Option Chunk × { rest : List Mark // rest.length ≤ ms.length }) :=
  match ms with
  | (_, '[') :: rest =>
    match readLetter letters stop '[' rest with
    | .error e => .error e
    | .ok (chunk, ⟨[], _⟩) => .error (.bracketMissing, stop)
    | .ok (chunk, ⟨(col, c) :: rest', h⟩) =>
      if c = ']' then .ok (some chunk, ⟨rest', by simp at h ⊢; omega⟩)
      else .error (.bracketWanted c, col)
  | ms => .ok (none, ⟨ms, by simp⟩)

/-- A count behind an at sign, if there is one, with the column of the sign. -/
def readCount (letters : Letters) (stop : Nat) (ms : List Mark) :
    Except Located (Option (Nat × Chunk) × { rest : List Mark // rest.length ≤ ms.length }) :=
  match ms with
  | (col, '@') :: rest =>
    match readLetter letters stop '@' rest with
    | .error e => .error e
    | .ok (chunk, ⟨rest', h⟩) => .ok (some (col, chunk), ⟨rest', by simp; omega⟩)
  | ms => .ok (none, ⟨ms, by simp⟩)

/-- The kind of a parameter, by what follows its letter. -/
def kindOf (chunk : Chunk) (index : Option Chunk) (count : Option (Nat × Chunk)) :
    Except Located ParamKind :=
  match index, count with
  | none, none => .ok (if chunk.role = .code then .immediate else .single)
  | some i, none => .ok (.indexed i.name)
  | none, some (_, n) => .ok (.variadic n.name)
  | some _, some (col, _) => .error (.indexedAndVariadic, col)

/-- The parameters up to a minus sign or the end. -/
def readParams (letters : Letters) (stop : Nat) (ms : List Mark) :
    Except Located (List Param × List Mark) :=
  match ms with
  | [] => .ok ([], [])
  | (col, c) :: rest =>
    if c = '-' then .ok ([], (col, c) :: rest)
    else if !c.isAlpha then .error (.unexpected c, col)
    else
      match chunkOf letters c col with
      | .error e => .error e
      | .ok chunk =>
        match readIndex letters stop rest with
        | .error e => .error e
        | .ok (index, ⟨afterIndex, _⟩) =>
          match readCount letters stop afterIndex with
          | .error e => .error e
          | .ok (count, ⟨afterCount, _⟩) =>
            match kindOf chunk index count with
            | .error e => .error e
            | .ok kind =>
              match readParams letters stop afterCount with
              | .error e => .error e
              | .ok (params, left) =>
                .ok (⟨chunk.name, chunk.role, kind, Span.point 1 col⟩ :: params, left)
  termination_by ms.length

/-- A whole signature. -/
def readMarks (letters : Letters) (ms : List Mark) : Except Located Signature :=
  let stop := endCol ms
  match readParams letters stop ms with
  | .error e => .error e
  | .ok (inputs, []) => .ok ⟨inputs, [], false⟩
  | .ok (inputs, (_, _) :: (_, '>') :: rest) =>
    match readParams letters stop rest with
    | .error e => .error e
    | .ok (outputs, []) => .ok ⟨inputs, outputs, true⟩
    | .ok (_, (col, _) :: _) => .error (.secondArrow, col)
  | .ok (_, (col, _) :: _) => .error (.arrowWanted, col)

/-- Read a signature text, or say what is wrong with it. -/
def read (letters : Letters) (src : Source) : Except Log Signature :=
  match readMarks letters (marks src.text) with
  | .ok sig => .ok sig
  | .error (fault, col) =>
    let d := src.diagnose fault.code fault.message (Span.point 1 col)
    .error (Log.empty.push { d with suggestion := fault.suggestion })

end Signature
end StackForge
