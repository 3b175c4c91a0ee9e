import StackForge.Double.Text

/-!
JSON values and their two written forms: compact, and pretty with an indent of two blanks. Object
members keep their order.
-/
namespace StackForge

inductive Json where
  | null
  | bool (value : Bool)
  /-- A number written without fraction and exponent. -/
  | int (value : Int)
  /-- Any other number. -/
  | decimal (value : Double)
  | string (value : String)
  | array (items : List Json)
  | object (members : List (String × Json))
  deriving Repr

namespace Json

def nat (n : Nat) : Json := .int n

/-- The value, or `null` if there is none. -/
def ofOption {α : Type} (f : α → Json) : Option α → Json
  | none => .null
  | some a => f a

/-- The text of a string. -/
def string? : Json → Option String
  | .string s => some s
  | _ => none

def quoteMark : Char := Char.ofNat 0x22

/-- The written form of one character of a string: quotes, backslashes and control characters are
escaped. -/
def escape (c : Char) : List Char :=
  match c.toNat with
  | 0x22 => ['\\', c]
  | 0x5c => ['\\', c]
  | 0x08 => ['\\', 'b']
  | 0x0c => ['\\', 'f']
  | 0x0a => ['\\', 'n']
  | 0x0d => ['\\', 'r']
  | 0x09 => ['\\', 't']
  | n =>
    if n < 0x20 then ['\\', 'u', '0', '0', Nat.digitChar (n / 16), Nat.digitChar (n % 16)]
    else [c]

def quote (s : String) : List Char :=
  quoteMark :: (s.toList.flatMap escape ++ [quoteMark])

/-- Separate pieces by a comma and what follows it. -/
def commas (gap : List Char) : List (List Char) → List Char
  | [] => []
  | [piece] => piece
  | piece :: rest => piece ++ ',' :: gap ++ commas gap rest

/-- A value without parts. -/
def scalar : Json → List Char
  | .null => "null".toList
  | .bool true => "true".toList
  | .bool false => "false".toList
  | .int n => (toString n).toList
  | .decimal x => if x.isFinite then x.literalText.toList else "null".toList
  | .string s => quote s
  | .array _ => []
  | .object _ => []

mutual

/-- Everything on one line without blanks. -/
def compact : Json → List Char
  | .array items => '[' :: commas [] (compactItems items) ++ [']']
  | .object members => '\x7b' :: commas [] (compactMembers members) ++ ['\x7d']
  | v => scalar v

def compactItems : List Json → List (List Char)
  | [] => []
  | v :: rest => compact v :: compactItems rest

def compactMembers : List (String × Json) → List (List Char)
  | [] => []
  | (k, v) :: rest => (quote k ++ ':' :: compact v) :: compactMembers rest

end

/-- A line break and the indent of this depth. -/
def newline (depth : Nat) : List Char := '\n' :: List.replicate (2 * depth) ' '

/-- Pieces on lines of their own between two marks; no line break when there are none. -/
def block (depth : Nat) (first last : Char) : List (List Char) → List Char
  | [] => [first, last]
  | pieces =>
    first :: newline (depth + 1) ++ commas (newline (depth + 1)) pieces ++ newline depth ++ [last]

mutual

/-- Every item and member on a line of its own. -/
def pretty (depth : Nat) : Json → List Char
  | .array items => block depth '[' ']' (prettyItems (depth + 1) items)
  | .object members => block depth '\x7b' '\x7d' (prettyMembers (depth + 1) members)
  | v => scalar v

def prettyItems (depth : Nat) : List Json → List (List Char)
  | [] => []
  | v :: rest => pretty depth v :: prettyItems depth rest

def prettyMembers (depth : Nat) : List (String × Json) → List (List Char)
  | [] => []
  | (k, v) :: rest => (quote k ++ ':' :: ' ' :: pretty depth v) :: prettyMembers depth rest

end

def compactText (v : Json) : String := String.ofList v.compact

def prettyText (v : Json) : String := String.ofList (v.pretty 0)

end Json
end StackForge
