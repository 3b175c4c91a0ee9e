import StackForge.Diagnostic.Log
import StackForge.Double.Rounding
import StackForge.Token.Fault

/-!
From a body text to its words. The bytes of the text are first cut into pieces, each as long as
possible: blanks, comments, numbers, names, marks, and single bytes that belong to nothing. The
pieces together are exactly the text. Words then carry the places of their pieces, and every byte
that belongs to nothing is reported. Reading stops once the log of errors is full. Lines and columns
have no limit, so places are right for texts of fewer than `2 ^ 32 - 1` bytes.
-/
namespace StackForge.Token

namespace Piece

def isBlank (b : UInt8) : Bool := b = 32 || b = 9 || b = 13 || b = 10
def isDigit (b : UInt8) : Bool := 48 ≤ b && b ≤ 57
def isLetter (b : UInt8) : Bool := (97 ≤ b && b ≤ 122) || (65 ≤ b && b ≤ 90) || b = 95
def isNameByte (b : UInt8) : Bool := isLetter b || isDigit b

/-- The marks of one byte. -/
def mark? (b : UInt8) : Option Kind :=
  match b.toNat with
  | 43 => some .plus
  | 45 => some .minus
  | 42 => some .star
  | 47 => some .slash
  | 63 => some .question
  | 40 => some .lparen
  | 41 => some .rparen
  | 44 => some .comma
  | 59 => some .semicolon
  | 46 => some .dot
  | 61 => some .eq
  | _ => none

end Piece

/-- A piece of a body text, with its bytes. -/
inductive Piece where
  | blank (b : UInt8)
  | comment (text : List UInt8)
  | number (text : List UInt8)
  | name (text : List UInt8)
  | mark (kind : Kind) (b : UInt8)
  | stray (b : UInt8)
  deriving DecidableEq, Repr

namespace Piece

def bytes : Piece → List UInt8
  | .blank b | .mark _ b | .stray b => [b]
  | .comment text | .number text | .name text => text

/-- The digits at the front. -/
def digits (bs : List UInt8) : List UInt8 := bs.takeWhile isDigit

/-- A point with at least one digit after it, at the front. -/
def fraction : List UInt8 → List UInt8
  | 46 :: rest => if (digits rest).isEmpty then [] else 46 :: digits rest
  | _ => []

/-- An exponent mark, an optional sign and at least one digit, at the front. -/
def exponent : List UInt8 → List UInt8
  | e :: rest =>
    if e = 101 || e = 69 then
      match rest with
      | sign :: rest' =>
        if sign = 43 || sign = 45 then
          (if (digits rest').isEmpty then [] else e :: sign :: digits rest')
        else if (digits rest).isEmpty then [] else e :: digits rest
      | [] => []
    else []
  | [] => []

/-- The longest number at the front of bytes that start with a digit. -/
def numberAt (bs : List UInt8) : List UInt8 :=
  let whole := digits bs
  let frac := fraction (bs.drop whole.length)
  let exp := exponent (bs.drop (whole.length + frac.length))
  whole ++ frac ++ exp

/-- The piece at the front of a text that is not empty. -/
def first (b : UInt8) (rest : List UInt8) : Piece :=
  if isBlank b then .blank b
  else if b = 47 && rest.head? = some 47 then
    .comment (b :: rest.takeWhile (· ≠ 10))
  else if isDigit b then .number (numberAt (b :: rest))
  else if isLetter b then .name (b :: rest.takeWhile isNameByte)
  else
    match mark? b with
    | some kind => .mark kind b
    | none => .stray b

theorem first_bytes_ne_nil (b : UInt8) (rest : List UInt8) : (first b rest).bytes ≠ [] := by
  unfold first
  split
  · simp [bytes]
  split
  · simp [bytes]
  split
  · rename_i h
    simp [bytes, numberAt, digits, h]
  split
  · simp [bytes]
  split <;> simp [bytes]

/-- A text cut into its pieces. -/
def all : List UInt8 → List Piece
  | [] => []
  | b :: rest =>
    let piece := first b rest
    piece :: all ((b :: rest).drop piece.bytes.length)
  termination_by bs => bs.length
  decreasing_by
    have := List.length_pos_iff.2 (first_bytes_ne_nil b rest)
    simp
    omega

end Piece

/-- A place while reading. -/
structure Place where
  line : Nat
  col : Nat
  deriving DecidableEq, Repr

namespace Place

def start : Place := ⟨1, 1⟩

/-- The place after one more byte. -/
def next (p : Place) (b : UInt8) : Place := if b = 10 then ⟨p.line + 1, 1⟩ else ⟨p.line, p.col + 1⟩

def after (p : Place) (bs : List UInt8) : Place := bs.foldl next p

def point (p : Place) : Span := Span.point p.line p.col

/-- The span from one place up to the byte before another. -/
def upTo (p q : Place) : Span := ⟨p.line, p.col, q.line, max (q.col - 1) 1⟩

end Place

/-- Bytes as text, one character for each. -/
def latinText (bs : List UInt8) : String := String.ofList (bs.map fun b => Char.ofNat b.toNat)

def digitsValue (bs : List UInt8) : Nat := bs.foldl (fun n b => 10 * n + (b.toNat - 48)) 0

/-- The double nearest to a written number. -/
def numberValue (text : List UInt8) : Double :=
  let whole := Piece.digits text
  let rest := text.drop whole.length
  let frac := (Piece.fraction rest).drop 1
  let exp := (rest.drop (Piece.fraction rest).length).drop 1
  let size : Int :=
    match exp with
    | 45 :: ds => -(digitsValue ds : Int)
    | 43 :: ds => digitsValue ds
    | ds => digitsValue ds
  Double.ofDecimal (digitsValue (whole ++ frac)) (size - frac.length)

/-- The word a name stands for. -/
def nameKind (text : List UInt8) : Kind :=
  (Kind.ofKeyword? (latinText text)).getD (.identifier (latinText text))

/-- Words and reports for the pieces from a place on. -/
def ofPieces (src : Source) : Place → Log → List Piece → List Token × Log
  | p, log, [] => ([⟨.eof, p.point⟩], log)
  | p, log, piece :: rest =>
    let q := p.after piece.bytes
    let span := p.upTo q
    let word (kind : Kind) (log : Log) : List Token × Log :=
      if log.isFull then ([⟨kind, span⟩, ⟨.eof, q.point⟩], log)
      else
        let (tokens, log) := ofPieces src q log rest
        (⟨kind, span⟩ :: tokens, log)
    match piece with
    | .blank _ | .comment _ => ofPieces src q log rest
    | .name text => word (nameKind text) log
    | .mark kind _ => word kind log
    | .number text =>
      let value := numberValue text
      if value.isFinite then word (.number value) log
      else
        let fault := SyntaxFault.numberOverflow (latinText text)
        word (.number .zero) (log.push (fault.diagnostic src span))
    | .stray b =>
      let log := log.push ((SyntaxFault.strayByte b).diagnostic src span)
      if log.isFull then ([⟨.eof, q.point⟩], log) else ofPieces src q log rest

/-- The words of a body, ended by the end mark, and what was wrong with them. -/
def lex (src : Source) : List Token × Log :=
  ofPieces src .start .empty (Piece.all src.text.toUTF8.data.toList)

end StackForge.Token
