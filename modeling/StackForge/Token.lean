import StackForge.Double.Text
import StackForge.Span

/-!
The words of the body language.
-/
namespace StackForge

namespace Token

inductive Kind where
  | number (value : Double)
  | identifier (name : String)
  | letWord
  | returnWord
  | plus
  | minus
  | star
  | slash
  /-- The mark after a call that may fail. -/
  | question
  | lparen
  | rparen
  | comma
  | semicolon
  | dot
  | eq
  /-- The end of the body. -/
  | eof
  deriving DecidableEq, Repr

namespace Kind

/-- The reserved words. -/
def ofKeyword? : String → Option Kind
  | "let" => some .letWord
  | "return" => some .returnWord
  | _ => none

def isKeyword : Kind → Bool
  | .letWord | .returnWord => true
  | _ => false

/-- How a diagnostic shows the word. -/
def text : Kind → String
  | .number x => x.plainText
  | .identifier name => name
  | .letWord => "let"
  | .returnWord => "return"
  | .plus => "+"
  | .minus => "-"
  | .star => "*"
  | .slash => "/"
  | .question => "?"
  | .lparen => "("
  | .rparen => ")"
  | .comma => ","
  | .semicolon => ";"
  | .dot => "."
  | .eq => "="
  | .eof => "end of body"

end Kind
end Token

/-- A word of a body and its place. -/
structure Token where
  kind : Token.Kind
  span : Span
  deriving DecidableEq, Repr

end StackForge
