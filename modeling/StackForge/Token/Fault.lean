import StackForge.Diagnostic
import StackForge.Token

/-!
What can be wrong with the wording of a body.
-/
namespace StackForge

open Token (Kind)

inductive SyntaxFault where
  /-- A byte that starts no word. -/
  | strayByte (b : UInt8)
  /-- A number beyond the finite doubles. -/
  | numberOverflow (text : String)
  | expected (wanted got : Kind)
  | expectedIdentifier (got : Kind)
  /-- A name after a point without a list of arguments. -/
  | fieldAccess (name : String)
  | expectedExpression (got : Kind)
  /-- Something follows a complete expression. -/
  | trailing (got : Kind)
  | expectedStatement (got : Kind)
  deriving DecidableEq, Repr

namespace SyntaxFault

def code : SyntaxFault → Code
  | .strayByte _ => .unexpectedCharacter
  | .numberOverflow _ => .invalidNumber
  | _ => .unexpectedToken

def message : SyntaxFault → String
  | .strayByte b => s!"Unexpected character '{Char.ofNat b.toNat}'"
  | .numberOverflow text => s!"Invalid numeric literal '{text}'"
  | .expected wanted got => s!"expected '{wanted.text}', got '{got.text}'"
  | .expectedIdentifier got => s!"expected identifier, got '{got.text}'"
  | .fieldAccess name =>
    s!"expected '(' after method name '{name}'; field access is not supported"
  | .expectedExpression got => s!"expected expression, got '{got.text}'"
  | .trailing got => s!"expected end of expression, got '{got.text}'"
  | .expectedStatement got =>
    s!"expected 'let', 'return' or an output assignment, got '{got.text}'"

/-- The diagnostic for a fault at a place of a body. -/
def diagnostic (f : SyntaxFault) (src : Source) (span : Span) : Diagnostic :=
  src.diagnose f.code f.message span

end SyntaxFault
end StackForge
