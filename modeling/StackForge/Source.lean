import StackForge.Span
import StackForge.Text.Lines

/-!
An authored text, a signature or a body, together with the name of the thing it belongs to, so
that a diagnostic can say where it is and quote the line.
-/
namespace StackForge

structure Source where
  origin : String
  text : String
  deriving DecidableEq, Repr

namespace Source

/-- Remove every carriage return at the end. -/
def stripReturns (line : List Char) : List Char :=
  (line.reverse.dropWhile (· = '\r')).reverse

/-- All lines; a text always has at least one. -/
def lines (src : Source) : List String :=
  (Text.split src.text.toList).map fun line => String.ofList (stripReturns line)

def lineCount (src : Source) : Nat := src.lines.length

/-- The line with this number, counting from one. -/
def line? (src : Source) (n : Nat) : Option String :=
  if n = 0 then none else src.lines[n - 1]?

/-- The line a span starts on, empty if there is none. -/
def lineOf (src : Source) (span : Span) : String := (src.line? span.startLine).getD ""

end Source
end StackForge
