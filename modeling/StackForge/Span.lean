/-!
Places in a text. Lines and columns count from one, and the end of a span is the place of its
last character. They are numbers without a limit that stand for places of 32 bits: in a text of fewer
than `2 ^ 32 - 1` bytes no line and no column goes beyond these.
-/
namespace StackForge

structure Span where
  startLine : Nat
  startCol : Nat
  endLine : Nat
  endCol : Nat
  deriving DecidableEq, Repr

namespace Span

def point (line col : Nat) : Span := ⟨line, col, line, col⟩

/-- Whether the first place comes before the second in reading order. -/
def placeLt (a b : Nat × Nat) : Bool := a.1 < b.1 || (a.1 == b.1 && a.2 < b.2)

def start (s : Span) : Nat × Nat := (s.startLine, s.startCol)
def stop (s : Span) : Nat × Nat := (s.endLine, s.endCol)

/-- The smallest span that covers both. -/
def merge (s t : Span) : Span :=
  let first := if placeLt t.start s.start then t.start else s.start
  let last := if placeLt s.stop t.stop then t.stop else s.stop
  ⟨first.1, first.2, last.1, last.2⟩

/-- The place where the span starts, as `line:column`. -/
def text (s : Span) : String := s!"{s.startLine}:{s.startCol}"

@[simp] theorem merge_self (s : Span) : s.merge s = s := by
  simp [merge, placeLt, start, stop]

end Span
end StackForge
