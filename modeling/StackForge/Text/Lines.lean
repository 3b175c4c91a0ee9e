/-!
Text cut into lines. `split` cuts at every newline and always gives at least one line; `lines`
treats a newline as the end of a line, so a text that ends with one has no empty line after it.
-/
namespace StackForge.Text

/-- The pieces between newlines. -/
def split : List Char → List (List Char)
  | [] => [[]]
  | c :: cs =>
    if c = '\n' then [] :: split cs
    else
      match split cs with
      | [] => [[c]]
      | line :: rest => (c :: line) :: rest

/-- Remove one carriage return at the end. -/
def dropReturn (line : List Char) : List Char :=
  if line.getLast? = some '\r' then line.dropLast else line

/-- The lines of a text, each ended by a newline or by a carriage return and a newline. What
stands after the last newline is a line of its own if it is not empty, and keeps a carriage
return at its end. -/
def lines (cs : List Char) : List (List Char) :=
  let parts := split cs
  let closed := parts.dropLast.map dropReturn
  match parts.getLast? with
  | some [] | none => closed
  | some last => closed ++ [last]

theorem split_ne_nil (cs : List Char) : split cs ≠ [] := by
  cases cs with
  | nil => simp [split]
  | cons c cs =>
    unfold split
    split
    · simp
    · split <;> simp

end StackForge.Text
