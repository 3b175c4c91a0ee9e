import StackForge.Text.Blank

/-!
Source text written line by line with an indent of four blanks for each open block.
-/
namespace StackForge

namespace Layout

/-- One step of writing. -/
inductive Item where
  | line (text : String)
  /-- An empty line, unless one has just been written. -/
  | blank
  /-- A line that starts a block. -/
  | enter (text : String)
  /-- A line that ends a block. -/
  | leave (text : String)
  /-- A line between two parts of a block. -/
  | turn (text : String)
  deriving DecidableEq, Repr

def indent : String := "    "

end Layout

/-- What has been written so far. -/
structure Layout where
  text : String := ""
  depth : Nat := 0
  deriving DecidableEq, Repr

namespace Layout

/-- One line at the current depth; an empty line is not indented. -/
def line (w : Layout) (text : String) : Layout :=
  if text.isEmpty then { w with text := w.text ++ "\n" }
  else { w with text := w.text ++ String.join (List.replicate w.depth indent) ++ text ++ "\n" }

def blank (w : Layout) : Layout :=
  if w.text.isEmpty || w.text.endsWith "\n\n" then w else { w with text := w.text ++ "\n" }

def put (w : Layout) : Item → Layout
  | .line text => w.line text
  | .blank => w.blank
  | .enter text => let w := w.line text; { w with depth := w.depth + 1 }
  | .leave text => { w with depth := w.depth - 1 }.line text
  | .turn text =>
    let w := { w with depth := w.depth - 1 }.line text
    { w with depth := w.depth + 1 }

def putAll (w : Layout) (items : List Item) : Layout := items.foldl put w

/-- Authored code as lines at the current depth, with its own relative indentation. -/
def verbatim? (code : String) : Option (List Item) :=
  (Text.dedent? code.toList).map (·.map fun line => .line (String.ofList line))

/-- The text of items written from the start. -/
def textOf (items : List Item) : String := (putAll {} items).text

@[simp] theorem putAll_nil (w : Layout) : w.putAll [] = w := rfl

@[simp] theorem putAll_cons (w : Layout) (i : Item) (items : List Item) :
    w.putAll (i :: items) = (w.put i).putAll items := rfl

theorem putAll_append (w : Layout) (xs ys : List Item) :
    w.putAll (xs ++ ys) = (w.putAll xs).putAll ys := by
  simp [putAll, List.foldl_append]

end Layout
end StackForge
