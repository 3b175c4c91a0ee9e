import StackForge.Text.Lines

/-!
Blank characters, text with the blanks at its ends removed, and blocks of code without their common
indentation. The margin of a block is measured in bytes, so where lines are indented with different
blanks it can end inside a character; such a block has no margin that could be removed.
-/
namespace StackForge.Text

/-- The characters that separate words: the white space property of the character standard. -/
def isBlank (c : Char) : Bool :=
  let n := c.toNat
  (9 ≤ n && n ≤ 13) || n == 0x20 || n == 0x85 || n == 0xa0 || n == 0x1680
    || (0x2000 ≤ n && n ≤ 0x200a) || n == 0x2028 || n == 0x2029 || n == 0x202f
    || n == 0x205f || n == 0x3000

def trimEnd (cs : List Char) : List Char := (cs.reverse.dropWhile isBlank).reverse

/-- Whether nothing but blanks is written. -/
def allBlank (cs : List Char) : Bool := cs.all isBlank

/-- The size of a text in bytes. -/
def byteSize (cs : List Char) : Nat := cs.foldl (fun n c => n + c.utf8Size) 0

/-- Remove a number of bytes from the front, if a character ends there. -/
def dropBytes? : Nat → List Char → Option (List Char)
  | 0, cs => some cs
  | _ + 1, [] => none
  | n + 1, c :: cs => if c.utf8Size ≤ n + 1 then dropBytes? (n + 1 - c.utf8Size) cs else none

/-- The size of the blanks before a line. -/
def indentation (line : List Char) : Nat := byteSize (line.takeWhile isBlank)

/-- The lines from the first to the last that is not blank. -/
def trimLines (lines : List (List Char)) : List (List Char) :=
  ((lines.dropWhile allBlank).reverse.dropWhile allBlank).reverse

/-- The smallest indentation of the lines that are not blank. -/
def margin (lines : List (List Char)) : Nat :=
  (((lines.filter (!allBlank ·)).map indentation).min?).getD 0

/-- A line without its margin and without blanks at its end. -/
def dedentLine? (margin : Nat) (line : List Char) : Option (List Char) :=
  if allBlank line then some [] else (dropBytes? margin line).map trimEnd

/-- The lines of a block without their common indentation. -/
def dedent? (code : List Char) : Option (List (List Char)) :=
  let block := trimLines (lines code)
  block.mapM (dedentLine? (margin block))

end StackForge.Text
