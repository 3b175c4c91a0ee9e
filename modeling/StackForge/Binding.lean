/-!
Names whose spelling gives them a meaning inside a body: inputs, their counts, and outputs.
-/
namespace StackForge

/-- What a name of a body refers to by its spelling. -/
inductive Binding where
  /-- `iK`, an input. -/
  | input (k : Nat)
  /-- `n_iK`, the number of elements of an input. -/
  | count (k : Nat)
  /-- `oK`, an output. -/
  | output (k : Nat)
  /-- Any other name. -/
  | other
  deriving DecidableEq, Repr

namespace Binding

/-- Indices have sixty-four bits. -/
def indexLimit : Nat := 18446744073709551616

/-- The number a digit text stands for; it has no leading zero and is below the limit. -/
def index? (digits : List Char) : Option Nat :=
  if digits.isEmpty || !digits.all Char.isDigit then none
  else if 1 < digits.length && digits.head? = some '0' then none
  else
    let k := digits.foldl (fun n c => 10 * n + (c.toNat - 48)) 0
    if k < indexLimit then some k else none

def ofChars (cs : List Char) : Binding :=
  match cs with
  | 'n' :: '_' :: 'i' :: digits => (index? digits).elim .other .count
  | 'i' :: digits => (index? digits).elim .other .input
  | 'o' :: digits => (index? digits).elim .other .output
  | _ => .other

/-- What a name refers to. -/
def classify (name : String) : Binding := ofChars name.toList

end Binding

end StackForge
