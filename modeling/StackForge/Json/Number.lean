import StackForge.Json
import StackForge.Double.Rounding

/-!
Numbers in JSON. A whole number that a machine word of sixty-four bits can hold is exact. Any other
number is read from its leading digits, as many as fit into a word, times a power of ten, with one
rounding for each of the two and one for the product.
-/
namespace StackForge.Json

/-- The numbers that a word can hold are below this one. -/
def wordLimit : Nat := Nat.pow 2 64

def digitValue (c : Char) : Nat := c.toNat - 48

def digitsValue (ds : List Char) : Nat := ds.foldl (fun n c => 10 * n + digitValue c) 0

/-- Append digits to a number as long as a word can hold it, and count them. -/
def leadingWord (n used : Nat) : List Char → Nat × Nat
  | [] => (n, used)
  | c :: rest =>
    let next := 10 * n + digitValue c
    if next < wordLimit then leadingWord next (used + 1) rest else (n, used)

/-- The largest power of ten that is a double. -/
def maxPower : Nat := 308

def tenTo (k : Nat) : Double := .ofDecimal 1 k

/-- Divide by a power of ten, in steps that have a double. -/
def shrink (x : Double) (k : Nat) : Double :=
  if x.isZero then x
  else if k ≤ maxPower then x / tenTo k
  else shrink (x / tenTo maxPower) (k - maxPower)
  termination_by k
  decreasing_by simp only [maxPower] at *; omega

/-- Multiply by a power of ten. -/
def scale (x : Double) (e : Int) : Double :=
  if x.isZero then x
  else if e < 0 then shrink x (-e).toNat
  else if e ≤ maxPower then x * tenTo e.toNat
  else .infinity

/-- The value of digits around a point, times a power of ten. -/
def decimalValue (whole fraction : List Char) (exponent : Int) : Double :=
  let (n, used) := leadingWord 0 0 (whole ++ fraction)
  scale (.ofBinary n 0) (exponent + whole.length - used)

/-- A whole number, if a word can hold it with its sign. Zero has none. -/
def wholeValue? (negative : Bool) (n : Nat) : Option Int :=
  if negative then
    if n ≠ 0 && n ≤ wordLimit / 2 then some (-n) else none
  else if n < wordLimit then some n
  else none

/-- A fraction: a point and at least one digit. No fraction reads as no digits. -/
def readFraction : List Char → Option (List Char × List Char)
  | '.' :: rest =>
    match rest.span Char.isDigit with
    | ([], _) => none
    | (ds, rest) => some (ds, rest)
  | cs => some ([], cs)

/-- An exponent with its sign, and whether one is written at all. -/
def readExponent : List Char → Option (Option Int × List Char)
  | c :: rest =>
    if c = 'e' || c = 'E' then
      let (negative, rest) :=
        match rest with
        | '-' :: rest => (true, rest)
        | '+' :: rest => (false, rest)
        | rest => (false, rest)
      match rest.span Char.isDigit with
      | ([], _) => none
      | (ds, rest) =>
        let n : Int := digitsValue ds
        some (some (if negative then -n else n), rest)
    else some (none, c :: rest)
  | [] => some (none, [])

/-- An unsigned number: whole part without leading zeros, then fraction and exponent. -/
def readMagnitude (negative : Bool) (cs : List Char) : Option (Json × List Char) :=
  match cs.span Char.isDigit with
  | ([], _) => none
  | (whole, rest) =>
    if 1 < whole.length && whole.head? = some '0' then none
    else do
      let (fraction, rest) ← readFraction rest
      let (exponent, rest) ← readExponent rest
      let exact :=
        if fraction.isEmpty && exponent.isNone then wholeValue? negative (digitsValue whole)
        else none
      match exact with
      | some n => return (.int n, rest)
      | none =>
        let size := decimalValue whole fraction (exponent.getD 0)
        return (.decimal (if negative then -size else size), rest)

def readNumber : List Char → Option (Json × List Char)
  | '-' :: rest => readMagnitude true rest
  | cs => readMagnitude false cs

end StackForge.Json
