/-!
Whole powers by repeated squaring. Both ways of computing `z ^ n` multiply in the same order:
square as often as the highest bit of `n` asks, and multiply the selected powers together from
the lowest to the highest.
-/
namespace StackForge.Power

/-- The settings of the power instruction of a machine. -/
structure Spec where
  /-- The smallest and the largest exponent. -/
  low : Int
  high : Int
  /-- Exponents up to this one are expanded into straight line code. -/
  inlineMax : Nat
  /-- The helper that squares a value; a plain product if there is none. -/
  square : Option String
  deriving DecidableEq, Repr

/-- The largest exponent that a machine may expand. -/
def maxInline : Nat := 8

/-- The exponents a word can hold. -/
def wordLow : Int := -2147483648
def wordHigh : Int := 2147483647

namespace Spec

/-- Every exponent a word can hold. -/
def full (square : Option String) : Spec := ⟨wordLow, wordHigh, maxInline, square⟩

def contains (s : Spec) (k : Int) : Bool := s.low ≤ k && k ≤ s.high

end Spec

/-- Straight line code for a power: how often to square, and the powers to multiply. -/
structure Plan where
  squarings : Nat
  factors : List Nat
  deriving DecidableEq, Repr

/-- The powers of two in the binary form of `n`, from `unit` upwards. -/
def factorsFrom (unit : Nat) (n : Nat) : List Nat :=
  if n = 0 then []
  else if n % 2 = 1 then unit :: factorsFrom (2 * unit) (n / 2)
  else factorsFrom (2 * unit) (n / 2)
  termination_by n

/-- The plan for `z ^ n`. -/
def plan (n : Nat) : Plan := ⟨n.log2, factorsFrom 1 n⟩

/-- The variable that holds a power in straight line code. -/
def variableName (power : Nat) : String := if power = 1 then "z" else s!"z{power}"

/-- Multiply the powers that the bits of `n` select, squaring in between; `acc` is the product so
far. The first failure to square ends it. -/
def loop {α ε : Type} (mul : α → α → α) (sq : α → Except ε α) (acc : Option α) (base : α)
    (n : Nat) : Except ε (Option α) :=
  if n = 0 then .ok acc
  else
    let acc :=
      if n % 2 = 1 then
        match acc with
        | some a => some (mul a base)
        | none => some base
      else acc
    if n / 2 = 0 then .ok acc
    else
      match sq base with
      | .ok next => loop mul sq acc next (n / 2)
      | .error e => .error e
  termination_by n

/-- `z ^ n`, with a way of squaring that may fail. -/
def bySquaring {α ε : Type} (one : α) (mul : α → α → α) (sq : α → Except ε α) (z : α) (n : Nat) :
    Except ε α :=
  (loop mul sq none z n).map (·.getD one)

/-- `z` squared up to `n` times, in order. -/
def squares {α ε : Type} (sq : α → Except ε α) : Nat → α → Except ε (List α)
  | 0, z => .ok [z]
  | n + 1, z => do
    let next ← sq z
    return z :: (← squares sq n next)

/-- Multiply from left to right. -/
def product {α : Type} (one : α) (mul : α → α → α) : List α → α
  | [] => one
  | first :: rest => rest.foldl mul first

/-- `z ^ n` by straight line code. -/
def byPlan {α ε : Type} (one : α) (mul : α → α → α) (sq : α → Except ε α) (z : α) (n : Nat) :
    Except ε α := do
  let p := plan n
  let powers ← squares sq p.squarings z
  return product one mul (p.factors.filterMap fun f => powers[f.log2]?)

end StackForge.Power
