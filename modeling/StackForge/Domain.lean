import StackForge.Expr
import StackForge.Failure
import StackForge.Host
import StackForge.Power

/-!
A domain of numbers: everything a machine needs to evaluate bodies in it.
-/
namespace StackForge

structure Domain (V : Type) where
  name : String
  zero : V
  one : V
  /-- A number written in a body. -/
  literal : Double → V
  binary : BinOp → V → V → V
  neg : V → V
  /-- A method of a value, by name. -/
  method : String → V → List V → Except Failure V
  /-- A helper function, by name. -/
  helper : String → List V → Except Failure V
  /-- A helper constant, by name. -/
  constant : String → Except Failure V := fun name => .error (.missingHelper name)
  toHost : V → Host.Value
  ofHost : Host.Value → Except Failure V

namespace Domain

variable {V : Type}

/-- Refuse the wrong number of arguments. -/
def wrongArity {α : Type} (name : String) (expected got : Nat) : Except Failure α :=
  .error (.domain name s!"expected {expected} arguments, got {got}")

/-- Square with a helper if one is named, otherwise with a product. -/
def square (D : Domain V) (helper : Option String) (x : V) : Except Failure V :=
  match helper with
  | some name => D.helper name [x]
  | none => .ok (D.binary .mul x x)

/-- A power with exponent `n` by repeated squaring, and its inverse for a negative exponent. The
helper that squares is tried once even where the exponent does not need it. -/
def power (D : Domain V) (spec : Power.Spec) (z : V) (exponent : Int32) : Except Failure V := do
  if spec.square.isSome then
    let _ ← D.square spec.square z
  let size ← Power.bySquaring D.one (D.binary .mul) (D.square spec.square) z
    exponent.toInt.natAbs
  return if exponent < 0 then D.binary .div D.one size else size

/-- Call an object of the host with values of the domain, converting both ways. -/
def callHost (D : Domain V) (object : Host.Object) (args : List V) : Except Failure V :=
  match object.function? with
  | none => .error (.notCallable object.text)
  | some f =>
    match f.run (args.map D.toHost) with
    | .error message => .error (.hostCall f.name message)
    | .ok result => D.ofHost result

end Domain
end StackForge
