import StackForge.Domain

/-!
Powers are exact. Where the product of a domain is associative, has the unit of the domain, and is
what the helper for squares computes, a power is the product of as many copies of the value as the
exponent says. For a negative exponent that product is divided into the unit; its size is taken
without a sign, so that the smallest exponent is no exception.
-/
namespace StackForge
namespace Domain

variable {V : Type}

/-- The product of copies of a value, multiplied one after the other. -/
def repeated (D : Domain V) (z : V) : Nat → V
  | 0 => D.one
  | n + 1 => D.binary .mul (D.repeated z n) z

/-- The laws of a product with a unit. -/
structure HasUnitalProduct (D : Domain V) : Prop where
  assoc : ∀ x y z, D.binary .mul (D.binary .mul x y) z = D.binary .mul x (D.binary .mul y z)
  one_mul : ∀ x, D.binary .mul D.one x = x
  mul_one : ∀ x, D.binary .mul x D.one = x

/-- The helper that squares, if one is named, multiplies a value with itself. -/
def SquaresByProduct (D : Domain V) (helper : Option String) : Prop :=
  ∀ name, helper = some name → ∀ x, D.helper name [x] = .ok (D.binary .mul x x)

theorem SquaresByProduct.square_eq {D : Domain V} {helper : Option String}
    (h : D.SquaresByProduct helper) (x : V) : D.square helper x = .ok (D.binary .mul x x) := by
  cases helper with
  | none => rfl
  | some name => exact h name rfl x

namespace HasUnitalProduct

variable {D : Domain V} (hmul : D.HasUnitalProduct)

include hmul

theorem repeated_one (z : V) : D.repeated z 1 = z := hmul.one_mul z

theorem repeated_add (z : V) (m n : Nat) :
    D.repeated z (m + n) = D.binary .mul (D.repeated z m) (D.repeated z n) := by
  induction n with
  | zero => exact (hmul.mul_one _).symm
  | succ n ih =>
    calc D.repeated z (m + (n + 1))
        = D.binary .mul (D.binary .mul (D.repeated z m) (D.repeated z n)) z := by
          rw [← Nat.add_assoc, repeated, ih]
      _ = D.binary .mul (D.repeated z m) (D.repeated z (n + 1)) := by rw [hmul.assoc, repeated]

theorem repeated_square (z : V) (n : Nat) :
    D.repeated (D.binary .mul z z) n = D.repeated z (2 * n) := by
  induction n with
  | zero => rfl
  | succ n ih =>
    calc D.repeated (D.binary .mul z z) (n + 1)
        = D.binary .mul (D.repeated z (2 * n)) (D.binary .mul z z) := by rw [repeated, ih]
      _ = D.repeated z (2 * (n + 1)) := by
          rw [← hmul.assoc, Nat.mul_add, Nat.mul_one, repeated, repeated]

/-- A value and its square make up the power from the lowest bit and the other bits. -/
theorem repeated_halves (z : V) (n : Nat) :
    D.binary .mul (if n % 2 = 1 then z else D.one) (D.repeated (D.binary .mul z z) (n / 2))
      = D.repeated z n := by
  rw [hmul.repeated_square]
  split
  · rename_i hodd
    calc D.binary .mul z (D.repeated z (2 * (n / 2)))
        = D.repeated z (1 + 2 * (n / 2)) := by rw [hmul.repeated_add, hmul.repeated_one]
      _ = D.repeated z n := by congr 1; omega
  · rename_i heven
    rw [hmul.one_mul]
    congr 1
    omega

/-- The loop multiplies what it has collected by the power that is left to do. Nothing collected
counts as the unit. -/
theorem exists_loop {sq : V → Except Failure V} (hsq : ∀ x, sq x = .ok (D.binary .mul x x))
    (acc : Option V) (z : V) (n : Nat) :
    ∃ r, Power.loop (D.binary .mul) sq acc z n = .ok r ∧
      r.getD D.one = D.binary .mul (acc.getD D.one) (D.repeated z n) := by
  -- one round takes the lowest bit of the exponent into what is collected
  have hround : ∀ (acc : Option V) (z : V) (n : Nat),
      (if n % 2 = 1 then acc.elim (some z) fun a => some (D.binary .mul a z) else acc).getD D.one
        = D.binary .mul (acc.getD D.one) (if n % 2 = 1 then z else D.one) := by
    intro acc z n
    split
    · cases acc with
      | none => exact (hmul.one_mul z).symm
      | some a => rfl
    · exact (hmul.mul_one _).symm
  fun_induction Power.loop (D.binary .mul) sq acc z n with
  | case1 acc z => exact ⟨acc, rfl, (hmul.mul_one _).symm⟩
  | case2 acc z n hn acc' hhalf =>
    refine ⟨acc', rfl, ?_⟩
    have hlast := hmul.repeated_halves z n
    rw [hhalf, repeated, hmul.mul_one] at hlast
    rw [← hlast]
    cases acc <;> exact hround _ z n
  | case3 acc z n hn acc' hhalf next hnext ih =>
    rw [hsq] at hnext
    cases hnext
    obtain ⟨r, hr, hvalue⟩ := ih
    refine ⟨r, hr, ?_⟩
    rw [hvalue, ← hmul.repeated_halves z n, ← hmul.assoc]
    congr 1
    cases acc <;> exact hround _ z n
  | case4 acc z n hn hhalf e he =>
    rw [hsq] at he
    cases he

theorem bySquaring_eq {sq : V → Except Failure V} (hsq : ∀ x, sq x = .ok (D.binary .mul x x))
    (z : V) (n : Nat) :
    Power.bySquaring D.one (D.binary .mul) sq z n = .ok (D.repeated z n) := by
  obtain ⟨r, hr, hvalue⟩ := hmul.exists_loop hsq none z n
  rw [Power.bySquaring, hr]
  exact congrArg Except.ok (hvalue.trans (hmul.one_mul _))

end HasUnitalProduct
end Domain

/-- A power is the repeated product, or the unit divided by the repeated product if the exponent is
negative. The size of the smallest exponent is `2 ^ 31`. -/
theorem power_eq_repeated {V : Type} {D : Domain V} (hmul : D.HasUnitalProduct)
    {spec : Power.Spec} (hsq : D.SquaresByProduct spec.square) (z : V) :
    (∀ k : Int32, 0 ≤ k → D.power spec z k = .ok (D.repeated z k.toInt.toNat)) ∧
    (∀ k : Int32, k < 0 →
      D.power spec z k = .ok (D.binary .div D.one (D.repeated z (-k.toInt).toNat))) ∧
    D.power spec z Int32.minValue = .ok (D.binary .div D.one (D.repeated z 2147483648)) := by
  have hpower (k : Int32) : D.power spec z k = .ok (if k < 0
      then D.binary .div D.one (D.repeated z k.toInt.natAbs) else D.repeated z k.toInt.natAbs) := by
    unfold Domain.power
    simp only [hmul.bySquaring_eq hsq.square_eq, hsq.square_eq]
    cases spec.square <;> rfl
  have hnegative (k : Int32) (hk : k < 0) :
      D.power spec z k = .ok (D.binary .div D.one (D.repeated z (-k.toInt).toNat)) := by
    have hsign : k.toInt < 0 := Int32.lt_iff_toInt_lt.mp hk
    have habs : k.toInt.natAbs = (-k.toInt).toNat := by omega
    rw [hpower, if_pos hk, habs]
  refine ⟨fun k hk => ?_, hnegative, hnegative Int32.minValue (by decide)⟩
  have hsign : 0 ≤ k.toInt := Int32.le_iff_toInt_le.mp hk
  have habs : k.toInt.natAbs = k.toInt.toNat := by omega
  rw [hpower, if_neg (Int32.not_lt.mpr hk), habs]

/-- Words of 64 bits, which wrap around, with a helper that squares. -/
def Domain.wrapping : Domain Int64 where
  name := "wrapping"
  zero := 0
  one := 1
  literal x := x.toFloat.toInt64
  binary op x y :=
    match op with
    | .add => x + y
    | .sub => x - y
    | .mul => x * y
    | .div => x / y
  neg x := -x
  method name _ _ := .error (.missingHelper name)
  helper name args :=
    match name, args with
    | "square", [x] => .ok (x * x)
    | _, _ => .error (.missingHelper name)
  toHost x := .int x
  ofHost v :=
    match v with
    | .int x => .ok x
    | _ => .error (.conversion v.text "wrapping")

/-- A power that wraps around and an inverse, both with the helper. -/
theorem power_eq_repeated_wrapping :
    Domain.wrapping.power (.full (some "square")) (-3) 41 = .ok 420491770248316829 ∧
      Domain.wrapping.power (.full (some "square")) (-1) (-5) = .ok (-1) := by
  have hmul : Domain.wrapping.HasUnitalProduct :=
    ⟨Int64.mul_assoc, Int64.one_mul, Int64.mul_one⟩
  have hsq : Domain.wrapping.SquaresByProduct (Power.Spec.full (some "square")).square := by
    rintro name ⟨⟩ x
    rfl
  constructor
  · rw [(power_eq_repeated hmul hsq (-3)).1 41 (by decide)]
    exact congrArg Except.ok (by decide)
  · rw [(power_eq_repeated hmul hsq (-1)).2.1 (-5) (by decide)]
    exact congrArg Except.ok (by decide)

end StackForge
