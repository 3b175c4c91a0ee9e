import Mathlib.Data.List.Basic
import StackForge.Engine

/-!
The two ways of raising to a power agree. Straight line code squares as often as the loop does and
multiplies the same powers in the same order, whatever the product is; so the power of the engine
is the power of the domain wherever squaring cannot fail.
-/
namespace StackForge
namespace Power

variable {α ε : Type}

theorem factorsFrom_double (unit n : Nat) :
    factorsFrom (2 * unit) n = (factorsFrom unit n).map (2 * ·) := by
  induction n using Nat.strongRecOn generalizing unit with
  | ind n ih =>
    by_cases hn : n = 0
    · subst hn
      simp [factorsFrom]
    · have hhalf := ih (n / 2) (by omega) (2 * unit)
      rw [factorsFrom, factorsFrom.eq_def unit n, if_neg hn, if_neg hn, hhalf]
      split <;> simp

theorem pos_of_mem_factorsFrom {unit n f : Nat} (hunit : 0 < unit) (h : f ∈ factorsFrom unit n) :
    0 < f := by
  fun_induction factorsFrom unit n with
  | case1 => cases h
  | case2 unit n _ _ ih =>
    rcases List.mem_cons.mp h with rfl | h
    · exact hunit
    · exact ih (by omega) h
  | case3 unit n _ _ ih => exact ih (by omega) h

/-- The powers that the bits of `n` select, where `powers` are the repeated squares. -/
def selected (n : Nat) (powers : List α) : List α :=
  (factorsFrom 1 n).filterMap fun f => powers[f.log2]?

@[simp] theorem selected_zero (powers : List α) : selected 0 powers = [] := by
  simp [selected, factorsFrom]

/-- The lowest bit selects the first power, the other bits select among the others. -/
theorem selected_cons {n : Nat} (hn : n ≠ 0) (z : α) (powers : List α) :
    selected n (z :: powers)
      = if n % 2 = 1 then z :: selected (n / 2) powers else selected (n / 2) powers := by
  have hshift : (factorsFrom (2 * 1) (n / 2)).filterMap (fun f => (z :: powers)[f.log2]?)
      = selected (n / 2) powers := by
    rw [factorsFrom_double, List.filterMap_map, selected]
    apply List.filterMap_congr
    intro f hf
    have hpos : f ≠ 0 := Nat.ne_of_gt (pos_of_mem_factorsFrom Nat.one_pos hf)
    simp [Nat.log2_two_mul hpos]
  unfold selected at hshift ⊢
  rw [factorsFrom.eq_def 1 n, if_neg hn]
  split
  · rw [List.filterMap_cons, hshift]
    rfl
  · exact hshift

/-- Multiply onto a product that may still be empty. -/
def accumulate (mul : α → α → α) : Option α → List α → Option α
  | acc, [] => acc
  | none, x :: rest => accumulate mul (some x) rest
  | some a, x :: rest => accumulate mul (some (mul a x)) rest

theorem accumulate_some (mul : α → α → α) (a : α) (xs : List α) :
    accumulate mul (some a) xs = some (xs.foldl mul a) := by
  induction xs generalizing a with
  | nil => rfl
  | cons x rest ih => exact ih (mul a x)

theorem getD_accumulate (one : α) (mul : α → α → α) (xs : List α) :
    (accumulate mul none xs).getD one = product one mul xs := by
  cases xs with
  | nil => rfl
  | cons x rest =>
    rw [accumulate, accumulate_some]
    rfl

theorem squares_succ (sq : α → Except ε α) (k : Nat) (z : α) :
    squares sq (k + 1) z
      = match sq z with
        | .ok next => (squares sq k next).map (z :: ·)
        | .error e => .error e := by
  rw [squares]
  cases sq z with
  | error e => rfl
  | ok next =>
    change (squares sq k next >>= fun powers => .ok (z :: powers))
      = (squares sq k next).map (z :: ·)
    cases squares sq k next <;> rfl

/-- The loop squares as often as the highest bit asks, and multiplies what the bits select. -/
theorem loop_eq (mul : α → α → α) (sq : α → Except ε α) (acc : Option α) (z : α) {n : Nat}
    (hn : n ≠ 0) :
    loop mul sq acc z n
      = (squares sq n.log2 z).map fun powers => accumulate mul acc (selected n powers) := by
  induction n using Nat.strongRecOn generalizing acc z with
  | ind n ih =>
    have hlow : ∀ powers, accumulate mul acc (selected n (z :: powers))
        = accumulate mul (if n % 2 = 1 then acc.elim (some z) fun a => some (mul a z) else acc)
            (selected (n / 2) powers) := by
      intro powers
      rw [selected_cons hn]
      split
      · cases acc <;> rfl
      · rfl
    rw [loop.eq_def, if_neg hn]
    dsimp only
    by_cases hhalf : n / 2 = 0
    · have hlog : n.log2 = 0 := by
        have hone : n = 1 := by omega
        subst hone
        rfl
      rw [if_pos hhalf, hlog, squares]
      simp only [Except.map, hlow, hhalf, selected_zero]
      cases acc <;> rfl
    · have hlog : n.log2 = (n / 2).log2 + 1 := by
        rw [Nat.log2_def, if_pos (by omega)]
      rw [if_neg hhalf, hlog, squares_succ]
      cases sq z with
      | error e => rfl
      | ok next =>
        dsimp only
        rw [ih (n / 2) (by omega) _ next hhalf]
        cases squares sq (n / 2).log2 next with
        | error e => rfl
        | ok powers => cases acc <;> exact congrArg Except.ok (hlow powers).symm

/-- Straight line code computes what the loop computes, failures included. -/
theorem byPlan_eq_bySquaring (one : α) (mul : α → α → α) (sq : α → Except ε α) (z : α) {n : Nat}
    (hn : n ≠ 0) : byPlan one mul sq z n = bySquaring one mul sq z n := by
  rw [bySquaring, loop_eq mul sq none z hn]
  simp only [byPlan, plan]
  cases squares sq n.log2 z with
  | error e => rfl
  | ok powers => exact congrArg Except.ok (getD_accumulate one mul (selected n powers)).symm

end Power

/-- The generated function agrees with the loop for every exponent. -/
theorem Engine.magnitude_eq {V : Type} (D : Domain V) (spec : Power.Spec) (z : V) (n : Nat) :
    magnitude D spec z n
      = Power.bySquaring D.one (D.binary .mul) (D.square spec.square) z n := by
  unfold magnitude
  split
  · rename_i hn
    subst hn
    simp [Power.bySquaring, Power.loop, Except.map]
  · rename_i hn
    split
    · exact Power.byPlan_eq_bySquaring _ _ _ z hn
    · rfl

/-- A way of squaring that never fails. -/
def Domain.Squares {V : Type} (D : Domain V) (helper : Option String) : Prop :=
  ∀ x, ∃ y, D.square helper x = .ok y

/-- The domain tries its helper once more than the engine does, which makes no difference if that
cannot fail. -/
theorem Engine.power_eq {V : Type} {e : Engine V} {spec : Power.Spec}
    (hspec : e.descriptor.power = some spec) (hsq : e.domain.Squares spec.square) (z : V)
    (k : Int32) : e.power z k = e.domain.power spec z k := by
  obtain ⟨y, hy⟩ := hsq z
  simp only [power, hspec, magnitude_eq, Domain.power, hy]
  cases spec.square <;> rfl

end StackForge
