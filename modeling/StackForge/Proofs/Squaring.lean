import Mathlib.Algebra.Order.BigOperators.Group.List
import Mathlib.Tactic.Ring
import StackForge.Proofs.Power

/-!
Power by squaring and its plan. Squaring is tried on a value, on its square, and so on, as often as
the highest bit of the exponent asks or up to the first failure; the powers that the bits select are
multiplied from the lowest to the highest. No law of the product is used, so that results agree bit
for bit where products are rounded.
-/
namespace StackForge
namespace Power

variable {α ε : Type}

theorem sum_factorsFrom (unit n : Nat) : (factorsFrom unit n).sum = unit * n := by
  fun_induction factorsFrom unit n with
  | case1 => simp
  | case2 unit n hn hodd ih =>
    have hhalves : n = 2 * (n / 2) + 1 := by omega
    calc unit + (factorsFrom (2 * unit) (n / 2)).sum
        = unit * (2 * (n / 2) + 1) := by rw [ih]; ring
      _ = unit * n := by rw [← hhalves]
  | case3 unit n hn heven ih =>
    have hhalves : n = 2 * (n / 2) := by omega
    calc (factorsFrom (2 * unit) (n / 2)).sum
        = unit * (2 * (n / 2)) := by rw [ih]; ring
      _ = unit * n := by rw [← hhalves]

theorem exists_of_mem_factorsFrom {unit n f : Nat} (h : f ∈ factorsFrom unit n) :
    ∃ b, f = unit * 2 ^ b := by
  fun_induction factorsFrom unit n with
  | case1 => cases h
  | case2 unit n _ _ ih =>
    rcases List.mem_cons.mp h with rfl | h
    · exact ⟨0, by simp⟩
    · obtain ⟨b, rfl⟩ := ih h
      exact ⟨b + 1, by ring⟩
  | case3 unit n _ _ ih =>
    obtain ⟨b, rfl⟩ := ih h
    exact ⟨b + 1, by ring⟩

theorem pairwise_factorsFrom {unit : Nat} (hunit : 0 < unit) (n : Nat) :
    (factorsFrom unit n).Pairwise (· < ·) := by
  fun_induction factorsFrom unit n with
  | case1 => exact .nil
  | case2 unit n _ _ ih =>
    refine .cons ?_ (ih (by omega))
    intro f hf
    obtain ⟨b, rfl⟩ := exists_of_mem_factorsFrom hf
    calc unit < 2 * unit := by omega
      _ ≤ 2 * unit * 2 ^ b := Nat.le_mul_of_pos_right _ (Nat.two_pow_pos b)
  | case3 unit n _ _ ih => exact ih (by omega)

/-- What a plan for an exponent is: the powers of two that make it up, each once and in ascending
order, and as many squarings as the highest of them takes. -/
structure Plan.Fits (p : Plan) (n : Nat) : Prop where
  powers : ∀ f ∈ p.factors, ∃ b, f = 2 ^ b
  ascending : p.factors.Pairwise (· < ·)
  sum : p.factors.sum = n
  zero : n = 0 → p.squarings = 0
  floor : n ≠ 0 → 2 ^ p.squarings ≤ n ∧ n < 2 ^ (p.squarings + 1)

theorem plan_fits (n : Nat) : (plan n).Fits n where
  powers := by
    intro f hf
    obtain ⟨b, rfl⟩ := exists_of_mem_factorsFrom hf
    exact ⟨b, Nat.one_mul _⟩
  ascending := pairwise_factorsFrom Nat.one_pos n
  sum := by rw [plan, sum_factorsFrom, Nat.one_mul]
  zero := by
    rintro rfl
    rfl
  floor hn := ⟨Nat.log2_self_le hn, Nat.lt_log2_self⟩

/-- Every factor of a plan selects one of the repeated squares that the plan asks for. -/
theorem forall₂_selected {n : Nat} {powers : List α} (h : powers.length = n.log2 + 1) :
    List.Forall₂ (fun f p => ∃ b, f = 2 ^ b ∧ powers[b]? = some p) (plan n).factors
      (selected n powers) := by
  have hsome : ∀ f ∈ (plan n).factors, ∃ b p, f = 2 ^ b ∧ powers[b]? = some p := by
    intro f hf
    obtain ⟨b, rfl⟩ := (plan_fits n).powers f hf
    have hle : 2 ^ b ≤ n := by
      rw [← (plan_fits n).sum]
      exact List.single_le_sum (fun _ _ => Nat.zero_le _) _ hf
    have hlog : b < n.log2 + 1 := by
      rw [← Nat.pow_lt_pow_iff_right (a := 2) (by omega)]
      exact Nat.lt_of_le_of_lt hle Nat.lt_log2_self
    exact ⟨b, powers[b], rfl, List.getElem?_eq_getElem (h ▸ hlog)⟩
  change List.Forall₂ _ _ ((plan n).factors.filterMap fun f => powers[f.log2]?)
  generalize (plan n).factors = factors at hsome
  induction factors with
  | nil => exact .nil
  | cons f rest ih =>
    obtain ⟨⟨b, p, rfl, hp⟩, hrest⟩ := List.forall_mem_cons.mp hsome
    simp only [List.filterMap_cons, Nat.log2_two_pow, hp]
    exact .cons ⟨b, rfl, hp⟩ (ih hrest)

/-! ### The calls of the loop -/

/-- The loop with any effect in the place of failures. -/
def loopIn {m : Type → Type} [Monad m] (mul : α → α → α) (sq : α → m α) (acc : Option α) (base : α)
    (n : Nat) : m (Option α) :=
  if n = 0 then pure acc
  else
    let acc :=
      if n % 2 = 1 then
        match acc with
        | some a => some (mul a base)
        | none => some base
      else acc
    if n / 2 = 0 then pure acc
    else do
      let next ← sq base
      loopIn mul sq acc next (n / 2)
  termination_by n

def bySquaringIn {m : Type → Type} [Monad m] (one : α) (mul : α → α → α) (sq : α → m α) (z : α)
    (n : Nat) : m α := do
  return (← loopIn mul sq none z n).getD one

theorem loopIn_except (mul : α → α → α) (sq : α → Except ε α) (acc : Option α) (z : α) (n : Nat) :
    loopIn mul sq acc z n = loop mul sq acc z n := by
  fun_induction loop mul sq acc z n with
  | case1 =>
    rw [loopIn.eq_def]
    rfl
  | case2 acc z n hn acc' hhalf =>
    rw [loopIn.eq_def, if_neg hn, if_pos hhalf]
    rfl
  | case3 acc z n hn acc' hhalf next hnext ih =>
    rw [loopIn.eq_def, if_neg hn, if_neg hhalf, hnext]
    exact ih
  | case4 acc z n hn hhalf e he =>
    rw [loopIn.eq_def, if_neg hn, if_neg hhalf, he]
    rfl

/-- Without other effects this is the power by squaring. -/
theorem bySquaringIn_except (one : α) (mul : α → α → α) (sq : α → Except ε α) (z : α) (n : Nat) :
    bySquaringIn one mul sq z n = bySquaring one mul sq z n := by
  rw [bySquaringIn, bySquaring, loopIn_except]
  cases loop mul sq none z n <;> rfl

/-- Squaring that also records what it is called on. -/
def recorded (sq : α → Except ε α) (x : α) : ExceptT ε (StateM (List α)) α :=
  ExceptT.mk fun calls => (sq x, calls ++ [x])

/-- The values that squaring is tried on, up to the first failure. -/
def tried (sq : α → Except ε α) : Nat → α → List α
  | 0, _ => []
  | k + 1, z =>
    z :: match sq z with
      | .ok next => tried sq k next
      | .error _ => []

/-- Recording does not change the loop, and squaring is tried as often as the highest bit asks. -/
theorem run_loopIn_recorded (mul : α → α → α) (sq : α → Except ε α) (acc : Option α) (z : α)
    (n : Nat) (calls : List α) :
    (loopIn mul (recorded sq) acc z n).run.run calls
      = (loop mul sq acc z n, calls ++ tried sq n.log2 z) := by
  fun_induction loop mul sq acc z n generalizing calls with
  | case1 acc z =>
    rw [loopIn.eq_def, if_pos rfl]
    exact congrArg (Prod.mk _) (List.append_nil calls).symm
  | case2 acc z n hn acc' hhalf =>
    have hlog : n.log2 = 0 := by rw [Nat.log2_def, if_neg (by omega)]
    rw [loopIn.eq_def, if_neg hn, if_pos hhalf, hlog]
    exact congrArg (Prod.mk _) (List.append_nil calls).symm
  | case3 acc z n hn acc' hhalf next hnext ih =>
    have hlog : n.log2 = (n / 2).log2 + 1 := by rw [Nat.log2_def, if_pos (by omega)]
    have hstep := ih (calls ++ [z])
    rw [List.append_assoc, List.singleton_append] at hstep
    rw [loopIn.eq_def, if_neg hn, if_neg hhalf, hlog, tried, hnext, ← hstep]
    simp only [recorded, hnext]
    rfl
  | case4 acc z n hn hhalf e he =>
    have hlog : n.log2 = (n / 2).log2 + 1 := by rw [Nat.log2_def, if_pos (by omega)]
    rw [loopIn.eq_def, if_neg hn, if_neg hhalf, hlog, tried, he]
    simp only [recorded, he]
    rfl

theorem run_bySquaringIn_recorded (one : α) (mul : α → α → α) (sq : α → Except ε α) (z : α)
    (n : Nat) :
    (bySquaringIn one mul (recorded sq) z n).run.run []
      = (bySquaring one mul sq z n, tried sq n.log2 z) := by
  have hloop := run_loopIn_recorded mul sq none z n []
  rw [List.nil_append] at hloop
  rw [bySquaringIn, bySquaring]
  simp only [ExceptT.run_bind, StateT.run_bind, hloop]
  cases loop mul sq none z n <;> rfl

/-- A value, its square, the square of that, and so on. -/
def Repeated (sq : α → Except ε α) (z : α) (powers : List α) : Prop :=
  powers.head? = some z ∧ powers.IsChain fun x y => sq x = .ok y

theorem Repeated.cons {sq : α → Except ε α} {z next : α} {powers : List α} (hz : sq z = .ok next)
    (h : Repeated sq next powers) : Repeated sq z (z :: powers) := by
  cases powers with
  | nil => cases h.1
  | cons x rest =>
    obtain ⟨hhead, hchain⟩ := h
    cases hhead
    exact ⟨rfl, List.isChain_cons_cons.mpr ⟨hz, hchain⟩⟩

/-- Repeated squaring ends with all the powers or at the first value whose square fails. -/
theorem squares_cases (sq : α → Except ε α) (k : Nat) (z : α) :
    (∃ powers, squares sq k z = .ok powers ∧ Repeated sq z powers ∧ powers.length = k + 1 ∧
      tried sq k z = powers.dropLast) ∨
    ∃ powers last e, squares sq k z = .error e ∧ Repeated sq z (powers ++ [last]) ∧
      powers.length < k ∧ sq last = .error e ∧ tried sq k z = powers ++ [last] := by
  induction k generalizing z with
  | zero => exact .inl ⟨[z], rfl, ⟨rfl, .singleton z⟩, rfl, rfl⟩
  | succ k ih =>
    cases hz : sq z with
    | error e =>
      exact .inr ⟨[], z, e, by simp [squares_succ, hz], ⟨rfl, .singleton z⟩, Nat.succ_pos k, hz,
        by simp [tried, hz]⟩
    | ok next =>
      rcases ih next with ⟨powers, hsquares, hpowers, hlength, htried⟩
        | ⟨powers, last, e, hsquares, hpowers, hlength, hlast, htried⟩
      · have hne : powers ≠ [] := by
          rintro rfl
          cases hlength
        exact .inl ⟨z :: powers, by simp [squares_succ, hz, hsquares, Except.map], hpowers.cons hz,
          by simp [hlength], by simp [tried, hz, htried, List.dropLast_cons_of_ne_nil hne]⟩
      · exact .inr ⟨z :: powers, last, e, by simp [squares_succ, hz, hsquares, Except.map],
          hpowers.cons hz, by simpa using hlength, hlast, by simp [tried, hz, htried]⟩

theorem length_of_squares {sq : α → Except ε α} {k : Nat} {z : α} {powers : List α}
    (h : squares sq k z = .ok powers) : powers.length = k + 1 := by
  rcases squares_cases sq k z with ⟨_, hsquares, -, hlength, -⟩ | ⟨_, _, _, hsquares, -⟩
  · cases h.symm.trans hsquares
    exact hlength
  · cases h.symm.trans hsquares

/-- The power by squaring is the product of the selected powers, for every exponent. -/
theorem bySquaring_eq_map (one : α) (mul : α → α → α) (sq : α → Except ε α) (z : α) (n : Nat) :
    bySquaring one mul sq z n
      = (squares sq n.log2 z).map fun powers => product one mul (selected n powers) := by
  by_cases hn : n = 0
  · subst hn
    simp [bySquaring, loop, squares, Except.map, product]
  · rw [← byPlan_eq_bySquaring one mul sq z hn]
    simp only [byPlan, plan]
    cases squares sq n.log2 z <;> rfl

/-- How a power goes by a plan: the values that squaring is called on, and the result. The powers
are the value squared as often as their place says, and the product is taken from left to right. -/
inductive Follows (p : Plan) (one : α) (mul : α → α → α) (sq : α → Except ε α) (z : α) :
    List α → Except ε α → Prop where
  | done {powers ps : List α} (hpowers : Repeated sq z powers)
      (hlength : powers.length = p.squarings + 1)
      (hps : List.Forall₂ (fun f p => ∃ b, f = 2 ^ b ∧ powers[b]? = some p) p.factors ps) :
      Follows p one mul sq z powers.dropLast (.ok (product one mul ps))
  | failed {powers : List α} {last : α} {e : ε} (hpowers : Repeated sq z (powers ++ [last]))
      (hlength : powers.length < p.squarings) (hlast : sq last = .error e) :
      Follows p one mul sq z (powers ++ [last]) (.error e)

theorem follows_plan (one : α) (mul : α → α → α) (sq : α → Except ε α) (z : α) (n : Nat) :
    Follows (plan n) one mul sq z (tried sq n.log2 z) (bySquaring one mul sq z n) := by
  rw [bySquaring_eq_map]
  rcases squares_cases sq n.log2 z with ⟨powers, hsquares, hpowers, hlength, htried⟩
    | ⟨powers, last, e, hsquares, hpowers, hlength, hlast, htried⟩
  · rw [hsquares, htried]
    exact .done hpowers hlength (forall₂_selected hlength)
  · rw [hsquares, htried]
    exact .failed hpowers hlength hlast

end Power
end StackForge
