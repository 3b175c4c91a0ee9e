import StackForge.Proofs.Body

/-!
Evaluation taken apart: what the result of an expression, of a list of expressions and of statements
says about its parts. All that an operand or an output by itself can be blamed for is a malformed
body.
-/
namespace StackForge

theorem bind_eq_error_iff {ε α β : Type} {x : Except ε α} {g : α → Except ε β} {e : ε} :
    (x >>= g) = .error e ↔ x = .error e ∨ ∃ a, x = .ok a ∧ g a = .error e := by
  cases x with
  | ok a => simp [bind, Except.bind]
  | error e' => simp [bind, Except.bind]

namespace BodyContext

variable {V : Type} {ctx : BodyContext V} {f : Frame V} {failure : Failure}

/-! Operands that are needed as values, in terms of `value`. -/

theorem operand_neg (x : Expr) (span : Span) : ctx.operand f (.neg x span) = (do
    let v ← ctx.value f x
    return .value (ctx.domain.neg v)) :=
  (bind_assoc _ _ _).symm

theorem operand_binary (op : BinOp) (l r : Expr) (span : Span) :
    ctx.operand f (.binary op l r span) = (do
      let v ← ctx.value f l
      let w ← ctx.value f r
      return .value (ctx.domain.binary op v w)) := by
  simp only [value, bind_assoc]
  rfl

theorem operand_call (callee : Ident) (args : List Expr) (span : Span) :
    ctx.operand f (.call callee args span) = (do
      let os ← ctx.operands f args
      return .value (← ctx.call callee.name os)) := rfl

theorem operand_method (r : Expr) (name : Ident) (args : List Expr) (span : Span) :
    ctx.operand f (.method r name args span) = (do
      let v ← ctx.value f r
      let vs ← ctx.values f args
      return .value (← ctx.domain.method name.name v vs)) :=
  (bind_assoc _ _ _).symm

theorem operands_cons (e : Expr) (rest : List Expr) : ctx.operands f (e :: rest) = (do
    let o ← ctx.operand f e
    return o :: (← ctx.operands f rest)) := rfl

theorem values_cons (e : Expr) (rest : List Expr) : ctx.values f (e :: rest) = (do
    let v ← ctx.value f e
    return v :: (← ctx.values f rest)) :=
  (bind_assoc _ _ _).symm

theorem value_of_error {e : Expr} (h : ctx.operand f e = .error failure) :
    ctx.value f e = .error failure :=
  bind_eq_error_iff.mpr (.inl h)

theorem operand_neg_error {x : Expr} {span : Span} :
    ctx.operand f (.neg x span) = .error failure ↔ ctx.value f x = .error failure := by
  rw [operand_neg, bind_eq_error_iff]
  simp [pure, Except.pure]

theorem operand_binary_error {op : BinOp} {l r : Expr} {span : Span} :
    ctx.operand f (.binary op l r span) = .error failure ↔
      ctx.value f l = .error failure ∨
        ∃ v, ctx.value f l = .ok v ∧ ctx.value f r = .error failure := by
  rw [operand_binary, bind_eq_error_iff]
  simp [bind_eq_error_iff, pure, Except.pure]

theorem operand_call_error {callee : Ident} {args : List Expr} {span : Span} :
    ctx.operand f (.call callee args span) = .error failure ↔
      ctx.operands f args = .error failure ∨
        ∃ os, ctx.operands f args = .ok os ∧ ctx.call callee.name os = .error failure := by
  rw [operand_call, bind_eq_error_iff]
  simp [bind_eq_error_iff, pure, Except.pure]

theorem operand_method_error {r : Expr} {name : Ident} {args : List Expr} {span : Span} :
    ctx.operand f (.method r name args span) = .error failure ↔
      ctx.value f r = .error failure ∨ ∃ v, ctx.value f r = .ok v ∧
        (ctx.values f args = .error failure ∨ ∃ vs, ctx.values f args = .ok vs ∧
          ctx.domain.method name.name v vs = .error failure) := by
  rw [operand_method, bind_eq_error_iff]
  simp [bind_eq_error_iff, pure, Except.pure]

theorem operands_cons_error {e : Expr} {rest : List Expr} :
    ctx.operands f (e :: rest) = .error failure ↔ ctx.operand f e = .error failure ∨
      ∃ o, ctx.operand f e = .ok o ∧ ctx.operands f rest = .error failure := by
  rw [operands_cons, bind_eq_error_iff]
  simp [bind_eq_error_iff, pure, Except.pure]

theorem values_cons_error {e : Expr} {rest : List Expr} :
    ctx.values f (e :: rest) = .error failure ↔ ctx.value f e = .error failure ∨
      ∃ v, ctx.value f e = .ok v ∧ ctx.values f rest = .error failure := by
  rw [values_cons, bind_eq_error_iff]
  simp [bind_eq_error_iff, pure, Except.pure]

theorem operands_cons_ok {e : Expr} {rest : List Expr} {os : List (Operand V)} :
    ctx.operands f (e :: rest) = .ok os ↔
      ∃ o os', ctx.operand f e = .ok o ∧ ctx.operands f rest = .ok os' ∧ os = o :: os' := by
  constructor
  · intro h
    obtain ⟨o, ho, h⟩ := bind_eq_ok h
    obtain ⟨os', hos', h⟩ := bind_eq_ok h
    cases h
    exact ⟨o, os', ho, hos', rfl⟩
  · rintro ⟨o, os', ho, hos', rfl⟩
    rw [operands_cons, ho, hos']
    rfl

theorem values_cons_ok {e : Expr} {rest : List Expr} {vs : List V} :
    ctx.values f (e :: rest) = .ok vs ↔
      ∃ v vs', ctx.value f e = .ok v ∧ ctx.values f rest = .ok vs' ∧ vs = v :: vs' := by
  rw [values_cons]
  constructor
  · intro h
    obtain ⟨v, hv, h⟩ := bind_eq_ok h
    obtain ⟨vs', hvs', h⟩ := bind_eq_ok h
    cases h
    exact ⟨v, vs', hv, hvs', rfl⟩
  · rintro ⟨v, vs', hv, hvs', rfl⟩
    rw [hv, hvs']
    rfl

theorem length_of_operands {es : List Expr} {os : List (Operand V)}
    (h : ctx.operands f es = .ok os) : os.length = es.length := by
  induction es generalizing os with
  | nil =>
    cases h
    rfl
  | cons e rest ih =>
    obtain ⟨o, os', -, hrest, rfl⟩ := operands_cons_ok.mp h
    rw [List.length_cons, ih hrest, List.length_cons]

theorem length_of_values {es : List Expr} {vs : List V} (h : ctx.values f es = .ok vs) :
    vs.length = es.length := by
  induction es generalizing vs with
  | nil =>
    cases h
    rfl
  | cons e rest ih =>
    obtain ⟨v, vs', -, hrest, rfl⟩ := values_cons_ok.mp h
    rw [List.length_cons, ih hrest, List.length_cons]

/-- The first operand that fails decides. -/
theorem operands_of_error {before after : List Expr} {a : Expr} {os : List (Operand V)}
    (hbefore : ctx.operands f before = .ok os) (ha : ctx.operand f a = .error failure) :
    ctx.operands f (before ++ a :: after) = .error failure := by
  induction before generalizing os with
  | nil => exact operands_cons_error.mpr (.inl ha)
  | cons e rest ih =>
    obtain ⟨o, os', he, hrest, -⟩ := operands_cons_ok.mp hbefore
    exact operands_cons_error.mpr (.inr ⟨o, he, ih hrest⟩)

theorem values_of_error {before after : List Expr} {a : Expr} {vs : List V}
    (hbefore : ctx.values f before = .ok vs) (ha : ctx.operand f a = .error failure) :
    ctx.values f (before ++ a :: after) = .error failure := by
  induction before generalizing vs with
  | nil => exact values_cons_error.mpr (.inl (value_of_error ha))
  | cons e rest ih =>
    obtain ⟨v, vs', he, hrest, -⟩ := values_cons_ok.mp hbefore
    exact values_cons_error.mpr (.inr ⟨v, he, ih hrest⟩)

/-- A failure that does not blame the body comes from the operand, not from reading it as a
value. -/
theorem operand_of_value (hbody : ∀ name message, failure ≠ .malformedBody name message) {e : Expr}
    (h : ctx.value f e = .error failure) : ctx.operand f e = .error failure := by
  rcases bind_eq_error_iff.mp h with h | ⟨o, -, ho⟩
  · exact h
  · cases o with
    | value v => cases ho
    | _ => exact (hbody _ _ (Except.error.inj ho).symm).elim

/-- A statement that does not return leaves a frame for those behind it. -/
theorem runStmts_cons (f : Frame V) (s : Stmt) (rest : List Stmt) :
    ctx.runStmts f (s :: rest) = ctx.runStmts f [s] >>= fun r =>
      match r with
      | (f', none) => ctx.runStmts f' rest
      | (f', some v) => .ok (f', some v) := by
  cases s with
  | bind id e span =>
    simp only [runStmts]
    cases ctx.operand f e with
    | ok o => rfl
    | error e => rfl
  | assign target e span =>
    simp only [runStmts]
    cases ctx.value f e with
    | error e => rfl
    | ok v =>
      simp only [bind, Except.bind]
      cases Binding.classify target.name with
      | output k =>
        dsimp only
        cases f.setOutput? k v <;> rfl
      | _ => rfl
  | ret e span =>
    simp only [runStmts]
    cases ctx.value f e with
    | ok v => rfl
    | error e => rfl

theorem runStmts_append {before after : List Stmt} {f f' : Frame V}
    (h : ctx.runStmts f before = .ok (f', none)) :
    ctx.runStmts f (before ++ after) = ctx.runStmts f' after := by
  induction before generalizing f with
  | nil =>
    cases h
    rfl
  | cons s rest ih =>
    rw [runStmts_cons] at h
    obtain ⟨⟨g, r⟩, hs, h⟩ := bind_eq_ok h
    rw [List.cons_append, runStmts_cons, hs]
    cases r with
    | none => exact ih h
    | some v => cases h

/-- A statement fails if its value does, and otherwise has no failure that needs a mark. -/
theorem runStmts_of_error {s : Stmt} {rest : List Stmt}
    (h : ctx.operand f s.value = .error failure) :
    ctx.runStmts f (s :: rest) = .error failure := by
  cases s with
  | bind id e span => exact bind_eq_error_iff.mpr (.inl h)
  | assign target e span => exact bind_eq_error_iff.mpr (.inl (value_of_error h))
  | ret e span => exact bind_eq_error_iff.mpr (.inl (value_of_error h))

theorem operand_of_runStmts (hbody : ∀ name message, failure ≠ .malformedBody name message)
    {s : Stmt} (h : ctx.runStmts f [s] = .error failure) :
    ctx.operand f s.value = .error failure := by
  cases s with
  | bind id e span =>
    rcases bind_eq_error_iff.mp h with h | ⟨o, -, h⟩
    · exact h
    · cases h
  | assign target e span =>
    rcases bind_eq_error_iff.mp h with h | ⟨v, -, h⟩
    · exact operand_of_value hbody h
    · split at h
      · split at h
        · cases h
        · exact (hbody _ _ (Except.error.inj h).symm).elim
      · exact (hbody _ _ (Except.error.inj h).symm).elim
  | ret e span =>
    rcases bind_eq_error_iff.mp h with h | ⟨v, -, h⟩
    · exact operand_of_value hbody h
    · cases h

theorem finish_ne_error (hbody : ∀ name message, failure ≠ .malformedBody name message) :
    ctx.finish f ≠ .error failure := by
  unfold finish
  split
  · rintro ⟨⟩
  · intro h
    exact hbody _ _ (Except.error.inj h).symm

end BodyContext
end StackForge
