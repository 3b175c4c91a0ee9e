import StackForge.Emission.Engine
import StackForge.Proofs.Exponent
import StackForge.Proofs.Inversion
import StackForge.Proofs.Squaring

/-!
The generated cases of small exponents. Each one is straight line code: statements that bind the
repeated squares, and the product of some of them. Written out it is the generated text, and run by
the rules for bodies it is the power by squaring.
-/
namespace StackForge
namespace Power

open Layout

/-- The code of a case: the unit, or statements and the expression behind them. -/
inductive Straight where
  | unit
  | code (stmts : List Stmt) (result : Expr)

/-- The case of an exponent in generated code. One without statements stands on a line. -/
def Straight.items (r : Rendering) (decl : String) (n : Nat) : Straight → List Item
  | .unit => [.line s!"{n} => {decl}::ONE,"]
  | .code stmts result =>
    if stmts = [] then [.line s!"{n} => {result.render r},"]
    else
      [.enter s!"{n} => \x7b"] ++ (stmts.map fun s => .line (s.render r))
        ++ [.line (result.render r), .leave "\x7d"]

/-- Evaluate the code where the first variable is bound to a value. -/
def Straight.run {V : Type} (ctx : BodyContext V) (z : V) : Straight → Except Failure V
  | .unit => .ok ctx.domain.one
  | .code stmts result => do
    let (f, _) ← ctx.runStmts ((Frame.empty 0).define (variableName 1) (.value z)) stmts
    ctx.value f result

/-- The variable of a power. -/
def powerVar (power : Nat) : Expr := .var ⟨variableName power, .point 1 1⟩

def squareOf (square : Option String) (x : Expr) : Expr :=
  match square with
  | some f => .call ⟨f, .point 1 1⟩ [x] (.point 1 1)
  | none => .join .mul x x

/-- The statement for the next power of two. -/
def squareStmt (spec : Spec) (s : Nat) : Stmt :=
  .bind ⟨variableName (2 ^ (s + 1)), .point 1 1⟩ (squareOf spec.square (powerVar (2 ^ s)))
    (.point 1 1)

/-- The product of variables, from left to right. -/
def productOf (first : Nat) (rest : List Nat) : Expr :=
  rest.foldl (fun e f => .join .mul e (powerVar f)) (powerVar first)

theorem level_powerVar (power : Nat) : BinOp.mul.level < (powerVar power).level := by
  rw [powerVar, Expr.level]
  decide

/-- A variable behind a product needs no parentheses. -/
theorem render_join_powerVar (r : Rendering) {e : Expr} (he : BinOp.mul.level ≤ e.level)
    (power : Nat) :
    (Expr.join .mul e (powerVar power)).render r
      = e.render r ++ (" * " ++ variableName power) := by
  have hmark : " " ++ (BinOp.mul.text ++ (" " ++ variableName power))
      = " * " ++ variableName power := by
    rw [← String.append_assoc, ← String.append_assoc]
    rfl
  rw [Expr.join, Expr.render, ← hmark]
  simp only [Expr.parenthesize, Nat.not_lt.mpr he, Nat.not_le.mpr (level_powerVar power),
    decide_false, Bool.false_eq_true, if_false, String.append_assoc]
  rfl

theorem render_squareOf (r : Rendering) (spec : Spec) (power : Nat) :
    (squareOf spec.square (powerVar power)).render r = squareText spec (variableName power) := by
  unfold squareOf squareText
  cases spec.square with
  | none =>
    rw [render_join_powerVar r (level_powerVar power).le, ← String.append_assoc]
    rfl
  | some f => simp [powerVar, Expr.render, Expr.renderAll]

theorem render_squareStmt (r : Rendering) (spec : Spec) (s : Nat) :
    (squareStmt spec s).render r
      = s!"let {variableName (Nat.pow 2 (s + 1))} = {squareText spec (variableName (Nat.pow 2 s))};" := by
  rw [squareStmt, Stmt.render, render_squareOf]
  rfl

theorem intercalate_append (sep first more : String) (rest : List String) :
    sep.intercalate ((first ++ more) :: rest) = first ++ sep.intercalate (more :: rest) := by
  cases rest with
  | nil => simp
  | cons next rest => simp [String.intercalate_cons_cons, String.append_assoc]

theorem render_foldl_join (r : Rendering) {e : Expr} (he : BinOp.mul.level ≤ e.level)
    (rest : List Nat) :
    (rest.foldl (fun e f => Expr.join .mul e (powerVar f)) e).render r
      = " * ".intercalate (e.render r :: rest.map variableName) := by
  induction rest generalizing e with
  | nil => simp
  | cons f rest ih =>
    have hjoin : BinOp.mul.level ≤ (Expr.join .mul e (powerVar f)).level := Nat.le_refl _
    rw [List.foldl_cons, ih hjoin, render_join_powerVar r he, intercalate_append,
      intercalate_append, List.map_cons, String.intercalate_cons_cons, String.append_assoc]

theorem render_productOf (r : Rendering) (first : Nat) (rest : List Nat) :
    (productOf first rest).render r = " * ".intercalate ((first :: rest).map variableName) :=
  render_foldl_join r (level_powerVar first).le rest

/-- The straight line code for a power. -/
def straight (spec : Spec) (n : Nat) : Straight :=
  match (plan n).factors with
  | [] => .unit
  | first :: rest =>
    .code ((List.range (plan n).squarings).map (squareStmt spec)) (productOf first rest)

theorem factors_eq_nil_iff {n : Nat} : (plan n).factors = [] ↔ n = 0 := by
  constructor
  · intro h
    have hsum := (plan_fits n).sum
    rw [h] at hsum
    exact hsum.symm
  · rintro rfl
    simp [plan, factorsFrom]

/-- The generated text of a case is that of its straight line code. -/
theorem inlineItems_eq (r : Rendering) (spec : Spec) (decl : String) {n : Nat} (hn : n ≠ 0) :
    inlineItems spec n = (straight spec n).items r decl n := by
  cases hfactors : (plan n).factors with
  | nil => exact absurd (factors_eq_nil_iff.mp hfactors) hn
  | cons first rest =>
    simp only [inlineItems, straight, hfactors, Straight.items, render_productOf]
    by_cases hnone : (plan n).squarings = 0
    · simp [hnone]
    · have hsome : (List.range (plan n).squarings).map (squareStmt spec) ≠ [] := by simpa using hnone
      rw [if_neg hnone, if_neg hsome]
      simp only [List.map_map, Function.comp_def, render_squareStmt]

/-- The case of a small exponent stands in the generated function. -/
theorem exists_items (r : Rendering) (spec : Spec) (decl : String) {n : Nat}
    (hmax : n ≤ spec.inlineMax) :
    ∃ before after, items spec decl = before ++ (straight spec n).items r decl n ++ after := by
  by_cases hn : n = 0
  · have hunit : straight spec n = .unit := by simp only [straight, factors_eq_nil_iff.mpr hn]
    rw [hunit, hn]
    exact ⟨(items spec decl).take 11, (items spec decl).drop 12, rfl⟩
  · have hmem : n - 1 ∈ List.range spec.inlineMax := List.mem_range.mpr (by omega)
    obtain ⟨lower, higher, hrange⟩ := List.append_of_mem hmem
    rw [← inlineItems_eq r spec decl hn, items, hrange, List.flatMap_append, List.flatMap_cons,
      Nat.sub_add_cancel (by omega)]
    generalize inlineItems spec n = case
    simp only [List.append_assoc]
    exact ⟨_ ++ _, _, (List.append_assoc _ _ _).symm⟩

theorem toList_variableName (power : Nat) :
    (variableName power).toList = 'z' :: if power = 1 then [] else Nat.toDigits 10 power := by
  unfold variableName
  split
  · rfl
  · simp [toString, Nat.repr]

theorem variableName_inj {p q : Nat} (h : variableName p = variableName q) : p = q := by
  have htext := congrArg String.toList h
  rw [toList_variableName, toList_variableName, List.cons.injEq] at htext
  have hdigits := htext.2
  split at hdigits <;> split at hdigits
  · simp [*]
  · exact absurd hdigits.symm Nat.toDigits_ne_nil
  · exact absurd hdigits Nat.toDigits_ne_nil
  · simpa using congrArg (Nat.ofDigitChars 10 · 0) hdigits

section Run

variable {V : Type} {ctx : BodyContext V} {f : Frame V} {spec : Spec}

/-- The variable of a power is bound to a value. -/
def Holds (f : Frame V) (power : Nat) (x : V) : Prop := f.get? (variableName power) = some (.value x)

theorem get?_variableName (f : Frame V) (power : Nat) :
    f.get? (variableName power) = f.locals.lookup (variableName power) := by
  have hother : Binding.classify (variableName power) = .other := by
    rw [Binding.classify, toList_variableName]
    rfl
  rw [Frame.get?, hother]

theorem holds_define (f : Frame V) (power : Nat) (x : V) :
    Holds (f.define (variableName power) (.value x)) power x := by
  simp [Holds, get?_variableName, Frame.define]

theorem Holds.define {power other : Nat} {x y : V} (h : Holds f power x) (hne : power ≠ other) :
    Holds (f.define (variableName other) (.value y)) power x := by
  have hname : (variableName power == variableName other) = false :=
    beq_false_of_ne fun heq => hne (variableName_inj heq)
  rw [Holds, get?_variableName] at h ⊢
  simp [Frame.define, List.lookup_cons, hname, h]

theorem Holds.operand {power : Nat} {x : V} (h : Holds f power x) :
    ctx.operand f (powerVar power) = .ok (.value x) := by
  rw [powerVar, BodyContext.operand, BodyContext.lookup, h]

theorem Holds.value {power : Nat} {x : V} (h : Holds f power x) :
    ctx.value f (powerVar power) = .ok x := by
  rw [BodyContext.value, h.operand]
  rfl

theorem Holds.square {power : Nat} {x : V} (h : Holds f power x) :
    ctx.operand f (squareOf spec.square (powerVar power))
      = (ctx.domain.square spec.square x).map .value := by
  cases hsquare : spec.square with
  | none =>
    simp only [squareOf, Expr.join, BodyContext.operand, h.operand]
    rfl
  | some name =>
    simp only [squareOf, BodyContext.operand, BodyContext.operands, h.operand, Domain.square]
    change (do return Operand.value (← ctx.domain.helper name [x])) = _
    cases ctx.domain.helper name [x] <;> rfl

/-- The statements fail where repeated squaring does; otherwise they bind its results, and variables
of lower powers keep their values. -/
theorem runStmts_squares {x : V} (s k : Nat) (h : Holds f (2 ^ s) x) :
    (∃ e, squares (ctx.domain.square spec.square) k x = .error e ∧
      ctx.runStmts f ((List.range' s k).map (squareStmt spec)) = .error e) ∨
    ∃ powers f', squares (ctx.domain.square spec.square) k x = .ok powers ∧
      ctx.runStmts f ((List.range' s k).map (squareStmt spec)) = .ok (f', none) ∧
      (∀ j y, powers[j]? = some y → Holds f' (2 ^ (s + j)) y) ∧
      ∀ j < s, ∀ y, Holds f (2 ^ j) y → Holds f' (2 ^ j) y := by
  induction k generalizing s f x with
  | zero =>
    refine .inr ⟨[x], f, rfl, rfl, ?_, fun j _ y hy => hy⟩
    intro j y hy
    cases j with
    | zero =>
      obtain rfl : x = y := by simpa using hy
      exact h
    | succ j => cases hy
  | succ k ih =>
    have hrun : ctx.runStmts f ((List.range' s (k + 1)).map (squareStmt spec))
        = ctx.domain.square spec.square x >>= fun y =>
          ctx.runStmts (f.define (variableName (2 ^ (s + 1))) (.value y))
            ((List.range' (s + 1) k).map (squareStmt spec)) := by
      rw [List.range'_succ, List.map_cons, squareStmt, BodyContext.runStmts, h.square]
      cases ctx.domain.square spec.square x <;> rfl
    rw [squares_succ, hrun]
    cases ctx.domain.square spec.square x with
    | error e => exact .inl ⟨e, rfl, rfl⟩
    | ok next =>
      rcases ih (s + 1) (holds_define f (2 ^ (s + 1)) next) with
        ⟨e, hsquares, hrest⟩ | ⟨powers, f', hsquares, hrest, hpowers, hlower⟩
      · exact .inl ⟨e, by simp [hsquares, Except.map], hrest⟩
      · have hkeep : ∀ j < s + 1, ∀ y, Holds f (2 ^ j) y → Holds f' (2 ^ j) y := by
          intro j hj y hy
          refine hlower j hj y (hy.define ?_)
          exact fun heq => absurd (Nat.pow_right_injective (Nat.le_refl 2) heq) (by omega)
        refine .inr ⟨x :: powers, f', by simp [hsquares, Except.map], hrest, ?_,
          fun j hj => hkeep j (by omega)⟩
        intro j y hy
        cases j with
        | zero =>
          obtain rfl : x = y := by simpa using hy
          exact hkeep s (by omega) x h
        | succ j =>
          have hholds := hpowers j y (by simpa using hy)
          rwa [show s + 1 + j = s + (j + 1) by omega] at hholds

/-- A product of bound variables is the product of their values, from left to right. -/
theorem value_foldl_join {factors : List Nat} {ps : List V}
    (h : List.Forall₂ (Holds f) factors ps) {e : Expr} {x : V} (he : ctx.value f e = .ok x) :
    ctx.value f (factors.foldl (fun e f => Expr.join .mul e (powerVar f)) e)
      = .ok (ps.foldl (ctx.domain.binary .mul) x) := by
  induction h generalizing e x with
  | nil => exact he
  | cons hfirst _ ih =>
    refine ih ?_
    rw [BodyContext.value]
    dsimp only [Expr.join]
    rw [BodyContext.operand_binary, he, hfirst.value]
    rfl

/-- Straight line code for a power is the power by squaring. -/
theorem run_straight (ctx : BodyContext V) (spec : Spec) (z : V) (n : Nat) :
    (straight spec n).run ctx z
      = bySquaring ctx.domain.one (ctx.domain.binary .mul) (ctx.domain.square spec.square) z n := by
  rw [bySquaring_eq_map]
  cases hfactors : (plan n).factors with
  | nil =>
    obtain rfl := factors_eq_nil_iff.mp hfactors
    simp only [straight, hfactors, Straight.run, selected_zero]
    rfl
  | cons first rest =>
    have hz : Holds ((Frame.empty 0).define (variableName 1) (.value z)) (2 ^ 0) z :=
      holds_define _ 1 z
    simp only [straight, hfactors, Straight.run, List.range_eq_range']
    rcases @runStmts_squares V ctx _ spec z 0 (plan n).squarings hz with
      ⟨e, hsquares, hrun⟩ | ⟨powers, f', hsquares, hrun, hpowers, -⟩
    · rw [hrun, show squares _ n.log2 z = .error e from hsquares]
      rfl
    · have hbound : List.Forall₂ (Holds f') (first :: rest) (selected n powers) := by
        rw [← hfactors]
        refine (forall₂_selected (length_of_squares hsquares)).imp ?_
        rintro f p ⟨b, rfl, hp⟩
        simpa using hpowers b p hp
      rw [hrun, show squares _ n.log2 z = .ok powers from hsquares]
      cases hselected : selected n powers with
      | nil =>
        rw [hselected] at hbound
        cases hbound
      | cons p ps =>
        rw [hselected] at hbound
        obtain _ | ⟨hfirst, hrest⟩ := hbound
        change ctx.value f' (productOf first rest) = .ok (product _ _ (selected n powers))
        rw [hselected]
        exact value_foldl_join hrest hfirst.value

end Run

/-- The plan of an exponent is its binary form. Whatever the product and the way of squaring are,
power by squaring follows the plan in its calls and in its result, and so does the generated case of
a small exponent. -/
theorem squaring_follows_plan (n : Nat) :
    (plan n).Fits n ∧
    (∀ {α ε : Type} (one : α) (mul : α → α → α) (sq : α → Except ε α) (z : α),
      bySquaringIn one mul sq z n = bySquaring one mul sq z n ∧
      ∃ calls, (bySquaringIn one mul (recorded sq) z n).run.run []
          = (bySquaring one mul sq z n, calls) ∧
        Follows (plan n) one mul sq z calls (bySquaring one mul sq z n)) ∧
    ∀ (r : Rendering) (spec : Spec) (decl : String), n ≤ spec.inlineMax →
      (∃ before after, items spec decl = before ++ (straight spec n).items r decl n ++ after) ∧
      ∀ {V : Type} (ctx : BodyContext V) (z : V),
        (straight spec n).run ctx z = bySquaring ctx.domain.one (ctx.domain.binary .mul)
          (ctx.domain.square spec.square) z n := by
  refine ⟨plan_fits n, ?_, ?_⟩
  · intro α ε one mul sq z
    exact ⟨bySquaringIn_except one mul sq z n, _, run_bySquaringIn_recorded one mul sq z n,
      follows_plan one mul sq z n⟩
  · intro r spec decl hmax
    exact ⟨exists_items r spec decl hmax, fun ctx z => run_straight ctx spec z n⟩

end Power

/-- The words of `Domain.wrapping` with a difference in the place of the product, so that the order
of the factors shows. -/
def Domain.differing : Domain Int64 := { Domain.wrapping with binary := fun _ x y => x - y }

/-- The seventh power takes two squares and three factors. -/
theorem Power.squaring_follows_plan_seven :
    (∃ before after, Power.items (.full (some "square")) "decl" = before
      ++ [.enter "7 => \x7b", .line "let z2 = square(z);", .line "let z4 = square(z2);",
          .line "z * z2 * z4", .leave "\x7d"] ++ after) ∧
      (Power.straight (.full (some "square")) 7).run
        ⟨Domain.differing, "ipow", [], fun z _ => .ok z⟩ 3 = .ok (-87) := by
  obtain ⟨hitems, hrun⟩ := (squaring_follows_plan 7).2.2 ⟨.double, ""⟩ (.full (some "square")) "decl"
    (by decide)
  refine ⟨?_, ?_⟩
  · have hcase : (Power.straight (.full (some "square")) 7).items ⟨.double, ""⟩ "decl" 7
        = [.enter "7 => \x7b", .line "let z2 = square(z);", .line "let z4 = square(z2);",
          .line "z * z2 * z4", .leave "\x7d"] := by
      decide +kernel
    rw [← hcase]
    exact hitems
  · rw [hrun]
    simp [Power.bySquaring, Power.loop, Domain.square, Domain.differing, Domain.wrapping, Except.map,
      Power.Spec.full]

end StackForge
