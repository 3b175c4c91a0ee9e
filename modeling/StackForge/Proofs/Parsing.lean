import StackForge.Expr.Parser
import StackForge.Proofs.Grammar

/-!
The expression parser against the grammar. The values of the parsers satisfy simple equations; from
these, a value that is parsed derives from the words it was parsed from, and every derivation is
parsed, provided that the word behind it does not go on with it.
-/
namespace StackForge

open Token (Kind)

namespace Parse

variable {α β : Type} {n m : Nat}

@[simp] theorem value?_ok (a : α) (rest : List Token) (fits : rest.length < n) :
    (Parse.ok a rest fits).value? = some (a, rest) := rfl

@[simp] theorem value?_fail (fault : SyntaxFault) (rest : List Token) (fits : rest.length ≤ n) :
    (Parse.fail fault rest fits : Parse α n).value? = none := rfl

@[simp] theorem value?_map (f : α → β) (h : n ≤ m) (p : Parse α n) :
    (p.map f h).value? = p.value?.map fun r => (f r.1, r.2) := by
  cases p <;> rfl

/-- A parser that gives a value takes at least one word. -/
theorem length_lt {p : Parse α n} {a : α} {rest : List Token} (h : p.value? = some (a, rest)) :
    rest.length < n := by
  cases p with
  | ok a rest fits =>
    cases h
    exact fits
  | fail => cases h

end Parse

theorem Grammar.Args.headKind_eq {ts rest : List Token} {es : List Expr} {close : Span}
    (h : Grammar.Args ts es close) : headKind (ts ++ rest) = .lparen := by
  cases h with
  | mk ht _ _ => exact ht

namespace Expr

theorem sumOp?_iff {k : Kind} {op : BinOp} : sumOp? k = some op ↔ Grammar.SumOp k op := by
  constructor
  · intro h
    unfold sumOp? at h
    split at h <;> cases h <;> constructor
  · rintro ⟨⟩ <;> rfl

theorem productOp?_iff {k : Kind} {op : BinOp} :
    productOp? k = some op ↔ Grammar.ProductOp k op := by
  constructor
  · intro h
    unfold productOp? at h
    split at h <;> cases h <;> constructor
  · rintro ⟨⟩ <;> rfl

theorem value?_parseSum (ts : List Token) :
    (parseSum ts).value?
      = (parseProduct ts).value?.bind fun r => (parseSumTail r.1 r.2).value? := by
  rw [parseSum]
  split <;> simp [*]

theorem value?_parseSumTail_cons (left : Expr) (t : Token) (ts : List Token) :
    (parseSumTail left (t :: ts)).value?
      = match sumOp? t.kind with
        | none => some (left, t :: ts)
        | some op => (parseProduct ts).value?.bind fun r =>
            (parseSumTail (join op left r.1) r.2).value? := by
  rw [parseSumTail]
  split
  · simp [*]
  · split <;> simp [*]

theorem value?_parseProduct (ts : List Token) :
    (parseProduct ts).value?
      = (parseUnary ts).value?.bind fun r => (parseProductTail r.1 r.2).value? := by
  rw [parseProduct]
  split <;> simp [*]

theorem value?_parseProductTail_cons (left : Expr) (t : Token) (ts : List Token) :
    (parseProductTail left (t :: ts)).value?
      = match productOp? t.kind with
        | none => some (left, t :: ts)
        | some op => (parseUnary ts).value?.bind fun r =>
            (parseProductTail (join op left r.1) r.2).value? := by
  rw [parseProductTail]
  split
  · simp [*]
  · split <;> simp [*]

theorem value?_parseUnary_cons (t : Token) (ts : List Token) :
    (parseUnary (t :: ts)).value?
      = if t.kind = .minus then
          (parseUnary ts).value?.map fun r => (.neg r.1 (t.span.merge r.1.span), r.2)
        else (parsePostfix (t :: ts)).value? := by
  rw [parseUnary]
  split <;> simp [*]

theorem value?_parsePostfix (ts : List Token) :
    (parsePostfix ts).value?
      = (parsePrimary ts).value?.bind fun r => (parsePostfixTail r.1 r.2).value? := by
  rw [parsePostfix]
  split <;> simp [*]

theorem value?_parseClose_cons (t : Token) (ts : List Token) :
    (parseClose (t :: ts)).value? = if t.kind = .rparen then some (t.span, ts) else none := by
  rw [parseClose]
  split <;> rfl

theorem value?_parseArgs_cons (t : Token) (ts : List Token) :
    (parseArgs (t :: ts)).value?
      = if t.kind = .lparen then (parseArgsTail ts).value? else none := by
  rw [parseArgs]
  split <;> simp [*]

theorem value?_parseArgs_of_ne {ts : List Token} (h : headKind ts ≠ .lparen) :
    (parseArgs ts).value? = none := by
  cases ts with
  | nil =>
    rw [parseArgs]
    rfl
  | cons t ts =>
    rw [value?_parseArgs_cons]
    exact if_neg h

theorem value?_parsePostfixTail_cons (e : Expr) (t : Token) (ts : List Token) :
    (parsePostfixTail e (t :: ts)).value?
      = if t.kind = .question then
          (parsePostfixTail (.attempt e (e.span.merge t.span)) ts).value?
        else if t.kind = .dot then
          match ts with
          | [] => none
          | n :: rest =>
            match n.kind with
            | .identifier name => (parseArgs rest).value?.bind fun r =>
                (parsePostfixTail (.method e ⟨name, n.span⟩ r.1.1 (e.span.merge r.1.2)) r.2).value?
            | _ => none
        else some (e, t :: ts) := by
  rw [parsePostfixTail.eq_def]
  by_cases hquestion : t.kind = .question
  · simp [hquestion]
  · by_cases hdot : t.kind = .dot
    · cases ts with
      | nil => simp [hdot]
      | cons n rest =>
        simp only [hdot, reduceCtorEq, if_false, if_true]
        split
        · split
          · split <;> simp [*]
          · rename_i hopen
            simp [*, value?_parseArgs_of_ne hopen]
        · simp [*]
    · simp [hquestion, hdot]

theorem value?_parsePrimary_cons (t : Token) (ts : List Token) :
    (parsePrimary (t :: ts)).value?
      = match t.kind with
        | .number value => some (.number value t.span, ts)
        | .identifier name =>
          if headKind ts = .lparen then
            (parseArgs ts).value?.map fun r =>
              (.call ⟨name, t.span⟩ r.1.1 (t.span.merge r.1.2), r.2)
          else some (.var ⟨name, t.span⟩, ts)
        | .lparen => (parseSum ts).value?.bind fun r =>
            (parseClose r.2).value?.map fun c => (.paren r.1 (t.span.merge c.1), c.2)
        | _ => none := by
  rw [parsePrimary]
  split
  · simp [*]
  · split <;> simp [*]
  · split <;> simp [*]
  · simp [*]

theorem value?_parseArgsTail (ts : List Token) :
    (parseArgsTail ts).value?
      = if headKind ts = .rparen || headKind ts = .eof then
          (parseClose ts).value?.map fun c => (([], c.1), c.2)
        else (parseSum ts).value?.bind fun r =>
          match r.2 with
          | [] => none
          | t :: rest =>
            if t.kind = .comma then
              (parseArgsTail rest).value?.map fun a => ((r.1 :: a.1.1, a.1.2), a.2)
            else (parseClose (t :: rest)).value?.map fun c => (([r.1], c.1), c.2) := by
  rw [parseArgsTail]
  split
  · simp [*]
  · split
    · simp [*]
    · split
      · simp [*]
      · split <;> simp [*]

theorem value?_parseSumTail_nil (left : Expr) :
    (parseSumTail left []).value? = some (left, []) := by
  rw [parseSumTail]
  rfl

theorem value?_parseProductTail_nil (left : Expr) :
    (parseProductTail left []).value? = some (left, []) := by
  rw [parseProductTail]
  rfl

theorem value?_parsePostfixTail_nil (e : Expr) : (parsePostfixTail e []).value? = some (e, []) := by
  rw [parsePostfixTail.eq_def]
  rfl

theorem value?_parsePrimary_nil : (parsePrimary []).value? = none := by
  rw [parsePrimary]
  rfl

theorem close_sound {ts rest : List Token} {close : Span}
    (h : (parseClose ts).value? = some (close, rest)) :
    ∃ c : Token, ts = c :: rest ∧ c.kind = .rparen ∧ c.span = close := by
  cases ts with
  | nil => cases h
  | cons c us =>
    rw [value?_parseClose_cons] at h
    split at h
    · cases h
      exact ⟨c, rfl, ‹_›, rfl⟩
    · cases h

mutual

theorem sum_sound {ts rest : List Token} {e : Expr}
    (h : (parseSum ts).value? = some (e, rest)) :
    ∃ ls, ts = ls ++ rest ∧ Grammar.Sum ls e := by
  rw [value?_parseSum, Option.bind_eq_some_iff] at h
  obtain ⟨⟨left, mid⟩, hleft, htail⟩ := h
  have hlen := Parse.length_lt hleft
  obtain ⟨ls, hls, hproduct⟩ := product_sound hleft
  obtain ⟨us, hus, hjoin⟩ := sumTail_sound htail
  exact ⟨ls ++ us, by simp [hls, ← hus], hjoin ls (.product hproduct)⟩
  termination_by 8 * ts.length + 6

theorem sumTail_sound {left e : Expr} {ts rest : List Token}
    (h : (parseSumTail left ts).value? = some (e, rest)) :
    ∃ ls, ts = ls ++ rest ∧ ∀ pre, Grammar.Sum pre left → Grammar.Sum (pre ++ ls) e := by
  cases ts with
  | nil =>
    rw [value?_parseSumTail_nil] at h
    cases h
    exact ⟨[], rfl, by simp⟩
  | cons t us =>
    rw [value?_parseSumTail_cons] at h
    split at h
    · cases h
      exact ⟨[], rfl, by simp⟩
    · rename_i op hop
      obtain ⟨⟨right, mid⟩, hright, htail⟩ := Option.bind_eq_some_iff.mp h
      have hlen := Parse.length_lt hright
      obtain ⟨ls, hls, hproduct⟩ := product_sound hright
      obtain ⟨vs, hvs, hjoin⟩ := sumTail_sound htail
      refine ⟨t :: ls ++ vs, by simp [hls, ← hvs], ?_⟩
      intro pre hpre
      simpa using hjoin _ (.join hpre (sumOp?_iff.mp hop) hproduct)
  termination_by 8 * ts.length

theorem product_sound {ts rest : List Token} {e : Expr}
    (h : (parseProduct ts).value? = some (e, rest)) :
    ∃ ls, ts = ls ++ rest ∧ Grammar.Product ls e := by
  rw [value?_parseProduct, Option.bind_eq_some_iff] at h
  obtain ⟨⟨left, mid⟩, hleft, htail⟩ := h
  have hlen := Parse.length_lt hleft
  obtain ⟨ls, hls, hunary⟩ := unary_sound hleft
  obtain ⟨us, hus, hjoin⟩ := productTail_sound htail
  exact ⟨ls ++ us, by simp [hls, ← hus], hjoin ls (.unary hunary)⟩
  termination_by 8 * ts.length + 5

theorem productTail_sound {left e : Expr} {ts rest : List Token}
    (h : (parseProductTail left ts).value? = some (e, rest)) :
    ∃ ls, ts = ls ++ rest ∧ ∀ pre, Grammar.Product pre left → Grammar.Product (pre ++ ls) e := by
  cases ts with
  | nil =>
    rw [value?_parseProductTail_nil] at h
    cases h
    exact ⟨[], rfl, by simp⟩
  | cons t us =>
    rw [value?_parseProductTail_cons] at h
    split at h
    · cases h
      exact ⟨[], rfl, by simp⟩
    · rename_i op hop
      obtain ⟨⟨right, mid⟩, hright, htail⟩ := Option.bind_eq_some_iff.mp h
      have hlen := Parse.length_lt hright
      obtain ⟨ls, hls, hunary⟩ := unary_sound hright
      obtain ⟨vs, hvs, hjoin⟩ := productTail_sound htail
      refine ⟨t :: ls ++ vs, by simp [hls, ← hvs], ?_⟩
      intro pre hpre
      simpa using hjoin _ (.join hpre (productOp?_iff.mp hop) hunary)
  termination_by 8 * ts.length

theorem unary_sound {ts rest : List Token} {e : Expr}
    (h : (parseUnary ts).value? = some (e, rest)) :
    ∃ ls, ts = ls ++ rest ∧ Grammar.Unary ls e := by
  cases ts with
  | nil =>
    rw [parseUnary] at h
    obtain ⟨ls, hls, hchain⟩ := postfix_sound h
    exact ⟨ls, hls, .plain hchain⟩
  | cons t us =>
    rw [value?_parseUnary_cons] at h
    split at h
    · rename_i ht
      obtain ⟨⟨x, mid⟩, hx, heq⟩ := Option.map_eq_some_iff.mp h
      cases heq
      obtain ⟨ls, hls, hunary⟩ := unary_sound hx
      exact ⟨t :: ls, by simp [hls], .neg ht hunary⟩
    · obtain ⟨ls, hls, hchain⟩ := postfix_sound h
      exact ⟨ls, hls, .plain hchain⟩
  termination_by 8 * ts.length + 4

theorem postfix_sound {ts rest : List Token} {e : Expr}
    (h : (parsePostfix ts).value? = some (e, rest)) :
    ∃ ls, ts = ls ++ rest ∧ Grammar.Postfix ls e := by
  rw [value?_parsePostfix, Option.bind_eq_some_iff] at h
  obtain ⟨⟨left, mid⟩, hleft, htail⟩ := h
  have hlen := Parse.length_lt hleft
  obtain ⟨ls, hls, hprimary⟩ := primary_sound hleft
  obtain ⟨us, hus, hjoin⟩ := postfixTail_sound htail
  exact ⟨ls ++ us, by simp [hls, ← hus], hjoin ls (.primary hprimary)⟩
  termination_by 8 * ts.length + 3

theorem postfixTail_sound {left e : Expr} {ts rest : List Token}
    (h : (parsePostfixTail left ts).value? = some (e, rest)) :
    ∃ ls, ts = ls ++ rest ∧ ∀ pre, Grammar.Postfix pre left → Grammar.Postfix (pre ++ ls) e := by
  cases ts with
  | nil =>
    rw [value?_parsePostfixTail_nil] at h
    cases h
    exact ⟨[], rfl, by simp⟩
  | cons t us =>
    rw [value?_parsePostfixTail_cons] at h
    split at h
    · rename_i ht
      obtain ⟨ls, hls, hjoin⟩ := postfixTail_sound h
      refine ⟨t :: ls, by simp [hls], ?_⟩
      intro pre hpre
      simpa using hjoin _ (.attempt hpre ht)
    · split at h
      · rename_i ht
        cases us with
        | nil => cases h
        | cons n vs =>
          dsimp only at h
          split at h
          · rename_i name hn
            obtain ⟨⟨⟨args, close⟩, mid⟩, hargs, htail⟩ := Option.bind_eq_some_iff.mp h
            have hlen := Parse.length_lt hargs
            obtain ⟨ls, hls, hlist⟩ := args_sound hargs
            obtain ⟨xs, hxs, hjoin⟩ := postfixTail_sound htail
            refine ⟨t :: n :: ls ++ xs, by simp [hls, ← hxs], ?_⟩
            intro pre hpre
            simpa using hjoin _ (.method hpre ht hn hlist)
          · cases h
      · cases h
        exact ⟨[], rfl, by simp⟩
  termination_by 8 * ts.length

theorem primary_sound {ts rest : List Token} {e : Expr}
    (h : (parsePrimary ts).value? = some (e, rest)) :
    ∃ ls, ts = ls ++ rest ∧ Grammar.Primary ls e := by
  cases ts with
  | nil =>
    rw [value?_parsePrimary_nil] at h
    cases h
  | cons t us =>
    rw [value?_parsePrimary_cons] at h
    split at h
    · rename_i value ht
      cases h
      exact ⟨[t], rfl, .number ht⟩
    · rename_i name ht
      split at h
      · obtain ⟨⟨⟨args, close⟩, mid⟩, hargs, heq⟩ := Option.map_eq_some_iff.mp h
        cases heq
        obtain ⟨ls, hls, hlist⟩ := args_sound hargs
        exact ⟨t :: ls, by simp [hls], .call ht hlist⟩
      · cases h
        exact ⟨[t], rfl, .var ht⟩
    · rename_i ht
      obtain ⟨⟨inner, mid⟩, hinner, hmore⟩ := Option.bind_eq_some_iff.mp h
      obtain ⟨⟨close, after⟩, hclose, heq⟩ := Option.map_eq_some_iff.mp hmore
      cases heq
      obtain ⟨ls, hls, hsum⟩ := sum_sound hinner
      obtain ⟨c, hc, hkind, rfl⟩ := close_sound hclose
      dsimp only at hc
      exact ⟨t :: (ls ++ [c]), by simp [hls, hc], .paren ht hsum hkind⟩
    · cases h
  termination_by 8 * ts.length + 2

theorem args_sound {ts rest : List Token} {args : List Expr} {close : Span}
    (h : (parseArgs ts).value? = some ((args, close), rest)) :
    ∃ ls, ts = ls ++ rest ∧ Grammar.Args ls args close := by
  cases ts with
  | nil =>
    rw [parseArgs] at h
    cases h
  | cons t us =>
    rw [value?_parseArgs_cons] at h
    split at h
    · rename_i ht
      obtain ⟨ls, c, hls, hc, rfl, hitems⟩ := argsTail_sound h
      exact ⟨t :: (ls ++ [c]), by simp [hls], .mk ht hitems hc⟩
    · cases h
  termination_by 8 * ts.length + 1

theorem argsTail_sound {ts rest : List Token} {args : List Expr} {close : Span}
    (h : (parseArgsTail ts).value? = some ((args, close), rest)) :
    ∃ (ls : List Token) (c : Token), ts = ls ++ c :: rest ∧ c.kind = .rparen ∧ c.span = close ∧
      Grammar.Items ls args := by
  rw [value?_parseArgsTail] at h
  split at h
  · obtain ⟨⟨close, after⟩, hclose, heq⟩ := Option.map_eq_some_iff.mp h
    cases heq
    obtain ⟨c, hc, hkind, hspan⟩ := close_sound hclose
    exact ⟨[], c, hc, hkind, hspan, .nil⟩
  · obtain ⟨⟨e, mid⟩, he, hmore⟩ := Option.bind_eq_some_iff.mp h
    have hlen := Parse.length_lt he
    obtain ⟨ls, hls, hsum⟩ := sum_sound he
    cases mid with
    | nil => cases hmore
    | cons t us =>
      dsimp only at hmore
      split at hmore
      · rename_i ht
        obtain ⟨⟨⟨es, close⟩, after⟩, hes, heq⟩ := Option.map_eq_some_iff.mp hmore
        cases heq
        rw [List.length_cons] at hlen
        obtain ⟨vs, c, hvs, hc, hspan, hitems⟩ := argsTail_sound hes
        exact ⟨ls ++ t :: vs, c, by simp [hls, hvs], hc, hspan, .cons hsum ht hitems⟩
      · obtain ⟨⟨close, after⟩, hclose, heq⟩ := Option.map_eq_some_iff.mp hmore
        cases heq
        obtain ⟨c, hc, hkind, hspan⟩ := close_sound hclose
        exact ⟨ls, c, by simp [hls, hc], hkind, hspan, .last hsum⟩
  termination_by 8 * ts.length + 7

end

/-- Words that do not go on with a unary expression. -/
structure EndsUnary (k : Kind) : Prop where
  lparen : k ≠ .lparen
  dot : k ≠ .dot
  question : k ≠ .question

/-- Words that do not go on with a product. -/
structure EndsProduct (k : Kind) : Prop extends EndsUnary k where
  product : productOp? k = none

/-- Words that do not go on with a sum. -/
structure EndsSum (k : Kind) : Prop extends EndsProduct k where
  sum : sumOp? k = none

theorem endsUnary_of_productOp {k : Kind} {op : BinOp} (h : Grammar.ProductOp k op) :
    EndsUnary k := by
  cases h with
  | mul => exact ⟨nofun, nofun, nofun⟩
  | div => exact ⟨nofun, nofun, nofun⟩

theorem endsProduct_of_sumOp {k : Kind} {op : BinOp} (h : Grammar.SumOp k op) :
    EndsProduct k := by
  cases h with
  | add => exact ⟨⟨nofun, nofun, nofun⟩, rfl⟩
  | sub => exact ⟨⟨nofun, nofun, nofun⟩, rfl⟩

theorem endsSum_eof : EndsSum .eof := ⟨⟨⟨nofun, nofun, nofun⟩, rfl⟩, rfl⟩
theorem endsSum_rparen : EndsSum .rparen := ⟨⟨⟨nofun, nofun, nofun⟩, rfl⟩, rfl⟩
theorem endsSum_comma : EndsSum .comma := ⟨⟨⟨nofun, nofun, nofun⟩, rfl⟩, rfl⟩
theorem endsSum_semicolon : EndsSum .semicolon := ⟨⟨⟨nofun, nofun, nofun⟩, rfl⟩, rfl⟩

theorem value?_parseSumTail_of_ends {rest : List Token} (h : sumOp? (headKind rest) = none)
    (e : Expr) : (parseSumTail e rest).value? = some (e, rest) := by
  cases rest with
  | nil => exact value?_parseSumTail_nil e
  | cons t us =>
    rw [headKind] at h
    rw [value?_parseSumTail_cons, h]

theorem value?_parseProductTail_of_ends {rest : List Token} (h : productOp? (headKind rest) = none)
    (e : Expr) : (parseProductTail e rest).value? = some (e, rest) := by
  cases rest with
  | nil => exact value?_parseProductTail_nil e
  | cons t us =>
    rw [headKind] at h
    rw [value?_parseProductTail_cons, h]

theorem value?_parsePostfixTail_of_ends {rest : List Token} (h : EndsUnary (headKind rest))
    (e : Expr) : (parsePostfixTail e rest).value? = some (e, rest) := by
  cases rest with
  | nil => exact value?_parsePostfixTail_nil e
  | cons t us =>
    rw [headKind] at h
    rw [value?_parsePostfixTail_cons, if_neg h.question, if_neg h.dot]

/-- A word that starts an expression does not end a list of arguments. -/
theorem not_closes {t : Token} {ts : List Token} (h : Grammar.Starts t.kind) :
    ¬(headKind (t :: ts) = .rparen || headKind (t :: ts) = .eof) = true := by
  rw [headKind]
  cases hk : t.kind <;> simp_all [Grammar.Starts]

theorem value?_parseClose_of_rparen {c : Token} (hc : c.kind = .rparen) (rest : List Token) :
    (parseClose (c :: rest)).value? = some (c.span, rest) := by
  rw [value?_parseClose_cons, if_pos hc]

mutual

theorem sum_complete {ls rest : List Token} {e : Expr} (hrest : EndsProduct (headKind rest)) :
    Grammar.Sum ls e → (parseSum (ls ++ rest)).value? = (parseSumTail e rest).value?
  | .product h => by
    rw [value?_parseSum, product_complete hrest.toEndsUnary h,
      value?_parseProductTail_of_ends hrest.product, Option.bind_some]
  | @Grammar.Sum.join _ us t _ _ _ hl ht hr => by
    have hleft := @sum_complete _ (t :: us ++ rest) _ (endsProduct_of_sumOp ht) hl
    rw [List.append_assoc, hleft, List.cons_append, value?_parseSumTail_cons, sumOp?_iff.mpr ht]
    dsimp only [join]
    rw [product_complete hrest.toEndsUnary hr, value?_parseProductTail_of_ends hrest.product,
      Option.bind_some]

theorem product_complete {ls rest : List Token} {e : Expr} (hrest : EndsUnary (headKind rest)) :
    Grammar.Product ls e → (parseProduct (ls ++ rest)).value? = (parseProductTail e rest).value?
  | .unary h => by
    rw [value?_parseProduct, unary_complete hrest h, Option.bind_some]
  | @Grammar.Product.join _ us t _ _ _ hl ht hr => by
    have hleft := @product_complete _ (t :: us ++ rest) _ (endsUnary_of_productOp ht) hl
    rw [List.append_assoc, hleft, List.cons_append, value?_parseProductTail_cons,
      productOp?_iff.mpr ht]
    dsimp only [join]
    rw [unary_complete hrest hr, Option.bind_some]

theorem unary_complete {ls rest : List Token} {e : Expr} (hrest : EndsUnary (headKind rest)) :
    Grammar.Unary ls e → (parseUnary (ls ++ rest)).value? = some (e, rest)
  | .neg ht h => by
    rw [List.cons_append, value?_parseUnary_cons, if_pos ht, unary_complete hrest h,
      Option.map_some]
  | .plain h => by
    have hplain := postfix_complete hrest.lparen h
    obtain ⟨t, us, hstart, -, hminus⟩ := h.starts
    rw [value?_parsePostfixTail_of_ends hrest] at hplain
    rw [hstart, List.cons_append] at hplain ⊢
    rw [value?_parseUnary_cons, if_neg hminus, hplain]

theorem postfix_complete {ls rest : List Token} {e : Expr} (hrest : headKind rest ≠ .lparen) :
    Grammar.Postfix ls e → (parsePostfix (ls ++ rest)).value? = (parsePostfixTail e rest).value?
  | .primary h => by
    rw [value?_parsePostfix, primary_complete hrest h, Option.bind_some]
  | @Grammar.Postfix.method _ us t n _ _ _ _ h ht hn hargs => by
    have hleft := @postfix_complete _ (t :: n :: us ++ rest) _ (by simp [headKind, ht]) h
    rw [List.append_assoc, hleft, List.cons_append, List.cons_append, value?_parsePostfixTail_cons,
      if_neg (by simp [ht]), if_pos ht]
    simp only [hn, args_complete hargs, Option.bind_some]
  | @Grammar.Postfix.attempt _ t _ h ht => by
    have hleft := @postfix_complete _ (t :: rest) _ (by simp [headKind, ht]) h
    rw [List.append_assoc, List.singleton_append, hleft, value?_parsePostfixTail_cons, if_pos ht]

theorem primary_complete {ls rest : List Token} {e : Expr} (hrest : headKind rest ≠ .lparen) :
    Grammar.Primary ls e → (parsePrimary (ls ++ rest)).value? = some (e, rest)
  | .number ht => by
    rw [List.singleton_append, value?_parsePrimary_cons, ht]
  | .var ht => by
    rw [List.singleton_append, value?_parsePrimary_cons, ht]
    exact if_neg hrest
  | .call ht hargs => by
    rw [List.cons_append, value?_parsePrimary_cons, ht]
    dsimp only
    rw [if_pos hargs.headKind_eq, args_complete hargs, Option.map_some]
  | @Grammar.Primary.paren _ c _ _ ht h hc => by
    have hinner := @sum_complete _ (c :: rest) _
      (by rw [headKind, hc]; exact endsSum_rparen.toEndsProduct) h
    rw [List.cons_append, value?_parsePrimary_cons, ht, List.append_assoc, List.singleton_append]
    dsimp only
    rw [hinner, value?_parseSumTail_of_ends (by rw [headKind, hc]; rfl), Option.bind_some,
      value?_parseClose_of_rparen hc, Option.map_some]

theorem args_complete {ls rest : List Token} {es : List Expr} {close : Span} :
    Grammar.Args ls es close → (parseArgs (ls ++ rest)).value? = some ((es, close), rest)
  | .mk ht h hc => by
    rw [List.cons_append, value?_parseArgs_cons, if_pos ht, List.append_assoc,
      List.singleton_append, items_complete hc h]

theorem items_complete {ls rest : List Token} {es : List Expr} {c : Token}
    (hc : c.kind = .rparen) :
    Grammar.Items ls es → (parseArgsTail (ls ++ c :: rest)).value? = some ((es, c.span), rest)
  | .nil => by
    rw [List.nil_append, value?_parseArgsTail, if_pos (by simp [headKind, hc]),
      value?_parseClose_of_rparen hc, Option.map_some]
  | .last h => by
    have hsum := @sum_complete _ (c :: rest) _
      (by rw [headKind, hc]; exact endsSum_rparen.toEndsProduct) h
    obtain ⟨t, us, hstart, hkind⟩ := h.starts
    rw [value?_parseSumTail_of_ends (by rw [headKind, hc]; rfl)] at hsum
    rw [value?_parseArgsTail, if_neg (by rw [hstart]; exact not_closes hkind), hsum,
      Option.bind_some]
    dsimp only
    rw [if_neg (by simp [hc]), value?_parseClose_of_rparen hc, Option.map_some]
  | @Grammar.Items.cons _ us t _ _ h ht hmore => by
    have hsum := @sum_complete _ (t :: us ++ c :: rest) _
      (by rw [List.cons_append, headKind, ht]; exact endsSum_comma.toEndsProduct) h
    obtain ⟨t', us', hstart, hkind⟩ := h.starts
    rw [value?_parseSumTail_of_ends (by rw [List.cons_append, headKind, ht]; rfl)] at hsum
    rw [List.append_assoc, value?_parseArgsTail,
      if_neg (by rw [hstart]; exact not_closes hkind), hsum, Option.bind_some, List.cons_append]
    dsimp only
    rw [if_pos ht, items_complete hc hmore, Option.map_some]

end

end Expr
end StackForge
