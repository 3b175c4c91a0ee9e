import StackForge.Expr
import StackForge.Token

/-!
The grammar of bodies, apart from the parser. Each relation says which words derive which tree;
repetitions are written so that operators and postfixes group to the left. A derivation starts with
a word that can start an expression, and never contains the end mark.
-/
namespace StackForge.Grammar

open Token (Kind)

/-- Words for additive operators. -/
inductive SumOp : Kind → BinOp → Prop where
  | add : SumOp .plus .add
  | sub : SumOp .minus .sub

/-- Words for multiplicative operators. -/
inductive ProductOp : Kind → BinOp → Prop where
  | mul : ProductOp .star .mul
  | div : ProductOp .slash .div

mutual

/-- Products joined by additive operators. -/
inductive Sum : List Token → Expr → Prop where
  | product {ts : List Token} {e : Expr} (h : Product ts e) : Sum ts e
  | join {ts us : List Token} {t : Token} {op : BinOp} {l r : Expr} (hl : Sum ts l)
      (ht : SumOp t.kind op) (hr : Product us r) :
      Sum (ts ++ t :: us) (.binary op l r (l.span.merge r.span))

/-- Unary expressions joined by multiplicative operators. -/
inductive Product : List Token → Expr → Prop where
  | unary {ts : List Token} {e : Expr} (h : Unary ts e) : Product ts e
  | join {ts us : List Token} {t : Token} {op : BinOp} {l r : Expr} (hl : Product ts l)
      (ht : ProductOp t.kind op) (hr : Unary us r) :
      Product (ts ++ t :: us) (.binary op l r (l.span.merge r.span))

inductive Unary : List Token → Expr → Prop where
  | neg {t : Token} {ts : List Token} {e : Expr} (ht : t.kind = .minus) (h : Unary ts e) :
      Unary (t :: ts) (.neg e (t.span.merge e.span))
  | plain {ts : List Token} {e : Expr} (h : Postfix ts e) : Unary ts e

/-- A primary expression with method calls and failure marks behind it. -/
inductive Postfix : List Token → Expr → Prop where
  | primary {ts : List Token} {e : Expr} (h : Primary ts e) : Postfix ts e
  | method {ts us : List Token} {t n : Token} {name : String} {e : Expr} {args : List Expr}
      {close : Span} (h : Postfix ts e) (ht : t.kind = .dot) (hn : n.kind = .identifier name)
      (hargs : Args us args close) :
      Postfix (ts ++ t :: n :: us) (.method e ⟨name, n.span⟩ args (e.span.merge close))
  | attempt {ts : List Token} {t : Token} {e : Expr} (h : Postfix ts e) (ht : t.kind = .question) :
      Postfix (ts ++ [t]) (.attempt e (e.span.merge t.span))

inductive Primary : List Token → Expr → Prop where
  | number {t : Token} {value : Double} (ht : t.kind = .number value) :
      Primary [t] (.number value t.span)
  | var {t : Token} {name : String} (ht : t.kind = .identifier name) :
      Primary [t] (.var ⟨name, t.span⟩)
  | call {t : Token} {us : List Token} {name : String} {args : List Expr} {close : Span}
      (ht : t.kind = .identifier name) (hargs : Args us args close) :
      Primary (t :: us) (.call ⟨name, t.span⟩ args (t.span.merge close))
  | paren {t c : Token} {ts : List Token} {e : Expr} (ht : t.kind = .lparen) (h : Sum ts e)
      (hc : c.kind = .rparen) : Primary (t :: (ts ++ [c])) (.paren e (t.span.merge c.span))

/-- Arguments in parentheses, with the place of the closing one. -/
inductive Args : List Token → List Expr → Span → Prop where
  | mk {t c : Token} {ts : List Token} {args : List Expr} (ht : t.kind = .lparen)
      (h : Items ts args) (hc : c.kind = .rparen) : Args (t :: (ts ++ [c])) args c.span

/-- Expressions separated by commas. The last one may have a comma behind it. -/
inductive Items : List Token → List Expr → Prop where
  | nil : Items [] []
  | last {ts : List Token} {e : Expr} (h : Sum ts e) : Items ts [e]
  | cons {ts us : List Token} {t : Token} {e : Expr} {es : List Expr} (h : Sum ts e)
      (ht : t.kind = .comma) (hrest : Items us es) : Items (ts ++ t :: us) (e :: es)

end

inductive Stmt : List Token → StackForge.Stmt → Prop where
  | bind {t n q : Token} {ts : List Token} {name : String} {e : Expr} (ht : t.kind = .letWord)
      (hn : n.kind = .identifier name) (hq : q.kind = .eq) (h : Sum ts e) :
      Stmt (t :: n :: q :: ts) (.bind ⟨name, n.span⟩ e (t.span.merge e.span))
  | assign {t q : Token} {ts : List Token} {name : String} {e : Expr}
      (ht : t.kind = .identifier name) (hq : q.kind = .eq) (h : Sum ts e) :
      Stmt (t :: q :: ts) (.assign ⟨name, t.span⟩ e (t.span.merge e.span))
  | ret {t : Token} {ts : List Token} {e : Expr} (ht : t.kind = .returnWord) (h : Sum ts e) :
      Stmt (t :: ts) (.ret e (t.span.merge e.span))

/-- Statements separated by semicolons. The last one may have a semicolon behind it. -/
inductive Stmts : List Token → List StackForge.Stmt → Prop where
  | nil : Stmts [] []
  | last {ts : List Token} {s : StackForge.Stmt} (h : Stmt ts s) : Stmts ts [s]
  | cons {ts us : List Token} {t : Token} {s : StackForge.Stmt} {ss : List StackForge.Stmt}
      (h : Stmt ts s) (ht : t.kind = .semicolon) (hrest : Stmts us ss) :
      Stmts (ts ++ t :: us) (s :: ss)

/-- The place of a block: from its first word to its last one. -/
def blockSpan (ts : List Token) : Span :=
  match ts.head?, ts.getLast? with
  | some first, some last => first.span.merge last.span
  | _, _ => Span.point 1 1

inductive Block : List Token → StackForge.Block → Prop where
  | mk {ts : List Token} {ss : List StackForge.Stmt} (h : Stmts ts ss) :
      Block ts ⟨ss, blockSpan ts⟩

/-- Words that can start an expression. -/
def Starts (k : Kind) : Prop :=
  match k with
  | .number _ | .identifier _ | .lparen | .minus => True
  | _ => False

theorem Primary.starts {ts : List Token} {e : Expr} (h : Primary ts e) :
    ∃ t us, ts = t :: us ∧ Starts t.kind ∧ t.kind ≠ .minus := by
  cases h with
  | number ht => exact ⟨_, _, rfl, by simp [ht, Starts], by simp [ht]⟩
  | var ht => exact ⟨_, _, rfl, by simp [ht, Starts], by simp [ht]⟩
  | call ht => exact ⟨_, _, rfl, by simp [ht, Starts], by simp [ht]⟩
  | paren ht => exact ⟨_, _, rfl, by simp [ht, Starts], by simp [ht]⟩

theorem Postfix.starts {ts : List Token} {e : Expr} :
    Postfix ts e → ∃ t us, ts = t :: us ∧ Starts t.kind ∧ t.kind ≠ .minus
  | .primary h => h.starts
  | .method h _ _ _ => by
    obtain ⟨t, us, rfl, hstart⟩ := h.starts
    exact ⟨t, _, rfl, hstart⟩
  | .attempt h _ => by
    obtain ⟨t, us, rfl, hstart⟩ := h.starts
    exact ⟨t, _, rfl, hstart⟩

theorem Unary.starts {ts : List Token} {e : Expr} :
    Unary ts e → ∃ t us, ts = t :: us ∧ Starts t.kind
  | .neg ht _ => ⟨_, _, rfl, by simp [ht, Starts]⟩
  | .plain h => by
    obtain ⟨t, us, rfl, hstart, -⟩ := h.starts
    exact ⟨t, us, rfl, hstart⟩

theorem Product.starts {ts : List Token} {e : Expr} :
    Product ts e → ∃ t us, ts = t :: us ∧ Starts t.kind
  | .unary h => h.starts
  | .join hl _ _ => by
    obtain ⟨t, us, rfl, hstart⟩ := hl.starts
    exact ⟨t, _, rfl, hstart⟩

theorem Sum.starts {ts : List Token} {e : Expr} :
    Sum ts e → ∃ t us, ts = t :: us ∧ Starts t.kind
  | .product h => h.starts
  | .join hl _ _ => by
    obtain ⟨t, us, rfl, hstart⟩ := hl.starts
    exact ⟨t, _, rfl, hstart⟩

/-- Words without the end mark. -/
def Inner (ts : List Token) : Prop := ∀ t ∈ ts, t.kind ≠ .eof

@[simp] theorem inner_nil : Inner [] := by simp [Inner]

@[simp] theorem inner_cons {t : Token} {ts : List Token} :
    Inner (t :: ts) ↔ t.kind ≠ .eof ∧ Inner ts := by simp [Inner]

@[simp] theorem inner_append {ts us : List Token} : Inner (ts ++ us) ↔ Inner ts ∧ Inner us := by
  simp only [Inner, List.mem_append]
  constructor
  · intro h
    exact ⟨fun t ht => h t (.inl ht), fun t ht => h t (.inr ht)⟩
  · rintro ⟨hts, hus⟩ t (ht | ht)
    · exact hts t ht
    · exact hus t ht

theorem SumOp.ne_eof {k : Kind} {op : BinOp} (h : SumOp k op) : k ≠ .eof := by
  rintro rfl
  cases h

theorem ProductOp.ne_eof {k : Kind} {op : BinOp} (h : ProductOp k op) : k ≠ .eof := by
  rintro rfl
  cases h

mutual

theorem Sum.inner {ts : List Token} {e : Expr} : Sum ts e → Inner ts
  | .product h => h.inner
  | .join hl ht hr => by simp [hl.inner, hr.inner, ht.ne_eof]

theorem Product.inner {ts : List Token} {e : Expr} : Product ts e → Inner ts
  | .unary h => h.inner
  | .join hl ht hr => by simp [hl.inner, hr.inner, ht.ne_eof]

theorem Unary.inner {ts : List Token} {e : Expr} : Unary ts e → Inner ts
  | .neg ht h => by simp [ht, h.inner]
  | .plain h => h.inner

theorem Postfix.inner {ts : List Token} {e : Expr} : Postfix ts e → Inner ts
  | .primary h => h.inner
  | .method h ht hn hargs => by simp [h.inner, ht, hn, hargs.inner]
  | .attempt h ht => by simp [h.inner, ht]

theorem Primary.inner {ts : List Token} {e : Expr} : Primary ts e → Inner ts
  | .number ht => by simp [ht]
  | .var ht => by simp [ht]
  | .call ht hargs => by simp [ht, hargs.inner]
  | .paren ht h hc => by simp [ht, h.inner, hc]

theorem Args.inner {ts : List Token} {es : List Expr} {close : Span} : Args ts es close → Inner ts
  | .mk ht h hc => by simp [ht, h.inner, hc]

theorem Items.inner {ts : List Token} {es : List Expr} : Items ts es → Inner ts
  | .nil => by simp
  | .last h => h.inner
  | .cons h ht hrest => by simp [h.inner, ht, hrest.inner]

end

end StackForge.Grammar
