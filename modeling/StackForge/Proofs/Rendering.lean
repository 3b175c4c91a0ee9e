import StackForge.Expr.Render
import StackForge.Proofs.Statements

/-!
Rendered expressions are read back. A rendering spells out the words of an expression, with the
parentheses that its levels ask for; these words derive the same tree again, apart from parentheses
and places. So a rendering says which expression was meant.
-/
namespace StackForge

open Token (Kind Spelled IsIdentifier bytes)
open Token.Piece (Breaks)

/-- The bytes of what stands between the names of a rendering. -/
@[simp] theorem bytes_marks :
    bytes "(" = [40] ∧ bytes ")" = [41] ∧ bytes "." = [46] ∧ bytes "-" = [45] ∧ bytes " " = [32] ∧
      bytes ", " = [44, 32] ∧ bytes "" = [] := by
  decide +kernel

/-- The word of an operator. -/
def BinOp.word : BinOp → Kind
  | .add => .plus
  | .sub => .minus
  | .mul => .star
  | .div => .slash

/-- The byte of an operator. -/
def BinOp.byte : BinOp → UInt8
  | .add => 43
  | .sub => 45
  | .mul => 42
  | .div => 47

@[simp] theorem BinOp.bytes_text (op : BinOp) : bytes op.text = [op.byte] := by
  cases op <;> decide +kernel

theorem BinOp.mark?_byte (op : BinOp) : Token.Piece.mark? op.byte = some op.word := by
  cases op <;> rfl

namespace Expr

mutual

/-- The expression without its parentheses, and with all its places forgotten. -/
def bare : Expr → Expr
  | .number x _ => .number x (Span.point 0 0)
  | .var id => .var ⟨id.name, Span.point 0 0⟩
  | .neg x _ => .neg (bare x) (Span.point 0 0)
  | .binary op l r _ => .binary op (bare l) (bare r) (Span.point 0 0)
  | .call callee args _ => .call ⟨callee.name, Span.point 0 0⟩ (bareAll args) (Span.point 0 0)
  | .method x name args _ =>
    .method (bare x) ⟨name.name, Span.point 0 0⟩ (bareAll args) (Span.point 0 0)
  | .attempt x _ => .attempt (bare x) (Span.point 0 0)
  | .paren x _ => bare x

def bareAll : List Expr → List Expr
  | [] => []
  | e :: rest => bare e :: bareAll rest

end

theorem level_bare : ∀ e : Expr, e.bare.level = e.level
  | .number _ _ | .var _ | .neg _ _ | .binary _ _ _ _ | .call _ _ _ | .method _ _ _ _
  | .attempt _ _ => rfl
  | .paren x _ => level_bare x

theorem isNegation_bare : ∀ e : Expr, e.bare.isNegation = e.isNegation
  | .number _ _ | .var _ | .neg _ _ | .binary _ _ _ _ | .call _ _ _ | .method _ _ _ _
  | .attempt _ _ => rfl
  | .paren x _ => isNegation_bare x

mutual

/-- A rendering shows neither parentheses of the body nor places. -/
theorem render_bare (r : Rendering) : ∀ e : Expr, e.bare.render r = e.render r
  | .number _ _ => rfl
  | .var _ => rfl
  | .neg x _ => by
    simp only [bare, render, render_bare r x, level_bare, isNegation_bare]
  | .binary _ x y _ => by
    simp only [bare, render, render_bare r x, render_bare r y, level_bare]
  | .call _ args _ => by simp only [bare, render, renderAll_bare r args]
  | .method x _ args _ => by
    simp only [bare, render, render_bare r x, renderAll_bare r args, level_bare]
  | .attempt x _ => by simp only [bare, render, render_bare r x]
  | .paren x _ => by simp only [bare, render, render_bare r x]

theorem renderAll_bare (r : Rendering) :
    ∀ args : List Expr, renderAll r (bareAll args) = renderAll r args
  | [] => rfl
  | e :: rest => by simp only [bareAll, renderAll, render_bare r e, renderAll_bare r rest]

end

mutual

/-- Expressions that are made of marks and identifiers only. -/
def Spellable : Expr → Prop
  | .number _ _ | .attempt _ _ => False
  | .var id => IsIdentifier id.name
  | .neg x _ | .paren x _ => Spellable x
  | .binary _ x y _ => Spellable x ∧ Spellable y
  | .call callee args _ => IsIdentifier callee.name ∧ SpellableAll args
  | .method x name args _ => Spellable x ∧ IsIdentifier name.name ∧ SpellableAll args

def SpellableAll : List Expr → Prop
  | [] => True
  | e :: rest => Spellable e ∧ SpellableAll rest

end

/-- Words in parentheses where they are needed. -/
def enclose (needed : Bool) (ks : List Kind) : List Kind :=
  if needed then .lparen :: (ks ++ [.rparen]) else ks

mutual

/-- The words of an expression, with the parentheses that a rendering has. -/
def words : Expr → List Kind
  | .number x _ => [.number x]
  | .var id => [.identifier id.name]
  | .paren x _ => words x
  | .neg x _ => .minus :: enclose (x.level < negationLevel || x.isNegation) (words x)
  | .binary op x y _ =>
    enclose (x.level < op.level) (words x) ++ op.word :: enclose (y.level ≤ op.level) (words y)
  | .call callee args _ =>
    .identifier callee.name :: .lparen :: ([Kind.comma].intercalate (wordsAll args) ++ [.rparen])
  | .method x name args _ =>
    enclose (x.level < postfixLevel) (words x) ++ .dot :: .identifier name.name :: .lparen ::
      ([Kind.comma].intercalate (wordsAll args) ++ [.rparen])
  | .attempt x _ => enclose (x.level < postfixLevel) (words x) ++ [.question]

def wordsAll : List Expr → List (List Kind)
  | [] => []
  | e :: rest => words e :: wordsAll rest

end

/-- A text spells words in front of anything that a name can end at. -/
def Spells (text : String) (ws : List Kind) : Prop :=
  ∀ bs ks, Breaks bs → Spelled bs ks → Spelled (bytes text ++ bs) (ws ++ ks)

theorem breaks_cons {b : UInt8} (h : Token.Piece.isNameByte b = false) (bs : List UInt8) :
    Breaks (b :: bs) := by
  rintro c ⟨⟩
  exact h

theorem spells_identifier {name : String} (h : IsIdentifier name) :
    Spells name [.identifier name] :=
  fun _ _ hbs hspelled => .identifier h hbs hspelled

/-- In parentheses, whatever follows. -/
theorem Spells.between {text : String} {ws : List Kind} (h : Spells text ws) {bs : List UInt8}
    {ks : List Kind} (hspelled : Spelled bs ks) :
    Spelled (40 :: (bytes text ++ 41 :: bs)) (.lparen :: (ws ++ .rparen :: ks)) := by
  have hclose : Spelled (41 :: bs) (.rparen :: ks) := .mark rfl nofun hspelled
  exact .mark rfl nofun (h _ _ (breaks_cons rfl bs) hclose)

theorem Spells.parenthesize {text : String} {ws : List Kind} (h : Spells text ws) (needed : Bool) :
    Spells (Expr.parenthesize needed text) (enclose needed ws) := by
  intro bs ks hbs hspelled
  cases needed with
  | false => exact h bs ks hbs hspelled
  | true => simpa [Expr.parenthesize, enclose] using h.between hspelled

mutual

/-- The rendering of an expression spells its words. -/
theorem spells_render (r : Rendering) : ∀ e : Expr, e.Spellable → Spells (e.render r) e.words
  | .number _ _, h => h.elim
  | .attempt _ _, h => h.elim
  | .var _, h => spells_identifier h
  | .paren x _, h => spells_render r x h
  | .neg x _, h => by
    intro bs ks hbs hspelled
    have hx := (spells_render r x h).parenthesize (x.level < negationLevel || x.isNegation)
    have hneg : Spelled (45 :: _) (.minus :: _) := .mark rfl nofun (hx bs ks hbs hspelled)
    simpa [render, words] using hneg
  | .binary op x y _, h => by
    intro bs ks hbs hspelled
    have hx := (spells_render r x h.1).parenthesize (x.level < op.level)
    have hy := (spells_render r y h.2).parenthesize (y.level ≤ op.level)
    -- the blank behind the operator keeps a slash from starting a comment
    have hop : Spelled (op.byte :: 32 :: _) (op.word :: _) :=
      .mark op.mark?_byte (fun _ => nofun) (.blank (hy bs ks hbs hspelled))
    have hboth := hx _ _ (breaks_cons rfl _) (.blank hop)
    simpa [render, words] using hboth
  | .call callee args _, h => by
    intro bs ks hbs hspelled
    have hargs := (spells_renderAll r args h.2).between hspelled
    have hcall := spells_identifier h.1 _ _ (breaks_cons rfl _) hargs
    simpa [render, words] using hcall
  | .method x name args _, h => by
    intro bs ks hbs hspelled
    have hargs := (spells_renderAll r args h.2.2).between hspelled
    have hname := spells_identifier h.2.1 _ _ (breaks_cons rfl _) hargs
    have hdot : Spelled (46 :: _) (.dot :: _) := .mark rfl nofun hname
    have hx := (spells_render r x h.1).parenthesize (x.level < postfixLevel)
    have hmethod := hx _ _ (breaks_cons rfl _) hdot
    simpa [render, words] using hmethod

theorem spells_renderAll (r : Rendering) : ∀ args : List Expr, SpellableAll args →
    Spells (", ".intercalate (renderAll r args)) ([Kind.comma].intercalate (wordsAll args))
  | [], _ => by
    intro bs ks hbs hspelled
    simpa [renderAll, wordsAll] using hspelled
  | [e], h => by
    simpa [renderAll, wordsAll] using spells_render r e h.1
  | e :: e' :: rest, h => by
    intro bs ks hbs hspelled
    have hmore := spells_renderAll r (e' :: rest) h.2 bs ks hbs hspelled
    have hcomma : Spelled (44 :: 32 :: _) (.comma :: _) := .mark rfl nofun (.blank hmore)
    have hall := spells_render r e h.1 _ _ (breaks_cons rfl _) hcomma
    simpa [renderAll, wordsAll, List.intercalate_cons_cons, String.intercalate_cons_cons] using hall

end

/-- Whether the expression itself is a number. -/
def isNumber : Expr → Bool
  | .number _ _ => true
  | _ => false

/-- Whether neither numbers nor failure marks are among some nodes. -/
def arePlain (nodes : List Expr) : Bool := nodes.all fun x => !x.isNumber && !x.isAttempt

/-- Whether neither numbers nor failure marks occur anywhere. -/
def isPlain (e : Expr) : Bool := arePlain e.nodes

theorem arePlain_append {es fs : List Expr} :
    arePlain (es ++ fs) = true ↔ arePlain es = true ∧ arePlain fs = true := by
  simp only [arePlain, List.all_append, Bool.and_eq_true]

end Expr

namespace Grammar

mutual

/-- The words of a plain expression are marks and identifiers. -/
theorem Sum.spellable {ts : List Token} {e : Expr} :
    Sum ts e → (∀ t ∈ ts, t.kind.Written) → e.isPlain = true → e.Spellable
  | .product h, hw, hp => h.spellable hw hp
  | .join hl _ hr, hw, hp => by
    obtain ⟨hwl, hwr⟩ := List.forall_mem_append.mp hw
    obtain ⟨hpl, hpr⟩ := Expr.arePlain_append.mp hp
    exact ⟨hl.spellable hwl hpl, hr.spellable (List.forall_mem_cons.mp hwr).2 hpr⟩

theorem Product.spellable {ts : List Token} {e : Expr} :
    Product ts e → (∀ t ∈ ts, t.kind.Written) → e.isPlain = true → e.Spellable
  | .unary h, hw, hp => h.spellable hw hp
  | .join hl _ hr, hw, hp => by
    obtain ⟨hwl, hwr⟩ := List.forall_mem_append.mp hw
    obtain ⟨hpl, hpr⟩ := Expr.arePlain_append.mp hp
    exact ⟨hl.spellable hwl hpl, hr.spellable (List.forall_mem_cons.mp hwr).2 hpr⟩

theorem Unary.spellable {ts : List Token} {e : Expr} :
    Unary ts e → (∀ t ∈ ts, t.kind.Written) → e.isPlain = true → e.Spellable
  | .neg _ h, hw, hp => h.spellable (List.forall_mem_cons.mp hw).2 hp
  | .plain h, hw, hp => h.spellable hw hp

theorem Postfix.spellable {ts : List Token} {e : Expr} :
    Postfix ts e → (∀ t ∈ ts, t.kind.Written) → e.isPlain = true → e.Spellable
  | .primary h, hw, hp => h.spellable hw hp
  | .method h _ hn hargs, hw, hp => by
    obtain ⟨hwx, hwr⟩ := List.forall_mem_append.mp hw
    obtain ⟨hwn, hwargs⟩ := List.forall_mem_cons.mp (List.forall_mem_cons.mp hwr).2
    obtain ⟨hpx, hpargs⟩ := Expr.arePlain_append.mp hp
    rw [hn] at hwn
    exact ⟨h.spellable hwx hpx, hwn, hargs.spellable hwargs hpargs⟩
  | .attempt _ _, _, hp => nomatch hp

theorem Primary.spellable {ts : List Token} {e : Expr} :
    Primary ts e → (∀ t ∈ ts, t.kind.Written) → e.isPlain = true → e.Spellable
  | .number _, _, hp => nomatch hp
  | .var ht, hw, _ => by
    have hwt := (List.forall_mem_cons.mp hw).1
    rw [ht] at hwt
    exact hwt
  | .call ht hargs, hw, hp => by
    obtain ⟨hwt, hwargs⟩ := List.forall_mem_cons.mp hw
    rw [ht] at hwt
    exact ⟨hwt, hargs.spellable hwargs hp⟩
  | .paren _ h _, hw, hp =>
    h.spellable (List.forall_mem_append.mp (List.forall_mem_cons.mp hw).2).1 hp

theorem Args.spellable {ts : List Token} {es : List Expr} {close : Span} :
    Args ts es close → (∀ t ∈ ts, t.kind.Written) → Expr.arePlain (Expr.nodesOf es) = true →
      Expr.SpellableAll es
  | .mk _ h _, hw, hp =>
    h.spellable (List.forall_mem_append.mp (List.forall_mem_cons.mp hw).2).1 hp

theorem Items.spellable {ts : List Token} {es : List Expr} :
    Items ts es → (∀ t ∈ ts, t.kind.Written) → Expr.arePlain (Expr.nodesOf es) = true →
      Expr.SpellableAll es
  | .nil, _, _ => trivial
  | .last h, hw, hp => ⟨h.spellable hw (Expr.arePlain_append.mp hp).1, trivial⟩
  | .cons h _ hrest, hw, hp => by
    obtain ⟨hwe, hwr⟩ := List.forall_mem_append.mp hw
    obtain ⟨hpe, hprest⟩ := Expr.arePlain_append.mp hp
    exact ⟨h.spellable hwe hpe, hrest.spellable (List.forall_mem_cons.mp hwr).2 hprest⟩

end

/-- The derivations of expressions that bind at least as tightly as a level. -/
def AtLevel : Nat → List Token → Expr → Prop
  | 0 | 1 => Sum
  | 2 => Product
  | 3 => Unary
  | _ => Postfix

theorem AtLevel.of_succ {ts : List Token} {e : Expr} :
    ∀ {n : Nat}, AtLevel (n + 1) ts e → AtLevel n ts e
  | 0, h => h
  | 1, h => .product h
  | 2, h => .unary h
  | 3, h => .plain h
  | _ + 4, h => h

theorem AtLevel.mono {ts : List Token} {e : Expr} {m n : Nat} (hle : m ≤ n)
    (h : AtLevel n ts e) : AtLevel m ts e := by
  induction hle with
  | refl => exact h
  | step _ ih => exact ih h.of_succ

/-- Words that derive an expression at a level, apart from its parentheses and places. -/
def Derives (n : Nat) (ws : List Kind) (b : Expr) : Prop :=
  ∀ ts : List Token, ts.map Token.kind = ws → ∃ e, AtLevel n ts e ∧ e.bare = b

theorem Derives.enclose {n m : Nat} {ws : List Kind} {b : Expr} (h : Derives n ws b)
    {needed : Bool} (hm : m ≤ 4) (hle : needed = false → m ≤ n) :
    Derives m (Expr.enclose needed ws) b := by
  intro ts hts
  cases needed with
  | false =>
    obtain ⟨e, he, hb⟩ := h ts hts
    exact ⟨e, he.mono (hle rfl), hb⟩
  | true =>
    obtain ⟨t, us, rfl, ht, hus⟩ := List.map_eq_cons_iff.mp hts
    obtain ⟨vs, cs, rfl, hvs, hcs⟩ := List.map_eq_append_iff.mp hus
    obtain ⟨c, rfl, hc⟩ := List.map_eq_singleton_iff.mp hcs
    obtain ⟨e, he, hb⟩ := h vs hvs
    have hsum : Sum vs e := he.mono (Nat.zero_le n)
    have hparen : Postfix _ _ := .primary (.paren ht hsum hc)
    exact ⟨_, AtLevel.mono hm hparen, hb⟩

theorem atLevel_binary {op : BinOp} {t : Token} {ts us : List Token} {x y : Expr}
    (hx : AtLevel op.level ts x) (ht : t.kind = op.word) (hy : AtLevel (op.level + 1) us y) :
    AtLevel op.level (ts ++ t :: us) (.binary op x y (x.span.merge y.span)) := by
  cases op with
  | add => exact Sum.join hx (ht ▸ .add) hy
  | sub => exact Sum.join hx (ht ▸ .sub) hy
  | mul => exact Product.join hx (ht ▸ .mul) hy
  | div => exact Product.join hx (ht ▸ .div) hy

/-- The same for arguments separated by commas. -/
def DerivesAll (ws : List Kind) (bs : List Expr) : Prop :=
  ∀ ts : List Token, ts.map Token.kind = ws → ∃ es, Items ts es ∧ Expr.bareAll es = bs

theorem DerivesAll.args {ws : List Kind} {bs : List Expr} (h : DerivesAll ws bs) {ts : List Token}
    (hts : ts.map Token.kind = .lparen :: (ws ++ [.rparen])) :
    ∃ es close, Args ts es close ∧ Expr.bareAll es = bs := by
  obtain ⟨t, us, rfl, ht, hus⟩ := List.map_eq_cons_iff.mp hts
  obtain ⟨vs, cs, rfl, hvs, hcs⟩ := List.map_eq_append_iff.mp hus
  obtain ⟨c, rfl, hc⟩ := List.map_eq_singleton_iff.mp hcs
  obtain ⟨es, hes, hb⟩ := h vs hvs
  exact ⟨es, c.span, .mk ht hes hc, hb⟩

mutual

/-- The words of every expression derive it again, apart from parentheses and places. -/
theorem derives_words : ∀ e : Expr, Derives e.level e.words e.bare
  | .number x _ => by
    intro ts hts
    obtain ⟨t, rfl, ht⟩ := List.map_eq_singleton_iff.mp hts
    exact ⟨_, Postfix.primary (.number ht), rfl⟩
  | .var id => by
    intro ts hts
    obtain ⟨t, rfl, ht⟩ := List.map_eq_singleton_iff.mp hts
    exact ⟨_, Postfix.primary (.var ht), rfl⟩
  | .paren x _ => derives_words x
  | .neg x _ => by
    intro ts hts
    obtain ⟨t, us, rfl, ht, hus⟩ := List.map_eq_cons_iff.mp hts
    have hx : Derives 3 (Expr.enclose (x.level < 3 || x.isNegation) x.words) x.bare := by
      apply (derives_words x).enclose (by decide)
      intro hopen
      simp only [Bool.or_eq_false_iff, decide_eq_false_iff_not] at hopen
      omega
    obtain ⟨e, he, hb⟩ := hx us hus
    exact ⟨_, Unary.neg ht he, by simp only [Expr.bare, hb]⟩
  | .binary op x y _ => by
    intro ts hts
    obtain ⟨us, ws, rfl, hus, hws⟩ := List.map_eq_append_iff.mp hts
    obtain ⟨t, vs, rfl, ht, hvs⟩ := List.map_eq_cons_iff.mp hws
    have hlevel : op.level + 1 ≤ 4 := by cases op <;> decide
    have hx : Derives op.level (Expr.enclose (x.level < op.level) x.words) x.bare := by
      apply (derives_words x).enclose (by omega)
      simp
    have hy : Derives (op.level + 1) (Expr.enclose (y.level ≤ op.level) y.words) y.bare := by
      apply (derives_words y).enclose hlevel
      intro hopen
      simp only [decide_eq_false_iff_not] at hopen
      omega
    obtain ⟨l, hl, hlb⟩ := hx us hus
    obtain ⟨r, hr, hrb⟩ := hy vs hvs
    exact ⟨_, atLevel_binary hl ht hr, by simp only [Expr.bare, hlb, hrb]⟩
  | .call callee args _ => by
    intro ts hts
    obtain ⟨t, us, rfl, ht, hus⟩ := List.map_eq_cons_iff.mp hts
    obtain ⟨es, close, hargs, hb⟩ := (derives_wordsAll args).args hus
    exact ⟨_, Postfix.primary (.call ht hargs), by simp only [Expr.bare, hb]⟩
  | .method x name args _ => by
    intro ts hts
    obtain ⟨us, ws, rfl, hus, hws⟩ := List.map_eq_append_iff.mp hts
    obtain ⟨t, ws, rfl, ht, hws⟩ := List.map_eq_cons_iff.mp hws
    obtain ⟨n, vs, rfl, hn, hvs⟩ := List.map_eq_cons_iff.mp hws
    have hx : Derives 4 (Expr.enclose (x.level < 4) x.words) x.bare := by
      apply (derives_words x).enclose (by decide)
      simp
    obtain ⟨e, he, hb⟩ := hx us hus
    obtain ⟨es, close, hargs, hbs⟩ := (derives_wordsAll args).args hvs
    exact ⟨_, Postfix.method he ht hn hargs, by simp only [Expr.bare, hb, hbs]⟩
  | .attempt x _ => by
    intro ts hts
    obtain ⟨us, ws, rfl, hus, hws⟩ := List.map_eq_append_iff.mp hts
    obtain ⟨t, rfl, ht⟩ := List.map_eq_singleton_iff.mp hws
    have hx : Derives 4 (Expr.enclose (x.level < 4) x.words) x.bare := by
      apply (derives_words x).enclose (by decide)
      simp
    obtain ⟨e, he, hb⟩ := hx us hus
    exact ⟨_, Postfix.attempt he ht, by simp only [Expr.bare, hb]⟩

theorem derives_wordsAll : ∀ args : List Expr,
    DerivesAll ([Kind.comma].intercalate (Expr.wordsAll args)) (Expr.bareAll args)
  | [] => by
    intro ts hts
    obtain rfl := List.map_eq_nil_iff.mp hts
    exact ⟨[], .nil, rfl⟩
  | [e] => by
    intro ts hts
    rw [Expr.wordsAll, Expr.wordsAll, List.intercalate_singleton] at hts
    obtain ⟨e', he, hb⟩ := derives_words e ts hts
    have hsum : Sum ts e' := he.mono (Nat.zero_le _)
    exact ⟨[e'], .last hsum, by simp only [Expr.bareAll, hb]⟩
  | e :: e' :: rest => by
    intro ts hts
    rw [Expr.wordsAll, Expr.wordsAll, List.intercalate_cons_cons, List.append_assoc] at hts
    obtain ⟨us, ws, rfl, hus, hws⟩ := List.map_eq_append_iff.mp hts
    obtain ⟨t, vs, rfl, ht, hvs⟩ := List.map_eq_cons_iff.mp hws
    obtain ⟨x, hx, hb⟩ := derives_words e us hus
    obtain ⟨es, hes, hbs⟩ := derives_wordsAll (e' :: rest) vs hvs
    have hsum : Sum us x := hx.mono (Nat.zero_le _)
    exact ⟨x :: es, .cons hsum ht hes, by rw [Expr.bareAll, hb, hbs]; rfl⟩

end

end Grammar

namespace Expr

/-- What was parsed without errors was read without errors. -/
theorem lex_of_parse {src : Source} (h : (parse src).2.hasErrors = false) :
    (Token.lex src).2.hasErrors = false := by
  rw [parse] at h
  dsimp only at h
  split at h
  · simp at h
  · split at h
    · exact h
    · simp at h

theorem spellable_of_parse {src : Source} {e : Expr} (hparse : (parse src).1 = some e)
    (hquiet : (parse src).2.hasErrors = false) (hplain : e.isPlain = true) : e.Spellable := by
  obtain ⟨words, t, hlex, ht, hwritten⟩ := Token.ended_lex src
  have hwords := Token.inner_of_written hwritten
  have hsum := (parse_iff hlex (lex_of_parse hquiet) hwords ht e).mpr ⟨hparse, hquiet⟩
  exact hsum.spellable hwritten hplain

/-- A rendering that only has marks and identifiers is parsed to the same expression, apart from
parentheses and places. -/
theorem parse_render (r : Rendering) {e : Expr} (h : e.Spellable) (origin : String) :
    ∃ e', (parse ⟨origin, e.render r⟩).1 = some e' ∧
      (parse ⟨origin, e.render r⟩).2.hasErrors = false ∧ e'.bare = e.bare := by
  have hspelled : Spelled (bytes (e.render r)) e.words := by
    simpa using spells_render r e h [] [] nofun .nil
  obtain ⟨words, t, hlex, ht, hkinds⟩ := @Token.lex_spelled ⟨origin, e.render r⟩ _ hspelled
  obtain ⟨e', he', hbare⟩ := Grammar.derives_words e words hkinds
  have hsum : Grammar.Sum words e' := he'.mono (Nat.zero_le _)
  have hclean : (Token.lex ⟨origin, e.render r⟩).2.hasErrors = false := by
    rw [hlex]
    rfl
  obtain ⟨hparse, hquiet⟩ := (parse_iff (by rw [hlex]) hclean hsum.inner ht e').mp hsum
  exact ⟨e', hparse, hquiet, hbare⟩

end Expr

/-- Rendering keeps the expression: what was parsed without errors and has neither numbers nor
failure marks is parsed again from its rendering, without errors and to the same tree apart from
parentheses and places. So two such expressions are rendered alike exactly if they differ in
parentheses and places only. -/
theorem rendering_determines_expression {src : Source} {e : Expr}
    (hparse : (Expr.parse src).1 = some e) (hquiet : (Expr.parse src).2.hasErrors = false)
    (hplain : e.isPlain = true) (r : Rendering) :
    (∀ origin, ∃ e', (Expr.parse ⟨origin, e.render r⟩).1 = some e' ∧
      (Expr.parse ⟨origin, e.render r⟩).2.hasErrors = false ∧ e'.bare = e.bare) ∧
    ∀ (src' : Source) (e' : Expr), (Expr.parse src').1 = some e' →
      (Expr.parse src').2.hasErrors = false → e'.isPlain = true →
        (e.render r = e'.render r ↔ e.bare = e'.bare) := by
  have hspellable := Expr.spellable_of_parse hparse hquiet hplain
  refine ⟨Expr.parse_render r hspellable, ?_⟩
  intro src' e' hparse' hquiet' hplain'
  have hspellable' := Expr.spellable_of_parse hparse' hquiet' hplain'
  constructor
  · intro hrender
    obtain ⟨x, hx, -, hbare⟩ := Expr.parse_render r hspellable ""
    obtain ⟨y, hy, -, hbare'⟩ := Expr.parse_render r hspellable' ""
    rw [← hrender, hx] at hy
    cases hy
    rw [← hbare, hbare']
  · intro hbare
    rw [← Expr.render_bare r e, hbare, Expr.render_bare]

/-- Parentheses around an operand on the right, a receiver and a negation. -/
def sampleExpr : Source := ⟨"sample", "(i0 - (i1 - -(-i2))).abs() / f((i0), (i1 * i2) * i3,)"⟩

/-- The same expression with other parentheses. -/
def sampleTwin : Source := ⟨"twin", "((i0 - ((i1) - -(-i2))).abs()) / (f(i0, i1 * i2 * (i3)))"⟩

def sampleText : String := "(i0 - (i1 - -(-i2))).abs() / f(i0, i1 * i2 * i3)"

theorem rendering_determines_expression_sample :
    ∃ e e', (Expr.parse sampleExpr).1 = some e ∧ (Expr.parse sampleTwin).1 = some e' ∧
      e.bare = e'.bare ∧ e.render ⟨.double, "'error"⟩ = sampleText ∧
      ∃ x, (Expr.parse ⟨"again", e.render ⟨.double, "'error"⟩⟩).1 = some x ∧
        (Expr.parse ⟨"again", e.render ⟨.double, "'error"⟩⟩).2.hasErrors = false ∧
        x.bare = e.bare := by
  have hexpr : (Expr.parse sampleExpr).1.map (fun e => (e.isPlain, e.render ⟨.double, "'error"⟩))
      = some (true, sampleText) := by decide +kernel
  have htwin : (Expr.parse sampleTwin).1.map (fun e => (e.isPlain, e.render ⟨.double, "'error"⟩))
      = some (true, sampleText) := by decide +kernel
  obtain ⟨e, he, heq⟩ := Option.map_eq_some_iff.mp hexpr
  obtain ⟨e', he', heq'⟩ := Option.map_eq_some_iff.mp htwin
  obtain ⟨hplain, htext⟩ := Prod.ext_iff.mp heq
  obtain ⟨hplain', htext'⟩ := Prod.ext_iff.mp heq'
  obtain ⟨hagain, hsame⟩ :=
    rendering_determines_expression he (by decide +kernel) hplain ⟨.double, "'error"⟩
  have hbare := (hsame sampleTwin e' he' (by decide +kernel) hplain').mp (htext.trans htext'.symm)
  exact ⟨e, e', he, he', hbare, htext, hagain "again"⟩

end StackForge
