import StackForge.Proofs.Recovery
import StackForge.Proofs.WordOrder

/-!
The places of trees. A node runs from the first word it derives from to the last one. Its parts lie
within it, one behind the other, and so do the parts of a statement.
-/
namespace StackForge

open Token (Ordered)

namespace Token.Ordered

variable {us vs words : List Token} {w : Token}

theorem left (h : Ordered (us ++ vs)) : Ordered us := h.sublist (List.sublist_append_left us vs)

theorem right (h : Ordered (us ++ vs)) : Ordered vs := h.sublist (List.sublist_append_right us vs)

theorem tail (h : Ordered (w :: vs)) : Ordered vs := h.sublist (List.sublist_cons_self w vs)

/-- No word starts before the first one. -/
theorem head_le (h : Ordered words) {first : Token} (hfirst : words.head? = some first)
    (hw : w ∈ words) : first.span.opens ≤ w.span.opens := by
  obtain ⟨rest, rfl⟩ := List.head?_eq_some_iff.mp hfirst
  rcases List.mem_cons.mp hw with rfl | hw
  · exact le_rfl
  · have hbefore := (List.pairwise_cons.mp h.apart).1 w hw
    exact (h.proper first List.mem_cons_self).trans hbefore.le

/-- No word ends behind the last one. -/
theorem le_last (h : Ordered words) {last : Token} (hlast : words.getLast? = some last)
    (hw : w ∈ words) : w.span.closes ≤ last.span.closes := by
  obtain ⟨rest, rfl⟩ := List.getLast?_eq_some_iff.mp hlast
  rcases List.mem_append.mp hw with hw | hw
  · have hbefore := (List.pairwise_append.mp h.apart).2.2 w hw last (by simp)
    exact hbefore.le.trans (h.proper last (by simp))
  · rw [List.mem_singleton.mp hw]

end Token.Ordered

/-- A span that runs from the start of the first of some words to the end of the last one. -/
def Spanned (words : List Token) (s : Span) : Prop :=
  ∃ first last, words.head? = some first ∧ words.getLast? = some last ∧
    s.opens = first.span.opens ∧ s.closes = last.span.closes

namespace Spanned

variable {us vs words : List Token} {s t : Span}

theorem word (w : Token) : Spanned [w] w.span := ⟨w, w, rfl, rfl, rfl, rfl⟩

theorem proper (hs : Spanned us s) (h : Ordered us) : s.Proper := by
  obtain ⟨first, last, hfirst, hlast, hopens, hcloses⟩ := hs
  rw [Span.Proper, hopens, hcloses]
  have hmem := List.mem_of_head? hfirst
  exact (h.proper first hmem).trans (h.le_last hlast hmem)

/-- Words before other words take up place before theirs. -/
theorem before (hs : Spanned us s) (ht : Spanned vs t) (h : Ordered (us ++ vs)) : s.Before t := by
  obtain ⟨-, last, -, hlast, -, hcloses⟩ := hs
  obtain ⟨first, -, hfirst, -, hopens, -⟩ := ht
  have hbefore := (List.pairwise_append.mp h.apart).2.2
  rw [Span.Before, hcloses, hopens]
  exact hbefore last (List.mem_of_getLast? hlast) first (List.mem_of_head? hfirst)

/-- Some of the words take up no more place than all of them. -/
theorem within (hs : Spanned us s) (ht : Spanned words t) (h : Ordered words) (hus : us ⊆ words) :
    s.Within t := by
  obtain ⟨first, last, hfirst, hlast, hopens, hcloses⟩ := hs
  obtain ⟨first', last', hfirst', hlast', hopens', hcloses'⟩ := ht
  constructor
  · rw [hopens, hopens']
    exact h.head_le hfirst' (hus (List.mem_of_head? hfirst))
  · rw [hcloses, hcloses']
    exact h.le_last hlast' (hus (List.mem_of_getLast? hlast))

/-- Spans of words at the front and at the back are merged to the span of all words. -/
theorem merge (hs : Spanned us s) (mid : List Token) (ht : Spanned vs t)
    (h : Ordered (us ++ (mid ++ vs))) : Spanned (us ++ (mid ++ vs)) (s.merge t) := by
  obtain ⟨first, last, hfirst, hlast, hopens, hcloses⟩ := hs
  obtain ⟨first', last', hfirst', hlast', hopens', hcloses'⟩ := ht
  have hall : (us ++ (mid ++ vs)).head? = some first ∧
      (us ++ (mid ++ vs)).getLast? = some last' := by simp [hfirst, hlast']
  refine ⟨first, last', hall.1, hall.2, ?_, ?_⟩
  · have hmem := List.mem_of_head? hfirst'
    rw [Span.opens_merge, hopens, hopens']
    exact min_eq_left (h.head_le hall.1 (by simp [hmem]))
  · have hmem := List.mem_of_getLast? hlast
    rw [Span.closes_merge, hcloses, hcloses']
    exact max_eq_right (h.le_last hall.2 (by simp [hmem]))

end Spanned

/-- Values that belong to words in a row, each to words behind those of the one before it. -/
inductive Laid {α : Type} (R : List Token → α → Prop) : List Token → List α → Prop where
  | nil {words : List Token} : Laid R words []
  | cons {gap own rest : List Token} {a : α} {as : List α} (h : R own a) (hrest : Laid R rest as) :
      Laid R (gap ++ (own ++ rest)) (a :: as)

namespace Laid

variable {α β : Type} {R : List Token → α → Prop} {words more : List Token} {as bs : List α}

theorem skip (gap : List Token) (h : Laid R words as) : Laid R (gap ++ words) as := by
  cases h with
  | nil => exact .nil
  | @cons gap' own rest a as h hrest =>
    rw [← List.append_assoc]
    exact .cons h hrest

theorem append (h : Laid R words as) (hmore : Laid R more bs) :
    Laid R (words ++ more) (as ++ bs) := by
  induction h with
  | nil => exact hmore.skip _
  | @cons gap own rest a as h _ ih =>
    rw [List.append_assoc, List.append_assoc]
    exact .cons h ih

theorem trail (h : Laid R words as) (gap : List Token) : Laid R (words ++ gap) as := by
  simpa using h.append (.nil : Laid R gap [])

theorem one {a : α} (h : R words a) : Laid R words [a] := by
  have hone : Laid R ([] ++ (words ++ [])) [a] := .cons h .nil
  simpa using hone

/-- Each value belongs to some words in a row. -/
theorem exists_own (h : Laid R words as) {a : α} (ha : a ∈ as) :
    ∃ own, own <:+: words ∧ R own a := by
  induction h with
  | nil => cases ha
  | @cons gap own rest b as h _ ih =>
    rcases List.mem_cons.mp ha with rfl | ha
    · exact ⟨own, ⟨gap, rest, by simp⟩, h⟩
    · obtain ⟨own', hown, ha⟩ := ih ha
      exact ⟨own', hown.trans ⟨gap ++ own, [], by simp⟩, ha⟩

theorem map {S : List Token → β → Prop} (f : α → β) (h : Laid R words as)
    (hf : ∀ own a, own <:+: words → R own a → S own (f a)) : Laid S words (as.map f) := by
  induction h with
  | nil => exact .nil
  | @cons gap own rest a as h _ ih =>
    refine .cons (hf own a ⟨gap, rest, by simp⟩ h) (ih fun own' b hown => ?_)
    exact hf own' b (hown.trans ⟨gap ++ own, [], by simp⟩)

/-- Spans that belong to words in order are in order. -/
theorem pairwise {spans : List Span} (h : Laid Spanned words spans) (hwords : Ordered words) :
    spans.Pairwise Span.Before := by
  induction h with
  | nil => exact .nil
  | @cons gap own rest s spans hs hrest ih =>
    refine List.pairwise_cons.mpr ⟨fun t ht => ?_, ih hwords.right.right⟩
    obtain ⟨us, hus, ht⟩ := hrest.exists_own ht
    exact hs.before ht (hwords.right.sublist (List.Sublist.append_left hus.sublist own))

end Laid

namespace Grammar

theorem Args.exists_close {ts : List Token} {es : List Expr} {close : Span}
    (h : Args ts es close) : ∃ inner c, ts = inner ++ [c] ∧ close = c.span := by
  cases h with
  | @mk t c ts args _ _ _ => exact ⟨t :: ts, c, rfl, rfl⟩

theorem Primary.spanned {ts : List Token} {e : Expr} (h : Primary ts e) (hts : Ordered ts) :
    Spanned ts e.span := by
  cases h with
  | @number t => exact .word t
  | @var t => exact .word t
  | @call t us name args close _ hargs =>
    obtain ⟨inner, c, rfl, rfl⟩ := hargs.exists_close
    exact (Spanned.word t).merge inner (.word c) hts
  | @paren t c ts => exact (Spanned.word t).merge ts (.word c) hts

theorem Postfix.spanned {ts : List Token} {e : Expr} : Postfix ts e → Ordered ts → Spanned ts e.span
  | .primary h, hts => h.spanned hts
  | .method (t := t) (n := n) h _ _ hargs, hts => by
    obtain ⟨inner, c, rfl, rfl⟩ := hargs.exists_close
    have hreceiver := h.spanned hts.left
    exact hreceiver.merge (t :: n :: inner) (.word c) hts
  | .attempt (t := t) h _, hts =>
    have hinner := h.spanned hts.left
    hinner.merge [] (.word t) hts

theorem Unary.spanned {ts : List Token} {e : Expr} : Unary ts e → Ordered ts → Spanned ts e.span
  | .neg (t := t) _ h, hts =>
    have hinner := h.spanned hts.tail
    (Spanned.word t).merge [] hinner hts
  | .plain h, hts => h.spanned hts

theorem Product.spanned {ts : List Token} {e : Expr} : Product ts e → Ordered ts → Spanned ts e.span
  | .unary h, hts => h.spanned hts
  | .join (t := t) hl _ hr, hts =>
    have hleft := hl.spanned hts.left
    hleft.merge [t] (hr.spanned hts.right.tail) hts

theorem Sum.spanned {ts : List Token} {e : Expr} : Sum ts e → Ordered ts → Spanned ts e.span
  | .product h, hts => h.spanned hts
  | .join (t := t) hl _ hr, hts =>
    have hleft := hl.spanned hts.left
    hleft.merge [t] (hr.spanned hts.right.tail) hts

theorem Stmt.spanned {ts : List Token} {s : StackForge.Stmt} (h : Stmt ts s) (hts : Ordered ts) :
    Spanned ts s.span := by
  cases h with
  | @bind t n q ts name e _ _ _ h =>
    exact (Spanned.word t).merge [n, q] (h.spanned hts.tail.tail.tail) hts
  | @assign t q ts name e _ _ h => exact (Spanned.word t).merge [q] (h.spanned hts.tail.tail) hts
  | @ret t ts e _ h => exact (Spanned.word t).merge [] (h.spanned hts.tail) hts

end Grammar

/-- What a node or a statement is made of: names and other nodes. -/
inductive Part where
  | name (id : Ident)
  | node (e : Expr)

namespace Part

def span : Part → Span
  | .name id => id.span
  | .node e => e.span

/-- The words of a part. -/
inductive From : List Token → Part → Prop where
  | name {t : Token} {name : String} (h : t.kind = .identifier name) :
      From [t] (.name ⟨name, t.span⟩)
  | node {ts : List Token} {e : Expr} (h : Grammar.Sum ts e) : From ts (.node e)

theorem laid_name {t : Token} {name : String} (h : t.kind = .identifier name) :
    Laid From [t] [.name ⟨name, t.span⟩] :=
  .one (.name h)

theorem laid_node {ts : List Token} {e : Expr} (h : Grammar.Sum ts e) : Laid From ts [.node e] :=
  .one (.node h)

theorem From.spanned {ts : List Token} {p : Part} (h : From ts p) (hts : Ordered ts) :
    Spanned ts p.span := by
  cases h with
  | @name t => exact .word t
  | node h => exact h.spanned hts

end Part

/-- The parts of a node, in the order of the text. -/
def Expr.parts : Expr → List Part
  | .number _ _ | .var _ => []
  | .neg e _ | .attempt e _ | .paren e _ => [.node e]
  | .binary _ l r _ => [.node l, .node r]
  | .call callee args _ => .name callee :: args.map .node
  | .method receiver name args _ => .node receiver :: .name name :: args.map .node

/-- The parts of a statement, in the order of the text. -/
def Stmt.parts : Stmt → List Part
  | .bind name e _ | .assign name e _ => [.name name, .node e]
  | .ret e _ => [.node e]

namespace Grammar

theorem Items.laid {ts : List Token} {es : List Expr} (h : Items ts es) :
    Laid Part.From ts (es.map .node) := by
  cases h with
  | nil => exact .nil
  | last h => exact Part.laid_node h
  | cons h _ hrest => exact (Part.laid_node h).append (hrest.laid.skip [_])

theorem Args.laid {ts : List Token} {es : List Expr} {close : Span} (h : Args ts es close) :
    Laid Part.From ts (es.map .node) := by
  cases h with
  | @mk t c ts args _ h _ => exact (h.laid.trail [c]).skip [t]

theorem Unary.sum {ts : List Token} {e : Expr} (h : Unary ts e) : Sum ts e := .product (.unary h)

theorem Postfix.sum {ts : List Token} {e : Expr} (h : Postfix ts e) : Sum ts e :=
  (Unary.plain h).sum

/-- The parts of a node come from words in a row, among those of the node. -/
theorem Sum.laid {ts : List Token} {e : Expr} (h : Sum ts e) : Laid Part.From ts e.parts := by
  cases h with
  | join hl _ hr => exact (Part.laid_node hl).append ((Part.laid_node (.product hr)).skip [_])
  | product h =>
  cases h with
  | join hl _ hr => exact (Part.laid_node (.product hl)).append ((Part.laid_node hr.sum).skip [_])
  | unary h =>
  cases h with
  | neg _ h => exact (Part.laid_node h.sum).skip [_]
  | plain h =>
  cases h with
  | method h _ hn hargs =>
    exact (Part.laid_node h.sum).append (((Part.laid_name hn).append hargs.laid).skip [_])
  | attempt h _ => exact (Part.laid_node h.sum).trail [_]
  | primary h =>
  cases h with
  | number => exact .nil
  | var => exact .nil
  | call ht hargs => exact (Part.laid_name ht).append hargs.laid
  | paren _ h _ => exact ((Part.laid_node h).trail [_]).skip [_]

theorem Stmt.laid {ts : List Token} {s : StackForge.Stmt} (h : Stmt ts s) :
    Laid Part.From ts s.parts := by
  cases h with
  | bind _ hn _ h =>
    exact ((Part.laid_name hn).append ((Part.laid_node h).skip [_])).skip [_]
  | assign ht _ h => exact (Part.laid_name ht).append ((Part.laid_node h).skip [_])
  | ret _ h => exact (Part.laid_node h).skip [_]

end Grammar

namespace Expr

theorem mem_nodesOf {x : Expr} {es : List Expr} (h : x ∈ nodesOf es) : ∃ e ∈ es, x ∈ e.nodes := by
  induction es with
  | nil => cases h
  | cons e es ih =>
    rcases List.mem_append.mp h with h | h
    · exact ⟨e, List.mem_cons_self, h⟩
    · obtain ⟨e', he', h⟩ := ih h
      exact ⟨e', List.mem_cons_of_mem e he', h⟩

/-- A node inside an expression is the expression itself or inside one of its parts. -/
theorem mem_nodes_cases {x e : Expr} (h : x ∈ e.nodes) :
    x = e ∨ ∃ c, Part.node c ∈ e.parts ∧ x ∈ c.nodes := by
  cases e with
  | number | var => exact .inl (List.mem_singleton.mp h)
  | neg e | attempt e | paren e =>
    exact (List.mem_cons.mp h).imp_right fun h => ⟨e, List.mem_cons_self, h⟩
  | binary op l r =>
    refine (List.mem_cons.mp h).imp_right fun h => ?_
    rcases List.mem_append.mp h with h | h
    · exact ⟨l, by simp [parts], h⟩
    · exact ⟨r, by simp [parts], h⟩
  | call callee args =>
    refine (List.mem_cons.mp h).imp_right fun h => ?_
    obtain ⟨a, ha, h⟩ := mem_nodesOf h
    exact ⟨a, by simp [parts, ha], h⟩
  | method r name args =>
    refine (List.mem_cons.mp h).imp_right fun h => ?_
    rcases List.mem_append.mp h with h | h
    · exact ⟨r, by simp [parts], h⟩
    · obtain ⟨a, ha, h⟩ := mem_nodesOf h
      exact ⟨a, by simp [parts, ha], h⟩

theorem sizeOf_lt_of_mem_parts {c e : Expr} (h : Part.node c ∈ e.parts) : sizeOf c < sizeOf e := by
  cases e with
  | number | var => cases h
  | neg e | attempt e | paren e =>
    cases List.mem_singleton.mp h
    simp; omega
  | binary op l r =>
    obtain rfl | rfl : c = l ∨ c = r := by simpa [parts] using h
    · simp; omega
    · simp; omega
  | call callee args =>
    have hmem : c ∈ args := by simpa [parts] using h
    have := List.sizeOf_lt_of_mem hmem
    simp; omega
  | method r name args =>
    obtain rfl | hmem : c = r ∨ c ∈ args := by simpa [parts] using h
    · simp; omega
    · have := List.sizeOf_lt_of_mem hmem
      simp; omega

/-- Every node inside an expression derives from some of its words in a row. -/
theorem exists_derivation {ts : List Token} {x e : Expr} (h : Grammar.Sum ts e) (hx : x ∈ e.nodes) :
    ∃ own, own <:+: ts ∧ Grammar.Sum own x := by
  rcases mem_nodes_cases hx with rfl | ⟨c, hc, hx⟩
  · exact ⟨ts, List.infix_rfl, h⟩
  · have := sizeOf_lt_of_mem_parts hc
    obtain ⟨us, hus, hpart⟩ := h.laid.exists_own hc
    cases hpart with
    | node hsum =>
      obtain ⟨own, hown, hx⟩ := exists_derivation hsum hx
      exact ⟨own, hown.trans hus, hx⟩
  termination_by sizeOf e

end Expr

/-- Parts that lie within a span, one behind the other. -/
structure Nested (s : Span) (parts : List Part) : Prop where
  proper : s.Proper
  within : ∀ p ∈ parts, p.span.Within s
  apart : parts.Pairwise fun p q => p.span.Before q.span

theorem Laid.nested {words : List Token} {parts : List Part} {s : Span}
    (h : Laid Part.From words parts) (hs : Spanned words s) (hwords : Ordered words) :
    Nested s parts := by
  refine ⟨hs.proper hwords, fun p hp => ?_, ?_⟩
  · obtain ⟨own, hown, hp⟩ := h.exists_own hp
    exact (hp.spanned (hwords.sublist hown.sublist)).within hs hwords hown.subset
  · refine List.pairwise_map.mp ((h.map Part.span fun own p hown hp => ?_).pairwise hwords)
    exact hp.spanned (hwords.sublist hown.sublist)

/-- A node that derives from some of these words in a row, and whose span runs over just these, with
the parts inside it in order. -/
def Expr.Exact (words : List Token) (e : Expr) : Prop :=
  ∃ own, own <:+: words ∧ Grammar.Sum own e ∧ Spanned own e.span ∧ Nested e.span e.parts

/-- The same for a statement. -/
def Stmt.Exact (words : List Token) (s : Stmt) : Prop :=
  ∃ own, own <:+: words ∧ Grammar.Stmt own s ∧ Spanned own s.span ∧ Nested s.span s.parts

theorem Expr.exact_of_sum {words ts : List Token} {e : Expr} (hwords : Ordered words)
    (hts : ts <:+: words) (h : Grammar.Sum ts e) : ∀ x ∈ e.nodes, x.Exact words := by
  intro x hx
  obtain ⟨own, hown, hsum⟩ := exists_derivation h hx
  have hordered := hwords.sublist (hown.trans hts).sublist
  have hspanned := hsum.spanned hordered
  exact ⟨own, hown.trans hts, hsum, hspanned, hsum.laid.nested hspanned hordered⟩

theorem Stmt.exact_of_stmt {words ts : List Token} {s : Stmt} (hwords : Ordered words)
    (hts : ts <:+: words) (h : Grammar.Stmt ts s) :
    s.Exact words ∧ ∀ x ∈ s.value.nodes, x.Exact words := by
  have hordered := hwords.sublist hts.sublist
  have hspanned := h.spanned hordered
  refine ⟨⟨ts, hts, h, hspanned, h.laid.nested hspanned hordered⟩, ?_⟩
  have hvalue : Part.node s.value ∈ s.parts := by cases s <;> simp [parts, value]
  obtain ⟨us, hus, hpart⟩ := h.laid.exists_own hvalue
  cases hpart with
  | node hsum => exact Expr.exact_of_sum hwords (hus.trans hts) hsum

/-- A statement up to the end mark, or a fault in it, leaves words from the end of those there were.
-/
theorem Stmt.outcome?_suffix {t : Token} {ts : List Token} {o : Outcome Stmt} (ht : t.kind ≠ .eof)
    (hts : ∀ w, (t :: ts).getLast? = some w → w.kind = .eof) (h : outcome? t ts = some o) :
    o.2 <:+ ts := by
  cases hlast : ts.getLast? with
  | none =>
    rw [List.getLast?_eq_none_iff.mp hlast] at hts
    exact absurd (hts t rfl) ht
  | some mark =>
    have hmark : mark.kind = .eof := hts mark (by simp [List.getLast?_cons, hlast])
    obtain ⟨words, rfl⟩ := List.getLast?_eq_some_iff.mp hlast
    rcases stmt_settles (.inr hmark) t words with hnone | ⟨read, hread, hsome⟩
    · rw [hnone] at h
      cases h
    · obtain ⟨result, left, ⟨taken, rfl⟩, hread⟩ := hread
      rw [hsome, hread] at h
      cases h
      exact ⟨taken, by simp⟩

namespace Block

theorem recover_suffix (ts : List Token) : recover ts <:+ ts := by
  induction ts with
  | nil => exact List.suffix_rfl
  | cons t ts ih =>
    unfold recover
    split
    · exact List.suffix_rfl
    · exact List.suffix_rfl
    · exact List.suffix_rfl
    · exact List.suffix_cons t ts
    · exact ih.trans (List.suffix_cons t ts)

/-- The statement of a turn derives from words the turn takes away. -/
theorem exists_taken (src : Source) {t : Token} {ts : List Token} (ht : t.kind ≠ .eof)
    (hts : ∀ w, (t :: ts).getLast? = some w → w.kind = .eof) :
    ∃ taken, t :: ts = taken ++ (front src t ts).rest ∧
      Laid Grammar.Stmt taken (front src t ts).stmts := by
  -- without a statement, it is enough that the turn leaves words from the end
  have hnothing : ∀ {rest : List Token}, rest <:+ ts →
      ∃ taken, t :: ts = taken ++ rest ∧
        Laid Grammar.Stmt taken ([] : List Stmt) := by
    rintro rest ⟨taken, htaken⟩
    exact ⟨t :: taken, by simp [htaken], .nil⟩
  unfold front
  split
  · refine hnothing ?_
    simp only
    split
    · exact List.suffix_rfl
    · exact recover_suffix _
  · rename_i fault rest ho
    exact hnothing ((recover_suffix rest).trans (Stmt.outcome?_suffix ht hts ho))
  · rename_i s rest ho
    obtain ⟨p, hp, hvalue⟩ := Option.map_eq_some_iff.mp ho
    have hvalue : p.value? = some (s, rest) := by
      cases p with
      | ok => cases hvalue; rfl
      | fail => cases hvalue
    obtain ⟨own, hown, hstmt⟩ := Stmt.stmt_sound hp hvalue
    have hmore : ∀ {rest' : List Token}, rest' <:+ rest →
        ∃ taken, t :: ts = taken ++ rest' ∧ Laid Grammar.Stmt taken [s] := by
      rintro rest' ⟨skipped, hskipped⟩
      exact ⟨own ++ skipped, by simp [hown, ← hskipped], (Laid.one hstmt).trail skipped⟩
    split
    · exact hmore (List.tail_suffix rest)
    · split
      · exact hmore List.suffix_rfl
      · exact hmore (recover_suffix rest)

/-- The statements of a block derive from words in a row, one behind the other, whatever is passed
over between them. -/
theorem laid_parseStmts (src : Source) (log : Log) (ts : List Token)
    (hts : ∀ w, ts.getLast? = some w → w.kind = .eof) :
    Laid Grammar.Stmt ts (parseStmts src log ts).1 := by
  by_cases hend : headKind ts = .eof
  · rw [parseStmts_of_eof hend]
    exact .nil
  match ts with
  | [] => exact absurd rfl hend
  | t :: ts =>
    cases hlog : log.isFull with
    | true =>
      rw [parseStmts, if_pos (by simp [hlog])]
      exact .nil
    | false =>
      obtain ⟨taken, htaken, hlaid⟩ := exists_taken src hend hts
      -- the induction is on the number of words: a turn takes at least one
      have hshort := (length_front_le src t ts).2.2
      have hrest := laid_parseStmts src (log.pushAll (front src t ts).errors)
        (front src t ts).rest (fun w hw => hts w (by rw [htaken]; simp [hw]))
      rw [parseStmts_front src hend hlog, htaken]
      exact hlaid.append hrest
  termination_by ts.length

end Block

/-- An expression that is parsed derives from words at the front, also where more words follow. -/
theorem Expr.exists_sum {src : Source} {e : Expr} (h : (parse src).1 = some e) :
    ∃ ts, ts <:+: (Token.lex src).1 ∧ Grammar.Sum ts e := by
  unfold parse at h
  generalize hlex : Token.lex src = lexed at h
  obtain ⟨tokens, log⟩ := lexed
  cases hparse : parseSum tokens with
  | fail fault rest fits => simp [hparse] at h
  | ok e' rest fits =>
    obtain rfl : e' = e := by
      simp only [hparse] at h
      split at h <;> exact Option.some.inj h
    have hvalue : (parseSum tokens).value? = some (e', rest) := by rw [hparse]; rfl
    obtain ⟨ts, hts, hsum⟩ := sum_sound hvalue
    exact ⟨ts, ⟨[], rest, hts.symm⟩, hsum⟩

/-- The spans of parsed trees are exact and nested, for every text, whether it is parsed in silence
or not. Each node of an expression, and each statement of a block, derives from some words of the
text in a row; its span runs from the start of the first to the end of the last of them; and its
parts lie within it, one behind the other in the order of the text. So do the statements of a block.
-/
theorem parsed_spans_are_exact (src : Source) :
    (∀ e, (Expr.parse src).1 = some e → ∀ x ∈ e.nodes, x.Exact (Token.lex src).1) ∧
      (∀ s ∈ (Block.parse src).1.stmts,
        s.Exact (Token.lex src).1 ∧ ∀ x ∈ s.value.nodes, x.Exact (Token.lex src).1) ∧
      (Block.parse src).1.stmts.Pairwise fun s t => s.span.Before t.span := by
  have hordered := Token.ordered_lex src
  have hlaid : Laid Grammar.Stmt (Token.lex src).1 (Block.parse src).1.stmts := by
    obtain ⟨words, mark, hlex, hmark, -⟩ := Token.ended_lex src
    refine Block.laid_parseStmts src _ _ fun w hw => ?_
    obtain rfl : mark = w := by simpa [hlex] using hw
    exact hmark
  refine ⟨fun e he => ?_, fun s hs => ?_, ?_⟩
  · obtain ⟨ts, hts, hsum⟩ := Expr.exists_sum he
    exact Expr.exact_of_sum hordered hts hsum
  · obtain ⟨ts, hts, hstmt⟩ := hlaid.exists_own hs
    exact Stmt.exact_of_stmt hordered hts hstmt
  · refine List.pairwise_map.mp ((hlaid.map Stmt.span fun own s hown hs => ?_).pairwise hordered)
    exact hs.spanned (hordered.sublist hown.sublist)

/-- An expression on two lines. -/
def spreadBody : Source := ⟨"spread", "f(x,\n  -y.abs()?) * 2"⟩

/-- A statement on two lines, behind one that has no name. -/
def foldedBody : Source := ⟨"folded", "let = 1;\no0 =\n  x"⟩

theorem parsed_spans_are_exact_folded :
    (∃ e, (Expr.parse spreadBody).1 = some e ∧
      e.nodes.map Expr.span = [⟨1, 1, 2, 16⟩, ⟨1, 1, 2, 12⟩, ⟨1, 3, 1, 3⟩, ⟨2, 3, 2, 11⟩,
        ⟨2, 4, 2, 11⟩, ⟨2, 4, 2, 10⟩, ⟨2, 4, 2, 4⟩, ⟨2, 16, 2, 16⟩] ∧
      ∀ x ∈ e.nodes, x.Exact (Token.lex spreadBody).1) ∧
    ∃ s, (Block.parse foldedBody).1.stmts = [s] ∧ s.span = ⟨2, 1, 3, 3⟩ ∧
      s.Exact (Token.lex foldedBody).1 ∧ ∀ x ∈ s.value.nodes, x.Exact (Token.lex foldedBody).1 := by
  have hnodes : ((Expr.parse spreadBody).1.map fun e => e.nodes.map Expr.span)
      = some [⟨1, 1, 2, 16⟩, ⟨1, 1, 2, 12⟩, ⟨1, 3, 1, 3⟩, ⟨2, 3, 2, 11⟩, ⟨2, 4, 2, 11⟩,
        ⟨2, 4, 2, 10⟩, ⟨2, 4, 2, 4⟩, ⟨2, 16, 2, 16⟩] := by decide +kernel
  have hstmts : (Block.parse foldedBody).1.stmts.map Stmt.span = [⟨2, 1, 3, 3⟩] := by
    decide +kernel
  obtain ⟨e, he, hspans⟩ := Option.map_eq_some_iff.mp hnodes
  obtain ⟨s, hs, hspan⟩ := List.map_eq_singleton_iff.mp hstmts
  refine ⟨⟨e, he, hspans, (parsed_spans_are_exact spreadBody).1 e he⟩, s, hs, hspan, ?_⟩
  exact (parsed_spans_are_exact foldedBody).2.1 s (by simp [hs])

end StackForge
