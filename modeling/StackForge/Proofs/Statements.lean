import StackForge.Proofs.Lexing
import StackForge.Proofs.Log
import StackForge.Proofs.Parsing

/-!
Whole bodies against the grammar. The parsers of an expression and of a block stay silent exactly
on the words that derive one, and then give the only tree these words derive.
-/
namespace StackForge

open Token (Kind)

namespace Log

@[simp] theorem hasErrors_push_fault (log : Log) (fault : SyntaxFault) (src : Source)
    (span : Span) : (log.push (fault.diagnostic src span)).hasErrors = true :=
  log.hasErrors_push_of_error rfl

theorem isFull_of_hasErrors {log : Log} (h : log.hasErrors = false) : log.isFull = false := by
  have hnone : log.totalErrors = 0 := by simpa [hasErrors] using h
  simp [isFull, hnone, capacity]

end Log

namespace Grammar

theorem Stmt.inner {ts : List Token} {s : StackForge.Stmt} (h : Stmt ts s) : Inner ts := by
  cases h with
  | bind ht hn hq h => simp [ht, hn, hq, h.inner]
  | assign ht hq h => simp [ht, hq, h.inner]
  | ret ht h => simp [ht, h.inner]

theorem Stmts.inner {ts : List Token} {ss : List StackForge.Stmt} (h : Stmts ts ss) : Inner ts := by
  induction h with
  | nil => simp
  | last h => exact h.inner
  | cons h ht _ ih => simp [h.inner, ht, ih]

theorem Stmt.ne_nil {ts : List Token} {s : StackForge.Stmt} (h : Stmt ts s) : ts ≠ [] := by
  cases h <;> simp

theorem Stmts.nil_iff {ts : List Token} {ss : List StackForge.Stmt} (h : Stmts ts ss) :
    ts = [] ↔ ss = [] := by
  cases h with
  | nil => simp
  | last h => simp [h.ne_nil]
  | cons => simp

/-- Words in front of an end mark are the same wherever the cut was found. -/
theorem inner_unique {words ls rest : List Token} {t : Token} (hwords : Inner words)
    (hls : Inner ls) (ht : t.kind = .eof) (hrest : headKind rest = .eof)
    (h : words ++ [t] = ls ++ rest) : ls = words ∧ rest = [t] := by
  induction words generalizing ls with
  | nil =>
    cases ls with
    | nil => exact ⟨rfl, h.symm⟩
    | cons u us =>
      obtain ⟨rfl, -⟩ := List.cons.inj h
      exact absurd ht (inner_cons.mp hls).1
  | cons w ws ih =>
    cases ls with
    | nil =>
      subst h
      exact absurd hrest (inner_cons.mp hwords).1
    | cons u us =>
      obtain ⟨rfl, htail⟩ := List.cons.inj h
      obtain ⟨rfl, hlast⟩ := ih (inner_cons.mp hwords).2 (inner_cons.mp hls).2 htail
      exact ⟨rfl, hlast⟩

theorem Block.stmts {ts : List Token} {b : StackForge.Block} (h : Block ts b) :
    Stmts ts b.stmts := by
  cases h
  assumption

end Grammar

namespace Expr

/-- On words that end with the end mark, a sum is parsed up to it exactly if they derive it. -/
theorem parseSum_iff {words : List Token} {t : Token} (hwords : Grammar.Inner words)
    (ht : t.kind = .eof) (e : Expr) :
    Grammar.Sum words e ↔
      ∃ rest, (parseSum (words ++ [t])).value? = some (e, rest) ∧ headKind rest = .eof := by
  constructor
  · intro h
    have hend : EndsSum (headKind [t]) := by
      rw [headKind, ht]
      exact endsSum_eof
    have hsum := sum_complete hend.toEndsProduct h
    rw [value?_parseSumTail_of_ends hend.sum] at hsum
    exact ⟨[t], hsum, ht⟩
  · rintro ⟨rest, hsum, hrest⟩
    obtain ⟨ls, hls, h⟩ := sum_sound hsum
    obtain ⟨rfl, -⟩ := Grammar.inner_unique hwords h.inner ht hrest hls
    exact h

theorem parse_iff {src : Source} {words : List Token} {t : Token}
    (hlex : (Token.lex src).1 = words ++ [t]) (hclean : (Token.lex src).2.hasErrors = false)
    (hwords : Grammar.Inner words) (ht : t.kind = .eof) (e : Expr) :
    Grammar.Sum words e ↔ (parse src).1 = some e ∧ (parse src).2.hasErrors = false := by
  rw [parseSum_iff hwords ht, ← hlex, parse]
  dsimp only
  cases parseSum (Token.lex src).1 with
  | fail fault rest fits => simp
  | ok a rest fits =>
    by_cases hrest : headKind rest = .eof
    · simp [hrest, hclean, and_assoc]
    · simp [hrest, and_assoc]

/-- An expression text without errors has a tree. -/
theorem exists_parse {src : Source} (h : (parse src).2.hasErrors = false) :
    ∃ e, (parse src).1 = some e := by
  rw [parse] at h ⊢
  dsimp only at h ⊢
  cases hsum : parseSum (Token.lex src).1 with
  | fail fault rest fits => simp [hsum] at h
  | ok e rest fits =>
    refine ⟨e, ?_⟩
    dsimp only
    split <;> rfl

end Expr

namespace Stmt

theorem value?_parseValue_cons (t : Token) (ts : List Token) :
    (parseValue (t :: ts)).value? = if t.kind = .eq then (Expr.parseSum ts).value? else none := by
  rw [parseValue]
  split <;> simp

theorem value_sound {ts rest : List Token} {e : Expr}
    (h : (parseValue ts).value? = some (e, rest)) :
    ∃ (q : Token) (ls : List Token), ts = q :: ls ++ rest ∧ q.kind = .eq ∧ Grammar.Sum ls e := by
  cases ts with
  | nil => cases h
  | cons q us =>
    rw [value?_parseValue_cons] at h
    split at h
    · obtain ⟨ls, rfl, hsum⟩ := Expr.sum_sound h
      exact ⟨q, ls, rfl, ‹_›, hsum⟩
    · cases h

/-- A statement that is parsed derives from the words it was parsed from. -/
theorem stmt_sound {t : Token} {ts rest : List Token} {s : Stmt} {p : Parse Stmt ts.length}
    (hp : parse? t ts = some p) (h : p.value? = some (s, rest)) :
    ∃ ls, t :: ts = ls ++ rest ∧ Grammar.Stmt ls s := by
  rw [parse?.eq_def] at hp
  split at hp
  · rename_i ht
    cases ts with
    | nil =>
      cases hp
      cases h
    | cons n us =>
      dsimp only at hp
      split at hp
      · rename_i name hn
        cases hp
        rw [Parse.value?_map] at h
        obtain ⟨⟨e, mid⟩, he, heq⟩ := Option.map_eq_some_iff.mp h
        cases heq
        obtain ⟨q, ls, rfl, hq, hsum⟩ := value_sound he
        exact ⟨t :: n :: q :: ls, rfl, .bind ht hn hq hsum⟩
      · cases hp
        cases h
  · rename_i ht
    cases hp
    rw [Parse.value?_map] at h
    obtain ⟨⟨e, mid⟩, he, heq⟩ := Option.map_eq_some_iff.mp h
    cases heq
    obtain ⟨ls, rfl, hsum⟩ := Expr.sum_sound he
    exact ⟨t :: ls, rfl, .ret ht hsum⟩
  · rename_i name ht
    split at hp
    · cases hp
      rw [Parse.value?_map] at h
      obtain ⟨⟨e, mid⟩, he, heq⟩ := Option.map_eq_some_iff.mp h
      cases heq
      obtain ⟨q, ls, rfl, hq, hsum⟩ := value_sound he
      exact ⟨t :: q :: ls, rfl, .assign ht hq hsum⟩
    · cases hp
  · cases hp

theorem value_complete {q : Token} {ls rest : List Token} {e : Expr} (hq : q.kind = .eq)
    (hrest : Expr.EndsSum (headKind rest)) (h : Grammar.Sum ls e) :
    (parseValue (q :: (ls ++ rest))).value? = some (e, rest) := by
  rw [value?_parseValue_cons, if_pos hq, Expr.sum_complete hrest.toEndsProduct h,
    Expr.value?_parseSumTail_of_ends hrest.sum]

/-- Every derivation of a statement is parsed if the word behind it does not go on with it. -/
theorem stmt_complete {ls rest : List Token} {s : Stmt} (hrest : Expr.EndsSum (headKind rest))
    (h : Grammar.Stmt ls s) :
    ∃ t us p, ls = t :: us ∧ t.kind ≠ .eof ∧ parse? t (us ++ rest) = some p ∧
      p.value? = some (s, rest) := by
  cases h with
  | @bind t n q ts name e ht hn hq h =>
    refine ⟨t, n :: q :: ts, (parseValue (q :: (ts ++ rest))).map
      (fun e => .bind ⟨name, n.span⟩ e (t.span.merge e.span)) (by simp), rfl, by simp [ht], ?_, ?_⟩
    · simp [parse?.eq_def, ht, hn]
    · rw [Parse.value?_map, value_complete hq hrest h, Option.map_some]
  | @assign t q ts name e ht hq h =>
    refine ⟨t, q :: ts, (parseValue (q :: (ts ++ rest))).map
      (fun e => .assign ⟨name, t.span⟩ e (t.span.merge e.span)) (by simp), rfl, by simp [ht],
      ?_, ?_⟩
    · simp [parse?.eq_def, ht, hq, headKind]
    · rw [Parse.value?_map, value_complete hq hrest h, Option.map_some]
  | @ret t ts e ht h =>
    refine ⟨t, ts, (Expr.parseSum (ts ++ rest)).map
      (fun e => .ret e (t.span.merge e.span)) (by simp), rfl, by simp [ht], ?_, ?_⟩
    · simp [parse?.eq_def, ht]
    · rw [Parse.value?_map, Expr.sum_complete hrest.toEndsProduct h,
        Expr.value?_parseSumTail_of_ends hrest.sum, Option.map_some]

end Stmt

namespace Block

theorem parseStmts_of_eof {rest : List Token} (h : headKind rest = .eof) (src : Source)
    (log : Log) : parseStmts src log rest = ([], log, rest) := by
  cases rest with
  | nil => rw [parseStmts]
  | cons t us =>
    rw [headKind] at h
    rw [parseStmts, if_pos (by simp [h])]

/-- An error stays in the log. -/
theorem hasErrors_parseStmts {src : Source} {log : Log} {ts : List Token}
    (h : log.hasErrors = true) : (parseStmts src log ts).2.1.hasErrors = true := by
  fun_induction parseStmts src log ts with
  | case1 => exact h
  | case2 => exact h
  | case3 log t ts hgo hle hnone log' hkind ih => exact ih (log.hasErrors_push_fault _ _ _)
  | case4 log t ts hgo hle hnone log' hkind ih => exact ih (log.hasErrors_push_fault _ _ _)
  | case5 log t ts hgo hle fault rest fits hfail hle' log' ih =>
    exact ih (log.hasErrors_push_fault _ _ _)
  | case6 log t ts hgo hle s rest fits hok hle' kind ss outcome hmore ih₁ ih₂ ih₃ =>
    split at hmore
    · simpa [hmore] using ih₁ h
    · split at hmore
      · simpa [hmore] using ih₂ h
      · simpa [hmore] using ih₃ (log.hasErrors_push_fault _ _ _)

/-- Statements that are parsed in silence derive from the words up to the end. -/
theorem stmts_sound {src : Source} {log : Log} {ts : List Token}
    (h : (parseStmts src log ts).2.1.hasErrors = false) :
    ∃ ls, ts = ls ++ (parseStmts src log ts).2.2 ∧ headKind (parseStmts src log ts).2.2 = .eof ∧
      Grammar.Stmts ls (parseStmts src log ts).1 := by
  -- a branch that reports a fault leaves an error in the log
  have hloud : ∀ {log : Log} {ts : List Token}, log.hasErrors = true →
      (parseStmts src log ts).2.1.hasErrors ≠ false := by
    intro log ts hlog
    simp [hasErrors_parseStmts hlog]
  fun_induction parseStmts src log ts with
  | case1 => exact ⟨[], rfl, rfl, .nil⟩
  | case2 log t ts hstop =>
    have hkind : t.kind = .eof := by simpa [Log.isFull_of_hasErrors h] using hstop
    exact ⟨[], rfl, hkind, .nil⟩
  | case3 log t ts hgo hle hnone log' hkind ih =>
    exact absurd h (hloud (log.hasErrors_push_fault _ _ _))
  | case4 log t ts hgo hle hnone log' hkind ih =>
    exact absurd h (hloud (log.hasErrors_push_fault _ _ _))
  | case5 log t ts hgo hle fault rest fits hfail hle' log' ih =>
    exact absurd h (hloud (log.hasErrors_push_fault _ _ _))
  | case6 log t ts hgo hle s rest fits hok hle' kind ss outcome hmore ih₁ ih₂ ih₃ =>
    obtain ⟨ls, hls, hstmt⟩ := Stmt.stmt_sound hok rfl
    rw [hls]
    split at hmore
    · rename_i hkind
      rw [hmore] at ih₁
      obtain ⟨us, hus, hend, hstmts⟩ := ih₁ h
      cases rest with
      | nil => exact nomatch hkind
      | cons c rest =>
        rw [List.tail_cons] at hus
        exact ⟨ls ++ c :: us, by simp [hus], hend, .cons hstmt hkind hstmts⟩
    · split at hmore
      · rename_i hkind
        rw [parseStmts_of_eof hkind] at hmore
        cases hmore
        exact ⟨ls, rfl, hkind, .last hstmt⟩
      · have hquiet := @hloud _ (recover rest)
          (log.hasErrors_push_fault (.expected .semicolon kind) src (headSpan rest))
        rw [hmore] at hquiet
        exact absurd h hquiet

/-- A parsed statement is followed by those behind its semicolon, or by none at the end. -/
theorem parseStmts_cons {src : Source} {log : Log} {t : Token} {ts rest : List Token} {s : Stmt}
    {p : Parse Stmt ts.length} (hlog : log.hasErrors = false) (ht : t.kind ≠ .eof)
    (hp : Stmt.parse? t ts = some p) (h : p.value? = some (s, rest)) :
    (headKind rest = .eof → parseStmts src log (t :: ts) = ([s], log, rest)) ∧
      ∀ c us, rest = c :: us → c.kind = .semicolon →
        parseStmts src log (t :: ts)
          = (s :: (parseStmts src log us).1, (parseStmts src log us).2) := by
  cases p with
  | fail => cases h
  | ok s rest fits =>
    cases h
    rw [parseStmts, if_neg (by simp [ht, Log.isFull_of_hasErrors hlog])]
    simp only [hp]
    constructor
    · intro hend
      simp [hend, parseStmts_of_eof hend]
    · rintro c us rfl hc
      simp [headKind, hc]

/-- Every derivation of statements up to the end is parsed in silence. -/
theorem stmts_complete {ls rest : List Token} {ss : List Stmt} (src : Source) {log : Log}
    (hlog : log.hasErrors = false) (hrest : headKind rest = .eof) (h : Grammar.Stmts ls ss) :
    parseStmts src log (ls ++ rest) = (ss, log, rest) := by
  induction h with
  | nil => exact parseStmts_of_eof hrest src log
  | last h =>
    obtain ⟨t, us, p, rfl, ht, hp, hvalue⟩ :=
      Stmt.stmt_complete (by rw [hrest]; exact Expr.endsSum_eof) h
    exact (parseStmts_cons hlog ht hp hvalue).1 hrest
  | @cons ts us c s ss h hc _ ih =>
    have hends : Expr.EndsSum (headKind (c :: (us ++ rest))) := by
      rw [headKind, hc]
      exact Expr.endsSum_semicolon
    obtain ⟨t, vs, p, rfl, ht, hp, hvalue⟩ := Stmt.stmt_complete hends h
    rw [List.append_assoc, List.cons_append, List.cons_append,
      (parseStmts_cons hlog ht hp hvalue).2 c (us ++ rest) rfl hc, ih]

/-- The place of a parsed block is that of its words. -/
theorem ofTokens_eq {words : List Token} {t : Token} {ss : List Stmt} (src : Source) {log : Log}
    (hlog : log.hasErrors = false) (ht : t.kind = .eof) (h : Grammar.Stmts words ss) :
    ofTokens src log (words ++ [t]) = (⟨ss, Grammar.blockSpan words⟩, log) := by
  have hstmts : parseStmts src log (words ++ [t]) = (ss, log, [t]) := stmts_complete src hlog ht h
  rw [ofTokens, hstmts]
  cases words with
  | nil =>
    rw [h.nil_iff.mp rfl]
    rfl
  | cons w ws =>
    have hss : ss ≠ [] := fun hss => nomatch h.nil_iff.mpr hss
    have hlast : (w :: ws).getLast? = some ((w :: ws).getLast (by simp)) :=
      List.getLast?_eq_some_getLast _
    simp [hss, lastSpan, headSpan, Grammar.blockSpan, hlast]

/-- What was parsed without errors was read without errors. -/
theorem lex_of_parse {src : Source} (h : (parse src).2.hasErrors = false) :
    (Token.lex src).2.hasErrors = false := by
  cases hlex : (Token.lex src).2.hasErrors with
  | false => rfl
  | true =>
    have hloud : (parse src).2.hasErrors = true := hasErrors_parseStmts hlex
    rw [h] at hloud
    cases hloud

/-- The words of a block derive exactly the block that is parsed without errors. -/
theorem parse_iff {src : Source} {words : List Token} {t : Token}
    (hlex : (Token.lex src).1 = words ++ [t]) (hclean : (Token.lex src).2.hasErrors = false)
    (hwords : Grammar.Inner words) (ht : t.kind = .eof) (b : Block) :
    Grammar.Block words b ↔ (parse src).1 = b ∧ (parse src).2.hasErrors = false := by
  have hparse : parse src = ofTokens src (Token.lex src).2 (words ++ [t]) := by
    rw [parse, ← hlex]
  rw [hparse]
  constructor
  · rintro ⟨hstmts⟩
    rw [ofTokens_eq src hclean ht hstmts]
    exact ⟨rfl, hclean⟩
  · rintro ⟨rfl, hquiet⟩
    obtain ⟨ls, hls, hend, hstmts⟩ := stmts_sound hquiet
    obtain ⟨rfl, -⟩ := Grammar.inner_unique hwords hstmts.inner ht hend hls
    rw [ofTokens_eq src hclean ht hstmts]
    exact .mk hstmts

end Block

/-- On every text whose words can be read, the parsers of expressions and of blocks accept exactly
the words that the grammar derives, and give the one tree that these words derive. -/
theorem parsers_accept_grammar (src : Source) (hclean : (Token.lex src).2.hasErrors = false) :
    ∃ words t, (Token.lex src).1 = words ++ [t] ∧ t.kind = .eof ∧ Grammar.Inner words ∧
      ((Expr.parse src).2.hasErrors = false ↔ ∃ e, Grammar.Sum words e) ∧
      (∀ e, Grammar.Sum words e ↔
        (Expr.parse src).1 = some e ∧ (Expr.parse src).2.hasErrors = false) ∧
      ((Block.parse src).2.hasErrors = false ↔ ∃ b, Grammar.Block words b) ∧
      ∀ b, Grammar.Block words b ↔
        (Block.parse src).1 = b ∧ (Block.parse src).2.hasErrors = false := by
  obtain ⟨words, t, hlex, ht, hwritten⟩ := Token.ended_lex src
  have hwords := Token.inner_of_written hwritten
  have hexpr := Expr.parse_iff hlex hclean hwords ht
  have hblock := Block.parse_iff hlex hclean hwords ht
  refine ⟨words, t, hlex, ht, hwords, ?_, hexpr, ?_, hblock⟩
  · constructor
    · intro hquiet
      obtain ⟨e, he⟩ := Expr.exists_parse hquiet
      exact ⟨e, (hexpr e).mpr ⟨he, hquiet⟩⟩
    · rintro ⟨e, he⟩
      exact ((hexpr e).mp he).2
  · constructor
    · intro hquiet
      exact ⟨_, (hblock _).mpr ⟨rfl, hquiet⟩⟩
    · rintro ⟨b, hb⟩
      exact ((hblock b).mp hb).2

/-- A block with a final semicolon, a trailing comma, a comment and a failure mark. -/
def sampleBody : Source :=
  ⟨"sample", "let x = -i0 * (i1 + 2); // scaled\no0 = f(x, i1.abs(),)? - x;"⟩

theorem parsers_accept_grammar_sample :
    (Token.lex sampleBody).2.hasErrors = false ∧ (Block.parse sampleBody).2.hasErrors = false ∧
      ∃ words, Grammar.Block words (Block.parse sampleBody).1 ∧
        (∀ b, Grammar.Block words b → b = (Block.parse sampleBody).1) ∧
        ¬∃ e, Grammar.Sum words e := by
  have hclean : (Token.lex sampleBody).2.hasErrors = false := by decide +kernel
  have hquiet : (Block.parse sampleBody).2.hasErrors = false := by decide +kernel
  have hloud : (Expr.parse sampleBody).2.hasErrors ≠ false := by decide +kernel
  obtain ⟨words, t, -, -, -, hsum, -, -, hblock⟩ := parsers_accept_grammar sampleBody hclean
  exact ⟨hclean, hquiet, words, (hblock _).mpr ⟨rfl, hquiet⟩,
    fun b hb => ((hblock b).mp hb).1.symm, fun hsome => hloud (hsum.mpr hsome)⟩

end StackForge
