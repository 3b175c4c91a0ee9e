import StackForge.Proofs.Locality
import StackForge.Proofs.Statements

/-!
Recovery from faults, statement by statement. Of the words up to a semicolon at most one statement
and at most one error come, and parsing goes on behind the semicolon as if nothing had been before
it, as long as the log has room.
-/
namespace StackForge

theorem Parse.length_outcome_le {α : Type} {n : Nat} (p : Parse α n) : p.outcome.2.length ≤ n := by
  cases p with
  | ok a rest fits => exact Nat.le_of_lt fits
  | fail fault rest fits => exact fits

theorem headSpan_append (words behind : List Token) (mark : Token) :
    headSpan (words ++ mark :: behind) = headSpan (words ++ [mark]) := by
  cases words <;> rfl

namespace Log

theorem isFull_eq_false {log : Log} : log.isFull = false ↔ log.totalErrors < capacity := by
  simp [isFull]

theorem totalErrors_of_errors (log : Log) {ds : List Diagnostic}
    (hds : ∀ d ∈ ds, d.severity = .error) :
    (log.pushAll ds).totalErrors = log.totalErrors + ds.length := by
  rw [totalErrors_pushAll, List.countP_eq_length.mpr (by simpa using hds)]

theorem pushAll_empty {ds : List Diagnostic} (hds : ∀ d ∈ ds, d.severity = .error)
    (hroom : ds.length ≤ capacity) :
    empty.pushAll ds = { errors := ds, totalErrors := ds.length } := by
  rw [pushAll_of_errors _ hds (by simpa [empty] using hroom)]
  simp [empty]

end Log

namespace Stmt

/-- What the parser of a statement comes to, or nothing where none starts. -/
def outcome? (t : Token) (ts : List Token) : Option (Outcome Stmt) :=
  (parse? t ts).map Parse.outcome

theorem length_outcome?_le {t : Token} {ts : List Token} {o : Outcome Stmt}
    (h : outcome? t ts = some o) : o.2.length ≤ ts.length := by
  obtain ⟨p, -, rfl⟩ := Option.map_eq_some_iff.mp h
  exact p.length_outcome_le

theorem outcome_parseValue_cons (t : Token) (ts : List Token) :
    (parseValue (t :: ts)).outcome
      = if t.kind = .eq then (Expr.parseSum ts).outcome
        else (.error (.expected .eq t.kind), t :: ts) := by
  rw [parseValue]
  split <;> simp

variable {mark : Token}

theorem value_settles (hmark : Bars mark.kind) (words : List Token) :
    Settles mark words fun ts => (parseValue ts).outcome := by
  cases words with
  | nil =>
    refine .stop (.error (.expected .eq mark.kind)) fun behind => ?_
    rcases hmark with hmark | hmark <;> simp [outcome_parseValue_cons, hmark]
  | cons t ts =>
    by_cases ht : t.kind = .eq
    · refine (Expr.sum_settles hmark ts).later (List.suffix_cons t ts) fun behind => ?_
      simp [outcome_parseValue_cons, ht]
    · refine .stop (.error (.expected .eq t.kind)) fun behind => ?_
      simp [outcome_parseValue_cons, ht]

/-- Words before a semicolon or the end settle whether a statement starts, and what it comes to. -/
theorem stmt_settles (hmark : Bars mark.kind) (t : Token) (words : List Token) :
    (∀ behind, outcome? t (words ++ mark :: behind) = none) ∨
    ∃ read, Settles mark words read ∧
      ∀ behind, outcome? t (words ++ mark :: behind) = some (read (words ++ mark :: behind)) := by
  cases ht : t.kind with
  | letWord =>
    cases words with
    | nil =>
      refine .inr ⟨fun ts => (.error (.expectedIdentifier mark.kind), ts),
        .stop _ fun _ => rfl, fun behind => ?_⟩
      rcases hmark with hmark | hmark <;> simp [outcome?, parse?, ht, hmark]
    | cons n ts =>
      cases hn : n.kind with
      | identifier name =>
        refine .inr ⟨fun us => (parseValue us.tail).outcome.map fun e =>
          .bind ⟨name, n.span⟩ e (t.span.merge e.span), ?_, fun behind => ?_⟩
        · have hvalue := (value_settles hmark ts).map fun e =>
            Stmt.bind ⟨name, n.span⟩ e (t.span.merge e.span)
          exact hvalue.later (List.suffix_cons n ts) fun behind => rfl
        · simp [outcome?, parse?, ht, hn]
      | _ =>
        refine .inr ⟨fun ts => (.error (.expectedIdentifier n.kind), ts),
          .stop _ fun _ => rfl, fun behind => ?_⟩
        simp [outcome?, parse?, ht, hn]
  | returnWord =>
    exact .inr ⟨_, (Expr.sum_settles hmark words).map fun e => .ret e (t.span.merge e.span),
      fun behind => by simp [outcome?, parse?, ht]⟩
  | identifier name =>
    by_cases heq : headKind (words ++ [mark]) = .eq
    · refine .inr ⟨_, (value_settles hmark words).map fun e =>
        .assign ⟨name, t.span⟩ e (t.span.merge e.span), fun behind => ?_⟩
      simp [outcome?, parse?, ht, headKind_append words behind, heq]
    · refine .inl fun behind => ?_
      simp [outcome?, parse?, ht, headKind_append words behind, heq]
  | _ => exact .inl fun behind => by simp [outcome?, parse?, ht]

end Stmt

namespace Block

/-- What is made of the front of some words: statements and errors, and the words to go on from. -/
structure Front where
  stmts : List Stmt
  errors : List Diagnostic
  rest : List Token

/-- One turn of the parser of blocks, at a word that is not the end mark. -/
def front (src : Source) (t : Token) (ts : List Token) : Front :=
  match Stmt.outcome? t ts with
  | none =>
    ⟨[], [(SyntaxFault.expectedStatement t.kind).diagnostic src t.span],
      if t.kind = .semicolon then ts else recover ts⟩
  | some (.error fault, rest) => ⟨[], [fault.diagnostic src (headSpan rest)], recover rest⟩
  | some (.ok s, rest) =>
    if headKind rest = .semicolon then ⟨[s], [], rest.tail⟩
    else if headKind rest = .eof then ⟨[s], [], rest⟩
    else
      ⟨[s], [(SyntaxFault.expected .semicolon (headKind rest)).diagnostic src (headSpan rest)],
        recover rest⟩

/-- A block is parsed turn by turn. -/
theorem parseStmts_front (src : Source) {log : Log} {t : Token} {ts : List Token}
    (ht : t.kind ≠ .eof) (hlog : log.isFull = false) :
    parseStmts src log (t :: ts)
      = ((front src t ts).stmts
            ++ (parseStmts src (log.pushAll (front src t ts).errors) (front src t ts).rest).1,
          (parseStmts src (log.pushAll (front src t ts).errors) (front src t ts).rest).2) := by
  rw [parseStmts, if_neg (by simp [ht, hlog]), front, Stmt.outcome?]
  cases hparse : Stmt.parse? t ts with
  | none => by_cases hsemi : t.kind = .semicolon <;> simp [hsemi]
  | some p =>
    cases p with
    | fail fault rest fits => simp
    | ok s rest fits =>
      by_cases hsemi : headKind rest = .semicolon
      · simp [hsemi]
      · by_cases heof : headKind rest = .eof <;> simp [hsemi, heof]

theorem length_front_le (src : Source) (t : Token) (ts : List Token) :
    (front src t ts).stmts.length ≤ 1 ∧ (front src t ts).errors.length ≤ 1 ∧
      (front src t ts).rest.length ≤ ts.length := by
  have hts := length_recover_le ts
  unfold front
  split
  · refine ⟨by simp, by simp, ?_⟩
    simp only
    split <;> omega
  · rename_i fault rest ho
    have hrest := Stmt.length_outcome?_le ho
    have hskip := length_recover_le rest
    exact ⟨by simp, by simp, Nat.le_trans hskip hrest⟩
  · rename_i s rest ho
    have hrest := Stmt.length_outcome?_le ho
    have hskip := length_recover_le rest
    have htail := List.length_tail (l := rest)
    split
    · exact ⟨by simp, by simp, by simp only at hrest ⊢; omega⟩
    · split
      · exact ⟨by simp, by simp, hrest⟩
      · exact ⟨by simp, by simp, Nat.le_trans hskip hrest⟩

/-- All that is reported while parsing is an error. -/
theorem severity_of_mem_front {src : Source} {t : Token} {ts : List Token} {d : Diagnostic}
    (h : d ∈ (front src t ts).errors) : d.severity = .error := by
  unfold front at h
  split at h
  · obtain rfl := List.mem_singleton.mp h
    rfl
  · obtain rfl := List.mem_singleton.mp h
    rfl
  · split at h
    · cases h
    · split at h
      · cases h
      · obtain rfl := List.mem_singleton.mp h
        rfl

/-- A parse that leaves room in the log takes nothing else from the log: from every log with room
enough it gives the same statements and adds the same errors. -/
theorem exists_errors (src : Source) (log : Log) (ts : List Token)
    (h : (parseStmts src log ts).2.1.totalErrors < Log.capacity) :
    ∃ ds, (∀ d ∈ ds, d.severity = .error) ∧ (parseStmts src log ts).2.1 = log.pushAll ds ∧
      ∀ other : Log, other.totalErrors + ds.length < Log.capacity →
        (parseStmts src other ts).1 = (parseStmts src log ts).1 ∧
        (parseStmts src other ts).2.1 = other.pushAll ds := by
  by_cases hend : headKind ts = .eof
  · refine ⟨[], by simp, by simp [parseStmts_of_eof hend], fun other _ => ?_⟩
    simp [parseStmts_of_eof hend]
  match ts with
  | [] => exact absurd rfl hend
  | t :: ts =>
    have hlog : log.isFull = false := by
      refine Bool.eq_false_iff.mpr fun hfull => ?_
      rw [parseStmts, if_pos (by simp [hfull])] at h
      exact absurd (Log.isFull_eq_false.mpr h) (by simp [hfull])
    -- the induction is on the number of words: a turn takes at least one
    have hshort := (length_front_le src t ts).2.2
    have hfront : ∀ d ∈ (front src t ts).errors, d.severity = .error :=
      fun d hd => severity_of_mem_front hd
    rw [parseStmts_front src hend hlog] at h ⊢
    obtain ⟨ds, hds, hown, hother⟩ := exists_errors src _ (front src t ts).rest h
    refine ⟨(front src t ts).errors ++ ds, ?_, ?_, fun other hroom => ?_⟩
    · simpa [or_imp, forall_and] using ⟨hfront, hds⟩
    · rw [hown, Log.pushAll_append]
    · rw [List.length_append] at hroom
      have hcount := other.totalErrors_of_errors hfront
      obtain ⟨hstmts, herrors⟩ := hother (other.pushAll (front src t ts).errors) (by omega)
      rw [parseStmts_front src hend (Log.isFull_eq_false.mpr (by omega)), hstmts, herrors,
        Log.pushAll_append]
      exact ⟨rfl, rfl⟩
  termination_by ts.length

/-- Words that recovery passes over. -/
def Passed (words : List Token) : Prop :=
  ∀ t ∈ words, t.kind ≠ .semicolon ∧ t.kind ≠ .eof ∧ t.kind ≠ .letWord ∧ t.kind ≠ .returnWord

theorem recover_append {left : List Token} {mark : Token} (hmark : mark.kind = .semicolon)
    (hleft : Passed left) (behind : List Token) : recover (left ++ mark :: behind) = behind := by
  induction left with
  | nil => simp [recover, hmark]
  | cons t ts ih =>
    obtain ⟨ht, hts⟩ := List.forall_mem_cons.mp hleft
    rw [List.cons_append, recover.eq_def]
    simp [ht, ih hts]

/-- A turn on words before a semicolon ends behind the semicolon, and what it gives depends on these
words only. -/
theorem front_settles (src : Source) {t mark : Token} {words : List Token}
    (hmark : mark.kind = .semicolon) (ht : t.kind ≠ .semicolon) (hwords : Passed words) :
    ∃ stmts errors, ∀ behind,
      front src t (words ++ mark :: behind) = ⟨stmts, errors, behind⟩ := by
  rcases Stmt.stmt_settles (.inl hmark) t words with
    hnone | ⟨read, ⟨result, left, hleft, hread⟩, hsome⟩
  · refine ⟨[], [(SyntaxFault.expectedStatement t.kind).diagnostic src t.span], fun behind => ?_⟩
    rw [front, hnone, recover_append hmark hwords]
    simp only [if_neg ht]
  · have hpassed : Passed left := fun w hw => hwords w (hleft.mem hw)
    have hspan := fun behind => headSpan_append left behind mark
    have hskip := recover_append hmark hpassed
    cases result with
    | error fault =>
      refine ⟨[], [fault.diagnostic src (headSpan (left ++ [mark]))], fun behind => ?_⟩
      rw [front, hsome, hread]
      simp only [hspan, hskip]
    | ok s =>
      cases left with
      | nil =>
        refine ⟨[s], [], fun behind => ?_⟩
        rw [front, hsome, hread]
        simp only [List.nil_append, headKind, hmark, if_true, List.tail_cons]
      | cons w ws =>
        obtain ⟨hsemi, heof, -⟩ := hpassed w List.mem_cons_self
        have hkind : ∀ behind, headKind (w :: ws ++ mark :: behind) = w.kind := fun _ => rfl
        refine ⟨[s], [(SyntaxFault.expected .semicolon w.kind).diagnostic src w.span],
          fun behind => ?_⟩
        rw [front, hsome, hread]
        simp only [hkind, hsemi, heof, if_false, hskip]
        rfl

/-- Words with at most one statement in them: none ends, and none starts but at the first word. -/
structure Single (words : List Token) : Prop where
  inner : ∀ t ∈ words, t.kind ≠ .semicolon ∧ t.kind ≠ .eof
  starts : ∀ t ∈ words.tail, t.kind ≠ .letWord ∧ t.kind ≠ .returnWord

/-- Such words and a semicolon are one turn. -/
theorem Single.exists_turn {words : List Token} (hwords : Single words) (src : Source)
    {mark : Token} (hmark : mark.kind = .semicolon) :
    ∃ t ts stmts errors, t.kind ≠ .eof ∧ ∀ behind,
      words ++ mark :: behind = t :: (ts ++ behind) ∧
      front src t (ts ++ behind) = ⟨stmts, errors, behind⟩ := by
  cases words with
  | nil =>
    refine ⟨mark, [], [], [(SyntaxFault.expectedStatement .semicolon).diagnostic src mark.span],
      by simp [hmark], fun behind => ⟨rfl, ?_⟩⟩
    simp [front, Stmt.outcome?, Stmt.parse?, hmark]
  | cons t ts =>
    obtain ⟨⟨hsemi, heof⟩, hinner⟩ := List.forall_mem_cons.mp hwords.inner
    have hpassed : Passed ts := fun w hw =>
      ⟨(hinner w hw).1, (hinner w hw).2, hwords.starts w hw⟩
    obtain ⟨stmts, errors, hfront⟩ := front_settles src hmark hsemi hpassed
    refine ⟨t, ts ++ [mark], stmts, errors, heof, fun behind => ⟨by simp, ?_⟩⟩
    rw [List.append_assoc, List.singleton_append, hfront]

theorem stmts_ofTokens (src : Source) (log : Log) (tokens : List Token) :
    (ofTokens src log tokens).1.stmts = (parseStmts src log tokens).1 := rfl

theorem log_ofTokens (src : Source) (log : Log) (tokens : List Token) :
    (ofTokens src log tokens).2 = (parseStmts src log tokens).2.1 := rfl

/-- Recovery isolates statements. Of words up to a semicolon, in which no other statement starts or
ends, come at most one statement and at most one error, and these are the same whatever is behind.
All that is behind the semicolon is parsed as it is on its own, statements and errors alike, as long
as its errors leave room for one more. -/
theorem recovery_isolates_statements (src : Source) {words : List Token} {mark : Token}
    (hwords : Single words) (hmark : mark.kind = .semicolon) :
    ∃ (stmts : List Stmt) (errors : List Diagnostic), stmts.length ≤ 1 ∧ errors.length ≤ 1 ∧
      ∀ behind, (ofTokens src .empty behind).2.totalErrors < Log.capacity - 1 →
        (ofTokens src .empty (words ++ mark :: behind)).1.stmts
          = stmts ++ (ofTokens src .empty behind).1.stmts ∧
        (ofTokens src .empty (words ++ mark :: behind)).2
          = { errors := errors ++ (ofTokens src .empty behind).2.errors
              totalErrors := errors.length + (ofTokens src .empty behind).2.totalErrors } := by
  obtain ⟨t, ts, stmts, errors, ht, hturn⟩ := hwords.exists_turn src hmark
  obtain ⟨hstmts, herrors, -⟩ := length_front_le src t (ts ++ [])
  have hseverity : ∀ d ∈ (front src t (ts ++ [])).errors, d.severity = .error :=
    fun d hd => severity_of_mem_front hd
  simp only [(hturn []).2] at hstmts herrors hseverity
  refine ⟨stmts, errors, hstmts, herrors, fun behind hroom => ?_⟩
  have hcapacity : Log.capacity = 20 := rfl
  simp only [stmts_ofTokens, log_ofTokens] at hroom ⊢
  -- the words behind meet a log with one error at most, and add to it what they add to none
  obtain ⟨ds, hds, hown, hother⟩ := exists_errors src .empty behind (by omega)
  rw [hown, Log.totalErrors_of_errors _ hds] at hroom
  have hcount := Log.empty.totalErrors_of_errors hseverity
  have hempty : Log.empty.totalErrors = 0 := rfl
  obtain ⟨hsame, hmore⟩ := hother (Log.empty.pushAll errors) (by omega)
  have hboth : ∀ d ∈ errors ++ ds, d.severity = .error := by
    simpa [or_imp, forall_and] using ⟨hseverity, hds⟩
  rw [(hturn behind).1, parseStmts_front src ht rfl, (hturn behind).2]
  constructor
  · rw [hsame]
  · rw [hmore, hown, ← Log.pushAll_append, Log.pushAll_empty hboth (by simp; omega),
      Log.pushAll_empty hds (by omega), List.length_append]

/-- Three statements: the first goes on too long, and the second has no value. -/
def tornBody : Source := ⟨"torn", "return x ); y = ; z = 1"⟩

def tornWords : List Token := (Token.lex tornBody).1

theorem recovery_isolates_statements_torn :
    Single (tornWords.take 3) ∧
      tornWords = tornWords.take 3 ++ ⟨.semicolon, Span.point 1 11⟩ :: tornWords.drop 4 ∧
      (ofTokens tornBody .empty (tornWords.drop 4)).2.totalErrors = 1 ∧
      ∃ (stmts : List Stmt) (errors : List Diagnostic), stmts.length = 1 ∧ errors.length = 1 ∧
        (ofTokens tornBody .empty tornWords).1.stmts
          = stmts ++ (ofTokens tornBody .empty (tornWords.drop 4)).1.stmts ∧
        (ofTokens tornBody .empty tornWords).2.errors
          = errors ++ (ofTokens tornBody .empty (tornWords.drop 4)).2.errors := by
  have hsingle : Single (tornWords.take 3) := ⟨by decide +kernel, by decide +kernel⟩
  have hwords : tornWords
      = tornWords.take 3 ++ ⟨.semicolon, Span.point 1 11⟩ :: tornWords.drop 4 := by decide +kernel
  have htotal : (ofTokens tornBody .empty (tornWords.drop 4)).2.totalErrors = 1 := by decide +kernel
  have hcounts : (ofTokens tornBody .empty tornWords).1.stmts.length = 2 ∧
      (ofTokens tornBody .empty (tornWords.drop 4)).1.stmts.length = 1 ∧
      (ofTokens tornBody .empty tornWords).2.totalErrors = 2 := by decide +kernel
  have hmark : (⟨.semicolon, Span.point 1 11⟩ : Token).kind = .semicolon := rfl
  obtain ⟨stmts, errors, -, -, hparts⟩ := recovery_isolates_statements tornBody hsingle hmark
  obtain ⟨hstmts, hlog⟩ := hparts (tornWords.drop 4) (by rw [htotal]; decide)
  rw [← hwords] at hstmts hlog
  refine ⟨hsingle, hwords, htotal, stmts, errors, ?_, ?_, hstmts, by rw [hlog]⟩
  · have := congrArg List.length hstmts
    rw [List.length_append] at this
    omega
  · have := congrArg Log.totalErrors hlog
    simp only at this
    omega

end Block
end StackForge
