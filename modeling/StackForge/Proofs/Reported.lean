import StackForge.Proofs.Accepted
import StackForge.Proofs.Decomposition
import StackForge.Proofs.SignatureReading
import StackForge.Proofs.Statements

/-!
No failure is silent. A signature or a body that is refused comes with an error, and reading a draft
records at least one error for each instruction that it leaves out. So a draft is built exactly when no
error was recorded, and the table of instructions is never short without one.
-/
namespace StackForge

namespace Log

theorem hasErrors_eq_true_iff {log : Log} : log.hasErrors = true ↔ 1 ≤ log.totalErrors :=
  decide_eq_true_iff

theorem hasErrors_eq_false_iff {log : Log} : log.hasErrors = false ↔ log.totalErrors = 0 := by
  simp [hasErrors]

/-- A log that keeps errors and warnings apart and has counted the errors it stores. -/
structure Counted (log : Log) : Prop where
  errors : ∀ d ∈ log.errors, d.severity = .error
  warnings : ∀ d ∈ log.warnings, d.severity = .warning
  stored : log.errors.length ≤ log.totalErrors

theorem counted_empty : empty.Counted := by
  constructor <;> simp [empty]

theorem Counted.push {log : Log} (h : log.Counted) (d : Diagnostic) : (log.push d).Counted := by
  have hstored := h.stored
  unfold Log.push
  cases hd : d.severity with
  | error =>
    refine ⟨?_, h.warnings, ?_⟩
    · dsimp only
      split
      · simpa [or_imp, forall_and, hd] using h.errors
      · exact h.errors
    · dsimp only
      split
      · simpa using hstored
      · omega
  | warning => exact ⟨h.errors, by simpa [or_imp, forall_and, hd] using h.warnings, hstored⟩

theorem Counted.pushAll {log : Log} (h : log.Counted) (ds : List Diagnostic) :
    (log.pushAll ds).Counted := by
  induction ds generalizing log with
  | nil => exact h
  | cons d ds ih => exact ih (h.push d)

/-- Adding a log adds up the errors, also those that were only counted. -/
theorem totalErrors_append (log : Log) {other : Log} (h : other.Counted) :
    (log ++ other).totalErrors = log.totalErrors + other.totalErrors := by
  have hstored := h.stored
  have herrors : other.errors.countP (·.severity = .error) = other.errors.length :=
    List.countP_eq_length.mpr (by simpa using h.errors)
  have hwarnings : other.warnings.countP (·.severity = .error) = 0 := by
    rw [List.countP_eq_zero]
    intro d hd
    simp [h.warnings d hd]
  change (append log other).totalErrors = _
  rw [append, totalErrors_pushAll, hwarnings]
  dsimp only
  rw [totalErrors_pushAll, herrors]
  omega

end Log

/-- An expression that is missing was reported. -/
theorem Expr.hasErrors_of_parse {src : Source} (h : (Expr.parse src).1 = none) :
    (Expr.parse src).2.hasErrors = true := by
  unfold Expr.parse at h ⊢
  dsimp only at h ⊢
  cases hsum : parseSum (Token.lex src).1 with
  | fail fault rest fits => exact Log.hasErrors_push_fault _ _ _ _
  | ok e rest fits =>
    rw [hsum] at h
    dsimp only at h
    split at h <;> cases h

/-- Parsing statements only adds to the log. -/
theorem Block.exists_pushAll (src : Source) (log : Log) (ts : List Token) :
    ∃ ds, (parseStmts src log ts).2.1 = log.pushAll ds := by
  fun_induction parseStmts src log ts with
  | case1 log => exact ⟨[], rfl⟩
  | case2 log => exact ⟨[], rfl⟩
  | case3 log t ts hgo hle hnone log' hkind ih =>
    obtain ⟨ds, hds⟩ := ih
    exact ⟨_ :: ds, hds⟩
  | case4 log t ts hgo hle hnone log' hkind ih =>
    obtain ⟨ds, hds⟩ := ih
    exact ⟨_ :: ds, hds⟩
  | case5 log t ts hgo hle fault rest fits hfail hle' log' ih =>
    obtain ⟨ds, hds⟩ := ih
    exact ⟨_ :: ds, hds⟩
  | case6 log t ts hgo hle s rest fits hok hle' kind ss outcome hmore ih₁ ih₂ ih₃ =>
    split at hmore
    · simpa [hmore] using ih₁
    · split at hmore
      · simpa [hmore] using ih₂
      · obtain ⟨ds, hds⟩ := ih₃
        rw [hmore] at hds
        exact ⟨_ :: ds, hds⟩

theorem Token.counted_lex (src : Source) : (Token.lex src).2.Counted := by
  obtain ⟨pieces, unread, -, hrun, -, -⟩ :=
    @ofPieces_cut src _ _ (Piece.cut_all (bytes src.text)) [] .empty rfl
  have hlog : (lex src).2 = Log.empty.pushAll (reportsFrom src [] pieces) := congrArg Prod.snd hrun
  rw [hlog]
  exact Log.counted_empty.pushAll _

theorem Expr.counted_parse (src : Source) : (Expr.parse src).2.Counted := by
  have hlex := Token.counted_lex src
  unfold Expr.parse
  dsimp only
  split
  · dsimp only
    exact hlex.push _
  · split
    · exact hlex
    · dsimp only
      exact hlex.push _

theorem Block.counted_parse (src : Source) : (Block.parse src).2.Counted := by
  obtain ⟨ds, hds⟩ := Block.exists_pushAll src (Token.lex src).2 (Token.lex src).1
  have hlog : (Block.parse src).2 = (Token.lex src).2.pushAll ds := hds
  rw [hlog]
  exact (Token.counted_lex src).pushAll ds

theorem Signature.counted_read {known : Letters} {src : Source} {log : Log}
    (h : Signature.read known src = .error log) : log.Counted := by
  unfold Signature.read at h
  split at h
  · cases h
  · cases h
    exact Log.counted_empty.push _

namespace Draft

theorem ite_error_iff {α : Type} {found log : Log} {v : α} :
    (if found.hasErrors then Except.error found else .ok v) = .error log
      ↔ log = found ∧ log.hasErrors = true := by
  split
  · rename_i hfound
    constructor
    · rintro ⟨⟩
      exact ⟨rfl, hfound⟩
    · rintro ⟨rfl, -⟩
      rfl
  · rename_i hfound
    refine ⟨nofun, ?_⟩
    rintro ⟨rfl, hlog⟩
    exact absurd hlog hfound

/-- An expression is refused exactly with an error, since a missing one was reported. -/
theorem readBody_expression_error_iff {src : Source} {text : String} {log : Log} :
    readBody src (.expression text) = .error log
      ↔ log = (Expr.parse src).2 ∧ log.hasErrors = true := by
  have hmissing := @Expr.hasErrors_of_parse src
  unfold readBody
  generalize Expr.parse src = p at hmissing ⊢
  obtain ⟨_ | e, found⟩ := p
  · constructor
    · rintro ⟨⟩
      exact ⟨rfl, hmissing rfl⟩
    · rintro ⟨rfl, -⟩
      rfl
  · exact ite_error_iff

theorem readBody_block_error_iff {src : Source} {text : String} {log : Log} :
    readBody src (.block text) = .error log
      ↔ log = (Block.parse src).2 ∧ log.hasErrors = true := ite_error_iff

/-- A body that is refused comes with an error. -/
theorem readBody_error {src : Source} {body : DraftBody} {log : Log}
    (h : readBody src body = .error log) : log.Counted ∧ log.hasErrors = true := by
  cases body with
  | expression text =>
    obtain ⟨rfl, hlog⟩ := readBody_expression_error_iff.mp h
    exact ⟨Expr.counted_parse src, hlog⟩
  | block text =>
    obtain ⟨rfl, hlog⟩ := readBody_block_error_iff.mp h
    exact ⟨Block.counted_parse src, hlog⟩

/-- What a refused text adds to a log. -/
theorem totalErrors_append_refused (log : Log) {e : Log} (h : e.Counted ∧ e.hasErrors = true) :
    log.totalErrors + 1 ≤ (log ++ e).totalErrors := by
  have hpos := Log.hasErrors_eq_true_iff.mp h.2
  rw [log.totalErrors_append h.1]
  omega

theorem signature_error {letters : Letters} {src : Source} {log : Log}
    (h : Signature.read letters src = .error log) : log.Counted ∧ log.hasErrors = true :=
  ⟨Signature.counted_read h,
    Log.hasErrors_eq_true_iff.mpr (Nat.le_of_eq (Signature.totalErrors_of_read h).1.symm)⟩

/-- Every instruction that is left out adds an error to the log. -/
theorem length_add_totalErrors_le (ctx : Check.Context) (letters : Letters) (machine : String)
    (index : Nat) (log : Log) (drafts : List DraftInstruction) :
    drafts.length + log.totalErrors
      ≤ (readInstructions ctx letters machine index log drafts).1.length
        + (readInstructions ctx letters machine index log drafts).2.totalErrors := by
  fun_induction readInstructions ctx letters machine index log drafts with
  | case1 => simp
  | case2 index log draft rest sigSrc bodySrc hsrc _ _ sig body hbody hsig hindex i log' others
      log'' hread ih =>
    have hmore : log.totalErrors ≤ log'.totalErrors := by
      rw [Log.totalErrors_pushAll]
      exact Nat.le_add_right _ _
    rw [hread] at ih
    simp only [List.length_cons] at ih ⊢
    omega
  | case3 index log draft rest sigSrc bodySrc hsrc _ _ sig body hbody hsig hindex log' ih =>
    have hmore : log'.totalErrors = log.totalErrors + 1 := rfl
    simp only [List.length_cons]
    omega
  | case4 index log draft rest sigSrc bodySrc hsrc _ _ e body hbody hsig ih =>
    have hmore := totalErrors_append_refused log (signature_error hsig)
    simp only [List.length_cons]
    omega
  | case5 index log draft rest sigSrc bodySrc hsrc _ _ sig e hbody hsig ih =>
    have hmore := totalErrors_append_refused log (readBody_error hbody)
    simp only [List.length_cons]
    omega
  | case6 index log draft rest sigSrc bodySrc hsrc _ _ e e' hbody hsig ih =>
    have hfirst := totalErrors_append_refused log (signature_error hsig)
    have hmore := totalErrors_append_refused (log ++ e) (readBody_error hbody)
    simp only [List.length_cons]
    omega

/-- There are at least as many errors as instructions that were left out of the table. -/
theorem length_le_checked (d : Draft) :
    d.instructions.length ≤ d.checked.1.length + d.checked.2.totalErrors := by
  unfold checked
  extract_lets report first
  have hread := length_add_totalErrors_le d.context d.letters d.name 0 first d.instructions
  split
  rename_i read log hlog
  rw [hlog] at hread
  rw [Log.totalErrors_pushAll]
  simp only at hread ⊢
  omega

/-- Without an error the table is complete. -/
theorem length_checked_of_clean {d : Draft} (h : d.checked.2.hasErrors = false) :
    d.checked.1.length = d.instructions.length := by
  have hzero := Log.hasErrors_eq_false_iff.mp h
  have hshort := d.length_le_checked
  have hlong : d.checked.1.length ≤ d.instructions.length := by
    unfold checked
    extract_lets report first
    have hread := length_readInstructions_le d.context d.letters d.name 0 first d.instructions
    split
    rename_i read log hlog
    rwa [hlog] at hread
  omega

/-- A draft is built or refused by its errors alone. -/
theorem build_eq_checked (d : Draft) :
    d.build = (if d.checked.2.hasErrors then none
      else some (d.descriptorOf d.letters d.checked.1), d.checked.2) := by
  rw [build_eq]
  cases hclean : d.checked.2.hasErrors with
  | true => rfl
  | false => simp [length_checked_of_clean hclean]

end Draft

/-- No failure is silent. A signature is refused only with an error, and an expression or a block
exactly if its log holds one. A draft is built if and only if no error was recorded. Each
instruction that is left out of the table has an error of its own, and the report of a short table
without any other error is never reached: building is the same without it. -/
theorem every_refusal_is_reported (known : Letters) (src : Source) (d : Draft) :
    (∀ log, Signature.read known src = .error log → 1 ≤ log.totalErrors) ∧
    (∀ text log, Draft.readBody src (.expression text) = .error log
      ↔ log = (Expr.parse src).2 ∧ 1 ≤ log.totalErrors) ∧
    (∀ text log, Draft.readBody src (.block text) = .error log
      ↔ log = (Block.parse src).2 ∧ 1 ≤ log.totalErrors) ∧
    (d.build.1.isSome = true ↔ d.build.2.totalErrors = 0) ∧
    d.instructions.length ≤ d.checked.1.length + d.build.2.totalErrors ∧
    ¬(d.checked.2.totalErrors = 0 ∧ d.checked.1.length ≠ d.instructions.length) ∧
    d.build = (if d.checked.2.hasErrors then none
      else some (d.descriptorOf d.letters d.checked.1), d.checked.2) := by
  have hbuild := d.build_eq_checked
  simp only [← Log.hasErrors_eq_true_iff, ← Log.hasErrors_eq_false_iff]
  refine ⟨fun log h => (Draft.signature_error h).2,
    fun _ _ => Draft.readBody_expression_error_iff, fun _ _ => Draft.readBody_block_error_iff,
    ?_, ?_, ?_, hbuild⟩
  · rw [hbuild]
    cases d.checked.2.hasErrors <;> simp
  · rw [hbuild]
    exact d.length_le_checked
  · rintro ⟨hclean, hshort⟩
    exact hshort (Draft.length_checked_of_clean hclean)

end StackForge
