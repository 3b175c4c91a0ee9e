import StackForge.Draft
import StackForge.Proofs.Log

/-!
What a draft that builds has passed. `Draft.Built` says it check by check: the letters, the chunks,
the helpers, each instruction by itself and all of them together. Everything that is known about a
checked descriptor starts from there.
-/
namespace StackForge

/-- Faults among which there is no error. -/
def CheckFault.Tolerable (fs : List CheckFault) : Prop := ∀ f ∈ fs, f.severity = .warning

namespace CheckFault

@[simp] theorem tolerable_append (fs gs : List CheckFault) :
    Tolerable (fs ++ gs) ↔ Tolerable fs ∧ Tolerable gs := by
  simp only [Tolerable, List.mem_append]
  constructor
  · intro h
    exact ⟨fun f hf => h f (.inl hf), fun f hf => h f (.inr hf)⟩
  · rintro ⟨h₁, h₂⟩ f (hf | hf)
    · exact h₁ f hf
    · exact h₂ f hf

@[simp] theorem harmless_structural (fs : List CheckFault) (origin : String) :
    Harmless (fs.map (·.structural origin)) ↔ Tolerable fs := by
  simp [Harmless, Tolerable]

/-- A log stays without errors exactly if what is reported is no error. -/
theorem hasErrors_report (log : Log) (fs : List CheckFault) (origin : String) :
    (log.pushAll (fs.map (·.structural origin))).hasErrors = false ↔
      log.hasErrors = false ∧ Tolerable fs := by
  rw [Log.hasErrors_pushAll, harmless_structural]

/-- A check that reports one error when it fails, and reported none, did not fail. -/
theorem of_tolerable_ite {p : Prop} [Decidable p] {f : CheckFault} (hf : f.severity = .error)
    (h : Tolerable (if p then [] else [f])) : p := by
  by_cases hp : p
  · exact hp
  · have := h f (by simp [hp])
    rw [hf] at this
    cases this

theorem not_of_tolerable_ite {p : Prop} [Decidable p] {f : CheckFault} (hf : f.severity = .error)
    (h : Tolerable (if p then [f] else [])) : ¬p := by
  intro hp
  have := h f (by simp [hp])
  rw [hf] at this
  cases this

end CheckFault

namespace Draft

theorem readBody_expression_iff {src : Source} {text : String} {b : Body} :
    readBody src (.expression text) = .ok b ↔
      ∃ e, (Expr.parse src).1 = some e ∧ (Expr.parse src).2.hasErrors = false ∧
        b = .expression e := by
  unfold readBody
  dsimp only
  cases Expr.parse src with
  | mk parsed log =>
    cases parsed with
    | none => simp
    | some e => cases hlog : log.hasErrors <;> simp [hlog, eq_comm]

theorem readBody_block_iff {src : Source} {text : String} {b : Body} :
    readBody src (.block text) = .ok b ↔
      (Block.parse src).2.hasErrors = false ∧ b = .block (Block.parse src).1 := by
  unfold readBody
  dsimp only
  cases hlog : (Block.parse src).2.hasErrors <;> simp [eq_comm]

/-- An instruction that was read from a draft at a position and passed its checks. -/
structure Accepted (ctx : Check.Context) (letters : Letters) (machine : String) (index : Nat)
    (draft : DraftInstruction) (i : Instruction) : Prop where
  inRange : index < opcodeLimit
  signature : Signature.read letters (sources machine draft).1 = .ok i.signature
  body : readBody (sources machine draft).2 draft.body = .ok i.body
  instruction : i = instructionOf draft index i.signature i.body
  harmless : Harmless (Check.instruction ctx (sources machine draft).1 (sources machine draft).2 i)

/-- Reading never adds an instruction. -/
theorem length_readInstructions_le (ctx : Check.Context) (letters : Letters) (machine : String)
    (index : Nat) (log : Log) (drafts : List DraftInstruction) :
    (readInstructions ctx letters machine index log drafts).1.length ≤ drafts.length := by
  fun_induction readInstructions ctx letters machine index log drafts with
  | case1 => simp
  | case2 => simp_all
  | case3 => simp_all; omega
  | case4 => simp_all; omega
  | case5 => simp_all; omega
  | case6 => simp_all; omega

theorem length_readInstructions_ne_cons (ctx : Check.Context) (letters : Letters)
    (machine : String) (index : Nat) (log : Log) (draft : DraftInstruction)
    (rest : List DraftInstruction) :
    (readInstructions ctx letters machine index log rest).1.length ≠ (draft :: rest).length := by
  have h := length_readInstructions_le ctx letters machine index log rest
  rw [List.length_cons]
  omega

/-- If every instruction was read and nothing is wrong, each one passed its own checks. -/
theorem readInstructions_accepted {ctx : Check.Context} {letters : Letters} {machine : String}
    {index : Nat} {log : Log} {drafts : List DraftInstruction}
    (hlen : (readInstructions ctx letters machine index log drafts).1.length = drafts.length)
    (hlog : (readInstructions ctx letters machine index log drafts).2.hasErrors = false) :
    log.hasErrors = false ∧
    ∀ k i, (readInstructions ctx letters machine index log drafts).1[k]? = some i →
      ∃ draft, drafts[k]? = some draft ∧ Accepted ctx letters machine (index + k) draft i := by
  fun_induction readInstructions ctx letters machine index log drafts with
  | case1 index log => exact ⟨hlog, by simp⟩
  | case2 index log draft rest sigSrc bodySrc hsrc _ _ sig body hbody hsig hindex i log' others
      log'' hread ih =>
    rw [hread] at ih
    obtain ⟨hlog', hrest⟩ := ih (by simpa using hlen) hlog
    obtain ⟨hclean, hharmless⟩ := (Log.hasErrors_pushAll _ _).mp hlog'
    refine ⟨hclean, ?_⟩
    intro k j hj
    cases k with
    | zero =>
      have hij : i = j := by simpa using hj
      subst hij
      exact ⟨draft, rfl, hindex, by rw [hsrc]; exact hsig, by rw [hsrc]; exact hbody, rfl,
        by rw [hsrc]; exact hharmless⟩
    | succ k =>
      have h := hrest k j (by simpa using hj)
      simpa [Nat.add_assoc, Nat.add_comm 1 k] using h
  -- an instruction that is left out cannot be made up for by the others
  | case3 => exact (length_readInstructions_ne_cons _ _ _ _ _ _ _ hlen).elim
  | case4 => exact (length_readInstructions_ne_cons _ _ _ _ _ _ _ hlen).elim
  | case5 => exact (length_readInstructions_ne_cons _ _ _ _ _ _ _ hlen).elim
  | case6 => exact (length_readInstructions_ne_cons _ _ _ _ _ _ _ hlen).elim

/-- A descriptor and the checks that its draft passed. -/
structure Built (d : Draft) (desc : Descriptor) : Prop where
  descriptor : desc = d.descriptorOf d.letters desc.instructions
  letters : CheckFault.Tolerable (lettersFrom .empty d.chunks).2
  name : CheckFault.Tolerable (Check.machineName d.name)
  chunks : CheckFault.Tolerable (Check.chunks d.storage (d.chunks.map (·.2)))
  helpers : CheckFault.Tolerable (Check.helpersFrom d.context.globals.reserved [] d.helpers)
  length : desc.instructions.length = d.instructions.length
  accepted : ∀ k i, desc.instructions[k]? = some i →
    ∃ draft, d.instructions[k]? = some draft ∧ Accepted d.context d.letters d.name k draft i
  instructionSet : CheckFault.Tolerable
    (Check.instructionSet (d.instructions.map (·.name)) desc.instructions)
  power : CheckFault.Tolerable (Check.power d.context.globals d.power desc.instructions)
  hostCall : CheckFault.Tolerable (Check.hostCall d.hostCall desc.instructions)

/-- What holds of the result of a draft holds of a descriptor. -/
theorem exists_of_build_any {d : Draft} {p : Descriptor → Bool} (h : d.build.1.any p = true) :
    ∃ desc log, d.build = (some desc, log) ∧ p desc = true := by
  obtain ⟨desc, hdesc, hp⟩ := (Option.any_eq_true _ _).mp h
  exact ⟨desc, d.build.2, Prod.ext hdesc rfl, hp⟩

theorem build_eq (d : Draft) :
    d.build = if d.checked.2.hasErrors then (none, d.checked.2)
      else if d.checked.1.length ≠ d.instructions.length then
        (none, d.checked.2.push (CheckFault.unreadInstruction.structural d.name))
      else (some (d.descriptorOf d.letters d.checked.1), d.checked.2) := rfl

/-- A draft with a complete table and no error has passed all checks. -/
theorem built_of_checked {d : Draft} {read : List Instruction} {log : Log}
    (h : d.checked = (read, log)) (hlen : read.length = d.instructions.length)
    (hclean : log.hasErrors = false) : d.Built (d.descriptorOf d.letters read) := by
  unfold checked at h
  extract_lets report first at h
  split at h
  rename_i read' log' hread
  cases h
  -- peel the reports off the final log, last one first
  obtain ⟨hlog', hlast⟩ := (CheckFault.hasErrors_report _ _ _).mp hclean
  simp only [CheckFault.tolerable_append] at hlast
  obtain ⟨⟨hset, hpower⟩, hhost⟩ := hlast
  have haccept := @readInstructions_accepted d.context d.letters d.name 0 first d.instructions
  rw [hread] at haccept
  obtain ⟨hfirst, haccepted⟩ := haccept hlen hlog'
  obtain ⟨-, hfirst⟩ := (CheckFault.hasErrors_report _ _ _).mp hfirst
  simp only [CheckFault.tolerable_append] at hfirst
  obtain ⟨⟨⟨hletters, hname⟩, hchunks⟩, hhelpers⟩ := hfirst
  refine ⟨rfl, hletters, hname, hchunks, hhelpers, hlen, ?_, hset, hpower, hhost⟩
  intro k i hi
  have h := haccepted k i hi
  rwa [Nat.zero_add] at h

theorem built_of_build {d : Draft} {desc : Descriptor} {log : Log}
    (h : d.build = (some desc, log)) : d.Built desc := by
  rw [build_eq] at h
  split at h
  · cases h
  · rename_i hclean
    split at h
    · cases h
    · rename_i hlen
      cases h
      exact built_of_checked rfl (Decidable.not_not.mp hlen) (eq_false_of_ne_true hclean)

/-- Instructions that pass their own checks are all read, and nothing is wrong. -/
theorem readInstructions_of_accepted {ctx : Check.Context} {letters : Letters} {machine : String}
    {index : Nat} {log : Log} {drafts : List DraftInstruction} {is : List Instruction}
    (hlog : log.hasErrors = false) (hlen : is.length = drafts.length)
    (haccepted : ∀ k i, is[k]? = some i →
      ∃ draft, drafts[k]? = some draft ∧ Accepted ctx letters machine (index + k) draft i) :
    ∃ log', readInstructions ctx letters machine index log drafts = (is, log') ∧
      log'.hasErrors = false := by
  induction drafts generalizing index log is with
  | nil =>
    obtain rfl := List.length_eq_zero_iff.mp hlen
    exact ⟨log, rfl, hlog⟩
  | cons draft rest ih =>
    cases is with
    | nil => cases hlen
    | cons i others =>
      obtain ⟨_, hdraft, hi⟩ := haccepted 0 i rfl
      cases hdraft
      have hclean : (log.pushAll (Check.instruction ctx (sources machine draft).1
          (sources machine draft).2 i)).hasErrors = false :=
        (Log.hasErrors_pushAll _ _).mpr ⟨hlog, hi.harmless⟩
      have hrest : ∀ k j, others[k]? = some j →
          ∃ draft, rest[k]? = some draft ∧ Accepted ctx letters machine (index + 1 + k) draft j := by
        intro k j hj
        simpa [Nat.add_assoc, Nat.add_comm 1 k] using haccepted (k + 1) j hj
      obtain ⟨log', hread, hlog'⟩ := ih hclean (Nat.succ.inj hlen) hrest
      refine ⟨log', ?_, hlog'⟩
      have hindex : index < opcodeLimit := hi.inRange
      have hinstruction : instructionOf draft index i.signature i.body = i := hi.instruction.symm
      simp only [readInstructions, hi.signature, hi.body, hindex, if_true, hinstruction, hread]

/-- A draft that passes all checks for a descriptor has its table, and no error. -/
theorem checked_of_built {d : Draft} {desc : Descriptor} (h : d.Built desc) :
    ∃ log, d.checked = (desc.instructions, log) ∧ log.hasErrors = false := by
  unfold checked
  extract_lets report first
  have hfirst : first.hasErrors = false := by
    refine (CheckFault.hasErrors_report _ _ _).mpr ⟨rfl, ?_⟩
    simp only [CheckFault.tolerable_append]
    exact ⟨⟨⟨h.letters, h.name⟩, h.chunks⟩, h.helpers⟩
  obtain ⟨log, hread, hlog⟩ : ∃ log,
      readInstructions d.context d.letters d.name 0 first d.instructions
        = (desc.instructions, log) ∧ log.hasErrors = false := by
    refine readInstructions_of_accepted hfirst h.length ?_
    intro k i hi
    rw [Nat.zero_add]
    exact h.accepted k i hi
  rw [hread]
  refine ⟨_, rfl, (CheckFault.hasErrors_report _ _ _).mpr ⟨hlog, ?_⟩⟩
  simp only [CheckFault.tolerable_append]
  exact ⟨⟨h.instructionSet, h.power⟩, h.hostCall⟩

theorem build_of_built {d : Draft} {desc : Descriptor} (h : d.Built desc) :
    ∃ log, d.build = (some desc, log) := by
  obtain ⟨log, hchecked, hlog⟩ := checked_of_built h
  refine ⟨log, ?_⟩
  rw [build_eq, hchecked, if_neg (ne_true_of_eq_false hlog), if_neg (fun hne => hne h.length),
    ← h.descriptor]

end Draft
end StackForge
