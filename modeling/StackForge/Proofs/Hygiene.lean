import Mathlib.Data.List.Nodup
import StackForge.Check.Machine
import StackForge.Proofs.Arms
import StackForge.Proofs.Body
import StackForge.Proofs.OperandNames
import StackForge.Proofs.Statements

/-!
The names in the scope of a generated arm: those of the chunks, of the engine itself, of counts,
inputs and outputs, of the helpers, and those that the body binds. The checks keep most of them
apart. What they let through is said exactly: names of chunks are compared with no name of the
engine and with no operand, names of helpers with no operand, two functions of the engine are
compared with nothing, and a body may bind words that generated code cannot use.
-/
namespace StackForge

namespace Engine

/-- The names that a generated engine declares for itself: the variables of its loop, its functions
and the call of the host. -/
def ownNames : List String :=
  ["pc", "sp", "base", "op", "failure", "run", powerName, "ipow_magnitude", callHost]

/-- The functions of an engine that are not among the names a description has to avoid. -/
def unguarded : List String := ["run", "ipow_magnitude"]

/-- Every other name of an engine is reserved, whatever the chunks are. -/
theorem mem_reservedNames {name : String} {chunks : List Chunk} (h : name ∈ ownNames)
    (hname : name ∉ unguarded) : name ∈ reservedNames chunks := by
  simp only [ownNames, unguarded, List.mem_cons, List.not_mem_nil, or_false] at h hname
  simp only [reservedNames, List.mem_append, List.mem_cons, List.not_mem_nil, or_false]
  tauto

end Engine

/-- The names that a body binds. -/
def Body.boundNames : Body → List String
  | .expression _ => []
  | .block b => b.stmts.filterMap Stmt.bound?

namespace Arm

/-- The names of counts, inputs and outputs in an arm. -/
def operandNames (a : Arm) : List String :=
  a.counts.map (fun (k, _) => s!"n_i{k}")
    ++ (List.range a.inputs.length).map (fun k => s!"i{k}")
    ++ (List.range a.instruction.signature.outputs.length).map fun k => s!"o{k}"

/-- All names in the scope of an arm. -/
def scope (d : Descriptor) (a : Arm) : List String :=
  d.chunks.map (·.name) ++ Engine.ownNames ++ a.operandNames ++ d.helpers.map (·.name)
    ++ a.instruction.body.boundNames

/-- Counts belong to different inputs. -/
theorem sublist_of_countsFrom {i : Instruction} {k : Nat} {ps : List Param}
    {counts : List (Nat × Nat)} (h : countsFrom i k ps = .ok counts) :
    (counts.map (·.1)).Sublist (List.range' k ps.length) := by
  induction ps generalizing k counts with
  | nil =>
    cases h
    exact .slnil
  | cons p rest ih =>
    rw [countsFrom] at h
    rw [List.length_cons, List.range'_succ]
    split at h
    · obtain ⟨word, -, h⟩ := bind_eq_ok h
      obtain ⟨others, hothers, h⟩ := bind_eq_ok h
      cases h
      exact (ih hothers).cons_cons k
    · exact (ih h).cons k

theorem length_of_inputsFrom {d : Descriptor} {i : Instruction} {k : Nat} {below : Extent}
    {ps : List Param} {inputs : List Access} (h : inputsFrom d i k below ps = .ok inputs) :
    inputs.length = ps.length := by
  induction ps generalizing k below inputs with
  | nil =>
    cases h
    rfl
  | cons p rest ih =>
    obtain ⟨first, -, h⟩ := bind_eq_ok h
    obtain ⟨others, hothers, h⟩ := bind_eq_ok h
    cases h
    rw [List.length_cons, List.length_cons, ih hothers]

/-- An arm has the inputs of its instruction, and counts for some of them. -/
theorem of_ofInstruction {d : Descriptor} {i : Instruction} {a : Arm}
    (h : ofInstruction d i = .ok a) :
    a.instruction = i ∧ a.inputs.length = i.signature.inputs.length ∧
      (a.counts.map (·.1)).Sublist (List.range i.signature.inputs.length) := by
  obtain ⟨hi, hcounts, hinputs⟩ := ofInstruction_eq_ok h
  refine ⟨hi, length_of_inputsFrom hinputs, ?_⟩
  rw [List.range_eq_range']
  exact sublist_of_countsFrom hcounts

end Arm

namespace Instruction.Lawful

variable {m : Setting} {i : Instruction}

/-- Every input is named in the body, so its number is below the limit of indices. -/
theorem lt_of_input (h : i.Lawful m) {k : Nat} (hk : k < i.signature.inputs.length) :
    k < Binding.indexLimit := by
  obtain ⟨id, -, hname⟩ := h.used k hk
  exact Binding.lt_of_classify (hname.imp_right .inl)

/-- Every output but that of an expression is named in the body. -/
theorem lt_of_output (h : i.Lawful m) {k : Nat} (hk : k < i.signature.outputs.length) :
    k < Binding.indexLimit := by
  have hbody := h.body
  cases hb : i.body with
  | expression e =>
    rw [hb] at hbody
    rw [hbody.1] at hk
    exact Nat.lt_trans hk (by decide)
  | block b =>
    rw [hb] at hbody
    obtain ⟨s, -, hs⟩ := hbody.2 k hk
    unfold Stmt.assigned? at hs
    split at hs
    · split at hs
      · rename_i hname
        cases hs
        exact Binding.lt_of_classify (.inr (.inr hname))
      · cases hs
    · cases hs

end Instruction.Lawful

namespace Arm

/-- What the names of operands refer to, as long as all indices are in range. -/
theorem map_classify_operandNames {a : Arm}
    (hcounts : ∀ q ∈ a.counts, q.1 < Binding.indexLimit)
    (hinputs : ∀ k < a.inputs.length, k < Binding.indexLimit)
    (houtputs : ∀ k < a.instruction.signature.outputs.length, k < Binding.indexLimit) :
    a.operandNames.map Binding.classify
      = (a.counts.map (·.1)).map .count ++ (List.range a.inputs.length).map .input
        ++ (List.range a.instruction.signature.outputs.length).map .output := by
  simp only [operandNames, List.map_append, List.map_map]
  congr 1
  · congr 1
    · refine List.map_congr_left fun q hq => ?_
      exact (Binding.classify_operand (hcounts q hq)).2.1
    · refine List.map_congr_left fun k hk => ?_
      exact (Binding.classify_operand (hinputs k (List.mem_range.mp hk))).1
  · refine List.map_congr_left fun k hk => ?_
    exact (Binding.classify_operand (houtputs k (List.mem_range.mp hk))).2.2

/-- The names of the operands of a lawful instruction. They are different, and none is free to be
given to something else. -/
theorem operandNames_of_lawful {m : Setting} {d : Descriptor} {i : Instruction} {a : Arm}
    (hi : i.Lawful m) (h : ofInstruction d i = .ok a) :
    a.operandNames.Nodup ∧ ∀ name ∈ a.operandNames, Binding.classify name ≠ .other := by
  obtain ⟨rfl, hinputs, hcounts⟩ := of_ofInstruction h
  have hrange := hcounts.subset
  have hmap : a.operandNames.map Binding.classify
      = (a.counts.map (·.1)).map .count ++ (List.range a.inputs.length).map .input
        ++ (List.range a.instruction.signature.outputs.length).map .output := by
    refine map_classify_operandNames ?_ ?_ ?_
    · intro q hq
      exact hi.lt_of_input (List.mem_range.mp (hrange (List.mem_map_of_mem hq)))
    · intro k hk
      exact hi.lt_of_input (hinputs ▸ hk)
    · exact fun _ => hi.lt_of_output
  constructor
  · refine List.Nodup.of_map Binding.classify ?_
    have hnodup := hcounts.nodup List.nodup_range
    rw [hmap, List.nodup_append', List.nodup_append']
    refine ⟨⟨hnodup.map fun _ _ => Binding.count.inj, List.nodup_range.map fun _ _ =>
      Binding.input.inj, ?_⟩, List.nodup_range.map fun _ _ => Binding.output.inj, ?_⟩
    · intro b hcount hinput
      obtain ⟨k, -, rfl⟩ := List.mem_map.mp hcount
      simp at hinput
    · intro b hother houtput
      obtain ⟨k, -, rfl⟩ := List.mem_map.mp houtput
      simp at hother
  · intro name hname hother
    have hmem := List.mem_map_of_mem (f := Binding.classify) hname
    rw [hmap, hother] at hmem
    simp at hmem

end Arm

namespace Check

/-- Chunks that pass have names that generated code can declare. -/
theorem isIdentifier_of_chunksFrom {domain : Storage} {seen : List String} {cs : List Chunk}
    (h : CheckFault.Tolerable (chunksFrom domain seen cs)) :
    ∀ c ∈ cs, Name.isIdentifier c.name = true := by
  induction cs generalizing seen with
  | nil => simp
  | cons c rest ih =>
    simp only [chunksFrom, CheckFault.tolerable_append] at h
    obtain ⟨⟨⟨hname, -⟩, -⟩, hrest⟩ := h
    exact List.forall_mem_cons.mpr ⟨CheckFault.of_tolerable_ite rfl hname, ih hrest⟩

end Check

namespace Setting

variable {m : Setting} {sig : Signature}

/-- A name that can be bound belongs to no helper, if helpers have different names. -/
theorem BindRule.ne_helper {before : List Stmt} {name : String} (h : m.BindRule before name)
    (hnodup : (m.helpers.map (·.name)).Nodup) {helper : Helper} (hhelper : helper ∈ m.helpers) :
    name ≠ helper.name := by
  rintro rfl
  cases hkind : helper.kind with
  | const => exact h.noConstant (by rw [HasConstant, ← hkind]; exact hhelper)
  | function arity fallible =>
    obtain ⟨front, back, hsplit⟩ := List.append_of_mem hhelper
    have hlast : Helper.LastFunction m.helpers helper.name ⟨arity, fallible⟩ := by
      refine ⟨front, back, by rw [hsplit, ← hkind], ?_⟩
      intro other hother hsame
      rw [hsplit, List.map_append, List.map_cons, List.nodup_append', List.nodup_cons] at hnodup
      exact absurd (hsame ▸ List.mem_map_of_mem hother) hnodup.2.1.1
    refine h.noFunction _ (.helper hlast ?_ ?_)
    · intro hpower
      exact absurd (by simp [reservedNames, hpower]) h.unreserved
    · intro hhost
      exact absurd (by simp [reservedNames, hhost]) h.unreserved

/-- The names that a body binds could be bound where they are. -/
theorem BodyRule.exists_bindRule {b : Body} (h : m.BodyRule sig b) {name : String}
    (hname : name ∈ b.boundNames) : ∃ before, m.BindRule before name := by
  cases b with
  | expression e => cases hname
  | block b =>
    obtain ⟨s, hs, hbound⟩ := List.mem_filterMap.mp hname
    obtain ⟨before, after, hsplit⟩ := List.append_of_mem hs
    have htarget := (h.1 before s after hsplit).target
    cases s with
    | bind id e span =>
      cases hbound
      exact ⟨before, htarget⟩
    | assign => cases hbound
    | ret => cases hbound

/-- A body binds no name twice. -/
theorem BodyRule.nodup_boundNames {b : Body} (h : m.BodyRule sig b) : b.boundNames.Nodup := by
  cases b with
  | expression e => exact List.nodup_nil
  | block b =>
    have hfresh : ∀ before s after, b.stmts = before ++ s :: after → ∀ name,
        s.bound? = some name → name ∉ before.filterMap Stmt.bound? := by
      intro before s after hsplit name hbound hmem
      obtain ⟨other, hother, hsame⟩ := List.mem_filterMap.mp hmem
      have htarget := (h.1 before s after hsplit).target
      cases s with
      | bind id e span =>
        cases hbound
        exact htarget.unbound other hother hsame
      | assign => cases hbound
      | ret => cases hbound
    -- over the statements so far
    change (b.stmts.filterMap Stmt.bound?).Nodup
    generalize b.stmts = ss at hfresh
    induction ss using List.reverseRecOn with
    | nil => exact List.nodup_nil
    | append_singleton ss s ih =>
      have hss := ih fun before t after hsplit =>
        hfresh before t (after ++ [s]) (by simp [hsplit])
      rw [List.filterMap_append, List.nodup_append']
      cases hbound : s.bound? with
      | none => simp [hbound, hss]
      | some name => simpa [hbound, hss] using hfresh ss s [] rfl name hbound

end Setting

namespace Token

theorem isAlpha_of_isLetter {b : UInt8} (h : Piece.isLetter b = true) :
    ((Char.ofNat b.toNat).isAlpha || Char.ofNat b.toNat = '_') = true := by
  have hall : ∀ n < 128, Piece.isLetter (UInt8.ofNat n) = true →
      ((Char.ofNat n).isAlpha || Char.ofNat n = '_') = true := by decide
  exact hall b.toNat (Piece.isLetter_range h).2 (by simpa using h)

theorem isAlphanum_of_isNameByte {b : UInt8} (h : Piece.isNameByte b = true) :
    ((Char.ofNat b.toNat).isAlphanum || Char.ofNat b.toNat = '_') = true := by
  have hall : ∀ n < 128, Piece.isNameByte (UInt8.ofNat n) = true →
      ((Char.ofNat n).isAlphanum || Char.ofNat n = '_') = true := by decide
  exact hall b.toNat (Piece.lt_of_isNameByte h) (by simpa using h)

/-- Generated code can declare the identifiers of bodies, apart from some words. -/
theorem IsIdentifier.isIdentifier_iff {name : String} (h : IsIdentifier name) :
    Name.isIdentifier name = true ↔ name ≠ "_" ∧ name ∉ Name.keywords := by
  obtain ⟨text, ⟨b, bs, rfl, hb, hbs⟩, hname, -⟩ := h
  have hchars : name.toList = Char.ofNat b.toNat :: bs.map fun b => Char.ofNat b.toNat := by
    rw [hname, latinText, String.toList_ofList, List.map_cons]
  have hrest : ((bs.map fun b => Char.ofNat b.toNat).all fun c => c.isAlphanum || c = '_')
      = true := by
    rw [List.all_map, List.all_eq_true]
    exact fun c hc => isAlphanum_of_isNameByte (hbs c hc)
  rw [Name.isIdentifier, hchars]
  dsimp only
  rw [isAlpha_of_isLetter hb, hrest]
  simp

end Token

/-- The names that statements bind are among their words. -/
theorem Grammar.Stmts.exists_word {ts : List Token} {ss : List StackForge.Stmt}
    (h : Grammar.Stmts ts ss) {name : String} (hname : name ∈ ss.filterMap Stmt.bound?) :
    ∃ t ∈ ts, t.kind = .identifier name := by
  have hstmt : ∀ {ts : List Token} {s : StackForge.Stmt}, Grammar.Stmt ts s →
      s.bound? = some name → ∃ t ∈ ts, t.kind = .identifier name := by
    intro ts s h hbound
    cases h with
    | bind ht hn hq h =>
      cases hbound
      exact ⟨_, by simp, hn⟩
    | assign => cases hbound
    | ret => cases hbound
  obtain ⟨s, hs, hbound⟩ := List.mem_filterMap.mp hname
  clear hname
  induction h with
  | nil => cases hs
  | last h =>
    rw [List.mem_singleton.mp hs] at hbound
    exact hstmt h hbound
  | cons h ht hrest ih =>
    rcases List.mem_cons.mp hs with rfl | hs
    · obtain ⟨t, ht, hkind⟩ := hstmt h hbound
      exact ⟨t, List.mem_append_left _ ht, hkind⟩
    · obtain ⟨t, ht, hkind⟩ := ih hs
      exact ⟨t, by simp [ht], hkind⟩

/-- Bodies that were read bind identifiers. -/
theorem Draft.isIdentifier_of_readBody {src : Source} {text : DraftBody} {b : Body}
    (h : readBody src text = .ok b) {name : String} (hname : name ∈ b.boundNames) :
    Token.IsIdentifier name := by
  cases text with
  | expression text =>
    obtain ⟨e, -, -, rfl⟩ := readBody_expression_iff.mp h
    cases hname
  | block text =>
    obtain ⟨hquiet, rfl⟩ := readBody_block_iff.mp h
    obtain ⟨words, t, hlex, ht, hwritten⟩ := Token.ended_lex src
    have hblock := (Block.parse_iff hlex (Block.lex_of_parse hquiet)
      (Token.inner_of_written hwritten) ht _).mpr ⟨rfl, hquiet⟩
    obtain ⟨w, hw, hkind⟩ := hblock.stmts.exists_word hname
    have hword := hwritten w hw
    rw [hkind] at hword
    exact hword

/-- What the checks see to about the names in the scope of an arm. -/
structure Arm.Guarded (d : Descriptor) (a : Arm) : Prop where
  chunks : (d.chunks.map (·.name)).Nodup
  helpers : (d.helpers.map (·.name)).Nodup
  operands : a.operandNames.Nodup
  bound : a.instruction.body.boundNames.Nodup
  /-- The spelling of an operand's name gives it its meaning. -/
  spelled : ∀ name ∈ a.operandNames, Binding.classify name ≠ .other
  unspelled : ∀ name ∈ a.instruction.body.boundNames, Binding.classify name = .other
  helperUnreserved : (d.helpers.map (·.name)).Disjoint (reservedNames d.chunks)
  boundUnreserved : a.instruction.body.boundNames.Disjoint (reservedNames d.chunks)
  helperBound : (d.helpers.map (·.name)).Disjoint a.instruction.body.boundNames

theorem Draft.Built.guarded {draft : Draft} {d : Descriptor} (h : draft.Built d) {i : Instruction}
    (hi : i ∈ d.instructions) {a : Arm} (ha : Arm.ofInstruction d i = .ok a) : a.Guarded d := by
  have hlawful := h.lawful hi
  obtain ⟨hoperands, hspelled⟩ := Arm.operandNames_of_lawful hlawful ha
  obtain ⟨rfl, -, -⟩ := Arm.of_ofInstruction ha
  have hchunks : d.chunks = draft.setting.chunks := by
    rw [h.descriptor]
    rfl
  have hhelpers : d.helpers = draft.setting.helpers := by
    rw [h.descriptor]
    rfl
  have hnodup : (draft.setting.helpers.map (·.name)).Nodup := Check.nodup_of_helpersFrom h.helpers
  have hbind : ∀ name ∈ a.instruction.body.boundNames,
      ∃ before, draft.setting.BindRule before name := fun _ => hlawful.body.exists_bindRule
  refine ⟨?_, by rwa [hhelpers], hoperands, hlawful.body.nodup_boundNames, hspelled, ?_, ?_, ?_, ?_⟩
  · rw [hchunks]
    exact nodup_chunks h.chunks
  · intro name hname
    obtain ⟨before, hrule⟩ := hbind name hname
    exact hrule.unspelled
  · rw [hchunks, hhelpers]
    intro name hname
    obtain ⟨helper, hhelper, rfl⟩ := List.mem_map.mp hname
    exact (Check.of_helpersFrom h.helpers helper hhelper).2
  · rw [hchunks]
    intro name hname
    obtain ⟨before, hrule⟩ := hbind name hname
    exact hrule.unreserved
  · rw [hhelpers]
    intro name hname hbound
    obtain ⟨helper, hhelper, rfl⟩ := List.mem_map.mp hname
    obtain ⟨before, hrule⟩ := hbind _ hbound
    exact hrule.ne_helper hnodup hhelper rfl

namespace Arm.Guarded

variable {d : Descriptor} {a : Arm}

theorem chunk_reserved {name : String} (h : name ∈ d.chunks.map (·.name)) :
    name ∈ reservedNames d.chunks := List.mem_append_right _ h

/-- Names that are not reserved avoid all names of the engine, unless they are those of functions
that nothing guards. -/
theorem disjoint_ownNames_iff {names : List String}
    (h : names.Disjoint (reservedNames d.chunks)) :
    Engine.ownNames.Disjoint names ↔ names.Disjoint Engine.unguarded := by
  have hsub : ∀ name ∈ Engine.unguarded, name ∈ Engine.ownNames := by decide
  constructor
  · intro hdisjoint name hname hunguarded
    exact hdisjoint (hsub name hunguarded) hname
  · intro hdisjoint name hown hname
    by_cases hunguarded : name ∈ Engine.unguarded
    · exact hdisjoint hname hunguarded
    · exact h hname (Engine.mem_reservedNames hown hunguarded)

/-- All names in the scope of an arm are different exactly if the pairs that no check looks at
are. -/
theorem nodup_scope_iff (h : a.Guarded d) :
    (a.scope d).Nodup ↔
      (d.chunks.map (·.name)).Disjoint (Engine.ownNames ++ a.operandNames) ∧
      (d.helpers.map (·.name)).Disjoint (Engine.unguarded ++ a.operandNames) ∧
      a.instruction.body.boundNames.Disjoint Engine.unguarded := by
  have hown : Engine.ownNames.Nodup := by decide
  have hplain : ∀ name ∈ Engine.ownNames, Binding.classify name = .other := by decide
  have hownOperand : Engine.ownNames.Disjoint a.operandNames :=
    fun name hname hoperand => h.spelled name hoperand (hplain name hname)
  have hoperandBound : a.operandNames.Disjoint a.instruction.body.boundNames :=
    fun name hoperand hbound => h.spelled name hoperand (h.unspelled name hbound)
  have hchunkHelper : (d.chunks.map (·.name)).Disjoint (d.helpers.map (·.name)) :=
    fun _ hchunk hhelper => h.helperUnreserved hhelper (chunk_reserved hchunk)
  have hchunkBound : (d.chunks.map (·.name)).Disjoint a.instruction.body.boundNames :=
    fun _ hchunk hbound => h.boundUnreserved hbound (chunk_reserved hchunk)
  have hcomm : a.operandNames.Disjoint (d.helpers.map (·.name)) ↔
      (d.helpers.map (·.name)).Disjoint a.operandNames := List.disjoint_comm
  simp only [Arm.scope, List.nodup_append', List.disjoint_append_left, List.disjoint_append_right,
    h.chunks, h.helpers, h.operands, h.bound, hown, hownOperand, hoperandBound, hchunkHelper,
    hchunkBound, h.helperBound, disjoint_ownNames_iff h.helperUnreserved,
    disjoint_ownNames_iff h.boundUnreserved, hcomm, true_and, and_true]
  tauto

end Arm.Guarded

/-- An arm without any name that generated code cannot have: all names in its scope are different,
and the authored ones can be declared. -/
structure Arm.Hygienic (d : Descriptor) (a : Arm) : Prop where
  distinct : (a.scope d).Nodup
  declarable : ∀ name ∈ d.chunks.map (·.name) ++ d.helpers.map (·.name)
    ++ a.instruction.body.boundNames, Name.isIdentifier name = true

instance (d : Descriptor) (a : Arm) : Decidable (a.Hygienic d) :=
  decidable_of_iff ((a.scope d).Nodup ∧ ∀ name ∈ d.chunks.map (·.name) ++ d.helpers.map (·.name)
      ++ a.instruction.body.boundNames, Name.isIdentifier name = true)
    ⟨fun ⟨h₁, h₂⟩ => ⟨h₁, h₂⟩, fun ⟨h₁, h₂⟩ => ⟨h₁, h₂⟩⟩

namespace Draft.Built

variable {draft : Draft} {d : Descriptor}

/-- The names of chunks and helpers can be declared. -/
theorem isIdentifier_of_mem (h : draft.Built d) {name : String}
    (hname : name ∈ d.chunks.map (·.name) ++ d.helpers.map (·.name)) :
    Name.isIdentifier name = true := by
  rw [h.descriptor] at hname
  rcases List.mem_append.mp hname with hname | hname
  · obtain ⟨c, hc, rfl⟩ := List.mem_map.mp hname
    have hchunks := ((CheckFault.tolerable_append _ _).mp h.chunks).1
    exact Check.isIdentifier_of_chunksFrom hchunks c hc
  · obtain ⟨helper, hhelper, rfl⟩ := List.mem_map.mp hname
    exact (Check.of_helpersFrom h.helpers helper hhelper).1

/-- Bodies bind identifiers. -/
theorem isIdentifier_of_bound (h : draft.Built d) {i : Instruction} (hi : i ∈ d.instructions)
    {name : String} (hname : name ∈ i.body.boundNames) : Token.IsIdentifier name := by
  obtain ⟨k, hk⟩ := List.mem_iff_getElem?.mp hi
  obtain ⟨written, -, haccepted⟩ := h.accepted k i hk
  exact isIdentifier_of_readBody haccepted.body hname

end Draft.Built

/-- Every instruction of a descriptor that was built has an arm. The arm is hygienic exactly if no
chunk goes by a name of the engine or of an operand, no helper by that of an operand, no helper and
no bound name by that of a function that nothing guards, and no bound name is a word that cannot be
declared. -/
theorem built_arm_hygienic_iff {draft : Draft} {d : Descriptor} {log : Log}
    (hbuild : draft.build = (some d, log)) :
    ∃ arms, d.arms = .ok arms ∧ List.Forall₂ (fun i a => a.instruction = i ∧
      (a.Hygienic d ↔
        (d.chunks.map (·.name)).Disjoint (Engine.ownNames ++ a.operandNames) ∧
        (d.helpers.map (·.name)).Disjoint (Engine.unguarded ++ a.operandNames) ∧
        i.body.boundNames.Disjoint (Engine.unguarded ++ "_" :: Name.keywords)))
      d.instructions arms := by
  have hbuilt := Draft.built_of_build hbuild
  refine mapM_ok fun i hi => ?_
  obtain ⟨a, ha, -⟩ := Engine.exists_arm (V := Unit) hbuilt.wellFormed hi
  obtain ⟨rfl, -, -⟩ := Arm.of_ofInstruction ha
  refine ⟨a, ha, rfl, ?_⟩
  have hscope := (hbuilt.guarded hi ha).nodup_scope_iff
  have hword : ∀ name ∈ a.instruction.body.boundNames,
      (Name.isIdentifier name = true ↔ name ∉ "_" :: Name.keywords) := by
    intro name hname
    rw [(hbuilt.isIdentifier_of_bound hi hname).isIdentifier_iff, List.mem_cons, not_or]
  simp only [List.disjoint_append_right] at hscope ⊢
  constructor
  · rintro ⟨hdistinct, hdeclarable⟩
    obtain ⟨hchunks, hhelpers, hbound⟩ := hscope.mp hdistinct
    refine ⟨hchunks, hhelpers, hbound, ?_⟩
    intro name hname
    exact (hword name hname).mp (hdeclarable name (List.mem_append_right _ hname))
  · rintro ⟨hchunks, hhelpers, hbound, hwords⟩
    refine ⟨hscope.mpr ⟨hchunks, hhelpers, hbound⟩, ?_⟩
    intro name hname
    rcases List.mem_append.mp hname with hname | hname
    · exact hbuilt.isIdentifier_of_mem hname
    · exact (hword name hname).mpr (hwords hname)

/-- An arm with a chunk of each role, two inputs, a count, a constant and a bound name. -/
theorem built_arm_hygienic_iff_hostCall :
    ∃ draft d log a,
      draft = ((Draft.stackMachine "rdf" .double).addConst "scale"
        |>.add (DraftInstruction.block "return" "P[D]S@D"
          "let x = call_host(i0, i1)?; return scale * x + n_i1;").mayFail
        |>.withHostCall "return" "call") ∧
      draft.build = (some d, log) ∧ d.arms = .ok [a] ∧
      a.operandNames = ["n_i1", "i0", "i1"] ∧ a.instruction.body.boundNames = ["x"] ∧
      a.Hygienic d := by
  generalize hdraft : ((Draft.stackMachine "rdf" .double).addConst "scale"
    |>.add (DraftInstruction.block "return" "P[D]S@D"
      "let x = call_host(i0, i1)?; return scale * x + n_i1;").mayFail
    |>.withHostCall "return" "call") = draft
  have hall : (draft.build.1.any fun d => d.arms.toOption.any fun arms => decide (
      d.instructions.length = 1 ∧
      (∀ name ∈ d.chunks.map (·.name), name ∉ Engine.ownNames ++ ["n_i1", "i0", "i1"]) ∧
      (∀ name ∈ d.helpers.map (·.name), name ∉ Engine.unguarded ++ ["n_i1", "i0", "i1"]) ∧
      ∀ a ∈ arms, a.operandNames = ["n_i1", "i0", "i1"] ∧
        a.instruction.body.boundNames = ["x"])) = true := by
    rw [← hdraft]
    decide +kernel
  cases hbuild : draft.build with
  | mk built log =>
    rw [hbuild] at hall
    cases built with
    | none => cases hall
    | some d =>
      obtain ⟨arms, harms, harm⟩ := built_arm_hygienic_iff hbuild
      rw [Option.any_some, harms] at hall
      obtain ⟨hlength, hchunks, hhelpers, hnames⟩ := of_decide_eq_true hall
      obtain ⟨i, hi⟩ := List.length_eq_one_iff.mp hlength
      rw [hi] at harm
      obtain ⟨a, rest, ⟨rfl, hiff⟩, hrest, rfl⟩ := List.forall₂_cons_left_iff.mp harm
      cases hrest
      obtain ⟨hoperands, hbound⟩ := hnames a List.mem_cons_self
      rw [hoperands, hbound] at hiff
      have hfree : ∀ name ∈ ["x"], name ∉ Engine.unguarded ++ "_" :: Name.keywords := by decide
      exact ⟨draft, d, log, a, rfl, hbuild, harms, hoperands, hbound,
        hiff.mpr ⟨fun name => hchunks name, fun name => hhelpers name, fun name => hfree name⟩⟩

/-- The draft builds, and an arm of its descriptor is not hygienic. -/
def Draft.BuildsUnhygienic (draft : Draft) : Prop :=
  ∃ d log arms, draft.build = (some d, log) ∧ d.arms = .ok arms ∧ ∃ a ∈ arms, ¬a.Hygienic d

/-- Whether a draft builds an arm that is not hygienic is found by building it. -/
theorem Draft.buildsUnhygienic_of_any {draft : Draft}
    (hany : (draft.build.1.any fun d => d.arms.toOption.any fun arms =>
      decide (∃ a ∈ arms, ¬a.Hygienic d)) = true) : draft.BuildsUnhygienic := by
  cases hbuild : draft.build with
  | mk built log =>
    rw [hbuild] at hany
    cases built with
    | none => cases hany
    | some d =>
      rw [Option.any_some] at hany
      cases harms : d.arms with
      | error fault =>
        rw [harms] at hany
        cases hany
      | ok arms =>
        rw [harms] at hany
        exact ⟨d, log, arms, hbuild, harms, of_decide_eq_true hany⟩

/-- Drafts that build, and yet have an arm in whose scope two names coincide or that binds a word
that cannot be declared: a bound word, a bound name and a function of the engine, a helper and a
function of the engine, a helper and an input, a chunk and a variable of the engine. -/
theorem built_arm_not_hygienic :
    ((Draft.stackMachine "t" .double).add
      (.block "return" "S" "let fn = i0; return fn;")).BuildsUnhygienic ∧
    ((Draft.stackMachine "t" .double).add
      (.block "return" "S" "let ipow_magnitude = i0; return ipow_magnitude;")).BuildsUnhygienic ∧
    ((Draft.stackMachine "t" .double).addFunction "run" 1
      |>.add (.block "return" "S" "return run(i0);")).BuildsUnhygienic ∧
    ((Draft.stackMachine "t" .double).addConst "i0"
      |>.add (.block "return" "S" "return i0;")).BuildsUnhygienic ∧
    ((Draft.empty "t" .double).addChunk 'A' "args" .args .double
      |>.addChunk 'C' "constants" .constants .double
      |>.addChunk 'P' "host_constants" .hostConstants .hostObject
      |>.addChunk 'S' "stack" .stack .double
      |>.addChunk 'D' "pc" .code .code
      |>.add (.block "return" "S" "return i0;")).BuildsUnhygienic := by
  refine ⟨?_, ?_, ?_, ?_, ?_⟩ <;>
    exact Draft.buildsUnhygienic_of_any (by decide +kernel)

end StackForge
