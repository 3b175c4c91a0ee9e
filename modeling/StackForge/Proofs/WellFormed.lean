import Mathlib.Data.List.Nodup
import StackForge.Proofs.Accepted

/-!
The shape of checked descriptors. Opcodes are positions in the table, every input can be bound,
every output is one stack element, and only the last statement of a body may return, which it does
only if there are no outputs.
-/
namespace StackForge

/-- Inputs that the machine can bind: stack elements, elements of a pool, and immediates. -/
def Param.Readable (p : Param) : Prop :=
  match p.kind with
  | .single | .variadic _ => p.role = .stack
  | .indexed _ => p.role = .args ∨ p.role = .constants ∨ p.role = .hostConstants
  | .immediate => True

structure Instruction.WellFormed (i : Instruction) : Prop where
  inputs : ∀ p ∈ i.signature.inputs, p.Readable
  outputs : ∀ p ∈ i.signature.outputs, p.isFixed = true
  returnsLast : ∀ b, i.body = .block b → ∀ s ∈ b.stmts.dropLast, s.isReturn = false
  terminal : i.isTerminal = true → i.signature.outputs = []

structure Descriptor.WellFormed (d : Descriptor) : Prop where
  opcodes : ∀ k i, d.instructions[k]? = some i →
    k < Draft.opcodeLimit ∧ i.opcode = Int32.ofNat k
  instructions : ∀ i ∈ d.instructions, i.WellFormed
  /-- The chunk that an input names plays the role that the input has. -/
  inputChunks : ∀ i ∈ d.instructions, ∀ p ∈ i.signature.inputs,
    ∃ c, d.chunkNamed? p.chunk = some c ∧ c.role = p.role
  roles : ∀ role, ∃ c, d.chunk? role = some c

namespace Draft

/-- Every letter stands for a chunk of the draft. -/
theorem find?_lettersFrom {letters : Letters} {cs : List (Char × Chunk)} {c : Char} {chunk : Chunk}
    (h : (lettersFrom letters cs).1.find? c = some chunk) :
    letters.find? c = some chunk ∨ (c, chunk) ∈ cs := by
  induction cs generalizing letters with
  | nil => exact .inl h
  | cons entry rest ih =>
    obtain ⟨e, other⟩ := entry
    unfold lettersFrom at h
    split at h
    · exact (ih h).imp id (List.mem_cons_of_mem _)
    · split at h
      · exact (ih h).imp id (List.mem_cons_of_mem _)
      · rcases ih h with hfound | hmem
        · by_cases hce : c = e
          · subst hce
            rw [Letters.find?_insert_self] at hfound
            cases hfound
            exact .inr List.mem_cons_self
          · rw [Letters.find?_insert_of_ne _ _ hce] at hfound
            exact .inl hfound
        · exact .inr (List.mem_cons_of_mem _ hmem)

theorem mem_chunks_of_find? {d : Draft} {c : Char} {chunk : Chunk}
    (h : d.letters.find? c = some chunk) : chunk ∈ d.chunks.map (·.2) := by
  rcases find?_lettersFrom h with hempty | hmem
  · cases hempty
  · exact List.mem_map.mpr ⟨(c, chunk), hmem, rfl⟩

end Draft

/-- A parameter that a letter stands for. -/
def Param.Over (letters : Letters) (p : Param) : Prop :=
  ∃ c chunk, letters.find? c = some chunk ∧ p.chunk = chunk.name ∧ p.role = chunk.role

namespace Signature

theorem chunkOf_ok {letters : Letters} {c : Char} {col : Nat} {chunk : Chunk}
    (h : chunkOf letters c col = .ok chunk) : letters.find? c = some chunk := by
  unfold chunkOf at h
  split at h
  · cases h
    assumption
  · cases h

theorem over_of_readParams {letters : Letters} {stop : Nat} {ms left : List Mark}
    {params : List Param} (h : readParams letters stop ms = .ok (params, left)) :
    ∀ p ∈ params, p.Over letters := by
  fun_induction readParams letters stop ms generalizing params left with
  | case1 | case2 =>
    cases h
    simp
  | case3 | case4 | case5 | case6 | case7 | case8 => cases h
  | case9 col c rest _ _ chunk hchunk _ _ _ _ _ _ _ _ kind _ others _ hread ih =>
    cases h
    intro p hp
    rcases List.mem_cons.mp hp with rfl | hp
    · exact ⟨c, chunk, chunkOf_ok hchunk, rfl, rfl⟩
    · exact ih hread p hp

/-- The parameters of a signature that was read are over the letters it was read with. -/
theorem over_of_read {letters : Letters} {src : Source} {sig : Signature}
    (h : read letters src = .ok sig) : ∀ p ∈ sig.inputs ++ sig.outputs, p.Over letters := by
  unfold read at h
  split at h
  · rename_i hmarks
    cases h
    unfold readMarks at hmarks
    extract_lets stop at hmarks
    split at hmarks
    · cases hmarks
    · rename_i inputs hinputs
      cases hmarks
      simpa using over_of_readParams hinputs
    · rename_i inputs _ _ _ rest hinputs
      split at hmarks
      · cases hmarks
      · rename_i outputs houtputs
        cases hmarks
        intro p hp
        rcases List.mem_append.mp hp with hp | hp
        · exact over_of_readParams hinputs p hp
        · exact over_of_readParams houtputs p hp
      · cases hmarks
    · cases hmarks
  · cases h

end Signature

namespace Check

/-- A scan that refuses the names it has seen lets no name through twice. -/
theorem nodup_of_scan {α : Type} {name : α → String} {Passes : List String → List α → Prop}
    (hstep : ∀ seen x rest, Passes seen (x :: rest) → name x ∉ seen ∧ Passes (name x :: seen) rest)
    {seen : List String} {xs : List α} (h : Passes seen xs) :
    (xs.map name).Nodup ∧ ∀ x ∈ xs, name x ∉ seen := by
  induction xs generalizing seen with
  | nil => simp
  | cons x rest ih =>
    obtain ⟨hseen, hrest⟩ := hstep seen x rest h
    obtain ⟨hnodup, hfresh⟩ := ih hrest
    constructor
    · rw [List.map_cons, List.nodup_cons]
      refine ⟨?_, hnodup⟩
      intro hmem
      obtain ⟨y, hy, hname⟩ := List.mem_map.mp hmem
      exact hfresh y hy (by rw [hname]; exact List.mem_cons_self)
    · intro y hy
      rcases List.mem_cons.mp hy with rfl | hy
      · exact hseen
      · intro hmem
        exact hfresh y hy (List.mem_cons_of_mem _ hmem)

/-- Chunks that pass have different names. -/
theorem nodup_of_chunksFrom {domain : Storage} {seen : List String} {cs : List Chunk}
    (h : CheckFault.Tolerable (chunksFrom domain seen cs)) : (cs.map (·.name)).Nodup := by
  refine (@nodup_of_scan _ (·.name) (fun seen cs =>
    CheckFault.Tolerable (chunksFrom domain seen cs)) ?_ _ _ h).1
  intro seen c rest hpass
  simp only [chunksFrom, CheckFault.tolerable_append] at hpass
  obtain ⟨⟨⟨-, htwice⟩, -⟩, hrest⟩ := hpass
  exact ⟨by simpa using CheckFault.not_of_tolerable_ite rfl htwice, hrest⟩

/-- Helpers that pass have different names. -/
theorem nodup_of_helpersFrom {reserved seen : List String} {hs : List Helper}
    (h : CheckFault.Tolerable (helpersFrom reserved seen hs)) : (hs.map (·.name)).Nodup := by
  refine (@nodup_of_scan _ (·.name) (fun seen hs =>
    CheckFault.Tolerable (helpersFrom reserved seen hs)) ?_ _ _ h).1
  intro seen helper rest hpass
  simp only [helpersFrom, CheckFault.tolerable_append] at hpass
  obtain ⟨⟨⟨-, htwice⟩, -⟩, hrest⟩ := hpass
  exact ⟨by simpa using CheckFault.not_of_tolerable_ite rfl htwice, hrest⟩

/-- Helpers that pass have names that generated code can declare and that are not reserved. -/
theorem of_helpersFrom {reserved seen : List String} {hs : List Helper}
    (h : CheckFault.Tolerable (helpersFrom reserved seen hs)) :
    ∀ helper ∈ hs, Name.isIdentifier helper.name = true ∧ helper.name ∉ reserved := by
  induction hs generalizing seen with
  | nil => simp
  | cons helper rest ih =>
    simp only [helpersFrom, CheckFault.tolerable_append] at h
    obtain ⟨⟨⟨hname, -⟩, hfree⟩, hrest⟩ := h
    refine List.forall_mem_cons.mpr ⟨⟨CheckFault.of_tolerable_ite rfl hname, ?_⟩, ih hrest⟩
    simpa using CheckFault.not_of_tolerable_ite rfl hfree

/-- Names of instructions that pass are different. -/
theorem nodup_of_instructionNamesFrom {seen names : List String}
    (h : CheckFault.Tolerable (instructionNamesFrom seen names)) : names.Nodup := by
  rw [← List.map_id names]
  refine (@nodup_of_scan _ id (fun seen names =>
    CheckFault.Tolerable (instructionNamesFrom seen names)) ?_ _ _ h).1
  intro seen name rest hpass
  simp only [instructionNamesFrom, CheckFault.tolerable_append] at hpass
  obtain ⟨⟨-, htwice⟩, hrest⟩ := hpass
  exact ⟨by simpa using CheckFault.not_of_tolerable_ite rfl htwice, hrest⟩

/-- Every role is played. -/
theorem exists_role {cs : List Chunk} (h : CheckFault.Tolerable (roles cs)) (role : Role) :
    ∃ c, cs.find? (fun c => c.role = role) = some c := by
  by_contra hnone
  have hfind : cs.find? (fun c => c.role = role) = none := by
    rw [Option.eq_none_iff_forall_ne_some]
    intro c hc
    exact hnone ⟨c, hc⟩
  have hfilter : cs.filter (fun c => c.role = role) = [] := by
    rw [List.filter_eq_nil_iff]
    exact List.find?_eq_none.mp hfind
  have hmem : CheckFault.roleMissing role ∈ roles cs := by
    refine List.mem_filterMap.mpr ⟨role, ?_, by simp [hfilter]⟩
    cases role <;> decide
  cases h _ hmem

/-- Where all names are different, a name finds what has it. -/
theorem find?_name {α : Type} {name : α → String} {xs : List α} (hnodup : (xs.map name).Nodup)
    {x : α} (hx : x ∈ xs) : xs.find? (fun y => name y = name x) = some x := by
  cases hfind : xs.find? (fun y => name y = name x) with
  | none =>
    have hne := List.find?_eq_none.mp hfind x hx
    simp at hne
  | some y =>
    have hname : name y = name x := by simpa using List.find?_some hfind
    rw [List.inj_on_of_nodup_map hnodup (List.mem_of_find?_eq_some hfind) hx hname]

theorem inputFault?_severity {ctx : Context} {k : Nat} {p : Param} {f : CheckFault}
    (h : inputFault? ctx k p = some f) : f.severity = .error := by
  unfold inputFault? at h
  split at h <;> (repeat' split at h) <;> cases h <;> rfl

theorem outputFault?_severity {ctx : Context} {k : Nat} {p : Param} {f : CheckFault}
    (h : outputFault? ctx k p = some f) : f.severity = .error := by
  unfold outputFault? at h
  (repeat' split at h) <;> cases h <;> rfl

/-- Writable chunks are the stack, and chunks with different names are told apart by them. -/
theorem isFixed_of_outputFault? {ctx : Context} {letters : Letters} {k : Nat} {p : Param}
    (hnodup : (ctx.chunks.map (·.name)).Nodup)
    (hletters : ∀ c chunk, letters.find? c = some chunk → chunk ∈ ctx.chunks)
    (hover : p.Over letters) (h : outputFault? ctx k p = none) : p.isFixed = true := by
  unfold outputFault? at h
  split at h
  · cases h
  · rename_i hwritable
    split at h
    · cases h
    · rename_i hkind
      have hkind : p.kind = .single := by simpa using hkind
      obtain ⟨c, chunk, hfind, hname, hrole⟩ := hover
      simp only [Bool.not_eq_true', Bool.not_eq_false, List.any_eq_true, Bool.and_eq_true,
        decide_eq_true_eq] at hwritable
      obtain ⟨other, hother, hsame, hstack⟩ := hwritable
      have hchunk : other = chunk :=
        List.inj_on_of_nodup_map hnodup hother (hletters c chunk hfind) (hsame.trans hname)
      subst hchunk
      have hstack : other.role = .stack := by
        cases hr : other.role <;> simp_all [Chunk.isReadOnly, Role.isWritable]
      simp [Param.isFixed, hrole, hstack, hkind]

end Check

namespace Scope

@[simp] theorem assign_outputs (scope : Scope) (k : Nat) :
    (scope.assign k).outputs = scope.outputs := by
  unfold assign
  split <;> rfl

end Scope

namespace Draft

variable {d : Draft} {desc : Descriptor}

theorem nodup_chunks (h : CheckFault.Tolerable (Check.chunks d.storage (d.chunks.map (·.2)))) :
    ((d.chunks.map (·.2)).map (·.name)).Nodup :=
  Check.nodup_of_chunksFrom ((CheckFault.tolerable_append _ _).mp h).1

/-- The instruction that a checked convention names calls the host, may fail, and has passed the
check of its shape. -/
theorem Built.exists_hostCaller (h : d.Built desc) {conv : HostCall}
    (hconv : desc.hostCall = some conv) :
    ∃ i, desc.instruction? conv.instruction = some i ∧ i.body.calls callHost = true ∧
      i.usesErrorHandler = true ∧ Check.isHostShape i.signature = true := by
  have hdraft : d.hostCall = some conv := by
    rw [h.descriptor] at hconv
    exact hconv
  have hcheck := h.hostCall
  simp only [Check.hostCall, hdraft, CheckFault.tolerable_append] at hcheck
  obtain ⟨hcallers, hnamed⟩ := hcheck
  split at hnamed
  · cases hnamed _ List.mem_cons_self
  · rename_i i hi
    have hcalls := CheckFault.of_tolerable_ite rfl hnamed
    have hmem : i ∈ desc.instructions.filter fun i => i.body.calls callHost :=
      List.mem_filter.mpr ⟨List.mem_of_find?_eq_some hi, hcalls⟩
    have hcaller : CheckFault.Tolerable (Check.hostCaller (some conv) i) :=
      fun f hf => hcallers f (List.mem_flatMap.mpr ⟨i, hmem, hf⟩)
    simp only [Check.hostCaller, CheckFault.tolerable_append] at hcaller
    obtain ⟨⟨hshape, hhandler⟩, -⟩ := hcaller
    exact ⟨i, hi, hcalls, CheckFault.of_tolerable_ite rfl hhandler,
      CheckFault.of_tolerable_ite rfl hshape⟩

end Draft

namespace Param

variable {p : Param}

theorem isFixed_iff : p.isFixed = true ↔ p.role = .stack ∧ p.kind = .single := by
  simp [isFixed]

theorem isIndexed_iff : p.isIndexed = true ↔ ∃ index, p.kind = .indexed index := by
  cases hkind : p.kind <;> simp [isIndexed, hkind]

theorem isVariadic_iff : p.isVariadic = true ↔ ∃ count, p.kind = .variadic count := by
  cases hkind : p.kind <;> simp [isVariadic, hkind]

theorem immediates_of_isFixed (h : p.isFixed = true) : p.immediates = 0 := by
  simp [immediates, (isFixed_iff.mp h).2]

theorem immediates_of_isIndexed (h : p.isIndexed = true) : p.immediates = 1 := by
  obtain ⟨index, hkind⟩ := isIndexed_iff.mp h
  simp [immediates, hkind]

theorem immediates_of_isVariadic (h : p.isVariadic = true) : p.immediates = 1 := by
  obtain ⟨count, hkind⟩ := isVariadic_iff.mp h
  simp [immediates, hkind]

theorem immediatesOf_eq_zero {ps : List Param} (h : ∀ p ∈ ps, p.immediates = 0) :
    immediatesOf ps = 0 := by
  induction ps with
  | nil => rfl
  | cons p rest ih =>
    obtain ⟨hp, hrest⟩ := List.forall_mem_cons.mp h
    rw [immediatesOf_cons, ih hrest, hp]

/-- Single stack elements take no immediates. -/
theorem immediatesOf_fixed {ps : List Param} (h : ∀ p ∈ ps, p.isFixed = true) :
    immediatesOf ps = 0 :=
  immediatesOf_eq_zero fun p hp => immediates_of_isFixed (h p hp)

end Param

/-- A word that is a count is not negative. -/
theorem not_neg_of_toInt {w : Int32} {n : Nat} (h : w.toInt = n) : ¬w < 0 := by
  rw [Int32.lt_iff_toInt_lt, h]
  simp

namespace Instruction.WellFormed

variable {i : Instruction}

theorem pushes_eq (h : i.WellFormed) : i.signature.pushes = i.signature.outputs.length := by
  rw [Signature.pushes, List.filter_eq_self.mpr]
  intro p hp
  have hfixed := h.outputs p hp
  simp only [Param.isFixed, Bool.and_eq_true] at hfixed
  simp [Param.onStack, hfixed]

/-- Outputs take no immediates. -/
theorem immediates_eq (h : i.WellFormed) :
    i.signature.immediates = Param.immediatesOf i.signature.inputs := by
  rw [Signature.immediates, Param.immediatesOf_append, Param.immediatesOf_fixed h.outputs,
    Nat.add_zero]

end Instruction.WellFormed

namespace Descriptor.WellFormed

variable {d : Descriptor}

/-- The opcode of an instruction selects it. -/
theorem byOpcode?_opcode (h : d.WellFormed) {i : Instruction} (hi : i ∈ d.instructions) :
    d.byOpcode? i.opcode = some i := by
  obtain ⟨k, hk⟩ := List.mem_iff_getElem?.mp hi
  obtain ⟨hlt, hop⟩ := h.opcodes k i hk
  have htoInt : i.opcode.toInt = k := by rw [hop, Int32.toInt_ofNat_of_lt hlt]
  rw [byOpcode?, if_neg (not_neg_of_toInt htoInt), htoInt]
  simpa using hk

end Descriptor.WellFormed
end StackForge
