import StackForge.Catalog
import StackForge.Proofs.Assembly
import StackForge.Proofs.Body
import StackForge.Proofs.Checking
import StackForge.Proofs.Machine

/-!
Assembled programs do not go wrong. A run of a program that an assembler finished follows the
history of the assembler: before each step the machine is at the next entry, with as many elements
on the stack as the assembler counted, and it never meets malformed bytecode.
-/
namespace StackForge

namespace Machine

variable {V : Type} {m : Machine V} {a : Assembler}

/-- A machine whose pools are those of an assembler, converted. -/
structure Loaded (m : Machine V) (a : Assembler) : Prop where
  args : m.args.length = a.nArgs
  constants : m.constants.length = a.constants.length
  hostConstants : m.hostConstants = a.hostConstants
  callable : ∀ o ∈ a.hostConstants, o.function?.isSome = true

/-- An index that the assembler accepted is in range. -/
theorem index_lt_of_immediateFault? {d : Descriptor} {i : Instruction} {p : Param}
    {index : String} {w : Int32} {size : Nat} (hkind : p.kind = .indexed index)
    (hsize : a.poolSize? p.role = some size)
    (hw : Assembler.immediateFault? d a i p w = none) :
    ∃ k, Engine.index? w = some k ∧ k < size := by
  simp only [Assembler.immediateFault?, hkind, hsize] at hw
  split at hw
  · cases hw
  · rename_i hrange
    simp only [Bool.or_eq_true, decide_eq_true_eq, not_or, Nat.not_le] at hrange
    exact ⟨w.toInt.toNat, by rw [Engine.index?, if_neg hrange.1], hrange.2⟩

/-- A count that the assembler accepted is not negative. -/
theorem not_neg_of_immediateFault? {d : Descriptor} {i : Instruction} {p : Param} {count : String}
    {w : Int32} (hkind : p.kind = .variadic count)
    (hw : Assembler.immediateFault? d a i p w = none) : ¬w < 0 := by
  intro hneg
  simp [Assembler.immediateFault?, hkind, hneg] at hw

theorem Loaded.indexed? (h : m.Loaded a) {d : Descriptor} {i : Instruction} {p : Param}
    {index : String} {w : Int32} (hp : p.Readable) (hkind : p.kind = .indexed index)
    (hw : Assembler.immediateFault? d a i p w = none) :
    ∃ k o, Engine.index? w = some k ∧ m.indexed? p.role k = some o ∧ o.Callable True := by
  simp only [Param.Readable, hkind] at hp
  rcases hp with hrole | hrole | hrole
  · obtain ⟨k, hk, hlt⟩ := index_lt_of_immediateFault? hkind (by rw [hrole]; rfl) hw
    obtain ⟨v, hv⟩ : ∃ v, m.args[k]? = some v := ⟨_, List.getElem?_eq_getElem (h.args ▸ hlt)⟩
    exact ⟨k, .value v, hk, by rw [hrole, Machine.indexed?, hv, Option.map_some], trivial⟩
  · obtain ⟨k, hk, hlt⟩ := index_lt_of_immediateFault? hkind (by rw [hrole]; rfl) hw
    obtain ⟨v, hv⟩ : ∃ v, m.constants[k]? = some v :=
      ⟨_, List.getElem?_eq_getElem (h.constants ▸ hlt)⟩
    exact ⟨k, .value v, hk, by rw [hrole, Machine.indexed?, hv, Option.map_some], trivial⟩
  · obtain ⟨k, hk, hlt⟩ := index_lt_of_immediateFault? hkind (by rw [hrole]; rfl) hw
    have hv : m.hostConstants[k]? = some a.hostConstants[k] := by
      rw [h.hostConstants, List.getElem?_eq_getElem hlt]
    exact ⟨k, .host a.hostConstants[k], hk, by rw [hrole, Machine.indexed?, hv, Option.map_some],
      fun _ => h.callable _ (List.getElem_mem hlt)⟩

/-- The immediate of the first input is accepted where it takes one, and the others go on behind
it. -/
theorem immediates_of_cons {d : Descriptor} {i : Instruction} {p : Param} {ps : List Param}
    {words : List Int32} (hfault : Assembler.immediatesFault? d a i (p :: ps) words = none)
    (hlen : words.length = Param.immediatesOf (p :: ps)) :
    (p.immediates = 1 →
      ∃ w, words.head? = some w ∧ Assembler.immediateFault? d a i p w = none) ∧
      Assembler.immediatesFault? d a i ps (words.drop p.immediates) = none ∧
      (words.drop p.immediates).length = Param.immediatesOf ps := by
  rw [Param.immediatesOf_cons] at hlen
  have hdrop : (words.drop p.immediates).length = Param.immediatesOf ps := by
    rw [List.length_drop]
    omega
  rcases p.immediates_cases with ⟨-, hzero⟩ | ⟨-, hone⟩
  · simp only [Assembler.immediatesFault?, hzero, if_true] at hfault
    exact ⟨by omega, by rwa [hzero, List.drop_zero], hdrop⟩
  · simp only [Assembler.immediatesFault?, hone, Nat.one_ne_zero, if_false] at hfault
    cases words with
    | nil => exact absurd hlen (by rw [List.length_nil]; omega)
    | cons w ws =>
      dsimp only at hfault
      split at hfault
      · cases hfault
      · rename_i hw
        exact ⟨fun _ => ⟨w, rfl, hw⟩, by rwa [hone], hdrop⟩

/-- An input whose immediate the assembler accepted reads its operand from every stack that has
what it takes. -/
theorem Loaded.operand? (h : m.Loaded a) {d : Descriptor} {i : Instruction} {p : Param}
    {word : Option Int32} (hp : p.Readable)
    (hword : p.immediates = 1 →
      ∃ w, word = some w ∧ Assembler.immediateFault? d a i p w = none)
    {stack : List V} {offset : Nat} (hfits : offset + p.takes word ≤ stack.length) :
    ∃ o, m.operand? stack p word offset = some o ∧ o.Callable True := by
  cases hkind : p.kind with
  | single =>
    simp only [Param.takes, hkind] at hfits
    obtain ⟨v, hv⟩ : ∃ v, stack[offset]? = some v := ⟨_, List.getElem?_eq_getElem (by omega)⟩
    exact ⟨.value v, by simp [Machine.operand?, hkind, hv], trivial⟩
  | immediate =>
    obtain ⟨w, rfl, -⟩ := hword (by simp [Param.immediates, hkind])
    exact ⟨.word w, by simp [Machine.operand?, hkind], trivial⟩
  | indexed index =>
    obtain ⟨w, rfl, hw⟩ := hword (by simp [Param.immediates, hkind])
    obtain ⟨k, o, hk, ho, hcallable⟩ := h.indexed? hp hkind hw
    exact ⟨o, by simp [Machine.operand?, hkind, hk, ho], hcallable⟩
  | variadic count =>
    obtain ⟨w, rfl, hw⟩ := hword (by simp [Param.immediates, hkind])
    simp only [Param.takes, hkind, Option.map_some, Option.getD_some] at hfits
    have hindex : Engine.index? w = some w.toInt.toNat := by
      rw [Engine.index?, if_neg (not_neg_of_immediateFault? hkind hw)]
    have hslice : slice? stack offset w.toInt.toNat
        = some ((stack.drop offset).take w.toInt.toNat) := by
      rw [slice?, if_pos (hasLength_iff.mpr hfits)]
    refine ⟨.slice ((stack.drop offset).take w.toInt.toNat), ?_, trivial⟩
    simp only [Machine.operand?, hkind, hindex, hslice, Option.bind_some, Option.map_some]

/-- With an accepted immediate, the first input takes its own elements and the others theirs. -/
theorem popsOf_cons {d : Descriptor} {i : Instruction} {p : Param} {ps : List Param}
    {words : List Int32} (hp : p.Readable)
    (hword : p.immediates = 1 →
      ∃ w, words.head? = some w ∧ Assembler.immediateFault? d a i p w = none) :
    Signature.popsOf (p :: ps) words
      = (Signature.popsOf ps (words.drop p.immediates)).map (p.takes words.head? + ·) := by
  cases hkind : p.kind with
  | single =>
    simp only [Param.Readable, hkind] at hp
    simp [Signature.popsOf, Param.takes, Param.isFixed, hkind, hp]
  | immediate | indexed => simp [Signature.popsOf, Param.takes, Param.isFixed, hkind]
  | variadic count =>
    have hone : p.immediates = 1 := by simp [Param.immediates, hkind]
    obtain ⟨w, hhead, hw⟩ := hword hone
    obtain ⟨ws, rfl⟩ := List.head?_eq_some_iff.mp hhead
    simp [Signature.popsOf, Param.takes, hkind, hone, not_neg_of_immediateFault? hkind hw]

/-- Inputs whose immediates the assembler accepted take a known number of stack elements, and read
their operands from every stack that has them. -/
theorem Loaded.operands? (h : m.Loaded a) {d : Descriptor} {i : Instruction} {ps : List Param}
    {words : List Int32} (hps : ∀ p ∈ ps, p.Readable)
    (hfault : Assembler.immediatesFault? d a i ps words = none)
    (hlen : words.length = Param.immediatesOf ps) :
    ∃ n, Signature.popsOf ps words = some n ∧
      ∀ (stack : List V) (offset : Nat), offset + n ≤ stack.length →
        ∃ os, m.operands? stack ps words offset = some os ∧ ∀ o ∈ os, o.Callable True := by
  induction ps generalizing words with
  | nil => exact ⟨0, rfl, fun _ _ _ => ⟨[], rfl, by simp⟩⟩
  | cons p rest ih =>
    obtain ⟨hp, hrest⟩ := List.forall_mem_cons.mp hps
    obtain ⟨hword, hfault, hlen⟩ := immediates_of_cons hfault hlen
    obtain ⟨n, hn, hreads⟩ := ih hrest hfault hlen
    refine ⟨p.takes words.head? + n, by rw [popsOf_cons hp hword, hn, Option.map_some], ?_⟩
    intro stack offset hfits
    obtain ⟨o, ho, hcallable⟩ := h.operand? hp hword (show offset + _ ≤ stack.length by omega)
    obtain ⟨os, hos, hall⟩ := hreads stack (offset + p.takes words.head?) (by omega)
    exact ⟨o :: os, operands?_cons_eq_some_iff.mpr ⟨o, os, ho, hos, rfl⟩,
      List.forall_mem_cons.mpr ⟨hcallable, hall⟩⟩

/-- A machine with the program of an assembler whose history is `es`. -/
structure Assembled (m : Machine V) (a : Assembler) (es : List Assembler.Entry) : Prop where
  blameless : m.domain.Blameless
  wellFormed : m.descriptor.WellFormed
  loaded : m.Loaded a
  tracks : Assembler.Tracks m.descriptor a es
  code : m.code = a.code
  maxStack : m.maxStack = a.maxDepth
  terminated : a.terminated = true

/-- A run before the instruction at an offset, with so many elements on the stack. -/
structure At (m : Machine V) (s : Execution V) (offset depth : Nat) : Prop where
  running : s.status.isFinal = false
  pc : s.pc = offset
  sp : s.sp = depth
  stack : s.stack.length = m.maxStack

/-- A run that is over and was not ended by a malformed program. -/
structure Ended (s : Execution V) (depth : Nat) : Prop where
  final : s.status.isFinal = true
  sp : s.sp = depth
  innocent : ∀ f, s.status = .failed f → f.blamesProgram = false

namespace Assembled

variable {before after : List Assembler.Entry} {e : Assembler.Entry} {s : Execution V}

theorem sound (h : m.Assembled a (before ++ e :: after)) : e.Sound m.descriptor a :=
  h.tracks.sound e (by simp)

theorem instruction_wellFormed (h : m.Assembled a (before ++ e :: after)) :
    e.instruction.WellFormed :=
  h.wellFormed.instructions e.instruction h.sound.known

theorem code_at (h : m.Assembled a (before ++ e :: after)) :
    m.code[e.offset]? = some e.instruction.opcode ∧
      ∃ back, m.code.drop (e.offset + 1) = e.words ++ back :=
  h.code ▸ h.tracks.code_at

/-- An entry takes as many elements as the assembler counted. -/
theorem taken? (h : m.Assembled a (before ++ e :: after)) {stack : List V}
    (hstack : e.depth ≤ stack.length) :
    ∃ f, m.taken? stack e.depth (m.code.drop (e.offset + 1)) e.instruction
        = some (e.depth - e.pops, f) ∧
      f.Callable True ∧ f.outputs.length = e.instruction.signature.outputs.length := by
  have hi := h.instruction_wellFormed
  have hcount := h.sound.count.trans hi.immediates_eq
  have hfits := h.sound.fits
  obtain ⟨-, back, hwords⟩ := h.code_at
  obtain ⟨n, hn, hreads⟩ := h.loaded.operands? hi.inputs h.sound.immediates hcount
  have hpops : e.pops = n := by rw [Assembler.Entry.pops, Signature.popsWith, hn, Option.getD_some]
  obtain ⟨os, hos, hcall⟩ := hreads stack (e.depth - n) (by omega)
  rw [hwords, taken?_append _ _ _ (Nat.le_of_eq hcount.symm)]
  refine ⟨(Frame.empty e.instruction.signature.outputs.length).append os, ?_,
    ⟨hcall, by simp [Frame.empty, Frame.append]⟩, by simp [Frame.empty, Frame.append]⟩
  rw [hpops] at hfits ⊢
  simp [Machine.taken?, base?, Signature.popsWith, hn, hfits, hos]

/-- The next instruction is the one of the entry. Its body comes to a result that suits it, or to a
failure that does not blame the program. -/
theorem dispatch (h : m.Assembled a (before ++ e :: after)) (hs : m.At s e.offset e.depth)
    (hdepth : e.depth ≤ m.maxStack) :
    Innocent True (fun d : Dispatched V => d.instruction = e.instruction ∧
        d.base = e.depth - e.pops ∧
        d.result.Suits e.instruction.isTerminal e.instruction.signature.outputs.length)
      (m.dispatch s) := by
  have hi := h.instruction_wellFormed
  obtain ⟨hop, -⟩ := h.code_at
  obtain ⟨f, hf, hcallable, houtputs⟩ := h.taken? (hs.stack.symm ▸ hdepth)
  have hdispatch := dispatch_eq hi (by rw [hs.pc]; exact hop)
    (h.wellFormed.byOpcode?_opcode h.sound.known)
  rw [hs.pc, hs.sp, hf] at hdispatch
  have hrun := (context_blameless h.blameless e.instruction).runBody hcallable e.instruction.body
  rw [hdispatch]
  cases hresult : (m.context e.instruction).runBody f e.instruction.body with
  | error failure =>
    rw [hresult] at hrun
    exact hrun
  | ok r =>
    have hsuits := BodyContext.runBody_suits hi hresult
    rw [houtputs] at hsuits
    exact ⟨rfl, rfl, hsuits⟩

/-- One step from an entry ends the run or leads to the next entry. -/
theorem step (h : m.Assembled a (before ++ e :: after)) (hs : m.At s e.offset e.depth)
    (hdepth : e.depth ≤ m.maxStack) (hnext : e.nextDepth ≤ m.maxStack) :
    Ended (m.step s) e.depth ∨
      e.instruction.isTerminal = false ∧ m.At (m.step s) e.nextOffset e.nextDepth := by
  have hdispatch := h.dispatch hs hdepth
  have hfits := h.sound.fits
  have hpushes := h.instruction_wellFormed.pushes_eq
  rw [Machine.step, if_neg (by simp [hs.running])]
  cases hd : m.dispatch s with
  | error failure =>
    rw [hd] at hdispatch
    refine .inl ⟨rfl, hs.sp, ?_⟩
    rintro _ ⟨⟩
    exact hdispatch.2 trivial
  | ok d =>
    rw [hd] at hdispatch
    obtain ⟨hinstr, hbase, hsuits⟩ := hdispatch
    cases hresult : d.result with
    | ret v =>
      refine .inl ⟨by simp [complete, hresult, Status.isFinal], by simp [complete, hresult, hs.sp],
        ?_⟩
      intro failure hfailure
      simp [complete, hresult] at hfailure
    | outputs values =>
      rw [hresult] at hsuits
      obtain ⟨hlive, hlen⟩ := hsuits
      have hnextDepth : e.nextDepth = d.base + values.length := by
        rw [Assembler.Entry.nextDepth, hbase, hlen, hpushes]
      have hroom : overwrite? s.stack d.base values
          = some (s.stack.take d.base ++ values ++ s.stack.drop (d.base + values.length)) := by
        rw [overwrite?, if_pos (hasLength_iff.mpr (by rw [hs.stack]; omega))]
      refine .inr ⟨hlive, ?_⟩
      simp only [complete, hresult, hroom]
      refine ⟨rfl, ?_, ?_, (length_of_overwrite? hroom).trans hs.stack⟩
      · rw [hs.pc, hinstr, Assembler.Entry.nextOffset, h.sound.code_length]
      · rw [hnextDepth, hinstr, hpushes, hlen]

variable {es : List Assembler.Entry}

theorem nextDepth_le (h : m.Assembled a es) (he : e ∈ es) : e.nextDepth ≤ m.maxStack := by
  rw [h.maxStack]
  exact h.tracks.bounded e he

theorem depth_le (h : m.Assembled a es) (he : e ∈ es) : e.depth ≤ m.maxStack := by
  rcases h.tracks.chain.depth_eq e he with hzero | ⟨e', he', hdepth⟩
  · omega
  · rw [← hdepth]
    exact h.nextDepth_le he'

/-- The last entry ends the program. -/
theorem isTerminal_last (h : m.Assembled a (before ++ [e])) :
    e.instruction.isTerminal = true := by
  obtain ⟨init, last, hsplit, hlast, -⟩ := h.tracks.ended h.terminated
  obtain ⟨-, hsame⟩ := List.append_inj' hsplit rfl
  rw [List.cons.inj hsame |>.1]
  exact hlast

/-- The depth of the stack that the program asks for is the depth before some entry. The last entry
pushes nothing, so it cannot raise the depth any more. -/
theorem exists_depth_eq (h : m.Assembled a es) : ∃ e ∈ es, e.depth = m.maxStack := by
  obtain ⟨init, last, rfl, -, -⟩ := h.tracks.ended h.terminated
  rcases h.tracks.reached with hzero | ⟨e, he, hmax⟩
  · refine ⟨last, by simp, ?_⟩
    have hle := h.depth_le (e := last) (by simp)
    rw [h.maxStack, hzero] at hle ⊢
    omega
  · obtain ⟨before, after, hsplit⟩ := List.append_of_mem he
    rw [hsplit] at h ⊢
    cases after with
    | cons e' after =>
      refine ⟨e', by simp, ?_⟩
      rw [h.tracks.chain.next_eq.2, hmax, h.maxStack]
    | nil =>
      refine ⟨e, by simp, ?_⟩
      have hi := h.instruction_wellFormed
      have hnext : e.nextDepth = e.depth - e.pops := by
        rw [Assembler.Entry.nextDepth, hi.pushes_eq, hi.terminal h.isTerminal_last]
        rfl
      have hle := h.depth_le (e := e) (by simp)
      rw [h.maxStack] at hle ⊢
      omega

/-- A run from an entry on goes through the entries after it in order until it ends. -/
theorem run (h : m.Assembled a (before ++ e :: after)) (hs : m.At s e.offset e.depth) (j : Nat) :
    (∃ e', (e :: after)[j]? = some e' ∧ m.At (m.run j s) e'.offset e'.depth) ∨
      ∃ e' ∈ before ++ e :: after, Ended (m.run j s) e'.depth := by
  induction after generalizing before e s j with
  | nil =>
    cases j with
    | zero => exact .inl ⟨e, rfl, hs⟩
    | succ j =>
      rcases h.step hs (h.depth_le (by simp)) (h.nextDepth_le (by simp)) with hend | ⟨hlive, -⟩
      · refine .inr ⟨e, by simp, ?_⟩
        rwa [run_succ, m.run_of_isFinal j hend.final]
      · rw [h.isTerminal_last] at hlive
        cases hlive
  | cons e' rest ih =>
    cases j with
    | zero => exact .inl ⟨e, rfl, hs⟩
    | succ j =>
      rcases h.step hs (h.depth_le (by simp)) (h.nextDepth_le (by simp)) with hend | ⟨-, hnext⟩
      · refine .inr ⟨e, by simp, ?_⟩
        rwa [run_succ, m.run_of_isFinal j hend.final]
      · obtain ⟨hoffset, hdepth⟩ := h.tracks.chain.next_eq
        rw [← hoffset, ← hdepth] at hnext
        rw [List.append_cons] at h ⊢
        exact ih h hnext j

end Assembled

/-- A run that goes through the entries of a history. -/
structure Follows (m : Machine V) (es : List Assembler.Entry) : Prop where
  /-- Before each step the run is at the next entry, at the depth noted there. -/
  position : ∀ j, (m.run j m.start).status.isFinal = false →
    ∃ e, es[j]? = some e ∧ (m.run j m.start).pc = e.offset ∧ (m.run j m.start).sp = e.depth
  bounded : ∀ j, (m.run j m.start).sp ≤ m.maxStack
  /-- No failure blames the program. -/
  innocent : ∀ j f, (m.run j m.start).status = .failed f → f.blamesProgram = false

theorem Assembled.follows {es : List Assembler.Entry} (h : m.Assembled a es) : m.Follows es := by
  obtain ⟨e, after, rfl⟩ : ∃ e after, es = e :: after := by
    obtain ⟨init, last, rfl, -⟩ := h.tracks.ended h.terminated
    cases init with
    | nil => exact ⟨last, [], rfl⟩
    | cons e init => exact ⟨e, init ++ [last], rfl⟩
  obtain ⟨hoffset, hdepth⟩ := h.tracks.chain.head_eq
  have hstart : m.At m.start e.offset e.depth :=
    ⟨rfl, hoffset.symm, hdepth.symm, by simp [Machine.start]⟩
  have hrun : ∀ j, _ := @Assembled.run V m a [] after e m.start h hstart
  constructor
  · intro j hlive
    rcases hrun j with ⟨e', he', hat⟩ | ⟨e', -, hend⟩
    · exact ⟨e', he', hat.pc, hat.sp⟩
    · rw [hend.final] at hlive
      cases hlive
  · intro j
    rcases hrun j with ⟨e', he', hat⟩ | ⟨e', he', hend⟩
    · rw [hat.sp]
      exact h.depth_le (List.mem_of_getElem? he')
    · rw [hend.sp]
      exact h.depth_le he'
  · intro j f hf
    rcases hrun j with ⟨e', -, hat⟩ | ⟨e', -, hend⟩
    · have hlive := hat.running
      rw [hf] at hlive
      cases hlive
    · exact hend.innocent f hf

end Machine

/-- Every program that an assembler finishes for a descriptor that was built can be loaded if its
values convert, and every run of it follows the history of the assembler. It asks for exactly the
depth that the history reaches. -/
theorem assembled_run_follows_history :
    (Domain.real.Blameless ∧ Domain.complex.Blameless) ∧
    ∀ {V : Type} (D : Domain V), D.Blameless →
    ∀ (draft : Draft) (d : Descriptor) (log : Log), draft.build = (some d, log) →
      d.name = D.name →
    ∀ (nArgs : Nat) (calls : List Assembler.Call) (p : Program),
      (Assembler.runAll d (.start nArgs) calls).finish d = .ok p →
    ∀ args : List Host.Value, args.length = p.nArgs →
      (∀ v ∈ args, D.Converts v) → (∀ v ∈ p.constants, D.Converts v) →
    ∃ m, Machine.accepts D d = .ok () ∧ Machine.load D d p args = .ok m ∧
      m.code = (Assembler.history d (.start nArgs) calls).flatMap Assembler.Entry.code ∧
      m.Follows (Assembler.history d (.start nArgs) calls) ∧
      m.maxStack = p.maxStack ∧
      (∀ e ∈ Assembler.history d (.start nArgs) calls, e.depth ≤ p.maxStack) ∧
      ∃ e ∈ Assembler.history d (.start nArgs) calls, e.depth = p.maxStack := by
  refine ⟨⟨Domain.real_blameless, Domain.complex_blameless⟩, ?_⟩
  intro V D hD draft d log hbuild hname nArgs calls p hp args hcount hargs hconstants
  have hd := (Draft.built_of_build hbuild).wellFormed
  have htracks := (Assembler.tracks_start d nArgs).runAll calls
  rw [List.nil_append] at htracks
  generalize Assembler.runAll d (.start nArgs) calls = a at hp htracks
  generalize Assembler.history d (.start nArgs) calls = es at htracks ⊢
  unfold Assembler.finish at hp
  split at hp
  · rename_i hend
    cases hp
    obtain ⟨xs, cs, hload, -, -, hxs, hcs⟩ :=
      Machine.load_eq_ok rfl hcount hargs hconstants
    have hm : Machine.Assembled ⟨D, d, a.code, xs, cs, a.hostConstants, a.maxDepth⟩ a es :=
      ⟨hD, hd, ⟨hxs.trans hcount, hcs, rfl, htracks.callable⟩, htracks, rfl, rfl, hend⟩
    refine ⟨_, ?_, hload, hm.code.trans htracks.code, hm.follows, rfl, ?_, hm.exists_depth_eq⟩
    · rw [Machine.accepts, if_pos hname]
    · intro e he
      exact hm.depth_le he
  · cases hp

/-- A program with a constant, a call of the host and a power; two calls are refused. -/
theorem assembled_run_follows_history_real :
    ∃ d log calls p m, Catalog.real.build = (some d, log) ∧
      calls = [.loadArg 0, .loadArg 1, .loadConst (.int 3), .instr "add" [],
        .callHost ⟨0, "first", fun vs => .ok (vs.headD (.int 0))⟩ 1, .power 5,
        .instr "return" [], .loadArg 0] ∧
      (Assembler.runAll d (.start 1) calls).finish d = .ok p ∧ p.maxStack = 2 ∧
      Machine.load Domain.real d p [.int 7] = .ok m ∧
      m.Follows (Assembler.history d (.start 1) calls) := by
  generalize hcalls : ([.loadArg 0, .loadArg 1, .loadConst (.int 3), .instr "add" [],
    .callHost ⟨0, "first", fun vs => .ok (vs.headD (.int 0))⟩ 1, .power 5,
    .instr "return" [], .loadArg 0] : List Assembler.Call) = calls
  have hall : (Catalog.real.build.1.any fun d =>
      ((Assembler.runAll d (.start 1) calls).finish d).toOption.any fun p =>
        decide (d.name = "rdf" ∧ p.maxStack = 2 ∧ p.nArgs = 1 ∧
          ∀ v ∈ p.constants, Domain.real.Converts v)) = true := by
    rw [← hcalls]
    decide +kernel
  cases hbuild : Catalog.real.build with
  | mk built log =>
    rw [hbuild] at hall
    cases built with
    | none => cases hall
    | some d =>
      rw [Option.any_some] at hall
      cases hp : (Assembler.runAll d (.start 1) calls).finish d with
      | error fault =>
        rw [hp] at hall
        cases hall
      | ok p =>
        rw [hp] at hall
        obtain ⟨hname, hmax, hargs, hconstants⟩ := of_decide_eq_true hall
        obtain ⟨m, -, hload, -, hfollows, -⟩ := assembled_run_follows_history.2 Domain.real
          Domain.real_blameless Catalog.real d log hbuild hname 1 calls p hp [.int 7] hargs.symm
          (by decide +kernel) hconstants
        exact ⟨d, log, calls, p, m, rfl, rfl, hp, hmax, hload, hfollows⟩

end StackForge
