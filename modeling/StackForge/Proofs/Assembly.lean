import StackForge.Proofs.WellFormed
import StackForge.Program

/-!
The history of an assembler: which instructions its calls have added, where the words of each one
start and how deep the stack was before it. `Tracks` ties an assembler to its history, and every
call, refused or not, keeps it.
-/
namespace StackForge.Assembler

/-- A call on an assembler. -/
inductive Call where
  | loadArg (index : Nat)
  | loadConst (v : Host.Value)
  | callHost (f : Host.Function) (n : Nat)
  | power (k : Int64)
  | instr (name : String) (words : List Int32)

def Call.run (d : Descriptor) : Call → Assembler → Attempt
  | .loadArg index, a => a.loadArg d index
  | .loadConst v, a => a.loadConst d v
  | .callHost f n, a => a.callHost d f n
  | .power k, a => a.power d k
  | .instr name words, a => a.instr d name words

/-- Calls in order. A call that is refused does not end them. -/
def runAll (d : Descriptor) : Assembler → List Call → Assembler
  | a, [] => a
  | a, call :: rest => runAll d (call.run d a).1 rest

/-- An instruction that was added to the code. -/
structure Entry where
  instruction : Instruction
  words : List Int32
  /-- Where its words start. -/
  offset : Nat
  /-- How deep the stack was before it. -/
  depth : Nat

namespace Entry

/-- The words of the instruction: its opcode and its immediates. -/
def code (e : Entry) : List Int32 := e.instruction.opcode :: e.words

def pops (e : Entry) : Nat := (e.instruction.signature.popsWith e.words).getD 0

def nextOffset (e : Entry) : Nat := e.offset + e.code.length

def nextDepth (e : Entry) : Nat := e.depth - e.pops + e.instruction.signature.pushes

end Entry

/-- What an attempt to add an instruction adds. -/
def emitted (d : Descriptor) (name : String) (words : List Int32) (a : Assembler) : List Entry :=
  match emit d name words a, d.instruction? name with
  | .ok _, some i => [⟨i, words, a.code.length, a.depth⟩]
  | _, _ => []

/-- The same for immediates that may not fit into words. -/
def emittedWith (d : Descriptor) (name : String) (words : Except AssemblyFault (List Int32))
    (a : Assembler) : List Entry :=
  match words with
  | .ok words => a.emitted d name words
  | .error _ => []

/-- What loading a constant adds, once the constant has its place. -/
def loadConstEntries (d : Descriptor) (v : Host.Value) (a : Assembler) : List Entry :=
  let (slot, a) := a.intern v
  a.emittedWith d "load_const" (do return [← word "load_const" slot])

/-- What a call adds, in order. A power that goes by a constant adds two instructions. -/
def Call.entries (d : Descriptor) : Call → Assembler → List Entry
  | .loadArg index, a => a.emittedWith d "load_arg" (do return [← word "load_arg" index])
  | .loadConst v, a => a.loadConstEntries d v
  | .callHost f n, a =>
    let (slot, a) := a.internHost (.function f)
    a.emittedWith d (hostInstruction d)
      (do return [← word (hostInstruction d) slot, ← word (hostInstruction d) n])
  | .power k, a =>
    match powerWord? d k with
    | some exponent => a.emitted d powerName [exponent]
    | none =>
      a.loadConstEntries d (.int k)
        ++ match a.loadConst d (.int k) with
           | (_, some _) => []
           | (a, none) => a.emitted d "pow" []
  | .instr name words, a => a.emitted d name words

/-- All that calls add, in order. -/
def history (d : Descriptor) : Assembler → List Call → List Entry
  | _, [] => []
  | a, call :: rest => call.entries d a ++ history d (call.run d a).1 rest

/-- Entries that follow one another, from one offset and depth to another. -/
inductive Chain : Nat → Nat → List Entry → Nat → Nat → Prop where
  | nil (offset depth : Nat) : Chain offset depth [] offset depth
  | cons (e : Entry) {rest : List Entry} {offset depth : Nat}
      (h : Chain e.nextOffset e.nextDepth rest offset depth) :
      Chain e.offset e.depth (e :: rest) offset depth

namespace Chain

variable {o k o' k' : Nat} {es : List Entry}

theorem concat (h : Chain o k es o' k') {e : Entry} (ho : e.offset = o') (hk : e.depth = k') :
    Chain o k (es ++ [e]) e.nextOffset e.nextDepth := by
  induction h with
  | nil o k =>
    subst ho
    subst hk
    exact .cons e (.nil _ _)
  | cons e' _ ih => exact .cons e' (ih ho hk)

/-- A depth is the first one or the one after some entry. -/
theorem depth_eq (h : Chain o k es o' k') :
    ∀ e ∈ es, e.depth = k ∨ ∃ e' ∈ es, e'.nextDepth = e.depth := by
  induction h with
  | nil => simp
  | cons e₀ _ ih =>
    intro e he
    rcases List.mem_cons.mp he with rfl | he
    · exact .inl rfl
    · rcases ih e he with hdepth | ⟨e', he', hdepth⟩
      · exact .inr ⟨e₀, List.mem_cons_self, hdepth.symm⟩
      · exact .inr ⟨e', List.mem_cons_of_mem _ he', hdepth⟩

theorem head_eq {e : Entry} (h : Chain o k (e :: es) o' k') : e.offset = o ∧ e.depth = k := by
  cases h
  exact ⟨rfl, rfl⟩

theorem tail {e : Entry} (h : Chain o k (e :: es) o' k') :
    Chain e.nextOffset e.nextDepth es o' k' := by
  cases h
  assumption

/-- An entry stands behind the words of those before it. -/
theorem offset_eq {before after : List Entry} {e : Entry}
    (h : Chain o k (before ++ e :: after) o' k') :
    e.offset = o + (before.flatMap Entry.code).length := by
  induction before generalizing o k with
  | nil => exact h.head_eq.1
  | cons e₀ rest ih =>
    have hrest := ih h.tail
    rw [Entry.nextOffset, h.head_eq.1] at hrest
    rw [hrest, List.flatMap_cons, List.length_append, Nat.add_assoc]

/-- An entry ends where the next one starts. -/
theorem next_eq {before after : List Entry} {e e' : Entry}
    (h : Chain o k (before ++ e :: e' :: after) o' k') :
    e'.offset = e.nextOffset ∧ e'.depth = e.nextDepth := by
  induction before generalizing o k with
  | nil => exact h.tail.head_eq
  | cons _ _ ih => exact ih h.tail

end Chain

/-- An instruction is added only if it is known, the program has not ended, its immediates are
right and the stack is deep enough. -/
theorem emit_eq_ok {d : Descriptor} {name : String} {words : List Int32} {a b : Assembler}
    (h : emit d name words a = .ok b) :
    ∃ e : Entry, d.instruction? name = some e.instruction ∧ e.words = words ∧
      e.offset = a.code.length ∧ e.depth = a.depth ∧ a.emitted d name words = [e] ∧
      a.terminated = false ∧ words.length = e.instruction.signature.immediates ∧
      immediatesFault? d a e.instruction e.instruction.signature.inputs words = none ∧
      e.pops ≤ a.depth ∧
      b = { a with
        code := a.code ++ e.code
        depth := e.nextDepth
        maxDepth := max a.maxDepth e.nextDepth
        terminated := e.instruction.isTerminal } := by
  have hok := h
  unfold emit at h
  split at h
  · cases h
  · rename_i i hi
    split at h
    · cases h
    · rename_i hlive
      split at h
      · cases h
      · rename_i hcount
        split at h
        · cases h
        · rename_i himm
          dsimp only at h
          split at h
          · cases h
          · rename_i hdeep
            cases h
            exact ⟨⟨i, words, a.code.length, a.depth⟩, hi, rfl, rfl, rfl,
              by simp [emitted, hok, hi], by simpa using hlive, by simpa using hcount, himm,
              Nat.le_of_not_lt hdeep, rfl⟩

theorem emitted_eq_nil {d : Descriptor} {name : String} {words : List Int32} {a : Assembler}
    {fault : AssemblyFault} (h : emit d name words a = .error fault) :
    a.emitted d name words = [] := by
  simp [emitted, h]

/-- The pools of an assembler have only grown. -/
structure Grown (a b : Assembler) : Prop where
  nArgs : b.nArgs = a.nArgs
  constants : a.constants.length ≤ b.constants.length
  hostConstants : a.hostConstants.length ≤ b.hostConstants.length

theorem Grown.poolSize? {a b : Assembler} (h : Grown a b) {role : Role} {size : Nat}
    (hb : b.poolSize? role = some size) : ∃ n ≤ size, a.poolSize? role = some n := by
  cases role with
  | args =>
    cases hb
    exact ⟨a.nArgs, Nat.le_of_eq h.nArgs.symm, rfl⟩
  | constants =>
    cases hb
    exact ⟨a.constants.length, h.constants, rfl⟩
  | hostConstants =>
    cases hb
    exact ⟨a.hostConstants.length, h.hostConstants, rfl⟩
  | stack => cases hb
  | code => cases hb

theorem Grown.immediateFault? {d : Descriptor} {a b : Assembler} (h : Grown a b)
    {i : Instruction} {p : Param} {value : Int32}
    (ha : immediateFault? d a i p value = none) : immediateFault? d b i p value = none := by
  unfold Assembler.immediateFault? at ha ⊢
  cases hkind : p.kind with
  | single => simp
  | immediate => simpa [hkind] using ha
  | variadic count => simpa [hkind] using ha
  | indexed index =>
    simp only [hkind] at ha ⊢
    cases hb : b.poolSize? p.role with
    | none => simp
    | some size =>
      obtain ⟨n, hn, hsize⟩ := h.poolSize? hb
      simp only [hsize] at ha
      split at ha
      · cases ha
      · rename_i hrange
        simp only [Bool.or_eq_true, decide_eq_true_eq, not_or, Nat.not_le] at hrange
        dsimp only
        rw [if_neg]
        simp only [Bool.or_eq_true, decide_eq_true_eq, not_or, Nat.not_le]
        exact ⟨hrange.1, Nat.lt_of_lt_of_le hrange.2 hn⟩

/-- Immediates that were right stay right while the pools grow. -/
theorem Grown.immediatesFault? {d : Descriptor} {a b : Assembler} (h : Grown a b)
    {i : Instruction} {ps : List Param} {words : List Int32}
    (ha : immediatesFault? d a i ps words = none) : immediatesFault? d b i ps words = none := by
  induction ps generalizing words with
  | nil => rfl
  | cons p rest ih =>
    unfold Assembler.immediatesFault? at ha ⊢
    split
    · rename_i hp
      rw [if_pos hp] at ha
      exact ih ha
    · rename_i hp
      rw [if_neg hp] at ha
      cases words with
      | nil => rfl
      | cons value words =>
        dsimp only at ha ⊢
        cases hfault : Assembler.immediateFault? d a i p value with
        | some fault =>
          rw [hfault] at ha
          cases ha
        | none =>
          rw [hfault] at ha
          rw [h.immediateFault? hfault]
          exact ih ha

/-- An entry whose immediates suit the pools of an assembler. -/
structure Entry.Sound (d : Descriptor) (a : Assembler) (e : Entry) : Prop where
  known : e.instruction ∈ d.instructions
  count : e.words.length = e.instruction.signature.immediates
  immediates :
    immediatesFault? d a e.instruction e.instruction.signature.inputs e.words = none
  fits : e.pops ≤ e.depth

theorem Entry.Sound.grown {d : Descriptor} {a b : Assembler} {e : Entry} (he : e.Sound d a)
    (h : Grown a b) : e.Sound d b :=
  ⟨he.known, he.count, h.immediatesFault? he.immediates, he.fits⟩

theorem Entry.Sound.code_length {d : Descriptor} {a : Assembler} {e : Entry} (he : e.Sound d a) :
    e.code.length = e.instruction.width := by
  rw [Entry.code, List.length_cons, he.count, Instruction.width, Signature.width, Nat.add_comm]

/-- An assembler and the instructions that were added to it. -/
structure Tracks (d : Descriptor) (a : Assembler) (es : List Entry) : Prop where
  chain : Chain 0 0 es a.code.length a.depth
  code : a.code = es.flatMap Entry.code
  sound : ∀ e ∈ es, e.Sound d a
  bounded : ∀ e ∈ es, e.nextDepth ≤ a.maxDepth
  reached : a.maxDepth = 0 ∨ ∃ e ∈ es, e.nextDepth = a.maxDepth
  callable : ∀ o ∈ a.hostConstants, o.function?.isSome = true
  live : a.terminated = false → ∀ e ∈ es, e.instruction.isTerminal = false
  ended : a.terminated = true → ∃ init last, es = init ++ [last] ∧
    last.instruction.isTerminal = true ∧ ∀ e ∈ init, e.instruction.isTerminal = false

theorem tracks_start (d : Descriptor) (nArgs : Nat) : Tracks d (start nArgs) [] where
  chain := .nil 0 0
  code := rfl
  sound := by simp
  bounded := by simp
  reached := .inl rfl
  callable := by simp [start]
  live := by simp
  ended := by simp [start]

namespace Tracks

variable {d : Descriptor} {a b : Assembler} {es : List Entry}

/-- The code at an entry: the opcode of its instruction, then its immediates. -/
theorem code_at {before after : List Entry} {e : Entry} (h : Tracks d a (before ++ e :: after)) :
    a.code[e.offset]? = some e.instruction.opcode ∧
      ∃ back, a.code.drop (e.offset + 1) = e.words ++ back := by
  have hcode : a.code = before.flatMap Entry.code ++ (e.code ++ after.flatMap Entry.code) := by
    rw [h.code, List.flatMap_append, List.flatMap_cons]
  have hoffset : e.offset = (before.flatMap Entry.code).length := by
    rw [h.chain.offset_eq, Nat.zero_add]
  rw [hcode, hoffset]
  generalize before.flatMap Entry.code = front
  refine ⟨by simp [Entry.code], after.flatMap Entry.code, ?_⟩
  simp [Entry.code]

/-- Adding an instruction adds its entry. -/
theorem emit (h : Tracks d a es) {name : String} {words : List Int32}
    (hemit : emit d name words a = .ok b) : Tracks d b (es ++ a.emitted d name words) := by
  obtain ⟨e, hi, rfl, hoffset, hdepth, hentry, hlive, hcount, himm, hfits, rfl⟩ := emit_eq_ok hemit
  rw [hentry]
  have hchain := h.chain.concat hoffset hdepth
  have hgrown : Grown a { a with
      code := a.code ++ e.code
      depth := e.nextDepth
      maxDepth := max a.maxDepth e.nextDepth
      terminated := e.instruction.isTerminal } := ⟨rfl, Nat.le_refl _, Nat.le_refl _⟩
  refine ⟨?_, ?_, ?_, ?_, ?_, h.callable, ?_, ?_⟩
  · simpa [Entry.nextOffset, hoffset] using hchain
  · simp [h.code]
  · intro e' he'
    rcases List.mem_append.mp he' with he' | he'
    · exact (h.sound e' he').grown hgrown
    · rw [List.mem_singleton.mp he']
      exact ⟨List.mem_of_find?_eq_some hi, hcount, hgrown.immediatesFault? himm, hdepth ▸ hfits⟩
  · intro e' he'
    rcases List.mem_append.mp he' with he' | he'
    · exact Nat.le_trans (h.bounded e' he') (Nat.le_max_left _ _)
    · rw [List.mem_singleton.mp he']
      exact Nat.le_max_right _ _
  · rcases Nat.le_total a.maxDepth e.nextDepth with hle | hle
    · exact .inr ⟨e, by simp, (Nat.max_eq_right hle).symm⟩
    · rcases h.reached with hzero | ⟨e', he', hmax⟩
      · exact .inl ((Nat.max_eq_left hle).trans hzero)
      · exact .inr ⟨e', by simp [he'], by simpa [Nat.max_eq_left hle] using hmax⟩
  · intro hnot e' he'
    rcases List.mem_append.mp he' with he' | he'
    · exact h.live hlive e' he'
    · rw [List.mem_singleton.mp he']
      exact hnot
  · intro hend
    exact ⟨es, e, rfl, hend, h.live hlive⟩

/-- Pools may grow by functions of the host and by constants. -/
theorem pools (h : Tracks d a es) {constants : List Host.Value} {hostConstants : List Host.Object}
    (hgrown : Grown a { a with constants, hostConstants })
    (hcallable : ∀ o ∈ hostConstants, o.function?.isSome = true) :
    Tracks d { a with constants, hostConstants } es where
  chain := h.chain
  code := h.code
  sound := fun e he => (h.sound e he).grown hgrown
  bounded := h.bounded
  reached := h.reached
  callable := hcallable
  live := h.live
  ended := h.ended

theorem intern (h : Tracks d a es) (v : Host.Value) : Tracks d (a.intern v).2 es := by
  unfold Assembler.intern
  split
  · exact h
  · exact h.pools ⟨rfl, by simp, Nat.le_refl _⟩ h.callable

theorem internHost (h : Tracks d a es) (f : Host.Function) :
    Tracks d (a.internHost (.function f)).2 es := by
  unfold Assembler.internHost
  split
  · exact h
  · refine h.pools ⟨rfl, Nat.le_refl _, by simp⟩ ?_
    intro o ho
    rcases List.mem_append.mp ho with ho | ho
    · exact h.callable o ho
    · rw [List.mem_singleton.mp ho]
      rfl

/-- An attempt keeps the history whether it is refused or not. -/
theorem attempt (h : Tracks d a es) (name : String)
    (words : Except AssemblyFault (List Int32)) :
    Tracks d (a.attempt fun a => words >>= fun words => Assembler.emit d name words a).1
      (es ++ a.emittedWith d name words) := by
  unfold Assembler.attempt
  cases words with
  | error fault =>
    simp only [emittedWith, List.append_nil]
    exact h
  | ok words =>
    dsimp only [bind, Except.bind, emittedWith]
    cases hemit : Assembler.emit d name words a with
    | ok b => exact h.emit hemit
    | error fault => simpa [emitted_eq_nil hemit] using h

theorem instr (h : Tracks d a es) (name : String) (words : List Int32) :
    Tracks d (a.instr d name words).1 (es ++ a.emitted d name words) :=
  h.attempt name (.ok words)

theorem loadArg (h : Tracks d a es) (index : Nat) :
    Tracks d (a.loadArg d index).1 (es ++ (Call.loadArg index).entries d a) := by
  have := h.attempt "load_arg" (do return [← word "load_arg" index])
  simpa [Assembler.loadArg, Call.entries] using this

theorem loadConst (h : Tracks d a es) (v : Host.Value) :
    Tracks d (a.loadConst d v).1 (es ++ a.loadConstEntries d v) := by
  have := (h.intern v).attempt "load_const" (do return [← word "load_const" (a.intern v).1])
  simpa [Assembler.loadConst, loadConstEntries] using this

theorem callHost (h : Tracks d a es) (f : Host.Function) (n : Nat) :
    Tracks d (a.callHost d f n).1 (es ++ (Call.callHost f n).entries d a) := by
  have := (h.internHost f).attempt (hostInstruction d) (do
    return [← word (hostInstruction d) (a.internHost (.function f)).1,
      ← word (hostInstruction d) n])
  simpa [Assembler.callHost, Call.entries] using this

theorem power (h : Tracks d a es) (k : Int64) :
    Tracks d (a.power d k).1 (es ++ (Call.power k).entries d a) := by
  simp only [Assembler.power, Call.entries]
  cases powerWord? d k with
  | some exponent => exact h.instr powerName [exponent]
  | none =>
    have hload := h.loadConst (.int k)
    cases hconst : a.loadConst d (.int k) with
    | mk b fault =>
      rw [hconst] at hload
      cases fault with
      | some fault => simpa using hload
      | none => simpa using hload.instr "pow" []

end Tracks

/-- Every call keeps the history. -/
theorem Tracks.call {d : Descriptor} {a : Assembler} {es : List Entry} (h : Tracks d a es)
    (call : Call) : Tracks d (call.run d a).1 (es ++ call.entries d a) := by
  cases call with
  | loadArg index => exact h.loadArg index
  | loadConst v => exact h.loadConst v
  | callHost f n => exact h.callHost f n
  | power k => exact h.power k
  | instr name words => exact h.instr name words

/-- So does every sequence of calls. -/
theorem Tracks.runAll {d : Descriptor} {a : Assembler} {es : List Entry} (h : Tracks d a es)
    (calls : List Call) : Tracks d (runAll d a calls) (es ++ history d a calls) := by
  induction calls generalizing a es with
  | nil => simpa [Assembler.runAll, history] using h
  | cons call rest ih =>
    rw [history, ← List.append_assoc]
    exact ih (h.call call)

end StackForge.Assembler
