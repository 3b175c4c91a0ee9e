import StackForge.Proofs.Body
import StackForge.Proofs.Checking
import StackForge.Proofs.Machine

/-!
The arms of a well formed descriptor. Every instruction has one, and what it takes when it runs is
what the instruction takes on the reference machine.
-/
namespace StackForge

namespace Arm

variable {i : Instruction}

/-- The immediate of an input stands behind those of the inputs before it. -/
theorem immediate_eq {before after : List Param} {p : Param}
    (h : i.signature.inputs = before ++ p :: after) (hp : p.immediates = 1) :
    immediate i before.length = .ok (1 + Param.immediatesOf before) := by
  simp [immediate, Signature.immediateOffset?, h, hp]

/-- The counts and inputs of an arm are those of its instruction. -/
theorem ofInstruction_eq_ok {d : Descriptor} {a : Arm} (h : ofInstruction d i = .ok a) :
    a.instruction = i ∧ countsFrom i 0 i.signature.inputs = .ok a.counts ∧
      inputsFrom d i 0 {} i.signature.inputs = .ok a.inputs := by
  obtain ⟨counts, hcounts, h⟩ := bind_eq_ok h
  obtain ⟨inputs, hinputs, h⟩ := bind_eq_ok h
  dsimp only at h
  split at h
  · cases h
    exact ⟨rfl, hcounts, hinputs⟩
  · obtain ⟨stores, -, h⟩ := bind_eq_ok h
    cases h
    exact ⟨rfl, hcounts, hinputs⟩

end Arm

namespace Engine

variable {V : Type}

/-- The counts of variadic inputs, from the one with number `k` on. -/
def counts? : Nat → List Param → List Int32 → Option (List (Nat × Nat))
  | _, [], _ => some []
  | k, p :: rest, words =>
    if p.isVariadic then
      match words with
      | [] => none
      | w :: words => do
        let n ← index? w
        let others ← counts? (k + 1) rest words
        return (k, n) :: others
    else counts? (k + 1) rest (words.drop p.immediates)

/-- Either the code ends at a position, or there is a word and the others follow it. -/
theorem word_cases (code : List Int32) (j : Nat) :
    (code[j]? = none ∧ code.drop j = []) ∨
      ∃ w, code[j]? = some w ∧ code.drop j = w :: code.drop (j + 1) := by
  by_cases hj : j < code.length
  · exact .inr ⟨code.get ⟨j, hj⟩, List.getElem?_eq_getElem hj, List.drop_eq_getElem_cons hj⟩
  · exact .inl ⟨List.getElem?_eq_none (by omega), List.drop_eq_nil_of_le (by omega)⟩

theorem counts_eq {i : Instruction} {before ps : List Param}
    (h : i.signature.inputs = before ++ ps) :
    ∃ counts, Arm.countsFrom i before.length ps = .ok counts ∧
      ∀ (code : List Int32) (pc : Nat),
        (counts.mapM fun (k, word) => do return (k, ← index? (← code[pc + word]?)))
          = counts? before.length ps
              (code.drop (pc + 1 + Param.immediatesOf before)) := by
  induction ps generalizing before with
  | nil => exact ⟨[], rfl, fun _ _ => rfl⟩
  | cons p rest ih =>
    obtain ⟨others, hothers, hread⟩ := @ih (before ++ [p]) (by simp [h])
    simp only [List.length_append, List.length_cons, List.length_nil,
      Param.immediatesOf_append, Param.immediatesOf_cons, Param.immediatesOf_nil] at hothers hread
    unfold Arm.countsFrom counts?
    by_cases hp : p.isVariadic = true
    · have hone : p.immediates = 1 := Param.immediates_of_isVariadic hp
      refine ⟨(before.length, 1 + Param.immediatesOf before) :: others, ?_, ?_⟩
      · rw [if_pos hp, Arm.immediate_eq h hone, hothers]
        rfl
      · intro code pc
        rw [List.mapM_cons, hread, if_pos hp]
        simp only [← Nat.add_assoc, hone]
        rcases word_cases code (pc + 1 + Param.immediatesOf before) with
          ⟨hword, hdrop⟩ | ⟨w, hword, hdrop⟩
        · rw [hword, hdrop]
          rfl
        · rw [hword, hdrop]
          cases hw : index? w with
          | none => simp [hw]
          | some n => simp [hw]
    · rw [Bool.not_eq_true] at hp
      refine ⟨others, by simp [hp, hothers], ?_⟩
      intro code pc
      rw [hread, hp, List.drop_drop]
      simp [Nat.add_assoc]

theorem popsOf_eq_none {k : Nat} {ps : List Param} {words : List Int32}
    (h : counts? k ps words = none) : Signature.popsOf ps words = none := by
  induction ps generalizing k words with
  | nil => cases h
  | cons p rest ih =>
    cases hkind : p.kind with
    | variadic count =>
      simp only [counts?, Param.isVariadic, hkind, if_true] at h
      simp only [Signature.popsOf, hkind]
      cases words with
      | nil => rfl
      | cons w words =>
        by_cases hw : w < 0
        · simp [hw]
        · simp only [index?, if_neg hw, Option.bind_eq_bind, Option.bind_some,
            Option.bind_eq_none_iff, reduceCtorEq, imp_false] at h
          have hrest : counts? (k + 1) rest words = none := by
            rw [Option.eq_none_iff_forall_ne_some]
            exact h
          simp [hw, ih hrest]
    | single | indexed index | immediate =>
      simp only [counts?, Param.isVariadic, hkind, Bool.false_eq_true, if_false] at h
      simp [Signature.popsOf, hkind, ih h]

/-- The counts of all inputs, as seen from the input with number `k`: those of the inputs from it
on are in the words. -/
def Knows (counts : List (Nat × Nat)) (k : Nat) (ps : List Param) (words : List Int32) : Prop :=
  ∃ done others, counts = done ++ others ∧ counts? k ps words = some others ∧ ∀ q ∈ done, q.1 < k

namespace Knows

variable {counts : List (Nat × Nat)} {k : Nat} {p : Param} {ps : List Param} {words : List Int32}

theorem skip (h : Knows counts k (p :: ps) words) (hp : p.isVariadic = false) :
    Knows counts (k + 1) ps (words.drop p.immediates) := by
  obtain ⟨done, others, rfl, hothers, hdone⟩ := h
  simp only [counts?, hp, Bool.false_eq_true, if_false] at hothers
  exact ⟨done, others, rfl, hothers, fun q hq => Nat.lt_succ_of_lt (hdone q hq)⟩

theorem count (h : Knows counts k (p :: ps) words) (hp : p.isVariadic = true) :
    ∃ w ws n, words = w :: ws ∧ index? w = some n ∧ counts.lookup k = some n ∧
      Knows counts (k + 1) ps ws := by
  obtain ⟨done, others, rfl, hothers, hdone⟩ := h
  simp only [counts?, hp, if_true] at hothers
  cases words with
  | nil => cases hothers
  | cons w ws =>
    simp only [Option.bind_eq_bind, Option.bind_eq_some_iff] at hothers
    obtain ⟨n, hn, rest, hrest, hcons⟩ := hothers
    cases hcons
    refine ⟨w, ws, n, rfl, hn, ?_, done ++ [(k, n)], rest, by simp, hrest, ?_⟩
    · rw [List.lookup_eq_some_iff]
      refine ⟨done, rest, rfl, ?_⟩
      intro q hq
      have := hdone q hq
      simp
      omega
    · intro q hq
      rcases List.mem_append.mp hq with hq | hq
      · exact Nat.lt_succ_of_lt (hdone q hq)
      · rw [List.mem_singleton.mp hq]
        exact Nat.lt_succ_self k

end Knows

theorem foldl_add_one (ns : List Nat) (a : Nat) :
    ns.foldl (· + ·) (a + 1) = ns.foldl (· + ·) a + 1 := by
  induction ns generalizing a with
  | nil => rfl
  | cons n ns ih => rw [List.foldl_cons, List.foldl_cons, Nat.add_right_comm, ih]

theorem size?_addFixed {counts : List (Nat × Nat)} {e : Extent} {n : Nat}
    (h : size? counts e = some n) : size? counts e.addFixed = some (n + 1) := by
  obtain ⟨ns, hns, rfl⟩ := Option.map_eq_some_iff.mp h
  rw [size?, Extent.addFixed, hns, Option.map_some, foldl_add_one]

theorem size?_addCount {counts : List (Nat × Nat)} {e : Extent} {k n c : Nat}
    (h : size? counts e = some n) (hk : counts.lookup k = some c) :
    size? counts (e.addCount k) = some (n + c) := by
  obtain ⟨ns, hns, rfl⟩ := Option.map_eq_some_iff.mp h
  simp [size?, Extent.addCount, List.mapM_append, hns, hk]

/-- The extent of inputs is as large as what they take. -/
theorem size?_ofInputs {counts : List (Nat × Nat)} {k : Nat} {ps : List Param}
    {words : List Int32} {below : Extent} {b : Nat} (h : Knows counts k ps words)
    (hps : ∀ p ∈ ps, p.Readable) (hbelow : size? counts below = some b) :
    ∃ n, Signature.popsOf ps words = some n ∧
      size? counts (.ofInputs below k ps) = some (b + n) := by
  induction ps generalizing k words below b with
  | nil => exact ⟨0, rfl, hbelow⟩
  | cons p rest ih =>
    obtain ⟨hp, hrest⟩ := List.forall_mem_cons.mp hps
    simp only [Param.Readable] at hp
    cases hkind : p.kind with
    | variadic count =>
      obtain ⟨w, ws, c, rfl, hw, hlookup, hknows⟩ := h.count (by simp [Param.isVariadic, hkind])
      obtain ⟨n, hn, hsize⟩ := ih hknows hrest (size?_addCount hbelow hlookup)
      unfold index? at hw
      split at hw
      · cases hw
      · rename_i hpos
        cases hw
        refine ⟨w.toInt.toNat + n, by simp [Signature.popsOf, hkind, hpos, hn], ?_⟩
        simpa [Extent.ofInputs, Extent.add, hkind, Nat.add_assoc] using hsize
    | single =>
      rw [hkind] at hp
      obtain ⟨n, hn, hsize⟩ := ih (h.skip (by simp [Param.isVariadic, hkind])) hrest
        (size?_addFixed hbelow)
      refine ⟨1 + n, by simp [Signature.popsOf, hkind, hn, Param.isFixed, hp], ?_⟩
      simpa [Extent.ofInputs, Extent.add, hkind, hp, Nat.add_assoc] using hsize
    | indexed index | immediate =>
      obtain ⟨n, hn, hsize⟩ := ih (h.skip (by simp [Param.isVariadic, hkind])) hrest hbelow
      refine ⟨n, by simp [Signature.popsOf, hkind, hn, Param.isFixed], ?_⟩
      simpa [Extent.ofInputs, Extent.add, hkind] using hsize

/-- The reference machine with the program of a wrapper and some arguments. -/
def Wrapper.machine (w : Wrapper V) (args : List V) : Machine V where
  domain := w.engine.domain
  descriptor := w.engine.descriptor
  code := w.code
  args := args
  constants := w.constants
  hostConstants := w.hostConstants
  maxStack := w.maxStack

/-- Pools are read in the same way. -/
theorem element?_eq_indexed? (w : Wrapper V) (args : List V) (s : State V) {role : Role}
    (h : role = .args ∨ role = .constants ∨ role = .hostConstants) (index : Nat) :
    element? w args s role index = (w.machine args).indexed? role index := by
  rcases h with rfl | rfl | rfl <;> rfl

/-- Accesses that read what the reference machine reads for some inputs, which come after others
that lie below them on the stack. -/
def Reads (V : Type) (before : List Param) (below : Extent) (ps : List Param)
    (inputs : List Access) : Prop :=
  ∀ (w : Wrapper V) (args : List V) (s : State V) (counts : List (Nat × Nat)) (base b : Nat),
    size? counts below = some b →
    Knows counts before.length ps (w.code.drop (s.pc + 1 + Param.immediatesOf before)) →
    inputs.mapM (read? w args s counts base)
      = (w.machine args).operands? s.stack ps
          (w.code.drop (s.pc + 1 + Param.immediatesOf before)) (base + b)

namespace Reads

variable {before ps : List Param} {below : Extent} {p : Param} {inputs : List Access}
  {chunk : Chunk}

theorem single (h : Reads V (before ++ [p]) (below.add before.length p) ps inputs)
    (hkind : p.kind = .single) (hp : p.role = .stack) (hchunk : chunk.role = .stack) :
    Reads V before below (p :: ps) (.element chunk below :: inputs) := by
  have hzero : p.immediates = 0 := by simp [Param.immediates, hkind]
  intro w args s counts base b hsize hknows
  have hnext := h w args s counts base (b + 1)
    (by simpa [Extent.add, hkind, hp] using size?_addFixed hsize)
    (by simpa [hzero] using hknows.skip (by simp [Param.isVariadic, hkind]))
  simp only [Param.immediatesOf_append, Param.immediatesOf_cons, Param.immediatesOf_nil,
    hzero, Nat.add_zero, ← Nat.add_assoc] at hnext
  rw [List.mapM_cons, hnext]
  simp only [Machine.operands?, hkind, read?, hsize, hchunk, element?, Option.bind_eq_bind,
    Option.bind_some]
  cases s.stack[base + b]? <;> rfl

/-- The word of an input with an immediate, and the words of the inputs behind it. -/
theorem behind (h : Reads V (before ++ [p]) (below.add before.length p) ps inputs)
    (hp : p.immediates = 1) (hfixed : p.isVariadic = false)
    (hbelow : below.add before.length p = below) {w : Wrapper V} {args : List V} {s : State V}
    {counts : List (Nat × Nat)} {base b : Nat} (hsize : size? counts below = some b)
    (hknows : Knows counts before.length (p :: ps)
      (w.code.drop (s.pc + 1 + Param.immediatesOf before))) :
    inputs.mapM (read? w args s counts base)
      = (w.machine args).operands? s.stack ps
          (w.code.drop (s.pc + 1 + Param.immediatesOf before + 1)) (base + b) := by
  have hnext := h w args s counts base b (by rw [hbelow]; exact hsize)
    (by simpa [hp, ← Nat.add_assoc] using hknows.skip hfixed)
  simpa [hp, ← Nat.add_assoc] using hnext

theorem indexed (h : Reads V (before ++ [p]) (below.add before.length p) ps inputs)
    {index : String} (hkind : p.kind = .indexed index) (hchunk : chunk.role = p.role)
    (hp : p.role = .args ∨ p.role = .constants ∨ p.role = .hostConstants) :
    Reads V before below (p :: ps)
      (.selected chunk (1 + Param.immediatesOf before) :: inputs) := by
  intro w args s counts base b hsize hknows
  rw [List.mapM_cons, h.behind (by simp [Param.immediates, hkind])
    (by simp [Param.isVariadic, hkind]) (by simp [Extent.add, hkind]) hsize hknows]
  simp only [read?, ← Nat.add_assoc, hchunk, element?_eq_indexed? w args s hp]
  rcases word_cases w.code (s.pc + 1 + Param.immediatesOf before) with
    ⟨hword, hdrop⟩ | ⟨x, hword, hdrop⟩
  · simp [hword, hdrop, Machine.operands?, hkind]
  · simp only [hword, hdrop, Machine.operands?, hkind, Option.bind_eq_bind, Option.bind_some,
      Option.bind_assoc]

theorem immediate (h : Reads V (before ++ [p]) (below.add before.length p) ps inputs)
    (hkind : p.kind = .immediate) :
    Reads V before below (p :: ps) (.word (1 + Param.immediatesOf before) :: inputs) := by
  intro w args s counts base b hsize hknows
  rw [List.mapM_cons, h.behind (by simp [Param.immediates, hkind])
    (by simp [Param.isVariadic, hkind]) (by simp [Extent.add, hkind]) hsize hknows]
  simp only [read?, ← Nat.add_assoc]
  rcases word_cases w.code (s.pc + 1 + Param.immediatesOf before) with
    ⟨hword, hdrop⟩ | ⟨x, hword, hdrop⟩
  · simp [hword, hdrop, Machine.operands?, hkind]
  · simp [hword, hdrop, Machine.operands?, hkind]

theorem variadic (h : Reads V (before ++ [p]) (below.add before.length p) ps inputs)
    {count : String} (hkind : p.kind = .variadic count) (hchunk : chunk.role = .stack) :
    Reads V before below (p :: ps) (.slice chunk below before.length :: inputs) := by
  have hone : p.immediates = 1 := by simp [Param.immediates, hkind]
  intro w args s counts base b hsize hknows
  obtain ⟨x, words, c, hwords, hx, hlookup, hafter⟩ :=
    hknows.count (by simp [Param.isVariadic, hkind])
  have hdrop : words = w.code.drop (s.pc + 1 + Param.immediatesOf before + 1) := by
    rw [← List.drop_drop, hwords]
    rfl
  have hnext := h w args s counts base (b + c)
    (by simpa [Extent.add, hkind] using size?_addCount hsize hlookup)
    (by simpa [hone, hdrop, ← Nat.add_assoc] using hafter)
  simp only [Param.immediatesOf_append, Param.immediatesOf_cons, Param.immediatesOf_nil,
    hone, Nat.add_zero, ← Nat.add_assoc, ← hdrop] at hnext
  rw [List.mapM_cons, hnext, hwords]
  simp only [Machine.operands?, hkind, read?, hsize, hchunk, values?, hlookup, hx,
    Option.bind_eq_bind, Option.bind_some]
  cases slice? s.stack (base + b) c <;> rfl

end Reads

/-- Every input has its access, and it reads what the reference machine reads. -/
theorem inputs_eq {d : Descriptor} {i : Instruction} {before ps : List Param} (below : Extent)
    (h : i.signature.inputs = before ++ ps) (hps : ∀ p ∈ ps, p.Readable)
    (hchunks : ∀ p ∈ ps, ∃ c, d.chunkNamed? p.chunk = some c ∧ c.role = p.role) :
    ∃ inputs, Arm.inputsFrom d i before.length below ps = .ok inputs ∧
      Reads V before below ps inputs := by
  induction ps generalizing before below with
  | nil => exact ⟨[], rfl, fun _ _ _ _ _ _ _ _ => rfl⟩
  | cons p rest ih =>
    obtain ⟨hp, hrest⟩ := List.forall_mem_cons.mp hps
    obtain ⟨⟨chunk, hchunk, hrole⟩, hothers⟩ := List.forall_mem_cons.mp hchunks
    obtain ⟨others, hfrom, hreads⟩ := ih (below.add before.length p)
      (show i.signature.inputs = (before ++ [p]) ++ rest by simp [h]) hrest hothers
    rw [List.length_append, List.length_singleton] at hfrom
    unfold Param.Readable at hp
    cases hkind : p.kind with
    | single =>
      rw [hkind] at hp
      refine ⟨_, ?_, hreads.single hkind hp (hrole.trans hp)⟩
      simp only [Arm.inputsFrom, Arm.access, hchunk, hkind, hfrom]
      rfl
    | indexed index =>
      have hone : p.immediates = 1 := by simp [Param.immediates, hkind]
      rw [hkind] at hp
      refine ⟨_, ?_, hreads.indexed hkind hrole hp⟩
      simp only [Arm.inputsFrom, Arm.access, hchunk, hkind, Arm.immediate_eq h hone, hfrom]
      rfl
    | immediate =>
      have hone : p.immediates = 1 := by simp [Param.immediates, hkind]
      refine ⟨_, ?_, hreads.immediate hkind⟩
      simp only [Arm.inputsFrom, Arm.access, hchunk, hkind, Arm.immediate_eq h hone, hfrom]
      rfl
    | variadic count =>
      rw [hkind] at hp
      refine ⟨_, ?_, hreads.variadic hkind (hrole.trans hp)⟩
      simp only [Arm.inputsFrom, Arm.access, hchunk, hkind, hfrom]
      rfl

/-- An arm that takes what its instruction takes on the reference machine. -/
structure Takes (V : Type) (i : Instruction) (a : Arm) : Prop where
  instruction : a.instruction = i
  bind : ∀ (w : Wrapper V) (args : List V) (s : State V),
    bind? w args s a = (w.machine args).taken? s.stack s.sp (w.code.drop (s.pc + 1)) i

/-- The position below all that an arm takes. An arm that does not use the stack takes nothing. -/
theorem base?_eq {i : Instruction} (hi : i.WellFormed) {a : Arm}
    (ha : a.taken = .ofInputs {} 0 i.signature.inputs) {counts : List (Nat × Nat)}
    {words : List Int32} (h : Knows counts 0 i.signature.inputs words) (sp : Nat) :
    base? counts sp a = Machine.base? sp words i := by
  obtain ⟨n, hn, hsize⟩ := size?_ofInputs h hi.inputs (show size? counts {} = some 0 from rfl)
  rw [Nat.zero_add, ← ha] at hsize
  simp only [base?, Machine.base?, Signature.popsWith, hn, hsize]
  split
  · rfl
  · rename_i huses
    have hempty : a.taken.isEmpty = true := by
      simp only [Arm.usesStack, Bool.or_eq_true, not_or] at huses
      simpa using huses.1
    simp only [Extent.isEmpty, Bool.and_eq_true, decide_eq_true_eq, List.isEmpty_iff] at hempty
    simp only [size?, hempty] at hsize
    obtain rfl : 0 = n := by simpa using hsize
    simp

theorem exists_stores {d : Descriptor} (hd : d.WellFormed) {i : Instruction} {k : Nat}
    {ps : List Param} (hps : ∀ p ∈ ps, p.isFixed = true) :
    ∃ stores, Arm.storesFrom d i k ps = .ok stores := by
  induction ps generalizing k with
  | nil => exact ⟨[], rfl⟩
  | cons p rest ih =>
    obtain ⟨hp, hrest⟩ := List.forall_mem_cons.mp hps
    obtain ⟨chunk, hchunk⟩ := hd.roles .stack
    obtain ⟨others, hothers⟩ := @ih (k + 1) hrest
    have hstack : p.onStack = true := by
      simp only [Param.isFixed, Bool.and_eq_true] at hp
      simp [Param.onStack, hp]
    exact ⟨chunk.name :: others, by simp [Arm.storesFrom, hstack, hchunk, hothers, Except.map]⟩

/-- Every instruction of a well formed descriptor has an arm. -/
theorem exists_arm {d : Descriptor} (hd : d.WellFormed) {i : Instruction}
    (hi : i ∈ d.instructions) : ∃ a, Arm.ofInstruction d i = .ok a ∧ Takes V i a := by
  have hwf := hd.instructions i hi
  obtain ⟨counts, hcounts, hcountsRead⟩ := @counts_eq i [] _ rfl
  obtain ⟨inputs, hinputs, hread⟩ := @inputs_eq V d i [] _ {} rfl hwf.inputs (hd.inputChunks i hi)
  obtain ⟨stores, hstores⟩ := @exists_stores d hd i 0 _ hwf.outputs
  refine ⟨⟨i, counts, .ofInputs {} 0 i.signature.inputs, inputs,
    if i.isTerminal then [] else stores⟩, ?_, rfl, ?_⟩
  · rw [List.length_nil] at hcounts hinputs
    simp only [Arm.ofInstruction, hcounts, hinputs, hstores]
    by_cases hend : i.isTerminal = true
    · simp only [hend, if_true]
      rfl
    · simp only [hend]
      rfl
  · intro w args s
    simp only [bind?, hcountsRead, List.length_nil, Param.immediatesOf_nil, Nat.add_zero]
    cases hknown : counts? 0 i.signature.inputs (w.code.drop (s.pc + 1)) with
    | none =>
      simp [Machine.taken?, Machine.base?, Signature.popsWith, popsOf_eq_none hknown]
    | some known =>
      have hknows : Knows known 0 i.signature.inputs (w.code.drop (s.pc + 1)) :=
        ⟨[], known, rfl, hknown, by simp⟩
      rw [Option.bind_eq_bind, Option.bind_some, base?_eq hwf rfl hknows, Machine.taken?]
      cases Machine.base? s.sp (w.code.drop (s.pc + 1)) i with
      | none => rfl
      | some base =>
        have hinputsRead := hread w args s known base 0 rfl hknows
        rw [Option.bind_eq_bind, Option.bind_some, Option.bind_some, hinputsRead]
        simp only [Param.immediatesOf_nil, Nat.add_zero]
        cases (w.machine args).operands? s.stack i.signature.inputs (w.code.drop (s.pc + 1)) base
        · rfl
        · simp [Frame.empty, Frame.append]

/-- The instruction that a checked convention names selects what it calls by a word. -/
theorem exists_site {draft : Draft} {d : Descriptor} (h : draft.Built d) {conv : HostCall}
    (hconv : d.hostCall = some conv) : ∃ site, Emission.hostCallSite d conv = .ok site := by
  obtain ⟨i, hi, -, -, hshape⟩ := h.exists_hostCaller hconv
  simp only [Check.isHostShape, Bool.and_eq_true] at hshape
  cases hinputs : i.signature.inputs with
  | nil => simp [hinputs] at hshape
  | cons p rest =>
    have hsite : (p.role = .hostConstants && p.isIndexed) = true := by
      simpa [hinputs] using hshape.1
    have hone : p.immediates = 1 :=
      Param.immediates_of_isIndexed ((Bool.and_eq_true _ _).mp hsite).2
    refine ⟨(i, 1), ?_⟩
    have himm : Arm.immediate i 0 = .ok 1 := @Arm.immediate_eq i [] rest p hinputs hone
    simp only [Emission.hostCallSite, hi, hinputs, List.findIdx?_cons,
      hsite, if_true, himm]
    rfl

/-- There is an engine for every descriptor that a draft builds, with an arm for each instruction at
its opcode. -/
theorem exists_ofDescriptor {draft : Draft} {d : Descriptor} (h : draft.Built d) (D : Domain V) :
    ∃ e, ofDescriptor D d = .ok e ∧ e.domain = D ∧ e.descriptor = d ∧
      List.Forall₂ (Takes V) d.instructions e.arms := by
  obtain ⟨arms, harms, hall⟩ :
      ∃ arms, d.arms = .ok arms ∧ List.Forall₂ (Takes V) d.instructions arms :=
    mapM_ok fun _ hi => exists_arm h.wellFormed hi
  cases hconv : d.hostCall with
  | none =>
    refine ⟨⟨D, d, arms, none⟩, ?_, rfl, rfl, hall⟩
    simp only [ofDescriptor, harms, hconv]
    rfl
  | some conv =>
    obtain ⟨site, hsite⟩ := exists_site h hconv
    refine ⟨⟨D, d, arms, some site⟩, ?_, rfl, rfl, hall⟩
    simp only [ofDescriptor, harms, hconv, Option.mapM_some, hsite]
    rfl

/-- A program for the descriptor is wrapped if its constants convert. -/
theorem wrap_eq_ok {e : Engine V} {p : Program} {cs : List V}
    (hp : p.interpreter = e.descriptor.name) (hcs : p.constants.mapM e.domain.ofHost = .ok cs) :
    e.wrap p = .ok ⟨e, p.nArgs, cs, p.hostConstants, p.code, p.maxStack⟩ := by
  simp only [wrap, hp, hcs, ne_eq, not_true_eq_false, if_false]
  rfl

end Engine
end StackForge
