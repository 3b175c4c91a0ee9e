import Mathlib.Algebra.Ring.Nat
import StackForge.Program
import StackForge.Proofs.Arms
import StackForge.Proofs.StackEffect

/-!
Which word belongs to which input. An input that takes an immediate has its word at a fixed offset
from the opcode. Everything that walks over the inputs of a signature takes words in order instead;
`word?` and `takenBefore` say directly which word an input gets and how many stack elements lie
below its own, and each walk is shown to be the same for every input by itself.
-/
namespace StackForge

namespace Signature

/-- The word that belongs to an input. -/
def word? (sig : Signature) (words : List Int32) (k : Nat) : Option Int32 :=
  (sig.immediateOffset? k).bind fun offset => words[offset - 1]?

/-- The stack elements that an input takes. -/
def takes (sig : Signature) (words : List Int32) (k : Nat) : Nat :=
  (sig.inputs[k]?.map (·.takes (sig.word? words k))).getD 0

/-- The stack elements that the inputs before one take. -/
def takenBefore (sig : Signature) (words : List Int32) (k : Nat) : Nat :=
  ((List.range k).map (sig.takes words)).sum

/-- The words that count the elements of inputs, from the one with number `k` on. -/
def countsOf (sig : Signature) (words : List Int32) (k : Nat) (ps : List Param) : List Int32 :=
  (ps.zipIdx k).filterMap fun (p, k) => if p.isVariadic then sig.word? words k else none

/-- The words that are counts. -/
def counts (sig : Signature) (words : List Int32) : List Int32 := sig.countsOf words 0 sig.inputs

variable {sig : Signature} {words : List Int32} {before after : List Param} {p : Param}

@[simp] theorem countsOf_nil (k : Nat) : sig.countsOf words k [] = [] := rfl

theorem countsOf_of_isVariadic {k : Nat} {w : Int32} (hp : p.isVariadic = true)
    (hw : sig.word? words k = some w) (ps : List Param) :
    sig.countsOf words k (p :: ps) = w :: sig.countsOf words (k + 1) ps := by
  simp [countsOf, List.zipIdx_cons, hp, hw]

theorem countsOf_of_not_isVariadic (k : Nat) (hp : ¬p.isVariadic = true) (ps : List Param) :
    sig.countsOf words k (p :: ps) = sig.countsOf words (k + 1) ps := by
  simp [countsOf, List.zipIdx_cons, hp]

theorem takenBefore_succ (k : Nat) :
    sig.takenBefore words (k + 1) = sig.takenBefore words k + sig.takes words k := by
  simp [takenBefore, List.range_succ]

theorem immediateOffset?_of_split (h : sig.inputs = before ++ p :: after) :
    sig.immediateOffset? before.length
      = if p.immediates = 0 then none else some (1 + Param.immediatesOf before) := by
  simp [immediateOffset?, h]

/-- The word of an input is the first one behind those of the inputs before it. -/
theorem word?_of_split (h : sig.inputs = before ++ p :: after) (hp : p.immediates = 1) :
    sig.word? words before.length = words[Param.immediatesOf before]? := by
  simp [word?, immediateOffset?_of_split h, hp]

theorem takes_of_split (h : sig.inputs = before ++ p :: after) :
    sig.takes words before.length = p.takes (sig.word? words before.length) := by
  simp [takes, h]

theorem split_of_getElem? {k : Nat} (h : sig.inputs[k]? = some p) :
    sig.inputs = sig.inputs.take k ++ p :: sig.inputs.drop (k + 1) ∧
      (sig.inputs.take k).length = k := by
  obtain ⟨hk, rfl⟩ := List.getElem?_eq_some_iff.mp h
  refine ⟨?_, by rw [List.length_take]; omega⟩
  rw [← List.drop_eq_getElem_cons hk, List.take_append_drop]

theorem immediateOffset?_eq_some_iff {k offset : Nat} :
    sig.immediateOffset? k = some offset ↔
      ∃ p, sig.inputs[k]? = some p ∧ p.immediates = 1 ∧
        offset = 1 + Param.immediatesOf (sig.inputs.take k) := by
  unfold immediateOffset?
  cases hp : sig.inputs[k]? with
  | none => simp
  | some p => rcases p.immediates_cases with ⟨-, h⟩ | ⟨-, h⟩ <;> simp [h, eq_comm]

/-- Offsets grow from input to input. -/
theorem immediateOffset?_lt {j k a b : Nat} (hjk : j < k) (ha : sig.immediateOffset? j = some a)
    (hb : sig.immediateOffset? k = some b) : a < b := by
  obtain ⟨p, hp, hone, rfl⟩ := immediateOffset?_eq_some_iff.mp ha
  obtain ⟨q, hq, -, rfl⟩ := immediateOffset?_eq_some_iff.mp hb
  obtain ⟨n, rfl⟩ := Nat.exists_eq_add_of_lt hjk
  obtain ⟨hj, rfl⟩ := List.getElem?_eq_some_iff.mp hp
  have hsplit : sig.inputs.take (j + n + 1)
      = sig.inputs.take j ++ sig.inputs.get ⟨j, hj⟩ :: (sig.inputs.drop (j + 1)).take n := by
    rw [Nat.add_assoc, List.take_add, List.drop_eq_getElem_cons hj]
    rfl
  rw [hsplit, Param.immediatesOf_append, Param.immediatesOf_cons, List.get_eq_getElem, hone]
  omega

/-- No offset is left out. -/
theorem exists_immediateOffset? {ps : List Param} (h : sig.inputs = before ++ ps) {offset : Nat}
    (hlow : Param.immediatesOf before < offset)
    (hhigh : offset ≤ Param.immediatesOf sig.inputs) :
    ∃ k, sig.immediateOffset? k = some offset := by
  induction ps generalizing before with
  | nil =>
    rw [h, List.append_nil] at hhigh
    omega
  | cons p rest ih =>
    have hnext : sig.inputs = (before ++ [p]) ++ rest := by simp [h]
    have hoffset := immediateOffset?_of_split h
    rcases p.immediates_cases with ⟨-, hzero⟩ | ⟨-, hone⟩
    · exact ih hnext (by simpa [hzero] using hlow)
    · by_cases hthis : offset = 1 + Param.immediatesOf before
      · exact ⟨before.length, by rw [hoffset, hthis]; simp [hone]⟩
      · exact ih hnext (by simp [hone]; omega)

theorem exists_immediateOffset?_iff {offset : Nat} :
    (∃ k, sig.immediateOffset? k = some offset) ↔
      1 ≤ offset ∧ offset ≤ Param.immediatesOf sig.inputs := by
  constructor
  · rintro ⟨k, hk⟩
    obtain ⟨p, hp, hone, rfl⟩ := immediateOffset?_eq_some_iff.mp hk
    obtain ⟨hsplit, -⟩ := split_of_getElem? hp
    have hsum := congrArg Param.immediatesOf hsplit
    rw [Param.immediatesOf_append, Param.immediatesOf_cons, hone] at hsum
    omega
  · rintro ⟨hlow, hhigh⟩
    exact @exists_immediateOffset? sig [] sig.inputs rfl offset hlow hhigh

/-- Words that suffice for all inputs hold one for each input that takes one. -/
theorem exists_word (hlen : Param.immediatesOf sig.inputs ≤ words.length) {k offset : Nat}
    (h : sig.immediateOffset? k = some offset) : ∃ w, sig.word? words k = some w := by
  have hbounds := exists_immediateOffset?_iff.mp ⟨k, h⟩
  have hlt : offset - 1 < words.length := by omega
  exact ⟨words.get ⟨offset - 1, hlt⟩, by simp [word?, h]⟩

/-- A word that is there, and the words of the inputs behind it. -/
theorem drop_of_split (h : sig.inputs = before ++ p :: after) (hp : p.immediates = 1)
    (hlen : Param.immediatesOf sig.inputs ≤ words.length) :
    ∃ w, sig.word? words before.length = some w ∧
      words.drop (Param.immediatesOf before)
        = w :: words.drop (Param.immediatesOf (before ++ [p])) := by
  have hlt : Param.immediatesOf before < words.length := by
    rw [h, Param.immediatesOf_append, Param.immediatesOf_cons, hp] at hlen
    omega
  refine ⟨words.get ⟨_, hlt⟩, ?_, ?_⟩
  · rw [word?_of_split h hp, List.getElem?_eq_getElem hlt]
    rfl
  · rw [List.drop_eq_getElem_cons hlt]
    simp [hp]

/-- What inputs take from the stack is there exactly when none of their counts is negative. -/
theorem popsOf_eq_some_iff (hlen : Param.immediatesOf sig.inputs ≤ words.length) {ps : List Param}
    (h : sig.inputs = before ++ ps) {n : Nat} :
    popsOf ps (words.drop (Param.immediatesOf before)) = some n ↔
      (∀ w ∈ sig.countsOf words before.length ps, 0 ≤ w.toInt) ∧
        n = (ps.filter Param.isFixed).length
          + ((sig.countsOf words before.length ps).map (·.toInt.toNat)).sum := by
  induction ps generalizing before n with
  | nil =>
    simp only [popsOf, countsOf_nil, List.filter_nil, List.length_nil, List.map_nil, List.sum_nil,
      Option.some.injEq, List.not_mem_nil, false_imp_iff, implies_true, true_and, Nat.add_zero]
    exact eq_comm
  | cons p rest ih =>
    have hrest := @ih (before ++ [p]) (by simp [h])
    rw [List.length_append, List.length_singleton] at hrest
    by_cases hp : p.isVariadic = true
    · obtain ⟨count, hkind⟩ := Param.isVariadic_iff.mp hp
      have hfixed : ¬p.isFixed = true := by simp [Param.isFixed, hkind]
      obtain ⟨w, hw, hdrop⟩ := drop_of_split h (Param.immediates_of_isVariadic hp) hlen
      have hsign : w < 0 ↔ w.toInt < 0 := Int32.lt_iff_toInt_lt
      rw [countsOf_of_isVariadic hp hw, List.filter_cons_of_neg hfixed, hdrop, popsOf, hkind]
      simp only [hsign, List.forall_mem_cons, List.map_cons, List.sum_cons]
      by_cases hneg : w.toInt < 0
      · simp [hneg, Int.not_le.mpr hneg]
      · rw [if_neg hneg, Option.map_eq_some_iff]
        constructor
        · rintro ⟨others, hothers, rfl⟩
          obtain ⟨hall, rfl⟩ := hrest.mp hothers
          exact ⟨⟨by omega, hall⟩, by omega⟩
        · rintro ⟨⟨-, hall⟩, rfl⟩
          exact ⟨_, hrest.mpr ⟨hall, rfl⟩, by omega⟩
    · have hpops : popsOf (p :: rest) (words.drop (Param.immediatesOf before))
          = (popsOf rest (words.drop (Param.immediatesOf (before ++ [p])))).map
              ((if p.isFixed then 1 else 0) + ·) := by
        cases hkind : p.kind with
        | variadic count => exact absurd (Param.isVariadic_iff.mpr ⟨count, hkind⟩) hp
        | single | indexed index | immediate => simp [popsOf, hkind]
      have hlength : ((p :: rest).filter Param.isFixed).length
          = (if p.isFixed then 1 else 0) + (rest.filter Param.isFixed).length := by
        by_cases hfixed : p.isFixed = true <;> simp [hfixed, Nat.add_comm]
      rw [countsOf_of_not_isVariadic _ hp, hpops, hlength, Option.map_eq_some_iff]
      constructor
      · rintro ⟨others, hothers, rfl⟩
        obtain ⟨hall, rfl⟩ := hrest.mp hothers
        exact ⟨hall, by omega⟩
      · rintro ⟨hall, rfl⟩
        exact ⟨_, hrest.mpr ⟨hall, rfl⟩, by omega⟩

theorem popsWith_eq_some_iff (hlen : Param.immediatesOf sig.inputs ≤ words.length) {n : Nat} :
    sig.popsWith words = some n ↔
      (∀ w ∈ sig.counts words, 0 ≤ w.toInt) ∧
        n = sig.fixedPops + ((sig.counts words).map (·.toInt.toNat)).sum :=
  @popsOf_eq_some_iff sig words [] hlen sig.inputs rfl n

end Signature

namespace Machine

variable {V : Type}

variable {m : Machine V} {sig : Signature} {words : List Int32} {before : List Param}

/-- Binding inputs in a row binds each of them by itself. -/
theorem bind_eq_mapM {ps : List Param} (h : sig.inputs = before ++ ps) (stack : List V)
    (pc base : Nat) (f : Frame V) :
    m.bind stack pc ps (words.drop (Param.immediatesOf before))
        (base + sig.takenBefore words before.length) f
      = ((ps.zipIdx before.length).mapM fun (p, k) =>
          m.operand stack pc p (sig.word? words k) (base + sig.takenBefore words k)).map
            f.append := by
  induction ps generalizing before f with
  | nil => simp [bind, Frame.append, Except.map, pure, Except.pure]
  | cons p rest ih =>
    have hrest := fun f => @ih (before ++ [p]) (by simp [h]) f
    simp only [List.length_append, List.length_singleton, Param.immediatesOf_append,
      Param.immediatesOf_cons, Param.immediatesOf_nil, Nat.add_zero,
      Signature.takenBefore_succ, Signature.takes_of_split h, ← Nat.add_assoc] at hrest
    have hword : m.operand stack pc p (words.drop (Param.immediatesOf before)).head?
          = m.operand stack pc p (sig.word? words before.length) ∧
        p.takes (words.drop (Param.immediatesOf before)).head?
          = p.takes (sig.word? words before.length) := by
      rcases p.immediates_cases with ⟨hkind, -⟩ | ⟨-, hone⟩
      · exact ⟨by funext offset; simp [operand, hkind], by simp [Param.takes, hkind]⟩
      · rw [Signature.word?_of_split h hone, List.head?_drop]
        exact ⟨rfl, rfl⟩
    rw [bind_cons, hword.1, hword.2, List.zipIdx_cons, List.mapM_cons, List.drop_drop]
    simp only [hrest]
    cases m.operand stack pc p (sig.word? words before.length)
        (base + sig.takenBefore words before.length) with
    | error failure => rfl
    | ok o =>
      cases (rest.zipIdx (before.length + 1)).mapM fun x =>
          m.operand stack pc x.1 (sig.word? words x.2) (base + sig.takenBefore words x.2) with
      | error failure => rfl
      | ok os => simp [Bind.bind, Except.bind, Except.map, pure, Except.pure, Frame.append,
          Frame.pushInput]

/-- The stack elements that an input is bound to. -/
def elements (p : Param) (o : Operand V) : List V :=
  match p.kind, o with
  | .single, .value v => [v]
  | .variadic _, .slice items => items
  | _, _ => []

/-- The elements that inputs are bound to are those that they take, in order. -/
theorem Takes.elements_eq {pool : Role → Nat → Option (Operand V)} {ps : List Param}
    {words : List Int32} {os : List (Operand V)} {x : List V} (h : Takes pool ps words os x) :
    (List.zipWith elements ps os).flatten = x := by
  induction h with
  | nil words => rfl
  | single v hp rest ih => simp [elements, hp, ih]
  | variadic items hp hcount rest ih => simp [elements, hp, ih]
  | indexed hp hindex ho rest ih => simp [elements, hp, ih]
  | immediate hp rest ih => simp [elements, hp, ih]

/-- Inputs that are bound take the elements above the base, as many as their signature says. -/
theorem elements_of_bind (hps : ∀ p ∈ sig.inputs, p.Readable) {stack : List V}
    {pc base outputs : Nat} {f : Frame V}
    (h : m.bind stack pc sig.inputs words base (.empty outputs) = .ok f) :
    ∃ n, sig.popsWith words = some n ∧
      (List.zipWith elements sig.inputs f.inputs).flatten = (stack.drop base).take n ∧
      ((List.zipWith elements sig.inputs f.inputs).flatten).length = n := by
  obtain ⟨os, hos, rfl⟩ := bind_eq_ok_iff.mp h
  obtain ⟨x, above, hx, htakes⟩ := exists_takes hos
  have helements : (List.zipWith elements sig.inputs
      ((Frame.empty outputs : Frame V).append os).inputs).flatten = x := htakes.elements_eq
  rw [helements]
  exact ⟨x.length, htakes.popsOf hps, by rw [hx, List.take_left], rfl⟩

end Machine

namespace Assembler

variable {sig : Signature} {words : List Int32} {before : List Param}

/-- Checking words in a row checks the word of each input by itself. -/
theorem immediatesFault?_eq_findSome? (d : Descriptor) (a : Assembler) (i : Instruction)
    (hlen : Param.immediatesOf sig.inputs ≤ words.length) {ps : List Param}
    (h : sig.inputs = before ++ ps) :
    immediatesFault? d a i ps (words.drop (Param.immediatesOf before))
      = (ps.zipIdx before.length).findSome? fun (p, k) =>
          (sig.word? words k).bind (immediateFault? d a i p) := by
  induction ps generalizing before with
  | nil => rfl
  | cons p rest ih =>
    have hrest := @ih (before ++ [p]) (by simp [h])
    rw [List.length_append, List.length_singleton] at hrest
    rw [List.zipIdx_cons, List.findSome?_cons, ← hrest]
    rcases p.immediates_cases with ⟨-, hzero⟩ | ⟨-, hone⟩
    · have hword : sig.word? words before.length = none := by
        simp [Signature.word?, Signature.immediateOffset?_of_split h, hzero]
      simp [immediatesFault?, hword, hzero]
    · obtain ⟨w, hw, hdrop⟩ := Signature.drop_of_split h hone hlen
      simp only [immediatesFault?, hone, hdrop, hw, Option.bind_some]
      cases immediateFault? d a i p w <;> simp

end Assembler

namespace Arm

variable {d : Descriptor} {i : Instruction}

/-- The word, counted from the opcode, that an arm reads for an input. -/
def word? (a : Arm) (k : Nat) : Option Nat :=
  match a.inputs[k]? with
  | some (.selected _ word) | some (.word word) => some word
  | some (.slice _ _ input) => a.counts.lookup input
  | some (.element _ _) | none => none

theorem immediate_eq_ok {k word : Nat} (h : immediate i k = .ok word) :
    i.signature.immediateOffset? k = some word := by
  unfold immediate at h
  split at h
  · rename_i hoffset
    cases h
    exact hoffset
  · cases h

theorem exists_of_map_immediate {α : Type} {k : Nat} {f : Nat → α} {x : α}
    (h : (immediate i k).map f = .ok x) :
    ∃ word, i.signature.immediateOffset? k = some word ∧ f word = x := by
  cases hword : immediate i k with
  | error fault =>
    rw [hword] at h
    cases h
  | ok word =>
    rw [hword] at h
    cases h
    exact ⟨word, immediate_eq_ok hword, rfl⟩

/-- The count of a variadic input is read at its offset. -/
theorem lookup_countsFrom {k : Nat} {ps : List Param} {counts : List (Nat × Nat)}
    (h : countsFrom i k ps = .ok counts) {j : Nat} {p : Param} (hp : ps[j]? = some p)
    (hvariadic : p.isVariadic = true) :
    counts.lookup (k + j) = i.signature.immediateOffset? (k + j) := by
  induction ps generalizing k counts j with
  | nil => cases hp
  | cons q rest ih =>
    unfold countsFrom at h
    split at h
    · obtain ⟨word, hword, h⟩ := bind_eq_ok h
      obtain ⟨others, hothers, h⟩ := bind_eq_ok h
      cases h
      cases j with
      | zero => simp [immediate_eq_ok hword]
      | succ j =>
        have hne : (k + (j + 1) == k) = false := by simp
        rw [List.lookup_cons, hne, ← Nat.add_assoc, Nat.add_right_comm]
        exact ih hothers hp
    · rename_i hq
      cases j with
      | zero =>
        cases hp
        exact absurd hvariadic hq
      | succ j =>
        rw [← Nat.add_assoc, Nat.add_right_comm]
        exact ih h hp

/-- Every input has its access. -/
theorem getElem?_inputsFrom {k : Nat} {below : Extent} {ps : List Param} {inputs : List Access}
    (h : inputsFrom d i k below ps = .ok inputs) (j : Nat) :
    (ps[j]? = none ∧ inputs[j]? = none) ∨
      ∃ p lower found, ps[j]? = some p ∧ inputs[j]? = some found ∧
        access d i (k + j) lower p = .ok found := by
  induction ps generalizing k below inputs j with
  | nil =>
    cases h
    exact .inl ⟨rfl, rfl⟩
  | cons p rest ih =>
    obtain ⟨first, hfirst, h⟩ := bind_eq_ok h
    obtain ⟨others, hothers, h⟩ := bind_eq_ok h
    cases h
    cases j with
    | zero => exact .inr ⟨p, below, first, rfl, rfl, hfirst⟩
    | succ j =>
      rw [← Nat.add_assoc, Nat.add_right_comm]
      exact ih hothers j

/-- What an arm reads for an input is at the input's offset. -/
theorem word?_eq_immediateOffset? {a : Arm} (h : ofInstruction d i = .ok a) (k : Nat) :
    a.word? k = i.signature.immediateOffset? k := by
  obtain ⟨-, hcounts, hinputs⟩ := ofInstruction_eq_ok h
  rcases getElem?_inputsFrom hinputs k with
    ⟨hnone, hmissing⟩ | ⟨p, lower, found, hp, hfound, haccess⟩
  · simp [word?, hmissing, Signature.immediateOffset?, hnone]
  · rw [Nat.zero_add] at haccess
    unfold access at haccess
    split at haccess
    · cases haccess
    · split at haccess
      · rename_i hkind
        cases haccess
        simp [word?, hfound, Signature.immediateOffset?, hp, Param.immediates, hkind]
      · obtain ⟨word, hword, rfl⟩ := exists_of_map_immediate haccess
        simp [word?, hfound, hword]
      · obtain ⟨word, hword, rfl⟩ := exists_of_map_immediate haccess
        simp [word?, hfound, hword]
      · rename_i count hkind
        cases haccess
        have hlookup := lookup_countsFrom hcounts hp (Param.isVariadic_iff.mpr ⟨count, hkind⟩)
        rw [Nat.zero_add] at hlookup
        simp [word?, hfound, hlookup]

end Arm

namespace Check

variable {ctx : Context} {k : Nat} {p : Param}

theorem readable_of_inputFault? (h : inputFault? ctx k p = none) : p.Readable := by
  unfold inputFault? at h
  unfold Param.Readable
  cases hkind : p.kind with
  | immediate => trivial
  | single =>
    simp only [hkind] at h
    split at h
    · assumption
    · cases h
  | variadic count =>
    simp only [hkind] at h
    split at h
    · cases h
    · split at h
      · cases h
      · rename_i hrole
        exact not_not.mp hrole
  | indexed index =>
    simp only [hkind] at h
    split at h
    · cases h
    · split at h
      · cases h
      · rename_i hrole
        cases hr : p.role <;> simp [hr] at hrole ⊢

theorem immediates_of_outputFault? (h : outputFault? ctx k p = none) : p.immediates = 0 := by
  unfold outputFault? at h
  split at h
  · cases h
  · split at h
    · cases h
    · rename_i hkind
      simp [Param.immediates, not_not.mp hkind]

/-- Inputs of a signature that passes the checks can be bound, and its outputs take no
immediates. -/
theorem readable_of_signature {src : Source} {sig : Signature}
    (h : Harmless (signature ctx src sig)) :
    (∀ p ∈ sig.inputs, p.Readable) ∧ sig.immediates = Param.immediatesOf sig.inputs := by
  rw [signature, harmless_append,
    harmless_paramFaults_iff fun _ _ _ => inputFault?_severity,
    harmless_paramFaults_iff fun _ _ _ => outputFault?_severity] at h
  constructor
  · intro p hp
    obtain ⟨k, hk⟩ := List.mem_iff_getElem?.mp hp
    exact readable_of_inputFault? (h.1 k p hk)
  · have hnone : Param.immediatesOf sig.outputs = 0 := by
      refine Param.immediatesOf_eq_zero fun p hp => ?_
      obtain ⟨k, hk⟩ := List.mem_iff_getElem?.mp hp
      exact immediates_of_outputFault? (h.2 k p hk)
    rw [Signature.immediates, Param.immediatesOf_append, hnone, Nat.add_zero]

end Check

/-- All walks over the inputs of a checked signature give the same word to the same input. Offsets
grow with the inputs and leave none out. The machine binds every input by the word at its offset,
the assembler checks that word, a generated arm reads it, and what the instruction pops is the
number of its fixed inputs and all its counts, if none of them is negative. Inputs that are bound
take exactly so many stack elements, from the base on. -/
theorem immediates_assigned_alike (ctx : Check.Context) (src : Source) (sig : Signature)
    (hsig : Harmless (Check.signature ctx src sig)) (words : List Int32)
    (hlen : words.length = sig.immediates) :
    (∀ j k a b, j < k → sig.immediateOffset? j = some a → sig.immediateOffset? k = some b → a < b) ∧
    (∀ offset, (∃ k, sig.immediateOffset? k = some offset) ↔
      1 ≤ offset ∧ offset ≤ Param.immediatesOf sig.inputs) ∧
    (∀ k offset, sig.immediateOffset? k = some offset →
      ∃ w, words[offset - 1]? = some w ∧ sig.word? words k = some w) ∧
    (∀ (V : Type) (m : Machine V) (stack : List V) (pc base : Nat) (f : Frame V),
      m.bind stack pc sig.inputs words base f
        = (sig.inputs.zipIdx.mapM fun (p, k) => m.operand stack pc p (sig.word? words k)
            (base + sig.takenBefore words k)).map f.append) ∧
    (∀ (d : Descriptor) (a : Assembler) (i : Instruction),
      Assembler.immediatesFault? d a i sig.inputs words
        = sig.inputs.zipIdx.findSome? fun (p, k) =>
            (sig.word? words k).bind (Assembler.immediateFault? d a i p)) ∧
    (∀ (d : Descriptor) (i : Instruction) (a : Arm), i.signature = sig →
      Arm.ofInstruction d i = .ok a → ∀ k, a.word? k = sig.immediateOffset? k) ∧
    (∀ n, sig.popsWith words = some n ↔
      (∀ w ∈ sig.counts words, 0 ≤ w.toInt) ∧
        n = sig.fixedPops + ((sig.counts words).map (·.toInt.toNat)).sum) ∧
    ∀ (V : Type) (m : Machine V) (stack : List V) (pc base outputs : Nat) (f : Frame V),
      m.bind stack pc sig.inputs words base (.empty outputs) = .ok f →
      ∃ n, sig.popsWith words = some n ∧
        (List.zipWith Machine.elements sig.inputs f.inputs).flatten = (stack.drop base).take n ∧
        ((List.zipWith Machine.elements sig.inputs f.inputs).flatten).length = n := by
  obtain ⟨hreadable, himmediates⟩ := Check.readable_of_signature hsig
  have hwords : Param.immediatesOf sig.inputs ≤ words.length := by omega
  refine ⟨fun _ _ _ _ => Signature.immediateOffset?_lt,
    fun _ => Signature.exists_immediateOffset?_iff, ?_, ?_, ?_, ?_,
    fun _ => Signature.popsWith_eq_some_iff hwords,
    fun _ _ _ _ _ _ _ => Machine.elements_of_bind hreadable⟩
  · intro k offset hoffset
    obtain ⟨w, hw⟩ := Signature.exists_word hwords hoffset
    exact ⟨w, by simpa [Signature.word?, hoffset] using hw, hw⟩
  · intro V m stack pc base f
    exact Machine.bind_eq_mapM (show sig.inputs = [] ++ sig.inputs from rfl) stack pc base f
  · intro d a i
    exact Assembler.immediatesFault?_eq_findSome? d a i hwords
      (show sig.inputs = [] ++ sig.inputs from rfl)
  · rintro d i a rfl harm k
    exact Arm.word?_eq_immediateOffset? harm k

/-- A fixed input, a constant, and two counted inputs with a plain immediate between them. -/
def mixedSignature : Signature :=
  let param (chunk : String) (role : Role) (kind : ParamKind) : Param :=
    ⟨chunk, role, kind, Span.point 1 1⟩
  { inputs :=
      [param "stack" .stack .single, param "constants" .constants (.indexed "code"),
       param "stack" .stack (.variadic "code"), param "code" .code .immediate,
       param "stack" .stack (.variadic "code")]
    outputs := [param "stack" .stack .single]
    hasArrow := true }

/-- Only the words of counted inputs are counts; the negative one is not. -/
theorem immediates_assigned_alike_mixed :
    ∃ (ctx : Check.Context) (src : Source),
      Harmless (Check.signature ctx src mixedSignature) ∧
      [3, 2, -7, 1].length = mixedSignature.immediates ∧
      (List.range 5).map mixedSignature.immediateOffset?
        = [none, some 1, some 2, some 3, some 4] ∧
      mixedSignature.popsWith [3, 2, -7, 1] = some 4 ∧
      ∀ m : Machine Nat, m.constants = [10, 11, 12, 13] →
        ∃ f, m.bind [20, 21, 22, 23, 24, 25] 0 mixedSignature.inputs [3, 2, -7, 1] 1 (.empty 1)
            = .ok f ∧
          (List.zipWith Machine.elements mixedSignature.inputs f.inputs).flatten
            = [21, 22, 23, 24] := by
  have hsig : Check.signature
      (.make .double [⟨"code", .code, .code⟩, ⟨"stack", .stack, .double⟩] [] none) ⟨"", ""⟩
        mixedSignature = [] := by decide
  have hharmless := harmless_nil
  rw [← hsig] at hharmless
  obtain ⟨-, -, -, -, -, -, hpops, htake⟩ :=
    immediates_assigned_alike _ _ mixedSignature hharmless [3, 2, -7, 1] rfl
  have hcounts : mixedSignature.counts [3, 2, -7, 1] = [2, 1] := by decide
  have hfour : mixedSignature.popsWith [3, 2, -7, 1] = some 4 :=
    (hpops 4).mpr ⟨by simp [hcounts], by rw [hcounts]; decide⟩
  refine ⟨_, _, hharmless, rfl, by decide, hfour, ?_⟩
  intro m hconstants
  have hbind : m.bind [20, 21, 22, 23, 24, 25] 0 mixedSignature.inputs [3, 2, -7, 1] 1 (.empty 1)
      = .ok ((Frame.empty 1).append
          [.value 21, .value 13, .slice [22, 23], .word (-7), .slice [24]]) := by
    refine Machine.bind_eq_ok_iff.mpr ⟨_, ?_, rfl⟩
    simp [mixedSignature, Machine.operands?, Machine.indexed?, Engine.index?, hconstants, slice?]
  obtain ⟨n, hn, helements, -⟩ := htake Nat m _ 0 1 1 _ hbind
  rw [hfour, Option.some.injEq] at hn
  exact ⟨_, hbind, by rw [helements, ← hn]; rfl⟩

end StackForge
