import Mathlib.Data.List.Forall2
import StackForge.Engine
import StackForge.Proofs.WellFormed

/-!
The reference machine in equations. A program whose values convert can be loaded. An instruction
takes what `Machine.taken?` reads straight from the code behind its opcode, and its body is run on
that; where it is nothing, malformed bytecode is reported.
-/
namespace StackForge

theorem mapM_ok {α β ε : Type} {f : α → Except ε β} {P : α → β → Prop} {xs : List α}
    (h : ∀ x ∈ xs, ∃ y, f x = .ok y ∧ P x y) :
    ∃ ys, xs.mapM f = .ok ys ∧ List.Forall₂ P xs ys := by
  induction xs with
  | nil => exact ⟨[], rfl, .nil⟩
  | cons x rest ih =>
    obtain ⟨⟨y, hy, hxy⟩, hrest⟩ := List.forall_mem_cons.mp h
    obtain ⟨ys, hys, hall⟩ := ih hrest
    refine ⟨y :: ys, ?_, .cons hxy hall⟩
    rw [List.mapM_cons, hy, hys]
    rfl

/-- A value of the host that has a counterpart in the domain. -/
def Domain.Converts {V : Type} (D : Domain V) (v : Host.Value) : Prop := ∃ x, D.ofHost v = .ok x

instance {V : Type} (D : Domain V) (v : Host.Value) : Decidable (D.Converts v) :=
  match h : D.ofHost v with
  | .ok x => isTrue ⟨x, h⟩
  | .error _ => isFalse fun ⟨_, hx⟩ => by rw [h] at hx; cases hx

theorem Domain.mapM_ofHost {V : Type} {D : Domain V} {vs : List Host.Value}
    (h : ∀ v ∈ vs, D.Converts v) : ∃ xs, vs.mapM D.ofHost = .ok xs ∧ xs.length = vs.length := by
  obtain ⟨xs, hxs, hall⟩ := mapM_ok (P := fun _ _ => True) (f := D.ofHost)
    fun v hv => (h v hv).imp fun _ hx => ⟨hx, trivial⟩
  exact ⟨xs, hxs, hall.length_eq.symm⟩

/-- A program for the descriptor can be loaded if all its values convert. -/
theorem Machine.load_eq_ok {V : Type} {D : Domain V} {d : Descriptor} {p : Program}
    {args : List Host.Value} (hp : p.interpreter = d.name) (hcount : args.length = p.nArgs)
    (hargs : ∀ v ∈ args, D.Converts v) (hconstants : ∀ v ∈ p.constants, D.Converts v) :
    ∃ xs cs, Machine.load D d p args = .ok ⟨D, d, p.code, xs, cs, p.hostConstants, p.maxStack⟩ ∧
      args.mapM D.ofHost = .ok xs ∧ p.constants.mapM D.ofHost = .ok cs ∧
      xs.length = args.length ∧ cs.length = p.constants.length := by
  obtain ⟨xs, hxs, hxlen⟩ := D.mapM_ofHost hargs
  obtain ⟨cs, hcs, hclen⟩ := D.mapM_ofHost hconstants
  refine ⟨xs, cs, ?_, hxs, hcs, hxlen, hclen⟩
  simp only [Machine.load, hp, hcount, hxs, hcs, ne_eq, not_true_eq_false, if_false]
  rfl

/-- A result that is there exactly if an option is; without one, malformed bytecode is reported. -/
def Reports {α : Type} (pc : Nat) (x : Except Failure α) : Option α → Prop
  | some a => x = .ok a
  | none => ∃ message, x = Machine.bad pc message

namespace Reports

variable {α β : Type} {pc : Nat} {x : Except Failure α} {o : Option α}

theorem map (h : Reports pc x o) (g : α → β) : Reports pc (x.map g) (o.map g) := by
  cases o with
  | some a =>
    cases h
    rfl
  | none =>
    obtain ⟨message, rfl⟩ := h
    exact ⟨message, rfl⟩

theorem bind (h : Reports pc x o) {g : α → Except Failure β} {k : α → Option β}
    (hg : ∀ a, Reports pc (g a) (k a)) : Reports pc (x >>= g) (o.bind k) := by
  cases o with
  | some a =>
    cases h
    exact hg a
  | none =>
    obtain ⟨message, rfl⟩ := h
    exact ⟨message, rfl⟩

end Reports

theorem Param.immediates_cases (p : Param) :
    (p.kind = .single ∧ p.immediates = 0) ∨ (p.kind ≠ .single ∧ p.immediates = 1) := by
  cases hkind : p.kind <;> simp [immediates, hkind]

theorem Param.immediates_le (p : Param) : p.immediates ≤ 1 := by
  rcases p.immediates_cases with ⟨-, h⟩ | ⟨-, h⟩ <;> omega

/-- The stack elements that an input takes with its word. -/
def Param.takes (p : Param) (word : Option Int32) : Nat :=
  match p.kind with
  | .single => 1
  | .variadic _ => (word.map (·.toInt.toNat)).getD 0
  | .indexed _ | .immediate => 0

/-- More inputs of a frame. -/
def Frame.append {V : Type} (f : Frame V) (os : List (Operand V)) : Frame V :=
  { f with inputs := f.inputs ++ os }

namespace Machine

variable {V : Type} (m : Machine V)

/-- The operands that inputs read. Immediates are taken in order from the words and stack elements
from `offset` on. -/
def operands? (stack : List V) : List Param → List Int32 → Nat → Option (List (Operand V))
  | [], _, _ => some []
  | p :: rest, words, offset =>
    match p.kind, words with
    | .single, words => do
      let v ← stack[offset]?
      let others ← operands? stack rest words (offset + 1)
      return .value v :: others
    | .indexed _, w :: words => do
      let index ← Engine.index? w
      let operand ← m.indexed? p.role index
      let others ← operands? stack rest words offset
      return operand :: others
    | .immediate, w :: words => do
      let others ← operands? stack rest words offset
      return .word w :: others
    | .variadic _, w :: words => do
      let count ← Engine.index? w
      let items ← slice? stack offset count
      let others ← operands? stack rest words (offset + count)
      return .slice items :: others
    | _, [] => none

variable {m} {stack : List V} {pc : Nat}

/-- What one input is bound to, by its word and the position of its elements. -/
def operand (m : Machine V) (stack : List V) (pc : Nat) (p : Param) (word : Option Int32)
    (offset : Nat) : Except Failure (Operand V) :=
  match p.kind, word with
  | .single, _ =>
    match stack[offset]? with
    | some v => .ok (.value v)
    | none => bad pc "stack read out of range"
  | .indexed _, some w =>
    match if w < 0 then none else m.indexed? p.role w.toInt.toNat with
    | some o => .ok o
    | none => bad pc s!"{p.role.text} index {w.toInt} out of range"
  | .immediate, some w => .ok (.word w)
  | .variadic _, some w =>
    if w < 0 then bad pc "negative operand count"
    else
      match slice? stack offset w.toInt.toNat with
      | some items => .ok (.slice items)
      | none => bad pc "stack read out of range"
  | _, none => bad pc "missing immediate"

/-- What one input reads. -/
def operand? (m : Machine V) (stack : List V) (p : Param) (word : Option Int32) (offset : Nat) :
    Option (Operand V) :=
  match p.kind, word with
  | .single, _ => stack[offset]?.map .value
  | .indexed _, some w => (Engine.index? w).bind (m.indexed? p.role)
  | .immediate, some w => some (.word w)
  | .variadic _, some w => (Engine.index? w).bind fun n => (slice? stack offset n).map .slice
  | _, none => none

/-- The first input is bound by the first word, and the others go on behind what it takes. -/
theorem bind_cons (stack : List V) (pc : Nat) (p : Param) (rest : List Param) (words : List Int32)
    (offset : Nat) (f : Frame V) :
    m.bind stack pc (p :: rest) words offset f
      = (m.operand stack pc p words.head? offset >>= fun o =>
          m.bind stack pc rest (words.drop p.immediates) (offset + p.takes words.head?)
            (f.pushInput o)) := by
  cases hkind : p.kind with
  | single =>
    simp only [bind, operand, hkind, Param.immediates, Param.takes]
    cases stack[offset]? <;> rfl
  | indexed index =>
    cases words with
    | nil => simp [bind, operand, hkind, Bind.bind, Except.bind, bad]
    | cons w words =>
      simp only [bind, operand, hkind, Param.immediates, Param.takes, List.head?_cons]
      cases (if w < 0 then none else m.indexed? p.role w.toInt.toNat) <;> rfl
  | immediate =>
    cases words with
    | nil => simp [bind, operand, hkind, Bind.bind, Except.bind, bad]
    | cons w words =>
      simp only [bind, operand, hkind, Param.immediates, Param.takes, List.head?_cons]
      rfl
  | variadic count =>
    cases words with
    | nil => simp [bind, operand, hkind, Bind.bind, Except.bind, bad]
    | cons w words =>
      simp only [bind, operand, hkind, Param.immediates, Param.takes, List.head?_cons]
      by_cases hw : w < 0
      · simp only [if_pos hw]
        rfl
      · simp only [if_neg hw]
        cases slice? stack offset w.toInt.toNat <;> rfl

/-- The first input reads its operand by the first word, and the others go on behind what it
takes. -/
theorem operands?_cons (stack : List V) (p : Param) (rest : List Param) (words : List Int32)
    (offset : Nat) :
    m.operands? stack (p :: rest) words offset
      = (m.operand? stack p words.head? offset).bind fun o =>
          (m.operands? stack rest (words.drop p.immediates) (offset + p.takes words.head?)).bind
            fun others => some (o :: others) := by
  cases hkind : p.kind with
  | single =>
    simp only [operands?, operand?, hkind, Param.immediates, Param.takes]
    cases stack[offset]? <;> rfl
  | indexed index =>
    cases words with
    | nil => simp [operands?, operand?, hkind]
    | cons w words =>
      simp only [operands?, operand?, hkind, Param.immediates, Param.takes, List.head?_cons]
      cases Engine.index? w with
      | none => rfl
      | some k =>
        simp only [Option.bind_eq_bind, Option.bind_some]
        cases m.indexed? p.role k <;> rfl
  | immediate =>
    cases words with
    | nil => simp [operands?, operand?, hkind]
    | cons w words =>
      simp only [operands?, operand?, hkind, Param.immediates, Param.takes, List.head?_cons]
      rfl
  | variadic count =>
    cases words with
    | nil => simp [operands?, operand?, hkind]
    | cons w words =>
      simp only [operands?, operand?, hkind, Param.immediates, Param.takes, List.head?_cons,
        Option.map_some, Option.getD_some, Engine.index?]
      by_cases hw : w < 0
      · simp [if_pos hw]
      · simp only [if_neg hw, Option.bind_eq_bind, Option.bind_some]
        cases slice? stack offset w.toInt.toNat <;> rfl

theorem operands?_cons_eq_some_iff {stack : List V} {p : Param} {rest : List Param}
    {words : List Int32} {offset : Nat} {os : List (Operand V)} :
    m.operands? stack (p :: rest) words offset = some os ↔
      ∃ o others, m.operand? stack p words.head? offset = some o ∧
        m.operands? stack rest (words.drop p.immediates) (offset + p.takes words.head?)
          = some others ∧ o :: others = os := by
  simp only [operands?_cons, Option.bind_eq_some_iff, Option.some.injEq, exists_and_left]

/-- Binding an input gives the operand that it reads. -/
theorem reports_operand (p : Param) (word : Option Int32) (offset : Nat) :
    Reports pc (m.operand stack pc p word offset) (m.operand? stack p word offset) := by
  cases hkind : p.kind with
  | single =>
    simp only [operand, operand?, hkind]
    cases stack[offset]? with
    | none => exact ⟨_, rfl⟩
    | some v => rfl
  | indexed index =>
    cases word with
    | none => simpa [operand, operand?, hkind] using ⟨_, rfl⟩
    | some w =>
      simp only [operand, operand?, hkind, Engine.index?]
      by_cases hw : w < 0
      · simp only [if_pos hw]
        exact ⟨_, rfl⟩
      · simp only [if_neg hw, Option.bind_some]
        cases m.indexed? p.role w.toInt.toNat with
        | none => exact ⟨_, rfl⟩
        | some o => rfl
  | immediate =>
    cases word with
    | none => simpa [operand, operand?, hkind] using ⟨_, rfl⟩
    | some w => simp [operand, operand?, hkind, Reports]
  | variadic count =>
    cases word with
    | none => simpa [operand, operand?, hkind] using ⟨_, rfl⟩
    | some w =>
      simp only [operand, operand?, hkind, Engine.index?]
      by_cases hw : w < 0
      · simp only [if_pos hw]
        exact ⟨_, rfl⟩
      · simp only [if_neg hw, Option.bind_some]
        cases slice? stack offset w.toInt.toNat with
        | none => exact ⟨_, rfl⟩
        | some items => rfl

/-- Binding inputs gives the operands that they read. -/
theorem reports_bind (ps : List Param) (words : List Int32) (offset : Nat) (f : Frame V) :
    Reports pc (m.bind stack pc ps words offset f)
      ((m.operands? stack ps words offset).map f.append) := by
  induction ps generalizing words offset f with
  | nil => simp [bind, operands?, Reports, Frame.append]
  | cons p rest ih =>
    rw [bind_cons, operands?_cons, Option.map_bind]
    refine (reports_operand p words.head? offset).bind fun o => ?_
    have hrest := ih (words.drop p.immediates) (offset + p.takes words.head?) (f.pushInput o)
    cases hos : m.operands? stack rest (words.drop p.immediates)
        (offset + p.takes words.head?) with
    | none => simpa [hos] using hrest
    | some os => simpa [hos, Frame.append, Frame.pushInput] using hrest

/-- Inputs are bound exactly if they all read an operand. -/
theorem bind_eq_ok_iff {ps : List Param} {words : List Int32} {offset : Nat} {f f' : Frame V} :
    m.bind stack pc ps words offset f = .ok f' ↔
      ∃ os, m.operands? stack ps words offset = some os ∧ f' = f.append os := by
  have hreports := @reports_bind V m stack pc ps words offset f
  cases hos : m.operands? stack ps words offset with
  | none =>
    rw [hos] at hreports
    obtain ⟨message, hbad⟩ := hreports
    simp [hbad, bad]
  | some os =>
    rw [hos] at hreports
    have hok : m.bind stack pc ps words offset f = .ok (f.append os) := hreports
    simp [hok, eq_comm]

/-- Inputs look at their own immediates only. -/
theorem operands?_append (ps : List Param) {words : List Int32} (more : List Int32) (offset : Nat)
    (hlen : Param.immediatesOf ps ≤ words.length) :
    m.operands? stack ps (words ++ more) offset = m.operands? stack ps words offset := by
  induction ps generalizing words offset with
  | nil => rfl
  | cons p rest ih =>
    rw [Param.immediatesOf_cons] at hlen
    rw [operands?_cons, operands?_cons]
    rcases p.immediates_cases with ⟨hkind, hzero⟩ | ⟨-, hone⟩
    · -- an input without an immediate reads the same whatever the first word is
      simp only [operand?, Param.takes, hkind, hzero, List.drop_zero]
      rw [ih _ (by omega)]
    · cases words with
      | nil => exact absurd hlen (by rw [List.length_nil]; omega)
      | cons w words =>
        rw [List.length_cons] at hlen
        simp only [List.cons_append, List.head?_cons, hone, List.drop_succ_cons, List.drop_zero]
        rw [ih _ (by omega)]

/-- An input that reads its operand has its immediate. -/
theorem immediates_le_of_operand? {p : Param} {words : List Int32} {offset : Nat} {o : Operand V}
    (h : m.operand? stack p words.head? offset = some o) : p.immediates ≤ words.length := by
  cases words with
  | nil =>
    cases hkind : p.kind with
    | single => simp [Param.immediates, hkind]
    | indexed | immediate | variadic => simp [operand?, hkind] at h
  | cons w words =>
    have hone : p.immediates ≤ 1 := p.immediates_le
    rw [List.length_cons]
    omega

/-- Inputs that read their operands have all their immediates. -/
theorem immediatesOf_le_of_operands? {ps : List Param} {words : List Int32} {offset : Nat}
    {os : List (Operand V)} (h : m.operands? stack ps words offset = some os) :
    Param.immediatesOf ps ≤ words.length := by
  induction ps generalizing words offset os with
  | nil => simp
  | cons p rest ih =>
    obtain ⟨o, others, ho, hothers, -⟩ := operands?_cons_eq_some_iff.mp h
    have hfirst := immediates_le_of_operand? ho
    have hrest := ih hothers
    rw [List.length_drop] at hrest
    rw [Param.immediatesOf_cons]
    omega

theorem popsOf_append (ps : List Param) {words : List Int32} (more : List Int32)
    (hlen : Param.immediatesOf ps ≤ words.length) :
    Signature.popsOf ps (words ++ more) = Signature.popsOf ps words := by
  induction ps generalizing words with
  | nil => rfl
  | cons p rest ih =>
    rw [Param.immediatesOf_cons] at hlen
    cases hkind : p.kind with
    | variadic count =>
      have hone : p.immediates = 1 := by simp [Param.immediates, hkind]
      cases words with
      | nil => exact absurd hlen (by rw [List.length_nil]; omega)
      | cons w words =>
        rw [List.length_cons] at hlen
        simp only [Signature.popsOf, hkind, List.cons_append]
        rw [ih (by omega)]
    | single | indexed index | immediate =>
      simp only [Signature.popsOf, hkind]
      rw [List.drop_append_of_le_length (by omega), ih (by rw [List.length_drop]; omega)]

/-- The stack pointer below all that an instruction takes. The words are all those behind its
opcode. -/
def base? (sp : Nat) (words : List Int32) (i : Instruction) : Option Nat :=
  (i.signature.popsWith words).bind fun n => if n ≤ sp then some (sp - n) else none

/-- What an instruction takes from a stack: the stack pointer below it, and the frame for its
body. -/
def taken? (m : Machine V) (stack : List V) (sp : Nat) (words : List Int32) (i : Instruction) :
    Option (Nat × Frame V) :=
  (base? sp words i).bind fun base =>
    ((m.operands? stack i.signature.inputs words base).map
      (Frame.empty i.signature.outputs.length).append).map (base, ·)

theorem reports_base (pc sp : Nat) (words : List Int32) (i : Instruction) :
    Reports pc (base pc sp ⟨i, words⟩) (base? sp words i) := by
  simp only [base, base?]
  cases i.signature.popsWith words with
  | none => exact ⟨_, rfl⟩
  | some n =>
    dsimp only [Option.bind_some]
    split
    · rfl
    · exact ⟨_, rfl⟩

theorem drop_of_slice? {α : Type} {xs ys : List α} {start count : Nat}
    (h : slice? xs start count = some ys) : xs.drop start = ys ++ xs.drop (start + count) := by
  unfold slice? at h
  split at h
  · cases h
    rw [← List.drop_drop, List.take_append_drop]
  · cases h

theorem length_of_slice?_eq_none {α : Type} {xs : List α} {start count : Nat}
    (h : slice? xs start count = none) : xs.length < start + count := by
  unfold slice? at h
  split at h
  · cases h
  · rename_i hlen
    rw [hasLength_iff] at hlen
    omega

theorem dispatch_of_decode {s : Execution V} {i : Instruction} {words : List Int32}
    (h : m.decode s.pc = .ok ⟨i, words⟩) :
    m.dispatch s = (base s.pc s.sp ⟨i, words⟩ >>= fun base =>
        (m.bind s.stack s.pc i.signature.inputs words base
          (.empty i.signature.outputs.length)).map (base, ·)) >>= fun t =>
      ((m.context i).runBody t.2 i.body).map (⟨i, t.1, ·⟩) := by
  unfold dispatch
  rw [h]
  change (base s.pc s.sp ⟨i, words⟩ >>= _) = _
  cases base s.pc s.sp ⟨i, words⟩ with
  | error f => rfl
  | ok b =>
    change (m.bind s.stack s.pc i.signature.inputs words b (.empty _) >>= _)
      = ((m.bind s.stack s.pc i.signature.inputs words b (.empty _)).map (b, ·) >>= _)
    cases m.bind s.stack s.pc i.signature.inputs words b (.empty i.signature.outputs.length) with
    | error f => rfl
    | ok f => rfl

/-- The words of an instruction are enough to see what it takes. -/
theorem taken?_append {i : Instruction} {words : List Int32} (stack : List V) (sp : Nat)
    (more : List Int32) (hlen : Param.immediatesOf i.signature.inputs ≤ words.length) :
    m.taken? stack sp (words ++ more) i = m.taken? stack sp words i := by
  simp only [taken?, base?, Signature.popsWith, popsOf_append _ _ hlen, operands?_append _ _ _ hlen]

/-- An instruction that is cut off takes nothing. -/
theorem taken?_eq_none {i : Instruction} {words : List Int32} (stack : List V) (sp : Nat)
    (hlen : words.length < Param.immediatesOf i.signature.inputs) :
    m.taken? stack sp words i = none := by
  have hnone : ∀ offset, m.operands? stack i.signature.inputs words offset = none := by
    intro offset
    cases hos : m.operands? stack i.signature.inputs words offset with
    | none => rfl
    | some os => exact absurd (immediatesOf_le_of_operands? hos) (Nat.not_le.mpr hlen)
  simp [taken?, hnone]

/-- The next instruction runs its body on what it takes. -/
theorem dispatch_eq {s : Execution V} {op : Int32} {i : Instruction} (hi : i.WellFormed)
    (hop : m.code[s.pc]? = some op) (hfind : m.descriptor.byOpcode? op = some i) :
    match m.taken? s.stack s.sp (m.code.drop (s.pc + 1)) i with
    | none => ∃ message, m.dispatch s = bad s.pc message
    | some (base, frame) =>
      m.dispatch s = ((m.context i).runBody frame i.body).map (⟨i, base, ·⟩) := by
  have himm : i.width - 1 = Param.immediatesOf i.signature.inputs := by
    rw [← hi.immediates_eq, Instruction.width, Signature.width]
    omega
  cases hslice : slice? m.code (s.pc + 1) (i.width - 1) with
  | none =>
    have hshort := length_of_slice?_eq_none hslice
    have hpos : s.pc < m.code.length := (List.getElem?_eq_some_iff.mp hop).1
    rw [taken?_eq_none s.stack s.sp (by rw [List.length_drop]; omega)]
    simp only [dispatch, decode, hop, hfind, hslice]
    exact ⟨_, rfl⟩
  | some words =>
    have hlen : Param.immediatesOf i.signature.inputs ≤ words.length := by
      have hwords := length_of_slice? hslice
      omega
    have hdecode : m.decode s.pc = .ok ⟨i, words⟩ := by
      simp only [decode, hop, hfind, hslice]
    have htake : Reports s.pc _ (m.taken? s.stack s.sp words i) :=
      (reports_base s.pc s.sp words i).bind fun base =>
        (reports_bind i.signature.inputs words base _).map (base, ·)
    rw [drop_of_slice? hslice, taken?_append _ _ _ hlen, dispatch_of_decode hdecode]
    cases htaken : m.taken? s.stack s.sp words i with
    | none =>
      rw [htaken] at htake
      obtain ⟨message, hmessage⟩ := htake
      exact ⟨message, by rw [hmessage]; rfl⟩
    | some t =>
      rw [htaken] at htake
      rw [htake]
      rfl

end Machine
end StackForge
