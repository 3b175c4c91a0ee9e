import StackForge.Catalog
import StackForge.Proofs.Bounds
import StackForge.Proofs.Checking

/-!
The stack effect of an instruction. `Takes` says which operands inputs are bound to when they take
some elements of the stack, without any position on it. An instruction of a checked descriptor that
is carried out replaces exactly these elements, on top of the stack, by the outputs of its body;
whatever lies below them stays and does not matter.
-/
namespace StackForge
namespace Machine

variable {V : Type}

/-- `Takes pool ps words os x`: with the immediates `words`, the inputs `ps` are bound to `os` and
take the stack elements `x`, in order from the bottom. Elements of pools come from `pool`. -/
inductive Takes (pool : Role → Nat → Option (Operand V)) :
    List Param → List Int32 → List (Operand V) → List V → Prop where
  | nil (words : List Int32) : Takes pool [] words [] []
  | single {p : Param} {ps : List Param} {words : List Int32} {os : List (Operand V)} {x : List V}
      (v : V) (hp : p.kind = .single) (rest : Takes pool ps words os x) :
      Takes pool (p :: ps) words (.value v :: os) (v :: x)
  | variadic {p : Param} {ps : List Param} {w : Int32} {words : List Int32}
      {os : List (Operand V)} {x : List V} {count : String} (items : List V)
      (hp : p.kind = .variadic count) (hcount : w.toInt = items.length)
      (rest : Takes pool ps words os x) :
      Takes pool (p :: ps) (w :: words) (.slice items :: os) (items ++ x)
  | indexed {p : Param} {ps : List Param} {w : Int32} {words : List Int32}
      {os : List (Operand V)} {x : List V} {index : String} {k : Nat} {o : Operand V}
      (hp : p.kind = .indexed index) (hindex : w.toInt = k) (ho : pool p.role k = some o)
      (rest : Takes pool ps words os x) : Takes pool (p :: ps) (w :: words) (o :: os) x
  | immediate {p : Param} {ps : List Param} {w : Int32} {words : List Int32}
      {os : List (Operand V)} {x : List V} (hp : p.kind = .immediate)
      (rest : Takes pool ps words os x) : Takes pool (p :: ps) (w :: words) (.word w :: os) x

/-- A word is an index exactly if it is not negative. -/
theorem index?_eq_some_iff {w : Int32} {k : Nat} : Engine.index? w = some k ↔ w.toInt = k := by
  have hneg : w < 0 ↔ w.toInt < 0 := Int32.lt_iff_toInt_lt
  unfold Engine.index?
  by_cases hw : w < 0
  · rw [if_pos hw]
    rw [hneg] at hw
    constructor
    · rintro ⟨⟩
    · omega
  · rw [if_neg hw, Option.some.injEq]
    rw [hneg] at hw
    omega

namespace Takes

variable {pool : Role → Nat → Option (Operand V)} {ps : List Param} {words : List Int32}
  {os : List (Operand V)} {x : List V}

/-- Inputs that can be bound take as many elements as their signature says. -/
theorem popsOf (h : Takes pool ps words os x) (hps : ∀ p ∈ ps, p.Readable) :
    Signature.popsOf ps words = some x.length := by
  induction h with
  | nil words => rfl
  | @single p ps words os x v hp rest ih =>
    obtain ⟨hread, hrest⟩ := List.forall_mem_cons.mp hps
    have hrole : p.role = .stack := by simpa [Param.Readable, hp] using hread
    have hzero : p.immediates = 0 := by simp [Param.immediates, hp]
    simp only [Signature.popsOf, hp, hzero, List.drop_zero, ih hrest, Option.map_some]
    simp [Param.isFixed, hrole, hp, Nat.add_comm]
  | @variadic p ps w words os x count items hp hcount rest ih =>
    obtain ⟨-, hrest⟩ := List.forall_mem_cons.mp hps
    simp only [Signature.popsOf, hp, if_neg (not_neg_of_toInt hcount), ih hrest, Option.map_some,
      hcount, Int.toNat_natCast, List.length_append]
  | @indexed p ps w words os x index k o hp hindex ho rest ih =>
    obtain ⟨-, hrest⟩ := List.forall_mem_cons.mp hps
    have hone : p.immediates = 1 := by simp [Param.immediates, hp]
    simp only [Signature.popsOf, hp, hone, List.drop_succ_cons, List.drop_zero, ih hrest,
      Option.map_some]
    simp [Param.isFixed, hp]
  | @immediate p ps w words os x hp rest ih =>
    obtain ⟨-, hrest⟩ := List.forall_mem_cons.mp hps
    have hone : p.immediates = 1 := by simp [Param.immediates, hp]
    simp only [Signature.popsOf, hp, hone, List.drop_succ_cons, List.drop_zero, ih hrest,
      Option.map_some]
    simp [Param.isFixed, hp]

variable {m : Machine V}

/-- Inputs read what they take wherever it lies on a stack. -/
theorem operands? (h : Takes m.indexed? ps words os x) (below above : List V) :
    m.operands? (below ++ (x ++ above)) ps words below.length = some os := by
  induction h generalizing below with
  | nil words => rfl
  | @single p ps words os x v hp rest ih =>
    have hv : (below ++ (v :: x ++ above))[below.length]? = some v := by simp
    have hrest := ih (below ++ [v])
    rw [List.append_assoc, List.length_append, List.length_singleton] at hrest
    simp only [Machine.operands?, hp, hv, Option.bind_eq_bind, Option.bind_some]
    rw [List.cons_append, ← List.singleton_append, hrest]
    rfl
  | @variadic p ps w words os x count items hp hcount rest ih =>
    have hslice : slice? (below ++ (items ++ x ++ above)) below.length items.length
        = some items := by
      rw [slice?, if_pos (hasLength_iff.mpr (by simp))]
      simp
    have hrest := ih (below ++ items)
    rw [List.append_assoc, List.length_append] at hrest
    simp only [Machine.operands?, hp, index?_eq_some_iff.mpr hcount, hslice, Option.bind_eq_bind,
      Option.bind_some]
    rw [List.append_assoc, hrest]
    rfl
  | @indexed p ps w words os x index k o hp hindex ho rest ih =>
    simp only [Machine.operands?, hp, index?_eq_some_iff.mpr hindex, ho, ih below,
      Option.bind_eq_bind, Option.bind_some]
    rfl
  | @immediate p ps w words os x hp rest ih =>
    simp only [Machine.operands?, hp, ih below, Option.bind_eq_bind, Option.bind_some]
    rfl

end Takes

variable {m : Machine V} {s : Execution V}

/-- Inputs that read their operands take what lies on the stack from their position on. -/
theorem exists_takes {stack : List V} {ps : List Param} {words : List Int32} {offset : Nat}
    {os : List (Operand V)} (h : m.operands? stack ps words offset = some os) :
    ∃ x above, stack.drop offset = x ++ above ∧ Takes m.indexed? ps words os x := by
  induction ps generalizing words offset os with
  | nil =>
    cases h
    exact ⟨[], stack.drop offset, rfl, .nil words⟩
  | cons p rest ih =>
    unfold operands? at h
    split at h
    · rename_i hkind
      simp only [Option.bind_eq_bind, Option.bind_eq_some_iff] at h
      obtain ⟨v, hv, others, hothers, h⟩ := h
      cases h
      obtain ⟨x, above, hx, htakes⟩ := ih hothers
      obtain ⟨hlt, rfl⟩ := List.getElem?_eq_some_iff.mp hv
      exact ⟨_ :: x, above, by rw [List.drop_eq_getElem_cons hlt, hx]; rfl, .single _ hkind htakes⟩
    · rename_i hkind
      simp only [Option.bind_eq_bind, Option.bind_eq_some_iff] at h
      obtain ⟨k, hk, o, ho, others, hothers, h⟩ := h
      cases h
      obtain ⟨x, above, hx, htakes⟩ := ih hothers
      exact ⟨x, above, hx, .indexed hkind (index?_eq_some_iff.mp hk) ho htakes⟩
    · rename_i hkind
      simp only [Option.bind_eq_bind, Option.bind_eq_some_iff] at h
      obtain ⟨others, hothers, h⟩ := h
      cases h
      obtain ⟨x, above, hx, htakes⟩ := ih hothers
      exact ⟨x, above, hx, .immediate hkind htakes⟩
    · rename_i hkind
      simp only [Option.bind_eq_bind, Option.bind_eq_some_iff] at h
      obtain ⟨n, hn, items, hitems, others, hothers, h⟩ := h
      cases h
      obtain ⟨x, above, hx, htakes⟩ := ih hothers
      refine ⟨items ++ x, above, ?_, .variadic items hkind ?_ htakes⟩
      · rw [drop_of_slice? hitems, hx, List.append_assoc]
      · rw [length_of_slice? hitems]
        exact index?_eq_some_iff.mp hn
    · cases h

/-- An instruction with these immediates replaces the stack elements `x` by `y`. -/
structure Effect (m : Machine V) (i : Instruction) (words : List Int32) (os : List (Operand V))
    (x y : List V) : Prop where
  pops : i.signature.popsWith words = some x.length
  pushes : y.length = i.signature.pushes
  inputs : Takes m.indexed? i.signature.inputs words os x
  outputs : (m.context i).runBody
    { inputs := os, outputs := List.replicate i.signature.outputs.length none } i.body
      = .ok (.outputs y)

theorem length_live (h : m.Confined s) : s.live.length = s.sp := by
  rw [Execution.live, List.length_take, Nat.min_eq_left h.sp]

/-- An instruction that finds what it replaces on top of the stack, and room for its outputs, is
carried out. -/
theorem Effect.step {i : Instruction} {words : List Int32} {os : List (Operand V)}
    {t x y : List V} (h : m.Effect i words os x y) (hs : m.Confined s)
    (hlive : s.status.isFinal = false) (hdecode : m.decode s.pc = .ok ⟨i, words⟩)
    (hstack : s.live = t ++ x) (hroom : t.length + y.length ≤ s.stack.length) :
    (m.step s).status.isFinal = false ∧ (m.step s).live = t ++ y ∧
      (m.step s).pc = s.pc + i.width := by
  have hsp : s.sp = t.length + x.length := by
    rw [← length_live hs, hstack, List.length_append]
  have hwhole : s.stack = t ++ (x ++ s.stack.drop s.sp) := by
    rw [← List.append_assoc, ← hstack, Execution.live, List.take_append_drop]
  have hbase : base s.pc s.sp ⟨i, words⟩ = .ok t.length := by
    simp only [base, h.pops]
    rw [if_pos (by omega), hsp, Nat.add_sub_cancel]
  have hbind : m.bind s.stack s.pc i.signature.inputs words t.length
      (.empty i.signature.outputs.length)
        = .ok ((Frame.empty i.signature.outputs.length).append os) := by
    refine bind_eq_ok_iff.mpr ⟨os, ?_, rfl⟩
    rw [hwhole]
    exact h.inputs.operands? t _
  have hrun : (m.context i).runBody ((Frame.empty i.signature.outputs.length).append os) i.body
      = .ok (.outputs y) := h.outputs
  have hdispatch : m.dispatch s = .ok ⟨i, t.length, .outputs y⟩ := by
    rw [dispatch_of_decode hdecode, hbase]
    change ((m.bind s.stack s.pc i.signature.inputs words t.length (.empty _)).map _ >>= _) = _
    rw [hbind]
    change ((m.context i).runBody _ i.body).map _ = _
    rw [hrun]
    rfl
  have htake : s.stack.take t.length = t := by
    rw [hwhole, List.take_left]
  have hover : overwrite? s.stack t.length y
      = some (t ++ y ++ s.stack.drop (t.length + y.length)) := by
    rw [overwrite?, if_pos (hasLength_iff.mpr hroom), htake]
  rw [Machine.step, if_neg (by simp [hlive]), hdispatch]
  simp only [complete, hover, Execution.live]
  refine ⟨rfl, ?_, trivial⟩
  rw [← h.pushes, List.take_left' (by rw [List.length_append])]

/-- A step that goes on has carried out an instruction of its signature. -/
theorem exists_effect (hm : m.descriptor.WellFormed) (hs : m.Confined s)
    (hnext : (m.step s).status.isFinal = false) :
    ∃ (i : Instruction) (words : List Int32) (os : List (Operand V)) (t x y : List V),
      m.decode s.pc = .ok ⟨i, words⟩ ∧ m.Effect i words os x y ∧ s.live = t ++ x ∧
      t.length + y.length ≤ s.stack.length := by
  rcases step_cases (live_of_live_step hnext) with ⟨hend, -⟩ | ⟨d, y, stack, hd, hout, hover, -⟩
  · rw [hend] at hnext
    cases hnext
  · obtain ⟨words, os, hdecode, hbase, hos, hrun⟩ := exists_of_dispatch hd
    have hi := hm.instructions _ (mem_of_decode hdecode)
    obtain ⟨x, above, hx, htakes⟩ := exists_takes hos
    have hpops : d.instruction.signature.popsWith words = some x.length := htakes.popsOf hi.inputs
    have hlen := (fits_of_dispatch hd).outputs y hout
    rw [hout] at hrun
    simp only [base, hpops] at hbase
    split at hbase
    · rename_i hdeep
      have hbase : s.sp - x.length = d.base := Except.ok.inj hbase
      have hsp : s.sp = d.base + x.length := by omega
      have hbottom : (s.stack.take d.base).length = d.base := by
        have := hs.sp
        rw [List.length_take]
        omega
      refine ⟨d.instruction, words, os, s.stack.take d.base, x, y, hdecode,
        ⟨hpops, hlen.trans hi.pushes_eq.symm, htakes, hrun⟩, ?_, ?_⟩
      · rw [Execution.live, hsp, List.take_add, hx, List.take_left]
      · rw [hbottom]
        exact length_le_of_overwrite? hover
    · cases hbase

/-- A machine with more room on its stack. -/
def grow (m : Machine V) (n : Nat) : Machine V := { m with maxStack := m.maxStack + n }

/-- Room on the stack does not change what an instruction does. -/
theorem Effect.grow {i : Instruction} {words : List Int32} {os : List (Operand V)} {x y : List V}
    (h : m.Effect i words os x y) (n : Nat) : (m.grow n).Effect i words os x y :=
  ⟨h.pops, h.pushes, h.inputs, h.outputs⟩

/-- Elements below those that are in use, with as much room more, do not change a step that goes
on. -/
theorem step_above (hm : m.descriptor.WellFormed) (hs : m.Confined s)
    (hnext : (m.step s).status.isFinal = false) {r : List V} {s₂ : Execution V}
    (hs₂ : (m.grow r.length).Confined s₂) (hlive : s₂.status.isFinal = false)
    (hpc : s₂.pc = s.pc) (hstack : s₂.live = r ++ s.live) :
    ((m.grow r.length).step s₂).status.isFinal = false ∧
      ((m.grow r.length).step s₂).live = r ++ (m.step s).live ∧
      ((m.grow r.length).step s₂).pc = (m.step s).pc := by
  obtain ⟨i, words, os, t, x, y, hdecode, heffect, hsplit, hroom⟩ := exists_effect hm hs hnext
  obtain ⟨-, hafter, hforward⟩ :=
    heffect.step hs (live_of_live_step hnext) hdecode hsplit hroom
  have hdecode₂ : (m.grow r.length).decode s₂.pc = .ok ⟨i, words⟩ := by
    rw [hpc]
    exact hdecode
  have hsplit₂ : s₂.live = (r ++ t) ++ x := by
    rw [hstack, hsplit, List.append_assoc]
  have hroom₂ : (r ++ t).length + y.length ≤ s₂.stack.length := by
    have hsize : s₂.stack.length = m.maxStack + r.length := hs₂.size
    rw [hs.size] at hroom
    rw [hsize, List.length_append]
    omega
  obtain ⟨hrunning, hafter₂, hforward₂⟩ :=
    (heffect.grow r.length).step hs₂ hlive hdecode₂ hsplit₂ hroom₂
  refine ⟨hrunning, ?_, ?_⟩
  · rw [hafter₂, hafter, List.append_assoc]
  · rw [hforward₂, hforward, hpc]

/-- So a whole run that goes on is the same above any elements. -/
theorem run_above (hm : m.descriptor.WellFormed) (hs : m.Confined s) {n : Nat}
    (hnext : (m.run n s).status.isFinal = false) {r : List V} {s₂ : Execution V}
    (hs₂ : (m.grow r.length).Confined s₂) (hlive : s₂.status.isFinal = false)
    (hpc : s₂.pc = s.pc) (hstack : s₂.live = r ++ s.live) :
    ((m.grow r.length).run n s₂).status.isFinal = false ∧
      ((m.grow r.length).run n s₂).live = r ++ (m.run n s).live ∧
      ((m.grow r.length).run n s₂).pc = (m.run n s).pc := by
  induction n with
  | zero => exact ⟨hlive, hstack, hpc⟩
  | succ n ih =>
    rw [run_succ_eq_step] at hnext ⊢
    obtain ⟨hlive', hstack', hpc'⟩ := ih (live_of_live_step hnext)
    rw [run_succ_eq_step]
    exact step_above hm (hs.run n) hnext (hs₂.run n) hlive' hpc' hstack'

end Machine

/-- A step that goes on replaces the elements that the instruction pops, on top of the stack, by the
outputs of its body. The inputs are bound to the popped elements in order from the bottom, and a
variadic one to as many as its count says. On a stack with other elements below, and as much room
more, the same instruction does the same above them. -/
theorem step_replaces_top (draft : Draft) (d : Descriptor) (log : Log)
    (hbuild : draft.build = (some d, log)) {V : Type} (m : Machine V) (hm : m.descriptor = d)
    (s : Execution V) (hs : m.Confined s) (hnext : (m.step s).status.isFinal = false) :
    (∃ (i : Instruction) (words : List Int32) (os : List (Operand V)) (t x y : List V),
      m.decode s.pc = .ok ⟨i, words⟩ ∧ s.live = t ++ x ∧ (m.step s).live = t ++ y ∧
      i.signature.popsWith words = some x.length ∧ y.length = i.signature.pushes ∧
      Machine.Takes m.indexed? i.signature.inputs words os x ∧
      (m.context i).runBody
        { inputs := os, outputs := List.replicate i.signature.outputs.length none } i.body
          = .ok (.outputs y)) ∧
    ∀ (r : List V) (s₂ : Execution V), (m.grow r.length).Confined s₂ →
      s₂.status.isFinal = false → s₂.pc = s.pc → s₂.live = r ++ s.live →
      ((m.grow r.length).step s₂).status.isFinal = false ∧
        ((m.grow r.length).step s₂).live = r ++ (m.step s).live ∧
        ((m.grow r.length).step s₂).pc = (m.step s).pc := by
  have hd : m.descriptor.WellFormed := hm ▸ (Draft.built_of_build hbuild).wellFormed
  constructor
  · obtain ⟨i, words, os, t, x, y, hdecode, heffect, hsplit, hroom⟩ :=
      Machine.exists_effect hd hs hnext
    obtain ⟨-, hafter, -⟩ :=
      heffect.step hs (Machine.live_of_live_step hnext) hdecode hsplit hroom
    exact ⟨i, words, os, t, x, y, hdecode, hsplit, hafter, heffect.pops, heffect.pushes,
      heffect.inputs, heffect.outputs⟩
  · intro r s₂ hs₂ hlive hpc hstack
    exact Machine.step_above hd hs hnext hs₂ hlive hpc hstack

/-- An instruction that takes a fixed element and two counted ones with a constant in between, and
pushes two outputs; the lowest element stays. -/
theorem step_replaces_top_mixed :
    ∃ (d : Descriptor) (log : Log) (m : Machine Double) (s s₂ : Execution Double),
      ((Catalog.core "rdf" .double).add
        (.block "mix" "SC[D]S@D->SS" "let k = n_i2; o0 = i1; o1 = i0;")).build = (some d, log) ∧
      m.descriptor = d ∧ m.Confined s ∧ (m.step s).status.isFinal = false ∧
      s.live = [.zero, .infinity, .nan, .invalid] ∧ (m.step s).live = [.zero, .one, .infinity] ∧
      (m.grow 1).Confined s₂ ∧ s₂.live = .nan :: s.live ∧
      ((m.grow 1).step s₂).live = [.nan, .zero, .one, .infinity] := by
  generalize hs : ({ stack := [.zero, .infinity, .nan, .invalid, .zero], sp := 4 } :
    Execution Double) = s
  have hall : (((Catalog.core "rdf" .double).add
      (.block "mix" "SC[D]S@D->SS" "let k = n_i2; o0 = i1; o1 = i0;")).build.1.any fun d =>
      let m : Machine Double := ⟨.real, d, [4, 0, 2], [], [.one], [], 5⟩
      decide ((m.step s).status.isFinal = false ∧
        (m.step s).live = [.zero, .one, .infinity])) = true := by
    rw [← hs]
    decide +kernel
  obtain ⟨d, log, hbuild, hstep⟩ := Draft.exists_of_build_any hall
  obtain ⟨hnext, hafter⟩ := of_decide_eq_true hstep
  generalize hm : (⟨.real, d, [4, 0, 2], [], [.one], [], 5⟩ : Machine Double) = m at hnext hafter
  have hconfined : m.Confined s := by
    rw [← hm, ← hs]
    exact ⟨rfl, by decide, Nat.zero_le _⟩
  generalize hs₂ : ({ stack := [.nan, .zero, .infinity, .nan, .invalid, .zero], sp := 5 } :
    Execution Double) = s₂
  have hconfined₂ : (m.grow 1).Confined s₂ := by
    rw [← hm, ← hs₂]
    exact ⟨rfl, by decide, Nat.zero_le _⟩
  have hlive : s.live = [.zero, .infinity, .nan, .invalid] := by
    rw [← hs]
    rfl
  have hlive₂ : s₂.live = [.nan] ++ s.live := by
    rw [← hs₂, ← hs]
    rfl
  obtain ⟨-, hframe⟩ := step_replaces_top _ d log hbuild m (by rw [← hm]) s hconfined hnext
  obtain ⟨-, habove, -⟩ := hframe [.nan] s₂ hconfined₂ (by rw [← hs₂]; rfl)
    (by rw [← hs₂, ← hs]) hlive₂
  exact ⟨d, log, m, s, s₂, hbuild, by rw [← hm], hconfined, hnext, hlive, hafter, hconfined₂,
    hlive₂, by rw [← hafter]; exact habove⟩

end StackForge
