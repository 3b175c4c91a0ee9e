import Mathlib.Data.Nat.Find
import StackForge.Proofs.Body
import StackForge.Proofs.Machine

/-!
The reference machine on any input. Whatever the descriptor, the code and the size of the stack are,
a run stays inside of its stack and its code and goes forward with every instruction, so it is over
after at most one step more than the code has words. `Registers` keeps the stage of a run, its value
and its failure in places of their own; they never contradict each other, and one of the two is
there at the end.
-/
namespace StackForge

/-- Outputs of a body are as many as those of its frame. -/
theorem BodyContext.length_of_runBody {V : Type} {ctx : BodyContext V} {f : Frame V} {b : Body}
    {values : List V} (h : ctx.runBody f b = .ok (.outputs values)) :
    values.length = f.outputs.length := by
  cases b with
  | expression e =>
    obtain ⟨v, -, h⟩ := bind_eq_ok h
    have hlen := (finish_ok h).2
    cases hset : f.setOutput? 0 v with
    | none => rwa [hset, Option.getD_none] at hlen
    | some f' =>
      rwa [hset, Option.getD_some, Frame.length_outputs_setOutput? hset] at hlen
  | block b =>
    obtain ⟨⟨f', r⟩, hrun, h⟩ := bind_eq_ok h
    cases r with
    | some v => cases h
    | none => exact (finish_ok h).2.trans (runStmts_ok hrun).1

namespace Machine

variable {V : Type} {m : Machine V} {s : Execution V}

/-- An instruction is decoded if its opcode selects it and its immediates are all there. -/
theorem decode_eq_ok_iff {pc : Nat} {i : Instruction} {words : List Int32} :
    m.decode pc = .ok ⟨i, words⟩ ↔ ∃ op, m.code[pc]? = some op ∧
      m.descriptor.byOpcode? op = some i ∧
      slice? m.code (pc + 1) (i.width - 1) = some words := by
  constructor
  · intro h
    unfold decode at h
    split at h
    · cases h
    · rename_i op hop
      split at h
      · cases h
      · rename_i hfind
        split at h
        · cases h
        · rename_i hwords
          cases h
          exact ⟨op, hop, hfind, hwords⟩
  · rintro ⟨op, hop, hfind, hwords⟩
    simp only [decode, hop, hfind, hwords]

theorem mem_of_decode {pc : Nat} {d : Decoded} (h : m.decode pc = .ok d) :
    d.instruction ∈ m.descriptor.instructions := by
  obtain ⟨op, -, hfind, -⟩ := decode_eq_ok_iff.mp h
  unfold Descriptor.byOpcode? at hfind
  split at hfind
  · cases hfind
  · exact List.mem_of_getElem? hfind

/-- An instruction that is decoded lies inside of the code. -/
theorem end_le_of_decode {pc : Nat} {d : Decoded} (h : m.decode pc = .ok d) :
    pc + d.instruction.width ≤ m.code.length := by
  obtain ⟨op, -, -, hwords⟩ := decode_eq_ok_iff.mp h
  have hwidth : 1 ≤ d.instruction.width := by simp [Instruction.width, Signature.width]
  unfold slice? at hwords
  split at hwords
  · rename_i hlen
    rw [hasLength_iff] at hlen
    omega
  · cases hwords

theorem le_of_base {pc sp b : Nat} {d : Decoded} (h : base pc sp d = .ok b) : b ≤ sp := by
  unfold base at h
  split at h
  · cases h
  · split at h
    · cases h
      omega
    · cases h

/-- An instruction that was carried out lies inside of the code, starts its outputs where the stack
was in use, and has a value for each of them. -/
structure Dispatched.Fits (m : Machine V) (s : Execution V) (d : Dispatched V) : Prop where
  code : s.pc + d.instruction.width ≤ m.code.length
  base : d.base ≤ s.sp
  outputs : ∀ values, d.result = .outputs values →
    values.length = d.instruction.signature.outputs.length

/-- What it takes to carry out an instruction: it is decoded, the stack is deep enough, its inputs
read their operands, and its body comes to a result. -/
theorem exists_of_dispatch {d : Dispatched V} (h : m.dispatch s = .ok d) :
    ∃ words os, m.decode s.pc = .ok ⟨d.instruction, words⟩ ∧
      base s.pc s.sp ⟨d.instruction, words⟩ = .ok d.base ∧
      m.operands? s.stack d.instruction.signature.inputs words d.base = some os ∧
      (m.context d.instruction).runBody
        ((Frame.empty d.instruction.signature.outputs.length).append os) d.instruction.body
          = .ok d.result := by
  obtain ⟨⟨i, words⟩, hdecode, h₁⟩ := bind_eq_ok h
  obtain ⟨b, hbase, h₂⟩ := bind_eq_ok h₁
  obtain ⟨frame, hframe, h₃⟩ := bind_eq_ok h₂
  obtain ⟨result, hresult, h₄⟩ := bind_eq_ok h₃
  obtain ⟨os, hos, rfl⟩ := bind_eq_ok_iff.mp hframe
  cases h₄
  exact ⟨words, os, hdecode, hbase, hos, hresult⟩

theorem fits_of_dispatch {d : Dispatched V} (h : m.dispatch s = .ok d) : d.Fits m s := by
  obtain ⟨words, os, hdecode, hbase, -, hrun⟩ := exists_of_dispatch h
  refine ⟨end_le_of_decode hdecode, le_of_base hbase, ?_⟩
  intro values hvalues
  rw [hvalues] at hrun
  rw [BodyContext.length_of_runBody hrun]
  exact List.length_replicate

/-- What one step can do to a run: end it where it is, or carry out one whole instruction. -/
theorem step_cases (hlive : s.status.isFinal = false) :
    ((m.step s).status.isFinal = true ∧ (m.step s).stack = s.stack ∧ (m.step s).sp = s.sp ∧
      (m.step s).pc = s.pc) ∨
    ∃ (d : Dispatched V) (values stack : List V), m.dispatch s = .ok d ∧
      d.result = .outputs values ∧ overwrite? s.stack d.base values = some stack ∧
      m.step s = { stack
                   pc := s.pc + d.instruction.width
                   sp := d.base + d.instruction.signature.pushes
                   status := .running
                   steps := s.steps + 1 } := by
  rw [step, if_neg (by simp [hlive])]
  cases hd : m.dispatch s with
  | error failure => exact .inl ⟨rfl, rfl, rfl, rfl⟩
  | ok d =>
    cases hresult : d.result with
    | ret v =>
      simp only [complete, hresult]
      exact .inl ⟨rfl, trivial, trivial, trivial⟩
    | outputs values =>
      cases hstack : overwrite? s.stack d.base values with
      | none =>
        simp only [complete, hresult, hstack]
        exact .inl ⟨rfl, trivial, trivial, trivial⟩
      | some stack =>
        refine .inr ⟨d, values, stack, rfl, hresult, hstack, ?_⟩
        simp only [complete, hresult, hstack]

/-- A run inside of its stack and its code. -/
structure Confined (m : Machine V) (s : Execution V) : Prop where
  size : s.stack.length = m.maxStack
  sp : s.sp ≤ s.stack.length
  pc : s.pc ≤ m.code.length

theorem confined_start (m : Machine V) : m.Confined m.start :=
  ⟨List.length_replicate, Nat.zero_le _, Nat.zero_le _⟩

theorem length_le_of_overwrite? {α : Type} {xs ys new : List α} {start : Nat}
    (h : overwrite? xs start new = some ys) : start + new.length ≤ xs.length := by
  unfold overwrite? at h
  split at h
  · rename_i hlen
    exact hasLength_iff.mp hlen
  · cases h

theorem Confined.step (h : m.Confined s) : m.Confined (m.step s) := by
  cases hlive : s.status.isFinal with
  | true => rwa [m.step_of_isFinal hlive]
  | false =>
    rcases step_cases (m := m) hlive with
      ⟨-, hstack, hsp, hpc⟩ | ⟨d, values, stack, hd, hout, hroom, hstep⟩
    · exact ⟨hstack ▸ h.size, hsp ▸ hstack ▸ h.sp, hpc ▸ h.pc⟩
    · rw [hstep]
      have hd := fits_of_dispatch hd
      have hsize := length_of_overwrite? hroom
      have hfits := length_le_of_overwrite? hroom
      -- not all outputs have to be on the stack, but all of them were stored
      have hpushes : d.instruction.signature.pushes ≤ values.length := by
        rw [hd.outputs values hout]
        exact List.length_filter_le _ _
      exact ⟨hsize.trans h.size, by change d.base + _ ≤ stack.length; omega, hd.code⟩

theorem Confined.run (h : m.Confined s) (n : Nat) : m.Confined (m.run n s) := by
  induction n generalizing s with
  | zero => exact h
  | succ n ih => exact ih h.step

theorem live_of_live_step (hnext : (m.step s).status.isFinal = false) :
    s.status.isFinal = false := by
  cases hlive : s.status.isFinal with
  | false => rfl
  | true =>
    rw [m.step_of_isFinal hlive, hlive] at hnext
    cases hnext

/-- A step that does not end the run goes forward. -/
theorem pc_lt_step (hnext : (m.step s).status.isFinal = false) : s.pc + 1 ≤ (m.step s).pc := by
  rcases step_cases (live_of_live_step hnext) with ⟨hend, -⟩ | ⟨d, values, stack, -, -, -, hstep⟩
  · rw [hend] at hnext
    cases hnext
  · rw [hstep]
    simp only [Instruction.width, Signature.width]
    omega

theorem run_succ_eq_step (m : Machine V) (n : Nat) (s : Execution V) :
    m.run (n + 1) s = m.step (m.run n s) := m.run_add n 1 s

/-- A run that is not over after some steps has come at least as many words forward. -/
theorem le_pc_run (n : Nat) (hlive : (m.run n s).status.isFinal = false) :
    n ≤ (m.run n s).pc := by
  induction n with
  | zero => exact Nat.zero_le _
  | succ n ih =>
    rw [run_succ_eq_step] at hlive ⊢
    have hforward := pc_lt_step hlive
    have := ih (live_of_live_step hlive)
    omega

/-- Every run is over after one step more than the code has words. -/
theorem isFinal_run (m : Machine V) :
    (m.run (m.code.length + 1) m.start).status.isFinal = true := by
  cases hlive : (m.run (m.code.length + 1) m.start).status.isFinal with
  | true => rfl
  | false =>
    have hforward := le_pc_run _ hlive
    have hinside := (m.confined_start.run (m.code.length + 1)).pc
    omega

end Machine

/-- The stage of a run, without what it came to. -/
inductive Stage where
  | ready
  /-- The instruction at this position is next. -/
  | dispatching (pc : Nat)
  | returned
  | failed
  deriving DecidableEq, Repr

def Stage.isFinal : Stage → Bool
  | .ready | .dispatching _ => false
  | .returned | .failed => true

/-- A run that keeps its stage, its value and its failure in different places. -/
structure Registers (V : Type) where
  stack : List V
  pc : Nat
  sp : Nat
  steps : Nat
  stage : Stage
  value : Option V
  failure : Option Failure

namespace Registers

variable {V : Type}

/-- The registers of a run. -/
def ofExecution (s : Execution V) : Registers V :=
  let keep (stage : Stage) (value : Option V) (failure : Option Failure) : Registers V :=
    ⟨s.stack, s.pc, s.sp, s.steps, stage, value, failure⟩
  match s.status with
  | .ready => keep .ready none none
  | .running => keep (.dispatching s.pc) none none
  | .returned v => keep .returned (some v) none
  | .failed f => keep .failed none (some f)

/-- The result that the registers hold once the run is over: the value if there is one, otherwise the
failure. -/
def outcome (r : Registers V) : Except Failure V :=
  match r.value, r.failure with
  | some v, _ => .ok v
  | none, some f => .error f
  | none, none => .error (.missingReturn r.pc)

def fail (r : Registers V) (f : Failure) : Registers V :=
  { r with failure := some f, stage := .failed }

/-- Store what an instruction came to. -/
def complete (r : Registers V) (d : Machine.Dispatched V) : Registers V :=
  let r := { r with steps := r.steps + 1 }
  match d.result with
  | .ret v => { r with value := some v, stage := .returned }
  | .outputs values =>
    match overwrite? r.stack d.base values with
    | none => r.fail (.badBytecode r.pc s!"`{d.instruction.name}` overflows the stack")
    | some stack =>
      let pc := r.pc + d.instruction.width
      { r with
        stack, pc
        sp := d.base + d.instruction.signature.pushes
        stage := .dispatching pc }

/-- Run one instruction, setting each register by itself. -/
def step (m : Machine V) (r : Registers V) : Registers V :=
  if r.stage.isFinal then r
  else
    match m.dispatch { stack := r.stack, pc := r.pc, sp := r.sp } with
    | .error f => r.fail f
    | .ok d => r.complete d

def run (m : Machine V) : Nat → Registers V → Registers V
  | 0, r => r
  | n + 1, r => run m n (r.step m)

@[simp] theorem isFinal_stage (s : Execution V) :
    (ofExecution s).stage.isFinal = s.status.isFinal := by
  unfold ofExecution
  cases s.status <;> rfl

/-- The registers follow the machine step by step. -/
theorem step_ofExecution (m : Machine V) (s : Execution V) :
    (ofExecution s).step m = ofExecution (m.step s) := by
  cases hlive : s.status.isFinal with
  | true => rw [m.step_of_isFinal hlive, step, if_pos (by rw [isFinal_stage, hlive])]
  | false =>
    obtain ⟨stage, hregisters⟩ : ∃ stage,
        ofExecution s = ⟨s.stack, s.pc, s.sp, s.steps, stage, none, none⟩ := by
      unfold ofExecution
      cases hstatus : s.status with
      | ready | running => exact ⟨_, rfl⟩
      | returned v | failed f =>
        rw [hstatus] at hlive
        cases hlive
    have hdispatch : m.dispatch { stack := s.stack, pc := s.pc, sp := s.sp } = m.dispatch s := rfl
    rw [step, isFinal_stage, Machine.step, hlive, hregisters, hdispatch]
    cases m.dispatch s with
    | error f => rfl
    | ok d =>
      simp only [Bool.false_eq_true, if_false, complete, Machine.complete]
      cases d.result with
      | ret v => rfl
      | outputs values =>
        dsimp only
        cases overwrite? s.stack d.base values with
        | none => rfl
        | some stack => rfl

theorem run_ofExecution (m : Machine V) (n : Nat) (s : Execution V) :
    run m n (ofExecution s) = ofExecution (m.run n s) := by
  induction n generalizing s with
  | zero => rfl
  | succ n ih => rw [run, step_ofExecution, ih, Machine.run_succ]

/-- Registers that do not contradict each other. -/
structure Consistent (r : Registers V) : Prop where
  returned : r.stage = .returned ↔ ∃ v, r.value = some v
  failed : r.stage = .failed ↔ ∃ f, r.failure = some f
  apart : r.value = none ∨ r.failure = none
  next : ∀ pc, r.stage = .dispatching pc → pc = r.pc

theorem consistent_ofExecution (s : Execution V) : (ofExecution s).Consistent := by
  unfold ofExecution
  cases s.status with
  | ready | running | returned v | failed f => constructor <;> simp

theorem outcome_ofExecution (s : Execution V) : (ofExecution s).outcome = s.outcome := by
  unfold ofExecution Execution.outcome
  cases s.status <;> rfl

/-- Where the stage is final, a value or a failure is there. -/
theorem Consistent.exists_of_isFinal {r : Registers V} (h : r.Consistent)
    (hend : r.stage.isFinal = true) :
    (∃ v, r.value = some v ∧ r.outcome = .ok v) ∨
      ∃ f, r.value = none ∧ r.failure = some f ∧ r.outcome = .error f := by
  cases hstage : r.stage with
  | ready | dispatching pc =>
    rw [hstage] at hend
    cases hend
  | returned =>
    obtain ⟨v, hv⟩ := h.returned.mp hstage
    exact .inl ⟨v, hv, by simp [outcome, hv]⟩
  | failed =>
    obtain ⟨f, hf⟩ := h.failed.mp hstage
    have hvalue : r.value = none := h.apart.resolve_right (by simp [hf])
    exact .inr ⟨f, hvalue, hf, by simp [outcome, hf, hvalue]⟩

end Registers

/-- The registers of a machine after some steps. -/
def Machine.registers {V : Type} (m : Machine V) (n : Nat) : Registers V :=
  Registers.run m n (.ofExecution m.start)

theorem Machine.registers_eq {V : Type} (m : Machine V) (n : Nat) :
    m.registers n = .ofExecution (m.run n m.start) := Registers.run_ofExecution m n m.start

/-- The first step after which a run is over, and what the registers hold there. -/
theorem Machine.exists_end {V : Type} (m : Machine V) :
    ∃ n ≤ m.code.length + 1, (∀ j < n, (m.run j m.start).status.isFinal = false) ∧
      (m.run n m.start).status.isFinal = true ∧
      ((∃ v, (m.registers n).value = some v ∧ m.result = .ok v) ∨
        ∃ f, (m.registers n).value = none ∧ (m.registers n).failure = some f ∧
          m.result = .error f) := by
  have hexists : ∃ n, (m.run n m.start).status.isFinal = true := ⟨_, m.isFinal_run⟩
  have hle := Nat.find_min' hexists m.isFinal_run
  have hend := Nat.find_spec hexists
  generalize hn : Nat.find hexists = n at hle hend
  have hresult : m.result = (m.registers n).outcome := by
    obtain ⟨k, hk⟩ := Nat.le.dest hle
    rw [m.registers_eq, Registers.outcome_ofExecution, result, ← hk, m.run_add,
      m.run_of_isFinal k hend]
  refine ⟨n, hle, ?_, hend, ?_⟩
  · intro j hj
    rw [← hn] at hj
    simpa using Nat.find_min hexists hj
  · rw [hresult, m.registers_eq]
    exact (Registers.consistent_ofExecution _).exists_of_isFinal
      (by rw [Registers.isFinal_stage, hend])

/-- Every program can be run on every machine that its values can be loaded into. After any number of
steps the run is inside of its stack and its code, its registers are consistent, and it has gone
forward unless it is over. It is over after at most one step more than the code has words, with a
value or a failure as its result. -/
theorem every_run_is_confined_and_ends {V : Type} (D : Domain V) (d : Descriptor) (p : Program)
    (args : List Host.Value) (hp : p.interpreter = d.name) (hcount : args.length = p.nArgs)
    (hargs : ∀ v ∈ args, D.Converts v) (hconstants : ∀ v ∈ p.constants, D.Converts v) :
    ∃ m, Machine.load D d p args = .ok m ∧
      (∀ n, (m.run n m.start).sp ≤ (m.run n m.start).stack.length ∧
        (m.run n m.start).stack.length = p.maxStack ∧ (m.run n m.start).pc ≤ p.code.length) ∧
      (∀ n, (m.run (n + 1) m.start).status.isFinal = false →
        (m.run n m.start).pc + 1 ≤ (m.run (n + 1) m.start).pc) ∧
      (∀ n, m.registers n = .ofExecution (m.run n m.start) ∧ (m.registers n).Consistent) ∧
      ∃ n ≤ p.code.length + 1, (∀ j < n, (m.run j m.start).status.isFinal = false) ∧
        (m.run n m.start).status.isFinal = true ∧
        ((∃ v, (m.registers n).value = some v ∧ m.result = .ok v) ∨
          ∃ f, (m.registers n).value = none ∧ (m.registers n).failure = some f ∧
            m.result = .error f) := by
  obtain ⟨m, hload, hcode, hmax⟩ :
      ∃ m, Machine.load D d p args = .ok m ∧ m.code = p.code ∧ m.maxStack = p.maxStack := by
    obtain ⟨xs, cs, hload, -⟩ := Machine.load_eq_ok hp hcount hargs hconstants
    exact ⟨_, hload, rfl, rfl⟩
  rw [← hcode, ← hmax]
  refine ⟨m, hload, ?_, ?_, ?_, m.exists_end⟩
  · intro n
    have hn := m.confined_start.run n
    exact ⟨hn.sp, hn.size, hn.pc⟩
  · intro n hlive
    rw [m.run_succ_eq_step] at hlive ⊢
    exact Machine.pc_lt_step hlive
  · intro n
    rw [m.registers_eq]
    exact ⟨rfl, Registers.consistent_ofExecution _⟩

/-- A machine that was never checked: its output is not on the stack. The code ends in the middle of
an instruction with a negative count before it. -/
theorem every_run_is_confined_and_ends_unchecked :
    ∃ d m, ((Draft.stackMachine "rdf" .double).add
        (.block "spill" "S@D->A" "o0 = 1.5;")).trust = .ok d ∧
      Machine.load Domain.real d ⟨"rdf", 1, [0, 0, 0, -1, 0], [], [], 1⟩ [.int 3] = .ok m ∧
      (∀ n, (m.run n m.start).sp ≤ 1) ∧
      ∃ n ≤ 6, (m.run n m.start).status.isFinal = true := by
  generalize hdraft : (Draft.stackMachine "rdf" .double).add
    (.block "spill" "S@D->A" "o0 = 1.5;") = draft
  have hname : (draft.trust.toOption.any fun d => d.name = "rdf") = true := by
    rw [← hdraft]
    decide +kernel
  cases htrust : draft.trust with
  | error log =>
    rw [htrust] at hname
    cases hname
  | ok d =>
    rw [htrust] at hname
    obtain ⟨m, hload, hbounds, -, -, n, hn, -, hend, -⟩ :=
      every_run_is_confined_and_ends Domain.real d ⟨"rdf", 1, [0, 0, 0, -1, 0], [], [], 1⟩ [.int 3]
        (of_decide_eq_true hname).symm rfl (by decide +kernel) (by decide +kernel)
    refine ⟨d, m, rfl, hload, ?_, n, hn, hend⟩
    intro k
    obtain ⟨hsp, hsize, -⟩ := hbounds k
    rwa [hsize] at hsp

end StackForge
