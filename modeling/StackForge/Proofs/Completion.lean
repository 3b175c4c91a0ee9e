import StackForge.Proofs.Bounds

/-!
Counting completed instructions. A step completes one if it takes a run that is not over to the next
instruction or to a value. A step that fails leaves the run where it is, and the counter with it, but
for one case: an instruction whose outputs do not fit on the stack has been counted before it fails.
So the counter of a run is exact as long as the stack does not overflow, and one too high after that.
-/
namespace StackForge

/-- Whether this is where a completed instruction leaves a run. -/
def Status.isProgress {V : Type} : Status V → Bool
  | .running | .returned _ => true
  | .ready | .failed _ => false

namespace Machine

variable {V : Type} {m : Machine V} {s : Execution V}

/-- Whether the next step completes an instruction. -/
def completes (m : Machine V) (s : Execution V) : Bool :=
  !s.status.isFinal && (m.step s).status.isProgress

/-- How many of the first steps of a run complete an instruction. -/
def completed (m : Machine V) (n : Nat) : Nat :=
  (List.range n).countP fun j => m.completes (m.run j m.start)

/-- The body of the next instruction comes to outputs that the stack has no room for. -/
def Overflows (m : Machine V) (s : Execution V) : Prop :=
  s.status.isFinal = false ∧ ∃ d values, m.dispatch s = .ok d ∧ d.result = .outputs values ∧
    s.stack.length < d.base + values.length

theorem overwrite?_eq_none_iff {α : Type} {xs new : List α} {start : Nat} :
    overwrite? xs start new = none ↔ xs.length < start + new.length := by
  simp [overwrite?]

/-- What one step does to the counter: an instruction that is completed is counted, one that fails
is not, unless it overflows the stack. -/
theorem step_counted (hlive : s.status.isFinal = false) :
    (m.completes s = true ∧ ¬m.Overflows s ∧ (m.step s).steps = s.steps + 1) ∨
    (m.completes s = false ∧ ¬m.Overflows s ∧ ∃ f, m.step s = { s with status := .failed f }) ∨
    (m.completes s = false ∧ m.Overflows s ∧
      ∃ f, m.step s = { s with status := .failed f, steps := s.steps + 1 }) := by
  rw [completes, hlive]
  cases hd : m.dispatch s with
  | error failure =>
    have hstep : m.step s = { s with status := .failed failure } := by simp [step, hlive, hd]
    refine .inr (.inl ⟨by rw [hstep]; rfl, ?_, failure, hstep⟩)
    rintro ⟨-, d, values, hok, -⟩
    rw [hd] at hok
    cases hok
  | ok d =>
    have hstep : m.step s = complete s d := by simp [step, hlive, hd]
    cases hresult : d.result with
    | ret v =>
      simp only [complete, hresult] at hstep
      refine .inl ⟨by rw [hstep]; rfl, ?_, by rw [hstep]⟩
      rintro ⟨-, d', values, hok, houtputs, -⟩
      cases hd.symm.trans hok
      rw [hresult] at houtputs
      cases houtputs
    | outputs values =>
      cases hroom : overwrite? s.stack d.base values with
      | none =>
        simp only [complete, hresult, hroom] at hstep
        exact .inr (.inr ⟨by rw [hstep]; rfl,
          ⟨hlive, d, values, hd, hresult, overwrite?_eq_none_iff.mp hroom⟩, _, hstep⟩)
      | some stack =>
        simp only [complete, hresult, hroom] at hstep
        refine .inl ⟨by rw [hstep]; rfl, ?_, by rw [hstep]⟩
        rintro ⟨-, d', values', hok, houtputs, hover⟩
        cases hd.symm.trans hok
        cases hresult.symm.trans houtputs
        rw [overwrite?_eq_none_iff.mpr hover] at hroom
        cases hroom

theorem completed_succ (m : Machine V) (n : Nat) :
    m.completed (n + 1) = m.completed n + if m.completes (m.run n m.start) then 1 else 0 := by
  rw [completed, List.range_succ, List.countP_append, List.countP_singleton, completed]

/-- The counter after some steps. An overflow ends the run, so there is at most one. -/
theorem steps_run (m : Machine V) (n : Nat) :
    ((∀ j < n, ¬m.Overflows (m.run j m.start)) ∧
      (m.run n m.start).steps = m.completed n) ∨
    ((∃ j < n, m.Overflows (m.run j m.start)) ∧ (m.run n m.start).status.isFinal = true ∧
      (m.run n m.start).steps = m.completed n + 1) := by
  -- a run that is over stays as it is, so an overflow is carried along and no second one comes
  induction n with
  | zero => exact .inl ⟨fun j hj => absurd hj (Nat.not_lt_zero j), rfl⟩
  | succ n ih =>
    rw [run_succ_eq_step, completed_succ]
    cases hlive : (m.run n m.start).status.isFinal with
    | true =>
      have hidle : m.completes (m.run n m.start) = false := by simp [completes, hlive]
      have hroom : ¬m.Overflows (m.run n m.start) := fun h => by
        rw [h.1] at hlive
        cases hlive
      rw [m.step_of_isFinal hlive, hidle]
      rcases ih with ⟨hnone, hsteps⟩ | ⟨⟨j, hj, hover⟩, -, hsteps⟩
      · exact .inl ⟨Nat.forall_lt_succ_right.mpr ⟨hnone, hroom⟩, hsteps⟩
      · exact .inr ⟨⟨j, Nat.lt_succ_of_lt hj, hover⟩, hlive, hsteps⟩
    | false =>
      obtain ⟨hnone, hsteps⟩ := ih.resolve_right fun h => by
        rw [h.2.1] at hlive
        cases hlive
      rcases step_counted hlive with
        ⟨hdone, hroom, hstep⟩ | ⟨hfail, hroom, f, hstep⟩ | ⟨hfail, hover, f, hstep⟩
      · exact .inl ⟨Nat.forall_lt_succ_right.mpr ⟨hnone, hroom⟩, by rw [hstep, hdone, hsteps]; rfl⟩
      · exact .inl ⟨Nat.forall_lt_succ_right.mpr ⟨hnone, hroom⟩, by rw [hstep, hfail]; exact hsteps⟩
      · exact .inr ⟨⟨n, Nat.lt_succ_self n, hover⟩, by rw [hstep]; rfl,
          by rw [hstep, hfail, ← hsteps]; rfl⟩

/-- A step that fails leaves the run where it is. It leaves the counter as well unless the stack
overflows. -/
theorem step_failed {f : Failure} (hlive : s.status.isFinal = false)
    (hfail : (m.step s).status = .failed f) :
    (m.step s).pc = s.pc ∧ (m.step s).sp = s.sp ∧ (m.step s).stack = s.stack ∧
      ((m.step s).steps = s.steps ↔ ¬m.Overflows s) := by
  rcases step_counted (m := m) hlive with ⟨hdone, -⟩ | ⟨-, hroom, g, hstep⟩ | ⟨-, hover, g, hstep⟩
  · rw [completes, hfail, Status.isProgress, Bool.and_false] at hdone
    cases hdone
  · rw [hstep]
    exact ⟨rfl, rfl, rfl, iff_of_true rfl hroom⟩
  · rw [hstep]
    exact ⟨rfl, rfl, rfl, iff_of_false (Nat.succ_ne_self _) (not_not_intro hover)⟩

/-- On any machine and after any number of steps, the counter of a run is the number of instructions
that were completed if and only if no step has overflowed the stack, and one more otherwise. A step that
fails leaves position, stack pointer and live stack as they were, and the counter exactly if it does not
overflow the stack. -/
theorem steps_count_completed_iff {V : Type} (m : Machine V) :
    (∀ n, ((m.run n m.start).steps = m.completed n ↔ ∀ j < n, ¬m.Overflows (m.run j m.start)) ∧
      ((m.run n m.start).steps = m.completed n ∨
        (m.run n m.start).steps = m.completed n + 1)) ∧
    ∀ s f, s.status.isFinal = false → (m.step s).status = .failed f →
      (m.step s).pc = s.pc ∧ (m.step s).sp = s.sp ∧ (m.step s).live = s.live ∧
        ((m.step s).steps = s.steps ↔ ¬m.Overflows s) := by
  refine ⟨fun n => ?_, fun s f hlive hfail => ?_⟩
  · rcases m.steps_run n with ⟨hnone, hsteps⟩ | ⟨⟨j, hj, hover⟩, -, hsteps⟩
    · exact ⟨iff_of_true hsteps hnone, .inl hsteps⟩
    · refine ⟨iff_of_false ?_ fun hnone => hnone j hj hover, .inr hsteps⟩
      rw [hsteps]
      exact Nat.succ_ne_self _
  · obtain ⟨hpc, hsp, hstack, hsteps⟩ := step_failed hlive hfail
    exact ⟨hpc, hsp, by rw [Execution.live, hsp, hstack, Execution.live], hsteps⟩

/-- A stack without any room: loading the argument fails in the first step, so no instruction has been
completed, but the counter goes from zero to one. -/
theorem overflow_is_counted :
    ∃ d log m, (Draft.stackMachine "rdf" .double
        |>.add (.block "load_arg" "A[D]->S" "o0 = i0;")
        |>.add (.block "return" "S" "return i0;")).build = (some d, log) ∧
      load Domain.real d ⟨"rdf", 1, [0, 0, 1], [], [], 0⟩ [.int 3] = .ok m ∧
      (m.registers 1).failure = some (.badBytecode 0 "`load_arg` overflows the stack") ∧
      m.completed 1 = 0 ∧ m.start.steps = 0 ∧ (m.run 1 m.start).steps = 1 := by
  have hall : ((Draft.stackMachine "rdf" .double
      |>.add (.block "load_arg" "A[D]->S" "o0 = i0;")
      |>.add (.block "return" "S" "return i0;")).build.1.any fun d =>
      (load Domain.real d ⟨"rdf", 1, [0, 0, 1], [], [], 0⟩ [.int 3]).toOption.any fun m =>
        decide ((m.registers 1).failure = some (.badBytecode 0 "`load_arg` overflows the stack") ∧
          m.completed 1 = 0 ∧ (m.run 1 m.start).steps = 1)) = true := by
    decide +kernel
  obtain ⟨d, log, hbuild, hrun⟩ := Draft.exists_of_build_any hall
  obtain ⟨m, hload, hrun⟩ := (Option.any_eq_true _ _).mp hrun
  obtain ⟨hfail, hnone, hcounted⟩ := of_decide_eq_true hrun
  exact ⟨d, log, m, hbuild, eq_ok_of_toOption hload, hfail, hnone, rfl, hcounted⟩

end Machine
end StackForge
