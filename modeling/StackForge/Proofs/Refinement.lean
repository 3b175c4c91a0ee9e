import StackForge.Catalog
import StackForge.Proofs.Arms
import StackForge.Proofs.Body
import StackForge.Proofs.Checking
import StackForge.Proofs.Power

/-!
The engine refines the reference machine, on malformed bytecode too. Both keep the same registers
from step to step; where the reference machine reports malformed bytecode the engine crashes, and
otherwise they end in the same way.
-/
namespace StackForge

def Failure.IsBadBytecode (f : Failure) : Prop := ∃ pc message, f = .badBytecode pc message

theorem Failure.not_isBadBytecode {f : Failure} (h : f.blamesCode = false) : ¬f.IsBadBytecode := by
  rintro ⟨pc, message, rfl⟩
  cases h

namespace Engine

variable {V : Type}

/-- How a run of the engine ends, against the result of the reference machine. -/
def Outcome.Agrees (r : Except Failure V) : Outcome V → Prop
  | .returned v => r = .ok v
  | .failed f => r = .error f ∧ ¬f.IsBadBytecode
  | .crashed => ∃ f, r = .error f ∧ f.IsBadBytecode

/-- A run of the reference machine that is not over, in the state of the engine. -/
structure Same (s : Execution V) (t : State V) : Prop where
  running : s.status.isFinal = false
  stack : s.stack = t.stack
  pc : s.pc = t.pc
  sp : s.sp = t.sp

/-- A wrapper whose arms take what their instructions take, and whose powers are those of the
domain. -/
structure Wrapper.Faithful (w : Wrapper V) : Prop where
  blameless : w.engine.domain.Blameless
  wellFormed : w.engine.descriptor.WellFormed
  arms : List.Forall₂ (Takes V) w.engine.descriptor.instructions w.engine.arms
  power : ∀ args z k, w.engine.power z k = (w.machine args).power z k

/-- Lists that belong together element by element have their elements at the same positions. -/
theorem forall₂_cases {α β : Type} {P : α → β → Prop} {xs : List α} {ys : List β}
    (h : List.Forall₂ P xs ys) (k : Nat) :
    (xs[k]? = none ∧ ys[k]? = none) ∨ ∃ x y, xs[k]? = some x ∧ ys[k]? = some y ∧ P x y := by
  induction h generalizing k with
  | nil => exact .inl ⟨rfl, rfl⟩
  | cons hxy _ ih =>
    cases k with
    | zero => exact .inr ⟨_, _, rfl, rfl, hxy⟩
    | succ k => simpa using ih k

namespace Wrapper.Faithful

variable {w : Wrapper V} {args : List V} {s : Execution V} {t : State V}

/-- A word selects an instruction and its arm, or neither. -/
theorem select (h : w.Faithful) (op : Int32) :
    (w.engine.descriptor.byOpcode? op = none ∧ (index? op).bind (w.engine.arms[·]?) = none) ∨
      ∃ i a, w.engine.descriptor.byOpcode? op = some i ∧ i ∈ w.engine.descriptor.instructions ∧
        (index? op).bind (w.engine.arms[·]?) = some a ∧ Takes V i a := by
  by_cases hop : op < 0
  · exact .inl ⟨by rw [Descriptor.byOpcode?, if_pos hop], by simp [index?, hop]⟩
  · rw [Descriptor.byOpcode?, if_neg hop, index?, if_neg hop, Option.bind_some]
    rcases forall₂_cases h.arms op.toInt.toNat with hnone | ⟨i, a, hi, ha, htakes⟩
    · exact .inl hnone
    · exact .inr ⟨i, a, hi, List.mem_of_getElem? hi, ha, htakes⟩

theorem context_eq (h : w.Faithful) (args : List V) (i : Instruction) :
    w.engine.context i = (w.machine args).context i := by
  have hpower : w.engine.power = (w.machine args).power := by
    funext z k
    exact h.power args z k
  simp [Engine.context, Machine.context, hpower, Wrapper.machine]

/-- A step of the reference machine, against what a step of the engine comes to. -/
def Steps (m : Machine V) (s : Execution V) : Except (Outcome V) (State V) → Prop
  | .ok t => Same (m.step s) t
  | .error o => (m.step s).status.isFinal = true ∧ o.Agrees (m.step s).outcome

theorem steps_of_error (hs : Same s t) {f : Failure}
    (h : (w.machine args).dispatch s = .error f) (hf : ¬f.IsBadBytecode) :
    Steps (w.machine args) s (.error (.failed f)) := by
  have hstep : (w.machine args).step s = { s with status := .failed f } := by
    rw [Machine.step, if_neg (by simp [hs.running]), h]
  rw [Steps, hstep]
  exact ⟨rfl, rfl, hf⟩

theorem steps_of_bad (hs : Same s t) {pc : Nat} {message : String}
    (h : (w.machine args).dispatch s = Machine.bad pc message) :
    Steps (w.machine args) s (.error .crashed) := by
  have hstep : (w.machine args).step s
      = { s with status := .failed (.badBytecode pc message) } := by
    rw [Machine.step, if_neg (by simp [hs.running]), h]
    rfl
  rw [Steps, hstep]
  exact ⟨rfl, _, rfl, pc, message, rfl⟩

/-- Where an arm does not use the stack, its position is the stack pointer and nothing is pushed. -/
theorem sp_eq {a : Arm} {base : Nat} {f : Frame V} (h : bind? w args t a = some (base, f)) :
    (if a.usesStack then base + a.instruction.signature.pushes else t.sp)
      = base + a.instruction.signature.pushes := by
  split
  · rfl
  · rename_i huses
    have hpushes : a.instruction.signature.pushes = 0 := by
      simp only [Arm.usesStack, Bool.or_eq_true, decide_eq_true_eq, not_or] at huses
      omega
    simp only [bind?, base?, huses, Option.bind_eq_bind, Option.bind_eq_some_iff] at h
    obtain ⟨_, -, b, hb, _, -, heq⟩ := h
    cases hb
    cases heq
    rw [hpushes]
    rfl

/-- An arm does what its instruction does on the reference machine. -/
theorem steps_arm (h : w.Faithful) (hs : Same s t) {op : Int32} {i : Instruction} {a : Arm}
    (hop : w.code[t.pc]? = some op) (hfind : w.engine.descriptor.byOpcode? op = some i)
    (hi : i ∈ w.engine.descriptor.instructions) (ha : Takes V i a) :
    Steps (w.machine args) s (runArm w args t a) := by
  obtain ⟨rfl, hbind⟩ := ha
  have hdispatch := @Machine.dispatch_eq V (w.machine args) s op a.instruction
    (h.wellFormed.instructions _ hi) (by rw [hs.pc]; exact hop) hfind
  have hcode : (w.machine args).code = w.code := rfl
  rw [hs.stack, hs.sp, hs.pc, hcode, ← hbind w args t] at hdispatch
  dsimp only [runArm]
  rw [h.context_eq args a.instruction]
  cases htaken : bind? w args t a with
  | none =>
    rw [htaken] at hdispatch
    obtain ⟨message, hbad⟩ := hdispatch
    exact steps_of_bad hs hbad
  | some taken =>
    obtain ⟨base, f⟩ := taken
    rw [htaken] at hdispatch
    dsimp only [orCrash, bind, Except.bind]
    have hcalm := Machine.context_blameless (m := w.machine args) h.blameless a.instruction
    have hblame := hcalm.runBody (Frame.Callable.of_false f) a.instruction.body
    dsimp only at hdispatch
    cases hresult : ((w.machine args).context a.instruction).runBody f a.instruction.body with
    | error failure =>
      rw [hresult] at hdispatch hblame
      exact steps_of_error hs hdispatch (Failure.not_isBadBytecode hblame.1)
    | ok r =>
      rw [hresult] at hdispatch
      have hstep : (w.machine args).step s = Machine.complete s ⟨a.instruction, base, r⟩ := by
        rw [Machine.step, if_neg (by simp [hs.running]), hdispatch]
        rfl
      cases r with
      | ret v =>
        change Steps (w.machine args) s (.error (.returned v))
        rw [Steps, hstep]
        exact ⟨rfl, rfl⟩
      | outputs values =>
        cases hstack : overwrite? t.stack base values with
        | none =>
          change Steps (w.machine args) s
            (orCrash (overwrite? t.stack base values) >>= _)
          rw [hstack]
          change Steps (w.machine args) s (.error .crashed)
          rw [Steps, hstep]
          simp only [Machine.complete, hs.stack, hstack]
          exact ⟨rfl, _, rfl, _, _, rfl⟩
        | some stack =>
          change Steps (w.machine args) s
            (orCrash (overwrite? t.stack base values) >>= _)
          rw [hstack]
          change Same ((w.machine args).step s) _
          rw [hstep, sp_eq htaken]
          simp only [Machine.complete, hs.stack, hstack]
          exact ⟨rfl, rfl, by rw [hs.pc], rfl⟩

/-- One step of the engine is one step of the reference machine. -/
theorem steps (h : w.Faithful) (hs : Same s t) :
    Steps (w.machine args) s (Engine.step w args t) := by
  unfold Engine.step
  have hcode : (w.machine args).code[s.pc]? = w.code[t.pc]? := by
    rw [hs.pc]
    rfl
  cases hop : w.code[t.pc]? with
  | none =>
    rw [hop] at hcode
    rw [← hs.pc]
    refine steps_of_error hs ?_ (by rintro ⟨_, _, h⟩; cases h)
    simp only [Machine.dispatch, Machine.decode, hcode]
    rfl
  | some op =>
    rw [hop] at hcode
    rcases h.select op with ⟨hnone, harm⟩ | ⟨i, a, hfind, hi, harm, ha⟩
    · have hunknown : (w.machine args).descriptor.byOpcode? op = none := hnone
      simp only [harm]
      rw [← hs.pc]
      refine steps_of_error hs ?_ (by rintro ⟨_, _, h⟩; cases h)
      simp only [Machine.dispatch, Machine.decode, hcode, hunknown]
      rfl
    · simp only [harm]
      exact h.steps_arm hs hop hfind hi ha

/-- So is a whole run. -/
theorem run (h : w.Faithful) (hs : Same s t) (n : Nat) :
    (Engine.run w args n t).Agrees ((w.machine args).run n s).outcome := by
  induction n generalizing s t with
  | zero =>
    have houtcome : s.outcome = .error (.missingReturn s.pc) := by
      have hrunning := hs.running
      unfold Execution.outcome
      cases hstatus : s.status <;> simp_all [Status.isFinal]
    exact ⟨by rw [Machine.run_zero, houtcome, hs.pc], by rintro ⟨_, _, h⟩; cases h⟩
  | succ n ih =>
    have hstep : Steps (w.machine args) s _ := h.steps hs
    rw [Machine.run_succ, Engine.run]
    cases hnext : Engine.step w args t with
    | ok t' =>
      rw [hnext] at hstep
      exact ih hstep
    | error o =>
      rw [hnext] at hstep
      obtain ⟨hfinal, hagrees⟩ := hstep
      rw [Machine.run_of_isFinal _ n hfinal]
      exact hagrees

theorem callRaw (h : w.Faithful) (hargs : args.length = w.nArgs) :
    (w.callRaw args).Agrees (w.machine args).result := by
  rw [Wrapper.callRaw, if_neg (by simp [hargs])]
  exact h.run ⟨rfl, rfl, rfl, rfl⟩ (w.code.length + 1)

theorem call (h : w.Faithful) {values : List Host.Value}
    (hvalues : values.mapM w.engine.domain.ofHost = .ok args) (hargs : args.length = w.nArgs) :
    (w.call values).Agrees ((w.machine args).result.map w.engine.domain.toHost) := by
  have hraw := h.callRaw hargs
  simp only [Wrapper.call, hvalues]
  cases hout : w.callRaw args with
  | returned v =>
    rw [hout] at hraw
    exact congrArg (Except.map _) hraw
  | failed failure =>
    rw [hout] at hraw
    exact ⟨congrArg (Except.map _) hraw.1, hraw.2⟩
  | crashed =>
    rw [hout] at hraw
    obtain ⟨f, hf, hbad⟩ := hraw
    exact ⟨f, congrArg (Except.map _) hf, hbad⟩

end Wrapper.Faithful

/-- What evaluating a program with the engine comes to. -/
def evaluate (e : Engine V) (p : Program) (args : List Host.Value) : Outcome Host.Value :=
  match e.wrap p with
  | .error failure => .failed failure
  | .ok w => w.call args

/-- The result of a run that did not crash. -/
def Outcome.result? : Outcome V → Option (Except Failure V)
  | .returned v => some (.ok v)
  | .failed failure => some (.error failure)
  | .crashed => none

/-- The engine crashes exactly where the reference machine reports malformed bytecode, and otherwise
gives the same result. -/
def Refines (e : Engine V) : Prop :=
  ∀ (p : Program) (args : List Host.Value), args.length = p.nArgs →
    (∀ v ∈ args, e.domain.Converts v) → (∀ v ∈ p.constants, e.domain.Converts v) →
    (e.evaluate p args = .crashed ↔ ∃ pc message,
      Machine.call e.domain e.descriptor p args = .error (.badBytecode pc message)) ∧
    ∀ r, (e.evaluate p args).result? = some r → Machine.call e.domain e.descriptor p args = r

theorem Outcome.Agrees.crashed_iff {o : Outcome V} {r : Except Failure V} (h : o.Agrees r) :
    o = .crashed ↔ ∃ pc message, r = .error (.badBytecode pc message) := by
  cases o with
  | returned v =>
    cases h
    simp
  | failed f =>
    obtain ⟨rfl, hgood⟩ := h
    constructor
    · intro hcrash
      cases hcrash
    · rintro ⟨pc, message, hbad⟩
      cases hbad
      exact absurd ⟨pc, message, rfl⟩ hgood
  | crashed =>
    obtain ⟨_, rfl, pc, message, rfl⟩ := h
    exact ⟨fun _ => ⟨pc, message, rfl⟩, fun _ => rfl⟩

theorem Outcome.Agrees.eq_of_result? {o : Outcome V} {r r' : Except Failure V} (h : o.Agrees r)
    (hr : o.result? = some r') : r = r' := by
  cases o with
  | returned v =>
    cases hr
    exact h
  | failed f =>
    cases hr
    exact h.1
  | crashed => cases hr

/-- An engine whose arms and powers are right evaluates every program as the reference machine
does. -/
theorem evaluate_agrees {e : Engine V} (hD : e.domain.Blameless) (hd : e.descriptor.WellFormed)
    (harms : List.Forall₂ (Takes V) e.descriptor.instructions e.arms)
    (hpower : ∀ spec, e.descriptor.power = some spec → e.domain.Squares spec.square)
    {p : Program} {args : List Host.Value} (hcount : args.length = p.nArgs)
    (hargs : ∀ v ∈ args, e.domain.Converts v)
    (hconstants : ∀ v ∈ p.constants, e.domain.Converts v) :
    (e.evaluate p args).Agrees (Machine.call e.domain e.descriptor p args) := by
  by_cases hp : p.interpreter = e.descriptor.name
  · obtain ⟨xs, cs, hload, hxs, hcs, hxlen, -⟩ :=
      Machine.load_eq_ok hp hcount hargs hconstants
    have hwrap := wrap_eq_ok hp hcs
    have hfaithful : (⟨e, p.nArgs, cs, p.hostConstants, p.code, p.maxStack⟩ :
        Wrapper V).Faithful := by
      refine ⟨hD, hd, harms, ?_⟩
      intro args z k
      cases hspec : e.descriptor.power with
      | none => simp only [power, Machine.power, Wrapper.machine, hspec]
      | some spec =>
        rw [power_eq hspec (hpower spec hspec)]
        simp only [Machine.power, Wrapper.machine, hspec]
    have hcall := hfaithful.call hxs (hxlen.trans hcount)
    have hmachine : Machine.call e.domain e.descriptor p args
        = ((⟨e, p.nArgs, cs, p.hostConstants, p.code, p.maxStack⟩ :
            Wrapper V).machine xs).result.map e.domain.toHost := by
      rw [Machine.call, hload]
      rfl
    rw [evaluate, hwrap, hmachine]
    exact hcall
  · have hwrap : e.wrap p = .error (.programMismatch e.descriptor.name p.interpreter) := by
      simp only [wrap, hp, ne_eq, not_false_eq_true, if_true]
      rfl
    have hload : Machine.load e.domain e.descriptor p args
        = .error (.programMismatch e.descriptor.name p.interpreter) := by
      simp only [Machine.load, hp, ne_eq, not_false_eq_true, if_true]
      rfl
    rw [evaluate, hwrap, Machine.call, hload]
    exact ⟨rfl, by rintro ⟨_, _, h⟩; cases h⟩

/-- Every descriptor that a draft builds has an engine that refines the reference machine, in every
domain that can square without failing. -/
theorem exists_refines {draft : Draft} {d : Descriptor} {log : Log}
    (hbuild : draft.build = (some d, log)) {D : Domain V} (hD : D.Blameless)
    (hpower : ∀ spec, draft.power = some spec → D.Squares spec.square) :
    ∃ e, ofDescriptor D d = .ok e ∧ e.domain = D ∧ e.descriptor = d ∧ e.Refines := by
  have hbuilt := Draft.built_of_build hbuild
  obtain ⟨e, he, rfl, rfl, harms⟩ := exists_ofDescriptor hbuilt D
  refine ⟨e, he, rfl, rfl, ?_⟩
  intro p args hcount hargs hconstants
  have hagrees := evaluate_agrees hD hbuilt.wellFormed harms
    (fun spec hspec => hpower spec (by rw [hbuilt.descriptor] at hspec; exact hspec))
    hcount hargs hconstants
  exact ⟨hagrees.crashed_iff, fun _ => hagrees.eq_of_result?⟩

/-- The same for a draft that builds, under the name of the domain. -/
theorem exists_of_isSome {draft : Draft} (h : draft.build.1.isSome = true) {D : Domain V}
    (hname : draft.name = D.name) (hD : D.Blameless)
    (hpower : ∀ spec, draft.power = some spec → D.Squares spec.square) :
    ∃ d log e, draft.build = (some d, log) ∧ Machine.accepts D d = .ok () ∧
      ofDescriptor D d = .ok e ∧ e.domain = D ∧ e.descriptor = d ∧ e.Refines := by
  obtain ⟨d, hd⟩ := Option.isSome_iff_exists.mp h
  have hbuild : draft.build = (some d, draft.build.2) := Prod.ext hd rfl
  obtain ⟨e, he, hdomain, hdescriptor, hrefines⟩ := exists_refines hbuild hD hpower
  refine ⟨d, draft.build.2, e, hbuild, ?_, he, hdomain, hdescriptor, hrefines⟩
  rw [Machine.accepts, if_pos]
  rw [(Draft.built_of_build hbuild).descriptor]
  exact hname

end Engine

/-- The engines of the machines that come with the library refine the reference machine. -/
theorem catalog_engines_refine :
    (∃ d log e, Catalog.real.build = (some d, log) ∧
      Machine.accepts Domain.real d = .ok () ∧ Engine.ofDescriptor Domain.real d = .ok e ∧
      e.domain = Domain.real ∧ e.descriptor = d ∧ e.Refines) ∧
    ∃ d log e, Catalog.complex.build = (some d, log) ∧
      Machine.accepts Domain.complex d = .ok () ∧ Engine.ofDescriptor Domain.complex d = .ok e ∧
      e.domain = Domain.complex ∧ e.descriptor = d ∧ e.Refines := by
  constructor
  · apply Engine.exists_of_isSome (by decide +kernel) rfl Domain.real_blameless
    rintro spec ⟨⟩ x
    exact ⟨_, rfl⟩
  · apply Engine.exists_of_isSome (by decide +kernel) rfl Domain.complex_blameless
    rintro spec ⟨⟩ x
    exact ⟨_, rfl⟩

/-- Whether a result reports malformed bytecode. -/
def Machine.reportsBad {α : Type} : Except Failure α → Bool
  | .error (.badBytecode _ _) => true
  | _ => false

theorem Machine.reportsBad_iff {α : Type} {r : Except Failure α} :
    reportsBad r = true ↔ ∃ pc message, r = .error (.badBytecode pc message) := by
  constructor
  · intro h
    unfold reportsBad at h
    split at h
    · exact ⟨_, _, rfl⟩
    · cases h
  · rintro ⟨pc, message, rfl⟩
    rfl

/-- An instruction without its immediate, run on the engine. -/
theorem catalog_engines_refine_truncated :
    ∃ d log e, Catalog.real.build = (some d, log) ∧ Engine.ofDescriptor Domain.real d = .ok e ∧
      e.evaluate ⟨"rdf", 1, [0], [.int 2], [], 1⟩ [.int 7] = .crashed := by
  obtain ⟨d, log, e, hbuild, -, he, hdomain, rfl, hrefines⟩ := catalog_engines_refine.1
  have hcall : (Catalog.real.build.1.any fun d => Machine.reportsBad
      (Machine.call Domain.real d ⟨"rdf", 1, [0], [.int 2], [], 1⟩ [.int 7])) = true := by
    decide +kernel
  rw [hbuild] at hcall
  have hcrash := (hrefines ⟨"rdf", 1, [0], [.int 2], [], 1⟩ [.int 7] rfl
    (by rw [hdomain]; decide +kernel) (by rw [hdomain]; decide +kernel)).1
  refine ⟨_, log, e, hbuild, he, hcrash.mpr ?_⟩
  rw [hdomain]
  exact Machine.reportsBad_iff.mp hcall

end StackForge
