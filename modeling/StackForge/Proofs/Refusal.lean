import StackForge.Catalog
import StackForge.Proofs.Assembly

/-!
What refused calls leave behind. An instruction is checked as a whole before its words are added, but
a constant or a host object gets its place before that, and a power that goes by a constant has added
the constant before the power itself is checked. Whether a refused call changes the assembler is
therefore a condition on its pools and on the call.
-/
namespace StackForge.Assembler

variable {d : Descriptor} {a b : Assembler}

/-- No constant is the same as a value. -/
def Lacks (a : Assembler) (v : Host.Value) : Prop := ∀ c ∈ a.constants, c.same v = false

/-- No host object is the same as another one. -/
def LacksHost (a : Assembler) (o : Host.Object) : Prop := ∀ c ∈ a.hostConstants, c.same o = false

theorem intern_of_lacks {v : Host.Value} (h : a.Lacks v) :
    (a.intern v).2 = { a with constants := a.constants ++ [v] } := by
  have hnone : a.constants.findIdx? (·.same v) = none := List.findIdx?_eq_none_iff.mpr h
  simp [intern, hnone]

theorem internHost_of_lacks {o : Host.Object} (h : a.LacksHost o) :
    (a.internHost o).2 = { a with hostConstants := a.hostConstants ++ [o] } := by
  have hnone : a.hostConstants.findIdx? (·.same o) = none := List.findIdx?_eq_none_iff.mpr h
  simp [internHost, hnone]

/-- A value is added to its pool exactly if it is new there. -/
theorem intern_eq_self_iff {v : Host.Value} : (a.intern v).2 = a ↔ ¬a.Lacks v := by
  constructor
  · intro h hlacks
    rw [intern_of_lacks hlacks] at h
    have hlength := congrArg (fun a : Assembler => a.constants.length) h
    simp at hlength
  · intro h
    cases hfind : a.constants.findIdx? (·.same v) with
    | none => exact (h (List.findIdx?_eq_none_iff.mp hfind)).elim
    | some slot => simp [intern, hfind]

theorem internHost_eq_self_iff {o : Host.Object} : (a.internHost o).2 = a ↔ ¬a.LacksHost o := by
  constructor
  · intro h hlacks
    rw [internHost_of_lacks hlacks] at h
    have hlength := congrArg (fun a : Assembler => a.hostConstants.length) h
    simp at hlength
  · intro h
    cases hfind : a.hostConstants.findIdx? (·.same o) with
    | none => exact (h (List.findIdx?_eq_none_iff.mp hfind)).elim
    | some slot => simp [internHost, hfind]

/-- A refused attempt changes nothing. -/
theorem attempt_of_refused {step : Assembler → Except AssemblyFault Assembler}
    {fault : AssemblyFault} (h : (a.attempt step).2 = some fault) : (a.attempt step).1 = a := by
  unfold attempt at h ⊢
  split at h
  · cases h
  · rfl

/-- An accepted attempt to add an instruction makes the code longer. -/
theorem code_of_attempt {name : String} {words : Except AssemblyFault (List Int32)}
    (h : (a.attempt fun a => words >>= fun words => emit d name words a).2 = none) :
    a.code.length <
      (a.attempt fun a => words >>= fun words => emit d name words a).1.code.length := by
  unfold attempt at h ⊢
  split at h
  · rename_i b hb
    cases words with
    | error fault => cases hb
    | ok words =>
      obtain ⟨e, -, -, -, -, -, -, -, -, -, rfl⟩ := emit_eq_ok hb
      simp [Entry.code]
  · cases h

theorem loadConst_of_refused {v : Host.Value} {fault : AssemblyFault}
    (h : (a.loadConst d v).2 = some fault) : (a.loadConst d v).1 = (a.intern v).2 :=
  attempt_of_refused h

/-- A constant that is loaded makes the code longer. -/
theorem code_of_loadConst {v : Host.Value} (h : (a.loadConst d v).2 = none) :
    a.code.length < (a.loadConst d v).1.code.length := by
  have hcode : (a.intern v).2.code = a.code := by
    unfold intern
    split <;> rfl
  rw [← hcode]
  have hattempt := @code_of_attempt d (a.intern v).2 "load_const"
    (do return [← word "load_const" (a.intern v).1])
  simp only [bind_assoc, pure_bind] at hattempt
  exact hattempt h

/-- What makes a refused call change the assembler: a new constant, a new host object, or a power
by a constant that is new or was loaded before the power itself was refused. -/
def Call.Leaves (d : Descriptor) (a : Assembler) : Call → Prop
  | .loadArg _ | .instr _ _ => False
  | .loadConst v => a.Lacks v
  | .callHost f _ => a.LacksHost (.function f)
  | .power k => powerWord? d k = none ∧ (a.Lacks (.int k) ∨ (a.loadConst d (.int k)).2 = none)

/-- The condition for powers. -/
theorem power_eq_self_iff {k : Int64} {fault : AssemblyFault} (h : (a.power d k).2 = some fault) :
    (a.power d k).1 = a ↔ ¬(Call.power k).Leaves d a := by
  unfold power at h ⊢
  cases hword : powerWord? d k with
  | some exponent =>
    rw [hword] at h
    have hrun : (a.instr d powerName [exponent]).1 = a := attempt_of_refused h
    simp [Call.Leaves, hword, hrun]
  | none =>
    rw [hword] at h
    cases hload : a.loadConst d (.int k) with
    | mk b refused =>
      simp only [hload] at h ⊢
      cases refused with
      | some fault =>
        have hb : b = (a.intern (.int k)).2 := by
          simpa [hload] using loadConst_of_refused (congrArg Prod.snd hload)
        simp [Call.Leaves, hword, hload, hb, intern_eq_self_iff]
      | none =>
        -- the constant stays in the code when the power behind it is refused
        have hlonger : a.code.length < b.code.length := by
          simpa [hload] using code_of_loadConst (congrArg Prod.snd hload)
        have hrun : (b.instr d "pow" []).1 = b := attempt_of_refused h
        have hne : b ≠ a := by
          rintro rfl
          exact Nat.lt_irrefl _ hlonger
        simp [Call.Leaves, hword, hload, hrun, hne]

/-- A refused call leaves the assembler as it was exactly if it brings nothing new into the pools
and is no power whose constant was loaded already. -/
theorem refused_call_unchanged_iff (d : Descriptor) (a : Assembler) (call : Call)
    (fault : AssemblyFault) (h : (call.run d a).2 = some fault) :
    (call.run d a).1 = a ↔ ¬call.Leaves d a := by
  cases call with
  | loadArg index =>
    have hrun : (a.loadArg d index).1 = a := attempt_of_refused h
    simp [Call.run, Call.Leaves, hrun]
  | instr name words =>
    have hrun : (a.instr d name words).1 = a := attempt_of_refused h
    simp [Call.run, Call.Leaves, hrun]
  | loadConst v =>
    have hrun := loadConst_of_refused h
    rw [Call.run, hrun]
    exact intern_eq_self_iff
  | callHost f n =>
    have hrun : (a.callHost d f n).1 = (a.internHost (.function f)).2 := attempt_of_refused h
    rw [Call.run, hrun]
    exact internHost_eq_self_iff
  | power k => exact power_eq_self_iff h

/-- Behind a return, a constant that is in the pool is refused without a trace, and another one
leaves its place. -/
theorem refused_call_unchanged_core :
    ∃ d log a, (Catalog.core "rdf" .double).build = (some d, log) ∧
      a = runAll d (.start 0) [.loadConst (.int 3), .instr "return" []] ∧
      (Call.run d (.loadConst (.int 3)) a).2 = some (.afterReturn "load_const") ∧
      (Call.run d (.loadConst (.int 3)) a).1 = a ∧
      (Call.run d (.loadConst (.int 4)) a).2 = some (.afterReturn "load_const") ∧
      (Call.run d (.loadConst (.int 4)) a).1 ≠ a := by
  have hall : ((Catalog.core "rdf" .double).build.1.any fun d =>
      let a := runAll d (.start 0) [.loadConst (.int 3), .instr "return" []]
      decide (a.constants = [.int 3] ∧
        (Call.run d (.loadConst (.int 3)) a).2 = some (.afterReturn "load_const") ∧
        (Call.run d (.loadConst (.int 4)) a).2 = some (.afterReturn "load_const"))) = true := by
    decide +kernel
  generalize Catalog.core "rdf" .double = draft at hall ⊢
  obtain ⟨d, hd, hcalls⟩ := (Option.any_eq_true _ _).mp hall
  obtain ⟨hpool, hthree, hfour⟩ := of_decide_eq_true hcalls
  refine ⟨d, draft.build.2, _, Prod.ext hd rfl, rfl, hthree, ?_, hfour, ?_⟩
  · refine (refused_call_unchanged_iff d _ _ _ hthree).mpr ?_
    intro hlacks
    have hsame := hlacks (.int 3) (by rw [hpool]; exact List.mem_cons_self)
    cases hsame
  · intro hsame
    refine (refused_call_unchanged_iff d _ _ _ hfour).mp hsame ?_
    intro c hc
    rw [hpool] at hc
    rw [List.mem_singleton.mp hc]
    rfl

/-- A power of the empty stack is refused, but the constant that stands for its exponent stays: it
is in the pool and in the code, and the stack is deeper by one. -/
theorem refused_power_leaves_load :
    ∃ d log, Catalog.real.build = (some d, log) ∧
      ∃ a, a = runAll d (.start 0) [] ∧ a.code = [] ∧ a.depth = 0 ∧
        (Call.run d (.power 4294967296) a).2 = some (.stackUnderflow "pow" 2 1) ∧
        (Call.run d (.power 4294967296) a).1.code = [1, 0] ∧
        (Call.run d (.power 4294967296) a).1.depth = 1 ∧
        ¬∀ call fault, (Call.run d call a).2 = some fault → (Call.run d call a).1 = a := by
  have hall : (Catalog.real.build.1.any fun d =>
      let after := Call.run d (.power 4294967296) (runAll d (.start 0) [])
      decide (after.2 = some (.stackUnderflow "pow" 2 1) ∧ after.1.code = [1, 0] ∧
        after.1.depth = 1)) = true := by
    decide +kernel
  generalize Catalog.real = draft at hall ⊢
  obtain ⟨d, hd, hpower⟩ := (Option.any_eq_true _ _).mp hall
  obtain ⟨hrefused, hcode, hdepth⟩ := of_decide_eq_true hpower
  refine ⟨d, draft.build.2, Prod.ext hd rfl, _, rfl, rfl, rfl, hrefused, hcode, hdepth, ?_⟩
  intro hunchanged
  rw [hunchanged _ _ hrefused] at hdepth
  cases hdepth

end StackForge.Assembler
