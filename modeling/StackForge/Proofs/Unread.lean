import StackForge.Proofs.Events

/-!
What a run depends on: the code up to the end of its last instruction, and the elements of the pools
that were looked up. Whatever else the code and the pools hold, the states, the events and the
result are the same.
-/
namespace StackForge

namespace Machine

variable {V : Type}

variable {m m' : Machine V}

/-- Binding inputs depends on the elements that it looks up, and on nothing else in the pools. -/
theorem bind_congr {stack : List V} {ps : List Param} {words : List Int32} {offset : Nat}
    (h : ∀ role k, .read role k ∈ m.reads stack ps words offset →
      m'.indexed? role k = m.indexed? role k) (pc : Nat) (f : Frame V) :
    m'.bind stack pc ps words offset f = m.bind stack pc ps words offset f ∧
      m'.reads stack ps words offset = m.reads stack ps words offset := by
  induction ps generalizing words offset f with
  | nil => exact ⟨rfl, rfl⟩
  | cons p rest ih =>
    cases hkind : p.kind with
    | single =>
      simp only [bind, reads, hkind] at h ⊢
      cases hv : stack[offset]? with
      | none => exact ⟨rfl, rfl⟩
      | some v =>
        simp only [hv] at h
        exact ih h _
    | indexed index =>
      cases words with
      | nil => simp [bind, reads, hkind]
      | cons w words =>
        simp only [bind, reads, hkind] at h ⊢
        by_cases hneg : w < 0
        · simp [hneg]
        · simp only [hneg, if_false] at h ⊢
          rw [h p.role w.toInt.toNat List.mem_cons_self]
          cases ho : m.indexed? p.role w.toInt.toNat with
          | none => exact ⟨rfl, rfl⟩
          | some o =>
            simp only [ho] at h
            have hrest : ∀ role k, .read role k ∈ m.reads stack rest words offset →
                m'.indexed? role k = m.indexed? role k :=
              fun role k hk => h role k (List.mem_cons_of_mem _ hk)
            obtain ⟨hbind, hreads⟩ := ih hrest (f.pushInput o)
            exact ⟨hbind, by rw [hreads]⟩
    | immediate =>
      cases words with
      | nil => simp [bind, reads, hkind]
      | cons w words =>
        simp only [bind, reads, hkind] at h ⊢
        exact ih h _
    | variadic count =>
      cases words with
      | nil => simp [bind, reads, hkind]
      | cons w words =>
        simp only [bind, reads, hkind] at h ⊢
        by_cases hneg : w < 0
        · simp [hneg]
        · simp only [hneg, if_false] at h ⊢
          cases hitems : slice? stack offset w.toInt.toNat with
          | none => exact ⟨rfl, rfl⟩
          | some items =>
            simp only [hitems] at h
            exact ih h _

/-- A slice does not depend on what stands behind it. -/
theorem slice?_congr {α : Type} {xs ys : List α} {stop start count : Nat}
    (h : ys.take stop = xs.take stop) (hstop : start + count ≤ stop) :
    slice? ys start count = slice? xs start count := by
  have htake : ys.take (start + count) = xs.take (start + count) := by
    rw [← Nat.min_eq_left hstop, ← List.take_take, h, List.take_take]
  have hdrop : (ys.drop start).take count = (xs.drop start).take count := by
    rw [List.take_drop, List.take_drop, htake]
  rw [slice?, slice?, hasLength, hasLength, htake, hdrop]

/-- Two machines that differ in nothing but code from some word on, and elements of pools that are
not looked up in some events. -/
structure Alike (m m' : Machine V) (stop : Nat) (events : List Event) : Prop where
  domain : m'.domain = m.domain
  descriptor : m'.descriptor = m.descriptor
  args : m'.args = m.args
  code : m'.code.take stop = m.code.take stop
  constants : ∀ k, .read .constants k ∈ events → m'.constants[k]? = m.constants[k]?
  hostConstants : ∀ k, .read .hostConstants k ∈ events → m'.hostConstants[k]? = m.hostConstants[k]?

namespace Alike

variable {stop : Nat} {events : List Event} {s : Execution V}

theorem indexed? (h : m.Alike m' stop events) {role : Role} {k : Nat}
    (hread : .read role k ∈ events) : m'.indexed? role k = m.indexed? role k := by
  cases role with
  | args => simp only [Machine.indexed?, h.args]
  | constants => simp only [Machine.indexed?, h.constants k hread]
  | hostConstants => simp only [Machine.indexed?, h.hostConstants k hread]
  | stack | code => rfl

theorem context (h : m.Alike m' stop events) (i : Instruction) : m'.context i = m.context i := by
  have hpower : m'.power = m.power := by
    funext z k
    simp only [Machine.power, h.domain, h.descriptor]
  simp only [Machine.context, h.domain, h.descriptor, hpower]

/-- An instruction before the words that differ is the same. -/
theorem decode (h : m.Alike m' stop events) {pc : Nat} {i : Instruction} {words : List Int32}
    (hdecode : m.decode pc = .ok ⟨i, words⟩) (hstop : pc + i.width ≤ stop) :
    m'.decode pc = .ok ⟨i, words⟩ := by
  obtain ⟨op, hop, hi, hwords⟩ := decode_eq_ok_iff.mp hdecode
  have hwidth : 1 ≤ i.width := by simp [Instruction.width, Signature.width]
  have hop' : m'.code[pc]? = some op := by
    rw [← List.getElem?_take_of_lt (show pc < stop by omega), h.code,
      List.getElem?_take_of_lt (by omega), hop]
  refine decode_eq_ok_iff.mpr ⟨op, hop', by rw [h.descriptor, hi], ?_⟩
  rw [slice?_congr h.code (by omega), hwords]

/-- It is carried out in the same way. -/
theorem dispatch (h : m.Alike m' stop events) {i : Instruction} {words : List Int32}
    (hdecode : m.decode s.pc = .ok ⟨i, words⟩) (hstop : s.pc + i.width ≤ stop)
    (hevents : ∀ e ∈ m.eventsAt s, e ∈ events) :
    m'.dispatch s = m.dispatch s ∧ m'.eventsAt s = m.eventsAt s := by
  have hdecode' := h.decode hdecode hstop
  simp only [Machine.eventsAt, hdecode, hdecode', whenOk] at hevents ⊢
  rw [dispatch_of_decode hdecode, dispatch_of_decode hdecode', h.context i]
  cases hbase : base s.pc s.sp ⟨i, words⟩ with
  | error failure => exact ⟨rfl, rfl⟩
  | ok b =>
    simp only [hbase] at hevents
    have hpools : ∀ role k, .read role k ∈ m.reads s.stack i.signature.inputs words b →
        m'.indexed? role k = m.indexed? role k :=
      fun role k hk => h.indexed? (hevents _ (List.mem_append_left _ hk))
    obtain ⟨hbind, hreads⟩ := bind_congr hpools s.pc (.empty i.signature.outputs.length)
    simp only [Bind.bind, Except.bind, hbind, hreads, and_self]

theorem step (h : m.Alike m' stop events) {i : Instruction} {words : List Int32}
    (hdecode : m.decode s.pc = .ok ⟨i, words⟩) (hstop : s.pc + i.width ≤ stop)
    (hevents : ∀ e ∈ m.eventsAt s, e ∈ events) :
    m'.step s = m.step s ∧ m'.eventsAt s = m.eventsAt s := by
  obtain ⟨hdispatch, hsame⟩ := h.dispatch hdecode hstop hevents
  exact ⟨by simp only [Machine.step, hdispatch], hsame⟩

end Alike

theorem live_of_live_run {n : Nat} {s : Execution V} (h : (m.run n s).status.isFinal = false) :
    s.status.isFinal = false := by
  cases hs : s.status.isFinal with
  | false => rfl
  | true =>
    rw [m.run_of_isFinal n hs, hs] at h
    cases h

/-- A run goes forward. -/
theorem pc_le_run {n : Nat} {s : Execution V} (h : (m.run n s).status.isFinal = false) :
    s.pc ≤ (m.run n s).pc := by
  induction n generalizing s with
  | zero => exact Nat.le_refl _
  | succ n ih =>
    have hstep := pc_lt_step (live_of_live_run (s := m.step s) h)
    have hrun := ih (s := m.step s) h
    rw [run_succ]
    omega

/-- A step that does not end the run carries out a whole instruction. -/
theorem exists_decode_of_live_step {s : Execution V} (h : (m.step s).status.isFinal = false) :
    ∃ i words, m.decode s.pc = .ok ⟨i, words⟩ ∧ (m.step s).pc = s.pc + i.width := by
  rcases step_cases (live_of_live_step h) with ⟨hend, -⟩ | ⟨d, values, stack, hd, -, -, hstep⟩
  · rw [hend] at h
    cases h
  · obtain ⟨words, os, hdecode, -⟩ := exists_of_dispatch hd
    exact ⟨d.instruction, words, hdecode, by rw [hstep]⟩

theorem run_congr_of_step {s : Execution V}
    (hstep : m'.step s = m.step s ∧ m'.eventsAt s = m.eventsAt s)
    (hrest : ∀ j, m'.run j (m.step s) = m.run j (m.step s) ∧
      m'.eventsIn j (m.step s) = m.eventsIn j (m.step s)) (k : Nat) :
    m'.run k s = m.run k s ∧ m'.eventsIn k s = m.eventsIn k s := by
  cases k with
  | zero => exact ⟨rfl, rfl⟩
  | succ j =>
    obtain ⟨hrun, hevents⟩ := hrest j
    rw [run_succ, run_succ, eventsIn_succ, eventsIn_succ, hstep.1, hstep.2, hrun, hevents]
    exact ⟨rfl, rfl⟩

/-- A run whose last instruction ends before the words that differ is the same, and so are its
events. -/
theorem Alike.run {stop : Nat} {events : List Event} (h : m.Alike m' stop events) {n : Nat}
    {s : Execution V} {i : Instruction} {words : List Int32}
    (hlive : (m.run n s).status.isFinal = false)
    (hend : (m.run (n + 1) s).status.isFinal = true)
    (hdecode : m.decode (m.run n s).pc = .ok ⟨i, words⟩)
    (hstop : (m.run n s).pc + i.width ≤ stop)
    (hevents : ∀ e ∈ m.eventsIn (n + 1) s, e ∈ events) (k : Nat) :
    m'.run k s = m.run k s ∧ m'.eventsIn k s = m.eventsIn k s := by
  induction n generalizing s k with
  | zero =>
    -- the last instruction: what follows it is over on both sides
    rw [run_zero] at hlive hdecode hstop
    have hat : ∀ e ∈ m.eventsAt s, e ∈ events := by
      intro e he
      apply hevents
      rw [eventsIn_succ, if_neg (by simpa using hlive)]
      exact List.mem_append_left _ he
    refine run_congr_of_step (h.step hdecode hstop hat) (fun j => ?_) k
    have hover : (m.step s).status.isFinal = true := hend
    rw [m'.run_of_isFinal j hover, m.run_of_isFinal j hover, m'.eventsIn_of_isFinal j hover,
      m.eventsIn_of_isFinal j hover]
    exact ⟨rfl, rfl⟩
  | succ n ih =>
    have hnext : (m.step s).status.isFinal = false := live_of_live_run hlive
    have hfirst : s.status.isFinal = false := live_of_live_step hnext
    have hsplit : m.eventsIn (n + 2) s = m.eventsAt s ++ m.eventsIn (n + 1) (m.step s) := by
      rw [eventsIn_succ, if_neg (by simp [hfirst])]
    obtain ⟨i', words', hdecode', hpc⟩ := exists_decode_of_live_step hnext
    have hforward : (m.step s).pc ≤ (m.run (n + 1) s).pc := pc_le_run hlive
    have hstep := h.step hdecode' (by omega) fun e he =>
      hevents e (by rw [hsplit]; exact List.mem_append_left _ he)
    refine run_congr_of_step hstep (fun j => ?_) k
    exact ih hlive hend hdecode hstop
      (fun e he => hevents e (by rw [hsplit]; exact List.mem_append_right _ he)) j

/-- All runs of two machines that agree on every state end alike. -/
theorem result_congr (hstart : m'.start = m.start)
    (hrun : ∀ k, m'.run k m.start = m.run k m.start) : m'.result = m.result := by
  have hover := m.isFinal_run
  have hover' := m'.isFinal_run
  rw [hstart, hrun] at hover'
  unfold result
  rw [hstart, hrun]
  -- both lengths of code are enough, so both runs are what they are after the sum of the two
  rw [← m.run_of_isFinal (m.code.length + 1) hover', ← run_add, Nat.add_comm, run_add,
    m.run_of_isFinal _ hover]

/-- What a machine is loaded with. -/
theorem load_eq_ok_iff {D : Domain V} {d : Descriptor} {p : Program} {args : List Host.Value} :
    load D d p args = .ok m ↔ p.interpreter = d.name ∧ args.length = p.nArgs ∧
      ∃ xs cs, args.mapM D.ofHost = .ok xs ∧ p.constants.mapM D.ofHost = .ok cs ∧
        m = ⟨D, d, p.code, xs, cs, p.hostConstants, p.maxStack⟩ := by
  by_cases hname : p.interpreter = d.name
  · by_cases hcount : args.length = p.nArgs
    · simp only [load, hname, hcount, ne_eq, not_true_eq_false, if_false, true_and]
      constructor
      · intro h
        obtain ⟨xs, hxs, h⟩ := bind_eq_ok h
        obtain ⟨cs, hcs, h⟩ := bind_eq_ok h
        cases h
        exact ⟨xs, cs, hxs, hcs, rfl⟩
      · rintro ⟨xs, cs, hxs, hcs, rfl⟩
        rw [hxs, hcs]
        rfl
    · simp [load, hname, hcount, throw, throwThe, MonadExceptOf.throw, Bind.bind, Except.bind]
  · simp [load, hname, throw, throwThe, MonadExceptOf.throw, Bind.bind, Except.bind]

end Machine

theorem getElem?_of_mapM {ε α β : Type} {f : α → Except ε β} {xs : List α} {ys : List β}
    (h : xs.mapM f = .ok ys) (k : Nat) : ys[k]? = xs[k]?.bind fun x => (f x).toOption := by
  induction xs generalizing ys k with
  | nil =>
    cases h
    simp
  | cons x rest ih =>
    rw [List.mapM_cons] at h
    obtain ⟨y, hy, h⟩ := bind_eq_ok h
    obtain ⟨ys', hys', h⟩ := bind_eq_ok h
    cases h
    cases k with
    | zero => simp [hy, Except.toOption]
    | succ k => simp [ih hys' k]

/-- Programs whose code and pools agree as far as it matters give machines that do. -/
theorem Machine.alike_of_load {V : Type} {D : Domain V} {d : Descriptor} {p p' : Program}
    {args : List Host.Value} {m m' : Machine V} {stop : Nat} {events : List Event}
    (hload : load D d p args = .ok m) (hload' : load D d p' args = .ok m')
    (hcode : p'.code.take stop = p.code.take stop)
    (hconstants : ∀ k, .read .constants k ∈ events → p'.constants[k]? = p.constants[k]?)
    (hhosts : ∀ k, .read .hostConstants k ∈ events → p'.hostConstants[k]? = p.hostConstants[k]?) :
    m.Alike m' stop events := by
  obtain ⟨-, -, xs, cs, hxs, hcs, rfl⟩ := load_eq_ok_iff.mp hload
  obtain ⟨-, -, xs', cs', hxs', hcs', rfl⟩ := load_eq_ok_iff.mp hload'
  rw [hxs] at hxs'
  cases hxs'
  refine ⟨rfl, rfl, rfl, hcode, ?_, hhosts⟩
  intro k hk
  change cs'[k]? = cs[k]?
  rw [getElem?_of_mapM hcs', getElem?_of_mapM hcs, hconstants k hk]

/-- Nothing behind the end of a run matters. Let a run be over with an instruction that lies inside
of the code. Another program with the same words up to the end of that instruction, and with the
same elements of the pools where the run looked one up, is loaded if its constants convert, and then
has the same states, the same events and the same result. Further steps change nothing and have no
events. If it was the host that failed, its call was the last event. -/
theorem runs_ignore_the_unread {V : Type} (D : Domain V) (d : Descriptor) (p p' : Program)
    (args : List Host.Value) (m : Machine V) (hload : Machine.load D d p args = .ok m) (n : Nat)
    (hlive : (m.run n m.start).status.isFinal = false)
    (hend : (m.run (n + 1) m.start).status.isFinal = true) (i : Instruction) (words : List Int32)
    (hdecode : m.decode (m.run n m.start).pc = .ok ⟨i, words⟩)
    (hsame : p'.interpreter = p.interpreter ∧ p'.nArgs = p.nArgs ∧ p'.maxStack = p.maxStack)
    (hcode : p'.code.take ((m.run n m.start).pc + i.width)
      = p.code.take ((m.run n m.start).pc + i.width))
    (hconverts : ∀ v ∈ p'.constants, D.Converts v)
    (hconstants : ∀ k, .read .constants k ∈ m.eventsIn (n + 1) m.start →
      p'.constants[k]? = p.constants[k]?)
    (hhosts : ∀ k, .read .hostConstants k ∈ m.eventsIn (n + 1) m.start →
      p'.hostConstants[k]? = p.hostConstants[k]?) :
    ∃ m', Machine.load D d p' args = .ok m' ∧
      (∀ k, m'.run k m'.start = m.run k m.start ∧
        m'.eventsIn k m'.start = m.eventsIn k m.start) ∧
      m'.result = m.result ∧ Machine.call D d p' args = Machine.call D d p args ∧
      (∀ k, m.run (n + 1 + k) m.start = m.run (n + 1) m.start ∧
        m.eventsIn (n + 1 + k) m.start = m.eventsIn (n + 1) m.start) ∧
      ((∀ f, D.Raises f → f.isHostCall = false) → ∀ function message,
        (m.run (n + 1) m.start).status = .failed (.hostCall function message) →
          EndsInCall function message (m.eventsIn (n + 1) m.start)) := by
  obtain ⟨hname, hcount, xs, cs, hxs, hcs, hm⟩ := Machine.load_eq_ok_iff.mp hload
  obtain ⟨cs', hcs', -⟩ := D.mapM_ofHost hconverts
  have hload' := Machine.load_eq_ok_iff.mpr
    ⟨hsame.1.trans hname, hcount.trans hsame.2.1.symm, xs, cs', hxs, hcs', rfl⟩
  refine ⟨_, hload', ?_⟩
  generalize hm' : (⟨D, d, p'.code, xs, cs', p'.hostConstants, p'.maxStack⟩ : Machine V) = m'
    at hload' ⊢
  have hstart : m'.start = m.start := by
    rw [hm, ← hm']
    simp only [Machine.start, hsame.2.2]
  have halike := Machine.alike_of_load hload hload' hcode hconstants hhosts
  have hruns := fun k => halike.run hlive hend hdecode (Nat.le_refl _) (fun e he => he) k
  have hresult : m'.result = m.result := Machine.result_congr hstart fun k => (hruns k).1
  refine ⟨?_, hresult, ?_, ?_, ?_⟩
  · intro k
    rw [hstart]
    exact hruns k
  · simp only [Machine.call, hload, hload']
    change (m'.result >>= _) = (m.result >>= _)
    rw [hresult]
  · intro k
    rw [Machine.run_add, m.run_of_isFinal k hend, m.eventsIn_add, m.eventsIn_of_isFinal k hend,
      List.append_nil]
    exact ⟨rfl, rfl⟩
  · intro hD function message hfailed
    have hdomain : m.domain = D := by rw [hm]
    exact Machine.endsInCall_of_run (hdomain ▸ hD) rfl hfailed

/-- A call of the host fails, and nothing happens after it. The words behind it, the constant and
the other object of the host are never looked at. -/
theorem runs_ignore_the_unread_hostCall :
    ∃ (d : Descriptor) (log : Log) (roots : Host.Function) (p p' : Program) (m m' : Machine Double),
      (Catalog.core "rdf" .double).build = (some d, log) ∧
      roots = ⟨0, "roots", fun _ => .error "no roots"⟩ ∧
      p = ⟨"rdf", 1, [0, 0, 3, 0, 1, 9, 9], [.real .one],
        [.function roots, .value (.real .one)], 1⟩ ∧
      p' = ⟨"rdf", 1, [0, 0, 3, 0, 1], [.real .zero], [.function roots, .value (.int 7)], 1⟩ ∧
      Machine.load .real d p [.real .one] = .ok m ∧
      Machine.load .real d p' [.real .one] = .ok m' ∧
      (m.run 2 m.start).status = .failed (.hostCall "roots" "no roots") ∧
      (∀ k, m'.run k m'.start = m.run k m.start) ∧ m'.result = m.result ∧
      EndsInCall "roots" "no roots" (m.eventsIn 2 m.start) := by
  obtain ⟨roots, hroots⟩ : ∃ roots : Host.Function,
    roots = ⟨0, "roots", fun _ => .error "no roots"⟩ := ⟨_, rfl⟩
  have hall : ((Catalog.core "rdf" .double).build.1.any fun d =>
      let m : Machine Double := ⟨.real, d, [0, 0, 3, 0, 1, 9, 9], [.one], [.one],
        [.function roots, .value (.real .one)], 1⟩
      (m.decode (m.run 1 m.start).pc).toOption.any fun next =>
        match (m.run 2 m.start).status with
        | .failed failure => decide (d.name = "rdf" ∧
            (m.run 1 m.start).status.isFinal = false ∧ failure = .hostCall "roots" "no roots" ∧
            (m.run 1 m.start).pc + next.instruction.width = 5 ∧
            (m.eventsIn 2 m.start).filterMap Event.read?
              = [(.args, 0), (.hostConstants, 0)])
        | _ => false) = true := by
    rw [hroots]
    decide +kernel
  obtain ⟨d, log, hbuild, hrun⟩ := Draft.exists_of_build_any hall
  generalize hm : (⟨.real, d, [0, 0, 3, 0, 1, 9, 9], [.one], [.one],
    [.function roots, .value (.real .one)], 1⟩ : Machine Double) = m at hrun
  obtain ⟨next, hnext, hrun⟩ := (Option.any_eq_true _ _).mp hrun
  have hdecode := eq_ok_of_toOption hnext
  split at hrun
  case h_2 => cases hrun
  rename_i failure hfailed
  obtain ⟨hname, hlive, rfl, hwidth, hreads⟩ := of_decide_eq_true hrun
  have hend : (m.run 2 m.start).status.isFinal = true := by
    rw [hfailed]
    rfl
  -- the only objects looked up are the argument and the function
  have honly : ∀ {role k}, .read role k ∈ m.eventsIn 2 m.start →
      (role, k) ∈ [(Role.args, 0), (Role.hostConstants, 0)] := by
    intro role k hk
    rw [← hreads]
    exact List.mem_filterMap.mpr ⟨_, hk, rfl⟩
  have hload : Machine.load .real d ⟨"rdf", 1, [0, 0, 3, 0, 1, 9, 9], [.real .one],
      [.function roots, .value (.real .one)], 1⟩ [.real .one] = .ok m :=
    Machine.load_eq_ok_iff.mpr ⟨hname.symm, rfl, [.one], [.one], rfl, rfl, hm.symm⟩
  obtain ⟨m', hload', hruns, hresult, -, -, hlast⟩ := runs_ignore_the_unread .real d _
    ⟨"rdf", 1, [0, 0, 3, 0, 1], [.real .zero], [.function roots, .value (.int 7)], 1⟩
    [.real .one] m hload 1 hlive hend next.instruction next.words hdecode ⟨rfl, rfl, rfl⟩
    (by rw [hwidth]; rfl) (by simpa using ⟨Double.zero, rfl⟩)
    (fun k hk => by simpa using honly hk)
    (fun k hk => by
      obtain rfl : k = 0 := by simpa using honly hk
      rfl)
  have hquiet : ∀ f, Domain.real.Raises f → f.isHostCall = false :=
    fun f hf => Failure.isHostCall_of_isArithmetic (Domain.isArithmetic_of_real hf)
  exact ⟨d, log, roots, _, _, m, m', hbuild, hroots, rfl, rfl, hload, hload', hfailed,
    fun k => (hruns k).1, hresult, hlast hquiet _ _ hfailed⟩

end StackForge
