import StackForge.Proofs.Marks

/-!
What runs do outside of the stack and the code. `Event` is a look-up in a pool or a call of a
function of the host; an instruction has its events in the order of evaluation, up to its first
failure. A call of the host that fails is the last event of its run.
-/
namespace StackForge

/-- What a run does outside of its stack and its code. -/
inductive Event where
  /-- An element of a pool is looked up. -/
  | read (role : Role) (index : Nat)
  /-- A function of the host is called. -/
  | call (function : Host.Function) (args : List Host.Value)

/-- The element that was looked up, if this is what happened. -/
def Event.read? : Event → Option (Role × Nat)
  | .read role index => some (role, index)
  | .call _ _ => none

/-- What comes after a result that is a value; nothing comes after a failure. -/
def whenOk {α β : Type} (x : Except Failure α) (next : α → List β) : List β :=
  match x with
  | .ok a => next a
  | .error _ => []

/-- Failures of functions of the host. -/
def Failure.isHostCall : Failure → Bool
  | .hostCall _ _ => true
  | _ => false

theorem Failure.isHostCall_of_isArithmetic {f : Failure} (h : f.isArithmetic = true) :
    f.isHostCall = false := by
  cases f with
  | hostCall => cases h
  | _ => rfl

/-- The last event is a call of the host, and it fails with the message. -/
def EndsInCall (function message : String) (events : List Event) : Prop :=
  ∃ before fn args, events = before ++ [.call fn args] ∧ fn.name = function ∧
    fn.run args = .error message

theorem EndsInCall.append_left {function message : String} {events : List Event}
    (h : EndsInCall function message events) (first : List Event) :
    EndsInCall function message (first ++ events) := by
  obtain ⟨before, fn, args, rfl, hname, hrun⟩ := h
  exact ⟨first ++ before, fn, args, (List.append_assoc ..).symm, hname, hrun⟩

/-- A result with its events: if the host failed, then in the last of them. -/
def Traced {α : Type} (events : List Event) (x : Except Failure α) : Prop :=
  ∀ function message, x = .error (.hostCall function message) → EndsInCall function message events

namespace Traced

variable {α β : Type} {events : List Event} {x : Except Failure α} {P : α → Prop}

theorem of_ends (h : Ends (·.isHostCall = false) P x) : Traced events x := by
  rintro function message rfl
  cases h

theorem of_needsMark (h : Ends (·.needsMark = false) P x) : Traced events x := by
  rintro function message rfl
  cases h

/-- What comes second has events only if the first result is a value. -/
theorem bind {g : α → Except Failure β} {next : α → List Event} (hx : Traced events x)
    (hg : ∀ a, Traced (next a) (g a)) : Traced (events ++ whenOk x next) (x >>= g) := by
  intro function message h
  cases x with
  | ok a => exact (hg a function message h).append_left events
  | error failure =>
    cases h
    rw [whenOk, List.append_nil]
    exact hx function message rfl

/-- A first part that has no events, and no failures that need a mark. -/
theorem after {g : α → Except Failure β} {next : α → List Event}
    (hx : Ends (·.needsMark = false) P x) (hg : ∀ a, Traced (next a) (g a)) :
    Traced (whenOk x next) (x >>= g) := by
  rw [← List.nil_append (whenOk x next)]
  exact (of_needsMark hx).bind hg

theorem andThen {g : α → Except Failure β} {Q : β → Prop} (hx : Traced events x)
    (hg : ∀ a, Ends (·.isHostCall = false) Q (g a)) : Traced events (x >>= g) := by
  intro function message h
  cases x with
  | ok a => exact of_ends (hg a) function message h
  | error failure =>
    cases h
    exact hx function message rfl

end Traced

namespace BodyContext

variable {V : Type}

/-- The calls of the host that one call of a body makes. -/
def invocations (ctx : BodyContext V) (name : String) : List (Operand V) → List Event
  | [.host o, .slice items] =>
    if name = callHost then
      match o.function? with
      | some fn => [.call fn (items.map ctx.domain.toHost)]
      | none => []
    else []
  | _ => []

mutual

/-- The events of an expression, in the order of evaluation. -/
def events (ctx : BodyContext V) (f : Frame V) : Expr → List Event
  | .number _ _ | .var _ => []
  | .neg x _ => events ctx f x
  | .binary _ l r _ => events ctx f l ++ whenOk (ctx.value f l) fun _ => events ctx f r
  | .call callee args _ =>
    operandEvents ctx f args ++ whenOk (ctx.operands f args) (ctx.invocations callee.name)
  | .method receiver _ args _ =>
    events ctx f receiver ++ whenOk (ctx.value f receiver) fun _ => valueEvents ctx f args
  | .attempt inner _ | .paren inner _ => events ctx f inner

def operandEvents (ctx : BodyContext V) (f : Frame V) : List Expr → List Event
  | [] => []
  | e :: rest => events ctx f e ++ whenOk (ctx.operand f e) fun _ => operandEvents ctx f rest

def valueEvents (ctx : BodyContext V) (f : Frame V) : List Expr → List Event
  | [] => []
  | e :: rest => events ctx f e ++ whenOk (ctx.value f e) fun _ => valueEvents ctx f rest

end

def stmtEvents (ctx : BodyContext V) : Frame V → List Stmt → List Event
  | _, [] => []
  | f, s :: rest => ctx.events f s.value ++ whenOk (ctx.runStmts f [s]) fun
    | (f', none) => ctx.stmtEvents f' rest
    | (_, some _) => []

/-- The events of a body. -/
def bodyEvents (ctx : BodyContext V) (f : Frame V) : Body → List Event
  | .expression e => ctx.events f e
  | .block b => ctx.stmtEvents f b.stmts

/-- A context in which only functions of the host fail as such. -/
structure Quiet (ctx : BodyContext V) : Prop where
  domain : ∀ f, ctx.domain.Raises f → f.isHostCall = false
  power : ∀ z k, Ends (·.isHostCall = false) (fun _ => True) (ctx.power z k)

namespace Quiet

variable {ctx : BodyContext V} {f : Frame V}

theorem asValue (ctx : BodyContext V) (o : Operand V) :
    Ends (·.isHostCall = false) (fun _ => True) (ctx.asValue o) := by
  cases o with
  | value v => trivial
  | _ => rfl

theorem lookup (h : ctx.Quiet) (f : Frame V) (name : String) :
    Ends (·.isHostCall = false) (fun _ => True) (ctx.lookup f name) := by
  unfold BodyContext.lookup
  split
  · trivial
  · split
    · have hconstant : Ends (·.isHostCall = false) (fun _ => True) (ctx.domain.constant name) :=
        .of_error fun _ hf => h.domain _ (.constant hf)
      exact hconstant.map fun _ _ => trivial
    · rfl

theorem traced_helper (h : ctx.Quiet) (name : String) (os : List (Operand V))
    {events : List Event} :
    Traced events (do ctx.domain.helper name (← ctx.asValues name os)) :=
  Traced.andThen (.of_needsMark (ctx.asValues_needsMark name os)) fun _ =>
    .of_error fun _ hf => h.domain _ (.helper hf)

theorem traced_callHost (h : ctx.Quiet) (o : Host.Object) (items : List V) :
    Traced (ctx.invocations callHost [.host o, .slice items]) (ctx.domain.callHost o items) := by
  simp only [invocations, if_true]
  unfold Domain.callHost
  cases o.function? with
  | none => exact .of_ends (P := fun _ => True) rfl
  | some fn =>
    dsimp only
    split
    · rename_i message hrun
      rintro _ _ ⟨⟩
      exact ⟨[], fn, _, rfl, rfl, hrun⟩
    · exact .of_ends (.of_error fun _ hf => h.domain _ (.ofHost hf))

theorem traced_call (h : ctx.Quiet) (name : String) (os : List (Operand V)) :
    Traced (ctx.invocations name os) (ctx.call name os) := by
  unfold BodyContext.call
  split
  · split
    · exact .of_ends (h.power _ _)
    · exact h.traced_helper name _
  · split
    · rename_i hname
      rw [hname]
      exact h.traced_callHost _ _
    · exact h.traced_helper name _
  · exact h.traced_helper name _

theorem traced_value {e : Expr} (he : Traced (ctx.events f e) (ctx.operand f e)) :
    Traced (ctx.events f e) (ctx.value f e) :=
  he.andThen (asValue ctx)

mutual

/-- The events of an expression end where its evaluation does. -/
theorem traced (h : ctx.Quiet) (f : Frame V) (e : Expr) :
    Traced (ctx.events f e) (ctx.operand f e) := by
  cases e with
  | number x span => exact .of_ends (P := fun _ => True) trivial
  | var id => exact .of_ends (h.lookup f id.name)
  | neg x span =>
    rw [operand_neg]
    exact (traced_value (traced h f x)).andThen (Q := fun _ => True) fun _ => trivial
  | binary op l r span =>
    rw [operand_binary]
    refine (traced_value (traced h f l)).bind fun v => ?_
    exact (traced_value (traced h f r)).andThen (Q := fun _ => True) fun _ => trivial
  | call callee args span =>
    rw [operand_call]
    refine (traced_operands h f args).bind fun os => ?_
    exact (h.traced_call callee.name os).andThen (Q := fun _ => True) fun _ => trivial
  | method receiver name args span =>
    rw [operand_method]
    refine (traced_value (traced h f receiver)).bind fun v => ?_
    refine (traced_values h f args).andThen (Q := fun _ => True) fun vs => ?_
    have hmethod : Ends (·.isHostCall = false) (fun _ => True)
        (ctx.domain.method name.name v vs) := .of_error fun _ hf => h.domain _ (.method hf)
    exact hmethod.bind fun _ _ => trivial
  | attempt inner span => exact traced h f inner
  | paren inner span => exact traced h f inner

theorem traced_operands (h : ctx.Quiet) (f : Frame V) (es : List Expr) :
    Traced (ctx.operandEvents f es) (ctx.operands f es) := by
  cases es with
  | nil => exact .of_ends (P := fun _ => True) trivial
  | cons e rest =>
    rw [operands_cons]
    refine (traced h f e).bind fun o => ?_
    exact (traced_operands h f rest).andThen (Q := fun _ => True) fun _ => trivial

theorem traced_values (h : ctx.Quiet) (f : Frame V) (es : List Expr) :
    Traced (ctx.valueEvents f es) (ctx.values f es) := by
  cases es with
  | nil => exact .of_ends (P := fun _ => True) trivial
  | cons e rest =>
    rw [values_cons]
    refine (traced_value (traced h f e)).bind fun v => ?_
    exact (traced_values h f rest).andThen (Q := fun _ => True) fun _ => trivial

end

theorem traced_stmt (h : ctx.Quiet) (f : Frame V) (s : Stmt) :
    Traced (ctx.events f s.value) (ctx.runStmts f [s]) := by
  intro function message hrun
  have hvalue := operand_of_runStmts (Failure.ne_malformedBody rfl) hrun
  exact h.traced f s.value function message hvalue

theorem traced_stmts (h : ctx.Quiet) (f : Frame V) (ss : List Stmt) :
    Traced (ctx.stmtEvents f ss) (ctx.runStmts f ss) := by
  induction ss generalizing f with
  | nil => exact .of_ends (P := fun _ => True) trivial
  | cons s rest ih =>
    rw [runStmts_cons, stmtEvents]
    refine (h.traced_stmt f s).bind fun ⟨f', result⟩ => ?_
    cases result with
    | none => exact ih f'
    | some v => exact .of_ends (P := fun _ => True) trivial

theorem traced_body (h : ctx.Quiet) (f : Frame V) (b : Body) :
    Traced (ctx.bodyEvents f b) (ctx.runBody f b) := by
  have hfinish : ∀ f', Ends (·.isHostCall = false) (fun _ => True) (ctx.finish f') := by
    intro f'
    unfold finish
    split
    · trivial
    · rfl
  cases b with
  | expression e => exact (traced_value (h.traced f e)).andThen fun v => hfinish _
  | block b =>
    refine (h.traced_stmts f b.stmts).andThen (Q := fun _ => True) fun ⟨f', result⟩ => ?_
    cases result with
    | none => exact hfinish f'
    | some v => trivial

end Quiet

end BodyContext

namespace Machine

variable {V : Type}

/-- The elements of pools that binding inputs looks up, from left to right up to the first input
that is not there. -/
def reads (m : Machine V) (stack : List V) : List Param → List Int32 → Nat → List Event
  | [], _, _ => []
  | p :: rest, words, offset =>
    match p.kind, words with
    | .single, words =>
      match stack[offset]? with
      | some _ => m.reads stack rest words (offset + 1)
      | none => []
    | .indexed _, w :: words =>
      if w < 0 then []
      else
        .read p.role w.toInt.toNat ::
          match m.indexed? p.role w.toInt.toNat with
          | some _ => m.reads stack rest words offset
          | none => []
    | .immediate, _ :: words => m.reads stack rest words offset
    | .variadic _, w :: words =>
      if w < 0 then []
      else
        match slice? stack offset w.toInt.toNat with
        | some _ => m.reads stack rest words (offset + w.toInt.toNat)
        | none => []
    | _, [] => []

/-- The events of the next instruction. -/
def eventsAt (m : Machine V) (s : Execution V) : List Event :=
  whenOk (m.decode s.pc) fun d =>
    whenOk (base s.pc s.sp d) fun b =>
      let inputs := d.instruction.signature.inputs
      let frame := .empty d.instruction.signature.outputs.length
      m.reads s.stack inputs d.words b ++
        whenOk (m.bind s.stack s.pc inputs d.words b frame) fun f =>
          (m.context d.instruction).bodyEvents f d.instruction.body

/-- The events of at most `n` steps. -/
def eventsIn (m : Machine V) : Nat → Execution V → List Event
  | 0, _ => []
  | n + 1, s => (if s.status.isFinal then [] else m.eventsAt s) ++ m.eventsIn n (m.step s)

theorem eventsIn_succ (m : Machine V) (n : Nat) (s : Execution V) :
    m.eventsIn (n + 1) s
      = (if s.status.isFinal then [] else m.eventsAt s) ++ m.eventsIn n (m.step s) := rfl

theorem eventsIn_of_isFinal (m : Machine V) (n : Nat) {s : Execution V}
    (h : s.status.isFinal = true) : m.eventsIn n s = [] := by
  induction n with
  | zero => rfl
  | succ n ih => rw [eventsIn_succ, if_pos h, m.step_of_isFinal h, ih, List.append_nil]

theorem eventsIn_add (m : Machine V) (n k : Nat) (s : Execution V) :
    m.eventsIn (n + k) s = m.eventsIn n s ++ m.eventsIn k (m.run n s) := by
  induction n generalizing s with
  | zero => rw [Nat.zero_add, run_zero, eventsIn, List.nil_append]
  | succ n ih => rw [Nat.succ_add, eventsIn_succ, eventsIn_succ, run_succ, ih, List.append_assoc]

variable {m : Machine V} {s : Execution V}

/-- A machine whose domain does not make up failures of the host. -/
theorem quiet (hD : ∀ f, m.domain.Raises f → f.isHostCall = false) (i : Instruction) :
    (m.context i).Quiet := by
  refine ⟨hD, ?_⟩
  intro z k
  change Ends _ _ (m.power z k)
  unfold power
  split
  · exact Domain.power_ends (Domain.square_ends hD _) z k
  · rfl

theorem traced_dispatch (hD : ∀ f, m.domain.Raises f → f.isHostCall = false) :
    Traced (m.eventsAt s) (m.dispatch s) := by
  refine Traced.after (m.decode_needsMark s.pc) fun ⟨i, words⟩ => ?_
  refine Traced.after (reports_base s.pc s.sp words i).needsMark fun b => ?_
  refine Traced.bind (.of_needsMark (reports_bind _ words b _).needsMark) fun f => ?_
  exact ((quiet hD i).traced_body f i.body).andThen (Q := fun _ => True) fun r => trivial

/-- A run that fails in the host ends with the call that failed. -/
theorem endsInCall_of_run (hD : ∀ f, m.domain.Raises f → f.isHostCall = false) {n : Nat}
    (hlive : s.status.isFinal = false) {function message : String}
    (h : (m.run n s).status = .failed (.hostCall function message)) :
    EndsInCall function message (m.eventsIn n s) := by
  induction n generalizing s with
  | zero =>
    rw [run_zero] at h
    rw [h] at hlive
    cases hlive
  | succ n ih =>
    rw [run_succ] at h
    rw [eventsIn_succ, if_neg (by simp [hlive])]
    cases hnext : (m.step s).status.isFinal with
    | true =>
      rw [m.run_of_isFinal n hnext] at h
      rw [m.eventsIn_of_isFinal n hnext, List.append_nil]
      exact traced_dispatch hD _ _ ((step_failed_iff hlive rfl).mp h)
    | false => exact (ih hnext h).append_left _

end Machine
end StackForge
