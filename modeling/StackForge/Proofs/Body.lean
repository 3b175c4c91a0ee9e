import StackForge.Domain.Complex
import StackForge.Domain.Real
import StackForge.Proofs.Evaluation
import StackForge.Proofs.WellFormed

/-!
What running a body comes to. A body of a well formed instruction returns exactly if it is
terminal, and otherwise gives one value for each output. Its failures never blame the code, and if
all host objects in reach are functions, they do not blame the program at all.
-/
namespace StackForge

theorem bind_eq_ok {ε α β : Type} {x : Except ε α} {g : α → Except ε β} {b : β}
    (h : (x >>= g) = .ok b) : ∃ a, x = .ok a ∧ g a = .ok b := by
  cases x with
  | ok a => exact ⟨a, rfl, h⟩
  | error e => cases h

theorem eq_ok_of_toOption {ε α : Type} {x : Except ε α} {a : α} (h : x.toOption = some a) :
    x = .ok a := by
  cases x with
  | ok b => rw [Option.some.inj h]
  | error e => cases h

/-- Failures that only malformed code causes. -/
def Failure.blamesCode : Failure → Bool
  | .unknownOpcode _ _ | .missingReturn _ | .badBytecode _ _ => true
  | _ => false

/-- Failures that only a malformed program causes: its code, or an object of it that is no
function. -/
def Failure.blamesProgram : Failure → Bool
  | .notCallable _ => true
  | f => f.blamesCode

/-- A value with a property, or a failure that does not blame the code. It does not blame the
program either if all objects that the program keeps are functions. -/
def Innocent {α : Type} (functions : Prop) (P : α → Prop) : Except Failure α → Prop
  | .ok a => P a
  | .error f => f.blamesCode = false ∧ (functions → f.blamesProgram = false)

variable {functions : Prop}

namespace Innocent

variable {α β : Type} {P : α → Prop} {Q : β → Prop}

@[simp] theorem ok_iff {a : α} : Innocent functions P (.ok a) ↔ P a := Iff.rfl

@[simp] theorem error_iff {f : Failure} :
    Innocent functions P (.error f) ↔
      f.blamesCode = false ∧ (functions → f.blamesProgram = false) := Iff.rfl

theorem bind {x : Except Failure α} {g : α → Except Failure β} (hx : Innocent functions P x)
    (hg : ∀ a, P a → Innocent functions Q (g a)) : Innocent functions Q (x >>= g) := by
  cases x with
  | ok a => exact hg a hx
  | error f => exact hx

theorem map {x : Except Failure α} {g : α → β} (hx : Innocent functions P x)
    (hg : ∀ a, P a → Q (g a)) : Innocent functions Q (x.map g) := by
  cases x with
  | ok a => exact hg a hx
  | error f => exact hx

theorem iff_ends {x : Except Failure α} : Innocent functions P x ↔
    Ends (fun f => f.blamesCode = false ∧ (functions → f.blamesProgram = false)) P x := by
  cases x <;> rfl

end Innocent

/-- A domain whose own operations never blame the program. -/
structure Domain.Blameless {V : Type} (D : Domain V) : Prop where
  method : ∀ {functions : Prop} (name v args),
    Innocent functions (fun _ => True) (D.method name v args)
  helper : ∀ {functions : Prop} (name args), Innocent functions (fun _ => True) (D.helper name args)
  constant : ∀ {functions : Prop} (name), Innocent functions (fun _ => True) (D.constant name)
  ofHost : ∀ {functions : Prop} (v), Innocent functions (fun _ => True) (D.ofHost v)

/-- Failures of operations on numbers. -/
def Failure.isArithmetic : Failure → Bool
  | .domain _ _ | .missingHelper _ | .conversion _ _ => true
  | _ => false

theorem Failure.innocent_of_isArithmetic {f : Failure} (h : f.isArithmetic = true) :
    f.blamesCode = false ∧ (functions → f.blamesProgram = false) := by
  cases f with
  | domain | missingHelper | conversion => exact ⟨rfl, fun _ => rfl⟩
  | _ => cases h

namespace Domain

/-- The operations of real numbers fail as operations on numbers do. -/
theorem isArithmetic_of_real {f : Failure} (h : real.Raises f) : f.isArithmetic = true := by
  cases h with
  | method h =>
    simp only [real, wrongArity] at h
    (repeat' split at h) <;> cases h <;> rfl
  | helper h =>
    simp only [real, realPower, wrongArity] at h
    (repeat' split at h) <;> cases h <;> rfl
  | constant h =>
    cases h
    rfl
  | ofHost h =>
    simp only [real] at h
    split at h <;> cases h
    rfl

theorem isArithmetic_of_complex {f : Failure} (h : complex.Raises f) : f.isArithmetic = true := by
  cases h with
  | method h =>
    simp only [complex, wrongArity] at h
    (repeat' split at h) <;> cases h <;> rfl
  | helper h =>
    simp only [complex, wrongArity] at h
    (repeat' split at h) <;> cases h <;> rfl
  | constant h =>
    cases h
    rfl
  | ofHost h =>
    simp only [complex] at h
    split at h <;> cases h
    rfl

theorem blameless_of_isArithmetic {V : Type} {D : Domain V}
    (h : ∀ f, D.Raises f → f.isArithmetic = true) : D.Blameless := by
  have hends : ∀ {functions : Prop} {x : Except Failure V}, (∀ f, x = .error f → D.Raises f) →
      Innocent functions (fun _ => True) x := by
    intro functions x hx
    exact Innocent.iff_ends.mpr
      (.of_error fun f hf => Failure.innocent_of_isArithmetic (h f (hx f hf)))
  constructor
  · intro functions name v args
    exact hends fun _ hf => .method hf
  · intro functions name args
    exact hends fun _ hf => .helper hf
  · intro functions name
    exact hends fun _ hf => .constant hf
  · intro functions v
    exact hends fun _ hf => .ofHost hf

theorem real_blameless : real.Blameless := blameless_of_isArithmetic fun _ => isArithmetic_of_real

theorem complex_blameless : complex.Blameless :=
  blameless_of_isArithmetic fun _ => isArithmetic_of_complex

end Domain

/-- No failure of a blameless domain blames the program. -/
theorem Domain.Blameless.of_raises {V : Type} {D : Domain V} (hD : D.Blameless) {f : Failure}
    (h : D.Raises f) : f.blamesCode = false ∧ (functions → f.blamesProgram = false) := by
  cases h with
  | @method name v args h =>
    have hf := @Blameless.method V D hD functions name v args
    rwa [h] at hf
  | @helper name args h =>
    have hf := @Blameless.helper V D hD functions name args
    rwa [h] at hf
  | @constant name h =>
    have hf := @Blameless.constant V D hD functions name
    rwa [h] at hf
  | @ofHost v h =>
    have hf := @Blameless.ofHost V D hD functions v
    rwa [h] at hf

/-- Operands that can be called if they are objects of the host, provided that all of those are
functions. -/
def Operand.Callable {V : Type} (functions : Prop) : Operand V → Prop
  | .host o => functions → o.function?.isSome = true
  | _ => True

/-- A frame whose names are bound to operands that can be called. -/
structure Frame.Callable {V : Type} (functions : Prop) (f : Frame V) : Prop where
  inputs : ∀ o ∈ f.inputs, o.Callable functions
  locals : ∀ b ∈ f.locals, b.2.Callable functions

namespace Frame.Callable

variable {V : Type} {f : Frame V}

/-- Nothing is asked of objects if they need not be functions. -/
theorem of_false (f : Frame V) : f.Callable False := by
  have hall : ∀ o : Operand V, o.Callable False := by
    intro o
    cases o with
    | host o => exact False.elim
    | _ => trivial
  exact ⟨fun o _ => hall o, fun b _ => hall b.2⟩

theorem define (h : f.Callable functions) (name : String) {o : Operand V}
    (ho : o.Callable functions) : (f.define name o).Callable functions := by
  refine ⟨h.inputs, ?_⟩
  intro b hb
  rcases List.mem_cons.mp hb with rfl | hb
  · exact ho
  · exact h.locals b hb

theorem setOutput? (h : f.Callable functions) {k : Nat} {v : V} {f' : Frame V}
    (hf : f.setOutput? k v = some f') : f'.Callable functions := by
  unfold Frame.setOutput? at hf
  split at hf
  · cases hf
    exact ⟨h.inputs, h.locals⟩
  · cases hf

theorem get? (h : f.Callable functions) {name : String} {o : Operand V}
    (ho : f.get? name = some o) : o.Callable functions := by
  unfold Frame.get? at ho
  split at ho
  · exact h.inputs o (List.mem_of_getElem? ho)
  · obtain ⟨n, -, rfl⟩ := Option.map_eq_some_iff.mp ho
    trivial
  · obtain ⟨v, -, rfl⟩ := Option.map_eq_some_iff.mp ho
    trivial
  · obtain ⟨before, after, hsplit, -⟩ := List.lookup_eq_some_iff.mp ho
    exact h.locals (name, o) (by simp [hsplit])

end Frame.Callable

/-- A context in which nothing outside of the frame blames the program. -/
structure BodyContext.Blameless {V : Type} (ctx : BodyContext V) : Prop where
  domain : ctx.domain.Blameless
  power : ∀ {functions : Prop} (z k), Innocent functions (fun _ => True) (ctx.power z k)

namespace BodyContext.Blameless

variable {V : Type} {ctx : BodyContext V} {f : Frame V}

theorem keeps (h : ctx.Blameless) :
    ctx.Keeps (fun f => f.blamesCode = false ∧ (functions → f.blamesProgram = false))
      (Operand.Callable functions) where
  domain _ hf := h.domain.of_raises hf
  power z k := Innocent.iff_ends.mp (h.power z k)
  hostCall _ _ := ⟨rfl, fun _ => rfl⟩
  notCallable o ho hnone := by
    refine ⟨rfl, ?_⟩
    intro hfunctions
    have hsome := ho hfunctions
    rw [hnone] at hsome
    cases hsome
  mismatch _ _ := ⟨rfl, fun _ => rfl⟩
  ofValue _ := trivial

theorem lookup (h : ctx.Blameless) (hf : f.Callable functions) (name : String) :
    Innocent functions (Operand.Callable functions) (ctx.lookup f name) := by
  unfold BodyContext.lookup
  split
  · rename_i o ho
    exact hf.get? ho
  · split
    · exact (h.domain.constant name).map fun _ _ => trivial
    · exact ⟨rfl, fun _ => rfl⟩

/-- Evaluating an expression does not blame the program, and gives no object that cannot be
called. -/
theorem operand (h : ctx.Blameless) (hf : f.Callable functions) (e : Expr) :
    Innocent functions (Operand.Callable functions) (ctx.operand f e) :=
  Innocent.iff_ends.mpr
    (h.keeps.operand e fun id _ => Innocent.iff_ends.mp (h.lookup hf id.name))

theorem value (h : ctx.Blameless) (hf : f.Callable functions) (e : Expr) :
    Innocent functions (fun _ => True) (ctx.value f e) :=
  Innocent.iff_ends.mpr
    (h.keeps.value e fun id _ => Innocent.iff_ends.mp (h.lookup hf id.name))

theorem runStmts (h : ctx.Blameless) (hf : f.Callable functions) (ss : List Stmt) :
    Innocent functions (fun r => r.1.Callable functions) (ctx.runStmts f ss) := by
  induction ss generalizing f with
  | nil => exact hf
  | cons s rest ih =>
    cases s with
    | bind id e span =>
      exact (h.operand hf e).bind fun o ho => ih (hf.define id.name ho)
    | assign target e span =>
      refine (h.value hf e).bind fun v _ => ?_
      split
      · split
        · rename_i f' hf'
          exact ih (hf.setOutput? hf')
        · exact ⟨rfl, fun _ => rfl⟩
      · exact ⟨rfl, fun _ => rfl⟩
    | ret e span =>
      exact (h.value hf e).bind fun v _ => hf

theorem finish (f : Frame V) : Innocent functions (fun _ => True) (ctx.finish f) := by
  unfold BodyContext.finish
  split
  · trivial
  · exact ⟨rfl, fun _ => rfl⟩

theorem runBody (h : ctx.Blameless) (hf : f.Callable functions) (b : Body) :
    Innocent functions (fun _ => True) (ctx.runBody f b) := by
  cases b with
  | expression e =>
    exact (h.value hf e).bind fun v _ => finish _
  | block b =>
    refine (h.runStmts hf b.stmts).bind fun r _ => ?_
    split
    · trivial
    · exact finish _

end BodyContext.Blameless

theorem Machine.context_blameless {V : Type} {m : Machine V} (hD : m.domain.Blameless)
    (i : Instruction) : (m.context i).Blameless := by
  refine ⟨hD, ?_⟩
  intro functions z k
  change Innocent _ _ (m.power z k)
  unfold Machine.power
  split
  · refine Innocent.iff_ends.mpr (Domain.power_ends (Domain.square_ends ?_ _) z k)
    exact fun _ hf => hD.of_raises hf
  · exact ⟨rfl, fun _ => rfl⟩

namespace Frame

variable {V : Type} {f f' : Frame V}

theorem length_outputs_setOutput? {k : Nat} {v : V} (h : f.setOutput? k v = some f') :
    f'.outputs.length = f.outputs.length := by
  unfold setOutput? at h
  split at h
  · cases h
    simp
  · cases h

theorem length_valuesFrom {k : Nat} {os : List (Option V)} {vs : List V}
    (h : valuesFrom k os = .ok vs) : vs.length = os.length := by
  induction os generalizing k vs with
  | nil =>
    cases h
    rfl
  | cons o rest ih =>
    cases o with
    | none => cases h
    | some v =>
      simp only [valuesFrom] at h
      cases hr : valuesFrom (k + 1) rest with
      | error k' =>
        rw [hr] at h
        cases h
      | ok vs' =>
        rw [hr] at h
        cases h
        simp [ih hr]

end Frame

/-- A result that suits a body: a value if the body ends the program, otherwise as many outputs as
there are. -/
def BodyResult.Suits {V : Type} (terminal : Bool) (outputs : Nat) : BodyResult V → Prop
  | .ret _ => terminal = true
  | .outputs values => terminal = false ∧ values.length = outputs

namespace BodyContext

variable {V : Type} {ctx : BodyContext V} {f : Frame V}

/-- Statements return a value exactly if one of them is a return. -/
theorem runStmts_ok {ss : List Stmt} {f' : Frame V} {r : Option V}
    (h : ctx.runStmts f ss = .ok (f', r)) :
    f'.outputs.length = f.outputs.length ∧ r.isSome = ss.any Stmt.isReturn := by
  induction ss generalizing f with
  | nil =>
    cases h
    exact ⟨rfl, rfl⟩
  | cons s rest ih =>
    cases s with
    | bind id e span =>
      obtain ⟨o, -, h⟩ := bind_eq_ok h
      obtain ⟨hlen, hret⟩ := ih h
      exact ⟨hlen, by simpa [Stmt.isReturn] using hret⟩
    | assign target e span =>
      obtain ⟨v, -, h⟩ := bind_eq_ok h
      split at h
      · split at h
        · rename_i f'' hf''
          obtain ⟨hlen, hret⟩ := ih h
          exact ⟨hlen.trans (Frame.length_outputs_setOutput? hf''),
            by simpa [Stmt.isReturn] using hret⟩
        · cases h
      · cases h
    | ret e span =>
      obtain ⟨v, -, h⟩ := bind_eq_ok h
      cases h
      exact ⟨rfl, by simp [Stmt.isReturn]⟩

theorem finish_ok {r : BodyResult V} (h : ctx.finish f = .ok r) :
    r.Suits false f.outputs.length := by
  unfold finish at h
  split at h
  · rename_i values hvalues
    cases h
    exact ⟨rfl, Frame.length_valuesFrom hvalues⟩
  · cases h

/-- In a block that returns at the end only, some statement returns exactly if the last one does. -/
theorem any_isReturn {b : Block} (h : ∀ s ∈ b.stmts.dropLast, s.isReturn = false) :
    b.stmts.any Stmt.isReturn = b.isTerminal := by
  unfold Block.isTerminal
  rcases List.eq_nil_or_concat b.stmts with hnil | ⟨init, last, hsplit⟩
  · simp [hnil]
  · rw [hsplit, List.concat_eq_append] at h ⊢
    rw [List.dropLast_concat] at h
    have hinit : init.any Stmt.isReturn = false := by
      rw [List.any_eq_false]
      intro s hs
      simp [h s hs]
    simp [hinit]

theorem runBody_suits {i : Instruction} (hi : i.WellFormed) {r : BodyResult V}
    (h : ctx.runBody f i.body = .ok r) : r.Suits i.isTerminal f.outputs.length := by
  unfold Instruction.isTerminal
  cases hb : i.body with
  | expression e =>
    rw [hb] at h
    obtain ⟨v, -, h⟩ := bind_eq_ok h
    have hr := finish_ok h
    cases hset : f.setOutput? 0 v with
    | none =>
      rw [hset, Option.getD_none] at hr
      exact hr
    | some f' =>
      rw [hset, Option.getD_some, Frame.length_outputs_setOutput? hset] at hr
      exact hr
  | block b =>
    rw [hb] at h
    obtain ⟨⟨f', r'⟩, hrun, h⟩ := bind_eq_ok h
    obtain ⟨hlen, hret⟩ := runStmts_ok hrun
    rw [any_isReturn (hi.returnsLast b hb)] at hret
    cases r' with
    | some v =>
      cases h
      exact hret.symm
    | none =>
      have hr := finish_ok h
      rw [hlen] at hr
      rw [Body.isTerminal, ← hret]
      exact hr

end BodyContext
end StackForge
