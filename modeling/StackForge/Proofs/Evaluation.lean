import StackForge.Machine

/-!
Evaluating expressions under a postcondition. An operation gives a value with one property or a
failure with another; if the domain, the names that are read and the mismatches of operands keep to
that, so does every expression built from them.
-/
namespace StackForge

/-- A value with one property, or a failure with another. -/
def Ends {α : Type} (E : Failure → Prop) (P : α → Prop) : Except Failure α → Prop
  | .ok a => P a
  | .error f => E f

variable {E : Failure → Prop}

namespace Ends

variable {α β : Type} {P : α → Prop} {Q : β → Prop}

@[simp] theorem ok_iff {a : α} : Ends E P (.ok a) ↔ P a := Iff.rfl

@[simp] theorem error_iff {f : Failure} : Ends E P (.error f) ↔ E f := Iff.rfl

theorem bind {x : Except Failure α} {g : α → Except Failure β} (hx : Ends E P x)
    (hg : ∀ a, P a → Ends E Q (g a)) : Ends E Q (x >>= g) := by
  cases x with
  | ok a => exact hg a hx
  | error f => exact hx

theorem map {x : Except Failure α} {g : α → β} (hx : Ends E P x) (hg : ∀ a, P a → Q (g a)) :
    Ends E Q (x.map g) := by
  cases x with
  | ok a => exact hg a hx
  | error f => exact hx

theorem of_error {x : Except Failure α} (h : ∀ f, x = .error f → E f) :
    Ends E (fun _ => True) x := by
  cases x with
  | ok a => trivial
  | error f => exact h f rfl

end Ends

/-- Squaring is all that can fail in a power. -/
theorem Power.loop_ends {V : Type} {mul : V → V → V} {sq : V → Except Failure V}
    (hsq : ∀ x, Ends E (fun _ => True) (sq x)) (acc : Option V) (base : V) (n : Nat) :
    Ends E (fun _ => True) (loop mul sq acc base n) := by
  fun_induction loop mul sq acc base n with
  | case1 => trivial
  | case2 => trivial
  | case3 acc base n _ _ _ next hnext ih => exact ih
  | case4 acc base n _ _ e he =>
    have h := hsq base
    rwa [he] at h

namespace Domain

variable {V : Type} {D : Domain V}

/-- A failure that an operation of the domain itself gives. -/
inductive Raises (D : Domain V) (f : Failure) : Prop where
  | method {name : String} {v : V} {args : List V} (h : D.method name v args = .error f)
  | helper {name : String} {args : List V} (h : D.helper name args = .error f)
  | constant {name : String} (h : D.constant name = .error f)
  | ofHost {v : Host.Value} (h : D.ofHost v = .error f)

theorem square_ends (hD : ∀ f, D.Raises f → E f) (helper : Option String) (x : V) :
    Ends E (fun _ => True) (D.square helper x) := by
  cases helper with
  | none => trivial
  | some name => exact .of_error fun f hf => hD f (.helper hf)

theorem power_ends {spec : Power.Spec} (hsq : ∀ x, Ends E (fun _ => True) (D.square spec.square x))
    (z : V) (exponent : Int32) : Ends E (fun _ => True) (D.power spec z exponent) := by
  have hsize : Ends E (fun _ => True)
      (Power.bySquaring D.one (D.binary .mul) (D.square spec.square) z exponent.toInt.natAbs) :=
    (Power.loop_ends hsq none z _).map fun _ _ => trivial
  unfold Domain.power
  by_cases hs : spec.square.isSome = true
  · simp only [hs, ↓reduceIte]
    refine (hsq z).bind ?_
    intro _ _
    refine hsize.bind ?_
    intro _ _
    exact trivial
  · simp only [hs, Bool.false_eq_true, ↓reduceIte]
    refine hsize.bind ?_
    intro _ _
    exact trivial

end Domain

/-- A text that reports an operand where a value is needed. -/
inductive Mismatch : String → Prop where
  | operand {kind : String} (h : kind ∈ ["immediate", "count", "host object", "value slice"]) :
      Mismatch s!"expected a value, found a {kind}"
  | argument {kind : String} (function : String)
      (h : kind ∈ ["immediate", "count", "host object", "value slice"]) :
      Mismatch s!"`{function}` expects values, found a {kind}"

/-- What evaluations need so that all their failures have a property: the domain keeps to it, and
operands with another property do so when they are called or are no values. -/
structure BodyContext.Keeps {V : Type} (ctx : BodyContext V) (E : Failure → Prop)
    (O : Operand V → Prop) : Prop where
  domain : ∀ f, ctx.domain.Raises f → E f
  power : ∀ z k, Ends E (fun _ => True) (ctx.power z k)
  hostCall : ∀ function message, E (.hostCall function message)
  notCallable : ∀ o, O (.host o) → o.function? = none → E (.notCallable o.text)
  mismatch : ∀ message, Mismatch message → E (.malformedBody ctx.instruction message)
  ofValue : ∀ v, O (.value v)

namespace BodyContext.Keeps

variable {V : Type} {ctx : BodyContext V} {f : Frame V} {O : Operand V → Prop}

theorem asValue (h : ctx.Keeps E O) (o : Operand V) : Ends E (fun _ => True) (ctx.asValue o) := by
  cases o with
  | value v => trivial
  | _ => exact h.mismatch _ (.operand (by simp [Operand.kind]))

theorem asValues (h : ctx.Keeps E O) (name : String) (os : List (Operand V)) :
    Ends E (fun _ => True) (ctx.asValues name os) := by
  fun_induction BodyContext.asValues ctx name os with
  | case1 => trivial
  | case2 v rest ih => exact ih.map fun _ _ => trivial
  | case3 o rest hne =>
    refine h.mismatch _ (.argument name ?_)
    cases o with
    | value v => exact (hne v rfl).elim
    | _ => simp [Operand.kind]

theorem helper (h : ctx.Keeps E O) (name : String) (os : List (Operand V)) :
    Ends E (fun _ => True) (do ctx.domain.helper name (← ctx.asValues name os)) :=
  (h.asValues name os).bind fun _ _ => .of_error fun _ hf => h.domain _ (.helper hf)

theorem callHost (h : ctx.Keeps E O) {o : Host.Object} (ho : O (.host o)) (args : List V) :
    Ends E (fun _ => True) (ctx.domain.callHost o args) := by
  unfold Domain.callHost
  cases hf : o.function? with
  | none => exact h.notCallable o ho hf
  | some function =>
    dsimp only
    split
    · exact h.hostCall _ _
    · exact .of_error fun _ hv => h.domain _ (.ofHost hv)

theorem call (h : ctx.Keeps E O) (name : String) {os : List (Operand V)} (hos : ∀ o ∈ os, O o) :
    Ends E (fun _ => True) (ctx.call name os) := by
  unfold BodyContext.call
  split
  · split
    · exact h.power _ _
    · exact h.helper name _
  · rename_i o items
    split
    · exact h.callHost (hos (.host o) List.mem_cons_self) items
    · exact h.helper name _
  · exact h.helper name _

mutual

/-- Evaluating an expression keeps to what evaluating its names keeps to. -/
theorem operand (h : ctx.Keeps E O) (e : Expr)
    (hread : ∀ id, .var id ∈ e.nodes → Ends E O (ctx.lookup f id.name)) :
    Ends E O (ctx.operand f e) := by
  cases e with
  | number x span => exact h.ofValue _
  | var id => exact hread id (by simp [Expr.nodes])
  | neg x span =>
    have hx := operand h x fun id hid => hread id (by simp [Expr.nodes, hid])
    exact hx.bind fun o _ => (h.asValue o).bind fun v _ => h.ofValue _
  | binary op l r span =>
    have hl := operand h l fun id hid => hread id (by simp [Expr.nodes, hid])
    have hr := operand h r fun id hid => hread id (by simp [Expr.nodes, hid])
    refine hl.bind fun o _ => (h.asValue o).bind fun v _ => ?_
    exact hr.bind fun o' _ => (h.asValue o').bind fun w _ => h.ofValue _
  | call callee args span =>
    have hargs := operands h args fun id hid => hread id (by simp [Expr.nodes, hid])
    exact hargs.bind fun os hos => (h.call callee.name hos).bind fun v _ => h.ofValue _
  | method receiver name args span =>
    have hreceiver := operand h receiver fun id hid => hread id (by simp [Expr.nodes, hid])
    have hargs := values h args fun id hid => hread id (by simp [Expr.nodes, hid])
    refine hreceiver.bind fun o _ => (h.asValue o).bind fun v _ => hargs.bind fun vs _ => ?_
    have hmethod : Ends E (fun _ => True) (ctx.domain.method name.name v vs) :=
      .of_error fun _ hf => h.domain _ (.method hf)
    exact hmethod.bind fun w _ => h.ofValue w
  | attempt inner span => exact operand h inner fun id hid => hread id (by simp [Expr.nodes, hid])
  | paren inner span => exact operand h inner fun id hid => hread id (by simp [Expr.nodes, hid])

theorem operands (h : ctx.Keeps E O) (es : List Expr)
    (hread : ∀ id, .var id ∈ Expr.nodesOf es → Ends E O (ctx.lookup f id.name)) :
    Ends E (fun os => ∀ o ∈ os, O o) (ctx.operands f es) := by
  cases es with
  | nil => simp [BodyContext.operands]
  | cons e rest =>
    have he := operand h e fun id hid => hread id (by simp [Expr.nodesOf, hid])
    have hrest := operands h rest fun id hid => hread id (by simp [Expr.nodesOf, hid])
    refine he.bind fun o ho => hrest.bind fun os hos => ?_
    exact List.forall_mem_cons.mpr ⟨ho, hos⟩

theorem values (h : ctx.Keeps E O) (es : List Expr)
    (hread : ∀ id, .var id ∈ Expr.nodesOf es → Ends E O (ctx.lookup f id.name)) :
    Ends E (fun _ => True) (ctx.values f es) := by
  cases es with
  | nil => trivial
  | cons e rest =>
    have he := operand h e fun id hid => hread id (by simp [Expr.nodesOf, hid])
    have hrest := values h rest fun id hid => hread id (by simp [Expr.nodesOf, hid])
    exact he.bind fun o _ => (h.asValue o).bind fun v _ => hrest.bind fun vs _ => trivial

end

theorem value (h : ctx.Keeps E O) (e : Expr)
    (hread : ∀ id, .var id ∈ e.nodes → Ends E O (ctx.lookup f id.name)) :
    Ends E (fun _ => True) (ctx.value f e) :=
  (h.operand e hread).bind fun o _ => h.asValue o

end BodyContext.Keeps
end StackForge
