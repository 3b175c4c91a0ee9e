import StackForge.Catalog
import StackForge.Proofs.Bounds
import StackForge.Proofs.Checking
import StackForge.Proofs.Inversion
import StackForge.Proofs.Power

/-!
Where failures come from. The machine passes every failure on and takes no notice of failure marks,
so it is the rules for bodies that keep failures in their places. In a domain that honours what a
descriptor declares, failures of the host, of conversions and of operations on numbers come from
marked calls only, and those stand in instructions that declare that they may fail.
-/
namespace StackForge

/-- Failures that a call has to be marked for. -/
def Failure.needsMark : Failure → Bool
  | .hostCall _ _ | .notCallable _ | .conversion _ _ | .domain _ _ => true
  | _ => false

/-- A domain that keeps to what a descriptor declares. Helpers that may not fail have a value for
the declared number of arguments, and so have methods. A constant has a value or is missing, but
never fails as a call may. Helpers that are not declared are missing. -/
structure Domain.Honours {V : Type} (D : Domain V) (d : Descriptor) : Prop where
  function : ∀ name arity, ⟨name, .function arity false⟩ ∈ d.helpers →
    ∀ args, args.length = arity → ∃ v, D.helper name args = .ok v
  constant : ∀ name, ⟨name, .const⟩ ∈ d.helpers →
    ∀ failure, D.constant name = .error failure → failure.needsMark = false
  method : ∀ name arity, ⟨name, arity⟩ ∈ d.storage.methods →
    ∀ v args, args.length = arity → ∃ w, D.method name v args = .ok w
  undeclared : ∀ name, (∀ h ∈ d.helpers, h.name ≠ name) →
    ∀ args, D.helper name args = .error (.missingHelper name)

theorem Failure.ne_malformedBody {failure : Failure} (h : failure.needsMark = true)
    (name message : String) : failure ≠ .malformedBody name message := by
  rintro rfl
  cases h

theorem Ends.ne_error {α : Type} {P : α → Prop} {x : Except Failure α}
    (h : Ends (·.needsMark = false) P x) {failure : Failure} (hmark : failure.needsMark = true) :
    x ≠ .error failure := by
  rintro rfl
  rw [Ends.error_iff, hmark] at h
  cases h

namespace BodyContext

variable {V : Type} {ctx : BodyContext V} {f : Frame V} {failure : Failure}

/-- The functions that are declared to fail. -/
def MayFail (ctx : BodyContext V) (name : String) : Prop :=
  name = callHost ∨ ∃ h ∈ ctx.helpers, h.name = name ∧ h.isFallible = true

/-- `FailsAt ctx f failure mark e`: evaluating `e` comes to a marked call of a function that may
fail, and that call gives the failure. All that is evaluated before has a value. The flag says
whether a failure mark stands behind `e`, with nothing but parentheses in between. -/
inductive FailsAt (ctx : BodyContext V) (f : Frame V) (failure : Failure) : Bool → Expr → Prop where
  | call {callee : Ident} {args : List Expr} {span : Span} {os : List (Operand V)}
      (hdeclared : ctx.MayFail callee.name) (hargs : ctx.operands f args = .ok os)
      (hcall : ctx.call callee.name os = .error failure) :
      FailsAt ctx f failure true (.call callee args span)
  | neg {mark : Bool} {x : Expr} {span : Span} (h : FailsAt ctx f failure false x) :
      FailsAt ctx f failure mark (.neg x span)
  | left {mark : Bool} {op : BinOp} {l r : Expr} {span : Span}
      (h : FailsAt ctx f failure false l) : FailsAt ctx f failure mark (.binary op l r span)
  | right {mark : Bool} {op : BinOp} {l r : Expr} {span : Span} {v : V}
      (hl : ctx.value f l = .ok v) (h : FailsAt ctx f failure false r) :
      FailsAt ctx f failure mark (.binary op l r span)
  | argument {mark : Bool} {callee : Ident} {before after : List Expr} {a : Expr} {span : Span}
      {os : List (Operand V)} (hbefore : ctx.operands f before = .ok os)
      (h : FailsAt ctx f failure false a) :
      FailsAt ctx f failure mark (.call callee (before ++ a :: after) span)
  | receiver {mark : Bool} {r : Expr} {name : Ident} {args : List Expr} {span : Span}
      (h : FailsAt ctx f failure false r) : FailsAt ctx f failure mark (.method r name args span)
  | methodArgument {mark : Bool} {r : Expr} {name : Ident} {before after : List Expr} {a : Expr}
      {span : Span} {v : V} {vs : List V} (hr : ctx.value f r = .ok v)
      (hbefore : ctx.values f before = .ok vs) (h : FailsAt ctx f failure false a) :
      FailsAt ctx f failure mark (.method r name (before ++ a :: after) span)
  | attempt {mark : Bool} {e : Expr} {span : Span} (h : FailsAt ctx f failure true e) :
      FailsAt ctx f failure mark (.attempt e span)
  | paren {mark : Bool} {e : Expr} {span : Span} (h : FailsAt ctx f failure mark e) :
      FailsAt ctx f failure mark (.paren e span)

namespace FailsAt

variable {mark : Bool} {e : Expr}

/-- A failure at a mark is the failure of the whole expression. -/
theorem operand_eq (h : ctx.FailsAt f failure mark e) : ctx.operand f e = .error failure := by
  induction h with
  | call hdeclared hargs hcall => exact operand_call_error.mpr (.inr ⟨_, hargs, hcall⟩)
  | neg _ ih => exact operand_neg_error.mpr (value_of_error ih)
  | left _ ih => exact operand_binary_error.mpr (.inl (value_of_error ih))
  | right hl _ ih => exact operand_binary_error.mpr (.inr ⟨_, hl, value_of_error ih⟩)
  | argument hbefore _ ih => exact operand_call_error.mpr (.inl (operands_of_error hbefore ih))
  | receiver _ ih => exact operand_method_error.mpr (.inl (value_of_error ih))
  | methodArgument hr hbefore _ ih =>
    exact operand_method_error.mpr (.inr ⟨_, hr, .inl (values_of_error hbefore ih)⟩)
  | attempt _ ih => exact ih
  | paren _ ih => exact ih

/-- An expression without a mark inside only fails like that if one stands behind it. -/
theorem marked (h : ctx.FailsAt f failure mark e)
    (he : e.Everywhere (fun _ x => ∀ inner span, x ≠ .attempt inner span) mark) : mark = true := by
  induction h with
  | call => rfl
  | neg _ ih => cases ih (Expr.everywhere_neg.mp he).2
  | left _ ih => cases ih (Expr.everywhere_binary.mp he).2.1
  | right _ _ ih => cases ih (Expr.everywhere_binary.mp he).2.2
  | argument _ _ ih => cases ih ((Expr.everywhere_call.mp he).2 _ (by simp))
  | receiver _ ih => cases ih (Expr.everywhere_method.mp he).2.1
  | methodArgument _ _ _ ih => cases ih ((Expr.everywhere_method.mp he).2.2 _ (by simp))
  | attempt => exact absurd rfl ((Expr.everywhere_attempt.mp he).1 _ _)
  | paren _ ih => exact ih (Expr.everywhere_paren.mp he).2

end FailsAt

/-- The values of operands, as many as they are. -/
theorem asValues_needsMark (name : String) (os : List (Operand V)) :
    Ends (·.needsMark = false) (fun vs => vs.length = os.length) (ctx.asValues name os) := by
  fun_induction BodyContext.asValues ctx name os with
  | case1 => rfl
  | case2 v rest ih => exact ih.map fun vs hvs => by rw [List.length_cons, hvs, List.length_cons]
  | case3 o rest hne => rfl

/-- What the rules for bodies ask of a context: whatever may not fail has a value, or is blamed for
its operands or for being missing. -/
structure Honours (ctx : BodyContext V) (m : Setting) : Prop where
  constant : ∀ name, ctx.isConst name = true →
    ∀ failure, ctx.domain.constant name = .error failure → failure.needsMark = false
  method : ∀ name v (args : List V), ⟨name, args.length⟩ ∈ m.storage.methods →
    ∃ w, ctx.domain.method name v args = .ok w
  call : ∀ name g (os : List (Operand V)), m.HasFunction name g → g.fallible = false →
    os.length = g.arity → Ends (·.needsMark = false) (fun _ => True) (ctx.call name os)
  mayFail : ∀ name g, m.HasFunction name g → g.fallible = true → ctx.MayFail name

namespace Honours

variable {m : Setting} {sig : Signature} {before : List Stmt}

theorem lookup (h : ctx.Honours m) (f : Frame V) (name : String) :
    Ends (·.needsMark = false) (fun _ => True) (ctx.lookup f name) := by
  unfold BodyContext.lookup
  split
  · trivial
  · split
    · rename_i hconst
      cases hv : ctx.domain.constant name with
      | ok v => trivial
      | error failure => exact h.constant name hconst failure hv
    · rfl

mutual

/-- Failures that need a mark come from one. -/
theorem failsAt (h : ctx.Honours m) (hmark : failure.needsMark = true) {mark : Bool} (e : Expr)
    (he : e.Everywhere (m.NodeRule sig before) mark) (hfail : ctx.operand f e = .error failure) :
    ctx.FailsAt f failure mark e := by
  have hbody := Failure.ne_malformedBody hmark
  cases e with
  | number x span => cases hfail
  | var id => exact ((h.lookup f id.name).ne_error hmark hfail).elim
  | neg x span =>
    simp only [Expr.everywhere_neg] at he
    have hx := operand_of_value hbody (operand_neg_error.mp hfail)
    exact .neg (failsAt h hmark x he.2 hx)
  | binary op l r span =>
    simp only [Expr.everywhere_binary] at he
    rcases operand_binary_error.mp hfail with hl | ⟨v, hl, hr⟩
    · exact .left (failsAt h hmark l he.2.1 (operand_of_value hbody hl))
    · exact .right hl (failsAt h hmark r he.2.2 (operand_of_value hbody hr))
  | call callee args span =>
    simp only [Expr.everywhere_call] at he
    rcases operand_call_error.mp hfail with hargs | ⟨os, hos, hcall⟩
    · obtain ⟨b, a, c, os, rfl, hb, ha⟩ := failsAt_operands h hmark args he.2 hargs
      exact .argument hb ha
    · -- a function that may not fail gives no such failure, so the call is marked
      obtain ⟨g, hg, harity, hfallible⟩ := he.1
      cases mark with
      | true => exact .call (h.mayFail _ _ hg hfallible) hos hcall
      | false =>
        have hends := h.call _ g os hg hfallible (by rw [length_of_operands hos, harity])
        exact (hends.ne_error hmark hcall).elim
  | method r name args span =>
    simp only [Expr.everywhere_method] at he
    rcases operand_method_error.mp hfail with hr | ⟨v, hr, hargs | ⟨vs, hvs, hmethod⟩⟩
    · exact .receiver (failsAt h hmark r he.2.1 (operand_of_value hbody hr))
    · obtain ⟨b, a, c, vs, rfl, hb, ha⟩ := failsAt_values h hmark args he.2.2 hargs
      exact .methodArgument hr hb ha
    · obtain ⟨w, hw⟩ := h.method name.name v vs (by rw [length_of_values hvs]; exact he.1.1)
      rw [hw] at hmethod
      cases hmethod
  | attempt inner span =>
    simp only [Expr.everywhere_attempt] at he
    exact .attempt (failsAt h hmark inner he.2 hfail)
  | paren inner span =>
    simp only [Expr.everywhere_paren] at he
    exact .paren (failsAt h hmark inner he.2 hfail)

theorem failsAt_operands (h : ctx.Honours m) (hmark : failure.needsMark = true) (es : List Expr)
    (hes : ∀ e ∈ es, e.Everywhere (m.NodeRule sig before) false)
    (hfail : ctx.operands f es = .error failure) :
    ∃ b a c os, es = b ++ a :: c ∧ ctx.operands f b = .ok os ∧ ctx.FailsAt f failure false a := by
  cases es with
  | nil => cases hfail
  | cons e rest =>
    obtain ⟨he, hrest⟩ := List.forall_mem_cons.mp hes
    rcases operands_cons_error.mp hfail with hfail | ⟨o, ho, hfail⟩
    · exact ⟨[], e, rest, [], rfl, rfl, failsAt h hmark e he hfail⟩
    · obtain ⟨b, a, c, os, rfl, hb, ha⟩ := failsAt_operands h hmark rest hrest hfail
      exact ⟨e :: b, a, c, o :: os, rfl, operands_cons_ok.mpr ⟨o, os, ho, hb, rfl⟩, ha⟩

theorem failsAt_values (h : ctx.Honours m) (hmark : failure.needsMark = true) (es : List Expr)
    (hes : ∀ e ∈ es, e.Everywhere (m.NodeRule sig before) false)
    (hfail : ctx.values f es = .error failure) :
    ∃ b a c vs, es = b ++ a :: c ∧ ctx.values f b = .ok vs ∧ ctx.FailsAt f failure false a := by
  cases es with
  | nil => cases hfail
  | cons e rest =>
    obtain ⟨he, hrest⟩ := List.forall_mem_cons.mp hes
    have hbody := Failure.ne_malformedBody hmark
    rcases values_cons_error.mp hfail with hfail | ⟨v, hv, hfail⟩
    · exact ⟨[], e, rest, [], rfl, rfl, failsAt h hmark e he (operand_of_value hbody hfail)⟩
    · obtain ⟨b, a, c, vs, rfl, hb, ha⟩ := failsAt_values h hmark rest hrest hfail
      exact ⟨e :: b, a, c, v :: vs, rfl, values_cons_ok.mpr ⟨v, vs, hv, hb, rfl⟩, ha⟩

end

end Honours

/-- A body comes to a marked call that gives the failure. -/
def FailsIn (ctx : BodyContext V) (f : Frame V) (failure : Failure) : Body → Prop
  | .expression e => ctx.FailsAt f failure false e
  | .block b => ∃ before s after f', b.stmts = before ++ s :: after ∧
      ctx.runStmts f before = .ok (f', none) ∧ ctx.FailsAt f' failure false s.value

theorem FailsIn.runBody_eq {b : Body} (h : ctx.FailsIn f failure b) :
    ctx.runBody f b = .error failure := by
  cases b with
  | expression e => exact bind_eq_error_iff.mpr (.inl (value_of_error h.operand_eq))
  | block b =>
    obtain ⟨before, s, after, f', hsplit, hbefore, hs⟩ := h
    have hrun : ctx.runStmts f b.stmts = .error failure := by
      rw [hsplit, runStmts_append hbefore, runStmts_of_error hs.operand_eq]
    exact bind_eq_error_iff.mpr (.inl hrun)

/-- A body that comes to a marked call has a mark. -/
theorem FailsIn.exists_attempt {b : Body} (h : ctx.FailsIn f failure b) :
    ∃ inner span, b.Contains (.attempt inner span) := by
  have hmarked : ∀ {f : Frame V} {e : Expr}, e ∈ b.values → ctx.FailsAt f failure false e →
      ∃ inner span, b.Contains (.attempt inner span) := by
    intro f e he hfails
    by_contra hnone
    refine Bool.false_ne_true (hfails.marked ?_)
    rintro mark x hx inner span rfl
    exact hnone ⟨inner, span, e, he, mark, hx⟩
  cases b with
  | expression e => exact hmarked List.mem_cons_self h
  | block b =>
    obtain ⟨before, s, after, f', hsplit, -, hs⟩ := h
    refine hmarked ?_ hs
    exact List.mem_map_of_mem (by rw [hsplit]; simp)

namespace Honours

variable {m : Setting} {sig : Signature}

theorem failsAt_stmts (h : ctx.Honours m) (hmark : failure.needsMark = true) {ss : List Stmt}
    (hss : ∀ s ∈ ss, ∃ before, m.ExprRule sig before s.value)
    (hfail : ctx.runStmts f ss = .error failure) :
    ∃ before s after f', ss = before ++ s :: after ∧
      ctx.runStmts f before = .ok (f', none) ∧ ctx.FailsAt f' failure false s.value := by
  induction ss generalizing f with
  | nil => cases hfail
  | cons s rest ih =>
    obtain ⟨⟨before, hs⟩, hrest⟩ := List.forall_mem_cons.mp hss
    rw [runStmts_cons] at hfail
    rcases bind_eq_error_iff.mp hfail with hfail | ⟨⟨f', r⟩, hrun, hfail⟩
    · have hvalue := operand_of_runStmts (Failure.ne_malformedBody hmark) hfail
      exact ⟨[], s, rest, f, rfl, rfl, h.failsAt hmark s.value hs hvalue⟩
    · cases r with
      | some v => cases hfail
      | none =>
        obtain ⟨b, t, a, g, rfl, hb, ht⟩ := ih hrest hfail
        exact ⟨s :: b, t, a, g, rfl, by rw [runStmts_cons, hrun]; exact hb, ht⟩

/-- In a body that keeps the rules, the failures that need a mark are those at its marked calls. -/
theorem runBody_error_iff (h : ctx.Honours m) (hmark : failure.needsMark = true) {b : Body}
    (hb : m.BodyRule sig b) : ctx.runBody f b = .error failure ↔ ctx.FailsIn f failure b := by
  refine ⟨fun hfail => ?_, FailsIn.runBody_eq⟩
  have hbody := Failure.ne_malformedBody hmark
  cases b with
  | expression e =>
    rcases bind_eq_error_iff.mp hfail with hfail | ⟨v, -, hfail⟩
    · exact h.failsAt hmark e hb.2 (operand_of_value hbody hfail)
    · exact (finish_ne_error hbody hfail).elim
  | block b =>
    rcases bind_eq_error_iff.mp hfail with hfail | ⟨⟨g, r⟩, -, hfail⟩
    · have hvalues : ∀ s ∈ b.stmts, ∃ before, m.ExprRule sig before s.value := by
        intro s hs
        obtain ⟨before, after, hsplit⟩ := List.append_of_mem hs
        exact ⟨before, (hb.1 before s after hsplit).value⟩
      exact h.failsAt_stmts hmark hvalues hfail
    · cases r with
      | some v => cases hfail
      | none => exact (finish_ne_error hbody hfail).elim

end Honours

/-- Functions other than powers and calls of the host are helpers, and take values. -/
theorem call_eq_helper {name : String} (hpower : name ≠ powerName) (hhost : name ≠ callHost)
    (os : List (Operand V)) :
    ctx.call name os = ctx.asValues name os >>= ctx.domain.helper name := by
  unfold call
  split
  · rw [if_neg hpower]
  · rw [if_neg hhost]
  · rfl

end BodyContext

namespace Draft.Built

variable {d : Draft} {desc : Descriptor} {V : Type} {m : Machine V}

/-- Powers and calls of the host are no helpers. -/
theorem helper_ne (h : d.Built desc) {helper : Helper} (hmem : helper ∈ d.helpers) :
    helper.name ≠ powerName ∧ helper.name ≠ callHost := by
  have hfree := (Check.of_helpersFrom h.helpers helper hmem).2
  have hreserved : d.context.globals.reserved = reservedNames (d.chunks.map (·.2)) := rfl
  rw [hreserved] at hfree
  constructor
  · intro hname
    exact hfree (by simp [reservedNames, hname])
  · intro hname
    exact hfree (by simp [reservedNames, hname])

/-- The helper that squares takes one argument and may not fail. -/
theorem square_mem (h : d.Built desc) {spec : Power.Spec} (hspec : d.power = some spec)
    {name : String} (hsquare : spec.square = some name) :
    ⟨name, .function 1 false⟩ ∈ d.helpers := by
  have hcheck := h.power
  rw [hspec] at hcheck
  unfold Check.power at hcheck
  split at hcheck
  · rename_i hnone _
    cases hnone
  · rename_i hnone _
    cases hnone
  · cases hcheck _ List.mem_cons_self
  · rename_i s i hsome _
    cases hsome
    simp only [hsquare, CheckFault.tolerable_append] at hcheck
    have hlast := hcheck.2
    split at hlast
    · rename_i g hg
      have hg' : d.setting.HasFunction name g := Setting.function?_iff.mp hg
      have hshape := CheckFault.of_tolerable_ite rfl hlast
      simp only [Bool.and_eq_true, decide_eq_true_eq, Bool.not_eq_true'] at hshape
      obtain ⟨harity, hfallible⟩ := hshape
      cases hg' with
      | power => cases harity
      | host => cases harity
      | helper hlast =>
        obtain ⟨before, after, hsplit, -⟩ := hlast
        rw [harity, hfallible] at hsplit
        have hhelpers : d.helpers = _ := hsplit
        rw [hhelpers]
        simp
    · cases hlast _ List.mem_cons_self

theorem helpers_eq (h : d.Built desc) : desc.helpers = d.helpers := by
  rw [h.descriptor]
  rfl

theorem power_eq (h : d.Built desc) : desc.power = d.power := by
  rw [h.descriptor]
  rfl

theorem storage_eq (h : d.Built desc) : desc.storage = d.storage := by
  rw [h.descriptor]
  rfl

theorem squares (h : d.Built desc) {D : Domain V} (hD : D.Honours desc) {spec : Power.Spec}
    (hspec : desc.power = some spec) : D.Squares spec.square := by
  intro x
  rw [h.power_eq] at hspec
  cases hsquare : spec.square with
  | none => exact ⟨_, rfl⟩
  | some name =>
    have hmem := h.square_mem hspec hsquare
    rw [← h.helpers_eq] at hmem
    exact hD.function name 1 hmem [x] rfl

/-- Powers have a value, or there are none. -/
theorem power_needsMark (h : d.Built desc) (hm : m.descriptor = desc) (hD : m.domain.Honours desc)
    (z : V) (k : Int32) : Ends (·.needsMark = false) (fun _ => True) (m.power z k) := by
  unfold Machine.power
  split
  · rename_i spec hspec
    apply Domain.power_ends
    intro x
    obtain ⟨y, hy⟩ := h.squares hD (hm ▸ hspec) x
    rw [hy]
    trivial
  · rfl

/-- A power that is called with other operands is a helper that is not declared. -/
theorem call_power_needsMark (h : d.Built desc) (hm : m.descriptor = desc)
    (hD : m.domain.Honours desc) (i : Instruction) (os : List (Operand V)) :
    Ends (·.needsMark = false) (fun _ => True) ((m.context i).call powerName os) := by
  have hundeclared : ∀ helper ∈ desc.helpers, helper.name ≠ powerName := by
    intro helper hmem
    rw [h.helpers_eq] at hmem
    exact (h.helper_ne hmem).1
  have hhelper : Ends (·.needsMark = false) (fun _ => True)
      ((m.context i).asValues powerName os >>= (m.context i).domain.helper powerName) := by
    refine ((m.context i).asValues_needsMark powerName os).bind fun vs _ => ?_
    change Ends _ _ (m.domain.helper powerName vs)
    rw [hD.undeclared powerName hundeclared vs]
    rfl
  unfold BodyContext.call
  split
  · rw [if_pos rfl]
    exact h.power_needsMark hm hD _ _
  · rw [if_neg (by decide)]
    exact hhelper
  · exact hhelper

/-- A machine whose domain honours a descriptor that was built honours the rules for bodies. -/
theorem honours (h : d.Built desc) (hm : m.descriptor = desc) (hD : m.domain.Honours desc)
    (i : Instruction) : (m.context i).Honours d.setting := by
  have hctx : (m.context i).helpers = desc.helpers := by rw [← hm]; rfl
  have hdeclared : ∀ {name g}, Helper.LastFunction d.setting.helpers name g →
      ⟨name, .function g.arity g.fallible⟩ ∈ desc.helpers := by
    rintro name g ⟨before, after, hsplit, -⟩
    rw [h.helpers_eq]
    change _ ∈ d.setting.helpers
    rw [hsplit]
    simp
  refine ⟨?_, ?_, ?_, ?_⟩
  · intro name hconst
    unfold BodyContext.isConst at hconst
    split at hconst
    · rename_i helper hfind
      have hkind : helper.kind = .const := of_decide_eq_true hconst
      have hname : helper.name = name := by simpa using List.find?_some hfind
      have hmem := List.mem_of_find?_eq_some hfind
      rw [hctx] at hmem
      exact hD.constant name (by rw [← hkind, ← hname]; exact hmem)
    · cases hconst
  · intro name v args hmethod
    exact hD.method name args.length (by rw [h.storage_eq]; exact hmethod) v args rfl
  · intro name g os hg hfallible harity
    cases hg with
    | power => exact h.call_power_needsMark hm hD i os
    | host => cases hfallible
    | helper hlast =>
      have hmem := hdeclared hlast
      rw [hfallible] at hmem
      obtain ⟨hpower, hhost⟩ := h.helper_ne (h.helpers_eq ▸ hmem)
      rw [BodyContext.call_eq_helper hpower hhost]
      refine ((m.context i).asValues_needsMark name os).bind fun vs hvs => ?_
      obtain ⟨v, hv⟩ := hD.function name g.arity hmem vs (hvs.trans harity)
      change Ends _ _ (m.domain.helper name vs)
      rw [hv]
      trivial
  · intro name g hg hfallible
    cases hg with
    | power => cases hfallible
    | host => exact .inl rfl
    | helper hlast =>
      exact .inr ⟨⟨name, .function g.arity g.fallible⟩, hctx ▸ hdeclared hlast, rfl, hfallible⟩

end Draft.Built

/-- Malformed bytecode does not need a mark. -/
theorem Reports.needsMark {α : Type} {pc : Nat} {x : Except Failure α} {o : Option α}
    (h : Reports pc x o) : Ends (·.needsMark = false) (fun _ => True) x := by
  cases o with
  | some a =>
    cases h
    trivial
  | none =>
    obtain ⟨message, rfl⟩ := h
    rfl

namespace Machine

variable {V : Type} {m : Machine V} {s : Execution V} {failure : Failure}

/-- The next instruction declares that it may fail, its inputs are there, and its body comes to a
marked call that gives the failure. -/
def FailsAtMark (m : Machine V) (s : Execution V) (failure : Failure) : Prop :=
  ∃ i words b f, m.decode s.pc = .ok ⟨i, words⟩ ∧ i.usesErrorHandler = true ∧
    base s.pc s.sp ⟨i, words⟩ = .ok b ∧
    m.bind s.stack s.pc i.signature.inputs words b (.empty i.signature.outputs.length) = .ok f ∧
    (m.context i).FailsIn f failure i.body

theorem decode_needsMark (m : Machine V) (pc : Nat) :
    Ends (·.needsMark = false) (fun _ => True) (m.decode pc) := by
  unfold decode
  split
  · rfl
  · split
    · rfl
    · split
      · rfl
      · trivial

/-- Taking the next instruction fails at a mark, or in a way that needs none. -/
theorem dispatch_error_iff {draft : Draft} (hbuilt : draft.Built m.descriptor)
    (hD : m.domain.Honours m.descriptor) (hmark : failure.needsMark = true) :
    m.dispatch s = .error failure ↔ m.FailsAtMark s failure := by
  have hbody : ∀ {i words f}, m.decode s.pc = .ok ⟨i, words⟩ →
      ((m.context i).runBody f i.body = .error failure ↔
        (m.context i).FailsIn f failure i.body) := by
    intro i words f hdecode
    exact (hbuilt.honours rfl hD i).runBody_error_iff hmark
      (hbuilt.lawful (mem_of_decode hdecode)).body
  constructor
  · intro h
    rcases bind_eq_error_iff.mp h with h | ⟨⟨i, words⟩, hdecode, h⟩
    · exact ((m.decode_needsMark s.pc).ne_error hmark h).elim
    rcases bind_eq_error_iff.mp h with h | ⟨b, hbase, h⟩
    · exact ((reports_base s.pc s.sp words i).needsMark.ne_error hmark h).elim
    rcases bind_eq_error_iff.mp h with h | ⟨f, hbind, h⟩
    · exact ((reports_bind _ words b _).needsMark.ne_error hmark h).elim
    rcases bind_eq_error_iff.mp h with h | ⟨r, -, h⟩
    · have hfails := (hbody hdecode).mp h
      have hhandler := (hbuilt.lawful (mem_of_decode hdecode)).handler hfails.exists_attempt
      exact ⟨i, words, b, f, hdecode, hhandler, hbase, hbind, hfails⟩
    · cases h
  · rintro ⟨i, words, b, f, hdecode, -, hbase, hbind, hfails⟩
    have hrun := (hbody hdecode).mpr hfails
    simp only [dispatch, hdecode, hbase, hbind, hrun, Bind.bind, Except.bind]

/-- A step that fails like that failed to take the instruction. -/
theorem step_failed_iff (hlive : s.status.isFinal = false) (hmark : failure.needsMark = true) :
    (m.step s).status = .failed failure ↔ m.dispatch s = .error failure := by
  rw [step, if_neg (by simp [hlive])]
  cases hd : m.dispatch s with
  | error f => simp
  | ok d =>
    have hne : (complete s d).status ≠ .failed failure := by
      unfold complete
      cases d.result with
      | ret v => simp
      | outputs values =>
        dsimp only
        split
        · rintro ⟨⟩
          cases hmark
        · simp
    simp [hne]

/-- So does a run, at one of its steps. -/
theorem exists_of_run_failed (hmark : failure.needsMark = true) {n : Nat}
    (hlive : s.status.isFinal = false) (h : (m.run n s).status = .failed failure) :
    ∃ k < n, m.dispatch (m.run k s) = .error failure := by
  induction n generalizing s with
  | zero =>
    rw [run_zero] at h
    rw [h] at hlive
    cases hlive
  | succ n ih =>
    rw [run_succ] at h
    cases hnext : (m.step s).status.isFinal with
    | true =>
      rw [m.run_of_isFinal n hnext] at h
      exact ⟨0, Nat.succ_pos n, (step_failed_iff hlive hmark).mp h⟩
    | false =>
      obtain ⟨k, hk, hdispatch⟩ := ih hnext h
      exact ⟨k + 1, Nat.succ_lt_succ hk, hdispatch⟩

end Machine

namespace Domain

/-- The real numbers have all methods that bodies can call. -/
theorem real_methods : ∀ mth ∈ Storage.double.methods,
    mth = ⟨"powf", 1⟩ ∨
      mth.arity = 0 ∧ mth.name ≠ "powf" ∧ (realMethod? mth.name).isSome = true := by
  decide +kernel

theorem complex_methods : ∀ mth ∈ Storage.doubleComplex.methods,
    mth = ⟨"powc", 1⟩ ∨
      mth.arity = 0 ∧ mth.name ≠ "powc" ∧ (complexMethod? mth.name).isSome = true := by
  decide +kernel

/-- The real numbers honour machines with their one helper. -/
theorem real_honours {d : Descriptor} (hhelpers : d.helpers = [⟨"rdf_pow", .function 2 true⟩])
    (hstorage : d.storage = .double) : real.Honours d := by
  refine ⟨?_, ?_, ?_, ?_⟩
  · intro name arity hmem
    simp [hhelpers] at hmem
  · intro name hmem
    simp [hhelpers] at hmem
  · intro name arity hmem v args hargs
    rw [hstorage] at hmem
    rcases real_methods _ hmem with hpow | ⟨hzero, hname, hsome⟩
    · cases hpow
      obtain ⟨e, rfl⟩ := List.length_eq_one_iff.mp hargs
      exact ⟨_, rfl⟩
    · obtain ⟨g, hg⟩ := Option.isSome_iff_exists.mp hsome
      obtain rfl : args = [] := List.length_eq_zero_iff.mp (hargs.trans hzero)
      exact ⟨g v, by simp_all [real]⟩
  · intro name hname args
    have hne : name ≠ "rdf_pow" := by simpa [hhelpers, eq_comm] using hname
    simp [real, hne]

/-- So do the complex numbers, with two helpers that never fail. -/
theorem complex_honours {d : Descriptor}
    (hhelpers : d.helpers = [⟨"csquare", .function 1 false⟩, ⟨"cabs", .function 1 false⟩])
    (hstorage : d.storage = .doubleComplex) : complex.Honours d := by
  refine ⟨?_, ?_, ?_, ?_⟩
  · intro name arity hmem args hargs
    simp only [hhelpers, List.mem_cons, Helper.mk.injEq, HelperKind.function.injEq,
      List.not_mem_nil, or_false] at hmem
    rcases hmem with ⟨rfl, rfl, -⟩ | ⟨rfl, rfl, -⟩
    · obtain ⟨z, rfl⟩ := List.length_eq_one_iff.mp hargs
      exact ⟨_, rfl⟩
    · obtain ⟨z, rfl⟩ := List.length_eq_one_iff.mp hargs
      exact ⟨_, rfl⟩
  · intro name hmem
    simp [hhelpers] at hmem
  · intro name arity hmem v args hargs
    rw [hstorage] at hmem
    rcases complex_methods _ hmem with hpow | ⟨hzero, hname, hsome⟩
    · cases hpow
      obtain ⟨w, rfl⟩ := List.length_eq_one_iff.mp hargs
      exact ⟨_, rfl⟩
    · obtain ⟨g, hg⟩ := Option.isSome_iff_exists.mp hsome
      obtain rfl : args = [] := List.length_eq_zero_iff.mp (hargs.trans hzero)
      exact ⟨g v, by simp_all [complex]⟩
  · intro name hname args
    have hne : name ≠ "csquare" ∧ name ≠ "cabs" := by simpa [hhelpers, eq_comm] using hname
    simp [complex, hne]

end Domain

/-- Failures happen where they are declared. In a domain that honours a descriptor that was built,
and in any state, the next instruction fails in the host, in a conversion or in an operation exactly
if it declares that it may fail and its body comes to a marked call that gives this failure. So an
instruction that declares nothing never fails like that, and a run that does failed at a mark. The
two domains honour their machines. -/
theorem failures_come_from_marks :
    ((∀ d log, Catalog.real.build = (some d, log) → Domain.real.Honours d) ∧
      ∀ d log, Catalog.complex.build = (some d, log) → Domain.complex.Honours d) ∧
    ∀ (draft : Draft) (d : Descriptor) (log : Log), draft.build = (some d, log) →
      ∀ {V : Type} (m : Machine V), m.descriptor = d → m.domain.Honours d →
      ∀ failure : Failure, failure.needsMark = true →
        (∀ s, m.dispatch s = .error failure ↔ m.FailsAtMark s failure) ∧
        (∀ s i words, m.decode s.pc = .ok ⟨i, words⟩ → i.usesErrorHandler = false →
          m.dispatch s ≠ .error failure) ∧
        ∀ s n, s.status.isFinal = false → (m.run n s).status = .failed failure →
          ∃ k < n, m.FailsAtMark (m.run k s) failure := by
  refine ⟨⟨?_, ?_⟩, ?_⟩
  · intro d log hbuild
    have hbuilt := Draft.built_of_build hbuild
    exact Domain.real_honours hbuilt.helpers_eq hbuilt.storage_eq
  · intro d log hbuild
    have hbuilt := Draft.built_of_build hbuild
    exact Domain.complex_honours hbuilt.helpers_eq hbuilt.storage_eq
  intro draft d log hbuild V m hm hD failure hmark
  subst hm
  have hiff : ∀ s, m.dispatch s = .error failure ↔ m.FailsAtMark s failure := fun s =>
    Machine.dispatch_error_iff (Draft.built_of_build hbuild) hD hmark
  refine ⟨hiff, ?_, ?_⟩
  · intro s i words hdecode hhandler hdispatch
    obtain ⟨i', words', b, f, hdecode', hhandler', -⟩ := (hiff s).mp hdispatch
    rw [hdecode] at hdecode'
    cases hdecode'
    rw [hhandler] at hhandler'
    cases hhandler'
  · intro s n hlive hrun
    obtain ⟨k, hk, hdispatch⟩ := Machine.exists_of_run_failed hmark hlive hrun
    exact ⟨k, hk, (hiff _).mp hdispatch⟩

/-- A program that calls a function of the host which fails. -/
theorem failures_come_from_marks_hostCall :
    ∃ (d : Descriptor) (log : Log) (m : Machine Double),
      ((Catalog.core "rdf" .double).addFallible "rdf_pow" 2).build = (some d, log) ∧
      m.descriptor = d ∧ m.domain.Honours d ∧
      (m.run 2 m.start).status = .failed (.hostCall "roots" "no roots") ∧
      ∃ k < 2, m.FailsAtMark (m.run k m.start) (.hostCall "roots" "no roots") := by
  have hall : (((Catalog.core "rdf" .double).addFallible "rdf_pow" 2).build.1.any fun d =>
      let m : Machine Double := ⟨.real, d, [0, 0, 3, 0, 1], [.one], [],
        [.function ⟨0, "roots", fun _ => .error "no roots"⟩], 1⟩
      match (m.run 2 m.start).status with
      | .failed failure => failure = .hostCall "roots" "no roots"
      | _ => false) = true := by
    decide +kernel
  obtain ⟨d, log, hbuild, hrun⟩ := Draft.exists_of_build_any hall
  have hbuilt := Draft.built_of_build hbuild
  generalize hm : (⟨.real, d, [0, 0, 3, 0, 1], [.one], [],
    [.function ⟨0, "roots", fun _ => .error "no roots"⟩], 1⟩ : Machine Double) = m at hrun
  have hfailed : (m.run 2 m.start).status = .failed (.hostCall "roots" "no roots") := by
    cases hstatus : (m.run 2 m.start).status with
    | failed failure =>
      simp only [hstatus] at hrun
      rw [of_decide_eq_true hrun]
    | _ => simp [hstatus] at hrun
  have hhonours : m.domain.Honours d := by
    rw [← hm]
    exact Domain.real_honours hbuilt.helpers_eq hbuilt.storage_eq
  obtain ⟨-, hmarks⟩ := failures_come_from_marks
  obtain ⟨-, -, hrun⟩ := hmarks _ d log hbuild m (by rw [← hm]) hhonours
    (.hostCall "roots" "no roots") rfl
  exact ⟨d, log, m, hbuild, by rw [← hm], hhonours, hfailed, hrun m.start 2 rfl hfailed⟩

end StackForge
