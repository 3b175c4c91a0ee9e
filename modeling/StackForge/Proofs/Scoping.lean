import StackForge.Catalog
import StackForge.Proofs.Body
import StackForge.Proofs.Checking
import StackForge.Proofs.Machine

/-!
Bodies that keep the rules are well scoped when they run. The frame holds what the statements run so
far have bound and assigned, so every name that is read is there. All that a body can still be
blamed for is an operand that is no value where a value is needed.
-/
namespace StackForge

/-- A text that reports a name without a meaning, a target that is no output, or an output without
a value. -/
inductive Misscoped : String → Prop where
  | unbound (name : String) : Misscoped s!"`{name}` is not bound"
  | target (name : String) : Misscoped s!"cannot assign `{name}`"
  | unassigned (k : Nat) : Misscoped s!"o{k} is never assigned"

theorem getLast?_append {s t : String} {c : Char} (h : t.toList.getLast? = some c) :
    (s ++ t).toList.getLast? = some c := by
  rw [String.toList_append, List.getLast?_append, h]
  rfl

/-- The two kinds of reports differ in their last letters. -/
theorem Mismatch.not_misscoped {message : String} (h : Mismatch message) : ¬Misscoped message := by
  have hlast : message.toList.getLast? = some 'e' ∨ message.toList.getLast? = some 't' := by
    cases h with
    | operand h | argument function h =>
      simp only [List.mem_cons, List.not_mem_nil, or_false] at h
      rcases h with rfl | rfl | rfl | rfl
      · exact .inl (getLast?_append (by decide))
      · exact .inr (getLast?_append (by decide))
      · exact .inr (getLast?_append (by decide))
      · exact .inl (getLast?_append (by decide))
  intro hscope
  have hother : message.toList.getLast? = some 'd' ∨ message.toList.getLast? = some '`' := by
    cases hscope with
    | unbound name => exact .inl (getLast?_append (by decide))
    | target name => exact .inr (getLast?_append (by decide))
    | unassigned k => exact .inl (getLast?_append (by decide))
  rcases hlast with hlast | hlast <;> rcases hother with hother | hother <;>
    rw [hlast] at hother <;> cases hother

/-- Failures that do not blame a body, unless the domain gives them as its own or an operand is no
value. -/
def BodyContext.Excuses {V : Type} (ctx : BodyContext V) (f : Failure) : Prop :=
  ∀ name message, f = .malformedBody name message →
    ctx.domain.Raises f ∨ name = ctx.instruction ∧ Mismatch message

theorem Machine.context_keeps {V : Type} (m : Machine V) (i : Instruction) :
    (m.context i).Keeps (m.context i).Excuses fun _ => True := by
  have hdomain : ∀ f, m.domain.Raises f → (m.context i).Excuses f := fun f hf _ _ _ => .inl hf
  refine ⟨hdomain, ?_, ?_, ?_, ?_, fun _ => trivial⟩
  · intro z k
    change Ends _ _ (m.power z k)
    unfold Machine.power
    split
    · exact Domain.power_ends (Domain.square_ends hdomain _) z k
    · rintro _ _ ⟨⟩
  · rintro _ _ _ _ ⟨⟩
  · rintro _ _ _ _ _ ⟨⟩
  · rintro message hmessage _ _ ⟨⟩
    exact .inr ⟨rfl, hmessage⟩

/-- A frame that fits the inputs and outputs of a signature, and holds what some statements have
bound and assigned. -/
structure Frame.Fits {V : Type} (sig : Signature) (before : List Stmt) (f : Frame V) : Prop where
  inputs : List.Forall₂ (fun p o => p.isVariadic = true → ∃ items, o = .slice items)
    sig.inputs f.inputs
  outputs : f.outputs.length = sig.outputs.length
  assigned : ∀ s ∈ before, ∀ k, s.assigned? = some k → ∃ v, f.outputs[k]? = some (some v)
  bound : ∀ s ∈ before, ∀ name, s.bound? = some name → ∃ o, f.locals.lookup name = some o

namespace Machine

variable {V : Type} {m : Machine V} {stack : List V}

theorem exists_slice_of_operand? {p : Param} {word : Option Int32} {offset : Nat} {o : Operand V}
    (h : m.operand? stack p word offset = some o) (hp : p.isVariadic = true) :
    ∃ items, o = .slice items := by
  obtain ⟨count, hkind⟩ := Param.isVariadic_iff.mp hp
  cases word with
  | none => simp [operand?, hkind] at h
  | some w =>
    simp only [operand?, hkind, Option.bind_eq_some_iff, Option.map_eq_some_iff] at h
    obtain ⟨_, -, items, -, rfl⟩ := h
    exact ⟨items, rfl⟩

/-- Each input reads one operand, and a variadic one reads a slice. -/
theorem forall₂_operands? {ps : List Param} {words : List Int32} {offset : Nat}
    {os : List (Operand V)} (h : m.operands? stack ps words offset = some os) :
    List.Forall₂ (fun p o => p.isVariadic = true → ∃ items, o = .slice items) ps os := by
  induction ps generalizing words offset os with
  | nil =>
    cases h
    exact .nil
  | cons p rest ih =>
    obtain ⟨o, others, ho, hothers, rfl⟩ := operands?_cons_eq_some_iff.mp h
    exact .cons (exists_slice_of_operand? ho) (ih hothers)

/-- A frame that was bound fits before any statement. -/
theorem fits_of_bind {sig : Signature} {pc : Nat} {words : List Int32} {offset : Nat}
    {f : Frame V}
    (h : m.bind stack pc sig.inputs words offset (.empty sig.outputs.length) = .ok f) :
    f.Fits sig [] := by
  obtain ⟨os, hos, rfl⟩ := bind_eq_ok_iff.mp h
  exact ⟨by simpa [Frame.append, Frame.empty] using forall₂_operands? hos,
    by simp [Frame.append, Frame.empty], by simp, by simp⟩

end Machine

namespace Frame.Fits

variable {V : Type} {sig : Signature} {before : List Stmt} {f : Frame V} {m : Setting}

/-- A name that can be read is in the frame, or it is a constant. -/
theorem get? (h : f.Fits sig before) {name : String} (hread : m.ReadRule sig before name) :
    (∃ o, f.get? name = some o) ∨ m.HasConstant name := by
  unfold Setting.ReadRule at hread
  unfold Frame.get?
  cases hclass : Binding.classify name with
  | input k =>
    simp only [hclass] at hread ⊢
    rw [h.inputs.length_eq] at hread
    exact .inl ⟨f.inputs[k], List.getElem?_eq_getElem hread⟩
  | count k =>
    simp only [hclass] at hread ⊢
    obtain ⟨p, hp, hvariadic⟩ := hread
    obtain ⟨hk, rfl⟩ := List.getElem?_eq_some_iff.mp hp
    have hk' : k < f.inputs.length := h.inputs.length_eq ▸ hk
    obtain ⟨items, hitems⟩ := h.inputs.get hk hk' hvariadic
    have hslice : f.inputs[k]? = some (.slice items) := by
      rw [List.getElem?_eq_getElem hk', ← hitems]
      rfl
    exact .inl ⟨.count items.length, by simp [Frame.count?, hslice]⟩
  | output k =>
    simp only [hclass] at hread ⊢
    obtain ⟨s, hs, hassigned⟩ := hread
    obtain ⟨v, hv⟩ := h.assigned s hs k hassigned
    exact .inl ⟨.value v, by simp [hv]⟩
  | other =>
    simp only [hclass] at hread ⊢
    rcases hread with ⟨s, hs, hbound⟩ | hconstant
    · exact .inl (h.bound s hs name hbound)
    · exact .inr hconstant

theorem define (h : f.Fits sig before) (id : Ident) (e : Expr) (span : Span) (o : Operand V) :
    (f.define id.name o).Fits sig (before ++ [.bind id e span]) := by
  refine ⟨h.inputs, h.outputs, ?_, ?_⟩
  · intro s hs k hassigned
    rcases List.mem_append.mp hs with hs | hs
    · exact h.assigned s hs k hassigned
    · rw [List.mem_singleton.mp hs] at hassigned
      cases hassigned
  · intro s hs name hbound
    rw [Frame.define, List.lookup_cons]
    split
    · exact ⟨o, rfl⟩
    · rename_i hne
      rcases List.mem_append.mp hs with hs | hs
      · exact h.bound s hs name hbound
      · rw [List.mem_singleton.mp hs] at hbound
        cases hbound
        simp at hne

theorem setOutput? (h : f.Fits sig before) {target : Ident} (e : Expr) (span : Span) {k : Nat}
    (hk : k < sig.outputs.length) (hclass : Binding.classify target.name = .output k) (v : V) :
    ∃ f', f.setOutput? k v = some f' ∧ f'.Fits sig (before ++ [.assign target e span]) := by
  have hlt : k < f.outputs.length := h.outputs ▸ hk
  refine ⟨_, if_pos hlt, h.inputs, by simp [h.outputs], ?_, ?_⟩
  · intro s hs j hassigned
    by_cases hjk : k = j
    · subst hjk
      exact ⟨v, by simp [hlt]⟩
    · rw [List.getElem?_set_ne hjk]
      rcases List.mem_append.mp hs with hs | hs
      · exact h.assigned s hs j hassigned
      · rw [List.mem_singleton.mp hs, Stmt.assigned?, hclass] at hassigned
        exact (hjk (Option.some.inj hassigned)).elim
  · intro s hs name hbound
    rcases List.mem_append.mp hs with hs | hs
    · exact h.bound s hs name hbound
    · rw [List.mem_singleton.mp hs] at hbound
      cases hbound

end Frame.Fits

namespace Frame

variable {V : Type}

/-- Outputs that all have a value have values. -/
theorem exists_valuesFrom {os : List (Option V)} (k : Nat) (h : ∀ o ∈ os, o.isSome = true) :
    ∃ vs, valuesFrom k os = .ok vs := by
  induction os generalizing k with
  | nil => exact ⟨[], rfl⟩
  | cons o rest ih =>
    obtain ⟨ho, hrest⟩ := List.forall_mem_cons.mp h
    obtain ⟨v, rfl⟩ := Option.isSome_iff_exists.mp ho
    obtain ⟨vs, hvs⟩ := ih (k + 1) hrest
    exact ⟨v :: vs, by rw [valuesFrom, hvs]; rfl⟩

/-- At the end of statements that assign every output, all outputs have values. -/
theorem Fits.results {sig : Signature} {before : List Stmt} {f : Frame V}
    (h : f.Fits sig before)
    (hall : ∀ k < sig.outputs.length, ∃ s ∈ before, s.assigned? = some k) :
    ∃ vs, f.results = .ok vs := by
  refine exists_valuesFrom 0 ?_
  intro o ho
  obtain ⟨k, hk, rfl⟩ := List.mem_iff_getElem.mp ho
  obtain ⟨s, hs, hassigned⟩ := hall k (h.outputs ▸ hk)
  obtain ⟨v, hv⟩ := h.assigned s hs k hassigned
  rw [List.getElem?_eq_getElem hk] at hv
  rw [Option.some.inj hv]
  rfl

end Frame

/-- A context in which the constants that rules know have a meaning, and failures are excused. -/
structure BodyContext.Serves {V : Type} (ctx : BodyContext V) (m : Setting) : Prop where
  keeps : ctx.Keeps ctx.Excuses fun _ => True
  constants : ∀ name, m.HasConstant name → ctx.isConst name = true

namespace BodyContext.Serves

variable {V : Type} {ctx : BodyContext V} {m : Setting} {sig : Signature} {before : List Stmt}
  {f : Frame V}

theorem lookup (h : ctx.Serves m) (hf : f.Fits sig before) {name : String}
    (hread : m.ReadRule sig before name) :
    Ends ctx.Excuses (fun _ => True) (ctx.lookup f name) := by
  unfold BodyContext.lookup
  rcases hf.get? hread with ⟨o, ho⟩ | hconstant
  · rw [ho]
    trivial
  · split
    · trivial
    · rw [if_pos (h.constants name hconstant)]
      have hraises : Ends ctx.Excuses (fun _ => True) (ctx.domain.constant name) :=
        .of_error fun f hf => h.keeps.domain f (.constant hf)
      exact hraises.map fun _ _ => trivial

/-- The names of an expression that keeps the rules are all found. -/
theorem reads (h : ctx.Serves m) (hf : f.Fits sig before) {e : Expr}
    (he : m.ExprRule sig before e) (id : Ident) (hid : .var id ∈ e.nodes) :
    Ends ctx.Excuses (fun _ => True) (ctx.lookup f id.name) := by
  obtain ⟨mark, hoccurs⟩ := Expr.mem_nodes_iff.mp hid
  exact h.lookup hf (he mark _ hoccurs)

/-- Statements that keep the rules are excused, and leave a frame that fits all of them unless one
returns. -/
theorem runStmts (h : ctx.Serves m) (hf : f.Fits sig before) {ss : List Stmt}
    (hrules : ∀ b s a, ss = b ++ s :: a → m.StmtRule sig (before ++ b) s a) :
    Ends ctx.Excuses (fun r => r.2 = none → r.1.Fits sig (before ++ ss)) (ctx.runStmts f ss) := by
  induction ss generalizing before f with
  | nil => simpa [BodyContext.runStmts] using hf
  | cons s rest ih =>
    obtain ⟨hs, hrest⟩ := Setting.forall_stmtRule_cons.mp hrules
    have hreads := h.reads hf hs.value
    rw [List.append_cons]
    cases s with
    | bind id e span =>
      refine (h.keeps.operand e hreads).bind fun o _ => ?_
      exact ih (hf.define id e span o) hrest
    | assign target e span =>
      obtain ⟨k, hk, hclass, -⟩ := hs.target
      refine (h.keeps.value e hreads).bind fun v _ => ?_
      obtain ⟨f', hset, hf'⟩ := hf.setOutput? e span hk hclass v
      simp only [hclass, hset]
      exact ih hf' hrest
    | ret e span =>
      refine (h.keeps.value e hreads).bind fun v _ => ?_
      rintro ⟨⟩

theorem finish (hf : f.Fits sig before)
    (hall : ∀ k < sig.outputs.length, ∃ s ∈ before, s.assigned? = some k) :
    Ends ctx.Excuses (fun _ => True) (ctx.finish f) := by
  obtain ⟨vs, hvs⟩ := hf.results hall
  rw [BodyContext.finish, hvs]
  trivial

/-- A body that keeps the rules is excused on every frame that fits its signature. -/
theorem runBody (h : ctx.Serves m) (hf : f.Fits sig []) {b : Body} (hb : m.BodyRule sig b) :
    Ends ctx.Excuses (fun _ => True) (ctx.runBody f b) := by
  cases b with
  | expression e =>
    obtain ⟨hone, he⟩ := hb
    refine (h.keeps.value e (h.reads hf he)).bind fun v _ => ?_
    -- the expression is assigned as a statement `o0 = e` would
    have hclass : Binding.classify (⟨"o0", e.span⟩ : Ident).name = .output 0 := by
      change Binding.classify "o0" = _
      decide
    obtain ⟨f', hset, hf'⟩ := hf.setOutput? e e.span (hone ▸ Nat.one_pos) hclass v
    rw [hset]
    refine finish hf' ?_
    intro k hk
    obtain rfl : k = 0 := by omega
    exact ⟨_, List.mem_append_right _ List.mem_cons_self, by simp [Stmt.assigned?, hclass]⟩
  | block b =>
    obtain ⟨hrules, hall⟩ := hb
    refine (h.runStmts hf hrules).bind fun r hr => ?_
    split
    · trivial
    · exact finish (hr rfl) hall

end BodyContext.Serves

namespace Draft.Built

variable {d : Draft} {desc : Descriptor}

/-- A machine for a descriptor that was built serves its bodies. -/
theorem serves (h : d.Built desc) {V : Type} {m : Machine V} (hm : m.descriptor = desc)
    (i : Instruction) : (m.context i).Serves d.setting := by
  refine ⟨m.context_keeps i, ?_⟩
  intro name hconstant
  have hhelpers : (m.context i).helpers = d.helpers := by
    change m.descriptor.helpers = _
    rw [hm, h.descriptor]
    rfl
  have hfind : d.helpers.find? (fun helper => helper.name = name) = some ⟨name, .const⟩ :=
    Check.find?_name (Check.nodup_of_helpersFrom h.helpers) hconstant
  rw [BodyContext.isConst, hhelpers, hfind]
  rfl

end Draft.Built

/-- Bodies of descriptors that were built are well scoped at run time, on every frame that any
bytecode gives them. Terminal bodies return a value, the others give one value for each element that
the instruction pushes. If a body is blamed nonetheless, and the domain did not give that failure as
its own, then an operand is no value where a value is needed. The two domains never give such a
failure. -/
theorem built_bodies_are_scoped :
    (∀ name message, ¬Domain.real.Raises (.malformedBody name message) ∧
      ¬Domain.complex.Raises (.malformedBody name message)) ∧
    ∀ (draft : Draft) (d : Descriptor) (log : Log), draft.build = (some d, log) →
      ∀ i ∈ d.instructions, ∀ {V : Type} (m : Machine V), m.descriptor = d →
      ∀ (stack : List V) (pc : Nat) (words : List Int32) (offset : Nat) (f : Frame V),
        m.bind stack pc i.signature.inputs words offset (.empty i.signature.outputs.length) = .ok f →
        match (m.context i).runBody f i.body with
        | .ok (.ret _) => i.isTerminal = true
        | .ok (.outputs vs) => i.isTerminal = false ∧ vs.length = i.signature.pushes
        | .error failure => ∀ name message, failure = .malformedBody name message →
            m.domain.Raises failure ∨
              name = i.name ∧ Mismatch message ∧ ¬Misscoped message := by
  constructor
  · intro name message
    constructor
    · intro h
      cases Domain.isArithmetic_of_real h
    · intro h
      cases Domain.isArithmetic_of_complex h
  · intro draft d log hbuild i hi V m hm stack pc words offset f hf
    have hbuilt := Draft.built_of_build hbuild
    have hi' := hbuilt.wellFormed.instructions i hi
    have hfits := Machine.fits_of_bind hf
    have hends := (hbuilt.serves hm i).runBody hfits (hbuilt.lawful hi).body
    cases hrun : (m.context i).runBody f i.body with
    | ok r =>
      have hsuits := BodyContext.runBody_suits hi' hrun
      rw [hfits.outputs, ← hi'.pushes_eq] at hsuits
      cases r with
      | ret v => exact hsuits
      | outputs vs => exact hsuits
    | error failure =>
      rw [hrun] at hends
      intro name message hfailure
      refine (hends name message hfailure).imp id ?_
      rintro ⟨hname, hmismatch⟩
      exact ⟨hname, hmismatch, hmismatch.not_misscoped⟩

/-- A body that adds an immediate to a value is accepted, and blamed for the immediate. -/
theorem built_bodies_are_scoped_mixed :
    ∃ (d : Descriptor) (log : Log) (i : Instruction) (m : Machine Double) (f : Frame Double),
      ((Catalog.core "rdf" .double).add (.expression "mixed" "SD->S" "i0 + i1")).build
        = (some d, log) ∧
      i ∈ d.instructions ∧ m.descriptor = d ∧
      m.bind [.one] 0 i.signature.inputs [3] 0 (.empty i.signature.outputs.length) = .ok f ∧
      (m.context i).runBody f i.body
        = .error (.malformedBody i.name "expected a value, found a immediate") ∧
      ¬Misscoped "expected a value, found a immediate" := by
  generalize hdraft : (Catalog.core "rdf" .double).add (.expression "mixed" "SD->S" "i0 + i1")
    = draft
  generalize hmessage : "expected a value, found a immediate" = message
  have hall : (draft.build.1.any fun d =>
      (d.instruction? "mixed").any fun i =>
        let m : Machine Double := ⟨.real, d, [], [], [], [], 1⟩
        (m.bind [.one] 0 i.signature.inputs [3] 0
          (.empty i.signature.outputs.length)).toOption.any fun f =>
            match (m.context i).runBody f i.body with
            | .error failure => failure = .malformedBody i.name message
            | .ok _ => false) = true := by
    rw [← hdraft, ← hmessage]
    decide +kernel
  simp only [Option.any_eq_true] at hall
  obtain ⟨d, hd, i, hi, f, hf, hrun⟩ := hall
  have hbuild : draft.build = (some d, draft.build.2) := Prod.ext hd rfl
  have hmem : i ∈ d.instructions := List.mem_of_find?_eq_some hi
  generalize hm : (⟨.real, d, [], [], [], [], 1⟩ : Machine Double) = m at hf hrun
  have hf := eq_ok_of_toOption hf
  have hscoped := built_bodies_are_scoped.2 draft d draft.build.2 hbuild i hmem m (by rw [← hm])
    [.one] 0 [3] 0 f hf
  cases hresult : (m.context i).runBody f i.body with
  | ok r =>
    rw [hresult] at hrun
    cases hrun
  | error failure =>
    rw [hresult] at hrun hscoped
    obtain rfl := of_decide_eq_true hrun
    rcases hscoped _ message rfl with hraises | ⟨-, -, hscope⟩
    · rw [← hm] at hraises
      exact ((built_bodies_are_scoped.1 _ _).1 hraises).elim
    · exact ⟨d, _, i, m, f, hbuild, hmem, by rw [← hm], hf, hresult, hscope⟩

end StackForge
