import Mathlib.Data.List.Induction
import StackForge.Proofs.Lawful

/-!
Checking an instruction decides exactly whether it keeps the rules. The scope that the checker
carries from statement to statement matches the statements it has seen, and each of its checks is
silent exactly where one rule holds.
-/
namespace StackForge

/-- What the checks of a machine's instructions get. -/
def Setting.context (m : Setting) : Check.Context :=
  .make m.storage m.chunks m.helpers m.power

/-- What the instructions of a draft refer to. -/
def Draft.setting (d : Draft) : Setting := ⟨d.storage, d.chunks.map (·.2), d.helpers, d.power⟩

namespace Globals

theorem ofHelpers_concat (hs : List Helper) (h : Helper) :
    ofHelpers (hs ++ [h]) = (ofHelpers hs).addHelper h := by
  simp [ofHelpers, List.foldl_append]

theorem mem_constants_ofHelpers {hs : List Helper} {name : String} :
    name ∈ (ofHelpers hs).constants ↔ ⟨name, .const⟩ ∈ hs := by
  induction hs using List.reverseRecOn with
  | nil => simp [ofHelpers]
  | append_singleton hs h ih =>
    obtain ⟨other, kind⟩ := h
    rw [ofHelpers_concat]
    cases kind with
    | const => simp [addHelper, addConstant, ih]
    | function arity fallible => simp [addHelper, addFunction, ih]

theorem lastFunction_concat {hs : List Helper} {h : Helper} {name : String} {f : Callable} :
    Helper.LastFunction (hs ++ [h]) name f ↔
      h = ⟨name, .function f.arity f.fallible⟩ ∨
        Helper.LastFunction hs name f ∧ (h.name = name → h.kind = .const) := by
  constructor
  · rintro ⟨before, after, hsplit, hlast⟩
    rcases List.eq_nil_or_concat after with rfl | ⟨after, last, rfl⟩
    · obtain ⟨-, hh⟩ := List.append_inj' hsplit rfl
      exact .inl (List.cons.inj hh).1
    · rw [List.concat_eq_append, ← List.cons_append, ← List.append_assoc] at hsplit
      obtain ⟨hhs, hh⟩ := List.append_inj' hsplit rfl
      obtain rfl := (List.cons.inj hh).1
      refine .inr ⟨⟨before, after, hhs, fun other hother => hlast other (by simp [hother])⟩, ?_⟩
      exact hlast h (by simp)
  · rintro (rfl | ⟨⟨before, after, rfl, hlast⟩, hh⟩)
    · exact ⟨hs, [], rfl, by simp⟩
    · refine ⟨before, after ++ [h], by simp, ?_⟩
      intro other hother
      rcases List.mem_append.mp hother with hother | hother
      · exact hlast other hother
      · rw [List.mem_singleton.mp hother]
        exact hh

/-- Of the functions with one name, the last one declared is found. -/
theorem function?_ofHelpers {hs : List Helper} {name : String} {f : Callable} :
    (ofHelpers hs).function? name = some f ↔ Helper.LastFunction hs name f := by
  induction hs using List.reverseRecOn with
  | nil => simp [ofHelpers, function?, Helper.LastFunction]
  | append_singleton hs h ih =>
    obtain ⟨other, kind⟩ := h
    rw [ofHelpers_concat, lastFunction_concat, ← ih]
    cases kind with
    | const => simp [addHelper, addConstant, function?]
    | function arity fallible =>
      obtain ⟨arity', fallible'⟩ := f
      by_cases hname : name = other
      · subst hname
        simp [addHelper, addFunction, function?]
      · have hfalse : (name == other) = false := by simpa using hname
        simp [addHelper, addFunction, function?, List.lookup_cons, hfalse, Ne.symm hname]

theorem function?_addFunction (g : Globals) (other name : String) (f : Callable) :
    (g.addFunction other f).function? name
      = if name = other then some f else g.function? name := by
  by_cases hname : name = other
  · simp [addFunction, function?, hname]
  · have hfalse : (name == other) = false := by simpa using hname
    simp [addFunction, function?, List.lookup_cons, hfalse, hname]

end Globals

namespace Setting

variable {m : Setting}

theorem mem_constants {name : String} :
    name ∈ m.context.globals.constants ↔ m.HasConstant name := by
  rw [HasConstant, ← Globals.mem_constants_ofHelpers]
  simp only [context, Check.Context.make]
  split <;> split <;> rfl

theorem any_hostConstants :
    (m.chunks.any fun c => c.role = .hostConstants) = true ↔ m.HasHostObjects := by
  simp [HasHostObjects]

/-- The functions of the context are those that bodies can call. -/
theorem function?_iff {name : String} {f : Callable} :
    m.context.globals.function? name = some f ↔ m.HasFunction name f := by
  have hfind : m.context.globals.function? name
      = if m.power.isSome = true ∧ name = powerName then some ⟨2, false⟩
        else if (m.chunks.any fun c => c.role = .hostConstants) = true ∧ name = callHost then
          some ⟨2, true⟩
        else (Globals.ofHelpers m.helpers).function? name := by
    have hreserved : ∀ (g : Globals) (names : List String),
        ({ g with reserved := names } : Globals).function? name = g.function? name :=
      fun _ _ => rfl
    simp only [context, Check.Context.make, hreserved]
    generalize (m.chunks.any fun c => decide (c.role = .hostConstants)) = objects
    cases m.power.isSome <;> cases objects <;> simp [Globals.function?_addFunction]
  rw [hfind]
  constructor
  · intro h
    split at h
    · rename_i hpower
      obtain ⟨hpower, rfl⟩ := hpower
      cases h
      exact .power hpower
    · rename_i hpower
      split at h
      · rename_i hhost
        obtain ⟨hhost, rfl⟩ := hhost
        cases h
        exact .host (any_hostConstants.mp hhost)
      · rename_i hhost
        refine .helper (Globals.function?_ofHelpers.mp h) ?_ ?_
        · intro hname
          simpa [hname] using hpower
        · intro hname hobjects
          exact hhost ⟨any_hostConstants.mpr hobjects, hname⟩
  · intro h
    cases h with
    | power h => simp [h]
    | host h =>
      have hne : callHost ≠ powerName := by decide
      rw [if_neg (fun hand => hne hand.2), if_pos ⟨any_hostConstants.mpr h, rfl⟩]
    | helper h notPower notHost =>
      rw [if_neg, if_neg]
      · exact Globals.function?_ofHelpers.mpr h
      · rintro ⟨hobjects, hname⟩
        exact notHost hname (any_hostConstants.mp hobjects)
      · rintro ⟨hpower, hname⟩
        rw [notPower hname] at hpower
        cases hpower

/-- Among chunks with different names, a name belongs to code exactly if it finds code. -/
theorem roleNamed?_iff (hnames : (m.chunks.map (·.name)).Nodup) {name : String} :
    m.context.roleNamed? name = some .code ↔ m.IsCode name := by
  have hchunks : m.context.chunks = m.chunks := rfl
  rw [Check.Context.roleNamed?, hchunks, Option.map_eq_some_iff]
  constructor
  · rintro ⟨c, hc, hrole⟩
    exact ⟨c, List.mem_of_find?_eq_some hc, by simpa using List.find?_some hc, hrole⟩
  · rintro ⟨c, hc, rfl, hrole⟩
    exact ⟨c, Check.find?_name hnames hc, hrole⟩

theorem inputFault?_iff (hnames : (m.chunks.map (·.name)).Nodup) {k : Nat} {p : Param} :
    Check.inputFault? m.context k p = none ↔ m.InputRule p := by
  unfold Check.inputFault? InputRule
  cases p.kind with
  | single =>
    dsimp only
    split <;> simp_all
  | immediate => simp
  | variadic count =>
    dsimp only
    rw [← roleNamed?_iff hnames]
    split
    · simp_all
    · split <;> simp_all
  | indexed index =>
    dsimp only
    rw [← roleNamed?_iff hnames]
    split
    · simp_all
    · cases p.role <;> simp_all

/-- An output that a letter stands for passes exactly if it is one stack element: of chunks with
different names only the stack can be written. -/
theorem outputFault?_iff (hnames : (m.chunks.map (·.name)).Nodup) {letters : Letters}
    (hletters : ∀ c chunk, letters.find? c = some chunk → chunk ∈ m.chunks) {k : Nat} {p : Param}
    (hover : p.Over letters) :
    Check.outputFault? m.context k p = none ↔ p.role = .stack ∧ p.kind = .single := by
  constructor
  · intro h
    have hfixed := @Check.isFixed_of_outputFault? m.context _ _ _ hnames hletters hover h
    simpa [Param.isFixed] using hfixed
  · rintro ⟨hrole, hkind⟩
    obtain ⟨c, chunk, hfind, hname, hsame⟩ := hover
    have hwritable : (m.context.chunks.any fun c => c.name = p.chunk && !c.isReadOnly) = true := by
      refine List.any_eq_true.mpr ⟨chunk, hletters c chunk hfind, ?_⟩
      simp [hname, Chunk.isReadOnly, ← hsame, hrole, Role.isWritable]
    simp [Check.outputFault?, hwritable, hkind]

end Setting

namespace Check

/-- A check of parameters reports nothing exactly if it finds nothing wrong with any of them. -/
theorem harmless_paramFaults_iff {fault? : Nat → Param → Option CheckFault} {src : Source}
    {params : List Param} (hsev : ∀ k p f, fault? k p = some f → f.severity = .error) :
    Harmless (paramFaults fault? src params) ↔
      ∀ k p, params[k]? = some p → fault? k p = none := by
  constructor
  · intro h k p hp
    cases hf : fault? k p with
    | none => rfl
    | some f =>
      have hmem : f.located src p.span ∈ paramFaults fault? src params :=
        List.mem_filterMap.mpr ⟨(p, k), List.mem_zipIdx_iff_getElem?.mpr hp, by simp [hf]⟩
      have hwarn := h _ hmem
      rw [CheckFault.located_severity, hsev k p f hf] at hwarn
      cases hwarn
  · intro h d hd
    obtain ⟨⟨p, k⟩, hp, hd⟩ := List.mem_filterMap.mp hd
    simp [h k p (List.mem_zipIdx_iff_getElem?.mp hp)] at hd

end Check

namespace Setting

variable {m : Setting}

/-- The signature of an instruction passes exactly if its inputs and outputs keep their rules. -/
theorem harmless_signature_iff (hnames : (m.chunks.map (·.name)).Nodup) {letters : Letters}
    (hletters : ∀ c chunk, letters.find? c = some chunk → chunk ∈ m.chunks) {src : Source}
    {sig : Signature} (hover : ∀ p ∈ sig.inputs ++ sig.outputs, p.Over letters) :
    Harmless (Check.signature m.context src sig) ↔
      (∀ p ∈ sig.inputs, m.InputRule p) ∧
        ∀ p ∈ sig.outputs, p.role = .stack ∧ p.kind = .single := by
  rw [Check.signature, harmless_append,
    Check.harmless_paramFaults_iff fun _ _ _ => Check.inputFault?_severity,
    Check.harmless_paramFaults_iff fun _ _ _ => Check.outputFault?_severity]
  refine and_congr ?_ ?_
  · simp only [inputFault?_iff hnames, List.mem_iff_getElem?]
    exact ⟨fun h p ⟨k, hk⟩ => h k p hk, fun h k p hk => h p ⟨k, hk⟩⟩
  · constructor
    · intro h p hp
      obtain ⟨k, hk⟩ := List.mem_iff_getElem?.mp hp
      exact (outputFault?_iff hnames hletters (hover p (List.mem_append_right _ hp))).mp (h k p hk)
    · intro h k p hk
      have hp := List.mem_of_getElem? hk
      exact (outputFault?_iff hnames hletters (hover p (List.mem_append_right _ hp))).mpr (h p hp)

end Setting

/-- A scope that knows what some statements have bound and assigned. -/
structure Scope.Matches (m : Setting) (sig : Signature) (before : List Stmt) (scope : Scope) :
    Prop where
  globals : scope.globals = m.context.globals
  variadic : scope.variadic = sig.inputs.map Param.isVariadic
  outputs : scope.outputs = sig.outputs.length
  locals : ∀ name, name ∈ scope.locals ↔ ∃ s ∈ before, s.bound? = some name
  assigned : ∀ k, k ∈ scope.assigned ↔ ∃ s ∈ before, s.assigned? = some k
  inRange : ∀ k ∈ scope.assigned, k < sig.outputs.length

theorem Storage.nodup_methods (s : Storage) : (s.methods.map (·.name)).Nodup := by
  cases s <;> decide

/-- A name finds the method that has it. -/
theorem Storage.method?_eq_some_iff {s : Storage} {name : String} {method : Method} :
    s.method? name = some method ↔ method ∈ s.methods ∧ method.name = name := by
  constructor
  · intro h
    exact ⟨List.mem_of_find?_eq_some h, by simpa using List.find?_some h⟩
  · rintro ⟨hmem, rfl⟩
    exact Check.find?_name s.nodup_methods hmem

theorem Check.varFault?_severity {scope : Scope} {name : String} {f : CheckFault}
    (h : varFault? scope name = some f) : f.severity = .error := by
  unfold varFault? at h
  split at h <;> (repeat' split at h) <;> cases h <;> rfl

namespace Scope.Matches

variable {m : Setting} {sig : Signature} {before : List Stmt} {scope : Scope}

theorem inputs (h : scope.Matches m sig before) : scope.inputs = sig.inputs.length := by
  rw [Scope.inputs, h.variadic, List.length_map]

theorem isVariadic (h : scope.Matches m sig before) {k : Nat} :
    scope.isVariadic k = true ↔ ∃ p, sig.inputs[k]? = some p ∧ p.isVariadic = true := by
  rw [Scope.isVariadic, h.variadic, List.getD_eq_getElem?_getD, List.getElem?_map]
  cases sig.inputs[k]? <;> simp

theorem function?_iff (h : scope.Matches m sig before) {name : String} {f : Callable} :
    scope.function? name = some f ↔ m.HasFunction name f := by
  rw [Scope.function?, h.globals, Setting.function?_iff]

/-- A name can be read exactly if nothing is wrong with reading it. -/
theorem varFault?_iff (h : scope.Matches m sig before) {name : String} :
    Check.varFault? scope name = none ↔ m.ReadRule sig before name := by
  unfold Check.varFault? Setting.ReadRule Scope.resolve
  cases hname : Binding.classify name with
  | input k =>
    dsimp only
    rw [h.inputs]
    by_cases hk : k < sig.inputs.length <;> simp [hk]
  | count k =>
    dsimp only
    rw [← h.isVariadic, h.inputs]
    by_cases hk : k < sig.inputs.length
    · simp [hk]
    · have hnot : scope.isVariadic k = false := by
        simp [Scope.isVariadic, h.variadic, Nat.le_of_not_lt hk]
      simp [hk, hnot]
  | output k =>
    dsimp only
    rw [← h.assigned k, h.outputs]
    by_cases hk : k < sig.outputs.length
    · simp [hk, Scope.isAssigned]
    · have hnot : k ∉ scope.assigned := fun hmem => hk (h.inRange k hmem)
      simp [hk, hnot]
  | other =>
    dsimp only
    rw [← h.locals name, ← Setting.mem_constants, ← h.globals]
    by_cases hlocal : name ∈ scope.locals
    · simp [hlocal]
    · by_cases hconst : name ∈ scope.globals.constants
      · simp [hlocal, hconst]
      · simp [hlocal, hconst]

/-- A call passes exactly if its function is there, has as many arguments, and may fail exactly if
it is marked. -/
theorem harmless_callFaults_iff (h : scope.Matches m sig before) {src : Source} {callee : Ident}
    {given : Nat} {span : Span} {mark : Bool} :
    Harmless (Check.callFaults scope src callee given span mark) ↔
      ∃ f, m.HasFunction callee.name f ∧ f.arity = given ∧ f.fallible = mark := by
  simp only [← h.function?_iff]
  unfold Check.callFaults
  cases scope.function? callee.name with
  | none => simp [CheckFault.severity]
  | some f =>
    obtain ⟨arity, fallible⟩ := f
    by_cases harity : arity = given
    · cases fallible <;> cases mark <;> simp [harity, CheckFault.severity]
    · simp [harity, CheckFault.severity]

theorem harmless_methodFaults_iff {src : Source} {name : Ident} {given : Nat} {span : Span}
    {mark : Bool} :
    Harmless (Check.methodFaults m.context src name given span mark) ↔
      ⟨name.name, given⟩ ∈ m.storage.methods ∧ mark = false := by
  have hstorage : m.context.storage = m.storage := rfl
  rw [Check.methodFaults, harmless_append, hstorage]
  refine and_congr ?_ (by cases mark <;> simp [CheckFault.severity])
  constructor
  · intro h
    cases hfind : m.storage.method? name.name with
    | none => simp [hfind, CheckFault.severity] at h
    | some method =>
      obtain ⟨hmem, hname⟩ := Storage.method?_eq_some_iff.mp hfind
      by_cases harity : method.arity = given
      · rw [← hname, ← harity]
        exact hmem
      · simp [hfind, harity, CheckFault.severity] at h
  · intro hmem
    have hfind : m.storage.method? name.name = some ⟨name.name, given⟩ :=
      Storage.method?_eq_some_iff.mpr ⟨hmem, rfl⟩
    simp [hfind]

mutual

/-- An expression passes exactly if everything in it keeps its rule. -/
theorem harmless_expr_iff (h : scope.Matches m sig before) (src : Source) (mark : Bool)
    (e : Expr) :
    Harmless (Check.expr m.context scope src mark e) ↔
      e.Everywhere (m.NodeRule sig before) mark := by
  cases e with
  | number v span => simp [Check.expr, Setting.NodeRule]
  | var id =>
    rw [Expr.everywhere_var, Setting.NodeRule, ← h.varFault?_iff, Check.expr]
    cases hf : Check.varFault? scope id.name with
    | none => simp
    | some f => simp [Check.varFault?_severity hf]
  | neg x span => simp [Check.expr, Setting.NodeRule, harmless_expr_iff h src false x]
  | binary op l r span =>
    simp [Check.expr, Setting.NodeRule, harmless_expr_iff h src false l,
      harmless_expr_iff h src false r]
  | paren x span => simp [Check.expr, Setting.NodeRule, harmless_expr_iff h src mark x]
  | call callee args span =>
    simp [Check.expr, Setting.NodeRule, h.harmless_callFaults_iff, harmless_exprs_iff h src args]
  | method receiver name args span =>
    simp [Check.expr, Setting.NodeRule, harmless_methodFaults_iff,
      harmless_expr_iff h src false receiver, harmless_exprs_iff h src args, and_assoc]
  | attempt inner span =>
    have hinner := harmless_expr_iff h src true inner
    have hrule := @Expr.occurs_stripParens true inner
    rw [Expr.everywhere_attempt, Setting.NodeRule, Check.expr]
    cases hstrip : inner.stripParens with
    | call callee args span' => simpa [Check.isCallLike] using hinner
    | method receiver name args span' =>
      -- the mark is refused at the method itself
      have hnot : ¬inner.Everywhere (m.NodeRule sig before) true := by
        intro heverywhere
        rw [hstrip] at hrule
        exact absurd (heverywhere _ _ hrule).2 (by decide)
      simpa [Check.isCallLike, hinner] using hnot
    | _ => simp [Check.isCallLike, CheckFault.severity]

theorem harmless_exprs_iff (h : scope.Matches m sig before) (src : Source) (es : List Expr) :
    Harmless (Check.exprs m.context scope src es) ↔
      ∀ e ∈ es, e.Everywhere (m.NodeRule sig before) false := by
  cases es with
  | nil => simp [Check.exprs]
  | cons e rest =>
    simp [Check.exprs, harmless_expr_iff h src false e, harmless_exprs_iff h src rest]

end

/-- A name can be bound exactly if it would hide nothing. -/
theorem wouldShadow_iff (h : scope.Matches m sig before) {name : String} :
    scope.wouldShadow name = false ↔ m.BindRule before name := by
  have hfunction : (scope.function? name).isSome = false ↔ ∀ f, ¬m.HasFunction name f := by
    simp only [← h.function?_iff, Option.isSome_eq_false_iff, Option.isNone_iff_eq_none,
      Option.eq_none_iff_forall_ne_some]
  have hreserved : m.context.globals.reserved = reservedNames m.chunks := rfl
  simp only [Scope.wouldShadow, Bool.or_eq_false_iff, hfunction, List.contains_eq_mem,
    decide_eq_false_iff_not, h.locals, h.globals, hreserved, Setting.mem_constants,
    bne_eq_false_iff_eq]
  constructor
  · rintro ⟨⟨⟨⟨hother, hlocal⟩, hconst⟩, hcall⟩, hfree⟩
    exact ⟨hother, fun s hs hname => hlocal ⟨s, hs, hname⟩, hconst, hcall, hfree⟩
  · rintro ⟨hother, hlocal, hconst, hcall, hfree⟩
    refine ⟨⟨⟨⟨hother, ?_⟩, hconst⟩, hcall⟩, hfree⟩
    rintro ⟨s, hs, hname⟩
    exact hlocal s hs hname

/-- Scopes match whatever has been read. -/
theorem reading (h : scope.Matches m sig before) (used : List Nat) :
    Scope.Matches m sig before { scope with used } :=
  ⟨h.globals, h.variadic, h.outputs, h.locals, h.assigned, h.inRange⟩

/-- A statement that binds a new name adds it. -/
theorem define (h : scope.Matches m sig before) (id : Ident) (e : Expr) (span : Span) :
    (scope.define id.name).Matches m sig (before ++ [.bind id e span]) := by
  refine ⟨h.globals, h.variadic, h.outputs, ?_, ?_, h.inRange⟩
  · intro name
    simp only [Scope.define, List.mem_cons, h.locals, List.mem_append, List.not_mem_nil, or_false]
    constructor
    · rintro (rfl | ⟨s, hs, hname⟩)
      · exact ⟨_, .inr rfl, rfl⟩
      · exact ⟨s, .inl hs, hname⟩
    · rintro ⟨s, hs | rfl, hname⟩
      · exact .inr ⟨s, hs, hname⟩
      · exact .inl (Option.some.inj hname).symm
  · intro k
    simp [Scope.define, h.assigned, or_and_right, exists_or, Stmt.assigned?]

/-- A statement that assigns an output adds it. -/
theorem assign (h : scope.Matches m sig before) {target : Ident} {k : Nat} (e : Expr)
    (span : Span) (htarget : Binding.classify target.name = .output k)
    (hk : scope.canAssign k = true) :
    (scope.assign k).Matches m sig (before ++ [.assign target e span]) := by
  have hrange : k < sig.outputs.length := by
    simp only [Scope.canAssign, Bool.and_eq_true, decide_eq_true_eq] at hk
    exact h.outputs ▸ hk.1
  rw [Scope.assign, if_pos hk]
  refine ⟨h.globals, h.variadic, h.outputs, ?_, ?_, ?_⟩
  · intro name
    simp [h.locals, or_and_right, exists_or, Stmt.bound?]
  · intro j
    simp only [List.mem_cons, h.assigned, List.mem_append, List.not_mem_nil, or_false]
    constructor
    · rintro (rfl | ⟨s, hs, hj⟩)
      · exact ⟨_, .inr rfl, by simp [Stmt.assigned?, htarget]⟩
      · exact ⟨s, .inl hs, hj⟩
    · rintro ⟨s, hs | rfl, hj⟩
      · exact .inr ⟨s, hs, hj⟩
      · simp only [Stmt.assigned?, htarget, Option.some.injEq] at hj
        exact .inl hj.symm
  · intro j hj
    rcases List.mem_cons.mp hj with rfl | hj
    · exact hrange
    · exact h.inRange j hj

theorem ret (h : scope.Matches m sig before) (e : Expr) (span : Span) :
    scope.Matches m sig (before ++ [.ret e span]) := by
  refine ⟨h.globals, h.variadic, h.outputs, ?_, ?_, h.inRange⟩
  · intro name
    simp [h.locals, or_and_right, exists_or, Stmt.bound?]
  · intro k
    simp [h.assigned, or_and_right, exists_or, Stmt.assigned?]

/-- The target of a last statement passes exactly if it keeps its rule. -/
theorem harmless_target_iff (h : scope.Matches m sig before) {src : Source} {s : Stmt} :
    Harmless (Check.target scope src s).1 ↔ m.TargetRule sig before [] s := by
  cases s with
  | bind id e span =>
    rw [Setting.TargetRule, ← h.wouldShadow_iff, Check.target]
    cases scope.wouldShadow id.name <;> simp [CheckFault.severity]
  | assign target e span =>
    simp only [Setting.TargetRule, Check.target]
    cases hname : Binding.classify target.name with
    | output k =>
      have hassigned : (∀ other ∈ before, other.assigned? ≠ some k) ↔ k ∉ scope.assigned := by
        rw [h.assigned]
        simp
      by_cases hk : k < sig.outputs.length
      · by_cases hmem : k ∈ scope.assigned
        · simp [h.outputs, hk, Scope.canAssign, Scope.isAssigned, hmem, hassigned,
            CheckFault.severity]
        · simp [h.outputs, hk, Scope.canAssign, Scope.isAssigned, hmem, hassigned]
      · simp [h.outputs, hk, CheckFault.severity]
    | _ => simp [CheckFault.severity]
  | ret e span =>
    rw [Setting.TargetRule, Check.target, h.outputs]
    cases sig.outputs <;> simp [CheckFault.severity]

/-- After a target that passes, the scope knows the statement. -/
theorem target (h : scope.Matches m sig before) {src : Source} {s : Stmt}
    (hs : Harmless (Check.target scope src s).1) :
    (Check.target scope src s).2.Matches m sig (before ++ [s]) := by
  cases s with
  | bind id e span =>
    simp only [Check.target] at hs ⊢
    split at hs
    · simp [CheckFault.severity] at hs
    · rename_i hfresh
      rw [if_neg hfresh]
      exact h.define id e span
  | assign target e span =>
    have hrule := h.harmless_target_iff.mp hs
    obtain ⟨k, hk, hname, hnew⟩ := hrule
    have hcan : scope.canAssign k = true := by
      have hmem : k ∉ scope.assigned := by
        rw [h.assigned]
        rintro ⟨other, hother, hk⟩
        exact hnew other hother hk
      simp [Scope.canAssign, h.outputs, hk, Scope.isAssigned, hmem]
    simp only [Check.target, hname, h.outputs, hk, hcan, if_true]
    exact h.assign e span hname hcan
  | ret e span => exact h.ret e span

end Scope.Matches
namespace Scope

/-- Noting a name only adds the input that it names, if there is one. -/
theorem note_eq (scope : Scope) (name : String) :
    ∃ new, scope.note name = { scope with used := new ++ scope.used } ∧
      ∀ k, k ∈ new ↔ k < scope.inputs ∧ NamesInput k name := by
  unfold note resolve NamesInput
  cases Binding.classify name with
  | input j | count j =>
    by_cases hj : j < scope.inputs
    · refine ⟨[j], by simp [hj], ?_⟩
      intro k
      simp only [List.mem_singleton, Binding.input.injEq, Binding.count.injEq, reduceCtorEq,
        or_false, false_or]
      constructor
      · rintro rfl
        exact ⟨hj, rfl⟩
      · rintro ⟨-, rfl⟩
        rfl
    · refine ⟨[], by simp [hj], ?_⟩
      intro k
      simp only [List.not_mem_nil, Binding.input.injEq, Binding.count.injEq, reduceCtorEq,
        or_false, false_or, false_iff, not_and]
      rintro hk rfl
      exact hj hk
  | output j =>
    refine ⟨[], ?_, by simp⟩
    by_cases hj : j < scope.outputs <;> simp [hj]
  | other =>
    refine ⟨[], ?_, by simp⟩
    by_cases hlocal : name ∈ scope.locals
    · simp [hlocal]
    · by_cases hconst : name ∈ scope.globals.constants <;> simp [hlocal, hconst]

theorem noteAll_eq (scope : Scope) (names : List String) :
    ∃ new, scope.noteAll names = { scope with used := new ++ scope.used } ∧
      ∀ k, k ∈ new ↔ k < scope.inputs ∧ ∃ name ∈ names, NamesInput k name := by
  induction names generalizing scope with
  | nil => exact ⟨[], rfl, by simp⟩
  | cons name rest ih =>
    obtain ⟨first, hfirst, hmem⟩ := scope.note_eq name
    obtain ⟨new, hnew, hmems⟩ := ih (scope.note name)
    refine ⟨new ++ first, ?_, ?_⟩
    · change (scope.note name).noteAll rest = _
      rw [hnew, hfirst]
      simp
    · intro k
      have hinputs : (scope.note name).inputs = scope.inputs := by rw [hfirst]; rfl
      rw [List.mem_append, hmem, hmems, hinputs, ← and_or_left, List.exists_mem_cons_iff, or_comm]

end Scope

namespace Setting

variable {m : Setting} {sig : Signature}

/-- A rule for the place in front of other statements is one for the last place, and returns have
no other place. -/
theorem targetRule_iff {before after : List Stmt} {s : Stmt} :
    m.TargetRule sig before after s ↔
      m.TargetRule sig before [] s ∧ (s.isReturn = true → after = []) := by
  cases s <;> simp [TargetRule, Stmt.isReturn]

/-- The rules for statements in order, first statement first. -/
theorem forall_stmtRule_cons {before rest : List Stmt} {s : Stmt} :
    (∀ b t a, s :: rest = b ++ t :: a → m.StmtRule sig (before ++ b) t a) ↔
      m.StmtRule sig before s rest ∧
        ∀ b t a, rest = b ++ t :: a → m.StmtRule sig (before ++ [s] ++ b) t a := by
  constructor
  · intro h
    refine ⟨by simpa using h [] s rest rfl, ?_⟩
    rintro b t a rfl
    simpa using h (s :: b) t a rfl
  · rintro ⟨hs, hrest⟩ b t a hsplit
    cases b with
    | nil =>
      obtain ⟨rfl, rfl⟩ := List.cons.inj hsplit
      simpa using hs
    | cons s' b =>
      obtain ⟨rfl, htail⟩ := List.cons.inj hsplit
      simpa using hrest b t a htail

end Setting

namespace Scope.Matches

variable {m : Setting} {sig : Signature} {before : List Stmt} {scope : Scope}

theorem noteAll (h : scope.Matches m sig before) (names : List String) :
    (scope.noteAll names).Matches m sig before := by
  obtain ⟨new, hnew, -⟩ := scope.noteAll_eq names
  rw [hnew]
  exact h.reading _

theorem harmless_stmts_of_returned {src : Source} {ss : List Stmt} :
    Harmless (Check.stmts m.context src scope true ss).1 ↔ ss = [] := by
  cases ss with
  | nil => simp [Check.stmts]
  | cons s rest => simp [Check.stmts, CheckFault.severity]

/-- Statements pass exactly if each of them keeps the rules at its place. -/
theorem harmless_stmts_iff (h : scope.Matches m sig before) {src : Source} {ss : List Stmt} :
    Harmless (Check.stmts m.context src scope false ss).1 ↔
      ∀ b s a, ss = b ++ s :: a → m.StmtRule sig (before ++ b) s a := by
  induction ss generalizing before scope with
  | nil => simp [Check.stmts]
  | cons s rest ih =>
    have hnoted := h.noteAll s.value.varNames
    rw [Setting.forall_stmtRule_cons]
    have hrest : m.TargetRule sig before [] s →
        (Harmless (Check.stmts m.context src (Check.target (scope.noteAll s.value.varNames) src s).2
            (false || s.isReturn) rest).1 ↔
          (s.isReturn = true → rest = []) ∧
            ∀ b t a, rest = b ++ t :: a → m.StmtRule sig (before ++ [s] ++ b) t a) := by
      intro htarget
      have hpass : Harmless (Check.target (scope.noteAll s.value.varNames) src s).1 :=
        hnoted.harmless_target_iff.mpr htarget
      have hnext := hnoted.target hpass
      cases hret : s.isReturn with
      | false => simpa using ih hnext
      | true =>
        rw [Bool.false_or, harmless_stmts_of_returned]
        constructor
        · rintro rfl
          simp
        · intro hlast
          exact hlast.1 rfl
    simp only [Check.stmts, harmless_append, h.harmless_expr_iff, hnoted.harmless_target_iff]
    constructor
    · rintro ⟨⟨⟨-, hvalue⟩, htarget⟩, hothers⟩
      obtain ⟨hlast, hrules⟩ := (hrest htarget).mp hothers
      exact ⟨⟨hvalue, Setting.targetRule_iff.mpr ⟨htarget, hlast⟩⟩, hrules⟩
    · rintro ⟨⟨hvalue, htarget⟩, hrules⟩
      obtain ⟨htarget, hlast⟩ := Setting.targetRule_iff.mp htarget
      exact ⟨⟨⟨by simp, hvalue⟩, htarget⟩, (hrest htarget).mpr ⟨hlast, hrules⟩⟩

/-- After statements that pass, the scope knows all of them. -/
theorem stmts (h : scope.Matches m sig before) {src : Source} {returned : Bool} {ss : List Stmt}
    (hss : Harmless (Check.stmts m.context src scope returned ss).1) :
    (Check.stmts m.context src scope returned ss).2.Matches m sig (before ++ ss) := by
  induction ss generalizing before scope returned with
  | nil => simpa [Check.stmts] using h
  | cons s rest ih =>
    simp only [Check.stmts, harmless_append] at hss ⊢
    obtain ⟨⟨-, htarget⟩, hothers⟩ := hss
    have hnext := (h.noteAll s.value.varNames).target htarget
    rw [List.append_cons]
    exact ih hnext hothers

end Scope.Matches

namespace Check

theorem target_used (scope : Scope) (src : Source) (s : Stmt) :
    (target scope src s).2.used = scope.used ∧ (target scope src s).2.inputs = scope.inputs := by
  cases s with
  | bind name e span =>
    simp only [target]
    split <;> exact ⟨rfl, rfl⟩
  | assign name e span =>
    simp only [target, Scope.assign]
    repeat' split
    all_goals exact ⟨rfl, rfl⟩
  | ret e span => exact ⟨rfl, rfl⟩

/-- The inputs that statements read are those that occur in them. -/
theorem mem_used_stmts {ctx : Context} {src : Source} {scope : Scope} {returned : Bool}
    {ss : List Stmt} {k : Nat} :
    k ∈ (stmts ctx src scope returned ss).2.used ↔ k ∈ scope.used ∨
      k < scope.inputs ∧ ∃ s ∈ ss, ∃ name ∈ s.value.varNames, NamesInput k name := by
  induction ss generalizing scope returned with
  | nil => simp [stmts]
  | cons s rest ih =>
    obtain ⟨new, hnew, hmem⟩ := scope.noteAll_eq s.value.varNames
    obtain ⟨hused, hinputs⟩ := target_used (scope.noteAll s.value.varNames) src s
    have hsame : (scope.noteAll s.value.varNames).inputs = scope.inputs := by rw [hnew]; rfl
    have hadded : (scope.noteAll s.value.varNames).used = new ++ scope.used := by rw [hnew]
    simp only [stmts, ih, hused, hinputs, hsame, hadded, List.mem_append, hmem,
      List.exists_mem_cons_iff]
    grind

theorem harmless_handlerFault_iff {src : Source} {span : Span} {b : Body} {uses : Bool} :
    Harmless ((handlerFault? b uses).map (·.located src span)).toList ↔
      (b.containsAttempt = true → uses = true) := by
  unfold handlerFault?
  cases b.containsAttempt <;> cases uses <;> simp [CheckFault.severity]

/-- Numbers reported one by one: nothing is reported exactly if there are none. -/
theorem harmless_map_iff {ks : List Nat} {fault : Nat → CheckFault} {src : Source} {span : Span}
    (hsev : ∀ k, (fault k).severity = .error) :
    Harmless (ks.map fun k => (fault k).located src span) ↔ ks = [] := by
  cases ks with
  | nil => simp
  | cons k rest => simp [hsev]

end Check

namespace Setting

variable {m : Setting} {sig : Signature}

theorem matches_ofSignature (m : Setting) (sig : Signature) :
    (Scope.ofSignature m.context.globals sig).Matches m sig [] :=
  ⟨rfl, rfl, rfl, by simp [Scope.ofSignature], by simp [Scope.ofSignature],
    by simp [Scope.ofSignature]⟩

end Setting

namespace Scope

theorem unassigned_eq_nil_iff {scope : Scope} :
    scope.unassigned = [] ↔ ∀ k < scope.outputs, k ∈ scope.assigned := by
  simp [unassigned, List.filter_eq_nil_iff, isAssigned]

theorem unused_eq_nil_iff {scope : Scope} :
    scope.unused = [] ↔ ∀ k < scope.inputs, k ∈ scope.used := by
  simp [unused, List.filter_eq_nil_iff]

end Scope

namespace Setting

variable {m : Setting} {i : Instruction} {src : Source}

/-- The inputs that the parts of a body read are those that occur in it. -/
theorem mem_used_bodyParts {k : Nat} {b : Body} {sig : Signature} (hk : k < sig.inputs.length) :
    k ∈ (Check.bodyParts m.context (.ofSignature m.context.globals sig) src b).2.used ↔
      ∃ id, b.Contains (.var id) ∧ NamesInput k id.name := by
  have hinputs : (Scope.ofSignature m.context.globals sig).inputs = sig.inputs.length := by
    simp [Scope.inputs, Scope.ofSignature]
  have hfresh : (Scope.ofSignature m.context.globals sig).used = [] := rfl
  rw [← Body.exists_varNames_iff]
  cases b with
  | expression e =>
    obtain ⟨new, hnew, hmem⟩ := (Scope.ofSignature m.context.globals sig).noteAll_eq e.varNames
    have hassign : ∀ scope : Scope, (scope.assign 0).used = scope.used := by
      intro scope
      unfold Scope.assign
      split <;> rfl
    simp only [Check.bodyParts, hassign, hnew, hfresh, List.append_nil, hmem, hinputs, hk,
      true_and, Body.values, List.mem_singleton, exists_eq_left]
  | block b =>
    simp only [Check.bodyParts, Check.mem_used_stmts, hfresh, List.not_mem_nil, false_or, hinputs,
      hk, true_and, Body.values, List.mem_map, exists_exists_and_eq_and]

/-- An expression passes, and gives the only output a value, exactly if it keeps its rule. -/
theorem harmless_expression_iff {sig : Signature} {e : Expr} :
    (Harmless (Check.bodyParts m.context (.ofSignature m.context.globals sig) src
        (.expression e)).1 ∧
      (Check.bodyParts m.context (.ofSignature m.context.globals sig) src
        (.expression e)).2.unassigned = []) ↔ m.BodyRule sig (.expression e) := by
  have hscope := matches_ofSignature m sig
  have hnoted := hscope.noteAll e.varNames
  have houtputs : (Scope.ofSignature m.context.globals sig).outputs = sig.outputs.length := rfl
  simp only [Check.bodyParts, harmless_append, hscope.harmless_expr_iff, BodyRule, ExprRule,
    houtputs]
  constructor
  · rintro ⟨⟨hone, hexpr⟩, -⟩
    refine ⟨?_, hexpr⟩
    by_contra hne
    simp [hne, CheckFault.severity] at hone
  · rintro ⟨hone, hexpr⟩
    refine ⟨⟨by simp [hone], hexpr⟩, ?_⟩
    have hcan : (Scope.noteAll (.ofSignature m.context.globals sig) e.varNames).canAssign 0
        = true := by
      rw [Scope.canAssign, Scope.isAssigned, hnoted.outputs, hone]
      simp [hnoted.assigned]
    rw [Scope.unassigned_eq_nil_iff, Scope.assign_outputs, hnoted.outputs, hone, Scope.assign,
      if_pos hcan]
    intro k hk
    obtain rfl : k = 0 := by omega
    exact List.mem_cons_self

/-- Statements pass, and give each output a value, exactly if they keep their rules. A block that
ends the program has no outputs. -/
theorem harmless_block_iff {sig : Signature} {b : Block} :
    (Harmless (Check.bodyParts m.context (.ofSignature m.context.globals sig) src
        (.block b)).1 ∧
      (b.isTerminal = false → (Check.bodyParts m.context (.ofSignature m.context.globals sig) src
        (.block b)).2.unassigned = [])) ↔ m.BodyRule sig (.block b) := by
  have hscope := matches_ofSignature m sig
  simp only [Check.bodyParts, BodyRule]
  have hrules : Harmless (Check.stmts m.context src (.ofSignature m.context.globals sig) false
      b.stmts).1 ↔ ∀ before s after, b.stmts = before ++ s :: after →
        m.StmtRule sig before s after := hscope.harmless_stmts_iff
  rw [← hrules]
  refine and_congr_right fun hpass => ?_
  have hlast := hscope.stmts hpass
  have hnone : b.isTerminal = true → sig.outputs = [] := by
    intro hend
    unfold Block.isTerminal at hend
    split at hend
    · rename_i s hs
      obtain ⟨init, hsplit⟩ := List.getLast?_eq_some_iff.mp hs
      exact ((hrules.mp hpass init s [] hsplit).of_isReturn hend).1
    · cases hend
  rw [Scope.unassigned_eq_nil_iff, hlast.outputs]
  simp only [hlast.assigned, List.nil_append]
  constructor
  · intro h k hk
    cases hend : b.isTerminal with
    | false => exact h hend k hk
    | true =>
      rw [hnone hend] at hk
      cases hk
  · intro h _
    exact h

/-- The body of an instruction passes exactly if it keeps the rules for bodies. -/
theorem harmless_body_iff :
    Harmless (Check.body m.context src i) ↔
      m.BodyRule i.signature i.body ∧
        (∀ k < i.signature.inputs.length, ∃ id, i.body.Contains (.var id) ∧ NamesInput k id.name) ∧
        ((∃ inner span, i.body.Contains (.attempt inner span)) → i.usesErrorHandler = true) := by
  have hparts : (Harmless (Check.bodyParts m.context (.ofSignature m.context.globals i.signature)
        src i.body).1 ∧
      (i.isTerminal = false → (Check.bodyParts m.context
        (.ofSignature m.context.globals i.signature) src i.body).2.unassigned = [])) ↔
      m.BodyRule i.signature i.body := by
    rw [Instruction.isTerminal]
    cases i.body with
    | expression e => simpa [Body.isTerminal] using harmless_expression_iff
    | block b => exact harmless_block_iff
  rw [← hparts, ← Body.containsAttempt_iff]
  simp only [Check.body, harmless_append, Check.harmless_handlerFault_iff, and_assoc]
  refine and_congr_right fun hpass => and_congr ?_ (and_congr ?_ Iff.rfl)
  · cases i.isTerminal with
    | true => simp
    | false =>
      simp only [Bool.false_eq_true, if_false, true_imp_iff]
      exact Check.harmless_map_iff fun _ => rfl
  · have hinputs : (Check.bodyParts m.context (.ofSignature m.context.globals i.signature) src
        i.body).2.inputs = i.signature.inputs.length := by
      cases hbody : i.body with
      | expression e =>
        have hassign : ∀ scope : Scope, (scope.assign 0).inputs = scope.inputs := by
          intro scope
          unfold Scope.assign
          split <;> rfl
        rw [Check.bodyParts, hassign]
        exact ((matches_ofSignature m i.signature).noteAll e.varNames).inputs
      | block b =>
        rw [hbody] at hpass
        exact ((matches_ofSignature m i.signature).stmts hpass).inputs
    rw [Check.harmless_map_iff fun _ => rfl, Scope.unused_eq_nil_iff, hinputs]
    exact forall_congr' fun k => imp_congr_right fun hk => mem_used_bodyParts hk

/-- An instruction passes all checks exactly if it keeps all rules. -/
theorem harmless_instruction_iff (hnames : (m.chunks.map (·.name)).Nodup) {letters : Letters}
    (hletters : ∀ c chunk, letters.find? c = some chunk → chunk ∈ m.chunks)
    {signatureSource bodySource : Source}
    (hread : Signature.read letters signatureSource = .ok i.signature) :
    Harmless (Check.instruction m.context signatureSource bodySource i) ↔ i.Lawful m := by
  have hover := Signature.over_of_read hread
  rw [Check.instruction, harmless_append, harmless_signature_iff hnames hletters hover,
    harmless_body_iff]
  constructor
  · rintro ⟨⟨hinputs, houtputs⟩, hbody, hused, hhandler⟩
    exact ⟨hinputs, houtputs, hbody, hused, hhandler⟩
  · intro h
    exact ⟨⟨h.inputs, h.outputs⟩, h.body, h.used, h.handler⟩

end Setting

namespace Draft.Built

variable {d : Draft} {desc : Descriptor}

/-- Every instruction of a descriptor that was built keeps the rules. -/
theorem lawful (h : d.Built desc) {i : Instruction} (hi : i ∈ desc.instructions) :
    i.Lawful d.setting := by
  obtain ⟨k, hk⟩ := List.mem_iff_getElem?.mp hi
  obtain ⟨draft, -, haccepted⟩ := h.accepted k i hk
  exact (Setting.harmless_instruction_iff (m := d.setting) (nodup_chunks h.chunks)
    (fun _ _ => mem_chunks_of_find?) haccepted.signature).mp haccepted.harmless

/-- Every descriptor that a draft builds is well formed. -/
theorem wellFormed (h : d.Built desc) : desc.WellFormed := by
  have hchunks : desc.chunks = d.chunks.map (·.2) := by
    rw [h.descriptor]
    rfl
  constructor
  · intro k i hi
    obtain ⟨draft, -, haccepted⟩ := h.accepted k i hi
    exact ⟨haccepted.inRange, by rw [haccepted.instruction]; rfl⟩
  · intro i hi
    exact (h.lawful hi).wellFormed
  · intro i hi p hp
    obtain ⟨k, hk⟩ := List.mem_iff_getElem?.mp hi
    obtain ⟨draft, -, haccepted⟩ := h.accepted k i hk
    obtain ⟨c, chunk, hfind, hname, hrole⟩ :=
      Signature.over_of_read haccepted.signature p (List.mem_append_left _ hp)
    refine ⟨chunk, ?_, hrole.symm⟩
    rw [Descriptor.chunkNamed?, hname, hchunks]
    exact Check.find?_name (nodup_chunks h.chunks) (mem_chunks_of_find? hfind)
  · intro role
    rw [Descriptor.chunk?, hchunks]
    exact Check.exists_role ((CheckFault.tolerable_append _ _).mp h.chunks).2 role

end Draft.Built

/-- Checking an instruction whose signature was read over the letters of a machine counts no new
error exactly if the instruction keeps the rules. -/
theorem no_error_iff_lawful (m : Setting) (hnames : (m.chunks.map (·.name)).Nodup)
    (letters : Letters) (hletters : ∀ c chunk, letters.find? c = some chunk → chunk ∈ m.chunks)
    (signatureSource bodySource : Source) (i : Instruction)
    (hread : Signature.read letters signatureSource = .ok i.signature) (log : Log) :
    (log.pushAll (Check.instruction m.context signatureSource bodySource i)).totalErrors
      = log.totalErrors ↔ i.Lawful m := by
  rw [Log.totalErrors_pushAll_eq_iff, Setting.harmless_instruction_iff hnames hletters hread]

/-- A call of the host with a name bound to its result, a count and a constant. The same body is
refused if it does not declare that it may fail. -/
theorem no_error_iff_lawful_hostCall :
    ∃ (d : Draft) (i : Instruction),
      d = (Draft.stackMachine "rdf" .double).addHelper ⟨"scale", .const⟩ ∧
      Signature.read d.letters ⟨"scaled", "P[D]S@D->S"⟩ = .ok i.signature ∧
      Draft.readBody ⟨"scaled", "let x = (call_host(i0, i1))?; o0 = scale * x.sqrt() + n_i1;"⟩
        (.block "") = .ok i.body ∧
      i.Lawful d.setting ∧ ¬{ i with usesErrorHandler := false }.Lawful d.setting := by
  generalize hd : (Draft.stackMachine "rdf" .double).addHelper ⟨"scale", .const⟩ = d
  generalize hbodySource : (⟨"scaled",
    "let x = (call_host(i0, i1))?; o0 = scale * x.sqrt() + n_i1;"⟩ : Source) = bodySource
  generalize hsource : (⟨"scaled", "P[D]S@D->S"⟩ : Source) = source
  have hnames : (d.setting.chunks.map (·.name)).Nodup := by
    rw [← hd]
    decide
  have hall : ((Signature.read d.letters source).toOption.any fun sig =>
      (Draft.readBody bodySource (.block "")).toOption.any fun body =>
        let i : Instruction := ⟨"scaled", 0, "", sig, "", body, true⟩
        let errors (i : Instruction) : Nat :=
          (Log.ofList (Check.instruction d.setting.context source bodySource i)).totalErrors
        decide (errors i = 0 ∧ errors { i with usesErrorHandler := false } ≠ 0)) = true := by
    rw [← hd, ← hbodySource, ← hsource]
    decide +kernel
  cases hread : Signature.read d.letters source with
  | error log =>
    rw [hread] at hall
    cases hall
  | ok sig =>
    cases hbody : Draft.readBody bodySource (.block "") with
    | error log =>
      rw [hread, hbody] at hall
      cases hall
    | ok body =>
      rw [hread, hbody] at hall
      obtain ⟨hpass, hfail⟩ := of_decide_eq_true hall
      have hiff := no_error_iff_lawful d.setting hnames d.letters
        (fun c chunk => Draft.mem_chunks_of_find?) source bodySource
      refine ⟨d, ⟨"scaled", 0, "", sig, "", body, true⟩, rfl, hread, rfl, ?_, ?_⟩
      · exact (hiff _ hread .empty).mp hpass
      · intro hlawful
        exact hfail ((hiff _ hread .empty).mpr hlawful)

end StackForge
