import StackForge.Emission
import StackForge.Proofs.Accepted
import StackForge.Proofs.Rendering

/-!
Instructions without their texts, places and parentheses. The checks find the same faults in an
instruction and in its bare form, and the source texts of a descriptor are those of its bare form.
-/
namespace StackForge

namespace Expr

def isParen : Expr → Bool
  | .paren _ _ => true
  | _ => false

mutual

/-- The nodes of a bare expression are the bare nodes of the expression, parentheses apart. -/
theorem nodes_bare : ∀ e : Expr, e.bare.nodes = (e.nodes.filter fun x => !x.isParen).map bare
  | .number _ _ | .var _ => rfl
  | .neg x _ => by simp [bare, nodes, isParen, nodes_bare x]
  | .binary _ l r _ => by simp [bare, nodes, isParen, nodes_bare l, nodes_bare r]
  | .call _ args _ => by simp [bare, nodes, isParen, nodesOf_bareAll args]
  | .method r _ args _ => by
    simp [bare, nodes, isParen, nodes_bare r, nodesOf_bareAll args]
  | .attempt x _ => by simp [bare, nodes, isParen, nodes_bare x]
  | .paren x _ => by simp [bare, nodes, isParen, nodes_bare x]

theorem nodesOf_bareAll :
    ∀ es : List Expr, nodesOf (bareAll es) = ((nodesOf es).filter fun x => !x.isParen).map bare
  | [] => rfl
  | e :: rest => by simp [bareAll, nodesOf, nodes_bare e, nodesOf_bareAll rest]

end

/-- What is looked for among the nodes of an expression and never is a parenthesis is found in the
bare form as well. -/
theorem filterMap_nodes_bare {α : Type} {f : Expr → Option α}
    (hf : ∀ x, f x = if x.isParen then none else f x.bare) (e : Expr) :
    e.bare.nodes.filterMap f = e.nodes.filterMap f := by
  rw [nodes_bare, List.filterMap_map, List.filterMap_filter]
  refine congrArg (fun g => e.nodes.filterMap g) (funext fun x => ?_)
  rw [hf x]
  cases x.isParen <;> simp

theorem any_nodes_bare {p : Expr → Bool} (hp : ∀ x, p x = (!x.isParen && p x.bare)) (e : Expr) :
    e.bare.nodes.any p = e.nodes.any p := by
  rw [nodes_bare, List.any_map, List.any_filter]
  refine congrArg (fun g => e.nodes.any g) (funext fun x => ?_)
  rw [hp x, Function.comp]

@[simp] theorem varNames_bare (e : Expr) : e.bare.varNames = e.varNames := by
  refine filterMap_nodes_bare (fun x => ?_) e
  cases x <;> rfl

theorem any_isAttempt_bare (e : Expr) : e.bare.nodes.any isAttempt = e.nodes.any isAttempt := by
  refine any_nodes_bare (fun x => ?_) e
  cases x <;> rfl

theorem any_isCallOf_bare (name : String) (e : Expr) :
    e.bare.nodes.any (isCallOf name) = e.nodes.any (isCallOf name) := by
  refine any_nodes_bare (fun x => ?_) e
  cases x <;> rfl

@[simp] theorem length_bareAll : ∀ es : List Expr, (bareAll es).length = es.length
  | [] => rfl
  | _ :: rest => by simp [bareAll, length_bareAll rest]

/-- A failure mark sees the same call behind parentheses. -/
theorem isCallLike_bare : ∀ e : Expr,
    Check.isCallLike e.bare.stripParens = Check.isCallLike e.stripParens
  | .number _ _ | .var _ | .neg _ _ | .binary _ _ _ _ | .call _ _ _ | .method _ _ _ _
  | .attempt _ _ => rfl
  | .paren x _ => isCallLike_bare x

end Expr

/-- The statement without parentheses and places. -/
def Stmt.bare : Stmt → Stmt
  | .bind id e _ => .bind ⟨id.name, Span.point 0 0⟩ e.bare (Span.point 0 0)
  | .assign target e _ => .assign ⟨target.name, Span.point 0 0⟩ e.bare (Span.point 0 0)
  | .ret e _ => .ret e.bare (Span.point 0 0)

namespace Stmt

@[simp] theorem value_bare (s : Stmt) : s.bare.value = s.value.bare := by cases s <;> rfl

@[simp] theorem isReturn_bare (s : Stmt) : s.bare.isReturn = s.isReturn := by cases s <;> rfl

theorem render_bare (r : Rendering) (s : Stmt) : s.bare.render r = s.render r := by
  cases s <;> simp [bare, render, Expr.render_bare]

end Stmt

/-- The body without parentheses and places. -/
def Body.bare : Body → Body
  | .expression e => .expression e.bare
  | .block b => .block ⟨b.stmts.map Stmt.bare, Span.point 0 0⟩

namespace Body

/-- Looking for a node anywhere in a body. -/
theorem any_nodes_bare {p : Expr → Bool}
    (hp : ∀ e : Expr, e.bare.nodes.any p = e.nodes.any p) (b : Body) :
    b.bare.nodes.any p = b.nodes.any p := by
  cases b with
  | expression e => exact hp e
  | block b => simp [bare, nodes, Block.nodes, List.any_flatMap, Function.comp_def, hp]

@[simp] theorem containsAttempt_bare (b : Body) : b.bare.containsAttempt = b.containsAttempt :=
  any_nodes_bare Expr.any_isAttempt_bare b

@[simp] theorem calls_bare (b : Body) (name : String) : b.bare.calls name = b.calls name :=
  any_nodes_bare (Expr.any_isCallOf_bare name) b

@[simp] theorem isTerminal_bare (b : Body) : b.bare.isTerminal = b.isTerminal := by
  cases b with
  | expression e => rfl
  | block b =>
    simp only [bare, isTerminal, Block.isTerminal, List.getLast?_map]
    cases b.stmts.getLast? <;> simp

end Body

/-- The parameter without its place. -/
def Param.bare (p : Param) : Param := { p with span := Span.point 0 0 }

theorem Param.immediatesOf_bare (ps : List Param) :
    immediatesOf (ps.map bare) = immediatesOf ps := by
  induction ps with
  | nil => rfl
  | cons p rest ih =>
    rw [List.map_cons, immediatesOf_cons, immediatesOf_cons, ih]
    rfl

/-- The signature without places. -/
def Signature.bare (s : Signature) : Signature :=
  { s with inputs := s.inputs.map Param.bare, outputs := s.outputs.map Param.bare }

namespace Signature

theorem length_filter_bare {p : Param → Bool} (hp : ∀ q : Param, p q.bare = p q)
    (ps : List Param) : ((ps.map Param.bare).filter p).length = (ps.filter p).length := by
  rw [List.filter_map, List.length_map, show p ∘ Param.bare = p from funext hp]

@[simp] theorem width_bare (s : Signature) : s.bare.width = s.width := by
  rw [width, width, immediates, immediates, bare, ← List.map_append, Param.immediatesOf_bare]

@[simp] theorem pushes_bare (s : Signature) : s.bare.pushes = s.pushes :=
  length_filter_bare (fun _ => rfl) _

@[simp] theorem fixedPops_bare (s : Signature) : s.bare.fixedPops = s.fixedPops :=
  length_filter_bare (fun _ => rfl) _

@[simp] theorem isVariadic_bare (s : Signature) : s.bare.isVariadic = s.isVariadic := by
  simp only [isVariadic, bare, List.any_map]
  rfl

theorem immediateOffset?_bare (s : Signature) (k : Nat) :
    s.bare.immediateOffset? k = s.immediateOffset? k := by
  simp only [immediateOffset?, bare, List.getElem?_map, ← List.map_take, Param.immediatesOf_bare]
  cases s.inputs[k]? <;> rfl

end Signature

/-- The instruction without its texts, and with signature and body bare. -/
def Instruction.bare (i : Instruction) : Instruction :=
  { i with signatureText := "", signature := i.signature.bare, bodyText := "", body := i.body.bare }

@[simp] theorem Instruction.isTerminal_bare (i : Instruction) :
    i.bare.isTerminal = i.isTerminal := Body.isTerminal_bare i.body

namespace Check

/-- How grave the findings of a check are, in order. -/
def severities (ds : List Diagnostic) : List Severity := ds.map (·.severity)

@[simp] theorem severities_append (ds es : List Diagnostic) :
    severities (ds ++ es) = severities ds ++ severities es := List.map_append

theorem harmless_iff_severities {ds : List Diagnostic} :
    Harmless ds ↔ ∀ s ∈ severities ds, s = .warning := by
  simp [Harmless, severities]

variable (ctx : Context) (src src' : Source)

theorem severities_paramFaults {fault? : Nat → Param → Option CheckFault}
    (hfault : ∀ k p, fault? k p.bare = fault? k p) (ps : List Param) :
    severities (paramFaults fault? src (ps.map Param.bare))
      = severities (paramFaults fault? src' ps) := by
  simp only [severities, paramFaults, List.zipIdx_map, List.filterMap_map, List.map_filterMap]
  refine congrArg (fun g => ps.zipIdx.filterMap g) (funext fun q => ?_)
  obtain ⟨p, k⟩ := q
  simp [hfault, Function.comp_def]

theorem severities_signature (s : Signature) :
    severities (signature ctx src s.bare) = severities (signature ctx src' s) := by
  simp only [signature, severities_append, Signature.bare]
  rw [severities_paramFaults src src' (fun _ _ => rfl),
    severities_paramFaults src src' (fun _ _ => rfl)]

theorem severities_callFaults (scope : Scope) (callee : Ident) (given : Nat) (span : Span)
    (tried : Bool) :
    severities (callFaults scope src ⟨callee.name, Span.point 0 0⟩ given (Span.point 0 0) tried)
      = severities (callFaults scope src' callee given span tried) := by
  unfold callFaults
  dsimp only
  cases scope.function? callee.name with
  | none => rfl
  | some f =>
    dsimp only
    split <;> split <;> (try split) <;> rfl

theorem severities_methodFaults (name : Ident) (given : Nat) (span : Span) (tried : Bool) :
    severities (methodFaults ctx src ⟨name.name, Span.point 0 0⟩ given (Span.point 0 0) tried)
      = severities (methodFaults ctx src' name given span tried) := by
  unfold methodFaults
  dsimp only
  cases ctx.storage.method? name.name with
  | none => cases tried <;> rfl
  | some m =>
    dsimp only
    split <;> cases tried <;> rfl

mutual

/-- The same faults are found in an expression and in its bare form. -/
theorem severities_expr (scope : Scope) (tried : Bool) : ∀ e : Expr,
    severities (expr ctx scope src tried e.bare) = severities (expr ctx scope src' tried e)
  | .number _ _ => rfl
  | .var id => by
    simp only [Expr.bare, expr]
    cases varFault? scope id.name <;> rfl
  | .neg x _ => by simp only [Expr.bare, expr, severities_expr scope false x]
  | .binary _ l r _ => by
    simp only [Expr.bare, expr, severities_append, severities_expr scope false l,
      severities_expr scope false r]
  | .paren x _ => by simp only [Expr.bare, expr, severities_expr scope tried x]
  | .call callee args span => by
    simp only [Expr.bare, expr, severities_append, severities_exprs scope args,
      Expr.length_bareAll, severities_callFaults src src' scope callee _ span]
  | .method r name args span => by
    simp only [Expr.bare, expr, severities_append, severities_expr scope false r,
      severities_exprs scope args, Expr.length_bareAll,
      severities_methodFaults ctx src src' name _ span]
  | .attempt x span => by
    simp only [Expr.bare, expr, Expr.isCallLike_bare]
    split
    · exact severities_expr scope true x
    · exact congrArg (List.cons _) (severities_expr scope false x)

theorem severities_exprs (scope : Scope) : ∀ es : List Expr,
    severities (exprs ctx scope src (Expr.bareAll es)) = severities (exprs ctx scope src' es)
  | [] => rfl
  | e :: rest => by
    simp only [Expr.bareAll, exprs, severities_append, severities_expr scope false e,
      severities_exprs scope rest]

end

/-- The target of a statement has the same faults, and the same names are visible after it. -/
theorem target_bare (scope : Scope) (s : Stmt) :
    severities (target scope src s.bare).1 = severities (target scope src' s).1 ∧
      (target scope src s.bare).2 = (target scope src' s).2 := by
  cases s with
  | bind id e span =>
    simp only [Stmt.bare, target]
    split <;> exact ⟨rfl, rfl⟩
  | assign id e span =>
    simp only [Stmt.bare, target]
    split
    · split
      · split <;> exact ⟨rfl, rfl⟩
      · exact ⟨rfl, rfl⟩
    · exact ⟨rfl, rfl⟩
  | ret e span =>
    refine ⟨?_, rfl⟩
    simp only [Stmt.bare, target]
    split <;> rfl

theorem stmts_bare (scope : Scope) (returned : Bool) (ss : List Stmt) :
    severities (stmts ctx src scope returned (ss.map Stmt.bare)).1
        = severities (stmts ctx src' scope returned ss).1 ∧
      (stmts ctx src scope returned (ss.map Stmt.bare)).2
        = (stmts ctx src' scope returned ss).2 := by
  induction ss generalizing scope returned with
  | nil => exact ⟨rfl, rfl⟩
  | cons s rest ih =>
    obtain ⟨htarget, hnext⟩ := target_bare src src' (scope.noteAll s.value.varNames) s
    simp only [List.map_cons, stmts, Stmt.value_bare, Stmt.isReturn_bare, Expr.varNames_bare,
      severities_append, severities_expr ctx src src', htarget, hnext, ih]
    refine ⟨?_, trivial⟩
    congr 3
    split <;> rfl

theorem bodyParts_bare (scope : Scope) (b : Body) :
    severities (bodyParts ctx scope src b.bare).1 = severities (bodyParts ctx scope src' b).1 ∧
      (bodyParts ctx scope src b.bare).2 = (bodyParts ctx scope src' b).2 := by
  cases b with
  | expression e =>
    simp only [Body.bare, bodyParts, severities_append, severities_expr ctx src src',
      Expr.varNames_bare]
    refine ⟨?_, trivial⟩
    congr 1
    split <;> rfl
  | block b => exact stmts_bare ctx src src' scope false b.stmts

theorem severities_body (i : Instruction) :
    severities (body ctx src i.bare) = severities (body ctx src' i) := by
  have hscope : Scope.ofSignature ctx.globals i.bare.signature
      = Scope.ofSignature ctx.globals i.signature := by
    simp [Scope.ofSignature, Instruction.bare, Signature.bare, Function.comp_def, Param.bare,
      Param.isVariadic]
  obtain ⟨hparts, hlast⟩ :=
    bodyParts_bare ctx src src' (Scope.ofSignature ctx.globals i.signature) i.body
  have hbody : i.bare.body = i.body.bare := rfl
  have hhandler : handlerFault? i.body.bare i.bare.usesErrorHandler
      = handlerFault? i.body i.usesErrorHandler := by
    simp only [handlerFault?, Body.containsAttempt_bare]
    rfl
  simp only [body, hscope, hbody, hhandler, hlast, severities_append, hparts,
    Instruction.isTerminal_bare]
  congr 1
  · congr 1
    · congr 1
      split
      · rfl
      · simp [severities, Function.comp_def]
    · simp [severities, Function.comp_def]
  · cases handlerFault? i.body i.usesErrorHandler <;> rfl

/-- The checks find the same faults in instructions with the same bare form. -/
theorem harmless_instruction_congr {ctx : Context} {i j : Instruction} (h : i.bare = j.bare)
    {signatureSource bodySource signatureSource' bodySource' : Source} :
    Harmless (instruction ctx signatureSource bodySource i) ↔
      Harmless (instruction ctx signatureSource' bodySource' j) := by
  have hsignature : i.signature.bare = j.signature.bare := congrArg Instruction.signature h
  have hiff : ∀ (s s' : Source) (i : Instruction), severities (instruction ctx s s' i)
      = severities (signature ctx signatureSource i.signature.bare)
        ++ severities (body ctx bodySource i.bare) := by
    intro s s' i
    rw [instruction, severities_append, severities_signature ctx signatureSource s,
      severities_body ctx bodySource s']
  rw [harmless_iff_severities, harmless_iff_severities, hiff, hiff, hsignature, h]

/-- How grave faults are, in order. -/
def gravities (fs : List CheckFault) : List Severity := fs.map (·.severity)

@[simp] theorem gravities_append (fs gs : List CheckFault) :
    gravities (fs ++ gs) = gravities fs ++ gravities gs := List.map_append

theorem tolerable_congr {fs gs : List CheckFault} (h : gravities fs = gravities gs) :
    CheckFault.Tolerable fs ↔ CheckFault.Tolerable gs := by
  have hiff : ∀ hs : List CheckFault,
      CheckFault.Tolerable hs ↔ ∀ s ∈ gravities hs, s = .warning := by
    simp [CheckFault.Tolerable, gravities]
  rw [hiff, hiff, h]

theorem find?_bare (is : List Instruction) (name : String) :
    (is.map Instruction.bare).find? (fun i => i.name = name)
      = (is.find? fun i => i.name = name).map Instruction.bare := by
  rw [List.find?_map]
  rfl

theorem instructionSet_bare (names : List String) (is : List Instruction) :
    instructionSet names (is.map Instruction.bare) = instructionSet names is := by
  simp [instructionSet, Function.comp_def]

theorem isPowerShape_bare (s : Signature) : isPowerShape s.bare = isPowerShape s := by
  obtain ⟨inputs, outputs, arrow⟩ := s
  match inputs with
  | [] | [_] | _ :: _ :: _ :: _ => rfl
  | [p, q] => simp [isPowerShape, Signature.bare, Param.bare, Param.isFixed]

theorem gravities_power (globals : Globals) (spec : Option Power.Spec) (is : List Instruction) :
    gravities (power globals spec (is.map Instruction.bare)) =
      gravities (power globals spec is) := by
  simp only [power, find?_bare]
  cases spec with
  | none => cases is.find? fun i => i.name = powerName <;> rfl
  | some s =>
    cases is.find? fun i => i.name = powerName with
    | none => rfl
    | some i =>
      have hshape : isPowerShape i.bare.signature = isPowerShape i.signature :=
        isPowerShape_bare i.signature
      simp only [Option.map_some, gravities_append, hshape]
      congr 2
      split <;> rfl

theorem isHostShape_bare (s : Signature) : isHostShape s.bare = isHostShape s := by
  simp only [isHostShape, Signature.bare, List.head?_map, List.any_map]
  cases s.inputs.head? <;> rfl

theorem gravities_hostCaller (convention : Option HostCall) (i : Instruction) :
    gravities (hostCaller convention i.bare) = gravities (hostCaller convention i) := by
  have hshape : isHostShape i.bare.signature = isHostShape i.signature :=
    isHostShape_bare i.signature
  simp only [hostCaller, gravities_append, hshape]
  congr 2
  split <;> rfl

theorem gravities_hostCall (convention : Option HostCall) (is : List Instruction) :
    gravities (hostCall convention (is.map Instruction.bare))
      = gravities (hostCall convention is) := by
  have hcalls : ∀ i : Instruction, i.bare.body.calls callHost = i.body.calls callHost :=
    fun i => Body.calls_bare i.body callHost
  simp only [hostCall, gravities_append, find?_bare]
  congr 1
  · simp only [List.filter_map, List.flatMap_map, Function.comp_def, hcalls]
    generalize (is.filter fun i => i.body.calls callHost) = callers
    induction callers with
    | nil => rfl
    | cons i rest ih =>
      rw [List.flatMap_cons, List.flatMap_cons, gravities_append, gravities_append, ih,
        gravities_hostCaller]
  · cases convention with
    | none => rfl
    | some conv =>
      dsimp only
      cases is.find? fun i => i.name = conv.instruction with
      | none => rfl
      | some i =>
        simp only [Option.map_some, hcalls]

end Check

theorem mapM_map_comm {α β γ δ ε : Type} {f : α → Except ε β} {g : γ → Except ε δ} {k : α → γ}
    {l : β → δ} {xs : List α} (h : ∀ x ∈ xs, g (k x) = (f x).map l) :
    (xs.map k).mapM g = (xs.mapM f).map (List.map l) := by
  induction xs with
  | nil => rfl
  | cons x rest ih =>
    obtain ⟨hx, hrest⟩ := List.forall_mem_cons.mp h
    rw [List.map_cons, List.mapM_cons, List.mapM_cons, hx, ih hrest]
    cases f x with
    | error e => rfl
    | ok y => cases rest.mapM f <;> rfl

def Descriptor.bare (d : Descriptor) : Descriptor :=
  { d with instructions := d.instructions.map Instruction.bare }

theorem Descriptor.callsHost_bare (d : Descriptor) : d.bare.callsHost = d.callsHost := by
  have hcalls : ∀ i : Instruction, i.bare.body.calls callHost = i.body.calls callHost :=
    fun i => Body.calls_bare i.body callHost
  simp only [callsHost, bare, List.any_map, Function.comp_def, hcalls]

namespace Arm

variable (d : Descriptor) (i : Instruction)

def bare (a : Arm) : Arm := { a with instruction := a.instruction.bare }

theorem immediate_bare (k : Nat) : immediate i.bare k = immediate i k := by
  have hoffset : i.bare.signature.immediateOffset? k = i.signature.immediateOffset? k :=
    Signature.immediateOffset?_bare i.signature k
  rw [immediate, immediate, hoffset]
  rfl

theorem countsFrom_bare (k : Nat) (ps : List Param) :
    countsFrom i.bare k (ps.map Param.bare) = countsFrom i k ps := by
  induction ps generalizing k with
  | nil => rfl
  | cons p rest ih =>
    rw [List.map_cons, countsFrom, countsFrom, immediate_bare, ih]
    rfl

theorem access_bare (k : Nat) (below : Extent) (p : Param) :
    access d.bare i.bare k below p.bare = access d i k below p := by
  have hchunk : d.bare.chunkNamed? p.bare.chunk = d.chunkNamed? p.chunk := rfl
  have hkind : p.bare.kind = p.kind := rfl
  rw [access, access, hchunk, hkind, immediate_bare]
  rfl

theorem ofInputs_bare (e : Extent) (k : Nat) (ps : List Param) :
    Extent.ofInputs e k (ps.map Param.bare) = Extent.ofInputs e k ps := by
  induction ps generalizing e k with
  | nil => rfl
  | cons p rest ih => exact ih (e.add k p) (k + 1)

theorem inputsFrom_bare (k : Nat) (below : Extent) (ps : List Param) :
    inputsFrom d.bare i.bare k below (ps.map Param.bare) = inputsFrom d i k below ps := by
  induction ps generalizing k below with
  | nil => rfl
  | cons p rest ih =>
    have hadd : below.add k p.bare = below.add k p := rfl
    rw [List.map_cons, inputsFrom, inputsFrom, access_bare, hadd, ih]

theorem storesFrom_bare (k : Nat) (ps : List Param) :
    storesFrom d.bare i.bare k (ps.map Param.bare) = storesFrom d i k ps := by
  induction ps generalizing k with
  | nil => rfl
  | cons p rest ih =>
    rw [List.map_cons, storesFrom, storesFrom, ih]
    rfl

theorem ofInstruction_bare : ofInstruction d.bare i.bare = (ofInstruction d i).map bare := by
  have hcounts : countsFrom i.bare 0 i.bare.signature.inputs = countsFrom i 0 i.signature.inputs :=
    countsFrom_bare i 0 _
  have hinputs : inputsFrom d.bare i.bare 0 {} i.bare.signature.inputs
      = inputsFrom d i 0 {} i.signature.inputs := inputsFrom_bare d i 0 {} _
  have hstores : storesFrom d.bare i.bare 0 i.bare.signature.outputs
      = storesFrom d i 0 i.signature.outputs := storesFrom_bare d i 0 _
  have htaken : Extent.ofInputs {} 0 i.bare.signature.inputs
      = Extent.ofInputs {} 0 i.signature.inputs := ofInputs_bare {} 0 _
  simp only [ofInstruction, hcounts, hinputs, hstores, htaken, Instruction.isTerminal_bare]
  cases countsFrom i 0 i.signature.inputs with
  | error fault => rfl
  | ok counts =>
    cases inputsFrom d i 0 {} i.signature.inputs with
    | error fault => rfl
    | ok inputs =>
      cases i.isTerminal with
      | true => rfl
      | false => cases storesFrom d i 0 i.signature.outputs <;> rfl

theorem arms_bare : d.bare.arms = d.arms.map (List.map bare) :=
  mapM_map_comm fun i _ => ofInstruction_bare d i

theorem bodyItems_bare (r : Rendering) : bodyItems r i.bare = bodyItems r i := by
  have hbody : i.bare.body = i.body.bare := rfl
  have houtputs : i.bare.signature.outputs.length = i.signature.outputs.length :=
    List.length_map _
  rw [bodyItems, bodyItems, hbody, houtputs]
  cases i.body with
  | expression e => simp only [Body.bare, Expr.render_bare]
  | block b => simp only [Body.bare, List.map_map, Function.comp_def, Stmt.render_bare]

theorem items_bare (c : Conventions) (storage : Storage) (code : String) (a : Arm) :
    a.bare.items c storage code = a.items c storage code := by
  have hbody := bodyItems_bare a.instruction ⟨storage, c.label⟩
  have hstack : a.bare.usesStack = a.usesStack := by
    simp only [usesStack, bare, Instruction.bare, Signature.pushes_bare]
  have hstores : a.bare.storeItems = a.storeItems := by
    have hterminal : a.bare.instruction.isTerminal = a.instruction.isTerminal :=
      Instruction.isTerminal_bare _
    have hpushes : a.bare.instruction.signature.pushes = a.instruction.signature.pushes :=
      Signature.pushes_bare _
    have hwidth : a.bare.instruction.signature.width = a.instruction.signature.width :=
      Signature.width_bare _
    simp only [storeItems, hterminal, hstack, hpushes, hwidth]
    rfl
  have hinstruction : a.bare.instruction = a.instruction.bare := rfl
  rw [items, items, hstores, hstack, hinstruction, hbody]
  rfl

end Arm

namespace Emission

variable (d : Descriptor) (c : Conventions)

theorem runItems_bare : runItems d.bare c = runItems d c := by
  have hcode : d.bare.chunk? .code = d.chunk? .code := rfl
  rw [runItems, runItems, hcode]
  cases d.chunk? .code with
  | none => rfl
  | some code =>
    dsimp only
    rw [Arm.arms_bare]
    cases d.arms with
    | error fault => rfl
    | ok arms =>
      have hitems : (arms.map Arm.bare).flatMap (fun a => a.items c d.bare.storage code.name)
          = arms.flatMap fun a => a.items c d.storage code.name := by
        simp only [List.flatMap_map, Arm.items_bare]
        rfl
      change Except.ok _ = Except.ok _
      rw [hitems]
      rfl

theorem rowItems_bare (i : Instruction) : rowItems i.bare = rowItems i := by
  have hwidth : i.bare.width = i.width := Signature.width_bare _
  have hpops : i.bare.signature.fixedPops = i.signature.fixedPops := Signature.fixedPops_bare _
  have hpushes : i.bare.signature.pushes = i.signature.pushes := Signature.pushes_bare _
  have hvariadic : i.bare.isVariadic = i.isVariadic := Signature.isVariadic_bare _
  rw [rowItems, rowItems, hwidth, hpops, hpushes, hvariadic, Instruction.isTerminal_bare]
  rfl

theorem hostCallSite_bare (h : HostCall) :
    hostCallSite d.bare h = (hostCallSite d h).map fun (i, word) => (i.bare, word) := by
  have hfind : d.bare.instruction? h.instruction
      = (d.instruction? h.instruction).map Instruction.bare := Check.find?_bare _ _
  rw [hostCallSite, hostCallSite, hfind]
  cases d.instruction? h.instruction with
  | none => rfl
  | some i =>
    have hindex : i.bare.signature.inputs.findIdx? (fun p => p.role = .hostConstants && p.isIndexed)
        = i.signature.inputs.findIdx? fun p => p.role = .hostConstants && p.isIndexed :=
      List.findIdx?_map
    simp only [Option.map_some, hindex, Arm.immediate_bare]
    cases i.signature.inputs.findIdx? fun p => p.role = .hostConstants && p.isIndexed with
    | none => rfl
    | some k =>
      dsimp only
      cases Arm.immediate i k <;> rfl

theorem wrapperItems_bare : wrapperItems d.bare c = wrapperItems d c := by
  have hcalls : hostCallsItems d.bare c = hostCallsItems d c := by
    have hhost : d.bare.hostCall = d.hostCall := rfl
    rw [hostCallsItems, hostCallsItems, hhost]
    cases d.hostCall with
    | none => rfl
    | some h =>
      simp only [hostCallSite_bare]
      cases hostCallSite d h <;> rfl
  rw [wrapperItems, wrapperItems, hcalls]
  rfl

theorem items_bare (a : Artifact) : items d.bare c a = items d c a := by
  cases a with
  | engine =>
    simp only [items, engineItems, runItems_bare, Descriptor.callsHost_bare]
    rfl
  | decl =>
    simp only [items, declItems, Descriptor.bare, List.map_map, List.flatMap_map, rowItems_bare]
    rfl
  | glue =>
    simp only [items, glueItems, wrapperItems_bare]
    rfl

/-- The source texts of a descriptor are those of its bare form. -/
theorem ofDescriptor_bare : ofDescriptor d.bare c = ofDescriptor d c := by
  have hfile : file d.bare c = file d c := by
    funext a
    rw [file, file, items_bare]
    rfl
  rw [ofDescriptor, ofDescriptor, hfile]
  rfl

end Emission
end StackForge
