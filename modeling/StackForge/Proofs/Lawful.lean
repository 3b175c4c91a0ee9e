import StackForge.Proofs.WellFormed

/-!
The rules that instructions have to keep, said without any check: where inputs come from and outputs
go, which names an expression may read at its place, which calls a failure mark has to follow, and
what statements may bind, assign and return.
-/
namespace StackForge

/-- What the rules for the instructions of a machine refer to. -/
structure Setting where
  storage : Storage
  chunks : List Chunk
  helpers : List Helper
  power : Option Power.Spec

/-- `Occurs mark x outer e`: the expression `x` stands somewhere in `e`. The flags say whether a
failure mark stands behind `x` and behind `e`, with nothing but parentheses in between. -/
inductive Expr.Occurs (mark : Bool) (x : Expr) : Bool → Expr → Prop where
  | here : Occurs mark x mark x
  | neg {outer : Bool} {e : Expr} {span : Span} (h : Occurs mark x false e) :
      Occurs mark x outer (.neg e span)
  | left {outer : Bool} {op : BinOp} {l r : Expr} {span : Span} (h : Occurs mark x false l) :
      Occurs mark x outer (.binary op l r span)
  | right {outer : Bool} {op : BinOp} {l r : Expr} {span : Span} (h : Occurs mark x false r) :
      Occurs mark x outer (.binary op l r span)
  | argument {outer : Bool} {callee : Ident} {args : List Expr} {span : Span} {a : Expr}
      (ha : a ∈ args) (h : Occurs mark x false a) : Occurs mark x outer (.call callee args span)
  | receiver {outer : Bool} {r : Expr} {name : Ident} {args : List Expr} {span : Span}
      (h : Occurs mark x false r) : Occurs mark x outer (.method r name args span)
  | methodArgument {outer : Bool} {r : Expr} {name : Ident} {args : List Expr} {span : Span}
      {a : Expr} (ha : a ∈ args) (h : Occurs mark x false a) :
      Occurs mark x outer (.method r name args span)
  | attempt {outer : Bool} {e : Expr} {span : Span} (h : Occurs mark x true e) :
      Occurs mark x outer (.attempt e span)
  | paren {outer : Bool} {e : Expr} {span : Span} (h : Occurs mark x outer e) :
      Occurs mark x outer (.paren e span)

/-- A property of everything that occurs in an expression. -/
def Expr.Everywhere (P : Bool → Expr → Prop) (outer : Bool) (e : Expr) : Prop :=
  ∀ mark x, Occurs mark x outer e → P mark x

namespace Expr

variable {P : Bool → Expr → Prop} {mark outer : Bool}

@[simp] theorem everywhere_number {v : Double} {span : Span} :
    Everywhere P outer (.number v span) ↔ P outer (.number v span) := by
  constructor
  · intro h
    exact h _ _ .here
  · rintro h mark x ⟨⟩
    exact h

@[simp] theorem everywhere_var {id : Ident} :
    Everywhere P outer (.var id) ↔ P outer (.var id) := by
  constructor
  · intro h
    exact h _ _ .here
  · rintro h mark x ⟨⟩
    exact h

@[simp] theorem everywhere_neg {e : Expr} {span : Span} :
    Everywhere P outer (.neg e span) ↔ P outer (.neg e span) ∧ Everywhere P false e := by
  constructor
  · intro h
    exact ⟨h _ _ .here, fun _ _ hx => h _ _ (.neg hx)⟩
  · rintro ⟨hhere, he⟩ mark x (_ | hx)
    · exact hhere
    · exact he _ _ hx

@[simp] theorem everywhere_binary {op : BinOp} {l r : Expr} {span : Span} :
    Everywhere P outer (.binary op l r span) ↔
      P outer (.binary op l r span) ∧ Everywhere P false l ∧ Everywhere P false r := by
  constructor
  · intro h
    exact ⟨h _ _ .here, fun _ _ hx => h _ _ (.left hx), fun _ _ hx => h _ _ (.right hx)⟩
  · rintro ⟨hhere, hl, hr⟩ mark x hx
    cases hx with
    | here => exact hhere
    | left hx => exact hl _ _ hx
    | right hx => exact hr _ _ hx

@[simp] theorem everywhere_call {callee : Ident} {args : List Expr} {span : Span} :
    Everywhere P outer (.call callee args span) ↔
      P outer (.call callee args span) ∧ ∀ a ∈ args, Everywhere P false a := by
  constructor
  · intro h
    exact ⟨h _ _ .here, fun a ha _ _ hx => h _ _ (.argument ha hx)⟩
  · rintro ⟨hhere, hargs⟩ mark x hx
    cases hx with
    | here => exact hhere
    | argument ha hx => exact hargs _ ha _ _ hx

@[simp] theorem everywhere_method {r : Expr} {name : Ident} {args : List Expr} {span : Span} :
    Everywhere P outer (.method r name args span) ↔
      P outer (.method r name args span) ∧ Everywhere P false r ∧
        ∀ a ∈ args, Everywhere P false a := by
  constructor
  · intro h
    exact ⟨h _ _ .here, fun _ _ hx => h _ _ (.receiver hx),
      fun a ha _ _ hx => h _ _ (.methodArgument ha hx)⟩
  · rintro ⟨hhere, hr, hargs⟩ mark x hx
    cases hx with
    | here => exact hhere
    | receiver hx => exact hr _ _ hx
    | methodArgument ha hx => exact hargs _ ha _ _ hx

@[simp] theorem everywhere_attempt {e : Expr} {span : Span} :
    Everywhere P outer (.attempt e span) ↔ P outer (.attempt e span) ∧ Everywhere P true e := by
  constructor
  · intro h
    exact ⟨h _ _ .here, fun _ _ hx => h _ _ (.attempt hx)⟩
  · rintro ⟨hhere, he⟩ mark x (_ | hx)
    · exact hhere
    · exact he _ _ (by assumption)

@[simp] theorem everywhere_paren {e : Expr} {span : Span} :
    Everywhere P outer (.paren e span) ↔ P outer (.paren e span) ∧ Everywhere P outer e := by
  constructor
  · intro h
    exact ⟨h _ _ .here, fun _ _ hx => h _ _ (.paren hx)⟩
  · rintro ⟨hhere, he⟩ mark x (_ | hx)
    · exact hhere
    · exact he _ _ (by assumption)

/-- A mark behind parentheses is a mark behind what they enclose. -/
theorem occurs_stripParens (e : Expr) : e.stripParens.Occurs outer outer e := by
  fun_induction stripParens e with
  | case1 inner span ih => exact .paren ih
  | case2 e => exact .here

mutual

theorem forall_nodes_iff (Q : Expr → Prop) (outer : Bool) (e : Expr) :
    (∀ x ∈ e.nodes, Q x) ↔ e.Everywhere (fun _ => Q) outer := by
  cases e with
  | number v span | var id => simp [nodes]
  | neg x span => simp [nodes, forall_nodes_iff Q false x]
  | binary op l r span =>
    simp [nodes, or_imp, forall_and, forall_nodes_iff Q false l, forall_nodes_iff Q false r]
  | call callee args span => simp [nodes, forall_nodesOf_iff Q args]
  | method r name args span =>
    simp [nodes, or_imp, forall_and, forall_nodes_iff Q false r, forall_nodesOf_iff Q args]
  | attempt inner span => simp [nodes, forall_nodes_iff Q true inner]
  | paren inner span => simp [nodes, forall_nodes_iff Q outer inner]

theorem forall_nodesOf_iff (Q : Expr → Prop) (es : List Expr) :
    (∀ x ∈ nodesOf es, Q x) ↔ ∀ e ∈ es, e.Everywhere (fun _ => Q) false := by
  cases es with
  | nil => simp [nodesOf]
  | cons e rest =>
    simp [nodesOf, or_imp, forall_and, forall_nodes_iff Q false e, forall_nodesOf_iff Q rest]

end

/-- The nodes of an expression are what occurs in it. -/
theorem mem_nodes_iff {x e : Expr} : x ∈ e.nodes ↔ ∃ mark, x.Occurs mark false e := by
  have h := forall_nodes_iff (· ≠ x) false e
  rw [← not_iff_not, not_exists]
  constructor
  · intro hx mark hmark
    exact h.mp (fun y hy hyx => hx (hyx ▸ hy)) mark x hmark rfl
  · intro hx hmem
    exact h.mpr (fun mark y hy hyx => hx mark (hyx ▸ hy)) x hmem rfl

/-- The names that an expression reads are those of the names that occur in it. -/
theorem mem_varNames_iff {e : Expr} {name : String} :
    name ∈ e.varNames ↔ ∃ id, (∃ mark, (Expr.var id).Occurs mark false e) ∧ id.name = name := by
  simp only [varNames, List.mem_filterMap, ← mem_nodes_iff]
  constructor
  · rintro ⟨x, hx, hname⟩
    cases x with
    | var id => exact ⟨id, hx, Option.some.inj hname⟩
    | _ => cases hname
  · rintro ⟨id, hx, rfl⟩
    exact ⟨_, hx, rfl⟩

end Expr

/-- The name that a statement binds. -/
def Stmt.bound? : Stmt → Option String
  | .bind id _ _ => some id.name
  | _ => none

/-- The output that a statement assigns. -/
def Stmt.assigned? : Stmt → Option Nat
  | .assign target _ _ =>
    match Binding.classify target.name with
    | .output k => some k
    | _ => none
  | _ => none

/-- The last function of a name among helpers. -/
def Helper.LastFunction (hs : List Helper) (name : String) (f : Callable) : Prop :=
  ∃ before after, hs = before ++ ⟨name, .function f.arity f.fallible⟩ :: after ∧
    ∀ other ∈ after, other.name = name → other.kind = .const

namespace Setting

def HasHostObjects (m : Setting) : Prop := ∃ c ∈ m.chunks, c.role = .hostConstants

/-- The functions that bodies can call. Of helpers with one name the last one counts, and the power
and the call of the host come before any helper. -/
inductive HasFunction (m : Setting) : String → Callable → Prop where
  | power (h : m.power.isSome = true) : m.HasFunction powerName ⟨2, false⟩
  | host (h : m.HasHostObjects) : m.HasFunction callHost ⟨2, true⟩
  | helper {name : String} {f : Callable} (h : Helper.LastFunction m.helpers name f)
      (notPower : name = powerName → m.power.isSome = false)
      (notHost : name = callHost → ¬m.HasHostObjects) : m.HasFunction name f

def HasConstant (m : Setting) (name : String) : Prop := ⟨name, .const⟩ ∈ m.helpers

/-- A chunk of code goes by this name. -/
def IsCode (m : Setting) (name : String) : Prop := ∃ c ∈ m.chunks, c.name = name ∧ c.role = .code

/-- Inputs are stack elements, elements of a pool that code selects, as many stack elements as code
says, and code itself. -/
def InputRule (m : Setting) (p : Param) : Prop :=
  match p.kind with
  | .single => p.role = .stack
  | .indexed index =>
    (p.role = .args ∨ p.role = .constants ∨ p.role = .hostConstants) ∧ m.IsCode index
  | .variadic count => p.role = .stack ∧ m.IsCode count
  | .immediate => True

/-- The names that can be read behind some statements: inputs, counts of variadic inputs, outputs
that were assigned, names that were bound, and constants that are not spelled like one of those. -/
def ReadRule (m : Setting) (sig : Signature) (before : List Stmt) (name : String) : Prop :=
  match Binding.classify name with
  | .input k => k < sig.inputs.length
  | .count k => ∃ p, sig.inputs[k]? = some p ∧ p.isVariadic = true
  | .output k => ∃ s ∈ before, s.assigned? = some k
  | .other => (∃ s ∈ before, s.bound? = some name) ∨ m.HasConstant name

/-- The names that can be bound behind some statements: they mean nothing yet. -/
structure BindRule (m : Setting) (before : List Stmt) (name : String) : Prop where
  unspelled : Binding.classify name = .other
  unbound : ∀ s ∈ before, s.bound? ≠ some name
  noConstant : ¬m.HasConstant name
  noFunction : ∀ f, ¬m.HasFunction name f
  unreserved : name ∉ reservedNames m.chunks

/-- What is asked of one expression at its place. A call is marked exactly if its function may fail,
and nothing but such a call is marked. -/
def NodeRule (m : Setting) (sig : Signature) (before : List Stmt) (mark : Bool) : Expr → Prop
  | .number _ _ | .neg _ _ | .binary _ _ _ _ | .paren _ _ => True
  | .var id => m.ReadRule sig before id.name
  | .call callee args _ =>
    ∃ f, m.HasFunction callee.name f ∧ f.arity = args.length ∧ f.fallible = mark
  | .method _ name args _ => ⟨name.name, args.length⟩ ∈ m.storage.methods ∧ mark = false
  | .attempt inner _ => ∃ callee args span, inner.stripParens = .call callee args span

/-- An expression behind some statements keeps the rules. -/
def ExprRule (m : Setting) (sig : Signature) (before : List Stmt) (e : Expr) : Prop :=
  e.Everywhere (m.NodeRule sig before) false

/-- What is asked of the target of a statement between others. Outputs are assigned once. A return
stands at the end, and there is none where there are outputs. -/
def TargetRule (m : Setting) (sig : Signature) (before after : List Stmt) : Stmt → Prop
  | .bind id _ _ => m.BindRule before id.name
  | .assign target _ _ => ∃ k < sig.outputs.length, Binding.classify target.name = .output k ∧
      ∀ other ∈ before, other.assigned? ≠ some k
  | .ret _ _ => sig.outputs = [] ∧ after = []

/-- A statement between others keeps the rules. -/
structure StmtRule (m : Setting) (sig : Signature) (before : List Stmt) (s : Stmt)
    (after : List Stmt) : Prop where
  value : m.ExprRule sig before s.value
  target : m.TargetRule sig before after s

/-- A return is the last statement, and there are no outputs. -/
theorem StmtRule.of_isReturn {m : Setting} {sig : Signature} {before after : List Stmt} {s : Stmt}
    (h : m.StmtRule sig before s after) (hs : s.isReturn = true) :
    sig.outputs = [] ∧ after = [] := by
  have htarget := h.target
  cases s with
  | ret e span => exact htarget
  | bind => cases hs
  | assign => cases hs

/-- A body keeps the rules, and gives each output a value. -/
def BodyRule (m : Setting) (sig : Signature) : Body → Prop
  | .expression e => sig.outputs.length = 1 ∧ m.ExprRule sig [] e
  | .block b =>
    (∀ before s after, b.stmts = before ++ s :: after → m.StmtRule sig before s after) ∧
      ∀ k < sig.outputs.length, ∃ s ∈ b.stmts, s.assigned? = some k

end Setting

/-- The expressions a body is made of. -/
def Body.values : Body → List Expr
  | .expression e => [e]
  | .block b => b.stmts.map Stmt.value

/-- An expression that stands somewhere in a body. -/
def Body.Contains (b : Body) (x : Expr) : Prop :=
  ∃ e ∈ b.values, ∃ mark, x.Occurs mark false e

theorem Body.mem_nodes_iff {b : Body} {x : Expr} : x ∈ b.nodes ↔ b.Contains x := by
  cases b with
  | expression e => simp [Contains, values, nodes, Expr.mem_nodes_iff]
  | block b => simp [Contains, values, nodes, Block.nodes, Expr.mem_nodes_iff]

theorem Body.exists_varNames_iff {b : Body} {P : String → Prop} :
    (∃ e ∈ b.values, ∃ name ∈ e.varNames, P name) ↔ ∃ id, b.Contains (.var id) ∧ P id.name := by
  simp only [Expr.mem_varNames_iff]
  constructor
  · rintro ⟨e, he, _, ⟨id, hid, rfl⟩, hname⟩
    exact ⟨id, ⟨e, he, hid⟩, hname⟩
  · rintro ⟨id, ⟨e, he, hid⟩, hname⟩
    exact ⟨e, he, id.name, ⟨id, hid, rfl⟩, hname⟩

theorem Body.containsAttempt_iff {b : Body} :
    b.containsAttempt = true ↔ ∃ inner span, b.Contains (.attempt inner span) := by
  simp only [containsAttempt, List.any_eq_true, mem_nodes_iff]
  constructor
  · rintro ⟨x, hx, hattempt⟩
    cases x with
    | attempt inner span => exact ⟨inner, span, hx⟩
    | _ => cases hattempt
  · rintro ⟨inner, span, hx⟩
    exact ⟨_, hx, rfl⟩

/-- A name of an input or of its count. -/
def NamesInput (k : Nat) (name : String) : Prop :=
  Binding.classify name = .input k ∨ Binding.classify name = .count k

/-- An instruction that keeps all rules. -/
structure Instruction.Lawful (m : Setting) (i : Instruction) : Prop where
  inputs : ∀ p ∈ i.signature.inputs, m.InputRule p
  outputs : ∀ p ∈ i.signature.outputs, p.role = .stack ∧ p.kind = .single
  body : m.BodyRule i.signature i.body
  /-- Every input is read somewhere, or its count is. -/
  used : ∀ k < i.signature.inputs.length, ∃ id, i.body.Contains (.var id) ∧ NamesInput k id.name
  /-- A body with a failure mark declares that it may fail. -/
  handler : (∃ inner span, i.body.Contains (.attempt inner span)) → i.usesErrorHandler = true

namespace Instruction.Lawful

variable {m : Setting} {i : Instruction}

/-- Instructions that keep the rules are well formed. -/
theorem wellFormed (h : i.Lawful m) : i.WellFormed := by
  have hbody := h.body
  refine ⟨?_, ?_, ?_, ?_⟩
  · intro p hp
    have hinput := h.inputs p hp
    unfold Setting.InputRule at hinput
    unfold Param.Readable
    cases hkind : p.kind with
    | single => simpa [hkind] using hinput
    | indexed index =>
      rw [hkind] at hinput
      exact hinput.1
    | variadic count =>
      rw [hkind] at hinput
      exact hinput.1
    | immediate => trivial
  · intro p hp
    obtain ⟨hrole, hkind⟩ := h.outputs p hp
    simp [Param.isFixed, hrole, hkind]
  · intro b hb s hs
    cases hret : s.isReturn with
    | false => rfl
    | true =>
      obtain ⟨before, after, hsplit⟩ := List.append_of_mem hs
      obtain ⟨init, last, hstmts⟩ := (List.eq_nil_or_concat b.stmts).resolve_left fun hnil => by
        simp [hnil] at hs
      rw [hstmts, List.concat_eq_append, List.dropLast_concat] at hsplit
      have hwhole : b.stmts = before ++ s :: (after ++ [last]) := by
        simp [hstmts, hsplit]
      rw [hb] at hbody
      have hrule := hbody.1 before s (after ++ [last]) hwhole
      cases (List.append_eq_nil_iff.mp (hrule.of_isReturn hret).2).2
  · intro hterminal
    unfold Instruction.isTerminal at hterminal
    cases hb : i.body with
    | expression e => simp [hb, Body.isTerminal] at hterminal
    | block b =>
      rw [hb, Body.isTerminal, Block.isTerminal] at hterminal
      split at hterminal
      · rename_i s hs
        obtain ⟨init, hsplit⟩ := List.getLast?_eq_some_iff.mp hs
        rw [hb] at hbody
        exact ((hbody.1 init s [] hsplit).of_isReturn hterminal).1
      · cases hterminal

end Instruction.Lawful
end StackForge
