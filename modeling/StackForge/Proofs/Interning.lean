import StackForge.Catalog
import StackForge.Proofs.Callback

/-!
Pools of an assembler. A value is looked up among those that are there and goes behind them if it is
new, so that no two entries of a pool are the same and an index that was given out stays good: it
still finds the same constant or function in the finished program, whatever was called or refused in
between.
-/
namespace StackForge

namespace Host

/-- Sameness of values is bit for bit. -/
theorem Value.same_iff {v w : Value} : v.same w = true ↔ v = w := by simp [Value.same]

theorem Value.same_equivalence : Equivalence fun v w : Value => v.same w = true where
  refl _ := Value.same_iff.mpr rfl
  symm h := Value.same_iff.mpr (Value.same_iff.mp h).symm
  trans h h' := Value.same_iff.mpr ((Value.same_iff.mp h).trans (Value.same_iff.mp h'))

theorem Value.same_real_iff {x y : Double} : (Value.real x).same (.real y) = true ↔ x.bits = y.bits := by
  rw [Value.same_iff, Value.real.injEq]
  exact ⟨congrArg Double.bits, fun h => by cases x; cases y; simpa using h⟩

/-- An object is the same as a function exactly if it is a function with its number. -/
theorem Object.same_function_iff {o : Object} {f : Function} :
    o.same (.function f) = true ↔ ∃ g, o = .function g ∧ g.number = f.number := by
  cases o with
  | function g => simp [Object.same]
  | value v => simp [Object.same]

theorem Object.same_equivalence : Equivalence fun o p : Object => o.same p = true where
  refl o := by
    cases o with
    | function f => simp [Object.same]
    | value v => exact Value.same_equivalence.refl v
  symm {o p} h := by
    cases o with
    | function f =>
      cases p with
      | function g => simpa [Object.same] using (of_decide_eq_true h).symm
      | value w => cases h
    | value v =>
      cases p with
      | function g => cases h
      | value w => exact Value.same_equivalence.symm h
  trans {o p q} h h' := by
    cases o with
    | function f =>
      cases p with
      | function g =>
        cases q with
        | function k => simpa [Object.same] using (of_decide_eq_true h).trans (of_decide_eq_true h')
        | value w => cases h'
      | value w => cases h
    | value v =>
      cases p with
      | function g => cases h
      | value w =>
        cases q with
        | function k => cases h'
        | value u => exact Value.same_equivalence.trans h h'

end Host

namespace Assembler

section Pool

variable {β : Type} (same : β → β → Bool)

/-- Entries of which no two are the same. -/
def Distinct (pool : List β) : Prop := pool.Pairwise fun x y => same x y = false

/-- The place of an entry in a pool, and the pool with it. -/
def place (pool : List β) (x : β) : Nat × List β :=
  match pool.findIdx? (same · x) with
  | some slot => (slot, pool)
  | none => (pool.length, pool ++ [x])

variable {same}

theorem place_grows (pool : List β) (x : β) : pool <+: (place same pool x).2 := by
  unfold place
  split
  · exact List.prefix_rfl
  · exact List.prefix_append pool [x]

/-- An entry that has no equal in the pool keeps it distinct. -/
theorem Distinct.place {pool : List β} (h : Distinct same pool) (x : β) :
    Distinct same (place same pool x).2 := by
  unfold Assembler.place
  split
  · exact h
  · rename_i hnone
    refine List.pairwise_append.mpr ⟨h, List.pairwise_singleton _ x, ?_⟩
    intro y hy z hz
    rw [List.mem_singleton.mp hz]
    exact List.findIdx?_eq_none_iff.mp hnone y hy

/-- The place of an entry holds one that is the same. -/
theorem exists_at_place (hrefl : ∀ x, same x x = true) (pool : List β) (x : β) :
    ∃ y, (place same pool x).2[(place same pool x).1]? = some y ∧ same y x = true := by
  unfold place
  split
  · rename_i slot hslot
    obtain ⟨hlt, hsame, -⟩ := List.findIdx?_eq_some_iff_getElem.mp hslot
    exact ⟨pool[slot], List.getElem?_eq_getElem hlt, hsame⟩
  · exact ⟨x, by simp, hrefl x⟩

end Pool

theorem intern_eq (v : Host.Value) (a : Assembler) :
    a.intern v = ((place Host.Value.same a.constants v).1,
      { a with constants := (place Host.Value.same a.constants v).2 }) := by
  unfold intern place
  cases a.constants.findIdx? (·.same v) <;> rfl

theorem internHost_eq (o : Host.Object) (a : Assembler) :
    a.internHost o = ((place Host.Object.same a.hostConstants o).1,
      { a with hostConstants := (place Host.Object.same a.hostConstants o).2 }) := by
  unfold internHost place
  cases a.hostConstants.findIdx? (·.same o) <;> rfl

/-- No two constants and no two host objects are the same. -/
structure Pooled (a : Assembler) : Prop where
  constants : Distinct Host.Value.same a.constants
  hostConstants : Distinct Host.Object.same a.hostConstants

/-- What is there stays in its place: code and pools only grow at their ends. -/
structure Extends (a b : Assembler) : Prop where
  code : a.code <+: b.code
  constants : a.constants <+: b.constants
  hostConstants : a.hostConstants <+: b.hostConstants

theorem Extends.refl (a : Assembler) : Extends a a :=
  ⟨List.prefix_rfl, List.prefix_rfl, List.prefix_rfl⟩

theorem Extends.trans {a b c : Assembler} (h : Extends a b) (h' : Extends b c) : Extends a c :=
  ⟨h.code.trans h'.code, h.constants.trans h'.constants, h.hostConstants.trans h'.hostConstants⟩

variable {d : Descriptor} {a : Assembler}

/-- A step that keeps the pools distinct and all that was there. -/
structure Keeps (a b : Assembler) : Prop extends Extends a b where
  pooled : a.Pooled → b.Pooled

theorem Keeps.refl (a : Assembler) : Keeps a a := ⟨.refl a, id⟩

theorem Keeps.trans {a b c : Assembler} (h : Keeps a b) (h' : Keeps b c) : Keeps a c :=
  ⟨h.toExtends.trans h'.toExtends, h'.pooled ∘ h.pooled⟩

theorem keeps_intern (v : Host.Value) (a : Assembler) : Keeps a (a.intern v).2 := by
  rw [intern_eq]
  exact ⟨⟨List.prefix_rfl, place_grows _ _, List.prefix_rfl⟩,
    fun h => ⟨h.constants.place v, h.hostConstants⟩⟩

theorem keeps_internHost (o : Host.Object) (a : Assembler) : Keeps a (a.internHost o).2 := by
  rw [internHost_eq]
  exact ⟨⟨List.prefix_rfl, List.prefix_rfl, place_grows _ _⟩,
    fun h => ⟨h.constants, h.hostConstants.place o⟩⟩

/-- An instruction that is accepted puts its opcode and its immediates behind the code, and leaves
the pools alone. -/
theorem instr_cases (d : Descriptor) (name : String) (words : List Int32) (a : Assembler) :
    (∃ i depth maxDepth terminated, d.instruction? name = some i ∧ (a.instr d name words).1
      = { a with code := a.code ++ i.opcode :: words, depth, maxDepth, terminated }) ∨
    ∃ fault, a.instr d name words = (a, some fault) := by
  unfold instr attempt
  cases hemit : emit d name words a with
  | error fault => exact .inr ⟨fault, rfl⟩
  | ok b =>
    obtain ⟨e, hi, rfl, -, -, -, -, -, -, -, rfl⟩ := emit_eq_ok hemit
    exact .inl ⟨e.instruction, _, _, _, hi, rfl⟩

theorem keeps_instr (d : Descriptor) (name : String) (words : List Int32) (a : Assembler) :
    Keeps a (a.instr d name words).1 := by
  rcases instr_cases d name words a with ⟨i, _, _, _, -, hrun⟩ | ⟨fault, hfault⟩
  · rw [hrun]
    exact ⟨⟨List.prefix_append _ _, List.prefix_rfl, List.prefix_rfl⟩,
      fun h => ⟨h.constants, h.hostConstants⟩⟩
  · rw [hfault]
    exact .refl a

theorem word_cases (instruction : String) (n : Nat) :
    (∃ w, word instruction n = .ok w ∧ w.toInt = n) ∨ ∃ fault, word instruction n = .error fault := by
  by_cases hn : n ≤ wordMax
  · exact .inl ⟨_, word_of_le instruction hn⟩
  · exact .inr ⟨_, if_neg hn⟩

theorem loadArg_cases (d : Descriptor) (index : Nat) (a : Assembler) :
    (∃ w, a.loadArg d index = a.instr d "load_arg" [w]) ∨
    ∃ fault, a.loadArg d index = (a, some fault) := by
  rcases word_cases "load_arg" index with ⟨w, hw, -⟩ | ⟨fault, hfault⟩
  · exact .inl ⟨w, by rw [loadArg, hw]; rfl⟩
  · exact .inr ⟨fault, by rw [loadArg, hfault]; rfl⟩

/-- A constant is loaded by its place, once it has one. -/
theorem loadConst_cases (d : Descriptor) (v : Host.Value) (a : Assembler) :
    (∃ w : Int32, w.toInt = (a.intern v).1 ∧
      a.loadConst d v = (a.intern v).2.instr d "load_const" [w]) ∨
    ∃ fault, a.loadConst d v = ((a.intern v).2, some fault) := by
  rcases word_cases "load_const" (a.intern v).1 with ⟨w, hw, hslot⟩ | ⟨fault, hfault⟩
  · exact .inl ⟨w, hslot, by simp only [loadConst, hw]; rfl⟩
  · exact .inr ⟨fault, by simp only [loadConst, hfault]; rfl⟩

/-- A function of the host is called by its place, once it has one. -/
theorem callHost_cases (d : Descriptor) (f : Host.Function) (n : Nat) (a : Assembler) :
    (∃ w count : Int32, w.toInt = (a.internHost (.function f)).1 ∧ count.toInt = n ∧
      a.callHost d f n = (a.internHost (.function f)).2.instr d (hostInstruction d) [w, count]) ∨
    ∃ fault, a.callHost d f n = ((a.internHost (.function f)).2, some fault) := by
  rcases word_cases (hostInstruction d) (a.internHost (.function f)).1 with
    ⟨w, hw, hslot⟩ | ⟨fault, hfault⟩
  · rcases word_cases (hostInstruction d) n with ⟨count, hcount, hn⟩ | ⟨fault, hfault⟩
    · exact .inl ⟨w, count, hslot, hn, by simp only [callHost, hw, hcount]; rfl⟩
    · exact .inr ⟨fault, by simp only [callHost, hw, hfault]; rfl⟩
  · exact .inr ⟨fault, by simp only [callHost, hfault]; rfl⟩

theorem keeps_loadConst (d : Descriptor) (v : Host.Value) (a : Assembler) :
    Keeps a (a.loadConst d v).1 := by
  refine (keeps_intern v a).trans ?_
  rcases loadConst_cases d v a with ⟨w, -, hrun⟩ | ⟨fault, hfault⟩
  · rw [hrun]
    exact keeps_instr d _ _ _
  · rw [hfault]
    exact .refl _

/-- The pools and the code after a power that goes by a constant are those of the constant, and
more. -/
theorem keeps_power (d : Descriptor) (k : Int64) (a : Assembler) (hword : powerWord? d k = none) :
    Keeps (a.loadConst d (.int k)).1 (a.power d k).1 := by
  simp only [power, hword]
  split
  · rename_i b fault hload
    rw [hload]
    exact .refl b
  · rename_i b hload
    rw [hload]
    exact keeps_instr d _ _ _

/-- Every call keeps the pools, whether it is refused or not. -/
theorem keeps_call (d : Descriptor) (call : Call) (a : Assembler) : Keeps a (call.run d a).1 := by
  cases call with
  | loadArg index =>
    rw [Call.run]
    rcases loadArg_cases d index a with ⟨w, hrun⟩ | ⟨fault, hfault⟩
    · rw [hrun]
      exact keeps_instr d _ _ a
    · rw [hfault]
      exact .refl a
  | loadConst v => exact keeps_loadConst d v a
  | callHost f n =>
    refine (keeps_internHost (.function f) a).trans ?_
    rw [Call.run]
    rcases callHost_cases d f n a with ⟨w, count, -, -, hrun⟩ | ⟨fault, hfault⟩
    · rw [hrun]
      exact keeps_instr d _ _ _
    · rw [hfault]
      exact .refl _
  | power k =>
    rw [Call.run]
    cases hword : powerWord? d k with
    | none => exact (keeps_loadConst d (.int k) a).trans (keeps_power d k a hword)
    | some exponent =>
      simp only [power, hword]
      exact keeps_instr d _ _ a
  | instr name words => exact keeps_instr d name words a

/-- So does every sequence of calls. -/
theorem keeps_runAll (d : Descriptor) (calls : List Call) (a : Assembler) :
    Keeps a (runAll d a calls) := by
  induction calls generalizing a with
  | nil => exact .refl a
  | cons call rest ih => exact (keeps_call d call a).trans (ih _)

theorem pooled_start (nArgs : Nat) : (start nArgs).Pooled := ⟨.nil, .nil⟩

/-- The words of a load, and the constant that they select. -/
theorem exists_loaded {v : Host.Value} (h : (a.loadConst d v).2 = none) :
    ∃ (i : Instruction) (w : Int32) (index : Nat) (c : Host.Value),
      d.instruction? "load_const" = some i ∧ w.toInt = index ∧
      (a.loadConst d v).1.code = a.code ++ [i.opcode, w] ∧
      (a.loadConst d v).1.constants[index]? = some c ∧ c.same v = true := by
  rcases loadConst_cases d v a with ⟨w, hw, hrun⟩ | ⟨fault, hfault⟩
  · rw [hrun] at h ⊢
    rcases instr_cases d "load_const" [w] (a.intern v).2 with ⟨i, _, _, _, hi, hstate⟩ | ⟨fault, hfault⟩
    · obtain ⟨c, hc, hsame⟩ := exists_at_place Host.Value.same_equivalence.refl a.constants v
      rw [hstate]
      rw [intern_eq] at hw ⊢
      exact ⟨i, w, _, c, hi, hw, rfl, hc, hsame⟩
    · rw [hfault] at h
      cases h
  · rw [hfault] at h
    cases h

/-- The words of a call of the host, and the function that they select. -/
theorem exists_called {f : Host.Function} {n : Nat} (h : (a.callHost d f n).2 = none) :
    ∃ (i : Instruction) (w count : Int32) (index : Nat) (g : Host.Function),
      d.instruction? (hostInstruction d) = some i ∧ w.toInt = index ∧ count.toInt = n ∧
      (a.callHost d f n).1.code = a.code ++ [i.opcode, w, count] ∧
      (a.callHost d f n).1.hostConstants[index]? = some (.function g) ∧ g.number = f.number := by
  rcases callHost_cases d f n a with ⟨w, count, hw, hn, hrun⟩ | ⟨fault, hfault⟩
  · rw [hrun] at h ⊢
    rcases instr_cases d (hostInstruction d) [w, count] (a.internHost (.function f)).2 with
      ⟨i, _, _, _, hi, hstate⟩ | ⟨fault, hfault⟩
    · obtain ⟨o, ho, hsame⟩ :=
        exists_at_place Host.Object.same_equivalence.refl a.hostConstants (.function f)
      obtain ⟨g, rfl, hg⟩ := Host.Object.same_function_iff.mp hsame
      rw [hstate]
      rw [internHost_eq] at hw ⊢
      exact ⟨i, w, count, _, g, hi, hw, hn, rfl, ho, hg⟩
    · rw [hfault] at h
      cases h
  · rw [hfault] at h
    cases h

end Assembler

/-- Behind some words, a program loads a constant that is the same as a value. -/
def Program.Loads (d : Descriptor) (p : Program) (before : List Int32) (v : Host.Value) : Prop :=
  ∃ (i : Instruction) (w : Int32) (index : Nat) (c : Host.Value),
    d.instruction? "load_const" = some i ∧ w.toInt = index ∧ before ++ [i.opcode, w] <+: p.code ∧
    p.constants[index]? = some c ∧ c.same v = true

/-- Behind some words, a program calls a function with a number of arguments. -/
def Program.Invokes (d : Descriptor) (p : Program) (before : List Int32) (f : Host.Function)
    (n : Nat) : Prop :=
  ∃ (i : Instruction) (w count : Int32) (index : Nat) (g : Host.Function),
    d.instruction? (Assembler.hostInstruction d) = some i ∧ w.toInt = index ∧ count.toInt = n ∧
    before ++ [i.opcode, w, count] <+: p.code ∧
    p.hostConstants[index]? = some (.function g) ∧ g.number = f.number

namespace Assembler

variable {d : Descriptor} {a b : Assembler} {p : Program}

/-- A finished program has the code and the pools of its assembler. -/
theorem extends_finish (hp : b.finish d = .ok p) :
    p.code = b.code ∧ p.constants = b.constants ∧ p.hostConstants = b.hostConstants := by
  unfold finish at hp
  split at hp
  · cases hp
    exact ⟨rfl, rfl, rfl⟩
  · cases hp

/-- An index that found an entry finds it in a pool that has grown. -/
theorem getElem?_of_grown {β : Type} {pool grown : List β} {index : Nat} {x : β} (h : pool <+: grown)
    (hx : pool[index]? = some x) : grown[index]? = some x := by
  obtain ⟨hlt, rfl⟩ := List.getElem?_eq_some_iff.mp hx
  exact List.prefix_iff_getElem?.mp h index hlt

theorem loads_of_extends {v : Host.Value} (h : (a.loadConst d v).2 = none)
    (hb : Extends (a.loadConst d v).1 b) (hp : b.finish d = .ok p) : p.Loads d a.code v := by
  obtain ⟨hcode, hconstants, -⟩ := extends_finish hp
  obtain ⟨i, w, index, c, hi, hw, hwords, hc, hsame⟩ := exists_loaded h
  refine ⟨i, w, index, c, hi, hw, ?_, ?_, hsame⟩
  · rw [hcode, ← hwords]
    exact hb.code
  · rw [hconstants]
    exact getElem?_of_grown hb.constants hc

theorem invokes_of_extends {f : Host.Function} {n : Nat} (h : (a.callHost d f n).2 = none)
    (hb : Extends (a.callHost d f n).1 b) (hp : b.finish d = .ok p) : p.Invokes d a.code f n := by
  obtain ⟨hcode, -, hhost⟩ := extends_finish hp
  obtain ⟨i, w, count, index, g, hi, hw, hn, hwords, hg, hnumber⟩ := exists_called h
  refine ⟨i, w, count, index, g, hi, hw, hn, ?_, ?_, hnumber⟩
  · rw [hcode, ← hwords]
    exact hb.code
  · rw [hhost]
    exact getElem?_of_grown hb.hostConstants hg

/-- Whatever is called and refused: no two entries of a pool are the same, entries stay where they
are, and each accepted load or call of the host selects in the finished program the constant or the
function that it was given. Sameness is an equivalence that looks at the kind and at the bits, also
at those of zeros and of doubles that are not a number. -/
theorem interning_keeps_constants (d : Descriptor) (nArgs : Nat) (calls more : List Call)
    (p : Program) :
    let a := runAll d (.start nArgs) calls
    a.Pooled ∧ Extends a (runAll d a more) ∧
    (a.finish d = .ok p →
      Distinct Host.Value.same p.constants ∧ Distinct Host.Object.same p.hostConstants) ∧
    (∀ v, (a.loadConst d v).2 = none → (runAll d (a.loadConst d v).1 more).finish d = .ok p →
      p.Loads d a.code v) ∧
    (∀ k, powerWord? d k = none → (a.loadConst d (.int k)).2 = none →
      (runAll d (a.power d k).1 more).finish d = .ok p → p.Loads d a.code (.int k)) ∧
    (∀ f n, (a.callHost d f n).2 = none → (runAll d (a.callHost d f n).1 more).finish d = .ok p →
      p.Invokes d a.code f n) ∧
    (Equivalence fun v w : Host.Value => v.same w = true) ∧
    (Equivalence fun o o' : Host.Object => o.same o' = true) ∧
    (∀ n x, (Host.Value.int n).same (.real x) = false) ∧
    (Host.Value.real .zero).same (.real Double.zero.neg) = false ∧
    ∀ x y, (Host.Value.real x).same (.real y) = true ↔ x.bits = y.bits := by
  intro a
  have hpooled : a.Pooled := (keeps_runAll d calls (.start nArgs)).pooled (pooled_start nArgs)
  refine ⟨hpooled, (keeps_runAll d more a).toExtends, ?_, ?_, ?_, ?_, Host.Value.same_equivalence,
    Host.Object.same_equivalence, fun _ _ => rfl, by decide, fun _ _ => Host.Value.same_real_iff⟩
  · intro hp
    obtain ⟨-, hconstants, hhost⟩ := extends_finish hp
    rw [hconstants, hhost]
    exact ⟨hpooled.constants, hpooled.hostConstants⟩
  · intro v haccepted hp
    exact loads_of_extends haccepted (keeps_runAll d more _).toExtends hp
  · intro k hword haccepted hp
    have hpower := (keeps_power d k a hword).trans (keeps_runAll d more _)
    exact loads_of_extends haccepted hpower.toExtends hp
  · intro f n haccepted hp
    exact invokes_of_extends haccepted (keeps_runAll d more _).toExtends hp

/-- The other zero is a new constant, a power that is refused has loaded its exponent, and a
function is found by its number. -/
theorem interning_keeps_constants_core :
    ∃ d log, (Catalog.core "rdf" .double).build = (some d, log) ∧
      ∃ a, a = runAll d (.start 0) [.loadConst (.real .zero), .instr "return" [7]] ∧
        (∃ p, (runAll d (a.loadConst d (.real Double.zero.neg)).1 [.instr "return" []]).finish d = .ok p ∧
          p.Loads d a.code (.real Double.zero.neg) ∧ Distinct Host.Value.same p.constants) ∧
        (∃ p, (a.power d 5).2 = some (.unknownInstruction "rdf" "pow") ∧
          (runAll d (a.power d 5).1 [.instr "return" []]).finish d = .ok p ∧
          p.Loads d a.code (.int 5)) ∧
        ∃ p, (runAll d (a.callHost d ⟨0, "f", .ok ∘ (·.headD (.int 0))⟩ 1).1
            [.callHost ⟨0, "g", .ok ∘ (·.headD (.int 1))⟩ 1, .instr "return" []]).finish d = .ok p ∧
          p.Invokes d a.code ⟨0, "f", .ok ∘ (·.headD (.int 0))⟩ 1 := by
  have hall : ((Catalog.core "rdf" .double).build.1.any fun d =>
      let a := runAll d (.start 0) [.loadConst (.real .zero), .instr "return" [7]]
      decide ((a.loadConst d (.real Double.zero.neg)).2 = none ∧
        (runAll d (a.loadConst d (.real Double.zero.neg)).1 [.instr "return" []]).terminated = true ∧
        powerWord? d 5 = none ∧ (a.loadConst d (.int 5)).2 = none ∧
        (a.power d 5).2 = some (.unknownInstruction "rdf" "pow") ∧
        (runAll d (a.power d 5).1 [.instr "return" []]).terminated = true ∧
        (a.callHost d ⟨0, "f", .ok ∘ (·.headD (.int 0))⟩ 1).2 = none ∧
        (runAll d (a.callHost d ⟨0, "f", .ok ∘ (·.headD (.int 0))⟩ 1).1
          [.callHost ⟨0, "g", .ok ∘ (·.headD (.int 1))⟩ 1, .instr "return" []]).terminated = true))
      = true := by
    decide +kernel
  generalize Catalog.core "rdf" .double = draft at hall ⊢
  obtain ⟨d, hd, hcalls⟩ := (Option.any_eq_true _ _).mp hall
  obtain ⟨hload, hloaded, hword, hconst, hpower, hpowered, hcall, hcalled⟩ := of_decide_eq_true hcalls
  refine ⟨d, draft.build.2, Prod.ext hd rfl, _, rfl, ?_, ?_, ?_⟩
  · exact ⟨_, if_pos hloaded, (interning_keeps_constants d 0 _ _ _).2.2.2.1 _ hload (if_pos hloaded),
      ((interning_keeps_constants d 0 [.loadConst (.real .zero), .instr "return" [7],
        .loadConst (.real Double.zero.neg), .instr "return" []] [] _).2.2.1 (if_pos hloaded)).1⟩
  · exact ⟨_, hpower, if_pos hpowered,
      (interning_keeps_constants d 0 _ _ _).2.2.2.2.1 _ hword hconst (if_pos hpowered)⟩
  · exact ⟨_, if_pos hcalled,
      (interning_keeps_constants d 0 _ _ _).2.2.2.2.2.1 _ _ hcall (if_pos hcalled)⟩

end Assembler
end StackForge
