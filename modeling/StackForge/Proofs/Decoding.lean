import StackForge.Proofs.Arms
import StackForge.Proofs.Assembled

/-!
Decoding undoes encoding. Code has no marks between its instructions, but a walk that goes by the
widths of the instructions meets those that an assembler added, in order and with their own
immediates. The list of host objects that a program calls is read off such a walk.
-/
namespace StackForge

/-- An instruction that a walk through code meets. -/
structure Visit where
  pc : Nat
  instruction : Instruction
  words : List Int32

/-- Walk through code from a position on, up to a position without an instruction. The words behind
an opcode are those that the width of its instruction covers. -/
def Descriptor.walk (d : Descriptor) (code : List Int32) (pc : Nat) : List Visit × Nat :=
  match hop : code[pc]? with
  | none => ([], pc)
  | some op =>
    match d.byOpcode? op with
    | none => ([], pc)
    | some i =>
      have : code.length - (pc + i.width) < code.length - pc := by
        obtain ⟨hlt, -⟩ := List.getElem?_eq_some_iff.mp hop
        rw [Instruction.width, Signature.width]
        omega
      let (visits, stop) := d.walk code (pc + i.width)
      (⟨pc, i, (code.drop (pc + 1)).take (i.width - 1)⟩ :: visits, stop)
  termination_by code.length - pc

namespace Descriptor

variable {d : Descriptor} {code : List Int32} {pc : Nat}

theorem walk_of_none (h : (code[pc]?.bind d.byOpcode?) = none) : d.walk code pc = ([], pc) := by
  rw [walk]
  split
  · rfl
  · rename_i op hop
    rw [hop, Option.bind_some] at h
    simp [h]

theorem walk_of_some {i : Instruction} (h : (code[pc]?.bind d.byOpcode?) = some i) :
    d.walk code pc =
      (⟨pc, i, (code.drop (pc + 1)).take (i.width - 1)⟩ :: (d.walk code (pc + i.width)).1,
        (d.walk code (pc + i.width)).2) := by
  rw [walk]
  split
  · rename_i hop
    rw [hop] at h
    cases h
  · rename_i op hop
    rw [hop, Option.bind_some] at h
    simp [h]

end Descriptor

namespace Assembler

/-- How a walk meets an entry. -/
def Entry.visit (e : Entry) : Visit := ⟨e.offset, e.instruction, e.words⟩

/-- A walk from an entry on meets the entries that are left, and stops at the end of the code. -/
theorem Tracks.walk_eq {d : Descriptor} {a : Assembler} {before after : List Entry}
    {offset depth depth' : Nat} (h : Tracks d a (before ++ after)) (hd : d.WellFormed)
    (hchain : Chain offset depth after a.code.length depth') :
    d.walk a.code offset = (after.map Entry.visit, a.code.length) := by
  induction after generalizing before offset depth with
  | nil =>
    cases hchain
    exact Descriptor.walk_of_none (by simp)
  | cons e rest ih =>
    have hsound := h.sound e (by simp)
    obtain ⟨hop, back, hwords⟩ := h.code_at
    have hlength : e.words.length = e.instruction.width - 1 := by
      rw [hsound.count, Instruction.width, Signature.width]
      omega
    have hselect : a.code[e.offset]?.bind d.byOpcode? = some e.instruction := by
      rw [hop, Option.bind_some, hd.byOpcode?_opcode hsound.known]
    have htracks : Tracks d a ((before ++ [e]) ++ rest) := by simpa using h
    have hrest := ih htracks hchain.tail
    rw [Entry.nextOffset, hsound.code_length] at hrest
    rw [← hchain.head_eq.1, Descriptor.walk_of_some hselect, hrest, hwords, ← hlength]
    simp [Entry.visit]

end Assembler

/-- An input that selects a host object. -/
def Param.isSite (p : Param) : Bool := p.role = .hostConstants && p.isIndexed

/-- The host object that the first such input refers to. Immediates are taken in order from the
words. -/
def hostObject? (objects : List Host.Object) : List Param → List Int32 → Option Host.Object
  | [], _ => none
  | p :: rest, words =>
    if p.isSite then (words.head?.bind Engine.index?).bind (objects[·]?)
    else hostObject? objects rest (words.drop p.immediates)

theorem hostObject?_eq {objects : List Host.Object} {before after : List Param} {p : Param}
    (hbefore : ∀ q ∈ before, q.isSite = false) (hp : p.isSite = true) (words : List Int32) :
    hostObject? objects (before ++ p :: after) words
      = (words[Param.immediatesOf before]?.bind Engine.index?).bind (objects[·]?) := by
  induction before generalizing words with
  | nil => simp [hostObject?, hp, List.head?_eq_getElem?]
  | cons q rest ih =>
    obtain ⟨hq, hrest⟩ := List.forall_mem_cons.mp hbefore
    simp [hostObject?, hq, ih hrest]

theorem Param.immediates_of_isSite {p : Param} (h : p.isSite = true) : p.immediates = 1 :=
  immediates_of_isIndexed ((Bool.and_eq_true _ _).mp h).2

theorem split_of_findIdx? {α : Type} {q : α → Bool} {xs : List α} {k : Nat}
    (h : xs.findIdx? q = some k) :
    ∃ before x after, xs = before ++ x :: after ∧ before.length = k ∧
      (∀ y ∈ before, q y = false) ∧ q x = true := by
  obtain ⟨hk, hx, hbefore⟩ := List.findIdx?_eq_some_iff_getElem.mp h
  refine ⟨xs.take k, xs[k], xs.drop (k + 1), ?_, ?_, ?_, hx⟩
  · rw [← List.drop_eq_getElem_cons hk, List.take_append_drop]
  · rw [List.length_take]
    omega
  · intro y hy
    obtain ⟨j, hj, rfl⟩ := List.mem_take_iff_getElem.mp hy
    simpa using hbefore j (by omega)

/-- The word by which the generated code selects what a convention calls: the immediate of the first
input that selects a host object. -/
theorem Emission.hostCallSite_eq_ok {d : Descriptor} {conv : HostCall} {i : Instruction}
    {word : Nat} (h : hostCallSite d conv = .ok (i, word)) :
    d.instruction? conv.instruction = some i ∧
      ∃ before p after, i.signature.inputs = before ++ p :: after ∧
        (∀ q ∈ before, q.isSite = false) ∧ p.isSite = true ∧
        word = 1 + Param.immediatesOf before := by
  unfold hostCallSite at h
  cases hi : d.instruction? conv.instruction with
  | none =>
    rw [hi] at h
    cases h
  | some j =>
    simp only [hi] at h
    split at h
    · rename_i k hk
      obtain ⟨before, p, after, hinputs, hlength, hbefore, hp⟩ := split_of_findIdx? hk
      rw [← hlength, Arm.immediate_eq hinputs (Param.immediates_of_isSite hp)] at h
      cases h
      exact ⟨rfl, before, p, after, hinputs, hbefore, hp, rfl⟩
    · cases h

namespace Engine

variable {V : Type}

/-- An engine knows where its descriptor says that the host is called. -/
theorem hostCall_of_ofDescriptor {D : Domain V} {d : Descriptor} {e : Engine V}
    (h : ofDescriptor D d = .ok e) {conv : HostCall} (hconv : d.hostCall = some conv) :
    ∃ site, Emission.hostCallSite d conv = .ok site ∧ e.hostCall = some site := by
  obtain ⟨arms, -, h⟩ := bind_eq_ok h
  obtain ⟨hostCall, hcall, h⟩ := bind_eq_ok h
  cases h
  rw [hconv, Option.mapM_some] at hcall
  cases hsite : Emission.hostCallSite d conv with
  | error fault =>
    rw [hsite] at hcall
    cases hcall
  | ok site =>
    rw [hsite] at hcall
    cases hcall
    exact ⟨site, rfl, rfl⟩

/-- The host objects of a program are read off a walk through its code. -/
theorem hostCallsFrom_eq (w : Wrapper V) (site : Instruction × Nat) {n pc : Nat}
    (hn : w.code.length ≤ n + pc) :
    hostCallsFrom w site n pc = (w.engine.descriptor.walk w.code pc).1.filterMap fun v =>
      if w.code[v.pc]? = some site.1.opcode then
        (w.code[v.pc + site.2]?.bind index?).bind (w.hostConstants[·]?)
      else none := by
  induction n generalizing pc with
  | zero =>
    have hend : w.code[pc]? = none := List.getElem?_eq_none (by omega)
    rw [Descriptor.walk_of_none (by rw [hend]; rfl)]
    rfl
  | succ n ih =>
    unfold hostCallsFrom
    cases hop : w.code[pc]? with
    | none =>
      rw [Descriptor.walk_of_none (by rw [hop]; rfl)]
      rfl
    | some op =>
      have hselect : (index? op).bind (w.engine.descriptor.instructions[·]?)
          = w.engine.descriptor.byOpcode? op := by
        unfold index? Descriptor.byOpcode?
        split <;> rfl
      simp only [hselect]
      cases hi : w.engine.descriptor.byOpcode? op with
      | none =>
        rw [Descriptor.walk_of_none (by rw [hop, Option.bind_some, hi])]
        rfl
      | some i =>
        have hrest : w.code.length ≤ n + (pc + i.width) := by
          rw [Instruction.width, Signature.width]
          omega
        rw [Descriptor.walk_of_some (by rw [hop, Option.bind_some, hi])]
        simp only [ih hrest, List.filterMap_cons, hop, Option.some.injEq]
        split
        · cases (w.code[pc + site.2]?.bind index?).bind (w.hostConstants[·]?) <;> rfl
        · rfl

end Engine

namespace Assembler

variable {d : Descriptor} {a : Assembler}

/-- Each immediate that the assembler accepted suits its own input. -/
theorem immediateFault?_of_split {i : Instruction} {before after : List Param} {p : Param}
    {words : List Int32}
    (hfault : immediatesFault? d a i (before ++ p :: after) words = none)
    (hlength : words.length = Param.immediatesOf (before ++ p :: after)) (hp : p.immediates = 1) :
    ∃ w, words[Param.immediatesOf before]? = some w ∧ immediateFault? d a i p w = none := by
  induction before generalizing words with
  | nil =>
    obtain ⟨w, hhead, hw⟩ := (Machine.immediates_of_cons hfault hlength).1 hp
    exact ⟨w, by rwa [List.head?_eq_getElem?] at hhead, hw⟩
  | cons q rest ih =>
    obtain ⟨-, hrest, hwords⟩ := Machine.immediates_of_cons hfault hlength
    obtain ⟨w, hw, hwfault⟩ := ih hrest hwords
    exact ⟨w, by rwa [List.getElem?_drop] at hw, hwfault⟩

/-- The host object that an accepted entry refers to is there. -/
theorem Entry.Sound.exists_hostObject {e : Entry} (he : e.Sound d a)
    (hi : e.instruction.WellFormed) {before after : List Param} {p : Param}
    (hinputs : e.instruction.signature.inputs = before ++ p :: after)
    (hbefore : ∀ q ∈ before, q.isSite = false) (hp : p.isSite = true) :
    Param.immediatesOf before < e.words.length ∧
      ∃ o, hostObject? a.hostConstants e.instruction.signature.inputs e.words = some o := by
  have hlength := he.count.trans hi.immediates_eq
  have hfault := he.immediates
  rw [hinputs] at hlength hfault
  obtain ⟨w, hw, hwfault⟩ :=
    immediateFault?_of_split hfault hlength (Param.immediates_of_isSite hp)
  obtain ⟨hlt, -⟩ := List.getElem?_eq_some_iff.mp hw
  refine ⟨hlt, ?_⟩
  obtain ⟨hrole, hindexed⟩ := (Bool.and_eq_true _ _).mp hp
  have hrole : p.role = .hostConstants := of_decide_eq_true hrole
  cases hkind : p.kind with
  | indexed index =>
    obtain ⟨k, hk, hlt⟩ :=
      Machine.index_lt_of_immediateFault? hkind (by rw [hrole]; rfl) hwfault
    rw [hinputs, hostObject?_eq hbefore hp, hw, Option.bind_some, hk, Option.bind_some]
    exact ⟨_, List.getElem?_eq_getElem hlt⟩
  | _ => simp [Param.isIndexed, hkind] at hindexed

end Assembler

/-- Instructions of a descriptor that was built have different names. -/
theorem Draft.Built.nodup_instructions {draft : Draft} {d : Descriptor} (h : draft.Built d) :
    (d.instructions.map (·.name)).Nodup := by
  have hnames : d.instructions.map (·.name) = draft.instructions.map (·.name) := by
    refine List.ext_getElem? fun k => ?_
    rw [List.getElem?_map, List.getElem?_map]
    cases hk : d.instructions[k]? with
    | none =>
      have hlength := List.getElem?_eq_none_iff.mp hk
      rw [h.length] at hlength
      rw [List.getElem?_eq_none hlength]
      rfl
    | some i =>
      obtain ⟨source, hsource, haccepted⟩ := h.accepted k i hk
      rw [hsource, haccepted.instruction]
      rfl
  rw [hnames]
  exact Check.nodup_of_instructionNamesFrom
    ((CheckFault.tolerable_append _ _).mp h.instructionSet).1

theorem map_some_filterMap {α β : Type} {xs : List α} {q : α → Prop} [DecidablePred q]
    {f g : α → Option β} (hf : ∀ x ∈ xs, f x = if q x then g x else none)
    (hg : ∀ x ∈ xs, q x → ∃ y, g x = some y) :
    (xs.filterMap f).map some = (xs.filter q).map g := by
  induction xs with
  | nil => rfl
  | cons x rest ih =>
    obtain ⟨hfx, hfrest⟩ := List.forall_mem_cons.mp hf
    obtain ⟨hgx, hgrest⟩ := List.forall_mem_cons.mp hg
    by_cases hx : q x
    · obtain ⟨y, hy⟩ := hgx hx
      rw [if_pos hx, hy] at hfx
      rw [List.filterMap_cons_some hfx, List.filter_cons_of_pos (by simp [hx]), List.map_cons,
        List.map_cons, ih hfrest hgrest, hy]
    · rw [if_neg hx] at hfx
      rw [List.filterMap_cons_none hfx, List.filter_cons_of_neg (by simp [hx])]
      exact ih hfrest hgrest

namespace Assembler

variable {d : Descriptor} {a : Assembler} {es : List Entry} {conv : HostCall} {i : Instruction}
  {word : Nat} {e : Entry}

/-- The opcode of the calling instruction marks its entries. -/
theorem opcode_eq_iff (hd : d.WellFormed) (hnames : (d.instructions.map (·.name)).Nodup)
    (hi : d.instruction? conv.instruction = some i) (he : e.instruction ∈ d.instructions) :
    e.instruction.opcode = i.opcode ↔ e.instruction.name = conv.instruction := by
  have hmem : i ∈ d.instructions := List.mem_of_find?_eq_some hi
  have hname : i.name = conv.instruction := by simpa using List.find?_some hi
  constructor
  · intro hop
    have hsame := hd.byOpcode?_opcode he
    rw [hop, hd.byOpcode?_opcode hmem] at hsame
    rw [← Option.some.inj hsame, hname]
  · intro hconv
    rw [List.inj_on_of_nodup_map hnames he hmem (hconv.trans hname.symm)]

/-- What generated code reads at an entry is the object that the first host input of the calling
instruction refers to. -/
theorem Tracks.called_eq (h : Tracks d a es) (hd : d.WellFormed)
    (hnames : (d.instructions.map (·.name)).Nodup)
    (hsite : Emission.hostCallSite d conv = .ok (i, word)) (he : e ∈ es) :
    (if a.code[e.offset]? = some i.opcode then
      (a.code[e.offset + word]?.bind Engine.index?).bind (a.hostConstants[·]?) else none)
      = (if e.instruction.name = conv.instruction then
          hostObject? a.hostConstants e.instruction.signature.inputs e.words else none) ∧
    (e.instruction.name = conv.instruction →
      ∃ o, hostObject? a.hostConstants e.instruction.signature.inputs e.words = some o) := by
  obtain ⟨hi, before, p, after, hinputs, hbefore, hp, rfl⟩ := Emission.hostCallSite_eq_ok hsite
  have hsound := h.sound e he
  obtain ⟨front, rest, rfl⟩ := List.append_of_mem he
  obtain ⟨hop, back, hwords⟩ := h.code_at
  have hiff := opcode_eq_iff hd hnames hi hsound.known
  simp only [hop, Option.some.injEq, hiff]
  by_cases hname : e.instruction.name = conv.instruction
  · have hsame : e.instruction = i := by
      have hfind := Check.find?_name hnames hsound.known
      rw [hname] at hfind
      exact Option.some.inj (hfind.symm.trans hi)
    rw [← hsame] at hinputs
    obtain ⟨hlt, hobject⟩ :=
      hsound.exists_hostObject (hd.instructions _ hsound.known) hinputs hbefore hp
    have hword : a.code[e.offset + (1 + Param.immediatesOf before)]?
        = e.words[Param.immediatesOf before]? := by
      rw [← Nat.add_assoc, ← List.getElem?_drop, hwords, List.getElem?_append_left hlt]
    refine ⟨?_, fun _ => hobject⟩
    rw [if_pos hname, if_pos hname, hword, hinputs, hostObject?_eq hbefore hp]
  · simp [hname]

/-- Of what a walk meets, the last instruction ends the program and no other one does. -/
theorem Tracks.isTerminal_iff (h : Tracks d a es) (hend : a.terminated = true)
    {before after : List Visit} {v : Visit} (hsplit : es.map Entry.visit = before ++ v :: after) :
    v.instruction.isTerminal = true ↔ after = [] := by
  obtain ⟨init, last, rfl, hlast, hinit⟩ := h.ended hend
  rw [List.map_append, List.map_singleton] at hsplit
  rcases List.eq_nil_or_concat after with rfl | ⟨others, x, rfl⟩
  · obtain ⟨-, hv⟩ := List.append_inj' hsplit rfl
    rw [← List.singleton_inj.mp hv]
    exact ⟨fun _ => rfl, fun _ => hlast⟩
  · rw [List.concat_eq_append, ← List.cons_append, ← List.append_assoc] at hsplit
    obtain ⟨hv, -⟩ := List.append_inj' hsplit rfl
    have hmem : v ∈ init.map Entry.visit := by
      rw [hv]
      exact List.mem_append_right _ List.mem_cons_self
    obtain ⟨e, he, rfl⟩ := List.mem_map.mp hmem
    simp [Entry.visit, hinit e he]

/-- The list of the host objects that a wrapped program calls: those that the entries of the calling
instruction refer to. -/
theorem Tracks.hostCalls_eq {V : Type} {w : Engine.Wrapper V}
    (h : Tracks w.engine.descriptor a es) (hd : w.engine.descriptor.WellFormed)
    (hnames : (w.engine.descriptor.instructions.map (·.name)).Nodup)
    (hsite : Emission.hostCallSite w.engine.descriptor conv = .ok (i, word))
    (hcall : w.engine.hostCall = some (i, word)) (hcode : w.code = a.code)
    (hobjects : w.hostConstants = a.hostConstants) :
    w.hostCalls.map some = (es.filter fun e => e.instruction.name = conv.instruction).map fun e =>
      hostObject? a.hostConstants e.instruction.signature.inputs e.words := by
  have hwalk : w.engine.descriptor.walk w.code 0 = (es.map Entry.visit, a.code.length) :=
    hcode ▸ @walk_eq w.engine.descriptor a [] es 0 0 _ h hd h.chain
  rw [Engine.Wrapper.hostCalls, hcall]
  simp only
  rw [Engine.hostCallsFrom_eq w (i, word) (by omega), hwalk, List.filterMap_map, hcode, hobjects]
  refine map_some_filterMap ?_ ?_
  · intro e he
    exact (h.called_eq hd hnames hsite he).1
  · intro e he
    exact (h.called_eq hd hnames hsite he).2

end Assembler

/-- Decoding undoes encoding. A walk through a finished program meets the instructions that were
added, in order and with their own immediates; it stops at the end of the code, and only the last
instruction ends the program. The host objects that the generated code lists are those that the
calling instructions refer to, in that order. -/
theorem walk_undoes_assembly (draft : Draft) (d : Descriptor) (log : Log)
    (hbuild : draft.build = (some d, log)) (nArgs : Nat) (calls : List Assembler.Call) (p : Program)
    (hp : (Assembler.runAll d (.start nArgs) calls).finish d = .ok p) :
    d.walk p.code 0
        = ((Assembler.history d (.start nArgs) calls).map Assembler.Entry.visit, p.code.length) ∧
    (∀ before v after, (d.walk p.code 0).1 = before ++ v :: after →
      (v.instruction.isTerminal = true ↔ after = [])) ∧
    ∀ conv, d.hostCall = some conv → ∀ {V : Type} (D : Domain V),
      (∀ v ∈ p.constants, D.Converts v) →
      ∃ e w, Engine.ofDescriptor D d = .ok e ∧ e.wrap p = .ok w ∧
        w.hostCalls.map some =
          ((Assembler.history d (.start nArgs) calls).filter fun entry =>
            entry.instruction.name = conv.instruction).map fun entry =>
              hostObject? p.hostConstants entry.instruction.signature.inputs entry.words := by
  have hbuilt := Draft.built_of_build hbuild
  have hd := hbuilt.wellFormed
  have htracks := (Assembler.tracks_start d nArgs).runAll calls
  rw [List.nil_append] at htracks
  generalize Assembler.runAll d (.start nArgs) calls = a at hp htracks
  generalize Assembler.history d (.start nArgs) calls = es at htracks ⊢
  unfold Assembler.finish at hp
  split at hp
  · rename_i hend
    cases hp
    have hwalk : d.walk a.code 0 = (es.map Assembler.Entry.visit, a.code.length) :=
      @Assembler.Tracks.walk_eq d a [] es 0 0 _ htracks hd htracks.chain
    refine ⟨hwalk, ?_, ?_⟩
    · intro before v after hsplit
      rw [hwalk] at hsplit
      exact htracks.isTerminal_iff hend hsplit
    · intro conv hconv V D hconverts
      obtain ⟨e, he, rfl, rfl, -⟩ := Engine.exists_ofDescriptor hbuilt D
      obtain ⟨⟨i, word⟩, hsite, hcall⟩ := Engine.hostCall_of_ofDescriptor he hconv
      obtain ⟨cs, hcs, -⟩ := Domain.mapM_ofHost hconverts
      refine ⟨e, _, he, Engine.wrap_eq_ok rfl hcs, ?_⟩
      exact Assembler.Tracks.hostCalls_eq htracks hd hbuilt.nodup_instructions hsite hcall rfl rfl
  · cases hp

/-- A program that calls one function twice and another one in between. The load of an argument that
is not there was refused, and no walk meets it. -/
theorem walk_undoes_assembly_core :
    ∃ d log calls p e w, (Catalog.core "rdf" .double).build = (some d, log) ∧
      calls = [.loadArg 0, .callHost ⟨0, "f", fun vs => .ok (vs.headD (.int 0))⟩ 1,
        .loadConst (.int 3), .loadArg 1, .callHost ⟨1, "g", fun _ => .ok (.int 1)⟩ 2,
        .callHost ⟨0, "f", fun vs => .ok (vs.headD (.int 0))⟩ 1, .instr "return" []] ∧
      (Assembler.runAll d (.start 1) calls).finish d = .ok p ∧
      (d.walk p.code 0).1.map (·.instruction.name)
        = ["load_arg", "host_call", "load_const", "host_call", "host_call", "return"] ∧
      (d.walk p.code 0).2 = p.code.length ∧
      Engine.ofDescriptor Domain.real d = .ok e ∧ e.wrap p = .ok w ∧
      w.hostCalls.map Host.Object.text = ["<function f>", "<function g>", "<function f>"] := by
  generalize hcalls : ([.loadArg 0, .callHost ⟨0, "f", fun vs => .ok (vs.headD (.int 0))⟩ 1,
    .loadConst (.int 3), .loadArg 1, .callHost ⟨1, "g", fun _ => .ok (.int 1)⟩ 2,
    .callHost ⟨0, "f", fun vs => .ok (vs.headD (.int 0))⟩ 1, .instr "return" []]
    : List Assembler.Call) = calls
  have hall : ((Catalog.core "rdf" .double).build.1.any fun d =>
      ((Assembler.runAll d (.start 1) calls).finish d).toOption.any fun p =>
        d.hostCall.any fun conv =>
          let es := Assembler.history d (.start 1) calls
          decide ((∀ v ∈ p.constants, Domain.real.Converts v) ∧
            es.map (·.instruction.name) = ["load_arg", "host_call", "load_const", "host_call",
              "host_call", "return"] ∧
            ((es.filter fun e => e.instruction.name = conv.instruction).map fun e =>
              (hostObject? p.hostConstants e.instruction.signature.inputs e.words).map
                Host.Object.text)
              = ["<function f>", "<function g>", "<function f>"].map some)) = true := by
    rw [← hcalls]
    decide +kernel
  generalize Catalog.core "rdf" .double = draft at hall ⊢
  simp only [Option.any_eq_true] at hall
  obtain ⟨d, hd, p, hp, conv, hconv, hfacts⟩ := hall
  obtain ⟨hconverts, hnames, htexts⟩ := of_decide_eq_true hfacts
  have hbuild : draft.build = (some d, draft.build.2) := Prod.ext hd rfl
  have hp := eq_ok_of_toOption hp
  obtain ⟨hwalk, -, hhost⟩ := walk_undoes_assembly draft d _ hbuild 1 calls p hp
  obtain ⟨e, w, he, hw, hobjects⟩ := hhost conv hconv Domain.real hconverts
  refine ⟨d, _, calls, p, e, w, hbuild, rfl, hp, ?_, by rw [hwalk], he, hw, ?_⟩
  · rw [hwalk, ← hnames, List.map_map]
    rfl
  · have hsome : (w.hostCalls.map Host.Object.text).map some
        = ["<function f>", "<function g>", "<function f>"].map some := by
      rw [← htexts, List.map_map]
      have hmap := congrArg (List.map (Option.map Host.Object.text)) hobjects
      simpa only [List.map_map, Function.comp_def, Option.map_some] using hmap
    exact List.map_injective_iff.mpr (fun _ _ => Option.some.inj) hsome

end StackForge
