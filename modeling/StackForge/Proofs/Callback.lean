import StackForge.Catalog
import StackForge.Proofs.Assembly
import StackForge.Proofs.Checking

/-!
The shape of the instruction that calls the host. The assembler gives it two immediates, the place
of a function and a count, so a call pops its arguments and pushes its result exactly if the
signature is one host object, then counted stack elements, to one output. The check of a descriptor
asks for less: the host object comes first and some input is counted. Other inputs and any number of
outputs pass, and the assembler then refuses calls or counts the stack differently.
-/
namespace StackForge

/-- The shape `P[D]S@D->S`: a host object that a word selects, then counted stack elements, to one
output. -/
def Signature.isCallback (sig : Signature) : Bool :=
  match sig.inputs, sig.outputs with
  | [p, q], [o] =>
    (p.role = .hostConstants && p.isIndexed) && (q.role = .stack && q.isVariadic) && o.isFixed
  | _, _ => false

/-- Inputs that take no immediate are single stack elements. -/
theorem Param.Readable.isFixed {p : Param} (h : p.Readable) (hzero : p.immediates = 0) :
    p.isFixed = true := by
  cases hkind : p.kind with
  | single =>
    have hrole : p.role = .stack := by simpa [Readable, hkind] using h
    simp [Param.isFixed, hrole, hkind]
  | indexed | variadic | immediate => simp [immediates, hkind] at hzero

/-- Inputs around one that is counted, behind one that selects a host object. -/
structure Signature.Parts (sig : Signature) (object count : Param) (left right : List Param) :
    Prop where
  inputs : sig.inputs = object :: (left ++ count :: right)
  object : object.role = .hostConstants ∧ object.isIndexed = true
  count : count.role = .stack ∧ count.isVariadic = true

namespace Signature

variable {sig : Signature} {object count : Param} {left right : List Param}

/-- The check of the shape leaves the inputs around the counted one open. -/
theorem exists_parts (h : Check.isHostShape sig = true) :
    ∃ object count left right, sig.Parts object count left right := by
  simp only [Check.isHostShape, Bool.and_eq_true, List.any_eq_true] at h
  obtain ⟨hfirst, q, hq, hstack⟩ := h
  obtain ⟨hrole, hvariadic⟩ := hstack
  have hrole : q.role = .stack := of_decide_eq_true hrole
  cases hinputs : sig.inputs with
  | nil => simp [hinputs] at hfirst
  | cons p rest =>
    have hp : p.role = .hostConstants ∧ p.isIndexed = true := by simpa [hinputs] using hfirst
    rw [hinputs] at hq
    rcases List.mem_cons.mp hq with rfl | hq
    · rw [hp.1] at hrole
      cases hrole
    · obtain ⟨left, right, rfl⟩ := List.append_of_mem hq
      exact ⟨p, q, left, right, hinputs, hp, hrole, hvariadic⟩

namespace Parts

theorem immediatesOf_eq (h : sig.Parts object count left right) :
    Param.immediatesOf sig.inputs
      = 2 + Param.immediatesOf left + Param.immediatesOf right := by
  rw [h.inputs, Param.immediatesOf_cons, Param.immediatesOf_append, Param.immediatesOf_cons,
    Param.immediates_of_isIndexed h.object.2, Param.immediates_of_isVariadic h.count.2]
  omega

end Parts

/-- Fixed inputs take one element each, whatever the immediates are. -/
theorem popsOf_fixed {ps : List Param} (hps : ∀ p ∈ ps, p.isFixed = true) (rest : List Param)
    (words : List Int32) :
    popsOf (ps ++ rest) words = (popsOf rest words).map (ps.length + ·) := by
  induction ps with
  | nil => simp
  | cons p ps ih =>
    obtain ⟨hp, hps⟩ := List.forall_mem_cons.mp hps
    simp only [List.cons_append, popsOf, (Param.isFixed_iff.mp hp).2,
      Param.immediates_of_isFixed hp, List.drop_zero, ih hps, hp, if_true, Option.map_map,
      List.length_cons]
    congr 1
    funext n
    simp only [Function.comp_apply]
    omega

end Signature

/-- Inputs without immediates are all fixed. -/
theorem Param.isFixed_of_immediatesOf {ps : List Param} (hps : ∀ p ∈ ps, p.Readable)
    (hzero : immediatesOf ps = 0) : ∀ p ∈ ps, p.isFixed = true := by
  induction ps with
  | nil => simp
  | cons p rest ih =>
    rw [immediatesOf_cons] at hzero
    obtain ⟨hp, hrest⟩ := List.forall_mem_cons.mp hps
    exact List.forall_mem_cons.mpr ⟨hp.isFixed (by omega), ih hrest (by omega)⟩

namespace Signature.Parts

variable {sig : Signature} {object count : Param} {left right : List Param}

/-- With no immediates but those two, the other inputs are fixed. -/
theorem fixed (h : sig.Parts object count left right) (hread : ∀ p ∈ sig.inputs, p.Readable)
    (htwo : Param.immediatesOf sig.inputs = 2) :
    (∀ p ∈ left, p.isFixed = true) ∧ ∀ p ∈ right, p.isFixed = true := by
  rw [h.immediatesOf_eq] at htwo
  rw [h.inputs] at hread
  refine ⟨Param.isFixed_of_immediatesOf ?_ (by omega), Param.isFixed_of_immediatesOf ?_ (by omega)⟩
  · intro p hp
    exact hread p (by simp [hp])
  · intro p hp
    exact hread p (by simp [hp])

theorem fixedPops_eq (h : sig.Parts object count left right)
    (hleft : ∀ p ∈ left, p.isFixed = true) (hright : ∀ p ∈ right, p.isFixed = true) :
    sig.fixedPops = left.length + right.length := by
  have hobject : object.isFixed = false := by simp [Param.isFixed, h.object.1]
  have hcount : count.isFixed = false := by
    obtain ⟨chunk, hkind⟩ := Param.isVariadic_iff.mp h.count.2
    simp [Param.isFixed, hkind]
  rw [fixedPops, h.inputs, List.filter_cons_of_neg (by simp [hobject]), List.filter_append,
    List.filter_cons_of_neg (by simp [hcount]), List.filter_eq_self.mpr hleft,
    List.filter_eq_self.mpr hright, List.length_append]

/-- The elements that a call pops: its arguments and the fixed inputs. -/
theorem popsWith_eq (h : sig.Parts object count left right)
    (hleft : ∀ p ∈ left, p.isFixed = true) (hright : ∀ p ∈ right, p.isFixed = true)
    (slot : Int32) {w : Int32} {n : Nat} (hw : w.toInt = n) :
    sig.popsWith [slot, w] = some (n + sig.fixedPops) := by
  have hcount : popsOf (count :: right) [w] = some (n + right.length) := by
    obtain ⟨chunk, hkind⟩ := Param.isVariadic_iff.mp h.count.2
    have hrest := popsOf_fixed hright [] []
    rw [List.append_nil] at hrest
    simp [popsOf, hkind, not_neg_of_toInt hw, hw, hrest]
  have hobject : popsOf (object :: (left ++ count :: right)) [slot, w]
      = popsOf (left ++ count :: right) [w] := by
    obtain ⟨index, hkind⟩ := Param.isIndexed_iff.mp h.object.2
    simp [popsOf, hkind, Param.immediates, Param.isFixed]
  rw [popsWith, h.inputs, hobject, popsOf_fixed hleft, hcount, Option.map_some,
    h.fixedPops_eq hleft hright]
  congr 1
  omega

/-- The documented shape is what is left without fixed inputs and with one output. -/
theorem isCallback_iff (h : sig.Parts object count left right)
    (hread : ∀ p ∈ sig.inputs, p.Readable) (houtputs : ∀ p ∈ sig.outputs, p.isFixed = true) :
    sig.isCallback = true ↔
      Param.immediatesOf sig.inputs = 2 ∧ sig.fixedPops = 0 ∧ sig.outputs.length = 1 := by
  constructor
  · intro hcallback
    have hinputs := h.inputs
    unfold isCallback at hcallback
    split at hcallback
    · rename_i p q o hpq ho
      -- two inputs are the object and the count, so nothing is around them
      rw [hpq] at hinputs
      obtain ⟨rfl, hrest⟩ := List.cons.inj hinputs
      have hlength := congrArg List.length hrest
      simp only [List.length_cons, List.length_nil, List.length_append] at hlength
      obtain rfl : left = [] := List.length_eq_zero_iff.mp (by omega)
      obtain rfl : right = [] := List.length_eq_zero_iff.mp (by omega)
      refine ⟨by rw [h.immediatesOf_eq]; rfl, ?_, by rw [ho]; rfl⟩
      rw [h.fixedPops_eq (by simp) (by simp)]
      rfl
    · cases hcallback
  · rintro ⟨htwo, hfixed, hone⟩
    obtain ⟨hleft, hright⟩ := h.fixed hread htwo
    rw [h.fixedPops_eq hleft hright] at hfixed
    obtain rfl : left = [] := List.length_eq_zero_iff.mp (by omega)
    obtain rfl : right = [] := List.length_eq_zero_iff.mp (by omega)
    obtain ⟨o, ho⟩ := List.length_eq_one_iff.mp hone
    have hinputs : sig.inputs = [object, count] := h.inputs
    simp [isCallback, hinputs, ho, h.object, h.count, houtputs o (by simp [ho])]

end Signature.Parts

namespace Assembler

variable {d : Descriptor} {a : Assembler}

/-- A host object has its place in the pool. -/
theorem internHost_lt (a : Assembler) (o : Host.Object) :
    (a.internHost o).1 < (a.internHost o).2.hostConstants.length := by
  unfold internHost
  split
  · rename_i slot hslot
    exact (List.findIdx?_eq_some_iff_getElem.mp hslot).1
  · simp

theorem internHost_depth (a : Assembler) (o : Host.Object) :
    (a.internHost o).2.depth = a.depth ∧ (a.internHost o).2.terminated = a.terminated := by
  unfold internHost
  split
  · exact ⟨rfl, rfl⟩
  · exact ⟨rfl, rfl⟩

theorem immediatesFault?_fixed {i : Instruction} {ps : List Param}
    (hps : ∀ p ∈ ps, p.isFixed = true) (rest : List Param) (words : List Int32) :
    immediatesFault? d a i (ps ++ rest) words = immediatesFault? d a i rest words := by
  induction ps with
  | nil => rfl
  | cons p ps ih =>
    obtain ⟨hp, hps⟩ := List.forall_mem_cons.mp hps
    simp only [List.cons_append, immediatesFault?, Param.immediates_of_isFixed hp, if_true, ih hps]

/-- The place of an object and a count are right as the two immediates. -/
theorem immediatesFault?_parts {i : Instruction} {object count : Param} {left right : List Param}
    (h : i.signature.Parts object count left right) (hleft : ∀ p ∈ left, p.isFixed = true)
    (hright : ∀ p ∈ right, p.isFixed = true) {slot w : Int32} {k n : Nat} (hslot : slot.toInt = k)
    (hk : k < a.hostConstants.length) (hw : w.toInt = n) :
    immediatesFault? d a i i.signature.inputs [slot, w] = none := by
  obtain ⟨index, hobject⟩ := Param.isIndexed_iff.mp h.object.2
  obtain ⟨chunk, hcount⟩ := Param.isVariadic_iff.mp h.count.2
  have hplace : immediateFault? d a i object slot = none := by
    simp [immediateFault?, hobject, h.object.1, poolSize?, not_neg_of_toInt hslot, hslot, hk]
  have hnumber : immediateFault? d a i count w = none := by
    simp [immediateFault?, hcount, not_neg_of_toInt hw]
  have hrest : immediatesFault? d a i (count :: right) [w] = none := by
    have hnone := immediatesFault?_fixed (d := d) (a := a) (i := i) hright [] []
    rw [List.append_nil] at hnone
    simp [immediatesFault?, Param.immediates_of_isVariadic h.count.2, hnumber, hnone]
  rw [h.inputs, immediatesFault?.eq_def]
  simp only [Param.immediates_of_isIndexed h.object.2, Nat.one_ne_zero, if_false, hplace,
    immediatesFault?_fixed hleft, hrest]

theorem word_of_le (instruction : String) {n : Nat} (h : n ≤ wordMax) :
    word instruction n = .ok (Int32.ofNat n) ∧ (Int32.ofNat n).toInt = n := by
  refine ⟨if_pos h, Int32.toInt_ofNat_of_lt ?_⟩
  unfold wordMax at h
  omega

/-- Before the end of the program, an instruction of the checked shape is added with a place and a
count exactly if it has no other immediates and the stack has the counted and the fixed inputs.
These are popped, and the outputs pushed. -/
theorem instr_accepted_iff {i : Instruction} (hi : i.WellFormed) {name : String}
    (hfind : d.instruction? name = some i) (hshape : Check.isHostShape i.signature = true)
    {slot w : Int32} {k n : Nat} (hslot : slot.toInt = k) (hk : k < a.hostConstants.length)
    (hw : w.toInt = n) :
    ((a.instr d name [slot, w]).2 = none ↔ a.terminated = false ∧
      i.signature.immediates = 2 ∧ n + i.signature.fixedPops ≤ a.depth) ∧
    ((a.instr d name [slot, w]).2 = none → (a.instr d name [slot, w]).1.depth
      = a.depth - (n + i.signature.fixedPops) + i.signature.outputs.length) := by
  by_cases hlive : a.terminated = true
  · simp [instr, attempt, emit, hfind, hlive]
  obtain ⟨object, count, left, right, hparts⟩ := Signature.exists_parts hshape
  by_cases htwo : i.signature.immediates = 2
  · have hread : Param.immediatesOf i.signature.inputs = 2 := by rw [← hi.immediates_eq, htwo]
    obtain ⟨hleft, hright⟩ := hparts.fixed hi.inputs hread
    have hpops := hparts.popsWith_eq hleft hright slot hw
    have himm := immediatesFault?_parts (d := d) hparts hleft hright hslot hk hw
    by_cases hdeep : a.depth < n + i.signature.fixedPops
    · have hemit : emit d name [slot, w] a
          = .error (.stackUnderflow name (n + i.signature.fixedPops) a.depth) := by
        simp [emit, hfind, hlive, htwo, himm, hpops, hdeep]
      simp [instr, attempt, hemit, Nat.not_le.mpr hdeep]
    · have hemit : emit d name [slot, w] a = .ok { a with
          code := a.code ++ i.opcode :: [slot, w]
          depth := a.depth - (n + i.signature.fixedPops) + i.signature.pushes
          maxDepth := max a.maxDepth (a.depth - (n + i.signature.fixedPops) + i.signature.pushes)
          terminated := i.isTerminal } := by
        simp [emit, hfind, hlive, htwo, himm, hpops, hdeep]
      simp [instr, attempt, hemit, hlive, htwo, Nat.le_of_not_lt hdeep, hi.pushes_eq]
  · have hne : 2 ≠ i.signature.immediates := fun h => htwo h.symm
    have hemit : emit d name [slot, w] a
        = .error (.immediateCount name i.signature.immediates 2) := by
      simp [emit, hfind, hlive, hne]
    simp [instr, attempt, hemit, htwo]

/-- A call of the host adds its instruction once the function has a place, if place and count fit
into words. -/
theorem callHost_eq {f : Host.Function} {n : Nat}
    (hslot : (a.internHost (.function f)).1 ≤ wordMax) (hn : n ≤ wordMax) :
    a.callHost d f n = (a.internHost (.function f)).2.instr d (hostInstruction d)
      [Int32.ofNat (a.internHost (.function f)).1, Int32.ofNat n] := by
  simp only [callHost, (word_of_le _ hslot).1, (word_of_le _ hn).1]
  rfl

/-- Otherwise the call is refused. -/
theorem fits_of_callHost {f : Host.Function} {n : Nat} (h : (a.callHost d f n).2 = none) :
    (a.internHost (.function f)).1 ≤ wordMax ∧ n ≤ wordMax := by
  constructor
  · by_contra hslot
    simp [callHost, attempt, word, hslot, bind, Except.bind] at h
  · by_contra hn
    by_cases hslot : (a.internHost (.function f)).1 ≤ wordMax
    · simp [callHost, attempt, word, hslot, hn, bind, Except.bind] at h
    · simp [callHost, attempt, word, hslot, bind, Except.bind] at h

/-- What it takes for a call of the host to be accepted, and the stack behind it. -/
theorem callHost_accepted_iff {i : Instruction} (hi : i.WellFormed)
    (hfind : d.instruction? (hostInstruction d) = some i)
    (hshape : Check.isHostShape i.signature = true) (f : Host.Function) (n : Nat) :
    ((a.callHost d f n).2 = none ↔
      (a.terminated = false ∧ (a.internHost (.function f)).1 ≤ wordMax ∧ n ≤ wordMax) ∧
        i.signature.immediates = 2 ∧ n + i.signature.fixedPops ≤ a.depth) ∧
    ((a.callHost d f n).2 = none → (a.callHost d f n).1.depth
      = a.depth - (n + i.signature.fixedPops) + i.signature.outputs.length) := by
  obtain ⟨hdepth, hterminated⟩ := internHost_depth a (.function f)
  by_cases hfits : (a.internHost (.function f)).1 ≤ wordMax ∧ n ≤ wordMax
  · rw [callHost_eq hfits.1 hfits.2, ← hdepth, ← hterminated]
    obtain ⟨haccepted, hbehind⟩ := instr_accepted_iff hi hfind hshape (word_of_le "" hfits.1).2
      (internHost_lt a (.function f)) (word_of_le "" hfits.2).2
    exact ⟨by simp [haccepted, hfits], hbehind⟩
  · have hrefused : (a.callHost d f n).2 ≠ none := fun h => hfits (fits_of_callHost h)
    refine ⟨⟨fun h => (hrefused h).elim, fun h => (hfits h.1.2).elim⟩, fun h => (hrefused h).elim⟩

end Assembler

open Assembler in
/-- What the check of a descriptor leaves open about the instruction that calls the host, and what
it takes for calls to work. The inputs are a host object, then counted stack elements with any
others around them. A call is accepted exactly if the two immediates of the assembler are all there
are and the stack has the fixed inputs as well. So calls pop their arguments and push one result,
whenever these are on the stack, exactly if the signature has the documented shape. -/
theorem host_calls_work_iff_callback (draft : Draft) (d : Descriptor) (log : Log)
    (hbuild : draft.build = (some d, log)) (conv : HostCall) (hconv : d.hostCall = some conv) :
    ∃ i, d.instruction? conv.instruction = some i ∧ i.usesErrorHandler = true ∧
      (∃ object count left right, i.signature.Parts object count left right) ∧
      (∀ (a : Assembler) (f : Host.Function) (n : Nat), ((a.callHost d f n).2 = none ↔
        (a.terminated = false ∧ (a.internHost (.function f)).1 ≤ wordMax ∧ n ≤ wordMax) ∧
          i.signature.immediates = 2 ∧ n + i.signature.fixedPops ≤ a.depth) ∧
        ((a.callHost d f n).2 = none → (a.callHost d f n).1.depth
          = a.depth - (n + i.signature.fixedPops) + i.signature.outputs.length)) ∧
      (i.signature.isCallback = true ↔ ∀ (a : Assembler) (f : Host.Function) (n : Nat),
        a.terminated = false → n ≤ a.depth → n ≤ wordMax →
        (a.internHost (.function f)).1 ≤ wordMax →
        (a.callHost d f n).2 = none ∧ (a.callHost d f n).1.depth = a.depth - n + 1) := by
  have hbuilt := Draft.built_of_build hbuild
  obtain ⟨i, hfind, -, hhandler, hshape⟩ := hbuilt.exists_hostCaller hconv
  have hi := hbuilt.wellFormed.instructions i (List.mem_of_find?_eq_some hfind)
  have hnamed : d.instruction? (hostInstruction d) = some i := by
    rw [hostInstruction, hconv]
    exact hfind
  have hcalls := fun (a : Assembler) f n => callHost_accepted_iff (a := a) hi hnamed hshape f n
  have hparts := Signature.exists_parts hshape
  refine ⟨i, hfind, hhandler, hparts, hcalls, ?_⟩
  obtain ⟨object, count, left, right, hparts⟩ := hparts
  rw [hparts.isCallback_iff hi.inputs hi.outputs, ← hi.immediates_eq]
  constructor
  · rintro ⟨htwo, hfixed, hone⟩ a f n hlive hdeep hn hslot
    obtain ⟨haccepted, hbehind⟩ := hcalls a f n
    have hnone := haccepted.mpr ⟨⟨hlive, hslot, hn⟩, htwo, by omega⟩
    refine ⟨hnone, ?_⟩
    rw [hbehind hnone]
    omega
  · -- a call without arguments on the empty stack shows the shape
    intro hwork
    obtain ⟨f⟩ : Nonempty Host.Function := ⟨⟨0, "", fun _ => .error ""⟩⟩
    obtain ⟨hnone, hdepth⟩ := hwork (.start 0) f 0 rfl (Nat.zero_le _) (Nat.zero_le _)
      (Nat.zero_le _)
    obtain ⟨haccepted, hbehind⟩ := hcalls (.start 0) f 0
    obtain ⟨-, htwo, hfixed⟩ := haccepted.mp hnone
    rw [hbehind hnone] at hdepth
    have hempty : (start 0).depth = 0 := rfl
    exact ⟨htwo, by omega, by omega⟩

/-- The shipped call of the host has the documented shape, so its calls work. With three elements on
the stack, a call with two arguments leaves the lowest one and puts its result on it. -/
theorem host_calls_work_core :
    ∃ d log i a, (Catalog.core "rdf" .double).build = (some d, log) ∧
      d.hostCall = some ⟨"host_call", Catalog.hostCallDoc⟩ ∧
      d.instruction? "host_call" = some i ∧ i.signature.isCallback = true ∧
      a = Assembler.runAll d (.start 1) [.loadArg 0, .loadArg 0, .loadArg 0] ∧
      a.terminated = false ∧ a.depth = 3 ∧
      ∀ f : Host.Function, (a.callHost d f 2).2 = none ∧ (a.callHost d f 2).1.depth = 2 := by
  have hall : ((Catalog.core "rdf" .double).build.1.any fun d =>
      (d.instruction? "host_call").any fun i =>
        let a := Assembler.runAll d (.start 1) [.loadArg 0, .loadArg 0, .loadArg 0]
        decide (d.hostCall = some ⟨"host_call", Catalog.hostCallDoc⟩ ∧
          i.signature.isCallback = true ∧ a.terminated = false ∧ a.depth = 3 ∧
          a.hostConstants.length = 0)) = true := by
    decide +kernel
  obtain ⟨d, log, hbuild, hcall⟩ := Draft.exists_of_build_any hall
  obtain ⟨i, hi, hcall⟩ := (Option.any_eq_true _ _).mp hcall
  obtain ⟨hconv, hcallback, hlive, hdepth, hpool⟩ := of_decide_eq_true hcall
  obtain ⟨i', hi', -, -, -, hwork⟩ := host_calls_work_iff_callback _ d log hbuild _ hconv
  obtain rfl : i = i' := Option.some.inj (hi.symm.trans hi')
  refine ⟨d, log, i, _, hbuild, hconv, hi, hcallback, rfl, hlive, hdepth, fun f => ?_⟩
  generalize Assembler.runAll d (.start 1) _ = a at hlive hdepth hpool ⊢
  have hslot : (a.internHost (.function f)).1 = 0 := by
    simp [Assembler.internHost, List.length_eq_zero_iff.mp hpool]
  obtain ⟨haccepted, hbehind⟩ :=
    hwork.mp hcallback a f 2 hlive (by omega) (by decide) (by rw [hslot]; decide)
  exact ⟨haccepted, by omega⟩

/-- A signature with one more stack element passes the check. With one element on the stack, a call
with one argument is refused. -/
theorem host_call_with_fixed_input_refused :
    ∃ d log i a, (Draft.stackMachine "t" .double
        |>.add (.block "load_arg" "A[D]->S" "o0 = i0;")
        |>.add (.block "return" "S" "return i0;")
        |>.add (DraftInstruction.block "call" "P[D]SS@D->S" "o0 = i1 + call_host(i0, i2)?;").mayFail
        |>.withHostCall "call" "").build = (some d, log) ∧
      d.hostCall = some ⟨"call", ""⟩ ∧ d.instruction? "call" = some i ∧
      i.signature.isCallback = false ∧ (Assembler.start 1).loadArg d 0 = (a, none) ∧
      a.terminated = false ∧ a.depth = 1 ∧
      (a.callHost d ⟨0, "id", fun _ => .ok (.int 0)⟩ 1).2 = some (.stackUnderflow "call" 2 1) := by
  have hall : ((Draft.stackMachine "t" .double
      |>.add (.block "load_arg" "A[D]->S" "o0 = i0;")
      |>.add (.block "return" "S" "return i0;")
      |>.add (DraftInstruction.block "call" "P[D]SS@D->S" "o0 = i1 + call_host(i0, i2)?;").mayFail
      |>.withHostCall "call" "").build.1.any fun d => (d.instruction? "call").any fun i =>
      let (a, fault) := (Assembler.start 1).loadArg d 0
      decide (d.hostCall = some ⟨"call", ""⟩ ∧ i.signature.isCallback = false ∧ fault = none ∧
        a.terminated = false ∧ a.depth = 1 ∧
        (a.callHost d ⟨0, "id", fun _ => .ok (.int 0)⟩ 1).2
          = some (.stackUnderflow "call" 2 1))) = true := by
    decide +kernel
  obtain ⟨d, log, hbuild, hcall⟩ := Draft.exists_of_build_any hall
  obtain ⟨i, hi, hcall⟩ := (Option.any_eq_true _ _).mp hcall
  obtain ⟨hconv, hshape, hload, hlive, hdepth, hrefused⟩ := of_decide_eq_true hcall
  exact ⟨d, log, i, _, hbuild, hconv, hi, hshape, Prod.ext rfl hload, hlive,
    hdepth, hrefused⟩

end StackForge
