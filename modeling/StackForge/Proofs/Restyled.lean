import Mathlib.Data.List.Forall2
import StackForge.Proofs.Relaid

/-!
Drafts that differ in layout only: blanks in signatures, blanks and comments between the words of
bodies, and parentheses that change nothing. Such drafts are built or refused together, and what they
build has the same bare form, so all their source texts are the same.
-/
namespace StackForge

namespace DraftBody

def isBlock : DraftBody → Bool
  | .expression _ => false
  | .block _ => true

/-- A text that is read without errors, whatever it is called. -/
def ReadsAs (t : DraftBody) (b : Body) : Prop :=
  ∃ origin, Draft.readBody ⟨origin, t.text⟩ t = .ok b

/-- Bodies that differ in layout only. -/
inductive Restyled : DraftBody → DraftBody → Prop where
  /-- They have the same words. -/
  | words {s t : DraftBody} (kind : s.isBlock = t.isBlock)
      (essence : Token.essence s.text = Token.essence t.text) : Restyled s t
  /-- They are read without errors and are the same apart from parentheses and places. -/
  | trees {s t : DraftBody} {x y : Body} (left : s.ReadsAs x) (right : t.ReadsAs y)
      (bare : x.bare = y.bare) : Restyled s t

theorem Restyled.symm {s t : DraftBody} (h : s.Restyled t) : t.Restyled s := by
  cases h with
  | words kind essence => exact .words kind.symm essence.symm
  | trees left right bare => exact .trees right left bare.symm

/-- Expressions that are read without errors and are rendered with the same words. -/
theorem Restyled.of_words {s t : String} (hs : (Expr.parse ⟨"", s⟩).2.hasErrors = false)
    (ht : (Expr.parse ⟨"", t⟩).2.hasErrors = false)
    (h : (Expr.parse ⟨"", s⟩).1.map Expr.words = (Expr.parse ⟨"", t⟩).1.map Expr.words) :
    (DraftBody.expression s).Restyled (.expression t) := by
  obtain ⟨e, he⟩ := Expr.exists_parse hs
  obtain ⟨f, hf⟩ := Expr.exists_parse ht
  have hwords : e.words = f.words := by simpa [he, hf] using h
  have hleft : (DraftBody.expression s).ReadsAs (.expression e) :=
    ⟨"", Draft.readBody_expression_iff.mpr ⟨e, he, hs, rfl⟩⟩
  have hright : (DraftBody.expression t).ReadsAs (.expression f) :=
    ⟨"", Draft.readBody_expression_iff.mpr ⟨f, hf, ht, rfl⟩⟩
  exact .trees hleft hright (congrArg Body.expression (Expr.bare_eq_of_words hwords))

end DraftBody

namespace Draft

/-- Bodies with the same words are read without errors together, with the same bare form. -/
theorem readBody_of_essence {s t : DraftBody} {origin : String} {x : Body}
    (hkind : s.isBlock = t.isBlock) (h : Token.essence s.text = Token.essence t.text)
    (hs : readBody ⟨origin, s.text⟩ s = .ok x) (origin' : String) :
    ∃ y, readBody ⟨origin', t.text⟩ t = .ok y ∧ y.bare = x.bare := by
  match s, t, hkind with
  | .expression s, .expression t, _ =>
    obtain ⟨e, hparse, hquiet, rfl⟩ := readBody_expression_iff.mp hs
    obtain ⟨f, hparse', hquiet', hbare⟩ :=
      @Expr.parse_of_essence ⟨origin, s⟩ ⟨origin', t⟩ h e hparse hquiet
    exact ⟨.expression f, readBody_expression_iff.mpr ⟨f, hparse', hquiet', rfl⟩,
      congrArg Body.expression hbare⟩
  | .block s, .block t, _ =>
    obtain ⟨hquiet, rfl⟩ := readBody_block_iff.mp hs
    obtain ⟨hquiet', hbare⟩ := @Block.parse_of_essence ⟨origin, s⟩ ⟨origin', t⟩ h hquiet
    exact ⟨_, readBody_block_iff.mpr ⟨hquiet', rfl⟩, by
      simp only [Body.bare]
      exact congrArg (fun ss => Body.block ⟨ss, Span.point 0 0⟩) hbare⟩

theorem readBody_of_restyled {s t : DraftBody} (h : s.Restyled t) {origin : String} {x : Body}
    (hs : readBody ⟨origin, s.text⟩ s = .ok x) (origin' : String) :
    ∃ y, readBody ⟨origin', t.text⟩ t = .ok y ∧ y.bare = x.bare := by
  cases h with
  | words kind essence => exact readBody_of_essence kind essence hs origin'
  | @trees x' y' left right hbare =>
    -- the text of each body is read alike under any name
    obtain ⟨o, hx'⟩ := left
    obtain ⟨o', hy'⟩ := right
    obtain ⟨y, hy, hyx⟩ := readBody_of_essence rfl rfl hs o
    obtain rfl : y = x' := Except.ok.inj (hy.symm.trans hx')
    obtain ⟨z, hz, hzy⟩ := readBody_of_essence rfl rfl hy' origin'
    exact ⟨z, hz, hzy.trans (hbare.symm.trans hyx)⟩

end Draft

/-- Instructions that differ in layout only. -/
structure DraftInstruction.Restyled (i j : DraftInstruction) : Prop where
  name : i.name = j.name
  usesErrorHandler : i.usesErrorHandler = j.usesErrorHandler
  /-- The signatures are the same, blanks apart. -/
  signature : i.signature.toList.filter (fun c => !Text.isBlank c)
    = j.signature.toList.filter fun c => !Text.isBlank c
  body : i.body.Restyled j.body

theorem DraftInstruction.Restyled.symm {i j : DraftInstruction} (h : i.Restyled j) :
    j.Restyled i :=
  ⟨h.name.symm, h.usesErrorHandler.symm, h.signature.symm, h.body.symm⟩

/-- Drafts that differ in the layout of their instructions only. -/
structure Draft.Restyled (d e : Draft) : Prop where
  rest : e = { d with instructions := e.instructions }
  instructions : List.Forall₂ DraftInstruction.Restyled d.instructions e.instructions

namespace Draft

theorem Restyled.symm {d e : Draft} (h : d.Restyled e) : e.Restyled d := by
  obtain ⟨hrest, hall⟩ := h
  refine ⟨?_, List.Forall₂.flip (hall.imp fun _ _ h => h.symm)⟩
  rw [hrest]

variable {ctx : Check.Context} {letters : Letters} {machine : String}

/-- An instruction in another layout is accepted as well, with the same bare form. -/
theorem Accepted.restyled {index : Nat} {a b : DraftInstruction} {i : Instruction}
    (hi : Accepted ctx letters machine index a i) (h : a.Restyled b) :
    ∃ j, Accepted ctx letters machine index b j ∧ j.bare = i.bare := by
  obtain ⟨sig, hsig, hsigBare⟩ : ∃ sig, Signature.read letters (sources machine b).1 = .ok sig ∧
      sig.bare = i.signature.bare := by
    rcases @Signature.read_alike letters (sources machine a).1 (sources machine b).1 h.signature with
      ⟨e, e', he, he'⟩ | ⟨x, y, hx, hy, hbare⟩
    · rw [hi.signature] at he
      cases he
    · rw [hi.signature] at hx
      cases hx
      exact ⟨y, hy, hbare.symm⟩
  obtain ⟨body, hbody, hbodyBare⟩ : ∃ body, readBody (sources machine b).2 b.body = .ok body ∧
      body.bare = i.body.bare := readBody_of_restyled h.body hi.body _
  have hbare : (instructionOf b index sig body).bare = i.bare := by
    rw [hi.instruction]
    simp only [Instruction.bare, instructionOf, hsigBare, hbodyBare, h.name, h.usesErrorHandler]
  refine ⟨instructionOf b index sig body, ⟨hi.inRange, hsig, hbody, rfl, ?_⟩, hbare⟩
  exact (Check.harmless_instruction_congr hbare).mpr hi.harmless

theorem exists_accepted {as bs : List DraftInstruction}
    (h : List.Forall₂ DraftInstruction.Restyled as bs) {index : Nat} {is : List Instruction}
    (hlen : is.length = as.length)
    (his : ∀ k i, is[k]? = some i →
      ∃ a, as[k]? = some a ∧ Accepted ctx letters machine (index + k) a i) :
    ∃ js : List Instruction, js.length = bs.length ∧
      js.map Instruction.bare = is.map Instruction.bare ∧
      ∀ k j, js[k]? = some j →
        ∃ b, bs[k]? = some b ∧ Accepted ctx letters machine (index + k) b j := by
  induction h generalizing index is with
  | nil =>
    obtain rfl := List.length_eq_zero_iff.mp hlen
    exact ⟨[], rfl, rfl, by simp⟩
  | @cons a b as bs hab _ ih =>
    cases is with
    | nil => cases hlen
    | cons i is =>
      obtain ⟨_, ha, hi⟩ := his 0 i rfl
      cases ha
      obtain ⟨j, hj, hbare⟩ := hi.restyled hab
      have hrest : ∀ k i, is[k]? = some i →
          ∃ a, as[k]? = some a ∧ Accepted ctx letters machine (index + 1 + k) a i := by
        intro k i hi
        simpa [Nat.add_assoc, Nat.add_comm 1 k] using his (k + 1) i hi
      obtain ⟨js, hjlen, hjbare, hjs⟩ := ih (Nat.succ.inj hlen) hrest
      refine ⟨j :: js, by simp [hjlen], by simp [hbare, hjbare], ?_⟩
      intro k j' hj'
      cases k with
      | zero =>
        cases hj'
        exact ⟨b, rfl, hj⟩
      | succ k => simpa [Nat.add_assoc, Nat.add_comm 1 k] using hjs k j' hj'

/-- A draft in another layout builds as well, with the same bare form. -/
theorem Built.restyled {d e : Draft} {x : Descriptor} (hx : d.Built x) (h : d.Restyled e) :
    ∃ y, e.Built y ∧ y.bare = x.bare := by
  obtain ⟨hrest, hall⟩ := h
  generalize e.instructions = bs at hrest hall
  subst hrest
  obtain ⟨js, hlen, hbare, hjs⟩ := @exists_accepted d.context d.letters d.name _ _ hall 0 _ hx.length
    (by simpa using hx.accepted)
  simp only [Nat.zero_add] at hjs
  have hnames : bs.map (·.name) = d.instructions.map (·.name) := by
    have hsame : List.Forall₂ Eq (d.instructions.map (·.name)) (bs.map (·.name)) :=
      List.forall₂_map_left_iff.mpr
        (List.forall₂_map_right_iff.mpr (hall.imp fun _ _ h => h.name))
    rw [List.forall₂_eq_eq_eq] at hsame
    exact hsame.symm
  refine ⟨descriptorOf { d with instructions := bs } d.letters js,
    ⟨rfl, hx.letters, hx.name, hx.chunks, hx.helpers, hlen, hjs, ?_, ?_, ?_⟩, ?_⟩
  · change CheckFault.Tolerable (Check.instructionSet (bs.map (·.name)) js)
    rw [hnames, ← Check.instructionSet_bare, hbare, Check.instructionSet_bare]
    exact hx.instructionSet
  · refine (Check.tolerable_congr ?_).mpr hx.power
    rw [← Check.gravities_power, ← Check.gravities_power _ _ x.instructions, ← hbare]
    rfl
  · refine (Check.tolerable_congr ?_).mpr hx.hostCall
    rw [← Check.gravities_hostCall, ← Check.gravities_hostCall _ x.instructions, ← hbare]
    rfl
  · conv_rhs => rw [hx.descriptor]
    simp only [Descriptor.bare, descriptorOf, hbare]

end Draft

/-- Drafts that differ in layout only are built or refused together. If they are built, the source
texts are the same under all conventions. -/
theorem restyled_drafts_emit_alike {d e : Draft} (h : d.Restyled e) :
    (d.build.1.isSome ↔ e.build.1.isSome) ∧
    ∀ x y log log' c, d.build = (some x, log) → e.build = (some y, log') →
      Emission.ofDescriptor x c = Emission.ofDescriptor y c := by
  have hbuild : ∀ {d e : Draft}, d.Restyled e → ∀ x log, d.build = (some x, log) →
      ∃ y log', e.build = (some y, log') ∧ y.bare = x.bare := by
    intro d e h x log hx
    obtain ⟨y, hy, hbare⟩ := (Draft.built_of_build hx).restyled h
    obtain ⟨log', hlog'⟩ := Draft.build_of_built hy
    exact ⟨y, log', hlog', hbare⟩
  have hsome : ∀ {d e : Draft}, d.Restyled e → d.build.1.isSome → e.build.1.isSome := by
    intro d e h hd
    obtain ⟨x, hx⟩ := Option.isSome_iff_exists.mp hd
    obtain ⟨y, log', hy, -⟩ := hbuild h x d.build.2 (Prod.ext hx rfl)
    rw [hy]
    rfl
  refine ⟨⟨hsome h, hsome h.symm⟩, ?_⟩
  intro x y log log' c hx hy
  obtain ⟨z, log'', hz, hbare⟩ := hbuild h x log hx
  rw [hy] at hz
  obtain rfl : y = z := Option.some.inj (congrArg Prod.fst hz)
  rw [← Emission.ofDescriptor_bare x c, ← hbare, Emission.ofDescriptor_bare]

/-- Blanks in a signature, parentheses in an expression, and a comment and line ends in a block. -/
theorem restyled_drafts_emit_alike_sample :
    ∃ d e : Draft,
      d = ((Draft.stackMachine "rdf" .double).add (.expression "mad" "SSS->S" "i0 * i1 + i2")
        |>.add (.block "return" "S" "let x = i0; return x;")) ∧
      e = ((Draft.stackMachine "rdf" .double).add
          (.expression "mad" " S S\tS -> S" "(((i0)) * i1) + (i2)")
        |>.add (.block "return" "S" "let x=i0 // kept\n;\nreturn x ;")) ∧
      ∃ x y log log', d.build = (some x, log) ∧ e.build = (some y, log') ∧
        ∀ c, Emission.ofDescriptor x c = Emission.ofDescriptor y c := by
  generalize hd : ((Draft.stackMachine "rdf" .double).add
    (.expression "mad" "SSS->S" "i0 * i1 + i2")
      |>.add (.block "return" "S" "let x = i0; return x;")) = d
  generalize he : ((Draft.stackMachine "rdf" .double).add
    (.expression "mad" " S S\tS -> S" "(((i0)) * i1) + (i2)")
      |>.add (.block "return" "S" "let x=i0 // kept\n;\nreturn x ;")) = e
  have hrestyled : d.Restyled e := by
    rw [← hd, ← he]
    refine ⟨rfl, .cons ⟨rfl, rfl, by decide +kernel, ?_⟩ (.cons ⟨rfl, rfl, rfl, ?_⟩ .nil)⟩
    · exact .of_words (by decide +kernel) (by decide +kernel) (by decide +kernel)
    · exact .words rfl (by decide +kernel)
  have hsome : d.build.1.isSome = true := by
    rw [← hd]
    decide +kernel
  obtain ⟨hiff, hemit⟩ := restyled_drafts_emit_alike hrestyled
  obtain ⟨x, hx⟩ := Option.isSome_iff_exists.mp hsome
  obtain ⟨y, hy⟩ := Option.isSome_iff_exists.mp (hiff.mp hsome)
  have hdx : d.build = (some x, d.build.2) := Prod.ext hx rfl
  have hey : e.build = (some y, e.build.2) := Prod.ext hy rfl
  exact ⟨d, e, rfl, rfl, x, y, _, _, hdx, hey, fun c => hemit x y _ _ c hdx hey⟩

end StackForge
