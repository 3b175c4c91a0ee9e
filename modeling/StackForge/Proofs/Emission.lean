import StackForge.Emission
import StackForge.Proofs.Arms
import StackForge.Proofs.Body

/-!
Source texts of checked descriptors. Everything that the generator looks up in a descriptor that was
built is there, so it never has a fault to report. What can still stop it is authored code whose
lines have no common margin; every other descriptor gets all of its source texts.
-/
namespace StackForge

/-- Authored code that can be moved to the left margin, or is left out because it is blank. -/
def Text.Even (code : String) : Prop :=
  allBlank code.toList = true ∨ ∃ lines, dedent? code.toList = some lines

instance (code : String) : Decidable (Text.Even code) :=
  decidable_of_iff
      (Text.allBlank code.toList = true ∨ (Text.dedent? code.toList).isSome = true) <| by
    simp only [Text.Even, Option.isSome_iff_exists]

/-- All authored code of a descriptor can be moved to the left margin. -/
def Descriptor.EvenMargins (d : Descriptor) : Prop :=
  ∀ a, Text.Even (d.headers.get a) ∧ Text.Even (d.footers.get a)

instance (d : Descriptor) : Decidable d.EvenMargins :=
  decidable_of_iff
      (∀ a ∈ Artifact.all, Text.Even (d.headers.get a) ∧ Text.Even (d.footers.get a)) <| by
    refine forall_congr' fun a => ⟨fun h => h ?_, fun h _ => h⟩
    cases a <;> decide

namespace Emission

/-- A part of the generator that goes through exactly if a property holds. Otherwise a margin is
uneven. -/
def Needs {α : Type} (P : Prop) (x : Except EmissionFault α) : Prop :=
  P ∧ (∃ a, x = .ok a) ∨ ¬P ∧ x = .error .unevenMargin

namespace Needs

variable {α β : Type} {P Q : Prop} {x : Except EmissionFault α}

theorem of_ok {a : α} (h : x = .ok a) : Needs True x := .inl ⟨trivial, a, h⟩

theorem map (h : Needs P x) (f : α → β) : Needs P (x.map f) := by
  rcases h with ⟨hP, a, rfl⟩ | ⟨hP, rfl⟩
  · exact .inl ⟨hP, f a, rfl⟩
  · exact .inr ⟨hP, rfl⟩

theorem bind (h : Needs P x) {f : α → Except EmissionFault β} (hf : ∀ a, Needs Q (f a)) :
    Needs (P ∧ Q) (x >>= f) := by
  rcases h with ⟨hP, a, rfl⟩ | ⟨hP, rfl⟩
  · rcases hf a with ⟨hQ, b, hb⟩ | ⟨hQ, hb⟩
    · exact .inl ⟨⟨hP, hQ⟩, b, hb⟩
    · exact .inr ⟨fun h => hQ h.2, hb⟩
  · exact .inr ⟨fun h => hP h.1, rfl⟩

theorem congr (h : Needs P x) (hPQ : P ↔ Q) : Needs Q x := by
  rcases h with ⟨hP, hx⟩ | ⟨hP, hx⟩
  · exact .inl ⟨hPQ.mp hP, hx⟩
  · exact .inr ⟨fun hQ => hP (hPQ.mpr hQ), hx⟩

theorem ok_iff (h : Needs P x) : (∃ a, x = .ok a) ↔ P := by
  rcases h with ⟨hP, hx⟩ | ⟨hP, rfl⟩
  · exact ⟨fun _ => hP, fun _ => hx⟩
  · exact ⟨nofun, fun h => absurd h hP⟩

theorem error_iff (h : Needs P x) {fault : EmissionFault} :
    x = .error fault ↔ fault = .unevenMargin ∧ ¬P := by
  rcases h with ⟨hP, a, rfl⟩ | ⟨hP, rfl⟩
  · exact ⟨nofun, fun h => absurd hP h.2⟩
  · exact ⟨fun h => by cases h; exact ⟨rfl, hP⟩, fun h => by rw [h.1]⟩

end Needs

theorem needs_authored (code : String) : Needs (Text.Even code) (authored code) := by
  unfold authored Text.Even
  split
  · rename_i hblank
    exact .inl ⟨.inl hblank, [], rfl⟩
  · rename_i hblank
    unfold Layout.verbatim?
    cases hlines : Text.dedent? code.toList with
    | none => exact .inr ⟨by simp [hblank], rfl⟩
    | some lines => exact .inl ⟨.inr ⟨lines, rfl⟩, _, rfl⟩

variable {draft : Draft} {d : Descriptor}

theorem needs_header (d : Descriptor) (a : Artifact) :
    Needs (Text.Even (d.headers.get a)) (header d a) := (needs_authored _).map _

theorem needs_footer (d : Descriptor) (a : Artifact) :
    Needs (Text.Even (d.footers.get a)) (footer d a) := (needs_authored _).map _

/-- The loop finds the chunk of the code, and an arm for every instruction. -/
theorem needs_runItems (h : draft.Built d) (c : Conventions) : Needs True (runItems d c) := by
  have hwf := h.wellFormed
  obtain ⟨code, hcode⟩ := hwf.roles .code
  obtain ⟨arms, harms, -⟩ : ∃ arms, d.arms = .ok arms ∧ _ :=
    mapM_ok fun _ hi => Engine.exists_arm (V := Unit) hwf hi
  unfold runItems
  rw [hcode, harms]
  exact .of_ok rfl

/-- The wrapper finds the instruction that calls the host, if there has to be one. -/
theorem needs_wrapperItems (h : draft.Built d) (c : Conventions) :
    Needs True (wrapperItems d c) := by
  obtain ⟨calls, hcalls⟩ : ∃ calls, hostCallsItems d c = .ok calls := by
    unfold hostCallsItems
    cases hconv : d.hostCall with
    | none => exact ⟨_, rfl⟩
    | some conv =>
      obtain ⟨site, hsite⟩ := Engine.exists_site h hconv
      simp only [hsite]
      exact ⟨_, rfl⟩
  unfold wrapperItems
  rw [hcalls]
  exact .of_ok rfl

/-- Each source text needs the code that was authored for it, and nothing else. -/
theorem needs_items (h : draft.Built d) (c : Conventions) (a : Artifact) :
    Needs (Text.Even (d.headers.get a) ∧ Text.Even (d.footers.get a)) (items d c a) := by
  have hheader := needs_header d a
  have hfooter := needs_footer d a
  cases a with
  | engine =>
    have hrun := needs_runItems h c
    refine (hheader.bind fun front => hrun.bind fun run => hfooter.bind fun back =>
      Needs.of_ok rfl).congr ?_
    simp
  | decl =>
    refine (hheader.bind fun front => hfooter.bind fun back => Needs.of_ok rfl).congr ?_
    simp
  | glue =>
    have hwrapper := needs_wrapperItems h c
    refine (hheader.bind fun front => hwrapper.bind fun wrapper => hfooter.bind fun back =>
      Needs.of_ok rfl).congr ?_
    simp

theorem needs_ofDescriptor (h : draft.Built d) (c : Conventions) :
    Needs d.EvenMargins (ofDescriptor d c) := by
  have hfile (a : Artifact) := (needs_items h c a).map fun items =>
    (⟨a, c.fileName a d.name, Layout.textOf items⟩ : SourceFile)
  refine Needs.congr (Needs.map ((hfile .engine).bind fun engine => (hfile .decl).bind fun decl =>
    (hfile .glue).bind fun glue => Needs.of_ok rfl) _) ?_
  constructor
  · rintro ⟨hengine, hdecl, hglue, -⟩ a
    cases a with
    | engine => exact hengine
    | decl => exact hdecl
    | glue => exact hglue
  · intro hall
    exact ⟨hall .engine, hall .decl, hall .glue, trivial⟩

theorem artifacts_of_mapM {c : Conventions} {as : List Artifact} {files : List SourceFile}
    (h : as.mapM (file d c) = .ok files) : files.map (·.artifact) = as := by
  induction as generalizing files with
  | nil =>
    cases h
    rfl
  | cons a rest ih =>
    rw [List.mapM_cons] at h
    obtain ⟨first, hfirst, h⟩ := bind_eq_ok h
    obtain ⟨others, hothers, h⟩ := bind_eq_ok h
    cases h
    unfold file at hfirst
    cases hitems : items d c a with
    | error fault =>
      rw [hitems] at hfirst
      cases hfirst
    | ok items =>
      rw [hitems] at hfirst
      cases hfirst
      rw [List.map_cons, ih hothers]

/-- The source texts of a machine are given in order, under its name. -/
theorem of_ofDescriptor {c : Conventions} {e : Emission} (h : ofDescriptor d c = .ok e) :
    e.interpreter = d.name ∧ e.files.map (·.artifact) = Artifact.all := by
  unfold ofDescriptor at h
  cases hfiles : Artifact.all.mapM (file d c) with
  | error fault =>
    rw [hfiles] at h
    cases h
  | ok files =>
    rw [hfiles] at h
    cases h
    exact ⟨rfl, artifacts_of_mapM hfiles⟩

end Emission

/-- Generating source texts from a descriptor that was built never ends with a fault to report: under
any conventions it gives all source texts, unless authored code has no margin that could be removed,
which stops it. -/
theorem built_emission_has_no_fault {draft : Draft} {d : Descriptor} {log : Log}
    (hbuild : draft.build = (some d, log)) (c : Conventions) :
    (∀ fault, Emission.ofDescriptor d c = .error fault ↔
      fault = .unevenMargin ∧ ¬d.EvenMargins) ∧
    (d.EvenMargins → ∃ e, Emission.ofDescriptor d c = .ok e ∧ e.interpreter = d.name ∧
      e.files.map (·.artifact) = Artifact.all) := by
  have hneeds := Emission.needs_ofDescriptor (Draft.built_of_build hbuild) c
  constructor
  · intro fault
    exact hneeds.error_iff
  · intro heven
    obtain ⟨e, he⟩ := hneeds.ok_iff.mpr heven
    exact ⟨e, he, Emission.of_ofDescriptor he⟩

/-- A machine that calls the host, without authored code and with code that is indented by a blank of
one byte in one line and of three bytes in another. -/
theorem built_emission_has_no_fault_hostCall :
    ∃ draft, draft = ((Draft.stackMachine "rdf" .double).add
        (DraftInstruction.block "return" "P[D]S@D" "return call_host(i0, i1)?;").mayFail
          |>.withHostCall "return" "call") ∧
      (∃ d log e, draft.build = (some d, log) ∧
        Emission.ofDescriptor d { errorLabel := "stop" } = .ok e ∧ e.files.length = 3) ∧
      ∃ d log, (draft.header .decl " a\n\u3000b").build = (some d, log) ∧
        Emission.ofDescriptor d { errorLabel := "stop" } = .error .unevenMargin := by
  generalize hdraft : ((Draft.stackMachine "rdf" .double).add
    (DraftInstruction.block "return" "P[D]S@D" "return call_host(i0, i1)?;").mayFail
      |>.withHostCall "return" "call") = draft
  refine ⟨draft, rfl, ?_, ?_⟩
  · have hall : (draft.build.1.any fun d => decide d.EvenMargins) = true := by
      rw [← hdraft]
      decide +kernel
    cases hbuild : draft.build with
    | mk built log =>
      rw [hbuild] at hall
      cases built with
      | none => cases hall
      | some d =>
        obtain ⟨e, he, -, hfiles⟩ :=
          (built_emission_has_no_fault hbuild { errorLabel := "stop" }).2 (of_decide_eq_true hall)
        exact ⟨d, log, e, rfl, he, by rw [← e.files.length_map, hfiles]; rfl⟩
  · have hall : ((draft.header .decl " a\n\u3000b").build.1.any fun d =>
        decide ¬d.EvenMargins) = true := by
      rw [← hdraft]
      decide +kernel
    cases hbuild : (draft.header .decl " a\n\u3000b").build with
    | mk built log =>
      rw [hbuild] at hall
      cases built with
      | none => cases hall
      | some d =>
        have huneven := ((built_emission_has_no_fault hbuild { errorLabel := "stop" }).1 _).mpr
          ⟨rfl, of_decide_eq_true hall⟩
        exact ⟨d, log, rfl, huneven⟩

end StackForge
