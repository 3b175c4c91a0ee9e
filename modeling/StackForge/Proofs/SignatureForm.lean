import StackForge.Signature.Reader

/-!
Signatures as they are written. A form says which letters a signature is made of, and it is spelled
out as the text of the signature without its blanks. No text spells two lawful forms. What a form
means depends on the text with its blanks as well, because a parameter knows the column of its letter.
-/
namespace StackForge.Signature

/-- A parameter as it is written. -/
structure ParamForm where
  letter : Char
  index : Option Char := none
  count : Option Char := none

namespace ParamForm

/-- What follows the letter. -/
def suffix (f : ParamForm) : List Char :=
  (f.index.elim [] fun c => ['[', c, ']']) ++ f.count.elim [] fun c => ['@', c]

def spell (f : ParamForm) : List Char := f.letter :: f.suffix

def letters (f : ParamForm) : List Char := f.letter :: (f.index.toList ++ f.count.toList)

/-- The rules for a parameter over a map of letters. -/
structure Lawful (known : Letters) (f : ParamForm) : Prop where
  alpha : ∀ c ∈ f.letters, c.isAlpha = true
  known : ∀ c ∈ f.letters, known.contains c = true
  exclusive : f.index = none ∨ f.count = none

/-- The chunk and the kind that a written parameter stands for. -/
inductive Denotes (known : Letters) : ParamForm → Chunk → ParamKind → Prop where
  | immediate {c : Char} {chunk : Chunk} (hc : known.find? c = some chunk)
      (hcode : chunk.role = .code) : Denotes known ⟨c, none, none⟩ chunk .immediate
  | single {c : Char} {chunk : Chunk} (hc : known.find? c = some chunk)
      (hcode : chunk.role ≠ .code) : Denotes known ⟨c, none, none⟩ chunk .single
  | indexed {c i : Char} {chunk index : Chunk} (hc : known.find? c = some chunk)
      (hi : known.find? i = some index) :
      Denotes known ⟨c, some i, none⟩ chunk (.indexed index.name)
  | variadic {c n : Char} {chunk count : Chunk} (hc : known.find? c = some chunk)
      (hn : known.find? n = some count) :
      Denotes known ⟨c, none, some n⟩ chunk (.variadic count.name)

end ParamForm

/-- A signature as it is written; without an arrow it has no outputs. -/
structure Form where
  inputs : List ParamForm
  outputs : Option (List ParamForm)

def spellAll (fs : List ParamForm) : List Char := fs.flatMap ParamForm.spell

namespace Form

def spell (form : Form) : List Char :=
  spellAll form.inputs ++ form.outputs.elim [] fun fs => '-' :: '>' :: spellAll fs

def Lawful (known : Letters) (form : Form) : Prop :=
  ∀ f ∈ form.inputs ++ form.outputs.getD [], f.Lawful known

end Form

/-- The characters of a text that are not blank. -/
def kept (cs : List Char) : List Char := cs.filter fun c => !Text.isBlank c

/-- A character stands at a column of a text, behind characters that are these without blanks. -/
def AtColumn (text before : List Char) (c : Char) (col : Nat) : Prop :=
  ∃ front back, text = front ++ c :: back ∧ col = front.length + 1 ∧ kept front = before

/-- Written parameters and what they mean, where some characters of the text come before them. -/
inductive MeansAll (known : Letters) (text : List Char) :
    List Char → List ParamForm → List Param → Prop where
  | nil {before : List Char} : MeansAll known text before [] []
  | cons {before : List Char} {f : ParamForm} {chunk : Chunk} {kind : ParamKind} {col : Nat}
      {fs : List ParamForm} {ps : List Param} (hf : f.Denotes known chunk kind)
      (hcol : AtColumn text before f.letter col)
      (hfs : MeansAll known text (before ++ f.spell) fs ps) :
      MeansAll known text before (f :: fs)
        (⟨chunk.name, chunk.role, kind, Span.point 1 col⟩ :: ps)

/-- What a form means in a text. -/
structure Form.Means (known : Letters) (text : List Char) (form : Form) (sig : Signature) :
    Prop where
  inputs : MeansAll known text [] form.inputs sig.inputs
  outputs : MeansAll known text (spellAll form.inputs ++ ['-', '>']) (form.outputs.getD [])
    sig.outputs
  arrow : sig.hasArrow = form.outputs.isSome

variable {known : Letters}

namespace ParamForm

theorem Denotes.lawful {f : ParamForm} {chunk : Chunk} {kind : ParamKind}
    (h : f.Denotes known chunk kind) (halpha : ∀ c ∈ f.letters, c.isAlpha = true) :
    f.Lawful known := by
  refine ⟨halpha, ?_, ?_⟩
  · cases h <;> simp_all [letters, Letters.contains]
  · cases h <;> simp

theorem Denotes.unique {f : ParamForm} {chunk chunk' : Chunk} {kind kind' : ParamKind}
    (h : f.Denotes known chunk kind) (h' : f.Denotes known chunk' kind') :
    chunk = chunk' ∧ kind = kind' := by
  cases h <;> cases h' <;> simp_all

/-- A letter behind an opening character is told apart from no letter. -/
theorem option_append_inj {opener : Char} {tail : List Char} {i j : Option Char}
    {cs ds : List Char} (hcs : cs.head? ≠ some opener) (hds : ds.head? ≠ some opener)
    (h : (i.elim [] fun c => opener :: c :: tail) ++ cs
      = (j.elim [] fun c => opener :: c :: tail) ++ ds) : i = j ∧ cs = ds := by
  cases i with
  | none =>
    cases j with
    | none => exact ⟨rfl, h⟩
    | some d =>
      obtain rfl : cs = opener :: d :: tail ++ ds := h
      exact absurd rfl hcs
  | some c =>
    cases j with
    | none =>
      obtain rfl : opener :: c :: tail ++ cs = ds := h
      exact absurd rfl hds
    | some d =>
      obtain ⟨rfl, hrest⟩ : c = d ∧ cs = ds := by simpa using h
      exact ⟨rfl, hrest⟩

/-- A parameter ends before anything that is neither a bracket nor an at sign. -/
def Breaks (cs : List Char) : Prop := cs.head? ≠ some '[' ∧ cs.head? ≠ some '@'

theorem head?_count_append {n : Option Char} {cs : List Char} (h : cs.head? ≠ some '[') :
    ((n.elim [] fun c => ['@', c]) ++ cs).head? ≠ some '[' := by
  cases n with
  | none => exact h
  | some c => simp

theorem spell_append_inj {f g : ParamForm} {cs ds : List Char} (hcs : Breaks cs) (hds : Breaks ds)
    (h : f.spell ++ cs = g.spell ++ ds) : f = g ∧ cs = ds := by
  obtain ⟨a, i, m⟩ := f
  obtain ⟨b, j, n⟩ := g
  simp only [spell, suffix, List.cons_append, List.append_assoc, List.cons.injEq] at h
  obtain ⟨rfl, hsuffix⟩ := h
  obtain ⟨rfl, hcount⟩ :=
    option_append_inj (head?_count_append hcs.1) (head?_count_append hds.1) hsuffix
  obtain ⟨rfl, hrest⟩ := option_append_inj hcs.2 hds.2 hcount
  exact ⟨rfl, hrest⟩

end ParamForm

/-- Parameters end at the end of the text and before a minus sign. -/
def EndsParams (cs : List Char) : Prop := ∀ c ∈ cs.head?, c = '-'

theorem breaks_of_ends {cs : List Char} (h : EndsParams cs) : ParamForm.Breaks cs := by
  constructor <;>
  · intro hhead
    exact absurd (h _ hhead) (by decide)

theorem breaks_spellAll {fs : List ParamForm} {cs : List Char} (hfs : ∀ f ∈ fs, f.Lawful known)
    (hcs : EndsParams cs) : ParamForm.Breaks (spellAll fs ++ cs) := by
  cases fs with
  | nil => exact breaks_of_ends hcs
  | cons f fs =>
    have halpha := (hfs f List.mem_cons_self).alpha f.letter List.mem_cons_self
    constructor <;>
    · intro hhead
      rw [show f.letter = _ from Option.some.inj hhead] at halpha
      exact absurd halpha (by decide)

/-- No text spells two lists of parameters. -/
theorem spellAll_append_inj {fs gs : List ParamForm} {cs ds : List Char}
    (hfs : ∀ f ∈ fs, f.Lawful known) (hgs : ∀ g ∈ gs, g.Lawful known) (hcs : EndsParams cs)
    (hds : EndsParams ds) (h : spellAll fs ++ cs = spellAll gs ++ ds) : fs = gs ∧ cs = ds := by
  -- the first letter of a parameter cannot stand where parameters have ended
  have hends : ∀ {f : ParamForm} {fs : List ParamForm} {cs ds : List Char}, f.Lawful known →
      EndsParams ds → spellAll (f :: fs) ++ cs ≠ ds := by
    rintro f fs cs _ hf hds rfl
    have hminus : f.letter = '-' := hds f.letter rfl
    exact absurd (hminus ▸ hf.alpha f.letter List.mem_cons_self) (by decide)
  induction fs generalizing gs with
  | nil =>
    cases gs with
    | nil => exact ⟨rfl, h⟩
    | cons g gs => exact absurd h.symm (hends (hgs g List.mem_cons_self) hcs)
  | cons f fs ih =>
    cases gs with
    | nil => exact absurd h (hends (hfs f List.mem_cons_self) hds)
    | cons g gs =>
      have htail := (List.forall_mem_cons.mp hfs).2
      have htail' := (List.forall_mem_cons.mp hgs).2
      simp only [spellAll, List.flatMap_cons, List.append_assoc] at h
      obtain ⟨rfl, hrest⟩ := ParamForm.spell_append_inj (breaks_spellAll htail hcs)
        (breaks_spellAll htail' hds) h
      obtain ⟨rfl, hend⟩ := ih htail htail' hrest
      exact ⟨rfl, hend⟩

theorem endsParams_outputs (outputs : Option (List ParamForm)) :
    EndsParams (outputs.elim [] fun fs => '-' :: '>' :: spellAll fs) := by
  cases outputs with
  | none => simp [EndsParams]
  | some fs => simp [EndsParams]

/-- No text spells two forms. -/
theorem Form.spell_inj {form form' : Form} (hform : form.Lawful known)
    (hform' : form'.Lawful known) (h : form.spell = form'.spell) : form = form' := by
  obtain ⟨inputs, outputs⟩ := form
  obtain ⟨inputs', outputs'⟩ := form'
  obtain ⟨hinputs, houtputs⟩ := List.forall_mem_append.mp hform
  obtain ⟨hinputs', houtputs'⟩ := List.forall_mem_append.mp hform'
  obtain ⟨rfl, hrest⟩ := spellAll_append_inj hinputs hinputs' (endsParams_outputs outputs)
    (endsParams_outputs outputs') h
  match outputs, outputs' with
  | none, none => rfl
  | some fs, some gs =>
    have hspell : spellAll fs ++ [] = spellAll gs ++ [] := by simpa using hrest
    obtain ⟨rfl, -⟩ := spellAll_append_inj houtputs houtputs' (by simp [EndsParams])
      (by simp [EndsParams]) hspell
    rfl

theorem not_isBlank_of_isAlpha {c : Char} (h : c.isAlpha = true) : Text.isBlank c = false := by
  have hrange : (65 ≤ c.toNat ∧ c.toNat ≤ 90) ∨ (97 ≤ c.toNat ∧ c.toNat ≤ 122) := by
    delta Char.isAlpha Char.isUpper Char.isLower at h
    simpa [UInt32.le_iff_toNat_le] using h
  simp only [Text.isBlank, Bool.or_eq_false_iff, Bool.and_eq_false_iff, decide_eq_false_iff_not,
    beq_eq_false_iff_ne]
  omega

/-- A letter has one column behind the characters before it. -/
theorem AtColumn.unique {text before : List Char} {c : Char} {col col' : Nat}
    (hc : c.isAlpha = true) (h : AtColumn text before c col) (h' : AtColumn text before c col') :
    col = col' := by
  -- the later of two places would have the letter itself among the characters before it
  have hle : ∀ {front front' back back' : List Char}, front ++ c :: back = front' ++ c :: back' →
      kept front = kept front' → front'.length ≤ front.length := by
    intro front front' back back' htext hkept
    apply Nat.le_of_not_lt
    intro hlt
    obtain ⟨mid, rfl⟩ : ∃ mid, front' = front ++ c :: mid := by
      rcases List.append_eq_append_iff.mp htext with ⟨mid, rfl, hmid⟩ | ⟨mid, rfl, -⟩
      · cases mid with
        | nil => simp at hlt
        | cons d mid =>
          obtain ⟨rfl, -⟩ := List.cons.inj hmid
          exact ⟨mid, rfl⟩
      · rw [List.length_append] at hlt
        omega
    have hblank := not_isBlank_of_isAlpha hc
    simp [kept, hblank] at hkept
  obtain ⟨front, back, rfl, rfl, hfront⟩ := h
  obtain ⟨front', back', htext, rfl, hfront'⟩ := h'
  have hkept := hfront.trans hfront'.symm
  have h₁ := hle htext hkept
  have h₂ := hle htext.symm hkept.symm
  omega

theorem MeansAll.unique {text before : List Char} {fs : List ParamForm} {ps qs : List Param}
    (hfs : ∀ f ∈ fs, f.Lawful known) (h : MeansAll known text before fs ps)
    (h' : MeansAll known text before fs qs) : ps = qs := by
  induction h generalizing qs with
  | nil =>
    cases h'
    rfl
  | @cons before f chunk kind col fs ps hf hcol _ ih =>
    obtain ⟨hlawful, hlawfuls⟩ := List.forall_mem_cons.mp hfs
    cases h' with
    | cons hf' hcol' hmeans' =>
      obtain ⟨rfl, rfl⟩ := hf.unique hf'
      obtain rfl := hcol.unique (hlawful.alpha f.letter List.mem_cons_self) hcol'
      rw [ih hlawfuls hmeans']

theorem Form.Means.unique {text : List Char} {form : Form} {sig sig' : Signature}
    (hform : form.Lawful known) (h : form.Means known text sig) (h' : form.Means known text sig') :
    sig = sig' := by
  obtain ⟨hinputs, houtputs⟩ := List.forall_mem_append.mp hform
  obtain ⟨inputs, outputs, arrow⟩ := sig
  obtain ⟨inputs', outputs', arrow'⟩ := sig'
  obtain rfl : inputs = inputs' := h.inputs.unique hinputs h'.inputs
  obtain rfl : outputs = outputs' := h.outputs.unique houtputs h'.outputs
  obtain rfl : arrow = arrow' := h.arrow.trans h'.arrow.symm
  rfl

end StackForge.Signature
