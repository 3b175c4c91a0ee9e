import StackForge.Proofs.Relaid
import StackForge.Proofs.SignatureForm
import StackForge.Proofs.WellFormed

/-!
Reading a signature finds its form. Each part of the reader gets two lemmas: what it has consumed when
it succeeds, and which marks it succeeds on. From them the same follows for lists of parameters and
for whole signatures: reading accepts exactly the spellings of lawful forms and gives what the form
means.
-/
namespace StackForge.Signature

variable {known : Letters} {stop : Nat}

theorem chunkOf_of_find? {c : Char} {chunk : Chunk} (h : known.find? c = some chunk) (col : Nat) :
    chunkOf known c col = .ok chunk := by
  rw [chunkOf, h]

theorem readLetter_sound {after : Char} {ms rest : List Mark} {chunk : Chunk}
    {hlt : rest.length < ms.length}
    (h : readLetter known stop after ms = .ok (chunk, ⟨rest, hlt⟩)) :
    ∃ col c, ms = (col, c) :: rest ∧ c.isAlpha = true ∧ known.find? c = some chunk := by
  unfold readLetter at h
  split at h
  · cases h
  · rename_i col c tail
    split at h
    · rename_i halpha
      cases hchunk : chunkOf known c col with
      | error e =>
        rw [hchunk] at h
        cases h
      | ok found =>
        rw [hchunk] at h
        cases h
        exact ⟨col, c, rfl, halpha, chunkOf_ok hchunk⟩
    · cases h

theorem readLetter_complete (after : Char) {c : Char} {chunk : Chunk} (halpha : c.isAlpha = true)
    (hc : known.find? c = some chunk) (col : Nat) (rest : List Mark) :
    readLetter known stop after ((col, c) :: rest)
      = .ok (chunk, ⟨rest, Nat.lt_succ_self rest.length⟩) := by
  simp [readLetter, halpha, chunkOf_of_find? hc, Except.map]

/-- The chunk that a letter names, where there may be none. -/
inductive Names (known : Letters) : Option Char → Option Chunk → Prop where
  | none : Names known none none
  | some {c : Char} {chunk : Chunk} (halpha : c.isAlpha = true) (hc : known.find? c = some chunk) :
      Names known (some c) (some chunk)

theorem readIndex_sound {ms rest : List Mark} {index : Option Chunk}
    {hle : rest.length ≤ ms.length} (h : readIndex known stop ms = .ok (index, ⟨rest, hle⟩)) :
    ∃ letter word, ms = word ++ rest ∧ Names known letter index ∧
      chars word = letter.elim [] fun c => ['[', c, ']'] := by
  unfold readIndex at h
  split at h
  · rename_i col tail
    cases hletter : readLetter known stop '[' tail with
    | error e =>
      rw [hletter] at h
      cases h
    | ok found =>
      obtain ⟨chunk, left, hlt⟩ := found
      obtain ⟨col', c, rfl, halpha, hc⟩ := readLetter_sound hletter
      rw [hletter] at h
      cases left with
      | nil => cases h
      | cons m left =>
        obtain ⟨col'', d⟩ := m
        dsimp only at h
        split at h
        · rename_i hd
          subst hd
          cases h
          exact ⟨some c, [(col, '['), (col', c), (col'', ']')], rfl, .some halpha hc, rfl⟩
        · cases h
  · cases h
    exact ⟨none, [], rfl, .none, rfl⟩

theorem readIndex_complete {letter : Option Char} {index : Option Chunk}
    (hletter : Names known letter index) {word rest : List Mark}
    (hword : chars word = letter.elim [] fun c => ['[', c, ']'])
    (hrest : (chars rest).head? ≠ some '[') :
    ∃ h, readIndex known stop (word ++ rest) = .ok (index, ⟨rest, h⟩) := by
  cases hletter with
  | none =>
    obtain rfl : word = [] := by simpa [chars] using hword
    refine ⟨Nat.le_refl _, readIndex.eq_2 _ _ _ ?_⟩
    rintro col tail rfl
    exact hrest rfl
  | @some c chunk halpha hc =>
    obtain ⟨a, b, d, rfl⟩ : ∃ a b d, word = [(a, '['), (b, c), (d, ']')] := by
      simpa [chars, List.map_eq_cons_iff, Prod.exists] using hword
    refine ⟨by simp; omega, ?_⟩
    simp [readIndex, readLetter_complete '[' halpha hc]

theorem readCount_sound {ms rest : List Mark} {count : Option (Nat × Chunk)}
    {hle : rest.length ≤ ms.length} (h : readCount known stop ms = .ok (count, ⟨rest, hle⟩)) :
    ∃ letter word, ms = word ++ rest ∧ Names known letter (count.map (·.2)) ∧
      chars word = letter.elim [] fun c => ['@', c] := by
  unfold readCount at h
  split at h
  · rename_i col tail
    cases hletter : readLetter known stop '@' tail with
    | error e =>
      rw [hletter] at h
      cases h
    | ok found =>
      obtain ⟨chunk, left, hlt⟩ := found
      obtain ⟨col', c, rfl, halpha, hc⟩ := readLetter_sound hletter
      rw [hletter] at h
      cases h
      exact ⟨some c, [(col, '@'), (col', c)], rfl, .some halpha hc, rfl⟩
  · cases h
    exact ⟨none, [], rfl, .none, rfl⟩

theorem readCount_complete {letter : Option Char} {chunk : Option Chunk}
    (hletter : Names known letter chunk) {word rest : List Mark}
    (hword : chars word = letter.elim [] fun c => ['@', c])
    (hrest : (chars rest).head? ≠ some '@') :
    ∃ count h, readCount known stop (word ++ rest) = .ok (count, ⟨rest, h⟩) ∧
      count.map (·.2) = chunk := by
  cases hletter with
  | none =>
    obtain rfl : word = [] := by simpa [chars] using hword
    refine ⟨none, Nat.le_refl _, readCount.eq_2 _ _ _ ?_, rfl⟩
    rintro col tail rfl
    exact hrest rfl
  | @some c chunk halpha hc =>
    obtain ⟨a, b, rfl⟩ : ∃ a b, word = [(a, '@'), (b, c)] := by
      simpa [chars, List.map_eq_cons_iff, Prod.exists] using hword
    refine ⟨some (a, chunk), by simp; omega, ?_, rfl⟩
    simp [readCount, readLetter_complete '@' halpha hc]

theorem kindOf_sound {c : Char} {i n : Option Char} {chunk : Chunk} {index : Option Chunk}
    {count : Option (Nat × Chunk)} {kind : ParamKind} (hc : known.find? c = some chunk)
    (hi : Names known i index) (hn : Names known n (count.map (·.2)))
    (h : kindOf chunk index count = .ok kind) : ParamForm.Denotes known ⟨c, i, n⟩ chunk kind := by
  match count, hi, hn with
  | none, .none, .none =>
    simp only [kindOf] at h
    split at h <;> cases h
    · exact .immediate hc ‹_›
    · exact .single hc ‹_›
  | none, .some _ hindex, .none =>
    cases h
    exact .indexed hc hindex
  | some (_, _), .none, .some _ hcount =>
    cases h
    exact .variadic hc hcount
  | some (_, _), .some _ _, .some _ _ => cases h

theorem exists_kindOf {i n : Option Char} {index : Option Chunk} {count : Option (Nat × Chunk)}
    (chunk : Chunk) (hi : Names known i index) (hn : Names known n (count.map (·.2)))
    (hexclusive : i = none ∨ n = none) : ∃ kind, kindOf chunk index count = .ok kind := by
  match count, hi, hn with
  | none, .none, .none => exact ⟨_, rfl⟩
  | none, .some _ _, .none => exact ⟨_, rfl⟩
  | some (_, _), .none, .some _ _ => exact ⟨_, rfl⟩
  | some (_, _), .some _ _, .some _ _ => simp at hexclusive

theorem Names.alpha {letter : Option Char} {chunk : Option Chunk} (h : Names known letter chunk) :
    ∀ c ∈ letter, c.isAlpha = true := by
  cases h with
  | none => simp
  | some halpha _ => simpa using halpha

/-- A character that counts, with what comes before it in the text. -/
theorem atColumn_of_marksFrom {n col : Nat} {c : Char} {cs : List Char} {before rest : List Mark}
    (h : marksFrom n cs = before ++ (col, c) :: rest) :
    ∃ front back, cs = front ++ c :: back ∧ col = n + front.length ∧
      kept front = chars before := by
  induction cs generalizing n before with
  | nil => simp [marksFrom] at h
  | cons d cs ih =>
    rw [marksFrom] at h
    cases hd : Text.isBlank d with
    | true =>
      rw [hd, if_pos rfl] at h
      obtain ⟨front, back, rfl, rfl, hfront⟩ := ih h
      refine ⟨d :: front, back, rfl, by simp; omega, ?_⟩
      simpa [kept, hd] using hfront
    | false =>
      rw [hd, if_neg (by simp)] at h
      cases before with
      | nil =>
        cases h
        exact ⟨[], cs, rfl, rfl, rfl⟩
      | cons m before =>
        obtain ⟨rfl, htail⟩ : (n, d) = m ∧ marksFrom (n + 1) cs = before ++ (col, c) :: rest := by
          simpa using h
        obtain ⟨front, back, rfl, rfl, hfront⟩ := ih htail
        refine ⟨d :: front, back, rfl, by simp; omega, ?_⟩
        simpa [kept, hd, chars] using hfront

@[simp] theorem chars_append (ms ns : List Mark) : chars (ms ++ ns) = chars ms ++ chars ns :=
  List.map_append

/-- What parameters are read from is a spelling of them. -/
theorem readParams_sound {text : String} (before : List Mark) {ms left : List Mark}
    {ps : List Param} (hmarks : marks text = before ++ ms)
    (h : readParams known stop ms = .ok (ps, left)) :
    ∃ fs word, ms = word ++ left ∧ chars word = spellAll fs ∧ (∀ f ∈ fs, f.Lawful known) ∧
      MeansAll known text.toList (chars before) fs ps ∧ EndsParams (chars left) := by
  fun_induction readParams known stop ms generalizing before ps left with
  | case1 =>
    cases h
    exact ⟨[], [], rfl, rfl, by simp, .nil, by simp [EndsParams, chars]⟩
  | case2 =>
    cases h
    exact ⟨[], [], rfl, rfl, by simp, .nil, by simp [EndsParams, chars]⟩
  | case3 | case4 | case5 | case6 | case7 | case8 => cases h
  | case9 col c rest _ halpha chunk hchunk index afterIndex _ hindex count afterCount _ hcount kind
      hkind others left' hread ih =>
    cases h
    obtain ⟨i, iword, rfl, hi, hiword⟩ := readIndex_sound hindex
    obtain ⟨n, nword, rfl, hn, hnword⟩ := readCount_sound hcount
    have hdenotes := kindOf_sound (chunkOf_ok hchunk) hi hn hkind
    have hlawful : ParamForm.Lawful known ⟨c, i, n⟩ := by
      apply hdenotes.lawful
      simp only [ParamForm.letters, List.mem_cons, List.mem_append, Option.mem_toList]
      rintro d (rfl | hd | hd)
      · simpa using halpha
      · exact hi.alpha d hd
      · exact hn.alpha d hd
    -- the letter and what follows it have been read before the other parameters
    have hword : chars ((col, c) :: (iword ++ nword)) = ParamForm.spell ⟨c, i, n⟩ := by
      simp [chars, ParamForm.spell, ParamForm.suffix, ← hiword, ← hnword]
    have hmarks' : marks text = (before ++ (col, c) :: (iword ++ nword)) ++ afterCount := by
      simpa using hmarks
    obtain ⟨fs, word, rfl, hfs, hlawfuls, hmeans, hends⟩ := ih _ hmarks' hread
    refine ⟨⟨c, i, n⟩ :: fs, ((col, c) :: (iword ++ nword)) ++ word, by simp, ?_, ?_, ?_, hends⟩
    · rw [chars_append, hword, hfs]
      rfl
    · exact List.forall_mem_cons.mpr ⟨hlawful, hlawfuls⟩
    · obtain ⟨front, back, htext, hcol, hfront⟩ := atColumn_of_marksFrom hmarks
      rw [chars_append, hword] at hmeans
      exact .cons hdenotes ⟨front, back, htext, by omega, hfront⟩ hmeans

theorem ParamForm.Lawful.names {f : ParamForm} (h : f.Lawful known) :
    (∃ chunk, known.find? f.letter = some chunk) ∧ (∃ index, Names known f.index index) ∧
      ∃ count, Names known f.count count := by
  have hfind : ∀ c ∈ f.letters, ∃ chunk, known.find? c = some chunk :=
    fun c hc => Option.isSome_iff_exists.mp (h.known c hc)
  have hnames : ∀ letter : Option Char, (∀ c ∈ letter, c ∈ f.letters) →
      ∃ chunk, Names known letter chunk := by
    intro letter hletter
    cases letter with
    | none => exact ⟨none, .none⟩
    | some c =>
      have hc := hletter c rfl
      obtain ⟨chunk, hchunk⟩ := hfind c hc
      exact ⟨some chunk, .some (h.alpha c hc) hchunk⟩
  refine ⟨hfind _ List.mem_cons_self, hnames _ ?_, hnames _ ?_⟩
  · intro c hc
    simp [letters, Option.mem_def.mp hc]
  · intro c hc
    simp [letters, Option.mem_def.mp hc]

theorem exists_append_of_chars {ms : List Mark} {cs ds : List Char} (h : chars ms = cs ++ ds) :
    ∃ word rest, ms = word ++ rest ∧ chars word = cs ∧ chars rest = ds :=
  List.map_eq_append_iff.mp h

/-- Every spelling of parameters is read. -/
theorem exists_readParams {fs : List ParamForm} {word left : List Mark}
    (hfs : ∀ f ∈ fs, f.Lawful known) (hword : chars word = spellAll fs)
    (hleft : EndsParams (chars left)) :
    ∃ ps, readParams known stop (word ++ left) = .ok (ps, left) := by
  induction fs generalizing word with
  | nil =>
    obtain rfl : word = [] := by simpa [chars, spellAll] using hword
    cases left with
    | nil => exact ⟨[], by rw [List.nil_append, readParams]⟩
    | cons m left =>
      obtain ⟨col, c⟩ := m
      obtain rfl : c = '-' := hleft c rfl
      exact ⟨[], by rw [List.nil_append, readParams, if_pos rfl]⟩
  | cons f fs ih =>
    obtain ⟨hf, htail⟩ := List.forall_mem_cons.mp hfs
    rw [spellAll, List.flatMap_cons, ParamForm.spell, ParamForm.suffix, List.cons_append,
      List.append_assoc] at hword
    obtain ⟨⟨col, c⟩, rest, rfl, rfl, hrest⟩ := List.map_eq_cons_iff.mp hword
    obtain ⟨iword, rest, rfl, hiword, hrest⟩ := exists_append_of_chars hrest
    obtain ⟨nword, rest, rfl, hnword, hrest⟩ := exists_append_of_chars hrest
    obtain ⟨⟨chunk, hchunk⟩, ⟨index, hindex⟩, count, hcount⟩ := hf.names
    have hbreaks : ParamForm.Breaks (chars (rest ++ left)) := by
      rw [chars_append, hrest]
      exact breaks_spellAll htail hleft
    have hbracket : (chars (nword ++ (rest ++ left))).head? ≠ some '[' := by
      rw [chars_append, hnword]
      exact ParamForm.head?_count_append hbreaks.1
    obtain ⟨_, hreadIndex⟩ := @readIndex_complete known stop _ _ hindex _ _ hiword hbracket
    obtain ⟨count, _, hreadCount, rfl⟩ :=
      @readCount_complete known stop _ _ hcount _ _ hnword hbreaks.2
    obtain ⟨kind, hkind⟩ := exists_kindOf chunk hindex hcount hf.exclusive
    obtain ⟨ps, hps⟩ := ih htail hrest
    have halpha := hf.alpha f.letter List.mem_cons_self
    have hminus : f.letter ≠ '-' := by
      intro hminus
      rw [hminus] at halpha
      exact absurd halpha (by decide)
    refine ⟨⟨chunk.name, chunk.role, kind, Span.point 1 col⟩ :: ps, ?_⟩
    rw [List.cons_append, List.append_assoc, List.append_assoc, readParams]
    simp [hminus, halpha, chunkOf_of_find? hchunk, hreadIndex, hreadCount, hkind, hps]

theorem chars_marks (text : String) : chars (marks text) = kept text.toList :=
  chars_marksFrom 1 text.toList

/-- What a signature is read from is a spelling of its form. -/
theorem readMarks_sound {text : String} {sig : Signature}
    (h : readMarks known (marks text) = .ok sig) :
    ∃ form : Form, form.spell = kept text.toList ∧ form.Lawful known ∧
      form.Means known text.toList sig := by
  rw [← chars_marks]
  have hstart : marks text = [] ++ marks text := rfl
  unfold readMarks at h
  extract_lets stop at h
  split at h
  · cases h
  · rename_i inputs hread
    cases h
    obtain ⟨fs, word, hword, hspell, hfs, hmeans, -⟩ := readParams_sound [] hstart hread
    refine ⟨⟨fs, none⟩, ?_, by simpa [Form.Lawful] using hfs, hmeans, .nil, rfl⟩
    rw [hword, List.append_nil, hspell]
    simp [Form.spell]
  · rename_i inputs col c col' rest hread
    split at h
    · cases h
    · rename_i outputs hread'
      cases h
      obtain ⟨fs, word, hword, hspell, hfs, hmeans, hends⟩ := readParams_sound [] hstart hread
      obtain rfl : c = '-' := hends c rfl
      -- the outputs are read behind the inputs and the arrow
      have hmarks : marks text = (word ++ [(col, '-'), (col', '>')]) ++ rest := by simpa using hword
      obtain ⟨gs, word', hword', hspell', hgs, hmeans', -⟩ := readParams_sound _ hmarks hread'
      rw [List.append_nil] at hword'
      subst hword'
      refine ⟨⟨fs, some gs⟩, ?_, List.forall_mem_append.mpr ⟨hfs, hgs⟩, hmeans, ?_, rfl⟩
      · rw [hmarks, chars_append, chars_append, hspell, hspell']
        simp [Form.spell, chars]
      · rw [chars_append, hspell] at hmeans'
        exact hmeans'
    · cases h
  · cases h

/-- Every spelling of a form is read. -/
theorem exists_readMarks {form : Form} (hform : form.Lawful known) {ms : List Mark}
    (hspell : form.spell = chars ms) : ∃ sig, readMarks known ms = .ok sig := by
  obtain ⟨inputs, outputs⟩ := form
  obtain ⟨hinputs, houtputs⟩ := List.forall_mem_append.mp hform
  obtain ⟨word, left, rfl, hword, hleft⟩ := exists_append_of_chars hspell.symm
  have hends : EndsParams (chars left) := hleft ▸ endsParams_outputs outputs
  obtain ⟨ps, hps⟩ := @exists_readParams known (endCol (word ++ left)) _ _ _ hinputs hword hends
  unfold readMarks
  dsimp only
  rw [hps]
  cases outputs with
  | none =>
    obtain rfl : left = [] := by simpa [chars] using hleft
    exact ⟨_, rfl⟩
  | some fs =>
    obtain ⟨⟨a, c⟩, tail, rfl, rfl, htail⟩ := List.map_eq_cons_iff.mp hleft
    obtain ⟨⟨b, d⟩, rest, rfl, rfl, hrest⟩ := List.map_eq_cons_iff.mp htail
    obtain ⟨qs, hqs⟩ := @exists_readParams known (endCol (word ++ (a, '-') :: (b, '>') :: rest)) fs
      rest [] houtputs hrest (by simp [EndsParams, chars])
    rw [List.append_nil] at hqs
    exact ⟨⟨ps, qs, true⟩, by simp only [hqs]⟩

theorem read_eq_ok_iff {src : Source} {sig : Signature} :
    read known src = .ok sig ↔ readMarks known (marks src.text) = .ok sig := by
  unfold read
  cases readMarks known (marks src.text) with
  | ok found => simp
  | error fault => simp

/-- A refusal reports the one fault that ended the reading. -/
theorem totalErrors_of_read {src : Source} {log : Log} (h : read known src = .error log) :
    log.totalErrors = 1 ∧ log.errors.length = 1 := by
  unfold read at h
  cases hmarks : readMarks known (marks src.text) with
  | ok found => simp [hmarks] at h
  | error fault =>
    rw [hmarks] at h
    cases h
    exact ⟨rfl, rfl⟩

end StackForge.Signature

namespace StackForge

open Signature

/-- Reading a signature accepts exactly the texts that spell a lawful form without their blanks, and
gives what the form means. A text has at most one lawful form, and a text without one is refused
with an error. -/
theorem signatures_read_by_form (known : Letters) (src : Source) :
    (∀ sig, read known src = .ok sig ↔ ∃ form : Form, form.spell = kept src.text.toList ∧
      form.Lawful known ∧ form.Means known src.text.toList sig) ∧
    (∀ form : Form, form.spell = kept src.text.toList → form.Lawful known →
      (∃ sig, read known src = .ok sig) ∧ ∀ other : Form, other.spell = kept src.text.toList →
        other.Lawful known → other = form) ∧
    ((¬∃ form : Form, form.spell = kept src.text.toList ∧ form.Lawful known) →
      ∃ log, read known src = .error log ∧ log.totalErrors = 1 ∧ log.errors.length = 1) := by
  have hcomplete : ∀ form : Form, form.spell = kept src.text.toList → form.Lawful known →
      ∃ sig, read known src = .ok sig := by
    intro form hspell hform
    obtain ⟨sig, hsig⟩ := exists_readMarks hform (hspell.trans (chars_marks src.text).symm)
    exact ⟨sig, read_eq_ok_iff.mpr hsig⟩
  have hunique : ∀ form other : Form, form.spell = kept src.text.toList → form.Lawful known →
      other.spell = kept src.text.toList → other.Lawful known → other = form :=
    fun form other hspell hform hspell' hother =>
      Form.spell_inj hother hform (hspell'.trans hspell.symm)
  refine ⟨fun sig => ⟨fun h => readMarks_sound (read_eq_ok_iff.mp h), ?_⟩, ?_, ?_⟩
  · rintro ⟨form, hspell, hform, hmeans⟩
    obtain ⟨sig', hsig'⟩ := hcomplete form hspell hform
    obtain ⟨form', hspell', hform', hmeans'⟩ := readMarks_sound (read_eq_ok_iff.mp hsig')
    obtain rfl := hunique form form' hspell hform hspell' hform'
    rw [hsig', hmeans.unique hform hmeans']
  · intro form hspell hform
    exact ⟨hcomplete form hspell hform, fun other => hunique form other hspell hform⟩
  · intro hnone
    cases hread : read known src with
    | ok sig =>
      obtain ⟨form, hspell, hform, -⟩ := readMarks_sound (read_eq_ok_iff.mp hread)
      exact absurd ⟨form, hspell, hform⟩ hnone
    | error log => exact ⟨log, rfl, totalErrors_of_read hread⟩

/-- Blanks of several kinds, also inside of a counted parameter and of the arrow. -/
theorem signatures_read_by_form_counted :
    ∃ known : Letters,
      known = ⟨[('D', ⟨"code", .code, .code⟩), ('S', ⟨"stack", .stack, .double⟩)]⟩ ∧
      read known ⟨"t", "D S\t@ D -\n> S"⟩ = .ok
        ⟨[⟨"code", .code, .immediate, Span.point 1 1⟩,
          ⟨"stack", .stack, .variadic "code", Span.point 1 3⟩],
         [⟨"stack", .stack, .single, Span.point 1 13⟩], true⟩ := by
  generalize hknown : (⟨[('D', ⟨"code", .code, .code⟩), ('S', ⟨"stack", .stack, .double⟩)]⟩ : Letters)
    = known
  have hcode : known.find? 'D' = some ⟨"code", .code, .code⟩ := hknown ▸ rfl
  have hstack : known.find? 'S' = some ⟨"stack", .stack, .double⟩ := hknown ▸ rfl
  have hletter : ∀ c ∈ ['D', 'S'], c.isAlpha = true ∧ known.contains c = true := by
    simp [Letters.contains, hcode, hstack]
  refine ⟨known, rfl, ((signatures_read_by_form known ⟨"t", "D S\t@ D -\n> S"⟩).1 _).mpr
    ⟨⟨[⟨'D', none, none⟩, ⟨'S', none, some 'D'⟩], some [⟨'S', none, none⟩]⟩, by decide, ?_, ?_, ?_,
      rfl⟩⟩
  · intro f hf
    simp only [Option.getD_some, List.cons_append, List.nil_append, List.mem_cons,
      List.not_mem_nil, or_false] at hf
    have hsub : ∀ c ∈ f.letters, c ∈ ['D', 'S'] := by
      rcases hf with rfl | rfl | rfl <;> simp [ParamForm.letters]
    have hone : f.index = none ∨ f.count = none := by
      rcases hf with rfl | rfl | rfl <;> simp
    exact ⟨fun c hc => (hletter c (hsub c hc)).1, fun c hc => (hletter c (hsub c hc)).2, hone⟩
  · have hfirst : AtColumn "D S\t@ D -\n> S".toList [] 'D' 1 := ⟨[], _, rfl, rfl, rfl⟩
    have hsecond : AtColumn "D S\t@ D -\n> S".toList ['D'] 'S' 3 := ⟨['D', ' '], _, rfl, rfl, rfl⟩
    exact .cons (.immediate hcode rfl) hfirst (.cons (.variadic hstack hcode) hsecond .nil)
  · have hlast : AtColumn "D S\t@ D -\n> S".toList ['D', 'S', '@', 'D', '-', '>'] 'S' 13 :=
      ⟨"D S\t@ D -\n> ".toList, [], by decide, rfl, by decide⟩
    exact .cons (.single hstack (by decide)) hlast .nil

end StackForge
