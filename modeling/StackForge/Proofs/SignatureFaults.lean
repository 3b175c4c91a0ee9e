import Mathlib.Data.List.TakeWhile
import StackForge.Proofs.Places
import StackForge.Proofs.SignatureReading

/-!
Where a signature is wrong. Reading stops at the first character that cannot stand where it does, or at
the end of a text that is not finished. `Offends` says for each fault which character that is and what
has been read before it. The fault is reported on the first line, at the place of the character among
all characters of the text, so the report points at it exactly if no newline comes before it.
-/
namespace StackForge.Signature

/-- The signs that would go on with a written parameter. -/
def ParamForm.openers (f : ParamForm) : List Char :=
  match f.index, f.count with
  | none, none => ['[', '@']
  | some _, none => ['@']
  | _, some _ => []

/-- A letter that stands for a chunk. -/
def IsLetter (known : Letters) (c : Char) : Prop := c.isAlpha = true ∧ known.contains c = true

/-- Whole parameters have been read, up to the arrow or behind it. The list has those on this side of
the arrow. -/
inductive Whole (known : Letters) : List Char → List ParamForm → Prop where
  | inputs {fs : List ParamForm} (hfs : ∀ f ∈ fs, f.Lawful known) : Whole known (spellAll fs) fs
  | outputs {fs gs : List ParamForm} (hfs : ∀ f ∈ fs, f.Lawful known)
      (hgs : ∀ g ∈ gs, g.Lawful known) :
      Whole known (spellAll fs ++ '-' :: '>' :: spellAll gs) gs

/-- A letter comes next: the one of a parameter, or the one behind a sign. -/
inductive Awaits (known : Letters) : Option Char → List Char → Prop where
  | param {before : List Char} {fs : List ParamForm} (hbefore : Whole known before fs) :
      Awaits known none before
  | index {before : List Char} {fs : List ParamForm} {c : Char} (hbefore : Whole known before fs)
      (hc : IsLetter known c) : Awaits known (some '[') (before ++ [c, '['])
  | count {before : List Char} {fs : List ParamForm} {f : ParamForm}
      (hbefore : Whole known before fs) (hf : f.Lawful known) (hcount : f.count = none) :
      Awaits known (some '@') (before ++ f.spell ++ ['@'])

/-- A character at which reading stops with a fault, between what comes before and behind it. -/
inductive Offends (known : Letters) : List Char → SignatureFault → Char → List Char → Prop where
  | unexpected {before behind : List Char} {fs : List ParamForm} {c : Char}
      (hbefore : Whole known before fs) (hc : c.isAlpha = false) (hminus : c ≠ '-')
      (hopen : ∀ f ∈ fs.getLast?, c ∉ f.openers) :
      Offends known before (.unexpected c) c behind
  | unknownLetter {sign : Option Char} {before behind : List Char} {c : Char}
      (hbefore : Awaits known sign before) (hc : c.isAlpha = true)
      (hunknown : known.find? c = none) :
      Offends known before (.unknownLetter c known.text) c behind
  | letterWanted {sign c : Char} {before behind : List Char}
      (hbefore : Awaits known (some sign) before) (hc : c.isAlpha = false) :
      Offends known before (.letterWanted sign c) c behind
  | bracketWanted {before behind : List Char} {c i : Char}
      (hbefore : Awaits known (some '[') before) (hi : IsLetter known i) (hc : c ≠ ']') :
      Offends known (before ++ [i]) (.bracketWanted c) c behind
  | indexedAndVariadic {before behind : List Char} {fs : List ParamForm} {f : ParamForm} {n : Char}
      (hbefore : Whole known before fs) (hf : f.Lawful known) (hindex : f.index ≠ none)
      (hn : IsLetter known n) :
      Offends known (before ++ f.spell) .indexedAndVariadic '@' (n :: behind)
  | arrowWanted {behind : List Char} {fs : List ParamForm} (hfs : ∀ f ∈ fs, f.Lawful known)
      (hbehind : behind.head? ≠ some '>') : Offends known (spellAll fs) .arrowWanted '-' behind
  | secondArrow {behind : List Char} {fs gs : List ParamForm} (hfs : ∀ f ∈ fs, f.Lawful known)
      (hgs : ∀ g ∈ gs, g.Lawful known) :
      Offends known (spellAll fs ++ '-' :: '>' :: spellAll gs) .secondArrow '-' behind

/-- A text that ends where something has to follow. -/
inductive Unfinished (known : Letters) : List Char → SignatureFault → Prop where
  | letterMissing {sign : Char} {text : List Char} (htext : Awaits known (some sign) text) :
      Unfinished known text (.letterMissing sign)
  | bracketMissing {text : List Char} {i : Char} (htext : Awaits known (some '[') text)
      (hi : IsLetter known i) : Unfinished known (text ++ [i]) .bracketMissing

/-- Reading goes on from some marks, with some characters read before, and is refused: at one of the
marks, or where the text ends. -/
inductive Refused (known : Letters) (stop : Nat) (before : List Char) (ms : List Mark) :
    Located → Prop where
  | inside (word rest : List Mark) {col : Nat} {c : Char} {fault : SignatureFault}
      (hms : ms = word ++ (col, c) :: rest)
      (hfault : Offends known (before ++ chars word) fault c (chars rest)) :
      Refused known stop before ms (fault, col)
  | ended {fault : SignatureFault} (hfault : Unfinished known (before ++ chars ms) fault) :
      Refused known stop before ms (fault, stop)

variable {known : Letters} {stop : Nat} {before : List Char} {fs : List ParamForm}

theorem chars_cons (col : Nat) (c : Char) (ms : List Mark) :
    chars ((col, c) :: ms) = c :: chars ms := rfl

/-- What is refused after some marks is refused with them. -/
theorem Refused.behind (word : List Mark) {ms : List Mark} {e : Located}
    (h : Refused known stop (before ++ chars word) ms e) :
    Refused known stop before (word ++ ms) e := by
  cases h with
  | inside front rest hms hfault =>
    refine .inside (word ++ front) rest (by rw [hms, List.append_assoc]) ?_
    rwa [chars_append, ← List.append_assoc]
  | ended hfault => exact .ended (by rwa [chars_append, ← List.append_assoc])

/-- The first of the marks is refused. -/
theorem Refused.first {col : Nat} {c : Char} {rest : List Mark} {fault : SignatureFault}
    (h : Offends known before fault c (chars rest)) :
    Refused known stop before ((col, c) :: rest) (fault, col) :=
  .inside [] rest rfl (by rwa [chars, List.map_nil, List.append_nil])

theorem isLetter_of_find? {c : Char} {chunk : Chunk} (halpha : c.isAlpha = true)
    (hc : known.find? c = some chunk) : IsLetter known c :=
  ⟨halpha, by rw [Letters.contains, hc]; rfl⟩

theorem chunkOf_error {sign : Option Char} {col : Nat} {c : Char} {rest : List Mark} {e : Located}
    (hbefore : Awaits known sign before) (hc : c.isAlpha = true)
    (h : chunkOf known c col = .error e) :
    Refused known stop before ((col, c) :: rest) e := by
  unfold chunkOf at h
  split at h
  · cases h
  · rename_i hfind
    cases h
    exact .first (.unknownLetter hbefore hc hfind)

theorem readLetter_error {sign : Char} {ms : List Mark} {e : Located}
    (hbefore : Awaits known (some sign) before) (h : readLetter known stop sign ms = .error e) :
    Refused known stop before ms e := by
  unfold readLetter at h
  split at h
  · cases h
    exact .ended (by simpa [chars] using .letterMissing hbefore)
  · rename_i col c rest
    split at h
    · rename_i hc
      cases hchunk : chunkOf known c col with
      | ok chunk =>
        rw [hchunk] at h
        cases h
      | error e' =>
        rw [hchunk] at h
        cases h
        exact chunkOf_error hbefore hc hchunk
    · rename_i hc
      cases h
      exact .first (.letterWanted hbefore (by simpa using hc))

theorem readIndex_error {c : Char} {ms : List Mark} {e : Located} (hbefore : Whole known before fs)
    (hc : IsLetter known c) (h : readIndex known stop ms = .error e) :
    Refused known stop (before ++ [c]) ms e := by
  have hawaits := Awaits.index hbefore hc
  unfold readIndex at h
  split at h
  · rename_i col tail
    have hopened : before ++ [c] ++ chars [(col, '[')] = before ++ [c, '['] := by simp [chars]
    cases hletter : readLetter known stop '[' tail with
    | error e' =>
      rw [hletter] at h
      cases h
      exact .behind [(col, '[')] (by rw [hopened]; exact readLetter_error hawaits hletter)
    | ok found =>
      obtain ⟨chunk, left, hlt⟩ := found
      obtain ⟨col', i, rfl, halpha, hi⟩ := readLetter_sound hletter
      have hi := isLetter_of_find? halpha hi
      have hindex : before ++ [c] ++ chars [(col, '['), (col', i)] = before ++ [c, '['] ++ [i] := by
        simp [chars]
      rw [hletter] at h
      cases left with
      | nil =>
        cases h
        exact .ended (by rw [hindex]; exact .bracketMissing hawaits hi)
      | cons m left =>
        obtain ⟨col'', d⟩ := m
        dsimp only at h
        split at h
        · cases h
        · rename_i hd
          cases h
          exact .inside [(col, '['), (col', i)] left rfl
            (by rw [hindex]; exact .bracketWanted hawaits hi hd)
  · cases h

theorem readCount_error {f : ParamForm} {ms : List Mark} {e : Located}
    (hbefore : Whole known before fs) (hf : f.Lawful known) (hcount : f.count = none)
    (h : readCount known stop ms = .error e) :
    Refused known stop (before ++ f.spell) ms e := by
  unfold readCount at h
  split at h
  · rename_i col tail
    cases hletter : readLetter known stop '@' tail with
    | ok found =>
      rw [hletter] at h
      cases h
    | error e' =>
      rw [hletter] at h
      cases h
      exact .behind [(col, '@')] (readLetter_error (.count hbefore hf hcount) hletter)
  · cases h

theorem head?_chars_ne {ms : List Mark} {sign : Char}
    (h : ∀ col tail, ms = (col, sign) :: tail → False) : (chars ms).head? ≠ some sign := by
  cases ms with
  | nil => simp [chars]
  | cons m tail =>
    obtain ⟨col, c⟩ := m
    rw [chars_cons, List.head?_cons]
    intro hc
    exact h col tail (by rw [Option.some.inj hc])

/-- Where no index was read, none starts. -/
theorem head?_of_readIndex {ms rest : List Mark} {hle : rest.length ≤ ms.length}
    (h : readIndex known stop ms = .ok (none, ⟨rest, hle⟩)) :
    ms = rest ∧ (chars rest).head? ≠ some '[' := by
  unfold readIndex at h
  split at h
  · split at h
    · cases h
    · cases h
    · split at h <;> cases h
  · rename_i hbracket
    cases h
    exact ⟨rfl, head?_chars_ne hbracket⟩

theorem head?_of_readCount {ms rest : List Mark} {hle : rest.length ≤ ms.length}
    (h : readCount known stop ms = .ok (none, ⟨rest, hle⟩)) :
    ms = rest ∧ (chars rest).head? ≠ some '@' := by
  unfold readCount at h
  split at h
  · split at h <;> cases h
  · rename_i hsign
    cases h
    exact ⟨rfl, head?_chars_ne hsign⟩

/-- A count is read from its sign and the letter behind it. -/
theorem marks_of_readCount {ms rest : List Mark} {hle : rest.length ≤ ms.length} {col : Nat}
    {chunk : Chunk} (h : readCount known stop ms = .ok (some (col, chunk), ⟨rest, hle⟩)) :
    ∃ col' n, ms = (col, '@') :: (col', n) :: rest ∧ IsLetter known n := by
  unfold readCount at h
  split at h
  · split at h
    · cases h
    · rename_i hletter
      cases h
      obtain ⟨col', n, rfl, halpha, hn⟩ := readLetter_sound hletter
      exact ⟨col', n, rfl, isLetter_of_find? halpha hn⟩
  · cases h

theorem kindOf_error {chunk : Chunk} {index : Option Chunk} {count : Option (Nat × Chunk)}
    {e : Located} (h : kindOf chunk index count = .error e) :
    ∃ i col n, index = some i ∧ count = some (col, n) ∧ e = (.indexedAndVariadic, col) := by
  unfold kindOf at h
  split at h <;> cases h
  exact ⟨_, _, _, rfl, rfl, rfl⟩

theorem Names.isLetter {letter : Option Char} {chunk : Option Chunk}
    (h : Names known letter chunk) : ∀ c ∈ letter, IsLetter known c := by
  cases h with
  | none => simp
  | some halpha hc => simpa using isLetter_of_find? halpha hc

theorem lawful_of_isLetter {c : Char} {i n : Option Char} (hc : IsLetter known c)
    (hi : ∀ d ∈ i, IsLetter known d) (hn : ∀ d ∈ n, IsLetter known d)
    (hexclusive : i = none ∨ n = none) : ParamForm.Lawful known ⟨c, i, n⟩ := by
  have hall : ∀ d ∈ ParamForm.letters ⟨c, i, n⟩, IsLetter known d := by
    simp only [ParamForm.letters, List.mem_cons, List.mem_append, Option.mem_toList]
    rintro d (rfl | hd | hd)
    · exact hc
    · exact hi d hd
    · exact hn d hd
  exact ⟨fun d hd => (hall d hd).1, fun d hd => (hall d hd).2, hexclusive⟩

/-- One more parameter has been read. -/
theorem Whole.concat {f : ParamForm} (h : Whole known before fs) (hf : f.Lawful known) :
    Whole known (before ++ f.spell) (fs ++ [f]) := by
  have hspell : ∀ fs, spellAll (fs ++ [f]) = spellAll fs ++ f.spell := by simp [spellAll]
  have hlawful : ∀ {fs : List ParamForm}, (∀ f ∈ fs, f.Lawful known) →
      ∀ g ∈ fs ++ [f], g.Lawful known := by
    intro fs hfs
    simpa [or_imp, forall_and] using ⟨hfs, hf⟩
  cases h with
  | inputs hfs =>
    rw [← hspell]
    exact .inputs (hlawful hfs)
  | outputs hfs hgs =>
    rw [List.append_assoc, List.cons_append, List.cons_append, ← hspell]
    exact .outputs hfs (hlawful hgs)

/-- A letter and the index behind it have been read. -/
theorem indexed_of_readIndex {col : Nat} {c : Char} {chunk : Chunk} {ms rest : List Mark}
    {index : Option Chunk} {hle : rest.length ≤ ms.length} (halpha : c.isAlpha = true)
    (hchunk : chunkOf known c col = .ok chunk)
    (h : readIndex known stop ms = .ok (index, ⟨rest, hle⟩)) :
    ∃ i word, ms = word ++ rest ∧ Names known i index ∧
      ParamForm.Lawful known ⟨c, i, none⟩ ∧
      chars ((col, c) :: word) = ParamForm.spell ⟨c, i, none⟩ := by
  obtain ⟨i, word, rfl, hi, hword⟩ := readIndex_sound h
  have hc := isLetter_of_find? halpha (chunkOf_ok hchunk)
  refine ⟨i, word, rfl, hi, lawful_of_isLetter hc hi.isLetter (by simp) (.inr rfl), ?_⟩
  simp [chars_cons, hword, ParamForm.spell, ParamForm.suffix]

/-- A parameter has been read as far as it goes. -/
theorem head?_not_mem_openers {c : Char} {i n : Option Char} {ms afterIndex afterCount : List Mark}
    {index : Option Chunk} {count : Option (Nat × Chunk)} {hle : afterIndex.length ≤ ms.length}
    {hle' : afterCount.length ≤ afterIndex.length} (hi : Names known i index)
    (hn : Names known n (count.map (·.2)))
    (hindex : readIndex known stop ms = .ok (index, ⟨afterIndex, hle⟩))
    (hcount : readCount known stop afterIndex = .ok (count, ⟨afterCount, hle'⟩)) :
    ∀ d ∈ (chars afterCount).head?, d ∉ ParamForm.openers ⟨c, i, n⟩ := by
  intro d hd
  match count, hi, hn with
  | some _, .none, .some _ _ => simp [ParamForm.openers]
  | some _, .some _ _, .some _ _ => simp [ParamForm.openers]
  | none, .some _ _, .none =>
    have hcount := (head?_of_readCount hcount).2
    rw [Option.mem_def.mp hd] at hcount
    simpa [ParamForm.openers] using hcount
  | none, .none, .none =>
    obtain ⟨rfl, hcount⟩ := head?_of_readCount hcount
    have hindex := (head?_of_readIndex hindex).2
    rw [Option.mem_def.mp hd] at hcount hindex
    simpa [ParamForm.openers] using And.intro hindex hcount

/-- What cannot be read as parameters is refused. -/
theorem readParams_error {ms : List Mark} {e : Located} (hbefore : Whole known before fs)
    (hopen : ∀ f ∈ fs.getLast?, ∀ c ∈ (chars ms).head?, c ∉ f.openers)
    (h : readParams known stop ms = .error e) : Refused known stop before ms e := by
  fun_induction readParams known stop ms generalizing before fs with
  | case1 | case2 | case9 => cases h
  | case3 col c rest hminus halpha =>
    cases h
    exact .first (.unexpected hbefore (by simpa using halpha) hminus
      fun f hf => hopen f hf c rfl)
  | case4 col c rest hminus halpha e' hchunk =>
    cases h
    exact chunkOf_error (.param hbefore) (by simpa using halpha) hchunk
  | case5 col c rest hminus halpha chunk hchunk e' hindex =>
    cases h
    have hc := isLetter_of_find? (by simpa using halpha) (chunkOf_ok hchunk)
    exact .behind [(col, c)] (readIndex_error hbefore hc hindex)
  | case6 col c rest hminus halpha chunk hchunk index afterIndex _ hindex e' hcount =>
    cases h
    obtain ⟨i, word, rfl, -, hlawful, hword⟩ :=
      indexed_of_readIndex (by simpa using halpha) hchunk hindex
    refine .behind ((col, c) :: word) ?_
    rw [hword]
    exact readCount_error hbefore hlawful rfl hcount
  | case7 col c rest hminus halpha chunk hchunk index afterIndex _ hindex count afterCount _ hcount
      e' hkind =>
    cases h
    obtain ⟨i, word, rfl, hi, hlawful, hword⟩ :=
      indexed_of_readIndex (by simpa using halpha) hchunk hindex
    obtain ⟨_, col', _, rfl, rfl, rfl⟩ := kindOf_error hkind
    obtain ⟨col'', n, rfl, hn⟩ := marks_of_readCount hcount
    refine .inside ((col, c) :: word) ((col'', n) :: afterCount) rfl ?_
    rw [hword]
    refine .indexedAndVariadic hbefore hlawful ?_ hn
    cases hi
    exact Option.some_ne_none _
  | case8 col c rest hminus halpha chunk hchunk index afterIndex _ hindex count afterCount _ hcount
      kind hkind e' hread ih =>
    cases h
    have hc := isLetter_of_find? (by simpa using halpha) (chunkOf_ok hchunk)
    obtain ⟨i, iword, hrest, hi, hiword⟩ := readIndex_sound hindex
    obtain ⟨n, nword, hafter, hn, hnword⟩ := readCount_sound hcount
    have hexclusive : i = none ∨ n = none := by
      cases kindOf_sound (chunkOf_ok hchunk) hi hn hkind <;> simp
    have hword : chars ((col, c) :: (iword ++ nword)) = ParamForm.spell ⟨c, i, n⟩ := by
      simp [chars_cons, hiword, hnword, ParamForm.spell, ParamForm.suffix]
    have hmore := ih
      (hbefore.concat (lawful_of_isLetter hc hi.isLetter hn.isLetter hexclusive))
      (by simpa using head?_not_mem_openers hi hn hindex hcount) hread
    rw [← hword] at hmore
    have hall := hmore.behind
    rwa [List.cons_append, List.append_assoc, ← hafter, ← hrest] at hall

/-- What cannot be read as a signature is refused. -/
theorem readMarks_error {text : String} {e : Located}
    (h : readMarks known (marks text) = .error e) :
    Refused known (endCol (marks text)) [] (marks text) e := by
  have hstart : marks text = [] ++ marks text := rfl
  have hnone : Whole known [] [] := .inputs (List.forall_mem_nil _)
  unfold readMarks at h
  dsimp only at h
  generalize endCol (marks text) = stop at h ⊢
  split at h
  · rename_i hread
    cases h
    exact readParams_error hnone (by simp) hread
  · cases h
  · rename_i inputs col c col' rest hread
    obtain ⟨fs, word, hword, hspell, hfs, -, hends⟩ := readParams_sound [] hstart hread
    obtain rfl : c = '-' := hends c rfl
    have hmarks : marks text = (word ++ [(col, '-'), (col', '>')]) ++ rest := by simpa using hword
    have hbefore : ∀ word' gs, chars word' = spellAll gs →
        chars (word ++ [(col, '-'), (col', '>')] ++ word')
          = spellAll fs ++ '-' :: '>' :: spellAll gs := by
      intro word' gs hword'
      rw [chars_append, chars_append, hspell, hword', List.append_assoc]
      rfl
    split at h
    · rename_i hread'
      cases h
      have hrefused := readParams_error (.outputs hfs (List.forall_mem_nil _)) (by simp) hread'
      rw [← hbefore [] [] rfl, List.append_nil] at hrefused
      rw [hmarks]
      exact .behind _ hrefused
    · cases h
    · rename_i outputs col'' d tail hread'
      cases h
      obtain ⟨gs, word', rfl, hspell', hgs, -, hends'⟩ := readParams_sound _ hmarks hread'
      obtain rfl : d = '-' := hends' d rfl
      refine .inside _ tail (by rw [hmarks, ← List.append_assoc]) ?_
      rw [List.nil_append, hbefore word' gs hspell']
      exact .secondArrow hfs hgs
  · rename_i inputs col c tail harrow hread
    cases h
    obtain ⟨fs, word, hword, hspell, hfs, -, hends⟩ := readParams_sound [] hstart hread
    obtain rfl : c = '-' := hends c rfl
    refine .inside word tail hword ?_
    rw [List.nil_append, hspell]
    exact .arrowWanted hfs (head?_chars_ne harrow)

/-- A mark in the text: a character that is not blank, between what the other marks are the rest of. -/
theorem exists_of_marks {text : String} {word rest : List Mark} {col : Nat} {c : Char}
    (h : marks text = word ++ (col, c) :: rest) :
    ∃ front back, text.toList = front ++ c :: back ∧ col = front.length + 1 ∧
      kept front = chars word ∧ kept back = chars rest ∧ Text.isBlank c = false := by
  obtain ⟨front, back, htext, hcol, hfront⟩ := atColumn_of_marksFrom h
  have hkept : kept (c :: back) = c :: chars rest := by
    have hall := (chars_marks text).symm.trans (congrArg chars h)
    rw [htext, kept, List.filter_append, ← kept, hfront, chars_append] at hall
    exact List.append_cancel_left hall
  have hc : Text.isBlank c = false := by
    have hmem : c ∈ kept (c :: back) := hkept ▸ List.mem_cons_self
    simpa using List.of_mem_filter hmem
  refine ⟨front, back, htext, by omega, hfront, ?_, hc⟩
  simpa [kept, hc] using hkept

end StackForge.Signature

namespace StackForge

open Signature

/-- The line of the character behind these. -/
def Text.lineBehind (front : List Char) : Nat := front.count '\n' + 1

/-- The column of the character behind these. -/
def Text.colBehind (front : List Char) : Nat :=
  (front.reverse.takeWhile (· ≠ '\n')).length + 1

/-- A diagnostic says where the character behind these stands and quotes its line. -/
structure Diagnostic.PointsAt (d : Diagnostic) (src : Source) (front : List Char) : Prop where
  span : d.span = Span.point (Text.lineBehind front) (Text.colBehind front)
  line : src.line? (Text.lineBehind front) = some d.sourceLine

theorem Text.lineBehind_eq_one_iff {front : List Char} : lineBehind front = 1 ↔ '\n' ∉ front := by
  simp [lineBehind, List.count_eq_zero]

theorem Text.colBehind_eq {front : List Char} (h : '\n' ∉ front) :
    colBehind front = front.length + 1 := by
  have hall : ∀ c ∈ front.reverse, decide (c ≠ '\n') = true := by
    intro c hc
    simpa using ne_of_mem_of_not_mem (List.mem_reverse.mp hc) h
  rw [colBehind, List.takeWhile_eq_self_iff.mpr hall, List.length_reverse]

theorem Text.split_zero (cs : List Char) : (split cs)[0]? = some (cs.takeWhile (· ≠ '\n')) := by
  induction cs with
  | nil => rfl
  | cons c cs ih =>
    unfold split
    by_cases hc : c = '\n'
    · simp [hc]
    · rw [if_neg hc]
      cases hsplit : split cs with
      | nil => exact absurd hsplit (split_ne_nil cs)
      | cons line rest =>
        rw [hsplit] at ih
        simpa [hc] using ih

theorem Source.line?_one (src : Source) :
    src.line? 1
      = some (String.ofList (stripReturns (src.text.toList.takeWhile (· ≠ '\n')))) := by
  simp [line?, lines, Text.split_zero]

/-- A character that is not blank is found on the first line exactly if no newline comes before it. -/
theorem Source.getElem?_firstLine {front back : List Char} {c : Char}
    (hc : Text.isBlank c = false) :
    (stripReturns ((front ++ c :: back).takeWhile (· ≠ '\n')))[front.length]? = some c
      ↔ '\n' ∉ front := by
  obtain ⟨k, hk⟩ := Token.stripReturns_append ((front ++ c :: back).takeWhile (· ≠ '\n'))
  generalize stripReturns ((front ++ c :: back).takeWhile (· ≠ '\n')) = line at hk ⊢
  have hblank : ∀ d, Text.isBlank d = true → c ≠ d := by
    rintro d hd rfl
    rw [hc] at hd
    cases hd
  constructor
  · intro hline hmem
    obtain ⟨hlt, -⟩ := List.getElem?_eq_some_iff.mp hline
    have hlong : front.length ≤ ((front ++ c :: back).takeWhile (· ≠ '\n')).length := by
      rw [hk, List.length_append]
      omega
    have hfront : front <+: (front ++ c :: back).takeWhile (· ≠ '\n') :=
      List.prefix_of_prefix_length_le (List.prefix_append _ _) (List.takeWhile_prefix _) hlong
    simpa using List.mem_takeWhile_imp (hfront.subset hmem)
  · intro hmem
    have hall : ∀ d ∈ front, decide (d ≠ '\n') = true := by
      intro d hd
      simpa using ne_of_mem_of_not_mem hd hmem
    rw [List.takeWhile_append_of_pos hall,
      List.takeWhile_cons_of_pos (by simpa using hblank '\n' (by decide))] at hk
    have hat : (line ++ List.replicate k '\r')[front.length]? = some c := by simp [← hk]
    by_cases hlt : front.length < line.length
    · rwa [List.getElem?_append_left hlt] at hat
    · rw [List.getElem?_append_right (Nat.le_of_not_lt hlt)] at hat
      exact absurd (List.eq_of_mem_replicate (List.mem_of_getElem? hat)) (hblank '\r' (by decide))

/-- The report of a fault that is about a character. -/
theorem Source.pointsAt_iff (src : Source) {d : Diagnostic} {front : List Char}
    (hspan : d.span = Span.point 1 (front.length + 1)) (hline : src.line? 1 = some d.sourceLine) :
    d.PointsAt src front ↔ '\n' ∉ front := by
  constructor
  · intro h
    have hfirst := congrArg Span.startLine (hspan.symm.trans h.span)
    exact Text.lineBehind_eq_one_iff.mp hfirst.symm
  · intro hmem
    have hfirst := Text.lineBehind_eq_one_iff.mpr hmem
    exact ⟨by rw [hspan, hfirst, Text.colBehind_eq hmem], by rw [hfirst, hline]⟩

/-- A signature is refused with one error. It is about a character at which reading had to stop, or
about the end of a text that is not finished. An error about a character is located on the first
line, at the number of the character in the text. That is the place of the character, and the quoted
line shows it there, if and only if no newline comes before it. -/
theorem signature_errors_point_iff (known : Letters) (src : Source) (log : Log)
    (h : read known src = .error log) :
    ∃ d fault, log = { errors := [d], totalErrors := 1 } ∧ d.origin = src.origin ∧
      d.code = fault.code ∧ d.message = fault.message ∧
      ((∃ front c back, src.text.toList = front ++ c :: back ∧
          Offends known (kept front) fault c (kept back) ∧
          d.span = Span.point 1 (front.length + 1) ∧
          (d.PointsAt src front ↔ '\n' ∉ front) ∧
          (d.sourceLine.toList[d.span.startCol - 1]? = some c ↔ '\n' ∉ front)) ∨
        Unfinished known (kept src.text.toList) fault) := by
  unfold Signature.read at h
  split at h
  · cases h
  · rename_i fault col hread
    have hrefused := readMarks_error hread
    extract_lets d at h
    cases h
    refine ⟨{ d with suggestion := fault.suggestion }, fault, rfl, rfl, rfl, rfl, ?_⟩
    cases hrefused with
    | inside word rest hms hfault =>
      obtain ⟨front, back, htext, rfl, hfront, hback, hc⟩ := exists_of_marks hms
      have hline : src.line? 1 = some d.sourceLine := by
        have hone := src.line?_one
        rw [hone]
        simp [d, Source.diagnose, Diagnostic.make, Source.lineOf, Span.point, hone]
      refine .inl ⟨front, _, back, htext, ?_, rfl, src.pointsAt_iff rfl hline, ?_⟩
      · rwa [hfront, hback]
      · rw [src.line?_one, htext] at hline
        rw [← Source.getElem?_firstLine hc, ← Option.some.inj hline, String.toList_ofList]
        rfl
    | ended hfault =>
      rw [List.nil_append, chars_marks] at hfault
      exact .inr hfault

/-- A letter without a chunk on the first of two lines: the error points at it. -/
theorem signature_errors_point_unknown :
    ∃ d, Signature.read (Draft.stackMachine "t" .double).letters ⟨"t", "S X\n->S"⟩
        = .error { errors := [d], totalErrors := 1 } ∧
      d.message = "unknown chunk letter 'X'" ∧ d.PointsAt ⟨"t", "S X\n->S"⟩ ['S', ' '] ∧
      d.sourceLine = "S X" := by
  have hread : Signature.read (Draft.stackMachine "t" .double).letters ⟨"t", "S X\n->S"⟩
      = .error { errors := [⟨"t", .undeclaredChunk, .error, .chunk, "unknown chunk letter 'X'",
          Span.point 1 3, "S X", some "declared letters: ACDPS"⟩], totalErrors := 1 } := by
    decide +kernel
  refine ⟨_, hread, rfl, ?_, rfl⟩
  obtain ⟨d, fault, hlog, -, hcode, -, hplace⟩ := signature_errors_point_iff _ _ _ hread
  obtain rfl := List.singleton_inj.mp (Log.mk.inj hlog).1
  rcases hplace with ⟨front, c, back, htext, -, hspan, hpoints, -⟩ | hfault
  · obtain rfl : front = ['S', ' '] := by
      have hlength : front.length = 2 := Nat.succ.inj (congrArg Span.startCol hspan).symm
      have hfront := congrArg (List.take front.length) htext
      rw [List.take_left, hlength] at hfront
      exact hfront.symm
    exact hpoints.mpr (by decide)
  · generalize kept _ = text at hfault
    cases hfault <;> cases hcode

/-- A character on the second line: the error is located on the first one, behind its end. -/
theorem error_on_second_line_misplaced :
    ∃ d, Signature.read (Draft.stackMachine "t" .double).letters ⟨"t::x", "S\n1"⟩
        = .error { errors := [d], totalErrors := 1 } ∧
      d.message = "unexpected '1' in signature" ∧ "S\n1".toList = ['S', '\n'] ++ '1' :: [] ∧
      d.span = Span.point 1 3 ∧ d.sourceLine = "S" ∧
      ¬d.PointsAt ⟨"t::x", "S\n1"⟩ ['S', '\n'] := by
  have hread : Signature.read (Draft.stackMachine "t" .double).letters ⟨"t::x", "S\n1"⟩
      = .error { errors := [⟨"t::x", .malformedSignature, .error, .grammar,
          "unexpected '1' in signature", Span.point 1 3, "S", none⟩], totalErrors := 1 } := by
    decide +kernel
  refine ⟨_, hread, rfl, by decide, rfl, rfl, ?_⟩
  intro h
  cases h.span

end StackForge
