import StackForge.Proofs.Lexing

/-!
Places in a text. A place counts the newlines before it and the bytes behind the last of them, and
the lines of a text are looked up in a table that is made apart from reading: bytes that stand on
one line are found there, at their columns.
-/
namespace StackForge.Token

/-- The number of the line behind some bytes. -/
def lineAt (before : List UInt8) : Nat := before.count 10 + 1

/-- The number of the column behind some bytes. -/
def colAt (before : List UInt8) : Nat := (before.reverse.takeWhile (· ≠ 10)).length + 1

theorem lineAt_append {text : List UInt8} (h : 10 ∉ text) (before : List UInt8) :
    lineAt (before ++ text) = lineAt before := by
  simp [lineAt, List.count_eq_zero.mpr h]

theorem colAt_append {text : List UInt8} (h : 10 ∉ text) (before : List UInt8) :
    colAt (before ++ text) = colAt before + text.length := by
  have hne : ∀ b ∈ text.reverse, decide (b ≠ 10) = true := by
    intro b hb
    simpa using ne_of_mem_of_not_mem (List.mem_reverse.mp hb) h
  rw [colAt, List.reverse_append, List.takeWhile_append_of_pos hne, List.length_append,
    List.length_reverse, colAt]
  omega

theorem Place.next_at (before : List UInt8) (b : UInt8) :
    Place.next ⟨lineAt before, colAt before⟩ b
      = ⟨lineAt (before ++ [b]), colAt (before ++ [b])⟩ := by
  by_cases hb : b = 10
  · simp [Place.next, lineAt, colAt, hb]
  · have hmem : 10 ∉ [b] := by simpa using Ne.symm hb
    rw [lineAt_append hmem, colAt_append hmem, Place.next, if_neg hb]
    rfl

/-- Reading on moves the place along. -/
theorem Place.after_at (before text : List UInt8) :
    Place.after ⟨lineAt before, colAt before⟩ text
      = ⟨lineAt (before ++ text), colAt (before ++ text)⟩ := by
  induction text generalizing before with
  | nil => simp [Place.after]
  | cons b text ih =>
    have htail := ih (before ++ [b])
    rw [← Place.next_at, List.append_assoc, List.singleton_append] at htail
    exact htail

/-- Bytes reach back to the last newline, or to the start. -/
theorem exists_lastLine (before : List UInt8) :
    (10 ∉ before ∧ lineAt before = 1 ∧ colAt before = before.length + 1) ∨
    ∃ above line, before = above ++ 10 :: line ∧ 10 ∉ line ∧ lineAt before = lineAt above + 1 ∧
      colAt before = line.length + 1 := by
  by_cases h : 10 ∈ before
  · obtain ⟨line, above, hbefore, hline⟩ :=
      List.eq_append_cons_of_mem (List.mem_reverse.mpr h)
    obtain rfl : before = above.reverse ++ 10 :: line.reverse := by
      rw [← List.reverse_reverse before, hbefore]
      simp
    have hmem : 10 ∉ line.reverse := by simpa using hline
    have hnewline : above.reverse ++ 10 :: line.reverse = (above.reverse ++ [10]) ++ line.reverse := by
      simp
    refine .inr ⟨above.reverse, line.reverse, rfl, hmem, ?_, ?_⟩
    · rw [hnewline, lineAt_append hmem]
      simp [lineAt]
    · rw [hnewline, colAt_append hmem]
      simp [colAt]
      omega
  · refine .inl ⟨h, ?_, ?_⟩
    · exact lineAt_append h []
    · rw [Nat.add_comm]
      exact colAt_append h []

theorem length_splitOn (bs : List UInt8) : (bs.splitOn 10).length = lineAt bs := by
  induction bs with
  | nil => rfl
  | cons b bs ih =>
    rw [List.splitOn_cons_eq_if_modifyHead]
    by_cases hb : b = 10
    · simp [hb, ih, lineAt]
    · simp [hb, ih, lineAt]

theorem splitOn_zero (bs : List UInt8) :
    (bs.splitOn 10)[0]? = some (bs.takeWhile (· ≠ 10)) := by
  induction bs with
  | nil => rfl
  | cons b bs ih =>
    rw [List.splitOn_cons_eq_if_modifyHead]
    by_cases hb : b = 10
    · simp [hb]
    · simp [hb, ih]

/-- The line of a place holds what stands before the place, as far as the column says, and goes on
with what stands behind it. -/
theorem splitOn_lineAt (before behind : List UInt8) :
    ∃ line, ((before ++ behind).splitOn 10)[lineAt before - 1]?
        = some (line ++ behind.takeWhile (· ≠ 10)) ∧ line.length + 1 = colAt before := by
  have hfirst : ∀ line : List UInt8, 10 ∉ line →
      ((line ++ behind).splitOn 10)[0]? = some (line ++ behind.takeWhile (· ≠ 10)) := by
    intro line hline
    rw [splitOn_zero, List.takeWhile_append_of_pos]
    simpa using fun b hb => ne_of_mem_of_not_mem hb hline
  rcases exists_lastLine before with ⟨hmem, hline, hcol⟩ | ⟨above, line, rfl, hmem, hline, hcol⟩
  · exact ⟨before, by rw [hline]; exact hfirst before hmem, hcol.symm⟩
  · refine ⟨line, ?_, hcol.symm⟩
    rw [hline, List.append_assoc, List.cons_append, List.splitOn_append_cons_self,
      List.getElem?_append_right (by rw [length_splitOn]; omega), length_splitOn]
    simpa using hfirst line hmem

/-- A newline byte is in the encoding of a newline only: longer encodings have the highest bit of
every byte set. -/
theorem eq_newline_of_mem_utf8EncodeChar {c : Char} (h : 10 ∈ String.utf8EncodeChar c) :
    c = '\n' := by
  have hval : c.val.toNat = 10 := by
    simp only [String.utf8EncodeChar] at h
    repeat' split at h
    all_goals
      simp only [List.mem_cons, List.not_mem_nil, or_false, ← UInt8.toNat_inj, UInt8.toNat_ofNat,
        UInt8.toNat_ofNat'] at h
      omega
  exact Char.ext (UInt32.toNat_inj.mp hval)

theorem splitOn_append {text : List UInt8} (h : 10 ∉ text) (rest : List UInt8) :
    (text ++ rest).splitOn 10 = (rest.splitOn 10).modifyHead (text ++ ·) := by
  induction text with
  | nil => exact (congrFun List.modifyHead_id _).symm
  | cons b text ih =>
    have hb : ¬(b == 10) = true := by
      rw [beq_iff_eq]
      rintro rfl
      exact h List.mem_cons_self
    rw [List.cons_append, List.splitOn_cons_eq_if_modifyHead, if_neg hb,
      ih (fun hmem => h (List.mem_cons_of_mem b hmem)), List.modifyHead_modifyHead]
    rfl

/-- The lines of a text are encoded to the lines of its encoding. -/
theorem map_split (cs : List Char) :
    (Text.split cs).map (·.flatMap String.utf8EncodeChar)
      = (cs.flatMap String.utf8EncodeChar).splitOn 10 := by
  induction cs with
  | nil => rfl
  | cons c cs ih =>
    rw [Text.split, List.flatMap_cons]
    by_cases hc : c = '\n'
    · have hnewline : String.utf8EncodeChar '\n' = [10] := by decide
      rw [if_pos hc, hc, List.map_cons, ih, hnewline, List.singleton_append,
        List.splitOn_cons_eq_if_modifyHead]
      rfl
    · rw [if_neg hc, splitOn_append (mt eq_newline_of_mem_utf8EncodeChar hc), ← ih]
      cases hsplit : Text.split cs with
      | nil => exact absurd hsplit (Text.split_ne_nil cs)
      | cons line rest => simp

/-- A line is written with returns at its end, which are taken away. -/
theorem stripReturns_append (line : List Char) :
    ∃ k, line = Source.stripReturns line ++ List.replicate k '\r' := by
  refine ⟨(line.reverse.takeWhile (· = '\r')).length, ?_⟩
  have hreturns : line.reverse.takeWhile (· = '\r')
      = List.replicate (line.reverse.takeWhile (· = '\r')).length '\r' := by
    refine List.eq_replicate_iff.mpr ⟨rfl, ?_⟩
    intro c hc
    simpa using List.all_eq_true.mp List.all_takeWhile c hc
  rw [Source.stripReturns, ← List.reverse_replicate, ← hreturns, ← List.reverse_append,
    List.takeWhile_append_dropWhile, List.reverse_reverse]

/-- Returns at the end do not belong to a text that has none. -/
theorem exists_of_append_returns {line before text behind : List UInt8} {k : Nat}
    (h : line ++ List.replicate k 13 = before ++ text ++ behind) (hne : text ≠ [])
    (htext : 13 ∉ text) : ∃ rest, line = before ++ text ++ rest := by
  rcases List.append_eq_append_iff.mp h with ⟨returns, hbefore, hreturns⟩ | ⟨rest, hline, -⟩
  · rcases List.eq_nil_or_concat returns with rfl | ⟨returns, b, rfl⟩
    · exact ⟨[], by simpa using hbefore.symm⟩
    · obtain ⟨text, b', rfl⟩ := (List.eq_nil_or_concat text).resolve_left hne
      have hb : b = 13 := List.eq_of_mem_replicate (by rw [hreturns]; simp)
      have hsame : b' = b := by
        have hlast := congrArg List.getLast? hbefore
        simpa [← List.append_assoc] using hlast
      simp [hsame, hb] at htext
  · exact ⟨rest, hline⟩

/-- What stands on one line is found on that line, at its columns. -/
theorem line?_lineAt {src : Source} {before text behind : List UInt8}
    (hsrc : bytes src.text = before ++ (text ++ behind)) (hne : text ≠ [])
    (hblank : ∀ b ∈ text, Piece.isBlank b = false) :
    ∃ line, src.line? (lineAt before) = some line ∧
      colAt before + text.length - 1 ≤ (bytes line).length ∧
      (bytes line).extract (colAt before - 1) (colAt before + text.length - 1) = text := by
  have hmem : ∀ b, Piece.isBlank b = true → b ∉ text := by
    intro b hb hmem
    rw [hblank b hmem] at hb
    cases hb
  obtain ⟨start, hstart, hcol⟩ := splitOn_lineAt before (text ++ behind)
  have hbytes : bytes src.text = src.text.toList.flatMap String.utf8EncodeChar := by
    rw [← bytes_ofList, String.ofList_toList]
  have htake : (text ++ behind).takeWhile (· ≠ 10) = text ++ behind.takeWhile (· ≠ 10) :=
    List.takeWhile_append_of_pos
      (by simpa using fun b hb => ne_of_mem_of_not_mem hb (hmem 10 rfl))
  rw [← hsrc, hbytes, ← map_split, List.getElem?_map, htake] at hstart
  obtain ⟨chars, hchars, hencode⟩ := Option.map_eq_some_iff.mp hstart
  obtain ⟨k, hk⟩ := stripReturns_append chars
  have hreturns : (List.replicate k '\r').flatMap String.utf8EncodeChar = List.replicate k 13 := by
    have hreturn : String.utf8EncodeChar '\r' = [13] := by decide
    simp [List.flatMap_replicate, hreturn]
  rw [hk, List.flatMap_append, hreturns, ← List.append_assoc] at hencode
  obtain ⟨rest, hrest⟩ := exists_of_append_returns hencode hne (hmem 13 rfl)
  refine ⟨String.ofList (Source.stripReturns chars), ?_, ?_⟩
  · rw [Source.line?, if_neg (by simp [lineAt]), Source.lines, List.getElem?_map, hchars]
    rfl
  · rw [bytes_ofList, hrest, ← hcol]
    constructor
    · simp
    · simp [List.extract_eq_take_drop]

end StackForge.Token
