import StackForge.Proofs.Pieces
import StackForge.Proofs.Places
import StackForge.Proofs.Relaid

/-!
What the words of a text are. Up to the error that fills the log, the text is its pieces in order, and
there is one way to cut it. Each piece is a blank or a comment, or a byte that is reported, or a word,
which stands on one line at the columns of its span.
-/
namespace StackForge.Token

open Piece (Cut Heads)

/-- Other pieces than blanks and comments have no blank in them. -/
theorem Piece.Heads.isBlank_eq_false {bs rest : List UInt8} {piece : Piece}
    (h : Heads bs piece rest) (hpiece : piece.isTrivia = false) :
    ∀ b ∈ piece.bytes, isBlank b = false := by
  cases h with
  | blank | comment => cases hpiece
  | number h => exact isBlank_of_isNumber h.holds
  | name h => exact isBlank_of_isName h.holds
  | mark hb hslash => simpa [bytes] using (class_of_mark? hb).1
  | stray hblank => simpa [bytes] using hblank

/-- A piece of a text, with all that stands before it. -/
structure Segment where
  before : List UInt8
  piece : Piece

/-- Pieces in a row, behind some bytes. -/
def segmentsFrom : List UInt8 → List Piece → List Segment
  | _, [] => []
  | before, piece :: pieces => ⟨before, piece⟩ :: segmentsFrom (before ++ piece.bytes) pieces

namespace Segment

/-- The columns of its line that a piece takes up. -/
def span (s : Segment) : Span :=
  ⟨lineAt s.before, colAt s.before, lineAt s.before, colAt s.before + s.piece.bytes.length - 1⟩

/-- The word of a piece. A number beyond the finite doubles is the word for zero. -/
def word? (s : Segment) : Option Token :=
  match s.piece with
  | .blank _ | .comment _ | .stray _ => none
  | .name text => some ⟨nameKind text, s.span⟩
  | .mark kind _ => some ⟨kind, s.span⟩
  | .number text =>
    some ⟨.number (if (numberValue text).isFinite then numberValue text else .zero), s.span⟩

/-- What is wrong with a piece. -/
def fault? (s : Segment) : Option SyntaxFault :=
  match s.piece with
  | .blank _ | .comment _ | .name _ | .mark _ _ => none
  | .number text =>
    if (numberValue text).isFinite then none else some (.numberOverflow (latinText text))
  | .stray b => some (.strayByte b)

def report? (src : Source) (s : Segment) : Option Diagnostic :=
  s.fault?.map fun fault => fault.diagnostic src s.span

end Segment

/-- The words of pieces in a row. -/
def wordsFrom (before : List UInt8) (pieces : List Piece) : List Token :=
  (segmentsFrom before pieces).filterMap Segment.word?

/-- The reports of pieces in a row. -/
def reportsFrom (src : Source) (before : List UInt8) (pieces : List Piece) : List Diagnostic :=
  (segmentsFrom before pieces).filterMap (Segment.report? src)

/-- The place behind some bytes. -/
def placeAt (before : List UInt8) : Place := ⟨lineAt before, colAt before⟩

@[simp] theorem wordsFrom_nil (before : List UInt8) : wordsFrom before [] = [] := rfl

@[simp] theorem reportsFrom_nil (src : Source) (before : List UInt8) :
    reportsFrom src before [] = [] := rfl

theorem wordsFrom_cons (before : List UInt8) (piece : Piece) (pieces : List Piece) :
    wordsFrom before (piece :: pieces)
      = (Segment.word? ⟨before, piece⟩).toList ++ wordsFrom (before ++ piece.bytes) pieces := by
  rw [wordsFrom, segmentsFrom, List.filterMap_cons]
  cases Segment.word? ⟨before, piece⟩ <;> rfl

theorem reportsFrom_cons (src : Source) (before : List UInt8) (piece : Piece)
    (pieces : List Piece) :
    reportsFrom src before (piece :: pieces)
      = (Segment.report? src ⟨before, piece⟩).toList
        ++ reportsFrom src (before ++ piece.bytes) pieces := by
  rw [reportsFrom, segmentsFrom, List.filterMap_cons]
  cases Segment.report? src ⟨before, piece⟩ <;> rfl

/-- The place moves over a piece of one line by its length. -/
theorem upTo_eq_span {before bs rest : List UInt8} {piece : Piece} (h : Heads bs piece rest)
    (hpiece : piece.isTrivia = false) :
    (placeAt before).upTo ((placeAt before).after piece.bytes) = Segment.span ⟨before, piece⟩ := by
  have hnewline : 10 ∉ piece.bytes := by
    intro hmem
    cases h.isBlank_eq_false hpiece 10 hmem
  have hcol : 1 ≤ colAt before := Nat.le_add_left 1 _
  rw [placeAt, Place.after_at, lineAt_append hnewline, colAt_append hnewline]
  have hlast : max (colAt before + piece.bytes.length - 1) 1
      = colAt before + piece.bytes.length - 1 := by
    have hpos := List.length_pos_iff.mpr h.bytes_ne_nil
    omega
  rw [Place.upTo, hlast]
  rfl

/-- One piece: its word and its report come first, and reading goes on unless the log is full. -/
theorem ofPieces_cons (src : Source) (before : List UInt8) {log : Log} {bs rest : List UInt8}
    {piece : Piece} (h : Heads bs piece rest) (hlog : log.isFull = false) (pieces : List Piece) :
    let log' := log.pushAll (Segment.report? src ⟨before, piece⟩).toList
    let next := placeAt (before ++ piece.bytes)
    let behind := if log'.isFull then ([⟨.eof, next.point⟩], log') else ofPieces src next log' pieces
    ofPieces src (placeAt before) log (piece :: pieces)
      = ((Segment.word? ⟨before, piece⟩).toList ++ behind.1, behind.2) := by
  intro log' next behind
  have hspan := @upTo_eq_span before _ _ _ h
  have hafter : (placeAt before).after piece.bytes = next := Place.after_at before piece.bytes
  rw [hafter] at hspan
  cases piece with
  | blank b | comment text =>
    have hbehind : behind = ofPieces src next log pieces := by
      simp [behind, log', Segment.report?, Segment.fault?, hlog]
    rw [ofPieces, hafter, hbehind]
    rfl
  | name text | mark kind b =>
    have hbehind : behind = ofPieces src next log pieces := by
      simp [behind, log', Segment.report?, Segment.fault?, hlog]
    simp [ofPieces, hafter, hbehind, hlog, hspan rfl, Segment.word?]
  | number text =>
    by_cases hfinite : (numberValue text).isFinite = true
    · have hbehind : behind = ofPieces src next log pieces := by
        simp [behind, log', Segment.report?, Segment.fault?, hlog, hfinite]
      simp [ofPieces, hafter, hbehind, hlog, hspan rfl, Segment.word?, hfinite]
    · have hlog' : log' = log.push ((SyntaxFault.numberOverflow (latinText text)).diagnostic src
          (Segment.span ⟨before, .number text⟩)) := by
        simp [log', Segment.report?, Segment.fault?, hfinite]
      cases hfull : log'.isFull with
      | true => simp [ofPieces, hafter, hspan rfl, hfinite, ← hlog', behind, hfull, Segment.word?]
      | false => simp [ofPieces, hafter, hspan rfl, hfinite, ← hlog', behind, hfull, Segment.word?]
  | stray b =>
    rw [ofPieces, hafter, hspan rfl]
    rfl

/-- Pieces in a row: reading gives the words and the reports of those before the log is full. -/
theorem ofPieces_cut (src : Source) {bs : List UInt8} {pieces : List Piece} (h : Cut bs pieces [])
    (before : List UInt8) {log : Log} (hlog : log.isFull = false) :
    ∃ read unread, Cut bs read unread ∧
      ofPieces src (placeAt before) log pieces
        = (wordsFrom before read ++ [⟨.eof, (placeAt (before ++ read.flatMap Piece.bytes)).point⟩],
          log.pushAll (reportsFrom src before read)) ∧
      (unread ≠ [] → (log.pushAll (reportsFrom src before read)).isFull = true) ∧
      ∀ taken last, read = taken ++ [last] →
        (log.pushAll (reportsFrom src before taken)).isFull = false := by
  induction pieces generalizing bs before log with
  | nil =>
    cases h
    exact ⟨[], [], .nil, by simp [ofPieces], by simp, by simp⟩
  | cons piece pieces ih =>
    obtain _ | ⟨hpiece, hpieces⟩ := h
    have hstep := ofPieces_cons src before hpiece hlog pieces
    dsimp only at hstep
    generalize hlog' : log.pushAll (Segment.report? src ⟨before, piece⟩).toList = log' at hstep
    cases hfull : log'.isFull with
    | true =>
      rw [hfull] at hstep
      refine ⟨[piece], _, .cons hpiece .nil, ?_, ?_, ?_⟩
      · simp [hstep, wordsFrom_cons, reportsFrom_cons, hlog']
      · simp [reportsFrom_cons, hlog', hfull]
      · intro taken last hread
        obtain ⟨rfl, -⟩ : taken = [] ∧ last = piece := by
          simpa using List.append_eq_singleton_iff.mp hread.symm
        exact hlog
    | false =>
      rw [hfull] at hstep
      obtain ⟨read, unread, hread, hrun, hunread, hlast⟩ := ih hpieces (before ++ piece.bytes) hfull
      have hreports : ∀ ps, log.pushAll (reportsFrom src before (piece :: ps))
          = log'.pushAll (reportsFrom src (before ++ piece.bytes) ps) := by
        intro ps
        rw [reportsFrom_cons, Log.pushAll_append, hlog']
      refine ⟨piece :: read, unread, .cons hpiece hread, ?_, ?_, ?_⟩
      · simp [hstep, hrun, wordsFrom_cons, hreports]
      · simpa [hreports] using hunread
      · intro taken last htaken
        cases taken with
        | nil => exact hlog
        | cons first taken =>
          obtain ⟨rfl, hmore⟩ := List.cons.inj htaken
          rw [hreports]
          exact hlast taken last hmore

theorem severity_of_mem_reportsFrom {src : Source} {before : List UInt8} {pieces : List Piece} :
    ∀ d ∈ reportsFrom src before pieces, d.severity = .error := by
  intro d hd
  obtain ⟨s, -, hs⟩ := List.mem_filterMap.mp hd
  obtain ⟨fault, -, rfl⟩ := Option.map_eq_some_iff.mp hs
  rfl

/-- The log of reports is full from the twentieth on. -/
theorem isFull_reportsFrom (src : Source) (before : List UInt8) (pieces : List Piece) :
    (Log.empty.pushAll (reportsFrom src before pieces)).isFull = true
      ↔ Log.capacity ≤ (reportsFrom src before pieces).length := by
  have hcount : (reportsFrom src before pieces).countP (·.severity = .error)
      = (reportsFrom src before pieces).length :=
    List.countP_eq_length.mpr (by simpa using severity_of_mem_reportsFrom)
  simp [Log.isFull, Log.totalErrors_pushAll, hcount, Log.empty]

theorem length_reportsFrom_concat (src : Source) (before : List UInt8) (taken : List Piece)
    (last : Piece) :
    (reportsFrom src before (taken ++ [last])).length
      ≤ (reportsFrom src before taken).length + 1 := by
  induction taken generalizing before with
  | nil => simp [reportsFrom_cons, Option.length_toList_le]
  | cons piece taken ih =>
    have hmore := ih (before ++ piece.bytes)
    simp only [List.cons_append, reportsFrom_cons, List.length_append]
    omega

/-- Pieces stand in the text where their segments say. -/
theorem heads_of_mem_segmentsFrom {before bs unread : List UInt8} {pieces : List Piece}
    {s : Segment} (h : Cut bs pieces unread) (hs : s ∈ segmentsFrom before pieces) :
    ∃ rest, Heads (s.piece.bytes ++ rest) s.piece rest ∧
      before ++ bs = s.before ++ (s.piece.bytes ++ rest) := by
  induction h generalizing before with
  | nil => cases hs
  | @cons bs mid unread piece pieces hpiece _ ih =>
    obtain ⟨-, -, -, -, hbytes⟩ := hpiece.eq_first
    rcases List.mem_cons.mp hs with rfl | hs
    · exact ⟨mid, hbytes ▸ hpiece, by rw [hbytes]⟩
    · obtain ⟨rest, hheads, hrest⟩ := ih hs
      exact ⟨rest, hheads, by rw [hbytes, ← List.append_assoc, hrest]⟩

/-- A span of one line that covers just these bytes of the text. -/
def Covers (src : Source) (span : Span) (text : List UInt8) : Prop :=
  span.endLine = span.startLine ∧ ∃ line, src.line? span.startLine = some line ∧
    span.endCol ≤ (bytes line).length ∧
    (bytes line).extract (span.startCol - 1) span.endCol = text

/-- A text that is read as these pieces, up to bytes that are left. -/
structure Decomposed (src : Source) (pieces : List Piece) (unread : List UInt8) : Prop where
  cut : Cut (bytes src.text) pieces unread
  /-- There is no other way to cut it. -/
  only : ∀ others, Cut (bytes src.text) others unread → others = pieces
  whole : bytes src.text = pieces.flatMap Piece.bytes ++ unread
  /-- The words are those of the pieces, and the end mark behind the last piece. -/
  words : (lex src).1
    = wordsFrom [] pieces ++ [⟨.eof, (placeAt (pieces.flatMap Piece.bytes)).point⟩]
  inner : ∀ w ∈ wordsFrom [] pieces, w.kind ≠ .eof
  /-- The log holds the reports of the pieces and nothing else. -/
  reports : (lex src).2
    = { errors := reportsFrom src [] pieces, totalErrors := (reportsFrom src [] pieces).length }
  few : (reportsFrom src [] pieces).length ≤ Log.capacity
  /-- Bytes are left only behind the report that fills the log. -/
  stops : unread ≠ [] → (reportsFrom src [] pieces).length = Log.capacity
  /-- Behind that report nothing is read. -/
  room : ∀ taken last, pieces = taken ++ [last] →
    (reportsFrom src [] taken).length < Log.capacity
  /-- Words, and bytes that are reported, stand on one line, at the columns of their spans. -/
  placed : ∀ s ∈ segmentsFrom [] pieces, s.piece.isTrivia = false → Covers src s.span s.piece.bytes

/-- Every text is cut into blanks, comments, bytes that are reported and words, up to the error that
fills the log. -/
theorem words_decompose_text (src : Source) : ∃ pieces unread, Decomposed src pieces unread := by
  obtain ⟨pieces, unread, hcut, hrun, hunread, hroom⟩ :=
    @ofPieces_cut src _ _ (Piece.cut_all (bytes src.text)) [] .empty rfl
  have hlex : lex src = _ := hrun
  have hroom : ∀ taken last, pieces = taken ++ [last] →
      (reportsFrom src [] taken).length < Log.capacity := by
    intro taken last htaken
    have hopen := hroom taken last htaken
    rw [← Bool.not_eq_true, isFull_reportsFrom] at hopen
    omega
  have hfew : (reportsFrom src [] pieces).length ≤ Log.capacity := by
    rcases List.eq_nil_or_concat pieces with rfl | ⟨taken, last, hpieces⟩
    · simp
    · rw [List.concat_eq_append] at hpieces
      have hlast := length_reportsFrom_concat src [] taken last
      have hless := hroom taken last hpieces
      rw [hpieces]
      omega
  refine ⟨pieces, unread, hcut, fun others hothers => hothers.unique hcut, hcut.flatMap_bytes,
    congrArg Prod.fst hlex, ?_, ?_, hfew, ?_, hroom, ?_⟩
  · obtain ⟨words, t, hwords, -, hwritten⟩ := ended_lex src
    rw [hlex] at hwords
    obtain ⟨rfl, -⟩ := List.append_inj' hwords rfl
    exact inner_of_written hwritten
  · rw [hlex, Log.pushAll_of_errors _ severity_of_mem_reportsFrom (by simpa [Log.empty] using hfew)]
    simp [Log.empty]
  · intro hne
    have hfull := (isFull_reportsFrom src [] pieces).mp (hunread hne)
    omega
  · intro s hs hpiece
    obtain ⟨rest, hheads, hsrc⟩ := heads_of_mem_segmentsFrom hcut hs
    exact ⟨rfl, line?_lineAt hsrc hheads.bytes_ne_nil (hheads.isBlank_eq_false hpiece)⟩

end StackForge.Token
