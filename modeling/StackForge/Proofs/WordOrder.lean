import Mathlib.Data.Prod.Lex
import StackForge.Proofs.Decomposition

/-!
The reading order of places. The words of a text stand in this order, each behind the end of the one
before it, and the end mark stands behind them all.
-/
namespace StackForge

namespace Span

/-- The first place of a span, in reading order. -/
def opens (s : Span) : ℕ ×ₗ ℕ := toLex s.start

/-- The last place of a span, in reading order. -/
def closes (s : Span) : ℕ ×ₗ ℕ := toLex s.stop

def Proper (s : Span) : Prop := s.opens ≤ s.closes

/-- One span ends before another one starts. -/
def Before (s t : Span) : Prop := s.closes < t.opens

def Within (s t : Span) : Prop := t.opens ≤ s.opens ∧ s.closes ≤ t.closes

theorem placeLt_iff {a b : Nat × Nat} : placeLt a b = true ↔ toLex a < toLex b := by
  simp [placeLt, Prod.Lex.toLex_lt_toLex]

theorem opens_merge (s t : Span) : (s.merge t).opens = min s.opens t.opens := by
  have hstart : (s.merge t).start = if placeLt t.start s.start then t.start else s.start := rfl
  rw [opens, hstart]
  split
  · rename_i h
    exact (min_eq_right (placeLt_iff.mp h).le).symm
  · rename_i h
    exact (min_eq_left (not_lt.mp (mt placeLt_iff.mpr h))).symm

theorem closes_merge (s t : Span) : (s.merge t).closes = max s.closes t.closes := by
  have hstop : (s.merge t).stop = if placeLt s.stop t.stop then t.stop else s.stop := rfl
  rw [closes, hstop]
  split
  · rename_i h
    exact (max_eq_right (placeLt_iff.mp h).le).symm
  · rename_i h
    exact (max_eq_left (not_lt.mp (mt placeLt_iff.mpr h))).symm

end Span

namespace Token

open Piece (Cut Heads)

/-- Words in reading order, none of which reaches into the next one. -/
structure Ordered (words : List Token) : Prop where
  proper : ∀ w ∈ words, w.span.Proper
  apart : words.Pairwise fun v w => v.span.Before w.span

theorem Ordered.sublist {us words : List Token} (h : Ordered words) (hus : us.Sublist words) :
    Ordered us :=
  ⟨fun w hw => h.proper w (hus.subset hw), h.apart.sublist hus⟩

/-- The place behind some bytes, in reading order. -/
def reached (before : List UInt8) : ℕ ×ₗ ℕ := toLex (lineAt before, colAt before)

theorem reached_le (before more : List UInt8) : reached before ≤ reached (before ++ more) := by
  induction more generalizing before with
  | nil => simp
  | cons b more ih =>
    have hnext : reached before ≤ reached (before ++ [b]) := by
      rw [reached, reached, Prod.Lex.toLex_le_toLex]
      by_cases hb : b = 10
      · left
        simp [lineAt, hb]
      · have hmem : 10 ∉ [b] := by simpa using Ne.symm hb
        right
        simp [lineAt_append hmem, colAt_append hmem]
    have hrest := ih (before ++ [b])
    rw [List.append_assoc, List.singleton_append] at hrest
    exact hnext.trans hrest

theorem Segment.span_of_word? {s : Segment} {w : Token} (h : s.word? = some w) :
    s.piece.isTrivia = false ∧ w.span = s.span := by
  obtain ⟨before, piece⟩ := s
  cases piece with
  | blank | comment | stray => cases h
  | name | mark | number =>
    cases h
    exact ⟨rfl, rfl⟩

/-- A word starts where its piece does, and ends before the place behind the piece. -/
theorem placed_word? {before bs rest : List UInt8} {piece : Piece} {w : Token}
    (h : Heads bs piece rest) (hw : Segment.word? ⟨before, piece⟩ = some w) :
    w.span.Proper ∧ w.span.opens = reached before ∧
      w.span.closes < reached (before ++ piece.bytes) := by
  obtain ⟨hpiece, hspan⟩ := Segment.span_of_word? hw
  have hnewline : 10 ∉ piece.bytes := by
    intro hmem
    cases h.isBlank_eq_false hpiece 10 hmem
  have hpos := List.length_pos_iff.mpr h.bytes_ne_nil
  have hcloses : w.span.closes = toLex (lineAt before, colAt before + piece.bytes.length - 1) := by
    rw [hspan]
    rfl
  have hopens : w.span.opens = reached before := by
    rw [hspan]
    rfl
  refine ⟨?_, hopens, ?_⟩
  · rw [Span.Proper, hopens, hcloses, reached, Prod.Lex.toLex_le_toLex]
    right
    exact ⟨rfl, by simp only; omega⟩
  · rw [hcloses, reached, lineAt_append hnewline, colAt_append hnewline, Prod.Lex.toLex_lt_toLex]
    right
    exact ⟨rfl, by simp only; omega⟩

/-- Words of pieces in a row stand in order, between the place of the first piece and the place
behind the last one. -/
theorem ordered_wordsFrom {bs unread : List UInt8} {pieces : List Piece} (h : Cut bs pieces unread)
    (before : List UInt8) :
    Ordered (wordsFrom before pieces) ∧ ∀ w ∈ wordsFrom before pieces,
      reached before ≤ w.span.opens ∧
      w.span.closes < reached (before ++ pieces.flatMap Piece.bytes) := by
  induction h generalizing before with
  | nil => exact ⟨⟨by simp, by simp⟩, by simp⟩
  | @cons bs mid unread piece pieces hpiece _ ih =>
    obtain ⟨hordered, hplaced⟩ := ih (before ++ piece.bytes)
    have hfirst := reached_le before piece.bytes
    have hlast := reached_le (before ++ piece.bytes) (pieces.flatMap Piece.bytes)
    rw [List.append_assoc] at hlast hplaced
    rw [wordsFrom_cons, List.flatMap_cons]
    cases hword : Segment.word? ⟨before, piece⟩ with
    | none => exact ⟨hordered, fun w hw => ⟨hfirst.trans (hplaced w hw).1, (hplaced w hw).2⟩⟩
    | some v =>
      obtain ⟨hproper, hopens, hcloses⟩ := placed_word? hpiece hword
      refine ⟨⟨?_, ?_⟩, ?_⟩
      · exact List.forall_mem_cons.mpr ⟨hproper, hordered.proper⟩
      · refine List.pairwise_cons.mpr ⟨fun w hw => ?_, hordered.apart⟩
        exact hcloses.trans_le (hplaced w hw).1
      · refine List.forall_mem_cons.mpr ⟨⟨hopens.ge, hcloses.trans_le hlast⟩, fun w hw => ?_⟩
        exact ⟨hfirst.trans (hplaced w hw).1, (hplaced w hw).2⟩

/-- The words of a text and its end mark are in reading order. -/
theorem ordered_lex (src : Source) : Ordered (lex src).1 := by
  obtain ⟨pieces, unread, hcut, hrun, -⟩ :=
    @ofPieces_cut src _ _ (Piece.cut_all (bytes src.text)) [] .empty rfl
  have hlex : lex src = _ := hrun
  obtain ⟨hordered, hplaced⟩ := ordered_wordsFrom hcut []
  rw [hlex]
  constructor
  · intro w hw
    rcases List.mem_append.mp hw with hw | hw
    · exact hordered.proper w hw
    · obtain rfl := List.mem_singleton.mp hw
      exact le_rfl
  · refine List.pairwise_append.mpr ⟨hordered.apart, by simp, fun v hv w hw => ?_⟩
    obtain rfl := List.mem_singleton.mp hw
    exact (hplaced v hv).2

end Token
end StackForge
