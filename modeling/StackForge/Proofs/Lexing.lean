import StackForge.Proofs.Grammar
import StackForge.Token.Lexer

/-!
The words of a text. They end with the end mark, which stands nowhere else, and the identifiers
among them are names that are not reserved. Conversely, words that are spelled out and kept apart
are read back.
-/
namespace StackForge.Token

open Grammar (Inner)

/-- The bytes of a name. -/
def IsName (text : List UInt8) : Prop :=
  ∃ b bs, text = b :: bs ∧ Piece.isLetter b = true ∧ ∀ c ∈ bs, Piece.isNameByte c = true

/-- Names that are not reserved. -/
def IsIdentifier (name : String) : Prop :=
  ∃ text, IsName text ∧ name = latinText text ∧ Kind.ofKeyword? name = none

/-- Words that a piece of a text can give. -/
def Kind.Written : Kind → Prop
  | .identifier name => IsIdentifier name
  | .eof => False
  | _ => True

theorem written_nameKind {text : List UInt8} (h : IsName text) : (nameKind text).Written := by
  unfold nameKind
  cases hword : Kind.ofKeyword? (latinText text) with
  | none => exact ⟨text, h, rfl, hword⟩
  | some kind =>
    unfold Kind.ofKeyword? at hword
    split at hword <;> cases hword <;> trivial

namespace Piece

theorem written_of_mark? {b : UInt8} {kind : Kind} (h : mark? b = some kind) : kind.Written := by
  unfold mark? at h
  split at h <;> cases h <;> trivial

/-- What the bytes of a piece say about it. -/
def Formed : Piece → Prop
  | .name text => IsName text
  | .mark kind b => mark? b = some kind
  | _ => True

theorem formed_first (b : UInt8) (rest : List UInt8) : (first b rest).Formed := by
  unfold first
  split
  · trivial
  split
  · trivial
  split
  · trivial
  split
  · rename_i hletter
    exact ⟨b, rest.takeWhile isNameByte, rfl, hletter, List.all_eq_true.mp List.all_takeWhile⟩
  split
  · rename_i kind hkind
    exact hkind
  · trivial

theorem formed_of_mem_all {bs : List UInt8} {piece : Piece} (h : piece ∈ all bs) :
    piece.Formed := by
  fun_induction all bs with
  | case1 => cases h
  | case2 b rest first ih =>
    rcases List.mem_cons.mp h with rfl | h
    · exact formed_first b rest
    · exact ih h

end Piece

/-- Words that end with the end mark, after words that pieces of a text can give. -/
def Ended (tokens : List Token) : Prop :=
  ∃ words t, tokens = words ++ [t] ∧ t.kind = .eof ∧ ∀ w ∈ words, w.kind.Written

theorem inner_of_written {words : List Token} (h : ∀ w ∈ words, w.kind.Written) : Inner words := by
  intro w hw heof
  have hwritten := h w hw
  rw [heof] at hwritten
  exact hwritten

theorem Ended.cons {t : Token} {tokens : List Token} (h : Ended tokens) (ht : t.kind.Written) :
    Ended (t :: tokens) := by
  obtain ⟨words, last, rfl, hlast, hwords⟩ := h
  exact ⟨t :: words, last, rfl, hlast, List.forall_mem_cons.mpr ⟨ht, hwords⟩⟩

theorem ended_eof (span : Span) : Ended [⟨.eof, span⟩] := ⟨[], _, rfl, rfl, by simp⟩

theorem ended_ofPieces (src : Source) {pieces : List Piece} (h : ∀ piece ∈ pieces, piece.Formed)
    (p : Place) (log : Log) : Ended (ofPieces src p log pieces).1 := by
  induction pieces generalizing p log with
  | nil => exact ended_eof _
  | cons piece rest ih =>
    obtain ⟨hpiece, hrest⟩ := List.forall_mem_cons.mp h
    have hnext := ih hrest
    -- a word is followed by the words of the other pieces, or by the end if the log is full
    have hword : ∀ (kind : Kind) (span : Span) (q : Place) (log : Log), kind.Written →
        Ended (if log.isFull then ([⟨kind, span⟩, ⟨.eof, q.point⟩], log)
          else (⟨kind, span⟩ :: (ofPieces src q log rest).1, (ofPieces src q log rest).2)).1 := by
      intro kind span q log hkind
      split
      · exact (ended_eof _).cons hkind
      · exact (hnext q log).cons hkind
    unfold ofPieces
    cases piece with
    | blank b => exact hnext _ _
    | comment text => exact hnext _ _
    | name text => exact hword _ _ _ _ (written_nameKind hpiece)
    | mark kind b => exact hword _ _ _ _ (Piece.written_of_mark? hpiece)
    | number text =>
      dsimp only
      split
      · exact hword _ _ _ _ trivial
      · exact hword _ _ _ _ trivial
    | stray b =>
      dsimp only
      split
      · exact ended_eof _
      · exact hnext _ _

/-- The words of every text end with the end mark, which stands nowhere else. -/
theorem ended_lex (src : Source) : Ended (lex src).1 :=
  ended_ofPieces src (fun _ hpiece => Piece.formed_of_mem_all hpiece) _ _

/-- The bytes of a text. -/
def bytes (text : String) : List UInt8 := text.toUTF8.data.toList

@[simp] theorem bytes_append (s t : String) : bytes (s ++ t) = bytes s ++ bytes t := by
  simp [bytes]

theorem bytes_ofList (cs : List Char) :
    bytes (String.ofList cs) = cs.flatMap String.utf8EncodeChar := by
  simp [bytes, List.utf8Encode]

theorem utf8EncodeChar_ofNat {b : UInt8} (h : b.toNat < 128) :
    String.utf8EncodeChar (Char.ofNat b.toNat) = [b] := by
  have hvalid : b.toNat.isValidChar := .inl (by omega)
  have hval : (Char.ofNat b.toNat).val.toNat = b.toNat := by
    rw [Char.ofNat, dif_pos hvalid]
    rfl
  have hle : b.toNat ≤ 127 := by omega
  simp [String.utf8EncodeChar, hval, hle]

theorem bytes_latinText {text : List UInt8} (h : ∀ b ∈ text, b.toNat < 128) :
    bytes (latinText text) = text := by
  rw [latinText, bytes_ofList, List.flatMap_map]
  induction text with
  | nil => rfl
  | cons b bs ih =>
    obtain ⟨hb, hbs⟩ := List.forall_mem_cons.mp h
    rw [List.flatMap_cons, utf8EncodeChar_ofNat hb, ih hbs, List.singleton_append]

namespace Piece

theorem isLetter_range {b : UInt8} (h : isLetter b = true) :
    65 ≤ b.toNat ∧ b.toNat < 128 := by
  simp only [isLetter, Bool.or_eq_true, Bool.and_eq_true, decide_eq_true_eq,
    UInt8.le_iff_toNat_le, ← UInt8.toNat_inj, UInt8.toNat_ofNat] at h
  omega

theorem lt_of_isNameByte {b : UInt8} (h : isNameByte b = true) : b.toNat < 128 := by
  simp only [isNameByte, isDigit, Bool.or_eq_true, Bool.and_eq_true, decide_eq_true_eq,
    UInt8.le_iff_toNat_le, UInt8.toNat_ofNat] at h
  rcases h with hletter | hdigit
  · exact (isLetter_range hletter).2
  · omega

/-- Bytes behind which a name ends. -/
def Breaks (bs : List UInt8) : Prop := ∀ b ∈ bs.head?, isNameByte b = false

theorem all_append {piece : Piece} {rest bs : List UInt8} {b : UInt8}
    (hbytes : piece.bytes ++ rest = b :: bs) (hfirst : first b bs = piece) :
    all (piece.bytes ++ rest) = piece :: all rest := by
  rw [hbytes, all]
  simp only [hfirst, ← hbytes, List.drop_left]

theorem all_blank (rest : List UInt8) : all (32 :: rest) = .blank 32 :: all rest :=
  @all_append (.blank 32) rest rest 32 rfl rfl

theorem class_of_mark? {b : UInt8} {kind : Kind} (h : mark? b = some kind) :
    isBlank b = false ∧ isDigit b = false ∧ isLetter b = false := by
  unfold mark? at h
  split at h
  all_goals simp_all [isBlank, isDigit, isLetter, ← UInt8.toNat_inj, UInt8.le_iff_toNat_le]

theorem class_of_isLetter {b : UInt8} (h : isLetter b = true) :
    isBlank b = false ∧ isDigit b = false ∧ b ≠ 47 := by
  have hrange := isLetter_range h
  simp only [isBlank, isDigit, Bool.or_eq_false_iff, Bool.and_eq_false_iff, decide_eq_false_iff_not,
    UInt8.le_iff_toNat_le, ← UInt8.toNat_inj, UInt8.toNat_ofNat, ne_eq]
  omega

theorem first_mark {b : UInt8} {kind : Kind} {rest : List UInt8} (hb : mark? b = some kind)
    (hslash : b = 47 → rest.head? ≠ some 47) : first b rest = .mark kind b := by
  obtain ⟨hblank, hdigit, hletter⟩ := class_of_mark? hb
  have hcomment : ¬(b = 47 && rest.head? = some 47) = true := by
    simpa using hslash
  simp [first, hblank, hdigit, hletter, hcomment, hb]

theorem all_mark {b : UInt8} {kind : Kind} {rest : List UInt8} (hb : mark? b = some kind)
    (hslash : b = 47 → rest.head? ≠ some 47) : all (b :: rest) = .mark kind b :: all rest :=
  @all_append (.mark kind b) rest rest b rfl (first_mark hb hslash)

theorem takeWhile_of_breaks {bs rest : List UInt8} (hbs : ∀ c ∈ bs, isNameByte c = true)
    (hrest : Breaks rest) : (bs ++ rest).takeWhile isNameByte = bs := by
  rw [List.takeWhile_append_of_pos hbs]
  cases rest with
  | nil => simp
  | cons c cs => simp [hrest c rfl]

theorem first_name {b : UInt8} {bs rest : List UInt8} (hb : isLetter b = true)
    (hbs : ∀ c ∈ bs, isNameByte c = true) (hrest : Breaks rest) :
    first b (bs ++ rest) = .name (b :: bs) := by
  obtain ⟨hblank, hdigit, hcomment⟩ := class_of_isLetter hb
  simp [first, hblank, hdigit, hb, hcomment, takeWhile_of_breaks hbs hrest]

theorem all_name {text rest : List UInt8} (h : IsName text) (hrest : Breaks rest) :
    all (text ++ rest) = .name text :: all rest := by
  obtain ⟨b, bs, rfl, hb, hbs⟩ := h
  exact @all_append (.name (b :: bs)) rest (bs ++ rest) b rfl (first_name hb hbs hrest)

end Piece

/-- Bytes that spell out words: marks and names, with blanks between them where they would run
into each other. -/
inductive Spelled : List UInt8 → List Kind → Prop where
  | nil : Spelled [] []
  | blank {bs : List UInt8} {ks : List Kind} (h : Spelled bs ks) : Spelled (32 :: bs) ks
  | mark {b : UInt8} {kind : Kind} {bs : List UInt8} {ks : List Kind}
      (hb : Piece.mark? b = some kind) (hslash : b = 47 → bs.head? ≠ some 47)
      (h : Spelled bs ks) : Spelled (b :: bs) (kind :: ks)
  | name {text bs : List UInt8} {ks : List Kind} (htext : IsName text) (hbs : Piece.Breaks bs)
      (h : Spelled bs ks) : Spelled (text ++ bs) (nameKind text :: ks)

/-- Words that are spelled out are read back without a report. -/
theorem ofPieces_spelled {bs : List UInt8} {ks : List Kind} (h : Spelled bs ks) (src : Source)
    {log : Log} (hlog : log.isFull = false) (p : Place) :
    ∃ (words : List Token) (t : Token), ofPieces src p log (Piece.all bs) = (words ++ [t], log) ∧
      t.kind = .eof ∧ words.map Token.kind = ks := by
  induction h generalizing p with
  | nil => exact ⟨[], ⟨.eof, p.point⟩, by rw [Piece.all, ofPieces]; rfl, rfl, rfl⟩
  | @blank bs ks _ ih =>
    rw [Piece.all_blank, ofPieces]
    exact ih _
  | @mark b kind bs ks hb hslash _ ih =>
    obtain ⟨words, t, hwords, ht, hkinds⟩ := ih (p.after [b])
    refine ⟨⟨kind, p.upTo (p.after [b])⟩ :: words, t, ?_, ht, by simp [hkinds]⟩
    rw [Piece.all_mark hb hslash, ofPieces]
    simp [hlog, Piece.bytes, hwords]
  | @name text bs ks htext hbs _ ih =>
    obtain ⟨words, t, hwords, ht, hkinds⟩ := ih (p.after text)
    refine ⟨⟨nameKind text, p.upTo (p.after text)⟩ :: words, t, ?_, ht, by simp [hkinds]⟩
    rw [Piece.all_name htext hbs, ofPieces]
    simp [hlog, Piece.bytes, hwords]

theorem lex_spelled {src : Source} {ks : List Kind} (h : Spelled (bytes src.text) ks) :
    ∃ (words : List Token) (t : Token), lex src = (words ++ [t], .empty) ∧ t.kind = .eof ∧
      words.map Token.kind = ks :=
  ofPieces_spelled h src rfl _

/-- An identifier spells its own word. -/
theorem Spelled.identifier {name : String} {bs : List UInt8} {ks : List Kind}
    (hname : IsIdentifier name) (hbs : Piece.Breaks bs) (h : Spelled bs ks) :
    Spelled (bytes name ++ bs) (.identifier name :: ks) := by
  obtain ⟨text, htext, rfl, hword⟩ := hname
  have hkind : nameKind text = .identifier (latinText text) := by
    rw [nameKind, hword]
    rfl
  have hascii : ∀ b ∈ text, b.toNat < 128 := by
    obtain ⟨b, bs, rfl, hb, hbs⟩ := htext
    rintro c (_ | ⟨_, hc⟩)
    · exact (Piece.isLetter_range hb).2
    · exact Piece.lt_of_isNameByte (hbs c hc)
  rw [bytes_latinText hascii, ← hkind]
  exact .name htext hbs h

end StackForge.Token
