import StackForge.Draft
import StackForge.Proofs.Bare

/-!
Reading does not depend on layout. Signatures with the same characters, blanks apart, are read alike.
Texts with the same words, blanks and comments apart, are parsed to trees with the same bare form, or
both have errors.
-/
namespace StackForge

/-- Two readings that fail together or give related results. -/
def Alike {ε α β : Type} (R : α → β → Prop) (x : Except ε α) (y : Except ε β) : Prop :=
  (∃ e e', x = .error e ∧ y = .error e') ∨ ∃ a b, x = .ok a ∧ y = .ok b ∧ R a b

namespace Alike

variable {ε α β : Type} {R : α → β → Prop}

theorem errors {e e' : ε} : Alike R (.error e) (.error e') := .inl ⟨e, e', rfl, rfl⟩

theorem oks {a : α} {b : β} (h : R a b) : Alike R (.ok a : Except ε α) (.ok b) :=
  .inr ⟨a, b, rfl, rfl, h⟩

end Alike

namespace Signature

/-- The characters of marks. -/
def chars (ms : List Mark) : List Char := ms.map (·.2)

theorem chars_marksFrom (col : Nat) (cs : List Char) :
    chars (marksFrom col cs) = cs.filter fun c => !Text.isBlank c := by
  induction cs generalizing col with
  | nil => rfl
  | cons c rest ih =>
    rw [marksFrom, List.filter_cons]
    cases hc : Text.isBlank c with
    | true => simpa using ih (col + 1)
    | false => simpa [chars] using ih (col + 1)

variable {letters : Letters} {stop stop' : Nat}

theorem chunkOf_alike (c : Char) (col col' : Nat) :
    Alike Eq (chunkOf letters c col) (chunkOf letters c col') := by
  unfold chunkOf
  cases letters.find? c with
  | none => exact .errors
  | some chunk => exact .oks rfl

theorem readLetter_alike (after : Char) {ms ms' : List Mark} (h : chars ms = chars ms') :
    Alike (fun x y => x.1 = y.1 ∧ chars x.2.1 = chars y.2.1)
      (readLetter letters stop after ms) (readLetter letters stop' after ms') := by
  match ms, ms', h with
  | [], [], _ => exact .errors
  | (col, c) :: rest, (col', c') :: rest', h =>
    obtain ⟨rfl, hrest⟩ : c = c' ∧ chars rest = chars rest' := by simpa [chars] using h
    unfold readLetter
    dsimp only
    split
    · rcases chunkOf_alike c col col' with ⟨e, e', he, he'⟩ | ⟨a, b, ha, hb, rfl⟩
      · rw [he, he']
        exact .errors
      · rw [ha, hb]
        exact .oks ⟨rfl, hrest⟩
    · exact .errors

theorem readIndex_alike {ms ms' : List Mark} (h : chars ms = chars ms') :
    Alike (fun x y => x.1 = y.1 ∧ chars x.2.1 = chars y.2.1)
      (readIndex letters stop ms) (readIndex letters stop' ms') := by
  match ms, ms', h with
  | [], [], _ => exact .oks ⟨rfl, rfl⟩
  | (col, c) :: rest, (col', c') :: rest', h =>
    obtain ⟨rfl, hrest⟩ : c = c' ∧ chars rest = chars rest' := by simpa [chars] using h
    by_cases hc : c = '['
    · subst hc
      rw [readIndex, readIndex]
      rcases @readLetter_alike letters stop stop' '[' _ _ hrest with
        ⟨e, e', he, he'⟩ | ⟨⟨a, left, hlt⟩, ⟨b, left', hlt'⟩, ha, hb, hab, hleft⟩
      · rw [he, he']
        exact .errors
      · obtain rfl : a = b := hab
        rw [ha, hb]
        cases left with
        | nil =>
          obtain rfl : left' = [] := by simpa [chars] using hleft.symm
          exact .errors
        | cons m more =>
          obtain ⟨m', more', rfl, hchar, hmore⟩ := List.map_eq_cons_iff.mp hleft.symm
          dsimp only
          rw [hchar]
          split
          · exact .oks ⟨rfl, hmore.symm⟩
          · exact .errors
    · rw [readIndex.eq_2 _ _ _ (by simp [hc]), readIndex.eq_2 _ _ _ (by simp [hc])]
      exact .oks ⟨rfl, h⟩

theorem readCount_alike {ms ms' : List Mark} (h : chars ms = chars ms') :
    Alike (fun x y => x.1.map (·.2) = y.1.map (·.2) ∧ chars x.2.1 = chars y.2.1)
      (readCount letters stop ms) (readCount letters stop' ms') := by
  match ms, ms', h with
  | [], [], _ => exact .oks ⟨rfl, rfl⟩
  | (col, c) :: rest, (col', c') :: rest', h =>
    obtain ⟨rfl, hrest⟩ : c = c' ∧ chars rest = chars rest' := by simpa [chars] using h
    by_cases hc : c = '@'
    · subst hc
      rw [readCount, readCount]
      rcases @readLetter_alike letters stop stop' '@' _ _ hrest with
        ⟨e, e', he, he'⟩ | ⟨⟨a, left, hlt⟩, ⟨b, left', hlt'⟩, ha, hb, hab, hleft⟩
      · rw [he, he']
        exact .errors
      · obtain rfl : a = b := hab
        rw [ha, hb]
        exact .oks ⟨rfl, hleft⟩
    · rw [readCount.eq_2 _ _ _ (by simp [hc]), readCount.eq_2 _ _ _ (by simp [hc])]
      exact .oks ⟨rfl, h⟩

theorem kindOf_alike (chunk : Chunk) (index : Option Chunk) {count count' : Option (Nat × Chunk)}
    (h : count.map (·.2) = count'.map (·.2)) :
    Alike Eq (kindOf chunk index count) (kindOf chunk index count') := by
  match index, count, count', h with
  | none, none, none, _ => exact .oks rfl
  | some i, none, none, _ => exact .oks rfl
  | none, some (col, n), some (col', n'), h =>
    obtain rfl : n = n' := by simpa using h
    exact .oks rfl
  | some i, some (col, n), some (col', n'), _ => exact .errors

theorem readParams_alike {ms ms' : List Mark} (h : chars ms = chars ms') :
    Alike (fun x y => x.1.map Param.bare = y.1.map Param.bare ∧ chars x.2 = chars y.2)
      (readParams letters stop ms) (readParams letters stop' ms') := by
  induction hn : ms.length using Nat.strongRecOn generalizing ms ms' with
  | ind n ih =>
    match ms, ms', h with
    | [], [], _ =>
      rw [readParams, readParams]
      exact .oks ⟨rfl, rfl⟩
    | (col, c) :: rest, (col', c') :: rest', h =>
      obtain ⟨rfl, hrest⟩ : c = c' ∧ chars rest = chars rest' := by simpa [chars] using h
      rw [readParams, readParams]
      split
      · exact .oks ⟨rfl, h⟩
      split
      · exact .errors
      rcases chunkOf_alike c col col' with ⟨e, e', he, he'⟩ | ⟨chunk, _, ha, hb, rfl⟩
      · rw [he, he']
        exact .errors
      rw [ha, hb]
      dsimp only
      rcases @readIndex_alike letters stop stop' _ _ hrest with
        ⟨e, e', he, he'⟩ | ⟨⟨index, left, hle⟩, ⟨index', left', hle'⟩, ha, hb, hindex, hleft⟩
      · rw [he, he']
        exact .errors
      obtain rfl : index = index' := hindex
      rw [ha, hb]
      dsimp only
      rcases @readCount_alike letters stop stop' _ _ hleft with
        ⟨e, e', he, he'⟩ | ⟨⟨count, more, hmle⟩, ⟨count', more', _⟩, ha, hb, hcount, hmore⟩
      · rw [he, he']
        exact .errors
      rw [ha, hb]
      dsimp only
      rcases kindOf_alike chunk index hcount with ⟨e, e', he, he'⟩ | ⟨kind, _, ha, hb, rfl⟩
      · rw [he, he']
        exact .errors
      rw [ha, hb]
      dsimp only
      have hshort : more.length < n := by
        dsimp only at hmle
        rw [List.length_cons] at hn
        omega
      rcases ih _ hshort hmore rfl with
        ⟨e, e', he, he'⟩ | ⟨⟨params, last⟩, ⟨params', last'⟩, ha, hb, hparams, hlast⟩
      · rw [he, he']
        exact .errors
      rw [ha, hb]
      exact .oks ⟨congrArg (List.cons _) hparams, hlast⟩

theorem chars_cases {ms ms' : List Mark} (h : chars ms = chars ms') :
    (ms = [] ∧ ms' = []) ∨ (∃ m m', ms = [m] ∧ ms' = [m']) ∨
      ∃ col col' c k k' d rest rest', ms = (col, c) :: (k, d) :: rest ∧
        ms' = (col', c) :: (k', d) :: rest' ∧ chars rest = chars rest' := by
  rcases ms with _ | ⟨⟨col, c⟩, _ | ⟨⟨k, d⟩, rest⟩⟩
  · obtain rfl : ms' = [] := by simpa [chars] using h.symm
    exact .inl ⟨rfl, rfl⟩
  · obtain ⟨m', more, rfl, -, hmore⟩ := List.map_eq_cons_iff.mp h.symm
    obtain rfl : more = [] := List.map_eq_nil_iff.mp hmore
    exact .inr (.inl ⟨_, m', rfl, rfl⟩)
  · obtain ⟨⟨col', c'⟩, more, rfl, hc, hmore⟩ := List.map_eq_cons_iff.mp h.symm
    obtain ⟨⟨k', d'⟩, rest', rfl, hd, hrest⟩ := List.map_eq_cons_iff.mp hmore
    obtain rfl : c' = c := hc
    obtain rfl : d' = d := hd
    exact .inr (.inr ⟨col, col', c', k, k', d', rest, rest', rfl, rfl, hrest.symm⟩)

theorem readMarks_alike {ms ms' : List Mark} (h : chars ms = chars ms') :
    Alike (fun x y => x.bare = y.bare) (readMarks letters ms) (readMarks letters ms') := by
  rcases @readParams_alike letters (endCol ms) (endCol ms') _ _ h with
    ⟨e, e', he, he'⟩ | ⟨⟨inputs, left⟩, ⟨inputs', left'⟩, ha, hb, hinputs, hleft⟩
  · simp only [readMarks, he, he']
    exact .errors
  rcases chars_cases hleft with ⟨rfl, rfl⟩ | ⟨⟨col, c⟩, ⟨col', c'⟩, rfl, rfl⟩ |
    ⟨col, col', c, k, k', d, rest, rest', rfl, rfl, hrest⟩
  · simp only [readMarks, ha, hb]
    exact .oks (by simp only [bare, hinputs, List.map_nil])
  · simp only [readMarks, ha, hb]
    exact .errors
  · by_cases hd : d = '>'
    · subst hd
      simp only [readMarks, ha, hb]
      rcases @readParams_alike letters (endCol ms) (endCol ms') _ _ hrest with
        ⟨e, e', he, he'⟩ | ⟨⟨outputs, last⟩, ⟨outputs', last'⟩, ha, hb, houtputs, hlast⟩
      · rw [he, he']
        exact .errors
      rw [ha, hb]
      cases last with
      | nil =>
        obtain rfl : last' = [] := by simpa [chars] using hlast.symm
        exact .oks (by simp only [bare, hinputs, houtputs])
      | cons m more =>
        obtain ⟨m', more', rfl, -⟩ := List.map_eq_cons_iff.mp hlast.symm
        exact .errors
    · exact .inl ⟨_, _, by simp [readMarks, ha, hd]; rfl, by simp [readMarks, hb, hd]; rfl⟩

/-- Signatures that differ in blanks only are refused together or are read alike. -/
theorem read_alike {src src' : Source}
    (h : src.text.toList.filter (fun c => !Text.isBlank c)
      = src'.text.toList.filter fun c => !Text.isBlank c) :
    Alike (fun x y => x.bare = y.bare) (read letters src) (read letters src') := by
  have hmarks : chars (marks src.text) = chars (marks src'.text) := by
    rw [marks, marks, chars_marksFrom, chars_marksFrom, h]
  rw [read, read]
  rcases @readMarks_alike letters _ _ hmarks with
    ⟨⟨fault, col⟩, ⟨fault', col'⟩, he, he'⟩ | ⟨sig, sig', ha, hb, hbare⟩
  · rw [he, he']
    exact .errors
  · rw [ha, hb]
    exact .oks hbare

end Signature

namespace Token

/-- Blanks and comments. -/
def Piece.isTrivia : Piece → Bool
  | .blank _ | .comment _ => true
  | _ => false

/-- The word that a piece gives; none if it gives no word or is at fault. -/
def Piece.kind? : Piece → Option Kind
  | .name text => some (nameKind text)
  | .mark kind _ => some kind
  | .number text =>
    if (numberValue text).isFinite then some (.number (numberValue text)) else none
  | .blank _ | .comment _ | .stray _ => none

/-- A piece that is read without a report. -/
def Piece.Sound (piece : Piece) : Prop := piece.isTrivia = true ∨ piece.kind?.isSome = true

/-- The pieces of a text that count. -/
def essence (text : String) : List Piece := (Piece.all (bytes text)).filter fun p => !p.isTrivia

/-- Sound pieces are read in silence. -/
theorem ofPieces_of_sound {pieces : List Piece} (h : ∀ piece ∈ pieces, piece.Sound) (src : Source)
    (p : Place) {log : Log} (hlog : log.isFull = false) :
    ∃ (words : List Token) (t : Token), ofPieces src p log pieces = (words ++ [t], log) ∧
      t.kind = .eof ∧ words.map Token.kind = pieces.filterMap Piece.kind? := by
  induction pieces generalizing p with
  | nil => exact ⟨[], ⟨.eof, p.point⟩, rfl, rfl, rfl⟩
  | cons piece rest ih =>
    obtain ⟨hpiece, hrest⟩ := List.forall_mem_cons.mp h
    obtain ⟨words, t, hwords, ht, hkinds⟩ := ih hrest (p.after piece.bytes)
    have hword : ∀ kind, piece.kind? = some kind →
        ∃ (ws : List Token) (t : Token), ((⟨kind, p.upTo (p.after piece.bytes)⟩ : Token) ::
            (ofPieces src (p.after piece.bytes) log rest).1,
          (ofPieces src (p.after piece.bytes) log rest).2) = (ws ++ [t], log) ∧
          t.kind = .eof ∧ ws.map Token.kind = (piece :: rest).filterMap Piece.kind? := by
      intro kind hkind
      refine ⟨⟨kind, p.upTo (p.after piece.bytes)⟩ :: words, t, by rw [hwords]; rfl, ht, ?_⟩
      rw [List.map_cons, List.filterMap_cons_some hkind, hkinds]
    unfold ofPieces
    cases piece with
    | blank b | comment text => exact ⟨words, t, hwords, ht, hkinds⟩
    | name text | mark kind b => simpa [hlog] using hword _ rfl
    | number text =>
      have hfinite : (numberValue text).isFinite = true := by
        simpa [Piece.Sound, Piece.isTrivia, Piece.kind?] using hpiece
      simpa [hlog, hfinite] using hword (.number (numberValue text)) (by simp [Piece.kind?, hfinite])
    | stray b => simp [Piece.Sound, Piece.isTrivia, Piece.kind?] at hpiece

/-- An error stays in the log. -/
theorem hasErrors_ofPieces (src : Source) (p : Place) {log : Log} (h : log.hasErrors = true)
    (pieces : List Piece) : (ofPieces src p log pieces).2.hasErrors = true := by
  induction pieces generalizing p log with
  | nil => exact h
  | cons piece rest ih =>
    have hword : ∀ (kind : Kind) {log : Log}, log.hasErrors = true →
        (if log.isFull then
          ([⟨kind, p.upTo (p.after piece.bytes)⟩, ⟨.eof, (p.after piece.bytes).point⟩], log)
        else
          ((⟨kind, p.upTo (p.after piece.bytes)⟩ : Token) ::
            (ofPieces src (p.after piece.bytes) log rest).1,
            (ofPieces src (p.after piece.bytes) log rest).2)).2.hasErrors = true := by
      intro kind log hlog
      split
      · exact hlog
      · exact ih _ hlog
    unfold ofPieces
    cases piece with
    | blank b | comment text => exact ih _ h
    | name text | mark kind b => exact hword _ h
    | number text =>
      dsimp only
      split
      · exact hword _ h
      · exact hword _ (log.hasErrors_push_fault _ _ _)
    | stray b =>
      dsimp only
      split
      · exact log.hasErrors_push_fault _ _ _
      · exact ih _ (log.hasErrors_push_fault _ _ _)

/-- Pieces that are read in silence are sound. -/
theorem sound_of_ofPieces {src : Source} {p : Place} {log : Log} {pieces : List Piece}
    (hlog : log.isFull = false) (h : (ofPieces src p log pieces).2.hasErrors = false) :
    ∀ piece ∈ pieces, piece.Sound := by
  induction pieces generalizing p with
  | nil => simp
  | cons piece rest ih =>
    have hloud : ∀ {q : Place} {log : Log} {pieces : List Piece}, log.hasErrors = true →
        (ofPieces src q log pieces).2.hasErrors ≠ false := by
      intro q log pieces hlog
      simp [hasErrors_ofPieces src q hlog pieces]
    unfold ofPieces at h
    cases piece with
    | blank b | comment text => exact List.forall_mem_cons.mpr ⟨.inl rfl, ih h⟩
    | name text | mark kind b =>
      simp only [hlog, Bool.false_eq_true, if_false] at h
      exact List.forall_mem_cons.mpr ⟨.inr rfl, ih h⟩
    | number text =>
      dsimp only at h
      split at h
      · rename_i hfinite
        simp only [hlog, Bool.false_eq_true, if_false] at h
        exact List.forall_mem_cons.mpr ⟨.inr (by simp [Piece.kind?, hfinite]), ih h⟩
      · split at h
        · exact absurd h (by simp [log.hasErrors_push_fault])
        · exact absurd h (hloud (log.hasErrors_push_fault _ _ _))
    | stray b =>
      dsimp only at h
      split at h
      · exact absurd h (by simp [log.hasErrors_push_fault])
      · exact absurd h (hloud (log.hasErrors_push_fault _ _ _))

/-- Texts with the same essence have the same words, or both have errors. -/
theorem lex_of_essence {src src' : Source} (h : essence src.text = essence src'.text)
    (hclean : (lex src).2.hasErrors = false) :
    ∃ words words' t t', lex src = (words ++ [t], .empty) ∧ lex src' = (words' ++ [t'], .empty) ∧
      t.kind = .eof ∧ t'.kind = .eof ∧ Grammar.Inner words ∧
      words.map Token.kind = words'.map Token.kind := by
  have hsound : ∀ piece ∈ Piece.all (bytes src.text), piece.Sound :=
    sound_of_ofPieces rfl hclean
  have hsound' : ∀ piece ∈ Piece.all (bytes src'.text), piece.Sound := by
    intro piece hpiece
    cases htrivia : piece.isTrivia with
    | true => exact .inl htrivia
    | false =>
      have hmem : piece ∈ essence src'.text :=
        List.mem_filter.mpr ⟨hpiece, by rw [htrivia]; rfl⟩
      rw [← h] at hmem
      exact hsound piece (List.mem_filter.mp hmem).1
  have hkinds : ∀ pieces : List Piece, pieces.filterMap Piece.kind?
      = (pieces.filter fun p => !p.isTrivia).filterMap Piece.kind? := by
    intro pieces
    rw [List.filterMap_filter]
    refine congrArg (fun g => pieces.filterMap g) (funext fun piece => ?_)
    cases piece <;> rfl
  obtain ⟨words, t, hlex, ht, hwords⟩ := @ofPieces_of_sound _ hsound src .start .empty rfl
  obtain ⟨words', t', hlex', ht', hwords'⟩ := @ofPieces_of_sound _ hsound' src' .start .empty rfl
  have hinner : Grammar.Inner words := by
    obtain ⟨ws, u, hended, -, hwritten⟩ := ended_lex src
    obtain ⟨rfl, -⟩ := List.append_inj' ((congrArg Prod.fst hlex).symm.trans hended) rfl
    exact inner_of_written hwritten
  refine ⟨words, words', t, t', hlex, hlex', ht, ht', hinner, ?_⟩
  rw [hwords, hwords', hkinds, hkinds (Piece.all (bytes src'.text))]
  exact congrArg (List.filterMap Piece.kind?) h

end Token

namespace Grammar

/-- Words of the same kinds. -/
def SameKinds (ts us : List Token) : Prop := ts.map Token.kind = us.map Token.kind

namespace SameKinds

variable {t : Token} {ts us vs : List Token}

theorem cons (h : SameKinds (t :: ts) us) :
    ∃ u vs, us = u :: vs ∧ u.kind = t.kind ∧ SameKinds ts vs := by
  obtain ⟨u, vs, rfl, hu, hvs⟩ := List.map_eq_cons_iff.mp h.symm
  exact ⟨u, vs, rfl, hu, hvs.symm⟩

theorem append (h : SameKinds (ts ++ us) vs) :
    ∃ ws xs, vs = ws ++ xs ∧ SameKinds ts ws ∧ SameKinds us xs := by
  unfold SameKinds at h
  rw [List.map_append] at h
  obtain ⟨ws, xs, rfl, hws, hxs⟩ := List.map_eq_append_iff.mp h.symm
  exact ⟨ws, xs, rfl, hws.symm, hxs.symm⟩

theorem singleton (h : SameKinds [t] us) : ∃ u, us = [u] ∧ u.kind = t.kind := by
  obtain ⟨u, vs, rfl, hu, hvs⟩ := h.cons
  obtain rfl : vs = [] := by simpa [SameKinds] using hvs.symm
  exact ⟨u, rfl, hu⟩

end SameKinds

mutual

/-- What words derive depends on their kinds only, apart from places. -/
theorem Sum.relaid {ts us : List Token} {e : Expr} :
    Sum ts e → SameKinds ts us → ∃ f, Sum us f ∧ f.bare = e.bare
  | .product h, hk => by
    obtain ⟨f, hf, hb⟩ := h.relaid hk
    exact ⟨f, .product hf, hb⟩
  | .join hl ht hr, hk => by
    obtain ⟨vs, ws, rfl, hvs, hws⟩ := hk.append
    obtain ⟨u, ws, rfl, hu, hws⟩ := hws.cons
    obtain ⟨l, hl, hlb⟩ := hl.relaid hvs
    obtain ⟨r, hr, hrb⟩ := hr.relaid hws
    exact ⟨_, .join hl (hu ▸ ht) hr, by simp only [Expr.bare, hlb, hrb]⟩

theorem Product.relaid {ts us : List Token} {e : Expr} :
    Product ts e → SameKinds ts us → ∃ f, Product us f ∧ f.bare = e.bare
  | .unary h, hk => by
    obtain ⟨f, hf, hb⟩ := h.relaid hk
    exact ⟨f, .unary hf, hb⟩
  | .join hl ht hr, hk => by
    obtain ⟨vs, ws, rfl, hvs, hws⟩ := hk.append
    obtain ⟨u, ws, rfl, hu, hws⟩ := hws.cons
    obtain ⟨l, hl, hlb⟩ := hl.relaid hvs
    obtain ⟨r, hr, hrb⟩ := hr.relaid hws
    exact ⟨_, .join hl (hu ▸ ht) hr, by simp only [Expr.bare, hlb, hrb]⟩

theorem Unary.relaid {ts us : List Token} {e : Expr} :
    Unary ts e → SameKinds ts us → ∃ f, Unary us f ∧ f.bare = e.bare
  | .neg ht h, hk => by
    obtain ⟨u, vs, rfl, hu, hvs⟩ := hk.cons
    obtain ⟨f, hf, hb⟩ := h.relaid hvs
    exact ⟨_, .neg (hu.trans ht) hf, by simp only [Expr.bare, hb]⟩
  | .plain h, hk => by
    obtain ⟨f, hf, hb⟩ := h.relaid hk
    exact ⟨f, .plain hf, hb⟩

theorem Postfix.relaid {ts us : List Token} {e : Expr} :
    Postfix ts e → SameKinds ts us → ∃ f, Postfix us f ∧ f.bare = e.bare
  | .primary h, hk => by
    obtain ⟨f, hf, hb⟩ := h.relaid hk
    exact ⟨f, .primary hf, hb⟩
  | .method h ht hn hargs, hk => by
    obtain ⟨vs, ws, rfl, hvs, hws⟩ := hk.append
    obtain ⟨u, ws, rfl, hu, hws⟩ := hws.cons
    obtain ⟨m, ws, rfl, hm, hws⟩ := hws.cons
    obtain ⟨f, hf, hb⟩ := h.relaid hvs
    obtain ⟨args, close, hargs, hbs⟩ := hargs.relaid hws
    exact ⟨_, .method hf (hu.trans ht) (hm.trans hn) hargs, by simp only [Expr.bare, hb, hbs]⟩
  | .attempt h ht, hk => by
    obtain ⟨vs, ws, rfl, hvs, hws⟩ := hk.append
    obtain ⟨u, rfl, hu⟩ := hws.singleton
    obtain ⟨f, hf, hb⟩ := h.relaid hvs
    exact ⟨_, .attempt hf (hu.trans ht), by simp only [Expr.bare, hb]⟩

theorem Primary.relaid {ts us : List Token} {e : Expr} :
    Primary ts e → SameKinds ts us → ∃ f, Primary us f ∧ f.bare = e.bare
  | .number ht, hk => by
    obtain ⟨u, rfl, hu⟩ := hk.singleton
    exact ⟨_, .number (hu.trans ht), rfl⟩
  | .var ht, hk => by
    obtain ⟨u, rfl, hu⟩ := hk.singleton
    exact ⟨_, .var (hu.trans ht), rfl⟩
  | .call ht hargs, hk => by
    obtain ⟨u, vs, rfl, hu, hvs⟩ := hk.cons
    obtain ⟨args, close, hargs, hbs⟩ := hargs.relaid hvs
    exact ⟨_, .call (hu.trans ht) hargs, by simp only [Expr.bare, hbs]⟩
  | .paren ht h hc, hk => by
    obtain ⟨u, vs, rfl, hu, hvs⟩ := hk.cons
    obtain ⟨ws, xs, rfl, hws, hxs⟩ := hvs.append
    obtain ⟨c, rfl, hcu⟩ := hxs.singleton
    obtain ⟨f, hf, hb⟩ := h.relaid hws
    exact ⟨_, .paren (hu.trans ht) hf (hcu.trans hc), by simp only [Expr.bare, hb]⟩

theorem Args.relaid {ts us : List Token} {es : List Expr} {close : Span} :
    Args ts es close → SameKinds ts us →
      ∃ fs close', Args us fs close' ∧ Expr.bareAll fs = Expr.bareAll es
  | .mk ht h hc, hk => by
    obtain ⟨u, vs, rfl, hu, hvs⟩ := hk.cons
    obtain ⟨ws, xs, rfl, hws, hxs⟩ := hvs.append
    obtain ⟨c, rfl, hcu⟩ := hxs.singleton
    obtain ⟨fs, hfs, hbs⟩ := h.relaid hws
    exact ⟨fs, _, .mk (hu.trans ht) hfs (hcu.trans hc), hbs⟩

theorem Items.relaid {ts us : List Token} {es : List Expr} :
    Items ts es → SameKinds ts us → ∃ fs, Items us fs ∧ Expr.bareAll fs = Expr.bareAll es
  | .nil, hk => by
    obtain rfl : us = [] := by simpa [SameKinds] using hk.symm
    exact ⟨[], .nil, rfl⟩
  | .last h, hk => by
    obtain ⟨f, hf, hb⟩ := h.relaid hk
    exact ⟨[f], .last hf, by simp only [Expr.bareAll, hb]⟩
  | .cons h ht hrest, hk => by
    obtain ⟨vs, ws, rfl, hvs, hws⟩ := hk.append
    obtain ⟨u, ws, rfl, hu, hws⟩ := hws.cons
    obtain ⟨f, hf, hb⟩ := h.relaid hvs
    obtain ⟨fs, hfs, hbs⟩ := hrest.relaid hws
    exact ⟨f :: fs, .cons hf (hu.trans ht) hfs, by simp only [Expr.bareAll, hb, hbs]⟩

end

theorem Stmt.relaid {ts us : List Token} {s : StackForge.Stmt} (h : Grammar.Stmt ts s)
    (hk : SameKinds ts us) : ∃ r, Grammar.Stmt us r ∧ r.bare = s.bare := by
  cases h with
  | bind ht hn hq h =>
    obtain ⟨u, vs, rfl, hu, hvs⟩ := hk.cons
    obtain ⟨m, vs, rfl, hm, hvs⟩ := hvs.cons
    obtain ⟨q, vs, rfl, hqu, hvs⟩ := hvs.cons
    obtain ⟨f, hf, hb⟩ := h.relaid hvs
    exact ⟨_, .bind (hu.trans ht) (hm.trans hn) (hqu.trans hq) hf, by simp only [Stmt.bare, hb]⟩
  | assign ht hq h =>
    obtain ⟨u, vs, rfl, hu, hvs⟩ := hk.cons
    obtain ⟨q, vs, rfl, hqu, hvs⟩ := hvs.cons
    obtain ⟨f, hf, hb⟩ := h.relaid hvs
    exact ⟨_, .assign (hu.trans ht) (hqu.trans hq) hf, by simp only [Stmt.bare, hb]⟩
  | ret ht h =>
    obtain ⟨u, vs, rfl, hu, hvs⟩ := hk.cons
    obtain ⟨f, hf, hb⟩ := h.relaid hvs
    exact ⟨_, .ret (hu.trans ht) hf, by simp only [Stmt.bare, hb]⟩

theorem Stmts.relaid {ts us : List Token} {ss : List StackForge.Stmt} (h : Stmts ts ss)
    (hk : SameKinds ts us) :
    ∃ rs, Stmts us rs ∧ rs.map StackForge.Stmt.bare = ss.map StackForge.Stmt.bare := by
  induction h generalizing us with
  | nil =>
    obtain rfl : us = [] := by simpa [SameKinds] using hk.symm
    exact ⟨[], .nil, rfl⟩
  | last h =>
    obtain ⟨r, hr, hb⟩ := h.relaid hk
    exact ⟨[r], .last hr, by simp only [List.map_cons, List.map_nil, hb]⟩
  | cons h ht _ ih =>
    obtain ⟨vs, ws, rfl, hvs, hws⟩ := hk.append
    obtain ⟨u, ws, rfl, hu, hws⟩ := hws.cons
    obtain ⟨r, hr, hb⟩ := h.relaid hvs
    obtain ⟨rs, hrs, hbs⟩ := ih hws
    exact ⟨r :: rs, .cons hr (hu.trans ht) hrs, by simp only [List.map_cons, hb, hbs]⟩

end Grammar

/-- The words of an expression say what it is, apart from parentheses and places. -/
theorem Expr.bare_eq_of_words {e f : Expr} (h : e.words = f.words) : e.bare = f.bare := by
  have hkinds : (e.words.map fun kind => (⟨kind, Span.point 0 0⟩ : Token)).map Token.kind
      = e.words := by
    rw [List.map_map]
    exact List.map_id _
  obtain ⟨x, hx, hbare⟩ := Grammar.derives_words e _ hkinds
  obtain ⟨y, hy, hbare'⟩ := Grammar.derives_words f _ (hkinds.trans h)
  have hsum : Grammar.Sum _ x := hx.mono (Nat.zero_le _)
  have hsum' : Grammar.Sum _ y := hy.mono (Nat.zero_le _)
  -- the parser reads one expression only
  have hparse_iff := @parseSum_iff _ ⟨.eof, Span.point 0 0⟩ hsum.inner rfl
  obtain ⟨rest, hparse, -⟩ := (hparse_iff x).mp hsum
  obtain ⟨rest', hparse', -⟩ := (hparse_iff y).mp hsum'
  obtain rfl : x = y := congrArg Prod.fst (Option.some.inj (hparse.symm.trans hparse'))
  rw [← hbare, hbare']

/-- An expression that is parsed without errors has the same bare form in every text with the same
essence. -/
theorem Expr.parse_of_essence {src src' : Source}
    (h : Token.essence src.text = Token.essence src'.text) {e : Expr}
    (hparse : (parse src).1 = some e) (hquiet : (parse src).2.hasErrors = false) :
    ∃ f, (parse src').1 = some f ∧ (parse src').2.hasErrors = false ∧ f.bare = e.bare := by
  have hclean := lex_of_parse hquiet
  obtain ⟨words, words', t, t', hlex, hlex', ht, ht', hinner, hkinds⟩ :=
    Token.lex_of_essence h hclean
  have hsum := (parse_iff (congrArg Prod.fst hlex) hclean hinner ht e).mpr ⟨hparse, hquiet⟩
  obtain ⟨f, hf, hbare⟩ := hsum.relaid hkinds
  obtain ⟨hparse', hquiet'⟩ :=
    (parse_iff (congrArg Prod.fst hlex') (by rw [hlex']; rfl) hf.inner ht' f).mp hf
  exact ⟨f, hparse', hquiet', hbare⟩

/-- The same for the statements of a block. -/
theorem Block.parse_of_essence {src src' : Source}
    (h : Token.essence src.text = Token.essence src'.text)
    (hquiet : (parse src).2.hasErrors = false) :
    (parse src').2.hasErrors = false ∧
      (parse src').1.stmts.map Stmt.bare = (parse src).1.stmts.map Stmt.bare := by
  have hclean := lex_of_parse hquiet
  obtain ⟨words, words', t, t', hlex, hlex', ht, ht', hinner, hkinds⟩ :=
    Token.lex_of_essence h hclean
  have hblock := (parse_iff (congrArg Prod.fst hlex) hclean hinner ht _).mpr ⟨rfl, hquiet⟩
  obtain ⟨rs, hrs, hbare⟩ := hblock.stmts.relaid hkinds
  obtain ⟨hparse', hquiet'⟩ :=
    (parse_iff (congrArg Prod.fst hlex') (by rw [hlex']; rfl) hrs.inner ht' _).mp (.mk hrs)
  rw [hparse']
  exact ⟨hquiet', hbare⟩

end StackForge
