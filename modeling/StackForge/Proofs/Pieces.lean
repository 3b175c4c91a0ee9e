import StackForge.Proofs.Lexing

/-!
The pieces of a text, said without the functions that cut it: blanks, comments up to the end of their
line, the longest number, the longest name, marks, and bytes that start nothing. The first piece finds
exactly the piece that stands at the front, so a text is cut in one way only.
-/
namespace StackForge.Token

/-- Digits, at least one. -/
def AreDigits (bs : List UInt8) : Prop := bs ≠ [] ∧ ∀ b ∈ bs, Piece.isDigit b = true

/-- Nothing, or a point and digits. -/
def IsFraction (bs : List UInt8) : Prop := bs = [] ∨ ∃ ds, bs = 46 :: ds ∧ AreDigits ds

/-- Nothing, or a plus or a minus. -/
def IsSign (bs : List UInt8) : Prop := bs = [] ∨ bs = [43] ∨ bs = [45]

/-- Nothing, or an exponent mark, a sign that may be missing, and digits. -/
def IsExponent (bs : List UInt8) : Prop :=
  bs = [] ∨ ∃ e sign ds, bs = e :: (sign ++ ds) ∧ (e = 101 ∨ e = 69) ∧ IsSign sign ∧ AreDigits ds

/-- The bytes of a number. -/
def IsNumber (text : List UInt8) : Prop :=
  ∃ whole frac exp, text = whole ++ frac ++ exp ∧ AreDigits whole ∧ IsFraction frac ∧
    IsExponent exp

theorem IsFraction.head {bs : List UInt8} (h : IsFraction bs) :
    ∀ b ∈ bs.head?, Piece.isDigit b = false := by
  rcases h with rfl | ⟨ds, rfl, -⟩
  · simp
  · rintro b ⟨⟩
    decide

theorem IsExponent.head {bs : List UInt8} (h : IsExponent bs) :
    ∀ b ∈ bs.head?, Piece.isDigit b = false := by
  rcases h with rfl | ⟨e, sign, ds, rfl, rfl | rfl, -, -⟩
  · simp
  · rintro b ⟨⟩
    decide
  · rintro b ⟨⟩
    decide

/-- A text of a class at the front of some bytes, where no longer one is. -/
structure Longest (Class : List UInt8 → Prop) (text rest : List UInt8) : Prop where
  holds : Class text
  longest : ∀ other rest', Class other → text ++ rest = other ++ rest' → other.length ≤ text.length

theorem Longest.unique {Class : List UInt8 → Prop} {text text' rest rest' : List UInt8}
    (h : Longest Class text rest) (h' : Longest Class text' rest')
    (heq : text ++ rest = text' ++ rest') : text = text' ∧ rest = rest' := by
  have h₁ := h.longest text' rest' h'.holds heq
  have h₂ := h'.longest text rest h.holds heq.symm
  exact List.append_inj heq (by omega)

namespace Piece

/-- The piece at the front of some bytes, and the bytes behind it. -/
inductive Heads : List UInt8 → Piece → List UInt8 → Prop where
  | blank {b : UInt8} {rest : List UInt8} (hb : isBlank b = true) : Heads (b :: rest) (.blank b) rest
  | comment {text rest : List UInt8} (htext : 10 ∉ text) (hrest : ∀ b ∈ rest.head?, b = 10) :
      Heads (47 :: 47 :: (text ++ rest)) (.comment (47 :: 47 :: text)) rest
  | number {text rest : List UInt8} (h : Longest IsNumber text rest) :
      Heads (text ++ rest) (.number text) rest
  | name {text rest : List UInt8} (h : Longest IsName text rest) :
      Heads (text ++ rest) (.name text) rest
  | mark {b : UInt8} {kind : Kind} {rest : List UInt8} (hb : mark? b = some kind)
      (hslash : b = 47 → rest.head? ≠ some 47) : Heads (b :: rest) (.mark kind b) rest
  | stray {b : UInt8} {rest : List UInt8} (hblank : isBlank b = false) (hdigit : isDigit b = false)
      (hletter : isLetter b = false) (hmark : mark? b = none) : Heads (b :: rest) (.stray b) rest

/-- Bytes cut into pieces, up to bytes that are left. -/
inductive Cut : List UInt8 → List Piece → List UInt8 → Prop where
  | nil {bs : List UInt8} : Cut bs [] bs
  | cons {bs mid unread : List UInt8} {piece : Piece} {pieces : List Piece}
      (hpiece : Heads bs piece mid) (hpieces : Cut mid pieces unread) :
      Cut bs (piece :: pieces) unread

theorem digits_append {ds : List UInt8} (hds : ∀ b ∈ ds, isDigit b = true) (rest : List UInt8) :
    digits (ds ++ rest) = ds ++ digits rest :=
  List.takeWhile_append_of_pos hds

theorem areDigits_digits {bs : List UInt8} (h : digits bs ≠ []) : AreDigits (digits bs) :=
  ⟨h, List.all_eq_true.mp List.all_takeWhile⟩

/-- A fraction or an exponent does not go on with digits of its own. -/
theorem eq_nil_of_digits_ne_nil {text rest : List UInt8} (h : digits (text ++ rest) ≠ [])
    (htext : ∀ b ∈ text.head?, isDigit b = false) : text = [] := by
  cases text with
  | nil => rfl
  | cons b bs => simp [digits, htext b rfl] at h

theorem fraction_eq {tail : List UInt8} (htail : digits tail ≠ []) :
    fraction (46 :: tail) = 46 :: digits tail := by
  simp [fraction, htail]

theorem fraction_cases (bs : List UInt8) :
    fraction bs = [] ∨ ∃ tail, bs = 46 :: tail ∧ digits tail ≠ [] := by
  unfold fraction
  split
  · rename_i tail
    by_cases htail : digits tail = []
    · exact .inl (by simp [htail])
    · exact .inr ⟨tail, rfl, htail⟩
  · exact .inl rfl

theorem exponent_eq {e : UInt8} {sign tail : List UInt8} (he : e = 101 ∨ e = 69)
    (hsign : IsSign sign) (htail : digits tail ≠ []) :
    exponent (e :: (sign ++ tail)) = e :: (sign ++ digits tail) := by
  have hmark : (e = 101 || e = 69) = true := by simpa using he
  cases tail with
  | nil => exact absurd rfl htail
  | cons d ds =>
    have hd : isDigit d = true := by
      cases hd : isDigit d with
      | true => rfl
      | false => simp [digits, hd] at htail
    have hplus : d ≠ 43 ∧ d ≠ 45 := by
      constructor <;> rintro rfl <;> exact absurd hd (by decide)
    rcases hsign with rfl | rfl | rfl <;> simp [exponent, hmark, hplus, htail]

theorem exponent_cases (bs : List UInt8) :
    exponent bs = [] ∨ ∃ e sign tail, bs = e :: (sign ++ tail) ∧ (e = 101 ∨ e = 69) ∧
      IsSign sign ∧ digits tail ≠ [] := by
  unfold exponent
  split
  · rename_i e rest
    split
    · rename_i he
      have he : e = 101 ∨ e = 69 := by simpa using he
      split
      · rename_i sign tail
        split
        · rename_i hsign
          by_cases htail : digits tail = []
          · exact .inl (by simp [htail])
          · exact .inr ⟨e, [sign], tail, rfl, he, .inr (by simpa using hsign), htail⟩
        · by_cases htail : digits (sign :: tail) = []
          · exact .inl (by simp [htail])
          · exact .inr ⟨e, [], sign :: tail, rfl, he, .inl rfl, htail⟩
      · exact .inl rfl
    · exact .inl rfl
  · exact .inl rfl

theorem isFraction_fraction (bs : List UInt8) : IsFraction (fraction bs) := by
  rcases fraction_cases bs with h | ⟨tail, rfl, htail⟩
  · exact .inl h
  · exact .inr ⟨digits tail, fraction_eq htail, areDigits_digits htail⟩

theorem isExponent_exponent (bs : List UInt8) : IsExponent (exponent bs) := by
  rcases exponent_cases bs with h | ⟨e, sign, tail, rfl, he, hsign, htail⟩
  · exact .inl h
  · exact .inr ⟨e, sign, digits tail, exponent_eq he hsign htail, he, hsign,
      areDigits_digits htail⟩

/-- Digits are followed by bytes that do not start with one. -/
theorem exists_append_digits (bs : List UInt8) :
    ∃ rest, bs = digits bs ++ rest ∧ digits rest = [] := by
  refine ⟨bs.dropWhile isDigit, List.takeWhile_append_dropWhile.symm, ?_⟩
  have hstop := List.head?_dropWhile_not isDigit bs
  cases hrest : bs.dropWhile isDigit with
  | nil => rfl
  | cons b rest =>
    rw [hrest] at hstop
    have hb : isDigit b = false := hstop
    simp [digits, hb]

theorem exists_append_fraction (bs : List UInt8) : ∃ rest, bs = fraction bs ++ rest := by
  rcases fraction_cases bs with h | ⟨tail, rfl, htail⟩
  · exact ⟨bs, by simp [h]⟩
  · obtain ⟨rest, hrest, -⟩ := exists_append_digits tail
    exact ⟨rest, by rw [fraction_eq htail, List.cons_append, ← hrest]⟩

theorem exists_append_exponent (bs : List UInt8) : ∃ rest, bs = exponent bs ++ rest := by
  rcases exponent_cases bs with h | ⟨e, sign, tail, rfl, he, hsign, htail⟩
  · exact ⟨bs, by simp [h]⟩
  · obtain ⟨rest, hrest, -⟩ := exists_append_digits tail
    refine ⟨rest, ?_⟩
    rw [exponent_eq he hsign htail, List.cons_append, List.append_assoc, ← hrest]

theorem digits_append_ne_nil {ds : List UInt8} (hds : AreDigits ds) (rest : List UInt8) :
    digits (ds ++ rest) ≠ [] := by
  simp [digits_append hds.2, hds.1]

/-- No exponent at the front is longer. -/
theorem length_le_exponent {text : List UInt8} (h : IsExponent text) (rest : List UInt8) :
    text.length ≤ (exponent (text ++ rest)).length := by
  rcases h with rfl | ⟨e, sign, ds, rfl, he, hsign, hds⟩
  · simp
  · rw [List.cons_append, List.append_assoc, exponent_eq he hsign (digits_append_ne_nil hds rest),
      digits_append hds.2]
    simp

/-- No fraction and exponent at the front are longer. -/
theorem length_le_fraction {frac exp rest bs : List UInt8} (hfrac : IsFraction frac)
    (hexp : IsExponent exp) (hbs : bs = frac ++ (exp ++ rest)) :
    frac.length + exp.length
      ≤ (fraction bs).length + (exponent (bs.drop (fraction bs).length)).length := by
  rcases hfrac with rfl | ⟨ds, rfl, hds⟩
  · -- without a fraction of its own, an exponent stands where a fraction cannot start
    rcases fraction_cases bs with h | ⟨tail, htail, hdigits⟩
    · have hexponent := length_le_exponent hexp rest
      rw [h, List.length_nil, List.drop_zero, hbs]
      simpa using hexponent
    · obtain rfl : exp = [] := by
        rcases hexp with rfl | ⟨e, sign, ds, rfl, rfl | rfl, -, -⟩
        · rfl
        · simp [hbs] at htail
        · simp [hbs] at htail
      simp
  · have hfraction : fraction bs = 46 :: (ds ++ digits (exp ++ rest)) := by
      rw [hbs, List.cons_append, fraction_eq (digits_append_ne_nil hds _), digits_append hds.2]
    by_cases hmore : digits (exp ++ rest) = []
    · have hdrop : bs.drop (fraction bs).length = exp ++ rest := by
        rw [hfraction, hmore, hbs]
        simp
      have hexponent := length_le_exponent hexp rest
      rw [hdrop, hfraction]
      simp
      omega
    · obtain rfl : exp = [] := eq_nil_of_digits_ne_nil hmore hexp.head
      rw [hfraction]
      simp
      omega

theorem numberAt_append {whole tail : List UInt8} (hwhole : ∀ b ∈ whole, isDigit b = true)
    (htail : digits tail = []) :
    numberAt (whole ++ tail)
      = whole ++ fraction tail ++ exponent (tail.drop (fraction tail).length) := by
  have hdigits : digits (whole ++ tail) = whole := by rw [digits_append hwhole, htail, List.append_nil]
  simp only [numberAt, hdigits, List.drop_left, ← List.drop_drop]

/-- The number at the front of a text that starts with a digit is the longest one. -/
theorem longest_numberAt {b : UInt8} {bs : List UInt8} (hb : isDigit b = true) :
    ∃ rest, b :: bs = numberAt (b :: bs) ++ rest ∧ Longest IsNumber (numberAt (b :: bs)) rest := by
  have hwhole : AreDigits (digits (b :: bs)) := areDigits_digits (by simp [digits, hb])
  obtain ⟨tail, hsplit, hstop⟩ := exists_append_digits (b :: bs)
  generalize digits (b :: bs) = whole at hwhole hsplit
  obtain ⟨behind, hbehind⟩ := exists_append_fraction tail
  obtain ⟨rest, hrest⟩ := exists_append_exponent behind
  have hdrop : tail.drop (fraction tail).length = behind := by
    conv => lhs; arg 2; rw [hbehind]
    exact List.drop_left
  rw [hsplit, numberAt_append hwhole.2 hstop, hdrop]
  refine ⟨rest, ?_, ⟨whole, fraction tail, exponent behind, rfl, hwhole, isFraction_fraction tail,
    isExponent_exponent behind⟩, ?_⟩
  · rw [List.append_assoc, List.append_assoc, ← hrest, ← hbehind]
  · rintro _ rest' ⟨w, f, e, rfl, hw, hf, he⟩ heq
    have hsame : whole ++ tail = w ++ (f ++ (e ++ rest')) := by
      rw [hbehind, hrest]
      simpa using heq
    have hrun : whole = w ++ digits (f ++ (e ++ rest')) := by
      rw [← digits_append hw.2, ← hsame, digits_append hwhole.2, hstop, List.append_nil]
    by_cases hmore : digits (f ++ (e ++ rest')) = []
    · obtain rfl : whole = w := by rw [hrun, hmore, List.append_nil]
      have hle := length_le_fraction hf he (List.append_cancel_left hsame)
      rw [hdrop] at hle
      simp only [List.length_append]
      omega
    · obtain rfl : f = [] := eq_nil_of_digits_ne_nil hmore hf.head
      obtain rfl : e = [] := eq_nil_of_digits_ne_nil hmore he.head
      rw [hrun]
      simp

theorem starts_of_isNumber {text : List UInt8} (h : IsNumber text) :
    ∃ b tail, text = b :: tail ∧ isDigit b = true := by
  obtain ⟨whole, frac, exp, rfl, hwhole, -, -⟩ := h
  obtain ⟨b, tail, rfl⟩ := List.exists_cons_of_ne_nil hwhole.1
  exact ⟨b, tail ++ frac ++ exp, by simp, hwhole.2 b List.mem_cons_self⟩

theorem class_of_isDigit {b : UInt8} (h : isDigit b = true) : isBlank b = false ∧ b ≠ 47 := by
  simp only [isDigit, Bool.and_eq_true, decide_eq_true_eq, UInt8.le_iff_toNat_le,
    UInt8.toNat_ofNat] at h
  simp only [isBlank, Bool.or_eq_false_iff, decide_eq_false_iff_not, ← UInt8.toNat_inj,
    UInt8.toNat_ofNat, ne_eq]
  omega

theorem isName_takeWhile {b : UInt8} (hb : isLetter b = true) (bs : List UInt8) :
    IsName (b :: bs.takeWhile isNameByte) :=
  ⟨b, _, rfl, hb, List.all_eq_true.mp List.all_takeWhile⟩

/-- The name at the front of a text that starts with a letter is the longest one. -/
theorem longest_name {b : UInt8} {bs : List UInt8} (hb : isLetter b = true) :
    Longest IsName (b :: bs.takeWhile isNameByte) (bs.dropWhile isNameByte) := by
  refine ⟨isName_takeWhile hb bs, ?_⟩
  rintro _ rest' ⟨c, cs, rfl, -, hcs⟩ heq
  have hsame : b = c ∧ bs = cs ++ rest' := by
    simpa [List.takeWhile_append_dropWhile] using heq
  rw [hsame.2, List.takeWhile_append_of_pos hcs]
  simp

theorem exists_comment (bs : List UInt8) :
    ∃ text rest, bs = text ++ rest ∧ bs.takeWhile (· ≠ 10) = text ∧ 10 ∉ text ∧
      ∀ b ∈ rest.head?, b = 10 := by
  refine ⟨_, bs.dropWhile (· ≠ 10), List.takeWhile_append_dropWhile.symm, rfl, ?_, ?_⟩
  · intro hmem
    have hne := List.all_eq_true.mp (@List.all_takeWhile _ (· ≠ 10) bs) 10 hmem
    simp at hne
  · intro b hb
    have hstop := List.head?_dropWhile_not (· ≠ 10) bs
    rw [Option.mem_def.mp hb] at hstop
    simpa using hstop

/-- The first piece stands at the front. -/
theorem heads_first (b : UInt8) (bs : List UInt8) :
    ∃ rest, b :: bs = (first b bs).bytes ++ rest ∧ Heads (b :: bs) (first b bs) rest := by
  unfold first
  split
  · rename_i hblank
    exact ⟨bs, rfl, .blank hblank⟩
  rename_i hblank
  split
  · rename_i hcomment
    obtain ⟨rfl, hslash⟩ : b = 47 ∧ bs.head? = some 47 := by simpa using hcomment
    obtain ⟨bs, rfl⟩ := List.head?_eq_some_iff.mp hslash
    obtain ⟨text, rest, rfl, htake, htext, hrest⟩ := exists_comment bs
    rw [List.takeWhile_cons_of_pos (by decide), htake]
    exact ⟨rest, rfl, .comment htext hrest⟩
  rename_i hcomment
  split
  · rename_i hdigit
    obtain ⟨rest, hrest, hlongest⟩ := @longest_numberAt b bs hdigit
    have hheads := Heads.number hlongest
    rw [← hrest] at hheads
    exact ⟨rest, hrest, hheads⟩
  rename_i hdigit
  split
  · rename_i hletter
    have hcut : b :: bs = (b :: bs.takeWhile isNameByte) ++ bs.dropWhile isNameByte := by simp
    have hheads := Heads.name (@longest_name b bs hletter)
    rw [← hcut] at hheads
    exact ⟨bs.dropWhile isNameByte, hcut, hheads⟩
  rename_i hletter
  split
  · rename_i kind hkind
    exact ⟨bs, rfl, .mark hkind (by simpa using hcomment)⟩
  · rename_i hmark
    exact ⟨bs, rfl, .stray (by simpa using hblank) (by simpa using hdigit) (by simpa using hletter)
      hmark⟩

/-- What stands at the front is the first piece. -/
theorem Heads.eq_first {bs rest : List UInt8} {piece : Piece} (h : Heads bs piece rest) :
    ∃ b tail, bs = b :: tail ∧ piece = first b tail ∧ bs = piece.bytes ++ rest := by
  cases h with
  | @blank b rest hb => exact ⟨b, rest, rfl, by simp [first, hb], rfl⟩
  | @comment text rest htext hrest =>
    refine ⟨47, 47 :: (text ++ rest), rfl, ?_, rfl⟩
    have hstop : (text ++ rest).takeWhile (· ≠ 10) = text := by
      rw [List.takeWhile_append_of_pos (by simpa using fun b hb => ne_of_mem_of_not_mem hb htext)]
      cases rest with
      | nil => simp
      | cons b rest => simp [hrest b rfl]
    rw [first, if_neg (by decide), if_pos (by simp), List.takeWhile_cons_of_pos (by decide), hstop]
  | @number text rest h =>
    obtain ⟨b, tail, rfl, hb⟩ := starts_of_isNumber h.holds
    obtain ⟨hblank, hslash⟩ := class_of_isDigit hb
    obtain ⟨rest', hrest', h'⟩ := @longest_numberAt b (tail ++ rest) hb
    obtain ⟨htext, -⟩ := h.unique h' hrest'
    refine ⟨b, tail ++ rest, rfl, ?_, rfl⟩
    simp [first, hblank, hslash, hb, ← htext]
  | @name text rest h =>
    obtain ⟨b, tail, rfl, hb, -⟩ := h.holds
    obtain ⟨hblank, hdigit, hslash⟩ := class_of_isLetter hb
    obtain ⟨htext, -⟩ := h.unique (@longest_name b (tail ++ rest) hb) (by simp)
    refine ⟨b, tail ++ rest, rfl, ?_, rfl⟩
    simp [first, hblank, hdigit, hslash, hb, ← htext]
  | @mark b kind rest hb hslash => exact ⟨b, rest, rfl, (first_mark hb hslash).symm, rfl⟩
  | @stray b rest hblank hdigit hletter hmark =>
    have hslash : b ≠ 47 := by
      rintro rfl
      cases hmark
    exact ⟨b, rest, rfl, by simp [first, hblank, hdigit, hletter, hmark, hslash], rfl⟩

/-- At most one piece stands at the front. -/
theorem Heads.unique {bs rest rest' : List UInt8} {piece piece' : Piece}
    (h : Heads bs piece rest) (h' : Heads bs piece' rest') : piece = piece' ∧ rest = rest' := by
  obtain ⟨b, tail, rfl, rfl, hrest⟩ := h.eq_first
  obtain ⟨b', tail', heq, rfl, hrest'⟩ := h'.eq_first
  cases heq
  exact ⟨rfl, List.append_cancel_left (hrest.symm.trans hrest')⟩

theorem Heads.bytes_ne_nil {bs rest : List UInt8} {piece : Piece} (h : Heads bs piece rest) :
    piece.bytes ≠ [] := by
  obtain ⟨b, tail, -, rfl, -⟩ := h.eq_first
  exact first_bytes_ne_nil b tail

namespace Cut

/-- The pieces and what is left are the bytes, in order. -/
theorem flatMap_bytes {bs unread : List UInt8} {pieces : List Piece} (h : Cut bs pieces unread) :
    bs = pieces.flatMap bytes ++ unread := by
  induction h with
  | nil => rfl
  | cons hpiece _ ih =>
    obtain ⟨-, -, -, -, hbytes⟩ := hpiece.eq_first
    rw [hbytes, List.flatMap_cons, List.append_assoc, ← ih]

/-- Bytes are cut in one way only. -/
theorem unique {bs unread : List UInt8} {ps qs : List Piece} (h : Cut bs ps unread)
    (h' : Cut bs qs unread) : ps = qs := by
  -- a cut that goes on leaves less than all
  have hshorter : ∀ {bs mid unread : List UInt8} {piece : Piece} {ps : List Piece},
      Heads bs piece mid → Cut mid ps unread → unread.length < bs.length := by
    intro bs mid unread piece ps hpiece hps
    have hlength := congrArg List.length (Cut.cons hpiece hps).flatMap_bytes
    have hpos := List.length_pos_iff.mpr hpiece.bytes_ne_nil
    simp at hlength
    omega
  induction h generalizing qs with
  | nil =>
    cases h' with
    | nil => rfl
    | cons hpiece hps => exact absurd (hshorter hpiece hps) (Nat.lt_irrefl _)
  | cons hpiece hps ih =>
    cases h' with
    | nil => exact absurd (hshorter hpiece hps) (Nat.lt_irrefl _)
    | cons hpiece' hps' =>
      obtain ⟨rfl, rfl⟩ := hpiece.unique hpiece'
      rw [ih hps']

end Cut

/-- A text is cut into all its pieces. -/
theorem cut_all (bs : List UInt8) : Cut bs (all bs) [] := by
  fun_induction all bs with
  | case1 => exact .nil
  | case2 b bs piece ih =>
    obtain ⟨rest, hrest, hheads⟩ := heads_first b bs
    have hdrop : (b :: bs).drop piece.bytes.length = rest := by
      rw [hrest]
      exact List.drop_left
    rw [hdrop] at ih ⊢
    exact .cons hheads ih

theorem isBlank_of_areDigits {ds : List UInt8} (h : AreDigits ds) :
    ∀ b ∈ ds, isBlank b = false := by
  intro b hb
  exact (class_of_isDigit (h.2 b hb)).1

theorem isBlank_of_isNumber {text : List UInt8} (h : IsNumber text) :
    ∀ b ∈ text, isBlank b = false := by
  obtain ⟨whole, frac, exp, rfl, hwhole, hfrac, hexp⟩ := h
  have hfrac : ∀ b ∈ frac, isBlank b = false := by
    rcases hfrac with rfl | ⟨ds, rfl, hds⟩
    · simp
    · exact List.forall_mem_cons.mpr ⟨by decide, isBlank_of_areDigits hds⟩
  have hexp : ∀ b ∈ exp, isBlank b = false := by
    rcases hexp with rfl | ⟨e, sign, ds, rfl, he, hsign, hds⟩
    · simp
    · have he : isBlank e = false := by rcases he with rfl | rfl <;> decide
      have hsign : ∀ b ∈ sign, isBlank b = false := by
        rcases hsign with rfl | rfl | rfl <;> simp [isBlank]
      exact List.forall_mem_cons.mpr
        ⟨he, List.forall_mem_append.mpr ⟨hsign, isBlank_of_areDigits hds⟩⟩
  exact List.forall_mem_append.mpr
    ⟨List.forall_mem_append.mpr ⟨isBlank_of_areDigits hwhole, hfrac⟩, hexp⟩

theorem isBlank_of_isName {text : List UInt8} (h : IsName text) :
    ∀ b ∈ text, isBlank b = false := by
  obtain ⟨b, bs, rfl, hb, hbs⟩ := h
  refine List.forall_mem_cons.mpr ⟨(class_of_isLetter hb).1, ?_⟩
  intro c hc
  rcases Bool.or_eq_true_iff.mp (hbs c hc) with hletter | hdigit
  · exact (class_of_isLetter hletter).1
  · exact (class_of_isDigit hdigit).1

end Piece
end StackForge.Token
