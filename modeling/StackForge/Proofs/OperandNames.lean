import Mathlib.Algebra.Group.Nat.Defs
import Mathlib.Data.List.Basic
import StackForge.Binding

/-!
The names of operands are told apart by their spelling. Digits with no zero in front of others are
the digits of their own value, so that an index is found behind exactly one text. Every name that
refers to an operand is therefore the name that generated code gives to it.
-/
namespace StackForge

namespace Binding

/-! ### Digits and their value -/

/-- The digits that a number is written with: at least one, and no zero in front of others. -/
structure IsNumeral (digits : List Char) : Prop where
  nonempty : digits ≠ []
  isDigit : ∀ c ∈ digits, c.isDigit = true
  unpadded : ∀ rest, digits = '0' :: rest → rest = []

/-- The digits of a number that is not zero do not start with a zero. -/
theorem head?_toDigits {k : Nat} (hk : 0 < k) : (Nat.toDigits 10 k).head? ≠ some '0' := by
  induction k using Nat.strongRecOn with
  | ind k ih =>
    rw [Nat.toDigits_eq_if (by decide)]
    split
    · simp only [List.head?_cons, ne_eq, Option.some.injEq, Nat.digitChar_eq_zero]
      omega
    · rw [List.head?_append_of_ne_nil _ Nat.toDigits_ne_nil]
      exact ih (k / 10) (by omega) (by omega)

theorem isNumeral_toDigits (k : Nat) : IsNumeral (Nat.toDigits 10 k) where
  nonempty := Nat.toDigits_ne_nil
  isDigit _ := Nat.isDigit_of_mem_toDigits (by decide) (by decide)
  unpadded rest hcons := by
    rcases Nat.eq_zero_or_pos k with rfl | hk
    · exact (List.cons.inj hcons).2.symm
    · exact absurd (congrArg List.head? hcons) (head?_toDigits hk)

/-- A digit is the one that is written for its value. -/
theorem digitChar_of_isDigit {c : Char} (h : c.isDigit = true) :
    c.toNat - 48 < 10 ∧ Nat.digitChar (c.toNat - 48) = c := by
  have hrange : 48 ≤ c.toNat ∧ c.toNat ≤ 57 := Char.isDigit_iff_toNat.mp h
  have hlt : c.toNat - 48 < 10 := by omega
  refine ⟨hlt, Char.toNat_inj.mp ?_⟩
  rw [Nat.toNat_digitChar_of_lt_ten hlt]
  omega

/-- Digits behind a number that is not zero are kept as they are. -/
theorem toDigits_ofDigitChars_of_pos {cs : List Char} {n : Nat} (hn : 0 < n)
    (hcs : ∀ c ∈ cs, c.isDigit = true) :
    Nat.toDigits 10 (Nat.ofDigitChars 10 cs n) = Nat.toDigits 10 n ++ cs := by
  induction cs generalizing n with
  | nil => simp
  | cons c cs ih =>
    obtain ⟨hc, hcs⟩ := List.forall_mem_cons.mp hcs
    obtain ⟨hlt, hchar⟩ := digitChar_of_isDigit hc
    calc Nat.toDigits 10 (Nat.ofDigitChars 10 (c :: cs) n)
        = Nat.toDigits 10 (Nat.ofDigitChars 10 cs (10 * n + (c.toNat - 48))) := rfl
      _ = Nat.toDigits 10 (10 * n + (c.toNat - 48)) ++ cs := ih (by omega) hcs
      _ = Nat.toDigits 10 n ++ Nat.toDigits 10 (c.toNat - 48) ++ cs := by
        rw [Nat.toDigits_append_toDigits (by decide) hn hlt]
      _ = Nat.toDigits 10 n ++ c :: cs := by
        rw [Nat.toDigits_of_lt_base hlt, hchar, List.append_assoc, List.singleton_append]

/-- A numeral is written back from its value. -/
theorem IsNumeral.toDigits_ofDigitChars {digits : List Char} (h : IsNumeral digits) :
    Nat.toDigits 10 (Nat.ofDigitChars 10 digits 0) = digits := by
  cases digits with
  | nil => exact absurd rfl h.nonempty
  | cons c cs =>
    obtain ⟨hc, hcs⟩ := List.forall_mem_cons.mp h.isDigit
    obtain ⟨hlt, hchar⟩ := digitChar_of_isDigit hc
    have hfirst : Nat.ofDigitChars 10 (c :: cs) 0 = Nat.ofDigitChars 10 cs (c.toNat - 48) := by
      rw [Nat.ofDigitChars_cons, Nat.mul_zero, Nat.zero_add]
      rfl
    rcases Nat.eq_zero_or_pos (c.toNat - 48) with hzero | hpos
    · obtain rfl : c = '0' := by rw [← hchar, hzero]; rfl
      obtain rfl := h.unpadded cs rfl
      rfl
    · rw [hfirst, toDigits_ofDigitChars_of_pos hpos hcs, Nat.toDigits_of_lt_base hlt, hchar,
        List.singleton_append]

/-! ### Indices -/

/-- What is asked of the digits of an index. -/
theorem isNumeral_iff {digits : List Char} :
    IsNumeral digits ↔ ¬(digits.isEmpty || !digits.all Char.isDigit) = true ∧
      ¬(1 < digits.length && digits.head? = some '0') = true := by
  cases digits with
  | nil => exact iff_of_false (fun h => h.nonempty rfl) (by simp)
  | cons c cs =>
    have hzero : (∀ rest, c :: cs = '0' :: rest → rest = []) ↔ ¬(0 < cs.length ∧ c = '0') := by
      rw [List.length_pos_iff]
      constructor
      · rintro h ⟨hne, rfl⟩
        exact hne (h cs rfl)
      · rintro h rest hcons
        obtain ⟨hc, rfl⟩ := List.cons.inj hcons
        exact not_not.mp fun hne => h ⟨hne, hc⟩
    constructor
    · rintro ⟨-, hdigit, hpad⟩
      simpa using ⟨by simpa using hdigit, by simpa using hzero.mp hpad⟩
    · rintro ⟨hdigit, hpad⟩
      exact ⟨List.cons_ne_nil c cs, by simpa using hdigit, hzero.mpr (by simpa using hpad)⟩

instance (digits : List Char) : Decidable (IsNumeral digits) :=
  decidable_of_iff _ isNumeral_iff.symm

/-- The index of a text is the value of its digits, if they are a numeral and the value is in
range. -/
theorem index?_eq (digits : List Char) :
    index? digits =
      if IsNumeral digits ∧ Nat.ofDigitChars 10 digits 0 < indexLimit then
        some (Nat.ofDigitChars 10 digits 0)
      else none := by
  have hvalue : digits.foldl (fun n c => 10 * n + (c.toNat - 48)) 0
      = Nat.ofDigitChars 10 digits 0 := Nat.ofDigitChars_eq_foldl.symm
  simp only [isNumeral_iff, index?, hvalue]
  split
  next hdigit => simp [hdigit]
  next hdigit =>
    split
    next hpad => simp [hpad]
    next hpad => simp [hdigit, hpad]

theorem of_index?_eq_some {digits : List Char} {k : Nat} (h : index? digits = some k) :
    IsNumeral digits ∧ Nat.ofDigitChars 10 digits 0 = k ∧ k < indexLimit := by
  rw [index?_eq] at h
  split at h
  next hindex =>
    obtain rfl := Option.some.inj h
    exact ⟨hindex.1, rfl, hindex.2⟩
  next => cases h

/-- An index is found behind its own digits only. -/
theorem index?_eq_some_iff {digits : List Char} {k : Nat} :
    index? digits = some k ↔ k < indexLimit ∧ digits = Nat.toDigits 10 k := by
  constructor
  · intro h
    obtain ⟨hnumeral, rfl, hk⟩ := of_index?_eq_some h
    exact ⟨hk, hnumeral.toDigits_ofDigitChars.symm⟩
  · rintro ⟨hk, rfl⟩
    rw [index?_eq, Nat.ofDigitChars_ten_toDigits, if_pos ⟨isNumeral_toDigits k, hk⟩]

/-- Texts that are no index: nothing at all, a text with something other than a digit, a zero in
front of others, and the numbers that do not fit into sixty-four bits. -/
inductive NoIndex : String → Prop where
  | empty : NoIndex ""
  | nonDigit {text : String} {c : Char} (hmem : c ∈ text.toList) (hc : c.isDigit = false) :
    NoIndex text
  | padded {rest : String} (hrest : rest ≠ "") : NoIndex ("0" ++ rest)
  | tooLarge {k : Nat} (hk : 2 ^ 64 ≤ k) : NoIndex (toString k)

theorem eq_append_of_toList {text start : String} {rest : List Char}
    (h : text.toList = start.toList ++ rest) : text = start ++ String.ofList rest := by
  rw [← String.toList_inj, h, String.toList_append, String.toList_ofList]

/-- A text that is none of these is a numeral. -/
theorem isNumeral_of_not_noIndex {text : String} (h : ¬NoIndex text) : IsNumeral text.toList where
  nonempty hnil := h (String.toList_eq_nil_iff.mp hnil ▸ .empty)
  isDigit c hc := by
    by_contra hdigit
    exact h (.nonDigit hc (by simpa using hdigit))
  unpadded rest hcons := by
    have htext : text = "0" ++ String.ofList rest := eq_append_of_toList hcons
    by_contra hrest
    exact h (htext ▸ .padded (by simpa using hrest))

theorem index?_eq_none_iff {text : String} : index? text.toList = none ↔ NoIndex text := by
  constructor
  · intro h
    by_contra hno
    have hnumeral := isNumeral_of_not_noIndex hno
    have hlarge : 2 ^ 64 ≤ Nat.ofDigitChars 10 text.toList 0 := by
      simpa [index?_eq, hnumeral, indexLimit] using h
    have htext : text = toString (Nat.ofDigitChars 10 text.toList 0) := by
      rw [Nat.toString_eq_ofList_toDigits, hnumeral.toDigits_ofDigitChars, String.ofList_toList]
    exact hno (htext ▸ .tooLarge hlarge)
  · intro h
    rw [Option.eq_none_iff_forall_ne_some]
    intro k hk
    obtain ⟨hnumeral, hvalue, hlt⟩ := of_index?_eq_some hk
    cases h with
    | empty => exact hnumeral.nonempty rfl
    | nonDigit hmem hc => exact absurd (hnumeral.isDigit _ hmem) (by simp [hc])
    | @padded rest hrest =>
      have hnil := hnumeral.unpadded rest.toList (by rw [String.toList_append]; rfl)
      exact hrest (String.toList_eq_nil_iff.mp hnil)
    | tooLarge hlarge =>
      rw [Nat.toString_eq_ofList_toDigits, String.toList_ofList, Nat.ofDigitChars_ten_toDigits]
        at hvalue
      simp only [indexLimit] at hlt
      omega

/-! ### Names -/

/-- The first letters of a name, and what it refers to with an index behind them. -/
inductive Begins : String → (Nat → Binding) → Prop where
  | input : Begins "i" .input
  | count : Begins "n_i" .count
  | output : Begins "o" .output

namespace Begins

variable {start : String} {kind : Nat → Binding}

theorem classify_append (h : Begins start kind) (text : String) :
    classify (start ++ text) = (index? text.toList).elim .other kind := by
  rw [classify, String.toList_append]
  cases h <;> rfl

theorem kind_ne_other (h : Begins start kind) (k : Nat) : kind k ≠ .other := by
  cases h <;> nofun

/-- Operands of different kinds are different. -/
theorem eq_of_kind_eq {start' : String} {kind' : Nat → Binding} (h : Begins start kind)
    (h' : Begins start' kind') {k k' : Nat} (heq : kind k = kind' k') :
    start = start' ∧ k = k' := by
  cases h <;> cases h' <;> cases heq <;> exact ⟨rfl, rfl⟩

end Begins

/-- What holds of all beginnings holds of the three. -/
theorem forall_begins {P : String → Prop} :
    (∀ start kind, Begins start kind → P start) ↔ P "i" ∧ P "n_i" ∧ P "o" := by
  constructor
  · intro h
    exact ⟨h _ _ .input, h _ _ .count, h _ _ .output⟩
  · rintro ⟨hinput, hcount, houtput⟩ start kind hbegins
    cases hbegins with
    | input => exact hinput
    | count => exact hcount
    | output => exact houtput

/-- Every operand is of one of the three kinds. -/
theorem exists_begins_of_ne_other {b : Binding} (h : b ≠ .other) :
    ∃ start kind k, Begins start kind ∧ b = kind k := by
  cases b with
  | input k => exact ⟨_, _, k, .input, rfl⟩
  | count k => exact ⟨_, _, k, .count, rfl⟩
  | output k => exact ⟨_, _, k, .output, rfl⟩
  | other => exact absurd rfl h

/-- Names that refer to an operand begin like one. -/
theorem exists_append_of_ne_other {name : String} (h : classify name ≠ .other) :
    ∃ start kind text, Begins start kind ∧ name = start ++ text := by
  unfold classify ofChars at h
  split at h
  next hcs => exact ⟨_, _, _, .count, eq_append_of_toList hcs⟩
  next hcs => exact ⟨_, _, _, .input, eq_append_of_toList hcs⟩
  next hcs => exact ⟨_, _, _, .output, eq_append_of_toList hcs⟩
  next => exact absurd rfl h

/-- A name refers to an operand exactly if it is the name that is printed for the operand. -/
theorem classify_eq_iff {start : String} {kind : Nat → Binding} (h : Begins start kind)
    {name : String} {k : Nat} :
    classify name = kind k ↔ k < indexLimit ∧ name = start ++ toString k := by
  constructor
  · intro hname
    obtain ⟨start', kind', text, h', rfl⟩ := exists_append_of_ne_other (hname ▸ h.kind_ne_other k)
    rw [h'.classify_append] at hname
    cases hindex : index? text.toList with
    | none =>
      rw [hindex] at hname
      exact absurd hname.symm (h.kind_ne_other k)
    | some j =>
      rw [hindex] at hname
      obtain ⟨rfl, rfl⟩ := h'.eq_of_kind_eq h hname
      obtain ⟨hlt, hdigits⟩ := index?_eq_some_iff.mp hindex
      refine ⟨hlt, ?_⟩
      rw [Nat.toString_eq_ofList_toDigits, ← hdigits, String.ofList_toList]
  · rintro ⟨hk, rfl⟩
    rw [h.classify_append, Nat.toString_eq_ofList_toDigits, String.toList_ofList,
      index?_eq_some_iff.mpr ⟨hk, rfl⟩]
    rfl

/-- What the names of operands in generated code refer to. -/
theorem classify_operand {k : Nat} (hk : k < indexLimit) :
    classify s!"i{k}" = .input k ∧ classify s!"n_i{k}" = .count k ∧
      classify s!"o{k}" = .output k :=
  ⟨(classify_eq_iff .input).mpr ⟨hk, rfl⟩, (classify_eq_iff .count).mpr ⟨hk, rfl⟩,
    (classify_eq_iff .output).mpr ⟨hk, rfl⟩⟩

/-- Names refer to indices below the limit only. -/
theorem lt_of_classify {name : String} {k : Nat}
    (h : classify name = .input k ∨ classify name = .count k ∨ classify name = .output k) :
    k < indexLimit := by
  rcases h with h | h | h
  · exact ((classify_eq_iff .input).mp h).1
  · exact ((classify_eq_iff .count).mp h).1
  · exact ((classify_eq_iff .output).mp h).1

/-- Names refer to no operand exactly if no operand is printed like this. -/
theorem classify_eq_other_iff_ne {name : String} :
    classify name = .other ↔
      ∀ k < indexLimit, ∀ start kind, Begins start kind → name ≠ start ++ toString k := by
  constructor
  · rintro hother k hk start kind h hname
    exact h.kind_ne_other k (((classify_eq_iff h).mpr ⟨hk, hname⟩).symm.trans hother)
  · intro hall
    by_contra hne
    obtain ⟨start, kind, k, h, hclass⟩ := exists_begins_of_ne_other hne
    obtain ⟨hk, hname⟩ := (classify_eq_iff h).mp hclass
    exact hall k hk start kind h hname

/-- Names refer to no operand exactly if no index follows the letters of one. -/
theorem classify_eq_other_iff_noIndex {name : String} :
    classify name = .other ↔
      ∀ text start kind, Begins start kind → name = start ++ text → NoIndex text := by
  constructor
  · rintro hother text start kind h rfl
    rw [h.classify_append] at hother
    rw [← index?_eq_none_iff]
    cases hindex : index? text.toList with
    | none => rfl
    | some k =>
      rw [hindex] at hother
      exact absurd hother (h.kind_ne_other k)
  · intro hall
    by_contra hne
    obtain ⟨start, kind, text, h, rfl⟩ := exists_append_of_ne_other hne
    refine hne ?_
    rw [h.classify_append, index?_eq_none_iff.mpr (hall _ _ _ h rfl)]
    rfl

/-- No operand has two names. -/
theorem eq_of_classify_eq {name name' : String} (h : classify name ≠ .other)
    (heq : classify name' = classify name) : name' = name := by
  obtain ⟨start, kind, k, hbegins, hname⟩ := exists_begins_of_ne_other h
  rw [((classify_eq_iff hbegins).mp (heq.trans hname)).2, ((classify_eq_iff hbegins).mp hname).2]

/-- Classifying a name undoes the printing of names. A name refers to an operand exactly if it is
the letters for its kind with the number of the operand behind them, as generated code prints it.
All other names refer to none: those that begin otherwise, and those with something behind the
letters that is not the printed form of a number in range. So different names refer to different
operands. -/
theorem classify_inverts_printing (name : String) :
    (∀ k : Nat,
      (classify name = .input k ↔ k < 2 ^ 64 ∧ name = "i" ++ toString k)
        ∧ (classify name = .count k ↔ k < 2 ^ 64 ∧ name = "n_i" ++ toString k)
        ∧ (classify name = .output k ↔ k < 2 ^ 64 ∧ name = "o" ++ toString k))
      ∧ (classify name = .other ↔ ∀ k < 2 ^ 64,
          name ≠ "i" ++ toString k ∧ name ≠ "n_i" ++ toString k ∧ name ≠ "o" ++ toString k)
      ∧ (classify name = .other ↔ ∀ text,
          name = "i" ++ text ∨ name = "n_i" ++ text ∨ name = "o" ++ text → NoIndex text)
      ∧ ∀ name', name' ≠ name → classify name' = classify name → classify name = .other := by
  refine ⟨fun k => ⟨classify_eq_iff .input, classify_eq_iff .count, classify_eq_iff .output⟩,
    ?_, ?_, ?_⟩
  · rw [classify_eq_other_iff_ne]
    exact forall₂_congr fun k _ => forall_begins
  · rw [classify_eq_other_iff_noIndex]
    refine forall_congr' fun text => ?_
    rw [or_imp, or_imp]
    exact forall_begins
  · intro name' hne heq
    by_contra hother
    exact hne (eq_of_classify_eq hother heq)

/-- The last index and the first number beyond, a zero in front, and two names of the engine. -/
theorem classify_inverts_printing_limits :
    classify "n_i18446744073709551615" = .count 18446744073709551615
      ∧ classify "o18446744073709551616" = .other ∧ NoIndex "18446744073709551616"
      ∧ classify "i01" = .other ∧ NoIndex "01"
      ∧ "sp" ≠ "base" ∧ classify "sp" = classify "base" ∧ classify "base" = .other := by
  have hlarge : classify "o18446744073709551616" = .other := by decide
  have hpadded : classify "i01" = .other := by decide
  have hsame : classify "sp" = classify "base" := by decide
  refine ⟨?_, hlarge, ?_, hpadded, ?_, by decide, hsame, ?_⟩
  · exact ((classify_inverts_printing _).1 _).2.1.mpr ⟨by decide, by decide⟩
  · exact (classify_inverts_printing _).2.2.1.mp hlarge _ (.inr (.inr rfl))
  · exact (classify_inverts_printing _).2.2.1.mp hpadded _ (.inl rfl)
  · exact (classify_inverts_printing _).2.2.2 "sp" (by decide) hsame

end Binding
end StackForge
