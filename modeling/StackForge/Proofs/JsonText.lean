import Mathlib.Data.List.TakeDrop
import StackForge.Json.Reader
import StackForge.Proofs.OperandNames

/-!
Reading back what was written. A value without fractions and exponents, whose numbers a word can
hold, is read from its compact text and from its pretty text as the same value. What is shown of
each part is that it is found wherever its text stands: after any blanks, and before any rest that
no number goes on into.
-/
namespace StackForge.Json

/-- The reader finds this value at the start of the text and leaves this rest. -/
def Finds {α : Type} (read : (cs : List Char) → Option (Reading α cs.length)) (cs : List Char)
    (a : α) (rest : List Char) : Prop :=
  ∃ h, read cs = some ⟨a, rest, h⟩

theorem Finds.map {α β : Type} {read : (cs : List Char) → Option (Reading α cs.length)}
    {cs rest : List Char} {a : α} (h : Finds read cs a rest) (f : α → β) {m : Nat}
    (hle : cs.length ≤ m) : ∃ h', (read cs).map (·.map f hle) = some ⟨f a, rest, h'⟩ := by
  obtain ⟨hfits, hread⟩ := h
  exact ⟨Nat.lt_of_lt_of_le hfits hle, by rw [hread]; rfl⟩

theorem ofPair?_of_lt {α : Type} {bound : Nat} {r : α × List Char} (h : r.2.length < bound) :
    Reading.ofPair? bound r = some ⟨r.1, r.2, h⟩ := dif_pos h

/-! ### Strings -/

theorem readString_plain {c : Char} {text s rest : List Char} (hquote : c ≠ quoteMark)
    (hslash : c ≠ '\\') (hlow : ¬c.toNat < 0x20) (h : Finds readString text s rest) :
    Finds readString (c :: text) (c :: s) rest := by
  simp only [Finds, readString, hquote, hslash, hlow, false_imp_iff, implies_true, if_false,
    decide_false, Bool.or_false, Bool.false_eq_true]
  exact h.map _ _

theorem readString_simple {mark c : Char} {text s rest : List Char} (hmark : mark ≠ 'u')
    (hc : simpleEscape? mark = some c) (h : Finds readString text s rest) :
    Finds readString ('\\' :: mark :: text) (c :: s) rest := by
  simp only [Finds, readString, hmark, false_imp_iff, implies_true, hc]
  exact h.map _ _

theorem codeUnit?_control {n : Nat} (h : n < 0x20) :
    codeUnit? '0' '0' (Nat.digitChar (n / 16)) (Nat.digitChar (n % 16)) = some n := by
  revert n
  decide

theorem readString_control {c : Char} {text s rest : List Char} (hc : c.toNat < 0x20)
    (h : Finds readString text s rest) :
    Finds readString ('\\' :: 'u' :: '0' :: '0' :: Nat.digitChar (c.toNat / 16)
      :: Nat.digitChar (c.toNat % 16) :: text) (c :: s) rest := by
  have hhigh : isHighHalf c.toNat = false := by simp [isHighHalf]; omega
  have hlow : isLowHalf c.toNat = false := by simp [isLowHalf]; omega
  simp only [Finds, readString, codeUnit?_control hc, hhigh, hlow, Bool.false_eq_true, if_false,
    Char.ofNat_toNat]
  exact h.map _ _

/-- A character is read back from its written form. -/
theorem readString_escape (c : Char) {text s rest : List Char} (h : Finds readString text s rest) :
    Finds readString (escape c ++ text) (c :: s) rest := by
  have eq {n : Nat} (hn : c.toNat = n) : c = Char.ofNat n := by rw [← hn, Char.ofNat_toNat]
  fun_cases escape c
  -- a character with a mark of its own
  case case1 hc | case2 hc | case3 hc | case4 hc | case5 hc | case6 hc | case7 hc =>
    obtain rfl := eq hc
    exact readString_simple (by decide) rfl h
  case case8 hlow => exact readString_control hlow h
  case case9 hquote hslash _ _ _ _ _ hlow =>
    exact readString_plain (fun hc => hquote (by rw [hc]; rfl)) (fun hc => hslash (by rw [hc]; rfl))
      hlow h

theorem readString_quoted (s rest : List Char) :
    Finds readString (s.flatMap escape ++ quoteMark :: rest) s rest := by
  induction s with
  | nil => exact ⟨by simp, rfl⟩
  | cons c s ih =>
    rw [List.flatMap_cons, List.append_assoc]
    exact readString_escape c ih

theorem readText_quoted (s : String) (rest : List Char) :
    Finds (readText false) (s.toList.flatMap escape ++ quoteMark :: rest) s rest := by
  have h := (readString_quoted s.toList rest).map String.ofList (Nat.le_refl _)
  rw [String.ofList_toList] at h
  exact h

/-! ### Numbers -/

/-- No number goes on into this text. -/
def Closes (rest : List Char) : Prop :=
  ∀ c ∈ rest.head?, c.isDigit = false ∧ c ≠ '.' ∧ c ≠ 'e' ∧ c ≠ 'E'

theorem closes_cons {c : Char} {rest : List Char} :
    Closes (c :: rest) ↔ c.isDigit = false ∧ c ≠ '.' ∧ c ≠ 'e' ∧ c ≠ 'E' := by
  simp [Closes]

theorem span_digits {ds rest : List Char} (hds : ∀ c ∈ ds, c.isDigit = true)
    (hrest : Closes rest) : (ds ++ rest).span Char.isDigit = (ds, rest) := by
  rw [List.span_eq_takeWhile_dropWhile, List.takeWhile_append_of_pos hds,
    List.dropWhile_append_of_pos hds]
  cases rest with
  | nil => simp
  | cons c rest => simp [(closes_cons.1 hrest).1]

theorem readFraction_of_closes {rest : List Char} (h : Closes rest) :
    readFraction rest = some ([], rest) := by
  unfold readFraction
  split
  · exact absurd rfl (closes_cons.1 h).2.1
  · rfl

theorem readExponent_of_closes {rest : List Char} (h : Closes rest) :
    readExponent rest = some (none, rest) := by
  cases rest with
  | nil => rfl
  | cons c rest => simp [readExponent, closes_cons.1 h]

theorem digitsValue_toDigits (n : Nat) : digitsValue (Nat.toDigits 10 n) = n := by
  have h := Nat.ofDigitChars_ten_toDigits (n := n)
  rw [Nat.ofDigitChars_eq_foldl] at h
  exact h

/-- The digits of a number are read back, if a word can hold it with its sign. -/
theorem readMagnitude_toDigits {negative : Bool} {n : Nat} {k : Int} {rest : List Char}
    (hk : wholeValue? negative n = some k) (hrest : Closes rest) :
    readMagnitude negative (Nat.toDigits 10 n ++ rest) = some (.int k, rest) := by
  have hspan : (Nat.toDigits 10 n ++ rest).span Char.isDigit = (Nat.toDigits 10 n, rest) :=
    span_digits (fun _ => Nat.isDigit_of_mem_toDigits (by decide) (by decide)) hrest
  have hzero : ¬(1 < (Nat.toDigits 10 n).length ∧ (Nat.toDigits 10 n).head? = some '0') := by
    rintro ⟨hlong, hhead⟩
    rcases Nat.eq_zero_or_pos n with rfl | hn
    · exact absurd hlong (by decide)
    · exact Binding.head?_toDigits hn hhead
  unfold readMagnitude
  split
  next h => exact absurd (congrArg Prod.fst (hspan.symm.trans h)) Nat.toDigits_ne_nil
  next h =>
    obtain ⟨rfl, rfl⟩ := Prod.mk.inj (hspan.symm.trans h)
    simp [hzero, readFraction_of_closes hrest, readExponent_of_closes hrest, digitsValue_toDigits,
      hk]

/-- The whole numbers that a word can hold, with or without a sign. -/
def IsWord (n : Int) : Prop := -(wordLimit / 2 : Nat) ≤ n ∧ n < wordLimit

theorem toList_toString_natCast (n : Nat) : (toString (n : Int)).toList = Nat.toDigits 10 n := by
  rw [show toString (n : Int) = toString n from rfl, Nat.toString_eq_ofList_toDigits,
    String.toList_ofList]

theorem toList_toString_negSucc (n : Nat) :
    (toString (Int.negSucc n)).toList = '-' :: Nat.toDigits 10 (n + 1) := by
  rw [show toString (Int.negSucc n) = "-" ++ toString (n + 1) from rfl, String.toList_append,
    Nat.toString_eq_ofList_toDigits, String.toList_ofList (l := Nat.toDigits 10 (n + 1))]
  rfl

/-! ### One step of each reader -/

/-- Values, items and members of a text all of which counts. -/
abbrev FindsValue := Finds (readValue false fun _ => false)

abbrev FindsItems := Finds (readItems false)

abbrev FindsMembers := Finds (readMembers false fun _ => false)

/-- A member: a quoted name, a colon and a value. -/
def FindsMember (cs : List Char) (m : String × Json) (rest : List Char) : Prop :=
  ∃ name colon value, skipBlanks cs = quoteMark :: name ∧ Finds (readText false) name m.1 colon
    ∧ skipBlanks colon = ':' :: value ∧ FindsValue value m.2 rest

/-- The first character that is no blank says what is read. -/
theorem readValue_of_skipBlanks {loose : Bool} {looseAt : String → Bool} {cs text : List Char}
    {c : Char} (h : skipBlanks cs = c :: text) :
    have hle := Nat.le_of_lt (length_lt_of_skipBlanks h)
    readValue loose looseAt cs =
      if c = quoteMark then (readText loose text).map (·.map .string hle)
      else if c = '[' then
        match skipBlanks text with
        | ']' :: after => Reading.ofPair? cs.length (.array [], after)
        | _ => (readItems loose text).map (·.map .array hle)
      else if c = '\x7b' then
        match skipBlanks text with
        | '\x7d' :: after => Reading.ofPair? cs.length (.object [], after)
        | _ => (readMembers loose looseAt text).map (·.map .object hle)
      else (readScalar (c :: text)).bind (Reading.ofPair? cs.length) := by
  intro hle
  rw [readValue]
  split
  next h' => simp [h] at h'
  next h' =>
    obtain ⟨rfl, rfl⟩ := List.cons.inj (h.symm.trans h')
    rfl

theorem readValue_string {cs text rest : List Char} {s : String}
    (hcs : skipBlanks cs = quoteMark :: text) (h : Finds (readText false) text s rest) :
    FindsValue cs (.string s) rest := by
  rw [FindsValue, Finds, readValue_of_skipBlanks hcs, if_pos rfl]
  exact h.map _ _

theorem readValue_scalar {cs text rest : List Char} {c : Char} {v : Json}
    (hcs : skipBlanks cs = c :: text) (hc : c ≠ quoteMark ∧ c ≠ '[' ∧ c ≠ '\x7b')
    (h : readScalar (c :: text) = some (v, rest)) (hrest : rest.length < cs.length) :
    FindsValue cs v rest := by
  rw [FindsValue, Finds, readValue_of_skipBlanks hcs, if_neg hc.1, if_neg hc.2.1, if_neg hc.2.2,
    h, Option.bind_some]
  exact ⟨hrest, ofPair?_of_lt hrest⟩

theorem readValue_emptyArray {cs text rest : List Char} (hcs : skipBlanks cs = '[' :: text)
    (h : skipBlanks text = ']' :: rest) : FindsValue cs (.array []) rest := by
  have hrest : rest.length < cs.length :=
    Nat.lt_trans (length_lt_of_skipBlanks h) (length_lt_of_skipBlanks hcs)
  rw [FindsValue, Finds, readValue_of_skipBlanks hcs, if_neg (by decide), if_pos rfl, h]
  exact ⟨hrest, ofPair?_of_lt hrest⟩

theorem readValue_emptyObject {cs text rest : List Char} (hcs : skipBlanks cs = '\x7b' :: text)
    (h : skipBlanks text = '\x7d' :: rest) : FindsValue cs (.object []) rest := by
  have hrest : rest.length < cs.length :=
    Nat.lt_trans (length_lt_of_skipBlanks h) (length_lt_of_skipBlanks hcs)
  rw [FindsValue, Finds, readValue_of_skipBlanks hcs, if_neg (by decide), if_neg (by decide),
    if_pos rfl, h]
  exact ⟨hrest, ofPair?_of_lt hrest⟩

-- Items and members never start with the mark that would end them, so that an array or object in
-- which something is found is not taken for an empty one.
theorem FindsItems.ne_close {cs rest : List Char} {items : List Json}
    (h : FindsItems cs items rest) (text : List Char) : skipBlanks cs ≠ ']' :: text := by
  intro hcs
  have hnone : readValue false (fun _ => false) cs = none := by
    rw [readValue_of_skipBlanks hcs]
    rfl
  obtain ⟨_, hread⟩ := h
  simp [readItems, hnone] at hread

theorem FindsMembers.ne_close {cs rest : List Char} {members : List (String × Json)}
    (h : FindsMembers cs members rest) (text : List Char) : skipBlanks cs ≠ '\x7d' :: text := by
  intro hcs
  obtain ⟨_, hread⟩ := h
  rw [readMembers] at hread
  split at hread
  next => cases hread
  next h' =>
    obtain ⟨rfl, rfl⟩ := List.cons.inj (hcs.symm.trans h')
    rw [if_neg (by decide)] at hread
    cases hread

theorem readValue_array {cs text rest : List Char} {items : List Json}
    (hcs : skipBlanks cs = '[' :: text) (h : FindsItems text items rest) :
    FindsValue cs (.array items) rest := by
  rw [FindsValue, Finds, readValue_of_skipBlanks hcs, if_neg (by decide), if_pos rfl]
  split
  next hclose => exact absurd hclose (h.ne_close _)
  next => exact h.map _ _

theorem readValue_object {cs text rest : List Char} {members : List (String × Json)}
    (hcs : skipBlanks cs = '\x7b' :: text) (h : FindsMembers text members rest) :
    FindsValue cs (.object members) rest := by
  rw [FindsValue, Finds, readValue_of_skipBlanks hcs, if_neg (by decide), if_neg (by decide),
    if_pos rfl]
  split
  next hclose => exact absurd hclose (h.ne_close _)
  next => exact h.map _ _

theorem readItems_last {cs text rest : List Char} {v : Json} (hv : FindsValue cs v text)
    (h : skipBlanks text = ']' :: rest) : FindsItems cs [v] rest := by
  obtain ⟨hfits, hread⟩ := hv
  have hrest : rest.length < cs.length := Nat.lt_trans (length_lt_of_skipBlanks h) hfits
  rw [FindsItems, Finds, readItems, hread]
  dsimp only
  split
  next h' => simp [h] at h'
  next h' =>
    obtain rfl := (List.cons.inj (h.symm.trans h')).2
    exact ⟨hrest, ofPair?_of_lt hrest⟩
  next hne => exact absurd h (hne _)

theorem readItems_more {cs text more rest : List Char} {v : Json} {items : List Json}
    (hv : FindsValue cs v text) (h : skipBlanks text = ',' :: more)
    (hmore : FindsItems more items rest) : FindsItems cs (v :: items) rest := by
  obtain ⟨hfits, hread⟩ := hv
  rw [FindsItems, Finds, readItems, hread]
  dsimp only
  split
  next h' =>
    obtain rfl := (List.cons.inj (h.symm.trans h')).2
    exact hmore.map _ _
  next h' => simp [h] at h'
  next hne _ => exact absurd h (hne _)

/-- After a member, the next mark says whether there are more. -/
theorem readMembers_of_member {cs text : List Char} {m : String × Json}
    (hm : FindsMember cs m text) : ∃ hfits : text.length < cs.length,
    readMembers false (fun _ => false) cs =
      match h : skipBlanks text with
      | ',' :: more =>
        have hle := Nat.le_of_lt (Nat.lt_trans (length_lt_of_skipBlanks h) hfits)
        (readMembers false (fun _ => false) more).map (·.map (m :: ·) hle)
      | '\x7d' :: rest => Reading.ofPair? cs.length ([m], rest)
      | _ => none := by
  obtain ⟨name, colon, value, hquote, ⟨hkey, hname⟩, hcolon, hvalue, hread⟩ := hm
  have hlt₁ := length_lt_of_skipBlanks hquote
  have hlt₂ := length_lt_of_skipBlanks hcolon
  refine ⟨by omega, ?_⟩
  rw [readMembers]
  split
  next h₁ => simp [hquote] at h₁
  next h₁ =>
    obtain ⟨rfl, rfl⟩ := List.cons.inj (hquote.symm.trans h₁)
    rw [if_pos rfl, hname]
    dsimp only
    split
    next h₂ =>
      obtain rfl := (List.cons.inj (hcolon.symm.trans h₂)).2
      rewrite [hread]
      rfl
    next hne => exact absurd hcolon (hne _)

theorem readMembers_last {cs text rest : List Char} {m : String × Json}
    (hm : FindsMember cs m text) (h : skipBlanks text = '\x7d' :: rest) :
    FindsMembers cs [m] rest := by
  obtain ⟨hfits, hread⟩ := readMembers_of_member hm
  have hrest : rest.length < cs.length := Nat.lt_trans (length_lt_of_skipBlanks h) hfits
  rw [FindsMembers, Finds, hread]
  split
  next h' => simp [h] at h'
  next h' =>
    obtain rfl := (List.cons.inj (h.symm.trans h')).2
    exact ⟨hrest, ofPair?_of_lt hrest⟩
  next hne => exact absurd h (hne _)

theorem readMembers_more {cs text more rest : List Char} {m : String × Json}
    {members : List (String × Json)} (hm : FindsMember cs m text)
    (h : skipBlanks text = ',' :: more) (hmore : FindsMembers more members rest) :
    FindsMembers cs (m :: members) rest := by
  obtain ⟨hfits, hread⟩ := readMembers_of_member hm
  rw [FindsMembers, Finds, hread]
  split
  next h' =>
    obtain rfl := (List.cons.inj (h.symm.trans h')).2
    exact hmore.map _ _
  next h' => simp [h] at h'
  next hne _ => exact absurd h (hne _)

/-! ### Texts that spell a value -/

/-- Nothing but blanks. -/
def Blank (cs : List Char) : Prop := ∀ c ∈ cs, isBlank c = true

theorem blank_nil : Blank [] := by simp [Blank]

theorem blank_newline (depth : Nat) : Blank (newline depth) := by
  intro c hc
  rcases List.mem_cons.1 hc with rfl | hc
  · rfl
  · rw [List.eq_of_mem_replicate hc]
    rfl

theorem Closes.of_blank {back rest : List Char} {c : Char} (h : Blank back)
    (hc : Closes (c :: rest)) : Closes (back ++ c :: rest) := by
  cases back with
  | nil => exact hc
  | cons b back =>
    have hb : isBlank b = true := h b List.mem_cons_self
    simp only [isBlank, Bool.or_eq_true, decide_eq_true_eq] at hb
    rcases hb with ((rfl | rfl) | rfl) | rfl <;> exact closes_cons.2 (by decide)

theorem skipBlanks_append {front text : List Char} {c : Char} (h : Blank front)
    (hc : isBlank c = false) : skipBlanks (front ++ c :: text) = c :: text := by
  rw [skipBlanks, List.dropWhile_append_of_pos h]
  exact List.dropWhile_cons_of_neg (by simp [hc])

/-- Wherever this text stands, after blanks and before a rest that closes it, this is found. -/
def Spells {α : Type} (find : List Char → α → List Char → Prop) (a : α) (text : List Char) :
    Prop :=
  ∀ front rest, Blank front → Closes rest → find (front ++ (text ++ rest)) a rest

/-- How elements are found between two marks. Arrays and objects differ in nothing else. -/
structure Bracketed {α : Type} (one : List Char → α → List Char → Prop)
    (all : List Char → List α → List Char → Prop) (first last : Char) (wrap : List α → Json) :
    Prop where
  empty {cs text rest : List Char} : skipBlanks cs = first :: text →
    skipBlanks text = last :: rest → FindsValue cs (wrap []) rest
  whole {cs text rest : List Char} {elements : List α} : skipBlanks cs = first :: text →
    all text elements rest → FindsValue cs (wrap elements) rest
  final {cs text rest : List Char} {a : α} : one cs a text → skipBlanks text = last :: rest →
    all cs [a] rest
  more {cs text next rest : List Char} {a : α} {elements : List α} : one cs a text →
    skipBlanks text = ',' :: next → all next elements rest → all cs (a :: elements) rest
  solid : isBlank first = false ∧ isBlank last = false
  closes (rest : List Char) : Closes (last :: rest)

theorem bracketed_array : Bracketed FindsValue FindsItems '[' ']' .array where
  empty := readValue_emptyArray
  whole := readValue_array
  final := readItems_last
  more := readItems_more
  solid := by decide
  closes _ := closes_cons.2 (by decide)

theorem bracketed_object : Bracketed FindsMember FindsMembers '\x7b' '\x7d' .object where
  empty := readValue_emptyObject
  whole := readValue_object
  final := readMembers_last
  more := readMembers_more
  solid := by decide
  closes _ := closes_cons.2 (by decide)

namespace Bracketed

variable {α : Type} {one : List Char → α → List Char → Prop}
  {all : List Char → List α → List Char → Prop} {first last : Char} {wrap : List α → Json}
  {elements : List α} {pieces : List (List Char)}

-- By induction on the pieces: what stands before a piece is the opening at first, and the gap
-- after a comma from then on.
theorem finds_commas (hb : Bracketed one all first last wrap) {gap back : List Char}
    (hgap : Blank gap) (hback : Blank back) (h : List.Forall₂ (Spells one) elements pieces)
    (hne : elements ≠ []) {front : List Char} (hfront : Blank front) (rest : List Char) :
    all (front ++ (commas gap pieces ++ (back ++ last :: rest))) elements rest := by
  induction h generalizing front with
  | nil => exact absurd rfl hne
  | cons ha htail ih =>
    cases htail with
    | nil =>
      exact hb.final (ha front _ hfront (Closes.of_blank hback (hb.closes rest)))
        (skipBlanks_append hback hb.solid.2)
    | cons hnext htail =>
      rw [commas, List.append_assoc, List.append_assoc]
      · exact hb.more (ha front _ hfront (closes_cons.2 (by decide))) rfl (ih (by simp) hgap)
      · simp

theorem spells_empty (hb : Bracketed one all first last wrap) :
    Spells FindsValue (wrap []) [first, last] := by
  intro front rest hfront _
  exact hb.empty (skipBlanks_append hfront hb.solid.1) (skipBlanks_append blank_nil hb.solid.2)

theorem spells_commas (hb : Bracketed one all first last wrap) {front gap back : List Char}
    (hfront : Blank front) (hgap : Blank gap) (hback : Blank back)
    (h : List.Forall₂ (Spells one) elements pieces) (hne : elements ≠ []) :
    Spells FindsValue (wrap elements)
      (first :: front ++ commas gap pieces ++ back ++ [last]) := by
  intro before rest hbefore _
  have hall := hb.finds_commas hgap hback h hne hfront rest
  have htext : first :: front ++ commas gap pieces ++ back ++ [last] ++ rest
      = first :: (front ++ (commas gap pieces ++ (back ++ last :: rest))) := by simp
  rw [htext]
  exact hb.whole (skipBlanks_append hbefore hb.solid.1) hall

theorem spells_line (hb : Bracketed one all first last wrap)
    (h : List.Forall₂ (Spells one) elements pieces) :
    Spells FindsValue (wrap elements) (first :: commas [] pieces ++ [last]) := by
  cases h with
  | nil => exact hb.spells_empty
  | cons ha htail =>
    have hline := hb.spells_commas blank_nil blank_nil blank_nil (.cons ha htail) (by simp)
    simpa using hline

theorem spells_block (hb : Bracketed one all first last wrap) (depth : Nat)
    (h : List.Forall₂ (Spells one) elements pieces) :
    Spells FindsValue (wrap elements) (block depth first last pieces) := by
  cases h with
  | nil => exact hb.spells_empty
  | cons ha htail =>
    exact hb.spells_commas (blank_newline _) (blank_newline _) (blank_newline _) (.cons ha htail)
      (by simp)

end Bracketed

theorem spells_string (s : String) : Spells FindsValue (.string s) (quote s) := by
  intro front rest hfront _
  have htext : quote s ++ rest = quoteMark :: (s.toList.flatMap escape ++ quoteMark :: rest) := by
    simp [quote]
  rw [htext]
  exact readValue_string (skipBlanks_append hfront rfl) (readText_quoted s rest)

theorem spells_member {k : String} {v : Json} {gap text : List Char} (hgap : Blank gap)
    (h : Spells FindsValue v text) :
    Spells FindsMember (k, v) (quote k ++ ':' :: (gap ++ text)) := by
  intro front rest hfront hrest
  have htext : quote k ++ ':' :: (gap ++ text) ++ rest = quoteMark ::
      (k.toList.flatMap escape ++ quoteMark :: ':' :: (gap ++ (text ++ rest))) := by
    simp [quote]
  rw [htext]
  exact ⟨_, _, _, skipBlanks_append hfront rfl, readText_quoted k _, rfl, h gap rest hgap hrest⟩

theorem spells_of_readScalar {v : Json} {c : Char} {text : List Char}
    (hc : c ≠ quoteMark ∧ c ≠ '[' ∧ c ≠ '\x7b') (hblank : isBlank c = false)
    (h : ∀ rest, Closes rest → readScalar (c :: text ++ rest) = some (v, rest)) :
    Spells FindsValue v (c :: text) := by
  intro front rest hfront hrest
  refine readValue_scalar (skipBlanks_append hfront hblank) hc (h rest hrest) ?_
  simp only [List.cons_append, List.length_append, List.length_cons]
  omega

theorem spells_int {n : Int} (hn : IsWord n) :
    Spells FindsValue (.int n) (toString n).toList := by
  obtain ⟨hlow, hhigh⟩ := hn
  cases n with
  | ofNat n =>
    have hvalue : wholeValue? false n = some (Int.ofNat n) := by
      simp only [Int.ofNat_eq_natCast] at hhigh
      simp [wholeValue?]
      omega
    rw [Int.ofNat_eq_natCast, toList_toString_natCast]
    obtain ⟨c, ds, hds⟩ := List.exists_cons_of_ne_nil (Nat.toDigits_ne_nil (n := n) (b := 10))
    have hc : c.isDigit = true :=
      Nat.isDigit_of_mem_toDigits (by decide) (by decide) (hds ▸ List.mem_cons_self)
    -- a digit is none of the characters that other values start with
    have hne {m : Char} (hm : m.isDigit = false) : c ≠ m := by
      rintro rfl
      simp [hm] at hc
    rw [hds]
    refine spells_of_readScalar ⟨hne rfl, hne rfl, hne rfl⟩ (by simp [isBlank, hne]) ?_
    intro rest hrest
    rw [readScalar, readNumber, ← hds]
    · exact readMagnitude_toDigits hvalue hrest
    all_goals exact fun _ heq => hne rfl (List.cons.inj heq).1
  | negSucc n =>
    have hvalue : wholeValue? true (n + 1) = some (Int.negSucc n) := by
      simp [wholeValue?]
      omega
    rw [toList_toString_negSucc]
    exact spells_of_readScalar (by decide) rfl fun _ => readMagnitude_toDigits hvalue

mutual

/-- All numbers are whole, and a word can hold each of them. -/
def Exact : Json → Prop
  | .int n => IsWord n
  | .decimal _ => False
  | .array items => ExactItems items
  | .object members => ExactMembers members
  | _ => True

def ExactItems : List Json → Prop
  | [] => True
  | v :: rest => v.Exact ∧ ExactItems rest

def ExactMembers : List (String × Json) → Prop
  | [] => True
  | (_, v) :: rest => v.Exact ∧ ExactMembers rest

end

theorem spells_scalar : (v : Json) → v.Exact → v.depth = 0 → Spells FindsValue v (scalar v)
  | .null, _, _ => spells_of_readScalar (by decide) rfl fun _ _ => rfl
  | .bool true, _, _ => spells_of_readScalar (by decide) rfl fun _ _ => rfl
  | .bool false, _, _ => spells_of_readScalar (by decide) rfl fun _ _ => rfl
  | .int _, h, _ => spells_int h
  | .string s, _, _ => spells_string s

mutual

theorem spells_compact : (v : Json) → v.Exact → Spells FindsValue v v.compact
  | .null, h | .bool _, h | .int _, h | .string _, h => by
    simpa only [compact] using spells_scalar _ h rfl
  | .array items, h => by
    rw [compact]
    exact bracketed_array.spells_line (spells_compactItems items h)
  | .object members, h => by
    rw [compact]
    exact bracketed_object.spells_line (spells_compactMembers members h)

theorem spells_compactItems : (items : List Json) → ExactItems items →
    List.Forall₂ (Spells FindsValue) items (compactItems items)
  | [], _ => .nil
  | v :: rest, h => .cons (spells_compact v h.1) (spells_compactItems rest h.2)

theorem spells_compactMembers : (members : List (String × Json)) → ExactMembers members →
    List.Forall₂ (Spells FindsMember) members (compactMembers members)
  | [], _ => .nil
  | (_, v) :: rest, h => by
    rw [compactMembers]
    exact .cons (spells_member blank_nil (spells_compact v h.1)) (spells_compactMembers rest h.2)

end

mutual

theorem spells_pretty (depth : Nat) : (v : Json) → v.Exact → Spells FindsValue v (v.pretty depth)
  | .null, h | .bool _, h | .int _, h | .string _, h => by
    simpa only [pretty] using spells_scalar _ h rfl
  | .array items, h => by
    rw [pretty]
    exact bracketed_array.spells_block depth (spells_prettyItems (depth + 1) items h)
  | .object members, h => by
    rw [pretty]
    exact bracketed_object.spells_block depth (spells_prettyMembers (depth + 1) members h)

theorem spells_prettyItems (depth : Nat) : (items : List Json) → ExactItems items →
    List.Forall₂ (Spells FindsValue) items (prettyItems depth items)
  | [], _ => .nil
  | v :: rest, h => .cons (spells_pretty depth v h.1) (spells_prettyItems depth rest h.2)

theorem spells_prettyMembers (depth : Nat) :
    (members : List (String × Json)) → ExactMembers members →
    List.Forall₂ (Spells FindsMember) members (prettyMembers depth members)
  | [], _ => .nil
  | (_, v) :: rest, h => by
    have hgap : Blank [' '] := by simp [Blank, isBlank]
    rw [prettyMembers]
    exact .cons (spells_member hgap (spells_pretty depth v h.1))
      (spells_prettyMembers depth rest h.2)

end

theorem read?_of_spells {v : Json} {text : List Char} (h : Spells FindsValue v text) :
    read? (String.ofList text) = some v := by
  have hfound := h [] [] blank_nil (by simp [Closes])
  rw [List.nil_append, List.append_nil, ← String.toList_ofList (l := text)] at hfound
  obtain ⟨_, hread⟩ := hfound
  rw [read?, readWhole?, hread]
  rfl

theorem read?_compactText {v : Json} (h : v.Exact) : read? v.compactText = some v :=
  read?_of_spells (spells_compact v h)

theorem read?_prettyText {v : Json} (h : v.Exact) : read? v.prettyText = some v :=
  read?_of_spells (spells_pretty 0 v h)

end StackForge.Json
