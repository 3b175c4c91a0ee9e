import Mathlib.Data.List.DropRight
import StackForge.Text.Blank

/-!
The margin of a block of lines. It is the smallest indentation, as a number of bytes, while the blanks
that the lines have in common are a text. The margin has the size of that text exactly if some line
starts with no other blanks (`Aligned`).
-/
namespace StackForge.Text

@[simp] theorem byteSize_nil : byteSize [] = 0 := rfl

theorem foldl_utf8Size (n : Nat) (cs : List Char) :
    cs.foldl (fun n c => n + c.utf8Size) n = n + byteSize cs := by
  induction cs generalizing n with
  | nil => rfl
  | cons c cs ih => rw [byteSize, List.foldl_cons, List.foldl_cons, ih, ih, Nat.zero_add, Nat.add_assoc]

theorem byteSize_cons (c : Char) (cs : List Char) :
    byteSize (c :: cs) = c.utf8Size + byteSize cs := by
  rw [byteSize, List.foldl_cons, foldl_utf8Size, Nat.zero_add]

theorem byteSize_append (xs ys : List Char) :
    byteSize (xs ++ ys) = byteSize xs + byteSize ys := by
  rw [byteSize, List.foldl_append, foldl_utf8Size, ← byteSize]

theorem byteSize_eq_zero_iff {cs : List Char} : byteSize cs = 0 ↔ cs = [] := by
  cases cs with
  | nil => simp
  | cons c cs =>
    have hc := c.utf8Size_pos
    simp only [byteSize_cons, reduceCtorEq, iff_false]
    omega

variable {p q cs ds line : List Char} {bytes : Nat} {block : List (List Char)}

theorem byteSize_le_of_prefix (h : p <+: q) : byteSize p ≤ byteSize q := by
  obtain ⟨more, rfl⟩ := h
  rw [byteSize_append]
  exact Nat.le_add_right _ _

theorem eq_of_prefix_of_byteSize_le (h : p <+: q) (hsize : byteSize q ≤ byteSize p) : p = q := by
  obtain ⟨more, rfl⟩ := h
  rw [byteSize_append] at hsize
  have hmore : byteSize more = 0 := by omega
  rw [byteSize_eq_zero_iff.mp hmore, List.append_nil]

/-- Of two beginnings of a text, the one with fewer bytes is a beginning of the other. -/
theorem prefix_of_byteSize_le (hp : p <+: cs) (hq : q <+: cs) (h : byteSize p ≤ byteSize q) :
    p <+: q := by
  rcases List.prefix_or_prefix_of_prefix hp hq with hpq | hqp
  · exact hpq
  · obtain rfl := eq_of_prefix_of_byteSize_le hqp h
    exact hqp

theorem dropBytes?_eq_some_iff {rest : List Char} :
    dropBytes? bytes cs = some rest ↔ ∃ front, cs = front ++ rest ∧ byteSize front = bytes := by
  fun_induction dropBytes? bytes cs with
  | case1 cs =>
    constructor
    · rintro ⟨⟩
      exact ⟨[], rfl, rfl⟩
    · rintro ⟨front, rfl, hsize⟩
      rw [byteSize_eq_zero_iff.mp hsize, List.nil_append]
  | case2 n =>
    refine ⟨nofun, ?_⟩
    rintro ⟨front, hcs, hsize⟩
    rw [(List.append_eq_nil_iff.mp hcs.symm).1] at hsize
    cases hsize
  | case3 n c cs hle ih =>
    rw [ih]
    constructor
    · rintro ⟨front, rfl, hsize⟩
      exact ⟨c :: front, rfl, by rw [byteSize_cons, hsize, Nat.add_sub_cancel' hle]⟩
    · rintro ⟨_ | ⟨d, front⟩, hcs, hsize⟩
      · cases hsize
      · obtain ⟨rfl, rfl⟩ := List.cons_eq_cons.mp hcs
        rw [byteSize_cons] at hsize
        exact ⟨front, rfl, (Nat.sub_eq_of_eq_add' hsize.symm).symm⟩
  | case4 n c cs hlt =>
    refine ⟨nofun, ?_⟩
    rintro ⟨_ | ⟨d, front⟩, hcs, hsize⟩
    · cases hsize
    · obtain ⟨rfl, rfl⟩ := List.cons_eq_cons.mp hcs
      rw [byteSize_cons] at hsize
      omega

theorem allBlank_append (xs ys : List Char) :
    allBlank (xs ++ ys) = (allBlank xs && allBlank ys) := List.all_append

theorem allBlank_lead (line : List Char) : allBlank (line.takeWhile isBlank) = true :=
  List.all_takeWhile

theorem allBlank_of_prefix (h : p <+: line.takeWhile isBlank) : allBlank p = true := by
  obtain ⟨more, hmore⟩ := h
  have hlead := allBlank_lead line
  rw [← hmore, allBlank_append, Bool.and_eq_true] at hlead
  exact hlead.1

theorem allBlank_eq_false_iff : allBlank cs = false ↔ ∃ c ∈ cs, isBlank c = false := by
  rw [allBlank, List.all_eq_false]
  simp only [Bool.not_eq_true]

/-- Blanks are removed from the end only as far as something is written. -/
theorem trimEnd_append (xs : List Char) (h : allBlank cs = false) :
    trimEnd (xs ++ cs) = xs ++ trimEnd cs := by
  have hne : (cs.reverse.dropWhile isBlank).isEmpty = false := by
    obtain ⟨c, hc, hblank⟩ := allBlank_eq_false_iff.mp h
    rw [List.isEmpty_eq_false_iff, ne_eq, List.dropWhile_eq_nil_iff]
    intro hall
    exact Bool.false_ne_true (hblank.symm.trans (hall c (List.mem_reverse.mpr hc)))
  rw [trimEnd, trimEnd, List.reverse_append, List.dropWhile_append, hne, if_neg Bool.false_ne_true,
    List.reverse_append, List.reverse_reverse]

theorem trimEnd_prefix_self (cs : List Char) : trimEnd cs <+: cs := List.rdropWhile_prefix isBlank cs

theorem trimEnd_eq_nil_iff : trimEnd cs = [] ↔ allBlank cs = true := by
  rw [allBlank, List.all_eq_true]
  exact List.rdropWhile_eq_nil_iff

theorem getLast?_ne_return (h : trimEnd cs = cs) : cs.getLast? ≠ some '\r' := by
  intro hlast
  obtain ⟨hne, hr⟩ := List.mem_getLast?_eq_getLast hlast
  have hblank := List.rdropWhile_eq_self_iff.mp h hne
  rw [← hr] at hblank
  exact hblank (by decide)

theorem trimEnd_trimEnd (cs : List Char) : trimEnd (trimEnd cs) = trimEnd cs :=
  List.rdropWhile_idempotent isBlank cs

theorem allBlank_trimEnd (cs : List Char) : allBlank (trimEnd cs) = allBlank cs := by
  rw [Bool.eq_iff_iff, ← trimEnd_eq_nil_iff, trimEnd_trimEnd, trimEnd_eq_nil_iff]

/-- What two texts start with alike. -/
def commonStart : List Char → List Char → List Char
  | c :: cs, d :: ds => if c = d then c :: commonStart cs ds else []
  | _, _ => []

theorem prefix_commonStart_iff : p <+: commonStart cs ds ↔ p <+: cs ∧ p <+: ds := by
  fun_induction commonStart cs ds generalizing p with
  | case1 cs c ds ih =>
    cases p with
    | nil => simp
    | cons x p =>
      simp only [List.cons_prefix_cons, ih]
      tauto
  | case2 c cs d ds hne =>
    cases p with
    | nil => simp
    | cons x p =>
      simp only [List.cons_prefix_cons, List.prefix_nil, reduceCtorEq, false_iff]
      rintro ⟨⟨rfl, -⟩, rfl, -⟩
      exact hne rfl
  | case3 cs ds hnil =>
    rw [List.prefix_nil]
    constructor
    · rintro rfl
      exact ⟨List.nil_prefix, List.nil_prefix⟩
    · rintro ⟨hcs, hds⟩
      cases p with
      | nil => rfl
      | cons x p =>
        obtain ⟨_, rfl⟩ := hcs
        obtain ⟨_, rfl⟩ := hds
        exact (hnil _ _ _ _ rfl rfl).elim

theorem prefix_foldl_commonStart_iff {ls : List (List Char)} :
    p <+: ls.foldl commonStart cs ↔ p <+: cs ∧ ∀ l ∈ ls, p <+: l := by
  induction ls generalizing cs with
  | nil => simp
  | cons l ls ih => rw [List.foldl_cons, ih, prefix_commonStart_iff, List.forall_mem_cons, and_assoc]

/-- The blanks before each line that is not blank. -/
def leads (block : List (List Char)) : List (List Char) :=
  (block.filter (!allBlank ·)).map (·.takeWhile isBlank)

theorem mem_leads_iff :
    p ∈ leads block ↔ ∃ line ∈ block, allBlank line = false ∧ line.takeWhile isBlank = p := by
  simp only [leads, List.mem_map, List.mem_filter, Bool.not_eq_true', and_assoc]

theorem lead_mem_leads (hline : line ∈ block) (hblank : allBlank line = false) :
    line.takeWhile isBlank ∈ leads block := mem_leads_iff.mpr ⟨line, hline, hblank, rfl⟩

theorem leads_ne_nil_iff : leads block ≠ [] ↔ ∃ line ∈ block, allBlank line = false := by
  constructor
  · intro h
    obtain ⟨lead, hlead⟩ := List.exists_mem_of_ne_nil _ h
    obtain ⟨line, hline, hblank, -⟩ := mem_leads_iff.mp hlead
    exact ⟨line, hline, hblank⟩
  · rintro ⟨line, hline, hblank⟩
    exact List.ne_nil_of_mem (lead_mem_leads hline hblank)

/-- The blanks that all lines of a block start with. Blank lines do not count. -/
def commonBlanks (block : List (List Char)) : List Char :=
  match leads block with
  | [] => []
  | lead :: rest => rest.foldl commonStart lead

theorem prefix_commonBlanks_iff (h : leads block ≠ []) :
    p <+: commonBlanks block ↔ ∀ lead ∈ leads block, p <+: lead := by
  unfold commonBlanks
  cases hleads : leads block with
  | nil => exact absurd hleads h
  | cons lead rest => rw [prefix_foldl_commonStart_iff, List.forall_mem_cons]

theorem commonBlanks_prefix_of_mem (h : p ∈ leads block) : commonBlanks block <+: p :=
  (prefix_commonBlanks_iff (List.ne_nil_of_mem h)).mp List.prefix_rfl p h

theorem margin_eq (block : List (List Char)) :
    margin block = (((leads block).map byteSize).min?).getD 0 := by
  rw [margin, leads, List.map_map]
  rfl

theorem margin_le (h : p ∈ leads block) : margin block ≤ byteSize p := by
  rw [margin_eq]
  cases hmin : ((leads block).map byteSize).min? with
  | none => exact Nat.zero_le _
  | some m => exact (List.min?_eq_some_iff.mp hmin).2 _ (List.mem_map_of_mem h)

theorem exists_byteSize_eq_margin (h : leads block ≠ []) :
    ∃ lead ∈ leads block, byteSize lead = margin block := by
  rw [margin_eq]
  cases hmin : ((leads block).map byteSize).min? with
  | none => exact absurd (List.map_eq_nil_iff.mp (List.min?_eq_none_iff.mp hmin)) h
  | some m => exact List.mem_map.mp (List.min?_eq_some_iff.mp hmin).1

theorem byteSize_commonBlanks_le (block : List (List Char)) :
    byteSize (commonBlanks block) ≤ margin block := by
  by_cases h : leads block = []
  · rw [commonBlanks, h]
    exact Nat.zero_le _
  · obtain ⟨lead, hlead, hsize⟩ := exists_byteSize_eq_margin h
    rw [← hsize]
    exact byteSize_le_of_prefix (commonBlanks_prefix_of_mem hlead)

/-- Some line starts with no other blanks than the common ones, if a line is written at all. -/
def Aligned (block : List (List Char)) : Prop :=
  leads block ≠ [] → commonBlanks block ∈ leads block

instance (block : List (List Char)) : Decidable (Aligned block) :=
  inferInstanceAs (Decidable (leads block ≠ [] → commonBlanks block ∈ leads block))

/-- The margin has the size of the common blanks exactly if these are all that some line starts with. -/
theorem aligned_iff :
    Aligned block ↔ leads block ≠ [] → byteSize (commonBlanks block) = margin block := by
  refine imp_congr_right fun h => ⟨fun hmem => ?_, fun hsize => ?_⟩
  · exact Nat.le_antisymm (byteSize_commonBlanks_le block) (margin_le hmem)
  · obtain ⟨lead, hlead, hmargin⟩ := exists_byteSize_eq_margin h
    have heq : commonBlanks block = lead :=
      eq_of_prefix_of_byteSize_le (commonBlanks_prefix_of_mem hlead) (by rw [hmargin, hsize])
    rwa [heq]

-- a deeper line keeps a block aligned, a tab beside a space does not
example : Aligned ["  x".toList, "    y".toList] ∧ ¬Aligned ["\tx".toList, " y".toList] := by decide

end StackForge.Text
