import Mathlib.Data.List.Forall2
import StackForge.Layout
import StackForge.Proofs.Margin

/-!
Authored code moved to another depth. The margin is cut off every line, whatever blanks the line starts
with. What is cut off are the common blanks exactly if some line starts with no other ones.
Otherwise more is removed, or the cut falls into a character and there is no result. What has been
written once is not changed by writing it again.
-/
namespace StackForge

namespace Text

variable {cs line out blanks : List Char} {bytes : Nat} {block outs : List (List Char)}

/-- A line at a depth. An empty line is not indented. -/
def indented (depth : Nat) (line : List Char) : List Char :=
  if line = [] then [] else List.replicate (4 * depth) ' ' ++ line

/-- A line at a depth without some blanks at its start and without blanks at its end. -/
def relaid (depth : Nat) (blanks line : List Char) : List Char :=
  if allBlank line = true then []
  else List.replicate (4 * depth) ' ' ++ trimEnd (line.drop blanks.length)

/-- A line that is written again: nothing of a blank line, and of any other one what follows a number of
bytes that are blank, without the blanks at its end. -/
inductive Dedented (bytes : Nat) : List Char → List Char → Prop where
  | blank {line : List Char} (hline : allBlank line = true) : Dedented bytes line []
  | cut {blanks rest : List Char} (hblanks : allBlank blanks = true)
      (hsize : byteSize blanks = bytes) (hrest : allBlank rest = false) :
      Dedented bytes (blanks ++ rest) (trimEnd rest)

/-- A line in which no character ends after a number of bytes. -/
def Severed (bytes : Nat) (line : List Char) : Prop :=
  allBlank line = false ∧ ∀ front back, line = front ++ back → byteSize front ≠ bytes

theorem dedentLine?_eq_none_iff : dedentLine? bytes line = none ↔ Severed bytes line := by
  unfold dedentLine? Severed
  split
  · rename_i hline
    simp [hline]
  · rename_i hline
    rw [Option.map_eq_none_iff, Option.eq_none_iff_forall_ne_some]
    simp only [ne_eq, dropBytes?_eq_some_iff, hline, true_and, not_exists, not_and]
    exact forall_comm

theorem dedentLine?_eq_some_iff
    (h : allBlank line = false → bytes ≤ byteSize (line.takeWhile isBlank)) :
    dedentLine? bytes line = some out ↔ Dedented bytes line out := by
  unfold dedentLine?
  split
  · rename_i hline
    constructor
    · rintro ⟨⟩
      exact .blank hline
    · intro hout
      cases hout with
      | blank => rfl
      | cut hblanks hsize hrest =>
        rw [allBlank_append, hrest, Bool.and_false] at hline
        cases hline
  · rename_i hline
    rw [Bool.not_eq_true] at hline
    simp only [Option.map_eq_some_iff, dropBytes?_eq_some_iff]
    constructor
    · rintro ⟨rest, ⟨front, rfl, rfl⟩, rfl⟩
      -- the margin is no larger than the indentation, so only blanks are cut off
      have hfront := allBlank_of_prefix <| prefix_of_byteSize_le
        (List.prefix_append front rest) (List.takeWhile_prefix isBlank) (h hline)
      rw [allBlank_append, hfront, Bool.true_and] at hline
      exact .cut hfront rfl hline
    · intro hout
      cases hout with
      | blank hblank =>
        rw [hline] at hblank
        cases hblank
      | @cut blanks rest hblanks hsize hrest => exact ⟨rest, ⟨blanks, rfl, hsize⟩, rfl⟩

theorem mapM_eq_some_iff {α β : Type} {f : α → Option β} {R : α → β → Prop} {xs : List α}
    {ys : List β} (h : ∀ x ∈ xs, ∀ y, f x = some y ↔ R x y) :
    xs.mapM f = some ys ↔ List.Forall₂ R xs ys := by
  induction xs generalizing ys with
  | nil =>
    rw [List.mapM_nil, List.forall₂_nil_left_iff]
    exact ⟨fun h => by cases h; rfl, fun h => by rw [h]; rfl⟩
  | cons x xs ih =>
    obtain ⟨hx, hxs⟩ := List.forall_mem_cons.mp h
    simp only [List.mapM_cons, Option.bind_eq_bind, Option.bind_eq_some_iff, Option.pure_def,
      Option.some.injEq, hx, ih hxs]
    constructor
    · rintro ⟨y, hy, ys, hys, rfl⟩
      exact .cons hy hys
    · intro hall
      cases hall with
      | cons hy hys => exact ⟨_, hy, _, hys, rfl⟩

theorem mapM_eq_none_iff {α β : Type} {f : α → Option β} {xs : List α} :
    xs.mapM f = none ↔ ∃ x ∈ xs, f x = none := by
  induction xs with
  | nil => simp
  | cons x xs ih =>
    rw [List.mapM_cons, List.exists_mem_cons_iff, ← ih]
    cases hx : f x <;> cases xs.mapM f <;> simp

/-- A block is what lines are without the blank ones before and behind. -/
structure Trimmed (ls block : List (List Char)) : Prop where
  within : ∃ front back, ls = front ++ block ++ back ∧
    (∀ line ∈ front, allBlank line = true) ∧ ∀ line ∈ back, allBlank line = true
  first : ∀ line ∈ block.head?, allBlank line = false
  last : ∀ line ∈ block.getLast?, allBlank line = false

theorem trimmed_trimLines (ls : List (List Char)) : Trimmed ls (trimLines ls) := by
  have hbody : trimLines ls ++ (ls.dropWhile allBlank).rtakeWhile allBlank
      = ls.dropWhile allBlank := List.rdropWhile_append_rtakeWhile
  refine ⟨⟨ls.takeWhile allBlank, (ls.dropWhile allBlank).rtakeWhile allBlank, ?_, ?_, ?_⟩, ?_, ?_⟩
  · rw [List.append_assoc, hbody, List.takeWhile_append_dropWhile]
  · exact List.all_eq_true.mp List.all_takeWhile
  · exact fun line => List.mem_rtakeWhile_imp
  · intro line hline
    obtain ⟨rest, hrest⟩ := List.head?_eq_some_iff.mp hline
    have hfirst := List.head?_dropWhile_not allBlank ls
    rwa [← hbody, hrest] at hfirst
  · intro line hline
    obtain ⟨hne, rfl⟩ := List.mem_getLast?_eq_getLast hline
    exact Bool.not_eq_true _ ▸ List.rdropWhile_last_not allBlank _ hne

theorem Trimmed.trimLines_eq {ls : List (List Char)} (h : Trimmed ls block) :
    trimLines ls = block := by
  obtain ⟨⟨front, back, rfl, hfront, hback⟩, hfirst, hlast⟩ := h
  have hbehind : (block ++ back).rdropWhile allBlank = block := by
    have hpos : ∀ line ∈ back.reverse, allBlank line = true := fun line hline =>
      hback line (List.mem_reverse.mp hline)
    rw [List.rdropWhile, List.reverse_append, List.dropWhile_append_of_pos hpos]
    refine List.rdropWhile_eq_self_iff.mpr fun hne => ?_
    rw [hlast _ (List.getLast?_eq_some_getLast hne)]
    exact Bool.false_ne_true
  change ((front ++ block ++ back).dropWhile allBlank).rdropWhile allBlank = block
  rw [List.append_assoc, List.dropWhile_append_of_pos hfront]
  cases block with
  | nil =>
    rw [List.nil_append, List.dropWhile_eq_nil_iff.mpr hback]
    rfl
  | cons first rest =>
    have hneg : ¬allBlank first = true := by rw [hfirst first rfl]; exact Bool.false_ne_true
    rw [List.cons_append, List.dropWhile_cons_of_neg hneg]
    exact hbehind

/-- Lines with a newline behind each. -/
def unlines (ls : List (List Char)) : List Char := ls.flatMap (· ++ ['\n'])

theorem unlines_cons (l : List Char) (ls : List (List Char)) :
    unlines (l :: ls) = l ++ '\n' :: unlines ls := by
  rw [unlines, List.flatMap_cons, List.append_assoc]
  rfl

theorem split_append_newline {rest : List Char} (h : '\n' ∉ line) :
    split (line ++ '\n' :: rest) = line :: split rest := by
  induction line with
  | nil => rw [List.nil_append, split, if_pos rfl]
  | cons c line ih =>
    rw [List.mem_cons, not_or] at h
    obtain ⟨hc, hline⟩ := h
    rw [List.cons_append, split, if_neg (Ne.symm hc), ih hline]

theorem split_unlines {ls : List (List Char)} (h : ∀ l ∈ ls, '\n' ∉ l) :
    split (unlines ls) = ls ++ [[]] := by
  induction ls with
  | nil => rfl
  | cons l ls ih =>
    obtain ⟨hl, hls⟩ := List.forall_mem_cons.mp h
    rw [unlines_cons, split_append_newline hl, ih hls, List.cons_append]

theorem unlines_inj {ls ms : List (List Char)} (hls : ∀ l ∈ ls, '\n' ∉ l)
    (hms : ∀ l ∈ ms, '\n' ∉ l) : unlines ls = unlines ms ↔ ls = ms := by
  refine ⟨fun h => ?_, congrArg unlines⟩
  have hsplit := congrArg split h
  rw [split_unlines hls, split_unlines hms] at hsplit
  exact List.append_cancel_right hsplit

theorem lines_unlines {ls : List (List Char)} (h : ∀ l ∈ ls, '\n' ∉ l)
    (hreturn : ∀ l ∈ ls, l.getLast? ≠ some '\r') : lines (unlines ls) = ls := by
  have hclosed : ls.map dropReturn = ls :=
    (List.map_congr_left fun l hl => if_neg (hreturn l hl)).trans (List.map_id ls)
  simp only [lines, split_unlines h, List.dropLast_concat, List.getLast?_concat, hclosed]

theorem newline_notMem_of_mem_split (h : line ∈ split cs) : '\n' ∉ line := by
  induction cs generalizing line with
  | nil =>
    rw [split, List.mem_singleton] at h
    rw [h]
    exact List.not_mem_nil
  | cons c cs ih =>
    rw [split] at h
    split at h
    · rcases List.mem_cons.mp h with rfl | hmem
      · exact List.not_mem_nil
      · exact ih hmem
    · rename_i hc
      cases hsplit : split cs with
      | nil => exact absurd hsplit (split_ne_nil cs)
      | cons first rest =>
        rw [hsplit] at h ih
        rcases List.mem_cons.mp h with rfl | hmem
        · rw [List.mem_cons, not_or]
          exact ⟨Ne.symm hc, ih List.mem_cons_self⟩
        · exact ih (List.mem_cons_of_mem _ hmem)

theorem dropReturn_prefix_self (line : List Char) : dropReturn line <+: line := by
  unfold dropReturn
  split
  · exact List.dropLast_prefix line
  · exact List.prefix_rfl

theorem newline_notMem_of_mem_lines (h : line ∈ lines cs) : '\n' ∉ line := by
  have hclosed : ∀ l ∈ (split cs).dropLast.map dropReturn, '\n' ∉ l := by
    rintro _ hl hmem
    obtain ⟨part, hpart, rfl⟩ := List.mem_map.mp hl
    exact newline_notMem_of_mem_split ((List.dropLast_prefix _).subset hpart)
      ((dropReturn_prefix_self part).subset hmem)
  unfold lines at h
  dsimp only at h
  split at h
  · exact hclosed line h
  · exact hclosed line h
  · rename_i last hlast
    rcases List.mem_append.mp h with hmem | hmem
    · exact hclosed line hmem
    · rw [List.mem_singleton.mp hmem]
      exact newline_notMem_of_mem_split (List.mem_of_mem_getLast? hlast)

theorem dedent?_eq_none_iff (h : Trimmed (lines cs) block) :
    dedent? cs = none ↔ ∃ line ∈ block, Severed (margin block) line := by
  unfold dedent?
  rw [h.trimLines_eq, mapM_eq_none_iff]
  simp only [dedentLine?_eq_none_iff]

theorem dedent?_eq_some_iff (h : Trimmed (lines cs) block) :
    dedent? cs = some outs ↔ List.Forall₂ (Dedented (margin block)) block outs := by
  unfold dedent?
  rw [h.trimLines_eq]
  refine mapM_eq_some_iff fun line hline out => dedentLine?_eq_some_iff fun hblank => ?_
  exact margin_le (lead_mem_leads hline hblank)

namespace Dedented

theorem allBlank_eq (h : Dedented bytes line out) : allBlank out = allBlank line := by
  cases h with
  | blank hline => rw [hline]; rfl
  | cut hblanks hsize hrest => rw [allBlank_trimEnd, allBlank_append, hblanks, Bool.true_and]

theorem trimEnd_eq (h : Dedented bytes line out) : trimEnd out = out := by
  cases h with
  | blank => rfl
  | cut => exact trimEnd_trimEnd _

theorem subset (h : Dedented bytes line out) : out ⊆ line := by
  cases h with
  | blank => exact List.nil_subset line
  | @cut blanks rest =>
    exact List.Subset.trans (trimEnd_prefix_self rest).subset (List.subset_append_right blanks rest)

/-- A line that has been written is written again as it is. -/
theorem again (h : Dedented bytes line out) : Dedented 0 out out := by
  cases hout : allBlank out with
  | true =>
    have hnil := trimEnd_eq_nil_iff.mpr hout
    rw [h.trimEnd_eq] at hnil
    rw [hnil]
    exact .blank rfl
  | false =>
    have hcut : Dedented 0 ([] ++ out) (trimEnd out) := .cut rfl rfl hout
    rwa [h.trimEnd_eq] at hcut

/-- Nothing is before a line from which all its blanks have been cut. -/
theorem lead_eq_nil (h : Dedented bytes line out)
    (hlead : byteSize (line.takeWhile isBlank) = bytes) : out.takeWhile isBlank = [] := by
  cases h with
  | blank => rfl
  | @cut blanks rest hblanks hsize hrest =>
    rw [List.takeWhile_append_of_pos (List.all_eq_true.mp hblanks), byteSize_append, hsize] at hlead
    have hnone : rest.takeWhile isBlank = [] := byteSize_eq_zero_iff.mp (by omega)
    obtain ⟨more, hmore⟩ := trimEnd_prefix_self rest
    rw [← hmore] at hnone
    cases htrim : trimEnd rest with
    | nil => rfl
    | cons c cs => simpa [htrim, List.takeWhile_cons] using hnone

/-- What is written is the line without some blanks that it starts with exactly if these have all
the bytes that were cut. -/
theorem indented_eq_iff {depth : Nat} (h : Dedented bytes line out)
    (hblanks : allBlank line = false → blanks <+: line.takeWhile isBlank)
    (hsize : byteSize blanks ≤ bytes) :
    indented depth out = relaid depth blanks line ↔
      (allBlank line = false → byteSize blanks = bytes) := by
  unfold indented relaid
  cases h with
  | blank hline => simp [hline]
  | @cut front rest hfront hbytes hrest =>
    have hline : allBlank (front ++ rest) = false := by rw [allBlank_append, hrest, Bool.and_false]
    have hne : trimEnd rest ≠ [] := by
      rw [ne_eq, trimEnd_eq_nil_iff, hrest]
      exact Bool.false_ne_true
    subst hbytes
    -- both are beginnings of the line, so `more` is what was cut off beyond the blanks
    obtain ⟨more, rfl⟩ := prefix_of_byteSize_le
      ((hblanks hline).trans (List.takeWhile_prefix isBlank)) (List.prefix_append front rest) hsize
    rw [if_neg hne, hline, if_neg Bool.false_ne_true, List.append_assoc, List.drop_left,
      trimEnd_append more hrest, List.append_cancel_left_eq, List.self_eq_append_left, byteSize_append]
    have hmore : byteSize more = 0 ↔ more = [] := byteSize_eq_zero_iff
    simp only [true_imp_iff]
    rw [← hmore]
    omega

end Dedented

/-- The same for all lines, with blanks that all of them start with. -/
theorem map_indented_eq_iff {depth : Nat} (h : List.Forall₂ (Dedented bytes) block outs)
    (hblanks : ∀ line ∈ block, allBlank line = false → blanks <+: line.takeWhile isBlank)
    (hsize : byteSize blanks ≤ bytes) :
    outs.map (indented depth) = block.map (relaid depth blanks) ↔
      ∀ line ∈ block, allBlank line = false → byteSize blanks = bytes := by
  induction h with
  | nil => simp
  | cons hline _ ih =>
    obtain ⟨hfirst, hrest⟩ := List.forall_mem_cons.mp hblanks
    rw [List.map_cons, List.map_cons, List.cons_eq_cons, hline.indented_eq_iff hfirst hsize,
      ih hrest, List.forall_mem_cons]

theorem allBlank_head?_eq_false (h : List.Forall₂ (Dedented bytes) block outs)
    (hfirst : ∀ line ∈ block.head?, allBlank line = false) :
    ∀ line ∈ outs.head?, allBlank line = false := by
  cases h with
  | nil => exact hfirst
  | cons hline _ =>
    rintro _ ⟨⟩
    rw [hline.allBlank_eq]
    exact hfirst _ rfl

/-- A block that has been written has no blank lines around it. -/
theorem Trimmed.again {ls : List (List Char)} (h : Trimmed ls block)
    (houts : List.Forall₂ (Dedented bytes) block outs) : Trimmed outs outs where
  within := ⟨[], [], by simp, List.forall_mem_nil _, List.forall_mem_nil _⟩
  first := allBlank_head?_eq_false houts h.first
  last := by
    have hlast := h.last
    rw [← List.head?_reverse] at hlast ⊢
    exact allBlank_head?_eq_false (List.forall₂_reverse_iff.mpr houts) hlast

theorem exists_mem_of_forall₂ {R : List Char → List Char → Prop} (h : List.Forall₂ R block outs)
    (hline : line ∈ block) : ∃ out ∈ outs, R line out := by
  induction h with
  | nil => cases hline
  | cons hfirst _ ih =>
    rcases List.mem_cons.mp hline with rfl | hmem
    · exact ⟨_, List.mem_cons_self, hfirst⟩
    · obtain ⟨out, hout, hR⟩ := ih hmem
      exact ⟨out, List.mem_cons_of_mem _ hout, hR⟩

/-- The line that had the margin for its indentation has none any more. -/
theorem margin_eq_zero (h : List.Forall₂ (Dedented (margin block)) block outs) :
    margin outs = 0 := by
  by_cases hleads : leads outs = []
  · rw [margin_eq, hleads]
    rfl
  · have hblock : leads block ≠ [] := by
      obtain ⟨lead, hlead⟩ := List.exists_mem_of_ne_nil _ hleads
      obtain ⟨out, hout, hblank, -⟩ := mem_leads_iff.mp hlead
      obtain ⟨line, hline, hcut⟩ := exists_mem_of_forall₂ h.flip hout
      exact List.ne_nil_of_mem (lead_mem_leads hline (hcut.allBlank_eq.symm.trans hblank))
    -- the line with the smallest indentation lost all of it
    obtain ⟨lead, hlead, hsize⟩ := exists_byteSize_eq_margin hblock
    obtain ⟨line, hline, hblank, rfl⟩ := mem_leads_iff.mp hlead
    obtain ⟨out, hout, hcut⟩ := exists_mem_of_forall₂ h hline
    have hmem : [] ∈ leads outs :=
      mem_leads_iff.mpr ⟨out, hout, hcut.allBlank_eq.trans hblank, hcut.lead_eq_nil hsize⟩
    exact Nat.le_zero.mp (margin_le hmem)

theorem Trimmed.subset {ls : List (List Char)} (h : Trimmed ls block) : block ⊆ ls := by
  obtain ⟨front, back, rfl, -, -⟩ := h.within
  intro line hline
  exact List.mem_append_left _ (List.mem_append_right _ hline)

theorem newline_notMem_dedented (h : Trimmed (lines cs) block)
    (houts : List.Forall₂ (Dedented bytes) block outs) : ∀ out ∈ outs, '\n' ∉ out := by
  intro out hout hmem
  obtain ⟨line, hline, hcut⟩ := exists_mem_of_forall₂ houts.flip hout
  exact newline_notMem_of_mem_lines (h.subset hline) (hcut.subset hmem)

/-- What has been written is written again as it is. -/
theorem dedent?_unlines (h : Trimmed (lines cs) block)
    (houts : List.Forall₂ (Dedented (margin block)) block outs) :
    dedent? (unlines outs) = some outs := by
  have hagain : ∀ out ∈ outs, trimEnd out = out ∧ Dedented 0 out out := by
    intro out hout
    obtain ⟨line, -, hcut⟩ := exists_mem_of_forall₂ houts.flip hout
    exact ⟨hcut.trimEnd_eq, hcut.again⟩
  have hlines : lines (unlines outs) = outs :=
    lines_unlines (newline_notMem_dedented h houts) fun out hout =>
      getLast?_ne_return (hagain out hout).1
  have htrimmed := h.again houts
  rw [dedent?_eq_some_iff (by rwa [hlines]), margin_eq_zero houts]
  exact List.forall₂_same.mpr fun out hout => (hagain out hout).2

theorem indented_zero (line : List Char) : indented 0 line = line := by
  unfold indented
  split
  · rename_i hline
    exact hline.symm
  · rfl

theorem newline_notMem_indented {depth : Nat} (h : '\n' ∉ line) : '\n' ∉ indented depth line := by
  unfold indented
  split
  · exact List.not_mem_nil
  · rw [List.mem_append, not_or]
    exact ⟨fun hmem => absurd (List.eq_of_mem_replicate hmem) (by decide), h⟩

theorem newline_notMem_relaid {depth : Nat} (h : '\n' ∉ line) :
    '\n' ∉ relaid depth blanks line := by
  unfold relaid
  split
  · exact List.not_mem_nil
  · rw [List.mem_append, not_or]
    refine ⟨fun hmem => absurd (List.eq_of_mem_replicate hmem) (by decide), fun hmem => h ?_⟩
    exact List.mem_of_mem_drop ((trimEnd_prefix_self _).subset hmem)

/-- The text of a block without the common blanks is written exactly if some line has no others. -/
theorem unlines_indented_eq_iff {depth : Nat} (h : Trimmed (lines cs) block)
    (houts : List.Forall₂ (Dedented (margin block)) block outs) :
    unlines (outs.map (indented depth)) = unlines (block.map (relaid depth (commonBlanks block))) ↔
      Aligned block := by
  have hindented : ∀ l ∈ outs.map (indented depth), '\n' ∉ l :=
    List.forall_mem_map.mpr fun out hout =>
      newline_notMem_indented (newline_notMem_dedented h houts out hout)
  have hrelaid : ∀ l ∈ block.map (relaid depth (commonBlanks block)), '\n' ∉ l :=
    List.forall_mem_map.mpr fun line hline =>
      newline_notMem_relaid (newline_notMem_of_mem_lines (h.subset hline))
  have hblanks : ∀ line ∈ block, allBlank line = false →
      commonBlanks block <+: line.takeWhile isBlank := fun line hline hblank =>
    commonBlanks_prefix_of_mem (lead_mem_leads hline hblank)
  rw [unlines_inj hindented hrelaid,
    map_indented_eq_iff houts hblanks (byteSize_commonBlanks_le block), aligned_iff,
    leads_ne_nil_iff]
  simp only [exists_imp, and_imp]

/-- The common blanks can be cut off if they have the size of the margin. -/
theorem not_severed_of_aligned (h : Aligned block) :
    ¬∃ line ∈ block, Severed (margin block) line := by
  rintro ⟨line, hline, hblank, hcut⟩
  have hlead := lead_mem_leads hline hblank
  obtain ⟨back, hback⟩ := (commonBlanks_prefix_of_mem hlead).trans (List.takeWhile_prefix isBlank)
  exact hcut _ back hback.symm (aligned_iff.mp h (List.ne_nil_of_mem hlead))

end Text

namespace Layout

open Text

/-- What has been written, with some lines behind. -/
def extend (w : Layout) (ls : List (List Char)) : Layout :=
  { w with text := w.text ++ String.ofList (unlines ls) }

theorem toList_join_indent (depth : Nat) :
    (String.join (List.replicate depth indent)).toList = List.replicate (4 * depth) ' ' := by
  rw [String.toList_join]
  induction depth with
  | zero => rfl
  | succ depth ih =>
    have hindent : indent.toList = List.replicate 4 ' ' := by decide
    rw [List.replicate_succ, List.flatMap_cons, ih, hindent, List.replicate_append_replicate,
      Nat.mul_succ, Nat.add_comm]

theorem line_ofList (w : Layout) (l : List Char) :
    w.line (String.ofList l) = w.extend [indented w.depth l] := by
  unfold line indented extend
  by_cases hl : l = []
  · rw [if_pos (String.isEmpty_iff.mpr (String.ofList_eq_empty_iff.mpr hl)), if_pos hl]
    rfl
  · rw [if_neg (mt (fun h => String.ofList_eq_empty_iff.mp (String.isEmpty_iff.mp h)) hl), if_neg hl]
    congr 1
    rw [← String.toList_inj]
    simp only [String.toList_append, toList_join_indent, String.toList_ofList, unlines_cons,
      List.append_assoc]
    rfl

theorem extend_extend (w : Layout) (ls ms : List (List Char)) :
    (w.extend ls).extend ms = w.extend (ls ++ ms) := by
  simp only [extend, unlines, List.flatMap_append, String.ofList_append, String.append_assoc]

theorem putAll_lines (w : Layout) (ls : List (List Char)) :
    w.putAll (ls.map fun l => .line (String.ofList l)) = w.extend (ls.map (indented w.depth)) := by
  induction ls generalizing w with
  | nil => exact congrArg (Layout.mk · w.depth) String.append_empty.symm
  | cons l ls ih =>
    rw [List.map_cons, putAll_cons, put, line_ofList, ih, extend_extend]
    rfl

theorem textOf_lines (ls : List (List Char)) :
    textOf (ls.map fun l => .line (String.ofList l)) = String.ofList (unlines ls) := by
  have hzero : ls.map (indented 0) = ls :=
    (List.map_congr_left fun l _ => indented_zero l).trans (List.map_id ls)
  rw [textOf, putAll_lines, hzero]
  exact String.empty_append

theorem extend_inj {w : Layout} {ls ms : List (List Char)} :
    w.extend ls = w.extend ms ↔ unlines ls = unlines ms := by
  refine ⟨fun h => ?_, fun h => by rw [extend, extend, h]⟩
  have htext := congrArg (fun w => w.text.toList) h
  simp only [extend, String.toList_append, String.toList_ofList] at htext
  exact List.append_cancel_left htext

/-- Code is written as the lines from the first to the last that is not blank. From each of them as many
bytes of blanks are cut off as the smallest indentation has, and there is no result exactly if this cuts
a character. The blanks that are cut off are those that the lines have in common if and only if
some line starts with no other ones. At depth zero, writing the result again gives the same. -/
theorem verbatim_removes_common_blanks_iff (code : String) (w : Layout) :
    ∃ block, Trimmed (lines code.toList) block ∧
      (verbatim? code = none ↔ ∃ line ∈ block, Severed (margin block) line) ∧
      ((∃ items, verbatim? code = some items ∧
          w.putAll items = w.extend (block.map (relaid w.depth (commonBlanks block)))) ↔
        Aligned block) ∧
      ∀ items, verbatim? code = some items →
        (∃ outs, List.Forall₂ (Dedented (margin block)) block outs ∧
          w.putAll items = w.extend (outs.map (indented w.depth))) ∧
        verbatim? (textOf items) = some items := by
  have hblock := trimmed_trimLines (lines code.toList)
  refine ⟨trimLines (lines code.toList), hblock, ?_, ⟨?_, ?_⟩, ?_⟩
  · rw [verbatim?, Option.map_eq_none_iff, dedent?_eq_none_iff hblock]
  · rintro ⟨items, hitems, htext⟩
    obtain ⟨outs, houts, rfl⟩ := Option.map_eq_some_iff.mp hitems
    rw [putAll_lines, extend_inj] at htext
    exact (unlines_indented_eq_iff hblock ((dedent?_eq_some_iff hblock).mp houts)).mp htext
  · intro haligned
    -- the common blanks can be cut off every line, so there is a result
    obtain ⟨outs, houts⟩ := Option.ne_none_iff_exists'.mp
      (mt (dedent?_eq_none_iff hblock).mp (not_severed_of_aligned haligned))
    have hall := (dedent?_eq_some_iff hblock).mp houts
    refine ⟨_, by rw [verbatim?, houts, Option.map_some], ?_⟩
    rw [putAll_lines, extend_inj]
    exact (unlines_indented_eq_iff hblock hall).mpr haligned
  · intro items hitems
    obtain ⟨outs, houts, rfl⟩ := Option.map_eq_some_iff.mp hitems
    have hall := (dedent?_eq_some_iff hblock).mp houts
    refine ⟨⟨outs, hall, putAll_lines w outs⟩, ?_⟩
    rw [textOf_lines, verbatim?, String.toList_ofList, dedent?_unlines hblock hall, Option.map_some]

/-- One line starts with a blank of one byte, the other one with a blank of three bytes. They have no
blank in common, and the margin of one byte cannot be cut off the second line. -/
theorem verbatim_cuts_a_character :
    commonBlanks (trimLines (lines " x\n\u3000y".toList)) = [] ∧
      verbatim? " x\n\u3000y" = none := by
  decide +kernel

end Layout

end StackForge
