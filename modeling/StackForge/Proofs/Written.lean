import Mathlib.Data.List.Nodup
import StackForge.Command.Files
import StackForge.Proofs.Disk
import StackForge.Proofs.Emission

/-!
Generated files on a disk. Files are written one after another, each where its path leads, so a place
that several of them share keeps the text of the last. What has been written is found again, by a check
and by writing once more, exactly when files that share a place have the same text.
-/
namespace StackForge

namespace Layout

theorem exists_line (w : Layout) (text : String) : ∃ more, (w.line text).text = w.text ++ more := by
  unfold line
  split
  · exact ⟨"\n", rfl⟩
  · exact ⟨String.join (List.replicate w.depth indent) ++ text ++ "\n", by simp [String.append_assoc]⟩

/-- Writing adds to the text. -/
theorem exists_put (w : Layout) (i : Item) : ∃ more, (w.put i).text = w.text ++ more := by
  cases i with
  | line text | enter text => exact w.exists_line text
  | blank =>
    rw [put, blank]
    split
    · exact ⟨"", by simp⟩
    · exact ⟨"\n", rfl⟩
  | leave text | turn text => exact exists_line { w with depth := w.depth - 1 } text

theorem exists_putAll (w : Layout) (items : List Item) :
    ∃ more, (w.putAll items).text = w.text ++ more := by
  induction items generalizing w with
  | nil => exact ⟨"", by simp⟩
  | cons i items ih =>
    obtain ⟨first, hfirst⟩ := w.exists_put i
    obtain ⟨more, hmore⟩ := ih (w.put i)
    exact ⟨first ++ more, by rw [putAll_cons, hmore, hfirst, String.append_assoc]⟩

end Layout

namespace Emission

theorem banner_of_items {d : Descriptor} {c : Conventions} {a : Artifact}
    {items : List Layout.Item} (h : Emission.items d c a = .ok items) :
    ∃ rest, items = banner d :: rest := by
  cases a with
  | engine =>
    obtain ⟨front, -, h⟩ := bind_eq_ok h
    obtain ⟨run, -, h⟩ := bind_eq_ok h
    obtain ⟨back, -, h⟩ := bind_eq_ok h
    cases h
    exact ⟨_, rfl⟩
  | decl =>
    obtain ⟨front, -, h⟩ := bind_eq_ok h
    obtain ⟨back, -, h⟩ := bind_eq_ok h
    cases h
    exact ⟨_, rfl⟩
  | glue =>
    obtain ⟨front, -, h⟩ := bind_eq_ok h
    obtain ⟨wrapper, -, h⟩ := bind_eq_ok h
    obtain ⟨back, -, h⟩ := bind_eq_ok h
    cases h
    exact ⟨_, rfl⟩

/-- Every source text says in its first line which machine it is for. -/
theorem exists_text {d : Descriptor} {c : Conventions} {a : Artifact} {items : List Layout.Item}
    (h : Emission.items d c a = .ok items) :
    ∃ more, Layout.textOf items = "// @generated by stackgen from the `" ++ d.name ++ more := by
  obtain ⟨rest, rfl⟩ := banner_of_items h
  obtain ⟨more, hmore⟩ := Layout.exists_putAll (Layout.put {} (banner d)) rest
  have hfirst : (Layout.put {} (banner d)).text
      = "// @generated by stackgen from the `" ++ d.name ++ "` descriptor. Do not edit." ++ "\n" := by
    simp [Layout.put, Layout.line, banner, String.join, toString]
  refine ⟨"` descriptor. Do not edit." ++ "\n" ++ more, ?_⟩
  rw [Layout.textOf, Layout.putAll_cons, hmore, hfirst]
  simp [String.append_assoc]

theorem file_eq_ok_iff {d : Descriptor} {c : Conventions} {a : Artifact} {f : SourceFile} :
    file d c a = .ok f ↔
      ∃ items, Emission.items d c a = .ok items ∧
        f = ⟨a, c.fileName a d.name, Layout.textOf items⟩ := by
  unfold file
  cases Emission.items d c a with
  | error fault => simp [Except.map]
  | ok items => simp [Except.map, eq_comm]

/-- The source texts of a machine, one for each artifact. -/
theorem files_of_ofDescriptor {d : Descriptor} {c : Conventions} {e : Emission}
    (h : ofDescriptor d c = .ok e) :
    ∃ engine decl glue, e.files = [engine, decl, glue] ∧ file d c .engine = .ok engine ∧
      file d c .decl = .ok decl ∧ file d c .glue = .ok glue := by
  unfold ofDescriptor at h
  cases hfiles : Artifact.all.mapM (file d c) with
  | error fault =>
    rw [hfiles] at h
    cases h
  | ok files =>
    rw [hfiles] at h
    cases h
    simp only [Artifact.all, List.mapM_cons] at hfiles
    obtain ⟨engine, hengine, hfiles⟩ := bind_eq_ok hfiles
    obtain ⟨others, hothers, hfiles⟩ := bind_eq_ok hfiles
    cases hfiles
    obtain ⟨decl, hdecl, hothers⟩ := bind_eq_ok hothers
    obtain ⟨last, hlast, hothers⟩ := bind_eq_ok hothers
    cases hothers
    obtain ⟨glue, hglue, hlast⟩ := bind_eq_ok hlast
    cases hlast
    exact ⟨engine, decl, glue, rfl, hengine, hdecl, hglue⟩

end Emission

namespace Command

open Disk (Reaches Within after)

variable {α β : Type}

/-- What a command answers on a disk, and the disk that it leaves. -/
def onDisk (command : ExceptT CommandFault (StateM Disk) α) (d : Disk) :
    Except CommandFault α × Disk := after command.run d

theorem onDisk_pure (a : α) (d : Disk) : onDisk (pure a) d = (.ok a, d) := rfl

theorem onDisk_bind {x : ExceptT CommandFault (StateM Disk) α} {d d' : Disk} {a : α}
    (h : onDisk x d = (.ok a, d')) (f : α → ExceptT CommandFault (StateM Disk) β) :
    onDisk (x >>= f) d = onDisk (f a) d' := by
  unfold onDisk at h ⊢
  rw [ExceptT.run_bind, Disk.after_bind, h]

theorem exists_of_onDisk_bind {x : ExceptT CommandFault (StateM Disk) α}
    {f : α → ExceptT CommandFault (StateM Disk) β} {d d'' : Disk} {b : β}
    (h : onDisk (x >>= f) d = (.ok b, d'')) :
    ∃ a d', onDisk x d = (.ok a, d') ∧ onDisk (f a) d' = (.ok b, d'') := by
  rcases hx : onDisk x d with ⟨fault | a, d'⟩
  · unfold onDisk at h hx
    rw [ExceptT.run_bind, Disk.after_bind, hx] at h
    cases h
  · exact ⟨a, d', rfl, (onDisk_bind hx f).symm.trans h⟩

theorem onDisk_readFile (path : String) (d : Disk) :
    onDisk (readFile path) d = (.ok (d.read path), d) := rfl

theorem onDisk_onFile (path : String) {action : StateM Disk (Except FileFault α)} {d d' : Disk}
    {result : Except FileFault α} (h : after action d = (result, d')) :
    onDisk (onFile path action) d = (result.mapError (.file path), d') := by
  have hlift : onDisk (ExceptT.lift action : ExceptT CommandFault (StateM Disk) _) d
      = (.ok result, d') := by
    unfold onDisk
    rw [ExceptT.run_lift, map_eq_pure_bind, Disk.after_bind, h, Disk.after_pure]
  rw [onFile, onDisk_bind hlift]
  cases result <;> rfl

theorem after_of_onFile {path : String} {action : StateM Disk (Except FileFault α)} {d d' : Disk}
    {a : α} (h : onDisk (onFile path action) d = (.ok a, d')) : after action d = (.ok a, d') := by
  rcases hafter : after action d with ⟨fault | b, d₁⟩
  · rw [onDisk_onFile path hafter] at h
    cases h
  · rw [onDisk_onFile path hafter] at h
    cases h
    rfl

theorem onDisk_write {d : Disk} {path text : String} {location : List String}
    (h : d.Reaches path location) (hfree : d.find? location ≠ some .directory) :
    onDisk (onFile path (FileSystem.write path text)) d
      = (.ok (), d.insert location (.file text)) :=
  onDisk_onFile path (Disk.after_attempt_ok (Disk.write_eq_ok_iff.mpr ⟨location, h, hfree, rfl⟩))

/-- A file that already has the text stays. -/
theorem writeIfChanged_of_same {d : Disk} {path text : String} (h : d.read path = .ok text) :
    onDisk (writeIfChanged path text) d = (.ok .unchanged, d) := by
  rw [writeIfChanged, onDisk_bind (onDisk_readFile path d), h]
  simp only [if_true]
  rfl

/-- Another file is written where its path leads. -/
theorem writeIfChanged_of_other {d : Disk} {path text : String} {location : List String}
    (h : d.Reaches path location) (hfree : d.find? location ≠ some .directory)
    (hother : d.read path ≠ .ok text) :
    onDisk (writeIfChanged path text) d = (.ok .written, d.insert location (.file text)) := by
  rw [writeIfChanged, onDisk_bind (onDisk_readFile path d)]
  cases hfind : d.find? location with
  | none =>
    rw [Disk.read_of_none h hfind]
    dsimp only
    rw [onDisk_bind (onDisk_write h hfree), onDisk_pure]
  | some node =>
    cases node with
    | directory => exact absurd hfind hfree
    | file stored =>
      have hread : d.read path = .ok stored := Disk.read_eq_ok_iff.mpr ⟨location, h, hfind⟩
      have hne : stored ≠ text := by
        rintro rfl
        exact hother hread
      rw [hread]
      simp only [if_neg hne]
      rw [onDisk_bind (onDisk_write h hfree), onDisk_pure]

theorem write_of_onDisk {d d' : Disk} {path text : String}
    (h : onDisk (onFile path (FileSystem.write path text)) d = (.ok (), d')) :
    d.write path text = .ok d' := by
  have hafter : after (Disk.attempt (·.write path text)) d = (.ok (), d') := after_of_onFile h
  cases hwrite : d.write path text with
  | ok written =>
    rw [Disk.after_attempt_ok hwrite] at hafter
    cases hafter
    rfl
  | error fault =>
    rw [Disk.after_attempt_error hwrite] at hafter
    cases hafter

/-- What writing a file can do. -/
theorem writeIfChanged_cases {d d' : Disk} {path text : String} {status : FileStatus}
    (h : onDisk (writeIfChanged path text) d = (.ok status, d')) :
    (status = .unchanged ∧ d' = d ∧ d.read path = .ok text) ∨
    (status = .written ∧ d.read path ≠ .ok text ∧
      ∃ location, d.Reaches path location ∧ d.find? location ≠ some .directory ∧
        d' = d.insert location (.file text)) := by
  rw [writeIfChanged, onDisk_bind (onDisk_readFile path d)] at h
  have hwritten : ∀ {status}, d.read path ≠ .ok text →
      onDisk (do onFile path (FileSystem.write path text); pure FileStatus.written) d
        = (.ok status, d') →
      status = .written ∧ d.read path ≠ .ok text ∧
        ∃ location, d.Reaches path location ∧ d.find? location ≠ some .directory ∧
          d' = d.insert location (.file text) := by
    intro status hread h
    obtain ⟨_, written, hwrite, hpure⟩ := exists_of_onDisk_bind h
    cases hpure
    exact ⟨rfl, hread, Disk.write_eq_ok_iff.mp (write_of_onDisk hwrite)⟩
  split at h
  · rename_i stored hread
    by_cases hsame : stored = text
    · rw [if_pos hsame] at h
      cases h
      exact .inl ⟨rfl, rfl, by rw [hread, hsame]⟩
    · rw [if_neg hsame] at h
      exact .inr (hwritten (by simp [hread, hsame]) h)
  · rename_i hread
    exact .inr (hwritten (by simp [hread]) h)
  · obtain ⟨_, _, hthrow, -⟩ := exists_of_onDisk_bind h
    cases hthrow

/-- One step: the file is there, and all else is as it was. -/
theorem find?_of_writeIfChanged {d d' : Disk} {path text : String} {status : FileStatus}
    (h : onDisk (writeIfChanged path text) d = (.ok status, d')) :
    d.Within d' ∧ ∃ location, d'.Reaches path location ∧
      d'.find? location = some (.file text) ∧
      ∀ other, other ≠ location → d'.find? other = d.find? other := by
  rcases writeIfChanged_cases h with ⟨-, rfl, hread⟩ | ⟨-, -, location, hpath, hfree, rfl⟩
  · obtain ⟨location, hpath, hfind⟩ := Disk.read_eq_ok_iff.mp hread
    exact ⟨.refl d', location, hpath, hfind, fun _ _ => rfl⟩
  · have hwithin := Disk.within_insert (.file text) hfree
    refine ⟨hwithin, location, hpath.within hwithin, ?_, ?_⟩
    · exact Disk.find?_insert_self d _ (Disk.ne_nil_of_locate hpath.1)
    · intro other hother
      exact Disk.find?_insert_of_ne d _ hother

theorem writeAll_cons {d d₁ d' : Disk} {path text : String} {rest : List (String × String)}
    {status : FileStatus} {more : List (String × FileStatus)}
    (hfirst : onDisk (writeIfChanged path text) d = (.ok status, d₁))
    (hrest : onDisk (writeAll rest) d₁ = (.ok more, d')) :
    onDisk (writeAll ((path, text) :: rest)) d = (.ok ((path, status) :: more), d') := by
  rw [writeAll, onDisk_bind hfirst, onDisk_bind hrest, onDisk_pure]

theorem exists_of_writeAll_cons {d d' : Disk} {path text : String} {rest : List (String × String)}
    {statuses : List (String × FileStatus)}
    (h : onDisk (writeAll ((path, text) :: rest)) d = (.ok statuses, d')) :
    ∃ status d₁ more, onDisk (writeIfChanged path text) d = (.ok status, d₁) ∧
      onDisk (writeAll rest) d₁ = (.ok more, d') ∧ statuses = (path, status) :: more := by
  rw [writeAll] at h
  obtain ⟨status, d₁, hfirst, h⟩ := exists_of_onDisk_bind h
  obtain ⟨more, d₂, hrest, h⟩ := exists_of_onDisk_bind h
  cases h
  exact ⟨status, d₁, more, hfirst, hrest, rfl⟩

/-- A place that holds the text of one of the files that lead to it. -/
def Held (d : Disk) (files : List (String × String)) (location : List String) : Prop :=
  ∃ f ∈ files, d.Reaches f.1 location ∧ d.find? location = some (.file f.2)

/-- A disk that differs from another by files that have been put on it. -/
structure Stored (d d' : Disk) (files : List (String × String)) : Prop where
  within : d.Within d'
  held : ∀ f ∈ files, ∃ location, d'.Reaches f.1 location ∧ Held d' files location
  kept : ∀ location, Held d' files location ∨ d'.find? location = d.find? location

/-- All steps: the files are put on the disk, and all else is as it was. -/
theorem stored_of_writeAll {files : List (String × String)} {d d' : Disk}
    {statuses : List (String × FileStatus)}
    (h : onDisk (writeAll files) d = (.ok statuses, d')) : Stored d d' files := by
  induction files generalizing d statuses with
  | nil =>
    cases h
    exact ⟨.refl d', by simp, fun _ => .inr rfl⟩
  | cons f rest ih =>
    obtain ⟨path, text⟩ := f
    obtain ⟨status, d₁, more, hfirst, hrest, -⟩ := exists_of_writeAll_cons h
    obtain ⟨hwithin, location, hpath, hfind, hothers⟩ := find?_of_writeIfChanged hfirst
    have hstored := ih hrest
    have hheld : ∀ {other}, Held d' rest other → Held d' ((path, text) :: rest) other := by
      rintro other ⟨g, hg, hreaches, hg'⟩
      exact ⟨g, List.mem_cons_of_mem _ hg, hreaches, hg'⟩
    have hpath' : d'.Reaches path location := hpath.within hstored.within
    -- the place of the first file keeps its text unless one of the others is put there
    have hplace : Held d' ((path, text) :: rest) location := by
      rcases hstored.kept location with hlater | hsame
      · exact hheld hlater
      · exact ⟨(path, text), List.mem_cons_self, hpath', hsame.trans hfind⟩
    refine ⟨hwithin.trans hstored.within, ?_, ?_⟩
    · intro f hf
      rcases List.mem_cons.mp hf with rfl | hf
      · exact ⟨location, hpath', hplace⟩
      · obtain ⟨other, hreaches, hother⟩ := hstored.held f hf
        exact ⟨other, hreaches, hheld hother⟩
    · intro other
      rcases hstored.kept other with hlater | hsame
      · exact .inl (hheld hlater)
      · by_cases hother : other = location
        · exact .inl (hother ▸ hplace)
        · exact .inr (hsame.trans (hothers other hother))

/-- The file that is written last is there in the end. -/
theorem read_last_of_writeAll {files : List (String × String)} {path text : String} {d d' : Disk}
    {statuses : List (String × FileStatus)}
    (h : onDisk (writeAll (files ++ [(path, text)])) d = (.ok statuses, d')) :
    d'.read path = .ok text := by
  induction files generalizing d statuses with
  | nil =>
    obtain ⟨status, d₁, more, hfirst, hrest, -⟩ := exists_of_writeAll_cons h
    cases hrest
    obtain ⟨-, location, hpath, hfind, -⟩ := find?_of_writeIfChanged hfirst
    exact Disk.read_eq_ok_iff.mpr ⟨location, hpath, hfind⟩
  | cons f files ih =>
    obtain ⟨status, d₁, more, -, hrest, -⟩ := exists_of_writeAll_cons h
    exact ih hrest

/-- Files that can be written. -/
def Writable (d : Disk) (files : List (String × String)) : Prop :=
  ∀ f ∈ files, ∃ location, d.Reaches f.1 location ∧ d.find? location ≠ some .directory

/-- Putting a file where no directory is changes nothing about which files can be written. -/
theorem writable_insert_iff {d : Disk} {path : String} {location : List String} (text : String)
    (hpath : d.Reaches path location) (hfree : d.find? location ≠ some .directory)
    {files : List (String × String)} :
    Writable (d.insert location (.file text)) files ↔ Writable d files := by
  have hself := Disk.find?_insert_self d (.file text) (Disk.ne_nil_of_locate hpath.1)
  refine forall₂_congr fun f _ => exists_congr fun other => and_congr ?_ ?_
  · constructor
    · intro h
      exact h.within (Disk.within_of_insert text (Disk.ne_nil_of_locate hpath.1))
    · intro h
      exact h.within (Disk.within_insert (.file text) hfree)
  · by_cases heq : other = location
    · simp [heq, hself, hfree]
    · rw [Disk.find?_insert_of_ne d _ heq]

/-- Files whose texts are on the disk. -/
def Present (d : Disk) (files : List (String × String)) : Prop :=
  ∀ f ∈ files, d.read f.1 = .ok f.2

/-- Files that can be written are written, and all are left alone exactly when they are there. -/
theorem exists_writeAll {files : List (String × String)} {d : Disk} (h : Writable d files) :
    ∃ statuses d', onDisk (writeAll files) d = (.ok statuses, d') ∧
      statuses.map Prod.fst = files.map Prod.fst ∧
      ((∀ s ∈ statuses, s.2 = .unchanged) ↔ Present d files) ∧ (Present d files → d' = d) := by
  induction files generalizing d with
  | nil => exact ⟨[], d, rfl, rfl, by simp [Present], fun _ => rfl⟩
  | cons f rest ih =>
    obtain ⟨path, text⟩ := f
    obtain ⟨⟨location, hpath, hfree⟩, hrest⟩ := List.forall_mem_cons.mp h
    by_cases hread : d.read path = .ok text
    · obtain ⟨more, d', hmore, hpaths, hunchanged, hsame⟩ := ih hrest
      have hpresent : Present d ((path, text) :: rest) ↔ Present d rest := by
        simp [Present, hread]
      refine ⟨(path, .unchanged) :: more, d', writeAll_cons (writeIfChanged_of_same hread) hmore,
        by simp [hpaths], ?_, ?_⟩
      · rw [hpresent, ← hunchanged]
        simp
      · rw [hpresent]
        exact hsame
    · have hwritable := (writable_insert_iff text hpath hfree).mpr hrest
      obtain ⟨more, d', hmore, hpaths, -, -⟩ := ih hwritable
      have habsent : ¬Present d ((path, text) :: rest) := by
        intro hpresent
        exact hread (hpresent (path, text) List.mem_cons_self)
      refine ⟨(path, .written) :: more, d',
        writeAll_cons (writeIfChanged_of_other hpath hfree hread) hmore, by simp [hpaths], ?_, ?_⟩
      · simp [habsent]
      · exact fun hpresent => absurd hpresent habsent

/-- Checking a file looks at what is there, or at its absence. -/
theorem onDisk_staleness? {d : Disk} {path : String}
    (h : (∃ stored, d.read path = .ok stored) ∨ d.read path = .error .notFound) (text : String) :
    ∃ found, onDisk (staleness? path text) d = (.ok found, d) ∧
      (found = none ↔ d.read path = .ok text) := by
  rw [staleness?, onDisk_bind (onDisk_readFile path d)]
  rcases h with ⟨stored, h⟩ | h
  · rw [h]
    refine ⟨if stored = text then none else some .differs, rfl, ?_⟩
    by_cases hsame : stored = text <;> simp [hsame]
  · rw [h]
    exact ⟨some .missing, rfl, by simp⟩

/-- Files that can be read, or that are not there, are checked, and none is stale exactly when all are
there. -/
theorem exists_staleAmong {files : List (String × String)} {d : Disk}
    (h : ∀ f ∈ files, (∃ stored, d.read f.1 = .ok stored) ∨ d.read f.1 = .error .notFound) :
    ∃ stale, onDisk (staleAmong files) d = (.ok stale, d) ∧ (stale = [] ↔ Present d files) := by
  induction files with
  | nil => exact ⟨[], rfl, by simp [Present]⟩
  | cons f rest ih =>
    obtain ⟨path, text⟩ := f
    obtain ⟨hread, hrest⟩ := List.forall_mem_cons.mp h
    obtain ⟨found, hfound, hsame⟩ := onDisk_staleness? hread text
    obtain ⟨stale, hstale, hnone⟩ := ih hrest
    rw [staleAmong, onDisk_bind hfound, onDisk_bind hstale, onDisk_pure]
    cases found with
    | none =>
      refine ⟨stale, rfl, ?_⟩
      rw [hnone]
      simp [Present, hsame.mp rfl]
    | some reason =>
      have habsent : d.read path ≠ .ok text := by simpa using hsame
      exact ⟨(path, reason) :: stale, rfl, by simp [Present, habsent]⟩

/-- All files that are written, the manifest last. -/
def outputs (directory : String) (gs : List Generation) : List (String × String) :=
  targets directory gs ++ [(joinPath directory manifestName, manifestText gs)]

theorem targets_cons (directory : String) (g : Generation) (gs : List Generation) :
    targets directory (g :: gs) = targets directory [g] ++ targets directory gs := by
  simp [targets]

theorem writeAll_append (xs ys : List (String × String)) :
    (writeAll (xs ++ ys) : ExceptT CommandFault (StateM Disk) _) = do
      let first ← writeAll xs
      let last ← writeAll ys
      return first ++ last := by
  induction xs with
  | nil => simp [writeAll]
  | cons f xs ih => simp [writeAll, ih]

/-- Source texts and manifest are written in a row, into a directory that is made before. -/
theorem writeArtifacts_eq (directory : String) (gs : List Generation) :
    (writeArtifacts directory gs : ExceptT CommandFault (StateM Disk) _)
      = onFile directory (FileSystem.makeDirectories directory) >>= fun _ =>
        writeAll (outputs directory gs) := by
  simp [writeArtifacts, outputs, writeAll_append, writeAll]

/-- Files that lead to one place have one text. -/
def Agree (d : Disk) (files : List (String × String)) : Prop :=
  ∀ f ∈ files, ∀ g ∈ files, ∀ location, d.Reaches f.1 location → d.Reaches g.1 location → f.2 = g.2

theorem Stored.present_iff {d d' : Disk} {files : List (String × String)} (h : Stored d d' files) :
    Present d' files ↔ Agree d' files := by
  constructor
  · intro hpresent f hf g hg location hreaches hreaches'
    have hfind : ∀ k ∈ files, d'.Reaches k.1 location → d'.find? location = some (.file k.2) := by
      intro k hk hk'
      obtain ⟨place, hplace, hfind⟩ := Disk.read_eq_ok_iff.mp (hpresent k hk)
      rwa [hk'.unique hplace]
    simpa [hfind f hf hreaches] using hfind g hg hreaches'
  · intro hagree f hf
    obtain ⟨location, hreaches, g, hg, hreaches', hfind⟩ := h.held f hf
    rw [hagree f hf g hg location hreaches hreaches']
    exact Disk.read_eq_ok_iff.mpr ⟨location, hreaches, hfind⟩

/-- Files that lead to different places agree. -/
theorem agree_of_nodup {d : Disk} {files : List (String × String)} (place : String → List String)
    (hplace : ∀ path ∈ files.map Prod.fst, d.Reaches path (place path))
    (hnodup : ((files.map Prod.fst).map place).Nodup) : Agree d files := by
  intro f hf g hg location hreaches hreaches'
  have hf' := (hplace f.1 (List.mem_map_of_mem hf)).unique hreaches
  have hg' := (hplace g.1 (List.mem_map_of_mem hg)).unique hreaches'
  rw [List.map_map] at hnodup
  rw [List.inj_on_of_nodup_map hnodup hf hg (hf'.trans hg'.symm)]

section Written

variable {directory : String} {gs : List Generation} {d d' : Disk}
  {statuses : List (String × FileStatus)}
  (h : onDisk (writeArtifacts directory gs) d = (.ok statuses, d'))
include h

theorem exists_stored : ∃ made, after (FileSystem.makeDirectories directory) d = (.ok (), made) ∧
    Stored made d' (outputs directory gs) := by
  rw [writeArtifacts_eq] at h
  obtain ⟨_, made, hmade, hwrite⟩ := exists_of_onDisk_bind h
  exact ⟨made, after_of_onFile hmade, stored_of_writeAll hwrite⟩

/-- The manifest is written last, so it is there. -/
theorem read_manifest :
    d'.read (joinPath directory manifestName) = .ok (manifestText gs) := by
  rw [writeArtifacts_eq] at h
  obtain ⟨_, made, -, hwrite⟩ := exists_of_onDisk_bind h
  exact read_last_of_writeAll hwrite

theorem present_targets_iff :
    Present d' (targets directory gs) ↔ Agree d' (outputs directory gs) := by
  obtain ⟨made, -, hstored⟩ := exists_stored h
  rw [← hstored.present_iff]
  simp [outputs, Present, or_imp, forall_and, read_manifest h]

/-- What has been written can be checked. -/
theorem exists_checked :
    ∃ stale, onDisk (checkArtifacts directory gs) d' = (.ok stale, d') ∧
      (stale = [] ↔ Agree d' (outputs directory gs)) := by
  obtain ⟨made, -, hstored⟩ := exists_stored h
  have hread : ∀ f ∈ targets directory gs, ∃ stored, d'.read f.1 = .ok stored := by
    intro f hf
    obtain ⟨location, hreaches, g, -, -, hfind⟩ := hstored.held f (List.mem_append_left _ hf)
    exact ⟨g.2, Disk.read_eq_ok_iff.mpr ⟨location, hreaches, hfind⟩⟩
  obtain ⟨stale, hstale, hnone⟩ := exists_staleAmong fun f hf => .inl (hread f hf)
  exact ⟨stale, hstale, hnone.trans (present_targets_iff h)⟩

/-- What has been written can be written once more. -/
theorem exists_rewritten :
    ∃ again d'', onDisk (writeArtifacts directory gs) d' = (.ok again, d'') ∧
      again.map Prod.fst = (outputs directory gs).map Prod.fst ∧
      ((∀ s ∈ again, s.2 = .unchanged) ↔ Agree d' (outputs directory gs)) ∧
      (Agree d' (outputs directory gs) → d'' = d') := by
  obtain ⟨made, hmade, hstored⟩ := exists_stored h
  have hmake : onDisk (onFile directory (FileSystem.makeDirectories directory)) d' = (.ok (), d') :=
    onDisk_onFile directory (Disk.makeDirectories_again hmade hstored.within)
  have hwritable : Writable d' (outputs directory gs) := by
    intro f hf
    obtain ⟨location, hreaches, g, -, -, hfind⟩ := hstored.held f hf
    exact ⟨location, hreaches, by simp [hfind]⟩
  obtain ⟨again, d'', hagain, hpaths, hunchanged, hsame⟩ := exists_writeAll hwritable
  rw [hstored.present_iff] at hunchanged hsame
  refine ⟨again, d'', ?_, hpaths, hunchanged, hsame⟩
  rw [writeArtifacts_eq, onDisk_bind hmake, hagain]

end Written

/-- Files that can be written into a directory that can be made are written. -/
theorem exists_written {directory : String} {gs : List Generation} {d made : Disk}
    (hmade : after (FileSystem.makeDirectories directory) d = (.ok (), made))
    (hwritable : Writable made (outputs directory gs)) :
    ∃ statuses d', onDisk (writeArtifacts directory gs) d = (.ok statuses, d') ∧ made.Within d' := by
  obtain ⟨statuses, d', hwrite, -⟩ := exists_writeAll hwritable
  refine ⟨statuses, d', ?_, (stored_of_writeAll hwrite).within⟩
  rw [writeArtifacts_eq, onDisk_bind (onDisk_onFile directory hmade), hwrite]

/-- A machine that returns what it is given. -/
def returnOnly (name : String) : Draft :=
  (Draft.stackMachine name .double).add (DraftInstruction.block "return" "S" "return i0;")

/-- File names that do not depend on the machine. -/
def sharedNames : Conventions :=
  { engineFile := "engine.rs", declFile := "decl.rs", glueFile := "glue.rs" }

theorem exists_returnOnly {name : String}
    (h : ((returnOnly name).build.1.any fun d => d.name = name && decide d.EvenMargins) = true)
    (hpaths : (Artifact.all.map fun a => joinPath "out" (sharedNames.fileName a name))
      = ["out/engine.rs", "out/decl.rs", "out/glue.rs"]) :
    ∃ g engine decl glue, Generation.ofDraft (returnOnly name) sharedNames = .ok g ∧
      targets "out" [g]
        = [("out/engine.rs", engine), ("out/decl.rs", decl), ("out/glue.rs", glue)] ∧
      ∃ more, engine = "// @generated by stackgen from the `" ++ name ++ more := by
  cases hbuild : (returnOnly name).build with
  | mk built log =>
    rw [hbuild] at h
    cases built with
    | none => cases h
    | some d =>
      obtain ⟨rfl, heven⟩ : d.name = name ∧ d.EvenMargins := by simpa using h
      obtain ⟨e, he⟩ :=
        (Emission.needs_ofDescriptor (Draft.built_of_build hbuild) sharedNames).ok_iff.mpr heven
      have hg : Generation.ofDraft (returnOnly d.name) sharedNames = .ok ⟨d, e, e.fingerprint⟩ := by
        rw [Generation.ofDraft, hbuild]
        simp only [Generation.ofDescriptor, he]
        rfl
      obtain ⟨engine, decl, glue, hfiles, hengine, hdecl, hglue⟩ :=
        Emission.files_of_ofDescriptor he
      obtain ⟨items, hitems, rfl⟩ := Emission.file_eq_ok_iff.mp hengine
      obtain ⟨decls, -, rfl⟩ := Emission.file_eq_ok_iff.mp hdecl
      obtain ⟨glues, -, rfl⟩ := Emission.file_eq_ok_iff.mp hglue
      refine ⟨_, Layout.textOf items, Layout.textOf decls, Layout.textOf glues, hg, ?_,
        Emission.exists_text hitems⟩
      simp only [Artifact.all, List.map_cons, List.map_nil, List.cons.injEq, and_true] at hpaths
      simp [targets, hfiles, hpaths]

/-- A disk with one directory. -/
def madeOut : Disk := ⟨[(["out"], .directory)]⟩

/-- The files in it, and where they are. -/
def places : List (String × List String) :=
  [("out/engine.rs", ["out", "engine.rs"]), ("out/decl.rs", ["out", "decl.rs"]),
   ("out/glue.rs", ["out", "glue.rs"]), ("out/manifest.json", ["out", "manifest.json"])]

theorem reaches_places : ∀ p ∈ places, madeOut.Reaches p.1 p.2 ∧ madeOut.find? p.2 = none := by
  have hall : (places.all fun p => (madeOut.locate p.1).toOption = some (.entry p.2) &&
      !Disk.isClosed p.1 && madeOut.find? p.2 = none) = true := by
    decide +kernel
  intro p hp
  have hp := List.all_eq_true.mp hall p hp
  simp only [Bool.and_eq_true, decide_eq_true_eq, Bool.not_eq_true'] at hp
  exact ⟨⟨eq_ok_of_toOption hp.1.1, hp.1.2⟩, hp.2⟩

theorem exists_written_out {gs : List Generation}
    (h : ∀ f ∈ outputs "out" gs, ∃ location, (f.1, location) ∈ places) :
    ∃ statuses d', onDisk (writeArtifacts "out" gs) {} = (.ok statuses, d') ∧
      ∀ p ∈ places, d'.Reaches p.1 p.2 := by
  have hmade : Disk.after (FileSystem.makeDirectories "out") ({} : Disk) = (.ok (), madeOut) := rfl
  have hwritable : Writable madeOut (outputs "out" gs) := by
    intro f hf
    obtain ⟨location, hlocation⟩ := h f hf
    obtain ⟨hreaches, hfind⟩ := reaches_places _ hlocation
    exact ⟨location, hreaches, by simp [hfind]⟩
  obtain ⟨statuses, d', hwrite, hwithin⟩ := exists_written hmade hwritable
  exact ⟨statuses, d', hwrite, fun p hp => (reaches_places p hp).1.within hwithin⟩

/-- Files that have been written are found again, by a check and by writing them once more, exactly
when those that lead to one place have one text. -/
theorem written_files_found_iff {directory : String} {gs : List Generation} {d d' : Disk}
    {statuses : List (String × FileStatus)}
    (h : onDisk (writeArtifacts directory gs) d = (.ok statuses, d')) :
    (Present d' (targets directory gs) ↔ Agree d' (outputs directory gs)) ∧
    (∃ stale, onDisk (checkArtifacts directory gs) d' = (.ok stale, d') ∧
      (stale = [] ↔ Agree d' (outputs directory gs))) ∧
    ∃ again d'', onDisk (writeArtifacts directory gs) d' = (.ok again, d'') ∧
      again.map Prod.fst = (outputs directory gs).map Prod.fst ∧
      ((∀ s ∈ again, s.2 = .unchanged) ↔ Agree d' (outputs directory gs)) ∧
      (Agree d' (outputs directory gs) → d'' = d') :=
  ⟨present_targets_iff h, exists_checked h, exists_rewritten h⟩

/-- One machine, whose files lead to different places. -/
theorem written_files_found_iff_alone :
    ∃ g statuses d' again, Generation.ofDraft (returnOnly "a") sharedNames = .ok g ∧
      onDisk (writeArtifacts "out" [g]) {} = (.ok statuses, d') ∧
      onDisk (checkArtifacts "out" [g]) d' = (.ok [], d') ∧
      onDisk (writeArtifacts "out" [g]) d' = (.ok again, d') ∧
      ∀ s ∈ again, s.2 = .unchanged := by
  obtain ⟨g, engine, decl, glue, hg, htargets, -⟩ :=
    @exists_returnOnly "a" (by decide +kernel) (by decide +kernel)
  have hmanifest : joinPath "out" manifestName = "out/manifest.json" := by decide +kernel
  have houtputs : outputs "out" [g] = [("out/engine.rs", engine), ("out/decl.rs", decl),
      ("out/glue.rs", glue), ("out/manifest.json", manifestText [g])] := by
    rw [outputs, htargets, hmanifest]
    rfl
  obtain ⟨statuses, d', hwrite, hreaches⟩ := @exists_written_out [g] (by simp [houtputs, places])
  have hagree : Agree d' (outputs "out" [g]) := by
    have hpaths : (outputs "out" [g]).map Prod.fst = places.map Prod.fst := by
      rw [houtputs]
      rfl
    have hmem : ∀ path ∈ places.map Prod.fst, (path, (places.lookup path).getD []) ∈ places := by
      decide
    refine agree_of_nodup (fun path => (places.lookup path).getD []) ?_ ?_
    · intro path hpath
      rw [hpaths] at hpath
      exact hreaches (path, (places.lookup path).getD []) (hmem path hpath)
    · rw [hpaths]
      decide
  obtain ⟨-, ⟨stale, hstale, hnone⟩, again, d'', hagain, -, hunchanged, hsame⟩ :=
    written_files_found_iff hwrite
  obtain rfl := hnone.mpr hagree
  obtain rfl := hsame hagree
  exact ⟨g, statuses, _, again, hg, hwrite, hstale, hagain, hunchanged.mpr hagree⟩

/-- Two machines, whose files lead to the same places: what is written for the one is gone when the
other has been written, so it is stale at once and is written each time. -/
theorem shared_files_stay_stale :
    ∃ g g' statuses d' stale again d'',
      Generation.ofDraft (returnOnly "a") sharedNames = .ok g ∧
      Generation.ofDraft (returnOnly "b") sharedNames = .ok g' ∧
      onDisk (writeArtifacts "out" [g, g']) {} = (.ok statuses, d') ∧
      ¬Present d' (targets "out" [g, g']) ∧
      onDisk (checkArtifacts "out" [g, g']) d' = (.ok stale, d') ∧ stale ≠ [] ∧
      onDisk (writeArtifacts "out" [g, g']) d' = (.ok again, d'') ∧
      ∃ s ∈ again, s.2 = .written := by
  obtain ⟨g, engine, decl, glue, hg, htargets, more, hengine⟩ :=
    @exists_returnOnly "a" (by decide +kernel) (by decide +kernel)
  obtain ⟨g', engine', decl', glue', hg', htargets', more', hengine'⟩ :=
    @exists_returnOnly "b" (by decide +kernel) (by decide +kernel)
  have hmanifest : joinPath "out" manifestName = "out/manifest.json" := by decide +kernel
  have houtputs : outputs "out" [g, g'] = [("out/engine.rs", engine), ("out/decl.rs", decl),
      ("out/glue.rs", glue), ("out/engine.rs", engine'), ("out/decl.rs", decl'),
      ("out/glue.rs", glue'), ("out/manifest.json", manifestText [g, g'])] := by
    rw [outputs, targets_cons, htargets, htargets', hmanifest]
    rfl
  obtain ⟨statuses, d', hwrite, hreaches⟩ := @exists_written_out [g, g'] (by simp [houtputs, places])
  have hdiffer : engine ≠ engine' := by
    intro heq
    rw [hengine, hengine', String.append_assoc, String.append_assoc] at heq
    simpa using congrArg String.toList heq
  have hdisagree : ¬Agree d' (outputs "out" [g, g']) := by
    intro hagree
    have hreaches := hreaches ("out/engine.rs", ["out", "engine.rs"]) (by simp [places])
    exact hdiffer (hagree ("out/engine.rs", engine) (by simp [houtputs]) ("out/engine.rs", engine')
      (by simp [houtputs]) _ hreaches hreaches)
  obtain ⟨stale, hstale, hnone⟩ := exists_checked hwrite
  obtain ⟨again, d'', hagain, -, hunchanged, -⟩ := exists_rewritten hwrite
  refine ⟨g, g', statuses, d', stale, again, d'', hg, hg', hwrite,
    mt (present_targets_iff hwrite).mp hdisagree, hstale, mt hnone.mp hdisagree, hagain, ?_⟩
  by_contra hnever
  refine hdisagree (hunchanged.mp fun s hs => ?_)
  cases hstatus : s.2 with
  | unchanged => rfl
  | written => exact absurd ⟨s, hs, hstatus⟩ hnever

end Command
end StackForge
