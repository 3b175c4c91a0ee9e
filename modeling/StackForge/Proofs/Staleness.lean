import StackForge.Proofs.Written

/-!
Checking and writing. A check looks at all files on one disk, while files are written one after
another and each is compared with what the ones before it have left. Up to the first file that is
written both see the same disk, so either finds all files in place or neither does.
-/
namespace StackForge

namespace Disk

/-- The directory of a path is there. The empty path stands for the root. -/
def HasDirectory (d : Disk) (path : String) : Prop := path = "" ∨ d.isDirectory path = true

theorem makeDirectories_of_hasDirectory {d : Disk} {path : String} (h : d.HasDirectory path) :
    after (FileSystem.makeDirectories path) d = (.ok (), d) := by
  rcases h with rfl | h
  · rfl
  · unfold FileSystem.makeDirectories
    split
    · rw [after_pure]
    · simp [FileSystem.makeFirst, ensureDirectory_of_isDirectory h]

end Disk

namespace Command

variable {d d' : Disk} {files : List (String × String)} {statuses : List (String × FileStatus)}

/-- A file that has been written could be written, and what can be written stays the same. -/
theorem writable_of_writeIfChanged {path text : String} {status : FileStatus}
    (h : onDisk (writeIfChanged path text) d = (.ok status, d')) :
    Writable d [(path, text)] ∧ ∀ files, Writable d' files ↔ Writable d files := by
  rcases writeIfChanged_cases h with ⟨-, rfl, hread⟩ | ⟨-, -, location, hpath, hfree, rfl⟩
  · obtain ⟨location, hpath, hfind⟩ := Disk.read_eq_ok_iff.mp hread
    refine ⟨?_, fun _ => Iff.rfl⟩
    simpa [Writable] using ⟨location, hpath, by simp [hfind]⟩
  · refine ⟨?_, fun _ => writable_insert_iff text hpath hfree⟩
    simpa [Writable] using ⟨location, hpath, hfree⟩

theorem writable_of_writeAll (h : onDisk (writeAll files) d = (.ok statuses, d')) :
    Writable d files ∧ ∀ others, Writable d' others ↔ Writable d others := by
  induction files generalizing d statuses with
  | nil =>
    cases h
    exact ⟨by simp [Writable], fun _ => Iff.rfl⟩
  | cons f rest ih =>
    obtain ⟨path, text⟩ := f
    obtain ⟨status, d₁, more, hfirst, hrest, -⟩ := exists_of_writeAll_cons h
    obtain ⟨hfile, hkept⟩ := writable_of_writeIfChanged hfirst
    obtain ⟨hothers, hkept'⟩ := ih hrest
    refine ⟨?_, fun others => (hkept' others).trans (hkept others)⟩
    exact List.forall_mem_cons.mpr
      ⟨hfile (path, text) List.mem_cons_self, (hkept rest).mp hothers⟩

/-- A file that can be written can be read, or is not there. -/
theorem Writable.read (h : Writable d files) :
    ∀ f ∈ files, (∃ stored, d.read f.1 = .ok stored) ∨ d.read f.1 = .error .notFound := by
  intro f hf
  obtain ⟨location, hpath, hfree⟩ := h f hf
  cases hfind : d.find? location with
  | none => exact .inr (Disk.read_of_none hpath hfind)
  | some node =>
    cases node with
    | directory => exact absurd hfind hfree
    | file stored => exact .inl ⟨stored, Disk.read_eq_ok_iff.mpr ⟨location, hpath, hfind⟩⟩

/-- Where nothing goes wrong, a check finds no stale file exactly when writing leaves every file
alone, and then the disk stays as it is. -/
theorem exists_checked_written (h : Writable d files) :
    ∃ stale statuses d', onDisk (staleAmong files) d = (.ok stale, d) ∧
      onDisk (writeAll files) d = (.ok statuses, d') ∧
      statuses.map Prod.fst = files.map Prod.fst ∧
      (stale = [] ↔ ∀ s ∈ statuses, s.2 = .unchanged) ∧ (stale = [] → d' = d) := by
  obtain ⟨stale, hcheck, hclean⟩ := exists_staleAmong h.read
  obtain ⟨statuses, d', hwrite, hpaths, hunchanged, hsame⟩ := exists_writeAll h
  exact ⟨stale, statuses, d', hcheck, hwrite, hpaths, hclean.trans hunchanged.symm,
    fun hstale => hsame (hclean.mp hstale)⟩

/-- Writing one file leaves all other places as they are. -/
theorem find?_of_ne_of_writeIfChanged {path text : String} {status : FileStatus}
    (h : onDisk (writeIfChanged path text) d = (.ok status, d')) {location : List String}
    (hother : ¬d.Reaches path location) : d'.find? location = d.find? location := by
  rcases writeIfChanged_cases h with ⟨-, rfl, -⟩ | ⟨-, -, place, hpath, -, rfl⟩
  · rfl
  · refine Disk.find?_insert_of_ne d _ ?_
    rintro rfl
    exact hother hpath

variable {directory : String} {gs : List Generation}

theorem writeArtifacts_of_hasDirectory (hdir : d.HasDirectory directory) :
    onDisk (writeArtifacts directory gs) d = onDisk (writeAll (outputs directory gs)) d := by
  rw [writeArtifacts_eq, onDisk_bind
    (onDisk_onFile directory (Disk.makeDirectories_of_hasDirectory hdir))]

/-- Writing goes through exactly when every file can be written on the disk as it was. -/
theorem exists_writeArtifacts_iff (hdir : d.HasDirectory directory) :
    (∃ statuses d', onDisk (writeArtifacts directory gs) d = (.ok statuses, d')) ↔
      Writable d (outputs directory gs) := by
  rw [writeArtifacts_of_hasDirectory hdir]
  constructor
  · rintro ⟨statuses, d', h⟩
    exact (writable_of_writeAll h).1
  · intro h
    obtain ⟨statuses, d', hwrite, -⟩ := exists_writeAll h
    exact ⟨statuses, d', hwrite⟩

/-- In a directory that is there, all files can be written, on the disk as it is, exactly when
writing meets no fault. Then the check meets none either; it finds no stale file exactly when every
source text is reported as unchanged by writing, also where some of them lead to one place; and in
that case writing changes nothing but the place of the manifest. -/
theorem check_agrees_with_write (hdir : d.HasDirectory directory) :
    ((∃ statuses d', onDisk (writeArtifacts directory gs) d = (.ok statuses, d')) ↔
      Writable d (outputs directory gs)) ∧
    (Writable d (outputs directory gs) →
      ∃ stale written status d', onDisk (checkArtifacts directory gs) d = (.ok stale, d) ∧
        onDisk (writeArtifacts directory gs) d
          = (.ok (written ++ [(joinPath directory manifestName, status)]), d') ∧
        written.map Prod.fst = (targets directory gs).map Prod.fst ∧
        (stale = [] ↔ ∀ s ∈ written, s.2 = .unchanged) ∧
        (stale = [] → ∀ location, ¬d.Reaches (joinPath directory manifestName) location →
          d'.find? location = d.find? location)) := by
  refine ⟨exists_writeArtifacts_iff hdir, fun h => ?_⟩
  obtain ⟨hfiles, hmanifest⟩ := List.forall_mem_append.mp h
  obtain ⟨stale, written, d₁, hcheck, hwrite, hpaths, hclean, hsame⟩ :=
    exists_checked_written hfiles
  -- the manifest is written on the disk that the source texts leave
  obtain ⟨last, d', hlast, -⟩ := exists_writeAll (((writable_of_writeAll hwrite).2 _).mpr hmanifest)
  obtain ⟨status, d₂, more, hfirst, hnone, rfl⟩ := exists_of_writeAll_cons hlast
  cases hnone
  refine ⟨stale, written, status, d', hcheck, ?_, hpaths, hclean, ?_⟩
  · rw [writeArtifacts_of_hasDirectory hdir, outputs, writeAll_append, onDisk_bind hwrite,
      onDisk_bind hlast, onDisk_pure]
  · intro hstale location hother
    rw [hsame hstale] at hfirst
    exact find?_of_ne_of_writeIfChanged hfirst hother

/-- A directory with three source texts. -/
def filledOut (engine decl glue : String) : Disk :=
  ⟨[(["out"], .directory), (["out", "engine.rs"], .file engine),
    (["out", "decl.rs"], .file decl), (["out", "glue.rs"], .file glue)]⟩

theorem within_filledOut (engine decl glue : String) :
    madeOut.Within (filledOut engine decl glue) := by
  intro location h
  by_cases hroot : location = []
  · simp [Disk.find?, hroot]
  · have hout : location = ["out"] := by
      by_contra hne
      have hmissing : (location == ["out"]) = false := by simpa using hne
      simp [Disk.find?, madeOut, hroot, List.lookup_cons, hmissing] at h
    simp [Disk.find?, filledOut, hout]

/-- One machine given twice, so that every place is shared, with its source texts in the
directory. -/
theorem check_agrees_with_write_twice :
    ∃ g d written status d', Generation.ofDraft (returnOnly "a") sharedNames = .ok g ∧
      d.HasDirectory "out" ∧ Writable d (outputs "out" [g, g]) ∧
      onDisk (checkArtifacts "out" [g, g]) d = (.ok [], d) ∧
      onDisk (writeArtifacts "out" [g, g]) d
        = (.ok (written ++ [("out/manifest.json", status)]), d') ∧
      written.map Prod.fst = ["out/engine.rs", "out/decl.rs", "out/glue.rs", "out/engine.rs",
        "out/decl.rs", "out/glue.rs"] ∧
      (∀ s ∈ written, s.2 = .unchanged) ∧
      d'.find? ["out", "engine.rs"] = d.find? ["out", "engine.rs"] := by
  obtain ⟨g, engine, decl, glue, hg, htargets, -⟩ :=
    @exists_returnOnly "a" (by decide +kernel) (by decide +kernel)
  have hmanifest : joinPath "out" manifestName = "out/manifest.json" := by decide +kernel
  have hfiles : targets "out" [g, g] = [("out/engine.rs", engine), ("out/decl.rs", decl),
      ("out/glue.rs", glue), ("out/engine.rs", engine), ("out/decl.rs", decl),
      ("out/glue.rs", glue)] := by
    rw [targets_cons, htargets]
    rfl
  have hwithin := within_filledOut engine decl glue
  generalize hd : filledOut engine decl glue = d at hwithin
  have hreaches : ∀ p ∈ places, d.Reaches p.1 p.2 :=
    fun p hp => (reaches_places p hp).1.within hwithin
  have hdir : d.HasDirectory "out" := .inr (Disk.isDirectory_within hwithin (by decide +kernel))
  have hwritable : Writable d (outputs "out" [g, g]) := by
    have hfree : ∀ p ∈ places, d.find? p.2 ≠ some .directory := by
      simp [places, ← hd, filledOut, Disk.find?, List.lookup_cons]
    have hplaces : ∀ f ∈ outputs "out" [g, g], ∃ location, (f.1, location) ∈ places := by
      simp [outputs, hfiles, hmanifest, places]
    intro f hf
    obtain ⟨location, hlocation⟩ := hplaces f hf
    exact ⟨location, hreaches _ hlocation, hfree _ hlocation⟩
  have hpresent : Present d (targets "out" [g, g]) := by
    have hfind : ∀ f ∈ targets "out" [g, g],
        ∃ location, (f.1, location) ∈ places ∧ d.find? location = some (.file f.2) := by
      simp [hfiles, places, ← hd, filledOut, Disk.find?, List.lookup_cons]
    intro f hf
    obtain ⟨location, hlocation, hfile⟩ := hfind f hf
    exact Disk.read_eq_ok_iff.mpr ⟨location, hreaches _ hlocation, hfile⟩
  obtain ⟨stale, written, status, d', hcheck, hwrite, hpaths, hclean, hkept⟩ :=
    (check_agrees_with_write hdir).2 hwritable
  obtain rfl : stale = [] := by
    obtain ⟨found, hfound, hnone⟩ := exists_staleAmong fun f hf =>
      hwritable.read f (List.mem_append_left _ hf)
    have hsame := hcheck.symm.trans hfound
    cases hsame
    exact hnone.mpr hpresent
  rw [hmanifest] at hwrite hkept
  rw [hfiles] at hpaths
  refine ⟨g, d, written, status, d', hg, hdir, hwritable, hcheck, hwrite, hpaths, hclean.mp rfl,
    hkept rfl _ fun hshared => ?_⟩
  have hplace := hshared.unique (hreaches ("out/manifest.json", ["out", "manifest.json"])
    (by simp [places]))
  simp at hplace

end Command
end StackForge
