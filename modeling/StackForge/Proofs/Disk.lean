import StackForge.Disk

/-!
Paths on a disk. Where a path leads depends on the directories only, and stays as directories are
added. Reading, writing and making directories are then said by locations.
-/
namespace StackForge.Disk

/-- Every directory of the one disk is a directory of the other. -/
def Within (d d' : Disk) : Prop :=
  ∀ location, d.find? location = some .directory → d'.find? location = some .directory

theorem Within.refl (d : Disk) : d.Within d := fun _ h => h

theorem Within.trans {d d' d'' : Disk} (h : d.Within d') (h' : d'.Within d'') : d.Within d'' :=
  fun location hlocation => h' location (h location hlocation)

/-- A node where no directory is takes no directory away. -/
theorem within_insert {d : Disk} {location : List String} (node : Node)
    (h : d.find? location ≠ some .directory) : d.Within (d.insert location node) := by
  intro other hother
  have hne : other ≠ location := by
    rintro rfl
    exact h hother
  rw [find?_insert_of_ne d node hne, hother]

/-- A file is no directory. -/
theorem within_of_insert {d : Disk} {location : List String} (text : String)
    (h : location ≠ []) : (d.insert location (.file text)).Within d := by
  intro other hother
  have hne : other ≠ location := by
    rintro rfl
    rw [find?_insert_self d (.file text) h] at hother
    cases hother
  rwa [find?_insert_of_ne d _ hne] at hother

section Following

variable {d d' : Disk} (hwithin : d.Within d')
include hwithin

theorem Within.enter {here next : List String} {name : String}
    (h : d.enter here name = .ok next) : d'.enter here name = .ok next := by
  unfold Disk.enter at h ⊢
  by_cases hdot : name = "."
  · rwa [if_pos hdot] at h ⊢
  by_cases hup : name = ".."
  · rwa [if_neg hdot, if_pos hup] at h ⊢
  by_cases hlong : maxName < name.utf8ByteSize
  · rwa [if_neg hdot, if_neg hup, if_pos hlong] at h ⊢
  rw [if_neg hdot, if_neg hup, if_neg hlong] at h ⊢
  split at h
  · rename_i hfind
    rwa [hwithin _ hfind]
  · cases h
  · cases h

theorem Within.follow {here names : List String} {destination : Destination}
    (h : d.follow here names = .ok destination) : d'.follow here names = .ok destination := by
  induction names generalizing here with
  | nil => exact h
  | cons name rest ih =>
    unfold Disk.follow at h ⊢
    by_cases hlast : (rest.isEmpty && name ≠ "." && name ≠ "..") = true
    · rwa [if_pos hlast] at h ⊢
    · rw [if_neg hlast] at h ⊢
      split at h
      · rename_i next hnext
        rw [hwithin.enter hnext]
        exact ih h
      · cases h

/-- Where a path leads stays as directories are added. -/
theorem Within.locate {path : String} {destination : Destination}
    (h : d.locate path = .ok destination) : d'.locate path = .ok destination := by
  unfold Disk.locate at h ⊢
  by_cases hzero : path.toList.contains '\x00' = true
  · rwa [if_pos hzero] at h ⊢
  by_cases hempty : path.isEmpty = true
  · rwa [if_neg hzero, if_pos hempty] at h ⊢
  by_cases hlong : maxPath < path.utf8ByteSize
  · rwa [if_neg hzero, if_neg hempty, if_pos hlong] at h ⊢
  rw [if_neg hzero, if_neg hempty, if_neg hlong] at h ⊢
  exact hwithin.follow h

end Following

/-- A path that leads to a place where a file may be. -/
def Reaches (d : Disk) (path : String) (location : List String) : Prop :=
  d.locate path = .ok (.entry location) ∧ isClosed path = false

theorem Reaches.within {d d' : Disk} {path : String} {location : List String}
    (h : d.Reaches path location) (hwithin : d.Within d') : d'.Reaches path location :=
  ⟨hwithin.locate h.1, h.2⟩

theorem Reaches.unique {d : Disk} {path : String} {location location' : List String}
    (h : d.Reaches path location) (h' : d.Reaches path location') : location = location' := by
  have heq := h.1.symm.trans h'.1
  cases heq
  rfl

theorem ne_nil_of_follow {d : Disk} {here names location : List String}
    (h : d.follow here names = .ok (.entry location)) : location ≠ [] := by
  induction names generalizing here with
  | nil => cases h
  | cons name rest ih =>
    unfold follow at h
    split at h
    · split at h
      · cases h
      · cases h
        simp
    · split at h
      · exact ih h
      · cases h

theorem ne_nil_of_locate {d : Disk} {path : String} {location : List String}
    (h : d.locate path = .ok (.entry location)) : location ≠ [] := by
  unfold locate at h
  split at h
  · cases h
  split at h
  · cases h
  split at h
  · cases h
  · exact ne_nil_of_follow h

theorem read_of_none {d : Disk} {path : String} {location : List String}
    (h : d.Reaches path location) (hfind : d.find? location = none) :
    d.read path = .error .notFound := by
  simp [read, h.1, hfind, bind, Except.bind]
  rfl

/-- A file is read where its path leads. -/
theorem read_eq_ok_iff {d : Disk} {path text : String} :
    d.read path = .ok text ↔
      ∃ location, d.Reaches path location ∧ d.find? location = some (.file text) := by
  constructor
  · intro h
    cases hlocate : d.locate path with
    | error fault =>
      rw [read, hlocate] at h
      cases h
    | ok destination =>
      rw [read, hlocate] at h
      simp only [bind, Except.bind] at h
      split at h
      · cases h
      · rename_i location
        split at h
        · cases h
        · cases h
        · rename_i stored hfind
          split at h
          · cases h
          · rename_i hclosed
            cases h
            exact ⟨location, ⟨hlocate, by simpa using hclosed⟩, hfind⟩
  · rintro ⟨location, ⟨hlocate, hclosed⟩, hfind⟩
    simp [read, hlocate, hfind, hclosed, bind, Except.bind]
    rfl

/-- A file is written where its path leads, unless a directory is there. -/
theorem write_eq_ok_iff {d d' : Disk} {path text : String} :
    d.write path text = .ok d' ↔
      ∃ location, d.Reaches path location ∧ d.find? location ≠ some .directory ∧
        d' = d.insert location (.file text) := by
  constructor
  · intro h
    cases hlocate : d.locate path with
    | error fault =>
      rw [write, hlocate] at h
      cases h
    | ok destination =>
      rw [write, hlocate] at h
      simp only [bind, Except.bind] at h
      split at h
      · cases h
      · rename_i location
        split at h
        · cases h
        · rename_i hfree
          cases h
          simp only [Bool.or_eq_true, decide_eq_true_eq, not_or, Bool.not_eq_true] at hfree
          exact ⟨location, ⟨hlocate, hfree.1⟩, hfree.2, rfl⟩
  · rintro ⟨location, ⟨hlocate, hclosed⟩, hfree, rfl⟩
    simp [write, hlocate, hfree, hclosed, bind, Except.bind]
    rfl

/-- A path means a directory if it leads to one. -/
theorem isDirectory_iff {d : Disk} {path : String} :
    d.isDirectory path = true ↔
      (∃ location, d.locate path = .ok (.directory location)) ∨
      ∃ location, d.locate path = .ok (.entry location) ∧ d.find? location = some .directory := by
  rw [isDirectory, directory]
  cases hlocate : d.locate path with
  | error fault => simp [bind, Except.bind, Except.isOk, Except.toBool]
  | ok destination =>
    cases destination with
    | directory location => simp [bind, Except.bind, Except.isOk, Except.toBool, pure, Except.pure]
    | entry location =>
      cases hfind : d.find? location with
      | none => simp [bind, Except.bind, Except.isOk, Except.toBool, hfind, throw, throwThe,
          MonadExceptOf.throw]
      | some node =>
        cases node <;> simp [bind, Except.bind, Except.isOk, Except.toBool, hfind, throw, throwThe,
          MonadExceptOf.throw, pure, Except.pure]

theorem isDirectory_within {d d' : Disk} (hwithin : d.Within d') {path : String}
    (h : d.isDirectory path = true) : d'.isDirectory path = true := by
  rcases isDirectory_iff.mp h with ⟨location, hlocate⟩ | ⟨location, hlocate, hfind⟩
  · exact isDirectory_iff.mpr (.inl ⟨location, hwithin.locate hlocate⟩)
  · exact isDirectory_iff.mpr (.inr ⟨location, hwithin.locate hlocate, hwithin location hfind⟩)

theorem makeDirectory_of_isDirectory {d : Disk} {path : String} (h : d.isDirectory path = true) :
    d.makeDirectory path = .error .alreadyExists := by
  rcases isDirectory_iff.mp h with ⟨location, hlocate⟩ | ⟨location, hlocate, hfind⟩
  · rw [makeDirectory, hlocate]
    rfl
  · simp [makeDirectory, hlocate, hfind, bind, Except.bind]
    rfl

theorem isDirectory_of_makeDirectory {d d' : Disk} {path : String}
    (h : d.makeDirectory path = .ok d') : d'.isDirectory path = true := by
  cases hlocate : d.locate path with
  | error fault =>
    rw [makeDirectory, hlocate] at h
    cases h
  | ok destination =>
    rw [makeDirectory, hlocate] at h
    simp only [bind, Except.bind] at h
    split at h
    · cases h
    · rename_i location
      split at h
      · cases h
      · rename_i hfree
        cases h
        have hfind : d.find? location ≠ some .directory := by
          intro hfind
          simp [hfind] at hfree
        exact isDirectory_iff.mpr (.inr ⟨location, (within_insert .directory hfind).locate hlocate,
          find?_insert_self d .directory (ne_nil_of_locate hlocate)⟩)

/-- What a computation on a disk gives, and the disk that it leaves. -/
def after {α : Type} (x : StateM Disk α) (d : Disk) : α × Disk := x.run d

@[simp] theorem after_pure {α : Type} (a : α) (d : Disk) : after (pure a) d = (a, d) := rfl

@[simp] theorem after_bind {α β : Type} (x : StateM Disk α) (f : α → StateM Disk β) (d : Disk) :
    after (x >>= f) d = after (f (after x d).1) (after x d).2 := rfl

theorem after_get (d : Disk) : after get d = (d, d) := rfl

theorem after_attempt_ok {change : Disk → Except FileFault Disk} {d d' : Disk}
    (h : change d = .ok d') : after (attempt change) d = (.ok (), d') := by
  rw [attempt, after_bind, after_get, h]
  rfl

theorem after_attempt_error {change : Disk → Except FileFault Disk} {d : Disk} {fault : FileFault}
    (h : change d = .error fault) : after (attempt change) d = (.error fault, d) := by
  rw [attempt, after_bind, after_get, h]
  rfl

open FileSystem (ensureDirectory makeFirst makeDirectories)

theorem ensureDirectory_of_ok {d d' : Disk} {path : String} (h : d.makeDirectory path = .ok d') :
    after (ensureDirectory path) d = (.ok (), d') := by
  have hattempt : after (FileSystem.makeDirectory path) d = (.ok (), d') := after_attempt_ok h
  rw [ensureDirectory, after_bind, hattempt]
  rfl

theorem ensureDirectory_of_error {d : Disk} {path : String} {fault : FileFault}
    (h : d.makeDirectory path = .error fault) :
    after (ensureDirectory path) d
      = (if d.isDirectory path then .ok () else .error fault, d) := by
  have hattempt : after (FileSystem.makeDirectory path) d = (.error fault, d) :=
    after_attempt_error h
  rw [ensureDirectory, after_bind, hattempt]
  rfl

theorem ensureDirectory_of_isDirectory {d : Disk} {path : String}
    (h : d.isDirectory path = true) : after (ensureDirectory path) d = (.ok (), d) := by
  rw [ensureDirectory_of_error (makeDirectory_of_isDirectory h), if_pos h]

theorem isDirectory_of_ensureDirectory {d d' : Disk} {path : String}
    (h : after (ensureDirectory path) d = (.ok (), d')) : d'.isDirectory path = true := by
  cases hmake : d.makeDirectory path with
  | ok made =>
    rw [ensureDirectory_of_ok hmake] at h
    cases h
    exact isDirectory_of_makeDirectory hmake
  | error fault =>
    rw [ensureDirectory_of_error hmake] at h
    by_cases hthere : d.isDirectory path = true
    · rw [if_pos hthere] at h
      cases h
      exact hthere
    · rw [if_neg hthere] at h
      cases h

theorem isDirectory_of_makeFirst {d d' : Disk} {path : String} {above : List String}
    (h : after (makeFirst (path :: above)) d = (.ok (), d')) : d'.isDirectory path = true := by
  rw [makeFirst, after_bind] at h
  split at h
  · rw [after_bind] at h
    split at h
    · exact isDirectory_of_ensureDirectory h
    · cases h
  · exact isDirectory_of_ensureDirectory h

/-- Directories that have been made are there to stay, and are not made again. -/
theorem makeDirectories_again {d made d' : Disk} {path : String}
    (h : after (makeDirectories path) d = (.ok (), made)) (hwithin : made.Within d') :
    after (makeDirectories path) d' = (.ok (), d') := by
  unfold makeDirectories at h ⊢
  by_cases hempty : path.isEmpty = true
  · rw [if_pos hempty, after_pure]
  · rw [if_neg hempty] at h ⊢
    have hthere := isDirectory_within hwithin (isDirectory_of_makeFirst h)
    simp [makeFirst, ensureDirectory_of_isDirectory hthere]

end StackForge.Disk
