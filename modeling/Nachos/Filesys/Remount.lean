/-
  What is kept when Nachos is started again on the same disk.

  A run of `fsSys` is one SESSION: it begins with the formatting.  A later session begins with
  `FileSystem(false)` instead: the two files of the file system are opened from the headers in sectors 0
  and 1, and nothing else is known; the open files of the session before are gone.

  1. **Mounting** (`Fs.Holds.remount`) — on a disk that a session left, the two files are opened, and what they
     are is what the formatting had made of them, so the invariant of `Session` holds in the new session.

  2. **Durability** (`files_survive_remount`) — in every run of any number of sessions every call that a user may
     make returns and is a step of the map, and a new session begins with the map of the old one.
-/
import Nachos.Filesys.FileMap

namespace Nachos

/-! ## Sessions -/

/-- `FileSystem::FileSystem(false)` on the disk of a state; no file is open then. -/
def Fs.remount (s : Fs) (mem : Nat → Bytes) : Option Fs :=
  (FileSystem.openFiles s.disk mem).map fun system => ⟨system, s.disk, fun _ => none, 0⟩

/-- A call, or the start of a new session. -/
inductive MountAct where
  | call (a : FsAct)
  | remount (mem : Nat → Bytes)

/-- The first session begins with the formatting. -/
def mountSys : Lts Fs MountAct where
  init := fsSys.init
  step s a s' :=
    match a with
    | .call a => ∃ out, s.step a = some (s', out)
    | .remount mem => s.remount mem = some s'

/-- Users may make the calls of `FsAct.Legal`; a session may end at any time. -/
def MountAct.Legal (s : Fs) : MountAct → Prop
  | call a => a.Legal s
  | remount _ => True

/-! ## Mounting -/

namespace Fs

variable {s s' : Fs} {files : Nat → Option FileRec}

/-- The two files of the file system are opened from their headers. -/
theorem openFiles_ready {disk : DiskFile} (hmap : (FileHeader.onDisk (DiskFile.blocks disk) freeMapSector).Describes
      freeMapFileSize freeMapSectors)
    (hdir : (FileHeader.onDisk (DiskFile.blocks disk) directorySector).Describes directoryFileSize directorySectors)
    (mem : Nat → Bytes) : ∃ system, FileSystem.openFiles disk mem = some system ∧ system.Ready := by
  obtain ⟨freeMapFile, hopen₁, hfile₁, -⟩ := OpenFile.new_spec (by decide) hmap (mem 0)
  obtain ⟨directoryFile, hopen₂, hfile₂, -⟩ := OpenFile.new_spec (by decide) hdir (mem 1)
  refine ⟨⟨freeMapFile, directoryFile⟩, ?_, hfile₁, hfile₂⟩
  simp only [FileSystem.openFiles, hopen₁, hopen₂, Option.bind_eq_bind, Option.bind_some]

/-- **A new session begins** with the files that are on the disk. -/
theorem Holds.remount (h : s.Holds files) (mem : Nat → Bytes) :
    ∃ s', s.remount mem = some s' ∧ s'.Holds files ∧
      s'.fileMap = ⟨s.fileMap.contents, fun _ => none, 0⟩ := by
  obtain ⟨system, hopen, hready⟩ := openFiles_ready h.shows.freeMapHdr h.shows.directoryHdr mem
  refine ⟨⟨system, s.disk, fun _ => none, 0⟩, ?_, ⟨hready, h.shows, ?_⟩, rfl⟩
  · rw [Fs.remount, hopen]
    rfl
  · intro k hd hh
    cases hh

/-- The invariant holds in every session. -/
theorem holds_of_mounts (h : (mountSys.restrict MountAct.Legal).Reach s) : ∃ files, s.Holds files := by
  refine Lts.Reach.invariant (I := fun s => ∃ files, s.Holds files) (fun s hinit => ?_)
    (fun s a s' _ hold hstep => ?_) h
  · exact ⟨_, holds_of_init hinit⟩
  · obtain ⟨files, hholds⟩ := hold
    obtain ⟨hlegal, hstep⟩ := hstep
    cases a with
    | call a =>
      obtain ⟨out, hs⟩ := hstep
      obtain ⟨files', hfs⟩ := hholds.step_cases (FsAct.Legal.safe hlegal) hs
      exact ⟨files', hfs.holds hholds⟩
    | remount mem =>
      obtain ⟨s₁, hmount, hholds₁, -⟩ := hholds.remount mem
      obtain rfl := Option.some.inj (hmount.symm.trans hstep)
      exact ⟨files, hholds₁⟩

/-- A session is part of a run of sessions. -/
theorem mounts_of_session (h : (fsSys.restrict FsAct.Legal).Reach s) :
    (mountSys.restrict MountAct.Legal).Reach s := by
  induction h with
  | init hinit => exact .init hinit
  | @step s s' a _ hs ih => exact .step (l := .call a) ih hs

end Fs

/-! ## Durability -/

/-- **Files survive the end of a session.** -/
theorem files_survive_remount {s : Fs} (h : (mountSys.restrict MountAct.Legal).Reach s) :
    (∀ a, a.Legal s → ∃ s' out, s.step a = some (s', out) ∧ MapStep s.fileMap a out s'.fileMap) ∧
      ∀ mem, ∃ s', s.remount mem = some s' ∧ s'.fileMap = ⟨s.fileMap.contents, fun _ => none, 0⟩ := by
  obtain ⟨files, hholds⟩ := Fs.holds_of_mounts h
  refine ⟨fun a ha => ?_, fun mem => ?_⟩
  · obtain ⟨s', out, hs⟩ := hholds.returns ha
    obtain ⟨files', hstep⟩ := hholds.step_cases ha.safe hs
    exact ⟨s', out, hs, hholds.mapStep ha hstep⟩
  · obtain ⟨s', hmount, -, hmap⟩ := hholds.remount mem
    exact ⟨s', hmount, hmap⟩

/-- The file that was written is there in a second session, which can open it. -/
theorem files_survive_remount_written :
    ∃ s, writtenFs.remount zeros = some s ∧ s.fileMap.contents = writtenFs.fileMap.contents ∧
      ∃ s' out, s.step (.openFile (letter 102) zeros) = some (s', out) ∧
        MapStep s.fileMap (.openFile (letter 102) zeros) out s'.fileMap := by
  have hreach := Fs.mounts_of_session writtenFs_reach
  obtain ⟨s, hmount, hmap⟩ := (files_survive_remount hreach).2 zeros
  have hreach' : (mountSys.restrict MountAct.Legal).Reach s :=
    .step (l := .remount zeros) hreach ⟨trivial, hmount⟩
  refine ⟨s, hmount, ?_, (files_survive_remount hreach').1 _ trivial⟩
  rw [hmap]

end Nachos
