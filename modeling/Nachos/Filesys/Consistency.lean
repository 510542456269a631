/-
  Consistency of the disk, and what an open file can do to other files.

  `Consistent` is read off the disk itself: the headers of the bitmap and of the directory are those in
  sectors 0 and 1, the two files are in the sectors that these headers list, and a file is an entry of
  the directory that is in use, with the header in its sector and the data sectors listed there.  The
  sectors are pairwise different, they are exactly those that the bitmap marks, and no two files have
  the same first nine characters.

  1. **Consistency** (`filesystem_consistent`) — in every run in which the sizes of new files are in range
     and no file is written before its start or beyond the `int`s (unless the code rejects the write at
     once), or after it was removed, the disk is consistent after every call, and `Remove` never stops at
     the `ASSERT` of `Deallocate`.

  2. **Other files** (`handle_safety`) — in such a run a write through an open file leaves the entry, the
     header, the data and the marks of every other file as they are.

  3. **`Create`** (`create_succeeds_iff`) — on a consistent disk it returns true IFF the name is new, there is an
     entry in the directory and there are enough sectors; if it returns false it has written nothing.

  The conditions of 1 and 2 are needed.  `WriteAt` checks a position against the end of the file only; with position
  -128 it asks for sector -1 of the file, and `dataSectors[-1]` is the field before the array, the NUMBER
  of sectors; a file of two sectors so writes to sector 2, the bitmap (`writeAt_negative`).  And an open
  file keeps the list of its sectors after `Remove` has given them away (`writeAt_removed`).
-/
import Nachos.Filesys.Session

namespace Nachos

/-! ## What is on a disk -/

/-- The bitmap, found through its header. -/
def freeMapOnDisk (store : Blocks sectorSize) : BitMap :=
  .ofBytes numSectors (store.array (FileHeader.onDisk store freeMapSector).sectors)

/-- The directory, found through its header. -/
def directoryOnDisk (store : Blocks sectorSize) : Directory :=
  ⟨numDirEntries, store.array (FileHeader.onDisk store directorySector).sectors⟩

/-- The sector of the header of a file. -/
def headerSector (store : Blocks sectorSize) (i : Nat) : Nat := ((directoryOnDisk store).sector i).toNat

/-- The sectors of a file: that of its header, and those that the header lists. -/
def fileSectors (store : Blocks sectorSize) (i : Nat) : List Nat :=
  headerSector store i :: (FileHeader.onDisk store (headerSector store i)).sectors

/-- The sets of sectors that are in use. -/
def sectorSets (store : Blocks sectorSize) : List (List Nat) :=
  [[freeMapSector, directorySector], (FileHeader.onDisk store freeMapSector).sectors,
      (FileHeader.onDisk store directorySector).sectors]
    ++ Pool.slots numDirEntries fun i =>
        if (directoryOnDisk store).inUse i then some (fileSectors store i) else none

/-- **The disk is consistent.** -/
structure Consistent (store : Blocks sectorSize) : Prop where
  /-- No sector is in two of the sets, or twice in one. -/
  nodup : (sectorSets store).flatten.Nodup
  /-- The bitmap marks the sectors in the sets. -/
  marked : ∀ n, n ∈ (freeMapOnDisk store).marked ↔ n ∈ (sectorSets store).flatten
  /-- The names are different. -/
  names : ∀ i < numDirEntries, ∀ j < numDirEntries, (directoryOnDisk store).inUse i = true →
    (directoryOnDisk store).inUse j = true → (directoryOnDisk store).key i = (directoryOnDisk store).key j →
    i = j

namespace Shows

variable {store store' : Blocks sectorSize} {files : Nat → Option FileRec} {i : Nat} {f : FileRec}

theorem freeMapOnDisk_eq (h : Shows store files) : freeMapOnDisk store = diskMap store := by
  rw [freeMapOnDisk, h.freeMapHdr.sectors_eq]
  rfl

theorem directoryOnDisk_eq (h : Shows store files) : directoryOnDisk store = diskDirectory store := by
  rw [directoryOnDisk, h.directoryHdr.sectors_eq]
  rfl

theorem headerSector_eq (h : Shows store files) (hf : files i = some f) : headerSector store i = f.header := by
  rw [headerSector, h.directoryOnDisk_eq, (h.lists.entry i (h.slots i f hf) f hf).2.2, Int.toNat_natCast]

theorem fileSectors_eq (h : Shows store files) (hf : files i = some f) : fileSectors store i = f.owns := by
  rw [fileSectors, h.headerSector_eq hf, (h.headers i f hf).sectors_eq]
  rfl

theorem sectorSets_eq (h : Shows store files) : sectorSets store = (Nachos.books store files).held := by
  rw [sectorSets, h.freeMapHdr.sectors_eq, h.directoryHdr.sectors_eq, h.directoryOnDisk_eq]
  refine congrArg (systemSectors ++ ·) (List.filterMap_congr fun i hi => ?_)
  rw [List.mem_range] at hi
  cases hf : files i with
  | none =>
    rw [h.lists.free i hi hf]
    rfl
  | some f =>
    rw [(h.lists.entry i hi f hf).1, h.fileSectors_eq hf]
    rfl

/-- A disk in order is consistent. -/
theorem consistent (h : Shows store files) : Consistent store := by
  refine ⟨?_, fun n => ?_, fun i hi j hj huse huse' hkey => ?_⟩
  · rw [h.sectorSets_eq]
    exact h.books.nodup
  · rw [h.freeMapOnDisk_eq, h.sectorSets_eq]
    exact h.books.used n
  · rw [h.directoryOnDisk_eq] at huse huse' hkey
    obtain ⟨f, hf, hfkey, -⟩ := h.lists.of_inUse hi huse
    obtain ⟨g, hg, hgkey, -⟩ := h.lists.of_inUse hj huse'
    exact h.distinct i j f g hf hg (hfkey.symm.trans (hkey.trans hgkey))

end Shows

/-! ## Consistency -/

namespace FsAct

/-- Sizes are in range, and files are used only as long as they were not removed. -/
def Allowed (s : Fs) : FsAct → Prop
  | create _ initialSize _ => 0 ≤ initialSize ∧ initialSize ≤ maxFileSize
  | readAt h _ _ _ _ | writeAt h _ _ _ _ | read h _ _ _ | write h _ _ _ =>
    ∀ hd, s.handles h = some hd → hd.removed = false
  | _ => True

/-- Files are written at positions in range, if the code does not reject the write. -/
def Placed (s : Fs) : FsAct → Prop
  | writeAt h _ numBytes position _ =>
    ∀ hd, s.handles h = some hd → hd.file.Rejected numBytes position ∨ InRange numBytes position
  | write h _ numBytes _ => ∀ hd, s.handles h = some hd →
    hd.file.Rejected numBytes hd.file.seekPosition ∨ InRange numBytes hd.file.seekPosition
  | _ => True

theorem Allowed.safe {s : Fs} {a : FsAct} (h : a.Allowed s) (hplaced : a.Placed s) : a.Safe s := by
  cases a with
  | create name initialSize mem => exact h
  | writeAt k from_ numBytes position mem | write k from_ numBytes mem =>
    exact fun hd hh => (hplaced hd hh).imp_right fun hin => ⟨h hd hh, hin⟩
  | _ => trivial

end FsAct

/-- **The file system stays consistent**, and `Remove` does not fail an `ASSERT`. -/
theorem filesystem_consistent {s : Fs} (h : (fsSys.restrict fun s a => a.Allowed s ∧ a.Placed s).Reach s) :
    Consistent (DiskFile.blocks s.disk) ∧ ∀ name mem, (s.system.remove s.disk name mem).isSome := by
  have hsafe : (fsSys.restrict FsAct.Safe).Reach s :=
    h.weaken fun s a hok => FsAct.Allowed.safe hok.1 hok.2
  obtain ⟨files, hholds⟩ := Fs.holds_of_reach hsafe
  refine ⟨hholds.shows.consistent, fun name mem => ?_⟩
  rcases FileSystem.remove_spec hholds.ready hholds.shows name mem with
    ⟨disk', i, f, -, -, hremove, -⟩ | ⟨-, hfail⟩
  · rw [hremove]
    rfl
  · rw [hfail]
    rfl

/-- A name of one letter. -/
def letter (c : UInt8) : Bytes := fun i => if i = 0 then c else 0

/-- Memory that holds zeros. -/
def zeros : Nat → Bytes := fun _ _ => 0

/-- There is a file `f` of 256 bytes, and it is open. -/
def openedFs : Fs := (bootFs.next (.create (letter 102) 256 zeros)).next (.openFile (letter 102) zeros)

/-- Bytes 100 to 155 of the file are written: parts of two sectors. -/
def writtenFs : Fs := openedFs.next (.writeAt 0 (fun _ => 7) 56 100 zeros)

/-- 128 zeros are written at position -128 of the file. -/
def spoiltFs : Fs := openedFs.next (.writeAt 0 (fun _ => 0) 128 (-128) zeros)

-- one evaluation for all that is needed of these runs
theorem openedFs_runs : (bootFs.step (.create (letter 102) 256 zeros)).isSome ∧
    ((bootFs.next (.create (letter 102) 256 zeros)).step (.openFile (letter 102) zeros)).isSome ∧
    (openedFs.handles 0).map (·.removed) = some false ∧
    (openedFs.step (.writeAt 0 (fun _ => 7) 56 100 zeros)).isSome ∧
    (openedFs.step (.writeAt 0 (fun _ => 0) 128 (-128) zeros)).isSome ∧
    (freeMapOnDisk (DiskFile.blocks spoiltFs.disk)).bit freeMapSector = false := by
  decide +kernel

theorem openedFs_removed {hd : Handle} (hh : openedFs.handles 0 = some hd) : hd.removed = false := by
  have hmap := openedFs_runs.2.2.1
  rw [hh] at hmap
  exact Option.some.inj hmap

theorem openedFs_reach {ok : Fs → FsAct → Prop}
    (hcreate : ∀ s name mem, ok s (.create name 256 mem)) (hopen : ∀ s name mem, ok s (.openFile name mem)) :
    (fsSys.restrict ok).Reach openedFs := by
  have hcreated := Fs.reach_next (bootFs_reach ok) (hcreate _ _ _) openedFs_runs.1
  exact Fs.reach_next hcreated (hopen _ _ _) openedFs_runs.2.1

theorem size_allowed : (0 : Int) ≤ 256 ∧ (256 : Int) ≤ maxFileSize := by decide

/-- A run with a write. -/
theorem filesystem_consistent_written : Consistent (DiskFile.blocks writtenFs.disk) ∧
    ∀ name mem, (writtenFs.system.remove writtenFs.disk name mem).isSome := by
  have hreach : (fsSys.restrict fun s a => a.Allowed s ∧ a.Placed s).Reach openedFs :=
    openedFs_reach (fun _ _ _ => ⟨size_allowed, trivial⟩) fun _ _ _ => ⟨trivial, trivial⟩
  have hplaced : FsAct.InRange 56 100 := ⟨by decide, by decide⟩
  exact filesystem_consistent
    (Fs.reach_next hreach ⟨fun _ hh => openedFs_removed hh, fun _ _ => Or.inr hplaced⟩ openedFs_runs.2.2.2.1)

/-- **A negative position.**  The zeros are in the bitmap: no sector is marked then. -/
theorem writeAt_negative :
    (fsSys.restrict FsAct.Allowed).Reach spoiltFs ∧ ¬ Consistent (DiskFile.blocks spoiltFs.disk) := by
  have hreach : (fsSys.restrict FsAct.Allowed).Reach openedFs :=
    openedFs_reach (fun _ _ _ => size_allowed) fun _ _ _ => trivial
  obtain ⟨-, -, -, -, hsome, hclear⟩ := openedFs_runs
  refine ⟨Fs.reach_next hreach (fun hd hh => openedFs_removed hh) hsome, fun hcons => ?_⟩
  have hmarked := (hcons.marked freeMapSector).mpr (List.mem_flatten.mpr ⟨[freeMapSector, directorySector],
    List.mem_append.mpr (Or.inl (List.mem_cons_self ..)), List.mem_cons_self ..⟩)
  have hbit := (BitMap.mem_marked.mp hmarked).2
  rw [hclear] at hbit
  cases hbit

/-! ## Other files -/

/-- A write through a handle. -/
def FsAct.WritesThrough (k : Nat) : FsAct → Prop
  | writeAt h _ _ _ _ => h = k
  | write h _ _ _ => h = k
  | _ => False

/-- The file in entry `i` is left alone: the entry, the sectors with its header and its data, and their bits. -/
structure Untouched (store store' : Blocks sectorSize) (i : Nat) : Prop where
  entry : (directoryOnDisk store).SameEntry (directoryOnDisk store') i
  sectors : ∀ b ∈ fileSectors store i, store' b = store b
  bits : ∀ b ∈ fileSectors store i, b ∈ (freeMapOnDisk store').marked ↔ b ∈ (freeMapOnDisk store).marked

/-- Data of one file changes: other files are left alone. -/
theorem Shows.untouched {store store' : Blocks sectorSize} {files : Nat → Option FileRec} {i j : Nat}
    {f g : FileRec} (h : Shows store files) (hf : files i = some f) (hg : files j = some g) (hij : i ≠ j)
    (hframe : ∀ b ∉ f.sectors, store' b = store b) : Untouched store store' j := by
  have hsystem : ∀ b < 5, store' b = store b := by
    intro b hb
    apply hframe
    intro hmem
    have hge := h.not_system hf (List.mem_cons_of_mem _ hmem)
    omega
  have h' : Shows store' files := h.of_data hf hframe
  refine ⟨?_, fun b hb => ?_, fun b hb => ?_⟩
  · rw [h.directoryOnDisk_eq, h'.directoryOnDisk_eq]
    exact diskDirectory_congr (hsystem 3 (by decide)) (hsystem 4 (by decide)) (h.slots j g hg)
  · rw [h.fileSectors_eq hg] at hb
    apply hframe
    intro hmem
    exact h.disjoint hf hg hij (List.mem_cons_of_mem _ hmem) hb
  · rw [h.freeMapOnDisk_eq, h'.freeMapOnDisk_eq, diskMap_congr (hsystem 2 (by decide))]

/-- **A write through a handle leaves other files alone.** -/
theorem handle_safety {s s' : Fs} {a : FsAct} (h : (fsSys.restrict FsAct.Safe).Reach s)
    (hs : (fsSys.restrict FsAct.Safe).step s a s') {k : Nat} {hd : Handle} (ha : a.WritesThrough k)
    (hh : s.handles k = some hd) {i : Nat} (hi : i < numDirEntries)
    (huse : (directoryOnDisk (DiskFile.blocks s.disk)).inUse i = true)
    (hother : (directoryOnDisk (DiskFile.blocks s.disk)).key i ≠ hd.key) :
    Untouched (DiskFile.blocks s.disk) (DiskFile.blocks s'.disk) i := by
  obtain ⟨files, hholds⟩ := Fs.holds_of_reach h
  have hshows := hholds.shows
  rw [hshows.directoryOnDisk_eq] at huse hother
  obtain ⟨g, hg, hgkey, -⟩ := hshows.lists.of_inUse hi huse
  -- the file of the handle is in another slot
  have hslot : ∀ j f, hd.Opens files j f → j ≠ i := by
    rintro j f hopens rfl
    obtain rfl := Option.some.inj (hg.symm.trans hopens.file)
    exact hother (hgkey.trans hopens.key)
  obtain ⟨hsafe, out, hstep⟩ := hs
  obtain ⟨files', hcases⟩ := hholds.step_cases hsafe hstep
  cases hcases with
  | writesAt hh' hlive hopens hwritten | writes hh' hlive hseek hopens hwritten =>
    obtain rfl : _ = k := ha
    obtain rfl := Option.some.inj (hh.symm.trans hh')
    exact hshows.untouched hopens.file hg (hslot _ _ hopens) hwritten.frame
  | rejectsAt _ _ | rejects _ _ => exact ⟨fun _ _ => rfl, fun _ _ => rfl, fun _ _ => Iff.rfl⟩
  | _ => exact ha.elim

/-- `f` is removed, but still open, and there is a new file `g`. -/
def reusedFs : Fs := (openedFs.next (.remove (letter 102) zeros)).next (.create (letter 103) 256 zeros)

/-- `g` is open too, and there is a third file `h`, of 10 bytes. -/
def threeFs : Fs := (reusedFs.next (.openFile (letter 103) zeros)).next (.create (letter 104) 10 zeros)

-- again one evaluation for the two runs
theorem reusedFs_runs : ((openedFs.step (.remove (letter 102) zeros)).isSome ∧
      ((openedFs.next (.remove (letter 102) zeros)).step (.create (letter 103) 256 zeros)).isSome) ∧
    ((reusedFs.step (.openFile (letter 103) zeros)).isSome ∧
      ((reusedFs.next (.openFile (letter 103) zeros)).step (.create (letter 104) 10 zeros)).isSome ∧
      (threeFs.step (.writeAt 1 (fun _ => 7) 56 100 zeros)).isSome ∧
      (threeFs.handles 0).map (·.removed) = some true ∧
      (threeFs.handles 1).map (fun hd => (hd.removed, hd.key)) = some (false, [103]) ∧
      (directoryOnDisk (DiskFile.blocks threeFs.disk)).inUse 1 = true ∧
      (directoryOnDisk (DiskFile.blocks threeFs.disk)).key 1 = [104]) ∧
    (reusedFs.step (.writeAt 0 (fun _ => 7) 128 0 zeros)).isSome ∧
      (reusedFs.handles 0).map (·.key) = some [102] ∧
      (directoryOnDisk (DiskFile.blocks reusedFs.disk)).inUse 0 = true ∧
      (directoryOnDisk (DiskFile.blocks reusedFs.disk)).key 0 = [103] ∧
      6 ∈ fileSectors (DiskFile.blocks reusedFs.disk) 0 ∧
      DiskFile.blocks reusedFs.disk 6 0 = 0 ∧
      DiskFile.blocks (reusedFs.next (.writeAt 0 (fun _ => 7) 128 0 zeros)).disk 6 0 = 7 := by
  decide +kernel

theorem reusedFs_reach {ok : Fs → FsAct → Prop} (hcreate : ∀ s name mem, ok s (.create name 256 mem))
    (hopen : ∀ s name mem, ok s (.openFile name mem)) (hremove : ∀ s name mem, ok s (.remove name mem)) :
    (fsSys.restrict ok).Reach reusedFs :=
  Fs.reach_next (Fs.reach_next (openedFs_reach hcreate hopen) (hremove _ _ _) reusedFs_runs.1.1) (hcreate _ _ _)
    reusedFs_runs.1.2

/-- Bytes of `g` are written, whose sectors were those of `f`: `h` is left alone.  The handle of `f`, which was
    removed, is open all the time. -/
theorem handle_safety_reused : (threeFs.handles 0).map (·.removed) = some true ∧
    Untouched (DiskFile.blocks threeFs.disk)
      (DiskFile.blocks (threeFs.next (.writeAt 1 (fun _ => 7) 56 100 zeros)).disk) 1 := by
  obtain ⟨-, ⟨hopen, hcreate, hwrite, hremoved, hmap, huse, hkey⟩, -⟩ := reusedFs_runs
  obtain ⟨hd, hh, hpair⟩ := Option.map_eq_some_iff.mp hmap
  obtain ⟨hlive, hhd⟩ := Prod.mk.inj hpair
  have hreused : (fsSys.restrict FsAct.Safe).Reach reusedFs :=
    reusedFs_reach (fun _ _ _ => size_allowed) (fun _ _ _ => trivial) fun _ _ _ => trivial
  have hsize : (0 : Int) ≤ 10 ∧ (10 : Int) ≤ maxFileSize := by decide
  have hreach : (fsSys.restrict FsAct.Safe).Reach threeFs :=
    Fs.reach_next (Fs.reach_next hreused trivial hopen) hsize hcreate
  have hsafe : (FsAct.writeAt 1 (fun _ => 7) 56 100 zeros).Safe threeFs := by
    intro hd' hh'
    obtain rfl := Option.some.inj (hh.symm.trans hh')
    exact Or.inr ⟨hlive, by decide, by decide⟩
  refine ⟨hremoved, handle_safety hreach ⟨hsafe, Fs.step_next hwrite⟩ (k := 1) rfl hh (by decide) huse ?_⟩
  rw [hkey, hhd]
  decide

/-- **A write after `Remove`.**  The bytes are those of `g` now. -/
theorem writeAt_removed : fsSys.Reach reusedFs ∧ (reusedFs.handles 0).map (·.key) = some [102] ∧
    (directoryOnDisk (DiskFile.blocks reusedFs.disk)).inUse 0 = true ∧
    (directoryOnDisk (DiskFile.blocks reusedFs.disk)).key 0 = [103] ∧
    ∃ s', fsSys.step reusedFs (.writeAt 0 (fun _ => 7) 128 0 zeros) s' ∧
      ¬ Untouched (DiskFile.blocks reusedFs.disk) (DiskFile.blocks s'.disk) 0 := by
  obtain ⟨-, -, hwrite, hhd, huse, hkey, hmem, hold, hnew⟩ := reusedFs_runs
  have hreused : (fsSys.restrict fun _ _ => True).Reach reusedFs :=
    reusedFs_reach (fun _ _ _ => trivial) (fun _ _ _ => trivial) fun _ _ _ => trivial
  refine ⟨hreused.of_restrict, hhd, huse, hkey, _, Fs.step_next hwrite, fun hsame => ?_⟩
  have hbyte := congrFun (hsame.sectors 6 hmem) 0
  rw [hold, hnew] at hbyte
  exact absurd hbyte (by decide)

/-! ## When `Create` succeeds -/

/-- The files of the file system are open: they have the sectors that the headers on disk list. -/
structure FileSystem.OpenOn (fs : FileSystem) (store : Blocks sectorSize) : Prop where
  freeMapFile : fs.freeMapFile.hdr.Describes freeMapFileSize (FileHeader.onDisk store freeMapSector).sectors
  directoryFile : fs.directoryFile.hdr.Describes directoryFileSize (FileHeader.onDisk store directorySector).sectors

namespace FileSystem

variable {fs : FileSystem} {disk : DiskFile}

/-- A file system that is running. -/
theorem Ready.openOn {files : Nat → Option FileRec} (hfs : fs.Ready) {store : Blocks sectorSize}
    (h : Shows store files) : fs.OpenOn store := by
  refine ⟨?_, ?_⟩
  · rw [h.freeMapHdr.sectors_eq]
    exact hfs.freeMapFile
  · rw [h.directoryHdr.sectors_eq]
    exact hfs.directoryFile

theorem OpenOn.reads (hfs : fs.OpenOn (DiskFile.blocks disk)) :
    fs.Reads disk (directoryOnDisk (DiskFile.blocks disk)) (freeMapOnDisk (DiskFile.blocks disk)) :=
  reads_array hfs.freeMapFile hfs.directoryFile disk

end FileSystem

/-- The sectors that the bitmap does not mark. -/
def freeSectors (store : Blocks sectorSize) : Finset Nat := Finset.range numSectors \ (freeMapOnDisk store).marked

theorem card_freeSectors (store : Blocks sectorSize) :
    (freeSectors store).card = (freeMapOnDisk store).numBits - (freeMapOnDisk store).marked.card := by
  have hsub : (freeMapOnDisk store).marked ⊆ Finset.range numSectors := BitMap.marked_subset
  rw [freeSectors, Finset.card_sdiff_of_subset hsub, Finset.card_range]
  rfl

namespace Consistent

variable {store : Blocks sectorSize} {i : Nat}

/-- The header of a file is not where the bitmap's is, so its sector is not the -1 for which `Find` might be mistaken. -/
theorem sector_ne (h : Consistent store) (hi : i < numDirEntries) (huse : (directoryOnDisk store).inUse i = true) :
    (directoryOnDisk store).sector i ≠ -1 := by
  intro hneg
  have hzero : headerSector store i = freeMapSector := by
    rw [headerSector, hneg]
    rfl
  have hslot : fileSectors store i ∈ Pool.slots numDirEntries fun i =>
      if (directoryOnDisk store).inUse i then some (fileSectors store i) else none :=
    Pool.mem_slots.mpr ⟨i, hi, by rw [huse]; rfl⟩
  have hfile : freeMapSector ∈ (Pool.slots numDirEntries fun i =>
      if (directoryOnDisk store).inUse i then some (fileSectors store i) else none).flatten :=
    List.mem_flatten.mpr ⟨_, hslot, hzero ▸ List.mem_cons_self ..⟩
  have hnodup := h.nodup
  rw [sectorSets, List.flatten_append] at hnodup
  exact (List.nodup_append.mp hnodup).2.2 freeMapSector (List.mem_cons_self ..) freeMapSector hfile rfl

theorem nodup_system (h : Consistent store) : (FileHeader.onDisk store freeMapSector).sectors.Nodup ∧
    (FileHeader.onDisk store directorySector).sectors.Nodup := by
  have hall := (List.nodup_flatten.mp h.nodup).1
  exact ⟨hall _ (by simp [sectorSets]), hall _ (by simp [sectorSets])⟩

end Consistent

/-- **`Create` succeeds** on a consistent disk IFF no entry in use has the name, one is not in use, and there are sectors for
    the header and the data.  If it fails, the disk is as it was. -/
theorem create_succeeds_iff {fs : FileSystem} {disk : DiskFile} (hfs : fs.OpenOn (DiskFile.blocks disk))
    (hcons : Consistent (DiskFile.blocks disk)) (name : Bytes) {size : Nat} (hsize : size ≤ maxFileSize)
    (mem : Nat → Bytes) :
    ∃ result disk', fs.create disk name size mem = some (result, disk') ∧
      (result = true ↔
        (∀ i < numDirEntries, (directoryOnDisk (DiskFile.blocks disk)).inUse i = true →
          (directoryOnDisk (DiskFile.blocks disk)).key i ≠ fileKey name) ∧
        (∃ i < numDirEntries, (directoryOnDisk (DiskFile.blocks disk)).inUse i = false) ∧
        1 + (size + (sectorSize - 1)) / sectorSize ≤ (freeSectors (DiskFile.blocks disk)).card) ∧
      (result = false → disk' = disk) := by
  rw [card_freeSectors]
  rcases FileSystem.create_cases hfs.reads (fun _ hi huse => hcons.sector_ne hi huse) name hsize mem with
    ⟨hwhy, hfalse⟩ | ⟨i, n, S, hdr, d', b', hplan, hwrites⟩
  · refine ⟨false, disk, hfalse, ⟨fun htrue => ?_, fun ⟨habsent, ⟨i, hi, hunused⟩, hroom⟩ => ?_⟩, fun _ => rfl⟩
    · cases htrue
    · rcases hwhy with ⟨j, hj, huse, hkey⟩ | hfull | hfew
      · exact absurd hkey (habsent j hj huse)
      · rw [hfull i hi] at hunused
        cases hunused
      · exact absurd hroom (Nat.not_le_of_lt hfew)
  · -- the three writes do not fail
    obtain ⟨hmap, hdir⟩ := hcons.nodup_system
    obtain ⟨disk₁, hwrite₁, -⟩ := FileHeader.writeBack_eq hdr disk hplan.header
    obtain ⟨disk₂, hwrite₂, -⟩ := Directory.writeBack_array hfs.directoryFile hdir hplan.tableSize disk₁
      fun k => mem (5 + k)
    obtain ⟨disk₃, hwrite₃, -⟩ := BitMap.writeBack_array hfs.freeMapFile hmap hplan.numBits disk₂
      fun k => mem (8 + k)
    refine ⟨true, disk₃, ?_, ⟨fun _ => ?_, fun _ => rfl⟩, fun hfalse => ?_⟩
    · simp only [hwrites, hwrite₁, hwrite₂, hwrite₃, Option.bind_some]
    · exact ⟨hplan.absent, ⟨i, hplan.slot, hplan.unused⟩, hplan.room⟩
    · cases hfalse

/-- On a disk without files, five sectors are in use. -/
theorem Shows.card_freeSectors {store : Blocks sectorSize} (h : Shows store fun _ => none) :
    (freeSectors store).card = 1019 := by
  have hmarked : (freeMapOnDisk store).marked = Finset.range 5 := by
    ext k
    have hheld : systemSectors ++ Pool.slots numDirEntries (fun _ => none) = [[0, 1], [2], [3, 4]] := by decide
    have hused : k ∈ (diskMap store).marked
        ↔ k ∈ (systemSectors ++ Pool.slots numDirEntries (fun _ => none)).flatten := h.books.used k
    rw [h.freeMapOnDisk_eq, hused, hheld, Finset.mem_range]
    show k ∈ [0, 1, 2, 3, 4] ↔ k < 5
    simp only [List.mem_cons, List.not_mem_nil, or_false]
    omega
  rw [Nachos.card_freeSectors, hmarked, Finset.card_range]
  rfl

/-- The first file on a new disk. -/
theorem create_succeeds_boot : ∃ disk', bootFs.system.create bootFs.disk (letter 102) (256 : Nat) zeros = some (true, disk') ∧
    3 ≤ (freeSectors (DiskFile.blocks bootFs.disk)).card := by
  have hholds : bootFs.Holds fun _ => none := Fs.holds_of_init bootFs_init
  have hunused : ∀ i < numDirEntries, (directoryOnDisk (DiskFile.blocks bootFs.disk)).inUse i = false := by
    intro i hi
    rw [hholds.shows.directoryOnDisk_eq]
    exact hholds.shows.lists.free i hi rfl
  have hroom : 3 ≤ (freeSectors (DiskFile.blocks bootFs.disk)).card := by
    rw [hholds.shows.card_freeSectors]
    decide
  obtain ⟨result, disk', hcreate, hiff, -⟩ := create_succeeds_iff (hholds.ready.openOn hholds.shows)
    hholds.shows.consistent (letter 102) (show 256 ≤ maxFileSize by decide) zeros
  obtain rfl : result = true := by
    refine hiff.mpr ⟨fun i hi huse => ?_, ⟨0, by decide, hunused 0 (by decide)⟩, hroom⟩
    rw [hunused i hi] at huse
    cases huse
  exact ⟨disk', hcreate, hroom⟩

end Nachos
