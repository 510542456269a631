/-
  What is left of the files when a call is cut short.

  The power may go between any two sector writes of a call; then Nachos is started again on what is on the disk.
  A single sector is written or not.  The bitmap may disagree with the directory then, so nothing is said here
  about what LATER calls do to such a disk; but all files that were there can still be opened and read:

  1. **`Create`** loses no file.  The header goes first, into a sector that was free, and then the two sectors of the
     directory.  Entry 6 is the one that lies across the two: between them it is in use and has the sector of the
     new header, but the name is that of a file that was there EARLIER.  If a file with that name were in a later
     entry, it would be hidden.  It is not: `Add` takes the first entry that is free, so a name stands before an
     entry in use that has it in no run (`Directory.Ordered`).

  2. **`Remove`** loses no other file, and the file is there or not.

  3. **`WriteAt`** leaves in the file a first part of what was to be written.
-/
import Nachos.Filesys.Remount
import Nachos.Filesys.WriteLog

namespace Nachos

open DiskFile (blocks)

/-! ## Directories that are written in part -/

namespace Directory

variable {d d₁ d' e e' : Directory} {i j l : Nat} {name : Bytes}

theorem SameEntry.trans (h : d.SameEntry d₁ i) (h' : d₁.SameEntry e i) : d.SameEntry e i := fun a ha =>
  (h' a ha).trans (h a ha)

/-- An entry while `d'` is written over `d`: the old one, the new one, or the new one with the old name. -/
def Partly (d d' e : Directory) (l : Nat) : Prop :=
  ∃ m ∈ [0, 8, directoryEntrySize], ∀ a < directoryEntrySize, e.table (directoryEntrySize * l + a)
    = if a < m then d'.table (directoryEntrySize * l + a) else d.table (directoryEntrySize * l + a)

/-- Nothing of the entry is written. -/
theorem partly_of_same (h : d.SameEntry e l) : Partly d d' e l :=
  ⟨0, List.mem_cons_self .., fun a ha => (h a ha).trans (if_neg (Nat.not_lt_zero a)).symm⟩

theorem Partly.congr_left (h : Partly d₁ d' e l) (hsame : d.SameEntry d₁ l) : Partly d d' e l := by
  obtain ⟨m, hm, hbytes⟩ := h
  refine ⟨m, hm, fun a ha => ?_⟩
  rw [hbytes a ha, hsame a ha]

theorem Partly.congr_right (h : Partly d d' e l) (hsame : e.SameEntry e' l) : Partly d d' e' l := by
  obtain ⟨m, hm, hbytes⟩ := h
  exact ⟨m, hm, fun a ha => (hsame a ha).trans (hbytes a ha)⟩

/-- An entry that is the same in both. -/
theorem Partly.same (h : Partly d d' e l) (hsame : d.SameEntry d' l) : d.SameEntry e l := by
  obtain ⟨m, -, hbytes⟩ := h
  intro a ha
  rw [hbytes a ha, hsame a ha, ite_self]

theorem Partly.cases (h : Partly d d' e l) :
    d.SameEntry e l ∨ d'.SameEntry e l ∨ e.inUse l = d'.inUse l ∧ e.key l = d.key l := by
  obtain ⟨m, hm, hbytes⟩ := h
  have hsize : directoryEntrySize = 20 := rfl
  rcases List.mem_cons.mp hm with rfl | hm
  · exact Or.inl fun a ha => (hbytes a ha).trans (if_neg (Nat.not_lt_zero a))
  rcases List.mem_cons.mp hm with rfl | hm
  · refine Or.inr (Or.inr ⟨?_, cstring_congr _ _ _ fun a ha => ?_⟩)
    · have hbyte := hbytes 0 (by decide)
      rw [if_pos (by decide), Nat.add_zero] at hbyte
      rw [inUse, inUse, hbyte]
    · rw [show fileNameMaxLen = 9 from rfl] at ha
      rw [Nat.add_assoc, hbytes (8 + a) (by rw [hsize]; omega), if_neg (by omega)]
  · obtain rfl := List.mem_singleton.mp hm
    exact Or.inr (Or.inl fun a ha => (hbytes a ha).trans (if_pos ha))

/-- **A sector boundary goes through the table.**  It is between entries, or before the name of entry 6. -/
theorem partly_of_bytes {k : Nat} (h : ∀ q < 200, e.table q = if q < min 200 (k * 128) then d'.table q else d.table q)
    (hl : l < numDirEntries) : Partly d d' e l := by
  have hsize : directoryEntrySize = 20 := rfl
  rw [show numDirEntries = 10 from rfl] at hl
  -- where the boundary is in the entry
  have hcut : ∀ m, (∀ a < 20, a < m ↔ 20 * l + a < min 200 (k * 128)) → ∀ a < directoryEntrySize,
      e.table (directoryEntrySize * l + a)
        = if a < m then d'.table (directoryEntrySize * l + a) else d.table (directoryEntrySize * l + a) := by
    intro m hm a ha
    rw [hsize] at ha ⊢
    rw [h _ (by omega)]
    simp only [hm a ha]
  by_cases hbefore : min 200 (k * 128) ≤ 20 * l
  · exact ⟨0, by decide, hcut 0 fun a ha => by omega⟩
  · by_cases hbehind : 20 * l + 20 ≤ min 200 (k * 128)
    · exact ⟨20, by decide, hcut 20 fun a ha => by omega⟩
    · have hsix : l = 6 ∧ k = 1 := by omega
      obtain ⟨rfl, rfl⟩ := hsix
      exact ⟨8, by decide, hcut 8 fun a ha => by omega⟩

/-- **The writes of `WriteBack`**, and what is in the directory after the first `k` of them. -/
theorem writeLog_spec {file : OpenFile} {S : List Nat} (hd : file.hdr.Describes directoryFileSize S) (hS : S.Nodup)
    (hsize : d'.tableSize = numDirEntries) (disk : DiskFile) (mem : Nat → Bytes) :
    ∃ log, d'.writeLog file disk mem = some log ∧
      (∀ k, (∀ b ∉ S, blocks (replayWrites disk (log.take k)) b = blocks disk b) ∧
        ∀ l < numDirEntries, Partly ⟨numDirEntries, (blocks disk).array S⟩ d'
          ⟨numDirEntries, (blocks (replayWrites disk (log.take k))).array S⟩ l) ∧
      ∀ l < numDirEntries, d'.SameEntry ⟨numDirEntries, (blocks (replayWrites disk log)).array S⟩ l := by
  obtain ⟨log, hlog, hshort⟩ := OpenFile.writeLog_spec (p := 0) hd hS
    (n := ((numDirEntries * directoryEntrySize : Nat) : Int)) (by decide) disk mem d'.table
  have hwrites : d'.writeLog file disk mem = some log := by
    rw [writeLog, hsize]
    rw [show ((0 : Nat) : Int) = 0 from rfl] at hlog
    rw [hlog]
    rfl
  refine ⟨log, hwrites, fun k => ⟨(hshort k).1, fun l hl => ?_⟩, ?_⟩
  · refine partly_of_bytes (k := k) (fun q hq => ?_) hl
    have hbyte := (hshort k).2 q hq
    have hwithin : OpenFile.within 0 (OpenFile.clamp directoryFileSize
        ((numDirEntries * directoryEntrySize : Nat) : Int) 0) k = min 200 (k * 128) := by
      show min 200 ((0 / 128 + k) * 128 - 0) = _
      omega
    rw [hwithin, Nat.zero_add, Nat.sub_zero] at hbyte
    simp only [Nat.zero_le, true_and] at hbyte
    exact hbyte
  · obtain ⟨disk', hback, -, hsame⟩ := writeBack_array hd hS hsize disk mem
    rw [writeBack_eq_log, hwrites] at hback
    rw [← Option.some.inj hback] at hsame
    exact hsame

theorem key_setInUse (b : Bool) : (d.setInUse i b).key i = d.key i :=
  cstring_congr _ _ _ fun _ _ => setInUse_of_ne b (by omega)

/-! ## Names that are left behind -/

/-- No entry before one that is in use has its name, be it in use or not. -/
def Ordered (d : Directory) : Prop := ∀ j < numDirEntries, d.inUse j = true → ∀ i < j, d.key i ≠ d.key j

theorem Ordered.congr (h : d.Ordered) (hsame : ∀ l < numDirEntries, d.SameEntry d' l) : d'.Ordered := by
  intro j hj huse i hi
  rw [(hsame j hj).inUse] at huse
  rw [(hsame j hj).key, (hsame i (Nat.lt_trans hi hj)).key]
  exact h j hj huse i hi

/-- The first entry that is free gets a new name. -/
theorem Ordered.fill (h : d.Ordered) (hfirst : ∀ l < i, d.inUse l = true)
    (habsent : ∀ l < numDirEntries, d.inUse l = true → d.key l ≠ fileKey name) (hkey : d'.key i = fileKey name)
    (hsame : ∀ l < numDirEntries, l ≠ i → d.SameEntry d' l) : d'.Ordered := by
  intro j hj huse l hl
  have hl' := Nat.lt_trans hl hj
  by_cases hji : j = i
  · subst hji
    rw [(hsame l hl' (Nat.ne_of_lt hl)).key, hkey]
    exact habsent l hl' (hfirst l hl)
  · rw [(hsame j hj hji).inUse] at huse
    rw [(hsame j hj hji).key]
    by_cases hli : l = i
    · rw [hli, hkey]
      exact (habsent j hj huse).symm
    · rw [(hsame l hl' hli).key]
      exact h j hj huse l hl

/-- Entries are taken out of use. -/
theorem Ordered.empty (h : d.Ordered) (huse : ∀ l < numDirEntries, d'.inUse l = true → d.inUse l = true)
    (hkey : ∀ l < numDirEntries, d'.key l = d.key l) : d'.Ordered := by
  intro j hj hjuse i hi
  rw [hkey j hj, hkey i (Nat.lt_trans hi hj)]
  exact h j hj (huse j hj hjuse) i hi

/-- `Add` fills the first entry that is free. -/
theorem add_first {newSector : Int} (h : (d.add name newSector).1 = true) :
    ∃ i < d.tableSize, d.inUse i = false ∧ (∀ l < i, d.inUse l = true) ∧
      (d.add name newSector).2 = d.fill i name newSector := by
  cases hfind : (d.findIndex name).isSome with
  | true =>
    simp only [add, hfind, if_true] at h
    cases h
  | false =>
    cases hfree : (List.range d.tableSize).find? fun i => !d.inUse i with
    | none =>
      simp only [add, hfind, hfree, Bool.false_eq_true, if_false] at h
    | some i =>
      obtain ⟨hunused, hi, hbefore⟩ := List.find?_range_eq_some.mp hfree
      refine ⟨i, List.mem_range.mp hi, by simpa using hunused, fun l hl => by simpa using hbefore l hl, ?_⟩
      simp only [add, hfind, hfree, Bool.false_eq_true, if_false, Directory.fill]

end Directory

/-! ## What is found on a disk -/

/-- **A new session on a disk finds this under a name**: `Open` returns NULL, or a file with these bytes. -/
def Finds (disk : DiskFile) (name : Bytes) (found : Option (List UInt8)) : Prop :=
  ∀ mem, ∃ system, FileSystem.openFiles disk mem = some system ∧ ∀ mem',
    match found with
    | none => system.openFile disk name mem' = some none
    | some bytes => ∃ file, system.openFile disk name mem' = some (some file) ∧
        ∀ (mem into : Bytes) (n : Int) (p : Nat), p + n < 2 ^ 31 →
          file.readAt disk mem into 0 n p = some (((OpenFile.clamp bytes.length n p : Nat) : Int),
            readBytes bytes into (OpenFile.clamp bytes.length n p) p)

/-- The headers of the bitmap and of the directory are in their sectors. -/
structure Mountable (store : Blocks sectorSize) : Prop where
  freeMapHdr : (FileHeader.onDisk store freeMapSector).Describes freeMapFileSize freeMapSectors
  directoryHdr : (FileHeader.onDisk store directorySector).Describes directoryFileSize directorySectors

namespace Mountable

variable {disk : DiskFile} {name : Bytes} {j : Nat} {f : FileRec}

theorem congr {store store' : Blocks sectorSize} (h : Mountable store) (hsame : ∀ b < 2, store' b = store b) :
    Mountable store' :=
  ⟨Shows.describes_congr (hsame 0 (by decide)) h.freeMapHdr, Shows.describes_congr (hsame 1 (by decide)) h.directoryHdr⟩

/-- The first entry in use that has the name is that of a file. -/
theorem finds_some (h : Mountable (blocks disk)) (hj : j < numDirEntries)
    (huse : (diskDirectory (blocks disk)).inUse j = true)
    (hkey : (diskDirectory (blocks disk)).key j = fileKey name)
    (hfirst : ∀ l < j, (diskDirectory (blocks disk)).inUse l = true →
      (diskDirectory (blocks disk)).key l ≠ fileKey name)
    (hsector : (diskDirectory (blocks disk)).sector j = f.header) (hheader : f.header < numSectors)
    (hd : (FileHeader.onDisk (blocks disk) f.header).Describes f.length f.sectors) :
    Finds disk name (some (f.bytes (blocks disk))) := by
  intro mem
  obtain ⟨system, hopen, hready⟩ := Fs.openFiles_ready h.freeMapHdr h.directoryHdr mem
  refine ⟨system, hopen, fun mem' => ?_⟩
  obtain ⟨d₁, hfetch, htable, hsame⟩ := (hready.reads disk).directory (mem' 0) (mem' 1)
  have hindex : d₁.findIndex name = some j := by
    refine List.find?_range_eq_some.mpr ⟨?_, List.mem_range.mpr (htable.symm ▸ hj), fun l hl => ?_⟩
    · rw [Bool.and_eq_true, strncmp_iff, (hsame j hj).inUse]
      exact ⟨huse, (hsame j hj).key.trans hkey⟩
    · have hl' := Nat.lt_trans hl hj
      rw [Bool.not_eq_true', Bool.eq_false_iff, Ne, Bool.and_eq_true, strncmp_iff, (hsame l hl').inUse]
      rintro ⟨hluse, hlkey⟩
      exact hfirst l hl hluse ((hsame l hl').key.symm.trans hlkey)
  have hfind : d₁.find name = f.header := by
    rw [Directory.find, hindex]
    exact (hsame j hj).sector.trans hsector
  have hge : (f.header : Int) ≥ 0 := Int.natCast_nonneg _
  obtain ⟨file, hfile, hdesc, -⟩ := OpenFile.new_spec hheader hd (mem' 2)
  refine ⟨file, ?_, fun mem into n p hover => FileRec.readAt_bytes hdesc hover disk mem into⟩
  simp only [FileSystem.openFile, hfetch, Option.bind_eq_bind, Option.bind_some, hfind, if_pos hge, hfile,
    Option.map_some]

/-- No entry in use has the name. -/
theorem finds_none (h : Mountable (blocks disk))
    (hnone : ∀ l < numDirEntries, (diskDirectory (blocks disk)).inUse l = true →
      (diskDirectory (blocks disk)).key l ≠ fileKey name) : Finds disk name none := by
  intro mem
  obtain ⟨system, hopen, hready⟩ := Fs.openFiles_ready h.freeMapHdr h.directoryHdr mem
  refine ⟨system, hopen, fun mem' => ?_⟩
  obtain ⟨d₁, hfetch, htable, hsame⟩ := (hready.reads disk).directory (mem' 0) (mem' 1)
  have hindex : d₁.findIndex name = none := by
    refine Directory.findIndex_eq_none.mpr fun l hl huse => ?_
    rw [htable] at hl
    rw [(hsame l hl).inUse] at huse
    rw [(hsame l hl).key]
    exact hnone l hl huse
  have hfind : d₁.find name = -1 := by
    rw [Directory.find, hindex]
  have hneg : ¬ (-1 : Int) ≥ 0 := by decide
  simp only [FileSystem.openFile, hfetch, Option.bind_eq_bind, Option.bind_some, hfind, if_neg hneg]

end Mountable

namespace Shows

variable {disk disk' : DiskFile} {files : Nat → Option FileRec} {name : Bytes} {bytes : List UInt8}

theorem mountable (h : Shows (blocks disk) files) : Mountable (blocks disk) :=
  ⟨h.freeMapHdr, h.directoryHdr⟩

/-- What is under a key is a file. -/
theorem of_fileContents (h : Shows (blocks disk) files)
    (hbytes : fileContents (blocks disk) (fileKey name) = some bytes) :
    ∃ j g, files j = some g ∧ g.key = fileKey name ∧ bytes = g.bytes (blocks disk) := by
  rcases FileSystem.cases_name files name with ⟨j, g, hg, hkey⟩ | habsent
  · refine ⟨j, g, hg, hkey, ?_⟩
    have hfile := h.fileContents_eq hg
    rw [hkey, hbytes] at hfile
    exact Option.some.inj hfile
  · rw [h.fileContents_none habsent] at hbytes
    cases hbytes

/-- **A file stays where it was**: the sectors of the file and its entry are as they were, and no entry before it
    has its name. -/
theorem finds_kept (h : Shows (blocks disk) files) {j : Nat} {g : FileRec} (hg : files j = some g)
    (hkey : g.key = fileKey name) (hsystem : ∀ b < 2, blocks disk' b = blocks disk b)
    (hsectors : ∀ b ∈ g.owns, blocks disk' b = blocks disk b)
    (hentry : (diskDirectory (blocks disk)).SameEntry (diskDirectory (blocks disk')) j)
    (hfirst : ∀ l < j, (diskDirectory (blocks disk')).inUse l = true →
      (diskDirectory (blocks disk')).key l ≠ fileKey name) :
    Finds disk' name (some (g.bytes (blocks disk))) := by
  have hj := h.slots j g hg
  obtain ⟨huse, hgkey, hsector⟩ := h.lists.entry j hj g hg
  have hbytes : g.bytes (blocks disk') = g.bytes (blocks disk) := by
    refine List.map_congr_left fun q hq => ?_
    refine Blocks.array_congr (fun b hb => hsectors b (List.mem_cons_of_mem _ hb)) ?_
    exact (h.headers j g hg).div_lt (List.mem_range.mp hq)
  rw [← hbytes]
  exact (h.mountable.congr hsystem).finds_some hj (hentry.inUse.trans huse)
    (hentry.key.trans (hgkey.trans hkey)) hfirst (hentry.sector.trans hsector) (h.header_lt hg)
    (describes_congr (hsectors g.header (List.mem_cons_self ..)) (h.headers j g hg))

/-- An entry of another file does not have the name. -/
theorem other_key (h : Shows (blocks disk) files) {j l : Nat} {g : FileRec} (hg : files j = some g)
    (hkey : g.key = fileKey name) (hl : l < numDirEntries) (hlj : l ≠ j)
    (huse : (diskDirectory (blocks disk)).inUse l = true) :
    (diskDirectory (blocks disk)).key l ≠ fileKey name := by
  obtain ⟨f, hf, hfkey, -⟩ := h.lists.of_inUse hl huse
  intro heq
  exact hlj (h.distinct l j f g hf hg (hfkey.symm.trans (heq.trans hkey.symm)))

/-- On a disk in order the files are found. -/
theorem finds (h : Shows (blocks disk) files)
    (hbytes : fileContents (blocks disk) (fileKey name) = some bytes) : Finds disk name (some bytes) := by
  obtain ⟨j, g, hg, hkey, rfl⟩ := h.of_fileContents hbytes
  refine h.finds_kept hg hkey (fun _ _ => rfl) (fun _ _ => rfl) (fun _ _ => rfl) fun l hl huse => ?_
  exact h.other_key hg hkey (Nat.lt_trans hl (h.slots j g hg)) (Nat.ne_of_lt hl) huse

end Shows

/-! ## In the middle of a call -/

/-- **The directory is being written**: the sectors of files are as they were, apart from those in `news`, and every
    entry of the directory is written or not, or in part. -/
structure Midway (store store' : Blocks sectorSize) (d' : Directory) (news : List Nat) : Prop where
  frame : ∀ b, b < 2 ∨ 5 ≤ b → b ∉ news → store' b = store b
  entries : ∀ l < numDirEntries, Directory.Partly (diskDirectory store) d' (diskDirectory store') l

namespace Midway

variable {store store₁ store' store'' : Blocks sectorSize} {d' : Directory} {news : List Nat}

/-- What does not touch the sectors of the directory leaves its entries alone. -/
theorem sameEntry_of_frame (hframe : ∀ b, b ≠ 2 → b ∉ news → store' b = store b) (hnews : ∀ b ∈ news, 5 ≤ b) {l : Nat}
    (hl : l < numDirEntries) : (diskDirectory store).SameEntry (diskDirectory store') l := by
  have hdir : ∀ b, b = 3 ∨ b = 4 → store' b = store b := by
    intro b hb
    refine hframe b (by omega) fun hmem => ?_
    have hge := hnews b hmem
    omega
  exact diskDirectory_congr (hdir 3 (Or.inl rfl)) (hdir 4 (Or.inr rfl)) hl

/-- Before the directory is written. -/
theorem before (hframe : ∀ b, b ≠ 2 → b ∉ news → store' b = store b) (hnews : ∀ b ∈ news, 5 ≤ b) :
    Midway store store' d' news :=
  ⟨fun b hb hnew => hframe b (by omega) hnew, fun _ hl =>
    Directory.partly_of_same (sameEntry_of_frame hframe hnews hl)⟩

/-- While it is written. -/
theorem writing (hbefore : ∀ b, b ≠ 2 → b ∉ news → store₁ b = store b) (hnews : ∀ b ∈ news, 5 ≤ b)
    (hframe : ∀ b ∉ directorySectors, store' b = store₁ b)
    (hentries : ∀ l < numDirEntries, Directory.Partly (diskDirectory store₁) d' (diskDirectory store') l) :
    Midway store store' d' news := by
  refine ⟨fun b hb hnew => ?_, fun l hl => ?_⟩
  · rw [hframe b (FileSystem.notMem_directorySectors (by omega)), hbefore b (by omega) hnew]
  · exact (hentries l hl).congr_left (sameEntry_of_frame hbefore hnews hl)

/-- An entry that is not changed. -/
theorem sameEntry (h : Midway store store' d' news) {l : Nat} (hl : l < numDirEntries)
    (hsame : (diskDirectory store).SameEntry d' l) : (diskDirectory store).SameEntry (diskDirectory store') l :=
  (h.entries l hl).same hsame

/-- While the bitmap is written. -/
theorem then_bits (h : Midway store store' d' news) (hframe : ∀ b, b ≠ 2 → store'' b = store' b) :
    Midway store store'' d' news := by
  refine ⟨fun b hb hnew => ?_, fun l hl => ?_⟩
  · rw [hframe b (by omega)]
    exact h.frame b hb hnew
  · exact (h.entries l hl).congr_right (diskDirectory_congr (hframe 3 (by decide)) (hframe 4 (by decide)) hl)

end Midway

/-- The writes of the bitmap are in its sector. -/
theorem BitMap.writeLog_frame {b : BitMap} {file : OpenFile} (hd : file.hdr.Describes freeMapFileSize freeMapSectors)
    (hbits : b.numBits = numSectors) {disk : DiskFile} {mem : Nat → Bytes} {log : List SectorWrite}
    (hlog : b.writeLog file disk mem = some log) (k : Nat) :
    ∀ n, n ≠ 2 → blocks (replayWrites disk (log.take k)) n = blocks disk n := by
  have hbytes : b.numBytes = 128 := by
    rw [numBytes, length_map hbits]
  obtain ⟨log', hlog', hshort⟩ := OpenFile.writeLog_spec (p := 0) hd (by decide) (n := ((128 : Nat) : Int)) (by decide)
    disk mem b.bytes
  rw [show ((0 : Nat) : Int) = 0 from rfl] at hlog'
  rw [writeLog, hbytes, hlog'] at hlog
  obtain rfl : log' = log := Option.some.inj hlog
  intro n hn
  exact (hshort k).1 n (FileSystem.notMem_freeMapSectors hn)

namespace FileSystem

variable {fs : FileSystem} {disk : DiskFile} {files : Nat → Option FileRec} {name : Bytes} {mem : Nat → Bytes}
  {r : Bool} {log : List SectorWrite}

/-- **`Create` in the middle.**  The new name goes to the first entry `i` that is free, the header to a sector `n`
    that is not marked. -/
structure Creating (store : Blocks sectorSize) (name : Bytes) (i n : Nat) (d' : Directory) : Prop where
  slot : i < numDirEntries
  unused : (diskDirectory store).inUse i = false
  first : ∀ l < i, (diskDirectory store).inUse l = true
  absent : ∀ l < numDirEntries, (diskDirectory store).inUse l = true → (diskDirectory store).key l ≠ fileKey name
  key : d'.key i = fileKey name
  others : ∀ l < numDirEntries, l ≠ i → (diskDirectory store).SameEntry d' l
  clear : n ∉ (diskMap store).marked

/-- The write of a header. -/
theorem header_writeLog (hdr : FileHeader) {n : Nat} (hn : n < numSectors) :
    ∃ w, hdr.writeLog n = some [w] ∧
      ∀ disk b, b ≠ n → blocks (replayWrites disk [w]) b = blocks disk b := by
  refine ⟨⟨n, fun i => hdr.bytes (0 + i)⟩, ?_, fun disk b hb => ?_⟩
  · rw [FileHeader.writeLog, DiskFile.sectorWrite, if_pos (validSector_natCast.mpr hn)]
    rfl
  · show blocks (writeFile disk n _) b = _
    rw [DiskFile.blocks_writeFile, Function.update_of_ne hb]

/-- **All prefixes of the writes of `Create`**: the header, then the directory, then the bitmap. -/
theorem create_midway (hfs : fs.Ready) {d' : Directory} {b' : BitMap} {n : Nat} {w : SectorWrite}
    {entries bits : List SectorWrite} {mem mem' : Nat → Bytes} (hn : 5 ≤ n)
    (hheader : ∀ disk b, b ≠ n → blocks (replayWrites disk [w]) b = blocks disk b)
    (hsize : d'.tableSize = numDirEntries) (hbits : b'.numBits = numSectors)
    (hentries : d'.writeLog fs.directoryFile (replayWrites disk [w]) mem = some entries)
    (hmap : b'.writeLog fs.freeMapFile (replayWrites (replayWrites disk [w]) entries) mem' = some bits) :
    (∀ k, Midway (blocks disk) (blocks (replayWrites disk (([w] ++ (entries ++ bits)).take k))) d'
        [n]) ∧
      ∀ l < numDirEntries, d'.SameEntry
        (diskDirectory (blocks (replayWrites disk ([w] ++ (entries ++ bits))))) l := by
  obtain ⟨log, hlog, hshort, hall⟩ := Directory.writeLog_spec hfs.directoryFile (by decide) hsize
    (replayWrites disk [w]) mem
  obtain rfl := Option.some.inj (hlog.symm.trans hentries)
  have hframe := BitMap.writeLog_frame hfs.freeMapFile hbits hmap
  have hnews : ∀ b ∈ [n], 5 ≤ b := fun b hb => (List.mem_singleton.mp hb).symm ▸ hn
  have hfirst : ∀ b, b ≠ 2 → b ∉ [n] → blocks (replayWrites disk [w]) b = blocks disk b :=
    fun b _ hb => hheader disk b fun heq => hb (List.mem_singleton.mpr heq)
  have hwriting : ∀ m, Midway (blocks disk)
      (blocks (replayWrites (replayWrites disk [w]) (log.take m))) d' [n] := fun m =>
    Midway.writing hfirst hnews (hshort m).1 (hshort m).2
  have hwritten := hwriting log.length
  rw [List.take_length] at hwritten
  refine ⟨fun k => ?_, fun l hl => ?_⟩
  · rcases replayWrites_take_append disk [w] (log ++ bits) k with ⟨m, heq⟩ | ⟨m, heq⟩
    · rw [heq]
      cases m with
      | zero => exact Midway.before (fun _ _ _ => rfl) hnews
      | succ m =>
        rw [List.take_of_length_le (by rw [List.length_singleton]; omega)]
        exact Midway.before hfirst hnews
    · rw [heq]
      rcases replayWrites_take_append (replayWrites disk [w]) log bits m with ⟨m', heq'⟩ | ⟨m', heq'⟩
      · rw [heq']
        exact hwriting m'
      · rw [heq']
        exact hwritten.then_bits (hframe m')
  · have hframe' := hframe bits.length
    rw [List.take_length] at hframe'
    rw [replayWrites_append, replayWrites_append]
    exact (hall l hl).trans (diskDirectory_congr (hframe' 3 (by decide)) (hframe' 4 (by decide)) hl)

theorem createLog_cases (hfs : fs.Ready) (h : Shows (blocks disk) files) {size : Nat}
    (hsize : size ≤ maxFileSize) (hlog : fs.createLog disk name size mem = some (r, log)) :
    log = [] ∨ ∃ i n d', Creating (blocks disk) name i n d' ∧
      (∀ k, Midway (blocks disk) (blocks (replayWrites disk (log.take k))) d' [n]) ∧
      ∀ l < numDirEntries, d'.SameEntry (diskDirectory (blocks (replayWrites disk log))) l := by
  have hsectors : ∀ j < numDirEntries, (diskDirectory (blocks disk)).inUse j = true →
      (diskDirectory (blocks disk)).sector j ≠ -1 := by
    intro j hj huse
    obtain ⟨f, -, -, hsector⟩ := h.lists.of_inUse hj huse
    omega
  obtain ⟨d₁, hfetch, htable, hsame₁, ⟨-, hfind⟩ | ⟨habsent, -, hfound⟩⟩ :=
    (hfs.reads disk).lookup hsectors name (mem 0) (mem 1)
  · simp only [createLog, hfetch, Option.bind_eq_bind, Option.bind_some, if_pos hfind] at hlog
    cases hlog
    exact Or.inl rfl
  have hfind : ¬ d₁.find name ≠ -1 := not_not_intro hfound
  obtain ⟨b₀, hnew, hbits₀, -⟩ := newFreeMap_spec (mem 2)
  have hmap := (hfs.reads disk).freeMap b₀ hbits₀ (mem 3)
  rcases (diskMap (blocks disk)).find_spec with ⟨hfull, -⟩ | ⟨n, b₁, hsector, hn, hclear, -, hbits₁, -⟩
  · simp only [createLog, hfetch, Option.bind_eq_bind, Option.bind_some, if_neg hfind, hnew, hmap, hfull, if_true]
      at hlog
    cases hlog
    exact Or.inl rfl
  have hnne : ¬ ((n : Nat) : Int) = -1 := by omega
  have hn5 : 5 ≤ n := Nat.le_of_not_lt fun hlt => hclear (h.system_marked hlt)
  simp only [createLog, hfetch, Option.bind_eq_bind, Option.bind_some, if_neg hfind, hnew, hmap, hsector,
    if_neg hnne] at hlog
  cases hadd : (d₁.add name n).1 with
  | false =>
    simp only [hadd, Bool.not_false, if_true] at hlog
    cases hlog
    exact Or.inl rfl
  | true =>
    simp only [hadd, Bool.not_true, Bool.false_eq_true, if_false] at hlog
    rcases FileHeader.allocate_spec ⟨mem 4⟩ hsize hbits₁ with ⟨-, hdr, halloc⟩ |
      ⟨-, hdr, b₂, S, halloc, -, -, -, -, hbits₂, -⟩
    · simp only [halloc, Option.bind_some, Bool.not_false, if_true] at hlog
      cases hlog
      exact Or.inl rfl
    · obtain ⟨i, hi, hunused, hfirst, heq⟩ := Directory.add_first hadd
      obtain ⟨w, hw, hheader⟩ := header_writeLog hdr hn
      simp only [halloc, Option.bind_some, Bool.not_true, Bool.false_eq_true, if_false, hw, heq] at hlog
      obtain ⟨entries, hentries, hlog⟩ := Option.bind_eq_some_iff.mp hlog
      obtain ⟨bits, hbits, hlog⟩ := Option.bind_eq_some_iff.mp hlog
      cases hlog
      rw [htable] at hi
      refine Or.inr ⟨i, n, d₁.fill i name n, ⟨hi, ?_, fun l hl => ?_, habsent, Directory.key_fill, fun l hl hli => ?_,
        hclear⟩, create_midway hfs hn5 hheader htable hbits₂ hentries hbits⟩
      · rw [← (hsame₁ i hi).inUse]
        exact hunused
      · rw [← (hsame₁ l (Nat.lt_trans hl hi)).inUse]
        exact hfirst l hl
      · exact (hsame₁ l hl).trans (Directory.sameEntry_fill hli)

/-- **`Remove` in the middle.** -/
structure Removing (store : Blocks sectorSize) (name : Bytes) (i : Nat) (d' : Directory) : Prop where
  slot : i < numDirEntries
  inUse : (diskDirectory store).inUse i = true
  named : (diskDirectory store).key i = fileKey name
  unused : d'.inUse i = false
  key : d'.key i = (diskDirectory store).key i
  others : ∀ l < numDirEntries, l ≠ i → (diskDirectory store).SameEntry d' l

/-- **All prefixes of the writes of `Remove`**: the bitmap, then the directory. -/
theorem remove_midway (hfs : fs.Ready) {d' : Directory} {b' : BitMap} {bits entries : List SectorWrite}
    {mem mem' : Nat → Bytes} (hsize : d'.tableSize = numDirEntries) (hbits : b'.numBits = numSectors)
    (hmap : b'.writeLog fs.freeMapFile disk mem = some bits)
    (hentries : d'.writeLog fs.directoryFile (replayWrites disk bits) mem' = some entries) :
    (∀ k, Midway (blocks disk) (blocks (replayWrites disk ((bits ++ entries).take k))) d' []) ∧
      ∀ l < numDirEntries, d'.SameEntry
        (diskDirectory (blocks (replayWrites disk (bits ++ entries)))) l := by
  obtain ⟨log, hlog, hshort, hall⟩ := Directory.writeLog_spec hfs.directoryFile (by decide) hsize
    (replayWrites disk bits) mem'
  obtain rfl := Option.some.inj (hlog.symm.trans hentries)
  have hframe := BitMap.writeLog_frame hfs.freeMapFile hbits hmap
  have hnews : ∀ b ∈ ([] : List Nat), 5 ≤ b := fun b hb => absurd hb List.not_mem_nil
  have hframe' := hframe bits.length
  rw [List.take_length] at hframe'
  refine ⟨fun k => ?_, fun l hl => ?_⟩
  · rcases replayWrites_take_append disk bits log k with ⟨m, heq⟩ | ⟨m, heq⟩
    · rw [heq]
      exact Midway.before (fun b hb _ => hframe m b hb) hnews
    · rw [heq]
      exact Midway.writing (fun b hb _ => hframe' b hb) hnews (hshort m).1 (hshort m).2
  · rw [replayWrites_append]
    exact hall l hl

theorem removeLog_cases (hfs : fs.Ready) (h : Shows (blocks disk) files)
    (hlog : fs.removeLog disk name mem = some (r, log)) :
    log = [] ∨ ∃ i d', Removing (blocks disk) name i d' ∧
      (∀ k, Midway (blocks disk) (blocks (replayWrites disk (log.take k))) d' []) ∧
      ∀ l < numDirEntries, d'.SameEntry (diskDirectory (blocks (replayWrites disk log))) l := by
  obtain ⟨d₁, hfetch, htable, hsame⟩ := (hfs.reads disk).directory (mem 0) (mem 1)
  have hlists := h.lists.congr htable hsame
  rcases cases_name files name with ⟨i, f, hf, hkey⟩ | habsent
  · have hi := h.slots i f hf
    have hindex := hlists.findIndex h.distinct hi hf hkey
    have hfind : d₁.find name = f.header := hlists.find h.distinct hi hf hkey
    have hne : ¬ (f.header : Int) = -1 := by omega
    obtain ⟨hdr, hhdr, hbytes⟩ := FileHeader.fetchFrom_eq ⟨mem 2⟩ disk (h.header_lt hf)
    obtain ⟨b₀, hnew, hbits₀, -⟩ := newFreeMap_spec (mem 3)
    have hmap := (hfs.reads disk).freeMap b₀ hbits₀ (mem 4)
    have hmarked : ∀ k ∈ f.sectors, k ∈ (diskMap (blocks disk)).marked := fun k hk =>
      h.marked hf (List.mem_cons_of_mem _ hk)
    obtain ⟨b₁, hdealloc, hbits₁, -⟩ := FileHeader.deallocate_spec ((h.headers i f hf).congr hbytes)
      (List.nodup_cons.mp (h.nodup hf)).2 (show (diskMap (blocks disk)).numBits = numSectors from rfl)
      hmarked
    obtain ⟨b₂, hclear, hbits₂, -⟩ := b₁.clear_spec (hbits₁.symm ▸ h.header_lt hf)
    have hremove : (d₁.remove name).2 = d₁.setInUse i false := by
      simp only [Directory.remove, hindex]
    simp only [removeLog, hfetch, Option.bind_eq_bind, Option.bind_some, hfind, if_neg hne, hhdr, hnew, hmap,
      hdealloc, hclear, hremove] at hlog
    obtain ⟨bits, hbits, hlog⟩ := Option.bind_eq_some_iff.mp hlog
    obtain ⟨entries, hentries, hlog⟩ := Option.bind_eq_some_iff.mp hlog
    cases hlog
    obtain ⟨huse, hdkey, -⟩ := h.lists.entry i hi f hf
    refine Or.inr ⟨i, d₁.setInUse i false, ⟨hi, huse, hdkey.trans hkey, Directory.inUse_setInUse false, ?_,
      fun l hl hli => (hsame l hl).trans (Directory.sameEntry_setInUse false hli)⟩,
      remove_midway hfs htable (hbits₂.trans hbits₁) hbits hentries⟩
    rw [Directory.key_setInUse]
    exact (hsame i hi).key
  · obtain ⟨-, hfind⟩ := hlists.find_none fun i _ f hf => habsent i f hf
    simp only [removeLog, hfetch, Option.bind_eq_bind, Option.bind_some, hfind, if_true] at hlog
    cases hlog
    exact Or.inl rfl

end FileSystem

/-! ## The files afterwards -/

section Afterwards

variable {disk disk' : DiskFile} {files : Nat → Option FileRec} {name other : Bytes} {bytes : List UInt8} {i n : Nat}
  {d' : Directory}

/-- **`Create` that is cut short** loses no file. -/
theorem FileSystem.Creating.finds (hc : Creating (blocks disk) other i n d')
    (hmid : Midway (blocks disk) (blocks disk') d' [n]) (h : Shows (blocks disk) files)
    (hord : (diskDirectory (blocks disk)).Ordered)
    (hbytes : fileContents (blocks disk) (fileKey name) = some bytes) : Finds disk' name (some bytes) := by
  have hn : 5 ≤ n := Nat.le_of_not_lt fun hlt => hc.clear (h.system_marked hlt)
  obtain ⟨j, g, hg, hkey, rfl⟩ := h.of_fileContents hbytes
  have hj := h.slots j g hg
  obtain ⟨huse, hgkey, -⟩ := h.lists.entry j hj g hg
  have hji : j ≠ i := by
    rintro rfl
    rw [hc.unused] at huse
    cases huse
  -- the entries of the other files are as they were
  have hsame : ∀ l < numDirEntries, l ≠ i →
      (diskDirectory (blocks disk)).SameEntry (diskDirectory (blocks disk')) l :=
    fun l hl hli => hmid.sameEntry hl (hc.others l hl hli)
  refine h.finds_kept hg hkey (fun b hb => hmid.frame b (Or.inl hb) ?_) (fun b hb => ?_) (hsame j hj hji)
    fun l hl hluse => ?_
  · rw [List.mem_singleton]
    omega
  · refine hmid.frame b (Or.inr (h.not_system hg hb)) fun hmem => ?_
    exact hc.clear (List.mem_singleton.mp hmem ▸ h.marked hg hb)
  · have hl' := Nat.lt_trans hl hj
    by_cases hli : l = i
    · subst hli
      rcases (hmid.entries l hl').cases with hold | hnew | ⟨-, hstale⟩
      · rw [hold.inUse, hc.unused] at hluse
        cases hluse
      · rw [hnew.key, hc.key, ← hkey, ← hgkey]
        exact (hc.absent j hj huse).symm
      · -- the entry across two sectors
        rw [hstale, ← hkey, ← hgkey]
        exact hord j hj huse l hl
    · rw [(hsame l hl' hli).inUse] at hluse
      rw [(hsame l hl' hli).key]
      exact h.other_key hg hkey hl' (Nat.ne_of_lt hl) hluse

/-- **`Remove` that is cut short** loses at most the file that is removed. -/
theorem FileSystem.Removing.finds (hr : Removing (blocks disk) other i d')
    (hmid : Midway (blocks disk) (blocks disk') d' []) (h : Shows (blocks disk) files)
    (hbytes : fileContents (blocks disk) (fileKey name) = some bytes) :
    Finds disk' name (some bytes) ∨ fileKey other = fileKey name ∧ Finds disk' name none := by
  obtain ⟨j, g, hg, hkey, rfl⟩ := h.of_fileContents hbytes
  have hj := h.slots j g hg
  have hsystem : ∀ b < 2, blocks disk' b = blocks disk b := fun b hb =>
    hmid.frame b (Or.inl hb) List.not_mem_nil
  have hsame : ∀ l < numDirEntries, l ≠ i →
      (diskDirectory (blocks disk)).SameEntry (diskDirectory (blocks disk')) l :=
    fun l hl hli => hmid.sameEntry hl (hr.others l hl hli)
  have hkept : (diskDirectory (blocks disk)).SameEntry (diskDirectory (blocks disk')) i ∨
      (diskDirectory (blocks disk')).inUse i = false := by
    rcases (hmid.entries i hr.slot).cases with hold | hnew | ⟨huse, -⟩
    · exact Or.inl hold
    · exact Or.inr (hnew.inUse.trans hr.unused)
    · exact Or.inr (huse.trans hr.unused)
  have hothers : ∀ l < numDirEntries, l ≠ j → (diskDirectory (blocks disk')).inUse l = true →
      (diskDirectory (blocks disk')).key l ≠ fileKey name := by
    intro l hl hlj hluse
    have hold : (diskDirectory (blocks disk)).SameEntry (diskDirectory (blocks disk')) l := by
      by_cases hli : l = i
      · subst hli
        refine hkept.resolve_right fun hunused => ?_
        rw [hunused] at hluse
        cases hluse
      · exact hsame l hl hli
    rw [hold.inUse] at hluse
    rw [hold.key]
    exact h.other_key hg hkey hl hlj hluse
  have hfound : (diskDirectory (blocks disk)).SameEntry (diskDirectory (blocks disk')) j →
      Finds disk' name (some (g.bytes (blocks disk))) := fun hentry =>
    h.finds_kept hg hkey hsystem (fun b hb => hmid.frame b (Or.inr (h.not_system hg hb)) List.not_mem_nil) hentry
      fun l hl => hothers l (Nat.lt_trans hl hj) (Nat.ne_of_lt hl)
  by_cases hji : j = i
  · subst hji
    rcases hkept with hentry | hunused
    · exact Or.inl (hfound hentry)
    · refine Or.inr ⟨?_, (h.mountable.congr hsystem).finds_none fun l hl hluse => ?_⟩
      · rw [← hr.named, (h.lists.entry j hj g hg).2.1, hkey]
      · refine hothers l hl ?_ hluse
        rintro rfl
        rw [hunused] at hluse
        cases hluse
  · exact Or.inl (hfound (hsame j hj hji))

end Afterwards

namespace Fs

variable {s s' : Fs} {files : Nat → Option FileRec}

/-- The writes of a `WriteAt` through a handle whose file was not removed. -/
theorem Holds.writeLog (h : s.Holds files) {j : Nat} {hd : Handle} (hh : s.handles j = some hd)
    (hlive : hd.removed = false) {numBytes position : Int} (hpos : 0 ≤ position) (hover : position + numBytes < 2 ^ 31)
    {mem : Nat → Bytes} {from_ : Bytes} {log : List SectorWrite}
    (hlog : (hd.file.writeLog s.disk mem from_ numBytes position).map (·.2) = some log) :
    ∃ i f, hd.Opens files i f ∧ ∀ k, f.Written (blocks s.disk)
      (blocks (replayWrites s.disk (log.take k))) from_
      (OpenFile.within position.toNat (OpenFile.clamp f.length numBytes position.toNat) k) position.toNat := by
  obtain ⟨p, rfl⟩ := Int.eq_ofNat_of_zero_le hpos
  obtain ⟨i, f, hopens⟩ := h.handles j hd hh hlive
  have hnodup : f.sectors.Nodup := (List.nodup_cons.mp (h.shows.nodup hopens.file)).2
  obtain ⟨log', hlog', hshort⟩ := OpenFile.writeLog_spec hopens.hdr hnodup hover s.disk mem from_
  rw [hlog'] at hlog
  obtain rfl := Option.some.inj hlog
  exact ⟨i, f, hopens, fun k => ⟨(hshort k).1, (hshort k).2⟩⟩

/-- A write of data leaves the directory alone. -/
theorem ordered_of_written (h : Shows (blocks s.disk) files) {i : Nat} {f : FileRec} (hf : files i = some f)
    (hord : (diskDirectory (blocks s.disk)).Ordered) {log : List SectorWrite} {from_ : Bytes} {r : Nat → Nat}
    {p : Nat} (hshort : ∀ k, f.Written (blocks s.disk)
      (blocks (replayWrites s.disk (log.take k))) from_ (r k) p) :
    (diskDirectory (blocks (replayWrites s.disk log))).Ordered := by
  have hwritten := hshort log.length
  rw [List.take_length] at hwritten
  have hsystem : ∀ b < 5, blocks (replayWrites s.disk log) b = blocks s.disk b := by
    intro b hb
    refine hwritten.frame b fun hmem => ?_
    have hge := h.not_system hf (List.mem_cons_of_mem _ hmem)
    omega
  exact hord.congr fun l hl => diskDirectory_congr (hsystem 3 (by decide)) (hsystem 4 (by decide)) hl

/-- **Calls keep the names in order.** -/
theorem Holds.ordered (h : s.Holds files) (hord : (diskDirectory (blocks s.disk)).Ordered) {a : FsAct}
    (ha : a.Legal s) {log : List SectorWrite} (hlog : s.writes a = some log) :
    (diskDirectory (blocks (replayWrites s.disk log))).Ordered := by
  cases a with
  | create name initialSize mem =>
    obtain ⟨size, rfl⟩ := Int.eq_ofNat_of_zero_le ha.1
    obtain ⟨⟨r, log'⟩, hcreate, rfl⟩ := Option.map_eq_some_iff.mp hlog
    rcases FileSystem.createLog_cases h.ready h.shows (Int.ofNat_le.mp ha.2) hcreate with rfl |
      ⟨i, n, d', hc, -, hall⟩
    · exact hord
    · exact (hord.fill hc.first hc.absent hc.key hc.others).congr hall
  | remove name mem =>
    obtain ⟨⟨r, log'⟩, hremove, rfl⟩ := Option.map_eq_some_iff.mp hlog
    rcases FileSystem.removeLog_cases h.ready h.shows hremove with rfl | ⟨i, d', hr, -, hall⟩
    · exact hord
    · refine (hord.empty (fun l hl huse => ?_) fun l hl => ?_).congr hall
      · by_cases hli : l = i
        · rw [hli]
          exact hr.inUse
        · rw [← (hr.others l hl hli).inUse]
          exact huse
      · by_cases hli : l = i
        · rw [hli]
          exact hr.key
        · exact (hr.others l hl hli).key
  | writeAt k from_ numBytes position mem | write k from_ numBytes mem =>
    obtain ⟨hd, hh, hlive, hpos, hover⟩ := ha
    rw [writes, hh] at hlog
    obtain ⟨i, f, hopens, hshort⟩ := h.writeLog hh hlive hpos hover hlog
    exact ordered_of_written h.shows hopens.file hord hshort
  | _ =>
    obtain rfl := Option.some.inj hlog
    exact hord

/-- In every run of sessions the disk is in order, and so are the names. -/
theorem ordered_of_mounts (h : (mountSys.restrict MountAct.Legal).Reach s) :
    ∃ files, s.Holds files ∧ (diskDirectory (blocks s.disk)).Ordered := by
  refine Lts.Reach.invariant
    (I := fun s => ∃ files, s.Holds files ∧ (diskDirectory (blocks s.disk)).Ordered) (fun s hinit => ?_)
    (fun s a s' _ hold hstep => ?_) h
  · have hholds := holds_of_init hinit
    refine ⟨_, hholds, fun j hj huse => ?_⟩
    obtain ⟨f, hf, -⟩ := hholds.shows.lists.of_inUse hj huse
    cases hf
  · obtain ⟨files, hholds, hord⟩ := hold
    obtain ⟨hlegal, hstep⟩ := hstep
    cases a with
    | call a =>
      obtain ⟨out, hs⟩ := hstep
      obtain ⟨files', hfs⟩ := hholds.step_cases (FsAct.Legal.safe hlegal) hs
      obtain ⟨log, hlog, hdisk⟩ := step_writes hs
      refine ⟨files', hfs.holds hholds, ?_⟩
      rw [hdisk]
      exact hholds.ordered hord hlegal hlog
    | remount mem =>
      obtain ⟨s₁, hmount, hholds₁, -⟩ := hholds.remount mem
      obtain rfl := Option.some.inj (hmount.symm.trans hstep)
      obtain ⟨system, -, rfl⟩ := Option.map_eq_some_iff.mp hmount
      exact ⟨files, hholds₁, hord⟩

end Fs

/-- What a new session may find of a file, if a call was cut short. -/
def FsAct.Leaves (s : Fs) (key bytes : List UInt8) : FsAct → Option (List UInt8) → Prop
  | remove name _, found => found = some bytes ∨ fileKey name = key ∧ found = none
  | writeAt h from_ numBytes position _, found => found = some bytes ∨ ∃ hd r, s.handles h = some hd ∧ hd.key = key ∧
      r ≤ OpenFile.clamp bytes.length numBytes position.toNat ∧
      found = some (writeBytes bytes from_ r position.toNat)
  | write h from_ numBytes _, found => found = some bytes ∨ ∃ hd r, s.handles h = some hd ∧ hd.key = key ∧
      r ≤ OpenFile.clamp bytes.length numBytes hd.file.seekPosition.toNat ∧
      found = some (writeBytes bytes from_ r hd.file.seekPosition.toNat)
  | _, found => found = some bytes

/-- **Data that is written in part.** -/
theorem Shows.finds_written {disk disk' : DiskFile} {files : Nat → Option FileRec} {name : Bytes} {bytes : List UInt8}
    (h : Shows (blocks disk) files) {i : Nat} {f : FileRec} (hf : files i = some f) {from_ : Bytes} {r p : Nat}
    (hwritten : f.Written (blocks disk) (blocks disk') from_ r p)
    (hbytes : fileContents (blocks disk) (fileKey name) = some bytes) :
    Finds disk' name (some bytes) ∨
      f.key = fileKey name ∧ bytes.length = f.length ∧ Finds disk' name (some (writeBytes bytes from_ r p)) := by
  have h' : Shows (blocks disk') files := h.of_data hf hwritten.frame
  have hcontents := h.fileContents_written hf hwritten
  by_cases hkey : fileKey name = f.key
  · rw [hkey, h.fileContents_eq hf] at hbytes
    obtain rfl := Option.some.inj hbytes
    refine Or.inr ⟨hkey.symm, f.length_bytes _, h'.finds ?_⟩
    rw [hcontents, hkey, Function.update_self]
  · refine Or.inl (h'.finds ?_)
    rw [hcontents, Function.update_of_ne hkey]
    exact hbytes

/-- **A loss of power keeps the files.**  The disk after a call is the old one with a list of sector writes done; if
    only the first `k` of them are done, a new session finds every file that was there before the call as it
    was, except for what the call is about. -/
theorem power_loss_keeps_files {s : Fs} (h : (mountSys.restrict MountAct.Legal).Reach s) {a : FsAct}
    (ha : a.Legal s) :
    ∃ log, s.writes a = some log ∧
      (∀ s' out, s.step a = some (s', out) → s'.disk = replayWrites s.disk log) ∧
      ∀ k name bytes, s.fileMap.contents (fileKey name) = some bytes →
        ∃ found, a.Leaves s (fileKey name) bytes found ∧ Finds (replayWrites s.disk (log.take k)) name found := by
  obtain ⟨files, hholds, hord⟩ := Fs.ordered_of_mounts h
  obtain ⟨s', out, hs⟩ := hholds.returns ha
  obtain ⟨log, hlog, hdisk⟩ := Fs.step_writes hs
  refine ⟨log, hlog, fun s'' out' hs' => ?_, fun k name bytes hbytes => ?_⟩
  · obtain ⟨rfl, -⟩ := Prod.mk.inj (Option.some.inj (hs.symm.trans hs'))
    exact hdisk
  have hnothing : log = [] → Finds (replayWrites s.disk (log.take k)) name (some bytes) := by
    rintro rfl
    rw [List.take_nil]
    exact hholds.shows.finds hbytes
  cases a with
  | create other initialSize mem =>
    obtain ⟨size, rfl⟩ := Int.eq_ofNat_of_zero_le ha.1
    obtain ⟨⟨r, log'⟩, hcreate, rfl⟩ := Option.map_eq_some_iff.mp hlog
    refine ⟨some bytes, rfl, ?_⟩
    rcases FileSystem.createLog_cases hholds.ready hholds.shows (Int.ofNat_le.mp ha.2) hcreate with hempty |
      ⟨i, n, d', hc, hmid, -⟩
    · exact hnothing hempty
    · exact hc.finds (hmid k) hholds.shows hord hbytes
  | remove other mem =>
    obtain ⟨⟨r, log'⟩, hremove, rfl⟩ := Option.map_eq_some_iff.mp hlog
    rcases FileSystem.removeLog_cases hholds.ready hholds.shows hremove with hempty | ⟨i, d', hr, hmid, -⟩
    · exact ⟨some bytes, Or.inl rfl, hnothing hempty⟩
    · rcases hr.finds (hmid k) hholds.shows hbytes with hkept | ⟨hkey, hgone⟩
      · exact ⟨some bytes, Or.inl rfl, hkept⟩
      · exact ⟨none, Or.inr ⟨hkey, rfl⟩, hgone⟩
  | writeAt j from_ numBytes position mem | write j from_ numBytes mem =>
    obtain ⟨hd, hh, hlive, hpos, hover⟩ := ha
    rw [Fs.writes, hh] at hlog
    obtain ⟨i, f, hopens, hshort⟩ := hholds.writeLog hh hlive hpos hover hlog
    rcases hholds.shows.finds_written hopens.file (hshort k) hbytes with hkept | ⟨hkey, hlength, hpart⟩
    · exact ⟨some bytes, Or.inl rfl, hkept⟩
    · exact ⟨_, Or.inr ⟨hd, _, hh, hopens.key.symm.trans hkey, hlength ▸ Nat.min_le_left .., rfl⟩, hpart⟩
  | _ =>
    obtain rfl := Option.some.inj hlog
    exact ⟨some bytes, rfl, hnothing rfl⟩

/-- The power goes while a second file is created: the first one is there. -/
theorem power_loss_keeps_files_created :
    ∃ bytes log, writtenFs.fileMap.contents (fileKey (letter 102)) = some bytes ∧
      writtenFs.writes (.create (letter 103) 256 zeros) = some log ∧
      ∀ k, Finds (replayWrites writtenFs.disk (log.take k)) (letter 102) (some bytes) := by
  have hsome : (writtenFs.fileMap.contents (fileKey (letter 102))).isSome := by decide +kernel
  obtain ⟨bytes, hbytes⟩ := Option.isSome_iff_exists.mp hsome
  obtain ⟨log, hlog, -, hkeeps⟩ := power_loss_keeps_files (Fs.mounts_of_session writtenFs_reach)
    (a := .create (letter 103) 256 zeros) size_allowed
  refine ⟨bytes, log, hbytes, hlog, fun k => ?_⟩
  obtain ⟨found, hfound, hfinds⟩ := hkeeps k (letter 102) bytes hbytes
  rwa [show found = some bytes from hfound] at hfinds

end Nachos
