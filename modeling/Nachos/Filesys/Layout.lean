/-
  What is on a disk that is in order.

  Seen from above, a disk holds at most ten FILES, each in a slot of the directory; a file has a key (the
  first 9 characters of its name), a header sector, a length and data sectors (`FileRec`).  `Shows` says
  that the sectors of the disk are as they should be for these files: the directory lists them, every
  header describes its file, the headers of the bitmap and of the directory are where they are
  expected, no two files have the same key, and the sectors are a `Pool` whose marks are the bitmap and
  whose owners are the file system itself and the files.

  The four transfers between memory and disk are exact: what is fetched is what is on disk, and what is
  written back is on disk then, with no other sector changed.
-/
import Nachos.Filesys.FileSys
import Nachos.Lib.Pool

namespace Nachos

/-! ## Files, and directories that list them -/

/-- A file. -/
structure FileRec where
  key : List UInt8
  header : Nat
  length : Nat
  sectors : List Nat

/-- The sectors of a file. -/
def FileRec.owns (f : FileRec) : List Nat := f.header :: f.sectors

/-- The directory has an entry for every file, and no other in use. -/
structure Directory.Lists (d : Directory) (files : Nat → Option FileRec) : Prop where
  size : d.tableSize = numDirEntries
  free : ∀ i < numDirEntries, files i = none → d.inUse i = false
  entry : ∀ i < numDirEntries, ∀ f, files i = some f →
    d.inUse i = true ∧ d.key i = f.key ∧ d.sector i = f.header

/-- No two files have the same key. -/
def Distinct (files : Nat → Option FileRec) : Prop :=
  ∀ i j f g, files i = some f → files j = some g → f.key = g.key → i = j

namespace Directory.Lists

variable {d d' : Directory} {files : Nat → Option FileRec} {i : Nat} {name : Bytes}

theorem congr (h : d.Lists files) (hsize : d'.tableSize = d.tableSize)
    (hsame : ∀ i < numDirEntries, d.SameEntry d' i) : d'.Lists files := by
  refine ⟨hsize.trans h.size, fun i hi hnone => ?_, fun i hi f hf => ?_⟩
  · rw [(hsame i hi).inUse]
    exact h.free i hi hnone
  · rw [(hsame i hi).inUse, (hsame i hi).key, (hsame i hi).sector]
    exact h.entry i hi f hf

/-- An entry that is in use is that of a file. -/
theorem of_inUse (h : d.Lists files) (hi : i < numDirEntries) (huse : d.inUse i = true) :
    ∃ f, files i = some f ∧ d.key i = f.key ∧ d.sector i = f.header := by
  cases hf : files i with
  | none =>
    rw [h.free i hi hf] at huse
    cases huse
  | some f => exact ⟨f, rfl, (h.entry i hi f hf).2⟩

/-- A file is found by its name. -/
theorem findIndex (h : d.Lists files) (hdistinct : Distinct files) (hi : i < numDirEntries) {f : FileRec}
    (hf : files i = some f) (hkey : f.key = fileKey name) : d.findIndex name = some i := by
  obtain ⟨huse, hdkey, -⟩ := h.entry i hi f hf
  refine findIndex_eq (by rw [h.size]; exact hi) huse (hdkey.trans hkey) fun j hj hjuse hjkey => ?_
  rw [h.size] at hj
  obtain ⟨g, hg, hgkey, -⟩ := h.of_inUse hj hjuse
  exact hdistinct j i g f hg hf (hgkey.symm.trans (hjkey.trans hkey.symm))

theorem find (h : d.Lists files) (hdistinct : Distinct files) (hi : i < numDirEntries) {f : FileRec}
    (hf : files i = some f) (hkey : f.key = fileKey name) : d.find name = f.header := by
  rw [Directory.find, h.findIndex hdistinct hi hf hkey]
  exact (h.entry i hi f hf).2.2

/-- A name that no file has is not found. -/
theorem find_none (h : d.Lists files) (hnone : ∀ i < numDirEntries, ∀ f, files i = some f →
    f.key ≠ fileKey name) : d.findIndex name = none ∧ d.find name = -1 := by
  have hindex : d.findIndex name = none := by
    refine findIndex_eq_none.mpr fun i hi huse hkey => ?_
    rw [h.size] at hi
    obtain ⟨f, hf, hfkey, -⟩ := h.of_inUse hi huse
    exact hnone i hi f hf (hfkey.symm.trans hkey)
  refine ⟨hindex, ?_⟩
  rw [Directory.find, hindex]

/-- An entry is filled. -/
theorem fill (h : d.Lists files) {f : FileRec} (hsize : d'.tableSize = d.tableSize)
    (huse : d'.inUse i = true) (hkey : d'.key i = f.key) (hsector : d'.sector i = f.header)
    (hsame : ∀ j < numDirEntries, j ≠ i → d.SameEntry d' j) : d'.Lists (Function.update files i (some f)) := by
  refine ⟨hsize.trans h.size, fun j hj hnone => ?_, fun j hj g hg => ?_⟩
  · by_cases hji : j = i
    · rw [hji, Function.update_self] at hnone
      cases hnone
    · rw [Function.update_of_ne hji] at hnone
      rw [(hsame j hj hji).inUse]
      exact h.free j hj hnone
  · rcases Pool.update_eq_some hg with ⟨rfl, heq⟩ | ⟨hji, hg⟩
    · obtain rfl := Option.some.inj heq
      exact ⟨huse, hkey, hsector⟩
    · rw [(hsame j hj hji).inUse, (hsame j hj hji).key, (hsame j hj hji).sector]
      exact h.entry j hj g hg

/-- An entry is taken out of use. -/
theorem empty (h : d.Lists files) (hsize : d'.tableSize = d.tableSize) (huse : d'.inUse i = false)
    (hsame : ∀ j, j ≠ i → d.SameEntry d' j) : d'.Lists (Function.update files i none) := by
  refine ⟨hsize.trans h.size, fun j hj hnone => ?_, fun j hj g hg => ?_⟩
  · by_cases hji : j = i
    · rw [hji]
      exact huse
    · rw [Function.update_of_ne hji] at hnone
      rw [(hsame j hji).inUse]
      exact h.free j hj hnone
  · rcases Pool.update_eq_some hg with ⟨-, heq⟩ | ⟨hji, hg⟩
    · cases heq
    · rw [(hsame j hji).inUse, (hsame j hji).key, (hsame j hji).sector]
      exact h.entry j hj g hg

end Directory.Lists

/-! ## The directory on disk -/

/-- The data sectors of the directory. -/
def directorySectors : List Nat := [3, 4]

/-- The directory in its file. -/
def diskDirectory (store : Blocks sectorSize) : Directory := ⟨numDirEntries, store.array directorySectors⟩

namespace Directory

variable {file : OpenFile} {d : Directory}

/-- What is fetched is what is in the file. -/
theorem fetchFrom_array {S : List Nat} (hd : file.hdr.Describes directoryFileSize S) (disk : DiskFile)
    (mem mem' : Bytes) :
    ∃ d, (Directory.new numDirEntries mem).fetchFrom file disk mem' = some d ∧
      d.tableSize = numDirEntries ∧
      ∀ i < numDirEntries, (Directory.mk numDirEntries ((DiskFile.blocks disk).array S)).SameEntry d i := by
  have hsize := (new_spec numDirEntries mem).1
  have hread := OpenFile.readAt_spec (p := 0) hd (n := ((numDirEntries * directoryEntrySize : Nat) : Int))
    (by decide) disk mem' (Directory.new numDirEntries mem).table 0
  refine ⟨⟨(Directory.new numDirEntries mem).tableSize, bcopy ((DiskFile.blocks disk).array S) 0
    (Directory.new numDirEntries mem).table 0 200⟩, ?_, hsize, fun i hi a ha => ?_⟩
  · rw [fetchFrom, hsize]
    rw [show ((0 : Nat) : Int) = 0 from rfl] at hread
    rw [hread]
    rfl
  · rw [show numDirEntries = 10 from rfl] at hi
    rw [show directoryEntrySize = 20 from rfl] at ha ⊢
    show bcopy _ 0 _ 0 200 (20 * i + a) = (DiskFile.blocks disk).array S (20 * i + a)
    rw [bcopy_zero (by omega), Nat.zero_add]

/-- What is written back is in the file. -/
theorem writeBack_array {S : List Nat} (hd : file.hdr.Describes directoryFileSize S) (hS : S.Nodup)
    (hsize : d.tableSize = numDirEntries) (disk : DiskFile) (mem : Nat → Bytes) :
    ∃ disk', d.writeBack file disk mem = some disk' ∧
      (∀ b ∉ S, DiskFile.blocks disk' b = DiskFile.blocks disk b) ∧
      ∀ i < numDirEntries, d.SameEntry (Directory.mk numDirEntries ((DiskFile.blocks disk').array S)) i := by
  obtain ⟨disk', hwrite, hframe, harray⟩ := OpenFile.writeAt_spec (p := 0) hd hS
    (n := ((numDirEntries * directoryEntrySize : Nat) : Int)) (by decide) disk mem d.table
  refine ⟨disk', ?_, hframe, fun i hi a ha => ?_⟩
  · rw [writeBack, hsize]
    rw [show ((0 : Nat) : Int) = 0 from rfl] at hwrite
    rw [hwrite]
    rfl
  · rw [show numDirEntries = 10 from rfl] at hi
    rw [show directoryEntrySize = 20 from rfl] at ha ⊢
    have hbyte := harray (20 * i + a) (by rw [show directoryFileSize = 200 from rfl]; omega)
    have hin : 0 ≤ 20 * i + a ∧ 20 * i + a
        < 0 + OpenFile.clamp directoryFileSize ((numDirEntries * directoryEntrySize : Nat) : Int) 0 := by
      rw [show OpenFile.clamp directoryFileSize ((numDirEntries * directoryEntrySize : Nat) : Int) 0 = 200
        from rfl]
      omega
    rw [if_pos hin, Nat.sub_zero] at hbyte
    exact hbyte

end Directory

/-! ## The bitmap on disk -/

/-- The data sectors of the bitmap. -/
def freeMapSectors : List Nat := [2]

/-- The bitmap in its file. -/
def diskMap (store : Blocks sectorSize) : BitMap := .ofBytes numSectors (store.array freeMapSectors)

namespace BitMap

variable {file : OpenFile} {b : BitMap}

theorem eq_of_map {b b' : BitMap} (hbits : b.numBits = b'.numBits) (hmap : b.map = b'.map) : b = b' := by
  obtain ⟨n, m, h⟩ := b
  obtain ⟨n', m', h'⟩ := b'
  obtain rfl : n = n' := hbits
  obtain rfl : m = m' := hmap
  rfl

/-- 1024 bits are 32 words. -/
theorem length_map (hbits : b.numBits = numSectors) : b.map.length = 32 := by
  have hwords := b.numWords
  rw [hbits] at hwords
  exact Int.ofNat_inj.mp (hwords.trans (by decide))

theorem ofBytes_congr {bytes bytes' : Bytes} (h : ∀ a < 128, bytes a = bytes' a) :
    ofBytes numSectors bytes = ofBytes numSectors bytes' := by
  refine eq_of_map rfl (List.map_congr_left fun w hw => getWord_congr fun i hi => h _ ?_)
  have hlt : w < 32 := List.mem_range.mp hw
  omega

/-- The bytes of a bitmap are the bitmap. -/
theorem ofBytes_bytes (hbits : b.numBits = numSectors) : ofBytes numSectors b.bytes = b := by
  have hself : (List.range b.map.length).map (fun w => b.map.getD w 0) = b.map := by
    refine List.ext_getElem (by rw [List.length_map, List.length_range]) fun w hw hw' => ?_
    rw [List.getElem_map, List.getElem_range, List.getD_eq_getElem _ _ hw']
  rw [length_map hbits] at hself
  refine eq_of_map hbits.symm (Eq.trans (List.map_congr_left fun w _ => ?_) hself)
  refine getWord_of_wordByte fun i hi => ?_
  have hdiv : (4 * w + i) / 4 = w := by omega
  have hmod : (4 * w + i) % 4 = i := by omega
  rw [BitMap.bytes, hdiv, hmod]

/-- What is fetched is what is in the file. -/
theorem fetchFrom_array {S : List Nat} (hd : file.hdr.Describes freeMapFileSize S) (hbits : b.numBits = numSectors)
    (disk : DiskFile) (mem : Bytes) :
    b.fetchFrom file disk mem = some (ofBytes numSectors ((DiskFile.blocks disk).array S)) := by
  have hbytes : b.numBytes = 128 := by
    rw [numBytes, length_map hbits]
  have hread := OpenFile.readAt_spec (p := 0) hd (n := ((128 : Nat) : Int)) (by decide) disk mem b.bytes 0
  rw [show ((0 : Nat) : Int) = 0 from rfl] at hread
  rw [fetchFrom, hbytes, hread, Option.map_some, hbits]
  refine congrArg some (ofBytes_congr fun a ha => ?_)
  show bcopy _ 0 _ 0 128 a = _
  rw [bcopy_zero ha, Nat.zero_add]

/-- What is written back is in the file. -/
theorem writeBack_array {S : List Nat} (hd : file.hdr.Describes freeMapFileSize S) (hS : S.Nodup)
    (hbits : b.numBits = numSectors) (disk : DiskFile) (mem : Nat → Bytes) :
    ∃ disk', b.writeBack file disk mem = some disk' ∧
      (∀ n ∉ S, DiskFile.blocks disk' n = DiskFile.blocks disk n) ∧
      ofBytes numSectors ((DiskFile.blocks disk').array S) = b := by
  have hbytes : b.numBytes = 128 := by
    rw [numBytes, length_map hbits]
  obtain ⟨disk', hwrite, hframe, harray⟩ := OpenFile.writeAt_spec (p := 0) hd hS
    (n := ((128 : Nat) : Int)) (by decide) disk mem b.bytes
  refine ⟨disk', ?_, hframe, ?_⟩
  · rw [show ((0 : Nat) : Int) = 0 from rfl] at hwrite
    rw [writeBack, hbytes, hwrite]
    rfl
  · rw [← ofBytes_bytes hbits]
    refine ofBytes_congr fun a ha => ?_
    have hbyte := harray a ha
    have hin : 0 ≤ a ∧ a < 0 + OpenFile.clamp freeMapFileSize ((128 : Nat) : Int) 0 := by
      rw [show OpenFile.clamp freeMapFileSize ((128 : Nat) : Int) 0 = 128 from rfl]
      omega
    rw [if_pos hin, Nat.sub_zero] at hbyte
    exact hbyte

end BitMap

/-! ## A disk in order -/

/-- The bitmap depends on its sector. -/
theorem diskMap_congr {store store' : Blocks sectorSize} (hsame : store' 2 = store 2) :
    diskMap store' = diskMap store := by
  refine BitMap.ofBytes_congr fun a ha => Blocks.array_congr (fun b hb => ?_) ?_
  · rw [List.mem_singleton.mp hb]
    exact hsame
  · show a / 128 < 1
    omega

/-- The directory depends on its two sectors. -/
theorem diskDirectory_congr {store store' : Blocks sectorSize} (hsame₃ : store' 3 = store 3)
    (hsame₄ : store' 4 = store 4) {i : Nat} (hi : i < numDirEntries) :
    (diskDirectory store).SameEntry (diskDirectory store') i := by
  intro a ha
  refine Blocks.array_congr (fun b hb => ?_) ?_
  · rcases List.mem_cons.mp hb with rfl | hb
    · exact hsame₃
    · rw [List.mem_singleton.mp hb]
      exact hsame₄
  · rw [show numDirEntries = 10 from rfl] at hi
    rw [show directoryEntrySize = 20 from rfl] at ha ⊢
    show (20 * i + a) / 128 < 2
    omega

/-- The sectors that are not those of a file: the two headers, the bitmap, the directory. -/
def systemSectors : List (List Nat) := [[freeMapSector, directorySector], freeMapSectors, directorySectors]

theorem mem_system : ∀ n < 5, ∃ l ∈ systemSectors, n ∈ l := by decide

/-- Who has which sector: the marks of the bitmap, and what the file system and the files have. -/
def books (store : Blocks sectorSize) (files : Nat → Option FileRec) : Pool Nat where
  used := {n | n ∈ (diskMap store).marked}
  held := systemSectors ++ Pool.slots numDirEntries fun i => (files i).map FileRec.owns

/-- **The disk is in order**, and it has these files. -/
structure Shows (store : Blocks sectorSize) (files : Nat → Option FileRec) : Prop where
  freeMapHdr : (FileHeader.onDisk store freeMapSector).Describes freeMapFileSize freeMapSectors
  directoryHdr : (FileHeader.onDisk store directorySector).Describes directoryFileSize directorySectors
  lists : (diskDirectory store).Lists files
  slots : ∀ i f, files i = some f → i < numDirEntries
  headers : ∀ i f, files i = some f →
    (FileHeader.onDisk store f.header).Describes f.length f.sectors
  distinct : Distinct files
  books : (books store files).Ok

namespace Shows

variable {store store' : Blocks sectorSize} {files : Nat → Option FileRec} {i j : Nat} {f g : FileRec} {n : Nat}

/-- The sectors of a file are marked. -/
theorem marked (h : Shows store files) (hf : files i = some f) (hn : n ∈ f.owns) :
    n ∈ (diskMap store).marked := by
  refine (h.books.used n).mpr (List.mem_flatten.mpr ⟨f.owns, ?_, hn⟩)
  refine List.mem_append.mpr (Or.inr (Pool.mem_slots.mpr ⟨i, h.slots i f hf, ?_⟩))
  rw [hf]
  rfl

/-- So are those of the file system. -/
theorem system_marked (h : Shows store files) (hn : n < 5) : n ∈ (diskMap store).marked := by
  obtain ⟨l, hl, hnl⟩ := mem_system n hn
  exact (h.books.used n).mpr (List.mem_flatten.mpr ⟨l, List.mem_append.mpr (Or.inl hl), hnl⟩)

/-- A marked sector is a sector of the disk. -/
theorem lt_of_marked (hn : n ∈ (diskMap store).marked) : n < numSectors := (BitMap.mem_marked.mp hn).1

theorem header_lt (h : Shows store files) (hf : files i = some f) : f.header < numSectors :=
  lt_of_marked (h.marked hf (List.mem_cons_self ..))

/-- What the owners have, each once. -/
theorem pairwise (h : Shows store files) :
    (systemSectors ++ Pool.slots numDirEntries fun i => (files i).map FileRec.owns).Pairwise
      List.Disjoint := (List.nodup_flatten.mp h.books.nodup).2

/-- The file system shares no sector with a file. -/
theorem not_system (h : Shows store files) (hf : files i = some f) (hn : n ∈ f.owns) : 5 ≤ n := by
  refine Nat.le_of_not_lt fun hlt => ?_
  obtain ⟨l, hl, hnl⟩ := mem_system n hlt
  have hslot : f.owns ∈ Pool.slots numDirEntries fun i => (files i).map FileRec.owns := by
    refine Pool.mem_slots.mpr ⟨i, h.slots i f hf, ?_⟩
    rw [hf]
    rfl
  exact (List.pairwise_append.mp h.pairwise).2.2 l hl f.owns hslot hnl hn

/-- Two files share no sector. -/
theorem disjoint (h : Shows store files) (hf : files i = some f) (hg : files j = some g) (hij : i ≠ j)
    (hnf : n ∈ f.owns) (hng : n ∈ g.owns) : False := by
  have hslots := (List.pairwise_append.mp h.pairwise).2.1
  unfold Pool.slots at hslots
  rw [List.pairwise_filterMap] at hslots
  have hsymm : Std.Symm fun i j => ∀ xs, (files i).map FileRec.owns = some xs →
      ∀ ys, (files j).map FileRec.owns = some ys → xs.Disjoint ys :=
    ⟨fun _ _ hxy xs hxs ys hys => (hxy ys hys xs hxs).symm⟩
  have hpair := hslots.forall (List.mem_range.mpr (h.slots i f hf)) (List.mem_range.mpr (h.slots j g hg)) hij
  refine hpair f.owns ?_ g.owns ?_ hnf hng
  · rw [hf]
    rfl
  · rw [hg]
    rfl

/-- A file has no sector twice. -/
theorem nodup (h : Shows store files) (hf : files i = some f) : f.owns.Nodup := by
  refine (List.nodup_flatten.mp h.books.nodup).1 f.owns (List.mem_append.mpr (Or.inr ?_))
  refine Pool.mem_slots.mpr ⟨i, h.slots i f hf, ?_⟩
  rw [hf]
  rfl

/-- A header depends on its sector. -/
theorem describes_congr {sector length : Nat} {S : List Nat} (hsame : store' sector = store sector)
    (hd : (FileHeader.onDisk store sector).Describes length S) :
    (FileHeader.onDisk store' sector).Describes length S := by
  unfold FileHeader.onDisk at *
  rw [hsame]
  exact hd

/-- **A slot changes.**  The headers of the file system and of the files in the other slots are left alone,
    the directory and the bitmap are those of the new files. -/
theorem update (h : Shows store files) {o : Option FileRec} (hi : i < numDirEntries)
    (hsystem : ∀ b < 2, store' b = store b)
    (hothers : ∀ j, j ≠ i → ∀ g, files j = some g → store' g.header = store g.header)
    (hlists : (diskDirectory store').Lists (Function.update files i o))
    (hnew : ∀ f, o = some f → (FileHeader.onDisk store' f.header).Describes f.length f.sectors ∧
      ∀ j, j ≠ i → ∀ g, files j = some g → g.key ≠ f.key)
    (hbooks : (Nachos.books store' (Function.update files i o)).Ok) :
    Shows store' (Function.update files i o) := by
  refine ⟨describes_congr (hsystem 0 (by decide)) h.freeMapHdr,
    describes_congr (hsystem 1 (by decide)) h.directoryHdr, hlists, fun j g hg => ?_, fun j g hg => ?_,
    fun j k g g' hg hg' hkey => ?_, hbooks⟩
  -- a file of the new disk is the new one, or one of the others
  · rcases Pool.update_eq_some hg with ⟨rfl, -⟩ | ⟨-, hold⟩
    · exact hi
    · exact h.slots j g hold
  · rcases Pool.update_eq_some hg with ⟨-, hin⟩ | ⟨hji, hold⟩
    · exact (hnew g hin).1
    · exact describes_congr (hothers j hji g hold) (h.headers j g hold)
  · rcases Pool.update_eq_some hg with ⟨rfl, hin⟩ | ⟨hji, hold⟩
    · rcases Pool.update_eq_some hg' with ⟨rfl, -⟩ | ⟨hki, hold'⟩
      · rfl
      · exact absurd hkey.symm ((hnew g hin).2 k hki g' hold')
    · rcases Pool.update_eq_some hg' with ⟨rfl, hin'⟩ | ⟨hki, hold'⟩
      · exact absurd hkey ((hnew g' hin').2 j hji g hold)
      · exact h.distinct j k g g' hold hold' hkey

/-- The books after a slot was filled. -/
theorem books_fill (h : Shows store files) (hi : i < numDirEntries) (hnone : files i = none)
    (hnodup : f.owns.Nodup) (hfree : ∀ k ∈ f.owns, k ∉ (diskMap store).marked)
    (hmarked : ∀ k, k ∈ (diskMap store').marked ↔ k ∈ (diskMap store).marked ∨ k ∈ f.owns) :
    (Nachos.books store' (Function.update files i (some f))).Ok := by
  have hold := h.books
  have hown := Function.comp_update (Option.map FileRec.owns) files i (some f)
  have hused : {k | k ∈ (diskMap store').marked}
      = {k | k ∈ (diskMap store).marked} ∪ {k | k ∈ f.owns} := by
    ext k
    exact hmarked k
  unfold Nachos.books at hold ⊢
  rw [hused]
  have hfill := hold.fill hi (by rw [hnone]; rfl) hnodup hfree
  rwa [show Function.update (fun j => (files j).map FileRec.owns) i (some f.owns) = _ from hown.symm]
    at hfill

/-- The books after a slot was emptied. -/
theorem books_empty (h : Shows store files) (hf : files i = some f)
    (hmarked : ∀ k, k ∈ (diskMap store').marked ↔ k ∈ (diskMap store).marked ∧ k ∉ f.owns) :
    (Nachos.books store' (Function.update files i none)).Ok := by
  have hold := h.books
  have hown := Function.comp_update (Option.map FileRec.owns) files i none
  have hused : {k | k ∈ (diskMap store').marked}
      = {k | k ∈ (diskMap store).marked} \ {k | k ∈ f.owns} := by
    ext k
    exact hmarked k
  unfold Nachos.books at hold ⊢
  rw [hused]
  have hempty := hold.empty (h.slots i f hf) (show (files i).map FileRec.owns = some f.owns by rw [hf]; rfl)
  rwa [show Function.update (fun j => (files j).map FileRec.owns) i none = _ from hown.symm] at hempty

/-- **Data of a file changes**: sectors that are data of one file hold no part of the order of the disk. -/
theorem of_data (h : Shows store files) (hf : files i = some f)
    (hsame : ∀ b ∉ f.sectors, store' b = store b) : Shows store' files := by
  have hsystem : ∀ b < 5, store' b = store b := by
    intro b hb
    refine hsame b fun hmem => ?_
    have hge := h.not_system hf (List.mem_cons_of_mem _ hmem)
    omega
  have hheader : ∀ j g, files j = some g → store' g.header = store g.header := by
    intro j g hg
    refine hsame _ fun hmem => ?_
    by_cases hji : i = j
    · subst hji
      rw [hf] at hg
      obtain rfl := Option.some.inj hg
      exact (List.nodup_cons.mp (h.nodup hf)).1 hmem
    · exact h.disjoint hf hg hji (List.mem_cons_of_mem _ hmem) (List.mem_cons_self ..)
  refine ⟨describes_congr (hsystem 0 (by decide)) h.freeMapHdr,
    describes_congr (hsystem 1 (by decide)) h.directoryHdr,
    h.lists.congr rfl fun i hi => diskDirectory_congr (hsystem 3 (by decide)) (hsystem 4 (by decide)) hi,
    h.slots, fun j g hg => describes_congr (hheader j g hg) (h.headers j g hg), h.distinct, ?_⟩
  have hbooks : Nachos.books store' files = Nachos.books store files := by
    unfold Nachos.books
    rw [diskMap_congr (hsystem 2 (by decide))]
  rw [hbooks]
  exact h.books

end Shows

end Nachos
