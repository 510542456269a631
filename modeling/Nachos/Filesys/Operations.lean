/-
  What `Create`, `Open`, `Remove` and the formatting do to a disk that is in order.

  Each operation is followed through all its exits:

  * `create_spec` — it fails and writes nothing, or it fills a slot with a new file whose sectors were not
    marked, and no sector of another file is written;
  * `openFile_spec` — it returns a copy of the header of the file with the name, if there is one;
  * `remove_spec` — it fails if there is no such file; else the `ASSERT` in `Deallocate` holds, the slot is
    emptied, and no sector of another file is written;
  * `format_spec` — whatever was on the disk, it is in order then and has no files.
-/
import Nachos.Filesys.Layout

namespace Nachos

/-- The two files of the file system are open. -/
structure FileSystem.Ready (fs : FileSystem) : Prop where
  freeMapFile : fs.freeMapFile.hdr.Describes freeMapFileSize freeMapSectors
  directoryFile : fs.directoryFile.hdr.Describes directoryFileSize directorySectors

/-- What the two open files hold: every operation begins with reading the directory `d` and the bitmap `b`. -/
structure FileSystem.Reads (fs : FileSystem) (disk : DiskFile) (d : Directory) (b : BitMap) : Prop where
  directory : ∀ mem mem', ∃ d₁, (Directory.new numDirEntries mem).fetchFrom fs.directoryFile disk mem' = some d₁ ∧
    d₁.tableSize = numDirEntries ∧ ∀ i < numDirEntries, d.SameEntry d₁ i
  freeMap : ∀ b₀ : BitMap, b₀.numBits = numSectors → ∀ mem, b₀.fetchFrom fs.freeMapFile disk mem = some b
  numBits : b.numBits = numSectors

theorem FileSystem.reads_array {fs : FileSystem} {S T : List Nat}
    (hmap : fs.freeMapFile.hdr.Describes freeMapFileSize S)
    (hdir : fs.directoryFile.hdr.Describes directoryFileSize T) (disk : DiskFile) :
    fs.Reads disk ⟨numDirEntries, (DiskFile.blocks disk).array T⟩
      (.ofBytes numSectors ((DiskFile.blocks disk).array S)) :=
  ⟨fun mem mem' => Directory.fetchFrom_array hdir disk mem mem',
    fun _ hbits mem => BitMap.fetchFrom_array hmap hbits disk mem, rfl⟩

theorem FileSystem.Ready.reads {fs : FileSystem} (hfs : fs.Ready) (disk : DiskFile) :
    fs.Reads disk (diskDirectory (DiskFile.blocks disk)) (diskMap (DiskFile.blocks disk)) :=
  reads_array hfs.freeMapFile hfs.directoryFile disk

theorem newFreeMap_spec (mem : Bytes) :
    ∃ b, newFreeMap mem = some b ∧ b.numBits = numSectors ∧ b.marked = ∅ := BitMap.new_spec numSectors _

/-- An opened file has a copy of the header. -/
theorem OpenFile.new_spec {disk : DiskFile} {sector length : Nat} {S : List Nat} (hsector : sector < numSectors)
    (hd : (FileHeader.onDisk (DiskFile.blocks disk) sector).Describes length S) (mem : Bytes) :
    ∃ file, OpenFile.new disk sector mem = some file ∧ file.hdr.Describes length S ∧ file.seekPosition = 0 := by
  obtain ⟨hdr, hfetch, hbytes⟩ := FileHeader.fetchFrom_eq ⟨mem⟩ disk hsector
  refine ⟨⟨hdr, 0⟩, ?_, hd.congr hbytes, rfl⟩
  rw [OpenFile.new, hfetch]
  rfl

namespace FileSystem

variable {fs : FileSystem} {disk : DiskFile} {files : Nat → Option FileRec} {name : Bytes}

/-- The file with a name, if there is one. -/
theorem cases_name (files : Nat → Option FileRec) (name : Bytes) :
    (∃ i f, files i = some f ∧ f.key = fileKey name) ∨ ∀ i f, files i = some f → f.key ≠ fileKey name := by
  by_cases h : ∃ i f, files i = some f ∧ f.key = fileKey name
  · exact Or.inl h
  · exact Or.inr fun i f hf hkey => h ⟨i, f, hf, hkey⟩

/-- The directory that an operation works on. -/
theorem fetch_directory (hfs : fs.Ready) (h : Shows (DiskFile.blocks disk) files) (mem mem' : Bytes) :
    ∃ d, (Directory.new numDirEntries mem).fetchFrom fs.directoryFile disk mem' = some d ∧ d.Lists files := by
  obtain ⟨d, hfetch, hsize, hsame⟩ := (hfs.reads disk).directory mem mem'
  exact ⟨d, hfetch, h.lists.congr hsize hsame⟩

/-! ## Writing the two files of the file system -/

theorem notMem_directorySectors {k : Nat} (hk : k < 3 ∨ 5 ≤ k) : k ∉ directorySectors := by
  intro hmem
  rcases List.mem_cons.mp hmem with rfl | hmem
  · omega
  · rw [List.mem_singleton.mp hmem] at hk
    omega

theorem notMem_freeMapSectors {k : Nat} (hk : k ≠ 2) : k ∉ freeMapSectors := fun hmem =>
  hk (List.mem_singleton.mp hmem)

/-- First the directory, then the bitmap, as `Create` does. -/
theorem write_directory_map (hfs : fs.Ready) {d : Directory} {b : BitMap}
    (hsize : d.tableSize = numDirEntries) (hbits : b.numBits = numSectors) (disk : DiskFile)
    (mem mem' : Nat → Bytes) :
    ∃ disk₁ disk₂, d.writeBack fs.directoryFile disk mem = some disk₁ ∧
      b.writeBack fs.freeMapFile disk₁ mem' = some disk₂ ∧
      (∀ k, (k < 2 ∨ 5 ≤ k) → DiskFile.blocks disk₂ k = DiskFile.blocks disk k) ∧
      (∀ i < numDirEntries, d.SameEntry (diskDirectory (DiskFile.blocks disk₂)) i) ∧
      diskMap (DiskFile.blocks disk₂) = b := by
  obtain ⟨disk₁, hwrite₁, hframe₁, hdir₁⟩ := Directory.writeBack_array hfs.directoryFile (by decide) hsize disk mem
  obtain ⟨disk₂, hwrite₂, hframe₂, hmap₂⟩ := BitMap.writeBack_array hfs.freeMapFile (by decide) hbits disk₁ mem'
  refine ⟨disk₁, disk₂, hwrite₁, hwrite₂, fun k hk => ?_, fun i hi a ha => ?_, hmap₂⟩
  · rw [hframe₂ k (notMem_freeMapSectors (by omega)), hframe₁ k (notMem_directorySectors (by omega))]
  · -- the bitmap is not in the sectors of the directory
    have hkeep : (diskDirectory (DiskFile.blocks disk₁)).SameEntry (diskDirectory (DiskFile.blocks disk₂)) i :=
      diskDirectory_congr (hframe₂ 3 (by decide)) (hframe₂ 4 (by decide)) hi
    exact (hkeep a ha).trans (hdir₁ i hi a ha)

/-- First the bitmap, then the directory, as `Remove` and the formatting do. -/
theorem write_map_directory (hfs : fs.Ready) {d : Directory} {b : BitMap}
    (hsize : d.tableSize = numDirEntries) (hbits : b.numBits = numSectors) (disk : DiskFile)
    (mem mem' : Nat → Bytes) :
    ∃ disk₁ disk₂, b.writeBack fs.freeMapFile disk mem = some disk₁ ∧
      d.writeBack fs.directoryFile disk₁ mem' = some disk₂ ∧
      (∀ k, (k < 2 ∨ 5 ≤ k) → DiskFile.blocks disk₂ k = DiskFile.blocks disk k) ∧
      (∀ i < numDirEntries, d.SameEntry (diskDirectory (DiskFile.blocks disk₂)) i) ∧
      diskMap (DiskFile.blocks disk₂) = b := by
  obtain ⟨disk₁, hwrite₁, hframe₁, hmap₁⟩ := BitMap.writeBack_array hfs.freeMapFile (by decide) hbits disk mem
  obtain ⟨disk₂, hwrite₂, hframe₂, hdir₂⟩ := Directory.writeBack_array hfs.directoryFile (by decide) hsize disk₁ mem'
  refine ⟨disk₁, disk₂, hwrite₁, hwrite₂, fun k hk => ?_, hdir₂, ?_⟩
  · rw [hframe₂ k (notMem_directorySectors (by omega)), hframe₁ k (notMem_freeMapSectors (by omega))]
  · rw [diskMap_congr (hframe₂ 2 (by decide))]
    exact hmap₁

/-! ## `Create` -/

/-- **What `Create` is about to write** when everything worked.  The directory and the bitmap that it read are `d` and `b`;
    the new file is in slot `i`, its header goes to sector `n`, and its data to the sectors `S`. -/
structure Planned (d : Directory) (b : BitMap) (name : Bytes) (size i n : Nat) (S : List Nat) (hdr : FileHeader)
    (d' : Directory) (b' : BitMap) : Prop where
  absent : ∀ j < numDirEntries, d.inUse j = true → d.key j ≠ fileKey name
  slot : i < numDirEntries
  unused : d.inUse i = false
  room : 1 + (size + (sectorSize - 1)) / sectorSize ≤ b.numBits - b.marked.card
  describes : hdr.Describes size S
  header : n < numSectors
  nodup : (n :: S).Nodup
  clear : ∀ k ∈ n :: S, k ∉ b.marked
  tableSize : d'.tableSize = numDirEntries
  inUse : d'.inUse i = true
  key : d'.key i = fileKey name
  sector : d'.sector i = n
  others : ∀ j < numDirEntries, j ≠ i → d.SameEntry d' j
  numBits : b'.numBits = numSectors
  marked : ∀ k, k ∈ b'.marked ↔ k ∈ b.marked ∨ k ∈ n :: S

/-- Why `Create` returns false. -/
def Refused (d : Directory) (b : BitMap) (name : Bytes) (size : Nat) : Prop :=
  (∃ j < numDirEntries, d.inUse j = true ∧ d.key j = fileKey name) ∨ (∀ j < numDirEntries, d.inUse j = true) ∨
    b.numBits - b.marked.card < 1 + (size + (sectorSize - 1)) / sectorSize

/-- **The name is looked up** in the directory that was read.  An entry with sector -1 would not be found. -/
theorem Reads.lookup {d : Directory} {b : BitMap} (hreads : fs.Reads disk d b)
    (hsectors : ∀ j < numDirEntries, d.inUse j = true → d.sector j ≠ -1) (name mem mem' : Bytes) :
    ∃ d₁, (Directory.new numDirEntries mem).fetchFrom fs.directoryFile disk mem' = some d₁ ∧
      d₁.tableSize = numDirEntries ∧ (∀ i < numDirEntries, d.SameEntry d₁ i) ∧
      ((∃ j < numDirEntries, d.inUse j = true ∧ d.key j = fileKey name) ∧ d₁.find name ≠ -1 ∨
        (∀ j < numDirEntries, d.inUse j = true → d.key j ≠ fileKey name) ∧ d₁.findIndex name = none ∧
          d₁.find name = -1) := by
  obtain ⟨d₁, hfetch, htable, hsame⟩ := hreads.directory mem mem'
  refine ⟨d₁, hfetch, htable, hsame, ?_⟩
  unfold Directory.find
  cases hindex : d₁.findIndex name with
  | some j =>
    obtain ⟨hj, huse, hkey⟩ := Directory.findIndex_eq_some hindex
    rw [htable] at hj
    rw [(hsame j hj).inUse] at huse
    rw [(hsame j hj).key] at hkey
    refine Or.inl ⟨⟨j, hj, huse, hkey⟩, ?_⟩
    show d₁.sector j ≠ -1
    rw [(hsame j hj).sector]
    exact hsectors j hj huse
  | none =>
    refine Or.inr ⟨fun j hj huse => ?_, rfl, rfl⟩
    rw [← (hsame j hj).key]
    rw [← (hsame j hj).inUse] at huse
    exact Directory.findIndex_eq_none.mp hindex j (htable.symm ▸ hj) huse

/-- **All exits of `Create`.**  The bitmap and the directory are changed in memory before the last test, but nothing is
    written before it. -/
theorem create_cases {d : Directory} {b : BitMap} (hreads : fs.Reads disk d b)
    (hsectors : ∀ j < numDirEntries, d.inUse j = true → d.sector j ≠ -1) (name : Bytes) {size : Nat}
    (hsize : size ≤ maxFileSize) (mem : Nat → Bytes) :
    (Refused d b name size ∧ fs.create disk name size mem = some (false, disk)) ∨
      ∃ i n S hdr d' b', Planned d b name size i n S hdr d' b' ∧
        fs.create disk name size mem
          = (hdr.writeBack disk n).bind fun disk =>
              (d'.writeBack fs.directoryFile disk fun k => mem (5 + k)).bind fun disk =>
                (b'.writeBack fs.freeMapFile disk fun k => mem (8 + k)).bind fun disk => some (true, disk) := by
  obtain ⟨d₁, hfetch, htable, hsame₁, ⟨htaken, hfind⟩ | ⟨habsent, hindex, hfound⟩⟩ :=
    hreads.lookup hsectors name (mem 0) (mem 1)
  · -- there is a file with this name
    refine Or.inl ⟨Or.inl htaken, ?_⟩
    simp only [create, hfetch, Option.bind_eq_bind, Option.bind_some, if_pos hfind]
  have hfind : ¬ d₁.find name ≠ -1 := not_not_intro hfound
  obtain ⟨b₀, hnew, hbits₀, -⟩ := newFreeMap_spec (mem 2)
  have hmap := hreads.freeMap b₀ hbits₀ (mem 3)
  rcases b.find_spec with ⟨hfull, hall⟩ | ⟨n, b₁, hsector, hn, hclear, -, hbits₁, hmark₁⟩
  · -- no sector for the header
    refine Or.inl ⟨Or.inr (Or.inr ?_), ?_⟩
    · rw [hall, Finset.card_range, Nat.sub_self, Nat.add_comm]
      exact Nat.succ_pos _
    · simp only [create, hfetch, Option.bind_eq_bind, Option.bind_some, if_neg hfind, hnew, hmap, hfull, if_true]
  · rw [hreads.numBits] at hn
    have hnne : ¬ ((n : Nat) : Int) = -1 := by omega
    have hint : n < 2 ^ 31 := Nat.lt_trans hn (by decide)
    -- the header takes one of the clear sectors
    have hcard : b.numBits - b.marked.card = 1 + (b₁.numBits - b₁.marked.card) := by
      have hle : b₁.marked.card ≤ b₁.numBits := by
        rw [← Finset.card_range b₁.numBits]
        exact Finset.card_le_card b₁.marked_subset
      rw [hbits₁, hmark₁, Finset.card_insert_of_notMem hclear] at hle ⊢
      omega
    rcases d₁.add_spec name hint with ⟨hwhy, hadd⟩ | ⟨-, i, d', hi, huse, hadd, hsize', huse', hkey', hsector', hsame⟩
    · -- no entry in the directory
      refine Or.inl ⟨Or.inr (Or.inl fun j hj => ?_), ?_⟩
      · rcases hwhy with hsome | hall
        · rw [hindex] at hsome
          cases hsome
        · rw [← (hsame₁ j hj).inUse]
          exact hall j (htable.symm ▸ hj)
      · simp only [create, hfetch, Option.bind_eq_bind, Option.bind_some, if_neg hfind, hnew, hmap, hsector,
          if_neg hnne, hadd, Bool.not_false, if_true]
    · rw [htable] at hi
      rcases FileHeader.allocate_spec ⟨mem 4⟩ hsize (hbits₁.trans hreads.numBits) with
        ⟨hfew, hdr, halloc⟩ | ⟨hroom, hdr, b₂, S, halloc, hd, hsorted, hfresh, -, hbits₂, hmark₂⟩
      · -- not enough sectors for the data
        refine Or.inl ⟨Or.inr (Or.inr (by omega)), ?_⟩
        simp only [create, hfetch, Option.bind_eq_bind, Option.bind_some, if_neg hfind, hnew, hmap, hsector,
          if_neg hnne, hadd, Bool.not_true, Bool.false_eq_true, if_false, halloc, Bool.not_false, if_true]
      · have hout : ∀ k ∈ S, k ≠ n ∧ k ∉ b.marked := by
          intro k hk
          have hnot := hfresh k hk
          rw [hmark₁, Finset.mem_insert] at hnot
          exact ⟨fun heq => hnot (Or.inl heq), fun hmem => hnot (Or.inr hmem)⟩
        refine Or.inr ⟨i, n, S, hdr, d', b₂, ⟨habsent, hi, (hsame₁ i hi).inUse.symm.trans huse, by omega, hd, hn,
          List.nodup_cons.mpr ⟨fun hmem => (hout n hmem).1 rfl, hsorted.imp Nat.ne_of_lt⟩,
          List.forall_mem_cons.mpr ⟨hclear, fun k hk => (hout k hk).2⟩, hsize'.trans htable, huse', hkey', hsector',
          fun j hj hji a ha => (hsame j hji a ha).trans (hsame₁ j hj a ha), hbits₂, fun k => ?_⟩, ?_⟩
        · rw [hmark₂, hmark₁, Finset.mem_insert, List.mem_cons, or_assoc]
          exact or_left_comm
        · simp only [create, hfetch, Option.bind_eq_bind, Option.bind_some, if_neg hfind, hnew, hmap, hsector,
            if_neg hnne, hadd, Bool.not_true, Bool.false_eq_true, if_false, halloc]

/-- **`Create`.** -/
theorem create_spec (hfs : fs.Ready) (h : Shows (DiskFile.blocks disk) files) (name : Bytes) {size : Nat}
    (hsize : size ≤ maxFileSize) (mem : Nat → Bytes) :
    fs.create disk name size mem = some (false, disk) ∨
      ∃ disk' i f, fs.create disk name size mem = some (true, disk') ∧ i < numDirEntries ∧
        files i = none ∧ f.key = fileKey name ∧ f.length = size ∧
        (∀ j g, files j = some g → g.key ≠ fileKey name) ∧
        Shows (DiskFile.blocks disk') (Function.update files i (some f)) ∧
        ∀ j g, files j = some g → ∀ k ∈ g.owns, DiskFile.blocks disk' k = DiskFile.blocks disk k := by
  have hsectors : ∀ j < numDirEntries, (diskDirectory (DiskFile.blocks disk)).inUse j = true →
      (diskDirectory (DiskFile.blocks disk)).sector j ≠ -1 := by
    intro j hj huse
    obtain ⟨f, -, -, hsector⟩ := h.lists.of_inUse hj huse
    omega
  rcases create_cases (hfs.reads disk) hsectors name hsize mem with ⟨-, hfalse⟩ | ⟨i, n, S, hdr, d', b', hplan, hwrites⟩
  · exact Or.inl hfalse
  refine Or.inr ?_
  have hn5 : 5 ≤ n := Nat.le_of_not_lt fun hlt => hplan.clear n (List.mem_cons_self ..) (h.system_marked hlt)
  obtain ⟨disk₁, hwrite₁, hblocks₁⟩ := FileHeader.writeBack_eq hdr disk hplan.header
  obtain ⟨disk₂, disk₃, hwrite₂, hwrite₃, hframe, hdir, hdiskMap⟩ := write_directory_map hfs
    hplan.tableSize hplan.numBits disk₁ (fun k => mem (5 + k)) (fun k => mem (8 + k))
  have habsent : ∀ j g, files j = some g → g.key ≠ fileKey name := by
    intro j g hg
    obtain ⟨huse, hkey, -⟩ := h.lists.entry j (h.slots j g hg) g hg
    rw [← hkey]
    exact hplan.absent j (h.slots j g hg) huse
  have hnone : files i = none := by
    cases hfi : files i with
    | none => rfl
    | some f =>
      have huse := hplan.unused
      rw [(h.lists.entry i hplan.slot f hfi).1] at huse
      cases huse
  have hkeep : ∀ k, k ≠ n → (k < 2 ∨ 5 ≤ k) → DiskFile.blocks disk₃ k = DiskFile.blocks disk k := by
    intro k hkn hk
    rw [hframe k hk, hblocks₁, Function.update_of_ne hkn]
  -- the sectors of the other files are neither the new header nor those of the file system
  have hothers : ∀ j g, files j = some g → ∀ k ∈ g.owns,
      DiskFile.blocks disk₃ k = DiskFile.blocks disk k := by
    intro j g hg k hk
    refine hkeep k ?_ (Or.inr (h.not_system hg hk))
    rintro rfl
    exact hplan.clear k (List.mem_cons_self ..) (h.marked hg hk)
  have hbooks : (books (DiskFile.blocks disk₃)
      (Function.update files i (some ⟨fileKey name, n, size, S⟩))).Ok := by
    refine h.books_fill hplan.slot hnone hplan.nodup hplan.clear fun k => ?_
    rw [hdiskMap]
    exact hplan.marked k
  refine ⟨disk₃, i, ⟨fileKey name, n, size, S⟩, ?_, hplan.slot, hnone, rfl, rfl, habsent, ?_, hothers⟩
  · simp only [hwrites, hwrite₁, hwrite₂, hwrite₃, Option.bind_some]
  · have hlists' : d'.Lists (Function.update files i (some ⟨fileKey name, n, size, S⟩)) :=
      h.lists.fill hplan.tableSize hplan.inUse hplan.key hplan.sector hplan.others
    refine h.update hplan.slot (fun k hk => hkeep k (by omega) (Or.inl hk))
      (fun j _ g hg => hothers j g hg g.header (List.mem_cons_self ..))
      (hlists'.congr hlists'.size.symm hdir) (fun f hf => ?_) hbooks
    obtain rfl := Option.some.inj hf
    refine ⟨?_, fun j _ g hg => habsent j g hg⟩
    refine Shows.describes_congr (hframe n (Or.inr hn5)) ?_
    rw [hblocks₁]
    exact hplan.describes.onDisk_update _ _

/-! ## `Open` -/

/-- **`Open`** gives a copy of the header. -/
theorem openFile_spec (hfs : fs.Ready) (h : Shows (DiskFile.blocks disk) files) (name : Bytes)
    (mem : Nat → Bytes) :
    (∃ i f file, files i = some f ∧ f.key = fileKey name ∧
        fs.openFile disk name mem = some (some file) ∧ file.hdr.Describes f.length f.sectors ∧
        file.seekPosition = 0) ∨
      (∀ i f, files i = some f → f.key ≠ fileKey name) ∧ fs.openFile disk name mem = some none := by
  obtain ⟨d, hfetch, hlists⟩ := fetch_directory hfs h (mem 0) (mem 1)
  rcases cases_name files name with ⟨i, f, hf, hkey⟩ | habsent
  · have hfind : d.find name = f.header := hlists.find h.distinct (h.slots i f hf) hf hkey
    have hge : (f.header : Int) ≥ 0 := Int.natCast_nonneg _
    obtain ⟨file, hopen, hd, hseek⟩ := OpenFile.new_spec (h.header_lt hf) (h.headers i f hf) (mem 2)
    refine Or.inl ⟨i, f, file, hf, hkey, ?_, hd, hseek⟩
    simp only [openFile, hfetch, Option.bind_eq_bind, Option.bind_some, hfind, if_pos hge, hopen,
      Option.map_some]
  · obtain ⟨-, hfind⟩ := hlists.find_none fun i _ f hf => habsent i f hf
    have hneg : ¬ (-1 : Int) ≥ 0 := by decide
    refine Or.inr ⟨habsent, ?_⟩
    simp only [openFile, hfetch, Option.bind_eq_bind, Option.bind_some, hfind, if_neg hneg]

/-! ## `Remove` -/

/-- **`Remove`.**  It returns, so the `ASSERT` in `Deallocate` holds. -/
theorem remove_spec (hfs : fs.Ready) (h : Shows (DiskFile.blocks disk) files) (name : Bytes)
    (mem : Nat → Bytes) :
    (∃ disk' i f, files i = some f ∧ f.key = fileKey name ∧
        fs.remove disk name mem = some (true, disk') ∧
        Shows (DiskFile.blocks disk') (Function.update files i none) ∧
        ∀ j g, files j = some g → ∀ k ∈ g.owns, DiskFile.blocks disk' k = DiskFile.blocks disk k) ∨
      (∀ i f, files i = some f → f.key ≠ fileKey name) ∧
        fs.remove disk name mem = some (false, disk) := by
  obtain ⟨d, hfetch, hlists⟩ := fetch_directory hfs h (mem 0) (mem 1)
  rcases cases_name files name with ⟨i, f, hf, hkey⟩ | habsent
  · have hi := h.slots i f hf
    have hindex := hlists.findIndex h.distinct hi hf hkey
    have hfind : d.find name = f.header := hlists.find h.distinct hi hf hkey
    have hne : ¬ (f.header : Int) = -1 := by omega
    obtain ⟨hdr, hhdr, hbytes⟩ := FileHeader.fetchFrom_eq ⟨mem 2⟩ disk (h.header_lt hf)
    have hd := (h.headers i f hf).congr hbytes
    obtain ⟨b₀, hnew, hbits₀, -⟩ := newFreeMap_spec (mem 3)
    have hmap := (hfs.reads disk).freeMap b₀ hbits₀ (mem 4)
    have hmarked : ∀ k ∈ f.sectors, k ∈ (diskMap (DiskFile.blocks disk)).marked := fun k hk =>
      h.marked hf (List.mem_cons_of_mem _ hk)
    obtain ⟨b₁, hdealloc, hbits₁, hmark₁⟩ := FileHeader.deallocate_spec hd
      (List.nodup_cons.mp (h.nodup hf)).2 (show (diskMap (DiskFile.blocks disk)).numBits = numSectors from rfl)
      hmarked
    obtain ⟨b₂, hclear, hbits₂, hmark₂⟩ := b₁.clear_spec (hbits₁.symm ▸ h.header_lt hf)
    obtain ⟨d', hremove, hsize', huse', hsame⟩ := Directory.remove_spec hindex
    obtain ⟨disk₁, disk₂, hwrite₁, hwrite₂, hframe, hdir, hdiskMap⟩ := write_map_directory hfs
      (hsize'.trans hlists.size) (hbits₂.trans hbits₁) disk (fun k => mem (5 + k)) (fun k => mem (8 + k))
    have hothers : ∀ j g, files j = some g → ∀ k ∈ g.owns,
        DiskFile.blocks disk₂ k = DiskFile.blocks disk k := fun j g hg k hk =>
      hframe k (Or.inr (h.not_system hg hk))
    have hbooks : (books (DiskFile.blocks disk₂) (Function.update files i none)).Ok := by
      refine h.books_empty hf fun k => ?_
      show _ ↔ _ ∧ k ∉ f.header :: f.sectors
      rw [hdiskMap, hmark₂, Finset.mem_erase, hmark₁, List.mem_cons, not_or]
      exact and_left_comm
    refine Or.inl ⟨disk₂, i, f, hf, hkey, ?_, ?_, hothers⟩
    · simp only [remove, hfetch, Option.bind_eq_bind, Option.bind_some, hfind, if_neg hne, hhdr, hnew, hmap,
        hdealloc, hclear, hremove, hwrite₁, hwrite₂]
    · have hlists' : d'.Lists (Function.update files i none) := hlists.empty hsize' huse' hsame
      refine h.update hi (fun k hk => hframe k (Or.inl hk))
        (fun j _ g hg => hothers j g hg g.header (List.mem_cons_self ..))
        (hlists'.congr hlists'.size.symm hdir) (fun f hf => ?_) hbooks
      cases hf
  · obtain ⟨-, hfind⟩ := hlists.find_none fun i _ f hf => habsent i f hf
    refine Or.inr ⟨habsent, ?_⟩
    simp only [remove, hfetch, Option.bind_eq_bind, Option.bind_some, hfind, if_true]

/-! ## The formatting -/

/-- An allocation on a disk whose first sectors are marked takes the next ones. -/
theorem allocate_next {b : BitMap} {m length : Nat} (hlength : length ≤ maxFileSize)
    (hbits : b.numBits = numSectors) (hmark : ∀ k, k ∈ b.marked ↔ k < m)
    (hroom : m + (length + (sectorSize - 1)) / sectorSize ≤ numSectors) (mem : Bytes) :
    ∃ hdr b', (FileHeader.mk mem).allocate b length = some (true, hdr, b') ∧
      hdr.Describes length (List.range' m ((length + (sectorSize - 1)) / sectorSize)) ∧
      b'.numBits = numSectors ∧
      ∀ k, k ∈ b'.marked ↔ k < m + (length + (sectorSize - 1)) / sectorSize := by
  have hrange : b.marked = Finset.range m := by
    ext k
    rw [hmark, Finset.mem_range]
  rcases FileHeader.allocate_spec ⟨mem⟩ hlength hbits with ⟨hfull, -⟩ |
    ⟨-, hdr, b', S, halloc, hd, hsorted, hfresh, hfirst, hbits', hmark'⟩
  · rw [hrange, Finset.card_range, hbits] at hfull
    omega
  · have hS : S = List.range' m S.length := by
      refine Pool.firstFit_eq_range' hsorted (fun n hn => ?_) fun n hn k hk => ?_
      · exact Nat.le_of_not_lt fun hlt => hfresh n hn ((hmark n).mpr hlt)
      · rw [← hmark]
        exact hfirst n hn k hk
    rw [hd.rounded] at hS
    refine ⟨hdr, b', halloc, hS ▸ hd, hbits', fun k => ?_⟩
    rw [hmark', hmark, hS, List.mem_range'_1]
    generalize (length + (sectorSize - 1)) / sectorSize = count
    omega

/-- **The formatting.** -/
theorem format_spec (disk : DiskFile) (mem : Nat → Bytes) :
    ∃ fs disk', format disk mem = some (fs, disk') ∧ fs.Ready ∧
      Shows (DiskFile.blocks disk') fun _ => none := by
  obtain ⟨b₀, hnew, hbits₀, hmark₀⟩ := newFreeMap_spec (mem 0)
  obtain ⟨b₁, hmark_0, hbits₁, hmark₁⟩ := b₀.mark_spec (i := freeMapSector) (by rw [hbits₀]; decide)
  obtain ⟨b₂, hmark_1, hbits₂, hmark₂⟩ := b₁.mark_spec (i := directorySector)
    (by rw [hbits₁, hbits₀]; decide)
  have htwo : ∀ k, k ∈ b₂.marked ↔ k < 2 := by
    intro k
    rw [hmark₂, hmark₁, hmark₀, Finset.mem_insert, Finset.mem_insert]
    show k = 1 ∨ k = 0 ∨ k ∈ (∅ : Finset Nat) ↔ k < 2
    simp only [Finset.notMem_empty, or_false]
    omega
  have hmapSize : freeMapFileSize ≤ maxFileSize := by decide
  have hdirSize : directoryFileSize ≤ maxFileSize := by decide
  obtain ⟨mapHdr, b₃, halloc₁, hd₁, hbits₃, hthree⟩ := allocate_next hmapSize
    (hbits₂.trans (hbits₁.trans hbits₀)) htwo (by decide) (mem 2)
  obtain ⟨dirHdr, b₄, halloc₂, hd₂, hbits₄, hfive⟩ := allocate_next hdirSize hbits₃ hthree (by decide) (mem 3)
  have hmapSector : freeMapSector < numSectors := by decide
  have hdirSector : directorySector < numSectors := by decide
  obtain ⟨disk₁, hwrite₁, hblocks₁⟩ := mapHdr.writeBack_eq disk hmapSector
  obtain ⟨disk₂, hwrite₂, hblocks₂⟩ := dirHdr.writeBack_eq disk₁ hdirSector
  have hmapHdr : (FileHeader.onDisk (DiskFile.blocks disk₂) freeMapSector).Describes freeMapFileSize
      freeMapSectors := by
    have hkeep : DiskFile.blocks disk₂ freeMapSector = DiskFile.blocks disk₁ freeMapSector := by
      rw [hblocks₂, Function.update_of_ne (by decide)]
    refine Shows.describes_congr hkeep ?_
    rw [hblocks₁]
    exact hd₁.onDisk_update _ _
  have hdirHdr : (FileHeader.onDisk (DiskFile.blocks disk₂) directorySector).Describes directoryFileSize
      directorySectors := by
    rw [hblocks₂]
    exact hd₂.onDisk_update _ _
  obtain ⟨freeMapFile, hopen₁, hfile₁, -⟩ := OpenFile.new_spec hmapSector hmapHdr (mem 4)
  obtain ⟨directoryFile, hopen₂, hfile₂, -⟩ := OpenFile.new_spec hdirSector hdirHdr (mem 5)
  have hready : FileSystem.Ready ⟨freeMapFile, directoryFile⟩ := ⟨hfile₁, hfile₂⟩
  obtain ⟨hsize, hunused⟩ := Directory.new_spec numDirEntries (mem 1)
  obtain ⟨disk₃, disk₄, hwrite₃, hwrite₄, hframe, hdir, hdiskMap⟩ := write_map_directory hready hsize hbits₄
    disk₂ (fun k => mem (6 + k)) (fun k => mem (9 + k))
  have hlists : (Directory.new numDirEntries (mem 1)).Lists fun _ => none := by
    refine ⟨hsize, fun i hi _ => hunused i hi, fun i _ f hf => ?_⟩
    cases hf
  refine ⟨⟨freeMapFile, directoryFile⟩, disk₄, ?_, hready, ?_⟩
  · simp only [format, hnew, hmark_0, hmark_1, Option.bind_eq_bind, Option.bind_some, halloc₁, halloc₂,
      Bool.not_true, Bool.false_eq_true, if_false, hwrite₁, hwrite₂, hopen₁, hopen₂, hwrite₃, hwrite₄]
  · refine ⟨Shows.describes_congr (hframe 0 (by decide)) hmapHdr,
      Shows.describes_congr (hframe 1 (by decide)) hdirHdr, hlists.congr hsize.symm hdir,
      fun i f hf => ?_, fun i f hf => ?_, fun i j f g hf => ?_, ?_⟩
    · cases hf
    · cases hf
    · cases hf
    · -- the five sectors of the file system, each once
      have hheld : systemSectors ++ Pool.slots numDirEntries (fun _ => none) = systemSectors := by decide
      refine ⟨?_, fun k => ?_⟩
      · show (systemSectors ++ Pool.slots numDirEntries (fun _ => none)).flatten.Nodup
        rw [hheld]
        decide
      · show k ∈ (diskMap (DiskFile.blocks disk₄)).marked
          ↔ k ∈ (systemSectors ++ Pool.slots numDirEntries (fun _ => none)).flatten
        rw [hheld, hdiskMap, hfive]
        show k < 5 ↔ k ∈ [0, 1, 2, 3, 4]
        simp only [List.mem_cons, List.not_mem_nil, or_false]
        omega

end FileSystem

end Nachos
