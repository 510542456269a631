/-
  `filesys/fstest.cc` — `Copy` AND `Print`.

  `Copy` creates a Nachos file of the size of a UNIX file and writes it piece by piece, as `fread` returns the pieces;
  `Print` reads a Nachos file `TransferSize` bytes at a time.  Neither says where: `Write` and `Read` go on from the seek
  position.

  1. **Writing** (`copyLoop_spec`) — the writes of the pieces, one after the other, are ONE write of all of them.  The
     induction is on the pieces, with the seek position between what is written and what is not.

  2. **Reading** (`printLoop_spec`) — the reads are pieces of the file, one after the other, up to its end.

  3. **Both** (`copy_then_print`) — what is printed is the UNIX file, whatever the sizes of the pieces.
-/
import Nachos.Filesys.FileMap

namespace Nachos

/-! ## The code -/

/-- `TransferSize`. -/
def transferSize : Nat := 10

/-- **A UNIX file**, in the pieces that `fread(buffer, sizeof(char), TransferSize, fp)` returns before it returns 0. -/
structure HostFile where
  pieces : List (List UInt8)
  piece_pos : ∀ piece ∈ pieces, 0 < piece.length
  piece_le : ∀ piece ∈ pieces, piece.length ≤ transferSize

/-- What is in the file. -/
def HostFile.bytes (from_ : HostFile) : List UInt8 := from_.pieces.flatten

/-- A list of bytes in memory. -/
def listBytes (bytes : List UInt8) : Bytes := fun q => bytes.getD q 0

/-- The loop of `Copy`.  `buffer` has the piece before in it; `mem k` is what the buffers of the next `Write` but `k` have
    in them when they are new. -/
def copyLoop : List (List UInt8) → OpenFile → DiskFile → Bytes → (Nat → Nat → Bytes) → Option DiskFile
  | [], _, disk, _, _ => some disk
  | piece :: pieces, openFile, disk, buffer, mem =>
    let amountRead := piece.length
    let buffer := bcopy (listBytes piece) 0 buffer 0 amountRead
    if amountRead > 0 then
      (openFile.write disk (mem 0) buffer amountRead).bind fun r =>
        copyLoop pieces r.2.1 r.2.2 buffer fun k => mem (k + 1)
    else some disk

/-- The loop of `Print`, for at most `n` calls of `Read`: what is printed. -/
def printLoop (disk : DiskFile) : Nat → OpenFile → Bytes → (Nat → Bytes) → Option (List UInt8)
  | 0, _, _, _ => none
  | n + 1, openFile, buffer, mem =>
    (openFile.read disk (mem 0) buffer 0 transferSize).bind fun r =>
      if r.1 > 0 then
        (printLoop disk n r.2.1 r.2.2 fun k => mem (k + 1)).map fun rest => slice r.2.2 0 r.1.toNat ++ rest
      else some []

namespace FileSystem

/-- `Copy(from, to)`, of a UNIX file that can be opened; `none`: the `ASSERT` fails. -/
def copy (fs : FileSystem) (disk : DiskFile) (from_ : HostFile) (to_ : Bytes) (mem : Nat → Nat → Bytes) :
    Option DiskFile := do
  let fileLength := int32 from_.bytes.length
  let created ← fs.create disk to_ fileLength (mem 0)
  if !created.1 then some created.2
  else do
    match ← fs.openFile created.2 to_ (mem 1) with
    | none => none
    | some openFile => copyLoop from_.pieces openFile created.2 (mem 2 0) fun k => mem (k + 3)

/-- `Print(name)`, for at most `n` calls of `Read`. -/
def print (fs : FileSystem) (n : Nat) (disk : DiskFile) (name : Bytes) (mem : Nat → Nat → Bytes) :
    Option (List UInt8) := do
  match ← fs.openFile disk name (mem 0) with
  | none => some []
  | some openFile => printLoop disk n openFile (mem 1 0) fun k => mem 2 k

end FileSystem

/-! ## Writing -/

namespace FileRec.Written

variable {f : FileRec} {store store' store'' : Blocks sectorSize} {from_ from' : Bytes} {n m p : Nat}

theorem refl (f : FileRec) (store : Blocks sectorSize) (from_ : Bytes) (p : Nat) : f.Written store store from_ 0 p := by
  refine ⟨fun _ _ => rfl, ?_⟩
  intro q _
  rw [if_neg (by omega)]

theorem congr (h : f.Written store store' from_ n p) (hsame : ∀ q < n, from' q = from_ q) :
    f.Written store store' from' n p := by
  refine ⟨h.frame, ?_⟩
  intro q hq
  rw [h.bytes q hq]
  split
  · exact (hsame _ (by omega)).symm
  · rfl

/-- **Two writes, the second behind the first, are one.** -/
theorem append (h : f.Written store store' from_ n p) (h' : f.Written store' store'' from' m (p + n)) :
    f.Written store store'' (fun q => if q < n then from_ q else from' (q - n)) (n + m) p := by
  constructor
  · intro b hb
    rw [h'.frame b hb, h.frame b hb]
  · intro q hq
    rw [h'.bytes q hq]
    rcases Nat.lt_or_ge q (p + n) with hlt | hge
    · rw [if_neg (by omega), h.bytes q hq]
      by_cases hp : p ≤ q
      · rw [if_pos ⟨hp, hlt⟩, if_pos (by omega), if_pos (by omega)]
      · rw [if_neg (by omega), if_neg (by omega)]
    · by_cases hend : q < p + n + m
      · rw [if_pos ⟨hge, hend⟩, if_pos (by omega), if_neg (by omega), Nat.sub_sub]
      · rw [if_neg (by omega), if_neg (by omega), h.bytes q hq, if_neg (by omega)]

end FileRec.Written

section Loops

variable {file : OpenFile} {f : FileRec} {disk : DiskFile} {p n : Nat}

/-- The part of a request inside of a file. -/
theorem clamp_natCast (length n p : Nat) : OpenFile.clamp length n p = min n (length - p) := by
  rw [OpenFile.clamp]
  omega

/-- **`Write`**, of bytes for which there is room: the seek position moves behind them. -/
theorem write_piece (hd : file.hdr.Describes f.length f.sectors) (hS : f.sectors.Nodup) (hseek : file.seekPosition = p)
    (hfits : p + n ≤ f.length) (hlength : f.length < 2 ^ 31) (disk : DiskFile) (mem : Nat → Bytes) (from_ : Bytes) :
    ∃ disk', file.write disk mem from_ n = some ((n : Int), { file with seekPosition := ((p + n : Nat) : Int) }, disk') ∧
      f.Written (DiskFile.blocks disk) (DiskFile.blocks disk') from_ n p := by
  obtain ⟨disk', hwrite, hframe, hbytes⟩ := OpenFile.writeAt_spec (n := n) (p := p) hd hS (by omega) disk mem from_
  have hclamp : OpenFile.clamp f.length n p = n := by
    rw [clamp_natCast]
    omega
  rw [hclamp] at hwrite hbytes
  refine ⟨disk', ?_, hframe, hbytes⟩
  rw [OpenFile.write, hseek, hwrite, Option.map_some, int32_of_range (by omega) (by omega)]
  rfl

/-- **The loop of `Copy`** is one write of all the pieces. -/
theorem copyLoop_spec (hS : f.sectors.Nodup) (hlength : f.length < 2 ^ 31) (pieces : List (List UInt8)) :
    ∀ (file : OpenFile) (disk : DiskFile) {p : Nat} (buffer : Bytes) (mem : Nat → Nat → Bytes),
      file.hdr.Describes f.length f.sectors → file.seekPosition = p → (∀ piece ∈ pieces, 0 < piece.length) →
      p + pieces.flatten.length ≤ f.length →
      ∃ disk', copyLoop pieces file disk buffer mem = some disk' ∧
        f.Written (DiskFile.blocks disk) (DiskFile.blocks disk') (listBytes pieces.flatten) pieces.flatten.length p := by
  induction pieces with
  | nil =>
    intro file disk p buffer mem _ _ _ _
    exact ⟨disk, rfl, .refl f _ _ p⟩
  | cons piece pieces ih =>
    intro file disk p buffer mem hd hseek hpos hfits
    obtain ⟨hpiece, hpos⟩ := List.forall_mem_cons.mp hpos
    rw [List.flatten_cons, List.length_append] at hfits
    obtain ⟨disk₁, hwrite, hwritten⟩ := write_piece (n := piece.length) hd hS hseek (by omega) hlength disk (mem 0)
      (bcopy (listBytes piece) 0 buffer 0 piece.length)
    obtain ⟨disk', hloop, hrest⟩ := ih { file with seekPosition := ((p + piece.length : Nat) : Int) } disk₁
      (bcopy (listBytes piece) 0 buffer 0 piece.length) (fun k => mem (k + 1)) hd rfl hpos (by omega)
    refine ⟨disk', ?_, ?_⟩
    · rw [copyLoop, if_pos hpiece, hwrite, Option.bind_some]
      exact hloop
    · rw [List.flatten_cons, List.length_append]
      refine (hwritten.append hrest).congr ?_
      intro q hq
      by_cases hlt : q < piece.length
      · rw [if_pos hlt, bcopy_zero hlt, Nat.zero_add, listBytes, listBytes, List.getD_append _ _ _ _ hlt]
      · rw [if_neg hlt, listBytes, listBytes, List.getD_append_right _ _ _ _ (by omega)]

/-! ## Reading -/

/-- **`Read`**, from a position in the file: the bytes from there on, as many as there are. -/
theorem read_piece (hd : file.hdr.Describes f.length f.sectors) (hseek : file.seekPosition = p) (hp : p ≤ f.length)
    (hlength : f.length + n < 2 ^ 31) (disk : DiskFile) (mem into : Bytes) :
    ∃ into', file.read disk mem into 0 n = some (((min n (f.length - p) : Nat) : Int),
        { file with seekPosition := ((p + min n (f.length - p) : Nat) : Int) }, into') ∧
      slice into' 0 (min n (f.length - p)) = slice ((DiskFile.blocks disk).array f.sectors) p (min n (f.length - p)) := by
  have hread := OpenFile.readAt_spec (n := n) (p := p) hd (by omega) disk mem into 0
  rw [clamp_natCast] at hread
  refine ⟨bcopy ((DiskFile.blocks disk).array f.sectors) p into 0 (min n (f.length - p)), ?_, ?_⟩
  · rw [OpenFile.read, hseek, hread, Option.map_some, int32_of_range (by omega) (by omega)]
    rfl
  · apply slice_congr
    intro i hi
    rw [bcopy_add hi]

/-- **The loop of `Print`** prints the file from the seek position on, if it is not cut off. -/
theorem printLoop_spec (hlength : f.length + transferSize < 2 ^ 31) (disk : DiskFile) (n : Nat) :
    ∀ (file : OpenFile) {p : Nat} (buffer : Bytes) (mem : Nat → Bytes), file.hdr.Describes f.length f.sectors →
      file.seekPosition = p → p ≤ f.length → f.length - p + transferSize ≤ transferSize * n →
      printLoop disk n file buffer mem =
        some (slice ((DiskFile.blocks disk).array f.sectors) p (f.length - p)) := by
  induction n with
  | zero =>
    intro file p buffer mem _ _ _ hn
    rw [transferSize] at hn
    omega
  | succ n ih =>
    intro file p buffer mem hd hseek hp hn
    obtain ⟨into, hread, hslice⟩ := read_piece hd hseek hp hlength disk (mem 0) buffer
    rw [printLoop, hread, Option.bind_some]
    rw [transferSize] at *
    rcases Nat.eq_or_lt_of_le hp with rfl | hlt
    · -- the end of the file: `Read` returns 0
      rw [if_neg (by omega), Nat.sub_self]
      rfl
    · rw [if_pos (by omega)]
      have hrest := ih { file with seekPosition := ((p + min 10 (f.length - p) : Nat) : Int) } into
        (fun k => mem (k + 1)) hd rfl (by omega) (by omega)
      rw [hrest, Option.map_some, Int.toNat_natCast, hslice, ← slice_add]
      congr 2
      omega

end Loops

/-! ## Both -/

section Both

variable {fs : FileSystem} {disk disk' : DiskFile} {files : Nat → Option FileRec} {i : Nat} {f : FileRec} {name : Bytes}

/-- **`Open`** of a file that is there. -/
theorem FileSystem.opens_file (hfs : fs.Ready) (h : Shows (DiskFile.blocks disk) files) (hf : files i = some f)
    (hkey : f.key = fileKey name) (mem : Nat → Bytes) :
    ∃ file, fs.openFile disk name mem = some (some file) ∧ file.hdr.Describes f.length f.sectors ∧
      file.seekPosition = 0 := by
  rcases openFile_spec hfs h name mem with ⟨j, g, file, hg, hgkey, hopen, hd, hseek⟩ | ⟨habsent, -⟩
  · obtain rfl : j = i := h.distinct j i g f hg hf (hgkey.trans hkey.symm)
    obtain rfl : g = f := Option.some.inj (hg.symm.trans hf)
    exact ⟨file, hopen, hd, hseek⟩
  · exact absurd hkey (habsent i f hf)

theorem FileRec.bytes_eq_slice (f : FileRec) (store : Blocks sectorSize) :
    f.bytes store = slice (store.array f.sectors) 0 f.length := by
  simp only [FileRec.bytes, slice, Nat.zero_add]

/-- A file that was written from its beginning to its end. -/
theorem FileRec.Written.bytes_eq {store store' : Blocks sectorSize} {bytes : List UInt8}
    (h : f.Written store store' (listBytes bytes) bytes.length 0) (hlength : f.length = bytes.length) :
    f.bytes store' = bytes := by
  apply List.ext_getElem
  · rw [f.length_bytes, hlength]
  · intro q hq hq'
    have hbyte := h.bytes q (by omega)
    rw [if_pos (by omega), Nat.sub_zero, listBytes, List.getD_eq_getElem _ _ hq'] at hbyte
    rw [← hbyte]
    simp only [FileRec.bytes, List.getElem_map, List.getElem_range]

end Both

/-- **WHAT `Copy` WRITES, `Print` PRINTS.**  If the file can be created, then after `Copy` the disk has the files it would
    have after one `WriteAt` of the whole UNIX file, and `Print` ends and prints the UNIX file. -/
theorem copy_then_print (fs : FileSystem) (hfs : fs.Ready) (disk : DiskFile) (files : Nat → Option FileRec)
    (hshows : Shows (DiskFile.blocks disk) files) (from_ : HostFile) (hsize : from_.bytes.length ≤ maxFileSize)
    (to_ : Bytes) (mem : Nat → Nat → Bytes) (created : DiskFile)
    (hcreate : fs.create disk to_ from_.bytes.length (mem 0) = some (true, created)) :
    ∃ copied, fs.copy disk from_ to_ mem = some copied ∧
      (∃ openFile written, fs.openFile created to_ (mem 1) = some (some openFile) ∧
        openFile.writeAt created (mem 3) (listBytes from_.bytes) from_.bytes.length openFile.seekPosition =
          some ((from_.bytes.length : Int), written) ∧
        fileContents (DiskFile.blocks copied) = fileContents (DiskFile.blocks written)) ∧
      fileContents (DiskFile.blocks copied) (fileKey to_) = some from_.bytes ∧
      ∀ n mem', from_.bytes.length + transferSize ≤ transferSize * n →
        fs.print n copied to_ mem' = some from_.bytes := by
  have hmax : maxFileSize = 3840 := rfl
  rcases FileSystem.create_spec hfs hshows to_ hsize (mem 0) with hfalse | ⟨disk₁, i, f, htrue, -, -, hkey, hlength, -, h₁, -⟩
  · rw [hfalse] at hcreate
    cases hcreate
  rw [htrue] at hcreate
  obtain rfl : disk₁ = created := congrArg Prod.snd (Option.some.inj hcreate)
  have hf : Function.update files i (some f) i = some f := Function.update_self ..
  have hS : f.sectors.Nodup := (List.nodup_cons.mp (h₁.nodup hf)).2
  obtain ⟨openFile, hopen, hd, hseek⟩ := FileSystem.opens_file hfs h₁ hf hkey (mem 1)
  obtain ⟨copied, hloop, hcopied⟩ := copyLoop_spec hS (by omega) from_.pieces openFile disk₁ (p := 0) (mem 2 0)
    (fun k => mem (k + 3)) hd hseek from_.piece_pos (by rw [hlength, Nat.zero_add]; exact Nat.le_refl _)
  obtain ⟨written, hwrite, hframe, hbytes⟩ := OpenFile.writeAt_spec (n := from_.bytes.length) (p := 0) hd hS (by omega)
    disk₁ (mem 3) (listBytes from_.bytes)
  have hclamp : OpenFile.clamp f.length from_.bytes.length 0 = from_.bytes.length := by
    rw [clamp_natCast]
    omega
  rw [hclamp] at hwrite hbytes
  have h₂ := h₁.of_data hf hcopied.frame
  have hsame := hcopied.bytes_eq hlength
  refine ⟨copied, ?_, ⟨openFile, written, hopen, ?_, ?_⟩, ?_, ?_⟩
  · have hfits : int32 from_.bytes.length = from_.bytes.length := int32_of_range (by omega) (by omega)
    simp only [FileSystem.copy, hfits, htrue, Option.bind_eq_bind, Option.bind_some, Bool.not_true, Bool.false_eq_true,
      if_false, hopen]
    exact hloop
  · rw [hseek]
    exact hwrite
  · rw [h₁.fileContents_written hf hcopied, h₁.fileContents_written hf ⟨hframe, hbytes⟩]
    rfl
  · rw [← hkey, h₂.fileContents_eq hf]
    exact congrArg some hsame
  · intro n mem' hn
    obtain ⟨file, hopen', hd', hseek'⟩ := FileSystem.opens_file hfs h₂ hf hkey (mem' 0)
    simp only [FileSystem.print, Option.bind_eq_bind, hopen', Option.bind_some]
    have hprint := printLoop_spec (f := f) (by rw [transferSize]; omega) copied n file (p := 0) (mem' 1 0)
      (fun k => mem' 2 k) hd' hseek' (by omega) (by omega)
    rw [hprint, Nat.sub_zero, ← f.bytes_eq_slice, hsame]
    rfl

/-- The first file on a disk without files can be created. -/
theorem FileSystem.creates_first {fs : FileSystem} (hfs : fs.Ready) {disk : DiskFile}
    (h : Shows (DiskFile.blocks disk) fun _ => none) (name : Bytes) {size : Nat} (hsize : size ≤ maxFileSize)
    (mem : Nat → Bytes) : ∃ disk', fs.create disk name size mem = some (true, disk') := by
  have hunused : ∀ i < numDirEntries, (diskDirectory (DiskFile.blocks disk)).inUse i = false := by
    intro i hi
    exact h.lists.free i hi rfl
  rcases create_spec hfs h name hsize mem with hfalse | ⟨disk', i, f, htrue, -⟩
  · exfalso
    rcases create_cases (hfs.reads disk) (fun i hi huse => by rw [hunused i hi] at huse; cases huse) name hsize mem with
      ⟨hwhy, -⟩ | ⟨i, n, S, hdr, d', b', -, hwrites⟩
    · -- none of the reasons to refuse it applies
      have hfree := h.card_freeSectors
      rw [Nachos.card_freeSectors, h.freeMapOnDisk_eq] at hfree
      rcases hwhy with ⟨j, hj, huse, -⟩ | hfull | hfew
      · rw [hunused j hj] at huse
        cases huse
      · have huse := hfull 0 (by decide)
        rw [hunused 0 (by decide)] at huse
        cases huse
      · rw [hfree, show sectorSize = 128 from rfl] at hfew
        rw [show maxFileSize = 3840 from rfl] at hsize
        omega
    · rw [hfalse] at hwrites
      obtain ⟨disk₁, -, hwrites⟩ := Option.bind_eq_some_iff.mp hwrites.symm
      obtain ⟨disk₂, -, hwrites⟩ := Option.bind_eq_some_iff.mp hwrites
      obtain ⟨disk₃, -, hwrites⟩ := Option.bind_eq_some_iff.mp hwrites
      cases hwrites
  · exact ⟨disk', htrue⟩

/-- A UNIX file of four bytes, which `fread` returns in two pieces. -/
def twoPieces : HostFile := ⟨[[1, 2, 3], [4]], by decide, by decide⟩

/-- It is copied to a new disk, and printed. -/
theorem copy_then_print_boot : ∃ copied,
    bootFs.system.copy bootFs.disk twoPieces (letter 102) (fun _ => zeros) = some copied ∧
      bootFs.system.print 2 copied (letter 102) (fun _ => zeros) = some [1, 2, 3, 4] := by
  have hholds : bootFs.Holds fun _ => none := Fs.holds_of_init bootFs_init
  obtain ⟨created, hcreate⟩ := FileSystem.creates_first hholds.ready hholds.shows (letter 102)
    (show twoPieces.bytes.length ≤ maxFileSize by decide) zeros
  obtain ⟨copied, hcopy, -, -, hprint⟩ := copy_then_print bootFs.system hholds.ready bootFs.disk _ hholds.shows twoPieces
    (by decide) (letter 102) (fun _ => zeros) created hcreate
  exact ⟨copied, hcopy, hprint 2 _ (by decide)⟩

end Nachos
