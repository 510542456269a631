/-
  `filesys/filehdr.cc` — file headers.

  A file header is 32 words: the length in bytes, the number of data sectors, and room for 30 sector
  numbers.  It fills a sector, and is read from disk and written to disk as it is in memory; so it is
  modelled as the bytes it consists of.  What is behind the sectors that are in use is whatever was
  in memory.  An index into `dataSectors` that is -1 or -2 is still inside the object.

  `Describes` says what a header says.  `Allocate` makes a header that describes a file of the size that is
  asked for, in sectors that were clear, or does not touch the bitmap (`allocate_spec`); `Deallocate`
  clears the sectors that a header describes, and its `ASSERT` holds if they are all marked
  (`deallocate_spec`).

  `Allocate` compares the size with the room on the DISK, not with the room in the HEADER.  For files of any
  size it does what it should IFF the size is at most `MaxFileSize`, or the disk is too full for it
  (`allocate_fits_iff`).

  The disk is the file of bytes of `machine/disk.cc`; the operations come one after the other.
-/
import Nachos.Lib.Blocks
import Nachos.Machine.Disk
import Nachos.Userprog.BitMap

namespace Nachos

/-! ## The code -/

instance : NeZero sectorSize := ⟨by decide⟩

/-- `SynchDisk::ReadSector(sectorNumber, data + a)`; `none`: the `ASSERT` of the disk fails. -/
def DiskFile.readSector (disk : DiskFile) (sectorNumber : Int) (data : Bytes) (a : Nat) : Option Bytes :=
  if validSector sectorNumber then
    some (bcopy (Block.bytes (readFile disk sectorNumber.toNat)) 0 data a sectorSize)
  else none

/-- `SynchDisk::WriteSector(sectorNumber, data + a)`. -/
def DiskFile.writeSector (disk : DiskFile) (sectorNumber : Int) (data : Bytes) (a : Nat) : Option DiskFile :=
  if validSector sectorNumber then some (writeFile disk sectorNumber.toNat fun i => data (a + i))
  else none

/-- `NumDirect`. -/
def numDirect : Nat := (sectorSize - 2 * 4) / 4

/-- `MaxFileSize`. -/
def maxFileSize : Nat := numDirect * sectorSize

/-- `class FileHeader`, as it is in memory. -/
structure FileHeader where
  bytes : Bytes

namespace FileHeader

/-- `numBytes`. -/
def numBytes (hdr : FileHeader) : Int := (getWord hdr.bytes 0).toInt

/-- `numSectors`. -/
def numSectors (hdr : FileHeader) : Int := (getWord hdr.bytes 4).toInt

/-- `dataSectors[i]`; before the array are `numBytes` and `numSectors`; `none`: not in the object. -/
def dataSectors (hdr : FileHeader) (i : Int) : Option Int :=
  if -2 ≤ i ∧ i < numDirect then some (getWord hdr.bytes (8 + 4 * i).toNat).toInt else none

/-- `dataSectors[i] = sector`. -/
def setDataSector (hdr : FileHeader) (i : Nat) (sector : Int) : Option FileHeader :=
  if i < numDirect then some ⟨putWord hdr.bytes (8 + 4 * i) (BitVec.ofInt 32 sector)⟩ else none

/-- The loop of `Allocate`. -/
def allocateLoop (hdr : FileHeader) (freeMap : BitMap) : List Nat → Option (FileHeader × BitMap)
  | [] => some (hdr, freeMap)
  | i :: rest =>
    match freeMap.find with
    | none => none
    | some (sector, freeMap') =>
      match hdr.setDataSector i sector with
      | none => none
      | some hdr' => allocateLoop hdr' freeMap' rest

/-- `FileHeader::Allocate(freeMap, fileSize)`. -/
def allocate (hdr : FileHeader) (freeMap : BitMap) (fileSize : Int) :
    Option (Bool × FileHeader × BitMap) :=
  let numSectors := divRoundUp fileSize sectorSize
  let hdr' : FileHeader :=
    ⟨putWord (putWord hdr.bytes 0 (BitVec.ofInt 32 fileSize)) 4 (BitVec.ofInt 32 numSectors)⟩
  match freeMap.numClear with
  | none => none
  | some numClear =>
    if numClear < numSectors then some (false, hdr', freeMap)
    else (hdr'.allocateLoop freeMap (List.range numSectors.toNat)).map fun r => (true, r)

/-- `FileHeader::Deallocate(freeMap)`; `none`: the `ASSERT` fails. -/
def deallocate (hdr : FileHeader) (freeMap : BitMap) : Option BitMap :=
  (List.range hdr.numSectors.toNat).foldlM (fun freeMap (i : Nat) =>
    match hdr.dataSectors i with
    | none => none
    | some sector =>
      match freeMap.test sector with
      | some true => freeMap.clear sector
      | _ => none) freeMap

/-- `FileHeader::FetchFrom(sector)`. -/
def fetchFrom (hdr : FileHeader) (disk : DiskFile) (sector : Int) : Option FileHeader :=
  (DiskFile.readSector disk sector hdr.bytes 0).map FileHeader.mk

/-- `FileHeader::WriteBack(sector)`. -/
def writeBack (hdr : FileHeader) (disk : DiskFile) (sector : Int) : Option DiskFile :=
  DiskFile.writeSector disk sector hdr.bytes 0

/-- `FileHeader::ByteToSector(offset)`. -/
def byteToSector (hdr : FileHeader) (offset : Int) : Option Int :=
  hdr.dataSectors (offset.tdiv sectorSize)

/-- `FileHeader::FileLength()`. -/
def fileLength (hdr : FileHeader) : Int := hdr.numBytes

end FileHeader

/-! ## Sectors of the disk -/

/-- The disk as a store of blocks. -/
def DiskFile.blocks (disk : DiskFile) : Blocks sectorSize := readFile disk

/-- A write changes one sector. -/
theorem DiskFile.blocks_writeFile (disk : DiskFile) (sector : Nat) (data : Sector) :
    DiskFile.blocks (writeFile disk sector data) = Function.update (DiskFile.blocks disk) sector data := by
  funext other
  show readFile (writeFile disk sector data) other = Function.update (readFile disk) sector data other
  by_cases hother : other = sector
  · rw [hother, Function.update_self, readFile_writeFile_self]
  · rw [Function.update_of_ne hother, readFile_writeFile_of_ne disk hother]

theorem validSector_natCast {n : Nat} : validSector (n : Int) ↔ n < numSectors := by
  unfold validSector
  omega

namespace FileHeader

/-! ## What a header says -/

/-- The header is that of a file of `length` bytes in the sectors `S`. -/
structure Describes (hdr : FileHeader) (length : Nat) (S : List Nat) : Prop where
  numBytes : hdr.numBytes = length
  numSectors : hdr.numSectors = S.length
  dataSectors : ∀ i < S.length, hdr.dataSectors i = some ((S.getD i 0 : Nat) : Int)
  rounded : S.length = (length + (sectorSize - 1)) / sectorSize
  direct : S.length ≤ numDirect
  valid : ∀ n ∈ S, n < Nachos.numSectors

/-- The sectors that the header lists are `S`. -/
structure Lists (hdr : FileHeader) (S : List Nat) : Prop where
  numSectors : hdr.numSectors = S.length
  dataSectors : ∀ i < S.length, hdr.dataSectors i = some ((S.getD i 0 : Nat) : Int)

variable {hdr hdr' : FileHeader} {length : Nat} {S : List Nat}

/-- The words of a header are in its first 128 bytes. -/
theorem getWord_eq (h : ∀ i < sectorSize, hdr'.bytes i = hdr.bytes i) {a : Nat} (ha : a + 4 ≤ sectorSize) :
    getWord hdr'.bytes a = getWord hdr.bytes a :=
  getWord_congr fun i hi => h (a + i) (by omega)

/-- A copy of a header says the same. -/
theorem Describes.congr (hd : hdr.Describes length S)
    (h : ∀ i < sectorSize, hdr'.bytes i = hdr.bytes i) : hdr'.Describes length S := by
  have hsize : sectorSize = 128 := rfl
  refine ⟨?_, ?_, fun i hi => ?_, hd.rounded, hd.direct, hd.valid⟩
  · rw [← hd.numBytes, FileHeader.numBytes, FileHeader.numBytes, getWord_eq h (by omega)]
  · rw [← hd.numSectors, FileHeader.numSectors, FileHeader.numSectors, getWord_eq h (by omega)]
  · have hdirect : i < 30 := Nat.lt_of_lt_of_le hi hd.direct
    rw [← hd.dataSectors i hi, FileHeader.dataSectors, FileHeader.dataSectors, getWord_eq h (by omega)]

/-- The sectors that a header lists. -/
def sectors (hdr : FileHeader) : List Nat :=
  (List.range hdr.numSectors.toNat).map fun i => (getWord hdr.bytes (8 + 4 * i)).toNat

theorem dataSectors_natCast {i : Nat} (hi : i < numDirect) :
    hdr.dataSectors i = some (getWord hdr.bytes (8 + 4 * i)).toInt := by
  have hin : -2 ≤ (i : Int) ∧ (i : Int) < numDirect := by omega
  have hat : (8 + 4 * (i : Int)).toNat = 8 + 4 * i := by omega
  rw [FileHeader.dataSectors, if_pos hin, hat]

theorem Describes.sectors_eq (hd : hdr.Describes length S) : hdr.sectors = S := by
  refine List.ext_getElem ?_ fun i hi hi' => ?_
  · rw [sectors, List.length_map, List.length_range, hd.numSectors, Int.toNat_natCast]
  · have hword := hd.dataSectors i hi'
    rw [dataSectors_natCast (Nat.lt_of_lt_of_le hi' hd.direct)] at hword
    have hint := Option.some.inj hword
    have hlt : S[i] < 1024 := hd.valid _ (List.getElem_mem hi')
    rw [List.getD_eq_getElem _ _ hi'] at hint
    have hnat : (getWord hdr.bytes (8 + 4 * i)).toNat = S[i] := by
      rw [BitVec.toInt_eq_toNat_cond] at hint
      split at hint <;> omega
    simp only [sectors, List.getElem_map, List.getElem_range]
    exact hnat

/-- A position of the file is in one of its sectors. -/
theorem Describes.div_lt (hd : hdr.Describes length S) {p : Nat} (hp : p < length) :
    p / sectorSize < S.length := by
  rw [hd.rounded]
  have hsize : sectorSize = 128 := rfl
  rw [hsize]
  omega

theorem Describes.length_le (hd : hdr.Describes length S) : length ≤ maxFileSize := by
  have hdirect := hd.direct
  have hrounded := hd.rounded
  have hsize : sectorSize = 128 := rfl
  have hmax : maxFileSize = 30 * 128 := rfl
  have hnum : numDirect = 30 := rfl
  rw [hsize] at hrounded
  omega

/-- The sector of a position. -/
theorem Describes.byteToSector (hd : hdr.Describes length S) {k : Nat} (hk : k < S.length) :
    hdr.byteToSector ((k : Int) * sectorSize) = some ((S.getD k 0 : Nat) : Int) := by
  have hdiv : ((k : Int) * sectorSize).tdiv sectorSize = k := Int.mul_tdiv_cancel _ (by decide)
  rw [FileHeader.byteToSector, hdiv]
  exact hd.dataSectors k hk

/-! ## Headers on disk -/

/-- The header in a sector. -/
def onDisk (store : Blocks sectorSize) (sector : Nat) : FileHeader := ⟨Block.bytes (store sector)⟩

theorem fetchFrom_eq (hdr : FileHeader) (disk : DiskFile) {sector : Nat}
    (hsector : sector < Nachos.numSectors) :
    ∃ hdr', hdr.fetchFrom disk sector = some hdr' ∧
      ∀ i < sectorSize, hdr'.bytes i = (onDisk (DiskFile.blocks disk) sector).bytes i := by
  refine ⟨⟨bcopy (Block.bytes (readFile disk sector)) 0 hdr.bytes 0 sectorSize⟩, ?_, fun i hi => ?_⟩
  · rw [fetchFrom, DiskFile.readSector, if_pos (validSector_natCast.mpr hsector)]
    rfl
  · show bcopy _ 0 _ 0 sectorSize i = Block.bytes (readFile disk sector) i
    rw [bcopy_zero hi, Nat.zero_add]

theorem writeBack_eq (hdr : FileHeader) (disk : DiskFile) {sector : Nat}
    (hsector : sector < Nachos.numSectors) :
    ∃ disk', hdr.writeBack disk sector = some disk' ∧
      DiskFile.blocks disk' = Function.update (DiskFile.blocks disk) sector fun i => hdr.bytes i := by
  refine ⟨writeFile disk sector fun i => hdr.bytes (0 + i), ?_, ?_⟩
  · rw [writeBack, DiskFile.writeSector, if_pos (validSector_natCast.mpr hsector)]
    rfl
  · rw [DiskFile.blocks_writeFile]
    simp only [Nat.zero_add]

/-- A header that was written. -/
theorem Describes.onDisk_update (hd : hdr.Describes length S) (store : Blocks sectorSize) (sector : Nat) :
    (onDisk (Function.update store sector fun i => hdr.bytes i) sector).Describes length S := by
  refine hd.congr fun i hi => ?_
  show Block.bytes (Function.update store sector _ sector) i = _
  rw [Function.update_self, Block.bytes_of_lt _ hi]

/-! ## Allocation -/

/-- **The allocation loop.**  With enough clear bits every `Find` returns a sector that was clear, and the
    first one. -/
theorem allocateLoop_spec : ∀ (m j : Nat) (hdr : FileHeader) (freeMap : BitMap), j + m ≤ numDirect →
    m ≤ freeMap.numBits - freeMap.marked.card →
    ∃ (hdr' : FileHeader) (freeMap' : BitMap) (pages : List Nat),
      hdr.allocateLoop freeMap (List.range' j m) = some (hdr', freeMap') ∧ pages.length = m ∧
      (∀ k < m, getWord hdr'.bytes (8 + 4 * (j + k)) = BitVec.ofInt 32 ((pages.getD k 0 : Nat) : Int)) ∧
      (∀ a, a + 4 ≤ 8 + 4 * j → getWord hdr'.bytes a = getWord hdr.bytes a) ∧
      pages.Pairwise (· < ·) ∧ (∀ n ∈ pages, n < freeMap.numBits ∧ n ∉ freeMap.marked) ∧
      (∀ n ∈ pages, ∀ m < n, m ∈ freeMap.marked ∨ m ∈ pages) ∧
      freeMap'.numBits = freeMap.numBits ∧ ∀ n, n ∈ freeMap'.marked ↔ n ∈ freeMap.marked ∨ n ∈ pages := by
  intro m
  induction m with
  | zero =>
    intro j hdr freeMap _ _
    exact ⟨hdr, freeMap, [], rfl, rfl, fun k hk => absurd hk (Nat.not_lt_zero k), fun _ _ => rfl,
      List.Pairwise.nil, fun _ hn => absurd hn List.not_mem_nil, fun _ hn => absurd hn List.not_mem_nil, rfl,
      fun n => by simp⟩
  | succ m ih =>
    intro j hdr freeMap hj hroom
    rcases freeMap.find_spec with ⟨-, hfull⟩ | ⟨i, freeMap₁, hfind, hlt, hfree, hleast, hbits₁, hmark₁⟩
    · -- no clear bit, against the test of `NumClear`
      rw [hfull, Finset.card_range] at hroom
      omega
    · have hroom₁ : m ≤ freeMap₁.numBits - freeMap₁.marked.card := by
        rw [hbits₁, hmark₁, Finset.card_insert_of_notMem hfree]
        omega
      have hset : hdr.setDataSector j i = some ⟨putWord hdr.bytes (8 + 4 * j) (BitVec.ofInt 32 i)⟩ :=
        if_pos (by omega)
      obtain ⟨hdr', freeMap', pages, hloop, hlen, hwords, hbelow, hsorted, hclear, hfirst, hbits, hmark⟩ :=
        ih (j + 1) ⟨putWord hdr.bytes (8 + 4 * j) (BitVec.ofInt 32 i)⟩ freeMap₁ (by omega) hroom₁
      have hnot : ∀ n ∈ pages, n ≠ i ∧ n ∉ freeMap.marked := by
        intro n hn
        have hout := (hclear n hn).2
        rw [hmark₁, Finset.mem_insert] at hout
        exact ⟨fun heq => hout (Or.inl heq), fun hmem => hout (Or.inr hmem)⟩
      refine ⟨hdr', freeMap', i :: pages, ?_, ?_, fun k hk => ?_, fun a ha => ?_, ?_, ?_, ?_,
        hbits.trans hbits₁, fun n => ?_⟩
      · rw [List.range'_succ, allocateLoop, hfind]
        simp only [hset]
        exact hloop
      · rw [List.length_cons, hlen]
      · cases k with
        | zero =>
          rw [Nat.add_zero, hbelow _ (by omega)]
          exact getWord_putWord
        | succ k =>
          have hword := hwords k (by omega)
          rw [show j + 1 + k = j + (k + 1) by omega] at hword
          rw [hword]
          rfl
      · rw [hbelow a (by omega)]
        exact getWord_putWord_of_disjoint (Or.inl ha)
      · -- what is found later is behind the first, because everything before that is marked
        refine List.pairwise_cons.mpr ⟨fun n hn => ?_, hsorted⟩
        have hge : ¬ n < i := fun hlt' => (hnot n hn).2 (hleast n hlt')
        have hne := (hnot n hn).1
        omega
      · refine List.forall_mem_cons.mpr ⟨⟨hlt, hfree⟩, fun n hn => ⟨?_, (hnot n hn).2⟩⟩
        rw [← hbits₁]
        exact (hclear n hn).1
      · refine List.forall_mem_cons.mpr ⟨fun m hm => Or.inl (hleast m hm), fun n hn m hm => ?_⟩
        rcases hfirst n hn m hm with hmem | hmem
        · rw [hmark₁, Finset.mem_insert] at hmem
          rcases hmem with rfl | hmem
          · exact Or.inr (List.mem_cons_self ..)
          · exact Or.inl hmem
        · exact Or.inr (List.mem_cons_of_mem _ hmem)
      · rw [hmark, hmark₁, Finset.mem_insert, List.mem_cons]
        tauto

/-- **The loop runs over the end of the array.**  Nothing else stops it: either `Find` fails, or the entry behind the
    last one is written. -/
theorem allocateLoop_overruns : ∀ (m j : Nat) (hdr : FileHeader) (freeMap : BitMap), j ≤ numDirect →
    numDirect < j + m → hdr.allocateLoop freeMap (List.range' j m) = none := by
  intro m
  induction m with
  | zero =>
    intro j hdr freeMap hj hm
    omega
  | succ m ih =>
    intro j hdr freeMap hj hm
    rw [List.range'_succ, allocateLoop]
    cases hfind : freeMap.find with
    | none => rfl
    | some found =>
      obtain ⟨sector, freeMap'⟩ := found
      simp only
      rcases Nat.lt_or_eq_of_le hj with hlt | heq
      · rw [setDataSector, if_pos hlt]
        exact ih (j + 1) _ freeMap' hlt (by omega)
      · rw [setDataSector, if_neg (by omega)]

/-- A header has room for this many sectors IFF the file is not larger than `MaxFileSize`. -/
theorem rounded_le_numDirect {length : Nat} :
    (length + (sectorSize - 1)) / sectorSize ≤ numDirect ↔ length ≤ maxFileSize := by
  rw [show sectorSize = 128 from rfl, show numDirect = 30 from rfl, show maxFileSize = 3840 from rfl]
  omega

/-- Not enough clear bits: the bitmap is not touched, whatever the size. -/
theorem allocate_refuses (hdr : FileHeader) {freeMap : BitMap} {length : Nat}
    (hroom : freeMap.numBits - freeMap.marked.card < (length + (sectorSize - 1)) / sectorSize) :
    ∃ hdr', hdr.allocate freeMap length = some (false, hdr', freeMap) := by
  have hround : divRoundUp length sectorSize = ((length + (sectorSize - 1)) / sectorSize : Nat) :=
    divRoundUp_natCast (by decide) length
  generalize (length + (sectorSize - 1)) / sectorSize = N at hround hroom
  refine ⟨⟨putWord (putWord hdr.bytes 0 (BitVec.ofInt 32 length)) 4 (BitVec.ofInt 32 N)⟩, ?_⟩
  simp only [allocate, freeMap.numClear_spec, hround]
  exact if_pos (by omega)

/-- Enough clear bits: the loop decides. -/
theorem allocate_eq_loop (hdr : FileHeader) {freeMap : BitMap} {length N : Nat}
    (hN : (length + (sectorSize - 1)) / sectorSize = N) (hroom : N ≤ freeMap.numBits - freeMap.marked.card) :
    hdr.allocate freeMap length
      = ((FileHeader.mk (putWord (putWord hdr.bytes 0 (BitVec.ofInt 32 length)) 4 (BitVec.ofInt 32 N))).allocateLoop
          freeMap (List.range' 0 N)).map fun r => (true, r) := by
  have hround : divRoundUp length sectorSize = ((length + (sectorSize - 1)) / sectorSize : Nat) :=
    divRoundUp_natCast (by decide) length
  have hnot : ¬ ((freeMap.numBits - freeMap.marked.card : Nat) : Int) < (N : Int) := by omega
  rw [hN] at hround
  simp only [allocate, freeMap.numClear_spec, hround]
  rw [if_neg hnot, Int.toNat_natCast, List.range_eq_range']

/-- **`Allocate`**, for the sizes that a header has room for and any bitmap. -/
theorem allocate_lists (hdr : FileHeader) {freeMap : BitMap} {length : Nat} (hlength : length ≤ maxFileSize)
    (hbits : freeMap.numBits < 2 ^ 31) :
    (freeMap.numBits - freeMap.marked.card < (length + (sectorSize - 1)) / sectorSize ∧
      ∃ hdr', hdr.allocate freeMap length = some (false, hdr', freeMap)) ∨
    ((length + (sectorSize - 1)) / sectorSize ≤ freeMap.numBits - freeMap.marked.card ∧
      ∃ hdr' freeMap' S, hdr.allocate freeMap length = some (true, hdr', freeMap') ∧ hdr'.numBytes = length ∧
        hdr'.Lists S ∧ S.length = (length + (sectorSize - 1)) / sectorSize ∧ S.Pairwise (· < ·) ∧
        (∀ n ∈ S, n < freeMap.numBits ∧ n ∉ freeMap.marked) ∧
        (∀ n ∈ S, ∀ m < n, m ∈ freeMap.marked ∨ m ∈ S) ∧ freeMap'.numBits = freeMap.numBits ∧
        ∀ n, n ∈ freeMap'.marked ↔ n ∈ freeMap.marked ∨ n ∈ S) := by
  have hdirect : numDirect = 30 := rfl
  have hmax : maxFileSize = 3840 := rfl
  have hNle := rounded_le_numDirect.mpr hlength
  by_cases hroom : freeMap.numBits - freeMap.marked.card < (length + (sectorSize - 1)) / sectorSize
  · exact Or.inl ⟨hroom, allocate_refuses hdr hroom⟩
  · refine Or.inr ⟨Nat.le_of_not_lt hroom, ?_⟩
    generalize hN : (length + (sectorSize - 1)) / sectorSize = N at hNle hroom
    obtain ⟨hdr', freeMap', S, hloop, hlen, hwords, hbelow, hsorted, hfresh, hfirst, hbits', hmark⟩ :=
      allocateLoop_spec N 0 ⟨putWord (putWord hdr.bytes 0 (BitVec.ofInt 32 length)) 4 (BitVec.ofInt 32 N)⟩
        freeMap (by omega) (Nat.le_of_not_lt hroom)
    refine ⟨hdr', freeMap', S, ?_, ?_, ⟨?_, fun i hi => ?_⟩, hlen, hsorted, hfresh, hfirst, hbits', hmark⟩
    · rw [allocate_eq_loop hdr hN (Nat.le_of_not_lt hroom), hloop]
      rfl
    · rw [FileHeader.numBytes, hbelow 0 (by omega), getWord_putWord_of_disjoint (Or.inl (by omega)),
        getWord_putWord]
      exact int32_of_range (by omega) (by omega)
    · rw [FileHeader.numSectors, hbelow 4 (by omega), getWord_putWord, hlen]
      exact int32_of_range (by omega) (by omega)
    · have hword := hwords i (by omega)
      rw [Nat.zero_add] at hword
      have hlt : S.getD i 0 < freeMap.numBits := by
        rw [List.getD_eq_getElem _ _ hi]
        exact (hfresh _ (List.getElem_mem hi)).1
      rw [dataSectors_natCast (by omega), hword]
      exact congrArg some (int32_of_range (by omega) (by omega))

/-- **`Allocate`** with a bitmap of the disk: the header describes a file. -/
theorem allocate_spec (hdr : FileHeader) {freeMap : BitMap} {length : Nat} (hlength : length ≤ maxFileSize)
    (hbits : freeMap.numBits = Nachos.numSectors) :
    (freeMap.numBits - freeMap.marked.card < (length + (sectorSize - 1)) / sectorSize ∧
      ∃ hdr', hdr.allocate freeMap length = some (false, hdr', freeMap)) ∨
    ((length + (sectorSize - 1)) / sectorSize ≤ freeMap.numBits - freeMap.marked.card ∧
      ∃ hdr' freeMap' S, hdr.allocate freeMap length = some (true, hdr', freeMap') ∧
        hdr'.Describes length S ∧ S.Pairwise (· < ·) ∧ (∀ n ∈ S, n ∉ freeMap.marked) ∧
        (∀ n ∈ S, ∀ m < n, m ∈ freeMap.marked ∨ m ∈ S) ∧ freeMap'.numBits = Nachos.numSectors ∧
        ∀ n, n ∈ freeMap'.marked ↔ n ∈ freeMap.marked ∨ n ∈ S) := by
  rcases allocate_lists hdr hlength (by rw [hbits]; decide) with
    hfalse | ⟨hroom, hdr', freeMap', S, htrue, hnum, hlists, hlen, hsorted, hfresh, hfirst, hbits', hmark⟩
  · exact Or.inl hfalse
  · have hdirect : S.length ≤ numDirect := hlen ▸ rounded_le_numDirect.mpr hlength
    have hvalid : ∀ n ∈ S, n < Nachos.numSectors := by
      intro n hn
      rw [← hbits]
      exact (hfresh n hn).1
    exact Or.inr ⟨hroom, hdr', freeMap', S, htrue,
      ⟨hnum, hlists.numSectors, hlists.dataSectors, hlen, hdirect, hvalid⟩, hsorted,
      fun n hn => (hfresh n hn).2, hfirst, hbits'.trans hbits, hmark⟩

/-- **`Deallocate`**: the `ASSERT` holds if the sectors are marked, and then they are cleared. -/
theorem deallocate_lists {hdr : FileHeader} {S : List Nat} (hlists : hdr.Lists S) (hS : S.Nodup) {freeMap : BitMap}
    (hmarked : ∀ n ∈ S, n ∈ freeMap.marked) :
    ∃ freeMap', hdr.deallocate freeMap = some freeMap' ∧ freeMap'.numBits = freeMap.numBits ∧
      ∀ n, n ∈ freeMap'.marked ↔ n ∈ freeMap.marked ∧ n ∉ S := by
  -- after `m` iterations the first `m` sectors are clear
  have hloop : ∀ m ≤ S.length, ∃ freeMap', (List.range m).foldlM (fun freeMap (i : Nat) =>
      match hdr.dataSectors i with
      | none => none
      | some sector =>
        match freeMap.test sector with
        | some true => freeMap.clear sector
        | _ => none) freeMap = some freeMap' ∧ freeMap'.numBits = freeMap.numBits ∧
      ∀ n, n ∈ freeMap'.marked ↔ n ∈ freeMap.marked ∧ n ∉ S.take m := by
    intro m
    induction m with
    | zero => exact fun _ => ⟨freeMap, rfl, rfl, fun n => by simp⟩
    | succ m ih =>
      intro hm
      obtain ⟨freeMap₁, hrun, hbits₁, hmark₁⟩ := ih (by omega)
      have hget : S.getD m 0 = S[m] := List.getD_eq_getElem _ _ hm
      have hmem : S[m] ∈ S := List.getElem_mem hm
      have hstill : S[m] ∈ freeMap₁.marked := by
        refine (hmark₁ _).mpr ⟨hmarked _ hmem, fun hbefore => ?_⟩
        obtain ⟨k, hk, heq⟩ := List.mem_take_iff_getElem.mp hbefore
        have hkm : k = m := (hS.getElem_inj_iff).mp heq
        omega
      obtain ⟨hlt, hbit⟩ := BitMap.mem_marked.mp hstill
      obtain ⟨freeMap₂, hclear, hbits₂, hmark₂⟩ := BitMap.clear_spec hlt
      refine ⟨freeMap₂, ?_, hbits₂.trans hbits₁, fun n => ?_⟩
      · rw [List.range_succ, List.foldlM_append, hrun]
        simp only [List.foldlM_cons, List.foldlM_nil, hlists.dataSectors m hm, hget, BitMap.test_eq hlt, hbit,
          Option.bind_eq_bind, Option.bind_some, hclear]
        rfl
      · rw [hmark₂, Finset.mem_erase, hmark₁, List.take_succ_eq_append_getElem hm, List.mem_append,
          List.mem_singleton]
        tauto
  obtain ⟨freeMap', hrun, hbits', hmark⟩ := hloop S.length (Nat.le_refl _)
  refine ⟨freeMap', ?_, hbits', fun n => ?_⟩
  · rw [deallocate, hlists.numSectors, Int.toNat_natCast]
    exact hrun
  · rw [hmark, List.take_length]

/-- **`Deallocate`** of a file of the disk. -/
theorem deallocate_spec {hdr : FileHeader} {length : Nat} {S : List Nat} (hd : hdr.Describes length S)
    (hS : S.Nodup) {freeMap : BitMap} (hbits : freeMap.numBits = Nachos.numSectors)
    (hmarked : ∀ n ∈ S, n ∈ freeMap.marked) :
    ∃ freeMap', hdr.deallocate freeMap = some freeMap' ∧ freeMap'.numBits = Nachos.numSectors ∧
      ∀ n, n ∈ freeMap'.marked ↔ n ∈ freeMap.marked ∧ n ∉ S := by
  obtain ⟨freeMap', hrun, hbits', hmark⟩ := deallocate_lists ⟨hd.numSectors, hd.dataSectors⟩ hS hmarked
  exact ⟨freeMap', hrun, hbits'.trans hbits, hmark⟩

/-! ## Files of any size -/

/-- What a call of `Allocate` that returns true leaves: the entries of the header are used for sectors that were clear,
    as many as the size needs and all different; these are the ones that are marked now; and `Deallocate` undoes it. -/
structure Allocated (freeMap : BitMap) (fileSize : Nat) (hdr' : FileHeader) (freeMap' : BitMap) (S : List Nat) :
    Prop where
  lists : hdr'.Lists S
  rounded : S.length = (fileSize + (sectorSize - 1)) / sectorSize
  direct : S.length ≤ numDirect
  distinct : S.Nodup
  clear : ∀ n ∈ S, n < freeMap.numBits ∧ n ∉ freeMap.marked
  numBits : freeMap'.numBits = freeMap.numBits
  marked : ∀ n, n ∈ freeMap'.marked ↔ n ∈ freeMap.marked ∨ n ∈ S
  restored : ∃ freeMap'', hdr'.deallocate freeMap' = some freeMap'' ∧ freeMap''.numBits = freeMap.numBits ∧
    freeMap''.marked = freeMap.marked

/-- A size that the header has no room for. -/
theorem allocate_overruns (hdr : FileHeader) {freeMap : BitMap} {fileSize : Nat} (hsize : maxFileSize < fileSize)
    (hroom : (fileSize + (sectorSize - 1)) / sectorSize ≤ freeMap.numBits - freeMap.marked.card) :
    hdr.allocate freeMap fileSize = none := by
  have hlong : numDirect < (fileSize + (sectorSize - 1)) / sectorSize := by
    have hiff : (fileSize + (sectorSize - 1)) / sectorSize ≤ numDirect ↔ fileSize ≤ maxFileSize := rounded_le_numDirect
    omega
  rw [allocate_eq_loop hdr rfl hroom, allocateLoop_overruns _ 0 _ _ (Nat.zero_le _) (by omega)]
  rfl

end FileHeader

/-- **`Allocate` keeps its promise** for files of any size IFF the size is one that a header has room for, or there are not
    enough clear bits: the code checks only the latter. -/
theorem allocate_fits_iff (hdr : FileHeader) {freeMap : BitMap} (hbits : freeMap.numBits < 2 ^ 31) (fileSize : Nat) :
    ((∃ hdr', hdr.allocate freeMap fileSize = some (false, hdr', freeMap)) ∨
      ∃ hdr' freeMap' S, hdr.allocate freeMap fileSize = some (true, hdr', freeMap') ∧
        FileHeader.Allocated freeMap fileSize hdr' freeMap' S) ↔
    (fileSize ≤ maxFileSize ∨
      freeMap.numBits - freeMap.marked.card < (fileSize + (sectorSize - 1)) / sectorSize) := by
  constructor
  · intro hkept
    by_contra hbad
    have hnone : hdr.allocate freeMap fileSize = none := FileHeader.allocate_overruns hdr (by omega) (by omega)
    rcases hkept with ⟨hdr', hfalse⟩ | ⟨hdr', freeMap', S, htrue, -⟩
    · rw [hnone] at hfalse
      cases hfalse
    · rw [hnone] at htrue
      cases htrue
  · intro hok
    by_cases hsize : fileSize ≤ maxFileSize
    · rcases FileHeader.allocate_lists hdr hsize hbits with
        ⟨-, hfalse⟩ | ⟨-, hdr', freeMap', S, htrue, -, hlists, hlen, hsorted, hfresh, -, hbits', hmark⟩
      · exact Or.inl hfalse
      · have hnodup : S.Nodup := hsorted.imp Nat.ne_of_lt
        obtain ⟨freeMap'', hback, hbits'', hmark''⟩ := FileHeader.deallocate_lists hlists hnodup
          fun n hn => (hmark n).mpr (Or.inr hn)
        have hdirect : S.length ≤ numDirect := hlen ▸ FileHeader.rounded_le_numDirect.mpr hsize
        have hrestored : freeMap''.marked = freeMap.marked := by
          ext n
          rw [hmark'', hmark]
          have hclear := fun hn => (hfresh n hn).2
          tauto
        exact Or.inr ⟨hdr', freeMap', S, htrue, hlists, hlen, hdirect, hnodup, hfresh, hbits', hmark,
          freeMap'', hback, hbits''.trans hbits', hrestored⟩
    · exact Or.inl (FileHeader.allocate_refuses hdr (by omega))

/-- A bitmap in which no sector is marked. -/
def clearMap : BitMap where
  numBits := numSectors
  map := List.replicate 32 0#32
  numWords := by decide

theorem clearMap_room {n : Nat} (h : n ≤ 1024) : ¬ clearMap.numBits - clearMap.marked.card < n := by
  have hcard : clearMap.marked.card = 0 := by decide +kernel
  have hbits : clearMap.numBits = 1024 := rfl
  omega

/-- The largest file, on a disk that is empty: thirty sectors. -/
theorem allocate_fits_largest :
    ∃ hdr' freeMap' S, (FileHeader.mk fun _ => 0).allocate clearMap (3840 : Nat) = some (true, hdr', freeMap') ∧
      FileHeader.Allocated clearMap 3840 hdr' freeMap' S ∧ S.length = 30 := by
  have hbits : clearMap.numBits < 2 ^ 31 := by decide
  have hsize : 3840 ≤ maxFileSize := by decide
  rcases (allocate_fits_iff ⟨fun _ => 0⟩ hbits 3840).mpr (Or.inl hsize) with
    ⟨hdr', hfalse⟩ | ⟨hdr', freeMap', S, htrue, hal⟩
  · -- the disk is not too full
    rcases FileHeader.allocate_lists ⟨fun _ => 0⟩ hsize hbits with ⟨hroom, -⟩ | ⟨-, hdr₁, freeMap₁, S, htrue, -⟩
    · exact absurd hroom (clearMap_room (by decide))
    · rw [hfalse] at htrue
      cases htrue
  · exact ⟨hdr', freeMap', S, htrue, hal, hal.rounded⟩

/-- **One byte more**, on the same disk: entry 30 of an array of 30 is written. -/
theorem allocate_overflows :
    (FileHeader.mk fun _ => 0).allocate clearMap (3841 : Nat) = none ∧
      30 ≤ (divRoundUp 3841 sectorSize - 1) ∧ numDirect = 30 := by
  refine ⟨FileHeader.allocate_overruns _ (by decide) ?_, by decide, rfl⟩
  exact Nat.le_of_not_lt (clearMap_room (by decide))

end Nachos
