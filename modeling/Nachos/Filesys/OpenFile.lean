/-
  `filesys/openfile.cc` — reading and writing the bytes of a file.

  An open file has a header of its own, a copy of the one on disk.  `ReadAt` and `WriteAt` clip the request
  to the length of the file, find the first and the last sector, and go through a buffer for all the
  sectors between: a read copies what it wants out of the buffer; a write first reads the sectors that
  it will change only in part, and writes the whole buffer back.  Sums are of type `int` and wrap.

  What comes out of this is an ARRAY of `length` bytes, for positions that are not negative and requests
  whose end is an `int`:

  1. **The request** (`span_spec`) — it is clipped to `clamp length n p` bytes, and its sectors are sectors
     of the file.

  2. **Reading** (`readAt_spec`) — the bytes are those of the array.

  3. **Writing** (`writeAt_spec`) — the bytes of the request are changed, and no others of the file; other
     sectors are not touched.  This is where the first and the last sector matter: a byte that is not
     part of the request comes back as the buffer has it, and it was read into the buffer by one of
     two reads, or is behind the end of the file.
-/
import Nachos.Filesys.FileHdr

namespace Nachos

/-! ## The code -/

/-- `class OpenFile`. -/
structure OpenFile where
  hdr : FileHeader
  seekPosition : Int

/-- What `ReadAt` and `WriteAt` compute from a request: the number of bytes, clipped to the file, and the
    sectors of the file. -/
structure Span where
  position : Int
  numBytes : Int
  firstSector : Int
  lastSector : Int

namespace Span

/-- The size of the buffer, `numSectors * SectorSize`. -/
def size (sp : Span) : Int := int32 (int32 (1 + sp.lastSector - sp.firstSector) * sectorSize)

/-- Where the request is in the buffer. -/
def offset (sp : Span) : Int := sp.position - sp.firstSector * sectorSize

/-- The request is in the buffer. -/
def InBuffer (sp : Span) : Prop := 0 ≤ sp.offset ∧ sp.offset + sp.numBytes ≤ sp.size

instance (sp : Span) : Decidable sp.InBuffer := inferInstanceAs (Decidable (_ ∧ _))

/-- The number of iterations of the loops over the sectors. -/
def count (sp : Span) : Nat := (sp.lastSector - sp.firstSector + 1).toNat

end Span

namespace OpenFile

/-- `OpenFile::OpenFile(sector)`; `mem` is what the new header has in it. -/
def new (disk : DiskFile) (sector : Int) (mem : Bytes) : Option OpenFile :=
  ((FileHeader.mk mem).fetchFrom disk sector).map fun hdr => ⟨hdr, 0⟩

/-- The beginning of `ReadAt` and of `WriteAt`; `none`: there is nothing to do. -/
def span (file : OpenFile) (numBytes position : Int) : Option Span :=
  let fileLength := file.hdr.fileLength
  if numBytes ≤ 0 ∨ position ≥ fileLength then none
  else
    let numBytes :=
      if int32 (position + numBytes) > fileLength then int32 (fileLength - position) else numBytes
    some ⟨position, numBytes, position.tdiv sectorSize,
      (int32 (int32 (position + numBytes) - 1)).tdiv sectorSize⟩

/-- A request that is rejected at once: nothing is asked for, or it begins behind the end of the file. -/
def Rejected (file : OpenFile) (numBytes position : Int) : Prop := numBytes ≤ 0 ∨ position ≥ file.hdr.fileLength

/-- The loop of `ReadAt`. -/
def readSectors (file : OpenFile) (disk : DiskFile) (sp : Span) (buf : Bytes) : Option Bytes :=
  (List.range sp.count).foldlM (fun buf (k : Nat) =>
    (file.hdr.byteToSector ((sp.firstSector + k) * sectorSize)).bind fun sector =>
      DiskFile.readSector disk sector buf (k * sectorSize)) buf

/-- `OpenFile::ReadAt(into + a, numBytes, position)`: the result and the memory at `into`.  `mem` is what
    the new buffer has in it; `none`: there is no such buffer, or an access outside of an array. -/
def readAt (file : OpenFile) (disk : DiskFile) (mem into : Bytes) (a : Nat) (numBytes position : Int) :
    Option (Int × Bytes) :=
  match file.span numBytes position with
  | none => some (0, into)
  | some sp =>
    if sp.size < 0 then none
    else
      (file.readSectors disk sp mem).bind fun buf =>
        if sp.InBuffer then some (sp.numBytes, bcopy buf sp.offset.toNat into a sp.numBytes.toNat)
        else none

/-- The loop of `WriteAt`. -/
def writeSectors (file : OpenFile) (disk : DiskFile) (sp : Span) (buf : Bytes) : Option DiskFile :=
  (List.range sp.count).foldlM (fun disk (k : Nat) =>
    (file.hdr.byteToSector ((sp.firstSector + k) * sectorSize)).bind fun sector =>
      DiskFile.writeSector disk sector buf (k * sectorSize)) disk

/-- The first and the last sector are read, if they are changed in part. -/
def prepare (file : OpenFile) (disk : DiskFile) (mem : Nat → Bytes) (sp : Span) : Option Bytes :=
  let firstAligned : Bool := sp.position = sp.firstSector * sectorSize
  let lastAligned : Bool := int32 (sp.position + sp.numBytes) = int32 ((sp.lastSector + 1) * sectorSize)
  (if !firstAligned then
      (file.readAt disk (mem 1) (mem 0) 0 sectorSize (sp.firstSector * sectorSize)).map (·.2)
    else some (mem 0)).bind fun buf =>
  if !lastAligned && (sp.firstSector != sp.lastSector || firstAligned) then
    (file.readAt disk (mem 2) buf ((sp.lastSector - sp.firstSector) * sectorSize).toNat sectorSize
      (sp.lastSector * sectorSize)).map (·.2)
  else some buf

/-- `OpenFile::WriteAt(from, numBytes, position)`: the result and the disk.  The new buffers have `mem` in
    them. -/
def writeAt (file : OpenFile) (disk : DiskFile) (mem : Nat → Bytes) (from_ : Bytes)
    (numBytes position : Int) : Option (Int × DiskFile) :=
  match file.span numBytes position with
  | none => some (0, disk)
  | some sp =>
    if sp.size < 0 then none
    else
      (file.prepare disk mem sp).bind fun buf =>
        if sp.InBuffer then
          (file.writeSectors disk sp (bcopy from_ 0 buf sp.offset.toNat sp.numBytes.toNat)).map fun disk =>
            (sp.numBytes, disk)
        else none

/-- `OpenFile::Seek(position)`. -/
def seek (file : OpenFile) (position : Int) : OpenFile := { file with seekPosition := position }

/-- `OpenFile::Read(into + a, numBytes)`. -/
def read (file : OpenFile) (disk : DiskFile) (mem into : Bytes) (a : Nat) (numBytes : Int) :
    Option (Int × OpenFile × Bytes) :=
  (file.readAt disk mem into a numBytes file.seekPosition).map fun r =>
    (r.1, { file with seekPosition := int32 (file.seekPosition + r.1) }, r.2)

/-- `OpenFile::Write(from, numBytes)`. -/
def write (file : OpenFile) (disk : DiskFile) (mem : Nat → Bytes) (from_ : Bytes) (numBytes : Int) :
    Option (Int × OpenFile × DiskFile) :=
  (file.writeAt disk mem from_ numBytes file.seekPosition).map fun r =>
    (r.1, { file with seekPosition := int32 (file.seekPosition + r.1) }, r.2)

/-! ## The request -/

/-- How much of a request is inside a file. -/
def clamp (length : Nat) (n : Int) (p : Nat) : Nat := (min n (length - p)).toNat

variable {file : OpenFile} {length : Nat} {S : List Nat} {p : Nat} {n : Int}

/-- A request that is inside the file, with its sectors. -/
def spanOf (p r : Nat) : Span :=
  ⟨p, r, ((p / sectorSize : Nat) : Int), (((p + r - 1) / sectorSize : Nat) : Int)⟩

theorem Rejected.span_none {position : Int} (h : file.Rejected n position) : file.span n position = none := if_pos h

theorem Rejected.writeAt {position : Int} (h : file.Rejected n position) (disk : DiskFile) (mem : Nat → Bytes)
    (from_ : Bytes) : file.writeAt disk mem from_ n position = some (0, disk) := by
  rw [OpenFile.writeAt, h.span_none]

/-- **The request is clipped.** -/
theorem span_spec (hd : file.hdr.Describes length S) (hover : p + n < 2 ^ 31) :
    (clamp length n p = 0 ∧ file.span n p = none) ∨
      (0 < clamp length n p ∧ p + clamp length n p ≤ length ∧
        file.span n p = some (spanOf p (clamp length n p))) := by
  have hmax := hd.length_le
  rw [show maxFileSize = 3840 from rfl] at hmax
  have hlen : file.hdr.fileLength = length := hd.numBytes
  unfold span clamp
  rw [hlen]
  by_cases hnone : n ≤ 0 ∨ (p : Int) ≥ length
  · refine Or.inl ⟨by omega, ?_⟩
    simp only [hnone, if_true]
  · refine Or.inr ⟨by omega, by omega, ?_⟩
    have hsum : int32 (p + n) = p + n := int32_of_range (by omega) (by omega)
    have hclip : (if int32 (p + n) > length then int32 (length - p) else n)
        = ((min n (length - p)).toNat : Int) := by
      rw [hsum]
      by_cases hbeyond : (p : Int) + n > length
      · rw [if_pos hbeyond, int32_of_range (by omega) (by omega)]
        omega
      · rw [if_neg hbeyond]
        omega
    simp only [hnone, if_false, hclip]
    generalize hr : (min n (length - p)).toNat = r
    have hr0 : 0 < r := by omega
    have hend : int32 (int32 ((p : Int) + (r : Int)) - 1) = ((p + r - 1 : Nat) : Int) := by
      rw [int32_of_range (x := (p : Int) + (r : Int)) (by omega) (by omega),
        int32_of_range (by omega) (by omega)]
      omega
    rw [hend, spanOf]
    rfl

/-- The sectors of a request are sectors of the file. -/
theorem spanOf_count (hd : file.hdr.Describes length S) {r : Nat} (hr : 0 < r) (hend : p + r ≤ length) :
    p / sectorSize + (spanOf p r).count = (p + r - 1) / sectorSize + 1 ∧
      p / sectorSize + (spanOf p r).count ≤ S.length := by
  have hsize : sectorSize = 128 := rfl
  have hlast : (p + r - 1) / sectorSize < S.length := hd.div_lt (by omega)
  have hcount : (spanOf p r).count = (p + r - 1) / sectorSize + 1 - p / sectorSize := by
    simp only [Span.count, spanOf]
    rw [hsize]
    omega
  rw [hcount]
  rw [hsize] at hlast ⊢
  omega

/-- The buffer has room for all its sectors, and the request is in it. -/
theorem spanOf_inBuffer (hd : file.hdr.Describes length S) {r : Nat} (hr : 0 < r) (hend : p + r ≤ length) :
    (spanOf p r).size = ((spanOf p r).count * sectorSize : Nat) ∧ (spanOf p r).InBuffer ∧
      (spanOf p r).offset.toNat = p % sectorSize := by
  have hsize : sectorSize = 128 := rfl
  have hmax := hd.length_le
  rw [show maxFileSize = 3840 from rfl] at hmax
  have hroom : (spanOf p r).size = ((spanOf p r).count * sectorSize : Nat) := by
    simp only [Span.size, Span.count, spanOf]
    rw [hsize]
    rw [int32_of_range (x := 1 + _ - _) (by omega) (by omega), int32_of_range (by omega) (by omega)]
    omega
  have hoffset : (spanOf p r).offset = ((p % sectorSize : Nat) : Int) := by
    simp only [Span.offset, spanOf]
    rw [hsize]
    omega
  refine ⟨hroom, ⟨?_, ?_⟩, ?_⟩
  · rw [hoffset]
    exact Int.natCast_nonneg _
  · have hcount := (spanOf_count hd hr hend).1
    rw [hroom, hoffset]
    simp only [spanOf] at hcount ⊢
    rw [hsize] at hcount ⊢
    omega
  · rw [hoffset, Int.toNat_natCast]

/-! ## Reading -/

/-- The sector number `first + k` of the file. -/
theorem byteToSector_span (hd : file.hdr.Describes length S) {r k : Nat} (hk : p / sectorSize + k < S.length) :
    file.hdr.byteToSector (((spanOf p r).firstSector + k) * sectorSize)
      = some ((S.getD (p / sectorSize + k) 0 : Nat) : Int) := by
  rw [← hd.byteToSector hk]
  simp only [spanOf, Int.natCast_add]

/-- The sectors of a file are sectors of the disk. -/
theorem valid_getD (hd : file.hdr.Describes length S) {j : Nat} (hj : j < S.length) :
    validSector ((S.getD j 0 : Nat) : Int) := by
  rw [List.getD_eq_getElem _ _ hj]
  exact validSector_natCast.mpr (hd.valid _ (List.getElem_mem hj))

theorem readSectors_eq (hd : file.hdr.Describes length S) (disk : DiskFile) (buf : Bytes) {r : Nat}
    (hcount : p / sectorSize + (spanOf p r).count ≤ S.length) :
    file.readSectors disk (spanOf p r) buf
      = some ((DiskFile.blocks disk).loads S (p / sectorSize) (spanOf p r).count buf) := by
  refine foldlM_eq_some_foldl _ _ fun buf k hk => ?_
  have hlt : p / sectorSize + k < S.length := by
    rw [List.mem_range] at hk
    omega
  rw [byteToSector_span hd hlt, Option.bind_some, DiskFile.readSector, if_pos (valid_getD hd hlt)]
  rfl

/-- **`ReadAt` reads the array.** -/
theorem readAt_spec (hd : file.hdr.Describes length S) (hover : p + n < 2 ^ 31) (disk : DiskFile)
    (mem into : Bytes) (a : Nat) :
    file.readAt disk mem into a n p = some (((clamp length n p : Nat) : Int),
      bcopy ((DiskFile.blocks disk).array S) p into a (clamp length n p)) := by
  rcases span_spec hd hover with ⟨hzero, hnone⟩ | ⟨hr, hend, hsome⟩
  · rw [readAt, hnone, hzero, bcopy_none]
    rfl
  · generalize clamp length n p = r at hr hend hsome ⊢
    obtain ⟨hroom, hin, hoffset⟩ := spanOf_inBuffer hd hr hend
    obtain ⟨hcount, hle⟩ := spanOf_count hd hr hend
    have hnonneg : ¬ (spanOf p r).size < 0 := by
      rw [hroom]
      exact Int.not_lt.mpr (Int.natCast_nonneg _)
    rw [readAt, hsome]
    simp only [if_neg hnonneg, readSectors_eq hd disk mem hle, Option.bind_some, if_pos hin, hoffset]
    have hbytes : (spanOf p r).numBytes.toNat = r := Int.toNat_natCast r
    rw [hbytes]
    -- the part of the buffer that is copied
    refine congrArg (fun b => some ((r : Int), b)) (bcopy_congr fun i hi => ?_)
    have hsize : sectorSize = 128 := rfl
    have hbuf : p % sectorSize + i < (spanOf p r).count * sectorSize := by
      rw [hsize] at hcount ⊢
      omega
    rw [Blocks.loads_apply _ _ _ _ _ _ hbuf]
    have hpos : p / sectorSize * sectorSize + (p % sectorSize + i) = p + i := by
      rw [hsize]
      omega
    rw [hpos]

/-! ## Writing -/

theorem writeSectors_eq (hd : file.hdr.Describes length S) (disk : DiskFile) (buf : Bytes) {r : Nat}
    (hcount : p / sectorSize + (spanOf p r).count ≤ S.length) :
    ∃ disk', file.writeSectors disk (spanOf p r) buf = some disk' ∧
      DiskFile.blocks disk'
        = (DiskFile.blocks disk).saves S (p / sectorSize) (spanOf p r).count buf := by
  refine ⟨(List.range (spanOf p r).count).foldl (fun disk k =>
    writeFile disk (S.getD (p / sectorSize + k) 0) fun i => buf (k * sectorSize + i)) disk, ?_, ?_⟩
  · refine foldlM_eq_some_foldl _ _ fun disk k hk => ?_
    have hlt : p / sectorSize + k < S.length := by
      rw [List.mem_range] at hk
      omega
    rw [byteToSector_span hd hlt, Option.bind_some, DiskFile.writeSector, if_pos (valid_getD hd hlt)]
    rfl
  · rw [Blocks.saves]
    refine (List.foldl_hom DiskFile.blocks fun disk k => ?_).symm
    rw [DiskFile.blocks_writeFile]

/-- One of the two reads of `WriteAt`: sector number `j` of the file into the buffer, as far as it is part
    of the file. -/
theorem readAt_sector (hd : file.hdr.Describes length S) (disk : DiskFile) (mem buf : Bytes) (a : Nat)
    {j : Nat} (hj : j * 128 < length) :
    (file.readAt disk mem buf a sectorSize ((j : Int) * sectorSize)).map (·.2)
      = some (bcopy ((DiskFile.blocks disk).array S) (j * 128) buf a (min 128 (length - j * 128))) := by
  have hmax := hd.length_le
  rw [show maxFileSize = 3840 from rfl] at hmax
  have hpos : (j : Int) * sectorSize = ((j * 128 : Nat) : Int) := (Int.natCast_mul _ _).symm
  have hover : ((j * 128 : Nat) : Int) + (sectorSize : Int) < 2 ^ 31 := by
    rw [show sectorSize = 128 from rfl]
    omega
  have hclamp : clamp length sectorSize (j * 128) = min 128 (length - j * 128) := by
    unfold clamp
    rw [show sectorSize = 128 from rfl]
    omega
  rw [hpos, readAt_spec hd hover, hclamp]
  rfl

/-- The first of the two reads: the sector in which the request begins, unless it begins with the sector. -/
theorem prepare_first (hd : file.hdr.Describes length S) (disk : DiskFile) (mem : Nat → Bytes) (first : Nat)
    (hfirst : first * 128 ≤ p) (hp : p < length) :
    ∃ buf, (if !decide ((p : Int) = (first : Int) * sectorSize) then
        (file.readAt disk (mem 1) (mem 0) 0 sectorSize ((first : Int) * sectorSize)).map (·.2)
      else some (mem 0)) = some buf ∧
      (p ≠ first * 128 → ∀ q < length, first * 128 ≤ q → q < (first + 1) * 128 →
        buf (q - first * 128) = (DiskFile.blocks disk).array S q) := by
  have haligned : ((p : Int) = (first : Int) * sectorSize) ↔ p = first * 128 := by
    rw [show sectorSize = 128 from rfl]
    omega
  by_cases hp' : p = first * 128
  · have hno : ¬ (!decide ((p : Int) = (first : Int) * sectorSize)) = true := by
      simp [haligned.mpr hp']
    rw [if_neg hno]
    exact ⟨mem 0, rfl, fun hne => absurd hp' hne⟩
  · have hyes : (!decide ((p : Int) = (first : Int) * sectorSize)) = true := by
      rw [decide_eq_false fun h => hp' (haligned.mp h)]
      rfl
    rw [if_pos hyes, readAt_sector hd disk (mem 1) (mem 0) 0 (by omega)]
    refine ⟨_, rfl, ?_⟩
    intro _ q hq hlow hhigh
    have hpos : first * 128 + (q - first * 128) = q := by omega
    rw [bcopy_zero (by omega), hpos]

/-- When the second read is made. -/
theorem prepare_needsLast (first : Nat) {last r : Nat} (hend : (last + 1) * 128 < 2 ^ 31) (hreq : p + r ≤ (last + 1) * 128) :
    (!decide (int32 ((p : Int) + (r : Int)) = int32 (((last : Int) + 1) * sectorSize)) &&
        ((first : Int) != (last : Int) || decide ((p : Int) = (first : Int) * sectorSize))) = true ↔
      p + r ≠ (last + 1) * 128 ∧ (first ≠ last ∨ p = first * 128) := by
  rw [show sectorSize = 128 from rfl, int32_of_range (by omega) (by omega), int32_of_range (by omega) (by omega)]
  simp only [Bool.and_eq_true, Bool.not_eq_true', decide_eq_false_iff_not, Bool.or_eq_true, bne_iff_ne,
    decide_eq_true_eq]
  omega

/-- The second one: the sector in which the request ends.  It goes behind what was read before. -/
theorem prepare_last (hd : file.hdr.Describes length S) (disk : DiskFile) (mem buf : Bytes) (first last : Nat) {r : Nat}
    (hle : first ≤ last) (hlast : last * 128 < p + r) (hreq : p + r ≤ (last + 1) * 128) (hend : p + r ≤ length) :
    ∃ buf', (if !decide (int32 ((p : Int) + (r : Int)) = int32 (((last : Int) + 1) * sectorSize)) &&
          ((first : Int) != (last : Int) || decide ((p : Int) = (first : Int) * sectorSize)) then
        (file.readAt disk mem buf (((last : Int) - (first : Int)) * sectorSize).toNat sectorSize
          ((last : Int) * sectorSize)).map (·.2)
      else some buf) = some buf' ∧
      (p + r ≠ (last + 1) * 128 → (first ≠ last ∨ p = first * 128) → ∀ q < length, last * 128 ≤ q →
        q < (last + 1) * 128 → buf' (q - first * 128) = (DiskFile.blocks disk).array S q) ∧
      (first ≠ last ∨ p ≠ first * 128 → ∀ q, q < (last - first) * 128 ∨ first = last → buf' q = buf q) := by
  have hmax := hd.length_le
  rw [show maxFileSize = 3840 from rfl] at hmax
  have hiff := prepare_needsLast first (by omega) hreq
  by_cases hneeded : p + r ≠ (last + 1) * 128 ∧ (first ≠ last ∨ p = first * 128)
  · have hat : (((last : Int) - (first : Int)) * sectorSize).toNat = (last - first) * 128 := by
      rw [show sectorSize = 128 from rfl]
      omega
    rw [if_pos (hiff.mpr hneeded), hat, readAt_sector hd disk mem buf _ (by omega)]
    refine ⟨_, rfl, ?_, ?_⟩
    · intro _ _ q hq hlow hhigh
      have hpos : q - first * 128 = (last - first) * 128 + (q - last * 128) := by omega
      have hfile : last * 128 + (q - last * 128) = q := by omega
      rw [hpos, bcopy_add (by omega), hfile]
    · intro hother q hq
      exact bcopy_of_lt (by omega)
  · rw [if_neg fun h => hneeded (hiff.mp h)]
    exact ⟨buf, rfl, fun hne hor => absurd ⟨hne, hor⟩ hneeded, fun _ _ _ => rfl⟩

/-- **The buffer of `WriteAt`.**  What is around the request, in its first and in its last sector, is the
    file, as far as that goes. -/
theorem prepare_spec (hd : file.hdr.Describes length S) (disk : DiskFile) (mem : Nat → Bytes) {r : Nat}
    (hr : 0 < r) (hend : p + r ≤ length) :
    ∃ buf, file.prepare disk mem (spanOf p r) = some buf ∧
      ∀ q < length, p / sectorSize * sectorSize ≤ q → q < ((p + r - 1) / sectorSize + 1) * sectorSize →
        q < p ∨ p + r ≤ q →
        buf (q - p / sectorSize * sectorSize) = (DiskFile.blocks disk).array S q := by
  have hsize : sectorSize = 128 := rfl
  generalize hfirst : p / sectorSize = first
  generalize hlast : (p + r - 1) / sectorSize = last
  have hsp : spanOf p r = ⟨p, r, first, last⟩ := by
    rw [spanOf, hfirst, hlast]
  rw [hsize] at hfirst hlast
  obtain ⟨buf₁, hbuf₁, hread₁⟩ := prepare_first hd disk mem (p := p) first (by omega) (by omega)
  obtain ⟨buf₂, hbuf₂, hread₂, hkeep⟩ := prepare_last hd disk (mem 2) buf₁ (p := p) (r := r) first last (by omega)
    (by omega) (by omega) hend
  refine ⟨buf₂, ?_, ?_⟩
  · rw [hsp]
    simp only [prepare, hbuf₁, Option.bind_some]
    exact hbuf₂
  · intro q hq hlow hhigh hout
    rw [hsize] at hlow hhigh
    show buf₂ (q - first * 128) = _
    rcases hout with hbefore | hbehind
    · -- before the request: in the first sector, which is not aligned
      rw [hkeep (Or.inr (by omega)) _ (by omega)]
      exact hread₁ (by omega) q hq hlow (by omega)
    · by_cases hsecond : first ≠ last ∨ p = first * 128
      · exact hread₂ (by omega) hsecond q hq (by omega) hhigh
      · -- a request inside of one sector: the first read was for all of it
        rw [hkeep (Or.inr (by omega)) _ (by omega)]
        exact hread₁ (by omega) q hq hlow (by omega)

/-- **`WriteAt` writes the array.**  The bytes of the request are changed and no others of the file, and no
    other sector of the disk. -/
theorem writeAt_spec (hd : file.hdr.Describes length S) (hS : S.Nodup) (hover : p + n < 2 ^ 31)
    (disk : DiskFile) (mem : Nat → Bytes) (from_ : Bytes) :
    ∃ disk', file.writeAt disk mem from_ n p = some (((clamp length n p : Nat) : Int), disk') ∧
      (∀ b ∉ S, DiskFile.blocks disk' b = DiskFile.blocks disk b) ∧
      ∀ q < length, (DiskFile.blocks disk').array S q
        = if p ≤ q ∧ q < p + clamp length n p then from_ (q - p)
          else (DiskFile.blocks disk).array S q := by
  rcases span_spec hd hover with ⟨hzero, hnone⟩ | ⟨hr, hend, hsome⟩
  · refine ⟨disk, ?_, fun _ _ => rfl, fun q _ => ?_⟩
    · rw [writeAt, hnone, hzero]
      rfl
    · have hno : ¬ (p ≤ q ∧ q < p + clamp length n p) := by omega
      rw [if_neg hno]
  · generalize clamp length n p = r at hr hend hsome ⊢
    obtain ⟨hroom, hin, hoffset⟩ := spanOf_inBuffer hd hr hend
    obtain ⟨hcount, hle⟩ := spanOf_count hd hr hend
    obtain ⟨buf, hprepare, hbuf⟩ := prepare_spec hd disk mem hr hend
    obtain ⟨disk', hwrite, hblocks⟩ :=
      writeSectors_eq hd disk (bcopy from_ 0 buf (p % sectorSize) r) hle
    have hnonneg : ¬ (spanOf p r).size < 0 := by
      rw [hroom]
      exact Int.not_lt.mpr (Int.natCast_nonneg _)
    have hbytes : (spanOf p r).numBytes.toNat = r := Int.toNat_natCast r
    refine ⟨disk', ?_, fun b hb => ?_, fun q hq => ?_⟩
    · rw [writeAt, hsome]
      simp only [if_neg hnonneg, hprepare, Option.bind_some, if_pos hin, hoffset, hbytes, hwrite,
        Option.map_some]
      rfl
    · rw [hblocks]
      exact Blocks.saves_of_notMem _ _ hb _ hle
    · have hsize : sectorSize = 128 := rfl
      rw [hblocks, Blocks.array_saves hS _ _ hle (hd.div_lt hq), hcount]
      by_cases hsector : p / sectorSize * sectorSize ≤ q ∧ q < ((p + r - 1) / sectorSize + 1) * sectorSize
      · rw [if_pos hsector]
        by_cases hreq : p ≤ q ∧ q < p + r
        · have hpos : q - p / sectorSize * sectorSize = p % sectorSize + (q - p) := by
            rw [hsize]
            omega
          rw [if_pos hreq, hpos, bcopy_add (by omega), Nat.zero_add]
        · have hkeep : bcopy from_ 0 buf (p % sectorSize) r (q - p / sectorSize * sectorSize)
              = buf (q - p / sectorSize * sectorSize) := by
            rcases Nat.lt_or_ge q p with hlt | hge
            · refine bcopy_of_lt ?_
              rw [hsize] at hsector ⊢
              omega
            · refine bcopy_of_ge ?_
              rw [hsize]
              omega
          rw [if_neg hreq, hkeep]
          exact hbuf q hq hsector.1 hsector.2 (by omega)
      · have hreq : ¬ (p ≤ q ∧ q < p + r) := by
          rw [hsize] at hsector
          omega
        rw [if_neg hsector, if_neg hreq]

end OpenFile

end Nachos
