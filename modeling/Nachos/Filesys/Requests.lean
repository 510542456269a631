/-
  `filesys/openfile.cc` — what a caller may rely on.

  1. **A file is an array of bytes** (`file_is_byte_array`) — with a header from `Allocate`, `ReadAt` and `WriteAt` are
     reads and writes of an array, of the bytes of the request that are in it, however the request lies in the sectors.

  2. **Requests that are too large** (`request_clamped_iff`) — `ReadAt` and `WriteAt` compare `position + numBytes`, an
     `int`, with the length.  If the sum overflows it is negative, and the request is NOT clipped: the call does not
     return, or it returns a number of bytes that the file does not have.
-/
import Nachos.Filesys.OpenFile

namespace Nachos

/-! ## An array of bytes -/

/-- The bytes of the file, on disk. -/
def FileHeader.contents (hdr : FileHeader) (disk : DiskFile) : Bytes := (DiskFile.blocks disk).array hdr.sectors

/-- A header from `Allocate`. -/
theorem FileHeader.describes_of_allocate {hdr hdr' : FileHeader} {freeMap freeMap' : BitMap} {length : Nat}
    (hlength : length ≤ maxFileSize) (hbits : freeMap.numBits = Nachos.numSectors)
    (h : hdr.allocate freeMap length = some (true, hdr', freeMap')) :
    hdr'.Describes length hdr'.sectors ∧ hdr'.sectors.Nodup := by
  rcases allocate_spec hdr hlength hbits with ⟨-, hdr₁, hfalse⟩ | ⟨-, hdr₁, freeMap₁, S, htrue, hd, hsorted, -⟩
  · rw [h] at hfalse
    cases hfalse
  · rw [h] at htrue
    obtain ⟨-, heq⟩ := Prod.mk.inj (Option.some.inj htrue)
    obtain ⟨rfl, -⟩ := Prod.mk.inj heq
    rw [hd.sectors_eq]
    exact ⟨hd, hsorted.imp Nat.ne_of_lt⟩

theorem OpenFile.clamp_eq (length : Nat) (n : Int) (p : Nat) :
    ((OpenFile.clamp length n p : Nat) : Int) = max 0 (min n (length - p)) := by
  unfold OpenFile.clamp
  omega

/-- **A file is an array of bytes.**  Both calls return how many bytes of the request are in the file.  A read gets them
    (the disk is no part of its result); after a write these bytes are the given ones, all others of the file are what
    they were, and so are all sectors that are not the file's. -/
theorem file_is_byte_array {hdr hdr' : FileHeader} {freeMap freeMap' : BitMap} {length : Nat}
    (hlength : length ≤ maxFileSize) (hbits : freeMap.numBits = numSectors)
    (h : hdr.allocate freeMap length = some (true, hdr', freeMap')) {p : Nat} {n : Int} (hover : p + n < 2 ^ 31)
    (seekPosition : Int) (disk : DiskFile) :
    (∀ mem into a, (OpenFile.mk hdr' seekPosition).readAt disk mem into a n p
      = some (max 0 (min n (length - p)), bcopy (hdr'.contents disk) p into a (max 0 (min n (length - p))).toNat)) ∧
    (∀ mem from_, ∃ disk', (OpenFile.mk hdr' seekPosition).writeAt disk mem from_ n p
        = some (max 0 (min n (length - p)), disk') ∧
      (∀ q < length, hdr'.contents disk' q
        = if p ≤ q ∧ q < p + (max 0 (min n (length - p))).toNat then from_ (q - p) else hdr'.contents disk q) ∧
      ∀ b ∉ hdr'.sectors, DiskFile.blocks disk' b = DiskFile.blocks disk b) := by
  obtain ⟨hd, hnodup⟩ := FileHeader.describes_of_allocate hlength hbits h
  have hfile : (OpenFile.mk hdr' seekPosition).hdr.Describes length hdr'.sectors := hd
  rw [← OpenFile.clamp_eq, Int.toNat_natCast]
  constructor
  · intro mem into a
    exact OpenFile.readAt_spec hfile hover disk mem into a
  · intro mem from_
    obtain ⟨disk', hwrite, hframe, harray⟩ := OpenFile.writeAt_spec hfile hnodup hover disk mem from_
    exact ⟨disk', hwrite, harray, hframe⟩

/-- A header for a file of 301 bytes. -/
theorem allocate_small : ∃ hdr' freeMap' S,
    (FileHeader.mk fun _ => 0).allocate clearMap (301 : Nat) = some (true, hdr', freeMap') ∧
      hdr'.Describes 301 S ∧ S.Nodup := by
  have hsize : 301 ≤ maxFileSize := by decide
  rcases FileHeader.allocate_spec ⟨fun _ => 0⟩ hsize (rfl : clearMap.numBits = numSectors) with
    ⟨hroom, -⟩ | ⟨-, hdr', freeMap', S, htrue, hd, hsorted, -⟩
  · exact absurd hroom (clearMap_room (by decide))
  · exact ⟨hdr', freeMap', S, htrue, hd, hsorted.imp Nat.ne_of_lt⟩

/-- A file of 301 bytes; of ten bytes from position 296 on it has five. -/
theorem file_is_byte_array_small :
    ∃ hdr' freeMap' disk', (FileHeader.mk fun _ => 0).allocate clearMap (301 : Nat) = some (true, hdr', freeMap') ∧
      (OpenFile.mk hdr' 0).writeAt (fun _ => 0) (fun _ _ => 0) (fun _ => 7) 10 (296 : Nat) = some (5, disk') ∧
      hdr'.contents disk' 296 = 7 ∧ hdr'.contents disk' 295 = hdr'.contents (fun _ => 0) 295 := by
  obtain ⟨hdr', freeMap', S, htrue, -⟩ := allocate_small
  have hsize : 301 ≤ maxFileSize := by decide
  have h := file_is_byte_array hsize rfl htrue (p := 296) (n := 10) (by decide) 0 fun _ => 0
  obtain ⟨disk', hwrite, hbytes, -⟩ := h.2 (fun _ _ => 0) fun _ => 7
  exact ⟨hdr', freeMap', disk', htrue, hwrite, hbytes 296 (by decide), hbytes 295 (by decide)⟩

/-! ## Requests that are too large -/

namespace OpenFile

variable {file : OpenFile} {length : Nat} {S : List Nat} {p : Nat} {n : Int}

/-- A request uses sectors of the file only, and the sizes of the buffer and of what is copied are not negative. -/
def UsesFile (file : OpenFile) (numBytes position : Int) : Prop :=
  ∀ sp, file.span numBytes position = some sp → 0 ≤ sp.size ∧ 0 ≤ sp.numBytes ∧
    ∀ i, sp.firstSector ≤ i → i ≤ sp.lastSector → 0 ≤ i ∧ i < file.hdr.numSectors

/-- So does a write, with the two reads that it may make. -/
def WriteUsesFile (file : OpenFile) (numBytes position : Int) : Prop :=
  file.UsesFile numBytes position ∧ ∀ sp, file.span numBytes position = some sp →
    file.UsesFile sectorSize (sp.firstSector * sectorSize) ∧ file.UsesFile sectorSize (sp.lastSector * sectorSize)

theorem rejected_of_length (hd : file.hdr.Describes length S) (h : n ≤ 0 ∨ length ≤ p) : file.Rejected n p := by
  have hlen : file.hdr.fileLength = length := hd.numBytes
  unfold Rejected
  rw [hlen]
  omega

/-- Then nothing is used. -/
theorem usesFile_of_none (h : file.span n p = none) : file.UsesFile n p ∧ file.WriteUsesFile n p := by
  have hno : ∀ sp, file.span n p ≠ some sp := by
    intro sp hsp
    rw [h] at hsp
    cases hsp
  exact ⟨fun sp hsp => absurd hsp (hno sp), fun sp hsp => absurd hsp (hno sp), fun sp hsp => absurd hsp (hno sp)⟩

/-- **The sum overflows**: the request is not clipped. -/
theorem span_overflow (hd : file.hdr.Describes length S) (hn : 0 < n) (hp : p < length) (hint : n < 2 ^ 31)
    (hover : 2 ^ 31 ≤ p + n) : ∃ sp, file.span n p = some sp ∧ sp.numBytes = n := by
  have hmax := hd.length_le
  rw [show maxFileSize = 3840 from rfl] at hmax
  have hlen : file.hdr.fileLength = length := hd.numBytes
  have hsome : ¬ (n ≤ 0 ∨ (p : Int) ≥ length) := by omega
  have hsum : ¬ int32 (p + n) > length := by
    rw [int32_of_overflow (by omega) (by omega)]
    omega
  unfold span
  rw [hlen]
  simp only [hsome, if_false, hsum]
  exact ⟨_, rfl, rfl⟩

/-- A request whose end is an `int` uses the file only. -/
theorem usesFile_of_range (hd : file.hdr.Describes length S) (hover : p + n < 2 ^ 31) : file.UsesFile n p := by
  intro sp hsp
  rcases span_spec hd hover with ⟨-, hnone⟩ | ⟨hr, hend, hsome⟩
  · rw [hnone] at hsp
    cases hsp
  · rw [hsome] at hsp
    obtain rfl := Option.some.inj hsp
    obtain ⟨hroom, -⟩ := spanOf_inBuffer hd hr hend
    have hlast : (p + clamp length n p - 1) / sectorSize < S.length := hd.div_lt (by omega)
    refine ⟨?_, Int.natCast_nonneg _, fun i hfirst hle => ?_⟩
    · rw [hroom]
      exact Int.natCast_nonneg _
    · have hge : 0 ≤ ((p / sectorSize : Nat) : Int) := Int.natCast_nonneg _
      simp only [spanOf] at hfirst hle
      rw [hd.numSectors]
      omega

/-- The two reads of a write whose end is an `int`. -/
theorem writeUsesFile_of_range (hd : file.hdr.Describes length S) (hover : p + n < 2 ^ 31) :
    file.WriteUsesFile n p := by
  have hmax := hd.length_le
  rw [show maxFileSize = 3840 from rfl] at hmax
  refine ⟨usesFile_of_range hd hover, fun sp hsp => ?_⟩
  rcases span_spec hd hover with ⟨-, hnone⟩ | ⟨hr, hend, hsome⟩
  · rw [hnone] at hsp
    cases hsp
  · rw [hsome] at hsp
    obtain rfl := Option.some.inj hsp
    have hread : ∀ j : Nat, j ≤ 3840 → file.UsesFile sectorSize ((j : Int) * sectorSize) := by
      intro j hj
      rw [show (j : Int) * sectorSize = ((j * 128 : Nat) : Int) from (Int.natCast_mul _ _).symm]
      refine usesFile_of_range hd ?_
      rw [show sectorSize = 128 from rfl]
      omega
    have hsize : sectorSize = 128 := rfl
    constructor
    · refine hread (p / sectorSize) ?_
      rw [hsize]
      omega
    · refine hread ((p + clamp length n p - 1) / sectorSize) ?_
      rw [hsize]
      omega

/-- Whatever is returned is the number of bytes computed at the beginning. -/
theorem readAt_returns {sp : Span} (hsp : file.span n p = some sp) {disk : DiskFile} {mem into : Bytes} {a : Nat}
    {r : Int × Bytes} (h : file.readAt disk mem into a n p = some r) : r.1 = sp.numBytes := by
  rw [readAt, hsp] at h
  simp only at h
  split at h
  · cases h
  · obtain ⟨buf, -, hrest⟩ := Option.bind_eq_some_iff.mp h
    split at hrest
    · obtain rfl := Option.some.inj hrest
      rfl
    · cases hrest

theorem writeAt_returns {sp : Span} (hsp : file.span n p = some sp) {disk : DiskFile} {mem : Nat → Bytes}
    {from_ : Bytes} {r : Int × DiskFile} (h : file.writeAt disk mem from_ n p = some r) : r.1 = sp.numBytes := by
  rw [writeAt, hsp] at h
  simp only at h
  split at h
  · cases h
  · obtain ⟨buf, -, hrest⟩ := Option.bind_eq_some_iff.mp h
    split at hrest
    · obtain ⟨disk', -, rfl⟩ := Option.map_eq_some_iff.mp hrest
      rfl
    · cases hrest

end OpenFile

/-- **Requests are clipped** to the file, and use no more than the file, IFF the end of the request is an `int` or there
    is nothing to do: both for `ReadAt` and for `WriteAt`, with every position that is not negative and every number of
    bytes. -/
theorem request_clamped_iff {file : OpenFile} {length : Nat} {S : List Nat} (hd : file.hdr.Describes length S)
    (hS : S.Nodup) (p : Nat) {n : Int} (hint : n < 2 ^ 31) (disk : DiskFile) :
    (∀ mem into a, ((∃ into', file.readAt disk mem into a n p = some (max 0 (min n (length - p)), into')) ∧
        file.UsesFile n p) ↔ (n ≤ 0 ∨ length ≤ p ∨ p + n < 2 ^ 31)) ∧
    (∀ mem from_, ((∃ disk', file.writeAt disk mem from_ n p = some (max 0 (min n (length - p)), disk')) ∧
        file.WriteUsesFile n p) ↔ (n ≤ 0 ∨ length ≤ p ∨ p + n < 2 ^ 31)) := by
  -- a request that is not clipped asks for more than there is
  have hclip : ∀ r : Int, (∀ sp, file.span n p = some sp → r = sp.numBytes) → r = max 0 (min n (length - p)) →
      n ≤ 0 ∨ length ≤ p ∨ p + n < 2 ^ 31 := by
    intro r hr hmax
    by_contra hbad
    obtain ⟨sp, hsp, hbytes⟩ := OpenFile.span_overflow hd (n := n) (p := p) (by omega) (by omega) hint (by omega)
    have hlen := hd.length_le
    rw [show maxFileSize = 3840 from rfl] at hlen
    have hn := hr sp hsp
    omega
  constructor
  · intro mem into a
    constructor
    · rintro ⟨⟨into', hread⟩, -⟩
      exact hclip _ (fun sp hsp => OpenFile.readAt_returns hsp hread) rfl
    · intro hok
      by_cases hover : p + n < 2 ^ 31
      · rw [← OpenFile.clamp_eq]
        exact ⟨⟨_, OpenFile.readAt_spec hd hover disk mem into a⟩, OpenFile.usesFile_of_range hd hover⟩
      · have hnone := (OpenFile.rejected_of_length hd (n := n) (p := p) (by omega)).span_none
        refine ⟨⟨into, ?_⟩, (OpenFile.usesFile_of_none hnone).1⟩
        rw [OpenFile.readAt, hnone, show max 0 (min n (length - p)) = 0 by omega]
  · intro mem from_
    constructor
    · rintro ⟨⟨disk', hwrite⟩, -⟩
      exact hclip _ (fun sp hsp => OpenFile.writeAt_returns hsp hwrite) rfl
    · intro hok
      by_cases hover : p + n < 2 ^ 31
      · obtain ⟨disk', hwrite, -⟩ := OpenFile.writeAt_spec hd hS hover disk mem from_
        rw [← OpenFile.clamp_eq]
        exact ⟨⟨disk', hwrite⟩, OpenFile.writeUsesFile_of_range hd hover⟩
      · have hnone := (OpenFile.rejected_of_length hd (n := n) (p := p) (by omega)).span_none
        refine ⟨⟨disk, ?_⟩, (OpenFile.usesFile_of_none hnone).2⟩
        rw [OpenFile.writeAt, hnone, show max 0 (min n (length - p)) = 0 by omega]

/-- The whole file is asked for, and more: 301 bytes are read. -/
theorem request_clamped_small :
    ∃ hdr' freeMap' into', (FileHeader.mk fun _ => 0).allocate clearMap (301 : Nat) = some (true, hdr', freeMap') ∧
      (OpenFile.mk hdr' 0).readAt (fun _ => 0) (fun _ => 0) (fun _ => 0) 0 1000 (0 : Nat) = some (301, into') := by
  obtain ⟨hdr', freeMap', S, htrue, hd, hnodup⟩ := allocate_small
  have hfile : (OpenFile.mk hdr' 0).hdr.Describes 301 S := hd
  have h := request_clamped_iff hfile hnodup 0 (n := 1000) (by decide) fun _ => 0
  obtain ⟨⟨into', hread⟩, -⟩ := (h.1 (fun _ => 0) (fun _ => 0) 0).mpr (Or.inr (Or.inr (by decide)))
  exact ⟨hdr', freeMap', into', htrue, hread⟩

/-- **Two requests that overflow**, on a file of 301 bytes.  2147483349 bytes from position 300 on: the call returns this
    number, though the file has one byte there.  2147483647 bytes from position 1 on: it asks for a buffer of a
    negative size. -/
theorem request_overflows :
    (((FileHeader.mk fun _ => 0).allocate clearMap 301).bind fun r =>
      ((OpenFile.mk r.2.1 0).readAt (fun _ => 0) (fun _ => 0) (fun _ => 0) 0 2147483349 300).map Prod.fst)
      = some 2147483349 ∧
    (((FileHeader.mk fun _ => 0).allocate clearMap 301).bind fun r =>
      ((OpenFile.mk r.2.1 0).span 2147483647 1).map Span.size) = some (-2147483648) := by
  refine ⟨by decide +kernel, by decide +kernel⟩

end Nachos
