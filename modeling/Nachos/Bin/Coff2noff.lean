/-
  `bin/coff2noff.c` — from the linker's COFF file to the NOFF file that the kernel loads.

  The converter reads the COFF headers, and then goes through the sections once: the bytes of `.text` become the code
  segment, those of `.data` or `.rdata` the initialized data, and of `.bss` and `.sbss` only the address and the size
  are kept.  The sections that are copied go one behind the other into the output, after the place of the header,
  which is written LAST.

  1. **The segments of the file** (`Converter.Copied`) — each segment that was copied lies behind the header and before
     the position in the output, and holds what was read at `s_scnptr`; the loop keeps this (`step_copied`,
     `copied_of_loop`).  The result of `lseek` is not looked at: with a negative `s_scnptr` the bytes come from
     wherever the file was left before.

  2. **The segment without bytes** (`Converter.Uninit`) — its address is that of the FIRST of the sections, its size the
     sum of the sizes.  As the sections do not overlap, this is their union just when they lie in it
     (`Interval.cover_eq_iff`).

  The comment in the source wants two such sections to be contiguous.  The test is the wrong way round: what is rejected
  is a section that starts where the segment ends, as the linker script has it.
-/
import Nachos.Lib.Intervals
import Nachos.Lib.Partial
import Nachos.Userprog.Loader

namespace Nachos

/-! ## The file formats -/

/-- The `short` that is stored at `a`, lowest byte first. -/
def getShort (b : Bytes) (a : Nat) : Nat := (b a).toNat + 256 * (b (a + 1)).toNat

/-- `sizeof(struct filehdr)`. -/
def filehdrSize : Nat := 20

/-- `sizeof(struct aouthdr)`. -/
def aouthdrSize : Nat := 56

/-- `sizeof(struct scnhdr)`. -/
def scnhdrSize : Nat := 40

/-- `MIPSELMAGIC`. -/
def mipselMagic : Nat := 0x0162

/-- `OMAGIC`, which is octal 407. -/
def omagic : Nat := 263

/-- `struct scnhdr`, with the fields that are used. -/
structure Scnhdr where
  sName : List UInt8
  sPaddr : BitVec 32
  sSize : BitVec 32
  sScnptr : BitVec 32

/-- The section header at `a`; `WordToHost` makes of its words what they are on the MIPS. -/
def Scnhdr.load (b : Bytes) (a : Nat) : Scnhdr :=
  ⟨slice b a 8, getWord b (a + 8), getWord b (a + 16), getWord b (a + 20)⟩

/-- `fileh.f_nscns`. -/
def numsections (file : List UInt8) : Nat := getShort (fileBytes file) 2

/-- `sections`. -/
def sections (file : List UInt8) : List Scnhdr :=
  (List.range (numsections file)).map fun i =>
    Scnhdr.load (fileBytes file) (filehdrSize + aouthdrSize + scnhdrSize * i)

/-- `!strcmp(sections[i].s_name, name)`, for a name that is shorter than the field. -/
def Scnhdr.named (s : Scnhdr) (name : List Char) : Bool :=
  (name.map (fun c : Char => UInt8.ofNat c.toNat) ++ [0]).isPrefixOf s.sName

/-- The branch of the loop that a section takes. -/
inductive SectionKind
  | empty | code | initData | uninitData | unknown
  deriving DecidableEq

/-- The tests of the loop, in their order. -/
def Scnhdr.kind (s : Scnhdr) : SectionKind :=
  if s.sSize = 0 then .empty
  else if s.named ['.', 't', 'e', 'x', 't'] then .code
  else if s.named ['.', 'd', 'a', 't', 'a'] || s.named ['.', 'r', 'd', 'a', 't', 'a'] then .initData
  else if s.named ['.', 'b', 's', 's'] || s.named ['.', 's', 'b', 's', 's'] then .uninitData
  else .unknown

theorem Scnhdr.size_ne_zero {s : Scnhdr} (h : s.kind ≠ .empty) : s.sSize ≠ 0 := by
  intro hzero
  apply h
  rw [Scnhdr.kind, if_pos hzero]

/-- What is written to `stderr` before `exit(1)`. -/
inductive CoffError
  /-- `File is too short` -/
  | tooShort
  /-- `Unable to write file` -/
  | unableToWrite
  /-- `File is not a MIPSEL COFF file` -/
  | notMipsel
  /-- `File is not a OMAGIC file` -/
  | notOmagic
  /-- `Can't handle both data and rdata` -/
  | bothData
  /-- `Can't handle both bss and sbss` -/
  | bothBss
  /-- `Unknown segment type: %s` -/
  | unknownSegment (name : List UInt8)
  deriving DecidableEq

/-! ## The conversion -/

/-- The largest number of bytes that one `read` or `write` of the host transfers. -/
def maxTransfer : Nat := 0x7ffff000

/-- The result of `read` or `write` with `nBytes`, where so many bytes are there.  A negative `nBytes` is a number of
    bytes that no buffer has: the call fails. -/
def transferred (available : Nat) (nBytes : Int) : Int :=
  if nBytes < 0 then -1 else min nBytes (min available maxTransfer)

/-- The variables of the loop, and the two files: the position in the input, and the output with its position. -/
structure Converter where
  noffH : NoffHeader
  inNoffFile : BitVec 32
  inPos : Nat
  out : Bytes
  outPos : Nat

namespace Converter

/-- `lseek(fdIn, sections[i].s_scnptr, 0)`; when it fails, the position stays. -/
def seek (c : Converter) (s : Scnhdr) : Nat := if 0 ≤ s.sScnptr.toInt then s.sScnptr.toNat else c.inPos

/-- The copying of a section: `lseek`, `Read`, `Write`, and `inNoffFile += sections[i].s_size`. -/
def copy (file : List UInt8) (c : Converter) (s : Scnhdr) : Except CoffError Converter :=
  let nBytes := s.sSize.toInt
  if transferred (file.length - c.seek s) nBytes ≠ nBytes then .error .tooShort
  else if transferred maxTransfer nBytes ≠ nBytes then .error .unableToWrite
  else
    .ok { c with
      inNoffFile := c.inNoffFile + s.sSize
      inPos := c.seek s + nBytes.toNat
      out := bcopy (fileBytes file) (c.seek s) c.out c.outPos nBytes.toNat
      outPos := c.outPos + nBytes.toNat }

/-- The segment that a section becomes, when it is copied next. -/
def segment (c : Converter) (s : Scnhdr) : Segment := ⟨s.sPaddr, c.inNoffFile, s.sSize⟩

/-- The branch of `.bss` and `.sbss`, on the segment that there is. -/
def addBss (seg : Segment) (s : Scnhdr) : Except CoffError Segment :=
  if seg.size ≠ 0 then
    -- the test that is the wrong way round
    if s.sPaddr = seg.virtualAddr + seg.size then .error .bothBss
    else .ok { seg with size := seg.size + s.sSize }
  else .ok { seg with virtualAddr := s.sPaddr, size := s.sSize }

/-- The body of the loop. -/
def step (file : List UInt8) (c : Converter) (s : Scnhdr) : Except CoffError Converter :=
  match s.kind with
  | .empty => .ok c
  | .code => copy file { c with noffH := { c.noffH with code := c.segment s } } s
  | .initData =>
    if c.noffH.initData.size ≠ 0 then .error .bothData
    else copy file { c with noffH := { c.noffH with initData := c.segment s } } s
  | .uninitData =>
    (addBss c.noffH.uninitData s).map fun seg => { c with noffH := { c.noffH with uninitData := seg } }
  | .unknown => .error (.unknownSegment s.sName)

/-- The state before the loop.  Of `noffH`, a variable on the stack, only the magic number and the sizes are set;
    `stack` is what the other fields are. -/
def init (file : List UInt8) (stack : NoffHeader) : Converter where
  noffH := {
    noffMagic := noffMagicNumber
    code := { stack.code with size := 0 }
    initData := { stack.initData with size := 0 }
    uninitData := { stack.uninitData with size := 0 } }
  inNoffFile := BitVec.ofNat 32 noffHeaderSize
  inPos := filehdrSize + aouthdrSize + scnhdrSize * numsections file
  out := fun _ => 0
  outPos := noffHeaderSize

end Converter

/-- Words that the host writes one behind the other. -/
def storeWords (bigEndian : Bool) : Bytes → Nat → List (BitVec 32) → Bytes
  | b, _, [] => b
  | b, a, w :: ws => storeWords bigEndian (storeHost bigEndian b a 4 w) (a + 4) ws

/-- The fields of a segment, as they lie in memory. -/
def Segment.words (seg : Segment) : List (BitVec 32) := [seg.virtualAddr, seg.inFileAddr, seg.size]

/-- The fields of the header. -/
def NoffHeader.words (noffH : NoffHeader) : List (BitVec 32) :=
  noffH.noffMagic :: (noffH.code.words ++ noffH.initData.words ++ noffH.uninitData.words)

/-- `lseek(fdOut, 0, 0)` and the `Write` of the header: the file that is left. -/
def Converter.finish (bigEndian : Bool) (c : Converter) : List UInt8 :=
  slice (storeWords bigEndian c.out 0 c.noffH.words) 0 (max noffHeaderSize c.outPos)

/-- **`main`**, for files that could be opened: the NOFF file (`exit(0)`), or the error (`exit(1)`). -/
def coff2noff (bigEndian : Bool) (file : List UInt8) (stack : NoffHeader) : Except CoffError (List UInt8) :=
  if file.length < filehdrSize then .error .tooShort
  else if getShort (fileBytes file) 0 ≠ mipselMagic then .error .notMipsel
  else if file.length < filehdrSize + aouthdrSize then .error .tooShort
  else if getShort (fileBytes file) filehdrSize ≠ omagic then .error .notOmagic
  else if file.length < filehdrSize + aouthdrSize + scnhdrSize * numsections file then .error .tooShort
  else ((sections file).foldlM (Converter.step file) (Converter.init file stack)).map (Converter.finish bigEndian)

/-! ## What the NOFF file should be -/

/-- The addresses of a section. -/
def Scnhdr.range (s : Scnhdr) : Interval := ⟨s.sPaddr.toInt, s.sSize.toInt.toNat⟩

/-- The addresses of a segment. -/
def Segment.range (seg : Segment) : Interval := ⟨seg.virtualAddr.toInt, seg.size.toInt.toNat⟩

/-- The sections that take one branch of the loop. -/
def ofKind (k : SectionKind) (ss : List Scnhdr) : List Scnhdr := ss.filter fun s => s.kind = k

/-- The byte at a position of a file. -/
def fileAt (file : List UInt8) (i : Int) : Option UInt8 := if 0 ≤ i then file[i.toNat]? else none

/-- A segment of the output holds a section of the input: its address, its size and its bytes. -/
structure HoldsSection (file out : List UInt8) (seg : Segment) (s : Scnhdr) : Prop where
  virtualAddr : seg.virtualAddr = s.sPaddr
  size : seg.size = s.sSize
  bytes : ∀ k < s.sSize.toInt.toNat, ∃ byte,
    fileAt file (s.sScnptr.toInt + k) = some byte ∧ fileAt out (seg.inFileAddr.toInt + k) = some byte

/-- **The memory image is kept**: what the header of the output says of the sections of the input. -/
structure KeepsImage (file out : List UInt8) (noffH : NoffHeader) : Prop where
  code : ∀ s ∈ ofKind .code (sections file), HoldsSection file out noffH.code s
  noCode : ofKind .code (sections file) = [] → noffH.code.size = 0
  initData : ∀ s ∈ ofKind .initData (sections file), HoldsSection file out noffH.initData s
  noInitData : ofKind .initData (sections file) = [] → noffH.initData.size = 0
  /-- The code lies behind the header … -/
  codeBehind : noffH.code.size ≠ 0 → noffHeaderSize ≤ noffH.code.inFileAddr.toInt
  /-- … and the initialized data, too. -/
  initDataBehind : noffH.initData.size ≠ 0 → noffHeaderSize ≤ noffH.initData.inFileAddr.toInt
  /-- The two do not overlap. -/
  apart : noffH.code.size ≠ 0 → noffH.initData.size ≠ 0 →
    noffH.code.inFileAddr.toInt + noffH.code.size.toInt ≤ noffH.initData.inFileAddr.toInt ∨
      noffH.initData.inFileAddr.toInt + noffH.initData.size.toInt ≤ noffH.code.inFileAddr.toInt
  uninitData : Interval.cover ((ofKind .uninitData (sections file)).map Scnhdr.range) = noffH.uninitData.range.cells

/-! ## The header in the file -/

theorem storeWords_of_outside {bigEndian : Bool} {i : Nat} (ws : List (BitVec 32)) (b : Bytes) (a : Nat)
    (h : i < a ∨ a + 4 * ws.length ≤ i) : storeWords bigEndian b a ws i = b i := by
  induction ws generalizing b a with
  | nil => rfl
  | cons w ws ih =>
    rw [List.length_cons] at h
    rw [storeWords, ih _ _ (by omega), storeHost_of_outside (by omega)]

/-- **Words that were written are read.** -/
theorem loadHost_storeWords {bigEndian : Bool} (ws : List (BitVec 32)) (b : Bytes) (a j : Nat) (w : BitVec 32)
    (hw : ws[j]? = some w) : loadHost bigEndian (storeWords bigEndian b a ws) (a + 4 * j) 4 = w := by
  induction ws generalizing b a j with
  | nil => cases hw
  | cons w₀ ws ih =>
    cases j with
    | zero =>
      obtain rfl : w₀ = w := Option.some.inj hw
      have hcongr : ∀ i < 4, storeWords bigEndian (storeHost bigEndian b a 4 w₀) (a + 4) ws (a + i) =
          storeHost bigEndian b a 4 w₀ (a + i) := fun i hi => storeWords_of_outside ws _ _ (by omega)
      rw [storeWords, show a + 4 * 0 = a from rfl, loadHost_congr hcongr, loadHost_storeHost_four]
    | succ j =>
      rw [storeWords, show a + 4 * (j + 1) = a + 4 + 4 * j by omega]
      exact ih _ _ j hw

theorem NoffHeader.load_storeWords (bigEndian : Bool) (b : Bytes) (noffH : NoffHeader) :
    NoffHeader.load bigEndian (storeWords bigEndian b 0 noffH.words) = noffH := by
  have hword : ∀ a j w, 0 + 4 * j = a → noffH.words[j]? = some w →
      loadHost bigEndian (storeWords bigEndian b 0 noffH.words) a 4 = w := by
    rintro a j w rfl hw
    exact loadHost_storeWords noffH.words b 0 j w hw
  rw [NoffHeader.load, hword 0 0 _ rfl rfl, hword 4 1 _ rfl rfl, hword 8 2 _ rfl rfl, hword 12 3 _ rfl rfl,
    hword 16 4 _ rfl rfl, hword 20 5 _ rfl rfl, hword 24 6 _ rfl rfl, hword 28 7 _ rfl rfl, hword 32 8 _ rfl rfl,
    hword 36 9 _ rfl rfl]

theorem NoffHeader.load_congr {bigEndian : Bool} {b b' : Bytes} (h : ∀ i < noffHeaderSize, b i = b' i) :
    NoffHeader.load bigEndian b = NoffHeader.load bigEndian b' := by
  have hword : ∀ a, a + 4 ≤ noffHeaderSize → loadHost bigEndian b a 4 = loadHost bigEndian b' a 4 :=
    fun a ha => loadHost_congr fun i hi => h (a + i) (by omega)
  rw [NoffHeader.load, NoffHeader.load, hword 0 (by decide), hword 4 (by decide), hword 8 (by decide),
    hword 12 (by decide), hword 16 (by decide), hword 20 (by decide), hword 24 (by decide), hword 28 (by decide),
    hword 32 (by decide), hword 36 (by decide)]

theorem fileBytes_slice {b : Bytes} {n i : Nat} (hi : i < n) : fileBytes (slice b 0 n) i = b i := by
  rw [fileBytes, List.getD_eq_getElem?_getD, slice, List.getElem?_map, List.getElem?_range hi]
  exact congrArg b (Nat.zero_add i)

namespace Converter

/-- **The header of the output** is the header of the converter. -/
theorem load_finish (bigEndian : Bool) (c : Converter) :
    NoffHeader.load bigEndian (fileBytes (c.finish bigEndian)) = c.noffH := by
  have hcongr : ∀ i < noffHeaderSize, fileBytes (c.finish bigEndian) i =
      storeWords bigEndian c.out 0 c.noffH.words i := fun i hi => fileBytes_slice (by omega)
  rw [NoffHeader.load_congr hcongr, NoffHeader.load_storeWords]

/-- The bytes of the output behind its header. -/
theorem fileAt_finish {bigEndian : Bool} {c : Converter} {i : Nat} (hlow : noffHeaderSize ≤ i) (hhigh : i < c.outPos) :
    fileAt (c.finish bigEndian) i = some (c.out i) := by
  have hi : i < max noffHeaderSize c.outPos := by omega
  have hwords : 0 + 4 * c.noffH.words.length ≤ i := hlow
  rw [fileAt, if_pos (by omega), Int.toNat_natCast, finish, slice, List.getElem?_map, List.getElem?_range hi,
    Option.map_some, Nat.zero_add, storeWords_of_outside _ _ _ (Or.inr hwords)]

/-! ## Part 1: the segments of the file -/

/-- `s` was copied and is the segment `seg`: where it lies in the output, and, if its position in the input is one,
    which bytes are there. -/
structure Placed (file : List UInt8) (c : Converter) (seg : Segment) (s : Scnhdr) : Prop where
  virtualAddr : seg.virtualAddr = s.sPaddr
  size : seg.size = s.sSize
  nonempty : s.sSize ≠ 0
  fits : s.sSize.toNat ≤ maxTransfer
  start : noffHeaderSize ≤ seg.inFileAddr.toNat
  below : seg.inFileAddr.toNat ≤ noffHeaderSize + maxTransfer
  stop : seg.inFileAddr.toNat + s.sSize.toNat ≤ c.outPos
  bytes : 0 ≤ s.sScnptr.toInt → ∀ k < s.sSize.toNat,
    file[s.sScnptr.toNat + k]? = some (c.out (seg.inFileAddr.toNat + k))

/-- The segment of at most one section. -/
def PlacedOne (file : List UInt8) (c : Converter) (seg : Segment) : List Scnhdr → Prop
  | [] => seg.size = 0
  | [s] => Placed file c seg s
  | _ => False

/-- **The invariant of the segments that are copied**, for the sections that are done. -/
structure Copied (file : List UInt8) (done : List Scnhdr) (c : Converter) : Prop where
  code : PlacedOne file c c.noffH.code (ofKind .code done)
  initData : PlacedOne file c c.noffH.initData (ofKind .initData done)
  outPos : c.outPos = noffHeaderSize + c.noffH.code.size.toNat + c.noffH.initData.size.toNat
  inNoffFile : c.inNoffFile = BitVec.ofNat 32 c.outPos
  apart : c.noffH.code.size ≠ 0 → c.noffH.initData.size ≠ 0 →
    c.noffH.code.inFileAddr.toNat + c.noffH.code.size.toNat ≤ c.noffH.initData.inFileAddr.toNat ∨
      c.noffH.initData.inFileAddr.toNat + c.noffH.initData.size.toNat ≤ c.noffH.code.inFileAddr.toNat

/-- What the copying of a section does. -/
structure Copies (file : List UInt8) (c : Converter) (s : Scnhdr) (c' : Converter) : Prop where
  noffH : c'.noffH = c.noffH
  inNoffFile : c'.inNoffFile = c.inNoffFile + s.sSize
  outPos : c'.outPos = c.outPos + s.sSize.toNat
  fits : s.sSize.toNat ≤ maxTransfer
  old : ∀ i < c.outPos, c'.out i = c.out i
  bytes : ∀ k < s.sSize.toNat, file[c.seek s + k]? = some (c'.out (c.outPos + k))

section Copying

variable {file : List UInt8} {c c' : Converter} {s : Scnhdr} {seg : Segment} {done rest : List Scnhdr}

theorem toInt_of_nonneg {w : BitVec 32} (h : 0 ≤ w.toInt) : w.toInt = w.toNat ∧ w.toNat < 2 ^ 31 := by
  have hlt := w.isLt
  rw [BitVec.toInt_eq_toNat_cond] at h ⊢
  split at h
  · rename_i hlow
    rw [if_pos hlow]
    omega
  · omega

theorem getElem?_eq_fileBytes {i : Nat} (hi : i < file.length) : file[i]? = some (fileBytes file i) := by
  rw [fileBytes, List.getD_eq_getElem?_getD, List.getElem?_eq_getElem hi]
  rfl

/-- **The specification of `copy`.** -/
theorem copies_of_copy (hsize : 0 ≤ s.sSize.toInt) (h : copy file c s = .ok c') : Copies file c s c' := by
  obtain ⟨hint, -⟩ := toInt_of_nonneg hsize
  have hnat : s.sSize.toInt.toNat = s.sSize.toNat := by omega
  simp only [copy, hnat] at h
  split at h
  · cases h
  · rename_i hread
    split at h
    · cases h
    · have hc' := Except.ok.inj h
      -- all bytes were there, and not too many for one call
      have hall : s.sSize.toNat ≤ file.length - c.seek s ∧ s.sSize.toNat ≤ maxTransfer := by
        rw [not_not, transferred, if_neg (by omega)] at hread
        omega
      subst hc'
      constructor
      case noffH => rfl
      case inNoffFile => rfl
      case outPos => rfl
      case fits => exact hall.2
      case old => exact fun i hi => bcopy_of_lt hi
      case bytes =>
        intro k hk
        rw [getElem?_eq_fileBytes (by omega)]
        exact congrArg some (bcopy_add hk).symm

/-- What was copied before stays. -/
theorem Placed.of_extended {c' : Converter} {seg : Segment} {t : Scnhdr} (h : Placed file c seg t)
    (hle : c.outPos ≤ c'.outPos) (hold : ∀ i < c.outPos, c'.out i = c.out i) : Placed file c' seg t := by
  refine { h with stop := h.stop.trans hle, bytes := fun hptr k hk => ?_ }
  have hstop := h.stop
  rw [h.bytes hptr k hk, hold _ (by omega)]

theorem PlacedOne.of_extended {l : List Scnhdr} (h : PlacedOne file c seg l) (hle : c.outPos ≤ c'.outPos)
    (hold : ∀ i < c.outPos, c'.out i = c.out i) : PlacedOne file c' seg l :=
  match l, h with
  | [], h => h
  | [_], h => Placed.of_extended h hle hold

theorem PlacedOne.fits {l : List Scnhdr} (h : PlacedOne file c seg l) : seg.size.toNat ≤ maxTransfer :=
  match l, h with
  | [], h => by
    have hzero : seg.size = 0 := h
    rw [hzero]
    exact Nat.zero_le _
  | [_], h => by
    have hplaced : Placed file c seg _ := h
    rw [hplaced.size]
    exact hplaced.fits

theorem PlacedOne.stop {l : List Scnhdr} (h : PlacedOne file c seg l) (hsize : seg.size ≠ 0) :
    seg.inFileAddr.toNat + seg.size.toNat ≤ c.outPos :=
  match l, h with
  | [], h => absurd h hsize
  | [_], h => by
    have hplaced : Placed file c seg _ := h
    rw [hplaced.size]
    exact hplaced.stop

theorem PlacedOne.eq_nil {l : List Scnhdr} (h : PlacedOne file c seg l) (hsize : seg.size = 0) : l = [] :=
  match l, h with
  | [], _ => rfl
  | [_], h => by
    have hplaced : Placed file c seg _ := h
    exact absurd (hplaced.size.symm.trans hsize) hplaced.nonempty

theorem ofKind_append_self {k : SectionKind} (h : s.kind = k) : ofKind k (done ++ [s]) = ofKind k done ++ [s] := by
  have hs : [s].filter (fun s => s.kind = k) = [s] := List.filter_cons_of_pos (decide_eq_true h)
  rw [ofKind, ofKind, List.filter_append, hs]

theorem ofKind_append_of_ne {k : SectionKind} (h : s.kind ≠ k) : ofKind k (done ++ [s]) = ofKind k done := by
  have hs : [s].filter (fun s => s.kind = k) = [] := List.filter_cons_of_neg fun hk => h (of_decide_eq_true hk)
  rw [ofKind, ofKind, List.filter_append, hs, List.append_nil]

/-- **A segment is copied**, where the output has at most the other segment: both are in place, and the new one lies
    behind the other. -/
theorem copy_segment {noffH : NoffHeader} {other : Segment} {l : List Scnhdr} (hsize : 0 ≤ s.sSize.toInt)
    (hkind : s.kind ≠ .empty) (hother : PlacedOne file c other l)
    (hpos : c.outPos = noffHeaderSize + other.size.toNat) (hin : c.inNoffFile = BitVec.ofNat 32 c.outPos)
    (h : copy file { c with noffH } s = .ok c') :
    c'.noffH = noffH ∧ Placed file c' (c.segment s) s ∧ PlacedOne file c' other l ∧
      c'.outPos = c.outPos + s.sSize.toNat ∧ c'.inNoffFile = BitVec.ofNat 32 c'.outPos ∧
      (other.size ≠ 0 → other.inFileAddr.toNat + other.size.toNat ≤ (c.segment s).inFileAddr.toNat) := by
  have hcopy := copies_of_copy hsize h
  have hnext : c'.outPos = c.outPos + s.sSize.toNat := hcopy.outPos
  have hhigh : c.outPos ≤ noffHeaderSize + maxTransfer := by
    have hfits := hother.fits
    omega
  have haddr : (c.segment s).inFileAddr.toNat = c.outPos := by
    have hlt : c.outPos < 2 ^ 32 := by
      rw [noffHeaderSize, maxTransfer] at hhigh
      omega
    rw [segment, hin, BitVec.toNat_ofNat, Nat.mod_eq_of_lt hlt]
  refine ⟨hcopy.noffH, ?_, hother.of_extended (by omega) hcopy.old, hnext, ?_, fun hne => ?_⟩
  · constructor
    case virtualAddr => rfl
    case size => rfl
    case nonempty => exact s.size_ne_zero hkind
    case fits => exact hcopy.fits
    case start => omega
    case below => omega
    case stop => omega
    case bytes =>
      intro hptr k hk
      have hbyte := hcopy.bytes k hk
      rw [seek, if_pos hptr] at hbyte
      rw [hbyte, haddr]
  · rw [hcopy.inNoffFile, hnext, hin, BitVec.ofNat_add, BitVec.ofNat_toNat, BitVec.setWidth_eq]
  · rw [haddr]
    exact hother.stop hne

/-- A step that changes neither the segments with bytes nor the output. -/
theorem Copied.of_same (hc : Copied file done c) (hcode : s.kind ≠ .code) (hinitData : s.kind ≠ .initData)
    {uninitData : Segment} : Copied file (done ++ [s]) { c with noffH := { c.noffH with uninitData } } := by
  refine { hc with code := ?_, initData := ?_ }
  · rw [ofKind_append_of_ne hcode]
    exact hc.code.of_extended (Nat.le_refl _) fun _ _ => rfl
  · rw [ofKind_append_of_ne hinitData]
    exact hc.initData.of_extended (Nat.le_refl _) fun _ _ => rfl

/-- **A step of the loop** keeps the invariant, as long as there is one section with code. -/
theorem step_copied (hsize : 0 ≤ s.sSize.toInt) (hone : (ofKind .code (done ++ [s])).length ≤ 1)
    (hc : Copied file done c) (h : step file c s = .ok c') : Copied file (done ++ [s]) c' := by
  have houtPos := hc.outPos
  have hne : ∀ {k k' : SectionKind}, s.kind = k → k ≠ k' → s.kind ≠ k' := fun hs hk hs' => hk (hs.symm.trans hs')
  cases hkind : s.kind with
  | empty =>
    simp only [step, hkind] at h
    obtain rfl := Except.ok.inj h
    exact hc.of_same (hne hkind (by decide)) (hne hkind (by decide))
  | code =>
    simp only [step, hkind] at h
    -- the code segment was empty, as this is the only section for it
    have hdone : ofKind .code done = [] := by
      rw [ofKind_append_self hkind, List.length_append, List.length_singleton] at hone
      exact List.eq_nil_of_length_eq_zero (by omega)
    have hnone : c.noffH.code.size = 0 := by
      have hcode := hc.code
      rw [hdone] at hcode
      exact hcode
    rw [hnone] at houtPos
    obtain ⟨hnoffH, hplaced, hother, hnext, hin, hbehind⟩ :=
      copy_segment hsize (hne hkind (by decide)) hc.initData houtPos hc.inNoffFile h
    constructor
    case code =>
      rw [ofKind_append_self hkind, hdone, hnoffH]
      exact hplaced
    case initData =>
      rw [ofKind_append_of_ne (hne hkind (by decide)), hnoffH]
      exact hother
    case outPos =>
      rw [hnoffH, hnext, houtPos]
      exact Nat.add_right_comm noffHeaderSize _ _
    case inNoffFile => exact hin
    case apart =>
      rw [hnoffH]
      exact fun _ hdata => Or.inr (hbehind hdata)
  | initData =>
    simp only [step, hkind] at h
    split at h
    · cases h
    · rename_i hnone
      rw [not_not] at hnone
      have hdone := hc.initData.eq_nil hnone
      rw [hnone] at houtPos
      obtain ⟨hnoffH, hplaced, hother, hnext, hin, hbehind⟩ :=
        copy_segment hsize (hne hkind (by decide)) hc.code houtPos hc.inNoffFile h
      constructor
      case code =>
        rw [ofKind_append_of_ne (hne hkind (by decide)), hnoffH]
        exact hother
      case initData =>
        rw [ofKind_append_self hkind, hdone, hnoffH]
        exact hplaced
      case outPos =>
        rw [hnoffH, hnext, houtPos]
        rfl
      case inNoffFile => exact hin
      case apart =>
        rw [hnoffH]
        exact fun hcode _ => Or.inl (hbehind hcode)
  | uninitData =>
    simp only [step, hkind] at h
    obtain ⟨seg, -, hc'⟩ := Partial.eq_ok_of_map h
    rw [← hc']
    exact hc.of_same (hne hkind (by decide)) (hne hkind (by decide))
  | unknown =>
    simp only [step, hkind] at h
    cases h

end Copying

/-! ## Part 2: the segment without bytes -/

/-- The sizes of the sections, added up. -/
def bssSize (bs : List Scnhdr) : Nat := Interval.total (bs.map Scnhdr.range)

/-- **The invariant of the segment without bytes**, for its sections that are done, as long as their sizes do not add up
    to more than an `int` can be. -/
def Uninit (seg : Segment) : List Scnhdr → Prop
  | [] => seg.size = 0
  | first :: rest => bssSize (first :: rest) < 2 ^ 31 →
    seg.virtualAddr = first.sPaddr ∧ seg.size.toNat = bssSize (first :: rest) ∧ seg.size ≠ 0

section Bss

variable {file : List UInt8} {c c' : Converter} {s : Scnhdr} {seg seg' : Segment} {done bs : List Scnhdr}

theorem bssSize_append (hsize : 0 ≤ s.sSize.toInt) : bssSize (bs ++ [s]) = bssSize bs + s.sSize.toNat := by
  obtain ⟨hint, -⟩ := toInt_of_nonneg hsize
  have hs : Interval.total ([s].map Scnhdr.range) = s.sSize.toNat := by
    show s.sSize.toInt.toNat + 0 = s.sSize.toNat
    omega
  rw [bssSize, List.map_append, Interval.total_append, hs, bssSize]

theorem addBss_uninit (hsize : 0 ≤ s.sSize.toInt) (hne : s.sSize ≠ 0) (hbs : Uninit seg bs)
    (h : addBss seg s = .ok seg') : Uninit seg' (bs ++ [s]) := by
  have happend : bssSize (bs ++ [s]) = bssSize bs + s.sSize.toNat := bssSize_append hsize
  rw [addBss] at h
  cases bs with
  | nil =>
    -- the first section
    have hzero : seg.size = 0 := hbs
    rw [if_neg (not_not.mpr hzero)] at h
    obtain rfl := Except.ok.inj h
    intro _
    refine ⟨rfl, ?_, hne⟩
    show s.sSize.toNat = bssSize ([] ++ [s])
    rw [happend]
    exact (Nat.zero_add _).symm
  | cons first rest =>
    intro (htotal : bssSize (first :: rest ++ [s]) < 2 ^ 31)
    obtain ⟨haddr, hseg, hnonzero⟩ := hbs (by omega)
    rw [if_pos hnonzero] at h
    split at h
    · cases h
    · obtain rfl := Except.ok.inj h
      have hsum : (seg.size + s.sSize).toNat = bssSize (first :: rest ++ [s]) := by
        rw [BitVec.toNat_add, Nat.mod_eq_of_lt (by omega)]
        omega
      refine ⟨haddr, hsum, fun hzero => ?_⟩
      have hpositive : 0 < seg.size.toNat := Nat.pos_of_ne_zero fun h0 => hnonzero (BitVec.eq_of_toNat_eq h0)
      have hnat : (seg.size + s.sSize).toNat = 0 := congrArg BitVec.toNat hzero
      omega

/-- **A step of the loop.** -/
theorem step_uninit (hsize : 0 ≤ s.sSize.toInt) (hc : Uninit c.noffH.uninitData (ofKind .uninitData done))
    (h : step file c s = .ok c') : Uninit c'.noffH.uninitData (ofKind .uninitData (done ++ [s])) := by
  have hother : s.kind ≠ .uninitData → c'.noffH.uninitData = c.noffH.uninitData →
      Uninit c'.noffH.uninitData (ofKind .uninitData (done ++ [s])) := by
    intro hkind hsame
    rw [ofKind_append_of_ne hkind, hsame]
    exact hc
  rw [step] at h
  split at h
  case h_1 hkind =>
    obtain rfl := Except.ok.inj h
    exact hother (by rw [hkind]; decide) rfl
  case h_2 hkind =>
    exact hother (by rw [hkind]; decide) (by rw [(copies_of_copy hsize h).noffH])
  case h_3 hkind =>
    split at h
    · cases h
    · exact hother (by rw [hkind]; decide) (by rw [(copies_of_copy hsize h).noffH])
  case h_4 hkind =>
    obtain ⟨seg, hadd, hc'⟩ := Partial.eq_ok_of_map h
    rw [← hc', ofKind_append_self hkind]
    exact addBss_uninit hsize (s.size_ne_zero (by rw [hkind]; decide)) hc hadd
  case h_5 => cases h

end Bss

end Converter

/-- The sections without bytes fill the addresses from the FIRST of them on: their sizes add up to an `int`, and all of
    them lie in so many bytes from the address of the first on. -/
def FillsFromFirst (bs : List Scnhdr) : Prop :=
  Converter.bssSize bs < 2 ^ 31 ∧ ∀ first ∈ bs.head?, ∀ s ∈ bs,
    first.sPaddr.toInt ≤ s.sPaddr.toInt ∧
      s.sPaddr.toInt + s.sSize.toInt ≤ first.sPaddr.toInt + Converter.bssSize bs

instance (bs : List Scnhdr) : Decidable (FillsFromFirst bs) := inferInstanceAs (Decidable (_ ∧ _))

namespace Converter

section Result

variable {bigEndian : Bool} {file : List UInt8} {c : Converter} {s : Scnhdr} {seg : Segment} {l bs : List Scnhdr}

theorem toInt_of_lt {w : BitVec 32} (h : w.toNat < 2 ^ 31) : w.toInt = w.toNat := by
  rw [BitVec.toInt_eq_toNat_cond, if_pos (by omega)]

/-- The addresses of the segment are those of the sections IFF the sections fill them. -/
theorem cover_bss_iff (hsizes : ∀ s ∈ bs, 0 ≤ s.sSize.toInt ∧ s.sSize ≠ 0)
    (hapart : Interval.Apart (bs.map Scnhdr.range)) (h : Uninit seg bs) :
    Interval.cover (bs.map Scnhdr.range) = seg.range.cells ↔ FillsFromFirst bs := by
  have hrange : ∀ s ∈ bs, (s.range.size : Int) = s.sSize.toInt ∧ 0 < s.range.size := by
    intro s hs
    obtain ⟨hnonneg, hne⟩ := hsizes s hs
    obtain ⟨hint, -⟩ := toInt_of_nonneg hnonneg
    have hpositive : 0 < s.sSize.toNat := Nat.pos_of_ne_zero fun h0 => hne (BitVec.eq_of_toNat_eq h0)
    show ((s.sSize.toInt.toNat : Nat) : Int) = s.sSize.toInt ∧ 0 < s.sSize.toInt.toNat
    omega
  rw [Interval.cover_eq_iff hapart]
  cases bs with
  | nil =>
    have hzero : seg.size = 0 := h
    have htotal : Interval.total [] = seg.range.size := by
      rw [Segment.range, hzero]
      rfl
    exact ⟨fun _ => ⟨by decide, fun first hfirst => by cases hfirst⟩, fun _ => ⟨htotal, fun r hr => by cases hr⟩⟩
  | cons first rest =>
    have hiff : bssSize (first :: rest) < 2 ^ 31 →
        (seg.range.start = first.sPaddr.toInt ∧ seg.range.size = bssSize (first :: rest)) := by
      intro htotal
      obtain ⟨haddr, hseg, -⟩ := h htotal
      refine ⟨congrArg BitVec.toInt haddr, ?_⟩
      have hint : seg.size.toInt = seg.size.toNat := toInt_of_lt (by omega)
      show seg.size.toInt.toNat = _
      omega
    constructor
    · rintro ⟨htotal, hin⟩
      -- the size of a segment is an `int`
      have hlt : bssSize (first :: rest) < 2 ^ 31 := by
        have hmax : seg.size.toInt < 2 ^ 31 := BitVec.toInt_lt
        have hsize : seg.range.size = seg.size.toInt.toNat := rfl
        rw [bssSize, htotal, hsize]
        omega
      obtain ⟨hstart, hsize⟩ := hiff hlt
      refine ⟨hlt, fun first' hfirst s hs => ?_⟩
      obtain rfl : first = first' := Option.some.inj hfirst
      obtain ⟨hint, hpositive⟩ := hrange s hs
      have hsub := (Interval.cells_subset_iff hpositive).mp (hin s.range (List.mem_map_of_mem hs))
      rw [hstart, hsize, hint] at hsub
      exact hsub
    · rintro ⟨hlt, hin⟩
      obtain ⟨hstart, hsize⟩ := hiff hlt
      refine ⟨hsize.symm, fun r hr => ?_⟩
      obtain ⟨s, hs, rfl⟩ := List.mem_map.mp hr
      obtain ⟨hint, hpositive⟩ := hrange s hs
      rw [Interval.cells_subset_iff hpositive, hstart, hsize, hint]
      exact hin first rfl s hs

/-- A segment of the output holds its section IFF the position in the input was one. -/
theorem Placed.holds_iff (h : Placed file c seg s) :
    HoldsSection file (c.finish bigEndian) seg s ↔ 0 ≤ s.sScnptr.toInt := by
  have hfits := h.fits
  have hbelow := h.below
  have hstart := h.start
  have hstop := h.stop
  have hlarge : noffHeaderSize + maxTransfer < 2 ^ 31 := by decide
  have hint : s.sSize.toInt = s.sSize.toNat := toInt_of_lt (by omega)
  have haddr : seg.inFileAddr.toInt = seg.inFileAddr.toNat := toInt_of_lt (by omega)
  constructor
  · intro hholds
    have hpositive : 0 < s.sSize.toNat := Nat.pos_of_ne_zero fun h0 => h.nonempty (BitVec.eq_of_toNat_eq h0)
    obtain ⟨byte, hbyte, -⟩ := hholds.bytes 0 (by omega)
    rw [fileAt] at hbyte
    split at hbyte
    · omega
    · cases hbyte
  · intro hptr
    obtain ⟨hptr', -⟩ := toInt_of_nonneg hptr
    refine ⟨h.virtualAddr, h.size, fun k hk => ?_⟩
    have hk' : k < s.sSize.toNat := by omega
    refine ⟨c.out (seg.inFileAddr.toNat + k), ?_, ?_⟩
    · rw [hptr', fileAt, if_pos (by omega), ← h.bytes hptr k hk']
      rfl
    · rw [haddr]
      exact fileAt_finish (by omega) (by omega)

theorem PlacedOne.placed (h : PlacedOne file c seg l) : ∀ s ∈ l, Placed file c seg s :=
  match l, h with
  | [], _ => fun s hs => by cases hs
  | [t], h => fun s hs => by
    obtain rfl := List.mem_singleton.mp hs
    exact h

/-- Where a segment with bytes lies, as the `int`s of the header say. -/
theorem PlacedOne.ints (h : PlacedOne file c seg l) (hsize : seg.size ≠ 0) :
    noffHeaderSize ≤ seg.inFileAddr.toInt ∧ seg.inFileAddr.toInt = seg.inFileAddr.toNat ∧
      seg.size.toInt = seg.size.toNat :=
  match l, h with
  | [], h => absurd h hsize
  | [_], h => by
    have hplaced : Placed file c seg _ := h
    have hlarge : noffHeaderSize + maxTransfer < 2 ^ 31 := by decide
    have hstart := hplaced.start
    have hbelow := hplaced.below
    have hfits := hplaced.fits
    have haddr : seg.inFileAddr.toInt = seg.inFileAddr.toNat := toInt_of_lt (by omega)
    rw [hplaced.size, haddr]
    exact ⟨by omega, rfl, toInt_of_lt (by omega)⟩

end Result

/-- The invariants hold before the loop. -/
theorem init_copied (file : List UInt8) (stack : NoffHeader) :
    Copied file [] (init file stack) ∧ Uninit (init file stack).noffH.uninitData [] :=
  ⟨⟨rfl, rfl, rfl, rfl, fun h _ => absurd rfl h⟩, rfl⟩

/-- **The loop.** -/
theorem loop_spec {file : List UInt8} {stack : NoffHeader} {c : Converter}
    (hsizes : ∀ s ∈ sections file, 0 ≤ s.sSize.toInt) (htext : (ofKind .code (sections file)).length ≤ 1)
    (h : (sections file).foldlM (step file) (init file stack) = .ok c) :
    Copied file (sections file) c ∧ Uninit c.noffH.uninitData (ofKind .uninitData (sections file)) := by
  refine Partial.foldlM_done (I := fun done c => Copied file done c ∧ Uninit c.noffH.uninitData (ofKind .uninitData done))
    ?_ (sections file) [] (init file stack) c rfl (init_copied file stack) h
  rintro done s rest c c' hall ⟨hcopied, huninit⟩ hstep
  have hsize : 0 ≤ s.sSize.toInt := by
    apply hsizes
    rw [hall]
    exact List.mem_append_right done (List.mem_cons_self ..)
  have hone : (ofKind .code (done ++ [s])).length ≤ 1 := by
    have hsub : (done ++ [s]).Sublist (sections file) := by
      rw [hall]
      exact (List.Sublist.refl done).append (List.singleton_sublist.mpr (List.mem_cons_self ..))
    exact (hsub.filter _).length_le.trans htext
  exact ⟨step_copied hsize hone hcopied hstep, step_uninit hsize huninit hstep⟩

end Converter

/-- A file that is accepted comes out of the loop. -/
theorem loop_of_coff2noff {bigEndian : Bool} {file out : List UInt8} {stack : NoffHeader}
    (h : coff2noff bigEndian file stack = .ok out) :
    ∃ c, (sections file).foldlM (Converter.step file) (Converter.init file stack) = .ok c ∧
      c.finish bigEndian = out := by
  rw [coff2noff] at h
  split_ifs at h
  exact Partial.eq_ok_of_map h

/-- **The conversion keeps the memory image** of an accepted file with sizes that are not negative, at most one section
    of code and no sections that overlap, IFF the sections that are copied have positions in the file, and the sections
    without bytes fill the addresses from the first of them on. -/
theorem coff2noff_image_iff (bigEndian : Bool) (file out : List UInt8) (stack : NoffHeader)
    (hok : coff2noff bigEndian file stack = .ok out) (hsizes : ∀ s ∈ sections file, 0 ≤ s.sSize.toInt)
    (htext : (ofKind .code (sections file)).length ≤ 1)
    (hapart : Interval.Apart ((sections file).map Scnhdr.range)) :
    KeepsImage file out (NoffHeader.load bigEndian (fileBytes out)) ↔
      (∀ s ∈ sections file, s.kind = .code ∨ s.kind = .initData → 0 ≤ s.sScnptr.toInt) ∧
        FillsFromFirst (ofKind .uninitData (sections file)) := by
  obtain ⟨c, hloop, rfl⟩ := loop_of_coff2noff hok
  obtain ⟨hcopied, huninit⟩ := Converter.loop_spec hsizes htext hloop
  rw [Converter.load_finish]
  have hmem : ∀ {s : Scnhdr} {k : SectionKind}, s ∈ ofKind k (sections file) ↔ s ∈ sections file ∧ s.kind = k := by
    intro s k
    rw [ofKind, List.mem_filter, decide_eq_true_iff]
  have hbss : Interval.cover ((ofKind .uninitData (sections file)).map Scnhdr.range) = c.noffH.uninitData.range.cells ↔
      FillsFromFirst (ofKind .uninitData (sections file)) := by
    refine Converter.cover_bss_iff (fun s hs => ?_) (hapart.sublist (List.filter_sublist.map _)) huninit
    obtain ⟨hs, hkind⟩ := hmem.mp hs
    exact ⟨hsizes s hs, s.size_ne_zero (by rw [hkind]; decide)⟩
  have hcode := hcopied.code.placed
  have hinitData := hcopied.initData.placed
  constructor
  · intro hkeeps
    refine ⟨fun s hs hkind => ?_, hbss.mp hkeeps.uninitData⟩
    rcases hkind with hkind | hkind
    · have hs' := hmem.mpr ⟨hs, hkind⟩
      exact (hcode s hs').holds_iff.mp (hkeeps.code s hs')
    · have hs' := hmem.mpr ⟨hs, hkind⟩
      exact (hinitData s hs').holds_iff.mp (hkeeps.initData s hs')
  · rintro ⟨hptr, hfills⟩
    constructor
    case code =>
      intro s hs
      exact (hcode s hs).holds_iff.mpr (hptr s (hmem.mp hs).1 (Or.inl (hmem.mp hs).2))
    case noCode =>
      intro hnone
      have hplaced := hcopied.code
      rw [hnone] at hplaced
      exact hplaced
    case initData =>
      intro s hs
      exact (hinitData s hs).holds_iff.mpr (hptr s (hmem.mp hs).1 (Or.inr (hmem.mp hs).2))
    case noInitData =>
      intro hnone
      have hplaced := hcopied.initData
      rw [hnone] at hplaced
      exact hplaced
    case codeBehind => exact fun hsize => (hcopied.code.ints hsize).1
    case initDataBehind => exact fun hsize => (hcopied.initData.ints hsize).1
    case apart =>
      intro hcodeSize hdataSize
      obtain ⟨-, hcodeAddr, hcodeInt⟩ := hcopied.code.ints hcodeSize
      obtain ⟨-, hdataAddr, hdataInt⟩ := hcopied.initData.ints hdataSize
      have happart := hcopied.apart hcodeSize hdataSize
      omega
    case uninitData => exact hbss.mpr hfills

/-! ## Files -/

/-- A word of a COFF file. -/
def coffWord (n : Nat) : List UInt8 := slice (putWord (fun _ => 0) 0 (BitVec.ofNat 32 n)) 0 4

/-- A section header. -/
def coffSection (name : List Char) (paddr size scnptr : Nat) : List UInt8 :=
  (name.map fun c : Char => UInt8.ofNat c.toNat) ++ List.replicate (8 - name.length) 0 ++ coffWord paddr ++
    coffWord paddr ++ coffWord size ++ coffWord scnptr ++ List.replicate 16 0

/-- A COFF file: the headers, and what the sections have in the file. -/
def coffFile (headers : List (List UInt8)) (raw : List UInt8) : List UInt8 :=
  [0x62, 0x01, UInt8.ofNat headers.length, 0] ++ List.replicate 16 0 ++ [0x07, 0x01] ++ List.replicate 54 0 ++
    headers.flatten ++ raw

/-- A header with nothing but zeros. -/
def noffHeaderZero : NoffHeader := ⟨0, ⟨0, 0, 0⟩, ⟨0, 0, 0⟩, ⟨0, 0, 0⟩⟩

/-- A program with four bytes of code at 0, two of data at 128, and eight behind them that are not initialized. -/
def smallCoff : List UInt8 :=
  coffFile [coffSection ['.', 't', 'e', 'x', 't'] 0 4 196, coffSection ['.', 'd', 'a', 't', 'a'] 128 2 200,
    coffSection ['.', 'b', 's', 's'] 130 8 0] [1, 2, 3, 4, 5, 6]

/-- The program as a NOFF file. -/
def smallNoff : List UInt8 :=
  coffWord 0xbadfad ++ coffWord 0 ++ coffWord 40 ++ coffWord 4 ++ coffWord 128 ++ coffWord 44 ++ coffWord 2 ++
    coffWord 130 ++ coffWord 0 ++ coffWord 8 ++ [1, 2, 3, 4, 5, 6]

/-- The image of the small program is kept. -/
theorem coff2noff_image_small : coff2noff false smallCoff noffHeaderZero = .ok smallNoff ∧
    KeepsImage smallCoff smallNoff (NoffHeader.load false (fileBytes smallNoff)) := by
  have hok : coff2noff false smallCoff noffHeaderZero = .ok smallNoff := by decide +kernel
  refine ⟨hok, (coff2noff_image_iff false smallCoff smallNoff noffHeaderZero hok ?_ ?_ ?_).mpr ⟨?_, ?_⟩⟩
  · decide +kernel
  · decide +kernel
  · unfold Interval.Apart; decide +kernel
  · decide +kernel
  · decide +kernel

/-- `.bss` and `.sbss`, 16 bytes each, with other addresses between them. -/
def gapCoff : List UInt8 :=
  coffFile [coffSection ['.', 'b', 's', 's'] 1000 16 0, coffSection ['.', 's', 'b', 's', 's'] 2000 16 0] []

/-- What is made of them: 32 bytes from 1000 on. -/
def gapNoff : List UInt8 :=
  coffWord 0xbadfad ++ List.replicate 24 0 ++ coffWord 1000 ++ coffWord 0 ++ coffWord 32

/-- **A gap is accepted**: the segment has the bytes behind `.bss`, and those of `.sbss` are in no segment. -/
theorem coff2noff_gap : coff2noff false gapCoff noffHeaderZero = .ok gapNoff ∧
    (∀ s ∈ sections gapCoff, 0 ≤ s.sSize.toInt) ∧ (ofKind .code (sections gapCoff)).length ≤ 1 ∧
    Interval.Apart ((sections gapCoff).map Scnhdr.range) ∧
    ¬ KeepsImage gapCoff gapNoff (NoffHeader.load false (fileBytes gapNoff)) := by
  refine ⟨by decide +kernel, by decide +kernel, by decide +kernel, by unfold Interval.Apart; decide +kernel, fun hkeeps => ?_⟩
  have hsection : (2000 : Int) ∈ Interval.cover ((ofKind .uninitData (sections gapCoff)).map Scnhdr.range) := by
    decide +kernel
  rw [hkeeps.uninitData, Interval.mem_cells] at hsection
  revert hsection
  decide +kernel

-- the layout of the linker script, where `.bss` starts at the end of `.sbss`
example : coff2noff false (coffFile [coffSection ['.', 's', 'b', 's', 's'] 1000 16 0,
    coffSection ['.', 'b', 's', 's'] 1016 16 0] []) noffHeaderZero = .error .bothBss := by decide +kernel

end Nachos
