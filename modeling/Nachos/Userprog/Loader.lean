/-
  `userprog/addrspace.cc` — loading a program.

  The constructor of `AddrSpace` reads the NOFF header from the file, takes frames, fills them with zeros,
  and then reads the file PAGE BY PAGE: one loop for the code, and one for the initialized data that
  goes on where the first has stopped in the file.  Both loops count the page `j` in the page table
  and the position `i` in the file separately.

  1. **A loop** — `n` pages from page `j₀` on, read from position `i₀` on, are the file shifted by
     `128 * j₀ - i₀` (`readPages_run`).

  2. **The two loops together** — the code loop reads one page too many when the code fills its last page:
     it runs while `i <= code.size`.  Then the data loop starts at the page behind the code, but 128
     bytes further in the file.  If the code does not fill its last page the two agree.  So a program
     is loaded as it should be, unless its code is a multiple of 128 bytes long and its data is longer
     than a page; and even then if the bytes in question are all 0 (`Loadable`).
-/
import Nachos.Userprog.AddrSpace

namespace Nachos

/-! ## The code -/

/-- The bytes of a file. -/
def fileBytes (file : List UInt8) : Bytes := fun i => file.getD i 0

/-- `OpenFile::ReadAt(into, numBytes, position)`: `Lseek` and `ReadPartial`; `none`: the `ASSERT` of
    `Lseek` fails. -/
def readAt (file : List UInt8) (memory : Bytes) (into numBytes : Nat) (position : BitVec 32) :
    Option Bytes :=
  if position.toInt < 0 then none
  else
    some (bcopy (fileBytes file) position.toNat memory into
      (min numBytes (file.length - position.toNat)))

/-- The size of `NoffHeader`. -/
def noffHeaderSize : Nat := 40

/-- The header in memory. -/
def NoffHeader.load (bigEndian : Bool) (b : Bytes) : NoffHeader where
  noffMagic := loadHost bigEndian b 0 4
  code := ⟨loadHost bigEndian b 4 4, loadHost bigEndian b 8 4, loadHost bigEndian b 12 4⟩
  initData := ⟨loadHost bigEndian b 16 4, loadHost bigEndian b 20 4, loadHost bigEndian b 24 4⟩
  uninitData := ⟨loadHost bigEndian b 28 4, loadHost bigEndian b 32 4, loadHost bigEndian b 36 4⟩

/-- The first page of a segment: `divRoundUp(virtualAddr, PageSize)`. -/
def Segment.firstPage (seg : Segment) : Nat :=
  (BitVec.ofInt 32 (divRoundUp seg.virtualAddr.toInt pageSize)).toNat

/-- A page and where it is read from: `j` and `i` of the loops. -/
abbrev PageRead := Nat × Nat

/-- The iterations of a loop: `n` pages from `j` on, read from `i` on. -/
def pageReads (j i n : Nat) : List PageRead :=
  (List.range n).map fun k => ((j + k) % 2 ^ 32, i + k * pageSize)

namespace NoffHeader

/-- The code loop, `for (i = 0; i <= noffH.code.size; i = i + PageSize)`. -/
def codeReads (noffH : NoffHeader) : List PageRead :=
  if 0 < noffH.code.size.toInt then
    pageReads noffH.code.firstPage 0 (noffH.code.size.toNat / pageSize + 1)
  else []

/-- `i` after the code loop. -/
def codeEnd (noffH : NoffHeader) : Nat :=
  if 0 < noffH.code.size.toInt then (noffH.code.size.toNat / pageSize + 1) * pageSize else 0

/-- The bound of the data loop. -/
def dataEnd (noffH : NoffHeader) : Nat := (noffH.code.size + noffH.initData.size).toNat

/-- The data loop, `for ( ; i < noffH.code.size + noffH.initData.size; i = i + PageSize)`; `none`: it
    does not end, because `i` wraps around. -/
def dataReads (noffH : NoffHeader) : Option (List PageRead) :=
  if 0 < noffH.initData.size.toInt then
    if 2 ^ 32 < noffH.dataEnd + pageSize then none
    else
      some (pageReads noffH.initData.firstPage noffH.codeEnd
        ((noffH.dataEnd - noffH.codeEnd + (pageSize - 1)) / pageSize))
  else some []

end NoffHeader

/-- `bzero(memory + a, n)`. -/
def bzero (memory : Bytes) (a n : Nat) : Bytes := fun i => if a ≤ i ∧ i < a + n then 0 else memory i

namespace AddrSpace

/-- `pageTable[j].physicalPage`; `past` is what is found behind the table. -/
def physicalPage (space : AddrSpace) (past : Nat → Int) (j : Nat) : Int :=
  match space.pageTable[j]? with
  | some entry => entry.physicalPage
  | none => past j

/-- The loop of `bzero` over the pages. -/
def zeroPages (space : AddrSpace) (memory : Bytes) : Bytes :=
  space.pageTable.foldl (fun memory entry =>
    bzero memory (entry.physicalPage.toNat * pageSize) pageSize) memory

/-- The body of both loops: `executable->ReadAt(&(machine->mainMemory[pageTable[j].physicalPage *
    PageSize]), PageSize, noffH.code.inFileAddr + i)`; `none`: not in main memory. -/
def readPage (space : AddrSpace) (past : Nat → Int) (file : List UInt8) (inFileAddr : BitVec 32)
    (memory : Bytes) (r : PageRead) : Option Bytes :=
  let page := space.physicalPage past r.1
  if 0 ≤ page ∧ page < numPhysPages then
    readAt file memory (page.toNat * pageSize) pageSize (inFileAddr + BitVec.ofNat 32 r.2)
  else none

/-- The loading of the segments. -/
def load (space : AddrSpace) (past : Nat → Int) (file : List UInt8) (noffH : NoffHeader)
    (memory : Bytes) : Option Bytes :=
  match noffH.dataReads with
  | none => none
  | some dataReads =>
    (noffH.codeReads ++ dataReads).foldlM (space.readPage past file noffH.code.inFileAddr)
      (space.zeroPages memory)

/-- The header that the constructor reads; `stack` is what the variable `noffH` has in it before. -/
def header (bigEndian : Bool) (file : List UInt8) (stack : Bytes) : NoffHeader :=
  NoffHeader.load bigEndian (bcopy (fileBytes file) 0 stack 0 (min noffHeaderSize file.length))

/-- **`AddrSpace::AddrSpace(executable)`**: the bitmap, the address space and main memory. -/
def create (bigEndian : Bool) (myBitmap : BitMap) (memory : Bytes) (file : List UInt8) (stack : Bytes)
    (past : Nat → Int) : Option (BitMap × AddrSpace × Bytes) :=
  (AddrSpace.new bigEndian myBitmap (header bigEndian file stack)).bind fun r =>
    (r.2.load past file ((header bigEndian file stack).toHost bigEndian) memory).map fun memory' =>
      (r.1, r.2, memory')

/-- The constructor takes the frames and then loads the segments. -/
theorem create_eq_some {bigEndian : Bool} {myBitmap b' : BitMap} {memory memory' stack : Bytes}
    {file : List UInt8} {past : Nat → Int} {space : AddrSpace} :
    create bigEndian myBitmap memory file stack past = some (b', space, memory') ↔
      AddrSpace.new bigEndian myBitmap (header bigEndian file stack) = some (b', space) ∧
        space.load past file ((header bigEndian file stack).toHost bigEndian) memory = some memory' := by
  constructor
  · intro h
    obtain ⟨⟨b₁, space₁⟩, hnew, hrest⟩ := Option.bind_eq_some_iff.mp h
    obtain ⟨memory₁, hload, heq⟩ := Option.map_eq_some_iff.mp hrest
    obtain ⟨rfl, heq'⟩ := Prod.mk.inj heq
    obtain ⟨rfl, rfl⟩ := Prod.mk.inj heq'
    exact ⟨hnew, hload⟩
  · rintro ⟨hnew, hload⟩
    exact Option.bind_eq_some_iff.mpr ⟨(b', space), hnew, Option.map_eq_some_iff.mpr ⟨memory', hload, rfl⟩⟩

end AddrSpace

/-! ## Pages of main memory -/

/-- A copy into the beginning of a page. -/
theorem bcopy_page {src memory : Bytes} {s f k : Nat} (hk : k ≤ pageSize) (a : Nat) :
    bcopy src s memory (f * pageSize) k a
      = if a / pageSize = f ∧ a % pageSize < k then src (s + a % pageSize) else memory a := by
  have hpage : pageSize = 128 := rfl
  rw [hpage] at hk ⊢
  rw [bcopy]
  by_cases hin : f * 128 ≤ a ∧ a < f * 128 + k
  · have hat : a / 128 = f ∧ a % 128 < k := by omega
    have hoffset : a - f * 128 = a % 128 := by omega
    rw [if_pos hin, if_pos hat, hoffset]
  · have hout : ¬ (a / 128 = f ∧ a % 128 < k) := by omega
    rw [if_neg hin, if_neg hout]

theorem bzero_page {memory : Bytes} {f : Nat} (a : Nat) :
    bzero memory (f * pageSize) pageSize a = if a / pageSize = f then 0 else memory a := by
  have hpage : pageSize = 128 := rfl
  rw [hpage, bzero]
  by_cases hin : f * 128 ≤ a ∧ a < f * 128 + 128
  · have hat : a / 128 = f := by omega
    rw [if_pos hin, if_pos hat]
  · have hout : ¬ a / 128 = f := by omega
    rw [if_neg hin, if_neg hout]

namespace AddrSpace

variable {space : AddrSpace}

/-- The frame of a page. -/
def frame (space : AddrSpace) (j : Nat) : Nat := (space.physicalPage (fun _ => 0) j).toNat

/-- Where main memory has the byte at a virtual address. -/
def physAddr (space : AddrSpace) (v : Nat) : Nat :=
  space.frame (v / pageSize) * pageSize + v % pageSize

/-- The size of the address space. -/
def size (space : AddrSpace) : Nat := space.numPages.toNat * pageSize

/-- The byte at a virtual address. -/
def byte (space : AddrSpace) (memory : Bytes) (v : Nat) : UInt8 := memory (space.physAddr v)

theorem physAddr_div (v : Nat) : space.physAddr v / pageSize = space.frame (v / pageSize) := by
  rw [physAddr, show pageSize = 128 from rfl]
  omega

theorem physAddr_mod (v : Nat) : space.physAddr v % pageSize = v % pageSize := by
  rw [physAddr, show pageSize = 128 from rfl]
  omega

theorem div_lt_of_size {v : Nat} (h : v < space.size) : v / pageSize < space.numPages.toNat := by
  rw [size, show pageSize = 128 from rfl] at h
  rw [show pageSize = 128 from rfl]
  omega

/-- An address space whose pages have frames, one each. -/
structure Framed (space : AddrSpace) : Prop where
  nodup : space.frames.Nodup
  range : ∀ f ∈ space.frames, 0 ≤ f ∧ f < numPhysPages
  valid : ∀ entry ∈ space.pageTable, entry.valid = true ∧ entry.readOnly = false

theorem getElem?_frames (space : AddrSpace) (j : Nat) :
    space.frames[j]? = space.pageTable[j]?.map (·.physicalPage) := List.getElem?_map ..

/-- A page that is in the table has a frame of the machine. -/
theorem Framed.frame {j : Nat} (h : space.Framed) (hj : j < space.numPages.toNat) (past : Nat → Int) :
    space.frames[j]? = some (space.frame j : Int) ∧ space.physicalPage past j = space.frame j ∧
      space.frame j < numPhysPages := by
  have hlen : j < space.pageTable.length := by
    rw [space.length_pageTable]
    exact hj
  have hget : space.pageTable[j]? = some space.pageTable[j] := List.getElem?_eq_getElem hlen
  have hframes : space.frames[j]? = some space.pageTable[j].physicalPage := by
    rw [getElem?_frames, hget]
    rfl
  obtain ⟨hnonneg, hlt⟩ := h.range _ (List.mem_of_getElem? hframes)
  have hframe : (space.frame j : Int) = space.pageTable[j].physicalPage := by
    rw [AddrSpace.frame, physicalPage, hget]
    exact Int.toNat_of_nonneg hnonneg
  refine ⟨?_, ?_, ?_⟩
  · rw [hframe]
    exact hframes
  · rw [hframe, physicalPage, hget]
  · omega

/-- Different pages have different frames. -/
theorem Framed.frame_inj {j k : Nat} (h : space.Framed) (hj : j < space.numPages.toNat)
    (hk : k < space.numPages.toNat) (heq : space.frame j = space.frame k) : j = k := by
  have hlen : j < space.frames.length := by
    rw [AddrSpace.frames, List.length_map, space.length_pageTable]
    exact hj
  refine (List.getElem?_inj hlen h.nodup).mp ?_
  rw [(h.frame hj fun _ => 0).1, (h.frame hk fun _ => 0).1, heq]

/-- The frames that the constructor hands out. -/
theorem Framed.of_new {bigEndian : Bool} {myBitmap b' : BitMap} {header : NoffHeader}
    (hbits : myBitmap.numBits = numPhysPages)
    (h : AddrSpace.new bigEndian myBitmap header = some (b', space)) : space.Framed := by
  obtain ⟨hbits', hnodup, hfresh, hout⟩ := AddrSpace.of_new h
  refine ⟨hnodup, fun f hf => ⟨(hfresh f hf).1, ?_⟩, ?_⟩
  · have hmem : f ∈ b'.out := by
      rw [hout]
      exact Or.inr hf
    obtain ⟨i, hi, rfl⟩ := hmem
    have hlt := (BitMap.mem_marked.mp hi).1
    rw [hbits', hbits] at hlt
    exact Int.ofNat_lt.mpr hlt
  · -- every entry is made by the loop
    have hset : ∀ (is : List Nat) (b b₁ : BitMap) (table : List TranslationEntry),
        setTranslation b is = some (b₁, table) →
        ∀ entry ∈ table, entry.valid = true ∧ entry.readOnly = false := by
      intro is
      induction is with
      | nil =>
        intro b b₁ table htable entry hentry
        obtain ⟨-, rfl⟩ := Prod.mk.inj (Option.some.inj htable)
        exact absurd hentry List.not_mem_nil
      | cons i rest ih =>
        intro b b₁ table htable
        unfold setTranslation at htable
        split at htable
        · cases htable
        · obtain ⟨⟨b₂, table₂⟩, hrest, heq⟩ := Option.map_eq_some_iff.mp htable
          obtain ⟨-, rfl⟩ := Prod.mk.inj heq
          exact List.forall_mem_cons.mpr ⟨⟨rfl, rfl⟩, ih _ _ _ hrest⟩
    unfold AddrSpace.new at h
    simp only at h
    split at h
    · split at h
      · cases h
      · rename_i htable
        obtain ⟨-, rfl⟩ := Prod.mk.inj (Option.some.inj h)
        exact hset _ _ _ _ htable
    · cases h

/-- The size of the address space is computed from the header. -/
theorem numPages_of_new {bigEndian : Bool} {myBitmap b' : BitMap} {header : NoffHeader}
    (h : AddrSpace.new bigEndian myBitmap header = some (b', space)) :
    space.numPages = (header.toHost bigEndian).numPages := by
  unfold AddrSpace.new at h
  simp only at h
  split at h
  · split at h
    · cases h
    · obtain ⟨-, rfl⟩ := Prod.mk.inj (Option.some.inj h)
      rfl
  · cases h

/-- One of the `ASSERT`s: no more pages than the machine has. -/
theorem numPages_le_of_asserts {myBitmap : BitMap} {noffH : NoffHeader}
    (h : asserts myBitmap noffH = true) : noffH.numPages.toNat ≤ numPhysPages := by
  unfold asserts at h
  simp only [Bool.and_eq_true, decide_eq_true_eq] at h
  exact h.1.2

/-- The loop of `bzero`: the frames of the address space are filled with zeros, and no others. -/
theorem zeroPages_apply (memory : Bytes) (hrange : ∀ f ∈ space.frames, 0 ≤ f) (a : Nat) :
    space.zeroPages memory a
      = if ((a / pageSize : Nat) : Int) ∈ space.frames then 0 else memory a := by
  unfold zeroPages AddrSpace.frames at *
  generalize space.pageTable = table at hrange
  induction table generalizing memory with
  | nil => rfl
  | cons entry rest ih =>
    rw [List.foldl_cons, ih _ (List.forall_mem_cons.mp hrange).2, bzero_page, List.map_cons]
    have hnonneg : 0 ≤ entry.physicalPage := (List.forall_mem_cons.mp hrange).1
    have hcast : a / pageSize = entry.physicalPage.toNat
        ↔ ((a / pageSize : Nat) : Int) = entry.physicalPage := by
      omega
    by_cases hrest : ((a / pageSize : Nat) : Int) ∈ rest.map (·.physicalPage)
    · rw [if_pos hrest, if_pos (List.mem_cons_of_mem _ hrest)]
    · rw [if_neg hrest]
      by_cases hhead : ((a / pageSize : Nat) : Int) = entry.physicalPage
      · rw [if_pos (hcast.mpr hhead), if_pos (List.mem_cons.mpr (Or.inl hhead))]
      · have hneither : ¬ ((a / pageSize : Nat) : Int) ∈ entry.physicalPage ::
            rest.map (·.physicalPage) := by
          intro hmem
          rcases List.mem_cons.mp hmem with h | h
          · exact hhead h
          · exact hrest h
        rw [if_neg (fun h => hhead (hcast.mp h)), if_neg hneither]

/-- A page that is read stays in its frame. -/
theorem Framed.readPage_of_ne (h : space.Framed) {past : Nat → Int} {file : List UInt8}
    {inFileAddr : BitVec 32} {memory memory' : Bytes} {r : PageRead} (hr : r.1 < space.numPages.toNat)
    (hread : space.readPage past file inFileAddr memory r = some memory') {a : Nat}
    (ha : a / pageSize ≠ space.frame r.1) : memory' a = memory a := by
  obtain ⟨-, hpage, -⟩ := h.frame hr past
  simp only [readPage, hpage, Int.toNat_natCast] at hread
  split at hread
  · unfold readAt at hread
    split at hread
    · cases hread
    · obtain rfl := Option.some.inj hread
      rw [bcopy_page (Nat.min_le_left _ _), if_neg fun hin => ha hin.1]
  · cases hread

/-- A page that is read, from a position that is an `int`. -/
theorem Framed.readPage (h : space.Framed) (past : Nat → Int) (file : List UInt8) (memory : Bytes)
    {inFileAddr : BitVec 32} {j i : Nat} (hj : j < space.numPages.toNat)
    (hi : inFileAddr.toNat + i < 2 ^ 31) :
    ∃ memory', space.readPage past file inFileAddr memory (j, i) = some memory' ∧
      ∀ v < space.size, space.byte memory' v
        = if v / pageSize = j ∧ inFileAddr.toNat + i + v % pageSize < file.length then
            file.getD (inFileAddr.toNat + i + v % pageSize) 0
          else space.byte memory v := by
  obtain ⟨-, hpage, hlt⟩ := h.frame hj past
  have hpos : (inFileAddr + BitVec.ofNat 32 i).toNat = inFileAddr.toNat + i := by
    rw [BitVec.toNat_add, BitVec.toNat_ofNat]
    omega
  have hint : ¬ (inFileAddr + BitVec.ofNat 32 i).toInt < 0 := by
    rw [BitVec.toInt_eq_toNat_of_lt (by omega)]
    omega
  refine ⟨bcopy (fileBytes file) (inFileAddr.toNat + i) memory (space.frame j * pageSize)
    (min pageSize (file.length - (inFileAddr.toNat + i))), ?_, fun v hv => ?_⟩
  · have hin : (0 : Int) ≤ (space.frame j : Int) ∧ (space.frame j : Int) < numPhysPages := by omega
    simp only [AddrSpace.readPage, hpage, Int.toNat_natCast, readAt]
    rw [if_pos hin, if_neg hint, hpos]
  · have hvj := div_lt_of_size hv
    have hsmall : v % pageSize < pageSize := Nat.mod_lt _ (by decide)
    rw [byte, bcopy_page (Nat.min_le_left _ _), physAddr_div, physAddr_mod]
    by_cases hat : v / pageSize = j ∧ inFileAddr.toNat + i + v % pageSize < file.length
    · have hin : space.frame (v / pageSize) = space.frame j ∧
          v % pageSize < min pageSize (file.length - (inFileAddr.toNat + i)) := by
        refine ⟨by rw [hat.1], ?_⟩
        omega
      rw [if_pos hat, if_pos hin]
      rfl
    · have hout : ¬ (space.frame (v / pageSize) = space.frame j ∧
          v % pageSize < min pageSize (file.length - (inFileAddr.toNat + i))) := by
        rintro ⟨hframe, hmin⟩
        exact hat ⟨h.frame_inj hvj hj hframe, by omega⟩
      rw [if_neg hat, if_neg hout]
      rfl

/-- **A loop.**  The pages from `j` on are the file from `inFileAddr + i` on. -/
theorem Framed.readPages_run (h : space.Framed) {past : Nat → Int} {file : List UInt8}
    {inFileAddr : BitVec 32} {j i : Nat} (memory : Bytes) (n : Nat)
    (hj : j + n ≤ space.numPages.toNat) (hi : ∀ k < n, inFileAddr.toNat + i + k * pageSize < 2 ^ 31) :
    ∃ memory', (pageReads j i n).foldlM (space.readPage past file inFileAddr) memory = some memory' ∧
      ∀ v < space.size, space.byte memory' v
        = if j * pageSize ≤ v ∧ v < (j + n) * pageSize ∧
              inFileAddr.toNat + i + (v - j * pageSize) < file.length then
            file.getD (inFileAddr.toNat + i + (v - j * pageSize)) 0
          else space.byte memory v := by
  have hpage : pageSize = 128 := rfl
  induction n with
  | zero =>
    refine ⟨memory, rfl, fun v _ => ?_⟩
    have hno : ¬ (j * pageSize ≤ v ∧ v < (j + 0) * pageSize ∧
        inFileAddr.toNat + i + (v - j * pageSize) < file.length) := by
      rw [Nat.add_zero]
      omega
    rw [if_neg hno]
  | succ n ih =>
    obtain ⟨memory₁, hrun, hbytes⟩ := ih (by omega) fun k hk => hi k (by omega)
    have hlast : j + n < space.numPages.toNat := by omega
    have hpos : inFileAddr.toNat + (i + n * pageSize) < 2 ^ 31 := by
      have := hi n (Nat.lt_succ_self n)
      omega
    obtain ⟨memory₂, hread, hnew⟩ := h.readPage past file memory₁ hlast hpos
    refine ⟨memory₂, ?_, fun v hv => ?_⟩
    · have hmod : (j + n) % 2 ^ 32 = j + n := by
        have hword := space.numPages.isLt
        omega
      have hsplit : pageReads j i (n + 1) = pageReads j i n ++ [(j + n, i + n * pageSize)] := by
        rw [pageReads, pageReads, List.range_succ, List.map_append, List.map_singleton, hmod]
      rw [hsplit, List.foldlM_append, hrun]
      show List.foldlM _ memory₁ _ = _
      rw [List.foldlM_cons, hread]
      rfl
    · rw [hnew v hv, hbytes v hv]
      rw [hpage] at *
      by_cases hthis : v / 128 = j + n ∧ inFileAddr.toNat + (i + n * 128) + v % 128 < file.length
      · have hin : j * 128 ≤ v ∧ v < (j + (n + 1)) * 128 ∧
            inFileAddr.toNat + i + (v - j * 128) < file.length := by omega
        have hsame : inFileAddr.toNat + (i + n * 128) + v % 128
            = inFileAddr.toNat + i + (v - j * 128) := by omega
        rw [if_pos hthis, if_pos hin, hsame]
      · rw [if_neg hthis]
        by_cases hold : j * 128 ≤ v ∧ v < (j + n) * 128 ∧
            inFileAddr.toNat + i + (v - j * 128) < file.length
        · have hin : j * 128 ≤ v ∧ v < (j + (n + 1)) * 128 ∧
              inFileAddr.toNat + i + (v - j * 128) < file.length := by omega
          rw [if_pos hold, if_pos hin]
        · have hout : ¬ (j * 128 ≤ v ∧ v < (j + (n + 1)) * 128 ∧
              inFileAddr.toNat + i + (v - j * 128) < file.length) := by omega
          rw [if_neg hold, if_neg hout]

/-- `AddrSpace::RestoreState`. -/
def restoreState (space : AddrSpace) : Mmu := ⟨none, some space.pageTable, space.numPages⟩

/-- The byte that `Translate` finds is the byte at the virtual address. -/
theorem Framed.translate (h : space.Framed) (hpages : space.numPages.toNat ≤ numPhysPages) {v : Nat}
    (hv : v < space.size) : ∃ m, space.restoreState.translate (BitVec.ofNat 32 v) 1 false
      = some (m, .ok (space.physAddr v)) := by
  have hpage : pageSize = 128 := rfl
  have hnum : numPhysPages = 128 := rfl
  have hvj := div_lt_of_size hv
  have hsmall : (BitVec.ofNat 32 v).toNat = v := by
    rw [BitVec.toNat_ofNat]
    rw [size] at hv
    have hmul : space.numPages.toNat * pageSize ≤ numPhysPages * pageSize := Nat.mul_le_mul_right _ hpages
    rw [hpage, hnum] at hmul
    rw [hpage] at hv
    omega
  have hlen : v / pageSize < space.pageTable.length := by
    rw [space.length_pageTable]
    exact hvj
  have hget : space.pageTable[v / pageSize]? = some space.pageTable[v / pageSize] :=
    List.getElem?_eq_getElem hlen
  obtain ⟨hvalid, hwrite⟩ := h.valid _ (List.getElem_mem hlen)
  obtain ⟨-, hphys, hlt⟩ := h.frame hvj fun _ => 0
  have hentry : space.pageTable[v / pageSize].physicalPage = space.frame (v / pageSize) := by
    rw [← hphys, physicalPage, hget]
  have hframe : (BitVec.ofInt 32 space.pageTable[v / pageSize].physicalPage).toNat
      = space.frame (v / pageSize) := by
    rw [hentry, BitVec.toNat_ofInt]
    rw [hnum] at hlt
    omega
  have hbound : ¬ numPhysPages ≤ space.frame (v / pageSize) := Nat.not_le_of_lt hlt
  have hend : ((space.physAddr v : Nat) : Int) + 1 ≤ memorySize := by
    rw [physAddr, memorySize, hpage, hnum]
    rw [hpage, hnum] at hlt
    omega
  have hal : Mmu.misaligned (BitVec.ofNat 32 v) 1 = false := rfl
  refine ⟨space.restoreState.setEntry (v / pageSize)
    { space.pageTable[v / pageSize] with use := true, dirty := space.pageTable[v / pageSize].dirty || false },
    ?_⟩
  simp only [Mmu.translate, hal, restoreState, Mmu.findEntry, hsmall, Option.isNone_none, true_or,
    Option.isSome_some, or_true, not_true, if_false, Nat.not_le_of_lt hvj, Option.bind_some, hget, hvalid,
    Bool.not_true, hwrite, Bool.and_false, hframe, hbound, Bool.false_eq_true]
  exact if_pos hend

end AddrSpace

/-! ## What the loops load -/

/-- The bytes of a segment, as offsets in the address space. -/
def Segment.Has (seg : Segment) (v : Nat) : Prop :=
  seg.virtualAddr.toNat ≤ v ∧ v < seg.virtualAddr.toNat + seg.size.toNat

instance (seg : Segment) (v : Nat) : Decidable (seg.Has v) := inferInstanceAs (Decidable (_ ∧ _))

/-- The byte of the file for an address in a segment. -/
def Segment.fileByte (seg : Segment) (file : List UInt8) (v : Nat) : UInt8 :=
  file.getD (seg.inFileAddr.toNat + (v - seg.virtualAddr.toNat)) 0

namespace NoffHeader

/-- **What memory should be**: the bytes of the file in the code and the initialized data, and 0 in the
    rest. -/
def image (noffH : NoffHeader) (file : List UInt8) (v : Nat) : UInt8 :=
  if noffH.code.Has v then noffH.code.fileByte file v
  else if noffH.initData.Has v then noffH.initData.fileByte file v
  else 0

/-- A program as the linker and `coff2noff` make it: the code at address 0, the initialized data behind
    it in the file and in memory, the other data behind that, and nothing more in the file; and it is
    small enough for the machine.  Positions in files are of type `int`. -/
structure Linked (noffH : NoffHeader) (file : List UInt8) : Prop where
  codeAddr : noffH.code.virtualAddr = 0
  codeSize : 0 < noffH.code.size.toInt
  dataSize : 0 ≤ noffH.initData.size.toInt
  dataFile : noffH.initData.inFileAddr.toNat = noffH.code.inFileAddr.toNat + noffH.code.size.toNat
  dataAddr : noffH.initData.virtualAddr = noffH.code.size
  bssSize : 0 ≤ noffH.uninitData.size.toInt
  bssAddr : noffH.uninitData.virtualAddr.toNat = noffH.code.size.toNat + noffH.initData.size.toNat
  ends : file.length
    = noffH.code.inFileAddr.toNat + noffH.code.size.toNat + noffH.initData.size.toNat
  position : file.length < 2 ^ 31
  fits : noffH.code.size.toNat + noffH.initData.size.toNat + noffH.uninitData.size.toNat
    + userStackSize.toNat ≤ memorySize

/-- The code does not fill its last page, or the data is no longer than a page; or the bytes of the data
    that are loaded into the wrong page, and those that are not loaded at all, are 0. -/
def Loadable (noffH : NoffHeader) (file : List UInt8) : Prop :=
  pageSize ∣ noffH.code.size.toNat → pageSize < noffH.initData.size.toNat →
    ∀ x < noffH.initData.size.toNat, x + pageSize < noffH.initData.size.toNat ∨ pageSize ≤ x →
      file.getD (noffH.initData.inFileAddr.toNat + x) 0 = 0

/-- What the two loops load. -/
def loaded (noffH : NoffHeader) (file : List UInt8) (v : Nat) : UInt8 :=
  let F := noffH.code.inFileAddr.toNat
  let c := noffH.code.size.toNat
  let d := noffH.initData.size.toNat
  if pageSize ∣ c ∧ c ≤ v ∧ v + pageSize < c + d then file.getD (F + v + pageSize) 0
  else if v < c + d ∧ (pageSize ∣ c → v < c + pageSize) then file.getD (F + v) 0
  else 0

/-- The arithmetic of a linked program: nothing wraps around. -/
theorem Linked.numPages {noffH : NoffHeader} {file : List UInt8} (h : noffH.Linked file) :
    noffH.numPages.toNat = (noffH.code.size.toNat + noffH.initData.size.toNat
      + noffH.uninitData.size.toNat + userStackSize.toNat + (pageSize - 1)) / pageSize := by
  have hfits := h.fits
  have hmem : memorySize = 16384 := rfl
  have hpage : pageSize = 128 := rfl
  rw [hmem] at hfits
  have hsum : (noffH.code.size + noffH.initData.size + noffH.uninitData.size + userStackSize).toNat
      = noffH.code.size.toNat + noffH.initData.size.toNat + noffH.uninitData.size.toNat
        + userStackSize.toNat := by
    rw [BitVec.toNat_add, BitVec.toNat_add, BitVec.toNat_add]
    omega
  simp only [NoffHeader.numPages]
  rw [BitVec.toInt_eq_toNat_of_lt (by rw [hsum]; omega), hsum, divRoundUp_natCast (by decide), BitVec.toNat_ofInt]
  rw [hpage]
  omega

theorem Linked.firstPage {noffH : NoffHeader} {file : List UInt8} (h : noffH.Linked file) :
    noffH.initData.firstPage = (noffH.code.size.toNat + (pageSize - 1)) / pageSize := by
  have hfits := h.fits
  have hmem : memorySize = 16384 := rfl
  have hpage : pageSize = 128 := rfl
  rw [hmem] at hfits
  rw [Segment.firstPage, h.dataAddr, BitVec.toInt_eq_toNat_of_lt (by omega), divRoundUp_natCast (by decide),
    BitVec.toNat_ofInt, hpage]
  omega

/-- The code loop. -/
theorem Linked.codeReads {noffH : NoffHeader} {file : List UInt8} (h : noffH.Linked file) :
    noffH.codeReads = pageReads 0 0 (noffH.code.size.toNat / pageSize + 1) ∧
      noffH.codeEnd = (noffH.code.size.toNat / pageSize + 1) * pageSize := by
  have hfirst : noffH.code.firstPage = 0 := by
    rw [Segment.firstPage, h.codeAddr]
    rfl
  rw [NoffHeader.codeReads, codeEnd, if_pos h.codeSize, if_pos h.codeSize, hfirst]
  exact ⟨rfl, rfl⟩

/-- The data loop ends; without data it does nothing, like the `if` around it. -/
theorem Linked.dataReads {noffH : NoffHeader} {file : List UInt8} (h : noffH.Linked file) :
    noffH.dataReads = some (pageReads noffH.initData.firstPage noffH.codeEnd
      ((noffH.code.size.toNat + noffH.initData.size.toNat - noffH.codeEnd + (pageSize - 1))
        / pageSize)) := by
  have hfits := h.fits
  have hmem : memorySize = 16384 := rfl
  have hpage : pageSize = 128 := rfl
  rw [hmem] at hfits
  have hend : noffH.dataEnd = noffH.code.size.toNat + noffH.initData.size.toNat := by
    rw [dataEnd, BitVec.toNat_add]
    omega
  rw [NoffHeader.dataReads, hend]
  by_cases hdata : 0 < noffH.initData.size.toInt
  · rw [if_pos hdata, if_neg (by rw [hpage]; omega)]
  · have hzero : noffH.initData.size.toNat = 0 := by
      have hnonneg := h.dataSize
      rw [BitVec.toInt_eq_toNat_of_lt (by omega)] at hdata
      omega
    have hnone : (noffH.code.size.toNat + noffH.initData.size.toNat - noffH.codeEnd + (pageSize - 1))
        / pageSize = 0 := by
      rw [h.codeReads.2, hzero, hpage]
      omega
    rw [if_neg hdata, hnone]
    rfl

end NoffHeader

/-- **The two loops**, for a linked program: they end, and this is what they load. -/
theorem AddrSpace.Framed.load {space : AddrSpace} {noffH : NoffHeader} {file : List UInt8}
    (h : space.Framed) (hnum : space.numPages = noffH.numPages) (hlinked : noffH.Linked file)
    (past : Nat → Int) (memory : Bytes) :
    ∃ memory', space.load past file noffH memory = some memory' ∧
      ∀ v < space.size, space.byte memory' v = noffH.loaded file v := by
  have hpage : pageSize = 128 := rfl
  have hstack : userStackSize.toNat = 1024 := rfl
  have hpages := hlinked.numPages
  have hends := hlinked.ends
  have hposition := hlinked.position
  rw [← hnum] at hpages
  obtain ⟨hcode, hcodeEnd⟩ := hlinked.codeReads
  have hfirst := hlinked.firstPage
  -- the frames have zeros in them
  have hzero : ∀ v < space.size, space.byte (space.zeroPages memory) v = 0 := by
    intro v hv
    rw [AddrSpace.byte, zeroPages_apply memory fun f hf => (h.range f hf).1, physAddr_div]
    exact if_pos (List.mem_of_getElem? (h.frame (div_lt_of_size hv) fun _ => 0).1)
  -- the code loop, and the data loop behind it
  obtain ⟨memory₁, hrun₁, hbytes₁⟩ :
      ∃ memory₁, (pageReads 0 0 (noffH.code.size.toNat / pageSize + 1)).foldlM
          (space.readPage past file noffH.code.inFileAddr) (space.zeroPages memory) = some memory₁ ∧ _ :=
    h.readPages_run (space.zeroPages memory) _
      (by rw [hpages, hstack, hpage]; omega) (fun k hk => by rw [hpage] at hk ⊢; omega)
  obtain ⟨memory₂, hrun₂, hbytes₂⟩ :
      ∃ memory₂, (pageReads noffH.initData.firstPage noffH.codeEnd
          ((noffH.code.size.toNat + noffH.initData.size.toNat - noffH.codeEnd + (pageSize - 1))
            / pageSize)).foldlM (space.readPage past file noffH.code.inFileAddr) memory₁
          = some memory₂ ∧ _ :=
    h.readPages_run memory₁ _
      (by rw [hpages, hfirst, hcodeEnd, hstack, hpage]; omega)
      (fun k hk => by rw [hcodeEnd, hpage] at hk ⊢; omega)
  refine ⟨memory₂, ?_, fun v hv => ?_⟩
  · rw [AddrSpace.load, hlinked.dataReads, hcode]
    simp only [List.foldlM_append, hrun₁]
    exact hrun₂
  · rw [hbytes₂ v hv, hbytes₁ v hv, hzero v hv, hfirst, hcodeEnd, hends, NoffHeader.loaded, hpage]
    generalize noffH.code.size.toNat = c
    generalize noffH.initData.size.toNat = d
    generalize noffH.code.inFileAddr.toNat = F
    rw [Nat.zero_add, Nat.zero_mul, Nat.add_zero F, Nat.sub_zero]
    generalize hE : (c / 128 + 1) * 128 = E
    generalize hP : (c + (128 - 1)) / 128 = P
    generalize hN : (c + d - E + (128 - 1)) / 128 = N
    by_cases hfull : 128 ∣ c
    · -- the data loop is a page ahead in the file
      by_cases hahead : c ≤ v ∧ v + 128 < c + d
      · have hin : P * 128 ≤ v ∧ v < (P + N) * 128 ∧ F + E + (v - P * 128) < F + c + d := by omega
        have hat : F + E + (v - P * 128) = F + v + 128 := by omega
        rw [if_pos hin, if_pos ⟨hfull, hahead⟩, hat]
      · have hout : ¬ (P * 128 ≤ v ∧ v < (P + N) * 128 ∧ F + E + (v - P * 128) < F + c + d) := by omega
        have hcodeLoop : (0 ≤ v ∧ v < E ∧ F + v < F + c + d) ↔ v < c + d ∧ (128 ∣ c → v < c + 128) := by
          constructor
          · intro hin
            exact ⟨by omega, fun _ => by omega⟩
          · rintro ⟨hlt, hpast⟩
            have hlt' := hpast hfull
            omega
        have hnot : ¬ (128 ∣ c ∧ c ≤ v ∧ v + 128 < c + d) := fun hin => hahead hin.2
        rw [if_neg hout, if_neg hnot, if_congr hcodeLoop rfl rfl]
    · -- it goes on where the code loop has stopped
      have hnot : ¬ (128 ∣ c ∧ c ≤ v ∧ v + 128 < c + d) := fun hin => hfull hin.1
      have hwhole : (v < c + d ∧ (128 ∣ c → v < c + 128)) ↔ v < c + d :=
        and_iff_left fun hin => absurd hin hfull
      rw [if_neg hnot, if_congr hwhole rfl rfl]
      by_cases hlt : v < c + d
      · rw [if_pos hlt]
        by_cases hdata : E ≤ v
        · have hin : P * 128 ≤ v ∧ v < (P + N) * 128 ∧ F + E + (v - P * 128) < F + c + d := by omega
          have hat : F + E + (v - P * 128) = F + v := by omega
          rw [if_pos hin, hat]
        · have hout : ¬ (P * 128 ≤ v ∧ v < (P + N) * 128 ∧ F + E + (v - P * 128) < F + c + d) := by omega
          have hin : 0 ≤ v ∧ v < E ∧ F + v < F + c + d := by omega
          rw [if_neg hout, if_pos hin]
      · have hout : ¬ (P * 128 ≤ v ∧ v < (P + N) * 128 ∧ F + E + (v - P * 128) < F + c + d) := by omega
        have hout₁ : ¬ (0 ≤ v ∧ v < E ∧ F + v < F + c + d) := by omega
        rw [if_neg hout, if_neg hout₁, if_neg hlt]

/-! ## When a program is loaded as it should be -/

namespace NoffHeader

variable {noffH : NoffHeader} {file : List UInt8}

/-- In a linked program the two segments are one piece of the file. -/
theorem Linked.image (h : noffH.Linked file) (v : Nat) :
    noffH.image file v = if v < noffH.code.size.toNat + noffH.initData.size.toNat then
      file.getD (noffH.code.inFileAddr.toNat + v) 0 else 0 := by
  have hzero : noffH.code.virtualAddr.toNat = 0 := by
    rw [h.codeAddr]
    rfl
  have hcode : noffH.code.Has v ↔ v < noffH.code.size.toNat := by
    unfold Segment.Has
    omega
  have hdata : noffH.initData.Has v ↔ noffH.code.size.toNat ≤ v ∧
      v < noffH.code.size.toNat + noffH.initData.size.toNat := by
    unfold Segment.Has
    rw [h.dataAddr]
  simp only [NoffHeader.image, hcode, hdata, Segment.fileByte, hzero, h.dataAddr, h.dataFile, Nat.sub_zero]
  by_cases hin : v < noffH.code.size.toNat
  · rw [if_pos hin, if_pos (by omega)]
  · by_cases hend : v < noffH.code.size.toNat + noffH.initData.size.toNat
    · have hat : noffH.code.inFileAddr.toNat + noffH.code.size.toNat + (v - noffH.code.size.toNat)
          = noffH.code.inFileAddr.toNat + v := by omega
      rw [if_neg hin, if_pos ⟨by omega, hend⟩, if_pos hend, hat]
    · rw [if_neg hin, if_neg fun h => hend h.2, if_neg hend]

/-- Where the data goes wrong: a byte of it is the one a page further on, or 0. -/
theorem loaded_data (hfull : pageSize ∣ noffH.code.size.toNat) (x : Nat) :
    noffH.loaded file (noffH.code.size.toNat + x)
      = if x + pageSize < noffH.initData.size.toNat then
          file.getD (noffH.code.inFileAddr.toNat + noffH.code.size.toNat + (x + pageSize)) 0
        else if x < noffH.initData.size.toNat ∧ x < pageSize then
          file.getD (noffH.code.inFileAddr.toNat + noffH.code.size.toNat + x) 0
        else 0 := by
  have hahead : (pageSize ∣ noffH.code.size.toNat ∧ noffH.code.size.toNat ≤ noffH.code.size.toNat + x ∧
      noffH.code.size.toNat + x + pageSize < noffH.code.size.toNat + noffH.initData.size.toNat)
      ↔ x + pageSize < noffH.initData.size.toNat := by
    constructor
    · rintro ⟨-, -, hlt⟩
      omega
    · intro hlt
      exact ⟨hfull, by omega, by omega⟩
  have hcode : (noffH.code.size.toNat + x < noffH.code.size.toNat + noffH.initData.size.toNat ∧
      (pageSize ∣ noffH.code.size.toNat → noffH.code.size.toNat + x < noffH.code.size.toNat + pageSize))
      ↔ x < noffH.initData.size.toNat ∧ x < pageSize := by
    constructor
    · rintro ⟨hlt, hpast⟩
      have hpast' := hpast hfull
      omega
    · rintro ⟨hlt, hpast⟩
      exact ⟨by omega, fun _ => by omega⟩
  simp only [loaded, hahead, hcode]
  simp only [Nat.add_assoc]

/-- Outside of that the loops load the file. -/
theorem loaded_of {v : Nat} (h : ¬ (pageSize ∣ noffH.code.size.toNat ∧ noffH.code.size.toNat ≤ v ∧
      pageSize < noffH.initData.size.toNat)) :
    noffH.loaded file v = if v < noffH.code.size.toNat + noffH.initData.size.toNat then
      file.getD (noffH.code.inFileAddr.toNat + v) 0 else 0 := by
  have hnot : ¬ (pageSize ∣ noffH.code.size.toNat ∧ noffH.code.size.toNat ≤ v ∧
      v + pageSize < noffH.code.size.toNat + noffH.initData.size.toNat) := by
    rintro ⟨hfull, hv, hlt⟩
    exact h ⟨hfull, hv, by omega⟩
  have hcode : (v < noffH.code.size.toNat + noffH.initData.size.toNat ∧
      (pageSize ∣ noffH.code.size.toNat → v < noffH.code.size.toNat + pageSize))
      ↔ v < noffH.code.size.toNat + noffH.initData.size.toNat := by
    refine and_iff_left_of_imp fun hlt hfull => ?_
    by_cases hv : noffH.code.size.toNat ≤ v
    · have hshort : ¬ pageSize < noffH.initData.size.toNat := fun hin => h ⟨hfull, hv, hin⟩
      omega
    · omega
  simp only [loaded, hnot, hcode, if_false]

/-- **When the loops load the image.** -/
theorem Linked.loaded_iff (h : noffH.Linked file) {n : Nat}
    (hn : noffH.code.size.toNat + noffH.initData.size.toNat ≤ n) :
    (∀ v < n, noffH.loaded file v = noffH.image file v) ↔ noffH.Loadable file := by
  have hpos : 0 < pageSize := by decide
  constructor
  · intro hall hfull hlong
    -- the byte at `x` is the byte a page further on; by induction on what is left behind `x`
    have hdata : ∀ k x, noffH.initData.size.toNat - x = k → x < noffH.initData.size.toNat →
        x + pageSize < noffH.initData.size.toNat ∨ pageSize ≤ x →
        file.getD (noffH.code.inFileAddr.toNat + noffH.code.size.toNat + x) 0 = 0 := by
      intro k
      induction k using Nat.strongRecOn with
      | ind k ih =>
        intro x hk hx hwrong
        have hsame := hall (noffH.code.size.toNat + x) (by omega)
        rw [loaded_data hfull, h.image, if_pos (Nat.add_lt_add_left hx _),
          ← Nat.add_assoc noffH.code.inFileAddr.toNat noffH.code.size.toNat x] at hsame
        by_cases hnext : x + pageSize < noffH.initData.size.toNat
        · rw [if_pos hnext] at hsame
          rw [← hsame]
          exact ih _ (by omega) _ rfl hnext (Or.inr (by omega))
        · have hfar : ¬ (x < noffH.initData.size.toNat ∧ x < pageSize) := by omega
          rw [if_neg hnext, if_neg hfar] at hsame
          exact hsame.symm
    intro x hx hwrong
    rw [h.dataFile]
    exact hdata _ x rfl hx hwrong
  · intro hloadable v _
    by_cases hwrong : pageSize ∣ noffH.code.size.toNat ∧ noffH.code.size.toNat ≤ v ∧
        pageSize < noffH.initData.size.toNat
    · obtain ⟨hfull, hv, hlong⟩ := hwrong
      have hzero := hloadable hfull hlong
      rw [h.dataFile] at hzero
      obtain ⟨x, rfl⟩ := Nat.exists_eq_add_of_le hv
      rw [loaded_data hfull, h.image, ← Nat.add_assoc noffH.code.inFileAddr.toNat noffH.code.size.toNat x]
      by_cases hnext : x + pageSize < noffH.initData.size.toNat
      · rw [if_pos hnext, if_pos (by omega), hzero _ hnext (Or.inr (by omega)),
          hzero x (by omega) (Or.inl hnext)]
      · rw [if_neg hnext]
        by_cases hx : x < noffH.initData.size.toNat
        · rw [if_pos (Nat.add_lt_add_left hx _)]
          by_cases hnear : x < pageSize
          · rw [if_pos ⟨hx, hnear⟩]
          · rw [if_neg fun hin => hnear hin.2, hzero x hx (Or.inr (by omega))]
        · rw [if_neg fun hin => hx hin.1, if_neg (by omega)]
    · rw [loaded_of hwrong, h.image]

end NoffHeader

/-- **The loader.**  For a program as it is linked, and enough memory for it: the constructor returns an
    address space in which every virtual address translates to the byte of the image IFF the program
    is `Loadable`. -/
theorem loader_correct {bigEndian : Bool} {myBitmap : BitMap} {memory stack : Bytes} {file : List UInt8}
    {past : Nat → Int} (hbits : myBitmap.numBits = numPhysPages)
    (hasserts : AddrSpace.asserts myBitmap ((AddrSpace.header bigEndian file stack).toHost bigEndian) = true)
    (hlinked : ((AddrSpace.header bigEndian file stack).toHost bigEndian).Linked file) :
    (∃ b' space memory', AddrSpace.create bigEndian myBitmap memory file stack past
        = some (b', space, memory') ∧
      ∀ v < space.size, ∃ m physAddr, space.restoreState.translate (BitVec.ofNat 32 v) 1 false
          = some (m, .ok physAddr) ∧
        memory' physAddr = ((AddrSpace.header bigEndian file stack).toHost bigEndian).image file v) ↔
      ((AddrSpace.header bigEndian file stack).toHost bigEndian).Loadable file := by
  obtain ⟨b', space, hnew, -⟩ := AddrSpace.new_spec hasserts
  have hframed : space.Framed := .of_new hbits hnew
  have hnum : space.numPages = ((AddrSpace.header bigEndian file stack).toHost bigEndian).numPages :=
    AddrSpace.numPages_of_new hnew
  obtain ⟨memory', hload, hbytes⟩ := hframed.load hnum hlinked past memory
  have hcreate : AddrSpace.create bigEndian myBitmap memory file stack past
      = some (b', space, memory') := by
    exact AddrSpace.create_eq_some.mpr ⟨hnew, hload⟩
  have hfit : space.numPages.toNat ≤ numPhysPages := by
    rw [hnum]
    exact AddrSpace.numPages_le_of_asserts hasserts
  have hsize : ((AddrSpace.header bigEndian file stack).toHost bigEndian).code.size.toNat
      + ((AddrSpace.header bigEndian file stack).toHost bigEndian).initData.size.toNat ≤ space.size := by
    rw [AddrSpace.size, hnum, hlinked.numPages, show pageSize = 128 from rfl]
    omega
  rw [← hlinked.loaded_iff hsize]
  constructor
  · rintro ⟨b₁, space₁, memory₁, hcreate₁, hall⟩ v hv
    rw [hcreate] at hcreate₁
    obtain ⟨rfl, hrest⟩ := Prod.mk.inj (Option.some.inj hcreate₁)
    obtain ⟨rfl, rfl⟩ := Prod.mk.inj hrest
    obtain ⟨m, physAddr, htranslate, hbyte⟩ := hall v hv
    obtain ⟨m₁, htranslate₁⟩ := hframed.translate hfit hv
    rw [htranslate₁] at htranslate
    obtain rfl := Except.ok.inj (Prod.mk.inj (Option.some.inj htranslate)).2
    rw [← hbyte, ← hbytes v hv]
    rfl
  · intro hall
    refine ⟨b', space, memory', hcreate, fun v hv => ?_⟩
    obtain ⟨m, htranslate⟩ := hframed.translate hfit hv
    refine ⟨m, space.physAddr v, htranslate, ?_⟩
    rw [← hall v hv, ← hbytes v hv]
    rfl

/-- A NOFF file: the words of the header behind the magic number, and these bytes behind the header. -/
def noffFile (words : List Nat) (bytes : List UInt8) : List UInt8 :=
  [0xad, 0xdf, 0xba, 0] ++
    (words.flatMap fun n => [UInt8.ofNat n, UInt8.ofNat (n / 256), 0, 0]) ++ bytes

/-- A program as it is linked. -/
def linkedFile (codeSize dataSize : Nat) (bytes : List UInt8) : List UInt8 :=
  noffFile [0, 40, codeSize, codeSize, 40 + codeSize, dataSize, codeSize + dataSize, 0, 0] bytes

/-- 4 bytes of code and 2 bytes of data: it is loaded. -/
theorem loader_correct_small :
    let file := linkedFile 4 2 [12, 0, 0, 0, 5, 6]
    ∃ b' space memory', AddrSpace.create false bootFrames.myBitmap (fun _ => 9) file (fun _ => 0)
        (fun _ => 0) = some (b', space, memory') ∧
      ∀ v < space.size, ∃ m physAddr, space.restoreState.translate (BitVec.ofNat 32 v) 1 false
          = some (m, .ok physAddr) ∧
        memory' physAddr = ((AddrSpace.header false file fun _ => 0).toHost false).image file v := by
  refine (loader_correct ?_ ?_ ?_).mpr ?_
  · decide +kernel
  · decide +kernel
  · refine ⟨?_, ?_, ?_, ?_, ?_, ?_, ?_, ?_, ?_, ?_⟩ <;> decide +kernel
  · intro hfull
    exact absurd hfull (by decide +kernel)

/-- 128 bytes of code, which fill their page, and 129 of data: the first byte of the data is 1, and the
    last, which is 2, is found in its place. -/
theorem loader_skips_page :
    let file := linkedFile 128 129 (List.replicate 128 7 ++ 1 :: List.replicate 128 2)
    let noffH := (AddrSpace.header false file fun _ => 0).toHost false
    noffH.Linked file ∧ AddrSpace.asserts bootFrames.myBitmap noffH = true ∧
      ((AddrSpace.create false bootFrames.myBitmap (fun _ => 9) file (fun _ => 0) fun _ => 0).bind fun r =>
        (r.2.1.restoreState.translate 128#32 1 false).map fun t => t.2.map r.2.2) = some (.ok 2) ∧
      noffH.image file 128 = 1 := by
  refine ⟨⟨?_, ?_, ?_, ?_, ?_, ?_, ?_, ?_, ?_, ?_⟩, ?_, ?_, ?_⟩ <;> decide +kernel

end Nachos
