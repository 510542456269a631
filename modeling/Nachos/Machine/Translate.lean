/-
  `machine/translate.cc`: virtual addresses, and loads and stores through them.

  `Translate` looks a virtual page up in the page table or, if the machine has one, in the TLB, checks
  what can be wrong, sets the use and dirty bits of the entry, and computes the physical address.
  `ReadMem` and `WriteMem` translate and then access main memory with the host's byte order, turning
  values round where the host is big endian.

  1. **An access stays in its page** (`writeMem_spec`) — an address that is a multiple of its size leaves room
     for that size before the end of the page.

  2. **A page table or a TLB** (`translate_safe`) — with any contents `Translate` raises an exception, or finds
     the bytes of the access in the frame of a valid entry.  What it finds depends on `findEntry`, and on the
     entry's frame and read-only bit (`translate_snd`).
-/
import Nachos.Lib.Bytes

namespace Nachos

/-! ## The machine -/

/-- `PageSize`, which is `SectorSize`. -/
def pageSize : Nat := 128

/-- `NumPhysPages` of `machine/machine.h`. -/
def numPhysPages : Nat := 128

/-- `MemorySize`. -/
def memorySize : Nat := numPhysPages * pageSize

/-- `TLBSize`. -/
def tlbSize : Nat := 4

/-- `class TranslationEntry`. -/
structure TranslationEntry where
  virtualPage : Int
  physicalPage : Int
  valid : Bool
  readOnly : Bool
  use : Bool
  dirty : Bool

/-- The values of `ExceptionType` that `Translate` returns, `NoException` apart. -/
inductive ExceptionType where
  | pageFaultException
  | readOnlyException
  | busErrorException
  | addressErrorException
  deriving DecidableEq

/-- `Machine::tlb`, `Machine::pageTable` and `Machine::pageTableSize`; `none` is `NULL`. -/
structure Mmu where
  tlb : Option (List TranslationEntry)
  pageTable : Option (List TranslationEntry)
  pageTableSize : BitVec 32

namespace Mmu

/-- The entry for a virtual page, with its index; `none`: memory is read that is not part of the
    table. -/
def findEntry (m : Mmu) (vpn : Nat) : Option (Except ExceptionType (Nat × TranslationEntry)) :=
  match m.tlb with
  | none =>
    if m.pageTableSize.toNat ≤ vpn then some (.error .addressErrorException)
    else
      match m.pageTable.bind (·[vpn]?) with
      | none => none
      | some entry =>
        if !entry.valid then some (.error .pageFaultException) else some (.ok (vpn, entry))
  | some tlb =>
    let hit (i : Nat) : Option (Nat × TranslationEntry) :=
      tlb[i]?.bind fun entry =>
        if entry.valid && entry.virtualPage == (BitVec.ofNat 32 vpn).toInt then some (i, entry) else none
    match (List.range tlbSize).findSome? hit with
    | none => some (.error .pageFaultException)
    | some found => some (.ok found)

/-- The machine with the entry at an index replaced, in the table that `findEntry` looks at. -/
def setEntry (m : Mmu) (i : Nat) (entry : TranslationEntry) : Mmu :=
  match m.tlb with
  | none => { m with pageTable := m.pageTable.map (·.set i entry) }
  | some tlb => { m with tlb := some (tlb.set i entry) }

/-- The test for alignment errors. -/
def misaligned (virtAddr : BitVec 32) (size : Int) : Bool :=
  (size == 4 && virtAddr &&& 3 != 0) || (size == 2 && virtAddr &&& 1 != 0)

/-- `Machine::Translate`: the physical address or the exception, and the machine with the use and dirty
    bits set; `none`: an `ASSERT` fails. -/
def translate (m : Mmu) (virtAddr : BitVec 32) (size : Int) (writing : Bool) :
    Option (Mmu × Except ExceptionType Nat) :=
  if misaligned virtAddr size then some (m, .error .addressErrorException)
  else if ¬ (m.tlb.isNone ∨ m.pageTable.isNone) then none
  else if ¬ (m.tlb.isSome ∨ m.pageTable.isSome) then none
  else
    let vpn := virtAddr.toNat / pageSize
    let offset := virtAddr.toNat % pageSize
    match m.findEntry vpn with
    | none => none
    | some (.error exception) => some (m, .error exception)
    | some (.ok (i, entry)) =>
      if entry.readOnly && writing then some (m, .error .readOnlyException)
      else
        let pageFrame := (BitVec.ofInt 32 entry.physicalPage).toNat
        if numPhysPages ≤ pageFrame then some (m, .error .busErrorException)
        else
          let m' := m.setEntry i { entry with use := true, dirty := entry.dirty || writing }
          let physAddr := pageFrame * pageSize + offset
          if (physAddr : Int) + size ≤ memorySize then some (m', .ok physAddr) else none

end Mmu

/-! ## Loads and stores -/

/-- `ShortToHost`, on the low half of a word; `bigEndian` is `HOST_IS_BIG_ENDIAN`. -/
def shortToHost (bigEndian : Bool) (shortword : BitVec 32) : BitVec 32 :=
  if bigEndian then ((shortword <<< 8) &&& 0xff00) ||| ((shortword >>> 8) &&& 0x00ff) else shortword

/-- `WordToHost`; `bigEndian` is `HOST_IS_BIG_ENDIAN`. -/
def wordToHost (bigEndian : Bool) (word : BitVec 32) : BitVec 32 :=
  if bigEndian then
    ((word >>> 24) &&& 0x000000ff#32) ||| ((word >>> 8) &&& 0x0000ff00#32) |||
      ((word <<< 8) &&& 0x00ff0000#32) ||| ((word <<< 24) &&& 0xff000000#32)
  else word

/-- Where the host keeps byte number `k` of an `n`-byte number, counted from the lowest. -/
def hostByte (bigEndian : Bool) (n k : Nat) : Nat := if bigEndian then n - 1 - k else k

/-- The `n`-byte number that the host reads at `a`. -/
def loadHost (bigEndian : Bool) (memory : Bytes) (a n : Nat) : BitVec 32 :=
  BitVec.ofNat 32
    ((List.range n).map fun k => (memory (a + hostByte bigEndian n k)).toNat * 256 ^ k).sum

/-- Memory after the host has written an `n`-byte number at `a`. -/
def storeHost (bigEndian : Bool) (memory : Bytes) (a n : Nat) (w : BitVec 32) : Bytes := fun i =>
  if a ≤ i ∧ i < a + n then wordByte w (hostByte bigEndian n (i - a)) else memory i

/-- `Machine::ReadMem`: the value, or the exception that is raised; `none`: an `ASSERT` fails. -/
def readMem (bigEndian : Bool) (memory : Bytes) (m : Mmu) (addr : BitVec 32) (size : Int) :
    Option (Mmu × Except ExceptionType (BitVec 32)) :=
  match m.translate addr size false with
  | none => none
  | some (m', .error exception) => some (m', .error exception)
  | some (m', .ok physicalAddress) =>
    if size = 1 then some (m', .ok ((memory physicalAddress).toBitVec.signExtend 32))
    else if size = 2 then
      some (m', .ok (shortToHost bigEndian (loadHost bigEndian memory physicalAddress 2)))
    else if size = 4 then
      some (m', .ok (wordToHost bigEndian (loadHost bigEndian memory physicalAddress 4)))
    else none

/-- `Machine::WriteMem`: memory afterwards, or the exception that is raised. -/
def writeMem (bigEndian : Bool) (memory : Bytes) (m : Mmu) (addr : BitVec 32) (size : Int)
    (value : BitVec 32) : Option (Mmu × Except ExceptionType Bytes) :=
  match m.translate addr size true with
  | none => none
  | some (m', .error exception) => some (m', .error exception)
  | some (m', .ok physicalAddress) =>
    if size = 1 then some (m', .ok (storeHost bigEndian memory physicalAddress 1 (value &&& 0xff)))
    else if size = 2 then
      some (m', .ok (storeHost bigEndian memory physicalAddress 2
        (shortToHost bigEndian (value &&& 0xffff))))
    else if size = 4 then
      some (m', .ok (storeHost bigEndian memory physicalAddress 4 (wordToHost bigEndian value)))
    else none

section Host

variable {bigEndian : Bool} {memory memory' : Bytes} {a n k i : Nat} {w : BitVec 32}

theorem hostByte_lt (hk : k < n) : hostByte bigEndian n k < n := by
  unfold hostByte
  split
  · omega
  · exact hk

/-- The place of a byte, looked up twice. -/
theorem hostByte_hostByte (hk : k < n) : hostByte bigEndian n (hostByte bigEndian n k) = k := by
  unfold hostByte
  split
  · omega
  · rfl

theorem storeHost_of_outside (h : i < a ∨ a + n ≤ i) : storeHost bigEndian memory a n w i = memory i := by
  have hout : ¬ (a ≤ i ∧ i < a + n) := by omega
  rw [storeHost, if_neg hout]

theorem storeHost_add (hk : k < n) : storeHost bigEndian memory a n w (a + hostByte bigEndian n k) = wordByte w k := by
  have hlt : hostByte bigEndian n k < n := hostByte_lt hk
  have hin : a ≤ a + hostByte bigEndian n k ∧ a + hostByte bigEndian n k < a + n := by omega
  rw [storeHost, if_pos hin, Nat.add_sub_cancel_left, hostByte_hostByte hk]

theorem loadHost_congr (h : ∀ k < n, memory (a + k) = memory' (a + k)) :
    loadHost bigEndian memory a n = loadHost bigEndian memory' a n := by
  have hbytes : ∀ k ∈ List.range n, (memory (a + hostByte bigEndian n k)).toNat * 256 ^ k =
      (memory' (a + hostByte bigEndian n k)).toNat * 256 ^ k := by
    intro k hk
    rw [h _ (hostByte_lt (List.mem_range.mp hk))]
  rw [loadHost, loadHost, List.map_congr_left hbytes]

theorem loadHost_four (bigEndian : Bool) (memory : Bytes) (a : Nat) :
    loadHost bigEndian memory a 4 = getWord (fun k => memory (a + hostByte bigEndian 4 k)) 0 := by
  simp only [loadHost, getWord, show List.range 4 = [0, 1, 2, 3] from rfl, List.map_cons, List.map_nil, List.sum_cons,
    List.sum_nil, pow_zero, pow_one, Nat.one_mul, Nat.add_zero, Nat.zero_add, Nat.add_assoc, Nat.mul_comm]

/-- A word that was stored is loaded. -/
theorem loadHost_storeHost_four : loadHost bigEndian (storeHost bigEndian memory a 4 w) a 4 = w := by
  rw [loadHost_four]
  apply getWord_of_wordByte
  intro k hk
  rw [Nat.zero_add]
  exact storeHost_add hk

end Host

/-! ## What an access touches -/

section Access

variable {m m' : Mmu} {virtAddr : BitVec 32} {size : Int} {writing : Bool}

/-- An access of 1, 2 or 4 bytes that is not misaligned ends before its page does. -/
theorem offset_add_size_le (hsize : size = 1 ∨ size = 2 ∨ size = 4)
    (h : Mmu.misaligned virtAddr size = false) :
    ((virtAddr.toNat % pageSize : Nat) : Int) + size ≤ pageSize := by
  rw [show pageSize = 128 from rfl]
  rcases hsize with rfl | rfl | rfl
  · omega
  · have heven : virtAddr.toNat % 2 = 0 := by
      have hand : virtAddr &&& 1 = 0 := by
        simpa [Mmu.misaligned] using h
      have hnat := congrArg BitVec.toNat hand
      rw [BitVec.toNat_and] at hnat
      exact (Nat.and_two_pow_sub_one_eq_mod virtAddr.toNat 1).symm.trans hnat
    omega
  · have hfour : virtAddr.toNat % 4 = 0 := by
      have hand : virtAddr &&& 3 = 0 := by
        simpa [Mmu.misaligned] using h
      have hnat := congrArg BitVec.toNat hand
      rw [BitVec.toNat_and] at hnat
      exact (Nat.and_two_pow_sub_one_eq_mod virtAddr.toNat 2).symm.trans hnat
    omega

/-- The frame of an entry, as `Translate` computes it. -/
def TranslationEntry.pageFrame (entry : TranslationEntry) : Nat :=
  (BitVec.ofInt 32 entry.physicalPage).toNat

/-- What `Translate` has found when it returns an address. -/
structure Mmu.Hit (m : Mmu) (virtAddr : BitVec 32) (size : Int) (writing : Bool) (m' : Mmu) (physAddr i : Nat)
    (entry : TranslationEntry) : Prop where
  aligned : Mmu.misaligned virtAddr size = false
  found : m.findEntry (virtAddr.toNat / pageSize) = some (.ok (i, entry))
  writable : (entry.readOnly && writing) = false
  frame : entry.pageFrame < numPhysPages
  physAddr : physAddr = entry.pageFrame * pageSize + virtAddr.toNat % pageSize
  bits : m' = m.setEntry i { entry with use := true, dirty := entry.dirty || writing }

/-- **`Translate`** fails and changes nothing, or it finds the address. -/
theorem Mmu.translate_cases {r : Except ExceptionType Nat} (h : m.translate virtAddr size writing = some (m', r)) :
    ((∃ exception, r = .error exception) ∧ m' = m) ∨ ∃ physAddr i entry, r = .ok physAddr ∧
      m.Hit virtAddr size writing m' physAddr i entry := by
  unfold Mmu.translate at h
  split at h
  · obtain ⟨rfl, rfl⟩ := Prod.mk.inj (Option.some.inj h)
    exact Or.inl ⟨⟨_, rfl⟩, rfl⟩
  rename_i haligned
  split at h
  · cases h
  split at h
  · cases h
  simp only at h
  split at h
  · cases h
  · obtain ⟨rfl, rfl⟩ := Prod.mk.inj (Option.some.inj h)
    exact Or.inl ⟨⟨_, rfl⟩, rfl⟩
  rename_i i entry hfind
  split at h
  · obtain ⟨rfl, rfl⟩ := Prod.mk.inj (Option.some.inj h)
    exact Or.inl ⟨⟨_, rfl⟩, rfl⟩
  rename_i hwrite
  split at h
  · obtain ⟨rfl, rfl⟩ := Prod.mk.inj (Option.some.inj h)
    exact Or.inl ⟨⟨_, rfl⟩, rfl⟩
  rename_i hframe
  split at h
  · obtain ⟨rfl, rfl⟩ := Prod.mk.inj (Option.some.inj h)
    exact Or.inr ⟨_, i, entry, rfl, by simpa using haligned, hfind, by simpa using hwrite, Nat.lt_of_not_le hframe,
      rfl, rfl⟩
  · cases h

/-- The entry that is found in a page table. -/
theorem Mmu.findEntry_pageTable {vpn i : Nat} {entry : TranslationEntry} (htlb : m.tlb = none)
    (h : m.findEntry vpn = some (.ok (i, entry))) :
    ∃ table, m.pageTable = some table ∧ vpn < m.pageTableSize.toNat ∧ i = vpn ∧ table[vpn]? = some entry ∧
      entry.valid = true := by
  simp only [Mmu.findEntry, htlb] at h
  split at h
  · cases h
  rename_i hinside
  split at h
  · cases h
  rename_i entry' hentry
  split at h
  · cases h
  rename_i hvalid
  obtain ⟨rfl, rfl⟩ := Prod.mk.inj (Except.ok.inj (Option.some.inj h))
  obtain ⟨table, htable, hfound⟩ := Option.bind_eq_some_iff.mp hentry
  exact ⟨table, htable, Nat.lt_of_not_le hinside, rfl, hfound, by simpa using hvalid⟩

/-- Entry `i` of the TLB, if it is for the page. -/
def Mmu.tlbHit (tlb : List TranslationEntry) (vpn i : Nat) : Option (Nat × TranslationEntry) :=
  tlb[i]?.bind fun entry =>
    if entry.valid && entry.virtualPage == (BitVec.ofNat 32 vpn).toInt then some (i, entry) else none

/-- The search of the TLB. -/
theorem Mmu.findEntry_eq_tlb {tlb : List TranslationEntry} (htlb : m.tlb = some tlb) (vpn : Nat) :
    m.findEntry vpn =
      some (((List.range tlbSize).findSome? (Mmu.tlbHit tlb vpn)).elim (.error .pageFaultException) .ok) := by
  simp only [Mmu.findEntry, htlb]
  change (match (List.range tlbSize).findSome? (Mmu.tlbHit tlb vpn) with
    | none => some (Except.error ExceptionType.pageFaultException)
    | some found => some (Except.ok found)) = _
  cases (List.range tlbSize).findSome? (Mmu.tlbHit tlb vpn) with
  | none => rfl
  | some found => rfl

theorem Mmu.tlbHit_eq_some {tlb : List TranslationEntry} {vpn i : Nat} {found : Nat × TranslationEntry} :
    Mmu.tlbHit tlb vpn i = some found ↔ found.1 = i ∧ tlb[i]? = some found.2 ∧ found.2.valid = true ∧
      found.2.virtualPage = (BitVec.ofNat 32 vpn).toInt := by
  obtain ⟨j, entry⟩ := found
  rw [Mmu.tlbHit]
  cases tlb[i]? with
  | none => simp
  | some entry' =>
    simp only [Option.bind_some, Option.ite_none_right_eq_some, Bool.and_eq_true, beq_iff_eq, Option.some.injEq,
      Prod.mk.injEq]
    constructor
    · rintro ⟨⟨hvalid, hpage⟩, rfl, rfl⟩
      exact ⟨rfl, rfl, hvalid, hpage⟩
    · rintro ⟨rfl, rfl, hvalid, hpage⟩
      exact ⟨⟨hvalid, hpage⟩, rfl, rfl⟩

/-- The entry that is found in a TLB. -/
theorem Mmu.findEntry_tlb {tlb : List TranslationEntry} {vpn i : Nat} {entry : TranslationEntry}
    (htlb : m.tlb = some tlb) (h : m.findEntry vpn = some (.ok (i, entry))) :
    tlb[i]? = some entry ∧ entry.valid = true ∧ entry.virtualPage = (BitVec.ofNat 32 vpn).toInt := by
  rw [Mmu.findEntry_eq_tlb htlb] at h
  cases hfound : (List.range tlbSize).findSome? (Mmu.tlbHit tlb vpn) with
  | none =>
    rw [hfound] at h
    cases h
  | some found =>
    rw [hfound] at h
    obtain rfl := Except.ok.inj (Option.some.inj h)
    obtain ⟨j, -, hhit⟩ := List.exists_of_findSome?_eq_some hfound
    obtain ⟨rfl, hentry⟩ := Mmu.tlbHit_eq_some.mp hhit
    exact hentry

/-- What `Translate` has found in the page table when it returns an address. -/
structure Mmu.Translated (m : Mmu) (virtAddr : BitVec 32) (size : Int) (writing : Bool) (m' : Mmu)
    (physAddr : Nat) (table : List TranslationEntry) (entry : TranslationEntry) : Prop where
  aligned : Mmu.misaligned virtAddr size = false
  pageTable : m.pageTable = some table
  inside : virtAddr.toNat / pageSize < m.pageTableSize.toNat
  found : table[virtAddr.toNat / pageSize]? = some entry
  valid : entry.valid = true
  frame : entry.pageFrame < numPhysPages
  physAddr : physAddr = entry.pageFrame * pageSize + virtAddr.toNat % pageSize
  bits : m' = m.setEntry (virtAddr.toNat / pageSize)
    { entry with use := true, dirty := entry.dirty || writing }

/-- **`Translate` through a page table.**  It fails and changes nothing, or it finds the address. -/
theorem Mmu.translate_spec {r : Except ExceptionType Nat} (htlb : m.tlb = none)
    (h : m.translate virtAddr size writing = some (m', r)) :
    ((∃ exception, r = .error exception) ∧ m' = m) ∨ ∃ physAddr table entry, r = .ok physAddr ∧
      m.Translated virtAddr size writing m' physAddr table entry := by
  rcases Mmu.translate_cases h with herror | ⟨physAddr, i, entry, hok, hit⟩
  · exact Or.inl herror
  · obtain ⟨table, htable, hinside, rfl, hfound, hvalid⟩ := Mmu.findEntry_pageTable htlb hit.found
    exact Or.inr ⟨physAddr, table, entry, hok, hit.aligned, htable, hinside, hfound, hvalid, hit.frame, hit.physAddr,
      hit.bits⟩

/-- **A store stays in its page.**  `WriteMem` raises an exception and changes nothing, or it changes
    bytes of the one frame that the page table gives for the address. -/
theorem writeMem_spec {bigEndian : Bool} {memory : Bytes} {value : BitVec 32}
    {r : Except ExceptionType Bytes} (htlb : m.tlb = none)
    (h : writeMem bigEndian memory m virtAddr size value = some (m', r)) :
    ((∃ exception, r = .error exception) ∧ m' = m) ∨ ∃ memory' physAddr table entry, r = .ok memory' ∧
      m.Translated virtAddr size true m' physAddr table entry ∧
      ∀ a, a / pageSize ≠ entry.pageFrame → memory' a = memory a := by
  unfold writeMem at h
  split at h
  · cases h
  · rename_i m₁ exception htranslate
    obtain ⟨rfl, rfl⟩ := Prod.mk.inj (Option.some.inj h)
    rcases Mmu.translate_spec htlb htranslate with ⟨-, hsame⟩ | ⟨_, _, _, hok, -⟩
    · exact Or.inl ⟨⟨_, rfl⟩, hsame⟩
    · cases hok
  · rename_i m₁ physicalAddress htranslate
    rcases Mmu.translate_spec htlb htranslate with ⟨⟨_, herror⟩, -⟩ | ⟨physAddr, table, entry, hok, htr⟩
    · cases herror
    obtain rfl := Except.ok.inj hok
    -- the bytes written are in the frame
    have hstays : ∀ n : Nat, size = n → (size = 1 ∨ size = 2 ∨ size = 4) → ∀ w a,
        a / pageSize ≠ entry.pageFrame →
        storeHost bigEndian memory physicalAddress n w a = memory a := by
      intro n hn hsize w a ha
      have hend := offset_add_size_le hsize htr.aligned
      have haddr := htr.physAddr
      have hpage : pageSize = 128 := rfl
      refine storeHost_of_outside ?_
      rw [hpage] at ha hend haddr
      omega
    split at h
    · rename_i hsize
      obtain ⟨rfl, rfl⟩ := Prod.mk.inj (Option.some.inj h)
      exact Or.inr ⟨_, _, table, entry, rfl, htr, hstays 1 hsize (Or.inl hsize) _⟩
    split at h
    · rename_i hsize
      obtain ⟨rfl, rfl⟩ := Prod.mk.inj (Option.some.inj h)
      exact Or.inr ⟨_, _, table, entry, rfl, htr, hstays 2 hsize (Or.inr (Or.inl hsize)) _⟩
    split at h
    · rename_i hsize
      obtain ⟨rfl, rfl⟩ := Prod.mk.inj (Option.some.inj h)
      exact Or.inr ⟨_, _, table, entry, rfl, htr, hstays 4 hsize (Or.inr (Or.inr hsize)) _⟩
    · cases h

/-- `ReadMem` does what `Translate` does. -/
theorem readMem_spec {bigEndian : Bool} {memory : Bytes} {r : Except ExceptionType (BitVec 32)}
    (htlb : m.tlb = none) (h : readMem bigEndian memory m virtAddr size = some (m', r)) :
    m' = m ∨ ∃ physAddr table entry, m.Translated virtAddr size false m' physAddr table entry := by
  unfold readMem at h
  split at h
  · cases h
  · rename_i m₁ exception htranslate
    obtain ⟨rfl, -⟩ := Prod.mk.inj (Option.some.inj h)
    rcases Mmu.translate_spec htlb htranslate with ⟨-, hsame⟩ | ⟨_, _, _, hok, -⟩
    · exact Or.inl hsame
    · cases hok
  · rename_i m₁ physicalAddress htranslate
    rcases Mmu.translate_spec htlb htranslate with ⟨⟨_, herror⟩, -⟩ | ⟨physAddr, table, entry, hok, htr⟩
    · cases herror
    refine Or.inr ⟨physAddr, table, entry, ?_⟩
    split at h
    · obtain ⟨rfl, -⟩ := Prod.mk.inj (Option.some.inj h)
      exact htr
    split at h
    · obtain ⟨rfl, -⟩ := Prod.mk.inj (Option.some.inj h)
      exact htr
    split at h
    · obtain ⟨rfl, -⟩ := Prod.mk.inj (Option.some.inj h)
      exact htr
    · cases h

end Access

/-! ## A page table or a TLB -/

/-- What `Translate` does once it has the entry: only the frame and the read-only bit count. -/
def TranslationEntry.reach (entry : TranslationEntry) (offset : Nat) (size : Int) (writing : Bool) :
    Option (Except ExceptionType Nat) :=
  if entry.readOnly && writing then some (.error .readOnlyException)
  else if numPhysPages ≤ entry.pageFrame then some (.error .busErrorException)
  else
    let physAddr := entry.pageFrame * pageSize + offset
    if (physAddr : Int) + size ≤ memorySize then some (.ok physAddr) else none

namespace Mmu

/-- **Exactly one** of `tlb` and `pageTable` is set, and the page table has the entries that `pageTableSize` says. -/
structure OneTable (m : Mmu) : Prop where
  one : m.tlb.isSome = !m.pageTable.isSome
  size : ∀ table, m.pageTable = some table → m.pageTableSize.toNat ≤ table.length

/-- The table that `Translate` looks at. -/
def entries (m : Mmu) : List TranslationEntry :=
  match m.tlb with
  | none => m.pageTable.getD []
  | some tlb => tlb

section Schemes

variable {m m' : Mmu} {virtAddr : BitVec 32} {size : Int} {writing : Bool} {vpn i : Nat} {entry : TranslationEntry}

theorem translate_misaligned (h : misaligned virtAddr size = true) :
    m.translate virtAddr size writing = some (m, .error .addressErrorException) := by
  rw [translate, if_pos h]

/-- **The result of `Translate`**, without the bits that it sets: what the entry says, if there is one. -/
theorem translate_snd (hone : m.tlb.isSome = !m.pageTable.isSome) (haligned : misaligned virtAddr size = false)
    (writing : Bool) :
    (m.translate virtAddr size writing).map Prod.snd = (m.findEntry (virtAddr.toNat / pageSize)).bind fun found =>
      match found with
      | .error exception => some (.error exception)
      | .ok (_, entry) => entry.reach (virtAddr.toNat % pageSize) size writing := by
  have hnot : m.tlb.isNone = true ∨ m.pageTable.isNone = true := by
    cases htlb : m.tlb <;> cases hpt : m.pageTable <;> simp_all
  have hsome : m.tlb.isSome = true ∨ m.pageTable.isSome = true := by
    cases htlb : m.tlb <;> cases hpt : m.pageTable <;> simp_all
  simp only [translate, haligned, hnot, hsome, not_true, Bool.false_eq_true, if_false]
  cases hfind : m.findEntry (virtAddr.toNat / pageSize) with
  | none => rfl
  | some found =>
    cases found with
    | error exception => rfl
    | ok hit =>
      obtain ⟨i, entry⟩ := hit
      simp only [Option.bind_some, TranslationEntry.reach]
      split
      · rfl
      · change Option.map Prod.snd (if numPhysPages ≤ entry.pageFrame then _ else _) = _
        split
        · rfl
        · change Option.map Prod.snd (if (((entry.pageFrame * pageSize + virtAddr.toNat % pageSize : Nat) : Int) + size
            ≤ memorySize) then _ else _) = _
          split
          · rfl
          · rfl

/-- An entry that is found is in the table, and valid. -/
theorem entries_of_found (h : m.findEntry vpn = some (.ok (i, entry))) :
    m.entries[i]? = some entry ∧ entry.valid = true := by
  cases htlb : m.tlb with
  | none =>
    obtain ⟨table, htable, -, rfl, hfound, hvalid⟩ := findEntry_pageTable htlb h
    refine ⟨?_, hvalid⟩
    simp only [entries, htlb, htable, Option.getD_some]
    exact hfound
  | some tlb =>
    obtain ⟨hfound, hvalid, -⟩ := findEntry_tlb htlb h
    refine ⟨?_, hvalid⟩
    simp only [entries, htlb]
    exact hfound

theorem OneTable.findEntry_ne_none (hm : m.OneTable) : m.findEntry vpn ≠ none := by
  intro h
  cases htlb : m.tlb with
  | none =>
    obtain ⟨table, htable⟩ : ∃ table, m.pageTable = some table := by
      rw [← Option.isSome_iff_exists]
      have hone := hm.one
      rw [htlb] at hone
      simpa using hone.symm
    simp only [findEntry, htlb, htable, Option.bind_some] at h
    split at h
    · cases h
    rename_i hin
    have hlen := hm.size table htable
    rw [List.getElem?_eq_getElem (by omega)] at h
    dsimp only at h
    split at h
    · cases h
    · cases h
  | some tlb =>
    rw [findEntry_eq_tlb htlb] at h
    cases h

/-- The last `ASSERT` of `Translate` holds: the bytes are in the frame, and the frame is in memory. -/
theorem reach_ne_none {offset : Nat} (h : (offset : Int) + size ≤ pageSize) : entry.reach offset size writing ≠ none := by
  intro hnone
  unfold TranslationEntry.reach at hnone
  split at hnone
  · cases hnone
  split at hnone
  · cases hnone
  rename_i hframe
  dsimp only at hnone
  split at hnone
  · cases hnone
  · rename_i hmem
    apply hmem
    rw [show memorySize = 128 * 128 from rfl, show pageSize = 128 from rfl]
    rw [show pageSize = 128 from rfl] at h
    rw [show numPhysPages = 128 from rfl] at hframe
    omega

/-- **`Translate` returns**: none of its `ASSERT`s fails. -/
theorem OneTable.translate_ne_none (hm : m.OneTable) (hsize : size = 1 ∨ size = 2 ∨ size = 4) (virtAddr : BitVec 32)
    (writing : Bool) :
    ∃ m' r, m.translate virtAddr size writing = some (m', r) := by
  by_cases haligned : misaligned virtAddr size = true
  · exact ⟨_, _, translate_misaligned haligned⟩
  · rw [Bool.not_eq_true] at haligned
    have hsnd := translate_snd hm.one haligned writing
    cases htr : m.translate virtAddr size writing with
    | some found => exact ⟨found.1, found.2, rfl⟩
    | none =>
      rw [htr] at hsnd
      cases hfind : m.findEntry (virtAddr.toNat / pageSize) with
      | none => exact absurd hfind hm.findEntry_ne_none
      | some found =>
        rw [hfind] at hsnd
        cases found with
        | error exception => cases hsnd
        | ok hit =>
          exact absurd hsnd.symm (reach_ne_none (offset_add_size_le hsize haligned))

theorem one_setEntry (hone : m.tlb.isSome = !m.pageTable.isSome) (i : Nat) (entry : TranslationEntry) :
    (m.setEntry i entry).tlb.isSome = !(m.setEntry i entry).pageTable.isSome := by
  unfold setEntry
  split
  · rename_i htlb
    rw [htlb] at hone
    simp only [htlb, Option.isSome_map]
    exact hone
  · rename_i tlb htlb
    rw [htlb] at hone
    exact hone

theorem OneTable.setEntry (hm : m.OneTable) (i : Nat) (entry : TranslationEntry) : (m.setEntry i entry).OneTable := by
  refine ⟨one_setEntry hm.one i entry, ?_⟩
  intro table htable
  cases htlb : m.tlb with
  | none =>
    simp only [Mmu.setEntry, htlb] at htable ⊢
    obtain ⟨old, hold, rfl⟩ := Option.map_eq_some_iff.mp htable
    rw [List.length_set]
    exact hm.size old hold
  | some tlb =>
    simp only [Mmu.setEntry, htlb] at htable ⊢
    exact hm.size table htable

/-- `Translate` leaves the tables in order. -/
theorem OneTable.translate (hm : m.OneTable) {r : Except ExceptionType Nat}
    (h : m.translate virtAddr size writing = some (m', r)) : m'.OneTable := by
  rcases translate_cases h with ⟨-, rfl⟩ | ⟨physAddr, i, entry, -, hit⟩
  · exact hm
  · rw [hit.bits]
    exact hm.setEntry i _

/-- **`ReadMem` returns**, and leaves the tables in order. -/
theorem OneTable.readMem (hm : m.OneTable) (hsize : size = 1 ∨ size = 2 ∨ size = 4) (bigEndian : Bool) (memory : Bytes)
    (addr : BitVec 32) : ∃ m' r, Nachos.readMem bigEndian memory m addr size = some (m', r) ∧ m'.OneTable := by
  obtain ⟨m', r, htr⟩ := hm.translate_ne_none hsize addr false
  rw [Nachos.readMem, htr]
  cases r with
  | error exception => exact ⟨m', _, rfl, hm.translate htr⟩
  | ok physAddr =>
    rcases hsize with rfl | rfl | rfl
    · exact ⟨m', _, rfl, hm.translate htr⟩
    · exact ⟨m', _, rfl, hm.translate htr⟩
    · exact ⟨m', _, rfl, hm.translate htr⟩

/-- **`WriteMem` returns**, and leaves the tables in order. -/
theorem OneTable.writeMem (hm : m.OneTable) (hsize : size = 1 ∨ size = 2 ∨ size = 4) (bigEndian : Bool) (memory : Bytes)
    (addr value : BitVec 32) : ∃ m' r, Nachos.writeMem bigEndian memory m addr size value = some (m', r) ∧ m'.OneTable := by
  obtain ⟨m', r, htr⟩ := hm.translate_ne_none hsize addr true
  rw [Nachos.writeMem, htr]
  cases r with
  | error exception => exact ⟨m', _, rfl, hm.translate htr⟩
  | ok physAddr =>
    rcases hsize with rfl | rfl | rfl
    · exact ⟨m', _, rfl, hm.translate htr⟩
    · exact ⟨m', _, rfl, hm.translate htr⟩
    · exact ⟨m', _, rfl, hm.translate htr⟩

end Schemes

/-- **TRANSLATE IS SAFE**, through a page table or a TLB with any contents: it returns an exception and has changed
    nothing; or it returns an address, all bytes are in main memory and in the frame of one entry, and that entry is
    valid and allows the access. -/
theorem translate_safe (m : Mmu) (hm : m.OneTable) (virtAddr : BitVec 32) (size : Int)
    (hsize : size = 1 ∨ size = 2 ∨ size = 4) (writing : Bool) :
    (∃ exception, m.translate virtAddr size writing = some (m, .error exception)) ∨
      ∃ m' physAddr i entry, m.translate virtAddr size writing = some (m', .ok physAddr) ∧
        m.entries[i]? = some entry ∧ entry.valid = true ∧ (writing = true → entry.readOnly = false) ∧
        entry.pageFrame * pageSize ≤ physAddr ∧ (physAddr : Int) + size ≤ (entry.pageFrame + 1 : Nat) * pageSize ∧
        (physAddr : Int) + size ≤ memorySize ∧
        m' = m.setEntry i { entry with use := true, dirty := entry.dirty || writing } := by
  obtain ⟨m', r, htr⟩ := hm.translate_ne_none hsize virtAddr writing
  rcases translate_cases htr with ⟨⟨exception, rfl⟩, rfl⟩ | ⟨physAddr, i, entry, rfl, hit⟩
  · exact Or.inl ⟨exception, htr⟩
  · right
    obtain ⟨hentry, hvalid⟩ := entries_of_found hit.found
    refine ⟨m', physAddr, i, entry, htr, hentry, hvalid, ?_, ?_, ?_, ?_, hit.bits⟩
    · intro hw
      have hwrite := hit.writable
      rw [hw, Bool.and_true] at hwrite
      exact hwrite
    · rw [hit.physAddr]
      exact Nat.le_add_right _ _
    · have hend := offset_add_size_le hsize hit.aligned
      have haddr := hit.physAddr
      rw [show pageSize = 128 from rfl] at hend haddr ⊢
      omega
    · have hend := offset_add_size_le hsize hit.aligned
      have haddr := hit.physAddr
      have hframe := hit.frame
      rw [show pageSize = 128 from rfl] at hend haddr
      rw [show numPhysPages = 128 from rfl] at hframe
      rw [show memorySize = 128 * 128 from rfl]
      omega

/-- A TLB whose entry for page 5 names frame 3. -/
def frameThree : Mmu :=
  { tlb := some [⟨0, 0, false, false, false, false⟩, ⟨5, 3, true, false, false, false⟩,
      ⟨0, 0, false, false, false, false⟩, ⟨0, 0, false, false, false, false⟩]
    pageTable := none
    pageTableSize := 0 }

theorem frameThree_oneTable : frameThree.OneTable := by
  refine ⟨rfl, ?_⟩
  intro table htable
  cases htable

/-- A store to address 4 of that page. -/
theorem translate_safe_tlb :
    frameThree.OneTable ∧
      ((∃ exception, frameThree.translate 644 4 true = some (frameThree, .error exception)) ∨
        ∃ m' physAddr i entry, frameThree.translate 644 4 true = some (m', .ok physAddr) ∧
          frameThree.entries[i]? = some entry ∧ entry.valid = true ∧ (true = true → entry.readOnly = false) ∧
          entry.pageFrame * pageSize ≤ physAddr ∧ (physAddr : Int) + 4 ≤ (entry.pageFrame + 1 : Nat) * pageSize ∧
          (physAddr : Int) + 4 ≤ memorySize ∧
          m' = frameThree.setEntry i { entry with use := true, dirty := entry.dirty || true }) ∧
      (frameThree.translate 644 4 true).map Prod.snd = some (.ok 388) :=
  ⟨frameThree_oneTable, translate_safe frameThree frameThree_oneTable 644 4 (by decide) true, rfl⟩

end Mmu

end Nachos
