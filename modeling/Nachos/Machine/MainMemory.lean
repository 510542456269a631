/-
  `machine/translate.cc` — USER MEMORY IS MEMORY: what `WriteMem` stores, `ReadMem` finds, and nothing else changes.

  An address goes through the page table, and a value of two or four bytes is stored in the order of the host's
  bytes, turned round where that is big endian.

  1. **The bits that an access sets** (`translate_setEntry`) — `Translate` sets the use and dirty bits of an entry, but
     never looks at them: the next access finds what it would have found before.

  2. **The bytes of a value** (`low_loadValue`) — loaded in the order in which they are stored, the low bits are those
     of the value, on both kinds of hosts.

  3. **The frames** (`DistinctFrames.apart`) — two pages have different frames, so two ranges of virtual addresses that
     have no byte in common have none in common in main memory either.

  Together (`write_then_read`).
-/
import Mathlib.Tactic.IntervalCases
import Nachos.Machine.Mipssim
import Nachos.Machine.Tlb

namespace Nachos

/-! ## The bits that an access sets -/

/-- The entry without its use and dirty bits. -/
def TranslationEntry.clean (entry : TranslationEntry) : TranslationEntry := { entry with use := false, dirty := false }

namespace Mmu

/-- The tables without use and dirty bits. -/
def clean (m : Mmu) : Mmu :=
  { m with
    tlb := m.tlb.map (·.map TranslationEntry.clean)
    pageTable := m.pageTable.map (·.map TranslationEntry.clean) }

section Clean

variable {m m' : Mmu} {vpn i : Nat} {entry : TranslationEntry}

/-- The search does not look at the bits. -/
theorem findEntry_clean (m : Mmu) (vpn : Nat) :
    m.clean.findEntry vpn = (m.findEntry vpn).map (Except.map fun found => (found.1, found.2.clean)) := by
  cases htlb : m.tlb with
  | none =>
    simp only [findEntry, clean, htlb, Option.map_none]
    split
    · rfl
    · cases hpt : m.pageTable with
      | none => rfl
      | some table =>
        simp only [Option.map_some, Option.bind_some, List.getElem?_map]
        cases table[vpn]? with
        | none => rfl
        | some entry =>
          simp only [Option.map_some, TranslationEntry.clean]
          split
          · rfl
          · rfl
  | some tlb =>
    have hhit : ∀ i, tlbHit (tlb.map TranslationEntry.clean) vpn i =
        (tlbHit tlb vpn i).map fun found => (found.1, found.2.clean) := by
      intro i
      rw [tlbHit, tlbHit, List.getElem?_map]
      cases tlb[i]? with
      | none => rfl
      | some entry =>
        simp only [Option.map_some, Option.bind_some, TranslationEntry.clean]
        split
        · rfl
        · rfl
    have hclean : m.clean.tlb = some (tlb.map TranslationEntry.clean) := by
      simp only [clean, htlb, Option.map_some]
    have hfind : (List.range tlbSize).findSome? (tlbHit (tlb.map TranslationEntry.clean) vpn) =
        ((List.range tlbSize).findSome? (tlbHit tlb vpn)).map fun found => (found.1, found.2.clean) := by
      rw [funext hhit, List.map_findSome?]
      rfl
    rw [findEntry_eq_tlb htlb, findEntry_eq_tlb hclean, hfind]
    cases (List.range tlbSize).findSome? (tlbHit tlb vpn) with
    | none => rfl
    | some found => rfl

theorem set_clean {table : List TranslationEntry} (h : table[i]? = some entry) (use dirty : Bool) :
    (table.set i { entry with use := use, dirty := dirty }).map TranslationEntry.clean =
      table.map TranslationEntry.clean := by
  obtain ⟨hi, hget⟩ := List.getElem?_eq_some_iff.mp h
  have hi' : i < (table.map TranslationEntry.clean).length := by
    rw [List.length_map]
    exact hi
  have hsame : ({ entry with use := use, dirty := dirty } : TranslationEntry).clean =
      (table.map TranslationEntry.clean)[i] := by
    rw [List.getElem_map, hget]
    rfl
  rw [List.map_set, hsame]
  exact List.set_getElem_self hi'

/-- Setting the bits of the entry that was found changes nothing else. -/
theorem clean_setEntry (h : m.findEntry vpn = some (.ok (i, entry))) (use dirty : Bool) :
    (m.setEntry i { entry with use := use, dirty := dirty }).clean = m.clean := by
  have hentry := (entries_of_found h).1
  cases htlb : m.tlb with
  | none =>
    obtain ⟨table, htable, -⟩ := findEntry_pageTable htlb h
    simp only [entries, htlb, htable, Option.getD_some] at hentry
    simp only [setEntry, clean, htlb, htable, Option.map_some]
    rw [set_clean hentry]
  | some tlb =>
    simp only [entries, htlb] at hentry
    simp only [setEntry, clean, htlb, Option.map_some]
    rw [set_clean hentry]

theorem translate_clean (hone : m.tlb.isSome = !m.pageTable.isSome) (virtAddr : BitVec 32) (size : Int) (writing : Bool) :
    (m.clean.translate virtAddr size writing).map Prod.snd = (m.translate virtAddr size writing).map Prod.snd := by
  by_cases haligned : misaligned virtAddr size = true
  · rw [translate_misaligned haligned, translate_misaligned haligned]
    rfl
  · rw [Bool.not_eq_true] at haligned
    have hone' : m.clean.tlb.isSome = !m.clean.pageTable.isSome := by
      simp only [clean, Option.isSome_map]
      exact hone
    rw [translate_snd hone haligned, translate_snd hone' haligned, findEntry_clean]
    cases m.findEntry (virtAddr.toNat / pageSize) with
    | none => rfl
    | some found =>
      cases found with
      | error exception => rfl
      | ok hit => exact reach_congr rfl rfl _ _ _

/-- **An access finds the same** after the bits of an entry have been set. -/
theorem translate_setEntry (hone : m.tlb.isSome = !m.pageTable.isSome) (h : m.findEntry vpn = some (.ok (i, entry)))
    (use dirty : Bool) (virtAddr : BitVec 32) (size : Int) (writing : Bool) :
    ((m.setEntry i { entry with use := use, dirty := dirty }).translate virtAddr size writing).map Prod.snd =
      (m.translate virtAddr size writing).map Prod.snd := by
  rw [← translate_clean (one_setEntry hone i _), clean_setEntry h, translate_clean hone]

end Clean

end Mmu

/-! ## The bytes of a value -/

section Host

variable {bigEndian : Bool} {memory memory' : Bytes} {a n k i : Nat} {w : BitVec 32}

/-- The bytes of a half word, the other way round. -/
theorem getLsbD_shortToHost (hi : i < 16) : (shortToHost true w).getLsbD i = w.getLsbD (8 - 8 * (i / 8) + i % 8) := by
  simp only [shortToHost, if_true, BitVec.getLsbD_or, BitVec.getLsbD_and, BitVec.getLsbD_shiftLeft,
    BitVec.getLsbD_ushiftRight]
  interval_cases i <;> simp

/-- The bytes of a word, the other way round. -/
theorem getLsbD_wordToHost (hi : i < 32) : (wordToHost true w).getLsbD i = w.getLsbD (24 - 8 * (i / 8) + i % 8) := by
  simp only [wordToHost, if_true, BitVec.getLsbD_or, BitVec.getLsbD_and, BitVec.getLsbD_shiftLeft,
    BitVec.getLsbD_ushiftRight]
  interval_cases i <;> simp

theorem loadHost_two (bigEndian : Bool) (memory : Bytes) (a : Nat) :
    loadHost bigEndian memory a 2 = BitVec.ofNat 32 ((memory (a + hostByte bigEndian 2 0)).toNat +
      256 * (memory (a + hostByte bigEndian 2 1)).toNat) := by
  simp only [loadHost, show List.range 2 = [0, 1] from rfl, List.map_cons, List.map_nil, List.sum_cons, List.sum_nil,
    pow_zero, pow_one, Nat.one_mul, Nat.add_zero, Nat.mul_comm]

/-- A half word that was stored is loaded. -/
theorem loadHost_storeHost_two :
    (loadHost bigEndian (storeHost bigEndian memory a 2 w) a 2).toNat = w.toNat % 2 ^ 16 := by
  rw [loadHost_two, storeHost_add (by decide), storeHost_add (by decide), BitVec.toNat_ofNat, toNat_wordByte,
    toNat_wordByte]
  omega

/-- The value that `ReadMem` makes of the bytes at a physical address. -/
def loadValue (bigEndian : Bool) (memory : Bytes) (physAddr : Nat) (size : Int) : Option (BitVec 32) :=
  if size = 1 then some ((memory physAddr).toBitVec.signExtend 32)
  else if size = 2 then some (shortToHost bigEndian (loadHost bigEndian memory physAddr 2))
  else if size = 4 then some (wordToHost bigEndian (loadHost bigEndian memory physAddr 4))
  else none

/-- Memory after `WriteMem` has stored a value at a physical address. -/
def storeValue (bigEndian : Bool) (memory : Bytes) (physAddr : Nat) (size : Int) (value : BitVec 32) : Option Bytes :=
  if size = 1 then some (storeHost bigEndian memory physAddr 1 (value &&& 0xff))
  else if size = 2 then some (storeHost bigEndian memory physAddr 2 (shortToHost bigEndian (value &&& 0xffff)))
  else if size = 4 then some (storeHost bigEndian memory physAddr 4 (wordToHost bigEndian value))
  else none

theorem getLsbD_low_byte {value : BitVec 32} (hk : k < 8) :
    ((storeHost bigEndian memory a 1 (value &&& 0xff) a).toBitVec.signExtend 32).getLsbD k = value.getLsbD k := by
  have hbyte : storeHost bigEndian memory a 1 (value &&& 0xff) a = wordByte (value &&& 0xff) 0 := by
    have hzero : hostByte bigEndian 1 0 = 0 := by
      unfold hostByte
      split
      · rfl
      · rfl
    have hadd : storeHost bigEndian memory a 1 (value &&& 0xff) (a + hostByte bigEndian 1 0) = _ :=
      storeHost_add (by decide)
    rw [hzero] at hadd
    exact hadd
  have hmask : (value &&& 0xff).getLsbD k = value.getLsbD k := by
    interval_cases k <;> simp
  rw [hbyte, BitVec.getLsbD_signExtend, if_pos hk, decide_eq_true (show k < 32 by omega), Bool.true_and,
    ← BitVec.testBit_toNat, UInt8.toNat_toBitVec, toNat_wordByte, pow_zero, Nat.div_one, show 256 = 2 ^ 8 from rfl,
    Nat.testBit_mod_two_pow, decide_eq_true hk, Bool.true_and, BitVec.testBit_toNat, hmask]

theorem getLsbD_low_short {value : BitVec 32} (hk : k < 16) :
    (shortToHost bigEndian (loadHost bigEndian (storeHost bigEndian memory a 2
      (shortToHost bigEndian (value &&& 0xffff))) a 2)).getLsbD k = value.getLsbD k := by
  -- below bit 16 the loaded half word is the stored one
  have hload : ∀ w : BitVec 32, ∀ j < 16,
      (loadHost bigEndian (storeHost bigEndian memory a 2 w) a 2).getLsbD j = w.getLsbD j := by
    intro w j hj
    rw [← BitVec.testBit_toNat, loadHost_storeHost_two, Nat.testBit_mod_two_pow, BitVec.testBit_toNat]
    simp [hj]
  have hmask : (value &&& 0xffff).getLsbD k = value.getLsbD k := by
    interval_cases k <;> simp
  cases bigEndian with
  | false => exact (hload _ k hk).trans hmask
  | true =>
    have hback : 8 - 8 * ((8 - 8 * (k / 8) + k % 8) / 8) + (8 - 8 * (k / 8) + k % 8) % 8 = k := by omega
    rw [getLsbD_shortToHost hk, hload _ _ (by omega), getLsbD_shortToHost (by omega), hback, hmask]

theorem wordToHost_wordToHost (bigEndian : Bool) (w : BitVec 32) : wordToHost bigEndian (wordToHost bigEndian w) = w := by
  cases bigEndian with
  | false => rfl
  | true =>
    apply BitVec.eq_of_getLsbD_eq
    intro k hk
    have hback : 24 - 8 * ((24 - 8 * (k / 8) + k % 8) / 8) + (24 - 8 * (k / 8) + k % 8) % 8 = k := by omega
    rw [getLsbD_wordToHost hk, getLsbD_wordToHost (by omega), hback]

/-- **A load after a store**, at the same place and of the same size: the low bits are those of the value. -/
theorem low_loadValue {size : Int} {value : BitVec 32} (h : storeValue bigEndian memory a size value = some memory') :
    ∃ value', loadValue bigEndian memory' a size = some value' ∧
      ∀ k : Nat, (k : Int) < 8 * size → value'.getLsbD k = value.getLsbD k := by
  unfold storeValue at h
  split at h
  · rename_i hsize
    subst hsize
    cases h
    refine ⟨_, rfl, ?_⟩
    intro k hk
    exact getLsbD_low_byte (by omega)
  split at h
  · rename_i hsize
    subst hsize
    cases h
    refine ⟨_, rfl, ?_⟩
    intro k hk
    exact getLsbD_low_short (by omega)
  split at h
  · rename_i hsize
    subst hsize
    cases h
    refine ⟨_, rfl, ?_⟩
    intro k hk
    rw [loadHost_storeHost_four, wordToHost_wordToHost]
  · cases h

theorem exists_storeValue (bigEndian : Bool) (memory : Bytes) (a : Nat) {size : Int}
    (hsize : size = 1 ∨ size = 2 ∨ size = 4) (value : BitVec 32) :
    ∃ memory', storeValue bigEndian memory a size value = some memory' := by
  rcases hsize with rfl | rfl | rfl
  · exact ⟨_, rfl⟩
  · exact ⟨_, rfl⟩
  · exact ⟨_, rfl⟩

/-- A store changes the bytes of its range only. -/
theorem storeValue_of_outside {size : Int} {value : BitVec 32}
    (h : storeValue bigEndian memory a size value = some memory') (hi : (i : Int) < a ∨ (a : Int) + size ≤ i) :
    memory' i = memory i := by
  unfold storeValue at h
  split at h
  · cases h
    exact storeHost_of_outside (by omega)
  split at h
  · cases h
    exact storeHost_of_outside (by omega)
  split at h
  · cases h
    exact storeHost_of_outside (by omega)
  · cases h

/-- A load depends on the bytes of its range only. -/
theorem loadValue_congr {size : Int} (h : ∀ i : Nat, (a : Int) ≤ i → (i : Int) < a + size → memory i = memory' i) :
    loadValue bigEndian memory a size = loadValue bigEndian memory' a size := by
  unfold loadValue
  split
  · rw [h a (by omega) (by omega)]
  split
  · rw [loadHost_congr]
    intro k hk
    exact h (a + k) (by omega) (by omega)
  split
  · rw [loadHost_congr]
    intro k hk
    exact h (a + k) (by omega) (by omega)
  · rfl

end Host

section Access

variable {bigEndian : Bool} {memory memory' : Bytes} {m m' : Mmu} {addr : BitVec 32} {size : Int} {physAddr : Nat}

/-- **`ReadMem`** finds what is at the address that `Translate` gives. -/
theorem readMem_snd (bigEndian : Bool) (memory : Bytes) (m : Mmu) (addr : BitVec 32) (size : Int) :
    (readMem bigEndian memory m addr size).map Prod.snd =
      ((m.translate addr size false).map Prod.snd).bind fun r =>
        match r with
        | .error exception => some (.error exception)
        | .ok physAddr => (loadValue bigEndian memory physAddr size).map .ok := by
  rw [readMem]
  cases m.translate addr size false with
  | none => rfl
  | some found =>
    obtain ⟨m', r⟩ := found
    cases r with
    | error exception => rfl
    | ok physAddr =>
      simp only [Option.map_some, Option.bind_some, loadValue]
      split
      · rfl
      split
      · rfl
      split
      · rfl
      · rfl

/-- **`WriteMem`** stores at the address that `Translate` gives. -/
theorem writeMem_of_translate (value : BitVec 32) (h : m.translate addr size true = some (m', .ok physAddr)) :
    writeMem bigEndian memory m addr size value =
      (storeValue bigEndian memory physAddr size value).map fun memory => (m', .ok memory) := by
  rw [writeMem, h]
  simp only [storeValue]
  split
  · rfl
  split
  · rfl
  split
  · rfl
  · rfl

end Access

/-! ## The frames -/

/-- **Valid entries have frames of their own**, in main memory. -/
structure DistinctFrames (table : List TranslationEntry) : Prop where
  below : ∀ entry ∈ table, entry.valid = true → 0 ≤ entry.physicalPage ∧ entry.physicalPage < numPhysPages
  apart : ∀ (i j : Nat) (entry entry' : TranslationEntry), table[i]? = some entry → table[j]? = some entry' →
    entry.valid = true → entry'.valid = true → entry.physicalPage = entry'.physicalPage → i = j

section Frames

variable {table : List TranslationEntry} {pageTableSize addr addr' : BitVec 32} {size size' : Int}
variable {writing writing' : Bool} {m m' : Mmu} {physAddr physAddr' i i' : Nat} {entry entry' : TranslationEntry}

theorem DistinctFrames.pageFrame (h : DistinctFrames table) (hmem : entry ∈ table) (hvalid : entry.valid = true) :
    (entry.pageFrame : Int) = entry.physicalPage := by
  obtain ⟨hlow, hhigh⟩ := h.below entry hmem hvalid
  rw [show (numPhysPages : Int) = 128 from rfl] at hhigh
  rw [TranslationEntry.pageFrame, BitVec.toNat_ofInt]
  omega

/-- **Two accesses** to ranges of virtual addresses without a common byte have no common byte in main memory. -/
theorem DistinctFrames.disjoint (h : DistinctFrames table) (hsize : size = 1 ∨ size = 2 ∨ size = 4)
    (hsize' : size' = 1 ∨ size' = 2 ∨ size' = 4)
    (hit : (Mmu.withPageTable table pageTableSize).Hit addr size writing m physAddr i entry)
    (hit' : (Mmu.withPageTable table pageTableSize).Hit addr' size' writing' m' physAddr' i' entry')
    (hdisj : (addr'.toNat : Int) + size' ≤ addr.toNat ∨ (addr.toNat : Int) + size ≤ addr'.toNat) :
    (physAddr' : Int) + size' ≤ physAddr ∨ (physAddr : Int) + size ≤ physAddr' := by
  obtain ⟨_, htable, -, -, hfound, hvalid⟩ := Mmu.findEntry_pageTable rfl hit.found
  obtain rfl := Option.some.inj htable
  obtain ⟨_, htable', -, -, hfound', hvalid'⟩ := Mmu.findEntry_pageTable rfl hit'.found
  obtain rfl := Option.some.inj htable'
  have hend := offset_add_size_le hsize hit.aligned
  have hend' := offset_add_size_le hsize' hit'.aligned
  have haddr := hit.physAddr
  have haddr' := hit'.physAddr
  by_cases hpage : addr.toNat / pageSize = addr'.toNat / pageSize
  · -- the same page: the offsets are as far apart as the addresses
    have hentry : entry = entry' := by
      rw [← hpage] at hfound'
      exact Option.some.inj (hfound.symm.trans hfound')
    subst hentry
    rw [show pageSize = 128 from rfl] at hend hend' haddr haddr' hpage
    omega
  · -- different pages are in different frames
    have hframe : entry.pageFrame ≠ entry'.pageFrame := by
      intro hsame
      apply hpage
      apply h.apart _ _ entry entry' hfound hfound' hvalid hvalid'
      rw [← h.pageFrame (List.mem_of_getElem? hfound) hvalid, ← h.pageFrame (List.mem_of_getElem? hfound') hvalid', hsame]
    rw [show pageSize = 128 from rfl] at hend hend' haddr haddr'
    omega

/-- A store is not seen by a load from a range without a common byte. -/
theorem DistinctFrames.loadValue_eq {bigEndian : Bool} {memory memory' : Bytes} {value : BitVec 32}
    (h : DistinctFrames table) (hsize : size = 1 ∨ size = 2 ∨ size = 4)
    (hsize' : size' = 1 ∨ size' = 2 ∨ size' = 4)
    (hit : (Mmu.withPageTable table pageTableSize).Hit addr size writing m physAddr i entry)
    (hit' : (Mmu.withPageTable table pageTableSize).Hit addr' size' writing' m' physAddr' i' entry')
    (hdisj : (addr'.toNat : Int) + size' ≤ addr.toNat ∨ (addr.toNat : Int) + size ≤ addr'.toNat)
    (hstore : storeValue bigEndian memory physAddr size value = some memory') :
    loadValue bigEndian memory' physAddr' size' = loadValue bigEndian memory physAddr' size' := by
  have hphys := h.disjoint hsize hsize' hit hit' hdisj
  apply loadValue_congr
  intro a hlow hhigh
  exact storeValue_of_outside hstore (by omega)

/-- What can be written can be read, at the same address. -/
theorem Mmu.translate_read (hone : m.tlb.isSome = !m.pageTable.isSome)
    (h : m.translate addr size true = some (m', .ok physAddr)) :
    (m.translate addr size false).map Prod.snd = some (.ok physAddr) := by
  rcases Mmu.translate_cases h with ⟨⟨exception, herror⟩, -⟩ | ⟨p, i, entry, hok, hit⟩
  · cases herror
  · have hwrite := Mmu.translate_snd hone hit.aligned true
    rw [h, hit.found] at hwrite
    rw [Mmu.translate_snd hone hit.aligned false, hit.found, Option.bind_some]
    have hreadOnly : entry.readOnly = false := by
      have hwritable := hit.writable
      rw [Bool.and_true] at hwritable
      exact hwritable
    have hboth : entry.reach (addr.toNat % pageSize) size false = entry.reach (addr.toNat % pageSize) size true := by
      rw [TranslationEntry.reach, TranslationEntry.reach, hreadOnly]
      rfl
    exact hboth.trans hwrite.symm

end Frames

/-- **USER MEMORY IS MEMORY.**  Where the valid entries of the page table have frames of their own: after `WriteMem`
    the value is at its address, and `ReadMem` of any other range finds what it would have found before.  If `WriteMem`
    raises an exception instead, the machine is as it was. -/
theorem write_then_read (bigEndian : Bool) (machine : Machine) (table : List TranslationEntry)
    (pageTableSize : BitVec 32) (hmmu : machine.mmu = Mmu.withPageTable table pageTableSize)
    (hframes : DistinctFrames table) (addr : BitVec 32) (size : Int) (hsize : size = 1 ∨ size = 2 ∨ size = 4)
    (value : BitVec 32) :
    (∀ mmu physAddr, machine.mmu.translate addr size true = some (mmu, .ok physAddr) →
      ∃ memory, writeMem bigEndian machine.mainMemory machine.mmu addr size value = some (mmu, .ok memory) ∧
        (∃ mmu' value', readMem bigEndian memory mmu addr size = some (mmu', .ok value') ∧
          ∀ k : Nat, (k : Int) < 8 * size → value'.getLsbD k = value.getLsbD k) ∧
        ∀ addr' size', (size' = 1 ∨ size' = 2 ∨ size' = 4) →
          ((addr'.toNat : Int) + size' ≤ addr.toNat ∨ (addr.toNat : Int) + size ≤ addr'.toNat) →
          (readMem bigEndian memory mmu addr' size').map Prod.snd =
            (readMem bigEndian machine.mainMemory machine.mmu addr' size').map Prod.snd) ∧
    ∀ mmu exception pcAfter,
      writeMem bigEndian machine.mainMemory machine.mmu addr size value = some (mmu, .error exception) →
      machine.storing bigEndian addr size value pcAfter = some (.trap machine (.memory exception) addr) := by
  have hone : machine.mmu.tlb.isSome = !machine.mmu.pageTable.isSome := by
    rw [hmmu]
    rfl
  constructor
  · intro mmu physAddr htr
    obtain ⟨memory, hstore⟩ := exists_storeValue bigEndian machine.mainMemory physAddr hsize value
    rcases Mmu.translate_cases htr with ⟨⟨exception, herror⟩, -⟩ | ⟨p, i, entry, hok, hit⟩
    · cases herror
    obtain rfl := Except.ok.inj hok
    -- after the store every access is translated as before
    have hsame : ∀ addr' size', (mmu.translate addr' size' false).map Prod.snd =
        (machine.mmu.translate addr' size' false).map Prod.snd := by
      intro addr' size'
      rw [hit.bits]
      exact Mmu.translate_setEntry hone hit.found _ _ _ _ _
    refine ⟨memory, ?_, ?_, ?_⟩
    · rw [writeMem_of_translate value htr, hstore]
      rfl
    · obtain ⟨value', hload, hlow⟩ := low_loadValue hstore
      have hread : (readMem bigEndian memory mmu addr size).map Prod.snd = some (.ok value') := by
        rw [readMem_snd, hsame, Mmu.translate_read hone htr, Option.bind_some]
        simp only [hload, Option.map_some]
      obtain ⟨⟨mmu', r⟩, hread', rfl⟩ := Option.map_eq_some_iff.mp hread
      exact ⟨mmu', value', hread', hlow⟩
    · intro addr' size' hsize' hdisj
      rw [readMem_snd, readMem_snd, hsame]
      cases htr' : machine.mmu.translate addr' size' false with
      | none => rw [Option.map_none, Option.bind_none, Option.bind_none]
      | some found =>
        obtain ⟨mmu', r⟩ := found
        rcases Mmu.translate_cases htr' with ⟨⟨exception, rfl⟩, -⟩ | ⟨p', i', entry', rfl, hit'⟩
        · rw [Option.map_some, Option.bind_some, Option.bind_some]
        · rw [hmmu] at hit hit'
          have hload := hframes.loadValue_eq hsize hsize' hit hit' hdisj hstore
          simp only [Option.map_some, Option.bind_some, hload]
  · intro mmu exception pcAfter hwrite
    rcases writeMem_spec (by rw [hmmu]; rfl) hwrite with ⟨-, rfl⟩ | ⟨_, _, _, _, hok, -⟩
    · rw [Machine.storing, hwrite]
      rfl
    · cases hok

/-- Two pages, in the frames 3 and 1. -/
def crossed : List TranslationEntry := [⟨0, 3, true, false, false, false⟩, ⟨1, 1, true, false, false, false⟩]

theorem crossed_distinct : DistinctFrames crossed where
  below := by
    intro entry hmem _
    simp only [crossed, List.mem_cons, List.not_mem_nil, or_false] at hmem
    rcases hmem with rfl | rfl
    · decide
    · decide
  apart := by
    intro i j entry entry' hi hj _ _ hsame
    match i, j with
    | 0, 0 => rfl
    | 0, 1 => cases hi; cases hj; cases hsame
    | 1, 0 => cases hi; cases hj; cases hsame
    | 1, 1 => rfl
    | i + 2, _ => cases hi
    | 0, j + 2 => cases hj
    | 1, j + 2 => cases hj

/-- A machine with these pages, and empty memory. -/
def crossedMachine : Machine :=
  { registers := Registers.zero
    mainMemory := fun _ => 0
    mmu := Mmu.withPageTable crossed 2 }

/-- A word stored in the second page, and read back; the half word after it is what it was; and a store to a page that
    does not exist. -/
theorem write_then_read_crossed :
    (∃ mmu memory mmu', writeMem false crossedMachine.mainMemory crossedMachine.mmu 132 4 0xdeadbeef =
        some (mmu, .ok memory) ∧
      readMem false memory mmu 132 4 = some (mmu', .ok 0xdeadbeef) ∧
      (readMem false memory mmu 136 2).map Prod.snd =
        (readMem false crossedMachine.mainMemory crossedMachine.mmu 136 2).map Prod.snd) ∧
    crossedMachine.storing false 512 1 0 0 = some (.trap crossedMachine (.memory .addressErrorException) 512) := by
  constructor
  · have htr : (crossedMachine.mmu.translate 132 4 true).map Prod.snd = some (.ok 132) := rfl
    obtain ⟨⟨mmu, r⟩, htr, rfl⟩ := Option.map_eq_some_iff.mp htr
    obtain ⟨memory, hwrite, ⟨mmu', value', hread, hlow⟩, hother⟩ :=
      (write_then_read false crossedMachine crossed 2 rfl crossed_distinct 132 4 (by decide) 0xdeadbeef).1 mmu 132 htr
    have hvalue : value' = 0xdeadbeef := by
      apply BitVec.eq_of_getLsbD_eq
      intro k hk
      exact hlow k (by omega)
    rw [hvalue] at hread
    exact ⟨mmu, memory, mmu', hwrite, hread, hother 136 2 (by decide) (by decide)⟩
  · exact (write_then_read false crossedMachine crossed 2 rfl crossed_distinct 512 1 (by decide) 0).2 _ _ 0 rfl

end Nachos
