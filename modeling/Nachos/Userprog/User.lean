/-
  `userprog/user.cc` — copying between the kernel and user memory, byte by byte, through `ReadMem` and `WriteMem`.

  An exception in one of these is raised in the kernel, and `ExceptionHandler` then ends in `ASSERT(false)`.

  1. **User memory** (`userByte`) — what `ReadMem` finds at a virtual address.  It depends on the page table through
     `place` only, the frame of a page and whether it is read-only, and so not on the use and dirty bits that every
     access sets.

  2. **One byte** (`writeUsr_spec`) — where pages have frames of their own, a store changes the byte at its
     address, and no other byte of user memory.

  3. **A buffer** (`writeBuffToUsr_spec`, `readBuffFromUsr_spec`) — by induction over the loop; and there and back again
     (`buffer_roundtrip`).
-/
import Mathlib.Combinatorics.Pigeonhole
import Nachos.Machine.Mipssim

namespace Nachos

/-! ## The code -/

/-- `(char) value`. -/
def toChar (value : BitVec 32) : UInt8 := UInt8.ofBitVec (value.setWidth 8)

/-- `(int) c`, of a `char`. -/
def ofChar (c : UInt8) : BitVec 32 := c.toBitVec.signExtend 32

namespace Machine

/-- `machine->ReadMem(addr, 1, &value)` in the kernel, and `(char) value`. -/
def readUsr (m : Machine) (bigEndian : Bool) (addr : BitVec 32) : Option (Machine × UInt8) :=
  (readMem bigEndian m.mainMemory m.mmu addr 1).bind fun r =>
    r.2.toOption.map fun value => ({ m with mmu := r.1 }, toChar value)

/-- `machine->WriteMem(addr, 1, (int) c)` in the kernel. -/
def writeUsr (m : Machine) (bigEndian : Bool) (addr : BitVec 32) (c : UInt8) : Option Machine :=
  (writeMem bigEndian m.mainMemory m.mmu addr 1 (ofChar c)).bind fun r =>
    r.2.toOption.map fun mainMemory => { m with mmu := r.1, mainMemory := mainMemory }

/-- `readBuffFromUsr(usrAddr, outBuff, byteCount)`, after `byteCount` iterations. -/
def readBuffFromUsr (m : Machine) (bigEndian : Bool) (usrAddr : BitVec 32) (outBuff : Bytes) :
    Nat → Option (Machine × Bytes)
  | 0 => some (m, outBuff)
  | i + 1 =>
    (m.readBuffFromUsr bigEndian usrAddr outBuff i).bind fun r =>
      (r.1.readUsr bigEndian (usrAddr + BitVec.ofNat 32 i)).map fun c => (c.1, Function.update r.2 i c.2)

/-- `writeBuffToUsr(buff, usrAddr, byteCount)`, after `byteCount` iterations. -/
def writeBuffToUsr (m : Machine) (bigEndian : Bool) (buff : Bytes) (usrAddr : BitVec 32) : Nat → Option Machine
  | 0 => some m
  | i + 1 =>
    (m.writeBuffToUsr bigEndian buff usrAddr i).bind fun m =>
      m.writeUsr bigEndian (usrAddr + BitVec.ofNat 32 i) (buff i)

end Machine

/-! ## Where a page is -/

namespace Mmu

/-- The entry of a page in the page table. -/
def entryAt (m : Mmu) (vpn : Nat) : Option TranslationEntry :=
  if m.pageTableSize.toNat ≤ vpn then none else m.pageTable.bind (·[vpn]?)

/-- The frame of a page, and whether the page is read-only. -/
def place (m : Mmu) (vpn : Nat) : Option (Nat × Bool) :=
  (m.entryAt vpn).bind fun entry =>
    if entry.valid ∧ entry.pageFrame < numPhysPages then some (entry.pageFrame, entry.readOnly) else none

/-- The physical address of a byte, to read it or to write it. -/
def physical (m : Mmu) (v : BitVec 32) (writing : Bool) : Option Nat :=
  (m.place (v.toNat / pageSize)).bind fun found =>
    if found.2 && writing then none else some (found.1 * pageSize + v.toNat % pageSize)

/-- Pages have frames of their own. -/
structure Separate (m : Mmu) : Prop where
  tlb : m.tlb = none
  apart : ∀ i j f ro ro', m.place i = some (f, ro) → m.place j = some (f, ro') → i = j

section Translate

variable {m m' : Mmu} {v : BitVec 32} {writing : Bool} {p : Nat}

/-- The bits that an access sets do not move a page. -/
theorem place_setEntry (htlb : m.tlb = none) {i : Nat} {entry : TranslationEntry} (hentry : m.entryAt i = some entry)
    (use dirty : Bool) (vpn : Nat) :
    (m.setEntry i { entry with use := use, dirty := dirty }).place vpn = m.place vpn := by
  obtain ⟨hin, hfind⟩ : ¬ m.pageTableSize.toNat ≤ i ∧ m.pageTable.bind (·[i]?) = some entry := by
    simp only [entryAt] at hentry
    split at hentry
    · cases hentry
    · rename_i hin
      exact ⟨hin, hentry⟩
  obtain ⟨table, htable, hget⟩ := Option.bind_eq_some_iff.mp hfind
  have hlen : i < table.length := (List.getElem?_eq_some_iff.mp hget).1
  simp only [place, entryAt, setEntry, htlb, htable, Option.map_some, Option.bind_some]
  split
  · rfl
  · by_cases hvpn : i = vpn
    · subst hvpn
      rw [List.getElem?_set_self hlen, hget]
      rfl
    · rw [List.getElem?_set_ne hvpn]

/-- The two page tables have their pages at the same places. -/
structure SameView (m m' : Mmu) : Prop where
  tlb : m'.tlb = none
  place : ∀ vpn, m'.place vpn = m.place vpn

theorem SameView.refl (htlb : m.tlb = none) : m.SameView m := ⟨htlb, fun _ => rfl⟩

theorem SameView.trans {m'' : Mmu} (h : m.SameView m') (h' : m'.SameView m'') : m.SameView m'' :=
  ⟨h'.tlb, fun vpn => (h'.place vpn).trans (h.place vpn)⟩

theorem SameView.physical (h : m.SameView m') (v : BitVec 32) (writing : Bool) :
    m'.physical v writing = m.physical v writing := by
  rw [Mmu.physical, Mmu.physical, h.place]

theorem SameView.separate (h : m.SameView m') (hm : m.Separate) : m'.Separate where
  tlb := h.tlb
  apart := by
    intro i j f ro ro' hi hj
    rw [h.place] at hi hj
    exact hm.apart i j f ro ro' hi hj

/-- What `physical` has found. -/
theorem physical_eq_some (h : m.physical v writing = some p) :
    ∃ entry, m.entryAt (v.toNat / pageSize) = some entry ∧ entry.valid = true ∧ entry.pageFrame < numPhysPages ∧
      (entry.readOnly && writing) = false ∧ p = entry.pageFrame * pageSize + v.toNat % pageSize := by
  obtain ⟨⟨frame, readOnly⟩, hplace, hrest⟩ := Option.bind_eq_some_iff.mp h
  obtain ⟨entry, hentry, hif⟩ := Option.bind_eq_some_iff.mp hplace
  split at hif
  · rename_i hok
    obtain ⟨rfl, rfl⟩ := Prod.mk.inj (Option.some.inj hif)
    split at hrest
    · cases hrest
    · rename_i hwrite
      cases hrest
      exact ⟨entry, hentry, hok.1, hok.2, by simpa using hwrite, rfl⟩
  · cases hif

/-- **`Translate` of a byte** finds it where it is. -/
theorem translate_of_physical (htlb : m.tlb = none) (h : m.physical v writing = some p) :
    ∃ m', m.translate v 1 writing = some (m', .ok p) ∧ m.SameView m' := by
  obtain ⟨entry, hentry, hvalid, hframe, hwrite, rfl⟩ := physical_eq_some h
  refine ⟨m.setEntry (v.toNat / pageSize) { entry with use := true, dirty := entry.dirty || writing }, ?_, ?_, ?_⟩
  · have haligned : Mmu.misaligned v 1 = false := by simp [Mmu.misaligned]
    have hin : ¬ m.pageTableSize.toNat ≤ v.toNat / pageSize := by
      intro hout
      rw [entryAt, if_pos hout] at hentry
      cases hentry
    rw [entryAt, if_neg hin] at hentry
    have htable : m.pageTable.isSome := by
      cases hpt : m.pageTable with
      | none => rw [hpt] at hentry; cases hentry
      | some table => rfl
    have hbound : ((entry.pageFrame * pageSize + v.toNat % pageSize : Nat) : Int) + 1 ≤ memorySize := by
      have hpage : pageSize = 128 := rfl
      have hmem : memorySize = 128 * 128 := rfl
      have hphys : numPhysPages = 128 := rfl
      rw [hpage, hmem]
      rw [hphys] at hframe
      omega
    have hfind : m.findEntry (v.toNat / pageSize) = some (.ok (v.toNat / pageSize, entry)) := by
      simp only [findEntry, htlb, if_neg hin, hentry, hvalid]
      rfl
    have hnot : ¬ numPhysPages ≤ (BitVec.ofInt 32 entry.physicalPage).toNat := Nat.not_le.mpr hframe
    have hone : m.tlb.isNone = true ∨ m.pageTable.isNone = true := Or.inl (by rw [htlb]; rfl)
    have htwo : m.tlb.isSome = true ∨ m.pageTable.isSome = true := Or.inr htable
    simp only [translate, haligned, hone, htwo, not_true, Bool.false_eq_true, if_false, hfind, hwrite, if_neg hnot]
    exact if_pos hbound
  · simp only [setEntry, htlb]
  · exact place_setEntry htlb hentry _ _

/-- A byte that `Translate` finds, to read it, is where `physical` says. -/
theorem physical_of_translate (htlb : m.tlb = none) (h : m.translate v 1 false = some (m', .ok p)) :
    m.physical v false = some p := by
  rcases translate_spec htlb h with ⟨⟨exception, herror⟩, -⟩ | ⟨physAddr, table, entry, hok, htr⟩
  · cases herror
  · obtain rfl := Except.ok.inj hok
    have hentry : m.entryAt (v.toNat / pageSize) = some entry := by
      rw [entryAt, if_neg (Nat.not_le.mpr htr.inside), htr.pageTable]
      exact htr.found
    have hplace : m.place (v.toNat / pageSize) = some (entry.pageFrame, entry.readOnly) := by
      rw [place, hentry, Option.bind_some, if_pos ⟨htr.valid, htr.frame⟩]
    rw [physical, hplace, Option.bind_some, Bool.and_false, htr.physAddr]
    rfl

/-- What can be written can be read. -/
theorem physical_read (h : m.physical v true = some p) : m.physical v writing = some p := by
  obtain ⟨⟨frame, readOnly⟩, hplace, hrest⟩ := Option.bind_eq_some_iff.mp h
  rw [physical, hplace, Option.bind_some]
  cases readOnly with
  | true => cases hrest
  | false => exact hrest

/-- **Different addresses, different bytes.** -/
theorem Separate.injective (hm : m.Separate) {w : BitVec 32} {writing' : Bool} (hv : m.physical v writing = some p)
    (hw : m.physical w writing' = some p) : v = w := by
  have hpage : pageSize = 128 := rfl
  obtain ⟨⟨f, ro⟩, hplace, hrest⟩ := Option.bind_eq_some_iff.mp hv
  obtain ⟨⟨f', ro'⟩, hplace', hrest'⟩ := Option.bind_eq_some_iff.mp hw
  split at hrest
  · cases hrest
  split at hrest'
  · cases hrest'
  have heq : f * pageSize + v.toNat % pageSize = f' * pageSize + w.toNat % pageSize :=
    (Option.some.inj hrest).trans (Option.some.inj hrest').symm
  rw [hpage] at heq
  obtain rfl : f = f' := by omega
  have hvpn := hm.apart _ _ f ro ro' hplace hplace'
  rw [hpage] at hvpn
  apply BitVec.eq_of_toNat_eq
  omega

end Translate

end Mmu

/-! ## User memory -/

namespace Machine

/-- The byte of user memory at an address. -/
def userByte (m : Machine) (v : BitVec 32) : Option UInt8 := (m.mmu.physical v false).map m.mainMemory

/-- A byte that the program may write. -/
def Writable (m : Machine) (v : BitVec 32) : Prop := (m.mmu.physical v true).isSome

instance (m : Machine) (v : BitVec 32) : Decidable (m.Writable v) :=
  inferInstanceAs (Decidable ((m.mmu.physical v true).isSome = true))

section OneByte

variable {m m' : Machine} {bigEndian : Bool} {v w : BitVec 32} {c : UInt8}

theorem setWidth_signExtend (x : BitVec 8) : (x.signExtend 32).setWidth 8 = x := by
  ext i hi
  have hlt : i < 32 := by omega
  rw [BitVec.getElem_setWidth, BitVec.getLsbD_signExtend, if_pos hi, decide_eq_true hlt, Bool.true_and,
    BitVec.getLsbD_eq_getElem hi]

theorem toChar_ofChar (c : UInt8) : toChar (ofChar c) = c := by
  rw [toChar, ofChar, setWidth_signExtend]

/-- The byte that `WriteMem` stores. -/
theorem wordByte_ofChar (c : UInt8) : wordByte (ofChar c &&& 0xff) 0 = c := by
  have hlow : (ofChar c).toNat % 256 = c.toNat := by
    have hnat := congrArg BitVec.toNat (setWidth_signExtend c.toBitVec)
    rw [BitVec.toNat_setWidth] at hnat
    exact hnat
  have hand : (ofChar c &&& 0xff).toNat = (ofChar c).toNat % 256 := by
    rw [BitVec.toNat_and]
    exact Nat.and_two_pow_sub_one_eq_mod _ 8
  apply UInt8.toNat_inj.mp
  rw [wordByte, hand, hlow]
  simp

/-- **`ReadMem` reads user memory**, and leaves it as it is. -/
theorem readUsr_spec (htlb : m.mmu.tlb = none) (h : m.userByte v = some c) :
    ∃ mmu, m.readUsr bigEndian v = some ({ m with mmu := mmu }, c) ∧ m.mmu.SameView mmu := by
  obtain ⟨p, hp, rfl⟩ := Option.map_eq_some_iff.mp h
  obtain ⟨mmu, htranslate, hsame⟩ := Mmu.translate_of_physical htlb hp
  refine ⟨mmu, ?_, hsame⟩
  simp only [readUsr, readMem, htranslate, if_true, Option.bind_some]
  show some (_, toChar (ofChar (m.mainMemory p))) = _
  rw [toChar_ofChar]

/-- **User memory is what `ReadMem` finds**; it fails where there is no byte. -/
theorem readUsr_userByte (htlb : m.mmu.tlb = none) : (m.readUsr bigEndian v).map Prod.snd = m.userByte v := by
  cases h : m.userByte v with
  | some c =>
    obtain ⟨mmu, hread, -⟩ := readUsr_spec htlb h
    rw [hread]
    rfl
  | none =>
    have hphys : m.mmu.physical v false = none := Option.map_eq_none_iff.mp h
    cases htranslate : m.mmu.translate v 1 false with
    | none => simp only [readUsr, readMem, htranslate, Option.bind_none, Option.map_none]
    | some found =>
      obtain ⟨mmu, result⟩ := found
      cases result with
      | error exception =>
        simp only [readUsr, readMem, htranslate, Option.bind_some]
        rfl
      | ok p =>
        rw [Mmu.physical_of_translate htlb htranslate] at hphys
        cases hphys

/-- **`WriteMem` writes one byte of user memory.** -/
theorem writeUsr_spec (hm : m.mmu.Separate) (hv : m.Writable v) :
    ∃ m', m.writeUsr bigEndian v c = some m' ∧ m'.registers = m.registers ∧ m.mmu.SameView m'.mmu ∧
      m'.userByte v = some c ∧ ∀ w, w ≠ v → m'.userByte w = m.userByte w := by
  obtain ⟨p, hp⟩ := Option.isSome_iff_exists.mp hv
  obtain ⟨mmu, htranslate, hsame⟩ := Mmu.translate_of_physical hm.tlb hp
  let memory := storeHost bigEndian m.mainMemory p 1 (ofChar c &&& 0xff)
  have hstored : memory p = c := by
    have hbyte : hostByte bigEndian 1 (p - p) = 0 := by
      rw [Nat.sub_self]
      cases bigEndian <;> rfl
    show storeHost bigEndian m.mainMemory p 1 (ofChar c &&& 0xff) p = c
    rw [storeHost, if_pos ⟨Nat.le_refl p, Nat.lt_succ_self p⟩, hbyte, wordByte_ofChar]
  refine ⟨{ m with mmu := mmu, mainMemory := memory }, ?_, rfl, hsame, ?_, fun w hw => ?_⟩
  · simp only [writeUsr, writeMem, htranslate, if_true, Option.bind_some]
    rfl
  · show (mmu.physical v false).map memory = some c
    rw [hsame.physical, Mmu.physical_read hp, Option.map_some, hstored]
  · show (mmu.physical w false).map memory = (m.mmu.physical w false).map m.mainMemory
    rw [hsame.physical]
    cases hq : m.mmu.physical w false with
    | none => rfl
    | some q =>
      have hne : q ≠ p := by
        rintro rfl
        exact hw (hm.injective hq hp)
      rw [Option.map_some, Option.map_some]
      exact congrArg some (storeHost_of_outside (by omega))

end OneByte

/-! ## Buffers -/

section Buffers

variable {m : Machine} {bigEndian : Bool} {buff : Bytes} {usrAddr : BitVec 32}

/-- The addresses `usrAddr`, `usrAddr + 1`, … of a buffer of `n` bytes, `n` at most `2 ^ 32`, are different. -/
theorem addr_injective {i j : Nat} (hi : i < 2 ^ 32) (hj : j < 2 ^ 32)
    (h : usrAddr + BitVec.ofNat 32 i = usrAddr + BitVec.ofNat 32 j) : i = j := by
  have hnat := congrArg BitVec.toNat h
  rw [BitVec.toNat_add, BitVec.toNat_add, BitVec.toNat_ofNat, BitVec.toNat_ofNat] at hnat
  omega

/-- A buffer in user memory is not longer than physical memory: its bytes are at different places there. -/
theorem length_le_of_writable (hm : m.mmu.Separate) {n : Nat}
    (hmapped : ∀ i < n, m.Writable (usrAddr + BitVec.ofNat 32 i)) : n ≤ numPhysPages * pageSize := by
  by_contra hlong
  have hlt : numPhysPages * pageSize < n := Nat.not_le.mp hlong
  have hsize : numPhysPages * pageSize = 16384 := rfl
  let place : Nat → Nat := fun i => (m.mmu.physical (usrAddr + BitVec.ofNat 32 i) true).getD 0
  have hplace : ∀ i < n, m.mmu.physical (usrAddr + BitVec.ofNat 32 i) true = some (place i) := by
    intro i hi
    obtain ⟨p, hp⟩ := Option.isSome_iff_exists.mp (hmapped i hi)
    rw [hp, show place i = p by show (m.mmu.physical _ true).getD 0 = p; rw [hp]; rfl]
  have hrange : ∀ i ∈ Finset.range (numPhysPages * pageSize + 1), place i ∈ Finset.range (numPhysPages * pageSize) := by
    intro i hi
    rw [Finset.mem_range] at hi ⊢
    obtain ⟨entry, -, -, hframe, -, heq⟩ := Mmu.physical_eq_some (hplace i (by omega))
    rw [heq]
    have hphys : numPhysPages = 128 := rfl
    have hpage : pageSize = 128 := rfl
    rw [hphys] at hframe ⊢
    rw [hpage]
    omega
  obtain ⟨i, hi, j, hj, hne, heq⟩ := Finset.exists_ne_map_eq_of_card_lt_of_maps_to
    (by rw [Finset.card_range, Finset.card_range]; exact Nat.lt_succ_self _) hrange
  rw [Finset.mem_range] at hi hj
  -- two addresses with one place
  have hi' := hplace i (by omega)
  rw [heq] at hi'
  exact hne (addr_injective (by omega) (by omega) (hm.injective hi' (hplace j (by omega))))

/-- **`writeBuffToUsr`** puts the buffer into user memory, and changes nothing else there. -/
theorem writeBuffToUsr_spec (hm : m.mmu.Separate) {n : Nat} (hn : n ≤ 2 ^ 32)
    (hmapped : ∀ i < n, m.Writable (usrAddr + BitVec.ofNat 32 i)) :
    ∃ m', m.writeBuffToUsr bigEndian buff usrAddr n = some m' ∧ m'.registers = m.registers ∧
      m.mmu.SameView m'.mmu ∧ (∀ i < n, m'.userByte (usrAddr + BitVec.ofNat 32 i) = some (buff i)) ∧
      ∀ w, (∀ i < n, w ≠ usrAddr + BitVec.ofNat 32 i) → m'.userByte w = m.userByte w := by
  induction n with
  | zero => exact ⟨m, rfl, rfl, .refl hm.tlb, fun i hi => absurd hi (Nat.not_lt_zero i), fun _ _ => rfl⟩
  | succ n ih =>
    obtain ⟨m₁, hloop, hregs₁, hsame₁, hin₁, hout₁⟩ :=
      ih (by omega) fun i hi => hmapped i (Nat.lt_succ_of_lt hi)
    have hwritable : m₁.Writable (usrAddr + BitVec.ofNat 32 n) := by
      rw [Writable, hsame₁.physical]
      exact hmapped n (Nat.lt_succ_self n)
    obtain ⟨m₂, hstore, hregs₂, hsame₂, hin₂, hout₂⟩ := writeUsr_spec (hsame₁.separate hm) hwritable
    refine ⟨m₂, ?_, hregs₂.trans hregs₁, hsame₁.trans hsame₂, fun i hi => ?_, fun w hw => ?_⟩
    · rw [writeBuffToUsr, hloop, Option.bind_some, hstore]
    · rcases Nat.lt_succ_iff_lt_or_eq.mp hi with hlt | rfl
      · -- the last store is at another address
        have hne : usrAddr + BitVec.ofNat 32 i ≠ usrAddr + BitVec.ofNat 32 n := by
          intro heq
          have hin := addr_injective (by omega) (by omega) heq
          omega
        rw [hout₂ _ hne]
        exact hin₁ i hlt
      · exact hin₂
    · rw [hout₂ w (hw n (Nat.lt_succ_self n))]
      exact hout₁ w fun i hi => hw i (Nat.lt_succ_of_lt hi)

/-- **`readBuffFromUsr`** gets the buffer from user memory, and changes nothing. -/
theorem readBuffFromUsr_spec (htlb : m.mmu.tlb = none) {n : Nat} {bytes : Nat → UInt8}
    (hbytes : ∀ i < n, m.userByte (usrAddr + BitVec.ofNat 32 i) = some (bytes i)) :
    ∃ mmu out, m.readBuffFromUsr bigEndian usrAddr buff n = some ({ m with mmu := mmu }, out) ∧
      m.mmu.SameView mmu ∧ ∀ i < n, out i = bytes i := by
  induction n with
  | zero => exact ⟨m.mmu, buff, rfl, .refl htlb, fun i hi => absurd hi (Nat.not_lt_zero i)⟩
  | succ n ih =>
    obtain ⟨mmu₁, out₁, hloop, hsame₁, hin₁⟩ := ih fun i hi => hbytes i (Nat.lt_succ_of_lt hi)
    have hbyte : ({ m with mmu := mmu₁ } : Machine).userByte (usrAddr + BitVec.ofNat 32 n) = some (bytes n) := by
      show (mmu₁.physical _ false).map m.mainMemory = some (bytes n)
      rw [hsame₁.physical]
      exact hbytes n (Nat.lt_succ_self n)
    obtain ⟨mmu₂, hread, hsame₂⟩ := readUsr_spec hsame₁.tlb hbyte
    refine ⟨mmu₂, Function.update out₁ n (bytes n), ?_, hsame₁.trans hsame₂, fun i hi => ?_⟩
    · rw [readBuffFromUsr, hloop, Option.bind_some, hread]
      rfl
    · rcases Nat.lt_succ_iff_lt_or_eq.mp hi with hlt | rfl
      · rw [Function.update_of_ne (Nat.ne_of_lt hlt)]
        exact hin₁ i hlt
      · rw [Function.update_self]

end Buffers

end Machine

/-- **A buffer, there and back.**  Over pages with frames of their own, wherever these are, `writeBuffToUsr` and then
    `readBuffFromUsr` give the buffer back, and change no other byte of user memory. -/
theorem buffer_roundtrip {m : Machine} (hm : m.mmu.Separate) {n : Nat} {a : BitVec 32}
    (hmapped : ∀ i < n, m.Writable (a + BitVec.ofNat 32 i)) (bigEndian : Bool) (b out : Bytes) :
    ∃ m₁ m₂ out', m.writeBuffToUsr bigEndian b a n = some m₁ ∧
      m₁.readBuffFromUsr bigEndian a out n = some (m₂, out') ∧ (∀ i < n, out' i = b i) ∧
      ∀ w, (∀ i < n, w ≠ a + BitVec.ofNat 32 i) → m₂.userByte w = m.userByte w := by
  have hn := Machine.length_le_of_writable hm hmapped
  have hsize : numPhysPages * pageSize = 16384 := rfl
  obtain ⟨m₁, hwrite, -, hsame₁, hin, hout⟩ := Machine.writeBuffToUsr_spec hm (by omega) hmapped
  obtain ⟨mmu, out', hread, hsame₂, heq⟩ := Machine.readBuffFromUsr_spec hsame₁.tlb hin
  refine ⟨m₁, { m₁ with mmu := mmu }, out', hwrite, hread, heq, fun w hw => ?_⟩
  rw [← hout w hw]
  show (mmu.physical w false).map m₁.mainMemory = (m₁.mmu.physical w false).map m₁.mainMemory
  rw [hsame₂.physical]

/-- Pages 0 and 1 are in frames 3 and 1. -/
def twoFrames : Machine :=
  ⟨Registers.zero, fun _ => 0, ⟨none, some [⟨0, 3, true, false, false, false⟩, ⟨1, 1, true, false, false, false⟩], 2⟩⟩

theorem twoFrames_separate : twoFrames.mmu.Separate := by
  refine ⟨rfl, fun i j f ro ro' hi hj => ?_⟩
  have hplace : ∀ k f ro, twoFrames.mmu.place k = some (f, ro) → k = 0 ∧ f = 3 ∨ k = 1 ∧ f = 1 := by
    intro k f ro hk
    match k with
    | 0 => exact Or.inl ⟨rfl, (Prod.mk.inj (Option.some.inj hk)).1.symm⟩
    | 1 => exact Or.inr ⟨rfl, (Prod.mk.inj (Option.some.inj hk)).1.symm⟩
    | k + 2 => cases hk
  rcases hplace i f ro hi with ⟨rfl, rfl⟩ | ⟨rfl, rfl⟩
  · rcases hplace j _ ro' hj with ⟨rfl, -⟩ | ⟨-, h⟩
    · rfl
    · cases h
  · rcases hplace j _ ro' hj with ⟨-, h⟩ | ⟨rfl, -⟩
    · cases h
    · rfl

/-- Four bytes from address 126 on: two in each page. -/
theorem buffer_roundtrip_two :
    ∃ m₁ m₂ out', twoFrames.writeBuffToUsr false (fun i => UInt8.ofNat (i + 1)) 126 4 = some m₁ ∧
      m₁.readBuffFromUsr false 126 (fun _ => 0) 4 = some (m₂, out') ∧ out' 3 = 4 := by
  obtain ⟨m₁, m₂, out', hwrite, hread, heq, -⟩ := buffer_roundtrip twoFrames_separate (n := 4) (a := 126)
    (by decide +kernel) false (fun i => UInt8.ofNat (i + 1)) fun _ => 0
  exact ⟨m₁, m₂, out', hwrite, hread, heq 3 (by decide)⟩

end Nachos
