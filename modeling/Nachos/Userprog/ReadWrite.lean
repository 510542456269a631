/-
  `userprog/exception.cc`, `userprog/user.cc` — what SC_Read and SC_Write move between user memory, files and the
  console.

  1. **Files** (`file_calls_iff`) — SC_Write copies the user's bytes into the file.  SC_Read reads the file into a
     buffer of the kernel, and leaves it there: user memory is as it was before.  So the user finds the bytes of the
     file IFF they were in the user's buffer already.

  2. **The console** (`console_read_iff`) — SC_Read takes characters up to a newline, and the newline, too; but it
     delivers those before it only.  A sequence of calls delivers what it has taken IFF there is no newline among
     the characters that were asked for.
-/
import Nachos.Userprog.Exception

namespace Nachos

/-! ## What a call leaves -/

namespace SysState

variable {s : SysState} {bigEndian : Bool}

theorem ret_reg2 (s : SysState) (value : BitVec 32) : (s.ret value).machine.get 2 = value := by
  have hnext : gpr 2 ≠ nextPCReg := by decide
  have hpc : gpr 2 ≠ pcReg := by decide
  have hprev : gpr 2 ≠ prevPCReg := by decide
  simp only [ret, Machine.increaseProgramCounter, Machine.get, Machine.set]
  rw [Registers.write_of_ne _ hnext, Registers.write_of_ne _ hpc, Registers.write_of_ne _ hprev, Registers.write_same]

/-- A file that is open under an identifier. -/
theorem onFile_eq {id : Int} (hid : 3 ≤ id ∧ id < maxOpenFiles) {file : Nat} (hfile : s.descriptor id = some file)
    (f : Nat → Option SysState) : (s.onFile id f).result = f file := by
  have hcheck : 3 ≤ id ∧ id ≤ maxOpenFiles := by omega
  have hin : (Access.descriptor id).InRange := by
    simp only [Access.InRange]
    omega
  simp only [onFile, if_pos hcheck, hfile, useEntry, Traced.result_bind, Traced.result_use, if_pos hin,
    Option.bind_some, Traced.result_ofOption]

end SysState

/-! ## Files -/

namespace OpenFile

variable {file : OpenFile} {length : Nat} {S : List Nat} {p : Nat} {n : Int}

/-- Behind the end of the file there is nothing to read or to write. -/
theorem span_of_ge (hd : file.hdr.Describes length S) (hp : length ≤ p) : file.span n p = none := by
  have hlen : file.hdr.fileLength = length := hd.numBytes
  have hge : (p : Int) ≥ length := by omega
  simp only [span, hlen, hge, or_true, if_true]

end OpenFile

/-- The call has the identifier of an open file, with the header of a file of `length` bytes in the sectors `S` and
    the seek position `p`; the byte count is `n`; and the buffer is mapped, in an address space that fits into
    memory. -/
structure SysState.FileCall (s : SysState) (length : Nat) (S : List Nat) (p n : Nat) : Prop where
  id : 3 ≤ s.arg 6 ∧ s.arg 6 < maxOpenFiles
  file : ∃ file f, s.descriptor (s.arg 6) = some file ∧ s.files file = some f ∧ f.hdr.Describes length S ∧
    f.seekPosition = p
  count : s.arg 5 = n
  tlb : s.machine.mmu.tlb = none
  fits : s.machine.mmu.pageTableSize.toNat ≤ numPhysPages
  mapped : ∀ i < n, (s.machine.userByte (s.machine.get 4 + BitVec.ofNat 32 i)).isSome

/-- The bytes of the file in the sectors `S`. -/
def SysState.contents (s : SysState) (S : List Nat) (q : Nat) : UInt8 := (DiskFile.blocks s.disk).array S q

namespace SysState

variable {s : SysState} {bigEndian : Bool} {length p n : Nat} {S : List Nat}

/-- An address that is mapped is below the end of the address space. -/
theorem toNat_lt_of_mapped {m : Machine} (hfits : m.mmu.pageTableSize.toNat ≤ numPhysPages) {v : BitVec 32}
    (hv : (m.userByte v).isSome) : v.toNat < memorySize := by
  obtain ⟨c, hc⟩ := Option.isSome_iff_exists.mp hv
  obtain ⟨p, hp, -⟩ := Option.map_eq_some_iff.mp hc
  obtain ⟨entry, hentry, -⟩ := Mmu.physical_eq_some hp
  have hin : v.toNat / pageSize < m.mmu.pageTableSize.toNat := by
    apply Nat.lt_of_not_le
    intro hout
    rw [Mmu.entryAt, if_pos hout] at hentry
    cases hentry
  have hpage : pageSize = 128 := rfl
  have hphys : numPhysPages = 128 := rfl
  have hmem : memorySize = 128 * 128 := rfl
  rw [hpage] at hin
  rw [hphys] at hfits
  rw [hmem]
  omega

/-- A buffer that is mapped is no larger than memory. -/
theorem FileCall.count_le (h : s.FileCall length S p n) : n ≤ memorySize := by
  have hmem : memorySize = 16384 := rfl
  apply Nat.le_of_not_lt
  intro hlarge
  have hzero := toNat_lt_of_mapped h.fits (h.mapped 0 (by omega))
  have haddr : (s.machine.get 4 + BitVec.ofNat 32 0).toNat = (s.machine.get 4).toNat := by
    rw [BitVec.toNat_add, BitVec.toNat_ofNat]
    omega
  rw [haddr] at hzero
  -- the first address behind the address space would be part of the buffer
  have hend := toNat_lt_of_mapped h.fits (h.mapped (memorySize - (s.machine.get 4).toNat) (by omega))
  rw [BitVec.toNat_add, BitVec.toNat_ofNat] at hend
  omega

theorem FileCall.readAt (h : s.FileCall length S p n) {f : OpenFile} (hd : f.hdr.Describes length S)
    (buffer mem : Bytes) : ∃ into, f.readAt s.disk mem buffer 0 n p =
      some (((OpenFile.clamp length n p : Nat) : Int), into) := by
  have hmem : memorySize = 16384 := rfl
  have hcount := h.count_le
  have hlen := hd.length_le
  rw [show maxFileSize = 3840 from rfl] at hlen
  by_cases hp : p < length
  · exact ⟨_, OpenFile.readAt_spec hd (by omega) s.disk mem buffer 0⟩
  · have hclamp : OpenFile.clamp length n p = 0 := by
      unfold OpenFile.clamp
      omega
    refine ⟨buffer, ?_⟩
    rw [OpenFile.readAt, OpenFile.span_of_ge hd (Nat.le_of_not_lt hp), hclamp]
    rfl

theorem FileCall.writeAt (h : s.FileCall length S p n) {f : OpenFile} (hd : f.hdr.Describes length S)
    (hS : S.Nodup) (mem : Nat → Bytes) (from_ : Bytes) :
    ∃ disk, f.writeAt s.disk mem from_ n p = some (((OpenFile.clamp length n p : Nat) : Int), disk) ∧
      ∀ i < OpenFile.clamp length n p, (DiskFile.blocks disk).array S (p + i) = from_ i := by
  have hmem : memorySize = 16384 := rfl
  have hcount := h.count_le
  have hlen := hd.length_le
  rw [show maxFileSize = 3840 from rfl] at hlen
  by_cases hp : p < length
  · obtain ⟨disk, hwrite, -, hbytes⟩ := OpenFile.writeAt_spec hd hS (p := p) (n := n) (by omega) s.disk mem from_
    refine ⟨disk, hwrite, fun i hi => ?_⟩
    have hin : p + i < length := by
      unfold OpenFile.clamp at hi
      omega
    rw [hbytes (p + i) hin, if_pos ⟨Nat.le_add_right p i, Nat.add_lt_add_left hi p⟩, Nat.add_sub_cancel_left]
  · have hclamp : OpenFile.clamp length n p = 0 := by
      unfold OpenFile.clamp
      omega
    refine ⟨s.disk, ?_, fun i hi => ?_⟩
    · rw [OpenFile.writeAt, OpenFile.span_of_ge hd (Nat.le_of_not_lt hp), hclamp]
      rfl
    · rw [hclamp] at hi
      exact absurd hi (Nat.not_lt_zero i)

/-- **SC_Read from a file** returns the number of bytes, and leaves user memory as it was. -/
theorem FileCall.scRead (h : s.FileCall length S p n) (buffer mem : Bytes) :
    ∃ s', (s.scRead bigEndian buffer mem).result = some s' ∧
      s'.machine.get 2 = BitVec.ofNat 32 (OpenFile.clamp length n p) ∧
      ∀ v, s'.machine.userByte v = s.machine.userByte v := by
  obtain ⟨file, f, hfile, hf, hd, hseek⟩ := h.file
  obtain ⟨into, hread⟩ := h.readAt hd buffer mem
  have hid : s.arg 6 ≠ consoleInput := by
    have hlow := h.id.1
    rw [consoleInput]
    omega
  rw [SysState.scRead, if_neg hid, onFile_eq h.id hfile, scReadFile, hf, Option.bind_some, OpenFile.read, hseek,
    h.count, hread]
  refine ⟨_, rfl, ?_, fun v => rfl⟩
  rw [ret_reg2, BitVec.ofInt_natCast]

/-- **SC_Write to a file** puts the user's bytes there. -/
theorem FileCall.scWrite (h : s.FileCall length S p n) (hS : S.Nodup) (buffer : Bytes) (mem : Nat → Bytes) :
    ∃ s', (s.scWrite bigEndian buffer mem).result = some s' ∧
      s'.machine.get 2 = BitVec.ofNat 32 (OpenFile.clamp length n p) ∧
      ∀ i < OpenFile.clamp length n p,
        s.machine.userByte (s.machine.get 4 + BitVec.ofNat 32 i) = some (s'.contents S (p + i)) := by
  obtain ⟨file, f, hfile, hf, hd, hseek⟩ := h.file
  have hbytes : ∀ i < n, s.machine.userByte (s.machine.get 4 + BitVec.ofNat 32 i) =
      some ((s.machine.userByte (s.machine.get 4 + BitVec.ofNat 32 i)).getD 0) := by
    intro i hi
    obtain ⟨c, hc⟩ := Option.isSome_iff_exists.mp (h.mapped i hi)
    rw [hc]
    rfl
  obtain ⟨mmu, out, hcopy, -, hout⟩ := Machine.readBuffFromUsr_spec h.tlb hbytes
  obtain ⟨disk, hwrite, hstored⟩ := h.writeAt hd hS mem out
  have hid : s.arg 6 ≠ consoleOutput := by
    have hlow := h.id.1
    rw [consoleOutput]
    omega
  have hcount : (s.arg 5).toNat = n := by
    rw [h.count]
    exact Int.toNat_natCast n
  have hfile' : ({ s with machine := { s.machine with mmu := mmu } } : SysState).descriptor (s.arg 6) = some file :=
    hfile
  rw [SysState.scWrite, Traced.result_bind, Traced.result_ofOption, hcount, hcopy, Option.bind_some, if_neg hid,
    onFile_eq h.id hfile', scWriteFile]
  have hcount' : ({ s with machine := { s.machine with mmu := mmu } } : SysState).arg 5 = n := h.count
  simp only [hf, Option.bind_some, OpenFile.write, hseek, hcount', hwrite, Option.map_some]
  refine ⟨_, rfl, ?_, fun i hi => ?_⟩
  · rw [ret_reg2, BitVec.ofInt_natCast]
  · have hin : i < n := by
      unfold OpenFile.clamp at hi
      omega
    rw [hbytes i hin]
    exact congrArg some ((hout i hin).symm.trans (hstored i hi).symm)

/-- `n` bytes of user memory from `a` on are those of `bytes`. -/
def Holds (s : SysState) (a : BitVec 32) (n : Nat) (bytes : Nat → Option UInt8) : Prop :=
  ∀ i < n, s.machine.userByte (a + BitVec.ofNat 32 i) = bytes i

/-- What SC_Read should leave: the number of bytes in register 2, the bytes of the file in the buffer, and all
    other bytes of user memory as they were. -/
structure Delivers (s s' : SysState) (S : List Nat) (p r : Nat) : Prop where
  count : s'.machine.get 2 = BitVec.ofNat 32 r
  buffer : s'.Holds (s.machine.get 4) r fun i => some (s.contents S (p + i))
  others : ∀ v, (∀ i < r, v ≠ s.machine.get 4 + BitVec.ofNat 32 i) → s'.machine.userByte v = s.machine.userByte v

end SysState

/-- **SC_READ FROM A FILE DELIVERS IFF there is nothing to deliver**: the user finds the bytes of the file in the
    buffer if and only if they were there before the call.  SC_Write does its part; so the bytes written are found
    again, by a later SC_Read at the same position, if and only if they are in the later buffer already. -/
theorem file_calls_iff (bigEndian : Bool) {s : SysState} {length p n : Nat} {S : List Nat}
    (hcall : s.FileCall length S p n) (hS : S.Nodup) (buffer mem : Bytes) (memW : Nat → Bytes) :
    let r := OpenFile.clamp length n p
    ((∃ s', (s.scRead bigEndian buffer mem).result = some s' ∧ s.Delivers s' S p r) ↔
        s.Holds (s.machine.get 4) r fun i => some (s.contents S (p + i))) ∧
      ∃ s₁, (s.scWrite bigEndian buffer memW).result = some s₁ ∧ s₁.machine.get 2 = BitVec.ofNat 32 r ∧
        ∀ s₂ : SysState, s₂.FileCall length S p n → s₂.disk = s₁.disk →
          ((∃ s₃, (s₂.scRead bigEndian buffer mem).result = some s₃ ∧ s₂.Delivers s₃ S p r ∧
              s₃.Holds (s₂.machine.get 4) r fun i => s.machine.userByte (s.machine.get 4 + BitVec.ofNat 32 i)) ↔
            s₂.Holds (s₂.machine.get 4) r fun i => s.machine.userByte (s.machine.get 4 + BitVec.ofNat 32 i)) := by
  intro r
  -- user memory is the same before and after
  have hread : ∀ t : SysState, t.FileCall length S p n → ∃ t', (t.scRead bigEndian buffer mem).result = some t' ∧
      t'.machine.get 2 = BitVec.ofNat 32 r ∧ ∀ v, t'.machine.userByte v = t.machine.userByte v :=
    fun t ht => ht.scRead buffer mem
  constructor
  · obtain ⟨s', hresult, hcount, hsame⟩ := hread s hcall
    constructor
    · rintro ⟨t, ht, hdelivers⟩ i hi
      obtain rfl : s' = t := Option.some.inj (hresult.symm.trans ht)
      rw [← hsame]
      exact hdelivers.buffer i hi
    · intro hold
      refine ⟨s', hresult, hcount, fun i hi => ?_, fun v _ => hsame v⟩
      rw [hsame]
      exact hold i hi
  · obtain ⟨s₁, hwrite, hcount, hstored⟩ := hcall.scWrite hS buffer memW
    refine ⟨s₁, hwrite, hcount, fun s₂ hcall₂ hdisk => ?_⟩
    obtain ⟨s', hresult, hcount', hsame⟩ := hread s₂ hcall₂
    have hcontents : ∀ i < r, s.machine.userByte (s.machine.get 4 + BitVec.ofNat 32 i) =
        some (s₂.contents S (p + i)) := by
      intro i hi
      rw [hstored i hi, SysState.contents, SysState.contents, hdisk]
    constructor
    · rintro ⟨t, ht, -, hholds⟩ i hi
      obtain rfl : s' = t := Option.some.inj (hresult.symm.trans ht)
      rw [← hsame]
      exact hholds i hi
    · intro hold
      refine ⟨s', hresult, ⟨hcount', fun i hi => ?_, fun v _ => hsame v⟩, fun i hi => ?_⟩
      · rw [hsame, hold i hi]
        exact hcontents i hi
      · rw [hsame]
        exact hold i hi

/-- A process with one page, `c` in the first byte of it, and an open file of one byte, 65, in sector 5.  It calls
    SC_Read or SC_Write for one byte, with the buffer at address 0. -/
def oneByteFile (c : UInt8) : SysState where
  machine :=
    { registers := (Registers.zero.write (gpr 5) 1).write (gpr 6) 3
      mainMemory := fun a => if a = 0 then c else 0
      mmu := ⟨none, some [⟨0, 0, true, false, false, false⟩], 1⟩ }
  currentThread := 0
  descriptores _ i := if i = 3 then some 7 else none
  proc := .new
  files file := if file = 7 then some ⟨⟨putWord (putWord (putWord (fun _ => 0) 0 1) 4 1) 8 5⟩, 0⟩ else none
  disk a := if a = diskOffset 5 then 65 else 0
  input _ := 0
  taken := 0
  output := []

theorem oneByteFile_userByte (c : UInt8) : (oneByteFile c).machine.userByte 0 = some c := by
  have hphysical : (oneByteFile c).machine.mmu.physical 0 false = some 0 := by
    show Mmu.physical ⟨none, some [⟨0, 0, true, false, false, false⟩], 1⟩ 0 false = some 0
    decide +kernel
  rw [Machine.userByte, hphysical]
  rfl

theorem oneByteFile_call (c : UInt8) : (oneByteFile c).FileCall 1 [5] 0 1 where
  id := by
    have harg : (oneByteFile c).arg 6 = 3 := rfl
    rw [harg]
    decide
  file := ⟨7, ⟨⟨putWord (putWord (putWord (fun _ => 0) 0 1) 4 1) 8 5⟩, 0⟩, rfl, rfl,
    ⟨by decide +kernel, by decide +kernel, by decide +kernel, rfl, by decide, by decide⟩, rfl⟩
  count := rfl
  tlb := rfl
  fits := by
    show (1 : BitVec 32).toNat ≤ numPhysPages
    decide
  mapped i hi := by
    obtain rfl : i = 0 := by omega
    exact Option.isSome_iff_exists.mpr ⟨c, oneByteFile_userByte c⟩

/-- The byte of the file is in the buffer already: SC_Read delivers. -/
theorem file_calls_same :
    ∃ s', ((oneByteFile 65).scRead false (fun _ => 0) fun _ => 0).result = some s' ∧
      (oneByteFile 65).Delivers s' [5] 0 1 := by
  refine (file_calls_iff false (oneByteFile_call 65) (by decide) (fun _ => 0) (fun _ => 0) fun _ _ => 0).1.mpr ?_
  intro i hi
  obtain rfl : i = 0 := by
    have hr : OpenFile.clamp 1 (1 : Nat) 0 = 1 := by decide
    rw [hr] at hi
    omega
  have hcontents : (oneByteFile 65).contents [5] (0 + 0) = 65 := by decide +kernel
  exact (oneByteFile_userByte 65).trans (congrArg some hcontents.symm)

/-- It is not: SC_Read returns 1, and the buffer has 0 where the file has 65. -/
theorem read_not_delivered :
    (oneByteFile 0).FileCall 1 [5] 0 1 ∧ (oneByteFile 0).contents [5] 0 = 65 ∧
      ((oneByteFile 0).scRead false (fun _ => 0) fun _ => 0).result.map
        (fun s' => (s'.machine.get 2, s'.machine.userByte 0)) = some (1, some 0) :=
  ⟨oneByteFile_call 0, by decide +kernel, by decide +kernel⟩

/-! ## The console -/

/-- A call of SC_Read from the console: the machine as the process has left it, and what there is in the kernel's
    new buffer. -/
structure ConsoleCall where
  machine : Machine
  buffer : Bytes

/-- The byte count of the call; less than 0 is 0. -/
def ConsoleCall.count (c : ConsoleCall) : Nat := (c.machine.get 5).toInt.toNat

/-- A call for the console, with a buffer that can be written. -/
structure ConsoleCall.Ok (c : ConsoleCall) : Prop where
  id : (c.machine.get 6).toInt = consoleInput
  separate : c.machine.mmu.Separate
  writable : ∀ i < c.count, c.machine.Writable (c.machine.get 4 + BitVec.ofNat 32 i)

namespace SysState

/-- What the user finds in the buffer at `a`: as many bytes as register 2 says. -/
def delivered (s : SysState) (a : BitVec 32) : List (Option UInt8) :=
  (List.range (s.machine.get 2).toNat).map fun i => s.machine.userByte (a + BitVec.ofNat 32 i)

/-- The characters taken from the console between two states. -/
def consumed (s s' : SysState) : List UInt8 := slice s.input s.taken (s'.taken - s.taken)

/-- A sequence of calls: what the buffers have after each call, and the characters taken by it. -/
def consoleReads (bigEndian : Bool) : SysState → List ConsoleCall → Option (List (Option UInt8) × List UInt8)
  | _, [] => some ([], [])
  | s, c :: cs =>
    (({ s with machine := c.machine } : SysState).scRead bigEndian c.buffer fun _ => 0).result.bind fun s' =>
      (consoleReads bigEndian s' cs).map fun r =>
        (s'.delivered (c.machine.get 4) ++ r.1, s.consumed s' ++ r.2)

end SysState

/-- The loop of SC_Read takes characters up to a newline: `k` of them, and then the newline if it has not come to
    its end. -/
theorem readLoop_spec (input : Nat → UInt8) (n i taken : Nat) (buffer : Bytes) :
    ∃ k buffer', k ≤ n ∧
      SysState.readLoop input n i taken buffer = (i + k, buffer', taken + k + if k < n then 1 else 0) ∧
      (∀ j < k, input (taken + j) ≠ 10) ∧ (k < n → input (taken + k) = 10) ∧
      (∀ j < i, buffer' j = buffer j) ∧ ∀ j < k, buffer' (i + j) = input (taken + j) := by
  induction n generalizing i taken buffer with
  | zero =>
    exact ⟨0, buffer, Nat.le_refl 0, rfl, fun j hj => absurd hj (Nat.not_lt_zero j), fun h => absurd h (Nat.lt_irrefl 0),
      fun _ _ => rfl, fun j hj => absurd hj (Nat.not_lt_zero j)⟩
  | succ n ih =>
    by_cases hnewline : input taken = 10
    · refine ⟨0, Function.update buffer i (input taken), Nat.zero_le _, ?_, fun j hj => absurd hj (Nat.not_lt_zero j),
        fun _ => hnewline, fun j hj => Function.update_of_ne (Nat.ne_of_lt hj) _ _,
        fun j hj => absurd hj (Nat.not_lt_zero j)⟩
      rw [SysState.readLoop, if_pos hnewline, if_pos (Nat.succ_pos n)]
      rfl
    · obtain ⟨k, buffer', hk, hloop, hbefore, hat, hkept, hread⟩ :=
        ih (i + 1) (taken + 1) (Function.update buffer i (input taken))
      refine ⟨k + 1, buffer', Nat.succ_le_succ hk, ?_, fun j hj => ?_, fun h => ?_, fun j hj => ?_, fun j hj => ?_⟩
      · rw [SysState.readLoop, if_neg hnewline, hloop]
        simp only [Nat.succ_lt_succ_iff, Prod.mk.injEq, true_and]
        omega
      · cases j with
        | zero => exact hnewline
        | succ j =>
          have hj' := hbefore j (by omega)
          rwa [Nat.add_assoc, Nat.add_comm 1 j] at hj'
      · have hk' := hat (by omega)
        rwa [Nat.add_assoc, Nat.add_comm 1 k] at hk'
      · rw [hkept j (by omega), Function.update_of_ne (by omega)]
      · cases j with
        | zero =>
          rw [Nat.add_zero, hkept i (Nat.lt_succ_self i), Function.update_self]
          rfl
        | succ j =>
          have hj' := hread j (by omega)
          rwa [Nat.add_assoc, Nat.add_assoc, Nat.add_comm 1 j] at hj'

section Console

theorem ConsoleCall.count_lt (c : ConsoleCall) : c.count < 2 ^ 31 := by
  have hlt := BitVec.toInt_lt (x := c.machine.get 5)
  unfold ConsoleCall.count
  omega

/-- **One call**: it takes `k` characters and delivers them, and takes a newline besides if it has taken less than it
    was asked for. -/
theorem ConsoleCall.Ok.read {c : ConsoleCall} (hc : c.Ok) (bigEndian : Bool) (s : SysState) :
    ∃ s' k, (({ s with machine := c.machine } : SysState).scRead bigEndian c.buffer fun _ => 0).result = some s' ∧
      k ≤ c.count ∧ (∀ j < k, s.input (s.taken + j) ≠ 10) ∧ (k < c.count → s.input (s.taken + k) = 10) ∧
      s'.input = s.input ∧ s'.taken = s.taken + k + (if k < c.count then 1 else 0) ∧
      s'.delivered (c.machine.get 4) = (slice s.input s.taken k).map some := by
  obtain ⟨k, buffer, hk, hloop, hbefore, hat, -, hread⟩ := readLoop_spec s.input c.count 0 s.taken c.buffer
  have hcount := c.count_lt
  obtain ⟨m, hwrite, -, -, hbytes, -⟩ :
      ∃ m, c.machine.writeBuffToUsr bigEndian buffer (c.machine.get 4) (0 + k) = some m ∧ _ ∧ _ ∧ _ ∧ _ :=
    Machine.writeBuffToUsr_spec hc.separate (by omega) fun i hi => hc.writable i (by omega)
  let s' : SysState :=
    ({ s with machine := m, taken := s.taken + k + if k < c.count then 1 else 0 } : SysState).ret
      (BitVec.ofNat 32 (0 + k))
  have hresult : (({ s with machine := c.machine } : SysState).scRead bigEndian c.buffer fun _ => 0).result =
      some s' := by
    have hid : ({ s with machine := c.machine } : SysState).arg 6 = consoleInput := hc.id
    have hread : SysState.readLoop s.input (SysState.arg { s with machine := c.machine } 5).toNat 0 s.taken c.buffer =
        (0 + k, buffer, s.taken + k + if k < c.count then 1 else 0) := hloop
    rw [SysState.scRead, if_pos hid, Traced.result_ofOption]
    simp only [SysState.scReadConsole, hread, hwrite, Option.map_some]
    rfl
  refine ⟨s', k, hresult, hk, hbefore, hat, rfl, rfl, ?_⟩
  have hreg : (s'.machine.get 2).toNat = k := by
    rw [SysState.ret_reg2, BitVec.toNat_ofNat]
    omega
  rw [SysState.delivered, hreg, slice, List.map_map]
  refine List.map_congr_left fun i hi => ?_
  have hlt := List.mem_range.mp hi
  have hbyte := hbytes i (by omega)
  have hchar := hread i hlt
  rw [Nat.zero_add] at hchar
  rw [hchar] at hbyte
  exact hbyte

/-- What a sequence of calls delivers is not longer than what it takes, and it is the same IFF no newline is among
    the characters asked for. -/
theorem consoleReads_spec (bigEndian : Bool) (calls : List ConsoleCall) (hcalls : ∀ c ∈ calls, c.Ok) (s : SysState) :
    ∃ given taken, SysState.consoleReads bigEndian s calls = some (given, taken) ∧ given.length ≤ taken.length ∧
      (given = taken.map some ↔ ∀ i < (calls.map ConsoleCall.count).sum, s.input (s.taken + i) ≠ 10) := by
  induction calls generalizing s with
  | nil =>
    refine ⟨[], [], rfl, Nat.le_refl 0, fun _ i hi => ?_, fun _ => rfl⟩
    exact absurd hi (Nat.not_lt_zero i)
  | cons c cs ih =>
    obtain ⟨s', k, hresult, hk, hbefore, hat, hinput, htaken, hgiven⟩ :=
      (hcalls c (List.mem_cons_self ..)).read bigEndian s
    obtain ⟨given, taken, hrest, hle, hiff⟩ := ih (fun c' hc' => hcalls c' (List.mem_cons_of_mem c hc')) s'
    have hreads : SysState.consoleReads bigEndian s (c :: cs) =
        some (s'.delivered (c.machine.get 4) ++ given, s.consumed s' ++ taken) := by
      rw [SysState.consoleReads, hresult, Option.bind_some, hrest]
      rfl
    have hsum : ((c :: cs).map ConsoleCall.count).sum = c.count + (cs.map ConsoleCall.count).sum := rfl
    have hconsumed : s.consumed s' = slice s.input s.taken (k + if k < c.count then 1 else 0) := by
      rw [SysState.consumed, htaken, Nat.add_assoc, Nat.add_sub_cancel_left]
    refine ⟨_, _, hreads, ?_, ?_⟩
    · rw [List.length_append, List.length_append, hgiven, hconsumed, List.length_map, length_slice, length_slice]
      omega
    · rcases Nat.lt_or_eq_of_le hk with hlt | rfl
      · -- a newline was taken: what is delivered is shorter by one, and the newline is among what was asked for
        constructor
        · intro heq
          have hlength := congrArg List.length heq
          rw [List.length_append, List.length_map, List.length_append, hgiven, hconsumed, if_pos hlt,
            List.length_map, length_slice, length_slice] at hlength
          omega
        · intro hall
          exact absurd (hat hlt) (hall k (by omega))
      · -- all was delivered; the rest starts behind it
        rw [if_neg (Nat.lt_irrefl _), Nat.add_zero] at hconsumed htaken
        rw [hgiven, hconsumed, List.map_append, List.append_cancel_left_eq, hiff, hinput, htaken, hsum]
        constructor
        · intro hall i hi
          by_cases hin : i < c.count
          · exact hbefore i hin
          · have hrest := hall (i - c.count) (by omega)
            rwa [show s.taken + c.count + (i - c.count) = s.taken + i by omega] at hrest
        · intro hall i hi
          rw [Nat.add_assoc]
          exact hall (c.count + i) (by omega)

end Console

/-- **SC_READ FROM THE CONSOLE DELIVERS WHAT IT TAKES IFF there is no newline**: for every input and every sequence of
    calls by one process, the bytes that the buffers have are the characters taken from the console if and only if
    no newline is among the characters that were asked for. -/
theorem console_read_iff (bigEndian : Bool) (s : SysState) (calls : List ConsoleCall) (hcalls : ∀ c ∈ calls, c.Ok) :
    ∃ given taken, SysState.consoleReads bigEndian s calls = some (given, taken) ∧
      (given = taken.map some ↔ ∀ i < (calls.map ConsoleCall.count).sum, s.input (s.taken + i) ≠ 10) := by
  obtain ⟨given, taken, hreads, -, hiff⟩ := consoleReads_spec bigEndian calls hcalls s
  exact ⟨given, taken, hreads, hiff⟩

/-- The process of `oneByteFile` asks for one character of the console. -/
def askForOne : ConsoleCall :=
  { machine := { (oneByteFile 0).machine with registers := Registers.zero.write (gpr 5) 1 }, buffer := fun _ => 0 }

theorem askForOne_ok : askForOne.Ok where
  id := by decide +kernel
  separate :=
    { tlb := rfl
      apart := by
        have honly : ∀ i f ro, askForOne.machine.mmu.place i = some (f, ro) → i = 0 := by
          intro i f ro hplace
          apply Nat.eq_zero_of_not_pos
          intro hpos
          have hout : askForOne.machine.mmu.pageTableSize.toNat ≤ i := hpos
          rw [Mmu.place, Mmu.entryAt, if_pos hout] at hplace
          cases hplace
        intro i j f ro ro' hi hj
        rw [honly i f ro hi, honly j f ro' hj] }
  writable i hi := by
    have hcount : askForOne.count = 1 := by decide +kernel
    obtain rfl : i = 0 := by omega
    decide +kernel

/-- The process asks twice, and gets the two characters `a` that it has taken. -/
theorem console_read_twice :
    SysState.consoleReads false { oneByteFile 0 with input := fun _ => 97 } [askForOne, askForOne] =
      some ([some 97, some 97], [97, 97]) := by
  obtain ⟨given, taken, hreads, hiff⟩ :=
    console_read_iff false { oneByteFile 0 with input := fun _ => 97 } [askForOne, askForOne]
      fun c hc => by
        rcases List.mem_cons.mp hc with rfl | hc
        · exact askForOne_ok
        · obtain rfl := List.mem_singleton.mp hc
          exact askForOne_ok
  have htaken : (SysState.consoleReads false { oneByteFile 0 with input := fun _ => 97 }
      [askForOne, askForOne]).map Prod.snd = some [97, 97] := by decide +kernel
  rw [hreads] at htaken ⊢
  obtain rfl : taken = [97, 97] := Option.some.inj htaken
  have hchar : (97 : UInt8) ≠ 10 := by decide
  rw [hiff.mpr fun _ _ => hchar]
  rfl

/-- The process asks for one character, and a newline is taken: it gets nothing. -/
theorem console_read_newline :
    askForOne.Ok ∧
      SysState.consoleReads false { oneByteFile 0 with input := fun _ => 10 } [askForOne] = some ([], [10]) :=
  ⟨askForOne_ok, by decide +kernel⟩

end Nachos
