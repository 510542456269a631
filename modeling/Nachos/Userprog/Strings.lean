/-
  `userprog/user.cc`, `userprog/exception.cc` — strings of user programs.

  The kernel reads a string from user memory character by character, up to the NUL, into a buffer of its own.  Nobody
  tells the loops how long the buffer is.

  1. **The loops** — `readStrFromUsr`, `readStrFromUsrSpecial` (which skips separators first and also stops at one),
     `writeStrToUsr`, and the system calls that use them.  Every `ReadMem` and every store into a buffer is recorded.

  2. **What a loop does, in terms of user memory** — a `ReadMem` changes only bits of the page table, so all of them see
     the same user memory (`View`).  A string of `n` characters at `a` is `StrAt`; the loop returns exactly if there is
     one (`copyLoop_result`, `copyLoop_returns`).

  3. **The buffers** (`string_buffers_iff`) — no store is behind the end of a buffer IFF the string ends before, or user
     memory does.

  4. **Arguments** (`arguments_tokenised`) — the calls of `SC_Exec` take tokens apart that are laid out with separators
     between them.

  5. **There and back** (`writeStr_readStr_iff`) — `writeStrToUsr` does not write the NUL, so a string comes back as it
     was IFF there was a NUL behind it already.
-/
import Nachos.Lib.Traced
import Nachos.Userprog.User

namespace Nachos

/-! ## The code -/

/-- The kernel's buffers for strings. -/
inductive StrBuffer where
  /-- `char name[64]` of `SC_Create` and `SC_Open`. -/
  | name
  /-- `char filename[128]` of `SC_Exec`. -/
  | filename
  /-- `argumentos[i]` of `char argumentos[argc][128]` of `SC_Exec`. -/
  | argumentos (i : Nat)
  deriving DecidableEq

/-- The size of a buffer. -/
def StrBuffer.size : StrBuffer → Nat
  | .name => 64
  | .filename => 128
  | .argumentos _ => 128

/-- The end of a string. -/
def isNul (c : UInt8) : Bool := c == 0

/-- The end of a token: the NUL or a separator. -/
def endsToken (divide c : UInt8) : Bool := c == 0 || c == divide

/-- What the loops do: `ReadMem` at an address, or a store into the kernel's string. -/
inductive StrAccess where
  | read (addr : BitVec 32)
  | store (outStr : StrBuffer) (i : Nat)
  deriving DecidableEq

/-- A store that is not behind the end of its buffer. -/
def StrAccess.InBuffer : StrAccess → Prop
  | .read _ => True
  | .store outStr i => i < outStr.size

namespace Machine

/-- `machine->ReadMem(addr, 1, &value)`. -/
def readChar (m : Machine) (bigEndian : Bool) (addr : BitVec 32) : Traced StrAccess (Machine × UInt8) :=
  ⟨[.read addr], m.readUsr bigEndian addr⟩

/-- `outStr[i] = …`. -/
def storeChar (outStr : StrBuffer) (i : Nat) : Traced StrAccess Unit := ⟨[.store outStr i], some ()⟩

/-- The loop of both functions that read strings: copy `value`, the character in hand, and take the next one, until a
    character that `ends` the string; then store the NUL.  The result has the string and the address behind the last
    character read. -/
def copyLoop (bigEndian : Bool) (ends : UInt8 → Bool) (outStr : StrBuffer) :
    Nat → Machine → Bytes → Nat → BitVec 32 → UInt8 → Traced StrAccess (Machine × Bytes × BitVec 32)
  | 0, _, _, _, _, _ => Traced.stop
  | fuel + 1, m, out, i, nextAddr, value =>
    if ends value then do
      storeChar outStr i
      pure (m, Function.update out i 0, nextAddr)
    else do
      storeChar outStr i
      let next ← m.readChar bigEndian nextAddr
      copyLoop bigEndian ends outStr fuel next.1 (Function.update out i value) (i + 1) (nextAddr + 1) next.2

/-- `while ((char) value == divide)`: the separators before a token. -/
def skipLoop (bigEndian : Bool) (divide : UInt8) :
    Nat → Machine → BitVec 32 → UInt8 → Traced StrAccess (Machine × BitVec 32 × UInt8)
  | 0, _, _, _ => Traced.stop
  | fuel + 1, m, nextAddr, value =>
    if value = divide then do
      let next ← m.readChar bigEndian nextAddr
      skipLoop bigEndian divide fuel next.1 (nextAddr + 1) next.2
    else pure (m, nextAddr, value)

/-- `readStrFromUsr(usrAddr, outStr)`; `out` is what is in the buffer before. -/
def readStrFromUsr (m : Machine) (bigEndian : Bool) (usrAddr : BitVec 32) (outStr : StrBuffer) (out : Bytes)
    (fuel : Nat) : Traced StrAccess (Machine × Bytes × BitVec 32) := do
  let first ← m.readChar bigEndian usrAddr
  copyLoop bigEndian isNul outStr fuel first.1 out 0 (usrAddr + 1) first.2

/-- `readStrFromUsrSpecial(usrAddr, outStr, divide)`; it returns `nextAddr`. -/
def readStrFromUsrSpecial (m : Machine) (bigEndian : Bool) (divide : UInt8) (usrAddr : BitVec 32)
    (outStr : StrBuffer) (out : Bytes) (fuel : Nat) : Traced StrAccess (Machine × Bytes × BitVec 32) := do
  let first ← m.readChar bigEndian usrAddr
  let token ← skipLoop bigEndian divide fuel first.1 (usrAddr + 1) first.2
  copyLoop bigEndian (endsToken divide) outStr fuel token.1 out 0 token.2.1 token.2.2

/-- `for (i = 0; i < argc; i++) nextAddr = readStrFromUsrSpecial(nextAddr, argumentos[i], ' ')`, for the `n` arguments
    that are left, with any separator. -/
def readArguments (bigEndian : Bool) (divide : UInt8) (argumentos : Nat → Bytes) :
    Nat → Machine → BitVec 32 → Nat → Nat → Traced StrAccess (Machine × List Bytes)
  | 0, m, _, _, _ => pure (m, [])
  | n + 1, m, nextAddr, i, fuel => do
    let r ← m.readStrFromUsrSpecial bigEndian divide nextAddr (.argumentos i) (argumentos i) fuel
    let rest ← readArguments bigEndian divide argumentos n r.1 r.2.2 (i + 1) fuel
    pure (rest.1, r.2.1 :: rest.2)

/-- `SC_Create`, up to the call of `fileSystem->Create(name, 1024)`: the name. -/
def createName (m : Machine) (bigEndian : Bool) (name : Bytes) (fuel : Nat) :
    Traced StrAccess (Machine × Bytes × BitVec 32) :=
  m.readStrFromUsr bigEndian (m.registers (gpr 4)) .name name fuel

/-- `SC_Open`, up to the call of `fileSystem->Open(name)`: the name. -/
def openName (m : Machine) (bigEndian : Bool) (name : Bytes) (fuel : Nat) :
    Traced StrAccess (Machine × Bytes × BitVec 32) :=
  m.readStrFromUsr bigEndian (m.registers (gpr 4)) .name name fuel

/-- `SC_Exec`, up to the call of `fileSystem->Open(filename)`: the file name and the arguments. -/
def execNames (m : Machine) (bigEndian : Bool) (filename : Bytes) (argumentos : Nat → Bytes) (fuel : Nat) :
    Traced StrAccess (Bytes × List Bytes) := do
  let file ← m.readStrFromUsr bigEndian (m.registers (gpr 4)) .filename filename fuel
  let arguments ← readArguments bigEndian 32 argumentos (m.registers (gpr 5)).toInt.toNat file.1
    (m.registers (gpr 6)) 0 fuel
  pure (file.2.1, arguments.2)

/-- `writeStrToUsr(str, usrAddr)`, from the `i`-th character on. -/
def writeStrToUsr (bigEndian : Bool) (str : Bytes) (usrAddr : BitVec 32) : Nat → Machine → Nat → Option Machine
  | 0, _, _ => none
  | fuel + 1, m, i =>
    if str i = 0 then some m
    else
      (m.writeUsr bigEndian (usrAddr + BitVec.ofNat 32 i) (str i)).bind fun m =>
        writeStrToUsr bigEndian str usrAddr fuel m (i + 1)

end Machine

/-! ## Strings in user memory -/

/-- User memory, as a program sees it. -/
abbrev UserMemory := BitVec 32 → Option UInt8

section Memory

variable (mem : UserMemory) (ends : UInt8 → Bool)

/-- A string of `n` characters at `a`, and behind it a character that ends it. -/
def StrAt : BitVec 32 → Nat → Prop
  | a, 0 => ∃ c, mem a = some c ∧ ends c = true
  | a, n + 1 => (∃ c, mem a = some c ∧ ends c = false) ∧ StrAt (a + 1) n

/-- The string at `a` and its NUL have `size` bytes at most; or user memory ends before the string does, and not more
    than `size` bytes behind `a`. -/
def StrFits (a : BitVec 32) (size : Nat) : Prop :=
  (∃ k < size, ∃ c, mem (a + BitVec.ofNat 32 k) = some c ∧ ends c = true) ∨
    ∃ k ≤ size, mem (a + BitVec.ofNat 32 k) = none

/-- Exactly `d` separators at `a`. -/
def SepsAt (divide : UInt8) : BitVec 32 → Nat → Prop
  | a, 0 => mem a ≠ some divide
  | a, d + 1 => mem a = some divide ∧ SepsAt divide (a + 1) d

/-- From `a` on there is a token, after some separators, and `b` is behind the character that ends it. -/
def TokenAt (divide : UInt8) (a b : BitVec 32) : Prop :=
  ∃ d n, SepsAt mem divide a d ∧ StrAt mem (endsToken divide) (a + BitVec.ofNat 32 d) n ∧
    b = a + BitVec.ofNat 32 (d + n + 1)

/-- The token from `a` on fits. -/
def TokenFits (divide : UInt8) (a : BitVec 32) (size : Nat) : Prop :=
  ∀ d, SepsAt mem divide a d → StrFits mem (endsToken divide) (a + BitVec.ofNat 32 d) size

/-- The `n` tokens from `a` on fit, each of those that there are. -/
def TokensFit (divide : UInt8) (size : Nat) : Nat → BitVec 32 → Prop
  | 0, _ => True
  | n + 1, a => TokenFits mem divide a size ∧ ∀ b, TokenAt mem divide a b → TokensFit divide size n b

end Memory

section Memory

variable {mem : UserMemory} {ends : UInt8 → Bool} {a : BitVec 32} {c : UInt8}

theorem addr_zero (a : BitVec 32) : a + BitVec.ofNat 32 0 = a := BitVec.add_zero a

theorem addr_succ (a : BitVec 32) (k : Nat) : a + 1 + BitVec.ofNat 32 k = a + BitVec.ofNat 32 (k + 1) := by
  rw [BitVec.add_assoc, Nat.add_comm k 1, BitVec.ofNat_add]
  rfl

theorem addr_add (a : BitVec 32) (j k : Nat) :
    a + BitVec.ofNat 32 j + BitVec.ofNat 32 k = a + BitVec.ofNat 32 (j + k) := by
  rw [BitVec.add_assoc, BitVec.ofNat_add]

theorem addr_next (a : BitVec 32) (k : Nat) : a + BitVec.ofNat 32 k + 1 = a + BitVec.ofNat 32 (k + 1) :=
  addr_add a k 1

theorem strFits_none {size : Nat} (h : mem a = none) : StrFits mem ends a size := by
  refine Or.inr ⟨0, Nat.zero_le _, ?_⟩
  rw [addr_zero]
  exact h

theorem strFits_zero (h : mem a = some c) : ¬ StrFits mem ends a 0 := by
  rintro (⟨k, hk, -⟩ | ⟨k, hk, hnone⟩)
  · omega
  · obtain rfl : k = 0 := by omega
    rw [addr_zero, h] at hnone
    cases hnone

theorem strFits_succ {size : Nat} (h : mem a = some c) :
    StrFits mem ends a (size + 1) ↔ ends c = true ∨ StrFits mem ends (a + 1) size := by
  unfold StrFits
  constructor
  · rintro (⟨k, hk, c', hc', hend⟩ | ⟨k, hk, hnone⟩)
    · cases k with
      | zero =>
        rw [addr_zero, h] at hc'
        obtain rfl := Option.some.inj hc'
        exact Or.inl hend
      | succ k => exact Or.inr (Or.inl ⟨k, by omega, c', by rw [addr_succ]; exact hc', hend⟩)
    · cases k with
      | zero =>
        rw [addr_zero, h] at hnone
        cases hnone
      | succ k => exact Or.inr (Or.inr ⟨k, by omega, by rw [addr_succ]; exact hnone⟩)
  · rintro (hend | ⟨k, hk, c', hc', hend⟩ | ⟨k, hk, hnone⟩)
    · exact Or.inl ⟨0, by omega, c, by rw [addr_zero]; exact h, hend⟩
    · exact Or.inl ⟨k + 1, by omega, c', by rw [← addr_succ]; exact hc', hend⟩
    · exact Or.inr ⟨k + 1, by omega, by rw [← addr_succ]; exact hnone⟩

/-- A string begins with a character. -/
theorem StrAt.first {n : Nat} (h : StrAt mem ends a n) : ∃ c, mem a = some c := by
  cases n with
  | zero =>
    obtain ⟨c, hc, -⟩ := h
    exact ⟨c, hc⟩
  | succ n =>
    obtain ⟨⟨c, hc, -⟩, -⟩ := h
    exact ⟨c, hc⟩

/-- Where there is something behind the separators, there is something at `a`. -/
theorem SepsAt.first {d : Nat} {c : UInt8} (hseps : SepsAt mem divide a d)
    (hc : mem (a + BitVec.ofNat 32 d) = some c) : ∃ first, mem a = some first := by
  cases d with
  | zero =>
    rw [addr_zero] at hc
    exact ⟨c, hc⟩
  | succ d => exact ⟨divide, hseps.1⟩

/-- Whether a string ends here is said by its first character. -/
theorem strAt_zero (h : mem a = some c) : StrAt mem ends a 0 ↔ ends c = true := by
  constructor
  · rintro ⟨c', hc', hend⟩
    rw [h] at hc'
    obtain rfl := Option.some.inj hc'
    exact hend
  · intro hend
    exact ⟨c, h, hend⟩

theorem strAt_succ {n : Nat} (h : mem a = some c) :
    StrAt mem ends a (n + 1) ↔ ends c = false ∧ StrAt mem ends (a + 1) n := by
  constructor
  · rintro ⟨⟨c', hc', hmore⟩, hrest⟩
    rw [h] at hc'
    obtain rfl := Option.some.inj hc'
    exact ⟨hmore, hrest⟩
  · rintro ⟨hmore, hrest⟩
    exact ⟨⟨c, h, hmore⟩, hrest⟩

/-- There is one string at an address. -/
theorem StrAt.unique {n n' : Nat} (h : StrAt mem ends a n) (h' : StrAt mem ends a n') : n = n' := by
  induction n generalizing a n' with
  | zero =>
    obtain ⟨c, hc, hend⟩ := h
    cases n' with
    | zero => rfl
    | succ n' =>
      have hmore := ((strAt_succ hc).mp h').1
      rw [hend] at hmore
      cases hmore
  | succ n ih =>
    obtain ⟨⟨c, hc, hmore⟩, hrest⟩ := h
    cases n' with
    | zero =>
      have hend := (strAt_zero hc).mp h'
      rw [hend] at hmore
      cases hmore
    | succ n' =>
      rw [ih hrest h'.2]

end Memory

/-! ## The loops against user memory -/

namespace Machine

/-- The machine's user memory. -/
structure View (m : Machine) (mem : UserMemory) : Prop where
  tlb : m.mmu.tlb = none
  byte : m.userByte = mem

section Loops

variable {m : Machine} {mem : UserMemory} {bigEndian : Bool} {ends : UInt8 → Bool} {outStr : StrBuffer}
  {a : BitVec 32} {c value divide : UInt8} {out : Bytes} {i fuel : Nat} {P : StrAccess → Prop}

theorem View.readChar_none (h : m.View mem) (bigEndian : Bool) (ha : mem a = none) :
    (m.readChar bigEndian a).result = none := by
  have hread : (m.readUsr bigEndian a).map Prod.snd = m.userByte a := readUsr_userByte h.tlb
  rw [h.byte, ha] at hread
  exact Option.map_eq_none_iff.mp hread

/-- A byte that is read, and the machine after it. -/
theorem View.readChar (h : m.View mem) (bigEndian : Bool) (ha : mem a = some c) :
    ∃ m', (m.readChar bigEndian a).result = some (m', c) ∧ m'.View mem := by
  have hbyte : m.userByte a = some c := by
    rw [h.byte]
    exact ha
  obtain ⟨mmu, hread, hsame⟩ : ∃ mmu, m.readUsr bigEndian a = some ({ m with mmu := mmu }, c) ∧
    m.mmu.SameView mmu := readUsr_spec h.tlb hbyte
  refine ⟨{ m with mmu := mmu }, hread, ⟨hsame.tlb, ?_⟩⟩
  rw [← h.byte]
  funext v
  show (mmu.physical v false).map m.mainMemory = (m.mmu.physical v false).map m.mainMemory
  rw [hsame.physical]

/-- What `ReadMem` returns is in user memory. -/
theorem View.of_readChar (h : m.View mem) {r : Machine × UInt8} (hr : (m.readChar bigEndian a).result = some r) :
    mem a = some r.2 ∧ r.1.View mem := by
  cases hc : mem a with
  | none =>
    rw [h.readChar_none bigEndian hc] at hr
    cases hr
  | some c =>
    obtain ⟨m', hget, hview⟩ := h.readChar bigEndian hc
    rw [hget] at hr
    obtain rfl := Option.some.inj hr
    exact ⟨rfl, hview⟩

@[simp] theorem within_readChar : Traced.Within P (m.readChar bigEndian a) ↔ P (.read a) := List.forall_mem_singleton

@[simp] theorem within_storeChar : Traced.Within P (storeChar outStr i) ↔ P (.store outStr i) :=
  List.forall_mem_singleton

/-- After a store the code goes on. -/
theorem result_storeChar_bind {α : Type} (f : Unit → Traced StrAccess α) :
    (storeChar outStr i >>= f).result = (f ()).result := rfl

theorem within_storeChar_bind {α : Type} {f : Unit → Traced StrAccess α} :
    Traced.Within P (storeChar outStr i >>= f) ↔ P (.store outStr i) ∧ Traced.Within P (f ()) := by
  rw [Traced.within_bind, within_storeChar]
  exact ⟨fun h => ⟨h.1, h.2 () rfl⟩, fun h => ⟨h.1, fun _ _ => h.2⟩⟩

/-! ### Fuel -/

theorem grows_copyLoop (m : Machine) (out : Bytes) (i : Nat) (a : BitVec 32) (value : UInt8) :
    Traced.Grows fun fuel => copyLoop bigEndian ends outStr fuel m out i a value := by
  intro fuel
  induction fuel generalizing m out i a value with
  | zero => exact Traced.cut_stop _
  | succ fuel ih =>
    show Traced.Cut (copyLoop bigEndian ends outStr (fuel + 1) m out i a value)
      (copyLoop bigEndian ends outStr (fuel + 1 + 1) m out i a value)
    rw [copyLoop, copyLoop]
    split
    · exact .refl _
    · exact (Traced.Cut.refl _).bind fun _ => (Traced.Cut.refl _).bind fun next => ih _ _ _ _ _

theorem grows_skipLoop (m : Machine) (a : BitVec 32) (value : UInt8) :
    Traced.Grows fun fuel => skipLoop bigEndian divide fuel m a value := by
  intro fuel
  induction fuel generalizing m a value with
  | zero => exact Traced.cut_stop _
  | succ fuel ih =>
    show Traced.Cut (skipLoop bigEndian divide (fuel + 1) m a value)
      (skipLoop bigEndian divide (fuel + 1 + 1) m a value)
    rw [skipLoop, skipLoop]
    split
    · exact (Traced.Cut.refl _).bind fun next => ih _ _ _
    · exact .refl _

theorem grows_readStrFromUsr (m : Machine) (a : BitVec 32) (out : Bytes) :
    Traced.Grows (m.readStrFromUsr bigEndian a outStr out) :=
  (Traced.grows_const _).bind fun _ => grows_copyLoop _ _ _ _ _

theorem grows_readStrFromUsrSpecial (m : Machine) (a : BitVec 32) (out : Bytes) :
    Traced.Grows (m.readStrFromUsrSpecial bigEndian divide a outStr out) :=
  (Traced.grows_const _).bind fun _ => (grows_skipLoop _ _ _).bind fun _ => grows_copyLoop _ _ _ _ _

theorem grows_readArguments (argumentos : Nat → Bytes) (n : Nat) (m : Machine) (a : BitVec 32) (i : Nat) :
    Traced.Grows (readArguments bigEndian divide argumentos n m a i) := by
  induction n generalizing m a i with
  | zero => exact Traced.grows_const _
  | succ n ih =>
    exact (grows_readStrFromUsrSpecial _ _ _).bind fun _ => (ih _ _ _).bind fun _ => Traced.grows_const _

/-! ### The copying loop -/

/-- What the loop has copied, when it returns: the string at `a`. -/
theorem copyLoop_result (h : m.View mem) (ha : mem a = some value) {r : Machine × Bytes × BitVec 32}
    (hr : (copyLoop bigEndian ends outStr fuel m out i (a + 1) value).result = some r) :
    ∃ n, StrAt mem ends a n ∧ r.2.2 = a + BitVec.ofNat 32 (n + 1) ∧ r.1.View mem ∧
      (∀ k < n, mem (a + BitVec.ofNat 32 k) = some (r.2.1 (i + k))) ∧ r.2.1 (i + n) = 0 ∧
      ∀ j < i, r.2.1 j = out j := by
  induction fuel generalizing m out i a value with
  | zero => cases hr
  | succ fuel ih =>
    rw [copyLoop] at hr
    by_cases hend : ends value = true
    · rw [if_pos hend, result_storeChar_bind] at hr
      obtain rfl := Option.some.inj hr
      refine ⟨0, ⟨value, ha, hend⟩, rfl, h, fun k hk => absurd hk (Nat.not_lt_zero k), Function.update_self _ _ _,
        fun j hj => Function.update_of_ne (by omega) _ _⟩
    · rw [if_neg hend, result_storeChar_bind, Traced.result_bind] at hr
      obtain ⟨next, hget, hrest⟩ := Option.bind_eq_some_iff.mp hr
      obtain ⟨hnext, hview⟩ := h.of_readChar hget
      obtain ⟨n, hstr, haddr, hview', hcopied, hnul, hbefore⟩ := ih hview hnext hrest
      refine ⟨n + 1, ⟨⟨value, ha, Bool.eq_false_iff.mpr hend⟩, hstr⟩, ?_, hview', fun k hk => ?_, ?_, fun j hj => ?_⟩
      · rw [haddr, addr_succ]
      · cases k with
        | zero =>
          rw [addr_zero, Nat.add_zero, hbefore i (Nat.lt_succ_self i), Function.update_self]
          exact ha
        | succ k =>
          rw [← addr_succ, hcopied k (by omega), Nat.add_right_comm]
          rfl
      · rw [show i + (n + 1) = i + 1 + n by omega]
        exact hnul
      · rw [hbefore j (by omega), Function.update_of_ne (by omega)]

/-- The loop returns if there is a string. -/
theorem copyLoop_returns {n : Nat} (bigEndian : Bool) (outStr : StrBuffer) (out : Bytes) (i : Nat) (h : m.View mem)
    (ha : mem a = some value) (hstr : StrAt mem ends a n) (hfuel : n < fuel) :
    ∃ r, (copyLoop bigEndian ends outStr fuel m out i (a + 1) value).result = some r := by
  induction n generalizing m out i a value fuel with
  | zero =>
    have hend := (strAt_zero ha).mp hstr
    obtain ⟨fuel, rfl⟩ : ∃ fuel', fuel = fuel' + 1 := ⟨fuel - 1, by omega⟩
    rw [copyLoop, if_pos hend, result_storeChar_bind]
    exact ⟨_, rfl⟩
  | succ n ih =>
    obtain ⟨hmore, hrest⟩ := (strAt_succ ha).mp hstr
    obtain ⟨fuel, rfl⟩ : ∃ fuel', fuel = fuel' + 1 := ⟨fuel - 1, by omega⟩
    obtain ⟨c', hc'⟩ := hrest.first
    obtain ⟨m', hget, hview⟩ := h.readChar bigEndian hc'
    have hnot : ¬ ends value = true := Bool.eq_false_iff.mp hmore
    rw [copyLoop, if_neg hnot, result_storeChar_bind, Traced.result_bind, hget, Option.bind_some]
    exact ih _ _ hview hc' hrest (by omega)

/-- The bytes that the loop reads when there is a string: those of the string. -/
theorem within_copyLoop_of_strAt {n : Nat} (h : m.View mem) (ha : mem a = some value) (hstr : StrAt mem ends a n)
    (hstore : ∀ i, P (.store outStr i)) (hread : ∀ k < n, P (.read (a + BitVec.ofNat 32 (k + 1)))) :
    Traced.Within P (copyLoop bigEndian ends outStr fuel m out i (a + 1) value) := by
  induction fuel generalizing m out i a value n with
  | zero => exact Traced.within_stop
  | succ fuel ih =>
    rw [copyLoop]
    by_cases hend : ends value = true
    · rw [if_pos hend, within_storeChar_bind]
      exact ⟨hstore i, Traced.within_pure _⟩
    · rw [if_neg hend, within_storeChar_bind, Traced.within_bind, within_readChar]
      cases n with
      | zero => exact absurd ((strAt_zero ha).mp hstr) hend
      | succ n =>
        refine ⟨hstore i, hread 0 (by omega), fun next hget => ?_⟩
        obtain ⟨hnext, hview⟩ := h.of_readChar hget
        refine ih hview hnext hstr.2 fun k hk => ?_
        rw [addr_succ]
        exact hread (k + 1) (by omega)

/-- The loop stores something, whatever comes. -/
theorem lt_of_within_copyLoop (h : ∀ fuel, Traced.Within StrAccess.InBuffer
    (copyLoop bigEndian ends outStr fuel m out i a value)) : i < outStr.size := by
  have hone := h 1
  rw [copyLoop] at hone
  split at hone
  · exact (within_storeChar_bind.mp hone).1
  · exact (within_storeChar_bind.mp hone).1

/-- **The loop and its buffer**: with `room` places left, it stays in the buffer IFF the string fits into them. -/
theorem within_copyLoop {room : Nat} (bigEndian : Bool) (out : Bytes) (h : m.View mem) (ha : mem a = some value)
    (hroom : outStr.size = i + room) :
    (∀ fuel, Traced.Within StrAccess.InBuffer (copyLoop bigEndian ends outStr fuel m out i (a + 1) value)) ↔
      StrFits mem ends a room := by
  induction room generalizing m out i a value with
  | zero =>
    refine iff_of_false (fun hall => ?_) (strFits_zero ha)
    have hlt := lt_of_within_copyLoop hall
    omega
  | succ room ih =>
    have hi : StrAccess.InBuffer (.store outStr i) := show i < outStr.size by omega
    rw [strFits_succ ha]
    by_cases hend : ends value = true
    · refine iff_of_true (fun fuel => ?_) (Or.inl hend)
      cases fuel with
      | zero => exact Traced.within_stop
      | succ fuel =>
        rw [copyLoop, if_pos hend, within_storeChar_bind]
        exact ⟨hi, Traced.within_pure _⟩
    · rw [or_iff_right hend]
      cases hnext : mem (a + 1) with
      | none =>
        -- user memory ends here, and so does the call
        refine iff_of_true (fun fuel => ?_) (strFits_none hnext)
        cases fuel with
        | zero => exact Traced.within_stop
        | succ fuel =>
          rw [copyLoop, if_neg hend, within_storeChar_bind, Traced.within_bind, within_readChar,
            h.readChar_none bigEndian hnext]
          exact ⟨hi, trivial, fun _ hr => by cases hr⟩
      | some c =>
        obtain ⟨m', hget, hview⟩ := h.readChar bigEndian hnext
        rw [← ih (m := m') (i := i + 1) (Function.update out i value) hview hnext (by omega)]
        constructor
        · intro hall fuel
          have hmore := hall (fuel + 1)
          rw [copyLoop, if_neg hend, within_storeChar_bind, Traced.within_bind] at hmore
          exact hmore.2.2 _ hget
        · intro hall fuel
          cases fuel with
          | zero => exact Traced.within_stop
          | succ fuel =>
            rw [copyLoop, if_neg hend, within_storeChar_bind, Traced.within_bind, within_readChar]
            refine ⟨hi, trivial, fun r hr => ?_⟩
            rw [hget] at hr
            obtain rfl := Option.some.inj hr
            exact hall fuel

/-! ### Names -/

/-- The first character is read before the loop. -/
theorem forall_within_readChar_bind {α : Type} {f : Nat → Machine × UInt8 → Traced StrAccess α}
    (hP : P (.read a)) (hf : ∀ r, Traced.Grows fun fuel => f fuel r) :
    (∀ fuel, Traced.Within P (m.readChar bigEndian a >>= f fuel)) ↔
      ∀ r, (m.readChar bigEndian a).result = some r → ∀ fuel, Traced.Within P (f fuel r) := by
  rw [Traced.forall_within_bind (Traced.grows_const _) hf]
  constructor
  · intro hall r hr
    exact hall.2 0 r hr
  · intro hall
    exact ⟨fun _ => within_readChar.mpr hP, fun _ => hall⟩

/-- **`readStrFromUsr` and its buffer.** -/
theorem within_readStrFromUsr (h : m.View mem) :
    (∀ fuel, Traced.Within StrAccess.InBuffer (m.readStrFromUsr bigEndian a outStr out fuel)) ↔
      StrFits mem isNul a outStr.size := by
  unfold readStrFromUsr
  rw [forall_within_readChar_bind trivial fun _ => grows_copyLoop _ _ _ _ _]
  cases ha : mem a with
  | none =>
    refine iff_of_true (fun r hr => ?_) (strFits_none ha)
    rw [h.readChar_none bigEndian ha] at hr
    cases hr
  | some c =>
    obtain ⟨m', hget, hview⟩ := h.readChar bigEndian ha
    rw [← within_copyLoop bigEndian out hview ha (Nat.zero_add outStr.size).symm]
    constructor
    · intro hall
      exact hall _ hget
    · intro hall r hr
      rw [hget] at hr
      obtain rfl := Option.some.inj hr
      exact hall

/-- `readStrFromUsr` returns the string, when it returns. -/
theorem readStrFromUsr_result (h : m.View mem) {r : Machine × Bytes × BitVec 32}
    (hr : (m.readStrFromUsr bigEndian a outStr out fuel).result = some r) :
    ∃ n, StrAt mem isNul a n ∧ r.1.View mem ∧
      (∀ k < n, mem (a + BitVec.ofNat 32 k) = some (r.2.1 k)) ∧ r.2.1 n = 0 := by
  rw [readStrFromUsr, Traced.result_bind] at hr
  obtain ⟨first, hget, hrest⟩ := Option.bind_eq_some_iff.mp hr
  obtain ⟨hfirst, hview⟩ := h.of_readChar hget
  obtain ⟨n, hstr, -, hview', hcopied, hnul, -⟩ := copyLoop_result hview hfirst hrest
  simp only [Nat.zero_add] at hcopied hnul
  exact ⟨n, hstr, hview', hcopied, hnul⟩

theorem readStrFromUsr_returns {n : Nat} (bigEndian : Bool) (outStr : StrBuffer) (out : Bytes) (h : m.View mem)
    (hstr : StrAt mem isNul a n) (hfuel : n < fuel) :
    ∃ r, (m.readStrFromUsr bigEndian a outStr out fuel).result = some r := by
  obtain ⟨c, hc⟩ := hstr.first
  obtain ⟨m', hget, hview⟩ := h.readChar bigEndian hc
  rw [readStrFromUsr, Traced.result_bind, hget, Option.bind_some]
  exact copyLoop_returns bigEndian outStr out 0 hview hc hstr hfuel

/-! ### Tokens -/

/-- The separators before a token are skipped. -/
theorem skipLoop_result (h : m.View mem) (ha : mem a = some value) {r : Machine × BitVec 32 × UInt8}
    (hr : (skipLoop bigEndian divide fuel m (a + 1) value).result = some r) :
    ∃ d, SepsAt mem divide a d ∧ mem (a + BitVec.ofNat 32 d) = some r.2.2 ∧
      r.2.1 = a + BitVec.ofNat 32 d + 1 ∧ r.1.View mem := by
  induction fuel generalizing m a value with
  | zero => cases hr
  | succ fuel ih =>
    rw [skipLoop] at hr
    by_cases hsep : value = divide
    · rw [if_pos hsep, Traced.result_bind] at hr
      obtain ⟨next, hget, hrest⟩ := Option.bind_eq_some_iff.mp hr
      obtain ⟨hnext, hview⟩ := h.of_readChar hget
      obtain ⟨d, hseps, hc, haddr, hview'⟩ := ih hview hnext hrest
      rw [addr_succ] at hc haddr
      exact ⟨d + 1, ⟨by rw [ha, hsep], hseps⟩, hc, haddr, hview'⟩
    · rw [if_neg hsep] at hr
      obtain rfl := Option.some.inj hr
      refine ⟨0, fun heq => hsep ?_, by rw [addr_zero]; exact ha, by rw [addr_zero], h⟩
      rw [ha] at heq
      exact Option.some.inj heq

theorem skipLoop_returns {d : Nat} (bigEndian : Bool) (h : m.View mem) (ha : mem a = some value)
    (hseps : SepsAt mem divide a d) (hc : mem (a + BitVec.ofNat 32 d) = some c) (hfuel : d < fuel) :
    ∃ m', (skipLoop bigEndian divide fuel m (a + 1) value).result
      = some (m', a + BitVec.ofNat 32 d + 1, c) ∧ m'.View mem := by
  induction d generalizing m a value fuel with
  | zero =>
    obtain ⟨fuel, rfl⟩ : ∃ fuel', fuel = fuel' + 1 := ⟨fuel - 1, by omega⟩
    rw [addr_zero] at hc ⊢
    rw [ha] at hc
    obtain rfl := Option.some.inj hc
    have hne : value ≠ divide := by
      rintro rfl
      exact hseps ha
    rw [skipLoop, if_neg hne]
    exact ⟨m, rfl, h⟩
  | succ d ih =>
    obtain ⟨fuel, rfl⟩ : ∃ fuel', fuel = fuel' + 1 := ⟨fuel - 1, by omega⟩
    obtain ⟨hsep, hrest⟩ := hseps
    rw [ha] at hsep
    obtain rfl := Option.some.inj hsep
    rw [← addr_succ] at hc ⊢
    obtain ⟨c', hc'⟩ : ∃ c', mem (a + 1) = some c' := by
      cases d with
      | zero =>
        rw [addr_zero] at hc
        exact ⟨c, hc⟩
      | succ d => exact ⟨_, hrest.1⟩
    obtain ⟨m', hget, hview⟩ := h.readChar bigEndian hc'
    rw [skipLoop, if_pos rfl, Traced.result_bind, hget, Option.bind_some]
    exact ih hview hc' hrest hc (by omega)

/-- The bytes that are read while separators are skipped. -/
theorem within_skipLoop {d : Nat} (h : m.View mem) (ha : mem a = some value) (hseps : SepsAt mem divide a d)
    (hread : ∀ k < d, P (.read (a + BitVec.ofNat 32 (k + 1)))) :
    Traced.Within P (skipLoop bigEndian divide fuel m (a + 1) value) := by
  induction fuel generalizing m a value d with
  | zero => exact Traced.within_stop
  | succ fuel ih =>
    rw [skipLoop]
    by_cases hsep : value = divide
    · rw [if_pos hsep, Traced.within_bind, within_readChar]
      cases d with
      | zero => exact absurd (by rw [ha, hsep]) hseps
      | succ d =>
        refine ⟨hread 0 (by omega), fun next hget => ?_⟩
        obtain ⟨hnext, hview⟩ := h.of_readChar hget
        refine ih hview hnext hseps.2 fun k hk => ?_
        rw [addr_succ]
        exact hread (k + 1) (by omega)
    · rw [if_neg hsep]
      exact Traced.within_pure _

/-- Skipping stores nothing. -/
theorem within_skipLoop_inBuffer (m : Machine) (a : BitVec 32) (value : UInt8) (fuel : Nat) :
    Traced.Within StrAccess.InBuffer (skipLoop bigEndian divide fuel m a value) := by
  induction fuel generalizing m a value with
  | zero => exact Traced.within_stop
  | succ fuel ih =>
    rw [skipLoop]
    split
    · rw [Traced.within_bind, within_readChar]
      exact ⟨trivial, fun next _ => ih _ _ _⟩
    · exact Traced.within_pure _

/-- **`readStrFromUsrSpecial` and its buffer.** -/
theorem within_readStrFromUsrSpecial (h : m.View mem) :
    (∀ fuel, Traced.Within StrAccess.InBuffer (m.readStrFromUsrSpecial bigEndian divide a outStr out fuel)) ↔
      TokenFits mem divide a outStr.size := by
  unfold readStrFromUsrSpecial
  rw [forall_within_readChar_bind trivial fun _ => (grows_skipLoop _ _ _).bind fun _ => grows_copyLoop _ _ _ _ _]
  constructor
  · intro hall d hseps
    cases hc : mem (a + BitVec.ofNat 32 d) with
    | none => exact strFits_none hc
    | some c =>
      obtain ⟨first, hfirst⟩ := hseps.first hc
      obtain ⟨m₁, hget, hview₁⟩ := h.readChar bigEndian hfirst
      obtain ⟨m₂, hskip, hview₂⟩ := skipLoop_returns bigEndian hview₁ hfirst hseps hc (Nat.lt_succ_self d)
      have hcopy := ((Traced.forall_within_bind (grows_skipLoop _ _ _) fun _ => grows_copyLoop _ _ _ _ _).mp
        (hall _ hget)).2 _ _ hskip
      exact (within_copyLoop bigEndian out hview₂ hc (Nat.zero_add _).symm).mp hcopy
  · intro hfits first hget
    obtain ⟨hfirst, hview₁⟩ := h.of_readChar hget
    refine (Traced.forall_within_bind (grows_skipLoop _ _ _) fun _ => grows_copyLoop _ _ _ _ _).mpr
      ⟨within_skipLoop_inBuffer _ _ _, fun fuel token hskip => ?_⟩
    obtain ⟨d, hseps, hc, haddr, hview₂⟩ := skipLoop_result hview₁ hfirst hskip
    rw [haddr]
    exact (within_copyLoop bigEndian out hview₂ hc (Nat.zero_add _).symm).mpr (hfits d hseps)

/-- A call that returns has taken a token. -/
theorem readStrFromUsrSpecial_result (h : m.View mem) {r : Machine × Bytes × BitVec 32}
    (hr : (m.readStrFromUsrSpecial bigEndian divide a outStr out fuel).result = some r) :
    TokenAt mem divide a r.2.2 ∧ r.1.View mem := by
  rw [readStrFromUsrSpecial, Traced.result_bind] at hr
  obtain ⟨first, hget, hrest⟩ := Option.bind_eq_some_iff.mp hr
  obtain ⟨hfirst, hview₁⟩ := h.of_readChar hget
  rw [Traced.result_bind] at hrest
  obtain ⟨token, hskip, hcopy⟩ := Option.bind_eq_some_iff.mp hrest
  obtain ⟨d, hseps, hc, haddr, hview₂⟩ := skipLoop_result hview₁ hfirst hskip
  rw [haddr] at hcopy
  obtain ⟨n, hstr, hnext, hview₃, -⟩ := copyLoop_result hview₂ hc hcopy
  exact ⟨⟨d, n, hseps, hstr, by rw [hnext, addr_add]; rfl⟩, hview₃⟩

/-- A call that comes to a token takes it, reads it and the character that ends it, and nothing else. -/
theorem readStrFromUsrSpecial_token {d n : Nat} (bigEndian : Bool) (outStr : StrBuffer) (out : Bytes) (h : m.View mem)
    (hseps : SepsAt mem divide a d)
    (hstr : StrAt mem (endsToken divide) (a + BitVec.ofNat 32 d) n) (hfuel : d + n < fuel) :
    ∃ m' out', (m.readStrFromUsrSpecial bigEndian divide a outStr out fuel).result
        = some (m', out', a + BitVec.ofNat 32 (d + n + 1)) ∧ m'.View mem ∧
      (∀ k < n, mem (a + BitVec.ofNat 32 (d + k)) = some (out' k)) ∧ out' n = 0 ∧
      ∀ P : StrAccess → Prop, (∀ i, P (.store outStr i)) → (∀ k ≤ d + n, P (.read (a + BitVec.ofNat 32 k))) →
        Traced.Within P (m.readStrFromUsrSpecial bigEndian divide a outStr out fuel) := by
  obtain ⟨c, hc⟩ := hstr.first
  obtain ⟨first, hfirst⟩ := hseps.first hc
  obtain ⟨m₁, hget, hview₁⟩ := h.readChar bigEndian hfirst
  obtain ⟨m₂, hskip, hview₂⟩ :=
    skipLoop_returns bigEndian hview₁ hfirst hseps hc (show d < fuel by omega)
  obtain ⟨⟨m₃, out', next⟩, hcopy⟩ := copyLoop_returns bigEndian outStr out 0 hview₂ hc hstr
    (show n < fuel by omega)
  obtain ⟨n', hstr', hnext, hview₃, hcopied, hnul, -⟩ := copyLoop_result hview₂ hc hcopy
  obtain rfl := hstr.unique hstr'
  simp only [Nat.zero_add] at hcopied hnul
  rw [addr_add] at hnext
  obtain rfl : next = a + BitVec.ofNat 32 (d + n + 1) := hnext
  refine ⟨m₃, out', ?_, hview₃, fun k hk => ?_, hnul, fun P hstore hread => ?_⟩
  · rw [readStrFromUsrSpecial, Traced.result_bind, hget, Option.bind_some, Traced.result_bind, hskip, Option.bind_some]
    exact hcopy
  · rw [← addr_add]
    exact hcopied k hk
  · rw [readStrFromUsrSpecial, Traced.within_bind, within_readChar]
    refine ⟨by have hzero := hread 0 (by omega); rw [addr_zero] at hzero; exact hzero, fun r hr => ?_⟩
    rw [hget] at hr
    obtain rfl := Option.some.inj hr
    rw [Traced.within_bind]
    refine ⟨within_skipLoop hview₁ hfirst hseps fun k hk => hread (k + 1) (by omega), fun token htoken => ?_⟩
    rw [hskip] at htoken
    obtain rfl := Option.some.inj htoken
    refine within_copyLoop_of_strAt hview₂ hc hstr hstore fun k hk => ?_
    rw [addr_add]
    exact hread (d + (k + 1)) (by omega)

/-- **The arguments and their buffers.** -/
theorem within_readArguments {n : Nat} (bigEndian : Bool) (i : Nat) (h : m.View mem) (argumentos : Nat → Bytes) :
    (∀ fuel, Traced.Within StrAccess.InBuffer (readArguments bigEndian divide argumentos n m a i fuel)) ↔
      TokensFit mem divide 128 n a := by
  induction n generalizing m a i with
  | zero => exact iff_of_true (fun _ => Traced.within_pure _) trivial
  | succ n ih =>
    have hgrows : ∀ r : Machine × Bytes × BitVec 32, Traced.Grows fun fuel =>
        readArguments bigEndian divide argumentos n r.1 r.2.2 (i + 1) fuel >>= fun rest =>
          pure (rest.1, r.2.1 :: rest.2) :=
      fun _ => (grows_readArguments _ _ _ _ _).bind fun _ => Traced.grows_const _
    refine (Traced.forall_within_bind (grows_readStrFromUsrSpecial _ _ _) hgrows).trans ?_
    rw [within_readStrFromUsrSpecial h]
    refine and_congr Iff.rfl ⟨fun hall b hb => ?_, fun hall fuel r hr fuel' => ?_⟩
    · obtain ⟨d, len, hseps, hstr, rfl⟩ := hb
      obtain ⟨m', out', hr, hview, -⟩ :=
        readStrFromUsrSpecial_token bigEndian (.argumentos i) (argumentos i) h hseps hstr (Nat.lt_succ_self _)
      refine (ih (i + 1) hview).mp fun fuel => ?_
      exact (Traced.within_bind.mp (hall _ _ hr fuel)).1
    · obtain ⟨htoken, hview⟩ := readStrFromUsrSpecial_result h hr
      rw [Traced.within_bind]
      exact ⟨(ih (i + 1) hview).mpr (hall _ htoken) fuel', fun _ _ => Traced.within_pure _⟩

end Loops

end Machine

/-- **The kernel's string buffers.**  `SC_Create` and `SC_Open` store into `name` only, IFF the name with its NUL has 64
    bytes at most or user memory ends within 64 bytes; `SC_Exec` stores into its buffers only, IFF this holds of the
    file name with 128 bytes and, if there is one, of each of the arguments. -/
theorem string_buffers_iff {m : Machine} (htlb : m.mmu.tlb = none) (bigEndian : Bool) (out : Bytes)
    (argumentos : Nat → Bytes) :
    ((∀ fuel, Traced.Within StrAccess.InBuffer (m.createName bigEndian out fuel)) ↔
      StrFits m.userByte isNul (m.registers (gpr 4)) 64) ∧
    ((∀ fuel, Traced.Within StrAccess.InBuffer (m.openName bigEndian out fuel)) ↔
      StrFits m.userByte isNul (m.registers (gpr 4)) 64) ∧
    ((∀ fuel, Traced.Within StrAccess.InBuffer (m.execNames bigEndian out argumentos fuel)) ↔
      StrFits m.userByte isNul (m.registers (gpr 4)) 128 ∧
        ((∃ n, StrAt m.userByte isNul (m.registers (gpr 4)) n) →
          TokensFit m.userByte 32 128 (m.registers (gpr 5)).toInt.toNat (m.registers (gpr 6)))) := by
  have h : m.View m.userByte := ⟨htlb, rfl⟩
  refine ⟨Machine.within_readStrFromUsr h, Machine.within_readStrFromUsr h, ?_⟩
  have hgrows : ∀ file : Machine × Bytes × BitVec 32, Traced.Grows fun fuel =>
      Machine.readArguments bigEndian 32 argumentos (m.registers (gpr 5)).toInt.toNat file.1
        (m.registers (gpr 6)) 0 fuel >>= fun arguments => pure (file.2.1, arguments.2) :=
    fun _ => (Machine.grows_readArguments _ _ _ _ _).bind fun _ => Traced.grows_const _
  refine (Traced.forall_within_bind (Machine.grows_readStrFromUsr _ _ _) hgrows).trans ?_
  rw [Machine.within_readStrFromUsr h]
  refine and_congr Iff.rfl ⟨?_, fun hall fuel file hfile fuel' => ?_⟩
  · rintro hall ⟨n, hstr⟩
    obtain ⟨file, hfile⟩ := Machine.readStrFromUsr_returns bigEndian .filename out h hstr
      (Nat.lt_succ_self n)
    obtain ⟨-, -, hview, -⟩ := Machine.readStrFromUsr_result h hfile
    refine (Machine.within_readArguments bigEndian 0 hview argumentos).mp fun fuel => ?_
    exact (Traced.within_bind.mp (hall _ _ hfile fuel)).1
  · obtain ⟨n, hstr, hview, -⟩ := Machine.readStrFromUsr_result h hfile
    rw [Traced.within_bind]
    exact ⟨(Machine.within_readArguments bigEndian 0 hview argumentos).mpr (hall ⟨n, hstr⟩) fuel',
      fun _ _ => Traced.within_pure _⟩

/-- A user program with one page, in frame 0, and the given memory. -/
def onePage (memory : Bytes) : Machine :=
  ⟨Registers.zero, memory, ⟨none, some [⟨0, 0, true, false, false, false⟩], 1⟩⟩

/-- A user program that calls `SC_Exec` with the file name "ls" and the argument "-l". -/
def lsPage : Machine :=
  { onePage fun i => [108, 115, 0, 32, 45, 108, 0].getD i 0 with
    registers := (Registers.zero.write (gpr 5) 1).write (gpr 6) 3 }

/-- All its stores are inside the buffers; the last ones are the two NULs. -/
theorem string_buffers_ls :
    StrAccess.store .filename 2 ∈ (lsPage.execNames false (fun _ => 0) (fun _ _ => 0) 8).used ∧
      StrAccess.store (.argumentos 0) 2 ∈ (lsPage.execNames false (fun _ => 0) (fun _ _ => 0) 8).used ∧
      Traced.Within StrAccess.InBuffer (lsPage.execNames false (fun _ => 0) (fun _ _ => 0) 8) := by
  have h := string_buffers_iff (m := lsPage) rfl false (fun _ => 0) fun _ _ => 0
  have hname : StrFits lsPage.userByte isNul 0 128 := Or.inl ⟨2, by decide, 0, by decide +kernel, rfl⟩
  have hargument : TokenFits lsPage.userByte 32 3 128 := by
    intro d hseps
    -- there is one separator
    rcases d with _ | _ | d
    · exact absurd (by decide +kernel) hseps
    · exact Or.inl ⟨2, by decide, 0, by decide +kernel, rfl⟩
    · exact absurd hseps.2.1 (by decide +kernel)
  exact ⟨by decide +kernel, by decide +kernel, h.2.2.mpr ⟨hname, fun _ => ⟨hargument, fun _ _ => trivial⟩⟩ 8⟩

/-- A name of 65 characters: the stores into `name` reach `name[65]`. -/
theorem create_overflows :
    StrAccess.store .name 65 ∈ ((onePage fun i => if i < 65 then 97 else 0).createName false (fun _ => 0) 66).used ∧
      ¬ StrAccess.InBuffer (.store .name 65) := by
  refine ⟨by decide +kernel, fun h => ?_⟩
  have hlt : 65 < StrBuffer.size .name := h
  rw [StrBuffer.size] at hlt
  omega

/-! ## Arguments -/

/-- The characters are in user memory from `a` on. -/
def Holds (mem : UserMemory) : BitVec 32 → List UInt8 → Prop
  | _, [] => True
  | a, c :: text => mem a = some c ∧ Holds mem (a + 1) text

/-- Tokens, each with the number of separators before it, then `trail` separators and the NUL. -/
def layout (divide : UInt8) : List (Nat × List UInt8) → Nat → List UInt8
  | [], trail => List.replicate trail divide ++ [0]
  | (gap, token) :: rest, trail => List.replicate gap divide ++ (token ++ layout divide rest trail)

/-- The string in the kernel's buffer. -/
def IsString (out : Bytes) (s : List UInt8) : Prop :=
  (∀ k < s.length, s[k]? = some (out k)) ∧ out s.length = 0

section Layout

variable {mem : UserMemory} {divide : UInt8} {a : BitVec 32}

theorem holds_append {s t : List UInt8} :
    Holds mem a (s ++ t) ↔ Holds mem a s ∧ Holds mem (a + BitVec.ofNat 32 s.length) t := by
  induction s generalizing a with
  | nil =>
    rw [List.nil_append, List.length_nil, addr_zero]
    exact ⟨fun h => ⟨trivial, h⟩, fun h => h.2⟩
  | cons c s ih =>
    rw [List.cons_append, Holds, ih, Holds, List.length_cons, addr_succ]
    exact and_assoc.symm

theorem Holds.getElem? {s : List UInt8} (h : Holds mem a s) {k : Nat} (hk : k < s.length) :
    mem (a + BitVec.ofNat 32 k) = s[k]? := by
  induction s generalizing a k with
  | nil => exact absurd hk (Nat.not_lt_zero k)
  | cons c s ih =>
    cases k with
    | zero =>
      rw [addr_zero]
      exact h.1
    | succ k =>
      rw [← addr_succ, List.getElem?_cons_succ]
      exact ih h.2 (Nat.lt_of_succ_lt_succ hk)

/-- A token in memory, and a character that ends it. -/
theorem strAt_of_holds {token rest : List UInt8} {e : UInt8} (htoken : ∀ c ∈ token, c ≠ 0 ∧ c ≠ divide)
    (hend : endsToken divide e = true) (h : Holds mem a (token ++ e :: rest)) :
    StrAt mem (endsToken divide) a token.length := by
  induction token generalizing a with
  | nil => exact ⟨e, h.1, hend⟩
  | cons c token ih =>
    obtain ⟨hc, hrest⟩ := List.forall_mem_cons.mp htoken
    refine ⟨⟨c, h.1, ?_⟩, ih hrest h.2⟩
    rw [endsToken, beq_false_of_ne hc.1, beq_false_of_ne hc.2]
    rfl

/-- Separators in memory, and a character that is none. -/
theorem sepsAt_of_holds {d : Nat} {c : UInt8} {rest : List UInt8} (hc : c ≠ divide)
    (h : Holds mem a (List.replicate d divide ++ c :: rest)) : SepsAt mem divide a d := by
  induction d generalizing a with
  | zero =>
    intro heq
    rw [h.1] at heq
    exact hc (Option.some.inj heq)
  | succ d ih => exact ⟨h.1, ih h.2⟩

/-- What comes after a token: a character that ends it, and then the other tokens, with one separator less. -/
theorem layout_after {rest : List (Nat × List UInt8)} (divide : UInt8) (trail : Nat) (hgaps : ∀ p ∈ rest, 0 < p.1) :
    ∃ e text, layout divide rest trail = e :: text ∧ endsToken divide e = true ∧
      ∀ gap token rest', rest = (gap + 1, token) :: rest' → text = layout divide ((gap, token) :: rest') trail := by
  have hsep : endsToken divide divide = true := by
    rw [endsToken, beq_self_eq_true, Bool.or_true]
  cases rest with
  | nil =>
    cases trail with
    | zero => exact ⟨0, [], rfl, rfl, fun _ _ _ h => by cases h⟩
    | succ trail => exact ⟨divide, _, rfl, hsep, fun _ _ _ h => by cases h⟩
  | cons p rest =>
    obtain ⟨gap, token⟩ := p
    have hpos := (List.forall_mem_cons.mp hgaps).1
    obtain ⟨gap', rfl⟩ : ∃ gap', gap = gap' + 1 := ⟨gap - 1, by omega⟩
    refine ⟨divide, _, rfl, hsep, fun g t rest' h => ?_⟩
    obtain ⟨hp, rfl⟩ := List.cons.inj h
    obtain ⟨hg, rfl⟩ := Prod.mk.inj hp
    obtain rfl : gap' = g := by omega
    rfl

end Layout

/-- **One call** takes the first token, and the next call finds the others. -/
theorem Machine.readStrFromUsrSpecial_layout {mem : UserMemory} {m : Machine} {divide : UInt8} {a : BitVec 32}
    {gap trail fuel : Nat} {token : List UInt8} {rest : List (Nat × List UInt8)} (bigEndian : Bool)
    (outStr : StrBuffer) (out : Bytes) (h : m.View mem) (hne : token ≠ []) (htoken : ∀ c ∈ token, c ≠ 0 ∧ c ≠ divide)
    (hgaps : ∀ p ∈ rest, 0 < p.1) (hstored : Holds mem a (layout divide ((gap, token) :: rest) trail))
    (hfuel : gap + token.length < fuel) :
    ∃ m' out', (m.readStrFromUsrSpecial bigEndian divide a outStr out fuel).result
        = some (m', out', a + BitVec.ofNat 32 (gap + token.length + 1)) ∧ m'.View mem ∧ IsString out' token ∧
      (∀ gap' token' rest', rest = (gap' + 1, token') :: rest' →
        Holds mem (a + BitVec.ofNat 32 (gap + token.length + 1)) (layout divide ((gap', token') :: rest') trail)) ∧
      ∀ P : StrAccess → Prop, (∀ i, P (.store outStr i)) →
        (∀ k ≤ gap + token.length, P (.read (a + BitVec.ofNat 32 k))) →
        Traced.Within P (m.readStrFromUsrSpecial bigEndian divide a outStr out fuel) := by
  obtain ⟨e, text, hafter, hend, htext⟩ := layout_after divide trail hgaps
  rw [layout, hafter] at hstored
  have hseps : SepsAt mem divide a gap := by
    cases token with
    | nil => exact absurd rfl hne
    | cons c token => exact sepsAt_of_holds (htoken c List.mem_cons_self).2 hstored
  obtain ⟨-, htail⟩ := holds_append.mp hstored
  rw [List.length_replicate] at htail
  have hstr := strAt_of_holds htoken hend htail
  obtain ⟨hchars, hends⟩ := holds_append.mp htail
  obtain ⟨m', out', hresult, hview, hcopied, hnul, hwithin⟩ :=
    readStrFromUsrSpecial_token bigEndian outStr out h hseps hstr hfuel
  refine ⟨m', out', hresult, hview, ⟨fun k hk => ?_, hnul⟩, fun gap' token' rest' hrest => ?_, hwithin⟩
  · rw [← hchars.getElem? hk, addr_add]
    exact hcopied k hk
  · rw [← htext gap' token' rest' hrest]
    have hnext := hends.2
    rw [addr_add, addr_next] at hnext
    exact hnext

theorem length_layout_cons (divide : UInt8) (gap : Nat) (token : List UInt8) (rest : List (Nat × List UInt8))
    (trail : Nat) : (layout divide ((gap, token) :: rest) trail).length
      = gap + token.length + (layout divide rest trail).length := by
  rw [layout, List.length_append, List.length_append, List.length_replicate, Nat.add_assoc]

theorem length_layout_pos (divide : UInt8) (tokens : List (Nat × List UInt8)) (trail : Nat) :
    0 < (layout divide tokens trail).length := by
  induction tokens with
  | nil =>
    rw [layout, List.length_append, List.length_singleton]
    omega
  | cons p rest ih =>
    rw [length_layout_cons]
    omega

/-- **One argument after the other.**  By induction on the tokens behind the first: a call takes the first token and the
    character that ends it, and the next call starts there. -/
theorem Machine.readArguments_layout {mem : UserMemory} (bigEndian : Bool) (divide : UInt8) (argumentos : Nat → Bytes)
    (trail : Nat) {rest : List (Nat × List UInt8)} (hgaps : ∀ p ∈ rest, 0 < p.1) :
    ∀ {gap : Nat} {token : List UInt8} {m : Machine} {a : BitVec 32} {i fuel : Nat}, m.View mem →
      (∀ p ∈ (gap, token) :: rest, p.2 ≠ [] ∧ ∀ c ∈ p.2, c ≠ 0 ∧ c ≠ divide) →
      Holds mem a (layout divide ((gap, token) :: rest) trail) →
      (layout divide ((gap, token) :: rest) trail).length < fuel →
      ∃ m' outs, (readArguments bigEndian divide argumentos (rest.length + 1) m a i fuel).result = some (m', outs) ∧
        m'.View mem ∧ List.Forall₂ IsString outs (((gap, token) :: rest).map Prod.snd) ∧
        ∀ P : StrAccess → Prop, (∀ outStr i, P (.store outStr i)) →
          (∀ k < (layout divide ((gap, token) :: rest) trail).length, P (.read (a + BitVec.ofNat 32 k))) →
          Traced.Within P (readArguments bigEndian divide argumentos (rest.length + 1) m a i fuel) := by
  induction rest with
  | nil =>
    intro gap token m a i fuel hview htokens hstored hfuel
    obtain ⟨hne, htoken⟩ : token ≠ [] ∧ ∀ c ∈ token, c ≠ 0 ∧ c ≠ divide := htokens _ List.mem_cons_self
    have hpos := length_layout_pos divide [] trail
    rw [length_layout_cons] at hfuel
    obtain ⟨m', out', hresult, hview', hstring, -, hwithin⟩ := readStrFromUsrSpecial_layout bigEndian (.argumentos i)
      (argumentos i) hview hne htoken hgaps hstored (show gap + token.length < fuel by omega)
    refine ⟨m', [out'], ?_, hview', .cons hstring .nil, fun P hstore hread => ?_⟩
    · rw [List.length_nil, readArguments, Traced.result_bind, hresult, Option.bind_some]
      rfl
    · rw [List.length_nil, readArguments, Traced.within_bind]
      refine ⟨hwithin P (hstore _) fun k hk => hread k ?_, fun r _ => ?_⟩
      · rw [length_layout_cons]
        omega
      · exact Traced.within_bind.mpr ⟨Traced.within_pure _, fun _ _ => Traced.within_pure _⟩
  | cons p rest ih =>
    intro gap token m a i fuel hview htokens hstored hfuel
    obtain ⟨gap', token'⟩ := p
    obtain ⟨hpos', hgaps'⟩ := List.forall_mem_cons.mp hgaps
    obtain ⟨gap', rfl⟩ : ∃ g, gap' = g + 1 := ⟨gap' - 1, by omega⟩
    obtain ⟨hfirst, htokens'⟩ := List.forall_mem_cons.mp htokens
    obtain ⟨hne, htoken⟩ : token ≠ [] ∧ ∀ c ∈ token, c ≠ 0 ∧ c ≠ divide := hfirst
    -- the separator that has ended the first token is gone
    have hlength : (layout divide ((gap' + 1, token') :: rest) trail).length
        = (layout divide ((gap', token') :: rest) trail).length + 1 := by
      rw [length_layout_cons, length_layout_cons]
      omega
    rw [length_layout_cons] at hfuel
    obtain ⟨m₁, out', hresult, hview₁, hstring, hnext, hwithin⟩ := readStrFromUsrSpecial_layout bigEndian
      (.argumentos i) (argumentos i) hview hne htoken hgaps hstored (show gap + token.length < fuel by omega)
    have hfuel₁ : (layout divide ((gap', token') :: rest) trail).length < fuel := by omega
    have htokens₁ : ∀ p ∈ (gap', token') :: rest, p.2 ≠ [] ∧ ∀ c ∈ p.2, c ≠ 0 ∧ c ≠ divide := by
      refine List.forall_mem_cons.mpr ⟨?_, (List.forall_mem_cons.mp htokens').2⟩
      exact (List.forall_mem_cons.mp htokens').1
    obtain ⟨m₂, outs, hrest, hview₂, hstrings, hwithin₂⟩ := ih hgaps' (i := i + 1) hview₁ htokens₁
      (hnext gap' token' rest rfl) hfuel₁
    refine ⟨m₂, out' :: outs, ?_, hview₂, .cons hstring hstrings, fun P hstore hread => ?_⟩
    · rw [List.length_cons, readArguments, Traced.result_bind, hresult, Option.bind_some, Traced.result_bind, hrest,
        Option.bind_some]
      rfl
    · rw [length_layout_cons, hlength] at hread
      rw [List.length_cons, readArguments, Traced.within_bind]
      refine ⟨hwithin P (hstore _) fun k hk => hread k (by omega), fun r hr => ?_⟩
      rw [hresult] at hr
      obtain rfl := Option.some.inj hr
      refine Traced.within_bind.mpr ⟨hwithin₂ P hstore fun k hk => ?_, fun _ _ => Traced.within_pure _⟩
      rw [addr_add]
      exact hread _ (by omega)

/-- **Arguments.**  Tokens are laid out in user memory with any number of separators before the first, at least one before
    each of the others, and any number behind the last, then the NUL.  As many calls of `readStrFromUsrSpecial` as there
    are tokens, each from the address that the one before has returned, return them in order, and read nothing behind
    the NUL. -/
theorem arguments_tokenised {m : Machine} (htlb : m.mmu.tlb = none) {divide : UInt8}
    {tokens : List (Nat × List UInt8)} {trail : Nat}
    (htokens : ∀ p ∈ tokens, p.2 ≠ [] ∧ ∀ c ∈ p.2, c ≠ 0 ∧ c ≠ divide) (hgaps : ∀ p ∈ tokens.tail, 0 < p.1)
    {a : BitVec 32} (hstored : Holds m.userByte a (layout divide tokens trail)) (bigEndian : Bool)
    (argumentos : Nat → Bytes) {fuel : Nat} (hfuel : (layout divide tokens trail).length < fuel) :
    ∃ m' outs,
      (Machine.readArguments bigEndian divide argumentos tokens.length m a 0 fuel).result = some (m', outs) ∧
      m'.userByte = m.userByte ∧ List.Forall₂ IsString outs (tokens.map Prod.snd) ∧
      ∀ addr, .read addr ∈ (Machine.readArguments bigEndian divide argumentos tokens.length m a 0 fuel).used →
        ∃ k < (layout divide tokens trail).length, addr = a + BitVec.ofNat 32 k := by
  cases tokens with
  | nil => exact ⟨m, [], rfl, rfl, .nil, fun addr h => absurd h List.not_mem_nil⟩
  | cons p rest =>
    obtain ⟨gap, token⟩ := p
    obtain ⟨m', outs, hresult, hview, hstrings, hwithin⟩ := Machine.readArguments_layout bigEndian divide argumentos
      trail hgaps (i := 0) ⟨htlb, rfl⟩ htokens hstored hfuel
    refine ⟨m', outs, hresult, hview.byte, hstrings, fun addr haddr => ?_⟩
    let P : StrAccess → Prop := fun access => ∀ addr, access = .read addr →
      ∃ k < (layout divide ((gap, token) :: rest) trail).length, addr = a + BitVec.ofNat 32 k
    have hP : Traced.Within P _ := hwithin P (fun _ _ _ h => by cases h) fun k hk addr h => by
      cases h
      exact ⟨k, hk, rfl⟩
    exact hP _ haddr addr rfl

/-- `"  ab c"` in user memory. -/
def twoTokens : Machine := onePage fun i => [32, 32, 97, 98, 32, 99, 0].getD i 0

/-- `ab` and `c`. -/
theorem arguments_tokenised_two :
    ∃ m' outs, (Machine.readArguments false 32 (fun _ _ => 0) 2 twoTokens 0 0 8).result = some (m', outs) ∧
      List.Forall₂ IsString outs [[97, 98], [99]] := by
  have hstored : Holds twoTokens.userByte 0 (layout 32 [(2, [97, 98]), (1, [99])] 0) := by
    refine ⟨?_, ?_, ?_, ?_, ?_, ?_, ?_, trivial⟩ <;> decide +kernel
  have hfuel : (layout 32 [(2, [97, 98]), (1, [99])] 0).length < 8 := by decide
  have htokens : ∀ p ∈ ([(2, [97, 98]), (1, [99])] : List (Nat × List UInt8)),
      p.2 ≠ [] ∧ ∀ c ∈ p.2, c ≠ 0 ∧ c ≠ 32 := by
    simp only [List.forall_mem_cons, List.not_mem_nil, false_implies, implies_true, and_true]
    decide
  obtain ⟨m', outs, hresult, -, hstrings, -⟩ :=
    arguments_tokenised rfl htokens (by decide) hstored false (fun _ _ => 0) hfuel
  exact ⟨m', outs, hresult, hstrings⟩

/-! ## There and back -/

namespace Machine

section WriteStr

variable {m : Machine} {bigEndian : Bool} {str : Bytes} {usrAddr : BitVec 32} {n : Nat}

/-- More fuel does no harm. -/
theorem writeStrToUsr_mono {fuel fuel' i : Nat} {m' : Machine}
    (h : writeStrToUsr bigEndian str usrAddr fuel m i = some m') (hle : fuel ≤ fuel') :
    writeStrToUsr bigEndian str usrAddr fuel' m i = some m' := by
  induction fuel generalizing fuel' m i with
  | zero => cases h
  | succ fuel ih =>
    obtain ⟨fuel', rfl⟩ : ∃ f, fuel' = f + 1 := ⟨fuel' - 1, by omega⟩
    rw [writeStrToUsr] at h ⊢
    by_cases hnul : str i = 0
    · rw [if_pos hnul] at h ⊢
      exact h
    · rw [if_neg hnul] at h ⊢
      obtain ⟨m₁, hwrite, hrest⟩ := Option.bind_eq_some_iff.mp h
      rw [hwrite, Option.bind_some]
      exact ih hrest (by omega)

/-- From the `i`-th character on, the loop does what is left of `writeBuffToUsr`. -/
theorem writeStrToUsr_from (hstr : ∀ k < n, str k ≠ 0) (hnul : str n = 0)
    (hwrites : ∀ i ≤ n, ∃ m', m.writeBuffToUsr bigEndian str usrAddr i = some m') {left i fuel : Nat} {mi : Machine}
    (hleft : i + left = n) (hmi : m.writeBuffToUsr bigEndian str usrAddr i = some mi) (hfuel : left < fuel) :
    writeStrToUsr bigEndian str usrAddr fuel mi i = m.writeBuffToUsr bigEndian str usrAddr n := by
  induction left generalizing i fuel mi with
  | zero =>
    obtain rfl : i = n := hleft
    obtain ⟨fuel, rfl⟩ : ∃ fuel', fuel = fuel' + 1 := ⟨fuel - 1, by omega⟩
    rw [writeStrToUsr, if_pos hnul, hmi]
  | succ left ih =>
    obtain ⟨fuel, rfl⟩ : ∃ fuel', fuel = fuel' + 1 := ⟨fuel - 1, by omega⟩
    obtain ⟨m', hm'⟩ := hwrites (i + 1) (by omega)
    have hwrite : mi.writeUsr bigEndian (usrAddr + BitVec.ofNat 32 i) (str i) = some m' := by
      rw [← hm', writeBuffToUsr, hmi, Option.bind_some]
    rw [writeStrToUsr, if_neg (hstr i (by omega)), hwrite, Option.bind_some]
    exact ih (by omega) hm' (by omega)

/-- **`writeStrToUsr`** writes the characters of the string, and nothing else: no NUL. -/
theorem writeStrToUsr_spec (hm : m.mmu.Separate) (hstr : ∀ k < n, str k ≠ 0) (hnul : str n = 0)
    (hmapped : ∀ i < n, m.Writable (usrAddr + BitVec.ofNat 32 i)) (bigEndian : Bool) {fuel : Nat} (hfuel : n < fuel) :
    ∃ m', writeStrToUsr bigEndian str usrAddr fuel m 0 = some m' ∧ m.mmu.SameView m'.mmu ∧
      (∀ i < n, m'.userByte (usrAddr + BitVec.ofNat 32 i) = some (str i)) ∧
      ∀ w, (∀ i < n, w ≠ usrAddr + BitVec.ofNat 32 i) → m'.userByte w = m.userByte w := by
  have hn := length_le_of_writable hm hmapped
  have hsize : numPhysPages * pageSize = 16384 := rfl
  have hwrites : ∀ i ≤ n, ∃ m', m.writeBuffToUsr bigEndian str usrAddr i = some m' := by
    intro i hi
    obtain ⟨m', hm', -⟩ := writeBuffToUsr_spec (n := i) hm (by omega) fun k hk => hmapped k (by omega)
    exact ⟨m', hm'⟩
  obtain ⟨m', hm', -, hsame, hin, hout⟩ := writeBuffToUsr_spec hm (by omega) hmapped
  refine ⟨m', ?_, hsame, hin, hout⟩
  rw [writeStrToUsr_from hstr hnul hwrites (Nat.zero_add n) rfl hfuel]
  exact hm'

end WriteStr

end Machine

/-- A NUL-terminated string in user memory. -/
theorem strAt_of_bytes {mem : UserMemory} {a : BitVec 32} {n : Nat}
    (hchars : ∀ k < n, ∃ c, mem (a + BitVec.ofNat 32 k) = some c ∧ c ≠ 0)
    (hnul : mem (a + BitVec.ofNat 32 n) = some 0) : StrAt mem isNul a n := by
  induction n generalizing a with
  | zero =>
    rw [addr_zero] at hnul
    exact ⟨0, hnul, rfl⟩
  | succ n ih =>
    obtain ⟨c, hc, hne⟩ := hchars 0 (by omega)
    rw [addr_zero] at hc
    refine ⟨⟨c, hc, beq_false_of_ne hne⟩, ih (fun k hk => ?_) ?_⟩
    · rw [addr_succ]
      exact hchars (k + 1) (by omega)
    · rw [addr_succ]
      exact hnul

/-- The characters of a string in user memory are not NUL, and behind it there is one. -/
theorem StrAt.bytes {mem : UserMemory} {a : BitVec 32} {n : Nat} (h : StrAt mem isNul a n) :
    (∀ k < n, mem (a + BitVec.ofNat 32 k) ≠ some 0) ∧ mem (a + BitVec.ofNat 32 n) = some 0 := by
  induction n generalizing a with
  | zero =>
    obtain ⟨c, hc, hend⟩ := h
    obtain rfl : c = 0 := eq_of_beq hend
    refine ⟨fun k hk => absurd hk (Nat.not_lt_zero k), ?_⟩
    rw [addr_zero]
    exact hc
  | succ n ih =>
    obtain ⟨⟨c, hc, hmore⟩, hrest⟩ := h
    obtain ⟨hchars, hnul⟩ := ih hrest
    constructor
    · intro k hk
      cases k with
      | zero =>
        rw [addr_zero, hc]
        rintro hzero
        obtain rfl := Option.some.inj hzero
        cases hmore
      | succ k =>
        rw [← addr_succ]
        exact hchars k (by omega)
    · rw [← addr_succ]
      exact hnul

/-- **There and back.**  A string that `writeStrToUsr` has written to writable user memory is what `readStrFromUsr` reads
    from there IFF there was a NUL behind it already. -/
theorem writeStr_readStr_iff {m : Machine} (hm : m.mmu.Separate) {str : Bytes} {n : Nat} (hstr : ∀ k < n, str k ≠ 0)
    (hnul : str n = 0) {a : BitVec 32} (hmapped : ∀ i ≤ n, m.Writable (a + BitVec.ofNat 32 i)) (bigEndian : Bool)
    (outStr : StrBuffer) (out : Bytes) :
    (∃ fuel m₁ r, Machine.writeStrToUsr bigEndian str a fuel m 0 = some m₁ ∧
      (m₁.readStrFromUsr bigEndian a outStr out fuel).result = some r ∧ (∀ k < n, r.2.1 k = str k) ∧ r.2.1 n = 0) ↔
      m.userByte (a + BitVec.ofNat 32 n) = some 0 := by
  have hlen := Machine.length_le_of_writable hm (n := n + 1) fun i hi => hmapped i (by omega)
  have hsize : numPhysPages * pageSize = 16384 := rfl
  -- the byte behind the string is not written
  have hbehind : ∀ i < n, a + BitVec.ofNat 32 n ≠ a + BitVec.ofNat 32 i := by
    intro i hi heq
    have hin := Machine.addr_injective (by omega) (by omega) heq
    omega
  obtain ⟨m₁, hwrite, hview, hin, hout⟩ := Machine.writeStrToUsr_spec hm hstr hnul
    (fun i hi => hmapped i (by omega)) bigEndian (Nat.lt_succ_self n)
  constructor
  · rintro ⟨fuel, m₁', r, hwrite', hr, hsame, hend⟩
    -- there is one machine after the loop, whatever the fuel
    have hmore := Machine.writeStrToUsr_mono hwrite' (Nat.le_max_left fuel (n + 1))
    rw [Machine.writeStrToUsr_mono hwrite (Nat.le_max_right fuel (n + 1))] at hmore
    obtain rfl := Option.some.inj hmore
    obtain ⟨n', hstr', -, hcopied, hend'⟩ := Machine.readStrFromUsr_result ⟨hview.tlb, rfl⟩ hr
    obtain ⟨hchars, hnul'⟩ := hstr'.bytes
    -- the string that was read is as long as the one that was written
    obtain rfl : n' = n := by
      rcases Nat.lt_trichotomy n' n with hlt | heq | hgt
      · rw [hsame n' hlt] at hend'
        exact absurd hend' (hstr n' hlt)
      · exact heq
      · have hzero := hcopied n hgt
        rw [hend] at hzero
        exact absurd hzero (hchars n hgt)
    rw [← hout _ hbehind]
    exact hnul'
  · intro hbyte
    have hstrAt : StrAt m₁.userByte isNul a n := by
      refine strAt_of_bytes (fun k hk => ⟨str k, hin k hk, hstr k hk⟩) ?_
      rw [hout _ hbehind]
      exact hbyte
    obtain ⟨r, hr⟩ := Machine.readStrFromUsr_returns bigEndian outStr out ⟨hview.tlb, rfl⟩ hstrAt (Nat.lt_succ_self n)
    obtain ⟨n', hstr', -, hcopied, hend⟩ := Machine.readStrFromUsr_result ⟨hview.tlb, rfl⟩ hr
    obtain rfl := hstrAt.unique hstr'
    refine ⟨n + 1, m₁, r, hwrite, hr, fun k hk => ?_, hend⟩
    have hk' := hcopied k hk
    rw [hin k hk] at hk'
    exact (Option.some.inj hk').symm

/-- There is a NUL behind the one character: the page was all 0. -/
theorem writeStr_readStr_zero :
    ∃ fuel m₁ r, Machine.writeStrToUsr false (fun i => if i = 0 then 65 else 0) 126 fuel twoFrames 0 = some m₁ ∧
      (m₁.readStrFromUsr false 126 .name (fun _ => 0) fuel).result = some r ∧ r.2.1 0 = 65 ∧ r.2.1 1 = 0 := by
  have hstr : ∀ k < 1, (fun i : Nat => if i = 0 then (65 : UInt8) else 0) k ≠ 0 := by decide
  have hmapped : ∀ i ≤ 1, twoFrames.Writable (126 + BitVec.ofNat 32 i) := by decide +kernel
  obtain ⟨fuel, m₁, r, hwrite, hr, hsame, hend⟩ :=
    (writeStr_readStr_iff twoFrames_separate hstr rfl hmapped false .name fun _ => 0).mpr (by decide +kernel)
  exact ⟨fuel, m₁, r, hwrite, hr, hsame 0 (by decide), hend⟩

/-- `"A"` is written over the first character of `"xB"`, and `"AB"` is read. -/
theorem writeStr_keeps_tail :
    ((Machine.writeStrToUsr false (fun i => if i = 0 then 65 else 0) 0 2
        (onePage fun i => [120, 66, 0].getD i 0) 0).bind fun m₁ =>
      (m₁.readStrFromUsr false 0 .name (fun _ => 0) 4).result.map fun r => (List.range 3).map r.2.1)
      = some [65, 66, 0] := by
  decide +kernel

end Nachos
