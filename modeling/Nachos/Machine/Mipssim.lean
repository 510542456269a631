/-
  `machine/mipssim.cc` — the MIPS processor: `OneInstruction`, instruction by instruction.

  1. **Decoding** — `opTable` and `specialTable` of `mipssim.h`, and `Instruction::Decode`.

  2. **Executing** — the `switch` of `OneInstruction`.  Its cases come in families (an operation on two registers,
     on a register and the immediate, a branch, a load, …), and a family is one definition; the cases are listed in
     `execute`.  The values are 32-bit words, and the host's `int` arithmetic wraps around.  Where the host does not
     go on — an ASSERT, the quotient of the least `int` by -1 — the result is `none`.

  3. **The rest** — a case either raises an exception, or leaves the next pc and a load for `DelayedLoad`.

  The code of the kernel behind `RaiseException` is a parameter.
-/
import Nachos.Machine.Machine

namespace Nachos

/-! ## Decoding -/

/-- The operations, `OP_ADD` to `OP_RES`, that the two tables contain. -/
inductive Op where
  | add | addi | addiu | addu | and | andi
  | beq | bgez | bgezal | bgtz | blez | bltz | bltzal | bne
  | div | divu | j | jal | jalr | jr
  | lb | lbu | lh | lhu | lui | lw | lwl | lwr
  | mfhi | mflo | mthi | mtlo | mult | multu | nor | or | ori
  | sb | sh | sll | sllv | slt | slti | sltiu | sltu | sra | srav | srl | srlv | sub | subu | sw | swl | swr
  | xor | xori | syscall | unimp | res
  deriving DecidableEq

/-- An entry of `opTable`: an operation, or where to look further. -/
inductive OpCode where
  | op (o : Op)
  | special
  | bcond

/-- `IFMT`, `JFMT`, `RFMT`. -/
inductive Format where
  | ifmt
  | jfmt
  | rfmt

/-- `opTable`. -/
def opTable : List (OpCode × Format) :=
  [(.special, .rfmt), (.bcond, .ifmt), (.op .j, .jfmt), (.op .jal, .jfmt),
   (.op .beq, .ifmt), (.op .bne, .ifmt), (.op .blez, .ifmt), (.op .bgtz, .ifmt),
   (.op .addi, .ifmt), (.op .addiu, .ifmt), (.op .slti, .ifmt), (.op .sltiu, .ifmt),
   (.op .andi, .ifmt), (.op .ori, .ifmt), (.op .xori, .ifmt), (.op .lui, .ifmt),
   (.op .unimp, .ifmt), (.op .unimp, .ifmt), (.op .unimp, .ifmt), (.op .unimp, .ifmt),
   (.op .res, .ifmt), (.op .res, .ifmt), (.op .res, .ifmt), (.op .res, .ifmt),
   (.op .res, .ifmt), (.op .res, .ifmt), (.op .res, .ifmt), (.op .res, .ifmt),
   (.op .res, .ifmt), (.op .res, .ifmt), (.op .res, .ifmt), (.op .res, .ifmt),
   (.op .lb, .ifmt), (.op .lh, .ifmt), (.op .lwl, .ifmt), (.op .lw, .ifmt),
   (.op .lbu, .ifmt), (.op .lhu, .ifmt), (.op .lwr, .ifmt), (.op .res, .ifmt),
   (.op .sb, .ifmt), (.op .sh, .ifmt), (.op .swl, .ifmt), (.op .sw, .ifmt),
   (.op .res, .ifmt), (.op .res, .ifmt), (.op .swr, .ifmt), (.op .res, .ifmt),
   (.op .unimp, .ifmt), (.op .unimp, .ifmt), (.op .unimp, .ifmt), (.op .unimp, .ifmt),
   (.op .res, .ifmt), (.op .res, .ifmt), (.op .res, .ifmt), (.op .res, .ifmt),
   (.op .unimp, .ifmt), (.op .unimp, .ifmt), (.op .unimp, .ifmt), (.op .unimp, .ifmt),
   (.op .res, .ifmt), (.op .res, .ifmt), (.op .res, .ifmt), (.op .res, .ifmt)]

/-- `specialTable`. -/
def specialTable : List Op :=
  [.sll, .res, .srl, .sra, .sllv, .res, .srlv, .srav,
   .jr, .jalr, .res, .res, .syscall, .unimp, .res, .res,
   .mfhi, .mthi, .mflo, .mtlo, .res, .res, .res, .res,
   .mult, .multu, .div, .divu, .res, .res, .res, .res,
   .add, .addu, .sub, .subu, .and, .or, .xor, .nor,
   .res, .res, .slt, .sltu, .res, .res, .res, .res,
   .res, .res, .res, .res, .res, .res, .res, .res,
   .res, .res, .res, .res, .res, .res, .res, .res]

/-- `class Instruction`, decoded. -/
structure Instruction where
  opCode : Op
  rs : Fin 32
  rt : Fin 32
  rd : Fin 32
  extra : BitVec 32

/-- The `extra` field, by format. -/
def Format.extra (format : Format) (value : BitVec 32) : BitVec 32 :=
  match format with
  | .ifmt =>
    let extra := value &&& 0xffff
    if extra &&& 0x8000 ≠ 0 then extra ||| 0xffff0000 else extra
  | .rfmt => (value >>> 6) &&& 0x1f
  | .jfmt => value &&& 0x3ffffff

/-- The operation of a `BCOND` instruction. -/
def bcondOp (value : BitVec 32) : Op :=
  let i := value &&& 0x1f0000
  if i = 0 then .bltz
  else if i = 0x10000 then .bgez
  else if i = 0x100000 then .bltzal
  else if i = 0x110000 then .bgezal
  else .unimp

/-- `Instruction::Decode()`.  The indices have six bits, and the tables 64 entries. -/
def Instruction.decode (value : BitVec 32) : Instruction :=
  let (opCode, format) := opTable.getD ((value >>> 26) &&& 0x3f).toNat (.op .res, .ifmt)
  { opCode :=
      match opCode with
      | .op o => o
      | .special => specialTable.getD (value &&& 0x3f).toNat .res
      | .bcond => bcondOp value
    rs := (value.extractLsb' 21 5).toFin
    rt := (value.extractLsb' 16 5).toFin
    rd := (value.extractLsb' 11 5).toFin
    extra := format.extra value }

/-! ## Executing -/

/-- `SIGN_BIT`. -/
def signBit (x : BitVec 32) : Bool := x &&& 0x80000000 ≠ 0

theorem signBit_eq_msb (x : BitVec 32) : signBit x = x.msb := by
  have hbit : x &&& 0x80000000 = if x.getLsbD 31 then 0x80000000 else 0 := BitVec.and_twoPow x 31
  rw [signBit, BitVec.msb_eq_getLsbD_last, hbit]
  cases x.getLsbD 31 with
  | true => rfl
  | false => rfl

/-- The loop of `Mult`, with so many rounds to go: the values of `hi` and `lo`. -/
def multLoop : Nat → BitVec 32 → BitVec 32 → BitVec 32 → BitVec 32 → BitVec 32 → BitVec 32 × BitVec 32
  | 0, _, _, _, hi, lo => (hi, lo)
  | n + 1, a, bHi, bLo, hi, lo =>
    let bHi' := if bLo &&& 0x80000000 ≠ 0 then bHi <<< 1 ||| 1 else bHi <<< 1
    if a &&& 1 ≠ 0 then
      let lo' := lo + bLo
      let hi' := (if lo' < bLo then hi + 1 else hi) + bHi
      if a &&& 0xfffffffe = 0 then (hi', lo')
      else multLoop n (a.sshiftRight 1) bHi' (bLo <<< 1) hi' lo'
    else multLoop n (a.sshiftRight 1) bHi' (bLo <<< 1) hi lo

/-- `Mult(a, b, signedArith, hiPtr, loPtr)`: the values of `*hiPtr` and `*loPtr`. -/
def mult (a b : BitVec 32) (signedArith : Bool) : BitVec 32 × BitVec 32 :=
  if a = 0 ∨ b = 0 then (0, 0)
  else
    let negA := signedArith && signBit a
    let negB := signedArith && signBit b
    let (hi, lo) := multLoop 32 (if negA then -a else a) 0 (if negB then -b else b) 0 0
    if negA != negB then
      let lo' := ~~~lo + 1
      (if lo' = 0 then ~~~hi + 1 else ~~~hi, lo')
    else (hi, lo)

/-- The registers, main memory and the translation of addresses. -/
structure Machine where
  registers : Registers
  mainMemory : Bytes
  mmu : Mmu

/-- The exceptions that the processor raises. -/
inductive Trap where
  | memory (which : ExceptionType)
  | overflow
  | syscall
  | illegalInstr
  deriving DecidableEq

/-- An instruction that was executed: the machine before `DelayedLoad`, the next pc, and the load to come. -/
structure Effect where
  machine : Machine
  pcAfter : BitVec 32
  nextLoadReg : Fin 32
  nextLoadValue : BitVec 32

/-- How the `switch` ends. -/
inductive Outcome where
  | done (e : Effect)
  | trap (m : Machine) (which : Trap) (badVAddr : BitVec 32)

namespace Machine

/-- `registers[r]`. -/
def get (m : Machine) (r : Fin 32) : BitVec 32 := m.registers (gpr r)

/-- `registers[r] = value`. -/
def set (m : Machine) (r : Reg) (value : BitVec 32) : Machine :=
  { m with registers := m.registers.write r value }

/-- `break`, without a branch and without a load. -/
def next (m : Machine) (pcAfter : BitVec 32) : Option Outcome := some (.done ⟨m, pcAfter, 0, 0⟩)

/-- `machine->ReadMem(addr, size, &value)`, and what is done with the value. -/
def loading (m : Machine) (bigEndian : Bool) (addr : BitVec 32) (size : Int)
    (k : Machine → BitVec 32 → Option Outcome) : Option Outcome :=
  (readMem bigEndian m.mainMemory m.mmu addr size).bind fun r =>
    let m := { m with mmu := r.1 }
    match r.2 with
    | .error which => some (.trap m (.memory which) addr)
    | .ok value => k m value

/-- `machine->WriteMem(addr, size, value)`. -/
def storing (m : Machine) (bigEndian : Bool) (addr : BitVec 32) (size : Int) (value pcAfter : BitVec 32) :
    Option Outcome :=
  (writeMem bigEndian m.mainMemory m.mmu addr size value).bind fun r =>
    let m := { m with mmu := r.1 }
    match r.2 with
    | .error which => some (.trap m (.memory which) addr)
    | .ok mainMemory => { m with mainMemory := mainMemory }.next pcAfter

section Families

variable (m : Machine) (bigEndian : Bool) (i : Instruction) (pcAfter : BitVec 32)

/-- `registers[rd] = f(registers[rs], registers[rt])`. -/
def threeRegs (f : BitVec 32 → BitVec 32 → BitVec 32) : Option Outcome :=
  (m.set (gpr i.rd) (f (m.get i.rs) (m.get i.rt))).next pcAfter

/-- `registers[rt] = f(registers[rs], extra)`. -/
def immediate (f : BitVec 32 → BitVec 32 → BitVec 32) : Option Outcome :=
  (m.set (gpr i.rt) (f (m.get i.rs) i.extra)).next pcAfter

/-- `registers[rd] = f(registers[rt], extra)`. -/
def shift (f : BitVec 32 → BitVec 32 → BitVec 32) : Option Outcome :=
  (m.set (gpr i.rd) (f (m.get i.rt) i.extra)).next pcAfter

/-- An operation on `a` and `b` that raises an exception on overflow. -/
def checked (dst : Fin 32) (result : BitVec 32) (overflow : Bool) : Option Outcome :=
  if overflow then some (.trap m .overflow 0) else (m.set (gpr dst) result).next pcAfter

/-- `if (taken) pcAfter = registers[NextPCReg] + IndexToAddr(extra)`. -/
def branch (taken : Bool) : Option Outcome :=
  m.next (if taken then m.registers nextPCReg + i.extra <<< 2 else pcAfter)

/-- `registers[r] = registers[NextPCReg] + 4`. -/
def link (r : Reg) : Machine := m.set r (m.registers nextPCReg + 4)

/-- `pcAfter = (pcAfter & 0xf0000000) | IndexToAddr(extra)`. -/
def jump : Option Outcome := m.next (pcAfter &&& 0xf0000000 ||| i.extra <<< 2)

/-- A load of `size` bytes; `mask` is the test for alignment that is made before `ReadMem`, and `f` takes the value
    to the one that is loaded. -/
def load (size : Int) (mask : BitVec 32) (f : BitVec 32 → BitVec 32) : Option Outcome :=
  let tmp := m.get i.rs + i.extra
  if tmp &&& mask ≠ 0 then some (.trap m (.memory .addressErrorException) tmp)
  else m.loading bigEndian tmp size fun m value => some (.done ⟨m, pcAfter, i.rt, f value⟩)

/-- `LWL` and `LWR`: the value is merged with that of `rt`, pending or not. -/
def loadMerged (merge : BitVec 32 → BitVec 32 → BitVec 32 → BitVec 32) : Option Outcome :=
  let tmp := m.get i.rs + i.extra
  if tmp &&& 3 = 0 then
    m.loading bigEndian tmp 4 fun m value =>
      let old := if m.registers loadReg = BitVec.ofNat 32 i.rt then m.registers loadValueReg else m.get i.rt
      some (.done ⟨m, pcAfter, i.rt, merge (tmp &&& 3) old value⟩)
  else none

/-- A store of `size` bytes. -/
def store (size : Int) : Option Outcome :=
  m.storing bigEndian (m.get i.rs + i.extra) size (m.get i.rt) pcAfter

/-- `SWL` and `SWR`: the word in memory is merged with `rt`. -/
def storeMerged (merge : BitVec 32 → BitVec 32 → BitVec 32 → BitVec 32) : Option Outcome :=
  let tmp := m.get i.rs + i.extra
  if tmp &&& 3 = 0 then
    m.loading bigEndian (tmp &&& ~~~3) 4 fun m value =>
      m.storing bigEndian (tmp &&& ~~~3) 4 (merge (tmp &&& 3) value (m.get i.rt)) pcAfter
  else none

/-- `registers[HiReg]` and `registers[LoReg]` are set. -/
def hiLo (hi lo : BitVec 32) : Option Outcome := ((m.set loReg lo).set hiReg hi).next pcAfter

/-- `OP_DIV`; the host does not divide the least `int` by -1. -/
def divide (a b : BitVec 32) : Option Outcome :=
  if b = 0 then m.hiLo pcAfter 0 0
  else if a = 0x80000000 ∧ b = 0xffffffff then none
  else m.hiLo pcAfter (a.srem b) (a.sdiv b)

end Families

/-- The four cases of `LWL`, by the place of the byte in its word. -/
def mergeLeft (place old value : BitVec 32) : BitVec 32 :=
  if place = 0 then value
  else if place = 1 then old &&& 0xff ||| value <<< 8
  else if place = 2 then old &&& 0xffff ||| value <<< 16
  else old &&& 0xffffff ||| value <<< 24

/-- The four cases of `LWR`. -/
def mergeRight (place old value : BitVec 32) : BitVec 32 :=
  if place = 0 then old &&& 0xffffff00 ||| (value.sshiftRight 24 &&& 0xff)
  else if place = 1 then old &&& 0xffff0000 ||| (value.sshiftRight 16 &&& 0xffff)
  else if place = 2 then old &&& 0xff000000 ||| (value.sshiftRight 8 &&& 0xffffff)
  else value

/-- The four cases of `SWL`. -/
def putLeft (place value rt : BitVec 32) : BitVec 32 :=
  if place = 0 then rt
  else if place = 1 then value &&& 0xff000000 ||| (rt.sshiftRight 8 &&& 0xffffff)
  else if place = 2 then value &&& 0xffff0000 ||| (rt.sshiftRight 16 &&& 0xffff)
  else value &&& 0xffffff00 ||| (rt.sshiftRight 24 &&& 0xff)

/-- The four cases of `SWR`. -/
def putRight (place value rt : BitVec 32) : BitVec 32 :=
  if place = 0 then value &&& 0xffffff ||| rt <<< 24
  else if place = 1 then value &&& 0xffff ||| rt <<< 16
  else if place = 2 then value &&& 0xff ||| rt <<< 8
  else rt

/-- The `switch` of `OneInstruction`. -/
def execute (m : Machine) (bigEndian : Bool) (i : Instruction) (pcAfter : BitVec 32) : Option Outcome :=
  let rs := m.get i.rs
  let rt := m.get i.rt
  match i.opCode with
  | .add => m.checked pcAfter i.rd (rs + rt) (!signBit (rs ^^^ rt) && signBit (rs ^^^ (rs + rt)))
  | .addi => m.checked pcAfter i.rt (rs + i.extra) (!signBit (rs ^^^ i.extra) && signBit (i.extra ^^^ (rs + i.extra)))
  | .addiu => m.immediate i pcAfter fun rs extra => rs + extra
  | .addu => m.threeRegs i pcAfter fun rs rt => rs + rt
  | .and => m.threeRegs i pcAfter fun rs rt => rs &&& rt
  | .andi => m.immediate i pcAfter fun rs extra => rs &&& (extra &&& 0xffff)
  | .beq => m.branch i pcAfter (rs = rt)
  | .bgezal => (m.link retAddrReg).branch i pcAfter (!signBit ((m.link retAddrReg).get i.rs))
  | .bgez => m.branch i pcAfter (!signBit rs)
  | .bgtz => m.branch i pcAfter (0 < rs.toInt)
  | .blez => m.branch i pcAfter (rs.toInt ≤ 0)
  | .bltzal => (m.link retAddrReg).branch i pcAfter (signBit ((m.link retAddrReg).get i.rs))
  | .bltz => m.branch i pcAfter (signBit rs)
  | .bne => m.branch i pcAfter (rs ≠ rt)
  | .div => m.divide pcAfter rs rt
  | .divu => if rt = 0 then m.hiLo pcAfter 0 0 else m.hiLo pcAfter (rs % rt) (rs / rt)
  | .jal => (m.link retAddrReg).jump i pcAfter
  | .j => m.jump i pcAfter
  | .jalr => (m.link (gpr i.rd)).next ((m.link (gpr i.rd)).get i.rs)
  | .jr => m.next rs
  | .lb => m.load bigEndian i pcAfter 1 0 fun value =>
      if value &&& 0x80 ≠ 0 then value ||| 0xffffff00 else value &&& 0xff
  | .lbu => m.load bigEndian i pcAfter 1 0 fun value => value &&& 0xff
  | .lh => m.load bigEndian i pcAfter 2 1 fun value =>
      if value &&& 0x8000 ≠ 0 then value ||| 0xffff0000 else value &&& 0xffff
  | .lhu => m.load bigEndian i pcAfter 2 1 fun value => value &&& 0xffff
  | .lui => m.immediate i pcAfter fun _ extra => extra <<< 16
  | .lw => m.load bigEndian i pcAfter 4 3 id
  | .lwl => m.loadMerged bigEndian i pcAfter mergeLeft
  | .lwr => m.loadMerged bigEndian i pcAfter mergeRight
  | .mfhi => (m.set (gpr i.rd) (m.registers hiReg)).next pcAfter
  | .mflo => (m.set (gpr i.rd) (m.registers loReg)).next pcAfter
  | .mthi => (m.set hiReg rs).next pcAfter
  | .mtlo => (m.set loReg rs).next pcAfter
  | .mult => m.hiLo pcAfter (mult rs rt true).1 (mult rs rt true).2
  | .multu => m.hiLo pcAfter (mult rs rt false).1 (mult rs rt false).2
  | .nor => m.threeRegs i pcAfter fun rs rt => ~~~(rs ||| rt)
  | .or => m.threeRegs i pcAfter fun rs _ => rs ||| rs
  | .ori => m.immediate i pcAfter fun rs extra => rs ||| (extra &&& 0xffff)
  | .sb => m.store bigEndian i pcAfter 1
  | .sh => m.store bigEndian i pcAfter 2
  | .sll => m.shift i pcAfter fun rt extra => rt <<< extra.toNat
  | .sllv => m.threeRegs i pcAfter fun rs rt => rt <<< (rs &&& 0x1f).toNat
  | .slt => m.threeRegs i pcAfter fun rs rt => if rs.toInt < rt.toInt then 1 else 0
  | .slti => m.immediate i pcAfter fun rs extra => if rs.toInt < extra.toInt then 1 else 0
  | .sltiu => m.immediate i pcAfter fun rs extra => if rs < extra then 1 else 0
  | .sltu => m.threeRegs i pcAfter fun rs rt => if rs < rt then 1 else 0
  | .sra => m.shift i pcAfter fun rt extra => rt.sshiftRight extra.toNat
  | .srav => m.threeRegs i pcAfter fun rs rt => rt.sshiftRight (rs &&& 0x1f).toNat
  -- `tmp` is an `int`: the shift is arithmetic
  | .srl => m.shift i pcAfter fun rt extra => rt.sshiftRight extra.toNat
  | .srlv => m.threeRegs i pcAfter fun rs rt => rt.sshiftRight (rs &&& 0x1f).toNat
  | .sub => m.checked pcAfter i.rd (rs - rt) (signBit (rs ^^^ rt) && signBit (rs ^^^ (rs - rt)))
  | .subu => m.threeRegs i pcAfter fun rs rt => rs - rt
  | .sw => m.store bigEndian i pcAfter 4
  | .swl => m.storeMerged bigEndian i pcAfter putLeft
  | .swr => m.storeMerged bigEndian i pcAfter putRight
  | .syscall => some (.trap m .syscall 0)
  | .xor => m.threeRegs i pcAfter fun rs rt => rs ^^^ rt
  | .xori => m.immediate i pcAfter fun rs extra => rs ^^^ (extra &&& 0xffff)
  | .res => some (.trap m .illegalInstr 0)
  | .unimp => some (.trap m .illegalInstr 0)

/-! ## One instruction -/

/-- `ExceptionHandler`, as the processor sees it: the kernel has a state of its own, and may change the machine. -/
abbrev Handler (σ : Type) := Trap → σ → Machine → Option (σ × Machine)

/-- `machine->DelayedLoad(0, 0)`. -/
def delayedLoad (m : Machine) : Option Machine :=
  (m.registers.delayedLoad 0 0).map fun registers => { m with registers := registers }

/-- `Machine::RaiseException(which, badVAddr)`. -/
def raiseException {σ : Type} (m : Machine) (exceptionHandler : Handler σ) (kernel : σ) (which : Trap)
    (badVAddr : BitVec 32) : Option (σ × Machine) :=
  (m.set badVAddrReg badVAddr).delayedLoad.bind fun m => exceptionHandler which kernel m

/-- The end of `OneInstruction`: the delayed load, and the program counters. -/
def advance (e : Effect) : Option Machine :=
  (e.machine.registers.delayedLoad (BitVec.ofNat 32 e.nextLoadReg) e.nextLoadValue).map fun registers =>
    let registers := registers.write prevPCReg (registers pcReg)
    let registers := registers.write pcReg (registers nextPCReg)
    { e.machine with registers := registers.write nextPCReg e.pcAfter }

/-- How `OneInstruction` ends, after the `switch`. -/
def conclude {σ : Type} (exceptionHandler : Handler σ) (kernel : σ) : Outcome → Option (σ × Machine)
  | .trap m which badVAddr => m.raiseException exceptionHandler kernel which badVAddr
  | .done e => (advance e).map fun m => (kernel, m)

/-- `Machine::OneInstruction(instr)`. -/
def oneInstruction {σ : Type} (m : Machine) (bigEndian : Bool) (exceptionHandler : Handler σ) (kernel : σ) :
    Option (σ × Machine) :=
  let pc := m.registers pcReg
  (readMem bigEndian m.mainMemory m.mmu pc 4).bind fun r =>
    let m := { m with mmu := r.1 }
    match r.2 with
    | .error which => m.raiseException exceptionHandler kernel (.memory which) pc
    | .ok raw =>
      (m.execute bigEndian (Instruction.decode raw) (m.registers nextPCReg + 4)).bind
        (conclude exceptionHandler kernel)

end Machine

end Nachos
