/-
  `machine/machine.h`, `machine/machine.cc` — the simulated machine as a user program sees it: the registers, main
  memory and the translation of addresses.

  A load does not write its register at once: it leaves the register and the value in `LoadReg` and
  `LoadValueReg`, and the next `DelayedLoad` writes it.  `DelayedLoad(0, 0)` finishes what is pending; it is called
  before the kernel is entered (`RaiseException`, `CheckIfDue`).
-/
import Mathlib.Logic.Function.Basic
import Nachos.Machine.Translate

namespace Nachos

/-- `NumTotalRegs`. -/
def numTotalRegs : Nat := 40

/-- The number of a register. -/
abbrev Reg := Fin numTotalRegs

/-- Register numbers of five bits can be written as numerals. -/
instance neZeroGpr : NeZero 32 := ⟨by decide⟩

/-- A general purpose register, by the five bits of an instruction that name it. -/
def gpr (i : Fin 32) : Reg := ⟨i, Nat.lt_trans i.isLt (by decide)⟩

/-- `StackReg`. -/
def stackReg : Reg := ⟨29, by decide⟩

/-- `RetAddrReg`, `R31`. -/
def retAddrReg : Reg := ⟨31, by decide⟩

/-- `HiReg`. -/
def hiReg : Reg := ⟨32, by decide⟩

/-- `LoReg`. -/
def loReg : Reg := ⟨33, by decide⟩

/-- `PCReg`. -/
def pcReg : Reg := ⟨34, by decide⟩

/-- `NextPCReg`. -/
def nextPCReg : Reg := ⟨35, by decide⟩

/-- `PrevPCReg`. -/
def prevPCReg : Reg := ⟨36, by decide⟩

/-- `LoadReg`. -/
def loadReg : Reg := ⟨37, by decide⟩

/-- `LoadValueReg`. -/
def loadValueReg : Reg := ⟨38, by decide⟩

/-- `BadVAddrReg`. -/
def badVAddrReg : Reg := ⟨39, by decide⟩

theorem gpr_injective {a b : Fin 32} (h : gpr a = gpr b) : a = b := by
  have hval : (gpr a).val = (gpr b).val := congrArg Fin.val h
  exact Fin.ext hval

theorem gpr_ne {a : Fin 32} {d : Reg} (hd : 32 ≤ d.val) : gpr a ≠ d := by
  intro h
  have hval : a.val = d.val := congrArg Fin.val h
  omega

/-- `Machine::registers`. -/
abbrev Registers := Reg → BitVec 32

namespace Registers

/-- The registers as `Machine::Machine` sets them. -/
def zero : Registers := fun _ => 0

/-- `Machine::WriteRegister(num, value)`. -/
def write (registers : Registers) (num : Reg) (value : BitVec 32) : Registers := Function.update registers num value

theorem write_of_ne (registers : Registers) {num other : Reg} (h : other ≠ num) (value : BitVec 32) :
    registers.write num value other = registers other := by
  rw [write, Function.update_of_ne h]

theorem write_same (registers : Registers) (num : Reg) (value : BitVec 32) : registers.write num value num = value := by
  rw [write, Function.update_self]

theorem write_eq_self {registers : Registers} {num : Reg} {value : BitVec 32} (h : registers num = value) :
    registers.write num value = registers := by
  rw [write, ← h, Function.update_eq_self]

/-- `AddrSpace::InitRegisters()`, of an address space of so many pages: all registers are written. -/
def init (numPages : BitVec 32) : Registers :=
  ((zero.write pcReg 0).write nextPCReg 4).write stackReg (numPages * BitVec.ofNat 32 pageSize - 16)

/-- `Machine::DelayedLoad(nextReg, nextValue)`; `none`: `LoadReg` names no register. -/
def delayedLoad (registers : Registers) (nextReg nextValue : BitVec 32) : Option Registers :=
  if h : (registers loadReg).toNat < numTotalRegs then
    let registers := registers.write ⟨(registers loadReg).toNat, h⟩ (registers loadValueReg)
    some (((registers.write loadReg nextReg).write loadValueReg nextValue).write (gpr 0) 0)
  else none

end Registers

/-- `DelayedLoad`, when `LoadReg` names the register `reg`. -/
theorem delayedLoad_of_reg {registers : Registers} {reg : Reg} (hreg : (registers loadReg).toNat = reg.val)
    (a b : BitVec 32) :
    registers.delayedLoad a b = some ((((registers.write reg (registers loadValueReg)).write loadReg a).write
      loadValueReg b).write (gpr 0) 0) := by
  have hlt : (registers loadReg).toNat < numTotalRegs := by
    rw [hreg]
    exact reg.isLt
  have hfin : (⟨(registers loadReg).toNat, hlt⟩ : Reg) = reg := Fin.ext hreg
  rw [Registers.delayedLoad, dif_pos hlt, hfin]

/-- `DelayedLoad`, when no load is pending. -/
theorem delayedLoad_of_zero {registers : Registers} (h : registers loadReg = 0) (a b : BitVec 32) :
    ∃ registers', registers.delayedLoad a b = some registers' ∧ registers' (gpr 0) = 0 ∧
      ∀ d, d ≠ gpr 0 → d ≠ loadReg → d ≠ loadValueReg → registers' d = registers d := by
  have hreg : (registers loadReg).toNat = (gpr 0).val := by
    rw [h]
    rfl
  refine ⟨_, delayedLoad_of_reg hreg a b, Registers.write_same _ _ _, ?_⟩
  intro d hzero hload hvalue
  rw [Registers.write_of_ne _ hzero, Registers.write_of_ne _ hvalue, Registers.write_of_ne _ hload,
    Registers.write_of_ne _ hzero]

end Nachos
