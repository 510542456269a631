/-
  `machine/mipssim.cc`, `machine/interrupt.cc` — INTERRUPTS DO NOT SHOW in the user registers.

  A load leaves its value pending, and the next instruction still finds the old value in the register.  But an
  interrupt between the two (`CheckIfDue`) does `DelayedLoad(0, 0)`, and then the next instruction finds the new
  one.  A program cannot tell the difference if the instruction after a load of a register leaves that register
  alone.

  1. **The pending load, written** (`land`) — `DelayedLoad(0, 0)`.  On registers that are not the pending one a
     machine and the same machine with the load written agree, and writing such a register commutes with `land`.

  2. **One instruction** (`execute_lands`, by the families of `execute`; `oneInstruction_lands`) — if it leaves the
     pending register alone, it does the same on a machine and on that machine with the load written.  `LWL` and `LWR`
     look at the pending load themselves: they may merge into it.

  3. **The run** (`interrupt_transparency`) — so runs with interrupts at any instructions are the same, once what is
     pending at the end is written.  A load into `r0` followed by `LWR` into `r0` leaves different values pending; they
     are never seen, so runs are compared by `Alike` and not by equality.
-/
import Nachos.Lib.Partial
import Nachos.Machine.Mipssim

namespace Nachos

/-! ## The program -/

/-- The registers that an instruction has as a source or as a destination, except that `LWL` and `LWR` merge into
    `rt`. -/
def Instruction.operands (i : Instruction) : List (Fin 32) :=
  match i.opCode with
  | .add | .addu | .and | .nor | .or | .sllv | .slt | .sltu | .srav | .srlv | .sub | .subu | .xor => [i.rs, i.rt, i.rd]
  | .addi | .addiu | .andi | .ori | .slti | .sltiu | .xori => [i.rs, i.rt]
  | .lui => [i.rt]
  | .sll | .sra | .srl => [i.rt, i.rd]
  | .beq | .bne | .div | .divu | .mult | .multu => [i.rs, i.rt]
  | .bgez | .bgtz | .blez | .bltz | .jr | .mthi | .mtlo => [i.rs]
  | .bgezal | .bltzal => [i.rs, 31]
  | .jal => [31]
  | .jalr => [i.rs, i.rd]
  | .lb | .lbu | .lh | .lhu | .lw => [i.rs, i.rt]
  | .lwl | .lwr => [i.rs]
  | .mfhi | .mflo => [i.rd]
  | .sb | .sh | .sw | .swl | .swr => [i.rs, i.rt]
  | .j | .syscall | .res | .unimp => []

namespace Machine

/-- The instruction at the pc, if it can be fetched. -/
def fetch (m : Machine) (bigEndian : Bool) : Option Instruction :=
  (readMem bigEndian m.mainMemory m.mmu (m.registers pcReg) 4).bind fun r => r.2.toOption.map Instruction.decode

/-- **No hazard**: the instruction at the pc leaves alone the register that was just loaded. -/
def HazardFree (m : Machine) (bigEndian : Bool) : Prop :=
  ∀ i ∈ m.fetch bigEndian, ∀ r ∈ i.operands, r ≠ 0 → m.registers loadReg ≠ BitVec.ofNat 32 r

instance (m : Machine) (bigEndian : Bool) : Decidable (m.HazardFree bigEndian) :=
  inferInstanceAs (Decidable (∀ i ∈ m.fetch bigEndian, ∀ r ∈ i.operands, r ≠ 0 →
    m.registers loadReg ≠ BitVec.ofNat 32 r))

/-- The processor's own registers are in order: `r0` is 0, and `LoadReg` names a general purpose register. -/
structure LoadSound (m : Machine) : Prop where
  zero : m.registers (gpr 0) = 0
  reg : (m.registers loadReg).toNat < 32

/-- The kernel leaves them in order: it gives the machine back as some process has left it, apart from the
    registers for results and for the pc. -/
def Handler.KeepsLoad {σ : Type} (exceptionHandler : Handler σ) : Prop :=
  ∀ which kernel m kernel' m', exceptionHandler which kernel m = some (kernel', m') → m.LoadSound → m'.LoadSound

/-- One round of `Run`: an interrupt, if there is one at this boundary, and an instruction. -/
def round {σ : Type} (bigEndian : Bool) (exceptionHandler : Handler σ) (interrupts : Nat → Bool) (k : Nat)
    (s : σ × Machine) : Option (σ × Machine) :=
  (if interrupts k then s.2.delayedLoad else some s.2).bind fun m =>
    m.oneInstruction bigEndian exceptionHandler s.1

/-- `n` instructions, with interrupts at the given boundaries, and what is then pending written. -/
def after {σ : Type} (bigEndian : Bool) (exceptionHandler : Handler σ) (interrupts : Nat → Bool) (n : Nat)
    (s : σ × Machine) : Option (σ × Machine) :=
  (Partial.run (round bigEndian exceptionHandler interrupts) n s).bind fun s => s.2.delayedLoad.map (Prod.mk s.1)

end Machine

/-! ## The pending load, written -/

/-- The registers with the load of `v` to `r` written; there is no load to `r0`. -/
def Registers.land (registers : Registers) (r : Fin 32) (v : BitVec 32) : Registers := fun d =>
  if d = loadReg ∨ d = loadValueReg then 0 else if r ≠ 0 ∧ d = gpr r then v else registers d

/-- The machine with the load of `v` to `r` written. -/
def Machine.land (m : Machine) (r : Fin 32) (v : BitVec 32) : Machine :=
  { m with registers := m.registers.land r v }

/-- What is pending is a load of `v` to `r`. -/
structure Machine.Pending (m : Machine) (r : Fin 32) (v : BitVec 32) : Prop where
  reg : m.registers loadReg = BitVec.ofNat 32 r
  value : m.registers loadValueReg = v

/-- A register that has nothing to do with the pending load. -/
structure Free (r : Fin 32) (d : Reg) : Prop where
  reg : d ≠ loadReg
  value : d ≠ loadValueReg
  pending : r ≠ 0 → d ≠ gpr r

section Land

variable {r : Fin 32} {v : BitVec 32} {m : Machine}

theorem free_gpr {a : Fin 32} (ha : r ≠ 0 → a ≠ r) : Free r (gpr a) where
  reg := gpr_ne (by decide)
  value := gpr_ne (by decide)
  pending hr h := ha hr (gpr_injective h)

/-- The registers after the general purpose ones, `LoadReg` and `LoadValueReg` apart. -/
theorem free_special {d : Reg} (hd : 32 ≤ d.val) (hreg : d ≠ loadReg) (hvalue : d ≠ loadValueReg) : Free r d where
  reg := hreg
  value := hvalue
  pending _ h := gpr_ne hd h.symm

theorem free_hi : Free r hiReg := free_special (by decide) (by decide) (by decide)

theorem free_lo : Free r loReg := free_special (by decide) (by decide) (by decide)

theorem free_nextPC : Free r nextPCReg := free_special (by decide) (by decide) (by decide)

theorem registers_land {d : Reg} (hd : Free r d) : (m.land r v).registers d = m.registers d := by
  simp only [Machine.land, Registers.land, hd.reg, hd.value, or_self, if_false]
  rw [if_neg]
  rintro ⟨hr, h⟩
  exact hd.pending hr h

theorem get_land {a : Fin 32} (ha : r ≠ 0 → a ≠ r) : (m.land r v).get a = m.get a := registers_land (free_gpr ha)

theorem set_land {d : Reg} (hd : Free r d) (x : BitVec 32) : (m.land r v).set d x = (m.set d x).land r v := by
  simp only [Machine.set, Machine.land, Machine.mk.injEq, and_true]
  funext e
  simp only [Registers.write, Registers.land, Function.update_apply]
  by_cases he : e = d
  · subst he
    have hne : ¬ (r ≠ 0 ∧ e = gpr r) := fun h => hd.pending h.1 h.2
    simp [hd.reg, hd.value, hne]
  · simp [he]

theorem link_land {d : Reg} (hd : Free r d) : (m.land r v).link d = (m.link d).land r v := by
  rw [Machine.link, registers_land free_nextPC, set_land hd]
  rfl

namespace Machine

theorem Pending.set (hm : m.Pending r v) {d : Reg} (hd : Free r d) (x : BitVec 32) : (m.set d x).Pending r v where
  reg := (m.registers.write_of_ne hd.reg.symm x).trans hm.reg
  value := (m.registers.write_of_ne hd.value.symm x).trans hm.value

theorem Pending.translated (hm : m.Pending r v) (mmu : Mmu) : ({ m with mmu := mmu } : Machine).Pending r v :=
  ⟨hm.reg, hm.value⟩

theorem Pending.link (hm : m.Pending r v) {d : Reg} (hd : Free r d) : (m.link d).Pending r v := hm.set hd _

end Machine

theorem land_loadReg : (m.land r v).registers loadReg = 0 := by
  simp [Machine.land, Registers.land]

theorem land_loadValueReg : (m.land r v).registers loadValueReg = 0 := by
  simp [Machine.land, Registers.land]

theorem get_land_self (hr : r ≠ 0) : (m.land r v).get r = v := by
  have hreg : gpr r ≠ loadReg := gpr_ne (by decide)
  have hvalue : gpr r ≠ loadValueReg := gpr_ne (by decide)
  simp [Machine.get, Machine.land, Registers.land, hreg, hvalue, hr]

theorem toNat_ofFin (r : Fin 32) : (BitVec.ofNat 32 r.val).toNat = r.val := by
  rw [BitVec.toNat_ofNat]
  omega

theorem Machine.Pending.toNat (hm : m.Pending r v) : (m.registers loadReg).toNat = (gpr r).val := by
  rw [hm.reg, toNat_ofFin]
  rfl

theorem toNat_land : ((m.land r v).registers loadReg).toNat = (gpr 0).val := by
  rw [land_loadReg]
  rfl

/-- **`DelayedLoad` finds the same** whether the pending load has been written or not. -/
theorem delayedLoad_land (hm : m.Pending r v) (a b : BitVec 32) :
    (m.land r v).registers.delayedLoad a b = m.registers.delayedLoad a b := by
  rw [delayedLoad_of_reg hm.toNat, delayedLoad_of_reg toNat_land, land_loadValueReg, hm.value]
  congr 1
  funext d
  simp only [Registers.write, Function.update_apply, Machine.land, Registers.land]
  by_cases h0 : d = gpr 0
  · simp [h0]
  by_cases h1 : d = loadReg
  · simp [h1]
  by_cases h2 : d = loadValueReg
  · simp [h2]
  by_cases hd : d = gpr r
  · have hr : r ≠ 0 := by
      rintro rfl
      exact h0 hd
    simp only [if_neg h0, or_self, if_false, if_pos hd, if_pos (And.intro hr hd), h1, h2]
  · simp [h0, h1, h2, hd]

/-- **What an interrupt does** to the machine. -/
theorem delayedLoad_eq_land (hm : m.Pending r v) (hzero : m.registers (gpr 0) = 0) :
    m.delayedLoad = some (m.land r v) := by
  have h0 : (m.land r v).registers (gpr 0) = 0 := by
    rw [registers_land (free_gpr fun hr h => hr h.symm), hzero]
  -- with nothing pending, `DelayedLoad(0, 0)` writes 0 where there is 0 already
  have hsame : (m.land r v).registers.delayedLoad 0 0 = some (m.land r v).registers := by
    rw [delayedLoad_of_reg toNat_land, land_loadValueReg, Registers.write_eq_self h0,
      Registers.write_eq_self land_loadReg, Registers.write_eq_self land_loadValueReg, Registers.write_eq_self h0]
  rw [Machine.delayedLoad, ← delayedLoad_land hm, hsame]
  rfl

end Land

/-! ## One instruction -/

/-- How an instruction ends on a machine, and on the same machine with the pending load written. -/
inductive Outcome.Lands (r : Fin 32) (v : BitVec 32) : Outcome → Outcome → Prop where
  | done {m : Machine} {pcAfter : BitVec 32} {nextLoadReg : Fin 32} {value value' : BitVec 32} (hm : m.Pending r v)
      (hvalue : nextLoadReg ≠ 0 → value = value') :
      Lands r v (.done ⟨m, pcAfter, nextLoadReg, value⟩) (.done ⟨m.land r v, pcAfter, nextLoadReg, value'⟩)
  | trap {m : Machine} {which : Trap} {badVAddr : BitVec 32} (hm : m.Pending r v) :
      Lands r v (.trap m which badVAddr) (.trap (m.land r v) which badVAddr)

namespace Machine

section Families

variable {r : Fin 32} {v : BitVec 32} {m : Machine} {bigEndian : Bool} {i : Instruction} {pcAfter : BitVec 32}

theorem next_lands (hm : m.Pending r v) : Option.Rel (Outcome.Lands r v) (m.next pcAfter)
    ((m.land r v).next pcAfter) := .some (.done hm fun _ => rfl)

theorem set_lands (hm : m.Pending r v) {d : Reg} (hd : Free r d) (x : BitVec 32) :
    Option.Rel (Outcome.Lands r v) ((m.set d x).next pcAfter) (((m.land r v).set d x).next pcAfter) := by
  rw [set_land hd]
  exact next_lands (hm.set hd x)

theorem threeRegs_lands (hm : m.Pending r v) (hrs : r ≠ 0 → i.rs ≠ r) (hrt : r ≠ 0 → i.rt ≠ r)
    (hrd : r ≠ 0 → i.rd ≠ r) (f : BitVec 32 → BitVec 32 → BitVec 32) :
    Option.Rel (Outcome.Lands r v) (m.threeRegs i pcAfter f) ((m.land r v).threeRegs i pcAfter f) := by
  rw [threeRegs, threeRegs, get_land hrs, get_land hrt]
  exact set_lands hm (free_gpr hrd) _

theorem immediate_lands (hm : m.Pending r v) (hrs : r ≠ 0 → i.rs ≠ r) (hrt : r ≠ 0 → i.rt ≠ r)
    (f : BitVec 32 → BitVec 32 → BitVec 32) :
    Option.Rel (Outcome.Lands r v) (m.immediate i pcAfter f) ((m.land r v).immediate i pcAfter f) := by
  rw [immediate, immediate, get_land hrs]
  exact set_lands hm (free_gpr hrt) _

theorem shift_lands (hm : m.Pending r v) (hrt : r ≠ 0 → i.rt ≠ r) (hrd : r ≠ 0 → i.rd ≠ r)
    (f : BitVec 32 → BitVec 32 → BitVec 32) :
    Option.Rel (Outcome.Lands r v) (m.shift i pcAfter f) ((m.land r v).shift i pcAfter f) := by
  rw [shift, shift, get_land hrt]
  exact set_lands hm (free_gpr hrd) _

theorem checked_lands (hm : m.Pending r v) {dst : Fin 32} (hdst : r ≠ 0 → dst ≠ r) (result : BitVec 32)
    (overflow : Bool) :
    Option.Rel (Outcome.Lands r v) (m.checked pcAfter dst result overflow)
      ((m.land r v).checked pcAfter dst result overflow) := by
  rw [checked, checked]
  split
  · exact .some (.trap hm)
  · exact set_lands hm (free_gpr hdst) _

theorem branch_lands (hm : m.Pending r v) (taken : Bool) :
    Option.Rel (Outcome.Lands r v) (m.branch i pcAfter taken) ((m.land r v).branch i pcAfter taken) := by
  rw [branch, branch, registers_land free_nextPC]
  exact next_lands hm

theorem hiLo_lands (hm : m.Pending r v) (hi lo : BitVec 32) :
    Option.Rel (Outcome.Lands r v) (m.hiLo pcAfter hi lo) ((m.land r v).hiLo pcAfter hi lo) := by
  rw [hiLo, hiLo, set_land free_lo]
  exact set_lands (hm.set free_lo lo) free_hi hi

theorem divide_lands (hm : m.Pending r v) (a b : BitVec 32) :
    Option.Rel (Outcome.Lands r v) (m.divide pcAfter a b) ((m.land r v).divide pcAfter a b) := by
  rw [divide, divide]
  split
  · exact hiLo_lands hm 0 0
  · split
    · exact .none
    · exact hiLo_lands hm _ _

/-- Memory and the translation of addresses do not depend on the pending load. -/
theorem loading_lands (hm : m.Pending r v) (addr : BitVec 32) (size : Int)
    {k k' : Machine → BitVec 32 → Option Outcome}
    (hk : ∀ mmu value, Option.Rel (Outcome.Lands r v) (k { m with mmu := mmu } value)
      (k' ({ m with mmu := mmu }.land r v) value)) :
    Option.Rel (Outcome.Lands r v) (m.loading bigEndian addr size k) ((m.land r v).loading bigEndian addr size k') := by
  rw [loading, loading]
  show Option.Rel _ _ ((readMem bigEndian m.mainMemory m.mmu addr size).bind _)
  cases readMem bigEndian m.mainMemory m.mmu addr size with
  | none => exact .none
  | some found =>
    obtain ⟨mmu, result⟩ := found
    cases result with
    | error which => exact .some (.trap (hm.translated mmu))
    | ok value => exact hk mmu value

theorem storing_lands (hm : m.Pending r v) (addr : BitVec 32) (size : Int) (value : BitVec 32) :
    Option.Rel (Outcome.Lands r v) (m.storing bigEndian addr size value pcAfter)
      ((m.land r v).storing bigEndian addr size value pcAfter) := by
  rw [storing, storing]
  show Option.Rel _ _ ((writeMem bigEndian m.mainMemory m.mmu addr size value).bind _)
  cases writeMem bigEndian m.mainMemory m.mmu addr size value with
  | none => exact .none
  | some found =>
    obtain ⟨mmu, result⟩ := found
    cases result with
    | error which => exact .some (.trap (hm.translated mmu))
    | ok memory => exact next_lands ⟨hm.reg, hm.value⟩

theorem load_lands (hm : m.Pending r v) (hrs : r ≠ 0 → i.rs ≠ r) (size : Int) (mask : BitVec 32)
    (f : BitVec 32 → BitVec 32) :
    Option.Rel (Outcome.Lands r v) (m.load bigEndian i pcAfter size mask f)
      ((m.land r v).load bigEndian i pcAfter size mask f) := by
  simp only [load, get_land hrs]
  split
  · exact .some (.trap hm)
  · apply loading_lands hm
    intro mmu value
    exact .some (.done (hm.translated mmu) fun _ => rfl)

/-- **`LWL` and `LWR`** take the pending value from `LoadValueReg`, or from the register once it is written there. -/
theorem loadMerged_lands (hm : m.Pending r v) (hrs : r ≠ 0 → i.rs ≠ r)
    (merge : BitVec 32 → BitVec 32 → BitVec 32 → BitVec 32) :
    Option.Rel (Outcome.Lands r v) (m.loadMerged bigEndian i pcAfter merge)
      ((m.land r v).loadMerged bigEndian i pcAfter merge) := by
  simp only [loadMerged, get_land hrs]
  split
  swap
  · exact .none
  apply loading_lands hm
  intro mmu value
  refine .some (.done (hm.translated mmu) fun hrt => ?_)
  have hrt0 : (0 : BitVec 32) ≠ BitVec.ofNat 32 i.rt := by
    intro h
    have hnat := congrArg BitVec.toNat h
    rw [toNat_ofFin] at hnat
    apply hrt
    exact Fin.ext hnat.symm
  rw [land_loadReg, if_neg hrt0]
  by_cases hsame : i.rt = r
  · -- merging into the pending register
    have hreg : ({ m with mmu := mmu } : Machine).registers loadReg = BitVec.ofNat 32 i.rt := by
      rw [hsame]
      exact hm.reg
    rw [if_pos hreg, show ({ m with mmu := mmu } : Machine).registers loadValueReg = v from hm.value]
    have hwritten : ({ m with mmu := mmu }.land r v).get i.rt = v := by
      rw [hsame]
      exact get_land_self (hsame ▸ hrt)
    rw [hwritten]
  · have hreg : ({ m with mmu := mmu } : Machine).registers loadReg ≠ BitVec.ofNat 32 i.rt := by
      rw [show ({ m with mmu := mmu } : Machine).registers loadReg = BitVec.ofNat 32 r from hm.reg]
      intro h
      have hnat := congrArg BitVec.toNat h
      rw [toNat_ofFin, toNat_ofFin] at hnat
      apply hsame
      exact Fin.ext hnat.symm
    rw [if_neg hreg, get_land fun _ => hsame]

theorem store_lands (hm : m.Pending r v) (hrs : r ≠ 0 → i.rs ≠ r) (hrt : r ≠ 0 → i.rt ≠ r) (size : Int) :
    Option.Rel (Outcome.Lands r v) (m.store bigEndian i pcAfter size)
      ((m.land r v).store bigEndian i pcAfter size) := by
  rw [store, store, get_land hrs, get_land hrt]
  exact storing_lands hm _ _ _

theorem storeMerged_lands (hm : m.Pending r v) (hrs : r ≠ 0 → i.rs ≠ r) (hrt : r ≠ 0 → i.rt ≠ r)
    (merge : BitVec 32 → BitVec 32 → BitVec 32 → BitVec 32) :
    Option.Rel (Outcome.Lands r v) (m.storeMerged bigEndian i pcAfter merge)
      ((m.land r v).storeMerged bigEndian i pcAfter merge) := by
  simp only [storeMerged, get_land hrs]
  split
  · apply loading_lands hm
    intro mmu value
    rw [get_land hrt]
    exact storing_lands (hm.translated mmu) _ _ _
  · exact .none

/-- **One instruction** that leaves the pending register alone does the same when the load has been written. -/
theorem execute_lands (hm : m.Pending r v) (hfree : ∀ a ∈ i.operands, r ≠ 0 → a ≠ r) :
    Option.Rel (Outcome.Lands r v) (m.execute bigEndian i pcAfter)
      ((m.land r v).execute bigEndian i pcAfter) := by
  cases hop : i.opCode <;>
    simp only [Instruction.operands, hop, List.forall_mem_cons, List.not_mem_nil, false_imp_iff, implies_true,
      and_true] at hfree <;>
    simp only [execute, hop]
  -- the sources are read first: they are the same
  case add | sub =>
    rw [get_land hfree.1, get_land hfree.2.1]
    exact checked_lands hm hfree.2.2 _ _
  case addi =>
    rw [get_land hfree.1]
    exact checked_lands hm hfree.2 _ _
  case addu | and | nor | or | sllv | slt | sltu | srav | srlv | subu | xor =>
    exact threeRegs_lands hm hfree.1 hfree.2.1 hfree.2.2 _
  case addiu | andi | ori | slti | sltiu | xori => exact immediate_lands hm hfree.1 hfree.2 _
  case lui => exact set_lands hm (free_gpr hfree) _
  case sll | sra | srl => exact shift_lands hm hfree.1 hfree.2 _
  case beq | bne =>
    rw [get_land hfree.1, get_land hfree.2]
    exact branch_lands hm _
  case bgez | bgtz | blez | bltz =>
    rw [get_land hfree]
    exact branch_lands hm _
  case bgezal | bltzal =>
    have hra31 : Free r retAddrReg := free_gpr hfree.2
    rw [link_land hra31, get_land hfree.1]
    exact branch_lands (hm.link hra31) _
  case div =>
    rw [get_land hfree.1, get_land hfree.2]
    exact divide_lands hm _ _
  case divu =>
    rw [get_land hfree.1, get_land hfree.2]
    split
    · exact hiLo_lands hm _ _
    · exact hiLo_lands hm _ _
  case mult | multu =>
    rw [get_land hfree.1, get_land hfree.2]
    exact hiLo_lands hm _ _
  case j => exact next_lands hm
  case jal =>
    have hra31 : Free r retAddrReg := free_gpr hfree
    rw [link_land hra31]
    exact next_lands (hm.link hra31)
  case jalr =>
    rw [link_land (free_gpr hfree.2), get_land hfree.1]
    exact next_lands (hm.link (free_gpr hfree.2))
  case jr =>
    rw [get_land hfree]
    exact next_lands hm
  case lb | lbu | lh | lhu | lw => exact load_lands hm hfree.1 _ _ _
  case lwl | lwr => exact loadMerged_lands hm hfree _
  case mfhi =>
    rw [registers_land free_hi]
    exact set_lands hm (free_gpr hfree) _
  case mflo =>
    rw [registers_land free_lo]
    exact set_lands hm (free_gpr hfree) _
  case mthi =>
    rw [get_land hfree]
    exact set_lands hm free_hi _
  case mtlo =>
    rw [get_land hfree]
    exact set_lands hm free_lo _
  case sb | sh | sw => exact store_lands hm hfree.1 hfree.2 _
  case swl | swr => exact storeMerged_lands hm hfree.1 hfree.2 _
  case syscall | res | unimp => exact .some (.trap hm)

end Families

/-! ## What follows the `switch` -/

/-- Two machines that differ at most in the value of a load to `r0`. -/
structure Alike (x y : Machine) : Prop where
  mainMemory : x.mainMemory = y.mainMemory
  mmu : x.mmu = y.mmu
  registers : ∀ d, d ≠ loadValueReg → x.registers d = y.registers d
  value : x.registers loadReg ≠ 0 → x.registers loadValueReg = y.registers loadValueReg

theorem Alike.refl (x : Machine) : x.Alike x := ⟨rfl, rfl, fun _ _ => rfl, fun _ => rfl⟩

theorem Alike.symm {x y : Machine} (h : x.Alike y) : y.Alike x where
  mainMemory := h.mainMemory.symm
  mmu := h.mmu.symm
  registers d hd := (h.registers d hd).symm
  value hreg := (h.value fun hx => hreg ((h.registers loadReg (by decide)).symm.trans hx)).symm

theorem Alike.trans {x y z : Machine} (hxy : x.Alike y) (hyz : y.Alike z) : x.Alike z where
  mainMemory := hxy.mainMemory.trans hyz.mainMemory
  mmu := hxy.mmu.trans hyz.mmu
  registers d hd := (hxy.registers d hd).trans (hyz.registers d hd)
  value hreg := by
    have hy : y.registers loadReg ≠ 0 := by
      rw [← hxy.registers loadReg (by decide)]
      exact hreg
    exact (hxy.value hreg).trans (hyz.value hy)

/-- The kernels are in the same state, and the machines are alike. -/
structure Same {σ : Type} (x y : σ × Machine) : Prop where
  kernel : x.1 = y.1
  machine : x.2.Alike y.2

section Step

variable {σ : Type} {bigEndian : Bool} {exceptionHandler : Handler σ} {kernel : σ}
variable {r : Fin 32} {v : BitVec 32} {m : Machine}

/-- The registers at the end of `OneInstruction`. -/
theorem advance_land (hm : m.Pending r v) (pcAfter value : BitVec 32) (nextLoadReg : Fin 32) :
    advance ⟨m.land r v, pcAfter, nextLoadReg, value⟩ = advance ⟨m, pcAfter, nextLoadReg, value⟩ := by
  simp only [advance, delayedLoad_land hm]
  rfl

theorem delayedLoad_spec {registers registers' : Registers} {a b : BitVec 32}
    (h : registers.delayedLoad a b = some registers') : registers' loadReg = a ∧ registers' (gpr 0) = 0 := by
  have hreg : loadReg ≠ gpr 0 := by decide
  have hvalue : loadReg ≠ loadValueReg := by decide
  rw [Registers.delayedLoad] at h
  split at h
  · cases h
    rw [Registers.write_of_ne _ hreg, Registers.write_of_ne _ hvalue, Registers.write_same, Registers.write_same]
    exact ⟨rfl, rfl⟩
  · cases h

/-- The load that is pending after an instruction; `r0` is 0. -/
theorem advance_spec {e : Effect} {m' : Machine} (h : advance e = some m') :
    m'.registers loadReg = BitVec.ofNat 32 e.nextLoadReg ∧ m'.registers (gpr 0) = 0 := by
  obtain ⟨registers, hload, rfl⟩ := Option.map_eq_some_iff.mp h
  obtain ⟨hreg, hzero⟩ := delayedLoad_spec hload
  simp only [Registers.write, Function.update_apply]
  rw [if_neg (show loadReg ≠ nextPCReg by decide), if_neg (show loadReg ≠ pcReg by decide),
    if_neg (show loadReg ≠ prevPCReg by decide), if_neg (show gpr 0 ≠ nextPCReg by decide),
    if_neg (show gpr 0 ≠ pcReg by decide), if_neg (show gpr 0 ≠ prevPCReg by decide)]
  exact ⟨hreg, hzero⟩

/-- A load to `r0` leaves no trace but `LoadValueReg`. -/
theorem advance_zero (hm : m.Pending r v) (pcAfter value value' : BitVec 32) :
    Option.Rel Alike (advance ⟨m, pcAfter, 0, value⟩) (advance ⟨m, pcAfter, 0, value'⟩) := by
  cases hx : advance ⟨m, pcAfter, 0, value⟩ with
  | none => simp [advance, delayedLoad_of_reg hm.toNat] at hx
  | some x =>
    have hreg : x.registers loadReg = 0 := (advance_spec hx).1
    simp only [advance, delayedLoad_of_reg hm.toNat, Option.map_some, Option.some.injEq] at hx ⊢
    refine .some ⟨?_, ?_, fun d hd => ?_, fun h => absurd hreg h⟩
    · rw [← hx]
    · rw [← hx]
    · have hpc : pcReg ≠ loadValueReg := by decide
      have hnext : nextPCReg ≠ loadValueReg := by decide
      rw [← hx]
      simp [Registers.write, Function.update_apply, hd, hpc, hnext]

theorem raiseException_land (hm : m.Pending r v) (which : Trap) (badVAddr : BitVec 32) :
    (m.land r v).raiseException exceptionHandler kernel which badVAddr =
      m.raiseException exceptionHandler kernel which badVAddr := by
  have hfree : Free r badVAddrReg := free_special (by decide) (by decide) (by decide)
  have hsame : ((m.set badVAddrReg badVAddr).land r v).delayedLoad = (m.set badVAddrReg badVAddr).delayedLoad := by
    rw [delayedLoad, delayedLoad, delayedLoad_land (hm.set hfree badVAddr)]
    rfl
  rw [raiseException, raiseException, set_land hfree, hsame]

theorem Same.refl_of_eq {x y : Option (σ × Machine)} (h : x = y) : Option.Rel Same x y := by
  subst h
  cases x with
  | none => exact .none
  | some x => exact .some ⟨rfl, .refl x.2⟩

theorem conclude_lands {o o' : Outcome} (h : o.Lands r v o') :
    Option.Rel Same (conclude exceptionHandler kernel o) (conclude exceptionHandler kernel o') := by
  cases h with
  | trap hm => exact Same.refl_of_eq (raiseException_land hm _ _).symm
  | @done m pcAfter nextLoadReg value value' hm hvalue =>
    rw [conclude, conclude, advance_land hm]
    by_cases hreg : nextLoadReg = 0
    · subst hreg
      exact Partial.rel_map (advance_zero hm pcAfter value value') fun _ _ h => ⟨rfl, h⟩
    · rw [hvalue hreg]
      exact Same.refl_of_eq rfl

/-- **One instruction** of a program without hazards does the same after `DelayedLoad(0, 0)`. -/
theorem oneInstruction_lands (hm : m.Pending r v) (hfree : m.HazardFree bigEndian) :
    Option.Rel Same (m.oneInstruction bigEndian exceptionHandler kernel)
      ((m.land r v).oneInstruction bigEndian exceptionHandler kernel) := by
  have hpc : (m.land r v).registers pcReg = m.registers pcReg :=
    registers_land (free_special (by decide) (by decide) (by decide))
  rw [oneInstruction, oneInstruction, hpc]
  show Option.Rel _ _ ((readMem bigEndian m.mainMemory m.mmu (m.registers pcReg) 4).bind _)
  cases hread : readMem bigEndian m.mainMemory m.mmu (m.registers pcReg) 4 with
  | none => exact .none
  | some found =>
    obtain ⟨mmu, result⟩ := found
    cases result with
    | error which => exact Same.refl_of_eq (raiseException_land (hm.translated mmu) _ _).symm
    | ok raw =>
      have hoperands : ∀ a ∈ (Instruction.decode raw).operands, r ≠ 0 → a ≠ r := by
        intro a ha hr har
        subst har
        exact hfree (Instruction.decode raw) (by simp [fetch, hread, Except.toOption]) a ha hr hm.reg
      simp only [Option.bind_some]
      refine Partial.rel_bind (R := Outcome.Lands r v) ?_ fun _ _ h => conclude_lands h
      rw [registers_land free_nextPC]
      exact execute_lands (hm.translated mmu) hoperands

end Step

/-! ## Runs -/

section Sound

variable {σ : Type} {bigEndian : Bool} {exceptionHandler : Handler σ} {kernel : σ} {m : Machine} {s : σ × Machine}

theorem LoadSound.pending (hm : m.LoadSound) :
    m.Pending ⟨(m.registers loadReg).toNat, hm.reg⟩ (m.registers loadValueReg) where
  reg := (BitVec.ofNat_toNat 32 (m.registers loadReg)).symm ▸ (BitVec.setWidth_eq _).symm
  value := rfl

theorem raiseException_sound (hkernel : exceptionHandler.KeepsLoad) {which : Trap} {badVAddr : BitVec 32}
    (h : m.raiseException exceptionHandler kernel which badVAddr = some s) : s.2.LoadSound := by
  obtain ⟨m', hload, hcall⟩ := Option.bind_eq_some_iff.mp h
  obtain ⟨registers, hregs, rfl⟩ := Option.map_eq_some_iff.mp hload
  obtain ⟨hreg, hzero⟩ := delayedLoad_spec hregs
  have hreg32 : (registers loadReg).toNat < 32 := by
    rw [hreg]
    decide
  exact hkernel _ _ _ _ _ hcall ⟨hzero, hreg32⟩

theorem conclude_sound (hkernel : exceptionHandler.KeepsLoad) {o : Outcome}
    (h : conclude exceptionHandler kernel o = some s) : s.2.LoadSound := by
  cases o with
  | trap m which badVAddr => exact raiseException_sound hkernel h
  | done e =>
    obtain ⟨m', hadv, rfl⟩ := Option.map_eq_some_iff.mp h
    obtain ⟨hreg, hzero⟩ := advance_spec hadv
    refine ⟨hzero, ?_⟩
    rw [hreg, toNat_ofFin]
    exact e.nextLoadReg.isLt

/-- **After an instruction** the processor's own registers are in order. -/
theorem oneInstruction_sound (hkernel : exceptionHandler.KeepsLoad)
    (h : m.oneInstruction bigEndian exceptionHandler kernel = some s) : s.2.LoadSound := by
  obtain ⟨⟨mmu, result⟩, hread, hrest⟩ := Option.bind_eq_some_iff.mp h
  cases result with
  | error which => exact raiseException_sound hkernel hrest
  | ok raw =>
    obtain ⟨o, hexec, hconclude⟩ := Option.bind_eq_some_iff.mp hrest
    exact conclude_sound hkernel hconclude

end Sound

/-- Machines that are alike are the same once the pending load is written. -/
theorem Alike.land_eq {x y : Machine} (h : x.Alike y) {r : Fin 32} {v w : BitVec 32} (hx : x.Pending r v)
    (hy : y.Pending r w) : x.land r v = y.land r w := by
  have hvw : r ≠ 0 → v = w := by
    intro hr
    rw [← hx.value, ← hy.value]
    apply h.value
    intro hzero
    apply hr
    apply Fin.ext
    have hnat := hx.toNat
    rw [hzero] at hnat
    exact hnat.symm
  simp only [land, h.mainMemory, h.mmu, Machine.mk.injEq, and_true]
  funext d
  by_cases hd : d = loadReg ∨ d = loadValueReg
  · simp only [Registers.land, if_pos hd]
  · simp only [Registers.land, if_neg hd]
    split
    · rename_i hr
      exact hvw hr.1
    · exact h.registers d fun hv => hd (Or.inr hv)

/-- Alike machines have the same pending register. -/
theorem Alike.pending {x y : Machine} (h : x.Alike y) {r : Fin 32} {v : BitVec 32} (hx : x.Pending r v) :
    y.Pending r (y.registers loadValueReg) where
  reg := (h.registers loadReg (by decide)).symm.trans hx.reg
  value := rfl

theorem Alike.hazardFree {x y : Machine} {bigEndian : Bool} (h : x.Alike y) (hy : y.HazardFree bigEndian) :
    x.HazardFree bigEndian := by
  have hfetch : x.fetch bigEndian = y.fetch bigEndian := by
    rw [fetch, fetch, h.mainMemory, h.mmu, h.registers pcReg (by decide)]
  intro i hi r hr hne
  rw [hfetch] at hi
  rw [h.registers loadReg (by decide)]
  exact hy i hi r hr hne

theorem Alike.delayedLoad_eq {x y : Machine} (h : x.Alike y) (hx : x.LoadSound) : x.delayedLoad = y.delayedLoad := by
  have hzero : y.registers (gpr 0) = 0 := (h.registers (gpr 0) (by decide)).symm.trans hx.zero
  have hpending := h.pending hx.pending
  rw [delayedLoad_eq_land hx.pending hx.zero, delayedLoad_eq_land hpending hzero, h.land_eq hx.pending hpending]

section Run

variable {σ : Type} {bigEndian : Bool} {exceptionHandler : Handler σ}

theorem Same.symm {x y : σ × Machine} (h : Same x y) : Same y x := ⟨h.kernel.symm, h.machine.symm⟩

theorem Same.trans {x y z : σ × Machine} (hxy : Same x y) (hyz : Same y z) : Same x z :=
  ⟨hxy.kernel.trans hyz.kernel, hxy.machine.trans hyz.machine⟩

/-- **One round** with or without an interrupt, against the same round without. -/
theorem round_same {x y : σ × Machine} (h : Same x y) (hx : x.2.LoadSound) (hy : y.2.HazardFree bigEndian)
    (interrupts : Nat → Bool) (k : Nat) :
    Option.Rel Same (round bigEndian exceptionHandler interrupts k x)
      (round bigEndian exceptionHandler (fun _ => false) k y) := by
  obtain ⟨kernel, x⟩ := x
  obtain ⟨kernel', y⟩ := y
  obtain rfl : kernel = kernel' := h.kernel
  obtain ⟨r, v, hpending⟩ : ∃ r v, x.Pending r v := ⟨_, _, hx.pending⟩
  -- what the instruction does on `y` is what it does once the load is written
  have hfrom : Option.Rel Same (y.oneInstruction bigEndian exceptionHandler kernel)
      ((x.land r v).oneInstruction bigEndian exceptionHandler kernel) := by
    rw [h.machine.land_eq hpending (h.machine.pending hpending)]
    exact oneInstruction_lands (h.machine.pending hpending) hy
  have hback := Partial.rel_symm hfrom fun _ _ hs => hs.symm
  cases hint : interrupts k with
  | true =>
    simp only [round, hint, if_true, delayedLoad_eq_land hpending hx.zero, Option.bind_some]
    exact hback
  | false =>
    simp only [round, hint, Bool.false_eq_true, if_false, Option.bind_some]
    exact Partial.rel_trans (oneInstruction_lands hpending (h.machine.hazardFree hy)) hback
      fun _ _ _ hxy hyz => hxy.trans hyz

theorem round_sound (hkernel : exceptionHandler.KeepsLoad) {interrupts : Nat → Bool} {k : Nat} {x s : σ × Machine}
    (h : round bigEndian exceptionHandler interrupts k x = some s) : s.2.LoadSound := by
  obtain ⟨m, hm, hstep⟩ := Option.bind_eq_some_iff.mp h
  exact oneInstruction_sound hkernel hstep

/-- **In every state of a run** the processor's own registers are in order. -/
theorem run_sound (hkernel : exceptionHandler.KeepsLoad) {interrupts : Nat → Bool} {s : σ × Machine}
    (hs : s.2.LoadSound) {n : Nat} {x : σ × Machine}
    (h : Partial.run (round bigEndian exceptionHandler interrupts) n s = some x) : x.2.LoadSound := by
  cases n with
  | zero =>
    cases h
    exact hs
  | succ n =>
    obtain ⟨y, hy, hround⟩ := Option.bind_eq_some_iff.mp h
    exact round_sound hkernel hround

/-- A run with interrupts, against the run without. -/
theorem after_eq (hkernel : exceptionHandler.KeepsLoad) {s : σ × Machine} (hs : s.2.LoadSound) {n : Nat}
    (hfree : ∀ k < n, ∀ t ∈ Partial.run (round bigEndian exceptionHandler fun _ => false) k s,
      t.2.HazardFree bigEndian) (interrupts : Nat → Bool) :
    after bigEndian exceptionHandler interrupts n s = after bigEndian exceptionHandler (fun _ => false) n s := by
  have hsame : Option.Rel Same (Partial.run (round bigEndian exceptionHandler interrupts) n s)
      (Partial.run (round bigEndian exceptionHandler fun _ => false) n s) := by
    apply Partial.rel_run ⟨rfl, .refl s.2⟩
    intro k hk x y hx hy hxy
    exact round_same hxy (run_sound hkernel hs hx) (hfree k hk y hy) interrupts k
  apply Partial.bind_eq_of_rel hsame
  intro x y hx hxy
  rw [hxy.machine.delayedLoad_eq (run_sound hkernel hs hx), hxy.kernel]

end Run

end Machine

/-- **INTERRUPTS DO NOT SHOW**: of a program in which the instruction after a load leaves the loaded register alone —
    in the run without interrupts — the state after `n` instructions does not depend on where there were
    interrupts. -/
theorem interrupt_transparency {σ : Type} (bigEndian : Bool) (exceptionHandler : Machine.Handler σ)
    (hkernel : exceptionHandler.KeepsLoad) (s : σ × Machine) (hs : s.2.LoadSound) (n : Nat)
    (hfree : ∀ k < n, ∀ t ∈ Partial.run (Machine.round bigEndian exceptionHandler fun _ => false) k s,
      t.2.HazardFree bigEndian) (interrupts interrupts' : Nat → Bool) :
    Machine.after bigEndian exceptionHandler interrupts n s =
      Machine.after bigEndian exceptionHandler interrupts' n s := by
  rw [Machine.after_eq hkernel hs hfree interrupts, Machine.after_eq hkernel hs hfree interrupts']

/-- `lw $1, 12($0)`; `addiu $2, $0, 7`; `addu $3, $1, $2`; and the word 5.  Memory is little endian. -/
def loadAndAdd : Bytes := fun address =>
  [0x0c, 0x00, 0x01, 0x8c, 0x07, 0x00, 0x02, 0x24, 0x21, 0x18, 0x22, 0x00, 0x05, 0x00, 0x00, 0x00].getD address 0

/-- The program at its start, in one page. -/
def loadAndAddInit : Unit × Machine :=
  ((), { registers := Registers.init 1
         mainMemory := loadAndAdd
         mmu :=
          { tlb := none
            pageTable := some [⟨0, 0, true, false, false, false⟩]
            pageTableSize := 1 } })

/-- A kernel that stops the machine at every exception. -/
def halting : Machine.Handler Unit := fun _ _ _ => none

/-- An interrupt right after the load, and none: `$3` is 12 both times. -/
theorem interrupt_transparency_load :
    Machine.after false halting (fun k => k == 1) 3 loadAndAddInit =
        Machine.after false halting (fun _ => false) 3 loadAndAddInit ∧
      (Machine.after false halting (fun k => k == 1) 3 loadAndAddInit).map (fun s => s.2.registers (gpr 3)) =
        some 12 := by
  have hkernel : halting.KeepsLoad := by
    intro which kernel m kernel' m' h
    cases h
  have hs : loadAndAddInit.2.LoadSound := ⟨by decide, by decide⟩
  exact ⟨interrupt_transparency false halting hkernel loadAndAddInit hs 3 (by decide +kernel) _ _, by decide +kernel⟩

end Nachos
