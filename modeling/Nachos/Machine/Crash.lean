/-
  `machine/mipssim.cc` — WHEN A USER PROGRAM STOPS THE SIMULATOR.

  Whatever is in the registers and in memory, `OneInstruction` should complete the instruction or raise an exception.
  It stops the simulator itself in these cases, and in no others (`oneInstruction_isSome_iff`):

  * `DIV` of the least `int` by -1: the quotient is not an `int`, and the host's division traps;
  * `LWL`, `LWR`, `SWL` and `SWR` at an address that is not a multiple of 4, which is what they are for: each starts with
    `ASSERT((tmp & 0x3) == 0)`;
  * `LoadReg` does not name a register, which `DelayedLoad` takes as an index.

  1. **The `switch`** (`execute_ends`, by the families of `execute`) — it comes to an end, and leaves `LoadReg` alone.

  2. **The rest** (`conclude_isSome`) — the delayed load needs `LoadReg` to be in range, with and without an exception.

  The accesses to memory themselves do not fail (`Mmu.OneTable.readMem`, `Mmu.OneTable.writeMem`).
-/
import Nachos.Machine.Alu

namespace Nachos

/-- The machine when the `switch` ends. -/
def Outcome.machine : Outcome → Machine
  | .done e => e.machine
  | .trap m _ _ => m

/-- The operations on parts of a word, with an `ASSERT`. -/
def Op.partOfWord : Op → Bool
  | .lwl | .lwr | .swl | .swr => true
  | _ => false

namespace Machine

/-- **The instruction does not stop the simulator**: a quotient is an `int`, and a part of a word is in fact a word. -/
def Harmless (m : Machine) (i : Instruction) : Prop :=
  (i.opCode = .div → ¬ (m.get i.rs = 0x80000000 ∧ m.get i.rt = 0xffffffff)) ∧
    (i.opCode.partOfWord = true → (m.get i.rs + i.extra) &&& 3 = 0)

instance decidableHarmless (m : Machine) (i : Instruction) : Decidable (m.Harmless i) :=
  inferInstanceAs (Decidable (_ ∧ _))

/-- The kernel returns from every exception. -/
def Handler.Total {σ : Type} (exceptionHandler : Handler σ) : Prop :=
  ∀ which kernel m, (exceptionHandler which kernel m).isSome = true

/-! ## The `switch` -/

/-- The `switch` ends, and `LoadReg` is what it was. -/
def Ends (reg : BitVec 32) (o : Option Outcome) : Prop := ∃ out, o = some out ∧ out.machine.registers loadReg = reg

section Families

variable {m : Machine} {bigEndian : Bool} {i : Instruction} {pcAfter reg : BitVec 32}

theorem next_ends (h : m.registers loadReg = reg) : Ends reg (m.next pcAfter) := ⟨_, rfl, h⟩

theorem trap_ends (h : m.registers loadReg = reg) (which : Trap) (badVAddr : BitVec 32) :
    Ends reg (some (.trap m which badVAddr)) := ⟨_, rfl, h⟩

theorem loadReg_set (h : m.registers loadReg = reg) {d : Reg} (hd : d.val < 34) (value : BitVec 32) :
    (m.set d value).registers loadReg = reg := (set_of_ne (ne_of_low hd (by decide)).symm value).trans h

theorem set_ends (h : m.registers loadReg = reg) {d : Reg} (hd : d.val < 34) (value : BitVec 32) :
    Ends reg ((m.set d value).next pcAfter) := next_ends (loadReg_set h hd value)

theorem checked_ends (h : m.registers loadReg = reg) (dst : Fin 32) (result : BitVec 32) (overflow : Bool) :
    Ends reg (m.checked pcAfter dst result overflow) := by
  rw [checked]
  split
  · exact trap_ends h _ _
  · exact set_ends h (gpr_low dst) _

theorem hiLo_ends (h : m.registers loadReg = reg) (hi lo : BitVec 32) : Ends reg (m.hiLo pcAfter hi lo) :=
  set_ends (loadReg_set h (by decide) lo) (by decide) hi

/-- **Division** stops the simulator in one case. -/
theorem divide_ends (h : m.registers loadReg = reg) {a b : BitVec 32} (hab : ¬ (a = 0x80000000 ∧ b = 0xffffffff)) :
    Ends reg (m.divide pcAfter a b) := by
  rw [divide, if_neg hab]
  split
  · exact hiLo_ends h _ _
  · exact hiLo_ends h _ _

theorem loading_ends (hmmu : m.mmu.OneTable) (h : m.registers loadReg = reg) (addr : BitVec 32) {size : Int}
    (hsize : size = 1 ∨ size = 2 ∨ size = 4) {k : Machine → BitVec 32 → Option Outcome}
    (hk : ∀ mmu value, mmu.OneTable → Ends reg (k { m with mmu := mmu } value)) :
    Ends reg (m.loading bigEndian addr size k) := by
  obtain ⟨mmu, r, hread, hmmu'⟩ := hmmu.readMem hsize bigEndian m.mainMemory addr
  rw [loading, hread]
  cases r with
  | error which => exact ⟨_, rfl, h⟩
  | ok value => exact hk mmu value hmmu'

theorem storing_ends (hmmu : m.mmu.OneTable) (h : m.registers loadReg = reg) (addr : BitVec 32) {size : Int}
    (hsize : size = 1 ∨ size = 2 ∨ size = 4) (value : BitVec 32) :
    Ends reg (m.storing bigEndian addr size value pcAfter) := by
  obtain ⟨mmu, r, hwrite, -⟩ := hmmu.writeMem hsize bigEndian m.mainMemory addr value
  rw [storing, hwrite]
  cases r with
  | error which => exact ⟨_, rfl, h⟩
  | ok memory => exact ⟨_, rfl, h⟩

theorem load_ends (hmmu : m.mmu.OneTable) (h : m.registers loadReg = reg) {size : Int}
    (hsize : size = 1 ∨ size = 2 ∨ size = 4) (mask : BitVec 32) (f : BitVec 32 → BitVec 32) :
    Ends reg (m.load bigEndian i pcAfter size mask f) := by
  simp only [load]
  split
  · exact trap_ends h _ _
  · apply loading_ends hmmu h _ hsize
    intro mmu value _
    exact ⟨_, rfl, h⟩

/-- **`LWL` and `LWR`** end where the address is that of a word. -/
theorem loadMerged_ends (hmmu : m.mmu.OneTable) (h : m.registers loadReg = reg)
    (haligned : (m.get i.rs + i.extra) &&& 3 = 0) (merge : BitVec 32 → BitVec 32 → BitVec 32 → BitVec 32) :
    Ends reg (m.loadMerged bigEndian i pcAfter merge) := by
  simp only [loadMerged, if_pos haligned]
  apply loading_ends hmmu h _ (by decide)
  intro mmu value _
  exact ⟨_, rfl, h⟩

/-- **`SWL` and `SWR`** read the word before they write it. -/
theorem storeMerged_ends (hmmu : m.mmu.OneTable) (h : m.registers loadReg = reg)
    (haligned : (m.get i.rs + i.extra) &&& 3 = 0) (merge : BitVec 32 → BitVec 32 → BitVec 32 → BitVec 32) :
    Ends reg (m.storeMerged bigEndian i pcAfter merge) := by
  simp only [storeMerged, if_pos haligned]
  apply loading_ends hmmu h _ (by decide)
  intro mmu value hmmu'
  exact storing_ends (m := { m with mmu := mmu }) hmmu' h _ (by decide) _

/-- **The `switch` comes to an end**, of a harmless instruction. -/
theorem execute_ends (hmmu : m.mmu.OneTable) (hi : m.Harmless i) (bigEndian : Bool) (pcAfter : BitVec 32) :
    Ends (m.registers loadReg) (m.execute bigEndian i pcAfter) := by
  obtain ⟨hdiv, hpart⟩ := hi
  have hlink : ∀ r : Reg, r.val < 34 → (m.link r).registers loadReg = m.registers loadReg :=
    fun r hr => loadReg_set rfl hr _
  cases hop : i.opCode <;> rw [hop] at hdiv hpart <;> simp only [execute, hop]
  case add | addi | sub => exact checked_ends rfl _ _ _
  case addu | and | nor | or | sllv | slt | sltu | srav | srlv | subu | xor | sll | sra | srl | mfhi | mflo =>
    exact set_ends rfl (gpr_low i.rd) _
  case addiu | andi | lui | ori | slti | sltiu | xori => exact set_ends rfl (gpr_low i.rt) _
  case beq | bgez | bgtz | blez | bltz | bne | j | jr => exact next_ends rfl
  case bgezal | bltzal | jal => exact next_ends (hlink retAddrReg (by decide))
  case jalr => exact next_ends (hlink (gpr i.rd) (gpr_low i.rd))
  case div => exact divide_ends rfl (hdiv rfl)
  case divu =>
    split
    · exact hiLo_ends rfl _ _
    · exact hiLo_ends rfl _ _
  case mult | multu => exact hiLo_ends rfl _ _
  case mthi | mtlo => exact set_ends rfl (by decide) _
  case lb | lbu | lh | lhu | lw => exact load_ends hmmu rfl (by decide) _ _
  case lwl | lwr => exact loadMerged_ends hmmu rfl (hpart rfl) _
  case sb | sh | sw => exact storing_ends hmmu rfl _ (by decide) _
  case swl | swr => exact storeMerged_ends hmmu rfl (hpart rfl) _
  case syscall | res | unimp => exact trap_ends rfl _ _

/-- An instruction that is not harmless stops the simulator. -/
theorem execute_eq_none (hi : ¬ m.Harmless i) : m.execute bigEndian i pcAfter = none := by
  by_cases hdiv : i.opCode = .div → ¬ (m.get i.rs = 0x80000000 ∧ m.get i.rt = 0xffffffff)
  · -- a part of a word
    have hpart : ¬ (i.opCode.partOfWord = true → (m.get i.rs + i.extra) &&& 3 = 0) := fun h => hi ⟨hdiv, h⟩
    obtain ⟨hop, haddr⟩ := Classical.not_imp.mp hpart
    cases hcode : i.opCode <;> rw [hcode] at hop
    case lwl | lwr => simp only [execute, hcode, loadMerged, if_neg haddr]
    case swl | swr => simp only [execute, hcode, storeMerged, if_neg haddr]
    all_goals cases hop
  · obtain ⟨hop, hquot⟩ := Classical.not_imp.mp hdiv
    have hboth := Classical.not_not.mp hquot
    have hzero : ¬ m.get i.rt = 0 := by
      rw [hboth.2]
      decide
    simp only [execute, hop, divide, if_neg hzero, if_pos hboth]

end Families

/-! ## The rest -/

section Rest

variable {σ : Type} {m : Machine} {exceptionHandler : Handler σ} {kernel : σ}

theorem delayedLoad_isSome (registers : Registers) (a b : BitVec 32) :
    (registers.delayedLoad a b).isSome = true ↔ (registers loadReg).toNat < numTotalRegs := by
  rw [Registers.delayedLoad]
  split
  · rename_i hlt
    exact ⟨fun _ => hlt, fun _ => rfl⟩
  · rename_i hge
    exact ⟨fun h => absurd h Bool.false_ne_true, fun h => absurd h hge⟩

theorem raiseException_isSome (htotal : exceptionHandler.Total) (which : Trap) (badVAddr : BitVec 32) :
    (m.raiseException exceptionHandler kernel which badVAddr).isSome = true ↔
      (m.registers loadReg).toNat < numTotalRegs := by
  have hreg : (m.set badVAddrReg badVAddr).registers loadReg = m.registers loadReg := set_of_ne (by decide) badVAddr
  rw [← hreg, ← delayedLoad_isSome _ 0 0, raiseException, delayedLoad]
  cases (m.set badVAddrReg badVAddr).registers.delayedLoad 0 0 with
  | none => exact Iff.rfl
  | some registers => exact ⟨fun _ => rfl, fun _ => htotal _ _ _⟩

/-- **After the `switch`**, all that can go wrong is the delayed load. -/
theorem conclude_isSome (htotal : exceptionHandler.Total) (o : Outcome) :
    (conclude exceptionHandler kernel o).isSome = true ↔ (o.machine.registers loadReg).toNat < numTotalRegs := by
  cases o with
  | trap m which badVAddr => exact raiseException_isSome htotal which badVAddr
  | done e =>
    rw [conclude, advance, Option.isSome_map, Option.isSome_map]
    exact delayedLoad_isSome _ _ _

/-- **An instruction that is fetched** is executed to its end exactly if it is harmless, and `LoadReg` in range. -/
theorem oneInstruction_isSome_of_fetch (htotal : exceptionHandler.Total) {bigEndian : Bool} {mmu : Mmu} {raw : BitVec 32}
    (hmmu : mmu.OneTable)
    (hfetch : readMem bigEndian m.mainMemory m.mmu (m.registers pcReg) 4 = some (mmu, .ok raw)) :
    (m.oneInstruction bigEndian exceptionHandler kernel).isSome = true ↔
      (m.registers loadReg).toNat < numTotalRegs ∧ m.Harmless (Instruction.decode raw) := by
  rw [oneInstruction_of_fetch hfetch]
  by_cases hi : m.Harmless (Instruction.decode raw)
  · obtain ⟨o, hexec, hreg⟩ := execute_ends (m := { m with mmu := mmu }) hmmu hi bigEndian
      (m.registers nextPCReg + 4)
    rw [hexec, Option.bind_some, conclude_isSome htotal, hreg]
    exact ⟨fun hlt => ⟨hlt, hi⟩, fun h => h.1⟩
  · have hnone : ({ m with mmu := mmu } : Machine).execute bigEndian (Instruction.decode raw)
        (m.registers nextPCReg + 4) = none := execute_eq_none hi
    rw [hnone]
    constructor
    · intro h
      cases h
    · intro h
      exact absurd h.2 hi

end Rest

end Machine

/-- **WHEN A USER PROGRAM STOPS THE SIMULATOR**: `OneInstruction` ends exactly if `LoadReg` names a register and the
    instruction, if one can be fetched, is harmless. -/
theorem oneInstruction_isSome_iff {σ : Type} (m : Machine) (hmmu : m.mmu.OneTable) (bigEndian : Bool)
    (exceptionHandler : Machine.Handler σ) (htotal : exceptionHandler.Total) (kernel : σ) :
    (m.oneInstruction bigEndian exceptionHandler kernel).isSome = true ↔
      (m.registers loadReg).toNat < numTotalRegs ∧
        ∀ mmu raw, readMem bigEndian m.mainMemory m.mmu (m.registers pcReg) 4 = some (mmu, .ok raw) →
          m.Harmless (Instruction.decode raw) := by
  obtain ⟨mmu, r, hread, hmmu'⟩ := hmmu.readMem (Or.inr (Or.inr rfl)) bigEndian m.mainMemory (m.registers pcReg)
  cases r with
  | error which =>
    -- the fetch raises an exception, and no instruction is executed
    rw [Machine.oneInstruction, hread]
    refine (Machine.raiseException_isSome htotal (.memory which) (m.registers pcReg)).trans ?_
    constructor
    · intro hreg
      refine ⟨hreg, ?_⟩
      intro mmu' raw hfetch
      cases hfetch
    · intro h
      exact h.1
  | ok raw =>
    refine (Machine.oneInstruction_isSome_of_fetch htotal hmmu' hread).trans (and_congr_right fun _ => ?_)
    constructor
    · intro hi mmu' raw' hfetch
      rw [hread] at hfetch
      cases hfetch
      exact hi
    · intro h
      exact h mmu raw hread

/-- A kernel that returns from an exception at once. -/
def returnAtOnce : Machine.Handler Unit := fun _ kernel m => some (kernel, m)

theorem returnAtOnce_total : returnAtOnce.Total := fun _ _ _ => rfl

theorem oneTable_oneWord (code : List UInt8) (r1 r2 : BitVec 32) : (oneWord code r1 r2).mmu.OneTable :=
  ⟨rfl, fun _ h => Option.some.inj h ▸ Nat.le_refl 1⟩

/-- `div $1, $2` of the least `int` by 1 comes to an end. -/
theorem oneInstruction_isSome_div :
    ((oneWord [0x1a, 0x00, 0x22, 0x00] 0x80000000 1).oneInstruction false returnAtOnce ()).isSome = true := by
  rw [oneInstruction_isSome_iff _ (oneTable_oneWord _ _ _) _ _ returnAtOnce_total]
  obtain ⟨mmu, hfetch⟩ : ∃ mmu, readMem false (oneWord [0x1a, 0x00, 0x22, 0x00] 0x80000000 1).mainMemory
      (oneWord [0x1a, 0x00, 0x22, 0x00] 0x80000000 1).mmu
      ((oneWord [0x1a, 0x00, 0x22, 0x00] 0x80000000 1).registers pcReg) 4 = some (mmu, .ok 0x0022001a) :=
    fetched (by decide +kernel)
  refine ⟨by decide, ?_⟩
  intro mmu' raw hfetch'
  rw [hfetch] at hfetch'
  cases hfetch'
  decide

/-- A machine about to execute one word stops the simulator, if the word is not harmless or `LoadReg` is out of range. -/
theorem oneInstruction_stops {m : Machine} (hmmu : m.mmu.OneTable) (raw : BitVec 32)
    (hfetch : ((readMem false m.mainMemory m.mmu (m.registers pcReg) 4).bind fun r => r.2.toOption) = some raw)
    (h : ¬ ((m.registers loadReg).toNat < numTotalRegs ∧ m.Harmless (Instruction.decode raw))) :
    m.oneInstruction false returnAtOnce () = none := by
  obtain ⟨mmu, r, hread, hmmu'⟩ := hmmu.readMem (Or.inr (Or.inr rfl)) false m.mainMemory (m.registers pcReg)
  obtain ⟨_, hfetch⟩ := fetched hfetch
  rw [hread] at hfetch
  cases hfetch
  apply Option.not_isSome_iff_eq_none.mp
  intro hsome
  exact h ((Machine.oneInstruction_isSome_of_fetch returnAtOnce_total hmmu' hread).mp hsome)

/-- **`div $1, $2`** of the least `int` by -1 stops the simulator; so does **`lwl $2, 1($0)`**, and any instruction when
    `LoadReg` is 40. -/
theorem oneInstruction_crashes :
    (oneWord [0x1a, 0x00, 0x22, 0x00] 0x80000000 0xffffffff).oneInstruction false returnAtOnce () = none ∧
      (oneWord [0x01, 0x00, 0x02, 0x88] 0 0).oneInstruction false returnAtOnce () = none ∧
      ((oneWord [] 0 0).set loadReg 40).oneInstruction false returnAtOnce () = none := by
  refine ⟨?_, ?_, ?_⟩
  · exact oneInstruction_stops (oneTable_oneWord _ _ _) 0x0022001a (by decide +kernel) (by decide)
  · exact oneInstruction_stops (oneTable_oneWord _ _ _) 0x88020001 (by decide +kernel) (by decide)
  · exact oneInstruction_stops (oneTable_oneWord [] 0 0) 0x00000000 (by decide +kernel) (by decide)

end Nachos
