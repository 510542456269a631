/-
  `machine/mipssim.cc` — THE INTEGER INSTRUCTIONS, against the MIPS I definition of each.

  1. **The definition** (`Op.mips`) — the value that an integer instruction has, from the values of `rs` and `rt` and from
     the bits of the instruction word; `none` is an overflow, which only `ADD`, `ADDI` and `SUB` have.  It is written from
     the architecture: sums are sums of integers, immediates are 16 bits that are extended.

  2. **Decoding** (`decode_extra_immediate`, `decode_extra_shamt`) — `extra` is the immediate, sign extended, or the shift
     amount, because the formats in `opTable` are right.

  3. **The `switch`** (`execute_eq_finish`) — computes that value, but for `OR`, which combines `rs` with itself, and
     for `SRL` and `SRLV`, whose `tmp` is an `int`, so that the sign bit is copied (`execute_or`, `execute_srl`,
     `execute_srlv`).

  4. **The rest of `OneInstruction`** (`finish_spec`) — writes the one register.

  So the integer instructions are as defined exactly where these three make no difference
  (`executesAsDefined_iff`).
-/
import Mathlib.Data.BitVec
import Mathlib.Tactic.IntervalCases
import Nachos.Machine.Mipssim

namespace Nachos

/-! ## The definition -/

/-- The integer operations with an immediate. -/
def Op.hasImmediate : Op → Bool
  | .addi | .addiu | .andi | .lui | .ori | .slti | .sltiu | .xori => true
  | _ => false

/-- The shifts by an amount in the instruction. -/
def Op.hasShamt : Op → Bool
  | .sll | .sra | .srl => true
  | _ => false

/-- The integer operations on registers alone. -/
def Op.onRegisters : Op → Bool
  | .add | .addu | .and | .nor | .or | .sllv | .slt | .sltu | .srav | .srlv | .sub | .subu | .xor => true
  | _ => false

/-- The integer operations. -/
def Op.isInteger (op : Op) : Bool := op.hasImmediate || op.hasShamt || op.onRegisters

/-- A signed result; `none`: it does not fit in 32 bits. -/
def signedResult (x : Int) : Option (BitVec 32) := if -2 ^ 31 ≤ x ∧ x < 2 ^ 31 then some (BitVec.ofInt 32 x) else none

/-- **The MIPS I definition** of the integer operations: the value for the destination, and `none` on overflow. -/
def Op.mips (op : Op) (rs rt : BitVec 32) (imm : BitVec 16) (shamt : BitVec 5) : Option (BitVec 32) :=
  match op with
  | .add => signedResult (rs.toInt + rt.toInt)
  | .addi => signedResult (rs.toInt + imm.toInt)
  | .addiu => some (rs + imm.signExtend 32)
  | .addu => some (rs + rt)
  | .and => some (rs &&& rt)
  | .andi => some (rs &&& imm.setWidth 32)
  | .lui => some (imm ++ 0#16)
  | .nor => some (~~~(rs ||| rt))
  | .or => some (rs ||| rt)
  | .ori => some (rs ||| imm.setWidth 32)
  | .sll => some (rt <<< shamt.toNat)
  | .sllv => some (rt <<< (rs.toNat % 32))
  | .slt => some (if rs.toInt < rt.toInt then 1 else 0)
  | .slti => some (if rs.toInt < imm.toInt then 1 else 0)
  | .sltiu => some (if rs.toNat < (imm.signExtend 32).toNat then 1 else 0)
  | .sltu => some (if rs.toNat < rt.toNat then 1 else 0)
  | .sra => some (rt.sshiftRight shamt.toNat)
  | .srav => some (rt.sshiftRight (rs.toNat % 32))
  | .srl => some (rt >>> shamt.toNat)
  | .srlv => some (rt >>> (rs.toNat % 32))
  | .sub => signedResult (rs.toInt - rt.toInt)
  | .subu => some (rs - rt)
  | .xor => some (rs ^^^ rt)
  | .xori => some (rs ^^^ imm.setWidth 32)
  | _ => none

/-- The destination: `rt` of an instruction with an immediate, else `rd`. -/
def Instruction.destination (i : Instruction) : Fin 32 := if i.opCode.hasImmediate then i.rt else i.rd

/-- The immediate of an instruction word. -/
def immediateField (raw : BitVec 32) : BitVec 16 := raw.extractLsb' 0 16

/-- The shift amount of an instruction word. -/
def shamtField (raw : BitVec 32) : BitVec 5 := raw.extractLsb' 6 5

/-- The value that an instruction word has by the definition. -/
def Machine.definedValue (m : Machine) (raw : BitVec 32) : Option (BitVec 32) :=
  let i := Instruction.decode raw
  i.opCode.mips (m.get i.rs) (m.get i.rt) (immediateField raw) (shamtField raw)

theorem Machine.definedValue_eq {m : Machine} {raw : BitVec 32} {op : Op} (hop : (Instruction.decode raw).opCode = op) :
    m.definedValue raw = op.mips (m.get (Instruction.decode raw).rs) (m.get (Instruction.decode raw).rt)
      (immediateField raw) (shamtField raw) := by
  subst hop
  rfl

/-- The general purpose registers have changed to `f`; `r0` is 0, and `Hi` and `Lo` are as they were. -/
structure Machine.Wrote (m m' : Machine) (f : Fin 32 → BitVec 32) : Prop where
  zero : m'.get 0 = 0
  registers : ∀ r, r ≠ 0 → m'.get r = f r
  hi : m'.registers hiReg = m.registers hiReg
  lo : m'.registers loReg = m.registers loReg

/-- **The instruction `raw` is executed as defined**: on overflow the exception is raised, and no register changed;
    else there is no exception, and the destination and no other register has changed, to the value. -/
def Machine.ExecutesAsDefined (m : Machine) (bigEndian : Bool) (raw : BitVec 32) : Prop :=
  ∀ (σ : Type) (exceptionHandler : Machine.Handler σ) (kernel : σ), ∃ m',
    match m.definedValue raw with
    | none =>
      m.oneInstruction bigEndian exceptionHandler kernel = exceptionHandler .overflow kernel m' ∧ m.Wrote m' m.get
    | some value =>
      m.oneInstruction bigEndian exceptionHandler kernel = some (kernel, m') ∧
        m.Wrote m' fun r => if r = (Instruction.decode raw).destination then value else m.get r

/-! ## Decoding -/

section Decode

variable {raw value : BitVec 32}

/-- Entries of `opTable` for integer operations have an immediate and the format `IFMT`; `SPECIAL` has `RFMT`. -/
theorem opTable_format : ∀ e ∈ opTable,
    (match e.1, e.2 with
      | .op o, .ifmt => !(o.hasShamt || o.onRegisters)
      | .op o, _ => !o.isInteger
      | .special, .rfmt => true
      | .special, _ => false
      | .bcond, _ => true) = true := by
  decide

/-- `specialTable` has no operation with an immediate. -/
theorem specialTable_register : ∀ o ∈ specialTable, o.hasImmediate = false := by
  decide

theorem bcondOp_not_integer (value : BitVec 32) : (bcondOp value).isInteger = false := by
  unfold bcondOp
  dsimp only
  split
  · rfl
  split
  · rfl
  split
  · rfl
  split
  · rfl
  · rfl

theorem mask_sign : value &&& 0xffff &&& 0x8000 ≠ 0 ↔ value.getLsbD 15 = true := by
  have hbit : value &&& 0xffff &&& 0x8000 = if value.getLsbD 15 then 0x8000 else 0 := by
    rw [BitVec.and_assoc]
    exact BitVec.and_twoPow value 15
  rw [hbit]
  cases value.getLsbD 15 with
  | true => decide
  | false => decide

/-- `IFMT`: the immediate, sign extended. -/
theorem extra_ifmt (value : BitVec 32) : Format.ifmt.extra value = (immediateField value).signExtend 32 := by
  have hmsb : (immediateField value).msb = value.getLsbD 15 := by
    simp [immediateField, BitVec.msb_eq_getLsbD_last]
  apply BitVec.eq_of_getLsbD_eq
  intro i hi
  rw [BitVec.getLsbD_signExtend, hmsb]
  simp only [Format.extra, mask_sign, immediateField, BitVec.getLsbD_extractLsb']
  cases value.getLsbD 15 with
  | true | false => interval_cases i <;> simp

/-- `RFMT`: the shift amount. -/
theorem extra_rfmt (value : BitVec 32) : (Format.rfmt.extra value).toNat = (shamtField value).toNat := by
  rw [Format.extra, shamtField, BitVec.extractLsb'_toNat, BitVec.toNat_and, BitVec.toNat_ushiftRight]
  exact Nat.and_two_pow_sub_one_eq_mod _ 5

theorem toNat_six_bits (x : BitVec 32) : (x &&& 0x3f).toNat < 64 := by
  rw [BitVec.toNat_and]
  have hmod : x.toNat &&& (0x3f : BitVec 32).toNat = x.toNat % 64 := Nat.and_two_pow_sub_one_eq_mod _ 6
  omega

theorem getD_mem {α : Type} {l : List α} {k : Nat} (hk : k < l.length) (default : α) : l.getD k default ∈ l := by
  rw [List.getD_eq_getElem?_getD, List.getElem?_eq_getElem hk, Option.getD_some]
  exact List.getElem_mem hk

/-- What `Decode` has looked up. -/
theorem decode_spec (raw : BitVec 32) : ∃ e ∈ opTable, (Instruction.decode raw).extra = e.2.extra raw ∧
    (Instruction.decode raw).opCode =
      match e.1 with
      | .op o => o
      | .special => specialTable.getD (raw &&& 0x3f).toNat .res
      | .bcond => bcondOp raw :=
  ⟨_, getD_mem (toNat_six_bits (raw >>> 26)) (.op .res, .ifmt), rfl, rfl⟩

/-- An instruction with an immediate has it in `extra`. -/
theorem decode_extra_immediate (h : (Instruction.decode raw).opCode.hasImmediate = true) :
    (Instruction.decode raw).extra = (immediateField raw).signExtend 32 := by
  obtain ⟨⟨opCode, format⟩, he, hextra, hop⟩ := decode_spec raw
  have hformat := opTable_format _ he
  rw [hop] at h
  cases opCode with
  | op o =>
    cases format with
    | ifmt => exact hextra.trans (extra_ifmt raw)
    | jfmt | rfmt => simp [Op.isInteger, show o.hasImmediate = true from h] at hformat
  | special =>
    have hnone := specialTable_register _ (getD_mem (toNat_six_bits raw) .res)
    rw [show (specialTable.getD (raw &&& 0x3f).toNat .res).hasImmediate = true from h] at hnone
    cases hnone
  | bcond =>
    have hnone := bcondOp_not_integer raw
    simp [Op.isInteger, show (bcondOp raw).hasImmediate = true from h] at hnone

/-- A shift has its amount in `extra`. -/
theorem decode_extra_shamt (h : (Instruction.decode raw).opCode.hasShamt = true) :
    (Instruction.decode raw).extra.toNat = (shamtField raw).toNat := by
  obtain ⟨⟨opCode, format⟩, he, hextra, hop⟩ := decode_spec raw
  have hformat := opTable_format _ he
  rw [hop] at h
  cases opCode with
  | op o =>
    cases format with
    | ifmt => simp [show o.hasShamt = true from h] at hformat
    | jfmt | rfmt => simp [Op.isInteger, show o.hasShamt = true from h] at hformat
  | special =>
    cases format with
    | rfmt =>
      rw [hextra]
      exact extra_rfmt raw
    | ifmt => cases hformat
    | jfmt => cases hformat
  | bcond =>
    have hnone := bcondOp_not_integer raw
    simp [Op.isInteger, show (bcondOp raw).hasShamt = true from h] at hnone

end Decode

/-! ## The `switch` -/

section Values

variable (x y : BitVec 32) (imm : BitVec 16)

theorem signedResult_of_overflow {z : Int} {overflow : Bool} {w : BitVec 32}
    (hover : overflow = (decide (z ≥ 2 ^ 31) || decide (z < -2 ^ 31))) (hw : w = BitVec.ofInt 32 z) :
    (if overflow then none else some w) = signedResult z := by
  rw [hover, signedResult, hw]
  by_cases hin : -2 ^ 31 ≤ z ∧ z < 2 ^ 31
  · have hnot : (decide (z ≥ 2 ^ 31) || decide (z < -2 ^ 31)) = false := by
      rw [Bool.or_eq_false_iff, decide_eq_false_iff_not, decide_eq_false_iff_not]
      omega
    rw [if_pos hin, hnot]
    rfl
  · have hout : (decide (z ≥ 2 ^ 31) || decide (z < -2 ^ 31)) = true := by
      rw [Bool.or_eq_true, decide_eq_true_iff, decide_eq_true_iff]
      omega
    rw [if_neg hin, hout]
    rfl

/-- **The test for overflow of a sum**: equal signs, and another sign. -/
theorem add_overflow :
    (if !signBit (x ^^^ y) && signBit (x ^^^ (x + y)) then none else some (x + y)) = signedResult (x.toInt + y.toInt) := by
  apply signedResult_of_overflow
  · have hcode : (!signBit (x ^^^ y) && signBit (x ^^^ (x + y))) = x.saddOverflow y := by
      rw [signBit_eq_msb, signBit_eq_msb, BitVec.msb_xor, BitVec.msb_xor, BitVec.saddOverflow_eq]
      cases x.msb <;> cases y.msb <;> cases (x + y).msb <;> rfl
    rw [hcode]
    rfl
  · rw [BitVec.ofInt_add, BitVec.ofInt_toInt, BitVec.ofInt_toInt]

/-- The same test, on the other operand. -/
theorem add_overflow' :
    (if !signBit (x ^^^ y) && signBit (y ^^^ (x + y)) then none else some (x + y)) = signedResult (x.toInt + y.toInt) := by
  rw [BitVec.xor_comm x y, BitVec.add_comm x y, Int.add_comm]
  exact add_overflow y x

/-- **The test for overflow of a difference**: different signs, and another sign than that of `x`. -/
theorem sub_overflow :
    (if signBit (x ^^^ y) && signBit (x ^^^ (x - y)) then none else some (x - y)) = signedResult (x.toInt - y.toInt) := by
  apply signedResult_of_overflow
  · have hcode : (signBit (x ^^^ y) && signBit (x ^^^ (x - y))) = x.ssubOverflow y := by
      rw [signBit_eq_msb, signBit_eq_msb, BitVec.msb_xor, BitVec.msb_xor, BitVec.ssubOverflow_eq]
      cases x.msb <;> cases y.msb <;> cases (x - y).msb <;> rfl
    rw [hcode]
    rfl
  · rw [Int.sub_eq_add_neg, BitVec.ofInt_add, BitVec.ofInt_neg, BitVec.ofInt_toInt, BitVec.ofInt_toInt, BitVec.sub_eq_add_neg]

/-- `extra & 0xffff`: the immediate, zero extended. -/
theorem low_half : imm.signExtend 32 &&& 0xffff = imm.setWidth 32 := by
  apply BitVec.eq_of_getLsbD_eq
  intro i hi
  rw [BitVec.getLsbD_and, BitVec.getLsbD_signExtend, BitVec.getLsbD_setWidth]
  interval_cases i <;> simp

/-- `extra << 16`: the immediate in the upper half. -/
theorem upper_half : imm.signExtend 32 <<< 16 = (imm ++ 0#16 : BitVec 32) := by
  apply BitVec.eq_of_getLsbD_eq
  intro i hi
  rw [BitVec.getLsbD_shiftLeft, BitVec.getLsbD_signExtend, BitVec.getLsbD_append]
  interval_cases i <;> simp

theorem toNat_low_five : (x &&& 0x1f).toNat = x.toNat % 32 := by
  rw [BitVec.toNat_and]
  exact Nat.and_two_pow_sub_one_eq_mod x.toNat 5

end Values

namespace Machine

/-- How the `switch` ends for an integer instruction: with a value for `dst`, or with an overflow. -/
def finish (m : Machine) (pcAfter : BitVec 32) (dst : Fin 32) : Option (BitVec 32) → Option Outcome
  | none => some (.trap m .overflow 0)
  | some value => (m.set (gpr dst) value).next pcAfter

section Switch

variable {m : Machine} {bigEndian : Bool} {i : Instruction} {pcAfter : BitVec 32} {imm : BitVec 16} {shamt : BitVec 5}

theorem checked_eq_finish (dst : Fin 32) (result : BitVec 32) (overflow : Bool) :
    m.checked pcAfter dst result overflow = m.finish pcAfter dst (if overflow then none else some result) := by
  rw [checked]
  cases overflow with
  | true => rfl
  | false => rfl

theorem execute_or (hop : i.opCode = .or) :
    m.execute bigEndian i pcAfter = m.finish pcAfter i.rd (some (m.get i.rs)) := by
  simp only [execute, hop, threeRegs, BitVec.or_self]
  rfl

theorem execute_srl (hop : i.opCode = .srl) (hshamt : i.extra.toNat = shamt.toNat) :
    m.execute bigEndian i pcAfter = m.finish pcAfter i.rd (some ((m.get i.rt).sshiftRight shamt.toNat)) := by
  simp only [execute, hop, shift, hshamt]
  rfl

theorem execute_srlv (hop : i.opCode = .srlv) :
    m.execute bigEndian i pcAfter =
      m.finish pcAfter i.rd (some ((m.get i.rt).sshiftRight ((m.get i.rs).toNat % 32))) := by
  simp only [execute, hop, threeRegs, toNat_low_five]
  rfl

/-- **The other integer instructions** compute the value of the definition. -/
theorem execute_eq_finish (hint : i.opCode.isInteger = true) (hor : i.opCode ≠ .or) (hsrl : i.opCode ≠ .srl)
    (hsrlv : i.opCode ≠ .srlv) (himm : i.opCode.hasImmediate = true → i.extra = imm.signExtend 32)
    (hshamt : i.opCode.hasShamt = true → i.extra.toNat = shamt.toNat) :
    m.execute bigEndian i pcAfter =
      m.finish pcAfter i.destination (i.opCode.mips (m.get i.rs) (m.get i.rt) imm shamt) := by
  cases hop : i.opCode <;> rw [hop] at hint hor hsrl hsrlv himm hshamt <;>
    simp only [execute, hop, Op.mips, Instruction.destination, Op.hasImmediate, if_true, if_false, Bool.false_eq_true]
  case add => rw [checked_eq_finish, add_overflow]
  case addi =>
    have hextra := himm rfl
    rw [checked_eq_finish, add_overflow', hextra, BitVec.toInt_signExtend_of_le (by decide)]
  case sub => rw [checked_eq_finish, sub_overflow]
  case addiu =>
    rw [immediate, himm rfl]
    rfl
  case slti =>
    rw [immediate, himm rfl, BitVec.toInt_signExtend_of_le (by decide)]
    rfl
  case sltiu =>
    rw [immediate, himm rfl]
    exact congrArg (fun v => m.finish pcAfter i.rt (some v)) (if_congr BitVec.lt_def rfl rfl)
  case andi | ori | xori =>
    rw [immediate, himm rfl, low_half]
    rfl
  case lui =>
    rw [immediate, himm rfl, upper_half]
    rfl
  case sll | sra =>
    rw [shift, hshamt rfl]
    rfl
  case sllv | srav =>
    rw [threeRegs, toNat_low_five]
    rfl
  case sltu => exact congrArg (fun v => m.finish pcAfter i.rd (some v)) (if_congr BitVec.lt_def rfl rfl)
  case addu | and | nor | slt | subu | xor => rfl
  case or => exact absurd rfl hor
  case srl => exact absurd rfl hsrl
  case srlv => exact absurd rfl hsrlv
  all_goals cases hint

end Switch

/-! ## One instruction -/

section One

variable {σ : Type} {m : Machine} {mmu : Mmu} {bigEndian : Bool} {raw pcAfter : BitVec 32} {dst : Fin 32}

theorem set_of_ne {d e : Reg} (h : d ≠ e) (value : BitVec 32) : (m.set e value).registers d = m.registers d :=
  Registers.write_of_ne _ h _

/-- The general purpose registers, `Hi` and `Lo` come before the other registers. -/
theorem ne_of_low {d e : Reg} (hd : d.val < 34) (he : 34 ≤ e.val) : d ≠ e := by
  rintro rfl
  omega

/-- With no load pending, the end of an instruction touches `r0` and the registers after `Lo` only. -/
theorem advance_of_zero (hload : m.registers loadReg = 0) (pcAfter : BitVec 32) :
    ∃ m', advance ⟨m, pcAfter, 0, 0⟩ = some m' ∧ m'.get 0 = 0 ∧
      ∀ d : Reg, d.val < 34 → d ≠ gpr 0 → m'.registers d = m.registers d := by
  obtain ⟨registers, hdelayed, hzero, hsame⟩ := delayedLoad_of_zero hload (BitVec.ofNat 32 (0 : Fin 32)) 0
  -- the three program counters are written last
  have hkept : ∀ d : Reg, d.val < 34 → (((registers.write prevPCReg (registers pcReg)).write pcReg
      ((registers.write prevPCReg (registers pcReg)) nextPCReg)).write nextPCReg pcAfter) d = registers d := by
    intro d hd
    rw [Registers.write_of_ne _ (ne_of_low hd (by decide)), Registers.write_of_ne _ (ne_of_low hd (by decide)),
      Registers.write_of_ne _ (ne_of_low hd (by decide))]
  have hadvance : advance ⟨m, pcAfter, 0, 0⟩ = some { m with
      registers := ((registers.write prevPCReg (registers pcReg)).write pcReg
        ((registers.write prevPCReg (registers pcReg)) nextPCReg)).write nextPCReg pcAfter } := by
    simp only [advance, hdelayed, Option.map_some]
  refine ⟨_, hadvance, ?_, ?_⟩
  · exact (hkept (gpr 0) (by decide)).trans hzero
  · intro d hd h0
    exact (hkept d hd).trans (hsame d h0 (ne_of_low hd (by decide)) (ne_of_low hd (by decide)))

/-- An exception, likewise. -/
theorem raiseException_of_zero (hload : m.registers loadReg = 0) (exceptionHandler : Handler σ) (kernel : σ)
    (which : Trap) (badVAddr : BitVec 32) :
    ∃ m', m.raiseException exceptionHandler kernel which badVAddr = exceptionHandler which kernel m' ∧ m'.get 0 = 0 ∧
      ∀ d : Reg, d.val < 34 → d ≠ gpr 0 → m'.registers d = m.registers d := by
  have hload' : (m.set badVAddrReg badVAddr).registers loadReg = 0 := (set_of_ne (by decide) badVAddr).trans hload
  obtain ⟨registers, hdelayed, hzero, hsame⟩ := delayedLoad_of_zero hload' 0 0
  refine ⟨{ m with registers := registers }, ?_, hzero, ?_⟩
  · simp only [raiseException, delayedLoad, hdelayed, Option.map_some]
    rfl
  · intro d hd h0
    refine (hsame d h0 (ne_of_low hd (by decide)) (ne_of_low hd (by decide))).trans ?_
    exact set_of_ne (ne_of_low hd (by decide)) badVAddr

theorem gpr_low (r : Fin 32) : (gpr r).val < 34 := Nat.lt_trans r.isLt (by decide)

/-- An overflow: the handler finds the registers as they were. -/
theorem finish_overflow (hload : m.registers loadReg = 0) (exceptionHandler : Handler σ) (kernel : σ) :
    ∃ m', (m.finish pcAfter dst none).bind (conclude exceptionHandler kernel) = exceptionHandler .overflow kernel m' ∧
      m.Wrote m' m.get := by
  obtain ⟨m', hraise, hzero, hsame⟩ := raiseException_of_zero hload exceptionHandler kernel .overflow 0
  refine ⟨m', hraise, hzero, ?_, ?_, ?_⟩
  · intro r hr
    exact hsame (gpr r) (gpr_low r) fun h => hr (gpr_injective h)
  · exact hsame hiReg (by decide) (by decide)
  · exact hsame loReg (by decide) (by decide)

/-- A value: it is in the destination, and no other register has changed. -/
theorem finish_value (hload : m.registers loadReg = 0) (value : BitVec 32) (exceptionHandler : Handler σ) (kernel : σ) :
    ∃ m', (m.finish pcAfter dst (some value)).bind (conclude exceptionHandler kernel) = some (kernel, m') ∧
      m.Wrote m' fun r => if r = dst then value else m.get r := by
  have hload' : (m.set (gpr dst) value).registers loadReg = 0 := (set_of_ne (gpr_ne (by decide)).symm value).trans hload
  obtain ⟨m', hadvance, hzero, hsame⟩ := advance_of_zero hload' pcAfter
  refine ⟨m', ?_, hzero, ?_, ?_, ?_⟩
  · simp only [finish, next, Option.bind_some, conclude, hadvance, Option.map_some]
  · intro r hr
    refine (hsame (gpr r) (gpr_low r) fun h => hr (gpr_injective h)).trans ?_
    by_cases hdst : r = dst
    · rw [if_pos hdst, hdst]
      exact Registers.write_same _ _ _
    · rw [if_neg hdst]
      exact set_of_ne (fun h => hdst (gpr_injective h)) value
  · exact (hsame hiReg (by decide) (by decide)).trans (set_of_ne (gpr_ne (by decide)).symm value)
  · exact (hsame loReg (by decide) (by decide)).trans (set_of_ne (gpr_ne (by decide)).symm value)

/-- `OneInstruction`, once the instruction has been fetched. -/
theorem oneInstruction_of_fetch (hfetch : readMem bigEndian m.mainMemory m.mmu (m.registers pcReg) 4 = some (mmu, .ok raw))
    (exceptionHandler : Handler σ) (kernel : σ) :
    m.oneInstruction bigEndian exceptionHandler kernel =
      (({ m with mmu := mmu } : Machine).execute bigEndian (Instruction.decode raw) (m.registers nextPCReg + 4)).bind
        (conclude exceptionHandler kernel) := by
  rw [oneInstruction, hfetch]
  rfl

/-- **If the `switch` computes what is defined**, the instruction is executed as defined. -/
theorem executesAsDefined_of_finish
    (hfetch : readMem bigEndian m.mainMemory m.mmu (m.registers pcReg) 4 = some (mmu, .ok raw))
    (hload : m.registers loadReg = 0)
    (hexec : ({ m with mmu := mmu } : Machine).execute bigEndian (Instruction.decode raw) (m.registers nextPCReg + 4) =
      ({ m with mmu := mmu } : Machine).finish (m.registers nextPCReg + 4) (Instruction.decode raw).destination
        (m.definedValue raw)) :
    m.ExecutesAsDefined bigEndian raw := by
  intro σ exceptionHandler kernel
  have hone := oneInstruction_of_fetch hfetch exceptionHandler kernel
  have hload' : ({ m with mmu := mmu } : Machine).registers loadReg = 0 := hload
  rw [hone, hexec]
  cases m.definedValue raw with
  | none =>
    obtain ⟨m', hresult, hwrote⟩ := finish_overflow hload' exceptionHandler kernel
    exact ⟨m', hresult, hwrote.zero, hwrote.registers, hwrote.hi, hwrote.lo⟩
  | some value =>
    obtain ⟨m', hresult, hwrote⟩ := finish_value hload' value exceptionHandler kernel
    exact ⟨m', hresult, hwrote.zero, hwrote.registers, hwrote.hi, hwrote.lo⟩

/-- **If it computes `w` instead of `v`**, the difference is seen unless the destination is `r0`. -/
theorem executesAsDefined_iff_of_finish
    (hfetch : readMem bigEndian m.mainMemory m.mmu (m.registers pcReg) 4 = some (mmu, .ok raw))
    (hload : m.registers loadReg = 0) {v w : BitVec 32} (hdst : (Instruction.decode raw).destination = dst)
    (hmips : m.definedValue raw = some v)
    (hexec : ({ m with mmu := mmu } : Machine).execute bigEndian (Instruction.decode raw) (m.registers nextPCReg + 4) =
      ({ m with mmu := mmu } : Machine).finish (m.registers nextPCReg + 4) dst (some w)) :
    m.ExecutesAsDefined bigEndian raw ↔ dst = 0 ∨ w = v := by
  have hload' : ({ m with mmu := mmu } : Machine).registers loadReg = 0 := hload
  have hcode : ∀ (σ : Type) (exceptionHandler : Handler σ) (kernel : σ), ∃ m',
      m.oneInstruction bigEndian exceptionHandler kernel = some (kernel, m') ∧
        m.Wrote m' fun r => if r = dst then w else m.get r := by
    intro σ exceptionHandler kernel
    obtain ⟨m', hresult, hwrote⟩ := finish_value hload' w exceptionHandler kernel
    refine ⟨m', ?_, hwrote.zero, hwrote.registers, hwrote.hi, hwrote.lo⟩
    rw [oneInstruction_of_fetch hfetch, hexec]
    exact hresult
  constructor
  · intro hdefined
    by_cases hzero : dst = 0
    · exact Or.inl hzero
    · right
      obtain ⟨m', hresult⟩ := hdefined Unit (fun _ _ _ => none) ()
      rw [hmips, hdst] at hresult
      obtain ⟨m'', hresult', hwrote'⟩ := hcode Unit (fun _ _ _ => none) ()
      obtain rfl : m'' = m' := by
        have hsame := hresult'.symm.trans hresult.1
        exact (Prod.mk.inj (Option.some.inj hsame)).2
      have hv := hresult.2.registers dst hzero
      have hw := hwrote'.registers dst hzero
      simp only [if_true] at hv hw
      exact hw.symm.trans hv
  · intro hsame σ exceptionHandler kernel
    obtain ⟨m', hresult, hwrote⟩ := hcode σ exceptionHandler kernel
    rw [hmips, hdst]
    refine ⟨m', hresult, hwrote.zero, ?_, hwrote.hi, hwrote.lo⟩
    intro r hr
    rw [hwrote.registers r hr]
    rcases hsame with hzero | hvw
    · have hne : r ≠ dst := by
        rw [hzero]
        exact hr
      rw [if_neg hne, if_neg hne]
    · rw [hvw]

end One

end Machine

/-! ## Where the difference is seen -/

section Differences

variable {x y : BitVec 32} {n : Nat}

/-- `rs` is `rs | rt`: the bits of `rt` are among those of `rs`. -/
theorem eq_or_iff : x = x ||| y ↔ y &&& ~~~x = 0 := by
  constructor
  · intro h
    rw [h, BitVec.not_or, ← BitVec.and_assoc, BitVec.and_comm y, BitVec.and_assoc, BitVec.and_not_self]
    exact BitVec.and_zero
  · intro h
    apply BitVec.eq_of_getLsbD_eq
    intro i hi
    have hbit := congrArg (fun z => z.getLsbD i) h
    simp only [BitVec.getLsbD_and, BitVec.getLsbD_not, hi, decide_true, Bool.true_and, BitVec.ofNat_eq_ofNat,
      BitVec.getLsbD_zero] at hbit
    rw [BitVec.getLsbD_or]
    cases hx : x.getLsbD i with
    | true => rfl
    | false =>
      rw [hx, Bool.not_false, Bool.and_true] at hbit
      rw [hbit]
      rfl

/-- A shift by less than 32 that copies the sign bit is a logical shift if there is nothing to copy. -/
theorem sshiftRight_eq_ushiftRight_iff (hn : n < 32) : y.sshiftRight n = y >>> n ↔ n = 0 ∨ y.msb = false := by
  constructor
  · intro h
    by_cases hzero : n = 0
    · exact Or.inl hzero
    · right
      have hmsb := congrArg BitVec.msb h
      rw [BitVec.msb_sshiftRight, BitVec.msb_ushiftRight, decide_eq_true (by omega)] at hmsb
      exact hmsb
  · rintro (rfl | hmsb)
    · rw [BitVec.sshiftRight_zero, BitVec.ushiftRight_zero]
    · exact BitVec.sshiftRight_eq_of_msb_false hmsb

end Differences

/-- **THE INTEGER INSTRUCTIONS ARE AS DEFINED**, with no load pending, except where it makes a difference that `OR`
    combines `rs` with `rs`, and that `SRL` and `SRLV` copy the sign bit. -/
theorem executesAsDefined_iff (m : Machine) (bigEndian : Bool) (mmu : Mmu) (raw : BitVec 32)
    (hfetch : readMem bigEndian m.mainMemory m.mmu (m.registers pcReg) 4 = some (mmu, .ok raw))
    (hload : m.registers loadReg = 0) (hint : (Instruction.decode raw).opCode.isInteger = true) :
    m.ExecutesAsDefined bigEndian raw ↔
      let i := Instruction.decode raw
      (i.opCode = .or → i.rd = 0 ∨ m.get i.rt &&& ~~~(m.get i.rs) = 0) ∧
      (i.opCode = .srl → i.rd = 0 ∨ (shamtField raw).toNat = 0 ∨ (m.get i.rt).msb = false) ∧
      (i.opCode = .srlv → i.rd = 0 ∨ (m.get i.rs).toNat % 32 = 0 ∨ (m.get i.rt).msb = false) := by
  -- the cases are the three operations, and all others
  have himm : (Instruction.decode raw).opCode.hasImmediate = true →
      (Instruction.decode raw).extra = (immediateField raw).signExtend 32 := decode_extra_immediate
  have hshamt : (Instruction.decode raw).opCode.hasShamt = true →
      (Instruction.decode raw).extra.toNat = (shamtField raw).toNat := decode_extra_shamt
  by_cases hor : (Instruction.decode raw).opCode = .or
  · have hdst : (Instruction.decode raw).destination = (Instruction.decode raw).rd := by
      rw [Instruction.destination, hor]
      rfl
    rw [Machine.executesAsDefined_iff_of_finish hfetch hload hdst (Machine.definedValue_eq hor) (Machine.execute_or hor)]
    simp only [hor, true_implies, reduceCtorEq, false_implies, and_true]
    exact or_congr_right eq_or_iff
  by_cases hsrl : (Instruction.decode raw).opCode = .srl
  · have hdst : (Instruction.decode raw).destination = (Instruction.decode raw).rd := by
      rw [Instruction.destination, hsrl]
      rfl
    rw [hsrl] at hshamt
    rw [Machine.executesAsDefined_iff_of_finish hfetch hload hdst (Machine.definedValue_eq hsrl)
      (Machine.execute_srl hsrl (hshamt rfl))]
    simp only [hsrl, true_implies, reduceCtorEq, false_implies, true_and, and_true]
    exact or_congr_right (sshiftRight_eq_ushiftRight_iff (shamtField raw).isLt)
  by_cases hsrlv : (Instruction.decode raw).opCode = .srlv
  · have hdst : (Instruction.decode raw).destination = (Instruction.decode raw).rd := by
      rw [Instruction.destination, hsrlv]
      rfl
    rw [Machine.executesAsDefined_iff_of_finish hfetch hload hdst (Machine.definedValue_eq hsrlv) (Machine.execute_srlv hsrlv)]
    simp only [hsrlv, true_implies, reduceCtorEq, false_implies, true_and]
    exact or_congr_right (sshiftRight_eq_ushiftRight_iff (Nat.mod_lt _ (by decide)))
  · simp only [hor, hsrl, hsrlv, false_implies, and_self, iff_true]
    exact Machine.executesAsDefined_of_finish hfetch hload
      (Machine.execute_eq_finish hint hor hsrl hsrlv himm hshamt)

/-- A machine with one instruction at address 0, and values in `$1` and `$2`.  Memory is little endian. -/
def oneWord (code : List UInt8) (r1 r2 : BitVec 32) : Machine :=
  { registers := (Registers.zero.write (gpr 1) r1).write (gpr 2) r2
    mainMemory := fun address => code.getD address 0
    mmu :=
      { tlb := none
        pageTable := some [⟨0, 0, true, false, false, false⟩]
        pageTableSize := 1 } }

theorem fetched {m : Machine} {bigEndian : Bool} {raw : BitVec 32}
    (h : ((readMem bigEndian m.mainMemory m.mmu (m.registers pcReg) 4).bind fun r => r.2.toOption) = some raw) :
    ∃ mmu, readMem bigEndian m.mainMemory m.mmu (m.registers pcReg) 4 = some (mmu, .ok raw) := by
  obtain ⟨⟨mmu, result⟩, hread, hresult⟩ := Option.bind_eq_some_iff.mp h
  cases result with
  | error which => cases hresult
  | ok value =>
    obtain rfl : value = raw := Option.some.inj hresult
    exact ⟨mmu, hread⟩

/-- `sub $3, $1, $2`, of the least `int` and 1: the overflow is raised. -/
theorem executesAsDefined_sub :
    (oneWord [0x22, 0x18, 0x22, 0x00] 0x80000000 1).ExecutesAsDefined false 0x00221822 ∧
      (oneWord [0x22, 0x18, 0x22, 0x00] 0x80000000 1).definedValue 0x00221822 = none := by
  obtain ⟨mmu, hfetch⟩ : ∃ mmu, readMem false (oneWord [0x22, 0x18, 0x22, 0x00] 0x80000000 1).mainMemory
      (oneWord [0x22, 0x18, 0x22, 0x00] 0x80000000 1).mmu
      ((oneWord [0x22, 0x18, 0x22, 0x00] 0x80000000 1).registers pcReg) 4 = some (mmu, .ok 0x00221822) :=
    fetched (by decide +kernel)
  have hop : (Instruction.decode 0x00221822).opCode = .sub := by decide
  refine ⟨?_, by decide⟩
  rw [executesAsDefined_iff _ _ mmu _ hfetch (by decide) (by decide)]
  simp only [hop, reduceCtorEq, false_implies, and_self]

/-- **`or $3, $1, $2`** of 0 and 1 should be 1, and is 0; **`srl $3, $2, 1`** of the least `int` should be positive, and is
    negative. -/
theorem or_srl_not_as_defined :
    (∃ mmu, readMem false (oneWord [0x25, 0x18, 0x22, 0x00] 0 1).mainMemory
        (oneWord [0x25, 0x18, 0x22, 0x00] 0 1).mmu ((oneWord [0x25, 0x18, 0x22, 0x00] 0 1).registers pcReg) 4 =
          some (mmu, .ok 0x00221825)) ∧
      (oneWord [0x25, 0x18, 0x22, 0x00] 0 1).registers loadReg = 0 ∧
      (Instruction.decode 0x00221825).opCode = .or ∧
      ¬ (oneWord [0x25, 0x18, 0x22, 0x00] 0 1).ExecutesAsDefined false 0x00221825 ∧
    (∃ mmu, readMem false (oneWord [0x42, 0x18, 0x02, 0x00] 0 0x80000000).mainMemory
        (oneWord [0x42, 0x18, 0x02, 0x00] 0 0x80000000).mmu
        ((oneWord [0x42, 0x18, 0x02, 0x00] 0 0x80000000).registers pcReg) 4 = some (mmu, .ok 0x00021842)) ∧
      (oneWord [0x42, 0x18, 0x02, 0x00] 0 0x80000000).registers loadReg = 0 ∧
      (Instruction.decode 0x00021842).opCode = .srl ∧
      ¬ (oneWord [0x42, 0x18, 0x02, 0x00] 0 0x80000000).ExecutesAsDefined false 0x00021842 := by
  obtain ⟨mmu, hfetch⟩ : ∃ mmu, readMem false (oneWord [0x25, 0x18, 0x22, 0x00] 0 1).mainMemory
      (oneWord [0x25, 0x18, 0x22, 0x00] 0 1).mmu ((oneWord [0x25, 0x18, 0x22, 0x00] 0 1).registers pcReg) 4 =
        some (mmu, .ok 0x00221825) := fetched (by decide +kernel)
  obtain ⟨mmu', hfetch'⟩ : ∃ mmu, readMem false (oneWord [0x42, 0x18, 0x02, 0x00] 0 0x80000000).mainMemory
      (oneWord [0x42, 0x18, 0x02, 0x00] 0 0x80000000).mmu
      ((oneWord [0x42, 0x18, 0x02, 0x00] 0 0x80000000).registers pcReg) 4 = some (mmu, .ok 0x00021842) :=
    fetched (by decide +kernel)
  refine ⟨⟨mmu, hfetch⟩, by decide, by decide, ?_, ⟨mmu', hfetch'⟩, by decide, by decide, ?_⟩
  · have hvalue : (oneWord [0x25, 0x18, 0x22, 0x00] 0 1).definedValue 0x00221825 = some 1 := by decide
    rw [Machine.executesAsDefined_iff_of_finish hfetch (by decide) rfl hvalue (Machine.execute_or (by decide))]
    change ¬ (_ ∨ (oneWord [0x25, 0x18, 0x22, 0x00] 0 1).get (Instruction.decode 0x00221825).rs = 1)
    decide
  · have hvalue : (oneWord [0x42, 0x18, 0x02, 0x00] 0 0x80000000).definedValue 0x00021842 = some 0x40000000 := by decide
    rw [Machine.executesAsDefined_iff_of_finish hfetch' (by decide) rfl hvalue
      (Machine.execute_srl (by decide) (decode_extra_shamt (by decide)))]
    change ¬ (_ ∨ ((oneWord [0x42, 0x18, 0x02, 0x00] 0 0x80000000).get (Instruction.decode 0x00021842).rt).sshiftRight
      (shamtField 0x00021842).toNat = 0x40000000)
    decide

end Nachos
