/-
  A processor with registers, a stack and a memory of bytes, and straight pieces of its code.

  A word has `n` bytes, the LOWEST FIRST; registers are of any type `ρ`, one of them is the stack
  pointer, and the stack grows downwards.  The instructions are the five a context switch is written
  with: `mov` between registers and memory, `push`, `pop`, an indirect `call` and `ret`.  Code is not
  part of the memory: it is a partial map from addresses to instructions, each with the address of the
  next one, so nothing is assumed about how long an instruction is.

  1. **Words in memory**: what was stored is loaded, a store leaves other words alone, a load depends on
     the bytes it reads and on nothing else.
  2. **The machine**: `exec` is one instruction, `step` and `run` are the machine.
  3. **Blocks**: a piece of code without `call` and `ret` is run in one go (`run_block`).
  4. **Saves and loads**: blocks that store registers in a record in memory, or load them from one.
-/
import Mathlib.Data.List.Pairwise
import Mathlib.Logic.Function.Basic
import Nachos.Lib.Bytes

namespace Nachos.Asm

/-! ## Words in memory -/

/-- A word of `n` bytes. -/
abbrev Word (n : Nat) := BitVec (8 * n)

/-- The number in the `n` bytes at `a`. -/
def leValue (b : Bytes) (a : Nat) : Nat → Nat
  | 0 => 0
  | n + 1 => (b a).toNat + 256 * leValue b (a + 1) n

/-- The word at `a`. -/
def load (n : Nat) (b : Bytes) (a : Nat) : Word n := BitVec.ofNat _ (leValue b a n)

/-- A word stored at `a`. -/
def store (n : Nat) (b : Bytes) (a : Nat) (w : Word n) : Bytes := fun i =>
  if a ≤ i ∧ i < a + n then UInt8.ofNat (w.toNat / 256 ^ (i - a)) else b i

section Words

variable {n : Nat} {b b' : Bytes} {a a' i : Nat} {w : Word n}

theorem leValue_congr (h : ∀ i < n, b (a + i) = b' (a + i)) : leValue b a n = leValue b' a n := by
  induction n generalizing a with
  | zero => rfl
  | succ n ih =>
    have h0 : b a = b' a := h 0 (by omega)
    have hrest : leValue b (a + 1) n = leValue b' (a + 1) n := ih fun i hi => by
      have hi' := h (i + 1) (by omega)
      rwa [show a + (i + 1) = a + 1 + i by omega] at hi'
    rw [leValue, leValue, h0, hrest]

/-- Bytes that are the digits of a number to base 256 have that number as their value. -/
theorem leValue_of_digits {v : Nat} (h : ∀ i < n, (b (a + i)).toNat = v / 256 ^ i % 256) :
    leValue b a n = v % 256 ^ n := by
  induction n generalizing a v with
  | zero => rw [leValue, Nat.pow_zero, Nat.mod_one]
  | succ n ih =>
    have h0 : (b a).toNat = v % 256 := by
      have h0 := h 0 (by omega)
      rwa [Nat.add_zero, Nat.pow_zero, Nat.div_one] at h0
    have hrest : leValue b (a + 1) n = v / 256 % 256 ^ n := ih fun i hi => by
      have hi' := h (i + 1) (by omega)
      rwa [show a + (i + 1) = a + 1 + i by omega, Nat.pow_succ', ← Nat.div_div_eq_div_mul] at hi'
    rw [leValue, h0, hrest, Nat.pow_succ', Nat.mod_mul]

theorem load_congr (h : ∀ i < n, b (a + i) = b' (a + i)) : load n b a = load n b' a := by
  rw [load, load, leValue_congr h]

theorem store_of_not (h : ¬ (a ≤ i ∧ i < a + n)) : store n b a w i = b i := by
  rw [store, if_neg h]

/-- What was stored is loaded. -/
@[simp] theorem load_store : load n (store n b a w) a = w := by
  have hdigits : ∀ i < n, (store n b a w (a + i)).toNat = w.toNat / 256 ^ i % 256 := fun i hi => by
    have hin : a ≤ a + i ∧ a + i < a + n := by omega
    rw [store, if_pos hin, Nat.add_sub_cancel_left, UInt8.toNat_ofNat']
  have hw : w.toNat < 256 ^ n := by
    have hlt := w.isLt
    rwa [Nat.pow_mul] at hlt
  apply BitVec.eq_of_toNat_eq
  rw [load, leValue_of_digits hdigits, BitVec.toNat_ofNat, Nat.mod_eq_of_lt hw,
    Nat.mod_eq_of_lt w.isLt]

/-- A store leaves the words it does not overlap alone. -/
theorem load_store_of_disjoint (h : a' + n ≤ a ∨ a + n ≤ a') :
    load n (store n b a w) a' = load n b a' := by
  exact load_congr fun i hi => store_of_not (by omega)

end Words

/-! ## The machine -/

/-- The processor and its memory. -/
structure Proc (n : Nat) (ρ : Type) where
  reg : ρ → Word n
  pc : Word n
  mem : Bytes

/-- Where an instruction finds or leaves a word. -/
inductive Operand (n : Nat) (ρ : Type) where
  /-- A register. -/
  | reg (r : ρ)
  /-- `disp(base)`: memory, at a distance from where a register points. -/
  | at_ (disp : Nat) (base : ρ)
  /-- Memory, at a fixed address. -/
  | fixed (a : Word n)

/-- The instructions. -/
inductive Insn (n : Nat) (ρ : Type) where
  | mov (src dst : Operand n ρ)
  | push (r : ρ)
  | pop (r : ρ)
  /-- A call of the function a register points to. -/
  | call (r : ρ)
  | ret

/-- Code: what stands at an address, and the address of what follows. -/
abbrev Code (n : Nat) (ρ : Type) := Word n → Option (Insn n ρ × Word n)

section Addresses

variable {n : Nat} {ρ : Type}

theorem toNat_sub_ofNat {x : Word n} {k : Nat} (h : k ≤ x.toNat) :
    (x - BitVec.ofNat _ k).toNat = x.toNat - k := by
  have hx := x.isLt
  have hk : k < 2 ^ (8 * n) := by omega
  have hsum : 2 ^ (8 * n) - k + x.toNat = x.toNat - k + 2 ^ (8 * n) := by omega
  rw [BitVec.toNat_sub, BitVec.toNat_ofNat, Nat.mod_eq_of_lt hk, hsum, Nat.add_mod_right]
  exact Nat.mod_eq_of_lt (by omega)

theorem toNat_add_ofNat {x : Word n} {k : Nat} (h : x.toNat + k < 2 ^ (8 * n)) :
    (x + BitVec.ofNat _ k).toNat = x.toNat + k := by
  have hk : k < 2 ^ (8 * n) := by omega
  rw [BitVec.toNat_add, BitVec.toNat_ofNat, Nat.mod_eq_of_lt hk, Nat.mod_eq_of_lt h]

/-- The address `disp(base)`. -/
def Proc.addr (s : Proc n ρ) (disp : Nat) (base : ρ) : Nat := (s.reg base + BitVec.ofNat _ disp).toNat

/-- An offset within what a register points to, when that ends within the address space. -/
theorem Proc.addr_eq {s : Proc n ρ} {base : ρ} {disp : Nat}
    (h : (s.reg base).toNat + disp < 2 ^ (8 * n)) : s.addr disp base = (s.reg base).toNat + disp :=
  toNat_add_ofNat h

/-- `l` stands in the code from `a` to `e`. -/
def Placed (code : Code n ρ) (a : Word n) : List (Insn n ρ) → Word n → Prop
  | [], e => a = e
  | i :: l, e => ∃ next, code a = some (i, next) ∧ Placed code next l e

theorem Placed.append {code : Code n ρ} {a e : Word n} {l l' : List (Insn n ρ)}
    (h : Placed code a (l ++ l') e) : ∃ m, Placed code a l m ∧ Placed code m l' e := by
  induction l generalizing a with
  | nil => exact ⟨a, rfl, h⟩
  | cons i l ih =>
    obtain ⟨next, hcode, hrest⟩ := h
    obtain ⟨m, hl, hl'⟩ := ih hrest
    exact ⟨m, ⟨next, hcode, hl⟩, hl'⟩

/-- `l` laid out from `a` on, with one address for each instruction. -/
def lay (a : Word n) (l : List (Insn n ρ)) : Code n ρ := fun p =>
  (l[(p - a).toNat]?).map (·, p + BitVec.ofNat _ 1)

theorem add_ofNat_succ (a : Word n) (i : Nat) :
    a + BitVec.ofNat _ (i + 1) = a + BitVec.ofNat _ 1 + BitVec.ofNat _ i := by
  rw [Nat.add_comm, BitVec.ofNat_add, BitVec.add_assoc]

theorem placed_of_get {code : Code n ρ} {a : Word n} {l : List (Insn n ρ)}
    (h : ∀ i, (hi : i < l.length) → code (a + BitVec.ofNat _ i) = some (l[i], a + BitVec.ofNat _ (i + 1))) :
    Placed code a l (a + BitVec.ofNat _ l.length) := by
  induction l generalizing a with
  | nil => exact (BitVec.add_zero a).symm
  | cons i l ih =>
    have h0 := h 0 (Nat.zero_lt_succ _)
    rw [BitVec.add_zero, Nat.zero_add] at h0
    refine ⟨a + BitVec.ofNat _ 1, h0, ?_⟩
    rw [List.length_cons, add_ofNat_succ a l.length]
    refine ih fun j hj => ?_
    have hj' := h (j + 1) (Nat.succ_lt_succ hj)
    rwa [add_ofNat_succ a j, add_ofNat_succ a (j + 1)] at hj'

/-- Code that is laid out from `a` on. -/
theorem placed_of_lay {code : Code n ρ} {a : Word n} {l : List (Insn n ρ)} (hlen : l.length ≤ 2 ^ (8 * n))
    (h : ∀ p, (p - a).toNat < l.length → code p = lay a l p) :
    Placed code a l (a + BitVec.ofNat _ l.length) := by
  refine placed_of_get fun i hi => ?_
  have hdiff : (a + BitVec.ofNat _ i - a).toNat = i := by
    rw [BitVec.add_comm, BitVec.add_sub_cancel, BitVec.toNat_ofNat]
    exact Nat.mod_eq_of_lt (by omega)
  rw [h _ (by rw [hdiff]; exact hi), lay, hdiff, List.getElem?_eq_getElem hi, Option.map_some, BitVec.add_assoc,
    BitVec.ofNat_add]

end Addresses

section Machine

variable {n : Nat} {ρ : Type} [DecidableEq ρ] (sp : ρ)

namespace Proc

def fetch (s : Proc n ρ) : Operand n ρ → Word n
  | .reg r => s.reg r
  | .at_ disp base => load n s.mem (s.addr disp base)
  | .fixed a => load n s.mem a.toNat

def put (s : Proc n ρ) (v : Word n) : Operand n ρ → Proc n ρ
  | .reg r => { s with reg := Function.update s.reg r v }
  | .at_ disp base => { s with mem := store n s.mem (s.addr disp base) v }
  | .fixed a => { s with mem := store n s.mem a.toNat v }

/-- A word on top of the stack. -/
def pushWord (s : Proc n ρ) (v : Word n) : Proc n ρ :=
  let top := s.reg sp - BitVec.ofNat _ n
  { s with reg := Function.update s.reg sp top, mem := store n s.mem top.toNat v }

/-- The word on top of the stack. -/
def top (s : Proc n ρ) : Word n := load n s.mem (s.reg sp).toNat

/-- The stack without its top. -/
def dropWord (s : Proc n ρ) : Proc n ρ :=
  { s with reg := Function.update s.reg sp (s.reg sp + BitVec.ofNat _ n) }

/-- A return. -/
def ret (s : Proc n ρ) : Proc n ρ := { s.dropWord sp with pc := s.top sp }

/-- What an instruction other than `call` and `ret` does to registers and memory. -/
def effect (s : Proc n ρ) : Insn n ρ → Proc n ρ
  | .mov src dst => s.put (s.fetch src) dst
  | .push r => s.pushWord sp (s.reg r)
  | .pop r => (s.dropWord sp).put (s.top sp) (.reg r)
  | .call _ => s
  | .ret => s

/-- One instruction; `next` is the address of the one after it. -/
def exec (next : Word n) (s : Proc n ρ) : Insn n ρ → Proc n ρ
  | .call r => { s.pushWord sp next with pc := s.reg r }
  | .ret => s.ret sp
  | i => { s.effect sp i with pc := next }

end Proc

/-- One step of the machine; it stops where there is no code. -/
def step (code : Code n ρ) (s : Proc n ρ) : Option (Proc n ρ) :=
  (code s.pc).map fun i => s.exec sp i.2 i.1

/-- `k` steps of the machine. -/
def run (code : Code n ρ) : Nat → Proc n ρ → Option (Proc n ρ)
  | 0, s => some s
  | k + 1, s => (step sp code s).bind (run code k)

theorem run_add (code : Code n ρ) (j k : Nat) (s : Proc n ρ) :
    run sp code (j + k) s = (run sp code j s).bind (run sp code k) := by
  induction j generalizing s with
  | zero => rw [Nat.zero_add, run, Option.bind_some]
  | succ j ih =>
    rw [show j + 1 + k = (j + k) + 1 by omega, run, run, Option.bind_assoc]
    exact congrArg _ (funext ih)

/-! ## Blocks -/

/-- An instruction that goes on to the next one. -/
def Insn.straight : Insn n ρ → Bool
  | .call _ => false
  | .ret => false
  | _ => true

/-- What a block does to registers and memory. -/
def Proc.block (s : Proc n ρ) (l : List (Insn n ρ)) : Proc n ρ := l.foldl (·.effect sp) s

@[simp] theorem Proc.block_nil (s : Proc n ρ) : s.block sp [] = s := rfl

@[simp] theorem Proc.block_cons (s : Proc n ρ) (i : Insn n ρ) (l : List (Insn n ρ)) :
    s.block sp (i :: l) = (s.effect sp i).block sp l := rfl

theorem Proc.block_append (s : Proc n ρ) (l l' : List (Insn n ρ)) :
    s.block sp (l ++ l') = (s.block sp l).block sp l' := List.foldl_append

theorem Proc.exec_of_straight {i : Insn n ρ} (hi : i.straight) (next : Word n) (s : Proc n ρ) :
    s.exec sp next i = { s.effect sp i with pc := next } := by
  cases i with
  | call r => cases hi
  | ret => cases hi
  | _ => rfl

/-- The effect of an instruction does not depend on where it stands. -/
theorem Proc.effect_pc (s : Proc n ρ) (p : Word n) (i : Insn n ρ) :
    Proc.effect sp { s with pc := p } i = { s.effect sp i with pc := p } := by
  cases i with
  | mov src dst => cases src <;> cases dst <;> rfl
  | _ => rfl

theorem Proc.block_pc (s : Proc n ρ) (p : Word n) (l : List (Insn n ρ)) :
    Proc.block sp { s with pc := p } l = { s.block sp l with pc := p } := by
  induction l generalizing s with
  | nil => rfl
  | cons i l ih => rw [block_cons, block_cons, effect_pc, ih]

/-- **A block runs in one go**, whatever stands around it. -/
theorem run_block {code : Code n ρ} {e : Word n} {l : List (Insn n ρ)} (hl : ∀ i ∈ l, i.straight)
    {s : Proc n ρ} (h : Placed code s.pc l e) :
    run sp code l.length s = some { s.block sp l with pc := e } := by
  induction l generalizing s with
  | nil =>
    have hpc : s.pc = e := h
    rw [← hpc]
    rfl
  | cons i l ih =>
    obtain ⟨next, hcode, hrest⟩ := h
    have hstep : step sp code s = some { s.effect sp i with pc := next } := by
      rw [step, hcode, Option.map_some, Proc.exec_of_straight sp (hl i List.mem_cons_self)]
    rw [List.length_cons, run, hstep, Option.bind_some,
      ih (fun j hj => hl j (List.mem_cons_of_mem i hj)) hrest, Proc.block_pc, Proc.block_cons]

/-- A block that ends in a return. -/
theorem run_block_ret {code : Code n ρ} {e : Word n} {l : List (Insn n ρ)} (hl : ∀ i ∈ l, i.straight)
    {s : Proc n ρ} (h : Placed code s.pc (l ++ [.ret]) e) :
    run sp code (l.length + 1) s = some ((s.block sp l).ret sp) := by
  obtain ⟨m, hblock, next, hcode, -⟩ := h.append
  rw [run_add, run_block sp hl hblock, Option.bind_some, run, step, hcode, Option.map_some,
    Option.bind_some, run]
  rfl

/-- A block that ends in a call: it arrives at the function, with the address after the call on the
    stack. -/
theorem run_block_call {code : Code n ρ} {e : Word n} {l : List (Insn n ρ)} {r : ρ}
    (hl : ∀ i ∈ l, i.straight) {s : Proc n ρ} (h : Placed code s.pc (l ++ [.call r]) e) :
    run sp code (l.length + 1) s
      = some { (s.block sp l).pushWord sp e with pc := (s.block sp l).reg r } := by
  obtain ⟨m, hblock, next, hcode, hnext⟩ := h.append
  have hnext' : next = e := hnext
  rw [run_add, run_block sp hl hblock, Option.bind_some, run, step, hcode, Option.map_some,
    Option.bind_some, run, hnext']
  rfl

/-! ## Single moves -/

section Moves

variable {s : Proc n ρ} {r r' base : ρ} {o a : Nat}

theorem Proc.effect_load (h : s.addr o base = a) :
    s.effect sp (.mov (.at_ o base) (.reg r)) = { s with reg := Function.update s.reg r (load n s.mem a) } := by
  rw [effect, fetch, put, h]

theorem Proc.effect_store (h : s.addr o base = a) :
    s.effect sp (.mov (.reg r) (.at_ o base)) = { s with mem := store n s.mem a (s.reg r) } := by
  rw [effect, fetch, put, h]

end Moves

end Machine

/-! ## Saves and loads -/

section Records

variable {n : Nat} {ρ : Type}

/-- Words stored one after the other, at offsets from `a`. -/
def storeAll (b : Bytes) (a : Nat) (l : List (Nat × Word n)) : Bytes :=
  l.foldl (fun b x => store n b (a + x.1) x.2) b

/-- Offsets at which words do not overlap. -/
def Separate (n : Nat) (l : List Nat) : Prop := l.Pairwise fun x y => x + n ≤ y ∨ y + n ≤ x

instance instDecidableSeparate (n : Nat) (l : List Nat) : Decidable (Separate n l) :=
  inferInstanceAs (Decidable (l.Pairwise _))

variable {b : Bytes} {a size i : Nat} {l : List (Nat × Word n)}

@[simp] theorem storeAll_nil : storeAll (n := n) b a [] = b := rfl

theorem storeAll_cons (x : Nat × Word n) :
    storeAll b a (x :: l) = storeAll (store n b (a + x.1) x.2) a l := rfl

theorem storeAll_append (l' : List (Nat × Word n)) :
    storeAll b a (l ++ l') = storeAll (storeAll b a l) a l' := List.foldl_append

/-- The bytes outside the record stay. -/
theorem storeAll_of_not (hsize : ∀ x ∈ l, x.1 + n ≤ size) (h : ¬ (a ≤ i ∧ i < a + size)) :
    storeAll b a l i = b i := by
  induction l generalizing b with
  | nil => rfl
  | cons x l ih =>
    have hx := hsize x List.mem_cons_self
    rw [storeAll_cons, ih fun y hy => hsize y (List.mem_cons_of_mem x hy)]
    exact store_of_not (by omega)

theorem load_storeAll_of_disjoint (hsize : ∀ x ∈ l, x.1 + n ≤ size) {a' : Nat}
    (h : a' + n ≤ a ∨ a + size ≤ a') : load n (storeAll b a l) a' = load n b a' :=
  load_congr fun i hi => storeAll_of_not hsize (by omega)

/-- A word of the record that is not stored stays. -/
theorem load_storeAll_of_separate {o : Nat} (h : ∀ x ∈ l, o + n ≤ x.1 ∨ x.1 + n ≤ o) :
    load n (storeAll b a l) (a + o) = load n b (a + o) := by
  induction l generalizing b with
  | nil => rfl
  | cons x l ih =>
    have hx := h x List.mem_cons_self
    rw [storeAll_cons, ih fun y hy => h y (List.mem_cons_of_mem x hy)]
    exact load_store_of_disjoint (by omega)

/-- Each word of the record is loaded as it was stored. -/
theorem load_storeAll (hsep : Separate n (l.map Prod.fst)) {x : Nat × Word n} (hx : x ∈ l) :
    load n (storeAll b a l) (a + x.1) = x.2 := by
  induction l generalizing b with
  | nil => cases hx
  | cons y l ih =>
    obtain ⟨hy, hsep⟩ := List.pairwise_cons.mp hsep
    rw [storeAll_cons]
    rcases List.mem_cons.mp hx with rfl | hx
    · rw [load_storeAll_of_separate fun z hz => hy z.1 (List.mem_map_of_mem hz), load_store]
    · exact ih hsep hx

end Records

section Blocks

variable {n : Nat} {ρ : Type} [DecidableEq ρ] (sp base : ρ)

/-- Registers stored at offsets from where `base` points. -/
def saves (l : List (ρ × Nat)) : List (Insn n ρ) := l.map fun x => .mov (.reg x.1) (.at_ x.2 base)

/-- Registers loaded from offsets from where `base` points. -/
def loads (l : List (ρ × Nat)) : List (Insn n ρ) := l.map fun x => .mov (.at_ x.2 base) (.reg x.1)

theorem block_saves {s : Proc n ρ} {l : List (ρ × Nat)}
    (h : ∀ x ∈ l, (s.reg base).toNat + x.2 < 2 ^ (8 * n)) :
    s.block sp (saves base l)
      = { s with mem := storeAll s.mem (s.reg base).toNat (l.map fun x => (x.2, s.reg x.1)) } := by
  induction l generalizing s with
  | nil => rfl
  | cons x l ih =>
    have haddr := Proc.addr_eq (h x List.mem_cons_self)
    rw [saves, List.map_cons, Proc.block_cons]
    rw [Proc.effect_store sp haddr]
    exact ih fun y hy => h y (List.mem_cons_of_mem x hy)

/-- The registers after a block of loads. -/
def loaded (b : Bytes) (a : Nat) (f : ρ → Word n) (l : List (ρ × Nat)) : ρ → Word n :=
  l.foldl (fun f x => Function.update f x.1 (load n b (a + x.2))) f

theorem block_loads {s : Proc n ρ} {l : List (ρ × Nat)}
    (h : ∀ x ∈ l, x.1 ≠ base ∧ (s.reg base).toNat + x.2 < 2 ^ (8 * n)) :
    s.block sp (loads base l) = { s with reg := loaded s.mem (s.reg base).toNat s.reg l } := by
  induction l generalizing s with
  | nil => rfl
  | cons x l ih =>
    obtain ⟨hne, hfit⟩ := h x List.mem_cons_self
    -- the state after the first load; `base` still points to the record in it
    obtain ⟨s', hs'⟩ : ∃ s' : Proc n ρ, s' = { s with
        reg := Function.update s.reg x.1 (load n s.mem ((s.reg base).toNat + x.2)) } := ⟨_, rfl⟩
    have heffect : s.effect sp (.mov (.at_ x.2 base) (.reg x.1)) = s' := by
      rw [Proc.effect_load sp (Proc.addr_eq hfit), hs']
    have hbase : s'.reg base = s.reg base := by
      rw [hs']
      exact Function.update_of_ne hne.symm _ s.reg
    have hrest := ih (s := s') fun y hy => by
      rw [hbase]
      exact h y (List.mem_cons_of_mem x hy)
    rw [loads, List.map_cons, Proc.block_cons, heffect]
    refine hrest.trans ?_
    rw [hbase, hs']
    rfl

variable {b : Bytes} {a : Nat} {f : ρ → Word n} {l : List (ρ × Nat)}

theorem loaded_of_not_mem {r : ρ} (h : ∀ x ∈ l, x.1 ≠ r) : loaded b a f l r = f r := by
  induction l generalizing f with
  | nil => rfl
  | cons x l ih =>
    rw [loaded, List.foldl_cons]
    refine (ih fun y hy => h y (List.mem_cons_of_mem x hy)).trans ?_
    exact Function.update_of_ne (h x List.mem_cons_self).symm _ _

/-- Each register of the list holds its word, when no register is loaded twice. -/
theorem loaded_of_mem (hnodup : (l.map Prod.fst).Nodup) {x : ρ × Nat} (hx : x ∈ l) :
    loaded b a f l x.1 = load n b (a + x.2) := by
  induction l generalizing f with
  | nil => cases hx
  | cons y l ih =>
    obtain ⟨hy, hnodup⟩ := List.nodup_cons.mp hnodup
    rw [loaded, List.foldl_cons]
    rcases List.mem_cons.mp hx with rfl | hx
    · refine (loaded_of_not_mem fun z hz hne => hy ?_).trans ?_
      · exact hne ▸ List.mem_map_of_mem hz
      · exact Function.update_self _ _ _
    · exact ih hnodup hx

end Blocks

end Nachos.Asm
