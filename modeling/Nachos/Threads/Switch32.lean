/-
  The context switch for 32-bit hosts: SWITCH and ThreadRoot of `switch.s`, instruction by instruction.

  Here the arguments are on the stack, and no register is free to hold them: SWITCH keeps `eax` in a
  global variable, `_eax_save`, and works with `eax` as a pointer to the objects.  The return address of
  the thread it goes on with is ALREADY on that one's stack; the copy SWITCH makes of it (`movl
  %eax,4(%esp)`) goes to the word above, where the thread had the argument `t1` of its own call.  So a
  thread gets back its registers and its place in the code, and a changed argument word.

  1. **The code**, as it stands in `switch.s`, with the offsets of `switch.h`.
  2. **One call of SWITCH** does to the running thread nothing but a return (`run_switch`).
  3. **All runs**: one processor with SWITCH is as good as a processor for each thread.
  4. **ThreadRoot**: a new thread calls InterruptEnable, its function with its argument, and ThreadFinish.
-/
import Nachos.Threads.Switch

namespace Nachos.Switch.I386

open Asm Asm.Operand Asm.Insn

/-! ## The code -/

/-- The registers. -/
inductive Reg where
  | eax | ebx | ecx | edx | esi | edi | ebp | esp
  deriving DecidableEq

/-- `_ESP`, `_EAX`, …: the offsets from the beginning of the Thread object. -/
def offset : Reg → Nat
  | .esp => 0
  | .eax => 4
  | .ebx => 8
  | .ecx => 12
  | .edx => 16
  | .ebp => 20
  | .esi => 24
  | .edi => 28

/-- `_PC`. -/
def pcOffset : Nat := 32

/-- The host, with the registers of `StartupPCState` and its like. -/
def host : Host 4 Reg where
  sp := .esp
  offset := offset
  pc := pcOffset
  startup := .ecx
  initialPC := .esi
  initialArg := .edx
  whenDone := .edi
  words := 3

variable (eaxSave : Word 4)

/-- SWITCH up to where it has saved everything. -/
def saveCode : List (Insn 4 Reg) :=
  [ mov (reg .eax) (fixed eaxSave),
    mov (at_ 4 .esp) (reg .eax),
    mov (reg .ebx) (at_ (offset .ebx) .eax),
    mov (reg .ecx) (at_ (offset .ecx) .eax),
    mov (reg .edx) (at_ (offset .edx) .eax),
    mov (reg .esi) (at_ (offset .esi) .eax),
    mov (reg .edi) (at_ (offset .edi) .eax),
    mov (reg .ebp) (at_ (offset .ebp) .eax),
    mov (reg .esp) (at_ (offset .esp) .eax),
    mov (fixed eaxSave) (reg .ebx),
    mov (reg .ebx) (at_ (offset .eax) .eax),
    mov (at_ 0 .esp) (reg .ebx),
    mov (reg .ebx) (at_ pcOffset .eax) ]

/-- SWITCH from there to its `ret`. -/
def restoreCode : List (Insn 4 Reg) :=
  [ mov (at_ 8 .esp) (reg .eax),
    mov (at_ (offset .eax) .eax) (reg .ebx),
    mov (reg .ebx) (fixed eaxSave),
    mov (at_ (offset .ebx) .eax) (reg .ebx),
    mov (at_ (offset .ecx) .eax) (reg .ecx),
    mov (at_ (offset .edx) .eax) (reg .edx),
    mov (at_ (offset .esi) .eax) (reg .esi),
    mov (at_ (offset .edi) .eax) (reg .edi),
    mov (at_ (offset .ebp) .eax) (reg .ebp),
    mov (at_ (offset .esp) .eax) (reg .esp),
    mov (at_ pcOffset .eax) (reg .eax),
    mov (reg .eax) (at_ 4 .esp),
    mov (fixed eaxSave) (reg .eax) ]

/-- SWITCH. -/
def switchCode : List (Insn 4 Reg) := (saveCode eaxSave ++ restoreCode eaxSave) ++ [ret]

/-- ThreadRoot. -/
def threadRootCode : List (Insn 4 Reg) :=
  [ push .ebp,
    mov (reg .esp) (reg .ebp),
    push .edx,
    call .ecx,
    call .esi,
    call .edi,
    mov (reg .ebp) (reg .esp),
    pop .ebp,
    ret ]

/-- The code of the thread package: SWITCH and ThreadRoot stand where their symbols point. -/
structure Linked (code : Code 4 Reg) (Y : Symbols 4) : Prop where
  switch : ∃ e, Placed code Y.switch (switchCode eaxSave) e
  threadRoot : ∃ e, Placed code Y.threadRoot threadRootCode e

theorem host_ok : host.Ok where
  words := by decide
  sp := rfl
  offset := by intro r; cases r <;> decide
  pc := by decide
  apart := by
    intro r r' hne
    cases r <;> cases r' <;> first | exact absurd rfl hne | (simp only [host, offset, Apart]; omega)
  pc_apart := by intro r; cases r <;> (simp only [host, offset, pcOffset, Apart]; omega)
  distinct := by decide

/-! ## One call of SWITCH -/

section Call

variable {θ : Type} (L : Layout 4 θ) (Y : Symbols 4)

/-- `_eax_save` is not in a Thread object or on a stack. -/
structure Scratch : Prop where
  obj : ∀ t, Apart eaxSave.toNat 4 (L.obj t).toNat (objectSize 4)
  stack : ∀ t, Apart eaxSave.toNat 4 (L.stack t).toNat (L.size t)

/-- The running thread `c` is at the entry of SWITCH(c, t). -/
structure Entry (c t : θ) (k : Context 4 Reg) (m : Bytes) : Prop where
  pc : k.pc = Y.switch
  old : load 4 m ((k.reg .esp).toNat + 4) = L.obj c
  new : load 4 m ((k.reg .esp).toNat + 8) = L.obj t
  onStack : OnStack host L c (k.reg .esp).toNat

/-- The bytes SWITCH changes: `stackTop` and `machineState` of the caller, `_eax_save`, and the argument
    word of the thread it goes on with. -/
def frame (c t : θ) (m : Bytes) : Set Nat := fun i =>
  ((L.obj c).toNat ≤ i ∧ i < (L.obj c).toNat + (1 + machineStateSize) * 4) ∨
    (eaxSave.toNat ≤ i ∧ i < eaxSave.toNat + 4) ∨
    ((field L m t 0).toNat + 4 ≤ i ∧ i < (field L m t 0).toNat + 8)

/-- The registers SWITCH stores and loads while it works with `eax`. -/
def moved : List (Reg × Nat) :=
  [(.ebx, 8), (.ecx, 12), (.edx, 16), (.esi, 24), (.edi, 28), (.ebp, 20), (.esp, 0)]

theorem saveCode_eq : saveCode eaxSave
    = [mov (reg .eax) (fixed eaxSave), mov (at_ 4 .esp) (reg .eax)] ++ (saves .eax moved ++
      [mov (fixed eaxSave) (reg .ebx), mov (reg .ebx) (at_ (offset .eax) .eax), mov (at_ 0 .esp) (reg .ebx),
        mov (reg .ebx) (at_ pcOffset .eax)]) := rfl

theorem restoreCode_eq : restoreCode eaxSave
    = [mov (at_ 8 .esp) (reg .eax), mov (at_ (offset .eax) .eax) (reg .ebx), mov (reg .ebx) (fixed eaxSave)] ++
      (loads .eax moved ++
        [mov (at_ pcOffset .eax) (reg .eax), mov (reg .eax) (at_ 4 .esp), mov (fixed eaxSave) (reg .eax)]) := rfl

theorem straight_switch : ∀ i ∈ saveCode eaxSave ++ restoreCode eaxSave, i.straight := by
  simp [saveCode, restoreCode, Insn.straight]

/-- What SWITCH stores in the object of the caller. -/
def savedFields (s : Proc 4 Reg) : List (Nat × Word 4) :=
  moved.map (fun x => (x.2, s.reg x.1)) ++ [(offset .eax, s.reg .eax), (pcOffset, s.top .esp)]

theorem savedFields_separate (s : Proc 4 Reg) : Separate 4 ((savedFields s).map Prod.fst) := by
  show Separate 4 [8, 12, 16, 24, 28, 20, 0, 4, 32]
  decide

theorem savedFields_fits (s : Proc 4 Reg) : ∀ x ∈ savedFields s, x.1 + 4 ≤ (1 + machineStateSize) * 4 := by
  have hfst : ∀ o ∈ (savedFields s).map Prod.fst, o + 4 ≤ (1 + machineStateSize) * 4 := by
    show ∀ o ∈ [8, 12, 16, 24, 28, 20, 0, 4, 32], _
    decide
  exact fun x hx => hfst x.1 (List.mem_map_of_mem hx)

theorem mem_savedFields (s : Proc 4 Reg) (r : Reg) : (offset r, s.reg r) ∈ savedFields s := by
  cases r <;> simp [savedFields, moved, offset]

theorem mem_savedFields_pc (s : Proc 4 Reg) : (pcOffset, s.top .esp) ∈ savedFields s := by
  simp [savedFields, moved, pcOffset]

theorem mem_moved {r : Reg} (hr : r ≠ .eax) : (r, offset r) ∈ moved := by
  cases r with
  | eax => exact absurd rfl hr
  | _ => decide

/-- The memory after the first half of SWITCH. -/
def savedMem (c : θ) (s : Proc 4 Reg) : Bytes :=
  storeAll (store 4 s.mem eaxSave.toNat (s.reg .eax)) (L.obj c).toNat (savedFields s)

section Halves

variable {eaxSave L} {m b : Bytes} {c t : θ} {v : Word 4} {a : Nat} {l : List (Nat × Word 4)}

/-- What is on a stack does not change when SWITCH stores in `_eax_save` and in an object. -/
theorem Scratch.load_stack (h : Scratch eaxSave L) (ha : (L.stack t).toNat ≤ a ∧ a + 4 ≤ (L.stack t).toNat + L.size t)
    (hl : ∀ x ∈ l, x.1 + 4 ≤ (1 + machineStateSize) * 4) :
    load 4 (storeAll (store 4 m eaxSave.toNat v) (L.obj c).toNat l) a = load 4 m a := by
  have hobj := L.obj_stack_apart c t
  have hstack := h.stack t
  have hsize : objectSize 4 = (1 + machineStateSize) * 4 + 4 := rfl
  simp only [Apart] at hobj hstack
  rw [load_storeAll_of_disjoint hl (by omega), load_store_of_disjoint (by omega)]

/-- What SWITCH keeps in `_eax_save` stays there while it stores in an object. -/
theorem Scratch.load_eaxSave (h : Scratch eaxSave L) (hl : ∀ x ∈ l, x.1 + 4 ≤ (1 + machineStateSize) * 4) :
    load 4 (storeAll (store 4 m eaxSave.toNat v) (L.obj c).toNat l) eaxSave.toNat = v := by
  have hobj := h.obj c
  have hsize : objectSize 4 = (1 + machineStateSize) * 4 + 4 := rfl
  simp only [Apart] at hobj
  rw [load_storeAll_of_disjoint hl (by omega), load_store]

/-- A word of the frame of the call. -/
theorem addr_stack {top : Word 4} (hon : OnStack host L c top.toNat) {o : Nat} (ho : o + 4 ≤ 12) :
    (top + BitVec.ofNat (8 * 4) o).toNat = top.toNat + o ∧
      (L.stack c).toNat ≤ top.toNat + o ∧ top.toNat + o + 4 ≤ (L.stack c).toNat + L.size c := by
  have hfits := L.stack_fits c
  obtain ⟨hlow, hhigh⟩ := hon
  simp only [host] at hhigh
  exact ⟨toNat_add_ofNat (by omega), by omega, by omega⟩

/-- A word of the object. -/
theorem addr_field (t : θ) {o : Nat} (ho : o < objectSize 4) :
    (L.obj t + BitVec.ofNat (8 * 4) o).toNat = (L.obj t).toNat + o := by
  have hfits := L.obj_fits t
  exact toNat_add_ofNat (by omega)

/-- The first half of SWITCH. -/
theorem block_save (h : Scratch eaxSave L) {s : Proc 4 Reg}
    (hold : load 4 s.mem ((s.reg .esp).toNat + 4) = L.obj c) (hon : OnStack host L c (s.reg .esp).toNat) :
    s.block .esp (saveCode eaxSave)
      = { s with
            reg := Function.update (Function.update s.reg .eax (L.obj c)) .ebx (s.top .esp),
            mem := savedMem eaxSave L c s } := by
  obtain ⟨-, hstack0⟩ := addr_stack hon (o := 0) (by omega)
  obtain ⟨haddr4, hstack4⟩ := addr_stack hon (o := 4) (by omega)
  have hfirst : s.block .esp [mov (reg .eax) (fixed eaxSave), mov (at_ 4 .esp) (reg .eax)]
      = { s with
            reg := Function.update s.reg .eax (L.obj c),
            mem := store 4 s.mem eaxSave.toNat (s.reg .eax) } := by
    have hload := h.load_stack (m := s.mem) (v := s.reg .eax) (c := c) (l := []) hstack4 (by simp)
    rw [storeAll_nil, hold] at hload
    simp only [Proc.block_cons, Proc.block_nil, Proc.effect, Proc.put, Proc.fetch, Proc.addr, haddr4, hload]
  -- `eax` points to the object of the caller
  have hsaves : Proc.block .esp
      { s with reg := Function.update s.reg .eax (L.obj c), mem := store 4 s.mem eaxSave.toNat (s.reg .eax) }
      (saves .eax moved)
      = { s with
            reg := Function.update s.reg .eax (L.obj c),
            mem := storeAll (store 4 s.mem eaxSave.toNat (s.reg .eax)) (L.obj c).toNat
              (moved.map fun x => (x.2, s.reg x.1)) } := by
    refine (block_saves Reg.esp Reg.eax fun x hx => ?_).trans ?_
    · have hx' : x.2 < 40 := by revert x; decide
      have hfits := L.obj_fits c
      have hsize : objectSize 4 = 76 := rfl
      simp only [Function.update_self]
      omega
    · simp only [Function.update_self, moved, List.map_cons, List.map_nil, Function.update_apply, reduceCtorEq,
        if_false]
  have hmoved : ∀ x ∈ moved.map (fun x => (x.2, s.reg x.1)), x.1 + 4 ≤ (1 + machineStateSize) * 4 :=
    fun x hx => savedFields_fits s x (List.mem_append_left _ hx)
  have heax := h.load_eaxSave (m := s.mem) (v := s.reg .eax) (c := c) hmoved
  have hret := h.load_stack (m := s.mem) (v := s.reg .eax) (c := c)
    (l := moved.map (fun x => (x.2, s.reg x.1)) ++ [(offset .eax, s.reg .eax)]) hstack0 fun x hx => by
      refine savedFields_fits s x (?_ : x ∈ moved.map _ ++ ([_] ++ [_]))
      rw [← List.append_assoc]
      exact List.mem_append_left _ hx
  rw [storeAll_append, storeAll_cons, storeAll_nil, Nat.add_zero] at hret
  rw [saveCode_eq, Proc.block_append, hfirst, Proc.block_append, hsaves]
  simp only [Proc.block_cons, Proc.block_nil, Proc.effect, Proc.put, Proc.fetch, Proc.addr, Function.update_apply,
    reduceCtorEq, if_true, if_false, BitVec.add_zero, heax, addr_field (L := L) c (o := offset .eax) (by decide),
    addr_field (L := L) c (o := pcOffset) (by decide)]
  rw [hret, Function.update_idem, savedMem, savedFields, storeAll_append]
  rfl

/-- The second half of SWITCH, with its return: it loads what is saved of the other thread. -/
theorem ret_block_restore (h : Scratch eaxSave L) {s : Proc 4 Reg}
    (hnew : load 4 s.mem ((s.reg .esp).toNat + 8) = L.obj t)
    (hon : OnStack host L c (s.reg .esp).toNat) (hsound : Sound host L s.mem t) :
    (s.block .esp (restoreCode eaxSave)).ret .esp
      = { s with
            reg := (saved host L s.mem t).reg,
            pc := (saved host L s.mem t).pc,
            mem := store 4 (store 4 s.mem eaxSave.toNat (field L s.mem t (offset .eax)))
              ((field L s.mem t 0).toNat + 4) (field L s.mem t pcOffset) } := by
  obtain ⟨haddr8, -⟩ := addr_stack hon (o := 8) (by omega)
  obtain ⟨haddrt, hstackt⟩ := addr_stack hsound.onStack (o := 4) (by omega)
  obtain ⟨-, hstackt0⟩ := addr_stack hsound.onStack (o := 0) (by omega)
  have hsp : field L s.mem t (host.offset host.sp) = field L s.mem t 0 := rfl
  -- what is in the object is not in `_eax_save`
  obtain ⟨m1, hm1⟩ : ∃ m1, m1 = store 4 s.mem eaxSave.toNat (field L s.mem t (offset .eax)) := ⟨_, rfl⟩
  have hfield (o : Nat) (ho : o + 4 ≤ (1 + machineStateSize) * 4) :
      load 4 m1 ((L.obj t).toNat + o) = field L s.mem t o := by
    have hobj := h.obj t
    have hsize : objectSize 4 = (1 + machineStateSize) * 4 + 4 := rfl
    simp only [Apart] at hobj
    rw [hm1]
    exact load_store_of_disjoint (by omega)
  have hfirst : s.block .esp [mov (at_ 8 .esp) (reg .eax), mov (at_ (offset .eax) .eax) (reg .ebx),
      mov (reg .ebx) (fixed eaxSave)]
      = { s with
            reg := Function.update (Function.update s.reg .eax (L.obj t)) .ebx (field L s.mem t (offset .eax)),
            mem := m1 } := by
    simp only [Proc.block_cons, Proc.block_nil, Proc.effect, Proc.put, Proc.fetch, Proc.addr, haddr8, hnew,
      Function.update_apply, if_true, addr_field (L := L) t (o := offset .eax) (by decide), hm1]
    rfl
  obtain ⟨f, hf⟩ : ∃ f, f = loaded m1 (L.obj t).toNat
      (Function.update (Function.update s.reg .eax (L.obj t)) .ebx (field L s.mem t (offset .eax))) moved := ⟨_, rfl⟩
  have hloads : Proc.block .esp
      { s with
          reg := Function.update (Function.update s.reg .eax (L.obj t)) .ebx (field L s.mem t (offset .eax)),
          mem := m1 } (loads .eax moved) = { s with reg := f, mem := m1 } := by
    refine (block_loads Reg.esp Reg.eax fun x hx => ?_).trans ?_
    · have hx' : x.1 ≠ .eax ∧ x.2 < 40 := by revert x; decide
      have hfits := L.obj_fits t
      have hsize : objectSize 4 = 76 := rfl
      simp only [Function.update_apply, reduceCtorEq, if_true, if_false]
      exact ⟨hx'.1, by omega⟩
    · simp only [Function.update_apply, reduceCtorEq, if_true, if_false, hf]
  have heax : f .eax = L.obj t := by
    rw [hf, loaded_of_not_mem (by decide)]
    simp only [Function.update_apply, reduceCtorEq, if_true, if_false]
  have hload (r : Reg) (hr : r ≠ .eax) : f r = field L s.mem t (offset r) := by
    have hmem : (r, offset r) ∈ moved := mem_moved hr
    have hval : f r = load 4 m1 ((L.obj t).toNat + offset r) := by
      rw [hf]
      exact loaded_of_mem (by decide) hmem
    exact hval.trans (hfield _ (host_ok.offset r))
  have hesp : f .esp = field L s.mem t 0 := hload .esp (by decide)
  -- the argument word is neither in `_eax_save` nor where the return address is
  have hstack := h.stack t
  simp only [Apart] at hstack
  rw [hsp] at hstackt hstackt0 haddrt
  have hback : load 4 (store 4 m1 ((field L s.mem t 0).toNat + 4) (field L s.mem t pcOffset)) eaxSave.toNat
      = field L s.mem t (offset .eax) := by
    rw [load_store_of_disjoint (by omega), hm1, load_store]
  have hret : load 4 (store 4 m1 ((field L s.mem t 0).toNat + 4) (field L s.mem t pcOffset)) (field L s.mem t 0).toNat
      = field L s.mem t pcOffset := by
    rw [load_store_of_disjoint (by omega), hm1, load_store_of_disjoint (by omega)]
    exact hsound.ret
  rw [restoreCode_eq, Proc.block_append, hfirst, Proc.block_append, hloads]
  simp only [Proc.block_cons, Proc.block_nil, Proc.effect, Proc.put, Proc.fetch, Proc.addr, Proc.ret, Proc.dropWord,
    Proc.top, Function.update_apply, reduceCtorEq, if_true, if_false, heax, hesp, haddrt,
    addr_field (L := L) t (o := pcOffset) (by decide), hfield pcOffset (by decide), hback, hret, ← hm1]
  refine congrArg (fun g => Proc.mk g (field L s.mem t pcOffset) _) (funext fun r => ?_)
  simp only [saved, host, Function.update_apply]
  by_cases hresp : r = .esp
  · rw [if_pos hresp, if_pos hresp, offset]
  rw [if_neg hresp, if_neg hresp]
  by_cases hreax : r = .eax
  · rw [if_pos hreax, hreax]
  rw [if_neg hreax, if_neg hreax]
  exact hload r hreax

end Halves

section OneCall

variable {eaxSave L Y} {code : Code 4 Reg} {c t : θ} {k : Context 4 Reg} {m : Bytes}

/-- The first half of SWITCH writes to the object of the caller and to `_eax_save`. -/
theorem savedMem_of_not {i : Nat} (hobj : ¬ ((L.obj c).toNat ≤ i ∧ i < (L.obj c).toNat + (1 + machineStateSize) * 4))
    (hsave : ¬ (eaxSave.toNat ≤ i ∧ i < eaxSave.toNat + 4)) : savedMem eaxSave L c (k.cpu m) i = m i := by
  rw [savedMem, storeAll_of_not (savedFields_fits _) hobj]
  exact store_of_not hsave

/-- `_eax_save` is no byte of a thread. -/
theorem Scratch.not_own (h : Scratch eaxSave L) {i : Nat} (hi : i ∈ own L t) :
    ¬ (eaxSave.toNat ≤ i ∧ i < eaxSave.toNat + 4) := by
  have hobj := h.obj t
  have hstack := h.stack t
  simp only [Apart] at hobj hstack
  rcases hi with hi | hi <;> omega

/-- The object of another thread is none either. -/
theorem not_obj_of_own (hne : c ≠ t) {i : Nat} (hi : i ∈ own L t) :
    ¬ ((L.obj c).toNat ≤ i ∧ i < (L.obj c).toNat + (1 + machineStateSize) * 4) := by
  intro hobj
  have hsize : objectSize 4 = (1 + machineStateSize) * 4 + 4 := rfl
  exact own_disjoint L hne i (Or.inl ⟨hobj.1, by omega⟩) hi

theorem savedMem_of_own (h : Scratch eaxSave L) (hne : c ≠ t) :
    ∀ i ∈ own L t, savedMem eaxSave L c (k.cpu m) i = m i :=
  fun _ hi => savedMem_of_not (not_obj_of_own hne hi) (h.not_own hi)

theorem field_savedMem (r : Reg) : field L (savedMem eaxSave L c (k.cpu m)) c (offset r) = k.reg r := by
  have hfield := load_storeAll (b := store 4 m eaxSave.toNat (k.reg .eax)) (a := (L.obj c).toNat)
    (savedFields_separate (k.cpu m)) (mem_savedFields (k.cpu m) r)
  exact hfield

theorem field_savedMem_pc :
    field L (savedMem eaxSave L c (k.cpu m)) c pcOffset = (k.cpu m).top .esp := by
  have hfield := load_storeAll (b := store 4 m eaxSave.toNat (k.reg .eax)) (a := (L.obj c).toNat)
    (savedFields_separate (k.cpu m)) (mem_savedFields_pc (k.cpu m))
  exact hfield

/-- What the first half of SWITCH saves is the context after a bare return. -/
theorem saved_savedMem (h : Scratch eaxSave L) (hon : OnStack host L c (k.reg .esp).toNat) :
    saved host L (savedMem eaxSave L c (k.cpu m)) c = context ((k.cpu m).ret .esp) ∧
      Sound host L (savedMem eaxSave L c (k.cpu m)) c := by
  obtain ⟨-, hstack⟩ := addr_stack hon (o := 0) (by omega)
  have hsp : field L (savedMem eaxSave L c (k.cpu m)) c (host.offset host.sp) = k.reg .esp := field_savedMem .esp
  have hret : load 4 (savedMem eaxSave L c (k.cpu m)) (k.reg .esp).toNat = (k.cpu m).top .esp :=
    h.load_stack hstack (savedFields_fits _)
  refine ⟨?_, ?_, ?_⟩
  · simp only [saved, host, field_savedMem, field_savedMem_pc]
    rfl
  · rw [hsp]
    exact hon
  · rw [hsp, hret]
    exact field_savedMem_pc.symm

/-- **One call of SWITCH**: it ends, with the context that was saved of the other thread.  What it saves
    of the caller is the context after a bare return. -/
theorem run_switch (h : Scratch eaxSave L) (hlink : Linked eaxSave code Y) (hne : c ≠ t)
    (hentry : Entry L Y c t k m) (hsound : Sound host L m t) :
    ∃ s, run .esp code 27 (k.cpu m) = some s ∧ context s = saved host L m t ∧
      saved host L s.mem c = context ((k.cpu m).ret .esp) ∧ Sound host L s.mem c ∧
      ∀ i, i ∉ frame eaxSave L c t m → s.mem i = m i := by
  obtain ⟨e, hplaced⟩ := hlink.switch
  obtain ⟨-, hstack8⟩ := addr_stack hentry.onStack (o := 8) (by omega)
  have hother := saved_congr host_ok hsound (savedMem_of_own (k := k) h hne)
  have hsp : field L (savedMem eaxSave L c (k.cpu m)) t 0 = field L m t 0 :=
    field_congr (by decide) (savedMem_of_own h hne)
  have hrun : run .esp code 27 (k.cpu m)
      = some (((k.cpu m).block .esp (saveCode eaxSave ++ restoreCode eaxSave)).ret .esp) :=
    run_block_ret Reg.esp (l := saveCode eaxSave ++ restoreCode eaxSave) (s := k.cpu m) (straight_switch eaxSave)
      (hentry.pc ▸ hplaced)
  -- the processor between the two halves
  obtain ⟨s, hs⟩ : ∃ s : Proc 4 Reg, s =
      ⟨Function.update (Function.update k.reg .eax (L.obj c)) .ebx ((k.cpu m).top .esp), k.pc,
        savedMem eaxSave L c (k.cpu m)⟩ := ⟨_, rfl⟩
  have hsave : (k.cpu m).block .esp (saveCode eaxSave) = s := (block_save h hentry.old hentry.onStack).trans hs.symm
  have hesp : s.reg .esp = k.reg .esp := by
    simp only [hs, Function.update_apply, reduceCtorEq, if_false]
  have hmem : s.mem = savedMem eaxSave L c (k.cpu m) := by rw [hs]
  have hnew : load 4 s.mem ((s.reg .esp).toNat + 8) = L.obj t := by
    rw [hmem, hesp]
    exact (h.load_stack hstack8 (savedFields_fits _)).trans hentry.new
  have hrestore := ret_block_restore h hnew (hesp ▸ hentry.onStack) (hmem ▸ hother.2)
  rw [hmem, hother.1, hsp] at hrestore
  rw [Proc.block_append, hsave, hrestore] at hrun
  -- the second half leaves the bytes of the caller alone
  obtain ⟨-, hstackt⟩ := addr_stack hsound.onStack (o := 4) (by omega)
  have hword (v w : Word 4) : ∀ i, i ∉ frame eaxSave L c t m →
      store 4 (store 4 (savedMem eaxSave L c (k.cpu m)) eaxSave.toNat v) ((field L m t 0).toNat + 4) w i = m i := by
    intro i hi
    have hi' := not_or.mp hi
    have hi'' := not_or.mp hi'.2
    rw [store_of_not (by omega), store_of_not hi''.1, savedMem_of_not hi'.1 hi''.1]
  have hcaller := saved_savedMem (m := m) h hentry.onStack
  have hown (v w : Word 4) : ∀ i ∈ own L c,
      store 4 (store 4 (savedMem eaxSave L c (k.cpu m)) eaxSave.toNat v) ((field L m t 0).toNat + 4) w i
        = savedMem eaxSave L c (k.cpu m) i := by
    intro i hi
    have hnot : ¬ ((field L m t 0).toNat + 4 ≤ i ∧ i < (field L m t 0).toNat + 4 + 4) := by
      intro hin
      have hsp' : field L m t (host.offset host.sp) = field L m t 0 := rfl
      rw [hsp'] at hstackt
      exact own_disjoint L hne i hi (Or.inr ⟨by omega, by omega⟩)
    rw [store_of_not hnot, store_of_not (h.not_own hi)]
  obtain ⟨hsaved, hsound'⟩ := saved_congr host_ok hcaller.2
    (hown (field L (savedMem eaxSave L c (k.cpu m)) t (offset .eax))
      (field L (savedMem eaxSave L c (k.cpu m)) t pcOffset))
  exact ⟨_, hrun, rfl, hsaved.trans hcaller.1, hsound', hword _ _⟩

end OneCall

end Call

/-! ## All runs -/

section Runs

variable {θ : Type} (L : Layout 4 θ) (Y : Symbols 4) (code : Code 4 Reg)

/-- The context switch of a 32-bit host. -/
def switcher : Switcher θ (Context 4 Reg) Nat UInt8 (Word 4 × Word 4) :=
  Switch.switcher host L Y code 27 (Entry L Y) (frame eaxSave L)

variable {eaxSave L Y code}

theorem lawful (h : Scratch eaxSave L) (hlink : Linked eaxSave code Y) : (switcher eaxSave L Y code).Lawful := by
  refine lawful_switcher host_ok (fun _ _ _ _ hne hentry hsound => run_switch h hlink hne hentry hsound) ?_
  intro c t u m hsound huc hut i hi hframe
  obtain ⟨-, hstack⟩ := addr_stack hsound.onStack (o := 4) (by omega)
  have hsp : field L m t (host.offset host.sp) = field L m t 0 := rfl
  rw [hsp] at hstack
  rcases hframe with hobj | hsave | hword
  · exact not_obj_of_own huc.symm hi hobj
  · exact h.not_own hi hsave
  · exact own_disjoint L hut i hi (Or.inr ⟨by omega, by omega⟩)

/-- **SWITCH multiplexes the processor.**  In every run of the threads of the kernel on one 32-bit
    processor, the processor and what SWITCH has left in the Thread objects are together a state of the
    machine that has a processor for EVERY thread, where SWITCH does nothing but return; and whatever the one
    does next (compute, SWITCH, create or delete a thread), the other does the same.  From each such state a
    call of SWITCH(c, t) ends after its 27 instructions with the eight registers and the program counter of
    `t`'s own processor; `c`'s own processor is then where a bare return leaves it, and the others are as they
    were.  The bytes it changes are in `c`'s object, in `_eax_save`, and in the word above the return address on
    `t`'s stack. -/
theorem switch_multiplexes_i386 [DecidableEq θ] (h : Scratch eaxSave L) (hlink : Linked eaxSave code Y)
    {s : Switcher.One θ (Context 4 Reg) Nat UInt8} (hs : (switcher eaxSave L Y code).one.Reach s) :
    (switcher eaxSave L Y code).many.Reach ((switcher eaxSave L Y code).view s) ∧
      (∀ e s', (switcher eaxSave L Y code).one.step s e s' →
        (switcher eaxSave L Y code).many.step ((switcher eaxSave L Y code).view s) e
          ((switcher eaxSave L Y code).view s')) ∧
      ∀ t ∈ s.live, s.cur ≠ t → Entry L Y s.cur t s.ctx s.mem →
        ∃ p, run .esp code 27 (s.ctx.cpu s.mem) = some p ∧
          ((switcher eaxSave L Y code).view s).ctx t = some (context p) ∧
          ((switcher eaxSave L Y code).view { s with ctx := context p, mem := p.mem, cur := t }).ctx
            = Function.update ((switcher eaxSave L Y code).view s).ctx s.cur
                (some (context ((s.ctx.cpu s.mem).ret .esp))) ∧
          ∀ i, i ∉ frame eaxSave L s.cur t s.mem → p.mem i = s.mem i := by
  have hlawful : (switcher eaxSave L Y code).Lawful := lawful h hlink
  refine ⟨hlawful.reach_many hs, fun e s' hstep => ?_, fun t hlive hne hentry => ?_⟩
  · exact hlawful.view_step (hlawful.ok_of_reach hs) hstep
  · exact run_goes_on hlawful hs hlive hne hentry

end Runs

/-! A kernel with two threads, where the first has just created the second and is about to switch to it. -/

def twoLayout : Layout 4 Bool where
  obj t := if t then 0x2000 else 0x1000
  stack t := if t then 0x200000 else 0x100000
  size _ := stackSize * 4
  room := by decide
  obj_fits := by decide
  stack_fits := by decide
  objs_apart := by decide
  stacks_apart := by decide
  obj_stack_apart := by decide

def twoSymbols : Symbols 4 := ⟨0x400000, 0x400100, 0x400200, 0x400300⟩

/-- `_eax_save`. -/
def twoEaxSave : Word 4 := 0x500000

def twoCode : Code 4 Reg := fun a =>
  if (a - twoSymbols.switch).toNat < 0x100 then lay twoSymbols.switch (switchCode twoEaxSave) a
  else lay twoSymbols.threadRoot threadRootCode a

theorem scratch_two : Scratch twoEaxSave twoLayout := ⟨by decide, by decide⟩

theorem linked_twoCode : Linked twoEaxSave twoCode twoSymbols := by
  have hswitch : (switchCode twoEaxSave).length = 27 := rfl
  have hroot : threadRootCode.length = 9 := rfl
  constructor
  · refine ⟨_, placed_of_lay (by decide) fun p hp => if_pos ?_⟩
    omega
  · refine ⟨_, placed_of_lay (by decide) fun p hp => if_neg ?_⟩
    rw [hroot] at hp
    simp only [twoSymbols] at hp ⊢
    bv_omega

def twoStart : Switcher.One Bool (Context 4 Reg) Nat UInt8 where
  ctx := { reg := fun r => if r = .esp then 0x102000 else 0, pc := 0x400000 }
  mem := store 4 (store 4 (fun _ => 0) 0x102004 0x1000) 0x102008 0x2000
  cur := false
  live := [false]

def twoForked : Switcher.One Bool (Context 4 Reg) Nat UInt8 :=
  { twoStart with
      mem := stackAllocate host twoLayout twoSymbols true (0x400400, 7) twoStart.mem,
      live := true :: twoStart.live }

theorem reach_twoForked : (switcher twoEaxSave twoLayout twoSymbols twoCode).one.Reach twoForked := by
  have hstart : (switcher twoEaxSave twoLayout twoSymbols twoCode).one.init twoStart := rfl
  exact .step (.init hstart) (.create (0x400400, 7) (by decide))

theorem entry_twoForked : Entry twoLayout twoSymbols false true twoForked.ctx twoForked.mem := by
  have harg : ∀ i, (0x102000 ≤ i ∧ i < 0x103000) → twoForked.mem i = twoStart.mem i := fun i hi =>
    stackAllocate_of_not_own host_ok fun h => by
      have hobj : (twoLayout.obj true).toNat = 0x2000 := rfl
      have hstack : (twoLayout.stack true).toNat = 0x200000 := rfl
      have hsize : objectSize 4 = 76 := rfl
      rcases h with h | h <;> omega
  have hesp : (twoForked.ctx.reg .esp).toNat = 0x102000 := rfl
  refine ⟨rfl, ?_, ?_, by decide, by decide⟩
  · rw [hesp]
    refine (load_congr fun i hi => harg _ (by omega)).trans ?_
    exact (load_store_of_disjoint (by omega)).trans load_store
  · rw [hesp]
    refine (load_congr fun i hi => harg _ (by omega)).trans ?_
    exact load_store

/-- The second thread goes on, and the first is where a bare return leaves it. -/
theorem switch_multiplexes_i386_two :
    ∃ p, run .esp twoCode 27 (twoForked.ctx.cpu twoForked.mem) = some p ∧
      ((switcher twoEaxSave twoLayout twoSymbols twoCode).view twoForked).ctx true = some (context p) ∧
      ((switcher twoEaxSave twoLayout twoSymbols twoCode).view
        { twoForked with ctx := context p, mem := p.mem, cur := true }).ctx false
          = some (context ((twoForked.ctx.cpu twoForked.mem).ret .esp)) := by
  obtain ⟨p, hrun, hctx, hreturns, -⟩ := (switch_multiplexes_i386 scratch_two linked_twoCode reach_twoForked).2.2 true
    (by decide) (by decide) entry_twoForked
  exact ⟨p, hrun, hctx, congrFun hreturns false⟩

/-! ## ThreadRoot -/

/-- A function of `args` arguments that was entered in `s` has returned in `s'`, as the calling convention
    wants it: to the address on the stack, with the registers it has to keep, and with what its caller has
    on the stack above the arguments, up to `hi`. -/
structure Returns (args hi : Nat) (s s' : Proc 4 Reg) : Prop where
  pc : s'.pc = s.top .esp
  sp : s'.reg .esp = s.reg .esp + BitVec.ofNat _ 4
  regs : ∀ r ∈ [Reg.ebx, .esi, .edi, .ebp], s'.reg r = s.reg r
  stack : ∀ i, (s.reg .esp).toNat + 4 + 4 * args ≤ i → i < hi → s'.mem i = s.mem i

/-- ThreadRoot up to its first call. -/
def toStartup : List (Insn 4 Reg) := [push .ebp, mov (reg .esp) (reg .ebp), push .edx]

section Root

variable {code : Code 4 Reg} {s : Proc 4 Reg} {e : Word 4} {top hi : Nat}

/-- ThreadRoot up to the call of StartupPC: the argument is on the stack. -/
theorem run_startup (hplaced : Placed code s.pc (toStartup ++ [call .ecx]) e)
    (htop : (s.reg .esp).toNat = top) (hroom : 12 ≤ top) :
    ∃ a, run .esp code 4 s = some a ∧ a.pc = s.reg .ecx ∧ (a.reg .esp).toNat = top - 12 ∧ a.top .esp = e ∧
      a.reg .esi = s.reg .esi ∧ a.reg .edi = s.reg .edi ∧ load 4 a.mem (top - 8) = s.reg .edx := by
  refine ⟨_, run_block_call Reg.esp (by decide) hplaced, ?_⟩
  have h1 : (s.reg .esp - BitVec.ofNat (8 * 4) 4).toNat = top - 4 := by
    rw [toNat_sub_ofNat (by omega), htop]
  have h2 : (s.reg .esp - BitVec.ofNat (8 * 4) 4 - BitVec.ofNat (8 * 4) 4).toNat = top - 8 := by
    rw [toNat_sub_ofNat (by omega), h1]
    omega
  have h3 : (s.reg .esp - BitVec.ofNat (8 * 4) 4 - BitVec.ofNat (8 * 4) 4 - BitVec.ofNat (8 * 4) 4).toNat
      = top - 12 := by
    rw [toNat_sub_ofNat (by omega), h2]
    omega
  simp only [toStartup, Proc.block_cons, Proc.block_nil, Proc.effect, Proc.put, Proc.fetch, Proc.pushWord, Proc.top,
    Function.update_apply, reduceCtorEq, if_true, if_false, h1, h2, h3, load_store, true_and]
  rw [load_store_of_disjoint (by omega), load_store]

/-- A call that follows the return from another one. -/
theorem run_call {r : Reg} (hplaced : Placed code s.pc [call r] e)
    (htop : (s.reg .esp).toNat + 8 = top) (hroom : 12 ≤ top) :
    ∃ a, run .esp code 1 s = some a ∧ a.pc = s.reg r ∧ (a.reg .esp).toNat = top - 12 ∧ a.top .esp = e ∧
      (∀ q, q ≠ .esp → a.reg q = s.reg q) ∧ load 4 a.mem (top - 8) = load 4 s.mem (top - 8) := by
  refine ⟨_, run_block_call Reg.esp (l := []) (by simp) hplaced, ?_⟩
  have h1 : (s.reg .esp - BitVec.ofNat (8 * 4) 4).toNat = top - 12 := by
    rw [toNat_sub_ofNat (by omega)]
    omega
  simp only [Proc.block_nil, Proc.pushWord, Proc.top, Function.update_apply, if_true, h1, load_store, true_and]
  refine ⟨fun q hq => if_neg hq, ?_⟩
  exact load_store_of_disjoint (by omega)

/-- What a thread that starts in `s` does: it calls `enable`, `func(arg)` and `finish`, in this order; `top`
    is the stack pointer it starts with. -/
def CallsInTurn (code : Code 4 Reg) (hi top : Nat) (enable func arg finish : Word 4) (s : Proc 4 Reg) : Prop :=
  ∃ a, run .esp code 4 s = some a ∧ a.pc = enable ∧ (a.reg .esp).toNat = top - 12 ∧ ∀ a', Returns 0 hi a a' →
    ∃ b, run .esp code 1 a' = some b ∧ b.pc = func ∧ (b.reg .esp).toNat = top - 12 ∧
      load 4 b.mem ((b.reg .esp).toNat + 4) = arg ∧
      ∀ b', Returns 1 hi b b' →
        ∃ c, run .esp code 1 b' = some c ∧ c.pc = finish ∧ (c.reg .esp).toNat = top - 12

/-- ThreadRoot, from its registers. -/
theorem threadRoot_calls {eaxSave : Word 4} {Y : Symbols 4} (hlink : Linked eaxSave code Y)
    (hpc : s.pc = Y.threadRoot) (htop : (s.reg .esp).toNat = top) (hroom : 12 ≤ top) (hhi : top ≤ hi) :
    CallsInTurn code hi top (s.reg .ecx) (s.reg .esi) (s.reg .edx) (s.reg .edi) s := by
  obtain ⟨end_, hplaced⟩ := hlink.threadRoot
  rw [← hpc] at hplaced
  obtain ⟨e1, h1, hplaced⟩ := Placed.append (l := toStartup ++ [call .ecx]) hplaced
  obtain ⟨e2, h2, hplaced⟩ := Placed.append (l := [call Reg.esi]) hplaced
  obtain ⟨e3, h3, -⟩ := Placed.append (l := [call Reg.edi]) hplaced
  have hback {a a' : Proc 4 Reg} {args : Nat} (ha' : Returns args hi a a') (hasp : (a.reg .esp).toNat = top - 12) :
      (a'.reg .esp).toNat + 8 = top := by
    rw [ha'.sp, toNat_add_ofNat (by omega)]
    omega
  obtain ⟨a, hrun, hapc, hasp, hatop, haesi, haedi, haarg⟩ := run_startup h1 htop hroom
  refine ⟨a, hrun, hapc, hasp, fun a' ha' => ?_⟩
  obtain ⟨b, hrunb, hbpc, hbsp, hbtop, hbregs, hbarg⟩ :=
    run_call (s := a') (by rw [ha'.pc, hatop]; exact h2) (hback ha' hasp) hroom
  have hword : load 4 a'.mem (top - 8) = load 4 a.mem (top - 8) :=
    load_congr fun i hi => ha'.stack _ (by omega) (by omega)
  refine ⟨b, hrunb, ?_, hbsp, ?_, fun b' hb' => ?_⟩
  · rw [hbpc, ha'.regs .esi (by decide), haesi]
  · rw [hbsp, show top - 12 + 4 = top - 8 by omega, hbarg, hword, haarg]
  obtain ⟨c, hrunc, hcpc, hcsp, -⟩ :=
    run_call (s := b') (by rw [hb'.pc, hbtop]; exact h3) (hback hb' hbsp) hroom
  refine ⟨c, hrunc, ?_, hcsp⟩
  rw [hcpc, hb'.regs .edi (by decide), hbregs .edi (by decide), ha'.regs .edi (by decide), haedi]

end Root

/-- **A new thread runs its function.**  In every run, when SWITCH goes on with a thread that is as
    StackAllocate(func, arg) left it, that thread calls InterruptEnable, then `func` with `arg` as its argument
    on the stack, and then ThreadFinish, each after the one before has returned. -/
theorem forked_thread_runs_i386 {θ : Type} [DecidableEq θ] {eaxSave : Word 4} {L : Layout 4 θ} {Y : Symbols 4}
    {code : Code 4 Reg} (hscratch : Scratch eaxSave L) (hlink : Linked eaxSave code Y)
    {s : Switcher.One θ (Context 4 Reg) Nat UInt8} (h : (switcher eaxSave L Y code).one.Reach s) {t : θ}
    (hlive : t ∈ s.live) (hne : s.cur ≠ t) (hentry : Entry L Y s.cur t s.ctx s.mem) {func arg : Word 4} {m : Bytes}
    (hnew : ((switcher eaxSave L Y code).view s).ctx t
      = some (saved host L (stackAllocate host L Y t (func, arg) m) t)) :
    ∃ p, run .esp code 27 (s.ctx.cpu s.mem) = some p ∧
      CallsInTurn code ((L.stack t).toNat + L.size t) ((L.stack t).toNat + (stackSize - 4) * 4)
        Y.interruptEnable func arg Y.threadFinish p := by
  obtain ⟨p, hp, hctx, -⟩ := run_goes_on (lawful hscratch hlink) h hlive hne hentry
  have hfresh : context p = fresh host L Y t (func, arg) m :=
    (Option.some.inj (hctx.symm.trans hnew)).trans (saved_stackAllocate host_ok)
  have hreg (r : Reg) : p.reg r = (fresh host L Y t (func, arg) m).reg r := congrArg (fun k => k.reg r) hfresh
  have hsp : (p.reg .esp).toNat = (L.stack t).toNat + (stackSize - 4) * 4 := by
    rw [hreg]
    exact toNat_fresh_sp (H := host)
  have hhi : (L.stack t).toNat + (stackSize - 4) * 4 ≤ (L.stack t).toNat + L.size t := by
    have hroom := L.room t
    simp only [stackSize] at hroom ⊢
    omega
  have hcalls := threadRoot_calls hlink (congrArg Context.pc hfresh : p.pc = Y.threadRoot) hsp
    (by simp only [stackSize]; omega) hhi
  rw [hreg, hreg, hreg, hreg] at hcalls
  exact ⟨p, hp, hcalls⟩

theorem forked_thread_runs_i386_two :
    ∃ p, run .esp twoCode 27 (twoForked.ctx.cpu twoForked.mem) = some p ∧
      CallsInTurn twoCode 0x204000 0x203ff0 0x400200 0x400400 7 0x400300 p :=
  forked_thread_runs_i386 (m := twoStart.mem) scratch_two linked_twoCode reach_twoForked (by decide)
    (by decide) entry_twoForked rfl

end Nachos.Switch.I386
