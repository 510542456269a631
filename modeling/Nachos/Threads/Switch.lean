/-
  Where a thread lies in the memory of the host, and what a context switch needs of that.

  This is the part of the thread package that knows the host: a Thread object starts with `stackTop` and
  `machineState`, at the offsets `switch.h` gives to the registers of the host, and `StackAllocate`
  fills them so that a switch to the new thread arrives at ThreadRoot.  The host is a parameter (`Host`);
  the code for the one that `Makefile.dep` selects is in `Switch32`.

  1. **Layout**: objects and stacks of different threads do not overlap.
  2. **What is saved**: the context in a Thread object, and when it is in order.
  3. **StackAllocate**: a new thread is in order, and its context is the one ThreadRoot starts from.
  4. **A switch**, as a `Switcher`: what is left to show for a host is what its code does at one call.
-/
import Nachos.Lib.Asm
import Nachos.Lib.Coroutine

namespace Nachos.Switch

open Asm

/-! ## Layout -/

/-- StackSize, in words. -/
def stackSize : Nat := 4 * 1024

/-- MachineStateSize, in words. -/
def machineStateSize : Nat := 17

/-- STACK_FENCEPOST. -/
def stackFencepost : Nat := 0xdeadbeef

/-- The bytes of a Thread object up to and including `stack`: `stackTop`, `machineState`, `stack`. -/
def objectSize (n : Nat) : Nat := (1 + machineStateSize + 1) * n

/-- Two pieces of memory that do not overlap. -/
def Apart (a k b l : Nat) : Prop := a + k ≤ b ∨ b + l ≤ a

instance instDecidableApart (a k b l : Nat) : Decidable (Apart a k b l) :=
  inferInstanceAs (Decidable (a + k ≤ b ∨ b + l ≤ a))

/-- Where the Thread objects and the stacks are. -/
structure Layout (n : Nat) (θ : Type) where
  /-- The Thread object. -/
  obj : θ → Word n
  /-- The lowest address of the stack. -/
  stack : θ → Word n
  /-- The bytes of the stack. -/
  size : θ → Nat
  room : ∀ t, stackSize * n ≤ size t
  obj_fits : ∀ t, (obj t).toNat + objectSize n ≤ 2 ^ (8 * n)
  stack_fits : ∀ t, (stack t).toNat + size t ≤ 2 ^ (8 * n)
  objs_apart : ∀ t u, t ≠ u → Apart (obj t).toNat (objectSize n) (obj u).toNat (objectSize n)
  stacks_apart : ∀ t u, t ≠ u → Apart (stack t).toNat (size t) (stack u).toNat (size u)
  obj_stack_apart : ∀ t u, Apart (obj t).toNat (objectSize n) (stack u).toNat (size u)

/-- A host: the registers, and where the parts of a Thread object are. -/
structure Host (n : Nat) (ρ : Type) where
  /-- The stack pointer. -/
  sp : ρ
  /-- Where a register is in the Thread object. -/
  offset : ρ → Nat
  /-- `_PC`. -/
  pc : Nat
  /-- The registers of `StartupPCState`, `InitialPCState`, `InitialArgState` and `WhenDonePCState`. -/
  startup : ρ
  initialPC : ρ
  initialArg : ρ
  whenDone : ρ
  /-- The words a call of SWITCH has on the stack: the return address, and arguments if they are passed
      there. -/
  words : Nat

/-- What the processor holds. -/
structure Context (n : Nat) (ρ : Type) where
  reg : ρ → Word n
  pc : Word n

/-- The processor with a context and a memory. -/
def Context.cpu {n : Nat} {ρ : Type} (k : Context n ρ) (m : Bytes) : Proc n ρ := ⟨k.reg, k.pc, m⟩

/-- The context of a processor. -/
def context {n : Nat} {ρ : Type} (s : Proc n ρ) : Context n ρ := ⟨s.reg, s.pc⟩

/-- Where the functions are. -/
structure Symbols (n : Nat) where
  switch : Word n
  threadRoot : Word n
  interruptEnable : Word n
  threadFinish : Word n

section Threads

variable {n : Nat} {ρ θ : Type} (H : Host n ρ) (L : Layout n θ)

/-- The bytes of a thread: its object and its stack. -/
def own (t : θ) : Set Nat := fun i =>
  ((L.obj t).toNat ≤ i ∧ i < (L.obj t).toNat + objectSize n) ∨
    ((L.stack t).toNat ≤ i ∧ i < (L.stack t).toNat + L.size t)

theorem own_disjoint {t u : θ} (hne : t ≠ u) : ∀ i ∈ own L t, i ∉ own L u := by
  have hobjs := L.objs_apart t u hne
  have hstacks := L.stacks_apart t u hne
  have htu := L.obj_stack_apart t u
  have hut := L.obj_stack_apart u t
  intro i hi hi'
  simp only [Apart] at hobjs hstacks htu hut
  rcases hi with hi | hi <;> rcases hi' with hi' | hi' <;> omega

/-! ## What is saved -/

/-- The word at an offset of the Thread object. -/
def field (m : Bytes) (t : θ) (o : Nat) : Word n := load n m ((L.obj t).toNat + o)

/-- The context of a thread that is not running.  The object has the stack pointer as it was inside
    SWITCH, with the return address still on the stack. -/
def saved [DecidableEq ρ] (m : Bytes) (t : θ) : Context n ρ where
  reg := Function.update (fun r => field L m t (H.offset r)) H.sp
    (field L m t (H.offset H.sp) + BitVec.ofNat _ n)
  pc := field L m t H.pc

/-- The frame of the call of SWITCH is on the stack of the thread. -/
def OnStack (t : θ) (top : Nat) : Prop :=
  (L.stack t).toNat ≤ top ∧ top + H.words * n ≤ (L.stack t).toNat + L.size t

/-- A thread that is not running is in order: its stack pointer is on its stack, and points to the
    return address that is also in the object. -/
structure Sound (m : Bytes) (t : θ) : Prop where
  onStack : OnStack H L t (field L m t (H.offset H.sp)).toNat
  ret : load n m (field L m t (H.offset H.sp)).toNat = field L m t H.pc

/-- The offsets of a host are those of words of `stackTop` and `machineState` that do not overlap. -/
structure Host.Ok (H : Host n ρ) : Prop where
  words : 0 < H.words ∧ H.words ≤ 4
  sp : H.offset H.sp = 0
  offset : ∀ r, H.offset r + n ≤ (1 + machineStateSize) * n
  pc : H.pc + n ≤ (1 + machineStateSize) * n
  apart : ∀ r r', r ≠ r' → Apart (H.offset r) n (H.offset r') n
  pc_apart : ∀ r, Apart (H.offset r) n H.pc n
  distinct : [H.sp, H.startup, H.initialPC, H.initialArg, H.whenDone].Nodup

section Own

variable {L : Layout n θ} {m m' : Bytes} {t : θ} {o : Nat}

theorem mem_own_obj (ho : o + n ≤ (1 + machineStateSize) * n) {i : Nat} (hi : i < n) :
    (L.obj t).toNat + o + i ∈ own L t := by
  have hsize : objectSize n = (1 + machineStateSize) * n + n := Nat.succ_mul _ _
  exact Or.inl ⟨by omega, by omega⟩

theorem field_congr (ho : o + n ≤ (1 + machineStateSize) * n) (h : ∀ i ∈ own L t, m' i = m i) :
    field L m' t o = field L m t o :=
  load_congr fun _ hi => h _ (mem_own_obj ho hi)

end Own

section Saved

variable {H : Host n ρ} {L : Layout n θ} {m m' : Bytes} {t : θ}

/-- What is saved of a thread, and that it is in order, depends on the bytes of the thread. -/
theorem saved_congr [DecidableEq ρ] (hH : H.Ok) (hsound : Sound H L m t) (h : ∀ i ∈ own L t, m' i = m i) :
    saved H L m' t = saved H L m t ∧ Sound H L m' t := by
  have hreg (r : ρ) : field L m' t (H.offset r) = field L m t (H.offset r) := field_congr (hH.offset r) h
  have hpc : field L m' t H.pc = field L m t H.pc := field_congr hH.pc h
  have hword : load n m' (field L m t (H.offset H.sp)).toNat = load n m (field L m t (H.offset H.sp)).toNat := by
    refine load_congr fun i hi => h _ (Or.inr ?_)
    obtain ⟨hlow, hhigh⟩ := hsound.onStack
    have hwords : 1 * n ≤ H.words * n := Nat.mul_le_mul_right n hH.words.1
    exact ⟨by omega, by omega⟩
  constructor
  · simp only [saved, hreg, hpc]
  · exact ⟨by rw [hreg]; exact hsound.onStack, by rw [hreg, hpc, hword]; exact hsound.ret⟩

end Saved

/-! ## StackAllocate -/

variable (Y : Symbols n)

/-- The machine state a new thread gets. -/
def startState (f : Word n × Word n) : List (Nat × Word n) :=
  [(H.pc, Y.threadRoot), (H.offset H.startup, Y.interruptEnable), (H.offset H.initialPC, f.1),
    (H.offset H.initialArg, f.2), (H.offset H.whenDone, Y.threadFinish)]

/-- `Thread::StackAllocate(func, arg)`. -/
def stackAllocate (t : θ) (f : Word n × Word n) (m : Bytes) : Bytes :=
  let obj := (L.obj t).toNat
  let stack := (L.stack t).toNat
  let top := stack + (stackSize - 4) * n
  let m := storeAll m obj [((1 + machineStateSize) * n, L.stack t), (0, BitVec.ofNat _ top)]
  -- `*(--stackTop) = ThreadRoot`
  let m := store n m obj (BitVec.ofNat _ (top - n))
  let m := store n m (top - n) Y.threadRoot
  let m := store n m stack (BitVec.ofNat _ stackFencepost)
  storeAll m obj (startState H Y f)

/-- The context a new thread starts with: at ThreadRoot, with an empty stack, and what ThreadRoot needs
    in four registers.  The others are what happened to be in the object. -/
def fresh [DecidableEq ρ] (t : θ) (f : Word n × Word n) (m : Bytes) : Context n ρ where
  reg r :=
    if r = H.sp then L.stack t + BitVec.ofNat _ ((stackSize - 4) * n)
    else if r = H.startup then Y.interruptEnable
    else if r = H.initialPC then f.1
    else if r = H.initialArg then f.2
    else if r = H.whenDone then Y.threadFinish
    else field L m t (H.offset r)
  pc := Y.threadRoot

section Create

variable {H L Y} {t : θ} {f : Word n × Word n} {m : Bytes}

theorem Host.Ok.startState_fits (hH : H.Ok) : ∀ x ∈ startState H Y f, x.1 + n ≤ (1 + machineStateSize) * n := by
  simp only [startState, List.mem_cons, List.not_mem_nil, or_false, forall_eq_or_imp, forall_eq]
  exact ⟨hH.pc, hH.offset _, hH.offset _, hH.offset _, hH.offset _⟩

theorem Host.Ok.startState_separate (hH : H.Ok) : Separate n ((startState H Y f).map Prod.fst) := by
  have hd := hH.distinct
  simp only [List.nodup_cons, List.mem_cons, List.not_mem_nil, or_false, not_or, not_false_eq_true,
    List.nodup_nil, and_true] at hd
  have hpc (r : ρ) : H.pc + n ≤ H.offset r ∨ H.offset r + n ≤ H.pc := (hH.pc_apart r).symm
  simp only [startState, Separate, List.map_cons, List.map_nil, List.pairwise_cons, List.mem_cons,
    List.not_mem_nil, or_false, forall_eq_or_imp, forall_eq, hpc, true_and, and_true,
    List.Pairwise.nil, false_imp_iff, implies_true]
  exact ⟨⟨hH.apart _ _ hd.2.1.1, hH.apart _ _ hd.2.1.2.1, hH.apart _ _ hd.2.1.2.2⟩,
    ⟨hH.apart _ _ hd.2.2.1.1, hH.apart _ _ hd.2.2.1.2⟩, hH.apart _ _ hd.2.2.2⟩

/-- A register that is none of the four is not in the state a new thread gets. -/
theorem Host.Ok.startState_apart (hH : H.Ok) {r : ρ} (hstartup : r ≠ H.startup)
    (hpc : r ≠ H.initialPC) (harg : r ≠ H.initialArg) (hdone : r ≠ H.whenDone) :
    ∀ x ∈ startState H Y f, H.offset r + n ≤ x.1 ∨ x.1 + n ≤ H.offset r := by
  simp only [startState, List.mem_cons, List.not_mem_nil, or_false, forall_eq_or_imp, forall_eq]
  exact ⟨hH.pc_apart r, hH.apart r _ hstartup, hH.apart r _ hpc, hH.apart r _ harg, hH.apart r _ hdone⟩

theorem field_stackAllocate (hH : H.Ok) {x : Nat × Word n} (hx : x ∈ startState H Y f) :
    field L (stackAllocate H L Y t f m) t x.1 = x.2 :=
  load_storeAll hH.startState_separate hx

/-- The object before the machine state is filled in: it has the stack pointer, and the rest as it was. -/
theorem field_before_state {o : Nat} (ho : o + n ≤ (1 + machineStateSize) * n)
    {top : Nat} (htop : (L.stack t).toNat ≤ top ∧ top + n ≤ (L.stack t).toNat + L.size t)
    {v w : Word n} {b : Bytes} :
    field L (store n (store n b top v) (L.stack t).toNat w) t o = field L b t o := by
  have hobj := L.obj_stack_apart t t
  have hsize : objectSize n = (1 + machineStateSize) * n + n := Nat.succ_mul _ _
  have hroom := L.room t
  simp only [Apart, stackSize] at hobj hroom
  rw [field, load_store_of_disjoint (by omega), load_store_of_disjoint (by omega)]
  rfl

theorem top_le : (L.stack t).toNat ≤ (L.stack t).toNat + (stackSize - 4) * n - n ∧
    (L.stack t).toNat + (stackSize - 4) * n - n + n ≤ (L.stack t).toNat + L.size t := by
  have hroom := L.room t
  simp only [stackSize] at hroom ⊢
  omega

theorem field_stackAllocate_sp (hH : H.Ok) :
    field L (stackAllocate H L Y t f m) t (H.offset H.sp)
      = BitVec.ofNat _ ((L.stack t).toNat + (stackSize - 4) * n - n) := by
  have hd := hH.distinct
  simp only [List.nodup_cons, List.mem_cons, List.not_mem_nil, or_false, not_or] at hd
  have hout := hH.startState_apart (Y := Y) (f := f) hd.1.1 hd.1.2.1 hd.1.2.2.1 hd.1.2.2.2
  refine (load_storeAll_of_separate hout).trans ((field_before_state (hH.offset H.sp) top_le).trans ?_)
  rw [field, hH.sp, Nat.add_zero]
  exact load_store

/-- A register that is neither the stack pointer nor one of the four keeps what was in the object. -/
theorem field_stackAllocate_other (hH : H.Ok) {r : ρ} (hsp : r ≠ H.sp) (hstartup : r ≠ H.startup)
    (hpc : r ≠ H.initialPC) (harg : r ≠ H.initialArg) (hdone : r ≠ H.whenDone) :
    field L (stackAllocate H L Y t f m) t (H.offset r) = field L m t (H.offset r) := by
  have hout := hH.startState_apart (Y := Y) (f := f) hstartup hpc harg hdone
  have hapart := hH.apart r H.sp hsp
  have hfits := hH.offset r
  rw [hH.sp, Apart] at hapart
  refine (load_storeAll_of_separate hout).trans ((field_before_state hfits top_le).trans ?_)
  rw [field, load_store_of_disjoint (by omega)]
  refine load_storeAll_of_separate ?_
  simp only [List.mem_cons, List.not_mem_nil, or_false, forall_eq_or_imp, forall_eq]
  exact ⟨by omega, by omega⟩

/-- ThreadRoot is on top of the stack. -/
theorem load_stackAllocate_top (hH : H.Ok) :
    load n (stackAllocate H L Y t f m) ((L.stack t).toNat + (stackSize - 4) * n - n) = Y.threadRoot := by
  have hobj := L.obj_stack_apart t t
  have hsize : objectSize n = (1 + machineStateSize) * n + n := Nat.succ_mul _ _
  have hroom := L.room t
  simp only [Apart, stackSize] at hobj hroom
  refine (load_storeAll_of_disjoint hH.startState_fits (by simp only [stackSize]; omega)).trans ?_
  rw [load_store_of_disjoint (by simp only [stackSize]; omega)]
  exact load_store

/-- StackAllocate writes to the object and to the stack of the thread. -/
theorem stackAllocate_of_not_own (hH : H.Ok) {i : Nat} (hi : i ∉ own L t) :
    stackAllocate H L Y t f m i = m i := by
  have hobj : ¬ ((L.obj t).toNat ≤ i ∧ i < (L.obj t).toNat + objectSize n) := fun h => hi (Or.inl h)
  have hstack : ¬ ((L.stack t).toNat ≤ i ∧ i < (L.stack t).toNat + L.size t) := fun h => hi (Or.inr h)
  have hsize : objectSize n = (1 + machineStateSize) * n + n := Nat.succ_mul _ _
  have htop := top_le (L := L) (t := t)
  have hroom := L.room t
  simp only [stackSize] at hroom
  refine (storeAll_of_not hH.startState_fits (by omega)).trans ?_
  rw [store_of_not (by omega), store_of_not (by omega), store_of_not (by omega)]
  refine storeAll_of_not ?_ hobj
  simp only [List.mem_cons, List.not_mem_nil, or_false, forall_eq_or_imp, forall_eq]
  exact ⟨by omega, by omega⟩

theorem top_toNat : (BitVec.ofNat (8 * n) ((L.stack t).toNat + (stackSize - 4) * n - n)).toNat
    = (L.stack t).toNat + (stackSize - 4) * n - n := by
  have hfits := L.stack_fits t
  have hroom := L.room t
  rw [BitVec.toNat_ofNat]
  refine Nat.mod_eq_of_lt ?_
  simp only [stackSize] at hroom ⊢
  rcases Nat.eq_zero_or_pos n with hzero | hpos
  · have hlt := (L.stack t).isLt
    simp only [hzero, Nat.mul_zero, Nat.add_zero, Nat.sub_zero] at hlt ⊢
    exact hlt
  · omega

theorem sound_stackAllocate (hH : H.Ok) : Sound H L (stackAllocate H L Y t f m) t := by
  have hroom := L.room t
  have hwords : H.words * n ≤ 4 * n := Nat.mul_le_mul_right n hH.words.2
  have hpc := field_stackAllocate (L := L) (t := t) (m := m) hH (f := f) (Y := Y)
    (x := (H.pc, Y.threadRoot)) List.mem_cons_self
  refine ⟨?_, ?_⟩
  · rw [field_stackAllocate_sp hH, top_toNat, OnStack]
    simp only [stackSize] at hroom ⊢
    omega
  · rw [field_stackAllocate_sp hH, top_toNat, load_stackAllocate_top hH, hpc]

/-- **A new thread starts at ThreadRoot**, with what ThreadRoot calls in the registers it calls them
    from. -/
theorem saved_stackAllocate [DecidableEq ρ] (hH : H.Ok) :
    saved H L (stackAllocate H L Y t f m) t = fresh H L Y t f m := by
  have hmem {x : Nat × Word n} (hx : x ∈ startState H Y f) :=
    field_stackAllocate (L := L) (t := t) (m := m) hH hx
  have hreg (r : ρ) : (saved H L (stackAllocate H L Y t f m) t).reg r = (fresh H L Y t f m).reg r := by
    simp only [saved, fresh, Function.update_apply]
    by_cases hsp : r = H.sp
    · rw [if_pos hsp, if_pos hsp, field_stackAllocate_sp hH]
      apply BitVec.eq_of_toNat_eq
      have htop := top_le (L := L) (t := t)
      have hroom := L.room t
      rw [BitVec.toNat_add, top_toNat, BitVec.toNat_add, BitVec.toNat_ofNat, BitVec.toNat_ofNat,
        Nat.add_mod_mod, Nat.add_mod_mod]
      congr 1
      simp only [stackSize] at hroom ⊢
      omega
    rw [if_neg hsp, if_neg hsp]
    by_cases hstartup : r = H.startup
    · rw [if_pos hstartup, hstartup]
      exact hmem (x := (_, _)) (by simp [startState])
    rw [if_neg hstartup]
    by_cases hpc : r = H.initialPC
    · rw [if_pos hpc, hpc]
      exact hmem (x := (_, _)) (by simp [startState])
    rw [if_neg hpc]
    by_cases harg : r = H.initialArg
    · rw [if_pos harg, harg]
      exact hmem (x := (_, _)) (by simp [startState])
    rw [if_neg harg]
    by_cases hdone : r = H.whenDone
    · rw [if_pos hdone, hdone]
      exact hmem (x := (_, _)) (by simp [startState])
    rw [if_neg hdone]
    exact field_stackAllocate_other hH hsp hstartup hpc harg hdone
  have hpc : (saved H L (stackAllocate H L Y t f m) t).pc = Y.threadRoot :=
    hmem (x := (H.pc, Y.threadRoot)) List.mem_cons_self
  exact Context.mk.injEq _ _ _ _ ▸ ⟨funext hreg, hpc⟩

end Create

/-! ## A switch -/

/-- The context switch of a host: `code` has SWITCH, of `steps` instructions; `entry` says what the
    registers and the stack are at a call, and `frame` which bytes it may change. -/
def switcher [DecidableEq ρ] (code : Code n ρ) (steps : Nat)
    (entry : θ → θ → Context n ρ → Bytes → Prop) (frame : θ → θ → Bytes → Set Nat) :
    Switcher θ (Context n ρ) Nat UInt8 (Word n × Word n) where
  own := own L
  saved := saved H L
  sound := Sound H L
  entry := entry
  run k m := (run H.sp code steps (k.cpu m)).map fun s => (context s, s.mem)
  back k m := context ((k.cpu m).ret H.sp)
  frame := frame
  create := stackAllocate H L Y
  fresh := fresh H L Y

variable {H L Y}

/-- What is left to show for a host. -/
theorem lawful_switcher [DecidableEq ρ] (hH : H.Ok) {code : Code n ρ} {steps : Nat}
    {entry : θ → θ → Context n ρ → Bytes → Prop} {frame : θ → θ → Bytes → Set Nat}
    (hswitch : ∀ c t k m, c ≠ t → entry c t k m → Sound H L m t →
      ∃ s, run H.sp code steps (k.cpu m) = some s ∧ context s = saved H L m t ∧
        saved H L s.mem c = context ((k.cpu m).ret H.sp) ∧ Sound H L s.mem c ∧
        ∀ i, i ∉ frame c t m → s.mem i = m i)
    (hframe : ∀ c t u m, Sound H L m t → u ≠ c → u ≠ t → ∀ i ∈ own L u, i ∉ frame c t m) :
    (switcher H L Y code steps entry frame).Lawful where
  own_disjoint := own_disjoint L
  saved_congr := saved_congr hH
  switch := by
    intro c t k m hne hentry hsound
    obtain ⟨s, hrun, hctx, hrest⟩ := hswitch c t k m hne hentry hsound
    refine ⟨s.mem, ?_, hrest⟩
    simp only [switcher, hrun, Option.map_some, hctx]
  frame_apart := hframe _ _ _ _
  create t f m := ⟨saved_stackAllocate hH, sound_stackAllocate hH, fun _ hi => stackAllocate_of_not_own hH hi⟩

/-- A call of SWITCH in a run: the processor goes on where that of the other thread stands, and that of the caller
    stands where a bare return would leave it. -/
theorem run_goes_on [DecidableEq ρ] [DecidableEq θ] {code : Code n ρ} {steps : Nat}
    {entry : θ → θ → Context n ρ → Bytes → Prop} {frame : θ → θ → Bytes → Set Nat}
    (hS : (switcher H L Y code steps entry frame).Lawful) {s : Switcher.One θ (Context n ρ) Nat UInt8}
    (h : (switcher H L Y code steps entry frame).one.Reach s) {t : θ} (hlive : t ∈ s.live) (hne : s.cur ≠ t)
    (hentry : entry s.cur t s.ctx s.mem) :
    ∃ p, run H.sp code steps (s.ctx.cpu s.mem) = some p ∧
      ((switcher H L Y code steps entry frame).view s).ctx t = some (context p) ∧
      ((switcher H L Y code steps entry frame).view { s with ctx := context p, mem := p.mem, cur := t }).ctx
        = Function.update ((switcher H L Y code steps entry frame).view s).ctx s.cur
            (some (context ((s.ctx.cpu s.mem).ret H.sp))) ∧
      ∀ i, i ∉ frame s.cur t s.mem → p.mem i = s.mem i := by
  obtain ⟨k, m, hrun, hctx, hreturns, hframe⟩ := hS.switch_goes_on h hlive hne hentry
  obtain ⟨p, hp, hpk⟩ := Option.map_eq_some_iff.mp hrun
  obtain ⟨rfl, rfl⟩ := Prod.mk.inj hpk
  exact ⟨p, hp, hctx, hreturns, hframe⟩

/-- The stack pointer of a new thread. -/
theorem toNat_fresh_sp [DecidableEq ρ] {t : θ} {f : Word n × Word n} {m : Bytes} :
    ((fresh H L Y t f m).reg H.sp).toNat = (L.stack t).toNat + (stackSize - 4) * n := by
  have hroom := L.room t
  have hfits := L.stack_fits t
  have hsp : (fresh H L Y t f m).reg H.sp = L.stack t + BitVec.ofNat _ ((stackSize - 4) * n) := if_pos rfl
  rw [hsp]
  exact toNat_add_ofNat (by simp only [stackSize] at hroom ⊢; omega)

end Threads

end Nachos.Switch
