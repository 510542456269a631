/-
  `threads/scheduler.cc`, `threads/thread.cc`, `userprog/exception.cc` — the user registers and the page table of a
  process over context switches.

  There is one set of user registers and one page table pointer in the machine.  `Scheduler::Run` copies the
  registers out before `SWITCH` and back after it, and sets the page table pointer, for threads that have an
  address space.  But a thread that is dispatched for the FIRST time does not come out of `SWITCH` in `Run`: it
  starts in `ThreadRoot`, and gets its registers and its page table from `StartProcess`.

  1. **What a process finds** (`register_isolation`) — when a process is resumed the registers are those it was
     switched out with; and so is the page table, once it has been through `StartProcess`.

  2. **Before `StartProcess`** (`resumed_before_start`) — `ThreadRoot` enables interrupts before it calls
     `StartProcess`, so a timer tick may make the new thread yield there.  The machine then still has the page table
     of another process, and when the thread is resumed it has its own.
-/
import Nachos.Lib.Lts
import Nachos.Machine.Machine
import Nachos.Threads.Semaphore

namespace Nachos

/-! ## The system -/

/-- An address space: where its page table is, and how many pages it has. -/
structure Space where
  pageTable : Nat
  numPages : BitVec 32
  deriving DecidableEq

/-- What there is once in the machine: the user registers, `pageTable` (`none` is NULL) and `pageTableSize`. -/
structure UserMachine where
  registers : Registers
  pageTable : Option Nat
  pageTableSize : BitVec 32

/-- Where a thread goes on when it is dispatched. -/
inductive Stage where
  | justCreated
  /-- In `ThreadRoot`. -/
  | forked
  /-- In `Run`, after `SWITCH`; the running thread, too, will be there when it is dispatched again. -/
  | switched
  | finished
  deriving DecidableEq

/-- The machine and the threads.  Two things are not in the code: whether a thread has been through `StartProcess`,
    and what the machine was when the thread was last switched out with an address space. -/
structure UserSys where
  machine : UserMachine
  currentThread : Tid
  space : Tid → Option Space
  userRegisters : Tid → Registers
  stage : Tid → Stage
  started : Tid → Bool
  left : Tid → Option UserMachine

namespace UserSys

/-- `AddrSpace::InitRegisters()` and `AddrSpace::RestoreState()`, by which `StartProcess` begins. -/
def enter (s : UserSys) (space : Space) : UserSys :=
  { s with
    machine := ⟨Registers.init space.numPages, some space.pageTable, space.numPages⟩
    started := Function.update s.started s.currentThread true }

/-- `Scheduler::Run` before `SWITCH`: `SaveUserState` (and `SaveState`, which does nothing). -/
def save (s : UserSys) : UserSys :=
  match s.space s.currentThread with
  | none => s
  | some _ =>
    { s with
      userRegisters := Function.update s.userRegisters s.currentThread s.machine.registers
      left := Function.update s.left s.currentThread (some s.machine) }

/-- `Scheduler::Run` after `SWITCH`: `RestoreUserState` and `RestoreState`. -/
def restore (s : UserSys) : UserSys :=
  match s.space s.currentThread with
  | none => s
  | some space => { s with machine := ⟨s.userRegisters s.currentThread, some space.pageTable, space.numPages⟩ }

/-- `Scheduler::Run(nextThread)`; the running thread will go on at `stage`. -/
def run (s : UserSys) (stage : Stage) (nextThread : Tid) : Option UserSys :=
  let s := s.save
  let s := { s with stage := Function.update s.stage s.currentThread stage, currentThread := nextThread }
  match s.stage nextThread with
  | .forked => some { s with stage := Function.update s.stage nextThread .switched }
  | .switched => some s.restore
  | _ => none

end UserSys

/-- What can happen. -/
inductive UserAct where
  /-- User instructions, system calls and interrupts change the registers. -/
  | work (registers : Registers)
  /-- `Fork` of a thread of the kernel. -/
  | fork (child : Tid)
  /-- `do_Exec`. -/
  | exec (child : Tid) (space : Space)
  /-- `StartProcess` of `exception.cc`, in a thread forked by `do_Exec`. -/
  | startProcess
  /-- `StartProcess` of `progtest.cc`, by which a thread of the kernel becomes a process. -/
  | become (space : Space)
  /-- `SC_Exit`, up to `Finish`: the address space is deleted. -/
  | exit
  /-- `Run`, called by `Yield` or `Sleep`. -/
  | run (nextThread : Tid)
  /-- `Run`, called in `Finish`. -/
  | finish (nextThread : Tid)

/-- One action of the running thread. -/
def UserSys.step (s : UserSys) : UserAct → Option UserSys
  | .work registers => some { s with machine := { s.machine with registers := registers } }
  | .fork child =>
    if s.stage child = .justCreated then some { s with stage := Function.update s.stage child .forked } else none
  | .exec child space =>
    if s.stage child = .justCreated then
      some { s with
        stage := Function.update s.stage child .forked
        space := Function.update s.space child (some space) }
    else none
  | .startProcess => (s.space s.currentThread).map s.enter
  | .become space =>
    match s.space s.currentThread with
    | none => some ({ s with space := Function.update s.space s.currentThread (some space) }.enter space)
    | some _ => none
  | .exit =>
    some { s with
      space := Function.update s.space s.currentThread none
      started := Function.update s.started s.currentThread false }
  | .run nextThread => s.run .switched nextThread
  | .finish nextThread => s.run .finished nextThread

/-- `main` runs, without an address space; the contents of `pageTableSize` and of the threads' `userRegisters` are
    not initialised. -/
structure UserSys.Init (s : UserSys) : Prop where
  registers : s.machine.registers = Registers.zero
  pageTable : s.machine.pageTable = none
  space : s.space = fun _ => none
  stage : s.stage = fun t => if t = s.currentThread then .switched else .justCreated
  started : s.started = fun _ => false
  left : s.left = fun _ => none

/-- The runs of the system. -/
def userSys : Lts UserSys UserAct where
  init := UserSys.Init
  step s a s' := s.step a = some s'

/-! ## What is saved is what is restored -/

/-- The page table is that of the address space. -/
def UserMachine.Has (m : UserMachine) (space : Space) : Prop :=
  m.pageTable = some space.pageTable ∧ m.pageTableSize = space.numPages

namespace UserSys

/-- What the machine and the thread objects hold: the running process has its page table, and every process that was
    switched out has its registers in `userRegisters`. -/
structure Kept (s : UserSys) : Prop where
  running : s.stage s.currentThread = .switched
  fresh : ∀ t, s.stage t = .justCreated ∨ s.stage t = .forked → s.started t = false
  current : ∀ space, s.space s.currentThread = some space → s.started s.currentThread = true → s.machine.Has space
  away : ∀ t, t ≠ s.currentThread → s.stage t = .switched → ∀ space, s.space t = some space →
    ∃ m, s.left t = some m ∧ s.userRegisters t = m.registers ∧ (s.started t = true → m.Has space)

namespace Kept

variable {s s' : UserSys} {child : Tid} {space : Space}

theorem boot (h : s.Init) : s.Kept := by
  refine ⟨?_, fun t _ => ?_, fun space hspace => ?_, fun t ht hstage => ?_⟩
  · rw [h.stage]
    exact if_pos rfl
  · rw [h.started]
  · rw [h.space] at hspace
    cases hspace
  · rw [h.stage] at hstage
    simp only [if_neg ht] at hstage
    cases hstage

/-- A new thread: it has not been through `StartProcess`, and does not run yet. -/
theorem fork (h : s.Kept) (hchild : s.stage child = .justCreated) (o : Option Space) :
    Kept { s with
      stage := Function.update s.stage child .forked
      space := Function.update s.space child o } := by
  have hne : s.currentThread ≠ child := by
    rintro rfl
    rw [h.running] at hchild
    cases hchild
  refine ⟨?_, fun t ht => ?_, fun space hspace => ?_, fun t ht hstage space hspace => ?_⟩
  · show Function.update s.stage child _ _ = _
    rw [Function.update_of_ne hne]
    exact h.running
  · by_cases htc : t = child
    · rw [htc]
      exact h.fresh child (Or.inl hchild)
    · refine h.fresh t ?_
      simpa [htc] using ht
  · simp only [Function.update_of_ne hne] at hspace
    exact h.current space hspace
  · have htc : t ≠ child := by
      rintro rfl
      simp at hstage
    simp only [Function.update_of_ne htc] at hstage hspace
    exact h.away t ht hstage space hspace

/-- `StartProcess`. -/
theorem enter (h : s.Kept) (hspace : s.space s.currentThread = some space) : (s.enter space).Kept := by
  refine ⟨h.running, fun t ht => ?_, fun space' hspace' _ => ?_, fun t ht hstage space' hspace' => ?_⟩
  · have hne : t ≠ s.currentThread := by
      rintro rfl
      rcases ht with ht | ht <;> exact absurd (h.running.symm.trans ht) nofun
    show Function.update s.started _ _ t = _
    rw [Function.update_of_ne hne]
    exact h.fresh t ht
  · obtain rfl := Option.some.inj (hspace.symm.trans hspace')
    exact ⟨rfl, rfl⟩
  · obtain ⟨m, hleft, hregs, hhas⟩ := h.away t ht hstage space' hspace'
    refine ⟨m, hleft, hregs, fun hstarted => hhas ?_⟩
    exact (Function.update_of_ne ht _ _).symm.trans hstarted

/-- The address space of the running thread changes, and it has not been through `StartProcess` with it. -/
theorem setSpace (h : s.Kept) (o : Option Space) :
    Kept { s with
      space := Function.update s.space s.currentThread o
      started := Function.update s.started s.currentThread false } := by
  refine ⟨h.running, fun t ht => ?_, fun space' _ hstarted => ?_, fun t ht hstage space' hspace' => ?_⟩
  · show Function.update s.started _ _ t = _
    by_cases hcur : t = s.currentThread
    · rw [hcur, Function.update_self]
    · rw [Function.update_of_ne hcur]
      exact h.fresh t ht
  · simp at hstarted
  · have hne : t ≠ s.currentThread := ht
    simp only [Function.update_of_ne hne] at hspace' ⊢
    exact h.away t ht hstage space' hspace'

end Kept

/-- The saved state of every process that will be resumed, with the running one saved, too. -/
theorem Kept.save {s : UserSys} (h : s.Kept) :
    ∀ t, s.stage t = .switched → ∀ space, s.space t = some space →
      ∃ m, s.save.left t = some m ∧ s.save.userRegisters t = m.registers ∧
        (s.started t = true → m.Has space) := by
  intro t hstage space hspace
  by_cases hcur : t = s.currentThread
  · subst hcur
    refine ⟨s.machine, ?_, ?_, h.current space hspace⟩
    · simp only [UserSys.save, hspace, Function.update_self]
    · simp only [UserSys.save, hspace, Function.update_self]
  · obtain ⟨m, hleft, hregs, hhas⟩ := h.away t hcur hstage space hspace
    refine ⟨m, ?_, ?_, hhas⟩
    · unfold UserSys.save
      split
      · exact hleft
      · exact (Function.update_of_ne hcur _ _).trans hleft
    · unfold UserSys.save
      split
      · exact hregs
      · exact (Function.update_of_ne hcur _ _).trans hregs

@[simp] theorem save_space (s : UserSys) : s.save.space = s.space := by
  unfold save
  split <;> rfl

@[simp] theorem save_stage (s : UserSys) : s.save.stage = s.stage := by
  unfold save
  split <;> rfl

@[simp] theorem save_started (s : UserSys) : s.save.started = s.started := by
  unfold save
  split <;> rfl

@[simp] theorem save_currentThread (s : UserSys) : s.save.currentThread = s.currentThread := by
  unfold save
  split <;> rfl

section Leaving

variable {s : UserSys} {stage : Stage} {t : Tid}

theorem not_new_of_leaving (hstage : stage = .switched ∨ stage = .finished) : stage ≠ .justCreated ∧ stage ≠ .forked := by
  rcases hstage with rfl | rfl <;> exact ⟨nofun, nofun⟩

/-- A thread that is in `Run` after the switch was there before, or is the one that has just called it. -/
theorem Kept.switched_of_update (h : s.Kept) (ht : Function.update s.stage s.currentThread stage t = .switched) :
    s.stage t = .switched := by
  by_cases hcur : t = s.currentThread
  · rw [hcur]
    exact h.running
  · rwa [Function.update_of_ne hcur] at ht

/-- A thread that is new after the switch was so before. -/
theorem Kept.fresh_of_update (h : s.Kept) (hstage : stage = .switched ∨ stage = .finished)
    (ht : Function.update s.stage s.currentThread stage t = .justCreated ∨
      Function.update s.stage s.currentThread stage t = .forked) : s.save.started t = false := by
  rw [save_started]
  by_cases hcur : t = s.currentThread
  · rw [hcur, Function.update_self] at ht
    exact absurd ht (not_or.mpr (not_new_of_leaving hstage))
  · rw [Function.update_of_ne hcur] at ht
    exact h.fresh t ht

/-- The registers of the threads in `Run` are saved. -/
theorem Kept.saved_of_update (h : s.Kept) (ht : Function.update s.stage s.currentThread stage t = .switched)
    {space : Space} (hspace : s.save.space t = some space) :
    ∃ m, s.save.left t = some m ∧ s.save.userRegisters t = m.registers ∧ (s.save.started t = true → m.Has space) := by
  rw [save_space] at hspace
  rw [save_started]
  exact h.save t (h.switched_of_update ht) space hspace

end Leaving

/-- **`Run`** keeps all this, and gives a process that is resumed its registers and its page table. -/
theorem Kept.run {s s' : UserSys} (h : s.Kept) {stage : Stage} (hstage : stage = .switched ∨ stage = .finished)
    {nextThread : Tid} (hrun : s.run stage nextThread = some s') :
    s'.Kept ∧ (s.stage nextThread = .switched → ∀ space, s.space nextThread = some space →
      ∃ m, s'.left nextThread = some m ∧ s'.machine.registers = m.registers ∧ s'.machine.Has space ∧
        (s.started nextThread = true → m.Has space)) := by
  have hnew := not_new_of_leaving hstage
  simp only [UserSys.run, save_stage, save_currentThread] at hrun
  split at hrun
  · -- the first dispatch
    rename_i hforked
    obtain rfl := Option.some.inj hrun
    have hstarted := h.fresh_of_update hstage (Or.inr hforked)
    refine ⟨⟨Function.update_self _ _ _, fun t ht => ?_, fun space _ htrue => ?_, fun t ht hsw space hspace => ?_⟩,
      fun hsw => ?_⟩
    · show s.save.started t = false
      by_cases hn : t = nextThread
      · rw [hn]
        exact hstarted
      · exact h.fresh_of_update hstage (by simpa [hn] using ht)
    · replace htrue : s.save.started nextThread = true := htrue
      rw [hstarted] at htrue
      cases htrue
    · replace ht : t ≠ nextThread := ht
      simp only [Function.update_of_ne ht] at hsw
      exact h.saved_of_update hsw hspace
    · by_cases hn : nextThread = s.currentThread
      · rw [hn, Function.update_self] at hforked
        exact absurd hforked hnew.2
      · rw [Function.update_of_ne hn, hsw] at hforked
        cases hforked
  · rename_i hswitched
    obtain rfl := Option.some.inj hrun
    have hnext := h.switched_of_update hswitched
    unfold restore
    split
    · -- a thread of the kernel
      rename_i hnone
      refine ⟨⟨hswitched, fun t ht => ?_, fun space hspace => ?_, fun t ht hsw space hspace => ?_⟩,
        fun _ space hspace => ?_⟩
      · exact h.fresh_of_update hstage ht
      · rw [hnone] at hspace
        cases hspace
      · exact h.saved_of_update hsw hspace
      · simp only [save_space] at hnone
        rw [hnone] at hspace
        cases hspace
    · rename_i space hsome
      simp only [save_space] at hsome
      refine ⟨⟨hswitched, fun t ht => ?_, fun space' hspace' _ => ?_, fun t ht hsw space' hspace' => ?_⟩,
        fun _ space' hspace' => ?_⟩
      · exact h.fresh_of_update hstage ht
      · simp only [save_space] at hspace'
        obtain rfl := Option.some.inj (hsome.symm.trans hspace')
        exact ⟨rfl, rfl⟩
      · exact h.saved_of_update hsw hspace'
      · obtain rfl := Option.some.inj (hsome.symm.trans hspace')
        obtain ⟨m, hleft, hregs, hhas⟩ := h.save nextThread hnext space hsome
        exact ⟨m, hleft, hregs, ⟨rfl, rfl⟩, hhas⟩
  · cases hrun

/-- **Step lemma.** -/
theorem Kept.step {s s' : UserSys} (h : s.Kept) {a : UserAct} (hs : s.step a = some s') : s'.Kept := by
  cases a with
  | work registers =>
    obtain rfl := Option.some.inj hs
    exact ⟨h.running, h.fresh, h.current, h.away⟩
  | fork child =>
    simp only [UserSys.step] at hs
    split at hs
    · rename_i hchild
      obtain rfl := Option.some.inj hs
      have hfork := h.fork hchild (s.space child)
      rwa [Function.update_eq_self] at hfork
    · cases hs
  | exec child space =>
    simp only [UserSys.step] at hs
    split at hs
    · rename_i hchild
      obtain rfl := Option.some.inj hs
      exact h.fork hchild (some space)
    · cases hs
  | startProcess =>
    obtain ⟨space, hspace, rfl⟩ := Option.map_eq_some_iff.mp hs
    exact h.enter hspace
  | become space =>
    simp only [UserSys.step] at hs
    split at hs
    · obtain rfl := Option.some.inj hs
      have henter := (h.setSpace (some space)).enter (Function.update_self _ _ _)
      simp only [UserSys.enter, Function.update_idem] at henter
      exact henter
    · cases hs
  | exit =>
    obtain rfl := Option.some.inj hs
    exact h.setSpace none
  | run nextThread => exact (h.run (Or.inl rfl) hs).1
  | finish nextThread => exact (h.run (Or.inr rfl) hs).1

/-- **Run lemma.** -/
theorem kept_of_reach {s : UserSys} (h : userSys.Reach s) : s.Kept :=
  h.invariant (I := Kept) (fun _ hinit => Kept.boot hinit) fun _ _ _ _ hk hs => hk.step hs

end UserSys

/-- **A process finds its registers again.**  In every run — any switches between processes and threads of the kernel,
    first dispatches and exits included — when a process that was switched out is resumed, all registers are what
    they were when it was switched out, and the page table is its own; and once it has been through
    `StartProcess`, this is also the page table it was switched out with. -/
theorem register_isolation {s s' : UserSys} (h : userSys.Reach s) {a : UserAct} {nextThread : Tid}
    (ha : a = .run nextThread ∨ a = .finish nextThread) (hs : userSys.step s a s') {space : Space}
    (hspace : s.space nextThread = some space) (hstage : s.stage nextThread = .switched) :
    ∃ m, s'.left nextThread = some m ∧ s'.machine.registers = m.registers ∧
      s'.machine.pageTable = some space.pageTable ∧ s'.machine.pageTableSize = space.numPages ∧
      (s.started nextThread = true → s'.machine = m) := by
  have hk := UserSys.kept_of_reach h
  obtain ⟨m, hleft, hregs, hhas, hm⟩ : ∃ m, s'.left nextThread = some m ∧ s'.machine.registers = m.registers ∧
      s'.machine.Has space ∧ (s.started nextThread = true → m.Has space) := by
    rcases ha with rfl | rfl
    · exact (hk.run (Or.inl rfl) hs).2 hstage space hspace
    · exact (hk.run (Or.inr rfl) hs).2 hstage space hspace
  refine ⟨m, hleft, hregs, hhas.1, hhas.2, fun hstarted => ?_⟩
  obtain ⟨hpt, hsize⟩ := hm hstarted
  calc s'.machine = ⟨s'.machine.registers, s'.machine.pageTable, s'.machine.pageTableSize⟩ := rfl
    _ = ⟨m.registers, m.pageTable, m.pageTableSize⟩ := by rw [hregs, hhas.1, hhas.2, hpt, hsize]

/-- `main`, without an address space. -/
def userInit : UserSys where
  machine := ⟨Registers.zero, none, 0⟩
  currentThread := 0
  space _ := none
  userRegisters _ := Registers.zero
  stage t := if t = 0 then .switched else .justCreated
  started _ := false
  left _ := none

theorem userInit_reach : userSys.Reach userInit := .init ⟨rfl, rfl, rfl, rfl, rfl, rfl⟩

theorem userSys_step (s : UserSys) (a : UserAct) (s' : UserSys) (h : s.step a = some s') : userSys.step s a s' := h

/-- `main` becomes a process of ten pages, executes another one of twelve, and yields to it; thread 1 starts its
    process. -/
def execAndStart : List UserAct :=
  [.become ⟨1000, 10⟩, .exec 1 ⟨2000, 12⟩, .work (Registers.zero.write (gpr 2) 1), .run 1, .startProcess]

/-- Thread 1 yields back to `main`, which finds the 1 that `Exec` has returned in register 2. -/
theorem register_isolation_two :
    let s := Lts.replay UserSys.step userInit execAndStart
    let s' := Lts.replay UserSys.step s [.run 0]
    s.machine.registers (gpr 2) = 0 ∧ s'.machine.registers (gpr 2) = 1 ∧ s'.left 0 = some s'.machine := by
  obtain ⟨m, hleft, -, -, -, hm⟩ := register_isolation (Lts.reach_replay userSys_step userInit_reach execAndStart)
    (Or.inl rfl) (userSys_step _ (.run 0) _ rfl) (show _ = some ⟨1000, 10⟩ by decide) (by decide)
  refine ⟨by decide, by decide, ?_⟩
  exact hleft.trans (congrArg some (hm (by decide)).symm)

/-- **Before `StartProcess`**: thread 1 is dispatched and, on a timer tick in `ThreadRoot`, yields back to `main`.  It
    is switched out with the page table of `main` in the machine, and resumed with its own. -/
theorem resumed_before_start :
    ¬ ∀ (s s' : UserSys) (nextThread : Tid) (m : UserMachine), userSys.Reach s →
      userSys.step s (.run nextThread) s' → s.space nextThread ≠ none → s.stage nextThread = .switched →
      s'.left nextThread = some m → s'.machine = m := by
  intro h
  have heq := h _ _ 1 _ (Lts.reach_replay userSys_step userInit_reach
    [.become ⟨1000, 10⟩, .exec 1 ⟨2000, 12⟩, .run 1, .run 0]) (userSys_step _ (.run 1) _ rfl) (by decide) (by decide) rfl
  have htable := congrArg UserMachine.pageTable heq
  revert htable
  decide

end Nachos
