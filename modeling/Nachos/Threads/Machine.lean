/-
  The interleaving machine: threads that run kernel code over shared semaphores.

  Nachos runs on a uniprocessor and makes code atomic by switching interrupts off, so a thread can
  lose the processor only where `Interrupt::SetLevel` re-enables interrupts and where a `P` puts it
  to sleep.  Thread code is therefore a graph of ATOMIC ACTIONS (`Instr`): a `P`, a `V`, a stretch of
  straight-line code between two of them (`tau`), the priority donation of `Lock::Acquire`, `Fork`,
  `Yield`, `Finish`.  A step of the machine is one action of one thread, or one interrupt handler;
  between any two steps ANY thread that is not asleep on a semaphore may be the next to run.  That is
  more interleavings than the scheduler produces (`Nachos.Threads.Kernel` puts the scheduler in and
  shows that its runs are runs of this machine), so what holds here holds there.

  The machine is generic in the program (`Prog`): the semaphores `S`, the data `Sh` the threads
  share, the program points `Pc`, the interrupt handlers `I`.  Locks, condition variables, ports and
  system calls are programs for it (`Nachos.Threads.Monitor` and the modules above it).

  `stepFn` is the executable step.  `Step` says once what a step can do; every invariant is proved
  by cases on it.
-/
import Mathlib.Data.List.Nodup
import Nachos.Lib.Lts
import Nachos.Threads.Semaphore

set_option linter.unusedSectionVars false

namespace Nachos

/-! ## Programs -/

/-- Where a thread is: not forked yet, at a program point, or finished. -/
inductive Ctl (Pc : Type) where
  | fresh
  | atPc (pc : Pc)
  | finished

/-- The thread has not been forked. -/
def Ctl.isFresh {Pc : Type} : Ctl Pc → Bool
  | .fresh => true
  | _ => false

/-- The same, at another kind of program point. -/
def Ctl.map {Pc Pc' : Type} (f : Pc → Pc') : Ctl Pc → Ctl Pc'
  | .fresh => .fresh
  | .atPc pc => .atPc (f pc)
  | .finished => .finished

/-- What a priority donation does: the thread whose priority is raised, and to what (if any); the
    shared data and the program point afterwards. -/
structure Donation (Sh Pc : Type) where
  raise : Option (Tid × Nat)
  sh : Sh
  next : Pc

/-- What a `Fork` does: the new thread, where it starts, its priority; the shared data and the
    forking thread's program point afterwards. -/
structure Forking (Sh Pc : Type) where
  child : Tid
  start : Pc
  priority : Nat
  sh : Sh
  next : Pc

/-- An atomic action of a thread.  `upd` is the code that runs in the same atomic section, once the
    action is completed. -/
inductive Instr (S Sh Pc : Type) where
  /-- `x->P()`. -/
  | P (x : S) (upd : Sh → Sh) (next : Pc)
  /-- `x->V()`. -/
  | V (x : S) (upd : Sh → Sh) (next : Pc)
  /-- Straight-line code; `none`: an `ASSERT` fails or a NULL pointer is followed, and there is no
      next state. -/
  | tau (f : Sh → Option (Sh × Pc))
  /-- `ChangeQueuePriority` and `setPriority` on another thread, from the current priorities. -/
  | donate (f : (Tid → Nat) → Sh → Donation Sh Pc)
  /-- `Thread::Fork` of a new thread. -/
  | fork (f : Sh → Option (Forking Sh Pc))
  /-- `Thread::Yield()`. -/
  | yield (next : Pc)
  /-- `Thread::Finish()`, after a joinable thread has sent its message. -/
  | finish (upd : Sh → Sh)

/-- The action is a `P`. -/
def Instr.isP {S Sh Pc : Type} : Instr S Sh Pc → Bool
  | .P _ _ _ => true
  | _ => false

/-- A program: the initial values of the semaphores, the states it may be booted in, the code of
    every thread, and the interrupt handlers (each may `V` one semaphore). -/
structure Prog (S I Sh Pc : Type) where
  initial : S → Int
  boot : Sh → (Tid → Ctl Pc) → (Tid → Nat) → Prop
  code : Tid → Pc → Instr S Sh Pc
  handler : I → Sh → Option (Option S × Sh)

/-! ## States and steps -/

/-- The state of the machine; `log` is history. -/
structure State (S Sh Pc : Type) where
  sem : S → Semaphore
  log : S → SemLog
  ctl : Tid → Ctl Pc
  prio : Tid → Nat
  sh : Sh

/-- Whose step it is. -/
inductive Label (I : Type) where
  | run (t : Tid)
  | intr (i : I)

variable {S I Sh Pc : Type} [DecidableEq S]

namespace State

/-- `t` makes the `while` test of `P` on `x`. -/
def semP (s : State S Sh Pc) (t : Tid) (x : S) : State S Sh Pc :=
  { s with
    sem := Function.update s.sem x ((s.sem x).P t).1
    log := Function.update s.log x ((s.log x).afterP (s.sem x) t) }

/-- A `V` on `x`. -/
def semV (s : State S Sh Pc) (x : S) : State S Sh Pc :=
  { s with
    sem := Function.update s.sem x (s.sem x).V.1
    log := Function.update s.log x ((s.log x).afterV (s.sem x)) }

/-- `t` goes on at `pc`, the shared data being `sh` now. -/
def goto (s : State S Sh Pc) (t : Tid) (sh : Sh) (pc : Pc) : State S Sh Pc :=
  { s with ctl := Function.update s.ctl t (.atPc pc), sh := sh }

/-- The priorities after a donation. -/
def raised (s : State S Sh Pc) : Option (Tid × Nat) → Tid → Nat
  | none => s.prio
  | some (h, p) => Function.update s.prio h p

end State

/-- One atomic action of thread `t`. -/
def exec (s : State S Sh Pc) (t : Tid) : Instr S Sh Pc → Option (State S Sh Pc)
  | .P x upd next =>
    if t ∈ (s.sem x).queue then none
    else if (s.sem x).value = 0 then some (s.semP t x)
    else some ((s.semP t x).goto t (upd s.sh) next)
  | .V x upd next => some ((s.semV x).goto t (upd s.sh) next)
  | .tau f => (f s.sh).map fun r => s.goto t r.1 r.2
  | .donate f =>
    some { (s.goto t (f s.prio s.sh).sh (f s.prio s.sh).next) with
      prio := s.raised (f s.prio s.sh).raise }
  | .fork f =>
    match f s.sh with
    | none => none
    | some a =>
      if (s.ctl a.child).isFresh then
        some { s with
          ctl := Function.update (Function.update s.ctl a.child (.atPc a.start)) t (.atPc a.next)
          prio := Function.update s.prio a.child a.priority
          sh := a.sh }
      else none
  | .yield next => some (s.goto t s.sh next)
  | .finish upd => some { s with ctl := Function.update s.ctl t .finished, sh := upd s.sh }

/-- The executable step of the machine; `none`: the label is not enabled. -/
def stepFn (p : Prog S I Sh Pc) (s : State S Sh Pc) : Label I → Option (State S Sh Pc)
  | .run t =>
    match s.ctl t with
    | .atPc pc => exec s t (p.code t pc)
    | _ => none
  | .intr i =>
    match p.handler i s.sh with
    | some (some x, sh') => some { s.semV x with sh := sh' }
    | some (none, sh') => some { s with sh := sh' }
    | none => none

/-- The initial states of a program. -/
structure Init (p : Prog S I Sh Pc) (s : State S Sh Pc) : Prop where
  sem : ∀ x, s.sem x = Semaphore.new (p.initial x)
  log : ∀ x, s.log x = SemLog.new (p.initial x)
  boot : p.boot s.sh s.ctl s.prio

/-- The machine running `p`, as a transition system. -/
def machine (p : Prog S I Sh Pc) : Lts (State S Sh Pc) (Label I) where
  init := Init p
  step s l s' := stepFn p s l = some s'

theorem machine_step {p : Prog S I Sh Pc} (s : State S Sh Pc) (l : Label I) (s' : State S Sh Pc)
    (h : stepFn p s l = some s') : (machine p).step s l s' := h

namespace State

@[simp] theorem semP_ctl (s : State S Sh Pc) (t : Tid) (x : S) : (s.semP t x).ctl = s.ctl := rfl
@[simp] theorem semP_prio (s : State S Sh Pc) (t : Tid) (x : S) : (s.semP t x).prio = s.prio := rfl
@[simp] theorem semP_sh (s : State S Sh Pc) (t : Tid) (x : S) : (s.semP t x).sh = s.sh := rfl
@[simp] theorem semP_sem (s : State S Sh Pc) (t : Tid) (x : S) :
    (s.semP t x).sem = Function.update s.sem x ((s.sem x).P t).1 := rfl
@[simp] theorem semP_log (s : State S Sh Pc) (t : Tid) (x : S) :
    (s.semP t x).log = Function.update s.log x ((s.log x).afterP (s.sem x) t) := rfl
@[simp] theorem semV_ctl (s : State S Sh Pc) (x : S) : (s.semV x).ctl = s.ctl := rfl
@[simp] theorem semV_prio (s : State S Sh Pc) (x : S) : (s.semV x).prio = s.prio := rfl
@[simp] theorem semV_sh (s : State S Sh Pc) (x : S) : (s.semV x).sh = s.sh := rfl
@[simp] theorem semV_sem (s : State S Sh Pc) (x : S) :
    (s.semV x).sem = Function.update s.sem x (s.sem x).V.1 := rfl
@[simp] theorem semV_log (s : State S Sh Pc) (x : S) :
    (s.semV x).log = Function.update s.log x ((s.log x).afterV (s.sem x)) := rfl
@[simp] theorem goto_sem (s : State S Sh Pc) (t : Tid) (sh : Sh) (pc : Pc) :
    (s.goto t sh pc).sem = s.sem := rfl
@[simp] theorem goto_log (s : State S Sh Pc) (t : Tid) (sh : Sh) (pc : Pc) :
    (s.goto t sh pc).log = s.log := rfl
@[simp] theorem goto_prio (s : State S Sh Pc) (t : Tid) (sh : Sh) (pc : Pc) :
    (s.goto t sh pc).prio = s.prio := rfl
@[simp] theorem goto_sh (s : State S Sh Pc) (t : Tid) (sh : Sh) (pc : Pc) :
    (s.goto t sh pc).sh = sh := rfl
@[simp] theorem goto_ctl (s : State S Sh Pc) (t : Tid) (sh : Sh) (pc : Pc) :
    (s.goto t sh pc).ctl = Function.update s.ctl t (.atPc pc) := rfl

end State

/-! ## What a step can do -/

/-- The steps of the machine, by the action taken. -/
inductive Step (p : Prog S I Sh Pc) (s : State S Sh Pc) : Label I → State S Sh Pc → Prop where
  | block {t : Tid} {pc : Pc} {x : S} {upd : Sh → Sh} {next : Pc}
      (hpc : s.ctl t = .atPc pc) (hcode : p.code t pc = .P x upd next)
      (hq : t ∉ (s.sem x).queue) (hv : (s.sem x).value = 0) : Step p s (.run t) (s.semP t x)
  | pass {t : Tid} {pc : Pc} {x : S} {upd : Sh → Sh} {next : Pc}
      (hpc : s.ctl t = .atPc pc) (hcode : p.code t pc = .P x upd next)
      (hq : t ∉ (s.sem x).queue) (hv : (s.sem x).value ≠ 0) :
      Step p s (.run t) ((s.semP t x).goto t (upd s.sh) next)
  | v {t : Tid} {pc : Pc} {x : S} {upd : Sh → Sh} {next : Pc}
      (hpc : s.ctl t = .atPc pc) (hcode : p.code t pc = .V x upd next) :
      Step p s (.run t) ((s.semV x).goto t (upd s.sh) next)
  | tau {t : Tid} {pc : Pc} {f : Sh → Option (Sh × Pc)} {sh' : Sh} {next : Pc}
      (hpc : s.ctl t = .atPc pc) (hcode : p.code t pc = .tau f) (hf : f s.sh = some (sh', next)) :
      Step p s (.run t) (s.goto t sh' next)
  | donate {t : Tid} {pc : Pc} {f : (Tid → Nat) → Sh → Donation Sh Pc}
      (hpc : s.ctl t = .atPc pc) (hcode : p.code t pc = .donate f) :
      Step p s (.run t) { (s.goto t (f s.prio s.sh).sh (f s.prio s.sh).next) with
        prio := s.raised (f s.prio s.sh).raise }
  | fork {t : Tid} {pc : Pc} {f : Sh → Option (Forking Sh Pc)} {a : Forking Sh Pc}
      (hpc : s.ctl t = .atPc pc) (hcode : p.code t pc = .fork f) (hf : f s.sh = some a)
      (hfresh : s.ctl a.child = .fresh) :
      Step p s (.run t) { s with
        ctl := Function.update (Function.update s.ctl a.child (.atPc a.start)) t (.atPc a.next)
        prio := Function.update s.prio a.child a.priority
        sh := a.sh }
  | yield {t : Tid} {pc : Pc} {next : Pc}
      (hpc : s.ctl t = .atPc pc) (hcode : p.code t pc = .yield next) :
      Step p s (.run t) (s.goto t s.sh next)
  | finish {t : Tid} {pc : Pc} {upd : Sh → Sh}
      (hpc : s.ctl t = .atPc pc) (hcode : p.code t pc = .finish upd) :
      Step p s (.run t) { s with ctl := Function.update s.ctl t .finished, sh := upd s.sh }
  | intrV {i : I} {x : S} {sh' : Sh} (hh : p.handler i s.sh = some (some x, sh')) :
      Step p s (.intr i) { s.semV x with sh := sh' }
  | intr {i : I} {sh' : Sh} (hh : p.handler i s.sh = some (none, sh')) :
      Step p s (.intr i) { s with sh := sh' }

theorem Ctl.isFresh_iff {c : Ctl Pc} : c.isFresh = true ↔ c = .fresh := by
  cases c <;> simp [Ctl.isFresh]

/-- **Inversion**: every step of the machine is one of `Step`. -/
theorem step_of_stepFn {p : Prog S I Sh Pc} {s s' : State S Sh Pc} {l : Label I}
    (h : stepFn p s l = some s') : Step p s l s' := by
  cases l with
  | intr i =>
    simp only [stepFn] at h
    split at h
    · rename_i x sh' hh
      obtain rfl := Option.some.inj h
      exact .intrV hh
    · rename_i sh' hh
      obtain rfl := Option.some.inj h
      exact .intr hh
    · nomatch h
  | run t =>
    simp only [stepFn] at h
    cases hpc : s.ctl t with
    | fresh | finished => rw [hpc] at h; nomatch h
    | atPc pc =>
      rw [hpc] at h
      cases hcode : p.code t pc with
      | P x upd next =>
        simp only [hcode, exec] at h
        split at h
        · nomatch h
        · split at h
          · obtain rfl := Option.some.inj h
            exact .block hpc hcode (by assumption) (by assumption)
          · obtain rfl := Option.some.inj h
            exact .pass hpc hcode (by assumption) (by assumption)
      | V x upd next =>
        simp only [hcode, exec] at h
        obtain rfl := Option.some.inj h
        exact .v hpc hcode
      | tau f =>
        simp only [hcode, exec, Option.map_eq_some_iff] at h
        obtain ⟨⟨sh', next⟩, hf, rfl⟩ := h
        exact .tau hpc hcode hf
      | donate f =>
        simp only [hcode, exec] at h
        obtain rfl := Option.some.inj h
        exact .donate hpc hcode
      | fork f =>
        simp only [hcode, exec] at h
        split at h
        · nomatch h
        · rename_i a hf
          split at h
          · rename_i hfresh
            obtain rfl := Option.some.inj h
            exact .fork hpc hcode hf (Ctl.isFresh_iff.mp hfresh)
          · nomatch h
      | yield next =>
        simp only [hcode, exec] at h
        obtain rfl := Option.some.inj h
        exact .yield hpc hcode
      | finish upd =>
        simp only [hcode, exec] at h
        obtain rfl := Option.some.inj h
        exact .finish hpc hcode

/-! ## Semaphores over whole runs

  What a step does to ONE semaphore is a `P` test, a `V`, or nothing (`sem_step`): `SemOk` of the
  previous module is an invariant of the machine at once.  Which threads are asleep or woken needs
  the program points as well (`Waiting`). -/

/-- A thread that has finished does nothing more. -/
theorem Step.finished {p : Prog S I Sh Pc} {s s' : State S Sh Pc} {l : Label I} (h : Step p s l s')
    {u : Tid} (hu : s.ctl u = .finished) : s'.ctl u = .finished := by
  have hne : ∀ {t : Tid} {c : Ctl Pc}, s.ctl t = c → c ≠ .finished → u ≠ t := by
    rintro t c hc hfin rfl
    exact hfin (hc.symm.trans hu)
  have hupdate : ∀ {t : Tid} {pc : Pc} (c : Ctl Pc), s.ctl t = .atPc pc →
      Function.update s.ctl t c u = .finished := by
    intro t pc c hpc
    rw [Function.update_of_ne (hne hpc nofun)]
    exact hu
  cases h with
  | block hpc hcode hq hv | intrV hh | intr hh => exact hu
  | @fork t pc f a hpc hcode hf hfresh =>
    have hchild := Function.update_of_ne (hne hfresh nofun) (Ctl.atPc a.start) s.ctl
    exact (Function.update_of_ne (hne hpc nofun) _ _).trans (hchild.trans hu)
  | pass hpc hcode hq hv | v hpc hcode | tau hpc hcode hf | donate hpc hcode | yield hpc hcode
  | finish hpc hcode => exact hupdate _ hpc

/-- A step tests the semaphore `x` once, adds one to it once, or leaves it alone. -/
theorem sem_step {p : Prog S I Sh Pc} {s s' : State S Sh Pc} {l : Label I} (h : Step p s l s')
    (x : S) :
    (∃ t, s'.sem x = ((s.sem x).P t).1 ∧ s'.log x = (s.log x).afterP (s.sem x) t) ∨
    (s'.sem x = (s.sem x).V.1 ∧ s'.log x = (s.log x).afterV (s.sem x)) ∨
    (s'.sem x = s.sem x ∧ s'.log x = s.log x) := by
  cases h with
  | @block t pc y upd next | @pass t pc y upd next =>
    by_cases hy : x = y
    · subst hy; exact Or.inl ⟨t, by simp, by simp⟩
    · exact Or.inr (Or.inr (by simp [hy]))
  | @v t pc y upd next | @intrV i y sh' =>
    by_cases hy : x = y
    · subst hy; exact Or.inr (Or.inl (by simp))
    · exact Or.inr (Or.inr (by simp [hy]))
  | tau | donate | fork | yield | finish | intr => exact Or.inr (Or.inr ⟨rfl, rfl⟩)

/-- Run lemma: the history of a semaphore remembers the value it was built with, and its value is the
    count of the history, as an `int`. -/
theorem value_of_reach {p : Prog S I Sh Pc} {s : State S Sh Pc} (h : (machine p).Reach s) (x : S) :
    (s.log x).initial = p.initial x ∧ (s.sem x).value = int32 (s.log x).count := by
  refine Lts.Reach.invariant (I := fun s => (s.log x).initial = p.initial x ∧
    (s.sem x).value = int32 (s.log x).count) ?_ ?_ h
  · intro s hi
    rw [hi.sem x, hi.log x, SemLog.count_new]
    exact ⟨rfl, rfl⟩
  · rintro s l s' - ⟨hinit, hvalue⟩ hs
    rcases sem_step (step_of_stepFn hs) x with ⟨t, hsem, hlog⟩ | ⟨hsem, hlog⟩ | ⟨hsem, hlog⟩
    · rw [hsem, hlog]; exact ⟨hinit, value_P hvalue t⟩
    · rw [hsem, hlog]; exact ⟨hinit, value_V hvalue⟩
    · rw [hsem, hlog]; exact ⟨hinit, hvalue⟩

/-- Step lemma: a step that leaves the count of `x` below 2^31 keeps `SemOk`. -/
theorem SemOk.step {p : Prog S I Sh Pc} {s s' : State S Sh Pc} {l : Label I} {x : S} (hr : (machine p).Reach s)
    (hok : SemOk (s.sem x) (s.log x)) (hs : Step p s l s') (hint : (s'.log x).count < 2 ^ 31) :
    SemOk (s'.sem x) (s'.log x) := by
  have hvalue : (s.sem x).value < 2 ^ 31 := (value_of_reach hr x).2 ▸ int32_lt _
  rcases sem_step hs x with ⟨t, hsem, hlog⟩ | ⟨hsem, hlog⟩ | ⟨hsem, hlog⟩
  · rw [hsem, hlog]; exact hok.P hvalue t
  · rw [hlog] at hint
    rw [hsem, hlog]; exact hok.V hint
  · rw [hsem, hlog]; exact hok

/-- Run lemma: in a run that keeps the count of `x` below 2^31, `x` is `SemOk` all the time. -/
theorem semOk_of_exec {p : Prog S I Sh Pc} {tr : List (State S Sh Pc × Label I)} {s : State S Sh Pc} {x : S}
    (h : (machine p).Exec tr s) (hx : 0 ≤ p.initial x) (hvis : ∀ e ∈ tr, (e.1.log x).count < 2 ^ 31)
    (hend : (s.log x).count < 2 ^ 31) :
    (∀ e ∈ tr, SemOk (e.1.sem x) (e.1.log x)) ∧ SemOk (s.sem x) (s.log x) := by
  induction h with
  | @init s hi =>
    rw [hi.log x, SemLog.count_new] at hend
    rw [hi.sem x, hi.log x]
    exact ⟨fun e he => absurd he List.not_mem_nil, SemOk.new hx hend⟩
  | @step tr s s' l hrun hs ih =>
    have hlast : (s.log x).count < 2 ^ 31 := hvis (s, l) (List.mem_append.mpr (Or.inr (List.mem_singleton.mpr rfl)))
    obtain ⟨hprev, hok⟩ := ih (fun e he => hvis e (List.mem_append.mpr (Or.inl he))) hlast
    refine ⟨fun e he => ?_, hok.step hrun.reach (step_of_stepFn hs) hend⟩
    rcases List.mem_append.mp he with he | he
    · exact hprev e he
    · obtain rfl := List.mem_singleton.mp he
      exact hok

/-- The next action of `t` is the `while` test of `P` on `x`. -/
def AtP (p : Prog S I Sh Pc) (s : State S Sh Pc) (t : Tid) (x : S) : Prop :=
  ∃ pc upd next, s.ctl t = .atPc pc ∧ p.code t pc = .P x upd next

/-- `AtP` reads only where `t` is, and a thread is at one `P` at a time. -/
theorem AtP.of_ctl {p : Prog S I Sh Pc} {s s' : State S Sh Pc} {t : Tid} {x : S}
    (h : AtP p s t x) (hctl : s'.ctl t = s.ctl t) : AtP p s' t x := by
  obtain ⟨pc, upd, next, hpc, hcode⟩ := h
  exact ⟨pc, upd, next, hctl.trans hpc, hcode⟩

theorem AtP.code_eq {p : Prog S I Sh Pc} {s : State S Sh Pc} {t : Tid} {x : S} {pc : Pc}
    (h : AtP p s t x) (hpc : s.ctl t = .atPc pc) : ∃ upd next, p.code t pc = .P x upd next := by
  obtain ⟨pc', upd, next, hpc', hcode⟩ := h
  obtain rfl : pc' = pc := by rw [hpc'] at hpc; injection hpc
  exact ⟨upd, next, hcode⟩

/-- The threads on a semaphore's queue, and those a `V` has woken, are all at the `while` test of
    that semaphore's `P`, each once. -/
structure Waiting (p : Prog S I Sh Pc) (s : State S Sh Pc) : Prop where
  atP : ∀ x t, t ∈ (s.sem x).queue ++ (s.log x).woken → AtP p s t x
  nodup : ∀ x, ((s.sem x).queue ++ (s.log x).woken).Nodup

theorem Instr.ne_P {i : Instr S Sh Pc} (h : i.isP = false) (x : S) (upd : Sh → Sh) (next : Pc) :
    i ≠ .P x upd next := by
  rintro rfl
  nomatch h

/-- A thread whose next action is not the `P` of `x` is neither asleep on `x` nor woken by it. -/
theorem Waiting.notMem {p : Prog S I Sh Pc} {s : State S Sh Pc} (h : Waiting p s) {t : Tid}
    {pc : Pc} (hpc : s.ctl t = .atPc pc) {x : S} (hcode : ∀ upd next, p.code t pc ≠ .P x upd next) :
    t ∉ (s.sem x).queue ++ (s.log x).woken := by
  intro hmem
  obtain ⟨upd, next, hP⟩ := (h.atP x t hmem).code_eq hpc
  exact hcode upd next hP

/-- The frame rule of `Waiting`: the semaphores are as before, and so is the program point of every
    thread that is asleep or woken. -/
theorem Waiting.frame {p : Prog S I Sh Pc} {s s' : State S Sh Pc} (h : Waiting p s)
    (hsem : s'.sem = s.sem) (hlog : s'.log = s.log)
    (hctl : ∀ x t, t ∈ (s.sem x).queue ++ (s.log x).woken → s'.ctl t = s.ctl t) : Waiting p s' where
  atP x t hmem := by
    rw [hsem, hlog] at hmem
    exact (h.atP x t hmem).of_ctl (hctl x t hmem)
  nodup x := by
    rw [hsem, hlog]
    exact h.nodup x

/-- A thread at some other action than a `P` may go anywhere. -/
theorem Waiting.move {p : Prog S I Sh Pc} {s s' : State S Sh Pc} (h : Waiting p s) {t : Tid}
    {pc : Pc} (hpc : s.ctl t = .atPc pc) (hcode : (p.code t pc).isP = false)
    (hsem : s'.sem = s.sem) (hlog : s'.log = s.log) (hctl : ∀ u, u ≠ t → s'.ctl u = s.ctl u) :
    Waiting p s' := by
  refine h.frame hsem hlog fun x u hmem => hctl u ?_
  rintro rfl
  exact h.notMem hpc (Instr.ne_P hcode x) hmem

/-- `V` moves the head of the queue to the woken threads: the same threads, in another order. -/
theorem perm_wake (q w : List Tid) : (q.tail ++ (w ++ q.head?.toList)).Perm (q ++ w) := by
  cases q with
  | nil => simp
  | cons u rest =>
    simp only [List.tail_cons, List.head?_cons, Option.toList_some, List.cons_append]
    rw [← List.append_assoc]
    exact List.perm_append_singleton u (rest ++ w)

theorem Waiting.semV {p : Prog S I Sh Pc} {s : State S Sh Pc} (h : Waiting p s) (x : S) :
    Waiting p (s.semV x) := by
  have hperm : ∀ y, (((s.semV x).sem y).queue ++ ((s.semV x).log y).woken).Perm
      ((s.sem y).queue ++ (s.log y).woken) := by
    intro y
    by_cases hy : y = x
    · subst hy
      simpa using perm_wake (s.sem y).queue (s.log y).woken
    · simp [hy]
  exact ⟨fun y t hmem => (h.atP y t ((hperm y).mem_iff.mp hmem)).of_ctl rfl,
    fun y => (hperm y).nodup_iff.mpr (h.nodup y)⟩

/-- The test of `P`, made by a thread that is not asleep: whether or not it gets through, it is no
    longer one of the woken. -/
theorem Waiting.erase {q w : List Tid} {t : Tid} (h : (q ++ w).Nodup) (hq : t ∉ q) :
    (q ++ w.erase t).Nodup ∧ t ∉ q ++ w.erase t := by
  have hw : w.Nodup := (List.nodup_append.mp h).2.1
  refine ⟨h.sublist ((List.Sublist.refl q).append (List.erase_sublist)), ?_⟩
  rw [List.mem_append]
  rintro (hmem | hmem)
  · exact hq hmem
  · exact hw.not_mem_erase hmem

/-- Step lemma for `Waiting`. -/
theorem Waiting.step {p : Prog S I Sh Pc} {s s' : State S Sh Pc} {l : Label I}
    (h : Waiting p s) (hs : Step p s l s') : Waiting p s' := by
  cases hs with
  | @block t pc x upd next hpc hcode hq hv =>
    obtain ⟨hnodup, hnot⟩ := Waiting.erase (h.nodup x) hq
    have hperm : (((s.semP t x).sem x).queue ++ ((s.semP t x).log x).woken).Perm
        (t :: ((s.sem x).queue ++ (s.log x).woken.erase t)) := by
      simp only [State.semP_sem, State.semP_log, Function.update_self, Semaphore.P_zero hv,
        SemLog.afterP_woken, List.append_assoc, List.singleton_append]
      exact List.perm_middle
    constructor
    · intro y u hmem
      by_cases hy : y = x
      · subst hy
        rcases List.mem_cons.mp (hperm.mem_iff.mp hmem) with rfl | hmem
        · exact ⟨pc, upd, next, hpc, hcode⟩
        · refine (h.atP y u ?_).of_ctl rfl
          rcases List.mem_append.mp hmem with hm | hm
          · exact List.mem_append.mpr (Or.inl hm)
          · exact List.mem_append.mpr (Or.inr (List.mem_of_mem_erase hm))
      · simp only [State.semP_sem, State.semP_log, Function.update_of_ne hy] at hmem
        exact (h.atP y u hmem).of_ctl rfl
    · intro y
      by_cases hy : y = x
      · subst hy
        exact hperm.nodup_iff.mpr (List.nodup_cons.mpr ⟨hnot, hnodup⟩)
      · simp only [State.semP_sem, State.semP_log, Function.update_of_ne hy]
        exact h.nodup y
  | @pass t pc x upd next hpc hcode hq hv =>
    obtain ⟨hnodup, hnot⟩ := Waiting.erase (h.nodup x) hq
    have hother : ∀ y, y ≠ x → t ∉ (s.sem y).queue ++ (s.log y).woken := by
      intro y hy
      refine h.notMem hpc fun upd' next' hP => hy ?_
      rw [hcode] at hP
      injection hP with hxy
      exact hxy.symm
    constructor
    · intro y u hmem
      by_cases hy : y = x
      · subst hy
        simp only [State.goto_sem, State.goto_log, State.semP_sem, State.semP_log,
          Function.update_self, Semaphore.P_pos hv, SemLog.afterP_woken] at hmem
        have hut : u ≠ t := by rintro rfl; exact hnot hmem
        refine (h.atP y u ?_).of_ctl (by simp [hut])
        rcases List.mem_append.mp hmem with hm | hm
        · exact List.mem_append.mpr (Or.inl hm)
        · exact List.mem_append.mpr (Or.inr (List.mem_of_mem_erase hm))
      · simp only [State.goto_sem, State.goto_log, State.semP_sem, State.semP_log,
          Function.update_of_ne hy] at hmem
        have hut : u ≠ t := by rintro rfl; exact hother y hy hmem
        exact (h.atP y u hmem).of_ctl (by simp [hut])
    · intro y
      by_cases hy : y = x
      · subst hy
        simp only [State.goto_sem, State.goto_log, State.semP_sem, State.semP_log,
          Function.update_self, Semaphore.P_pos hv, SemLog.afterP_woken]
        exact hnodup
      · simp only [State.goto_sem, State.goto_log, State.semP_sem, State.semP_log,
          Function.update_of_ne hy]
        exact h.nodup y
  | @v t pc x upd next hpc hcode =>
    have hpc' : (s.semV x).ctl t = .atPc pc := hpc
    exact (h.semV x).move hpc' (by rw [hcode]; rfl) rfl rfl fun u hu => by simp [hu]
  | @tau t pc f sh' next hpc hcode hf | @donate t pc f hpc hcode =>
    exact h.move hpc (by rw [hcode]; rfl) rfl rfl fun u hu => by simp [hu]
  | @fork t pc f a hpc hcode hf hfresh =>
    refine h.frame rfl rfl fun x u hmem => ?_
    have hut : u ≠ t := by
      rintro rfl
      exact h.notMem hpc (Instr.ne_P (by rw [hcode]; rfl) x) hmem
    have huc : u ≠ a.child := by
      rintro rfl
      obtain ⟨pc', -, -, hpc', -⟩ := h.atP x _ hmem
      rw [hfresh] at hpc'
      nomatch hpc'
    simp [hut, huc]
  | @yield t pc next hpc hcode | @finish t pc upd hpc hcode =>
    exact h.move hpc (by rw [hcode]; rfl) rfl rfl fun u hu => by simp [hu]
  | intrV hh => exact (h.semV _).frame rfl rfl fun _ _ _ => rfl
  | intr hh => exact h.frame rfl rfl fun _ _ _ => rfl

/-- Run lemma for `Waiting`. -/
theorem waiting_of_reach {p : Prog S I Sh Pc} {s : State S Sh Pc} (h : (machine p).Reach s) :
    Waiting p s := by
  refine h.invariant ?_ fun s l s' _ hw hs => hw.step (step_of_stepFn hs)
  intro s hi
  constructor
  · intro x t hmem
    rw [hi.sem x, hi.log x] at hmem
    exact absurd hmem List.not_mem_nil
  · intro x
    rw [hi.sem x, hi.log x]
    exact List.nodup_nil

/-- What a semaphore is for: the value is not negative; it is the initial value plus the completed `V`
    minus the completed `P`; and while threads wait it is at most the number of threads that a `V` has
    woken and that have not re-checked the `while` condition.  Those threads are distinct, are not asleep,
    and stand before the test — so a positive value with waiters will be consumed. -/
structure SemGood (p : Prog S I Sh Pc) (s : State S Sh Pc) (x : S) : Prop where
  nonneg : 0 ≤ (s.sem x).value
  count : (s.sem x).value = p.initial x + (s.log x).completedV - (s.log x).completedP
  noLost : (s.sem x).queue ≠ [] → (s.sem x).value ≤ (s.log x).woken.length
  nodup : (s.log x).woken.Nodup
  ready : ∀ t ∈ (s.log x).woken, t ∉ (s.sem x).queue ∧ AtP p s t x
  consumed : (s.sem x).queue ≠ [] → 0 < (s.sem x).value →
    ∃ t ∈ (s.log x).woken, ∃ s', stepFn p s (.run t) = some s' ∧ (s'.sem x).value = (s.sem x).value - 1

/-- A semaphore that is `SemOk` is good, in a run. -/
theorem SemOk.good {p : Prog S I Sh Pc} {s : State S Sh Pc} {x : S} (hok : SemOk (s.sem x) (s.log x))
    (h : (machine p).Reach s) : SemGood p s x := by
  obtain ⟨hinit, hvalue⟩ := value_of_reach h x
  have hint : (s.sem x).value < 2 ^ 31 := hvalue ▸ int32_lt _
  have hw := waiting_of_reach h
  obtain ⟨-, hwoken, hdisj⟩ := List.nodup_append.mp (hw.nodup x)
  have hready : ∀ t ∈ (s.log x).woken, t ∉ (s.sem x).queue ∧ AtP p s t x := fun t ht =>
    ⟨fun hq => hdisj t hq t ht rfl, hw.atP x t (List.mem_append.mpr (Or.inr ht))⟩
  refine ⟨hok.nonneg, hinit ▸ hok.count, hok.noLost, hwoken, hready, fun hq hpos => ?_⟩
  have hlen := hok.noLost hq
  obtain ⟨t, ht⟩ : ∃ t, t ∈ (s.log x).woken :=
    List.exists_mem_of_length_pos (by omega)
  obtain ⟨hnq, pc, upd, next, hpc, hcode⟩ := hready t ht
  have hv : (s.sem x).value ≠ 0 := by omega
  refine ⟨t, ht, (s.semP t x).goto t (upd s.sh) next, ?_, ?_⟩
  · simp only [stepFn, hpc, hcode, exec, if_neg hnq, if_neg hv]
  · simp only [State.goto_sem, State.semP_sem, Function.update_self, Semaphore.P_pos hv]
    exact int32_of_range (by omega) (by omega)

/-- The converse: the value of a good semaphore is an `int`, and so is the count. -/
theorem SemGood.count_lt {p : Prog S I Sh Pc} {s : State S Sh Pc} {x : S} (hgood : SemGood p s x)
    (h : (machine p).Reach s) : p.initial x + (s.log x).completedV - (s.log x).completedP < 2 ^ 31 := by
  rw [← hgood.count, (value_of_reach h x).2]
  exact int32_lt _

/-- **When semaphores lose no wakeup.**  For every program, every semaphore built with a value that is not
    negative and every run, with all its history: the semaphore is good in every state the run visits IFF
    the initial value plus the completed `V` minus the completed `P` is below 2^31 in all of them. -/
theorem semaphore_no_lost_wakeup {p : Prog S I Sh Pc} {tr : List (State S Sh Pc × Label I)} {s : State S Sh Pc}
    (h : (machine p).Exec tr s) (x : S) (hx : 0 ≤ p.initial x) :
    ((∀ e ∈ tr, SemGood p e.1 x) ∧ SemGood p s x) ↔
      (∀ e ∈ tr, p.initial x + (e.1.log x).completedV - (e.1.log x).completedP < 2 ^ 31) ∧
        p.initial x + (s.log x).completedV - (s.log x).completedP < 2 ^ 31 := by
  have hcount {s : State S Sh Pc} (hr : (machine p).Reach s) :
      (s.log x).count = p.initial x + (s.log x).completedV - (s.log x).completedP := by
    rw [SemLog.count, (value_of_reach hr x).1]
  constructor
  · rintro ⟨hvis, hend⟩
    exact ⟨fun e he => (hvis e he).count_lt (h.reach_of_mem e he), hend.count_lt h.reach⟩
  · rintro ⟨hvis, hend⟩
    obtain ⟨hok, hlast⟩ := semOk_of_exec h hx
      (fun e he => hcount (h.reach_of_mem e he) ▸ hvis e he) (hcount h.reach ▸ hend)
    exact ⟨fun e he => (hok e he).good (h.reach_of_mem e he), hlast.good h.reach⟩

/-- Threads that wait once for an event that an interrupt handler announces: `false` is the `P`,
    `true` is after it. -/
def eventProg (initialValue : Int) : Prog Unit Unit Unit Bool where
  initial _ := initialValue
  boot _ ctl _ := ctl = fun _ => .atPc false
  code _ pc := if pc then .finish id else .P () id true
  handler _ sh := some (some (), sh)

/-- The state `eventProg` is booted in. -/
def eventInit (initialValue : Int) : State Unit Unit Bool where
  sem _ := Semaphore.new initialValue
  log _ := SemLog.new initialValue
  ctl _ := .atPc false
  prio _ := 0
  sh := ()

theorem eventInit_init (initialValue : Int) : Init (eventProg initialValue) (eventInit initialValue) :=
  ⟨fun _ => rfl, fun _ => rfl, rfl⟩

/-- Threads 0 and 1 sleep, one interrupt: 0 is woken, 1 still waits, and the value is 1. -/
theorem semaphore_no_lost_wakeup_event :
    ((Lts.replay (stepFn (eventProg 0)) (eventInit 0) [.run 0, .run 1, .intr ()]).sem ()).queue = [1] ∧
    SemGood (eventProg 0) (Lts.replay (stepFn (eventProg 0)) (eventInit 0) [.run 0, .run 1, .intr ()]) () :=
  ⟨rfl, ((semaphore_no_lost_wakeup (Lts.exec_replay machine_step (.init (eventInit_init 0))
    [.run 0, .run 1, .intr ()]) () (by decide)).mpr (by decide)).2⟩

/-- A semaphore built with the largest `int`: one `V`, and its value is negative. -/
theorem semaphore_value_wraps :
    ¬ ∀ s, (machine (eventProg 2147483647)).Reach s → 0 ≤ (s.sem ()).value := by
  intro h
  have hneg := h _ (Lts.reach_replay machine_step (.init (eventInit_init 2147483647)) [.intr ()])
  exact absurd hneg (by decide)

end Nachos
