/-
  `threads/thread.cc`, `threads/scheduler.cc` — the kernel: the interleaving machine with the
  scheduler put in.

  Only `currentThread` runs.  It loses the processor in three ways: it calls `Yield`; the timer
  interrupt makes it yield (`OneTick` does so wherever interrupts are re-enabled); or it sleeps, in `P`
  or for good in `Finish`.  `Sleep` looks for a ready thread and, as long as there is none, idles:
  interrupt handlers run, and one of them may make a thread ready, the idling one included.  The steps
  are therefore

  * `run`       — the next atomic action of `currentThread`, which is RUNNING;
  * `timer`     — `currentThread->Yield()` on a timer tick;
  * `intr i`    — an interrupt handler, between two actions or inside `Sleep`'s idle loop;
  * `dispatch`  — the `while` loop of `Sleep` has found a thread, and `Scheduler::Run` switches to it.

  `kernel_refines`: every run of the kernel is a run of the interleaving machine, so all its
  invariants hold here.  `kernel_one_place`: as long as no priority is donated, every thread is in
  exactly one place — it runs, or it is on the one ready queue of its priority, or on the one queue of
  the semaphore it waits for, or it has finished.
-/
import Nachos.Threads.Machine
import Nachos.Threads.Scheduler

set_option linter.unusedSectionVars false

namespace Nachos

/-! ## The kernel state -/

/-- `enum ThreadStatus`. -/
inductive ThreadStatus where
  | justCreated
  | running
  | ready
  | blocked
  deriving DecidableEq

/-- The machine, `currentThread`, the ready queues, the status of every thread,
    `threadToBeDestroyed`, the threads that have been dispatched before (they come back inside
    `Scheduler::Run`, after `SWITCH`), and the threads deleted so far. -/
structure Kernel (S Sh Pc : Type) where
  m : State S Sh Pc
  currentThread : Tid
  readyListP : ReadyLists
  status : Tid → ThreadStatus
  threadToBeDestroyed : Option Tid
  started : Tid → Bool
  deleted : List Tid

variable {S I Sh Pc : Type} [DecidableEq S]

namespace Kernel

/-- `Scheduler::ReadyToRun(thread)`. -/
def readyToRun (k : Kernel S Sh Pc) (thread : Tid) : Kernel S Sh Pc :=
  { k with
    status := Function.update k.status thread .ready
    readyListP := k.readyListP.readyToRun thread (k.m.prio thread) }

/-- `Scheduler::Run(nextThread)`.  A thread that was switched out before comes back after `SWITCH`
    and deletes `threadToBeDestroyed`; a new one starts in `ThreadRoot` and does not. -/
def run (k : Kernel S Sh Pc) (nextThread : Tid) : Kernel S Sh Pc :=
  { k with
    currentThread := nextThread
    status := Function.update k.status nextThread .running
    threadToBeDestroyed := if k.started nextThread then none else k.threadToBeDestroyed
    deleted := if k.started nextThread then k.deleted ++ k.threadToBeDestroyed.toList else k.deleted
    started := Function.update k.started nextThread true }

/-- `Thread::Yield()`. -/
def yield (k : Kernel S Sh Pc) : Kernel S Sh Pc :=
  match k.readyListP.findNextToRun with
  | (none, _) => k
  | (some nextThread, q) => (({ k with readyListP := q }).readyToRun k.currentThread).run nextThread

/-- The end of `V`: the thread taken off the semaphore's queue, if any, is made ready. -/
def wake (k : Kernel S Sh Pc) : Option Tid → Kernel S Sh Pc
  | none => k
  | some thread => k.readyToRun thread

/-- The scheduler's part of an action of `currentThread` that takes the machine to `m'`. -/
def after (k : Kernel S Sh Pc) (m' : State S Sh Pc) : Instr S Sh Pc → Option (Kernel S Sh Pc)
  | .P x _ _ =>
    if (k.m.sem x).value = 0 then
      some { k with m := m', status := Function.update k.status k.currentThread .blocked }
    else some { k with m := m' }
  | .V x _ _ => some (({ k with m := m' }).wake (k.m.sem x).V.2)
  | .tau _ => some { k with m := m' }
  | .donate f =>
    match (f k.m.prio k.m.sh).raise with
    | none => some { k with m := m' }
    | some (thname, pcurrent) =>
      match k.readyListP.changeQueuePriority k.m.prio thname pcurrent with
      | none => none
      | some q => some { k with m := m', readyListP := q }
  | .fork f =>
    match f k.m.sh with
    | none => none
    | some a =>
      -- `readyListP` has no list for any other priority
      if a.priority < maxPriority then some (({ k with m := m' }).readyToRun a.child) else none
  | .yield _ => some ({ k with m := m' }).yield
  | .finish _ =>
    some { k with
      m := m'
      status := Function.update k.status k.currentThread .blocked
      threadToBeDestroyed := some k.currentThread }

end Kernel

/-! ## The steps of the kernel -/

/-- Whose step it is. -/
inductive KLabel (I : Type) where
  | run
  | timer
  | intr (i : I)
  | dispatch

/-- The executable step of the kernel. -/
def kstepFn (p : Prog S I Sh Pc) (k : Kernel S Sh Pc) : KLabel I → Option (Kernel S Sh Pc)
  | .run =>
    if k.status k.currentThread = .running then
      match k.m.ctl k.currentThread with
      | .atPc pc =>
        match exec k.m k.currentThread (p.code k.currentThread pc) with
        | some m' => k.after m' (p.code k.currentThread pc)
        | none => none
      | _ => none
    else none
  | .timer => if k.status k.currentThread = .running then some k.yield else none
  | .intr i =>
    match p.handler i k.m.sh with
    | some (some x, sh') => some (({ k with m := { k.m.semV x with sh := sh' } }).wake (k.m.sem x).V.2)
    | some (none, sh') => some { k with m := { k.m with sh := sh' } }
    | none => none
  | .dispatch =>
    if k.status k.currentThread = .running then none
    else
      match k.readyListP.findNextToRun with
      | (some nextThread, q) => some (({ k with readyListP := q }).run nextThread)
      | (none, _) => none

/-- The kernel boots with one running thread, `main`; the other threads are not forked yet. -/
structure KInit (p : Prog S I Sh Pc) (k : Kernel S Sh Pc) : Prop where
  m : Init p k.m
  main : ∃ pc, k.m.ctl k.currentThread = .atPc pc
  fresh : ∀ t, t ≠ k.currentThread → k.m.ctl t = .fresh
  prio : k.m.prio k.currentThread = 0
  status : k.status = fun t => if t = k.currentThread then .running else .justCreated
  readyListP : k.readyListP = ReadyLists.empty
  threadToBeDestroyed : k.threadToBeDestroyed = none
  started : k.started = fun t => decide (t = k.currentThread)
  deleted : k.deleted = []

theorem KInit.readyListP_nil {p : Prog S I Sh Pc} {k : Kernel S Sh Pc} (hi : KInit p k) (i : Nat) :
    k.readyListP i = [] := by
  rw [hi.readyListP]
  rfl

theorem KInit.queue_nil {p : Prog S I Sh Pc} {k : Kernel S Sh Pc} (hi : KInit p k) (x : S) :
    (k.m.sem x).queue = [] := by
  rw [hi.m.sem x]
  rfl

/-- The kernel running `p`, as a transition system. -/
def kernel (p : Prog S I Sh Pc) : Lts (Kernel S Sh Pc) (KLabel I) where
  init := KInit p
  step k l k' := kstepFn p k l = some k'

theorem kernel_step {p : Prog S I Sh Pc} (k : Kernel S Sh Pc) (l : KLabel I) (k' : Kernel S Sh Pc)
    (h : kstepFn p k l = some k') : (kernel p).step k l k' := h

/-! ## The kernel runs the interleaving machine -/

/-- The steps of the kernel, by label. -/
inductive KStep (p : Prog S I Sh Pc) (k : Kernel S Sh Pc) : KLabel I → Kernel S Sh Pc → Prop where
  | run {pc : Pc} {m' : State S Sh Pc} {k' : Kernel S Sh Pc}
      (hrun : k.status k.currentThread = .running) (hpc : k.m.ctl k.currentThread = .atPc pc)
      (hexec : exec k.m k.currentThread (p.code k.currentThread pc) = some m')
      (hafter : k.after m' (p.code k.currentThread pc) = some k') : KStep p k .run k'
  | timer (hrun : k.status k.currentThread = .running) : KStep p k .timer k.yield
  | intrV {i : I} {x : S} {sh' : Sh} (hh : p.handler i k.m.sh = some (some x, sh')) :
      KStep p k (.intr i) (({ k with m := { k.m.semV x with sh := sh' } }).wake (k.m.sem x).V.2)
  | intr {i : I} {sh' : Sh} (hh : p.handler i k.m.sh = some (none, sh')) :
      KStep p k (.intr i) { k with m := { k.m with sh := sh' } }
  | dispatch {nextThread : Tid} {q : ReadyLists} (hsleep : k.status k.currentThread ≠ .running)
      (hfind : k.readyListP.findNextToRun = (some nextThread, q)) :
      KStep p k .dispatch (({ k with readyListP := q }).run nextThread)

/-- **Inversion** for the kernel. -/
theorem kstep_of_kstepFn {p : Prog S I Sh Pc} {k k' : Kernel S Sh Pc} {l : KLabel I}
    (h : kstepFn p k l = some k') : KStep p k l k' := by
  cases l with
  | run =>
    simp only [kstepFn] at h
    split at h
    · rename_i hrun
      split at h
      · rename_i pc hpc
        split at h
        · rename_i m' hexec
          exact .run hrun hpc hexec h
        · nomatch h
      · nomatch h
    · nomatch h
  | timer =>
    simp only [kstepFn] at h
    split at h
    · rename_i hrun
      obtain rfl := Option.some.inj h
      exact .timer hrun
    · nomatch h
  | intr i =>
    simp only [kstepFn] at h
    split at h
    · rename_i x sh' hh
      obtain rfl := Option.some.inj h
      exact .intrV hh
    · rename_i sh' hh
      obtain rfl := Option.some.inj h
      exact .intr hh
    · nomatch h
  | dispatch =>
    simp only [kstepFn] at h
    split at h
    · nomatch h
    · rename_i hsleep
      split at h
      · rename_i nextThread q hfind
        obtain rfl := Option.some.inj h
        exact .dispatch hsleep hfind
      · nomatch h

@[simp] theorem Kernel.wake_m (k : Kernel S Sh Pc) (o : Option Tid) : (k.wake o).m = k.m := by
  cases o <;> rfl

@[simp] theorem Kernel.yield_m (k : Kernel S Sh Pc) : k.yield.m = k.m := by
  unfold Kernel.yield
  split <;> rfl

/-- What `currentThread` does: the action, the machine after it, and the kernel after the scheduler's part of it. -/
inductive Kernel.Ran (k : Kernel S Sh Pc) : Instr S Sh Pc → State S Sh Pc → Kernel S Sh Pc → Prop where
  | sleep {x : S} {upd : Sh → Sh} {next : Pc} (hv : (k.m.sem x).value = 0) :
      Ran k (.P x upd next) (k.m.semP k.currentThread x) { k with
        m := k.m.semP k.currentThread x
        status := Function.update k.status k.currentThread .blocked }
  | pass {x : S} {upd : Sh → Sh} {next : Pc} (hv : (k.m.sem x).value ≠ 0) :
      Ran k (.P x upd next) ((k.m.semP k.currentThread x).goto k.currentThread (upd k.m.sh) next)
        { k with m := (k.m.semP k.currentThread x).goto k.currentThread (upd k.m.sh) next }
  | V {x : S} {upd : Sh → Sh} {next : Pc} :
      Ran k (.V x upd next) ((k.m.semV x).goto k.currentThread (upd k.m.sh) next)
        (({ k with m := (k.m.semV x).goto k.currentThread (upd k.m.sh) next }).wake (k.m.sem x).V.2)
  | tau {f : Sh → Option (Sh × Pc)} {sh' : Sh} {next : Pc} (hf : f k.m.sh = some (sh', next)) :
      Ran k (.tau f) (k.m.goto k.currentThread sh' next) { k with m := k.m.goto k.currentThread sh' next }
  | keep {f : (Tid → Nat) → Sh → Donation Sh Pc} (hraise : (f k.m.prio k.m.sh).raise = none) :
      Ran k (.donate f) (k.m.goto k.currentThread (f k.m.prio k.m.sh).sh (f k.m.prio k.m.sh).next)
        { k with m := k.m.goto k.currentThread (f k.m.prio k.m.sh).sh (f k.m.prio k.m.sh).next }
  | donate {f : (Tid → Nat) → Sh → Donation Sh Pc} {thname : Tid} {pcurrent : Nat} {q : ReadyLists}
      (hraise : (f k.m.prio k.m.sh).raise = some (thname, pcurrent))
      (hchange : k.readyListP.changeQueuePriority k.m.prio thname pcurrent = some q) :
      Ran k (.donate f)
        { k.m.goto k.currentThread (f k.m.prio k.m.sh).sh (f k.m.prio k.m.sh).next with
          prio := k.m.raised (f k.m.prio k.m.sh).raise }
        { k with
          m := { k.m.goto k.currentThread (f k.m.prio k.m.sh).sh (f k.m.prio k.m.sh).next with
            prio := k.m.raised (f k.m.prio k.m.sh).raise }
          readyListP := q }
  | fork {f : Sh → Option (Forking Sh Pc)} {a : Forking Sh Pc} (hf : f k.m.sh = some a)
      (hfresh : k.m.ctl a.child = .fresh) (hprio : a.priority < maxPriority) :
      Ran k (.fork f)
        { k.m with
          ctl := Function.update (Function.update k.m.ctl a.child (.atPc a.start)) k.currentThread (.atPc a.next)
          prio := Function.update k.m.prio a.child a.priority
          sh := a.sh }
        (({ k with m := { k.m with
          ctl := Function.update (Function.update k.m.ctl a.child (.atPc a.start)) k.currentThread (.atPc a.next)
          prio := Function.update k.m.prio a.child a.priority
          sh := a.sh } }).readyToRun a.child)
  | yield {next : Pc} :
      Ran k (.yield next) (k.m.goto k.currentThread k.m.sh next)
        ({ k with m := k.m.goto k.currentThread k.m.sh next }).yield
  | finish {upd : Sh → Sh} :
      Ran k (.finish upd)
        { k.m with ctl := Function.update k.m.ctl k.currentThread .finished, sh := upd k.m.sh }
        { k with
          m := { k.m with ctl := Function.update k.m.ctl k.currentThread .finished, sh := upd k.m.sh }
          status := Function.update k.status k.currentThread .blocked
          threadToBeDestroyed := some k.currentThread }

/-- **Inversion** for the running thread: one case for each thing it can do. -/
theorem Kernel.ran_of_after {k k' : Kernel S Sh Pc} {m' : State S Sh Pc} {i : Instr S Sh Pc}
    (hexec : exec k.m k.currentThread i = some m') (hafter : k.after m' i = some k') : k.Ran i m' k' := by
  cases i with
  | P x upd next =>
    simp only [exec, Kernel.after] at hexec hafter
    split at hexec
    · cases hexec
    · split at hexec <;> obtain rfl := Option.some.inj hexec
      · rename_i hv
        rw [if_pos hv] at hafter
        obtain rfl := Option.some.inj hafter
        exact .sleep hv
      · rename_i hv
        rw [if_neg hv] at hafter
        obtain rfl := Option.some.inj hafter
        exact .pass hv
  | V x upd next =>
    obtain rfl := Option.some.inj hexec
    obtain rfl := Option.some.inj hafter
    exact .V
  | tau f =>
    obtain ⟨⟨sh', next⟩, hf, rfl⟩ := Option.map_eq_some_iff.mp hexec
    obtain rfl := Option.some.inj hafter
    exact .tau hf
  | donate f =>
    obtain rfl := Option.some.inj hexec
    simp only [Kernel.after] at hafter
    split at hafter
    · rename_i hraise
      obtain rfl := Option.some.inj hafter
      rw [hraise]
      exact .keep hraise
    · rename_i thname pcurrent hraise
      split at hafter
      · cases hafter
      · rename_i q hchange
        obtain rfl := Option.some.inj hafter
        exact .donate hraise hchange
  | fork f =>
    simp only [exec, Kernel.after] at hexec hafter
    cases hf : f k.m.sh with
    | none =>
      simp only [hf] at hexec
      cases hexec
    | some a =>
      simp only [hf] at hexec hafter
      split at hexec
      · rename_i hfresh
        split at hafter
        · rename_i hprio
          obtain rfl := Option.some.inj hexec
          obtain rfl := Option.some.inj hafter
          exact .fork hf (Ctl.isFresh_iff.mp hfresh) hprio
        · cases hafter
      · cases hexec
  | yield next =>
    obtain rfl := Option.some.inj hexec
    obtain rfl := Option.some.inj hafter
    exact .yield
  | finish upd =>
    obtain rfl := Option.some.inj hexec
    obtain rfl := Option.some.inj hafter
    exact .finish

/-- The scheduler's part of an action leaves the machine as the action left it. -/
theorem Kernel.Ran.m_eq {k k' : Kernel S Sh Pc} {m' : State S Sh Pc} {i : Instr S Sh Pc} (h : k.Ran i m' k') :
    k'.m = m' := by
  cases h with
  | V => exact Kernel.wake_m _ _
  | yield => exact Kernel.yield_m _
  | _ => rfl

/-- What a step of the kernel is to the machine; a context switch is nothing. -/
def KLabel.machine (currentThread : Tid) : KLabel I → Option (Label I)
  | .run => some (.run currentThread)
  | .intr i => some (.intr i)
  | .timer => none
  | .dispatch => none

/-- Every step of the kernel is a step of `currentThread` or of a handler in the machine, or is
    invisible there. -/
theorem kstep_m {p : Prog S I Sh Pc} {k k' : Kernel S Sh Pc} {l : KLabel I}
    (h : kstepFn p k l = some k') :
    k'.m = k.m ∨
      ∃ l', l.machine k.currentThread = some l' ∧ stepFn p k.m l' = some k'.m := by
  cases kstep_of_kstepFn h with
  | @run pc m' _ hrun hpc hexec hafter =>
    refine Or.inr ⟨.run k.currentThread, rfl, ?_⟩
    rw [(Kernel.ran_of_after hexec hafter).m_eq]
    simp only [stepFn, hpc]
    exact hexec
  | timer hrun => exact Or.inl (Kernel.yield_m k)
  | @intrV i x sh' hh =>
    refine Or.inr ⟨.intr i, rfl, ?_⟩
    rw [Kernel.wake_m]
    simp only [stepFn, hh]
  | @intr i sh' hh =>
    refine Or.inr ⟨.intr i, rfl, ?_⟩
    simp only [stepFn, hh]
  | dispatch hsleep hfind => exact Or.inl rfl

/-- **The kernel refines the interleaving machine.** -/
theorem kernel_refines {p : Prog S I Sh Pc} {k : Kernel S Sh Pc} (h : (kernel p).Reach k) :
    (machine p).Reach k.m := by
  refine h.simulate Kernel.m (fun k (hi : KInit p k) => hi.m) ?_
  intro k l k' _ _ hs
  refine (kstep_m hs).imp_right ?_
  rintro ⟨l', -, hstep⟩
  exact ⟨l', hstep⟩

/-- The same for runs whose steps all meet a condition. -/
theorem kernel_refines_restrict {p : Prog S I Sh Pc} {okKernel : Kernel S Sh Pc → KLabel I → Prop}
    {ok : State S Sh Pc → Label I → Prop}
    (hok : ∀ k l l', okKernel k l → l.machine k.currentThread = some l' → ok k.m l')
    {k : Kernel S Sh Pc} (h : ((kernel p).restrict okKernel).Reach k) :
    ((machine p).restrict ok).Reach k.m := by
  refine h.simulate (N := (machine p).restrict ok) Kernel.m (fun k (hi : KInit p k) => hi.m) ?_
  rintro k l k' - - ⟨hmeets, hs⟩
  refine (kstep_m hs).imp_right ?_
  rintro ⟨l', hl, hstep⟩
  exact ⟨l', hok k l l' hmeets hl, hstep⟩

/-! ## Threads are deleted after they have finished -/

/-- `Scheduler::Run` has deleted the thread or is going to. -/
def Kernel.Doomed (k : Kernel S Sh Pc) (t : Tid) : Prop :=
  t ∈ k.deleted ∨ k.threadToBeDestroyed = some t

theorem Kernel.doomed_run {k : Kernel S Sh Pc} {nextThread t : Tid}
    (h : (k.run nextThread).Doomed t) : k.Doomed t := by
  unfold Kernel.Doomed Kernel.run at h
  by_cases hstarted : k.started nextThread = true
  · simp only [hstarted, if_true, List.mem_append, Option.mem_toList, reduceCtorEq, or_false] at h
    exact h
  · simp only [hstarted] at h
    exact h

theorem Kernel.doomed_yield {k : Kernel S Sh Pc} {t : Tid} (h : k.yield.Doomed t) : k.Doomed t := by
  unfold Kernel.yield at h
  split at h
  · exact h
  · exact doomed_run h

theorem Kernel.doomed_wake {k : Kernel S Sh Pc} {o : Option Tid} {t : Tid} (h : (k.wake o).Doomed t) :
    k.Doomed t := by
  cases o <;> exact h

/-- Only `Finish` dooms a thread, the one that calls it. -/
theorem Kernel.Ran.doomed {k k' : Kernel S Sh Pc} {m' : State S Sh Pc} {i : Instr S Sh Pc} {t : Tid}
    (h : k.Ran i m' k') (ht : k'.Doomed t) : k.Doomed t ∨ k'.m.ctl t = .finished := by
  cases h with
  | V =>
    left
    have hd := doomed_wake ht
    exact hd
  | yield =>
    left
    have hd := doomed_yield ht
    exact hd
  | finish =>
    rcases ht with hdel | hcur
    · exact Or.inl (Or.inl hdel)
    · right
      obtain rfl := Option.some.inj hcur
      exact Function.update_self _ _ _
  | _ => exact Or.inl ht

theorem finished_of_doomed {p : Prog S I Sh Pc} {k : Kernel S Sh Pc} (h : (kernel p).Reach k) :
    ∀ t, k.Doomed t → k.m.ctl t = .finished := by
  refine h.invariant (I := fun k => ∀ t, k.Doomed t → k.m.ctl t = .finished) ?_ ?_
  · intro k hi t ht
    rcases ht with hdel | hcur
    · rw [hi.deleted] at hdel
      exact absurd hdel List.not_mem_nil
    · rw [hi.threadToBeDestroyed] at hcur
      nomatch hcur
  · intro k l k' hr hok hs t ht
    -- a thread that was doomed before has finished before, and stays so
    have hold : k.Doomed t → k'.m.ctl t = .finished := by
      intro hd
      rcases kstep_m hs with hm | ⟨l', -, hstep⟩
      · rw [hm]
        exact hok t hd
      · exact (step_of_stepFn hstep).finished (hok t hd)
    cases kstep_of_kstepFn hs with
    | @run pc m' _ hrun hpc hexec hafter =>
      rcases (Kernel.ran_of_after hexec hafter).doomed ht with hd | hfinished
      · exact hold hd
      · exact hfinished
    | timer hrun => exact hold (Kernel.doomed_yield ht)
    | intrV hh =>
      have hd := Kernel.doomed_wake ht
      exact hold hd
    | intr hh => exact hold ht
    | dispatch hsleep hfind =>
      have hd := Kernel.doomed_run ht
      exact hold hd

/-! ## Where the threads are

  `Spot` says what the status of a thread means: which ready list it is on, which semaphore queue,
  and what is left of its code.  An operation of the scheduler changes the spot of one thread or two
  and leaves the others where they are (`Spot.frame`): the running thread acts, sleeps or finishes, a
  woken or forked thread goes to the end of its ready list, and a context switch puts the thread that
  ran back and takes the next one off. -/

/-- No thread donates its priority: `ChangeQueuePriority` is never called. -/
def Prog.NoDonation (p : Prog S I Sh Pc) : Prop :=
  ∀ t pc f, p.code t pc ≠ .donate f

namespace Kernel

/-- The thread has code left to run, and its priority has a ready list. -/
def Alive (k : Kernel S Sh Pc) (t : Tid) : Prop :=
  (∃ pc, k.m.ctl t = .atPc pc) ∧ k.m.prio t < maxPriority

/-- What the status of a thread says about where it is. -/
def Spot (k : Kernel S Sh Pc) (t : Tid) : Prop :=
  match k.status t with
  | .justCreated => k.m.ctl t = .fresh ∧ (∀ i, t ∉ k.readyListP i) ∧ ∀ x, t ∉ (k.m.sem x).queue
  | .running =>
    t = k.currentThread ∧ k.Alive t ∧ (∀ i, t ∉ k.readyListP i) ∧ ∀ x, t ∉ (k.m.sem x).queue
  | .ready => k.Alive t ∧ (∀ i, t ∈ k.readyListP i ↔ i = k.m.prio t) ∧ ∀ x, t ∉ (k.m.sem x).queue
  | .blocked =>
    (∀ i, t ∉ k.readyListP i) ∧
      ((k.m.ctl t = .finished ∧ ∀ x, t ∉ (k.m.sem x).queue) ∨
       (k.Alive t ∧ ∃ x, ∀ y, t ∈ (k.m.sem y).queue ↔ y = x))

theorem spot_justCreated {k : Kernel S Sh Pc} {t : Tid} (h : k.status t = .justCreated) :
    k.Spot t ↔ k.m.ctl t = .fresh ∧ (∀ i, t ∉ k.readyListP i) ∧ ∀ x, t ∉ (k.m.sem x).queue := by
  simp only [Spot, h]

theorem spot_running {k : Kernel S Sh Pc} {t : Tid} (h : k.status t = .running) :
    k.Spot t ↔ t = k.currentThread ∧ k.Alive t ∧ (∀ i, t ∉ k.readyListP i) ∧
      ∀ x, t ∉ (k.m.sem x).queue := by
  simp only [Spot, h]

theorem spot_ready {k : Kernel S Sh Pc} {t : Tid} (h : k.status t = .ready) :
    k.Spot t ↔ k.Alive t ∧ (∀ i, t ∈ k.readyListP i ↔ i = k.m.prio t) ∧
      ∀ x, t ∉ (k.m.sem x).queue := by
  simp only [Spot, h]

theorem spot_blocked {k : Kernel S Sh Pc} {t : Tid} (h : k.status t = .blocked) :
    k.Spot t ↔ (∀ i, t ∉ k.readyListP i) ∧
      ((k.m.ctl t = .finished ∧ ∀ x, t ∉ (k.m.sem x).queue) ∨
       (k.Alive t ∧ ∃ x, ∀ y, t ∈ (k.m.sem y).queue ↔ y = x)) := by
  simp only [Spot, h]

/-- **The frame rule**: a thread that an operation does not touch keeps its spot. -/
theorem Spot.frame {k k' : Kernel S Sh Pc} {t : Tid} (h : k.Spot t)
    (hst : k'.status t = k.status t) (hctl : k'.m.ctl t = k.m.ctl t)
    (hprio : k'.m.prio t = k.m.prio t) (hlist : ∀ i, t ∈ k'.readyListP i ↔ t ∈ k.readyListP i)
    (hqueue : ∀ x, t ∈ (k'.m.sem x).queue ↔ t ∈ (k.m.sem x).queue)
    (hcur : k.status t = .running → k'.currentThread = k.currentThread) : k'.Spot t := by
  have halive : k'.Alive t ↔ k.Alive t := by
    unfold Alive
    rw [hctl, hprio]
  cases hs : k.status t with
  | justCreated =>
    rw [spot_justCreated hs] at h
    rw [spot_justCreated (hst.trans hs)]
    simpa only [hctl, hlist, hqueue] using h
  | running =>
    rw [spot_running hs] at h
    rw [spot_running (hst.trans hs), hcur hs]
    simpa only [halive, hlist, hqueue] using h
  | ready =>
    rw [spot_ready hs] at h
    rw [spot_ready (hst.trans hs)]
    simpa only [halive, hprio, hlist, hqueue] using h
  | blocked =>
    rw [spot_blocked hs] at h
    rw [spot_blocked (hst.trans hs)]
    simpa only [halive, hctl, hlist, hqueue] using h

/-- Every thread is where its status says, and on no list or queue twice. -/
structure Placed (k : Kernel S Sh Pc) : Prop where
  spot : ∀ t, k.Spot t
  lists : ∀ i, (k.readyListP i).Nodup
  queues : ∀ x, (k.m.sem x).queue.Nodup

/-- A thread on a ready list is READY. -/
theorem Placed.status_ready {k : Kernel S Sh Pc} (h : k.Placed) {t : Tid} {i : Nat}
    (hi : t ∈ k.readyListP i) : k.status t = .ready := by
  have hspot := h.spot t
  cases hs : k.status t with
  | ready => rfl
  | justCreated => exact absurd hi (((spot_justCreated hs).mp hspot).2.1 i)
  | running => exact absurd hi (((spot_running hs).mp hspot).2.2.1 i)
  | blocked => exact absurd hi (((spot_blocked hs).mp hspot).1 i)

/-- A thread on a semaphore queue is BLOCKED. -/
theorem Placed.status_queue {k : Kernel S Sh Pc} (h : k.Placed) {t : Tid} {x : S}
    (hx : t ∈ (k.m.sem x).queue) : k.status t = .blocked := by
  have hspot := h.spot t
  cases hs : k.status t with
  | blocked => rfl
  | justCreated => exact absurd hx (((spot_justCreated hs).mp hspot).2.2 x)
  | running => exact absurd hx (((spot_running hs).mp hspot).2.2.2 x)
  | ready => exact absurd hx (((spot_ready hs).mp hspot).2.2 x)

theorem Placed.boot {p : Prog S I Sh Pc} {k : Kernel S Sh Pc} (hi : KInit p k) : k.Placed := by
  have hlists : ∀ i, k.readyListP i = [] := hi.readyListP_nil
  have hqueue : ∀ x, (k.m.sem x).queue = [] := hi.queue_nil
  refine ⟨fun t => ?_, fun i => by rw [hlists i]; exact List.nodup_nil,
    fun x => by rw [hqueue x]; exact List.nodup_nil⟩
  by_cases ht : t = k.currentThread
  · have hst : k.status t = .running := by rw [hi.status]; exact if_pos ht
    rw [spot_running hst]
    subst ht
    exact ⟨rfl, ⟨hi.main, by rw [hi.prio]; decide⟩, by simp [hlists], by simp [hqueue]⟩
  · have hst : k.status t = .justCreated := by rw [hi.status]; exact if_neg ht
    rw [spot_justCreated hst]
    exact ⟨hi.fresh t ht, by simp [hlists], by simp [hqueue]⟩

/-- The running thread goes on at another program point; the queues stay as they are. -/
theorem Placed.move {k : Kernel S Sh Pc} {m' : State S Sh Pc} (h : k.Placed)
    (hrun : k.status k.currentThread = .running)
    (hqueue : ∀ x, (m'.sem x).queue = (k.m.sem x).queue) (hprio : m'.prio = k.m.prio)
    (hctl : ∀ t, t ≠ k.currentThread → m'.ctl t = k.m.ctl t)
    (hcur : ∃ pc, m'.ctl k.currentThread = .atPc pc) : Placed { k with m := m' } := by
  refine ⟨fun t => ?_, h.lists, fun x => by rw [hqueue x]; exact h.queues x⟩
  by_cases ht : t = k.currentThread
  · subst ht
    obtain ⟨-, ⟨-, hbound⟩, hlist, hq⟩ := (spot_running hrun).mp (h.spot _)
    refine (spot_running (k := { k with m := m' }) hrun).mpr ⟨rfl, ⟨hcur, ?_⟩, hlist, fun x => ?_⟩
    · show m'.prio k.currentThread < maxPriority
      rw [hprio]
      exact hbound
    · rw [hqueue x]
      exact hq x
  · exact (h.spot t).frame rfl (hctl t ht) (congrFun hprio t) (fun _ => Iff.rfl)
      (fun x => by rw [hqueue x]) fun _ => rfl

/-- The running thread goes to sleep on the queue of `x`. -/
theorem Placed.block {k : Kernel S Sh Pc} {m' : State S Sh Pc} {x : S} (h : k.Placed)
    (hrun : k.status k.currentThread = .running)
    (hx : (m'.sem x).queue = (k.m.sem x).queue ++ [k.currentThread])
    (hother : ∀ y, y ≠ x → (m'.sem y).queue = (k.m.sem y).queue)
    (hctl : m'.ctl = k.m.ctl) (hprio : m'.prio = k.m.prio) :
    Placed { k with m := m', status := Function.update k.status k.currentThread .blocked } := by
  obtain ⟨-, halive, hlist, hq⟩ := (spot_running hrun).mp (h.spot k.currentThread)
  have hmem : ∀ t y, t ∈ (m'.sem y).queue ↔
      t ∈ (k.m.sem y).queue ∨ (y = x ∧ t = k.currentThread) := by
    intro t y
    by_cases hy : y = x
    · subst hy
      rw [hx]
      simp
    · rw [hother y hy]
      simp [hy]
  refine ⟨fun t => ?_, h.lists, fun y => ?_⟩
  · by_cases ht : t = k.currentThread
    · subst ht
      refine (spot_blocked (Function.update_self _ _ _)).mpr ⟨hlist, Or.inr ⟨?_, x, fun y => ?_⟩⟩
      · unfold Alive
        rw [hctl, hprio]
        exact halive
      · rw [hmem]
        simp [hq y]
    · refine (h.spot t).frame (Function.update_of_ne ht _ _) (congrFun hctl t) (congrFun hprio t)
        (fun _ => Iff.rfl) (fun y => ?_) fun _ => rfl
      rw [hmem]
      simp [ht]
  · by_cases hy : y = x
    · subst hy
      show ((m'.sem y).queue).Nodup
      rw [hx]
      exact List.nodup_append_comm.mpr (List.nodup_cons.mpr ⟨hq y, h.queues y⟩)
    · show ((m'.sem y).queue).Nodup
      rw [hother y hy]
      exact h.queues y

/-- The running thread finishes. -/
theorem Placed.finish {k : Kernel S Sh Pc} (h : k.Placed)
    (hrun : k.status k.currentThread = .running) (sh' : Sh) :
    Placed { k with
      m := { k.m with ctl := Function.update k.m.ctl k.currentThread .finished, sh := sh' }
      status := Function.update k.status k.currentThread .blocked
      threadToBeDestroyed := some k.currentThread } := by
  obtain ⟨-, -, hlist, hq⟩ := (spot_running hrun).mp (h.spot k.currentThread)
  refine ⟨fun t => ?_, h.lists, h.queues⟩
  by_cases ht : t = k.currentThread
  · subst ht
    exact (spot_blocked (Function.update_self _ _ _)).mpr
      ⟨hlist, Or.inl ⟨Function.update_self _ _ _, hq⟩⟩
  · exact (h.spot t).frame (Function.update_of_ne ht _ _) (Function.update_of_ne ht _ _) rfl
      (fun _ => Iff.rfl) (fun _ => Iff.rfl) fun _ => rfl

end Kernel

/-- `ReadyToRun` adds one thread, at the end of the list of its priority. -/
theorem ReadyLists.mem_readyToRun {q : ReadyLists} {t u : Tid} {i p : Nat} :
    u ∈ q.readyToRun t p i ↔ u ∈ q i ∨ (u = t ∧ i = p) := by
  unfold ReadyLists.readyToRun
  by_cases hi : i = p
  · subst hi
    simp
  · simp [hi]

theorem ReadyLists.nodup_readyToRun {q : ReadyLists} (h : ∀ i, (q i).Nodup) {t : Tid}
    (hnot : ∀ i, t ∉ q i) (p i : Nat) : (q.readyToRun t p i).Nodup := by
  unfold ReadyLists.readyToRun
  by_cases hi : i = p
  · subst hi
    rw [Function.update_self]
    exact List.nodup_append_comm.mpr (List.nodup_cons.mpr ⟨hnot i, h i⟩)
  · rw [Function.update_of_ne hi]
    exact h i

namespace Kernel

/-- A thread on no list becomes ready: it leaves the semaphore queue it was on, if any. -/
theorem Placed.readyToRun {k : Kernel S Sh Pc} {m' : State S Sh Pc} {u : Tid} (h : k.Placed)
    (hctl : ∀ t, t ≠ u → m'.ctl t = k.m.ctl t) (hprio : ∀ t, t ≠ u → m'.prio t = k.m.prio t)
    (hqueue : ∀ x t, t ∈ (m'.sem x).queue ↔ t ∈ (k.m.sem x).queue ∧ t ≠ u)
    (hnodup : ∀ x, (m'.sem x).queue.Nodup)
    (hu : (∃ pc, m'.ctl u = .atPc pc) ∧ m'.prio u < maxPriority)
    (hlist : ∀ i, u ∉ k.readyListP i) : (({ k with m := m' }).readyToRun u).Placed := by
  refine ⟨fun t => ?_, ReadyLists.nodup_readyToRun h.lists hlist _, hnodup⟩
  by_cases ht : t = u
  · subst ht
    refine (spot_ready (Function.update_self _ _ _)).mpr ⟨hu, fun i => ?_, fun x hx => ?_⟩
    · show t ∈ ReadyLists.readyToRun k.readyListP t (m'.prio t) i ↔ i = m'.prio t
      rw [ReadyLists.mem_readyToRun]
      simp [hlist i]
    · exact ((hqueue x t).mp hx).2 rfl
  · refine (h.spot t).frame (Function.update_of_ne ht _ _) (hctl t ht) (hprio t ht) (fun i => ?_)
      (fun x => ?_) fun _ => rfl
    · show t ∈ ReadyLists.readyToRun k.readyListP u (m'.prio u) i ↔ t ∈ k.readyListP i
      rw [ReadyLists.mem_readyToRun]
      simp [ht]
    · show t ∈ (m'.sem x).queue ↔ t ∈ (k.m.sem x).queue
      rw [hqueue]
      simp [ht]

/-- `V` wakes the head of the queue. -/
theorem Placed.semV {k : Kernel S Sh Pc} (h : k.Placed) (x : S) (sh' : Sh) :
    (({ k with m := { k.m.semV x with sh := sh' } }).wake (k.m.sem x).V.2).Placed := by
  cases hq : (k.m.sem x).queue with
  | nil =>
    have hsame : ∀ y, ((k.m.semV x).sem y).queue = (k.m.sem y).queue := by
      intro y
      by_cases hy : y = x
      · subst hy
        simp [hq]
      · simp [hy]
    rw [Semaphore.V_woken, hq]
    refine ⟨fun t => (h.spot t).frame rfl rfl rfl (fun _ => Iff.rfl) (fun y => ?_) fun _ => rfl,
      h.lists, fun y => ?_⟩
    · exact iff_of_eq (congrArg (t ∈ ·) (hsame y))
    · show (((k.m.semV x).sem y).queue).Nodup
      rw [hsame y]
      exact h.queues y
  | cons u rest =>
    have hux : u ∈ (k.m.sem x).queue := by rw [hq]; exact List.mem_cons_self
    have hnodup := h.queues x
    rw [hq, List.nodup_cons] at hnodup
    -- a thread on a queue has code left, is on no list, and is on this queue only
    obtain ⟨hlist, halive, honly⟩ : (∀ i, u ∉ k.readyListP i) ∧ k.Alive u ∧
        ∀ y, u ∈ (k.m.sem y).queue ↔ y = x := by
      obtain ⟨hlist, ⟨-, hno⟩ | ⟨halive, z, hz⟩⟩ :=
        (spot_blocked (h.status_queue hux)).mp (h.spot u)
      · exact absurd hux (hno x)
      · obtain rfl := (hz x).mp hux
        exact ⟨hlist, halive, hz⟩
    have hmem : ∀ y t, t ∈ ((k.m.semV x).sem y).queue ↔ t ∈ (k.m.sem y).queue ∧ t ≠ u := by
      intro y t
      by_cases hy : y = x
      · subst hy
        simp only [State.semV_sem, Function.update_self, Semaphore.V_queue, hq, List.tail_cons,
          List.mem_cons]
        constructor
        · intro ht
          refine ⟨Or.inr ht, ?_⟩
          rintro rfl
          exact hnodup.1 ht
        · rintro ⟨ht | ht, hne⟩
          · exact absurd ht hne
          · exact ht
      · simp only [State.semV_sem, Function.update_of_ne hy]
        refine ⟨fun ht => ⟨ht, ?_⟩, And.left⟩
        rintro rfl
        exact hy ((honly y).mp ht)
    rw [Semaphore.V_woken, hq]
    refine h.readyToRun (fun _ _ => rfl) (fun _ _ => rfl) hmem (fun y => ?_) halive hlist
    by_cases hy : y = x
    · subst hy
      simpa [hq] using hnodup.2
    · simpa [hy] using h.queues y

/-- A context switch: the thread that ran, if it is still running, goes to the ready list of its
    priority, and `n` comes off its list. -/
theorem Placed.switch {k k' : Kernel S Sh Pc} {n : Tid} (h : k.Placed) (hn : k.status n = .ready)
    (hm : k'.m = k.m) (hcur : k'.currentThread = n) (hstn : k'.status n = .running)
    (hstatus : ∀ t, t ≠ n →
      k'.status t = if k.status t = .running then .ready else k.status t)
    (hlist : ∀ t i, t ∈ k'.readyListP i ↔
      (t ∈ k.readyListP i ∧ t ≠ n) ∨ (k.status t = .running ∧ i = k.m.prio t))
    (hnodup : ∀ i, (k'.readyListP i).Nodup) : k'.Placed := by
  refine ⟨fun t => ?_, hnodup, fun x => by rw [hm]; exact h.queues x⟩
  have halive : k'.Alive t ↔ k.Alive t := by
    unfold Alive
    rw [hm]
  by_cases ht : t = n
  · subst ht
    obtain ⟨ha, -, hq⟩ := (spot_ready hn).mp (h.spot t)
    refine (spot_running hstn).mpr ⟨hcur.symm, halive.mpr ha, fun i => ?_, by rw [hm]; exact hq⟩
    rw [hlist, hn]
    simp
  · by_cases hrun : k.status t = .running
    · obtain ⟨-, ha, hno, hq⟩ := (spot_running hrun).mp (h.spot t)
      have hst : k'.status t = .ready := by rw [hstatus t ht, if_pos hrun]
      refine (spot_ready hst).mpr ⟨halive.mpr ha, fun i => ?_, by rw [hm]; exact hq⟩
      rw [hlist, hm]
      simp [hno i, hrun]
    · have hst : k'.status t = k.status t := by rw [hstatus t ht, if_neg hrun]
      refine (h.spot t).frame hst (by rw [hm]) (by rw [hm]) (fun i => ?_) (fun x => by rw [hm])
        fun hr => absurd hr hrun
      rw [hlist]
      simp [ht, hrun]

/-- What `FindNextToRun` takes off the lists was ready, and is gone from them. -/
theorem Placed.found {k : Kernel S Sh Pc} {n : Tid} {q : ReadyLists} (h : k.Placed)
    (hfind : k.readyListP.findNextToRun = (some n, q)) :
    k.status n = .ready ∧ (∀ t i, t ∈ q i ↔ t ∈ k.readyListP i ∧ t ≠ n) ∧ ∀ i, (q i).Nodup := by
  obtain ⟨j, -, hj, hother, -⟩ := ReadyLists.findNextToRun_some hfind
  have hmem : n ∈ k.readyListP j := by rw [hj]; exact List.mem_cons_self
  have hnodup := h.lists j
  rw [hj, List.nodup_cons] at hnodup
  have hready := h.status_ready hmem
  obtain ⟨-, honly, -⟩ := (spot_ready hready).mp (h.spot n)
  refine ⟨hready, fun t i => ?_, fun i => ?_⟩
  · by_cases hi : i = j
    · subst hi
      rw [hj, List.mem_cons]
      constructor
      · intro ht
        refine ⟨Or.inr ht, ?_⟩
        rintro rfl
        exact hnodup.1 ht
      · rintro ⟨ht | ht, hne⟩
        · exact absurd ht hne
        · exact ht
    · rw [hother i hi]
      refine ⟨fun ht => ⟨ht, ?_⟩, And.left⟩
      -- `n` is on the list of its priority only
      rintro rfl
      exact hi (((honly i).mp ht).trans ((honly j).mp hmem).symm)
  · by_cases hi : i = j
    · subst hi
      exact hnodup.2
    · rw [hother i hi]
      exact h.lists i

theorem Placed.yield {k : Kernel S Sh Pc} (h : k.Placed)
    (hrun : k.status k.currentThread = .running) : k.yield.Placed := by
  unfold Kernel.yield
  split
  · exact h
  · rename_i n q hfind
    obtain ⟨hready, hmem, hnodup⟩ := h.found hfind
    obtain ⟨-, -, hno, -⟩ := (spot_running hrun).mp (h.spot k.currentThread)
    have hne : k.currentThread ≠ n := by
      rintro heq
      rw [← heq, hrun] at hready
      nomatch hready
    have hcurrent : ∀ t, k.status t = .running ↔ t = k.currentThread := by
      intro t
      refine ⟨fun ht => ((spot_running ht).mp (h.spot t)).1, ?_⟩
      rintro rfl
      exact hrun
    refine h.switch hready rfl rfl (Function.update_self _ _ _) (fun t ht => ?_) (fun t i => ?_)
      fun i => ?_
    · show Function.update (Function.update k.status k.currentThread .ready) n .running t = _
      rw [Function.update_of_ne ht, Function.update_apply]
      simp only [hcurrent]
    · show t ∈ ReadyLists.readyToRun q k.currentThread (k.m.prio k.currentThread) i ↔ _
      rw [ReadyLists.mem_readyToRun, hmem, hcurrent]
      constructor
      · rintro (ht | ⟨rfl, hi⟩)
        · exact Or.inl ht
        · exact Or.inr ⟨rfl, hi⟩
      · rintro (ht | ⟨rfl, hi⟩)
        · exact Or.inl ht
        · exact Or.inr ⟨rfl, hi⟩
    · exact ReadyLists.nodup_readyToRun hnodup (fun j hj => hno j ((hmem _ j).mp hj).1) _ i

theorem Placed.dispatch {k : Kernel S Sh Pc} {n : Tid} {q : ReadyLists} (h : k.Placed)
    (hsleep : k.status k.currentThread ≠ .running)
    (hfind : k.readyListP.findNextToRun = (some n, q)) :
    (({ k with readyListP := q }).run n).Placed := by
  obtain ⟨hready, hmem, hnodup⟩ := h.found hfind
  have hnone : ∀ t, k.status t ≠ .running := by
    intro t ht
    obtain rfl := ((spot_running ht).mp (h.spot t)).1
    exact hsleep ht
  refine h.switch hready rfl rfl (Function.update_self _ _ _) (fun t ht => ?_) (fun t i => ?_) hnodup
  · rw [if_neg (hnone t)]
    exact Function.update_of_ne ht _ _
  · show t ∈ q i ↔ _
    rw [hmem]
    simp [hnone t]

/-- The running thread is on no semaphore queue, so the `V` it makes wakes another thread. -/
theorem Placed.semV_goto {k : Kernel S Sh Pc} (h : k.Placed)
    (hrun : k.status k.currentThread = .running) (x : S) (sh' : Sh) (next : Pc) :
    (({ k with m := (k.m.semV x).goto k.currentThread sh' next }).wake (k.m.sem x).V.2).Placed := by
  have hwoken := h.semV x sh'
  obtain ⟨-, -, -, hq⟩ := (spot_running hrun).mp (h.spot k.currentThread)
  cases hw : (k.m.sem x).V.2 with
  | none =>
    rw [hw] at hwoken
    exact hwoken.move hrun (fun _ => rfl) rfl (fun t ht => Function.update_of_ne ht _ _)
      ⟨next, Function.update_self _ _ _⟩
  | some u =>
    rw [hw] at hwoken
    have hne : k.currentThread ≠ u := by
      rintro rfl
      exact hq x (List.mem_of_head? hw)
    exact hwoken.move ((Function.update_of_ne hne _ _).trans hrun) (fun _ => rfl) rfl
      (fun t ht => Function.update_of_ne ht _ _) ⟨next, Function.update_self _ _ _⟩

/-- The running thread forks a new one. -/
theorem Placed.fork {k : Kernel S Sh Pc} {a : Forking Sh Pc} (h : k.Placed)
    (hrun : k.status k.currentThread = .running) (hfresh : k.m.ctl a.child = .fresh)
    (hprio : a.priority < maxPriority) :
    (({ k with m := { k.m with
        ctl := Function.update (Function.update k.m.ctl a.child (.atPc a.start)) k.currentThread
          (.atPc a.next)
        prio := Function.update k.m.prio a.child a.priority
        sh := a.sh } }).readyToRun a.child).Placed := by
  have hgoto : Placed { k with m := k.m.goto k.currentThread a.sh a.next } :=
    h.move hrun (fun _ => rfl) rfl (fun t ht => by simp [ht]) ⟨a.next, by simp⟩
  obtain ⟨-, ⟨⟨pc, hpc⟩, -⟩, -, -⟩ := (spot_running hrun).mp (h.spot k.currentThread)
  have hne : a.child ≠ k.currentThread := by
    intro heq
    rw [heq, hpc] at hfresh
    nomatch hfresh
  -- a new thread is on no list and on no queue
  obtain ⟨hlist, hq⟩ : (∀ i, a.child ∉ k.readyListP i) ∧ ∀ x, a.child ∉ (k.m.sem x).queue := by
    have hspot := h.spot a.child
    cases hs : k.status a.child with
    | justCreated => exact ((spot_justCreated hs).mp hspot).2
    | running => exact absurd ((spot_running hs).mp hspot).1 hne
    | ready =>
      obtain ⟨⟨⟨pc', hpc'⟩, -⟩, -⟩ := (spot_ready hs).mp hspot
      rw [hfresh] at hpc'
      nomatch hpc'
    | blocked =>
      obtain ⟨-, ⟨hfin, -⟩ | ⟨⟨⟨pc', hpc'⟩, -⟩, -⟩⟩ := (spot_blocked hs).mp hspot
      · rw [hfresh] at hfin
        nomatch hfin
      · rw [hfresh] at hpc'
        nomatch hpc'
  refine hgoto.readyToRun (fun t ht => ?_) (fun t ht => Function.update_of_ne ht _ _) (fun x t => ?_)
    h.queues ⟨⟨a.start, ?_⟩, ?_⟩ hlist
  · show Function.update (Function.update k.m.ctl a.child _) k.currentThread _ t = _
    simp [Function.update_apply, ht]
  · refine ⟨fun ht => ⟨ht, ?_⟩, And.left⟩
    rintro rfl
    exact hq x ht
  · show Function.update (Function.update k.m.ctl a.child _) k.currentThread _ a.child = _
    rw [Function.update_of_ne hne, Function.update_self]
  · show Function.update k.m.prio a.child a.priority a.child < maxPriority
    rw [Function.update_self]
    exact hprio

/-- Step lemma: without donation, a step of the kernel keeps every thread in its place. -/
theorem Placed.step {p : Prog S I Sh Pc} {k k' : Kernel S Sh Pc} {l : KLabel I}
    (hp : p.NoDonation) (h : k.Placed) (hs : KStep p k l k') : k'.Placed := by
  cases hs with
  | timer hrun => exact h.yield hrun
  | dispatch hsleep hfind => exact h.dispatch hsleep hfind
  | @intrV i x sh' hh => exact h.semV x sh'
  | @intr i sh' hh =>
    exact ⟨fun t => (h.spot t).frame rfl rfl rfl (fun _ => Iff.rfl) (fun _ => Iff.rfl) fun _ => rfl,
      h.lists, h.queues⟩
  | @run pc m' _ hrun hpc hexec hafter =>
    have hgoto : ∀ sh' pc', Placed { k with m := k.m.goto k.currentThread sh' pc' } :=
      fun sh' pc' => h.move hrun (fun _ => rfl) rfl (fun t ht => by simp [ht]) ⟨pc', by simp⟩
    generalize hcode : p.code k.currentThread pc = i at hexec hafter
    cases Kernel.ran_of_after hexec hafter with
    | @sleep x upd next hv =>
      exact h.block (x := x) hrun (by simp [Semaphore.P_zero hv]) (fun y hy => by simp [hy]) rfl rfl
    | @pass x upd next hv =>
      refine h.move hrun (fun y => ?_) rfl (fun t ht => by simp [ht]) ⟨next, by simp⟩
      by_cases hy : y = x
      · subst hy
        simp [Semaphore.P_pos hv]
      · simp [hy]
    | @V x upd next => exact h.semV_goto hrun x (upd k.m.sh) next
    | tau _ => exact hgoto _ _
    | @keep f _ | @donate f _ _ _ _ _ => exact absurd hcode (hp _ _ f)
    | fork _ hfresh hprio => exact h.fork hrun hfresh hprio
    | yield => exact (hgoto _ _).yield hrun
    | finish => exact h.finish hrun _

/-- Run lemma. -/
theorem placed_of_reach {p : Prog S I Sh Pc} (hp : p.NoDonation) {k : Kernel S Sh Pc}
    (h : (kernel p).Reach k) : k.Placed :=
  h.invariant (I := Placed) (fun _ hi => Placed.boot hi)
    fun _ _ _ _ hk hs => hk.step hp (kstep_of_kstepFn hs)

end Kernel

/-! ## Every thread is in exactly one place -/

/-- The places a thread can be in. -/
inductive Place (S : Type) where
  | running
  | ready (i : Nat)
  | waiting (x : S)
  | finished
  | notForked

/-- The thread is there. -/
def Kernel.InPlace (k : Kernel S Sh Pc) (t : Tid) : Place S → Prop
  | .running => t = k.currentThread ∧ k.status t = .running
  | .ready i => t ∈ k.readyListP i
  | .waiting x => t ∈ (k.m.sem x).queue
  | .finished => k.m.ctl t = .finished
  | .notForked => k.m.ctl t = .fresh

theorem Kernel.Placed.existsUnique {k : Kernel S Sh Pc} (h : k.Placed) (t : Tid) :
    ∃! a, k.InPlace t a := by
  have hspot := h.spot t
  cases hs : k.status t with
  | justCreated =>
    obtain ⟨hctl, hlist, hq⟩ := (spot_justCreated hs).mp hspot
    refine ⟨.notForked, hctl, fun a ha => ?_⟩
    cases a with
    | running => simp [InPlace, hs] at ha
    | ready i => exact absurd ha (hlist i)
    | waiting x => exact absurd ha (hq x)
    | finished => simp [InPlace, hctl] at ha
    | notForked => rfl
  | running =>
    obtain ⟨hcur, ⟨⟨pc, hpc⟩, -⟩, hlist, hq⟩ := (spot_running hs).mp hspot
    refine ⟨.running, ⟨hcur, hs⟩, fun a ha => ?_⟩
    cases a with
    | running => rfl
    | ready i => exact absurd ha (hlist i)
    | waiting x => exact absurd ha (hq x)
    | finished | notForked => simp [InPlace, hpc] at ha
  | ready =>
    obtain ⟨⟨⟨pc, hpc⟩, -⟩, hlist, hq⟩ := (spot_ready hs).mp hspot
    refine ⟨.ready (k.m.prio t), (hlist _).mpr rfl, fun a ha => ?_⟩
    cases a with
    | running => simp [InPlace, hs] at ha
    | ready i => rw [(hlist i).mp ha]
    | waiting x => exact absurd ha (hq x)
    | finished | notForked => simp [InPlace, hpc] at ha
  | blocked =>
    obtain ⟨hlist, ⟨hfin, hq⟩ | ⟨⟨⟨pc, hpc⟩, -⟩, x, hx⟩⟩ := (spot_blocked hs).mp hspot
    · refine ⟨.finished, hfin, fun a ha => ?_⟩
      cases a with
      | running => simp [InPlace, hs] at ha
      | ready i => exact absurd ha (hlist i)
      | waiting x => exact absurd ha (hq x)
      | finished => rfl
      | notForked => simp [InPlace, hfin] at ha
    · refine ⟨.waiting x, (hx x).mpr rfl, fun a ha => ?_⟩
      cases a with
      | running => simp [InPlace, hs] at ha
      | ready i => exact absurd ha (hlist i)
      | waiting y => rw [(hx y).mp ha]
      | finished | notForked => simp [InPlace, hpc] at ha

/-- **A context switch**, in whatever kind of step: `Sleep` has found a thread; or the running thread yields, by
    itself or on a timer tick, and another one is ready. -/
theorem KStep.switch {p : Prog S I Sh Pc} {k k' : Kernel S Sh Pc} {l : KLabel I} (hs : KStep p k l k')
    (hl : l = .dispatch ∨ k'.currentThread ≠ k.currentThread) :
    ∃ n q, k.readyListP.findNextToRun = (some n, q) ∧
      (l = .dispatch ∧ k' = ({ k with readyListP := q }).run n ∨
        ∃ m', l ≠ .dispatch ∧ m'.prio = k.m.prio ∧
          k' = (({ k with m := m', readyListP := q }).readyToRun k.currentThread).run n) := by
  -- only `yield` and `dispatch` change `currentThread`, and both ask `FindNextToRun`
  have hyield : ∀ m' : State S Sh Pc, l ≠ .dispatch → m'.prio = k.m.prio →
      (({ k with m := m' } : Kernel S Sh Pc)).yield.currentThread ≠ k.currentThread →
      ∃ n q, k.readyListP.findNextToRun = (some n, q) ∧
        (l = .dispatch ∧ ({ k with m := m' } : Kernel S Sh Pc).yield = ({ k with readyListP := q }).run n ∨
          ∃ m'', l ≠ .dispatch ∧ m''.prio = k.m.prio ∧ ({ k with m := m' } : Kernel S Sh Pc).yield
            = (({ k with m := m'', readyListP := q }).readyToRun k.currentThread).run n) := by
    intro m' hne hprio hcur
    unfold Kernel.yield at hcur ⊢
    split at hcur
    · exact absurd rfl hcur
    · rename_i n q hfind
      exact ⟨n, q, hfind, Or.inr ⟨m', hne, hprio, rfl⟩⟩
  cases hs with
  | timer hrun => exact hyield k.m nofun rfl (hl.resolve_left nofun)
  | dispatch hsleep hfind => exact ⟨_, _, hfind, Or.inl ⟨rfl, rfl⟩⟩
  | @intrV i x sh' hh =>
    refine absurd ?_ (hl.resolve_left nofun)
    cases (k.m.sem x).V.2 <;> rfl
  | intr hh => exact absurd rfl (hl.resolve_left nofun)
  | @run pc m' _ hrun hpc hexec hafter =>
    have hne := hl.resolve_left nofun
    generalize p.code k.currentThread pc = i at hexec hafter
    cases Kernel.ran_of_after hexec hafter with
    | yield => exact hyield _ nofun rfl hne
    | @V x upd next =>
      refine absurd ?_ hne
      cases (k.m.sem x).V.2 <;> rfl
    | _ => exact absurd rfl hne

/-- The processor is only ever given to a thread that was READY. -/
theorem Kernel.Placed.switch_ready {p : Prog S I Sh Pc} {k k' : Kernel S Sh Pc} {l : KLabel I}
    (h : k.Placed) (hs : KStep p k l k') (hl : l = .dispatch ∨ k'.currentThread ≠ k.currentThread) :
    k.status k'.currentThread = .ready := by
  obtain ⟨n, q, hfind, ⟨-, rfl⟩ | ⟨m', -, -, rfl⟩⟩ := hs.switch hl
  · exact (h.found hfind).1
  · exact (h.found hfind).1

/-- **Every thread is in exactly one place.**  In every run of every program that donates no
    priority — any threads, any semaphores, forks, yields, finishes, timer and device interrupts — a
    thread that has been forked runs, or is on one ready list, or on one semaphore queue, or has
    finished, and only one of these.  The ready list is that of its priority and the thread is READY
    and on it once; on a semaphore queue it is BLOCKED and on it once; and the processor is only ever
    given to a READY thread. -/
theorem kernel_one_place {p : Prog S I Sh Pc} (hp : p.NoDonation) {k : Kernel S Sh Pc}
    (h : (kernel p).Reach k) :
    (∀ t, ∃! a, k.InPlace t a) ∧
    (∀ t i, t ∈ k.readyListP i → k.status t = .ready ∧ (k.readyListP i).count t = 1 ∧
      i = k.m.prio t ∧ i < maxPriority) ∧
    (∀ t x, t ∈ (k.m.sem x).queue → k.status t = .blocked ∧ (k.m.sem x).queue.count t = 1) ∧
    (∀ t, k.m.ctl t = .finished → k.status t = .blocked) ∧
    (∀ l k', (kernel p).step k l k' → l = .dispatch ∨ k'.currentThread ≠ k.currentThread →
      k.status k'.currentThread = .ready) := by
  have hk := Kernel.placed_of_reach hp h
  refine ⟨hk.existsUnique, fun t i hi => ?_, fun t x hx => ?_, fun t ht => ?_,
    fun l k' hs hl => hk.switch_ready (kstep_of_kstepFn hs) hl⟩
  · have hready := hk.status_ready hi
    obtain ⟨⟨-, hbound⟩, honly, -⟩ := (Kernel.spot_ready hready).mp (hk.spot t)
    obtain rfl := (honly i).mp hi
    exact ⟨hready, List.count_eq_one_of_mem (hk.lists _) hi, rfl, hbound⟩
  · exact ⟨hk.status_queue hx, List.count_eq_one_of_mem (hk.queues x) hx⟩
  · have hspot := hk.spot t
    cases hs : k.status t with
    | blocked => rfl
    | justCreated =>
      obtain ⟨hctl, -⟩ := (Kernel.spot_justCreated hs).mp hspot
      rw [hctl] at ht
      nomatch ht
    | running =>
      obtain ⟨-, ⟨⟨pc, hpc⟩, -⟩, -⟩ := (Kernel.spot_running hs).mp hspot
      rw [hpc] at ht
      nomatch ht
    | ready =>
      obtain ⟨⟨⟨pc, hpc⟩, -⟩, -⟩ := (Kernel.spot_ready hs).mp hspot
      rw [hpc] at ht
      nomatch ht

/-- `main` forks thread 1 at priority 1 and yields; thread 1 waits for an event that the handler
    announces. -/
def forkProg : Prog Unit Unit Unit Nat where
  initial _ := 0
  boot _ ctl prio := ctl = (fun t => if t = 0 then .atPc 0 else .fresh) ∧ prio = fun _ => 0
  code _ pc :=
    match pc with
    | 0 => .fork fun sh => some ⟨1, 3, 1, sh, 1⟩
    | 1 => .yield 2
    | 3 => .P () id 2
    | _ => .finish id
  handler _ sh := some (some (), sh)

theorem forkProg_noDonation : forkProg.NoDonation := by
  intro t pc f
  simp only [forkProg]
  split <;> nofun

/-- The kernel as `forkProg` is booted. -/
def forkInit : Kernel Unit Unit Nat where
  m := {
    sem _ := Semaphore.new 0
    log _ := SemLog.new 0
    ctl t := if t = 0 then .atPc 0 else .fresh
    prio _ := 0
    sh := () }
  currentThread := 0
  readyListP := ReadyLists.empty
  status t := if t = 0 then .running else .justCreated
  threadToBeDestroyed := none
  started t := decide (t = 0)
  deleted := []

theorem forkInit_reach : (kernel forkProg).Reach forkInit :=
  .init ⟨⟨fun _ => rfl, fun _ => rfl, rfl, rfl⟩, ⟨0, rfl⟩, fun _ ht => if_neg ht, rfl, rfl, rfl, rfl,
    rfl, rfl⟩

/-- After the fork and the yield thread 1 sleeps on the semaphore, and `main` runs again. -/
theorem kernel_one_place_fork :
    let k := Lts.replay (kstepFn forkProg) forkInit [.run, .run, .run, .dispatch]
    k.currentThread = 0 ∧ (k.m.sem ()).queue = [1] ∧ k.status 1 = .blocked ∧
      ∃! a, k.InPlace 1 a :=
  have h := kernel_one_place forkProg_noDonation
    (Lts.reach_replay kernel_step forkInit_reach [.run, .run, .run, .dispatch])
  ⟨rfl, rfl, (h.2.2.1 1 () (by decide)).1, h.1 1⟩

end Nachos
