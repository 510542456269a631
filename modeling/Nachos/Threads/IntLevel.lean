/-
  The interrupt level: `SetLevel(IntOff)` … `SetLevel(oldLevel)` around `P`, `V`, `Yield` and `Fork`, with the
  context switches and the interrupt handlers in between.

  `level` is ONE variable for all threads, while `oldLevel` is a local variable of each call.  So a thread that is
  switched out in the middle of `P` leaves its `oldLevel` on its own stack, and when it comes back it finds
  in `level` whatever the thread that ran before it left there.

  1. **The machine (`Cpu`)** — every thread has its kernel stack, a list of calls that are under way (`Frame`).  A
     step runs the innermost call of the running thread up to its next call, return or context switch.  The calls
     that threads and handlers make are not fixed: a step of theirs is labelled with the call.  An ASSERT that
     fails is recorded.

  2. **The discipline (`Fits`)** — what a stack expects: for each call under way, the level it runs at and the
     level it returns with.  A thread that is not running expects `IntOff`, and `Run` is only ever called with
     interrupts off: so it does not matter which thread comes next.
-/
import Nachos.Machine.Interrupt
import Nachos.Threads.Kernel

namespace Nachos

/-! ## The calls under way -/

/-- The ASSERTs of the modelled functions. -/
inductive Assertion where
  /-- `ASSERT(interrupt->getLevel() == IntOff)` in `Sleep`. -/
  | sleep
  /-- `ASSERT(level == IntOff)` in `CheckIfDue`. -/
  | checkIfDue
  /-- `ASSERT((now == IntOff) || (inHandler == false))` in `SetLevel`. -/
  | setLevel
  /-- `ASSERT(fromNow > 0)` in `Schedule`. -/
  | schedule
  deriving DecidableEq

/-- A call under way, at the statement where it goes on; with its local variables. -/
inductive Frame (S : Type) where
  /-- The code of the thread. -/
  | body
  /-- A new thread, in `ThreadRoot`. -/
  | threadRoot
  /-- A call of `P`, `V`, `Yield` or `Fork` (or a user instruction) that was made at this level returns here. -/
  | returned (level : IntStatus)
  | setLevel (now : IntStatus)
  | oneTick
  | oneTickLoop (old : MachineStatus)
  /-- `OneTick`, waiting for the result of `CheckIfDue`. -/
  | oneTickDue (old : MachineStatus)
  | oneTickRest (old : MachineStatus)
  /-- `OneTick`, after the `Yield`. -/
  | oneTickEnd (old : MachineStatus)
  | checkIfDue (advanceClock : Bool)
  /-- The code of an interrupt handler. -/
  | handler
  | checkIfDueEnd (old : MachineStatus)
  | idle
  /-- `Idle`, waiting for the result of the first `CheckIfDue`. -/
  | idleFirst
  | idleHalt
  | idleLoop
  /-- `Idle`, waiting for the result of a further `CheckIfDue`. -/
  | idleDue
  | idleEnd
  | semP (x : S)
  | semPLoop (x : S) (oldLevel : IntStatus)
  | semV (x : S)
  | fork (child : Tid)
  | yield
  | sleep
  | sleepLoop
  /-- `Run`, after `SWITCH`. -/
  | run
  | finish
  /-- `Finish`, with interrupts off, in `portJoin->Send(0)` or past it. -/
  | finishing
  /-- `Finish`, after `Sleep`: "not reached". -/
  | finished
  deriving DecidableEq

/-- The result of `CheckIfDue` is given to the call that waits for it. -/
def Frame.deliver {S : Type} (fired : Bool) : Frame S → Frame S
  | .oneTickDue old => if fired then .oneTickLoop old else .oneTickRest old
  | .idleFirst => if fired then .idleLoop else .idleHalt
  | .idleDue => if fired then .idleLoop else .idleEnd
  | f => f

/-- The calls that the code of a thread makes.  `setLevel` and `setStatus` are there for the kernel code around
    the four functions; a user instruction ends with `OneTick`. -/
inductive KCall (S : Type) where
  | semP (x : S)
  | semV (x : S)
  | yield
  | fork (child : Tid) (priority : Nat)
  | finish
  | setLevel (now : IntStatus)
  | setStatus (st : MachineStatus)
  | userInstruction

/-- The calls that an interrupt handler makes. -/
inductive DeviceCall (S F A : Type) where
  | semV (x : S)
  | yieldOnReturn
  | schedule (r : Request F A)

/-- Who decides on the step: the code of the kernel, of a thread, or of a handler. -/
inductive CpuAct (S F A : Type) where
  | go
  | call (c : KCall S)
  | device (c : DeviceCall S F A)

/-! ## The machine -/

/-- The global variables of the kernel, and the kernel stacks of the threads, innermost call first. -/
structure Cpu (S F A : Type) where
  interrupt : Interrupt F A
  sem : S → Semaphore
  currentThread : Tid
  readyListP : ReadyLists
  prio : Tid → Nat
  status : Tid → ThreadStatus
  threadToBeDestroyed : Option Tid
  stack : Tid → List (Frame S)
  failed : Option Assertion
  halted : Bool

namespace Cpu

variable {S F A : Type} [DecidableEq S]

/-- The stack of the running thread. -/
def setStack (k : Cpu S F A) (fs : List (Frame S)) : Cpu S F A :=
  { k with stack := Function.update k.stack k.currentThread fs }

/-- `level = now`. -/
def changeLevel (k : Cpu S F A) (now : IntStatus) : Cpu S F A :=
  { k with interrupt := { k.interrupt with level := now } }

/-- `Scheduler::ReadyToRun(thread)`. -/
def readyToRun (k : Cpu S F A) (thread : Tid) : Cpu S F A :=
  { k with
    status := Function.update k.status thread .ready
    readyListP := k.readyListP.readyToRun thread (k.prio thread) }

/-- `Scheduler::Run(nextThread)` up to `SWITCH`; the running thread is left with the stack `fs`. -/
def switchTo (k : Cpu S F A) (fs : List (Frame S)) (nextThread : Tid) : Cpu S F A :=
  { k.setStack fs with
    currentThread := nextThread
    status := Function.update k.status nextThread .running }

/-- `CheckIfDue` returns to its caller. -/
def returnDue (k : Cpu S F A) (fired : Bool) : List (Frame S) → Cpu S F A
  | [] => k.setStack []
  | f :: fs => k.setStack (f.deliver fired :: fs)

/-- A step of the code of a thread: it makes a call. -/
def stepBody (k : Cpu S F A) (fs : List (Frame S)) : KCall S → Option (Cpu S F A)
  | .semP x => some (k.setStack (.semP x :: .returned k.interrupt.level :: .body :: fs))
  | .semV x => some (k.setStack (.semV x :: .returned k.interrupt.level :: .body :: fs))
  | .yield => some (k.setStack (.yield :: .returned k.interrupt.level :: .body :: fs))
  | .fork child priority =>
    -- `readyListP` has no list for any other priority
    if (k.stack child).isEmpty ∧ priority < maxPriority then
      -- `StackAllocate` and `setPriority`
      let k := k.setStack (.fork child :: .returned k.interrupt.level :: .body :: fs)
      some { k with
        stack := Function.update k.stack child [.threadRoot]
        prio := Function.update k.prio child priority }
    else none
  | .finish => some (k.setStack (.finish :: fs))
  | .setLevel now => some (k.setStack (.setLevel now :: .body :: fs))
  | .setStatus st => some { k with interrupt := { k.interrupt with status := st } }
  | .userInstruction =>
    -- user programs run with interrupts enabled
    if k.interrupt.level = .intOn then some (k.setStack (.oneTick :: .returned .intOn :: .body :: fs))
    else none

/-- A step of `Finish`, with interrupts off: a `P` or `V` of `portJoin->Send(0)`, which the joining threads wait
    for; or the end. -/
def stepFinishing (k : Cpu S F A) (fs : List (Frame S)) : CpuAct S F A → Option (Cpu S F A)
  | .call (.semP x) => some (k.setStack (.semP x :: .returned k.interrupt.level :: .finishing :: fs))
  | .call (.semV x) => some (k.setStack (.semV x :: .returned k.interrupt.level :: .finishing :: fs))
  | .go => some { k.setStack (.sleep :: .finished :: fs) with threadToBeDestroyed := some k.currentThread }
  | _ => none

/-- A step of an interrupt handler. -/
def stepHandler (k : Cpu S F A) (fs : List (Frame S)) : CpuAct S F A → Option (Cpu S F A)
  | .device (.semV x) => some (k.setStack (.semV x :: .returned k.interrupt.level :: .handler :: fs))
  | .device .yieldOnReturn => some { k with interrupt := { k.interrupt with yieldOnReturn := true } }
  | .device (.schedule r) =>
    match k.interrupt.schedule r with
    | some i => some { k with interrupt := i }
    | none => some { k with failed := some .schedule }
  | .go => some (k.setStack fs)
  | _ => none

/-- A step of the kernel's own code in the call `f`, with the calls `fs` around it. -/
def stepFrame (k : Cpu S F A) (fs : List (Frame S)) : Frame S → Option (Cpu S F A)
  | .threadRoot => some (k.setStack (.setLevel .intOn :: .body :: fs))
  | .returned _ => some (k.setStack fs)
  -- Interrupt::SetLevel
  | .setLevel now =>
    if now = .intOff ∨ k.interrupt.inHandler = false then
      if now = .intOn ∧ k.interrupt.level = .intOff then
        some ((k.changeLevel now).setStack (.oneTick :: fs))
      else some ((k.changeLevel now).setStack fs)
    else some { k with failed := some .setLevel }
  -- Interrupt::OneTick
  | .oneTick =>
    some ({ k with interrupt := k.interrupt.beginTick }.setStack (.oneTickLoop k.interrupt.status :: fs))
  | .oneTickLoop old => some (k.setStack (.checkIfDue false :: .oneTickDue old :: fs))
  | .oneTickRest old =>
    let i := k.interrupt.endTick
    if k.interrupt.yieldOnReturn then
      some ({ k with interrupt := i }.setStack (.yield :: .returned .intOn :: .oneTickEnd old :: fs))
    else some ({ k with interrupt := i }.setStack fs)
  | .oneTickEnd old => some ({ k with interrupt := { k.interrupt with status := old } }.setStack fs)
  -- Interrupt::CheckIfDue
  | .checkIfDue advanceClock =>
    if k.interrupt.level = .intOff then
      match k.interrupt.nextDue advanceClock with
      | some (none, i) => some ({ k with interrupt := i }.returnDue false fs)
      | some (some _, i) =>
        some ({ k with interrupt := i }.setStack (.handler :: .checkIfDueEnd k.interrupt.status :: fs))
      | none => none
    else some { k with failed := some .checkIfDue }
  | .checkIfDueEnd old => some ({ k with interrupt := k.interrupt.leaveHandler old }.returnDue true fs)
  -- Interrupt::Idle
  | .idle =>
    some ({ k with interrupt := { k.interrupt with status := .idleMode } }.setStack
      (.checkIfDue true :: .idleFirst :: fs))
  | .idleHalt => some { k with halted := true }
  | .idleLoop => some (k.setStack (.checkIfDue false :: .idleDue :: fs))
  | .idleEnd => some ({ k with interrupt := k.interrupt.endIdle }.setStack fs)
  -- Semaphore::P, with `SetLevel(IntOff)` in place: it does not call `OneTick`
  | .semP x => some ((k.changeLevel .intOff).setStack (.semPLoop x k.interrupt.level :: fs))
  | .semPLoop x oldLevel =>
    let (sem, through) := (k.sem x).P k.currentThread
    let k := { k with sem := Function.update k.sem x sem }
    if through then some (k.setStack (.setLevel oldLevel :: fs))
    else some (k.setStack (.sleep :: .semPLoop x oldLevel :: fs))
  -- Semaphore::V
  | .semV x =>
    let oldLevel := k.interrupt.level
    let (sem, thread) := (k.sem x).V
    let k := { k.changeLevel .intOff with sem := Function.update k.sem x sem }
    match thread with
    | some thread => some ((k.readyToRun thread).setStack (.setLevel oldLevel :: fs))
    | none => some (k.setStack (.setLevel oldLevel :: fs))
  -- Thread::Fork, past `setPriority`
  | .fork child =>
    some (((k.changeLevel .intOff).readyToRun child).setStack (.setLevel k.interrupt.level :: fs))
  -- Thread::Yield
  | .yield =>
    let oldLevel := k.interrupt.level
    let k := k.changeLevel .intOff
    match k.readyListP.findNextToRun with
    | (some nextThread, q) =>
      some (({ k with readyListP := q }.readyToRun k.currentThread).switchTo (.run :: .setLevel oldLevel :: fs)
        nextThread)
    | (none, _) => some (k.setStack (.setLevel oldLevel :: fs))
  -- Thread::Sleep
  | .sleep =>
    if k.interrupt.level = .intOff then
      some ({ k with status := Function.update k.status k.currentThread .blocked }.setStack (.sleepLoop :: fs))
    else some { k with failed := some .sleep }
  | .sleepLoop =>
    match k.readyListP.findNextToRun with
    | (some nextThread, q) => some ({ k with readyListP := q }.switchTo (.run :: fs) nextThread)
    | (none, _) => some (k.setStack (.idle :: .sleepLoop :: fs))
  -- Scheduler::Run, from `SWITCH` on
  | .run => some { k.setStack fs with threadToBeDestroyed := none }
  -- Thread::Finish
  | .finish => some ((k.changeLevel .intOff).setStack (.finishing :: fs))
  | _ => none

/-- One step of the running thread. -/
def step (k : Cpu S F A) (l : CpuAct S F A) : Option (Cpu S F A) :=
  if k.failed.isSome ∨ k.halted then none
  else
    match k.stack k.currentThread, l with
    | .body :: fs, .call c => k.stepBody fs c
    | .finishing :: fs, l => k.stepFinishing fs l
    | .handler :: fs, l => k.stepHandler fs l
    | f :: fs, .go => k.stepFrame fs f
    | _, _ => none

end Cpu

/-- `Initialize`, before `interrupt->Enable()`: `main` is the only thread. -/
structure CpuInit {S F A : Type} (k : Cpu S F A) : Prop where
  interrupt : k.interrupt = .new
  queue : ∀ x, (k.sem x).queue = []
  readyListP : k.readyListP = ReadyLists.empty
  status : k.status = fun t => if t = k.currentThread then .running else .justCreated
  threadToBeDestroyed : k.threadToBeDestroyed = none
  stack : k.stack = fun t => if t = k.currentThread then [.setLevel .intOn, .body] else []
  failed : k.failed = none
  halted : k.halted = false

/-- The kernel with its interrupt level, as a transition system. -/
def cpu (S F A : Type) [DecidableEq S] : Lts (Cpu S F A) (CpuAct S F A) where
  init := CpuInit
  step k l k' := k.step l = some k'

/-! ## What a stack expects -/

/-- The stack can go on at level `l` and with this value of `inHandler`.  For every call under way: the level and
    the flag it needs, and, for the rest of the stack, those it returns with. -/
def Fits {S : Type} : IntStatus → Bool → List (Frame S) → Prop
  | _, _, [] => True
  | l, inHandler, f :: fs =>
    match f with
    | .body => inHandler = false
    | .threadRoot => inHandler = false
    | .returned level => l = level ∧ Fits l inHandler fs
    | .setLevel now => (now = .intOff ∨ inHandler = false) ∧ Fits now inHandler fs
    | .oneTick => inHandler = false ∧ Fits .intOn false fs
    | .oneTickLoop _ => (l = .intOff ∧ inHandler = false) ∧ Fits .intOn false fs
    | .oneTickDue _ => (l = .intOff ∧ inHandler = false) ∧ Fits .intOn false fs
    | .oneTickRest _ => (l = .intOff ∧ inHandler = false) ∧ Fits .intOn false fs
    | .oneTickEnd _ => (l = .intOn ∧ inHandler = false) ∧ Fits .intOn false fs
    | .handler => (l = .intOff ∧ inHandler = true) ∧ Fits .intOff true fs
    | .checkIfDueEnd _ => (l = .intOff ∧ inHandler = true) ∧ Fits .intOff false fs
    | .semP _ => inHandler = false ∧ Fits l inHandler fs
    | .semPLoop _ oldLevel => (l = .intOff ∧ inHandler = false) ∧ Fits oldLevel false fs
    | .semV _ => (l = .intOff ∨ inHandler = false) ∧ Fits l inHandler fs
    | .fork _ => inHandler = false ∧ Fits l inHandler fs
    | .yield => inHandler = false ∧ Fits l inHandler fs
    | .finish => inHandler = false
    | .finishing => l = .intOff ∧ inHandler = false
    | .finished => True
    -- `CheckIfDue`, `Idle`, `Sleep` and `Run`: with interrupts off throughout
    | _ => (l = .intOff ∧ inHandler = false) ∧ Fits .intOff false fs

/-- What a call waits for does not change what it expects. -/
theorem Fits.deliver {S : Type} {l : IntStatus} {inHandler : Bool} {f : Frame S} {fs : List (Frame S)}
    (h : Fits l inHandler (f :: fs)) (fired : Bool) : Fits l inHandler (f.deliver fired :: fs) := by
  cases f <;> cases fired <;> exact h

/-- The first half of `CheckIfDue` does not touch the level, and sets `inHandler` if an interrupt fires. -/
theorem Interrupt.nextDue_level {F A : Type} {i i' : Interrupt F A} {advanceClock : Bool}
    {o : Option (PendingInterrupt F A)} (h : i.nextDue advanceClock = some (o, i')) :
    i'.level = i.level ∧ i'.inHandler = (o.isSome || i.inHandler) := by
  have hput : ∀ {j : Interrupt F A} {p : PendingInterrupt F A} {w : Int},
      (j.putBack p w).map (fun i => ((none : Option (PendingInterrupt F A)), i)) = some (o, i') →
      i'.level = j.level ∧ i'.inHandler = (o.isSome || j.inHandler) := by
    intro j p w hput
    obtain ⟨i'', hback, heq⟩ := Option.map_eq_some_iff.mp hput
    obtain ⟨l, -, rfl⟩ := Option.map_eq_some_iff.mp hback
    cases heq
    exact ⟨rfl, rfl⟩
  have hfire : ∀ {j : Interrupt F A} {p : PendingInterrupt F A} {w : Int}, j.fire p w = some (o, i') →
      i'.level = j.level ∧ i'.inHandler = (o.isSome || j.inHandler) := by
    intro j p w hfire
    unfold Interrupt.fire at hfire
    split at hfire
    · exact hput hfire
    · cases hfire
      exact ⟨rfl, rfl⟩
  unfold Interrupt.nextDue at h
  split at h
  · obtain ⟨⟨r, l⟩, -, hr⟩ := Option.bind_eq_some_iff.mp h
    cases r with
    | none =>
      cases hr
      exact ⟨rfl, rfl⟩
    | some r =>
      obtain ⟨w, p⟩ := r
      simp only at hr
      split at hr
      · have hlevel := hfire hr
        exact hlevel
      · split at hr
        · have hlevel := hput hr
          exact hlevel
        · have hlevel := hfire hr
          exact hlevel
  · cases h

theorem Interrupt.schedule_level {F A : Type} {i i' : Interrupt F A} {r : Request F A}
    (h : i.schedule r = some i') : i'.level = i.level ∧ i'.inHandler = i.inHandler := by
  unfold Interrupt.schedule at h
  simp only at h
  split at h
  · obtain ⟨l, -, rfl⟩ := Option.map_eq_some_iff.mp h
    exact ⟨rfl, rfl⟩
  · cases h

@[simp] theorem Interrupt.tick_inHandler {F A : Type} (i : Interrupt F A) : i.tick.inHandler = i.inHandler := by
  unfold Interrupt.tick
  split <;> rfl

@[simp] theorem Interrupt.endTick_inHandler {F A : Type} (i : Interrupt F A) :
    i.endTick.inHandler = i.inHandler := by
  unfold Interrupt.endTick
  split <;> rfl

@[simp] theorem Interrupt.endTick_level {F A : Type} (i : Interrupt F A) : i.endTick.level = .intOn := by
  unfold Interrupt.endTick
  split <;> rfl

/-! ## The discipline is kept -/

namespace Cpu

variable {S F A : Type}

/-- The running thread can go on, and any other one could with interrupts off. -/
structure Disciplined (k : Cpu S F A) : Prop where
  current : Fits k.interrupt.level k.interrupt.inHandler (k.stack k.currentThread)
  others : ∀ t, t ≠ k.currentThread → Fits .intOff false (k.stack t)
  failed : k.failed = none ∨ k.failed = some .schedule

namespace Disciplined

variable {k k' : Cpu S F A} {fs : List (Frame S)} {fired : Bool} {nextThread : Tid}

/-- The running thread goes on with the stack `fs`. -/
theorem setStack (h : k.Disciplined) (hcur : k'.currentThread = k.currentThread) (hstack : k'.stack = k.stack)
    (hfailed : k'.failed = k.failed) (hfits : Fits k'.interrupt.level k'.interrupt.inHandler fs) :
    (k'.setStack fs).Disciplined := by
  refine ⟨?_, fun t ht => ?_, hfailed ▸ h.failed⟩
  · show Fits _ _ (Function.update k'.stack k'.currentThread fs k'.currentThread)
    rw [Function.update_self]
    exact hfits
  · have hne : t ≠ k'.currentThread := ht
    show Fits _ _ (Function.update k'.stack k'.currentThread fs t)
    rw [Function.update_of_ne hne, hstack]
    exact h.others t (hcur ▸ hne)

/-- A call returns: the level and the flag are what the rest of the stack expects. -/
theorem pop (h : k.Disciplined) (hcur : k'.currentThread = k.currentThread) (hstack : k'.stack = k.stack)
    (hfailed : k'.failed = k.failed) {level : IntStatus} {inHandler : Bool}
    (hat : k'.interrupt.level = level ∧ k'.interrupt.inHandler = inHandler) (hrest : Fits level inHandler fs) :
    (k'.setStack fs).Disciplined := by
  refine h.setStack hcur hstack hfailed ?_
  rw [hat.1, hat.2]
  exact hrest

/-- `CheckIfDue` returns. -/
theorem returnDue (h : k.Disciplined) (hcur : k'.currentThread = k.currentThread) (hstack : k'.stack = k.stack)
    (hfailed : k'.failed = k.failed)
    (hfits : Fits k'.interrupt.level k'.interrupt.inHandler fs) : (k'.returnDue fired fs).Disciplined := by
  cases fs with
  | nil => exact h.setStack hcur hstack hfailed trivial
  | cons f fs => exact h.setStack hcur hstack hfailed (hfits.deliver fired)

/-- **The context switch**: it is made with interrupts off, and all threads are content with that. -/
theorem switchTo (h : k.Disciplined) (hcur : k'.currentThread = k.currentThread) (hstack : k'.stack = k.stack)
    (hfailed : k'.failed = k.failed) (hlevel : k'.interrupt.level = .intOff)
    (hhandler : k'.interrupt.inHandler = false) (hfits : Fits .intOff false fs) :
    (k'.switchTo fs nextThread).Disciplined := by
  have hall : ∀ t, Fits .intOff false (Function.update k'.stack k'.currentThread fs t) := by
    intro t
    by_cases ht : t = k'.currentThread
    · rw [ht, Function.update_self]
      exact hfits
    · rw [Function.update_of_ne ht, hstack]
      exact h.others t (hcur ▸ ht)
  refine ⟨?_, fun t _ => hall t, hfailed ▸ h.failed⟩
  show Fits k'.interrupt.level k'.interrupt.inHandler _
  rw [hlevel, hhandler]
  exact hall nextThread

/-- A new thread gets its stack. -/
theorem newStack (h : k.Disciplined) {child : Tid} (hne : child ≠ k.currentThread) (prio : Tid → Nat) :
    Disciplined { k with stack := Function.update k.stack child [.threadRoot], prio := prio } := by
  refine ⟨?_, fun t ht => ?_, h.failed⟩
  · show Fits _ _ (Function.update k.stack child _ k.currentThread)
    rw [Function.update_of_ne (Ne.symm hne)]
    exact h.current
  · show Fits _ _ (Function.update k.stack child _ t)
    by_cases hc : t = child
    · rw [hc, Function.update_self]
      rfl
    · rw [Function.update_of_ne hc]
      exact h.others t ht

/-- What does not touch the stacks and the level. -/
theorem congr (h : k.Disciplined) (hcur : k'.currentThread = k.currentThread) (hstack : k'.stack = k.stack)
    (hlevel : k'.interrupt.level = k.interrupt.level) (hhandler : k'.interrupt.inHandler = k.interrupt.inHandler)
    (hfailed : k'.failed = none ∨ k'.failed = some .schedule) : k'.Disciplined := by
  refine ⟨?_, fun t ht => ?_, hfailed⟩
  · rw [hlevel, hhandler, hstack, hcur]
    exact h.current
  · rw [hstack]
    exact h.others t (hcur ▸ ht)

end Disciplined

variable {k k' : Cpu S F A} {fs : List (Frame S)}

theorem stepBody_disciplined (h : k.Disciplined) (hstack : k.stack k.currentThread = .body :: fs) {c : KCall S}
    (hs : k.stepBody fs c = some k') : k'.Disciplined := by
  have hbody : k.interrupt.inHandler = false := by
    have hfits := h.current
    rw [hstack] at hfits
    exact hfits
  cases c with
  | semP x =>
    obtain rfl := Option.some.inj hs
    exact h.setStack rfl rfl rfl ⟨hbody, rfl, hbody⟩
  | semV x =>
    obtain rfl := Option.some.inj hs
    exact h.setStack rfl rfl rfl ⟨Or.inr hbody, rfl, hbody⟩
  | yield =>
    obtain rfl := Option.some.inj hs
    exact h.setStack rfl rfl rfl ⟨hbody, rfl, hbody⟩
  | fork child priority =>
    simp only [stepBody] at hs
    split at hs
    · rename_i hnew
      obtain rfl := Option.some.inj hs
      have hne : child ≠ k.currentThread := by
        rintro rfl
        rw [hstack] at hnew
        exact absurd hnew.1 Bool.false_ne_true
      have hput : (k.setStack (.fork child :: .returned k.interrupt.level :: .body :: fs)).Disciplined :=
        h.setStack rfl rfl rfl ⟨hbody, rfl, hbody⟩
      exact hput.newStack hne _
    · cases hs
  | finish =>
    obtain rfl := Option.some.inj hs
    exact h.setStack rfl rfl rfl hbody
  | setLevel now =>
    obtain rfl := Option.some.inj hs
    exact h.setStack rfl rfl rfl ⟨Or.inr hbody, hbody⟩
  | setStatus st =>
    obtain rfl := Option.some.inj hs
    exact h.congr rfl rfl rfl rfl h.failed
  | userInstruction =>
    simp only [stepBody] at hs
    split at hs
    · obtain rfl := Option.some.inj hs
      exact h.setStack rfl rfl rfl ⟨hbody, rfl, rfl⟩
    · cases hs

theorem stepFinishing_disciplined (h : k.Disciplined) (hstack : k.stack k.currentThread = .finishing :: fs)
    {l : CpuAct S F A} (hs : k.stepFinishing fs l = some k') : k'.Disciplined := by
  obtain ⟨hlevel, hhandler⟩ : k.interrupt.level = .intOff ∧ k.interrupt.inHandler = false := by
    have hfits := h.current
    rw [hstack] at hfits
    exact hfits
  unfold stepFinishing at hs
  split at hs
  · obtain rfl := Option.some.inj hs
    exact h.setStack rfl rfl rfl ⟨hhandler, rfl, hlevel, hhandler⟩
  · obtain rfl := Option.some.inj hs
    exact h.setStack rfl rfl rfl ⟨Or.inr hhandler, rfl, hlevel, hhandler⟩
  · obtain rfl := Option.some.inj hs
    have hput : (k.setStack (.sleep :: .finished :: fs)).Disciplined :=
      h.setStack rfl rfl rfl ⟨⟨hlevel, hhandler⟩, trivial⟩
    exact hput.congr rfl rfl rfl rfl hput.failed
  · cases hs

theorem stepHandler_disciplined (h : k.Disciplined) (hstack : k.stack k.currentThread = .handler :: fs)
    {l : CpuAct S F A} (hs : k.stepHandler fs l = some k') : k'.Disciplined := by
  obtain ⟨⟨hlevel, hhandler⟩, hrest⟩ :
      (k.interrupt.level = .intOff ∧ k.interrupt.inHandler = true) ∧ Fits .intOff true fs := by
    have hfits := h.current
    rw [hstack] at hfits
    exact hfits
  unfold stepHandler at hs
  split at hs
  · obtain rfl := Option.some.inj hs
    exact h.setStack rfl rfl rfl ⟨Or.inl hlevel, rfl, ⟨hlevel, hhandler⟩, hrest⟩
  · obtain rfl := Option.some.inj hs
    exact h.congr rfl rfl rfl rfl h.failed
  · split at hs
    · rename_i i hi
      obtain rfl := Option.some.inj hs
      obtain ⟨hl, hh⟩ := Interrupt.schedule_level hi
      exact h.congr rfl rfl hl hh h.failed
    · obtain rfl := Option.some.inj hs
      exact h.congr rfl rfl rfl rfl (Or.inr rfl)
  · obtain rfl := Option.some.inj hs
    exact h.pop rfl rfl rfl ⟨hlevel, hhandler⟩ hrest
  · cases hs

variable [DecidableEq S]

theorem stepFrame_disciplined (h : k.Disciplined) {f : Frame S} (hstack : k.stack k.currentThread = f :: fs)
    (hs : k.stepFrame fs f = some k') : k'.Disciplined := by
  have hfits := h.current
  rw [hstack] at hfits
  cases f with
  | threadRoot =>
    obtain rfl := Option.some.inj hs
    exact h.setStack rfl rfl rfl ⟨Or.inr hfits, hfits⟩
  | returned level =>
    obtain rfl := Option.some.inj hs
    exact h.setStack rfl rfl rfl hfits.2
  | setLevel now =>
    obtain ⟨hnow, hrest⟩ := hfits
    simp only [stepFrame, if_pos hnow] at hs
    split at hs
    · rename_i hon
      obtain rfl := Option.some.inj hs
      have hhandler := hnow.resolve_left (by rw [hon.1]; nofun)
      rw [hon.1, hhandler] at hrest
      exact h.setStack rfl rfl rfl ⟨hhandler, hrest⟩
    · obtain rfl := Option.some.inj hs
      exact h.setStack rfl rfl rfl hrest
  | oneTick =>
    obtain ⟨hhandler, hrest⟩ := hfits
    obtain rfl := Option.some.inj hs
    exact h.setStack rfl rfl rfl ⟨⟨rfl, (Interrupt.tick_inHandler _).trans hhandler⟩, hrest⟩
  | oneTickLoop old =>
    obtain ⟨hoff, hrest⟩ := hfits
    obtain rfl := Option.some.inj hs
    exact h.setStack rfl rfl rfl ⟨hoff, ⟨rfl, rfl⟩, hrest⟩
  | oneTickRest old =>
    obtain ⟨⟨-, hhandler⟩, hrest⟩ := hfits
    simp only [stepFrame] at hs
    have hhandler' := (Interrupt.endTick_inHandler k.interrupt).trans hhandler
    split at hs
    · obtain rfl := Option.some.inj hs
      refine h.setStack rfl rfl rfl ⟨hhandler', ?_⟩
      exact ⟨Interrupt.endTick_level _, ⟨Interrupt.endTick_level _, hhandler'⟩, hrest⟩
    · obtain rfl := Option.some.inj hs
      refine h.setStack rfl rfl rfl ?_
      show Fits k.interrupt.endTick.level k.interrupt.endTick.inHandler fs
      rw [Interrupt.endTick_level, hhandler']
      exact hrest
  | oneTickEnd old =>
    obtain ⟨hat, hrest⟩ := hfits
    obtain rfl := Option.some.inj hs
    exact h.pop rfl rfl rfl hat hrest
  | checkIfDue advanceClock =>
    obtain ⟨⟨hlevel, hhandler⟩, hrest⟩ := hfits
    simp only [stepFrame, if_pos hlevel] at hs
    split at hs
    · rename_i i hdue
      obtain rfl := Option.some.inj hs
      obtain ⟨hl, hh⟩ := Interrupt.nextDue_level hdue
      refine h.returnDue rfl rfl rfl ?_
      show Fits i.level i.inHandler fs
      rw [hl, hh, hlevel, hhandler]
      exact hrest
    · rename_i i hdue
      obtain rfl := Option.some.inj hs
      obtain ⟨hl, hh⟩ := Interrupt.nextDue_level hdue
      exact h.setStack rfl rfl rfl ⟨⟨hl.trans hlevel, hh⟩, ⟨rfl, rfl⟩, hrest⟩
    · cases hs
  | checkIfDueEnd old =>
    obtain ⟨⟨hlevel, -⟩, hrest⟩ := hfits
    obtain rfl := Option.some.inj hs
    refine h.returnDue rfl rfl rfl ?_
    show Fits k.interrupt.level false fs
    rw [hlevel]
    exact hrest
  | idle =>
    obtain ⟨hoff, hrest⟩ := hfits
    obtain rfl := Option.some.inj hs
    exact h.setStack rfl rfl rfl ⟨hoff, ⟨rfl, rfl⟩, hrest⟩
  | idleHalt =>
    obtain rfl := Option.some.inj hs
    exact h.congr rfl rfl rfl rfl h.failed
  | idleLoop =>
    obtain ⟨hoff, hrest⟩ := hfits
    obtain rfl := Option.some.inj hs
    exact h.setStack rfl rfl rfl ⟨hoff, ⟨rfl, rfl⟩, hrest⟩
  | idleEnd =>
    obtain ⟨hat, hrest⟩ := hfits
    obtain rfl := Option.some.inj hs
    exact h.pop rfl rfl rfl hat hrest
  | semP x =>
    obtain ⟨hhandler, hrest⟩ := hfits
    obtain rfl := Option.some.inj hs
    rw [hhandler] at hrest
    exact h.setStack rfl rfl rfl ⟨⟨rfl, hhandler⟩, hrest⟩
  | semPLoop x oldLevel =>
    obtain ⟨⟨hlevel, hhandler⟩, hrest⟩ := hfits
    simp only [stepFrame] at hs
    split at hs
    · obtain rfl := Option.some.inj hs
      refine h.setStack rfl rfl rfl ⟨Or.inr hhandler, ?_⟩
      show Fits oldLevel k.interrupt.inHandler fs
      rw [hhandler]
      exact hrest
    · obtain rfl := Option.some.inj hs
      exact h.setStack rfl rfl rfl ⟨⟨hlevel, hhandler⟩, ⟨rfl, rfl⟩, hrest⟩
  | semV x =>
    simp only [stepFrame] at hs
    split at hs
    · obtain rfl := Option.some.inj hs
      exact h.setStack rfl rfl rfl hfits
    · obtain rfl := Option.some.inj hs
      exact h.setStack rfl rfl rfl hfits
  | fork child =>
    obtain rfl := Option.some.inj hs
    exact h.setStack rfl rfl rfl ⟨Or.inr hfits.1, hfits.2⟩
  | yield =>
    obtain ⟨hhandler, hrest⟩ := hfits
    simp only [stepFrame] at hs
    split at hs
    · obtain rfl := Option.some.inj hs
      rw [hhandler] at hrest
      exact h.switchTo rfl rfl rfl rfl hhandler ⟨⟨rfl, rfl⟩, Or.inr rfl, hrest⟩
    · obtain rfl := Option.some.inj hs
      exact h.setStack rfl rfl rfl ⟨Or.inr hhandler, hrest⟩
  | sleep =>
    obtain ⟨hoff, hrest⟩ := hfits
    simp only [stepFrame, if_pos hoff.1] at hs
    obtain rfl := Option.some.inj hs
    exact h.setStack rfl rfl rfl ⟨hoff, hrest⟩
  | sleepLoop =>
    obtain ⟨hoff, hrest⟩ := hfits
    simp only [stepFrame] at hs
    split at hs
    · obtain rfl := Option.some.inj hs
      exact h.switchTo rfl rfl rfl hoff.1 hoff.2 ⟨⟨rfl, rfl⟩, hrest⟩
    · obtain rfl := Option.some.inj hs
      exact h.setStack rfl rfl rfl ⟨hoff, ⟨rfl, rfl⟩, hrest⟩
  | run =>
    obtain ⟨hat, hrest⟩ := hfits
    obtain rfl := Option.some.inj hs
    have hput : (k.setStack fs).Disciplined := h.pop rfl rfl rfl hat hrest
    exact hput.congr rfl rfl rfl rfl hput.failed
  | finish =>
    obtain rfl := Option.some.inj hs
    exact h.setStack rfl rfl rfl ⟨rfl, hfits⟩
  | body | oneTickDue old | handler | idleFirst | idleDue | finishing | finished => cases hs

/-- **Step lemma.** -/
theorem step_disciplined (h : k.Disciplined) {l : CpuAct S F A} (hs : k.step l = some k') : k'.Disciplined := by
  unfold step at hs
  split at hs
  · cases hs
  · split at hs
    · rename_i hstack
      exact stepBody_disciplined h hstack hs
    · rename_i hstack
      exact stepFinishing_disciplined h hstack hs
    · rename_i hstack
      exact stepHandler_disciplined h hstack hs
    · rename_i hstack
      exact stepFrame_disciplined h hstack hs
    · cases hs

/-- **Run lemma.** -/
theorem disciplined_of_reach (h : (cpu S F A).Reach k) : k.Disciplined := by
  refine h.invariant (I := Disciplined) (fun k hinit => ?_) fun k l k' _ hk hs => step_disciplined hk hs
  have hinit : CpuInit k := hinit
  refine ⟨?_, fun t ht => ?_, Or.inl hinit.failed⟩
  · rw [hinit.stack, hinit.interrupt]
    simp only [if_true]
    exact ⟨Or.inr rfl, rfl⟩
  · rw [hinit.stack]
    simp only [if_neg ht]
    trivial

end Cpu

/-- **The interrupt level is kept.**  In every run of threads that call `P`, `V`, `Yield`, `Fork` and `Finish`, change
    the level and run user instructions, with handlers that call `V`, `YieldOnReturn` and `Schedule`: the ASSERTs
    on the level in `Sleep`, `CheckIfDue` and `SetLevel` never fire; and whenever a call of `P`, `V`, `Yield` or
    `Fork` — by a thread, by a handler, by `OneTick` or in `Finish` — has returned, the level is the one it was
    called at. -/
theorem interrupt_level_kept {S F A : Type} [DecidableEq S] {k : Cpu S F A} (h : (cpu S F A).Reach k) :
    k.failed ≠ some .sleep ∧ k.failed ≠ some .checkIfDue ∧ k.failed ≠ some .setLevel ∧
    ∀ level fs, k.stack k.currentThread = .returned level :: fs → k.interrupt.level = level := by
  have hk := Cpu.disciplined_of_reach h
  have hfailed : ∀ a, a ≠ .schedule → k.failed ≠ some a := by
    intro a ha heq
    rcases hk.failed with hnone | hsome
    · rw [hnone] at heq
      cases heq
    · rw [hsome] at heq
      exact ha (Option.some.inj heq).symm
  refine ⟨hfailed _ nofun, hfailed _ nofun, hfailed _ nofun, fun level fs hstack => ?_⟩
  have hfits := hk.current
  rw [hstack] at hfits
  exact hfits.1

/-- `main` before `interrupt->Enable()`, with one semaphore of value 0. -/
def cpuInit : Cpu Unit Unit Unit where
  interrupt := .new
  sem _ := Semaphore.new 0
  currentThread := 0
  readyListP := ReadyLists.empty
  prio _ := 0
  status t := if t = 0 then .running else .justCreated
  threadToBeDestroyed := none
  stack t := if t = 0 then [.setLevel .intOn, .body] else []
  failed := none
  halted := false

theorem cpuInit_reach : (cpu Unit Unit Unit).Reach cpuInit :=
  .init ⟨rfl, fun _ => rfl, rfl, rfl, rfl, rfl, rfl, rfl⟩

theorem cpu_step (k : Cpu Unit Unit Unit) (l : CpuAct Unit Unit Unit) (k' : Cpu Unit Unit Unit)
    (h : k.step l = some k') : (cpu Unit Unit Unit).step k l k' := h

/-- `main` enables interrupts, forks thread 1 and calls `P`, in which it sleeps; thread 1 calls `V` and `Finish`;
    and `main` is back from `P`. -/
def sleepRun : List (CpuAct Unit Unit Unit) :=
  List.replicate 5 .go ++ [.call (.fork 1 0)] ++ List.replicate 7 .go ++ [.call (.semP ())] ++
    List.replicate 10 .go ++ [.call (.semV ())] ++ List.replicate 7 .go ++ [.call .finish] ++
    List.replicate 11 .go

theorem interrupt_level_kept_sleep :
    let k := Lts.replay Cpu.step cpuInit sleepRun
    k.currentThread = 0 ∧ k.stack 0 = [.returned .intOn, .body] ∧ k.interrupt.level = .intOn := by
  have h := interrupt_level_kept (Lts.reach_replay cpu_step cpuInit_reach sleepRun)
  have hstack : (Lts.replay Cpu.step cpuInit sleepRun).currentThread = 0 ∧
      (Lts.replay Cpu.step cpuInit sleepRun).stack 0 = [.returned .intOn, .body] := by decide +kernel
  refine ⟨hstack.1, hstack.2, h.2.2.2 .intOn [.body] ?_⟩
  rw [hstack.1]
  exact hstack.2

end Nachos
