/-
  `machine/interrupt.cc` — simulated time and the interrupts of the devices.

  A device that wants to interrupt the processor says when (`Schedule`), and the interrupt is kept on a list
  sorted by time.  Time goes on when interrupts are enabled and when a user instruction has been executed
  (`OneTick`), and when there is nothing to run (`Idle`, which jumps to the next interrupt).  Both then call
  `CheckIfDue` until it has nothing to fire; the handlers run inside it, and may schedule more interrupts.

  1. **The code** — over the linked list of `list.h`.  What is not part of the interrupt simulation — the devices,
     the machine registers, the kernel — is a parameter (`Devices`).  Times are integers: they stay below `2 ^ 31`,
     where `int` does not overflow.

  2. **Ghosts** — every interrupt gets a serial number when it is scheduled; `fired` lists the interrupts that
     have fired, each with the time at which it did.

  3. **The invariant (`Timed`)** — nothing pending is earlier than anything that has fired.  `Schedule` keeps it
     because its interrupts are in the FUTURE, and so are after all that have fired.  For the same reason the loop
     of `OneTick` comes to an end: every round fires an interrupt that is due, and none becomes due in it.
-/
import Mathlib.Data.List.Range
import Nachos.Lib.Lts
import Nachos.Threads.List

namespace Nachos

/-! ## The interrupt simulation -/

/-- `enum IntStatus`. -/
inductive IntStatus where
  | intOff
  | intOn
  deriving DecidableEq

/-- `enum MachineStatus`. -/
inductive MachineStatus where
  | idleMode
  | systemMode
  | userMode
  deriving DecidableEq

/-- `enum IntType`. -/
inductive IntType where
  | timerInt
  | diskInt
  | consoleWriteInt
  | consoleReadInt
  | networkSendInt
  | networkRecvInt
  deriving DecidableEq

/-- `class PendingInterrupt`, with its serial number. -/
structure PendingInterrupt (F A : Type) where
  handler : F
  arg : A
  when_ : Int
  type : IntType
  serial : Nat

/-- The arguments of `Schedule`. -/
structure Request (F A : Type) where
  handler : F
  arg : A
  fromNow : Int
  type : IntType

/-- The times that `class Statistics` keeps. -/
structure Statistics where
  totalTicks : Int
  idleTicks : Int
  systemTicks : Int
  userTicks : Int

/-- `UserTick`. -/
def userTick : Int := 1

/-- `SystemTick`. -/
def systemTick : Int := 10

/-- An interrupt that has fired, and the time at which it did. -/
structure Firing (F A : Type) where
  interrupt : PendingInterrupt F A
  time : Int

/-- `class Interrupt` and the statistics; and all interrupts that were scheduled or have fired so far. -/
structure Interrupt (F A : Type) where
  level : IntStatus
  pending : LinkedList (PendingInterrupt F A)
  inHandler : Bool
  yieldOnReturn : Bool
  status : MachineStatus
  stats : Statistics
  scheduled : List (PendingInterrupt F A)
  fired : List (Firing F A)

namespace Interrupt

variable {F A : Type}

/-- `Interrupt::Interrupt()` and `Statistics::Statistics()`. -/
def new : Interrupt F A where
  level := .intOff
  pending := .new
  inHandler := false
  yieldOnReturn := false
  status := .systemMode
  stats := ⟨0, 0, 0, 0⟩
  scheduled := []
  fired := []

/-- `Interrupt::Schedule(handler, arg, fromNow, type)`; `none`: the ASSERT fails. -/
def schedule (i : Interrupt F A) (r : Request F A) : Option (Interrupt F A) :=
  let when_ := i.stats.totalTicks + r.fromNow
  let toOccur : PendingInterrupt F A := ⟨r.handler, r.arg, when_, r.type, i.scheduled.length⟩
  if 0 < r.fromNow then
    (i.pending.sortedInsert toOccur when_).map fun pending =>
      { i with pending := pending, scheduled := i.scheduled ++ [toOccur] }
  else none

/-- The `Schedule` calls of a handler. -/
def scheduleAll (i : Interrupt F A) : List (Request F A) → Option (Interrupt F A)
  | [] => some i
  | r :: rs => (i.schedule r).bind fun i => i.scheduleAll rs

/-- `pending->SortedInsert(toOccur, when)` where `CheckIfDue` puts an interrupt back. -/
def putBack (i : Interrupt F A) (toOccur : PendingInterrupt F A) (when_ : Int) : Option (Interrupt F A) :=
  (i.pending.sortedInsert toOccur when_).map fun pending => { i with pending := pending }

/-- The clock is advanced to `when`, the processor being idle. -/
def advanceTo (i : Interrupt F A) (when_ : Int) : Interrupt F A :=
  { i with stats := { i.stats with
      idleTicks := i.stats.idleTicks + (when_ - i.stats.totalTicks)
      totalTicks := when_ } }

/-- The call of the handler begins. -/
def enterHandler (i : Interrupt F A) (toOccur : PendingInterrupt F A) : Interrupt F A :=
  { i with
    inHandler := true
    status := .systemMode
    fired := i.fired ++ [⟨toOccur, i.stats.totalTicks⟩] }

/-- The second half of `CheckIfDue`'s preparations, with `toOccur` due and off the list: the check for the end,
    and the call of the handler. -/
def fire (i : Interrupt F A) (toOccur : PendingInterrupt F A) (when_ : Int) :
    Option (Option (PendingInterrupt F A) × Interrupt F A) :=
  if i.status = .idleMode ∧ toOccur.type = .timerInt ∧ i.pending.isEmpty then
    (i.putBack toOccur when_).map fun i => (none, i)
  else some (some toOccur, i.enterHandler toOccur)

/-- `Interrupt::CheckIfDue(advanceClock)` up to the call of the handler: the interrupt that fires, if any.
    `none`: the ASSERT fails. -/
def nextDue (i : Interrupt F A) (advanceClock : Bool) :
    Option (Option (PendingInterrupt F A) × Interrupt F A) :=
  if i.level = .intOff then
    i.pending.sortedRemove.bind fun r =>
      let i' := { i with pending := r.2 }
      match r.1 with
      | none => some (none, i')
      | some (when_, toOccur) =>
        if advanceClock ∧ i.stats.totalTicks < when_ then (i'.advanceTo when_).fire toOccur when_
        else if i.stats.totalTicks < when_ then (i'.putBack toOccur when_).map fun i => (none, i)
        else i'.fire toOccur when_
  else none

/-- The handler has returned. -/
def leaveHandler (i : Interrupt F A) (old : MachineStatus) : Interrupt F A :=
  { i with status := old, inHandler := false }

/-- The time of one system or user tick. -/
def tick (i : Interrupt F A) : Interrupt F A :=
  if i.status = .systemMode then
    { i with stats := { i.stats with
        totalTicks := i.stats.totalTicks + systemTick
        systemTicks := i.stats.systemTicks + systemTick } }
  else
    { i with stats := { i.stats with
        totalTicks := i.stats.totalTicks + userTick
        userTicks := i.stats.userTicks + userTick } }

/-- The beginning of `OneTick`: time advances, and interrupts are turned off for the handlers. -/
def beginTick (i : Interrupt F A) : Interrupt F A := { i.tick with level := .intOff }

/-- The end of `OneTick`: if a yield was asked for, it is made in system mode. -/
def endTick (i : Interrupt F A) : Interrupt F A :=
  if i.yieldOnReturn then { i with level := .intOn, yieldOnReturn := false, status := .systemMode }
  else { i with level := .intOn }

/-- The end of `Idle`: "since there's nothing in the ready queue, the yield is automatic". -/
def endIdle (i : Interrupt F A) : Interrupt F A := { i with yieldOnReturn := false, status := .systemMode }

@[simp] theorem tick_status (i : Interrupt F A) : i.tick.status = i.status := by
  unfold tick
  split <;> rfl

@[simp] theorem endTick_pending (i : Interrupt F A) : i.endTick.pending = i.pending := by
  unfold endTick
  split <;> rfl

@[simp] theorem endTick_stats (i : Interrupt F A) : i.endTick.stats = i.stats := by
  unfold endTick
  split <;> rfl

@[simp] theorem endTick_scheduled (i : Interrupt F A) : i.endTick.scheduled = i.scheduled := by
  unfold endTick
  split <;> rfl

@[simp] theorem endTick_fired (i : Interrupt F A) : i.endTick.fired = i.fired := by
  unfold endTick
  split <;> rfl

end Interrupt

/-! ## The machine -/

/-- What is not in `interrupt.cc`: `machine->DelayedLoad(0, 0)`, and what the handlers do — the interrupts they
    schedule at a given time, whether they call `YieldOnReturn`, and what they change in the rest of the system. -/
structure Devices (F A D : Type) where
  delayedLoad : D → D
  call : F → A → Int → D → List (Request F A) × Bool × D

/-- The handlers pass the ASSERT of `Schedule`. -/
def Devices.Positive {F A D : Type} (dev : Devices F A D) : Prop :=
  ∀ f a now d, ∀ r ∈ (dev.call f a now d).1, 0 < r.fromNow

/-- The interrupt simulation and the rest of the system; `Halt` ends the run. -/
structure Hardware (F A D : Type) where
  interrupt : Interrupt F A
  world : D
  halted : Bool

namespace Hardware

variable {F A D : Type}

/-- The call of a handler in `CheckIfDue`. -/
def callHandler (s : Hardware F A D) (dev : Devices F A D) (toOccur : PendingInterrupt F A) :
    Option (Hardware F A D) :=
  let (requests, yields, world) :=
    dev.call toOccur.handler toOccur.arg s.interrupt.stats.totalTicks (dev.delayedLoad s.world)
  (s.interrupt.scheduleAll requests).map fun i =>
    { s with interrupt := { i with yieldOnReturn := i.yieldOnReturn || yields }, world := world }

/-- `Interrupt::CheckIfDue(advanceClock)`. -/
def checkIfDue (s : Hardware F A D) (dev : Devices F A D) (advanceClock : Bool) :
    Option (Bool × Hardware F A D) :=
  let old := s.interrupt.status
  (s.interrupt.nextDue advanceClock).bind fun r =>
    let s := { s with interrupt := r.2 }
    match r.1 with
    | none => some (false, s)
    | some toOccur => (s.callHandler dev toOccur).map fun s =>
        (true, { s with interrupt := s.interrupt.leaveHandler old })

/-- `while (CheckIfDue(false)) ;`, for at most so many rounds. -/
def checkLoop (dev : Devices F A D) : Nat → Hardware F A D → Option (Hardware F A D)
  | 0, _ => none
  | n + 1, s => (s.checkIfDue dev false).bind fun r => if r.1 then checkLoop dev n r.2 else some r.2

/-- `Interrupt::OneTick()`, up to the `Yield` at its end. -/
def oneTick (s : Hardware F A D) (dev : Devices F A D) (n : Nat) : Option (Hardware F A D) :=
  (checkLoop dev n { s with interrupt := s.interrupt.beginTick }).map fun s =>
    { s with interrupt := s.interrupt.endTick }

/-- `Interrupt::Idle()`. -/
def idle (s : Hardware F A D) (dev : Devices F A D) (n : Nat) : Option (Hardware F A D) :=
  let s := { s with interrupt := { s.interrupt with status := .idleMode } }
  (s.checkIfDue dev true).bind fun (fired, s) =>
    if fired then (checkLoop dev n s).map fun s => { s with interrupt := s.interrupt.endIdle }
    else some { s with halted := true }

/-- `Interrupt::SetLevel(now)`. -/
def setLevel (s : Hardware F A D) (dev : Devices F A D) (n : Nat) (now : IntStatus) : Option (Hardware F A D) :=
  let old := s.interrupt.level
  if now = .intOff ∨ s.interrupt.inHandler = false then
    let s := { s with interrupt := { s.interrupt with level := now } }
    if now = .intOn ∧ old = .intOff then s.oneTick dev n else some s
  else none

end Hardware

/-- What the rest of the system does with the interrupt simulation; `world` stands for what does not touch it. -/
inductive HwAct (F A D : Type) where
  | schedule (r : Request F A)
  | setLevel (now : IntStatus)
  | setStatus (st : MachineStatus)
  | oneTick
  | idle
  | world (d : D)

/-- One action; `n` bounds the rounds of the loops. -/
def Hardware.step {F A D : Type} (dev : Devices F A D) (n : Nat) (s : Hardware F A D) :
    HwAct F A D → Option (Hardware F A D)
  | .schedule r => (s.interrupt.schedule r).map fun i => { s with interrupt := i }
  | .setLevel now => s.setLevel dev n now
  | .setStatus st => some { s with interrupt := { s.interrupt with status := st } }
  | .oneTick => s.oneTick dev n
  | .idle => s.idle dev n
  | .world d => some { s with world := d }

/-- The runs of the interrupt simulation. -/
def hardware {F A D : Type} (dev : Devices F A D) : Lts (Hardware F A D) (HwAct F A D) where
  init s := s.interrupt = .new ∧ s.halted = false
  step s a s' := s.halted = false ∧ ∃ n, s.step dev n a = some s'

/-! ## Nothing pending is earlier than what has fired -/

namespace Interrupt

variable {F A : Type} {i i' : Interrupt F A} {xs : List (Int × PendingInterrupt F A)}

/-- The interrupt simulation, with the pending interrupts `xs` and their sort keys. -/
structure Timed (i : Interrupt F A) (xs : List (Int × PendingInterrupt F A)) : Prop where
  pending : i.pending.Represents xs
  sorted : xs.Pairwise fun x y => x.1 ≤ y.1
  key : ∀ x ∈ xs, x.1 = x.2.when_
  later : ∀ f ∈ i.fired, ∀ x ∈ xs, f.interrupt.when_ ≤ x.1
  serials : (xs.map (fun x => x.2.serial) ++ i.fired.map (fun f => f.interrupt.serial)).Nodup
  known : ∀ x ∈ xs, x.2 ∈ i.scheduled
  fired : ∀ f ∈ i.fired, f.interrupt ∈ i.scheduled ∧ f.interrupt.when_ ≤ f.time ∧ f.time ≤ i.stats.totalTicks
  order : i.fired.Pairwise fun f g => f.interrupt.when_ ≤ g.interrupt.when_ ∧ f.time ≤ g.time
  numbered : i.scheduled.map (fun p => p.serial) = List.range i.scheduled.length
  ticks : i.stats.totalTicks = i.stats.idleTicks + i.stats.systemTicks + i.stats.userTicks

/-- How many of the pending interrupts are due. -/
def due (now : Int) (xs : List (Int × PendingInterrupt F A)) : Nat := xs.countP fun x => x.1 ≤ now

/-- What the rest of `CheckIfDue` and `OneTick` reads. -/
structure SameMode (i i' : Interrupt F A) : Prop where
  level : i'.level = i.level
  status : i'.status = i.status
  stats : i'.stats = i.stats

namespace Timed

theorem new : (Interrupt.new : Interrupt F A).Timed [] where
  pending := .new
  sorted := List.Pairwise.nil
  key _ hx := absurd hx List.not_mem_nil
  later _ _ _ hx := absurd hx List.not_mem_nil
  serials := List.nodup_nil
  known _ hx := absurd hx List.not_mem_nil
  fired _ hf := absurd hf List.not_mem_nil
  order := List.Pairwise.nil
  numbered := rfl
  ticks := rfl

/-- Only the list, the logs and the times matter. -/
theorem congr (h : i.Timed xs) (hpending : i'.pending = i.pending) (hstats : i'.stats = i.stats)
    (hscheduled : i'.scheduled = i.scheduled) (hfired : i'.fired = i.fired) : i'.Timed xs where
  pending := hpending ▸ h.pending
  sorted := h.sorted
  key := h.key
  later := hfired ▸ h.later
  serials := hfired ▸ h.serials
  known := hscheduled ▸ h.known
  fired := hfired ▸ hscheduled ▸ hstats ▸ h.fired
  order := hfired ▸ h.order
  numbered := hscheduled ▸ h.numbered
  ticks := hstats ▸ h.ticks

/-- Time goes on. -/
theorem later_stats (h : i.Timed xs) (st : Statistics) (hle : i.stats.totalTicks ≤ st.totalTicks)
    (hticks : st.totalTicks = st.idleTicks + st.systemTicks + st.userTicks) :
    Timed { i with stats := st } xs where
  pending := h.pending
  sorted := h.sorted
  key := h.key
  later := h.later
  serials := h.serials
  known := h.known
  fired f hf := ⟨(h.fired f hf).1, (h.fired f hf).2.1, Int.le_trans (h.fired f hf).2.2 hle⟩
  order := h.order
  numbered := h.numbered
  ticks := hticks

theorem tick (h : i.Timed xs) : i.tick.Timed xs ∧ i.stats.totalTicks ≤ i.tick.stats.totalTicks := by
  have hticks := h.ticks
  unfold Interrupt.tick
  split
  · refine ⟨h.later_stats _ ?_ ?_, ?_⟩ <;> simp only [systemTick] <;> omega
  · refine ⟨h.later_stats _ ?_ ?_, ?_⟩ <;> simp only [userTick] <;> omega

/-- **`Schedule`** puts an interrupt into the future. -/
theorem schedule (h : i.Timed xs) {r : Request F A} (hr : 0 < r.fromNow) :
    ∃ i' xs', i.schedule r = some i' ∧ i'.Timed xs' ∧ SameMode i i' ∧
      due i.stats.totalTicks xs' = due i.stats.totalTicks xs := by
  let toOccur : PendingInterrupt F A :=
    ⟨r.handler, r.arg, i.stats.totalTicks + r.fromNow, r.type, i.scheduled.length⟩
  obtain ⟨l, hinsert, hrep⟩ := h.pending.sortedInsert toOccur (i.stats.totalTicks + r.fromNow)
  have hperm := List.perm_orderedInsert (fun x y : Int × PendingInterrupt F A => x.1 < y.1)
    (i.stats.totalTicks + r.fromNow, toOccur) xs
  have hmem : ∀ x ∈ LinkedList.insertSorted (i.stats.totalTicks + r.fromNow, toOccur) xs,
      x = (i.stats.totalTicks + r.fromNow, toOccur) ∨ x ∈ xs := fun x hx => List.mem_cons.mp (hperm.mem_iff.mp hx)
  -- a new serial number
  have hbelow : ∀ p ∈ i.scheduled, p.serial < i.scheduled.length := by
    intro p hp
    have hin : p.serial ∈ i.scheduled.map fun p => p.serial := List.mem_map_of_mem hp
    rw [h.numbered] at hin
    exact List.mem_range.mp hin
  refine ⟨{ i with pending := l, scheduled := i.scheduled ++ [toOccur] },
    LinkedList.insertSorted (i.stats.totalTicks + r.fromNow, toOccur) xs, ?_, ?_, ⟨rfl, rfl, rfl⟩, ?_⟩
  · simp only [Interrupt.schedule, if_pos hr]
    rw [hinsert]
    rfl
  · refine ⟨hrep, LinkedList.pairwise_insertSorted h.sorted, fun x hx => ?_, fun f hf x hx => ?_, ?_, fun x hx => ?_,
      fun f hf => ?_, h.order, ?_, h.ticks⟩
    · rcases hmem x hx with rfl | hx
      · rfl
      · exact h.key x hx
    · rcases hmem x hx with rfl | hx
      · obtain ⟨-, hwhen, htime⟩ := h.fired f hf
        show f.interrupt.when_ ≤ i.stats.totalTicks + r.fromNow
        omega
      · exact h.later f hf x hx
    · rw [(hperm.map fun x => x.2.serial).append_right _ |>.nodup_iff, List.map_cons, List.cons_append,
        List.nodup_cons]
      refine ⟨fun hin => ?_, h.serials⟩
      rcases List.mem_append.mp hin with hin | hin
      · obtain ⟨x, hx, heq⟩ := List.mem_map.mp hin
        exact absurd heq (Nat.ne_of_lt (hbelow _ (h.known x hx)))
      · obtain ⟨f, hf, heq⟩ := List.mem_map.mp hin
        exact absurd heq (Nat.ne_of_lt (hbelow _ (h.fired f hf).1))
    · rcases hmem x hx with rfl | hx
      · exact List.mem_append_right _ (List.mem_singleton.mpr rfl)
      · exact List.mem_append_left _ (h.known x hx)
    · exact ⟨List.mem_append_left _ (h.fired f hf).1, (h.fired f hf).2⟩
    · rw [List.map_append, h.numbered, List.length_append, List.length_singleton, List.range_succ]
      rfl
  · unfold due
    rw [hperm.countP_eq, List.countP_cons_of_neg]
    simp only [decide_eq_true_eq]
    omega

/-- The `Schedule` calls of a handler, one after the other. -/
theorem scheduleAll : ∀ (rs : List (Request F A)) {i : Interrupt F A} {xs : List (Int × PendingInterrupt F A)},
    i.Timed xs → (∀ r ∈ rs, 0 < r.fromNow) →
    ∃ i' xs', i.scheduleAll rs = some i' ∧ i'.Timed xs' ∧ SameMode i i' ∧
      due i.stats.totalTicks xs' = due i.stats.totalTicks xs := by
  intro rs i xs h hpos
  induction rs generalizing i xs with
  | nil => exact ⟨i, xs, rfl, h, ⟨rfl, rfl, rfl⟩, rfl⟩
  | cons r rs ih =>
    obtain ⟨i₁, xs₁, hschedule, h₁, hsame₁, hdue₁⟩ := h.schedule (hpos r List.mem_cons_self)
    obtain ⟨i₂, xs₂, hall, h₂, hsame₂, hdue₂⟩ := ih h₁ fun r hr => hpos r (List.mem_cons_of_mem _ hr)
    refine ⟨i₂, xs₂, ?_, h₂, ⟨hsame₂.level.trans hsame₁.level, hsame₂.status.trans hsame₁.status,
      hsame₂.stats.trans hsame₁.stats⟩, ?_⟩
    · simp only [Interrupt.scheduleAll, hschedule, Option.bind_some, hall]
    · rw [hsame₁.stats] at hdue₂
      exact hdue₂.trans hdue₁

variable {x : Int × PendingInterrupt F A} {l : LinkedList (PendingInterrupt F A)}

/-- The first interrupt is taken off the list and put back: it may come after others of the same time. -/
theorem putBack (h : i.Timed (x :: xs)) (hl : l.Represents xs) :
    ∃ i' xs', ({ i with pending := l }).putBack x.2 x.1 = some i' ∧ i'.Timed xs' ∧ SameMode i i' ∧
      ∀ y ∈ xs', x.1 ≤ y.1 := by
  obtain ⟨l', hinsert, hrep⟩ := hl.sortedInsert x.2 x.1
  have hperm := List.perm_orderedInsert (fun x y : Int × PendingInterrupt F A => x.1 < y.1) x xs
  obtain ⟨hfirst, hsorted⟩ := List.pairwise_cons.mp h.sorted
  refine ⟨{ i with pending := l' }, LinkedList.insertSorted x xs, ?_, ?_, ⟨rfl, rfl, rfl⟩, fun y hy => ?_⟩
  · show (l.sortedInsert x.2 x.1).map _ = _
    rw [hinsert]
    rfl
  · refine ⟨hrep, LinkedList.pairwise_insertSorted hsorted, fun y hy => h.key y (hperm.mem_iff.mp hy),
      fun f hf y hy => h.later f hf y (hperm.mem_iff.mp hy), ?_, fun y hy => h.known y (hperm.mem_iff.mp hy),
      h.fired, h.order, h.numbered, h.ticks⟩
    rw [(hperm.map fun y => y.2.serial).append_right _ |>.nodup_iff]
    exact h.serials
  · rcases List.mem_cons.mp (hperm.mem_iff.mp hy) with rfl | hy
    · exact Int.le_refl _
    · exact hfirst y hy

/-- The first interrupt is taken off the list and fires. -/
theorem enterHandler (h : i.Timed (x :: xs)) (hl : l.Represents xs) (hdue : x.1 ≤ i.stats.totalTicks) :
    (({ i with pending := l }).enterHandler x.2).Timed xs := by
  obtain ⟨hfirst, hsorted⟩ := List.pairwise_cons.mp h.sorted
  have hkey := h.key x List.mem_cons_self
  refine ⟨hl, hsorted, fun y hy => h.key y (List.mem_cons_of_mem _ hy), fun f hf y hy => ?_, ?_,
    fun y hy => h.known y (List.mem_cons_of_mem _ hy), fun f hf => ?_, ?_, h.numbered, h.ticks⟩
  · rcases List.mem_append.mp hf with hf | hf
    · exact h.later f hf y (List.mem_cons_of_mem _ hy)
    · obtain rfl := List.mem_singleton.mp hf
      rw [← hkey]
      exact hfirst y hy
  · have hserials := h.serials
    rw [List.map_cons, List.cons_append] at hserials
    show (_ ++ List.map _ (_ ++ [_])).Nodup
    rw [List.map_append, ← List.append_assoc]
    exact (List.perm_append_singleton _ _).nodup_iff.mpr hserials
  · rcases List.mem_append.mp hf with hf | hf
    · exact h.fired f hf
    · obtain rfl := List.mem_singleton.mp hf
      exact ⟨h.known x List.mem_cons_self, hkey ▸ hdue, Int.le_refl _⟩
  · refine List.pairwise_append.mpr ⟨h.order, List.pairwise_singleton _ _, fun f hf g hg => ?_⟩
    obtain rfl := List.mem_singleton.mp hg
    refine ⟨?_, (h.fired f hf).2.2⟩
    rw [← hkey]
    exact h.later f hf x List.mem_cons_self

/-- What `nextDue` says of the interrupt that fires and of the pending ones. -/
def Answer (i i' : Interrupt F A) (xs xs' : List (Int × PendingInterrupt F A)) :
    Option (PendingInterrupt F A) → Prop
  | none => i'.status = i.status ∧ (i.status ≠ .idleMode → ∀ x ∈ xs', i'.stats.totalTicks < x.1)
  | some _ => due i'.stats.totalTicks xs' < due i'.stats.totalTicks xs

theorem fire (h : i.Timed (x :: xs)) (hl : l.Represents xs) (hdue : x.1 ≤ i.stats.totalTicks) :
    ∃ o i' xs', ({ i with pending := l }).fire x.2 x.1 = some (o, i') ∧ i'.Timed xs' ∧ i'.level = i.level ∧
      i'.stats = i.stats ∧ Answer i i' (x :: xs) xs' o := by
  unfold Interrupt.fire
  split
  · rename_i hend
    obtain ⟨i', xs', hput, htimed, hsame, -⟩ := h.putBack hl
    refine ⟨none, i', xs', ?_, htimed, hsame.level, hsame.stats, hsame.status, fun hne => absurd hend.1 hne⟩
    rw [hput]
    rfl
  · refine ⟨some x.2, _, xs, rfl, h.enterHandler hl hdue, rfl, rfl, ?_⟩
    show due i.stats.totalTicks xs < due i.stats.totalTicks (x :: xs)
    unfold due
    rw [List.countP_cons, if_pos (decide_eq_true hdue)]
    exact Nat.lt_succ_self _

/-- **`CheckIfDue` up to the handler.** -/
theorem nextDue (h : i.Timed xs) (hlevel : i.level = .intOff) (advanceClock : Bool) :
    ∃ o i' xs', i.nextDue advanceClock = some (o, i') ∧ i'.Timed xs' ∧ i'.level = .intOff ∧
      i.stats.totalTicks ≤ i'.stats.totalTicks ∧ (advanceClock = false → i'.stats = i.stats) ∧
      Answer i i' xs xs' o := by
  obtain ⟨l, hremove, hl⟩ := h.pending.sortedRemove
  simp only [Interrupt.nextDue, if_pos hlevel, hremove, Option.bind_some]
  cases xs with
  | nil =>
    refine ⟨none, _, [], rfl, ?_, hlevel, Int.le_refl _, fun _ => rfl, rfl, fun _ x hx => absurd hx List.not_mem_nil⟩
    exact ⟨hl, h.sorted, h.key, h.later, h.serials, h.known, h.fired, h.order, h.numbered, h.ticks⟩
  | cons x xs =>
    simp only [List.head?_cons]
    by_cases hdue : i.stats.totalTicks < x.1
    · by_cases hadvance : advanceClock = true
      · -- the clock is advanced to the time of the interrupt
        rw [if_pos ⟨hadvance, hdue⟩]
        have hticks := h.ticks
        have htimed : (i.advanceTo x.1).Timed (x :: xs) :=
          h.later_stats _ (Int.le_of_lt hdue) (by simp only; omega)
        obtain ⟨o, i', xs', hfire, hi', hlevel', hstats, hanswer⟩ := htimed.fire hl (Int.le_refl _)
        refine ⟨o, i', xs', hfire, hi', hlevel'.trans hlevel, ?_, fun hfalse => ?_, hanswer⟩
        · rw [hstats]
          exact Int.le_of_lt hdue
        · rw [hadvance] at hfalse
          cases hfalse
      · rw [if_neg fun hand => hadvance hand.1, if_pos hdue]
        obtain ⟨i', xs', hput, hi', hsame, hfirst⟩ := h.putBack hl
        refine ⟨none, i', xs', ?_, hi', hsame.level.trans hlevel, ?_, fun _ => hsame.stats, hsame.status,
          fun _ y hy => ?_⟩
        · rw [hput]
          rfl
        · rw [hsame.stats]
        · rw [hsame.stats]
          have := hfirst y hy
          omega
    · rw [if_neg fun hand => hdue hand.2, if_neg hdue]
      obtain ⟨o, i', xs', hfire, hi', hlevel', hstats, hanswer⟩ := h.fire hl (Int.not_lt.mp hdue)
      refine ⟨o, i', xs', hfire, hi', hlevel'.trans hlevel, ?_, fun _ => hstats, hanswer⟩
      rw [hstats]

end Timed

end Interrupt

/-! ## The loops come to an end -/

namespace Hardware

open Interrupt (Timed due)

variable {F A D : Type} {dev : Devices F A D} {s s' : Hardware F A D} {xs : List (Int × PendingInterrupt F A)}

/-- **`CheckIfDue`** fires one of the interrupts that are due; outside of idle mode it returns false only if
    there is none. -/
theorem checkIfDue_spec (hdev : dev.Positive) (h : s.interrupt.Timed xs) (hlevel : s.interrupt.level = .intOff)
    (advanceClock : Bool) :
    ∃ b s' xs', s.checkIfDue dev advanceClock = some (b, s') ∧ s'.interrupt.Timed xs' ∧ s'.halted = s.halted ∧
      s'.interrupt.level = .intOff ∧ s'.interrupt.status = s.interrupt.status ∧
      s.interrupt.stats.totalTicks ≤ s'.interrupt.stats.totalTicks ∧
      (advanceClock = false → s'.interrupt.stats = s.interrupt.stats) ∧
      (b = true → due s'.interrupt.stats.totalTicks xs' < due s'.interrupt.stats.totalTicks xs) ∧
      (b = false → s.interrupt.status ≠ .idleMode → ∀ x ∈ xs', s'.interrupt.stats.totalTicks < x.1) := by
  obtain ⟨o, i₁, xs₁, hnext, h₁, hlevel₁, hle, hstats₁, hanswer⟩ := h.nextDue hlevel advanceClock
  simp only [Hardware.checkIfDue, hnext, Option.bind_some]
  cases o with
  | none =>
    obtain ⟨hstatus, hnone⟩ := hanswer
    exact ⟨false, _, xs₁, rfl, h₁, rfl, hlevel₁, hstatus, hle, hstats₁, nofun, fun _ => hnone⟩
  | some toOccur =>
    obtain ⟨i₂, xs₂, hall, h₂, hsame, hdue⟩ := h₁.scheduleAll _ (hdev toOccur.handler toOccur.arg
      i₁.stats.totalTicks (dev.delayedLoad s.world))
    simp only [Hardware.callHandler, hall, Option.map_some]
    refine ⟨true, _, xs₂, rfl, h₂.congr rfl rfl rfl rfl, rfl, hsame.level.trans hlevel₁, rfl, ?_, fun hfalse => ?_,
      fun _ => ?_, nofun⟩
    · show _ ≤ i₂.stats.totalTicks
      rw [hsame.stats]
      exact hle
    · exact hsame.stats.trans (hstats₁ hfalse)
    · show due i₂.stats.totalTicks xs₂ < due i₂.stats.totalTicks xs
      rw [hsame.stats, hdue]
      exact hanswer

/-- **The loop of `OneTick` and `Idle`**: as many rounds as there are interrupts due are enough.  Induction on
    the bound; every round leaves fewer that are due. -/
theorem checkLoop_spec (hdev : dev.Positive) (n : Nat) {s : Hardware F A D}
    {xs : List (Int × PendingInterrupt F A)} (h : s.interrupt.Timed xs) (hlevel : s.interrupt.level = .intOff) :
    (due s.interrupt.stats.totalTicks xs < n → ∃ s', checkLoop dev n s = some s') ∧
    ∀ s', checkLoop dev n s = some s' → ∃ xs', s'.interrupt.Timed xs' ∧ s'.halted = s.halted ∧
      s'.interrupt.stats = s.interrupt.stats ∧
      (s.interrupt.status ≠ .idleMode → ∀ x ∈ xs', s'.interrupt.stats.totalTicks < x.1) := by
  induction n generalizing s xs with
  | zero =>
    constructor
    · intro hlt
      omega
    · intro s' hs'
      cases hs'
  | succ n ih =>
    obtain ⟨b, s₁, xs₁, hcheck, h₁, hhalted, hlevel₁, hstatus, -, hstats, htrue, hfalse⟩ :=
      checkIfDue_spec hdev h hlevel false
    have hstats := hstats rfl
    simp only [checkLoop, hcheck, Option.bind_some]
    cases b with
    | false =>
      simp only [Bool.false_eq_true, if_false]
      refine ⟨fun _ => ⟨s₁, rfl⟩, fun s' hs' => ?_⟩
      obtain rfl := Option.some.inj hs'
      exact ⟨xs₁, h₁, hhalted, hstats, hfalse rfl⟩
    | true =>
      simp only [if_true]
      obtain ⟨hends, hprops⟩ := ih h₁ hlevel₁
      refine ⟨fun hlt => hends ?_, fun s' hs' => ?_⟩
      · have hfewer := htrue rfl
        rw [hstats] at hfewer ⊢
        omega
      · obtain ⟨xs', h', hhalted', hstats', hnone⟩ := hprops s' hs'
        refine ⟨xs', h', hhalted'.trans hhalted, hstats'.trans hstats, fun hne => hnone ?_⟩
        rw [hstatus]
        exact hne

/-- **`OneTick`** returns, and outside of idle mode it leaves nothing that is due. -/
theorem oneTick_spec (hdev : dev.Positive) (h : s.interrupt.Timed xs) :
    (∃ n s', s.oneTick dev n = some s') ∧
    ∀ n s', s.oneTick dev n = some s' → ∃ xs', s'.interrupt.Timed xs' ∧
      s.interrupt.stats.totalTicks ≤ s'.interrupt.stats.totalTicks ∧
      (s.interrupt.status ≠ .idleMode → ∀ x ∈ xs', s'.interrupt.stats.totalTicks < x.1) := by
  obtain ⟨htick, hle⟩ := h.tick
  have hbegin : s.interrupt.beginTick.Timed xs := htick.congr rfl rfl rfl rfl
  have hloop := fun n => checkLoop_spec hdev n (s := { s with interrupt := s.interrupt.beginTick }) hbegin rfl
  refine ⟨?_, fun n s' hs' => ?_⟩
  · obtain ⟨s', hs'⟩ := (hloop _).1 (Nat.lt_succ_self _)
    exact ⟨_, _, Option.map_eq_some_iff.mpr ⟨s', hs', rfl⟩⟩
  · obtain ⟨s₁, hs₁, rfl⟩ := Option.map_eq_some_iff.mp hs'
    obtain ⟨xs', h₁, -, hstats, hnone⟩ := (hloop n).2 s₁ hs₁
    refine ⟨xs', h₁.congr (by simp) (by simp) (by simp) (by simp), ?_, fun hne => ?_⟩
    · rw [Interrupt.endTick_stats, hstats]
      exact hle
    · rw [Interrupt.endTick_stats]
      exact hnone ((Interrupt.tick_status _).trans_ne hne)

/-- **`Idle`** goes on in time. -/
theorem idle_spec (hdev : dev.Positive) (h : s.interrupt.Timed xs) {n : Nat} (hs' : s.idle dev n = some s') :
    ∃ xs', s'.interrupt.Timed xs' ∧ s.interrupt.stats.totalTicks ≤ s'.interrupt.stats.totalTicks := by
  have hidle : Timed { s.interrupt with status := .idleMode } xs := h.congr rfl rfl rfl rfl
  by_cases hlevel : s.interrupt.level = .intOff
  · obtain ⟨b, s₁, xs₁, hcheck, h₁, -, hlevel₁, -, hle, -, -, -⟩ :=
      checkIfDue_spec hdev (s := { s with interrupt := { s.interrupt with status := .idleMode } }) hidle hlevel true
    simp only [idle, hcheck, Option.bind_some] at hs'
    cases b with
    | false =>
      obtain rfl := Option.some.inj hs'
      exact ⟨xs₁, h₁, hle⟩
    | true =>
      obtain ⟨s₂, hs₂, rfl⟩ := Option.map_eq_some_iff.mp hs'
      obtain ⟨xs₂, h₂, -, hstats, -⟩ := (checkLoop_spec hdev n h₁ hlevel₁).2 s₂ hs₂
      refine ⟨xs₂, h₂.congr rfl rfl rfl rfl, ?_⟩
      show _ ≤ s₂.interrupt.stats.totalTicks
      rw [hstats]
      exact hle
  · -- the ASSERT of `CheckIfDue`
    simp only [idle, checkIfDue, Interrupt.nextDue, if_neg hlevel, Option.bind_none] at hs'
    cases hs'

/-- **Step lemma.** -/
theorem step_spec (hdev : dev.Positive) (h : s.interrupt.Timed xs) {n : Nat} {a : HwAct F A D}
    (hs' : s.step dev n a = some s') :
    ∃ xs', s'.interrupt.Timed xs' ∧ s.interrupt.stats.totalTicks ≤ s'.interrupt.stats.totalTicks := by
  cases a with
  | schedule r =>
    obtain ⟨i, hi, rfl⟩ := Option.map_eq_some_iff.mp hs'
    have hr : 0 < r.fromNow := by
      by_contra hneg
      simp only [Interrupt.schedule, if_neg hneg] at hi
      cases hi
    obtain ⟨i', xs', hi', htimed, hsame, -⟩ := h.schedule hr
    obtain rfl := Option.some.inj (hi'.symm.trans hi)
    refine ⟨xs', htimed, ?_⟩
    show _ ≤ i'.stats.totalTicks
    rw [hsame.stats]
  | setLevel now =>
    simp only [step, setLevel] at hs'
    split at hs'
    · have hlevel : Timed { s.interrupt with level := now } xs := h.congr rfl rfl rfl rfl
      split at hs'
      · obtain ⟨xs', htimed, hle, -⟩ :=
          (oneTick_spec hdev (s := { s with interrupt := { s.interrupt with level := now } }) hlevel).2 n s' hs'
        exact ⟨xs', htimed, hle⟩
      · obtain rfl := Option.some.inj hs'
        exact ⟨xs, hlevel, Int.le_refl _⟩
    · cases hs'
  | setStatus st =>
    obtain rfl := Option.some.inj hs'
    exact ⟨xs, h.congr rfl rfl rfl rfl, Int.le_refl _⟩
  | oneTick =>
    obtain ⟨xs', htimed, hle, -⟩ := (oneTick_spec hdev h).2 n s' hs'
    exact ⟨xs', htimed, hle⟩
  | idle => exact idle_spec hdev h hs'
  | world d =>
    obtain rfl := Option.some.inj hs'
    exact ⟨xs, h, Int.le_refl _⟩

/-- **Run lemma.** -/
theorem timed_of_reach (hdev : dev.Positive) (h : (hardware dev).Reach s) : ∃ xs, s.interrupt.Timed xs := by
  refine h.invariant (I := fun s => ∃ xs, s.interrupt.Timed xs) (fun s hinit => ?_) fun s a s' _ hs hstep => ?_
  · rw [hinit.1]
    exact ⟨[], .new⟩
  · obtain ⟨xs, htimed⟩ := hs
    obtain ⟨-, n, hs'⟩ := hstep
    obtain ⟨xs', htimed', -⟩ := step_spec hdev htimed hs'
    exact ⟨xs', htimed'⟩

end Hardware

/-- **Interrupts fire in time and in order.**  In every run, with handlers that schedule what they like in the
    future: the loop of `OneTick` comes to an end; an interrupt fires at most once, and not before its time;
    the interrupts fire in the order of their times, and time does not go back in between; after the loop of
    `OneTick`, outside of idle mode, nothing that is due is pending; and the clock never goes back and is the sum
    of the idle, system and user ticks. -/
theorem interrupts_in_order {F A D : Type} {dev : Devices F A D} (hdev : dev.Positive) {s : Hardware F A D}
    (h : (hardware dev).Reach s) :
    (∃ n s', s.oneTick dev n = some s') ∧
    (s.interrupt.scheduled.map (fun p => p.serial) = List.range s.interrupt.scheduled.length ∧
      (s.interrupt.fired.map fun f => f.interrupt.serial).Nodup ∧
      ∀ f ∈ s.interrupt.fired, f.interrupt ∈ s.interrupt.scheduled ∧ f.interrupt.when_ ≤ f.time) ∧
    s.interrupt.fired.Pairwise (fun f g => f.interrupt.when_ ≤ g.interrupt.when_ ∧ f.time ≤ g.time) ∧
    (s.interrupt.status ≠ .idleMode → ∀ n s', s.oneTick dev n = some s' →
      ∃ xs, s'.interrupt.pending.Represents xs ∧ ∀ x ∈ xs, s'.interrupt.stats.totalTicks < x.2.when_) ∧
    (∀ a s', (hardware dev).step s a s' → s.interrupt.stats.totalTicks ≤ s'.interrupt.stats.totalTicks) ∧
    s.interrupt.stats.totalTicks
      = s.interrupt.stats.idleTicks + s.interrupt.stats.systemTicks + s.interrupt.stats.userTicks := by
  obtain ⟨xs, htimed⟩ := Hardware.timed_of_reach hdev h
  obtain ⟨hends, hafter⟩ := Hardware.oneTick_spec hdev htimed
  refine ⟨hends, ⟨htimed.numbered, (List.nodup_append.mp htimed.serials).2.1, fun f hf => ?_⟩, htimed.order,
    fun hmode n s' hs' => ?_, fun a s' hs => ?_, htimed.ticks⟩
  · exact ⟨(htimed.fired f hf).1, (htimed.fired f hf).2.1⟩
  · obtain ⟨xs', htimed', -, hnone⟩ := hafter n s' hs'
    refine ⟨xs', htimed'.pending, fun x hx => ?_⟩
    rw [← htimed'.key x hx]
    exact hnone hmode x hx
  · obtain ⟨-, n, hs'⟩ := hs
    obtain ⟨-, -, hle⟩ := Hardware.step_spec hdev htimed hs'
    exact hle

/-- The timer alone: every tick of it schedules the next, 100 later, and asks for a yield. -/
def timerOnly : Devices Unit Unit Unit where
  delayedLoad d := d
  call _ _ _ d := ([⟨(), (), 100, .timerInt⟩], true, d)

theorem timerOnly_positive : timerOnly.Positive := by
  intro f a now d r hr
  obtain rfl := List.mem_singleton.mp hr
  decide

/-- The machine as it is switched on. -/
def hwInit : Hardware Unit Unit Unit := ⟨.new, (), false⟩

theorem hwInit_reach : (hardware timerOnly).Reach hwInit := .init ⟨rfl, rfl⟩

/-- An action with at most three rounds of the loop, until the machine halts. -/
def hwStep (s : Hardware Unit Unit Unit) (a : HwAct Unit Unit Unit) : Option (Hardware Unit Unit Unit) :=
  if s.halted = false then s.step timerOnly 3 a else none

theorem hwStep_step (s : Hardware Unit Unit Unit) (a : HwAct Unit Unit Unit) (s' : Hardware Unit Unit Unit)
    (h : hwStep s a = some s') : (hardware timerOnly).step s a s' := by
  unfold hwStep at h
  split at h
  · rename_i hrun
    exact ⟨hrun, 3, h⟩
  · cases h

/-- The timer is set to 5 ticks and interrupts are enabled, which takes 10: it has fired, late by 5. -/
theorem interrupts_in_order_timer :
    let s := Lts.replay hwStep hwInit [.schedule ⟨(), (), 5, .timerInt⟩, .setLevel .intOn]
    s.interrupt.fired.map (fun f => (f.interrupt.when_, f.time)) = [(5, 10)] ∧
      (∃ n s', s.oneTick timerOnly n = some s') ∧ s.interrupt.stats.totalTicks = 10 :=
  have h := interrupts_in_order timerOnly_positive (Lts.reach_replay hwStep_step hwInit_reach
    [.schedule ⟨(), (), 5, .timerInt⟩, .setLevel .intOn])
  ⟨by decide, h.1, h.2.2.2.2.2.trans (by decide)⟩

end Nachos
