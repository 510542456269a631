/-
  The interrupt simulation as an AGENDA, and how late an interrupt can be.

  What `machine/interrupt.cc` does with its sorted list, its flags and its loops comes to this: there is a clock and a
  bag of interrupts to come, and the EARLIEST of them fires when the clock has reached it.  The clock goes on by a
  tick, and only when nothing is overdue; or it jumps to the earliest interrupt, when there is nothing to run.

  1. **The machine** (`machineSys`) — the interrupt simulation with the calls the kernel makes to its devices; a call
     changes the devices and schedules interrupts.  Idle mode is entered in `Idle` only.

  2. **The agenda** (`agenda`) — the abstract system, over a multiset.

  3. **Refinement** (`machine_reaches_agenda`) — every state of the machine is a state of the agenda, and between two
     calls nothing is overdue.

  4. **Punctuality** (`interrupts_punctual`) — in every run, whatever the devices do: an interrupt that was scheduled is
     pending or has fired, and not both; it fires at its time, or up to one tick of the system later.

  All of it is about times below `2 ^ 31`, as `Nachos.Machine.Interrupt` has them.
-/
import Mathlib.Data.Multiset.AddSub
import Nachos.Machine.Interrupt

namespace Nachos

/-! ## The machine -/

/-- What the kernel and the environment may do to the devices at a given time: the devices afterwards and the
    interrupts to be scheduled; `none`: an `ASSERT` fails. -/
abbrev DeviceCalls (K F A D : Type) := K → D → Int → Option (D × List (Request F A))

/-- What happens outside of interrupt handlers.  `machine.cc` sets the status to user mode and back. -/
inductive MachineAct (K : Type) where
  | call (k : K)
  | setLevel (now : IntStatus)
  | setUserMode (user : Bool)
  | oneTick
  | idle

section Machine

variable {K F A D : Type}

/-- One action; `n` bounds the rounds of the loops. -/
def machineStep (dev : Devices F A D) (calls : DeviceCalls K F A D) (n : Nat) (s : Hardware F A D) :
    MachineAct K → Option (Hardware F A D)
  | .call k =>
    (calls k s.world s.interrupt.stats.totalTicks).bind fun r =>
      (s.interrupt.scheduleAll r.2).map fun i => { s with interrupt := i, world := r.1 }
  | .setLevel now => s.setLevel dev n now
  | .setUserMode user =>
    some { s with interrupt := { s.interrupt with status := if user then .userMode else .systemMode } }
  | .oneTick => s.oneTick dev n
  | .idle => s.idle dev n

/-- **The runs of the machine**, until it halts; `start` is how the devices may be in the beginning. -/
def machineSys (dev : Devices F A D) (calls : DeviceCalls K F A D) (start : D → Prop) :
    Lts (Hardware F A D) (MachineAct K) where
  init s := s.interrupt = .new ∧ start s.world ∧ s.halted = false
  step s a s' := s.halted = false ∧ ∃ n, machineStep dev calls n s a = some s'

end Machine

/-! ## The agenda -/

/-- The clock, the interrupts that were scheduled, those to come, those that have fired, and the devices. -/
structure Agenda (F A D : Type) where
  now : Int
  scheduled : List (PendingInterrupt F A)
  pending : Multiset (PendingInterrupt F A)
  fired : List (Firing F A)
  world : D

namespace Agenda

variable {K F A D : Type}

/-- The interrupt that a request is for. -/
def entry (a : Agenda F A D) (r : Request F A) : PendingInterrupt F A :=
  ⟨r.handler, r.arg, a.now + r.fromNow, r.type, a.scheduled.length⟩

/-- An interrupt is scheduled. -/
def add (a : Agenda F A D) (r : Request F A) : Agenda F A D :=
  { a with scheduled := a.scheduled ++ [a.entry r], pending := a.entry r ::ₘ a.pending }

/-- Several are, one after the other. -/
def addAll (a : Agenda F A D) (rs : List (Request F A)) : Agenda F A D := rs.foldl add a

/-- The devices change, and schedule interrupts. -/
def request (a : Agenda F A D) (d : D) (rs : List (Request F A)) : Agenda F A D :=
  Agenda.addAll { a with world := d } rs

/-- An interrupt is no longer to come. -/
def take (a : Agenda F A D) (p : PendingInterrupt F A) (rest : Multiset (PendingInterrupt F A)) : Agenda F A D :=
  { a with pending := rest, fired := a.fired ++ [Firing.mk p a.now] }

/-- What the handler of an interrupt does. -/
def handle (a : Agenda F A D) (dev : Devices F A D) (p : PendingInterrupt F A) : List (Request F A) × Bool × D :=
  dev.call p.handler p.arg a.now (dev.delayedLoad a.world)

/-- **What can happen**, each with its condition. -/
inductive Step (dev : Devices F A D) (calls : DeviceCalls K F A D) (a : Agenda F A D) : Agenda F A D → Prop where
  /-- A device is called. -/
  | call {k : K} {d : D} {rs : List (Request F A)} (hcall : calls k a.world a.now = some (d, rs))
      (hlater : ∀ r ∈ rs, 0 < r.fromNow) : Step dev calls a (a.request d rs)
  /-- A tick: nothing is overdue. -/
  | tick {t : Int} (hpos : 0 < t) (hle : t ≤ systemTick) (hdue : ∀ p ∈ a.pending, a.now ≤ p.when_) :
      Step dev calls a { a with now := a.now + t }
  /-- There is nothing to run before the earliest interrupt. -/
  | skip {p : PendingInterrupt F A} (hp : p ∈ a.pending) (hfirst : ∀ q ∈ a.pending, p.when_ ≤ q.when_)
      (hlater : a.now < p.when_) : Step dev calls a { a with now := p.when_ }
  /-- The earliest interrupt fires. -/
  | fire {p : PendingInterrupt F A} {rest : Multiset (PendingInterrupt F A)} (hp : a.pending = p ::ₘ rest)
      (hfirst : ∀ q ∈ rest, p.when_ ≤ q.when_) (hdue : p.when_ ≤ a.now)
      (hlater : ∀ r ∈ (a.handle dev p).1, 0 < r.fromNow) :
      Step dev calls a ((a.take p rest).request (a.handle dev p).2.2 (a.handle dev p).1)

end Agenda

/-- **The agenda.** -/
def agenda {K F A D : Type} (dev : Devices F A D) (calls : DeviceCalls K F A D) (start : D → Prop) :
    Lts (Agenda F A D) Unit where
  init a := a.now = 0 ∧ a.scheduled = [] ∧ a.pending = 0 ∧ a.fired = [] ∧ start a.world
  step a _ a' := Agenda.Step dev calls a a'

namespace Agenda

variable {K F A D : Type} {a a' : Agenda F A D}

@[simp] theorem addAll_cons (a : Agenda F A D) (r : Request F A) (rs : List (Request F A)) :
    a.addAll (r :: rs) = (a.add r).addAll rs := rfl

/-- **Induction over a list of requests**, for what one request keeps. -/
theorem addAll_induction {P : Agenda F A D → Prop} {rs : List (Request F A)}
    (hadd : ∀ (a : Agenda F A D) (r : Request F A), r ∈ rs → P a → P (a.add r)) (h : P a) : P (a.addAll rs) := by
  induction rs generalizing a with
  | nil => exact h
  | cons r rs ih =>
    rw [addAll_cons]
    exact ih (fun b q hq => hadd b q (List.mem_cons_of_mem _ hq)) (hadd a r List.mem_cons_self h)

@[simp] theorem now_request (a : Agenda F A D) (d : D) (rs : List (Request F A)) : (a.request d rs).now = a.now :=
  addAll_induction (P := fun b => b.now = a.now) (fun _ _ _ h => h) rfl

@[simp] theorem fired_request (a : Agenda F A D) (d : D) (rs : List (Request F A)) :
    (a.request d rs).fired = a.fired :=
  addAll_induction (P := fun b => b.fired = a.fired) (fun _ _ _ h => h) rfl

@[simp] theorem world_request (a : Agenda F A D) (d : D) (rs : List (Request F A)) : (a.request d rs).world = d :=
  addAll_induction (P := fun b => b.world = d) (fun _ _ _ h => h) rfl

/-- An interrupt to come was to come before, or is one of those that are scheduled. -/
theorem mem_request {d : D} {rs : List (Request F A)} {p : PendingInterrupt F A} (hp : p ∈ (a.request d rs).pending) :
    p ∈ a.pending ∨ ∃ r ∈ rs, p.handler = r.handler ∧ p.type = r.type ∧ p.when_ = a.now + r.fromNow := by
  have hall : (a.request d rs).now = a.now ∧ ∀ p ∈ (a.request d rs).pending, p ∈ a.pending ∨
      ∃ r ∈ rs, p.handler = r.handler ∧ p.type = r.type ∧ p.when_ = a.now + r.fromNow := by
    refine addAll_induction (P := fun b => b.now = a.now ∧ ∀ p ∈ b.pending, p ∈ a.pending ∨ ∃ r ∈ rs,
      p.handler = r.handler ∧ p.type = r.type ∧ p.when_ = a.now + r.fromNow)
      (fun b r hr hb => ⟨hb.1, fun q hq => ?_⟩) ⟨rfl, fun q hq => Or.inl hq⟩
    rcases Multiset.mem_cons.mp hq with rfl | hq
    · exact Or.inr ⟨r, hr, rfl, rfl, congrArg (· + r.fromNow) hb.1⟩
    · exact hb.2 q hq
  exact hall.2 p hp

/-- The interrupt that fires, and the rest. -/
theorem mem_of_cons {p : PendingInterrupt F A} {rest : Multiset (PendingInterrupt F A)} (hp : a.pending = p ::ₘ rest) :
    p ∈ a.pending ∧ ∀ q ∈ rest, q ∈ a.pending := by
  rw [hp]
  exact ⟨Multiset.mem_cons_self p rest, fun q hq => Multiset.mem_cons_of_mem hq⟩

/-- Nothing is overdue by more than this. -/
def Within (a : Agenda F A D) (late : Int) : Prop := ∀ p ∈ a.pending, a.now ≤ p.when_ + late

theorem Within.request {late : Int} (h : a.Within late) (hlate : 0 ≤ late) {d : D} {rs : List (Request F A)}
    (hrs : ∀ r ∈ rs, 0 < r.fromNow) : (a.request d rs).Within late := by
  intro p hp
  rw [now_request]
  rcases mem_request hp with hp | ⟨r, hr, -, -, hwhen⟩
  · exact h p hp
  · have hpos := hrs r hr
    omega

/-- What was scheduled is to come or has fired. -/
def Conserved (a : Agenda F A D) : Prop :=
  a.pending + Multiset.ofList (a.fired.map fun f => f.interrupt) = Multiset.ofList a.scheduled

theorem Conserved.request (h : a.Conserved) (d : D) (rs : List (Request F A)) : (a.request d rs).Conserved := by
  refine addAll_induction (P := Conserved) (fun b r _ hb => ?_) h
  show b.entry r ::ₘ b.pending + _ = Multiset.ofList (b.scheduled ++ [b.entry r])
  rw [Multiset.cons_add]
  refine (congrArg (b.entry r ::ₘ ·) hb).trans ?_
  rw [Multiset.cons_coe, Multiset.coe_eq_coe]
  exact (List.perm_append_singleton _ _).symm

/-- Interrupts fire at their time, or up to one tick later. -/
def Punctual (a : Agenda F A D) : Prop :=
  ∀ f ∈ a.fired, f.interrupt.when_ ≤ f.time ∧ f.time ≤ f.interrupt.when_ + systemTick

variable {dev : Devices F A D} {calls : DeviceCalls K F A D} {start : D → Prop}

/-- **Step lemma** of punctuality: a tick comes when nothing is overdue, so that nothing is overdue by more than it. -/
theorem Step.punctual (hs : Step dev calls a a') (hwithin : a.Within systemTick) (h : a.Punctual) :
    a'.Within systemTick ∧ a'.Punctual := by
  have htick : (0 : Int) ≤ systemTick := by decide
  cases hs with
  | call hcall hlater =>
    refine ⟨hwithin.request htick hlater, fun f hf => ?_⟩
    rw [fired_request] at hf
    exact h f hf
  | @tick t hpos hle hdue =>
    refine ⟨fun p hp => ?_, h⟩
    have hp' := hdue p hp
    show a.now + t ≤ p.when_ + systemTick
    omega
  | @skip p hp hfirst hlater =>
    refine ⟨fun q hq => ?_, h⟩
    have hq' := hfirst q hq
    show p.when_ ≤ q.when_ + systemTick
    omega
  | @fire p rest hp hfirst hdue hlater =>
    obtain ⟨hpend, hrest⟩ := mem_of_cons hp
    have hwithin' : (a.take p rest).Within systemTick := fun q hq => hwithin q (hrest q hq)
    refine ⟨hwithin'.request htick hlater, fun f hf => ?_⟩
    rw [fired_request] at hf
    rcases List.mem_append.mp hf with hf | hf
    · exact h f hf
    · obtain rfl := List.mem_singleton.mp hf
      exact ⟨hdue, hwithin p hpend⟩

/-- **Step lemma**: no interrupt is lost, and none comes twice. -/
theorem Step.conserved (hs : Step dev calls a a') (h : a.Conserved) : a'.Conserved := by
  cases hs with
  | call hcall hlater => exact h.request _ _
  | tick hpos hle hdue => exact h
  | skip hp hfirst hlater => exact h
  | @fire p rest hp hfirst hdue hlater =>
    refine Conserved.request ?_ _ _
    unfold Conserved at h ⊢
    rw [hp, Multiset.cons_add] at h
    refine Eq.trans ?_ h
    show rest + Multiset.ofList ((a.fired ++ [Firing.mk p a.now]).map fun f => f.interrupt) = _
    rw [List.map_append, ← Multiset.coe_add, ← Multiset.add_assoc]
    exact Multiset.add_comm _ ({p} : Multiset _)

/-- **Run lemma.** -/
theorem punctual_of_reach (h : (agenda dev calls start).Reach a) : a.Within systemTick ∧ a.Punctual ∧ a.Conserved := by
  refine h.invariant (I := fun a => a.Within systemTick ∧ a.Punctual ∧ a.Conserved) (fun a hinit => ?_)
    fun a _ a' _ hold hs => ?_
  · obtain ⟨-, hscheduled, hpending, hfired, -⟩ := hinit
    refine ⟨fun p hp => ?_, fun f hf => ?_, ?_⟩
    · rw [hpending] at hp
      exact absurd hp (Multiset.notMem_zero p)
    · rw [hfired] at hf
      exact absurd hf List.not_mem_nil
    · rw [Conserved, hpending, hfired, hscheduled]
      rfl
  · obtain ⟨hwithin, hpunctual, hconserved⟩ := hold
    obtain ⟨hwithin', hpunctual'⟩ := hs.punctual hwithin hpunctual
    exact ⟨hwithin', hpunctual', hs.conserved hconserved⟩

end Agenda

/-! ## Refinement -/

/-- What the interrupt simulation comes to, with the pending interrupts `xs`. -/
def Interrupt.agendaOf {F A D : Type} (i : Interrupt F A) (xs : List (Int × PendingInterrupt F A)) (d : D) :
    Agenda F A D :=
  ⟨i.stats.totalTicks, i.scheduled, Multiset.ofList (xs.map Prod.snd), i.fired, d⟩

namespace Interrupt

variable {K F A D : Type} {i i' : Interrupt F A} {xs : List (Int × PendingInterrupt F A)} {d : D}

/-- The flags are no part of the agenda. -/
theorem agendaOf_congr (hstats : i'.stats = i.stats) (hscheduled : i'.scheduled = i.scheduled)
    (hfired : i'.fired = i.fired) (xs : List (Int × PendingInterrupt F A)) (d : D) :
    i'.agendaOf xs d = i.agendaOf xs d := by
  rw [agendaOf, agendaOf, hstats, hscheduled, hfired]

theorem mem_agendaOf {p : PendingInterrupt F A} :
    p ∈ (i.agendaOf xs d).pending ↔ ∃ x ∈ xs, x.2 = p := by
  rw [agendaOf, Multiset.mem_coe, List.mem_map]

namespace Timed

/-- **`Schedule`** is `Agenda.add`. -/
theorem schedule_agenda (h : i.Timed xs) {r : Request F A} (hs : i.schedule r = some i') :
    ∃ xs', i'.Timed xs' ∧ SameMode i i' ∧ 0 < r.fromNow ∧
      ∀ d : D, i'.agendaOf xs' d = (i.agendaOf xs d).add r := by
  have hr : 0 < r.fromNow := by
    by_contra hneg
    simp only [Interrupt.schedule, if_neg hneg] at hs
    cases hs
  obtain ⟨i₁, xs', h₁, htimed, hsame, -⟩ := h.schedule hr
  obtain rfl := Option.some.inj (h₁.symm.trans hs)
  let toOccur : PendingInterrupt F A :=
    ⟨r.handler, r.arg, i.stats.totalTicks + r.fromNow, r.type, i.scheduled.length⟩
  obtain ⟨l, hinsert, hrep⟩ := h.pending.sortedInsert toOccur (i.stats.totalTicks + r.fromNow)
  have heq : i₁ = { i with pending := l, scheduled := i.scheduled ++ [toOccur] } := by
    simp only [Interrupt.schedule, if_pos hr] at hs
    rw [hinsert] at hs
    exact (Option.some.inj hs).symm
  subst heq
  obtain rfl := htimed.pending.unique hrep
  refine ⟨_, htimed, hsame, hr, fun d => ?_⟩
  have hperm := List.perm_orderedInsert (fun x y : Int × PendingInterrupt F A => x.1 < y.1)
    (i.stats.totalTicks + r.fromNow, toOccur) xs
  have hpending : Multiset.ofList ((LinkedList.insertSorted (i.stats.totalTicks + r.fromNow, toOccur) xs).map Prod.snd)
      = toOccur ::ₘ Multiset.ofList (xs.map Prod.snd) := Multiset.coe_eq_coe.mpr (hperm.map Prod.snd)
  simp only [agendaOf, Agenda.add, Agenda.entry, hpending]
  rfl

/-- The `Schedule` calls of a handler, or of a call. -/
theorem scheduleAll_agenda {rs : List (Request F A)} :
    ∀ {i i' : Interrupt F A} {xs : List (Int × PendingInterrupt F A)}, i.Timed xs → i.scheduleAll rs = some i' →
      ∃ xs', i'.Timed xs' ∧ SameMode i i' ∧ (∀ r ∈ rs, 0 < r.fromNow) ∧
        ∀ d : D, i'.agendaOf xs' d = (i.agendaOf xs d).addAll rs := by
  induction rs with
  | nil =>
    intro i i' xs h hs
    obtain rfl := Option.some.inj hs
    exact ⟨xs, h, ⟨rfl, rfl, rfl⟩, fun r hr => absurd hr List.not_mem_nil, fun d => rfl⟩
  | cons r rs ih =>
    intro i i' xs h hs
    obtain ⟨i₁, hfirst, hrest⟩ := Option.bind_eq_some_iff.mp hs
    obtain ⟨xs₁, h₁, hsame₁, hr, hadd⟩ := h.schedule_agenda (D := D) hfirst
    obtain ⟨xs', h', hsame', hrs, hall⟩ := ih h₁ hrest
    refine ⟨xs', h', ⟨hsame'.level.trans hsame₁.level, hsame'.status.trans hsame₁.status,
      hsame'.stats.trans hsame₁.stats⟩, List.forall_mem_cons.mpr ⟨hr, hrs⟩, fun d => ?_⟩
    rw [hall d, hadd d, Agenda.addAll_cons]

variable {dev : Devices F A D} {calls : DeviceCalls K F A D} {start : D → Prop} {x : Int × PendingInterrupt F A}
  {l : LinkedList (PendingInterrupt F A)}

/-- An interrupt that is put back: the bag is the same. -/
theorem putBack_agenda (h : i.Timed (x :: xs)) (hl : l.Represents xs)
    (hs : ({ i with pending := l }).putBack x.2 x.1 = some i') :
    ∃ xs', i'.Timed xs' ∧ SameMode i i' ∧ ∀ d : D, i'.agendaOf xs' d = i.agendaOf (x :: xs) d := by
  obtain ⟨i₁, xs', hput, htimed, hsame, -⟩ := h.putBack hl
  obtain rfl := Option.some.inj (hput.symm.trans hs)
  obtain ⟨l', hinsert, hrep⟩ := hl.sortedInsert x.2 x.1
  have heq : i₁ = { i with pending := l' } := by
    unfold Interrupt.putBack at hs
    rw [hinsert] at hs
    exact (Option.some.inj hs).symm
  subst heq
  obtain rfl := htimed.pending.unique hrep
  refine ⟨_, htimed, hsame, fun d => ?_⟩
  have hperm := List.perm_orderedInsert (fun x y : Int × PendingInterrupt F A => x.1 < y.1) x xs
  have hpending : Multiset.ofList ((LinkedList.insertSorted x xs).map Prod.snd)
      = Multiset.ofList ((x :: xs).map Prod.snd) := Multiset.coe_eq_coe.mpr (hperm.map Prod.snd)
  simp only [agendaOf, hpending]

/-- What the second half of `CheckIfDue` decides, the clock being where it should be. -/
def Decides (i i' : Interrupt F A) (xs : List (Int × PendingInterrupt F A)) (d : D)
    (o : Option (PendingInterrupt F A)) : Prop :=
  o = none ∧ i'.status = i.status ∧ (∃ xs', i'.Timed xs' ∧ i'.agendaOf xs' d = i.agendaOf xs d) ∨
    ∃ x rest, o = some x.2 ∧ xs = x :: rest ∧ x.1 ≤ i.stats.totalTicks ∧ i'.Timed rest ∧
      i'.agendaOf rest d = (i.agendaOf xs d).take x.2 (Multiset.ofList (rest.map Prod.snd))

theorem fire_agenda (h : i.Timed (x :: xs)) (hl : l.Represents xs) (hdue : x.1 ≤ i.stats.totalTicks)
    {o : Option (PendingInterrupt F A)} (hs : ({ i with pending := l }).fire x.2 x.1 = some (o, i')) :
    i'.level = i.level ∧ i'.stats = i.stats ∧ Decides i i' (x :: xs) d o := by
  unfold Interrupt.fire at hs
  split at hs
  · obtain ⟨i₁, hput, heq⟩ := Option.map_eq_some_iff.mp hs
    obtain ⟨rfl, rfl⟩ := Prod.mk.inj heq
    obtain ⟨xs', htimed, hsame, hagenda⟩ := h.putBack_agenda (D := D) hl hput
    exact ⟨hsame.level, hsame.stats, Or.inl ⟨rfl, hsame.status, xs', htimed, hagenda d⟩⟩
  · obtain ⟨rfl, rfl⟩ := Prod.mk.inj (Option.some.inj hs)
    exact ⟨rfl, rfl, Or.inr ⟨x, xs, rfl, rfl, hdue, h.enterHandler hl hdue, rfl⟩⟩

/-- **`CheckIfDue` up to the handler**: the clock is moved to the first interrupt or not, and then it is decided. -/
theorem nextDue_agenda (h : i.Timed xs) {advanceClock : Bool} {o : Option (PendingInterrupt F A)}
    (hreach : (agenda dev calls start).Reach (i.agendaOf xs d))
    (hs : i.nextDue advanceClock = some (o, i')) :
    ∃ i₀, i₀.Timed xs ∧ (agenda dev calls start).Reach (i₀.agendaOf xs d) ∧ i₀.status = i.status ∧
      ((i.agendaOf xs d).Within 0 → (i₀.agendaOf xs d).Within 0) ∧ i'.level = i.level ∧ i'.stats = i₀.stats ∧
      Decides i₀ i' xs d o := by
  obtain ⟨l, hremove, hl⟩ := h.pending.sortedRemove
  simp only [Interrupt.nextDue, hremove, Option.bind_some] at hs
  split at hs
  · cases xs with
    | nil =>
      obtain ⟨rfl, rfl⟩ := Prod.mk.inj (Option.some.inj hs)
      refine ⟨i, h, hreach, rfl, id, rfl, rfl, Or.inl ⟨rfl, rfl, [], ?_, rfl⟩⟩
      exact ⟨hl, h.sorted, h.key, h.later, h.serials, h.known, h.fired, h.order, h.numbered, h.ticks⟩
    | cons x xs =>
      simp only [List.head?_cons] at hs
      have hfirst : ∀ p ∈ (i.agendaOf (x :: xs) d).pending, x.2.when_ ≤ p.when_ := by
        intro p hp
        obtain ⟨y, hy, rfl⟩ := mem_agendaOf.mp hp
        rw [← h.key x List.mem_cons_self, ← h.key y hy]
        rcases List.mem_cons.mp hy with rfl | hy
        · exact Int.le_refl _
        · exact (List.pairwise_cons.mp h.sorted).1 y hy
      by_cases hdue : i.stats.totalTicks < x.1
      · by_cases hadvance : advanceClock = true
        · -- the clock is advanced to the time of the interrupt
          rw [if_pos ⟨hadvance, hdue⟩] at hs
          have hticks := h.ticks
          have htimed : (i.advanceTo x.1).Timed (x :: xs) :=
            h.later_stats _ (Int.le_of_lt hdue) (by simp only; omega)
          have hkey := h.key x List.mem_cons_self
          have hmoved : (i.advanceTo x.1).agendaOf (x :: xs) d
              = { i.agendaOf (x :: xs) d with now := x.2.when_ } := by
            rw [← hkey]
            rfl
          obtain ⟨hlevel, hstats, hdecides⟩ := htimed.fire_agenda (d := d) hl (Int.le_refl _) hs
          refine ⟨i.advanceTo x.1, htimed, ?_, rfl, fun _ p hp => ?_, hlevel, hstats, hdecides⟩
          · rw [hmoved]
            refine hreach.step (l := ()) (.skip (mem_agendaOf.mpr ⟨x, List.mem_cons_self, rfl⟩) hfirst ?_)
            show i.stats.totalTicks < x.2.when_
            rw [← hkey]
            exact hdue
          · show x.1 ≤ p.when_ + 0
            rw [hkey, Int.add_zero]
            exact hfirst p hp
        · rw [if_neg fun hand => hadvance hand.1, if_pos hdue] at hs
          obtain ⟨i₁, hput, heq⟩ := Option.map_eq_some_iff.mp hs
          obtain ⟨rfl, rfl⟩ := Prod.mk.inj heq
          obtain ⟨xs', htimed, hsame, hagenda⟩ := h.putBack_agenda (D := D) hl hput
          exact ⟨i, h, hreach, rfl, id, hsame.level, hsame.stats,
            Or.inl ⟨rfl, hsame.status, xs', htimed, hagenda d⟩⟩
      · rw [if_neg fun hand => hdue hand.2, if_neg hdue] at hs
        obtain ⟨hlevel, hstats, hdecides⟩ := h.fire_agenda (d := d) hl (Int.not_lt.mp hdue) hs
        exact ⟨i, h, hreach, rfl, id, hlevel, hstats, hdecides⟩
  · cases hs

end Timed

end Interrupt

namespace Hardware

open Interrupt (Timed)

variable {K F A D : Type} {dev : Devices F A D} {calls : DeviceCalls K F A D} {start : D → Prop}
  {s s' : Hardware F A D} {xs : List (Int × PendingInterrupt F A)}

/-- The agenda of a state. -/
def agendaOf (s : Hardware F A D) (xs : List (Int × PendingInterrupt F A)) : Agenda F A D :=
  s.interrupt.agendaOf xs s.world

/-- A state that a state of the agenda stands for. -/
structure OnAgenda (dev : Devices F A D) (calls : DeviceCalls K F A D) (start : D → Prop) (s : Hardware F A D)
    (xs : List (Int × PendingInterrupt F A)) : Prop where
  timed : s.interrupt.Timed xs
  reach : (agenda dev calls start).Reach (s.agendaOf xs)

/-- The flags change. -/
theorem OnAgenda.congr (h : OnAgenda dev calls start s xs) (s' : Hardware F A D)
    (hpending : s'.interrupt.pending = s.interrupt.pending) (hstats : s'.interrupt.stats = s.interrupt.stats)
    (hscheduled : s'.interrupt.scheduled = s.interrupt.scheduled) (hfired : s'.interrupt.fired = s.interrupt.fired)
    (hworld : s'.world = s.world) :
    OnAgenda dev calls start s' xs ∧ s'.agendaOf xs = s.agendaOf xs := by
  have heq : s'.agendaOf xs = s.agendaOf xs := by
    rw [agendaOf, agendaOf, hworld]
    exact Interrupt.agendaOf_congr hstats hscheduled hfired xs s.world
  refine ⟨⟨h.timed.congr hpending hstats hscheduled hfired, ?_⟩, heq⟩
  rw [heq]
  exact h.reach

/-- The call of a handler. -/
theorem callHandler_cases {i : Interrupt F A} {d : D} {b : Bool} {p : PendingInterrupt F A}
    (hs : (Hardware.mk i d b).callHandler dev p = some s') :
    ∃ i', i.scheduleAll (dev.call p.handler p.arg i.stats.totalTicks (dev.delayedLoad d)).1 = some i' ∧
      s'.interrupt.pending = i'.pending ∧ s'.interrupt.stats = i'.stats ∧ s'.interrupt.scheduled = i'.scheduled ∧
      s'.interrupt.fired = i'.fired ∧
      s'.world = (dev.call p.handler p.arg i.stats.totalTicks (dev.delayedLoad d)).2.2 := by
  obtain ⟨i', hall, rfl⟩ := Option.map_eq_some_iff.mp hs
  exact ⟨i', hall, rfl, rfl, rfl, rfl, rfl⟩

/-- **`CheckIfDue`**: the first interrupt fires, or nothing happens; before that, the clock may be moved. -/
theorem OnAgenda.checkIfDue (h : OnAgenda dev calls start s xs) {advanceClock b : Bool}
    (hs : s.checkIfDue dev advanceClock = some (b, s')) :
    ∃ xs', OnAgenda dev calls start s' xs' ∧ s'.interrupt.status = s.interrupt.status ∧
      ((s.agendaOf xs).Within 0 → (s'.agendaOf xs').Within 0) := by
  obtain ⟨⟨o, i₁⟩, hnext, hs⟩ := Option.bind_eq_some_iff.mp hs
  obtain ⟨i₀, h₀, hreach₀, hstatus₀, hwithin₀, hlevel, hstats, hdecides⟩ := h.timed.nextDue_agenda h.reach hnext
  rcases hdecides with ⟨rfl, hstatus, xs', htimed, hagenda⟩ | ⟨x, rest, rfl, rfl, hdue, htimed, hagenda⟩
  · obtain ⟨rfl, rfl⟩ := Prod.mk.inj (Option.some.inj hs)
    refine ⟨xs', ⟨htimed, ?_⟩, hstatus.trans hstatus₀, fun hwithin => ?_⟩
    · show (agenda dev calls start).Reach (i₁.agendaOf xs' s.world)
      rw [hagenda]
      exact hreach₀
    · show (i₁.agendaOf xs' s.world).Within 0
      rw [hagenda]
      exact hwithin₀ hwithin
  · obtain ⟨s₁, hcall, heq⟩ := Option.map_eq_some_iff.mp hs
    obtain ⟨rfl, rfl⟩ := Prod.mk.inj heq
    obtain ⟨i₂, hall, hpending, hstats₂, hscheduled, hfired, hworld⟩ := callHandler_cases (i := i₁) hcall
    obtain ⟨a, ha⟩ : ∃ a, a = i₀.agendaOf (x :: rest) s.world := ⟨_, rfl⟩
    -- the handler is called with the time and the devices of the agenda
    have hhandle : dev.call x.2.handler x.2.arg i₁.stats.totalTicks (dev.delayedLoad s.world) = a.handle dev x.2 := by
      rw [ha, hstats]
      rfl
    rw [hhandle] at hall hworld
    obtain ⟨xs', htimed', -, hlater, hadd⟩ := htimed.scheduleAll_agenda (D := D) hall
    have hafter : i₂.agendaOf xs' (a.handle dev x.2).2.2
        = (a.take x.2 (Multiset.ofList (rest.map Prod.snd))).request (a.handle dev x.2).2.2 (a.handle dev x.2).1 := by
      rw [hadd, ha, ← hagenda]
      rfl
    have hsame : agendaOf { s₁ with interrupt := s₁.interrupt.leaveHandler s.interrupt.status } xs'
        = i₂.agendaOf xs' (a.handle dev x.2).2.2 := by
      rw [agendaOf, hworld]
      exact Interrupt.agendaOf_congr hstats₂ hscheduled hfired xs' _
    have hfirst : ∀ q ∈ Multiset.ofList (rest.map Prod.snd), x.2.when_ ≤ q.when_ := by
      intro q hq
      obtain ⟨y, hy, rfl⟩ := List.mem_map.mp (Multiset.mem_coe.mp hq)
      rw [← h₀.key x List.mem_cons_self, ← h₀.key y (List.mem_cons_of_mem _ hy)]
      exact (List.pairwise_cons.mp h₀.sorted).1 y hy
    have hpend : a.pending = x.2 ::ₘ Multiset.ofList (rest.map Prod.snd) := by
      rw [ha]
      rfl
    have hnow : x.2.when_ ≤ a.now := by
      rw [ha, ← h₀.key x List.mem_cons_self]
      exact hdue
    rw [← ha] at hreach₀ hwithin₀
    refine ⟨xs', ⟨htimed'.congr hpending hstats₂ hscheduled hfired, ?_⟩, rfl, fun hwithin => ?_⟩
    · rw [hsame, hafter]
      exact hreach₀.step (l := ()) (.fire hpend hfirst hnow hlater)
    · rw [hsame, hafter]
      refine Agenda.Within.request (fun q hq => ?_) (Int.le_refl 0) hlater
      exact hwithin₀ hwithin q ((Agenda.mem_of_cons hpend).2 q hq)

/-- The loop of `OneTick` and `Idle`: induction on the rounds. -/
theorem OnAgenda.checkLoop (n : Nat) {s : Hardware F A D} {xs : List (Int × PendingInterrupt F A)}
    (h : OnAgenda dev calls start s xs) (hs : checkLoop dev n s = some s') :
    ∃ xs', OnAgenda dev calls start s' xs' ∧ s'.interrupt.status = s.interrupt.status ∧
      ((s.agendaOf xs).Within 0 → (s'.agendaOf xs').Within 0) := by
  induction n generalizing s xs with
  | zero => cases hs
  | succ n ih =>
    obtain ⟨⟨b, s₁⟩, hcheck, hs⟩ := Option.bind_eq_some_iff.mp hs
    obtain ⟨xs₁, h₁, hstatus₁, hwithin₁⟩ := h.checkIfDue hcheck
    cases b with
    | false =>
      obtain rfl := Option.some.inj hs
      exact ⟨xs₁, h₁, hstatus₁, hwithin₁⟩
    | true =>
      obtain ⟨xs', h', hstatus', hwithin'⟩ := ih h₁ hs
      exact ⟨xs', h', hstatus'.trans hstatus₁, fun hwithin => hwithin' (hwithin₁ hwithin)⟩

/-- **`OneTick`** outside of idle mode: a tick, and then all that is due. -/
theorem OnAgenda.oneTick (hdev : dev.Positive) (h : OnAgenda dev calls start s xs) (hwithin : (s.agendaOf xs).Within 0)
    (hmode : s.interrupt.status ≠ .idleMode) {n : Nat} (hs : s.oneTick dev n = some s') :
    ∃ xs', OnAgenda dev calls start s' xs' ∧ (s'.agendaOf xs').Within 0 ∧ s'.interrupt.status ≠ .idleMode := by
  obtain ⟨s₁, hloop, heq⟩ := Option.map_eq_some_iff.mp hs
  have htick : OnAgenda dev calls start { s with interrupt := s.interrupt.beginTick } xs := by
    refine ⟨h.timed.tick.1.congr rfl rfl rfl rfl, ?_⟩
    have hdue : ∀ p ∈ (s.agendaOf xs).pending, (s.agendaOf xs).now ≤ p.when_ := fun p hp => by
      have hp' := hwithin p hp
      omega
    by_cases hsystem : s.interrupt.status = .systemMode
    · have htime : agendaOf { s with interrupt := s.interrupt.beginTick } xs
          = { s.agendaOf xs with now := (s.agendaOf xs).now + systemTick } := by
        simp only [agendaOf, Interrupt.agendaOf, Interrupt.beginTick, Interrupt.tick, if_pos hsystem]
      rw [htime]
      exact h.reach.step (l := ()) (.tick (by decide) (by decide) hdue)
    · have htime : agendaOf { s with interrupt := s.interrupt.beginTick } xs
          = { s.agendaOf xs with now := (s.agendaOf xs).now + userTick } := by
        simp only [agendaOf, Interrupt.agendaOf, Interrupt.beginTick, Interrupt.tick, if_neg hsystem]
      rw [htime]
      exact h.reach.step (l := ()) (.tick (by decide) (by decide) hdue)
  obtain ⟨xs₁, h₁, hstatus, -⟩ := OnAgenda.checkLoop n htick hloop
  subst heq
  obtain ⟨h', -⟩ := h₁.congr { s₁ with interrupt := s₁.interrupt.endTick } (by simp) (by simp) (by simp) (by simp)
    rfl
  refine ⟨xs₁, h', fun p hp => ?_, ?_⟩
  -- the loop ended because nothing was due
  · obtain ⟨xs₂, htimed₂, -, hlater⟩ := (oneTick_spec hdev h.timed).2 n _ hs
    obtain rfl := htimed₂.pending.unique h'.timed.pending
    obtain ⟨x, hx, rfl⟩ := Interrupt.mem_agendaOf.mp hp
    have hlt := hlater hmode x hx
    rw [htimed₂.key x hx] at hlt
    show s₁.interrupt.endTick.stats.totalTicks ≤ x.2.when_ + 0
    have hlt' : s₁.interrupt.endTick.stats.totalTicks < x.2.when_ := hlt
    omega
  · have hkept : s₁.interrupt.status = s.interrupt.status := hstatus.trans (Interrupt.tick_status _)
    show s₁.interrupt.endTick.status ≠ _
    unfold Interrupt.endTick
    split
    · exact fun hidle => by cases hidle
    · show s₁.interrupt.status ≠ _
      rw [hkept]
      exact hmode

/-- **`Idle`**: the clock jumps to the first interrupt, and then all that is due. -/
theorem OnAgenda.idle (h : OnAgenda dev calls start s xs) (hwithin : (s.agendaOf xs).Within 0) {n : Nat}
    (hs : s.idle dev n = some s') :
    ∃ xs', OnAgenda dev calls start s' xs' ∧ (s'.agendaOf xs').Within 0 ∧
      (s'.halted = false → s'.interrupt.status ≠ .idleMode) := by
  obtain ⟨hidle, hsame⟩ := h.congr { s with interrupt := { s.interrupt with status := .idleMode } } rfl rfl rfl
    rfl rfl
  obtain ⟨⟨b, s₁⟩, hcheck, hs⟩ := Option.bind_eq_some_iff.mp hs
  obtain ⟨xs₁, h₁, -, hwithin₁⟩ := hidle.checkIfDue hcheck
  rw [hsame] at hwithin₁
  cases b with
  | false =>
    obtain rfl := Option.some.inj hs
    obtain ⟨h', hsame'⟩ := h₁.congr { s₁ with halted := true } rfl rfl rfl rfl rfl
    refine ⟨xs₁, h', ?_, fun hfalse => ?_⟩
    · rw [hsame']
      exact hwithin₁ hwithin
    · cases hfalse
  | true =>
    obtain ⟨s₂, hloop, rfl⟩ := Option.map_eq_some_iff.mp hs
    obtain ⟨xs₂, h₂, -, hwithin₂⟩ := OnAgenda.checkLoop n h₁ hloop
    obtain ⟨h', hsame'⟩ := h₂.congr { s₂ with interrupt := s₂.interrupt.endIdle } rfl rfl rfl rfl rfl
    refine ⟨xs₂, h', ?_, fun _ hmode => ?_⟩
    · rw [hsame']
      exact hwithin₂ (hwithin₁ hwithin)
    · cases hmode

/-- **Step lemma.** -/
theorem OnAgenda.step (hdev : dev.Positive) (h : OnAgenda dev calls start s xs) (hwithin : (s.agendaOf xs).Within 0)
    (hmode : s.interrupt.status ≠ .idleMode) {n : Nat} {a : MachineAct K} (hs : machineStep dev calls n s a = some s') :
    ∃ xs', OnAgenda dev calls start s' xs' ∧ (s'.agendaOf xs').Within 0 ∧
      (s'.halted = false → s'.interrupt.status ≠ .idleMode) := by
  cases a with
  | call k =>
    obtain ⟨⟨d, rs⟩, hcall, hs⟩ := Option.bind_eq_some_iff.mp hs
    obtain ⟨i, hall, rfl⟩ := Option.map_eq_some_iff.mp hs
    obtain ⟨xs', htimed, hsame, hlater, hadd⟩ := h.timed.scheduleAll_agenda (D := D) hall
    have hafter : i.agendaOf xs' d = (s.agendaOf xs).request d rs := hadd d
    refine ⟨xs', ⟨htimed, ?_⟩, ?_, fun _ => ?_⟩
    · show (agenda dev calls start).Reach (i.agendaOf xs' d)
      rw [hafter]
      exact h.reach.step (l := ()) (.call hcall hlater)
    · show (i.agendaOf xs' d).Within 0
      rw [hafter]
      exact hwithin.request (Int.le_refl 0) hlater
    · show i.status ≠ _
      rw [hsame.status]
      exact hmode
  | setLevel now =>
    simp only [machineStep, setLevel] at hs
    split at hs
    · obtain ⟨h₁, hsame₁⟩ := h.congr { s with interrupt := { s.interrupt with level := now } } rfl rfl rfl rfl rfl
      split at hs
      · obtain ⟨xs', h', hwithin', hmode'⟩ := h₁.oneTick hdev (hsame₁ ▸ hwithin) hmode hs
        exact ⟨xs', h', hwithin', fun _ => hmode'⟩
      · obtain rfl := Option.some.inj hs
        exact ⟨xs, h₁, hsame₁ ▸ hwithin, fun _ => hmode⟩
    · cases hs
  | setUserMode user =>
    obtain rfl := Option.some.inj hs
    obtain ⟨h₁, hsame₁⟩ := h.congr { s with interrupt := { s.interrupt with
      status := if user then .userMode else .systemMode } } rfl rfl rfl rfl rfl
    refine ⟨xs, h₁, hsame₁ ▸ hwithin, fun _ => ?_⟩
    cases user with
    | true | false => exact fun hidle => by cases hidle
  | oneTick =>
    obtain ⟨xs', h', hwithin', hmode'⟩ := h.oneTick hdev hwithin hmode hs
    exact ⟨xs', h', hwithin', fun _ => hmode'⟩
  | idle => exact h.idle hwithin hs

/-- **Every state of the machine is on the agenda**, and between two actions nothing is overdue. -/
theorem machine_reaches_agenda (hdev : dev.Positive) (h : (machineSys dev calls start).Reach s) :
    ∃ xs, OnAgenda dev calls start s xs ∧ (s.agendaOf xs).Within 0 ∧
      (s.halted = false → s.interrupt.status ≠ .idleMode) := by
  refine h.invariant (I := fun s => ∃ xs, OnAgenda dev calls start s xs ∧ (s.agendaOf xs).Within 0 ∧
    (s.halted = false → s.interrupt.status ≠ .idleMode)) (fun s hinit => ?_) fun s a s' _ hold hs => ?_
  · obtain ⟨hnew, hstart, -⟩ := hinit
    have hagenda : s.agendaOf [] = ⟨0, [], 0, [], s.world⟩ := by
      rw [agendaOf, hnew]
      rfl
    refine ⟨[], ⟨by rw [hnew]; exact .new, ?_⟩, ?_, fun _ => ?_⟩
    · rw [hagenda]
      exact .init ⟨rfl, rfl, rfl, rfl, hstart⟩
    · rw [hagenda]
      exact fun p hp => absurd hp (Multiset.notMem_zero p)
    · rw [hnew]
      exact fun hidle => by cases hidle
  · obtain ⟨xs, honAgenda, hwithin, hmode⟩ := hold
    obtain ⟨hrunning, n, hs⟩ := hs
    exact honAgenda.step hdev hwithin (hmode hrunning) hs

end Hardware

/-! ## Punctuality -/

/-- **Interrupts are neither lost nor late.**  In every run (times below `2 ^ 31`), with any devices: what was
    scheduled is pending or has fired, each once; no interrupt has fired before its time or more than a tick of the
    system after it; and between two actions none that is pending is overdue. -/
theorem interrupts_punctual {K F A D : Type} {dev : Devices F A D} (hdev : dev.Positive) {calls : DeviceCalls K F A D}
    {start : D → Prop} {s : Hardware F A D} (h : (machineSys dev calls start).Reach s) :
    ∃ xs, s.interrupt.pending.Represents xs ∧
      (xs.map Prod.snd ++ s.interrupt.fired.map fun f => f.interrupt).Perm s.interrupt.scheduled ∧
      (∀ f ∈ s.interrupt.fired, f.interrupt.when_ ≤ f.time ∧ f.time ≤ f.interrupt.when_ + systemTick) ∧
      ∀ x ∈ xs, s.interrupt.stats.totalTicks ≤ x.2.when_ := by
  obtain ⟨xs, honAgenda, hwithin, -⟩ := Hardware.machine_reaches_agenda hdev h
  obtain ⟨-, hpunctual, hconserved⟩ := Agenda.punctual_of_reach honAgenda.reach
  refine ⟨xs, honAgenda.timed.pending, ?_, hpunctual, fun x hx => ?_⟩
  · rw [← Multiset.coe_eq_coe, ← Multiset.coe_add]
    exact hconserved
  · have hlate := hwithin x.2 (Interrupt.mem_agendaOf.mpr ⟨x, hx, rfl⟩)
    rw [Int.add_zero] at hlate
    exact hlate

/-- A device that is asked to interrupt after so many ticks. -/
def alarmCalls : DeviceCalls Int Unit Unit Unit := fun fromNow d _ => some (d, [⟨(), (), fromNow, .diskInt⟩])

/-- An action with at most three rounds of the loop. -/
def alarmStep (s : Hardware Unit Unit Unit) (a : MachineAct Int) : Option (Hardware Unit Unit Unit) :=
  if s.halted = false then machineStep timerOnly alarmCalls 3 s a else none

theorem alarmStep_step (s : Hardware Unit Unit Unit) (a : MachineAct Int) (s' : Hardware Unit Unit Unit)
    (h : alarmStep s a = some s') : (machineSys timerOnly alarmCalls fun _ => True).step s a s' := by
  unfold alarmStep at h
  split at h
  · rename_i hrun
    exact ⟨hrun, 3, h⟩
  · cases h

/-- An alarm is set to 5 ticks and interrupts are enabled, which takes 10: it was late by 5. -/
theorem interrupts_punctual_alarm :
    let s := Lts.replay alarmStep hwInit [.call 5, .setLevel .intOn]
    s.interrupt.fired.map (fun f => (f.interrupt.when_, f.time)) = [(5, 10)] ∧
      ∀ f ∈ s.interrupt.fired, f.interrupt.when_ ≤ f.time ∧ f.time ≤ f.interrupt.when_ + systemTick := by
  have hreach : (machineSys timerOnly alarmCalls fun _ => True).Reach
      (Lts.replay alarmStep hwInit [.call 5, .setLevel .intOn]) :=
    Lts.reach_replay alarmStep_step (.init ⟨rfl, trivial, rfl⟩) _
  obtain ⟨xs, -, -, hfired, -⟩ := interrupts_punctual timerOnly_positive hreach
  exact ⟨by decide, hfired⟩

end Nachos
