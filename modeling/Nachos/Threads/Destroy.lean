/-
  `threads/thread.cc`, `threads/scheduler.cc` — the end of a thread.

  `Finish` cannot delete the thread it runs in.  It leaves it in `threadToBeDestroyed` and sleeps, and the thread
  that comes back from `SWITCH` in `Scheduler::Run` deletes it.  A thread that is dispatched for the FIRST time does
  not come back there: it starts in `ThreadRoot`.

  1. **What is deleted is dead** (`Kernel.Resting`) — a finished thread is BLOCKED for good, so it is on no ready
     queue, on no semaphore's queue, and not the thread that runs.  This holds in every run.

  2. **The one slot** (`Kernel.SlotOk`) — if after every `Finish` the processor goes to a thread that has run before,
     the slot is taken only between a `Finish` and the switch after it, and nobody is dropped (`finish_slot_free`).
     If it goes to a new thread that finishes in its turn, the slot is overwritten and the first thread is never
     deleted (`finish_drops`).
-/
import Nachos.Threads.Dispatch

set_option linter.unusedSectionVars false

namespace Nachos

variable {S I Sh Pc : Type} [DecidableEq S]

/-- The machine after thread `u` has forked another one. -/
def State.forked (s : State S Sh Pc) (u : Tid) (a : Forking Sh Pc) : State S Sh Pc :=
  { s with
    ctl := Function.update (Function.update s.ctl a.child (.atPc a.start)) u (.atPc a.next)
    prio := Function.update s.prio a.child a.priority
    sh := a.sh }

namespace Kernel

/-! ## Part 1: what is deleted is dead -/

/-- A finished thread is BLOCKED. -/
def Resting (k : Kernel S Sh Pc) : Prop := ∀ t, k.m.ctl t = .finished → k.status t = .blocked

namespace Resting

variable {k : Kernel S Sh Pc} {m' : State S Sh Pc} {t : Tid}

/-- A thread that is not BLOCKED goes on. -/
theorem alive (h : k.Resting) (ht : k.status t ≠ .blocked) : k.m.ctl t ≠ .finished := fun hfin => ht (h t hfin)

/-- The machine goes on, and no thread finishes. -/
theorem move (h : k.Resting) (hctl : ∀ t, m'.ctl t = .finished → k.m.ctl t = .finished) :
    Resting { k with m := m' } := fun t ht => h t (hctl t ht)

/-- A thread that has not finished is made ready. -/
theorem readyToRun (h : k.Resting) (ht : k.m.ctl t ≠ .finished) : (k.readyToRun t).Resting := by
  intro u hu
  have hne : u ≠ t := by
    rintro rfl
    exact ht hu
  show Function.update k.status t .ready u = .blocked
  rw [Function.update_of_ne hne]
  exact h u hu

/-- A thread that has not finished gets the processor. -/
theorem run (h : k.Resting) (ht : k.m.ctl t ≠ .finished) : (k.run t).Resting := by
  intro u hu
  have hne : u ≠ t := by
    rintro rfl
    exact ht hu
  show Function.update k.status t .running u = .blocked
  rw [Function.update_of_ne hne]
  exact h u hu

/-- What `FindNextToRun` returns has not finished. -/
theorem found (h : k.Resting) (hk : k.Ranked) {n : Tid} {q : ReadyLists}
    (hfind : k.readyListP.findNextToRun = (some n, q)) : k.m.ctl n ≠ .finished := by
  obtain ⟨i, -, hq, -, -⟩ := ReadyLists.findNextToRun_some hfind
  apply h.alive
  rw [hk.ready i n (by rw [hq]; exact List.mem_cons_self ..)]
  exact fun hst => by cases hst

theorem yield (h : k.Resting) (hk : k.Ranked) (hcur : k.m.ctl k.currentThread ≠ .finished) : k.yield.Resting := by
  unfold Kernel.yield
  split
  · exact h
  · rename_i n q hfind
    have hput : Resting ({ k with readyListP := q }.readyToRun k.currentThread) :=
      readyToRun (k := { k with readyListP := q }) h hcur
    exact hput.run (h.found hk hfind)

/-- `V` wakes a thread that waits, which has not finished. -/
theorem wake {p : Prog S I Sh Pc} (h : k.Resting) {m : State S Sh Pc} (hw : Waiting p m) (x : S)
    (hctl : ∀ t, k.m.ctl t = .finished → m.ctl t = .finished) : (k.wake (m.sem x).V.2).Resting := by
  cases hqueue : (m.sem x).queue with
  | nil =>
    have hnone : (m.sem x).V.2 = none := by rw [Semaphore.V_woken, hqueue]; rfl
    rw [hnone]
    exact h
  | cons t rest =>
    have hsome : (m.sem x).V.2 = some t := by rw [Semaphore.V_woken, hqueue]; rfl
    rw [hsome]
    apply h.readyToRun
    intro hfin
    have hmem : t ∈ (m.sem x).queue ++ (m.log x).woken := by
      rw [hqueue]
      exact List.mem_cons_self ..
    obtain ⟨pc, -, -, hpc, -⟩ := hw.atP x t hmem
    rw [hctl t hfin] at hpc
    cases hpc

/-- A thread that goes on does not finish. -/
theorem goto_finished {s : State S Sh Pc} {u : Tid} {sh' : Sh} {pc' : Pc} {t : Tid}
    (h : (s.goto u sh' pc').ctl t = .finished) : s.ctl t = .finished := by
  by_cases ht : t = u
  · subst ht
    rw [State.goto_ctl, Function.update_self] at h
    cases h
  · rw [State.goto_ctl, Function.update_of_ne ht] at h
    exact h

/-- Nor does a thread that forks, or the one it forks. -/
theorem forked_finished {s : State S Sh Pc} {u : Tid} {a : Forking Sh Pc} {t : Tid}
    (h : (s.forked u a).ctl t = .finished) : s.ctl t = .finished := by
  replace h : Function.update (Function.update s.ctl a.child (.atPc a.start)) u (.atPc a.next) t = .finished := h
  by_cases hu : t = u
  · rw [hu, Function.update_self] at h
    cases h
  · rw [Function.update_of_ne hu] at h
    by_cases hchild : t = a.child
    · rw [hchild, Function.update_self] at h
      cases h
    · rw [Function.update_of_ne hchild] at h
      exact h

theorem forked_child {s : State S Sh Pc} {u : Tid} {a : Forking Sh Pc} :
    (s.forked u a).ctl a.child ≠ .finished := by
  show Function.update (Function.update s.ctl a.child (.atPc a.start)) u (.atPc a.next) a.child ≠ .finished
  intro h
  by_cases hu : a.child = u
  · rw [hu, Function.update_self] at h
    cases h
  · rw [Function.update_of_ne hu, Function.update_self] at h
    cases h

/-- **Step lemma.** -/
theorem step {p : Prog S I Sh Pc} {k' : Kernel S Sh Pc} {l : KLabel I} (hk : k.Ranked) (hw : Waiting p k.m)
    (h : k.Resting) (hs : KStep p k l k') : k'.Resting := by
  cases hs with
  | timer hrun =>
    apply h.yield hk
    apply h.alive
    rw [hrun]
    exact fun hst => by cases hst
  | @dispatch n q hsleep hfind => exact run (k := { k with readyListP := q }) h (h.found hk hfind)
  | @intrV i x sh' hh =>
    have hm : Resting { k with m := { k.m.semV x with sh := sh' } } := h.move fun _ ht => ht
    exact hm.wake hw x fun _ ht => ht
  | @intr i sh' hh => exact h.move fun _ ht => ht
  | @run pc m' _ hrun hpc hexec hafter =>
    generalize p.code k.currentThread pc = i at hexec hafter
    cases Kernel.ran_of_after hexec hafter with
    | sleep _ =>
      intro t ht
      show Function.update k.status k.currentThread .blocked t = .blocked
      by_cases hcur : t = k.currentThread
      · rw [hcur, Function.update_self]
      · rw [Function.update_of_ne hcur]
        exact h t ht
    | pass _ => exact h.move fun _ ht => goto_finished (s := k.m.semP k.currentThread _) ht
    | @V x upd next =>
      have hm : Resting { k with m := (k.m.semV x).goto k.currentThread (upd k.m.sh) next } :=
        h.move fun _ ht => goto_finished (s := k.m.semV x) ht
      exact hm.wake hw x fun _ ht => goto_finished (s := k.m.semV x) ht
    | tau _ | keep _ => exact h.move fun _ ht => goto_finished ht
    | @donate f _ _ _ _ _ =>
      have hm : Resting { k with m := k.m.goto k.currentThread (f k.m.prio k.m.sh).sh (f k.m.prio k.m.sh).next } :=
        h.move fun _ ht => goto_finished ht
      exact fun t ht => hm t ht
    | @fork f a _ hfresh _ =>
      have hm : Resting { k with m := k.m.forked k.currentThread a } := h.move fun _ ht => forked_finished ht
      exact hm.readyToRun forked_child
    | @yield next =>
      have hm : Resting { k with m := k.m.goto k.currentThread k.m.sh next } := h.move fun _ ht => goto_finished ht
      refine hm.yield (hk.goto hpc rfl (fun _ _ => id) (fun u hu => by simp [hu]) (by simp)) ?_
      intro ht
      have hfin := goto_finished ht
      rw [hpc] at hfin
      cases hfin
    | finish =>
      intro t ht
      show Function.update k.status k.currentThread .blocked t = .blocked
      by_cases hcur : t = k.currentThread
      · rw [hcur, Function.update_self]
      · rw [Function.update_of_ne hcur]
        replace ht : Function.update k.m.ctl k.currentThread .finished t = .finished := ht
        rw [Function.update_of_ne hcur] at ht
        exact h t ht

theorem boot {p : Prog S I Sh Pc} (hi : KInit p k) : k.Resting := by
  intro t ht
  by_cases hcur : t = k.currentThread
  · obtain ⟨pc, hpc⟩ := hi.main
    rw [hcur, hpc] at ht
    cases ht
  · rw [hi.fresh t hcur] at ht
    cases ht

end Resting

/-- **Run lemma.** -/
theorem resting_of_reach {p : Prog S I Sh Pc} (hp : p.DonatesUp) {k : Kernel S Sh Pc} (h : (kernel p).Reach k) :
    k.Resting := by
  refine h.invariant (I := Resting) (fun k hi => Resting.boot hi) fun k l k' hr hk hs => ?_
  exact hk.step (ranked_of_reach hp hr) (waiting_of_reach (kernel_refines hr)) (kstep_of_kstepFn hs)

/-- A finished thread is on no queue. -/
theorem notMem_of_finished {p : Prog S I Sh Pc} (hp : p.DonatesUp) {k : Kernel S Sh Pc} (h : (kernel p).Reach k)
    {t : Tid} (ht : k.m.ctl t = .finished) : (∀ i, t ∉ k.readyListP i) ∧ ∀ x, t ∉ (k.m.sem x).queue := by
  constructor
  · intro i hmem
    have hready := (ranked_of_reach hp h).ready i t hmem
    rw [resting_of_reach hp h t ht] at hready
    cases hready
  · intro x hmem
    obtain ⟨pc, -, -, hpc, -⟩ :=
      (waiting_of_reach (kernel_refines h)).atP x t (List.mem_append_left _ hmem)
    rw [ht] at hpc
    cases hpc

/-- Threads are deleted in `Run`, by the thread that gets the processor. -/
theorem running_of_deleted {p : Prog S I Sh Pc} {k k' : Kernel S Sh Pc} {l : KLabel I} (hs : KStep p k l k')
    {t : Tid} (ht : t ∈ k'.deleted) (hnew : t ∉ k.deleted) : k'.status k'.currentThread = .running := by
  have hyield : ∀ m : State S Sh Pc, t ∈ ({ k with m := m } : Kernel S Sh Pc).yield.deleted →
      ({ k with m := m } : Kernel S Sh Pc).yield.status ({ k with m := m } : Kernel S Sh Pc).yield.currentThread
        = .running := by
    intro m hm
    unfold Kernel.yield at hm ⊢
    split at hm
    · exact absurd hm hnew
    · exact Function.update_self _ _ _
  have hwake : ∀ (m : State S Sh Pc) (o : Option Tid),
      t ∈ (({ k with m := m } : Kernel S Sh Pc).wake o).deleted → t ∈ k.deleted := by
    intro m o hm
    cases o <;> exact hm
  cases hs with
  | timer hrun => exact hyield k.m ht
  | dispatch hsleep hfind => exact Function.update_self _ _ _
  | intrV hh => exact absurd (hwake _ _ ht) hnew
  | intr hh => exact absurd ht hnew
  | @run pc m' _ hrun hpc hexec hafter =>
    generalize p.code k.currentThread pc = i at hexec hafter
    cases Kernel.ran_of_after hexec hafter with
    | yield => exact hyield _ ht
    | V => exact absurd (hwake _ _ ht) hnew
    | _ => exact absurd ht hnew

/-! ## Part 2: the one slot -/

/-- The thread that `Sleep` gives the processor to while `threadToBeDestroyed` is set has run before. -/
def ReturnsInRun (k : Kernel S Sh Pc) (l : KLabel I) : Prop :=
  match l with
  | .dispatch => k.threadToBeDestroyed ≠ none → ∀ n ∈ k.readyListP.findNextToRun.1, k.started n = true
  | _ => True

instance (k : Kernel S Sh Pc) (l : KLabel I) : Decidable (ReturnsInRun k l) :=
  match l with
  | .dispatch =>
    inferInstanceAs (Decidable (k.threadToBeDestroyed ≠ none →
      ∀ n ∈ k.readyListP.findNextToRun.1, k.started n = true))
  | .run => isTrue trivial
  | .timer => isTrue trivial
  | .intr _ => isTrue trivial

/-- The slot has the thread that has just finished and is still in `Sleep`, and no other finished thread is left. -/
structure SlotOk (k : Kernel S Sh Pc) : Prop where
  slot : ∀ t, k.threadToBeDestroyed = some t → t = k.currentThread ∧ k.m.ctl t = .finished
  kept : ∀ t, k.m.ctl t = .finished → t ∈ k.deleted ∨ k.threadToBeDestroyed = some t

namespace SlotOk

variable {k : Kernel S Sh Pc} {m' : State S Sh Pc} {t : Tid}

/-- While a thread runs, the slot is empty. -/
theorem empty (h : k.SlotOk) (hrest : k.Resting) (hrun : k.status k.currentThread = .running) :
    k.threadToBeDestroyed = none := by
  cases hslot : k.threadToBeDestroyed with
  | none => rfl
  | some t =>
    obtain ⟨rfl, hfin⟩ := h.slot t hslot
    rw [hrest _ hfin] at hrun
    cases hrun

/-- The machine goes on, and nobody finishes. -/
theorem move (h : k.SlotOk) (hslot : k.threadToBeDestroyed = none)
    (hctl : ∀ t, m'.ctl t = .finished → k.m.ctl t = .finished) : SlotOk { k with m := m' } := by
  refine ⟨fun t ht => ?_, fun t ht => h.kept t (hctl t ht)⟩
  replace ht : k.threadToBeDestroyed = some t := ht
  rw [hslot] at ht
  cases ht

/-- The switch to a thread, when there is nothing to delete or the thread comes back in `Run`. -/
theorem run (h : k.SlotOk) (hreturns : k.threadToBeDestroyed ≠ none → k.started t = true) : (k.run t).SlotOk := by
  have hnone : (if k.started t then none else k.threadToBeDestroyed) = none := by
    by_cases hstarted : k.started t = true
    · rw [if_pos hstarted]
    · rw [if_neg hstarted]
      by_contra hne
      exact hstarted (hreturns hne)
  refine ⟨fun u hu => ?_, fun u hu => Or.inl ?_⟩
  · replace hu : (if k.started t then none else k.threadToBeDestroyed) = some u := hu
    rw [hnone] at hu
    cases hu
  · show u ∈ if k.started t then k.deleted ++ k.threadToBeDestroyed.toList else k.deleted
    rcases h.kept u hu with hdel | hslot
    · split
      · exact List.mem_append_left _ hdel
      · exact hdel
    · rw [if_pos (hreturns (by rw [hslot]; exact Option.some_ne_none u)), hslot]
      exact List.mem_append_right _ (List.mem_singleton.mpr rfl)

theorem yield (h : k.SlotOk) (hslot : k.threadToBeDestroyed = none) : k.yield.SlotOk := by
  unfold Kernel.yield
  split
  · exact h
  · rename_i n q hfind
    have hput : SlotOk ({ k with readyListP := q }.readyToRun k.currentThread) := ⟨h.slot, h.kept⟩
    exact hput.run fun hne => absurd hslot hne

theorem wake (h : k.SlotOk) (o : Option Tid) : (k.wake o).SlotOk := by
  cases o with
  | none => exact h
  | some t => exact ⟨h.slot, h.kept⟩

/-- **Step lemma.**  While a thread runs the slot is empty, so all that counts is the switch after a `Finish`. -/
theorem step {p : Prog S I Sh Pc} {k' : Kernel S Sh Pc} {l : KLabel I} (hrest : k.Resting) (h : k.SlotOk)
    (hreturns : ReturnsInRun k l) (hs : KStep p k l k') : k'.SlotOk := by
  cases hs with
  | timer hrun => exact h.yield (h.empty hrest hrun)
  | @dispatch n q hsleep hfind =>
    have hput : SlotOk { k with readyListP := q } := ⟨h.slot, h.kept⟩
    refine hput.run fun hne => hreturns hne n ?_
    rw [hfind]
    rfl
  | @intrV i x sh' hh =>
    have hput : SlotOk { k with m := { k.m.semV x with sh := sh' } } := ⟨h.slot, h.kept⟩
    exact hput.wake _
  | intr hh => exact ⟨h.slot, h.kept⟩
  | @run pc m' _ hrun hpc hexec hafter =>
    have hslot := h.empty hrest hrun
    generalize p.code k.currentThread pc = i at hexec hafter
    cases Kernel.ran_of_after hexec hafter with
    | sleep _ => exact ⟨fun t ht => h.slot t ht, fun t ht => h.kept t ht⟩
    | pass _ => exact h.move hslot fun _ ht => Resting.goto_finished (s := k.m.semP k.currentThread _) ht
    | @V x upd next => exact (h.move hslot fun _ ht => Resting.goto_finished (s := k.m.semV x) ht).wake _
    | tau _ | keep _ => exact h.move hslot fun _ ht => Resting.goto_finished ht
    | @donate f _ _ _ _ _ =>
      have hput : SlotOk { k with m := k.m.goto k.currentThread (f k.m.prio k.m.sh).sh (f k.m.prio k.m.sh).next } :=
        h.move hslot fun _ ht => Resting.goto_finished ht
      exact ⟨hput.slot, hput.kept⟩
    | @fork f a _ hfresh _ =>
      have hput : SlotOk { k with m := k.m.forked k.currentThread a } :=
        h.move hslot fun _ ht => Resting.forked_finished ht
      exact ⟨hput.slot, hput.kept⟩
    | @yield next => exact (h.move hslot fun _ ht => Resting.goto_finished ht).yield hslot
    | finish =>
      constructor
      · intro t ht
        obtain rfl := Option.some.inj ht
        exact ⟨rfl, Function.update_self _ _ _⟩
      · intro t ht
        by_cases hcur : t = k.currentThread
        · exact Or.inr (congrArg some hcur.symm)
        · left
          replace ht : Function.update k.m.ctl k.currentThread .finished t = .finished := ht
          rw [Function.update_of_ne hcur] at ht
          -- the slot was empty, so whoever had finished before is deleted
          rcases h.kept t ht with hdel | hold
          · exact hdel
          · rw [hslot] at hold
            cases hold

theorem boot {p : Prog S I Sh Pc} (hi : KInit p k) : k.SlotOk := by
  constructor
  · intro t ht
    rw [hi.threadToBeDestroyed] at ht
    cases ht
  · intro t ht
    by_cases hcur : t = k.currentThread
    · obtain ⟨pc, hpc⟩ := hi.main
      rw [hcur, hpc] at ht
      cases ht
    · rw [hi.fresh t hcur] at ht
      cases ht

end SlotOk

/-- **Run lemma.** -/
theorem slotOk_of_reach {p : Prog S I Sh Pc} (hp : p.DonatesUp) {k : Kernel S Sh Pc}
    (h : ((kernel p).restrict ReturnsInRun).Reach k) : k.SlotOk := by
  refine h.invariant (I := SlotOk) (fun k hi => SlotOk.boot hi) fun k l k' hr hk hs => ?_
  exact hk.step (resting_of_reach hp hr.of_restrict) hs.1 (kstep_of_kstepFn hs.2)

end Kernel

/-- **No finished thread is dropped**, in a run where after every `Finish` the processor goes to a thread that has run
    before: whenever the running thread is about to call `Finish`, `threadToBeDestroyed` is NULL, and every thread
    that finished earlier has been deleted.  And in ANY run a thread that is deleted has finished, is not the thread
    that goes on, and is on no ready list and on no semaphore's queue. -/
theorem finish_slot_free {p : Prog S I Sh Pc} (hp : p.DonatesUp) :
    (∀ k, ((kernel p).restrict Kernel.ReturnsInRun).Reach k → k.status k.currentThread = .running →
      ∀ pc upd, k.m.ctl k.currentThread = .atPc pc → p.code k.currentThread pc = .finish upd →
        k.threadToBeDestroyed = none ∧ ∀ t, k.m.ctl t = .finished → t ∈ k.deleted) ∧
    (∀ k l k', (kernel p).Reach k → (kernel p).step k l k' → ∀ t, t ∈ k'.deleted → t ∉ k.deleted →
      k'.m.ctl t = .finished ∧ t ≠ k'.currentThread ∧ (∀ i, t ∉ k'.readyListP i) ∧
        ∀ x, t ∉ (k'.m.sem x).queue) := by
  constructor
  · intro k h hrun pc upd hpc hcode
    have hk := Kernel.slotOk_of_reach hp h
    have hslot := hk.empty (Kernel.resting_of_reach hp h.of_restrict) hrun
    refine ⟨hslot, fun t ht => ?_⟩
    rcases hk.kept t ht with hdel | hold
    · exact hdel
    · rw [hslot] at hold
      cases hold
  · intro k l k' h hs t ht hnew
    have h' := h.step hs
    have hfin := finished_of_doomed h' t (Or.inl ht)
    refine ⟨hfin, ?_, Kernel.notMem_of_finished hp h' hfin⟩
    rintro rfl
    have hrun := Kernel.running_of_deleted (kstep_of_kstepFn hs) ht hnew
    rw [Kernel.resting_of_reach hp h' _ hfin] at hrun
    cases hrun

/-- The step of a run in which the thread after a `Finish` has run before. -/
def returnStep (p : Prog S I Sh Pc) (k : Kernel S Sh Pc) (l : KLabel I) : Option (Kernel S Sh Pc) :=
  if Kernel.ReturnsInRun k l then kstepFn p k l else none

theorem returnStep_step {p : Prog S I Sh Pc} (k : Kernel S Sh Pc) (l : KLabel I) (k' : Kernel S Sh Pc)
    (h : returnStep p k l = some k') : ((kernel p).restrict Kernel.ReturnsInRun).step k l k' := by
  unfold returnStep at h
  split at h
  · rename_i hreturns
    exact ⟨hreturns, h⟩
  · cases h

/-- `main` forks thread 1 and yields to it; thread 1 sleeps in `P`, the handler wakes it, and `main` finishes.  Thread 1
    comes back in `Run` and completes its `P`. -/
def backToRun : List (KLabel Unit) :=
  [.run, .run, .run, .dispatch, .intr (), .run, .dispatch, .run]

/-- Thread 1 has deleted `main`, and finds the slot empty when it is about to finish itself. -/
theorem finish_slot_free_fork :
    let k := Lts.replay (returnStep forkProg) forkInit backToRun
    k.currentThread = 1 ∧ k.threadToBeDestroyed = none ∧ 0 ∈ k.deleted := by
  have hrestricted : ((kernel forkProg).restrict Kernel.ReturnsInRun).Reach forkInit :=
    .init ⟨⟨fun _ => rfl, fun _ => rfl, rfl, rfl⟩, ⟨0, rfl⟩, fun _ ht => if_neg ht, rfl, rfl, rfl, rfl, rfl, rfl⟩
  have h := (finish_slot_free forkProg_noDonation.donatesUp).1 _
    (Lts.reach_replay returnStep_step hrestricted backToRun)
    rfl 2 id rfl rfl
  exact ⟨rfl, h.1, h.2 0 rfl⟩

/-- `main` forks two threads that finish at once, and yields. -/
def dropProg : Prog Unit Unit Unit Nat where
  initial _ := 0
  boot _ ctl prio := ctl = (fun t => if t = 0 then .atPc 0 else .fresh) ∧ prio = fun _ => 0
  code _ pc :=
    match pc with
    | 0 => .fork fun sh => some ⟨1, 3, 0, sh, 1⟩
    | 1 => .fork fun sh => some ⟨2, 3, 0, sh, 2⟩
    | 2 => .yield 3
    | _ => .finish id
  handler _ _ := none

/-- Thread 1 finishes and the processor goes to thread 2, which starts in `ThreadRoot`.  Thread 2 calls `Finish` while
    `threadToBeDestroyed` is thread 1; when `main` comes back it deletes thread 2 only, and thread 1 is lost. -/
theorem finish_drops :
    ∃ k, (kernel dropProg).Reach k ∧ k.currentThread = 2 ∧ k.status 2 = .running ∧ k.m.ctl 2 = .atPc 3 ∧
      dropProg.code 2 3 = .finish id ∧ k.threadToBeDestroyed = some 1 ∧
      ∃ k', kstepFn dropProg k .run = some k' ∧ k'.threadToBeDestroyed = some 2 ∧
        ∃ k'', kstepFn dropProg k' .dispatch = some k'' ∧ k''.m.ctl 1 = .finished ∧
          k''.deleted = [2] ∧ k''.threadToBeDestroyed = none := by
  have hinit : (kernel dropProg).Reach forkInit :=
    .init ⟨⟨fun _ => rfl, fun _ => rfl, rfl, rfl⟩, ⟨0, rfl⟩, fun _ ht => if_neg ht, rfl, rfl, rfl, rfl, rfl, rfl⟩
  exact ⟨_, Lts.reach_replay kernel_step hinit [.run, .run, .run, .run, .dispatch], rfl, rfl, rfl, rfl, rfl,
    _, rfl, rfl, _, rfl, rfl, rfl, rfl⟩

end Nachos
