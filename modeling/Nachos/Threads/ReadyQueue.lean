/-
  `threads/scheduler.cc` and `threads/list.h` together: the scheduler is a stable priority queue.

  The three ready lists are linked lists, as the code has them.  Two steps lead from there to what the
  scheduler is for:

  1. **Linked lists are lists** (`Scheduler.Lists`) — `ReadyToRun` and `FindNextToRun` on linked lists do what
     the same operations of `Nachos.Threads.Scheduler` do on sequences of threads.

  2. **Sequences are levels** (`Levels`) — the sequence of each priority is a level of ONE queue of all ready
     threads in the order in which they were made ready, and `FindNextToRun` takes from that queue the first
     thread of the highest priority.

  The downward scan of `FindNextToRun` stops at priority 0 without a test of that list; if it is empty too,
  `Remove` returns NULL.
-/
import Nachos.Lib.StableQueue
import Nachos.Threads.List
import Nachos.Threads.Scheduler

namespace Nachos

/-! ## The code -/

/-- `class Scheduler`. -/
structure Scheduler where
  readyListP : Nat → LinkedList Tid

namespace Scheduler

/-- `Scheduler::Scheduler()`. -/
def new : Scheduler := ⟨fun _ => .new⟩

/-- `Scheduler::ReadyToRun(thread)`; `pi` is `thread->getPriority()`.  There are `maxPriority` lists. -/
def readyToRun (s : Scheduler) (thread : Tid) (pi : Nat) : Option Scheduler :=
  if pi < maxPriority then
    ((s.readyListP pi).append thread).map fun l => ⟨Function.update s.readyListP pi l⟩
  else none

/-- `while (p > 0 && readyListP[p]->IsEmpty()) p--`. -/
def topPriority (s : Scheduler) : Nat → Nat
  | 0 => 0
  | p + 1 => if (s.readyListP (p + 1)).isEmpty then topPriority s p else p + 1

/-- `Scheduler::FindNextToRun()`; the inner `none` is NULL. -/
def findNextToRun (s : Scheduler) : Option (Option Tid × Scheduler) :=
  let p := s.topPriority (maxPriority - 1)
  (s.readyListP p).remove.map fun r => (r.1, ⟨Function.update s.readyListP p r.2⟩)

/-- One operation; what `FindNextToRun` returns. -/
def step (s : Scheduler) : QueueOp Tid → Option (Option Tid × Scheduler)
  | .add thread pi => (s.readyToRun thread pi).map fun s => (none, s)
  | .take => s.findNextToRun

/-- A sequence of operations, and what each of them returns. -/
def runs (s : Scheduler) : List (QueueOp Tid) → Option (List (Option Tid) × Scheduler)
  | [] => some ([], s)
  | op :: ops => (s.step op).bind fun r => (runs r.2 ops).map fun rs => (r.1 :: rs.1, rs.2)

/-! ## Linked lists are lists -/

/-- The linked lists have these threads in them; `Append` gives all of them the key 0. -/
def Lists (s : Scheduler) (q : ReadyLists) : Prop :=
  ∀ i < maxPriority, (s.readyListP i).Represents ((q i).map fun t => (0, t))

variable {s : Scheduler} {q : ReadyLists}

theorem Lists.new : Scheduler.new.Lists ReadyLists.empty := fun _ _ => .new

/-- One list changes. -/
theorem Lists.update (h : s.Lists q) {i : Nat} {l : LinkedList Tid} {ts : List Tid}
    (hl : l.Represents (ts.map fun t => (0, t))) :
    Scheduler.Lists ⟨Function.update s.readyListP i l⟩ (Function.update q i ts) := by
  intro j hj
  by_cases hji : j = i
  · subst hji
    show (Function.update s.readyListP j l j).Represents _
    rw [Function.update_self, Function.update_self]
    exact hl
  · show (Function.update s.readyListP i l j).Represents _
    rw [Function.update_of_ne hji, Function.update_of_ne hji]
    exact h j hj

theorem Lists.readyToRun (h : s.Lists q) (thread : Tid) {pi : Nat} (hpi : pi < maxPriority) :
    ∃ s', s.readyToRun thread pi = some s' ∧ s'.Lists (q.readyToRun thread pi) := by
  obtain ⟨l, happend, hl⟩ := (h pi hpi).append thread
  refine ⟨⟨Function.update s.readyListP pi l⟩, ?_, h.update ?_⟩
  · rw [Scheduler.readyToRun, if_pos hpi, happend]
    rfl
  · rw [List.map_append]
    exact hl

theorem Lists.topPriority (h : s.Lists q) : ∀ n < maxPriority, s.topPriority n = q.topPriority n := by
  intro n hn
  induction n with
  | zero => rfl
  | succ n ih =>
    have hempty : (s.readyListP (n + 1)).isEmpty = (q (n + 1)).isEmpty := by
      rw [Bool.eq_iff_iff, (h (n + 1) hn).isEmpty_iff, List.map_eq_nil_iff, List.isEmpty_iff]
    rw [Scheduler.topPriority, ReadyLists.topPriority, hempty, ih (by omega)]

theorem Lists.findNextToRun (h : s.Lists q) :
    ∃ s', s.findNextToRun = some (q.findNextToRun.1, s') ∧ s'.Lists q.findNextToRun.2 := by
  have htop := h.topPriority (maxPriority - 1) (by decide)
  have hlt : q.topPriority (maxPriority - 1) < maxPriority := by
    have hle := q.topPriority_le (maxPriority - 1)
    rw [show maxPriority = 3 from rfl] at hle ⊢
    omega
  obtain ⟨l, hremove, hl⟩ := (h _ hlt).remove
  refine ⟨⟨Function.update s.readyListP (q.topPriority (maxPriority - 1)) l⟩, ?_, h.update ?_⟩
  · simp only [Scheduler.findNextToRun, htop, hremove, Option.map_some, ReadyLists.findNextToRun,
      List.head?_map, Option.map_map]
    refine congrArg (fun o => some (o, _)) ?_
    cases (q (q.topPriority (maxPriority - 1))).head? with
    | none => rfl
    | some t => rfl
  · rw [List.map_tail]
    exact hl

end Scheduler

/-! ## Sequences are levels -/

/-- The lists are the levels of a queue in which all priorities have a list. -/
structure Levels (q : ReadyLists) (m : List (Tid × Nat)) : Prop where
  lists : ∀ i < maxPriority, q i = level m i
  bound : ∀ y ∈ m, y.2 < maxPriority

namespace Levels

variable {q : ReadyLists} {m : List (Tid × Nat)}

theorem empty : Levels ReadyLists.empty [] := ⟨fun _ _ => rfl, fun _ hy => absurd hy List.not_mem_nil⟩

theorem readyToRun (h : Levels q m) (thread : Tid) {pi : Nat} (hpi : pi < maxPriority) :
    Levels (q.readyToRun thread pi) (m ++ [(thread, pi)]) := by
  refine ⟨fun i hi => ?_, fun y hy => ?_⟩
  · rw [level_append]
    by_cases hii : pi = i
    · subst hii
      rw [ReadyLists.readyToRun, Function.update_self, h.lists pi hi, level_cons_self]
      rfl
    · rw [ReadyLists.readyToRun, Function.update_of_ne (Ne.symm hii), h.lists i hi,
        level_cons_of_ne thread [] hii]
      exact (List.append_nil _).symm
  · rcases List.mem_append.mp hy with hy | hy
    · exact h.bound y hy
    · rw [List.mem_singleton.mp hy]
      exact hpi

/-- **`FindNextToRun` takes from the queue.** -/
theorem findNextToRun (h : Levels q m) :
    ∃ m', StableStep m .take q.findNextToRun.1 m' ∧ Levels q.findNextToRun.2 m' := by
  cases hfind : q.findNextToRun with
  | mk o q' =>
    cases o with
    | none =>
      -- all lists are empty, so nothing is in the queue
      have hnone := ReadyLists.findNextToRun_none hfind
      have hnil : m = [] := by
        apply List.eq_nil_iff_forall_not_mem.mpr
        intro y hy
        have hlevel := hnone y.2 (h.bound y hy)
        rw [h.lists y.2 (h.bound y hy)] at hlevel
        exact level_eq_nil.mp hlevel y hy rfl
      subst hnil
      refine ⟨[], .takeNone, fun i hi => ?_, h.bound⟩
      have hq' : q' = Function.update q (q.topPriority (maxPriority - 1))
          (q (q.topPriority (maxPriority - 1))).tail := (congrArg Prod.snd hfind).symm
      show q' i = []
      rw [hq']
      by_cases htop : i = q.topPriority (maxPriority - 1)
      · rw [← htop, Function.update_self, hnone i hi]
        rfl
      · rw [Function.update_of_ne htop, hnone i hi]
    | some t =>
      obtain ⟨i, hi, hhead, hothers, habove⟩ := ReadyLists.findNextToRun_some hfind
      rw [h.lists i hi] at hhead
      have hmax : ∀ y ∈ m, y.2 ≤ i := by
        intro y hy
        apply Nat.le_of_not_lt
        intro hlt
        have hlevel := habove y.2 hlt (h.bound y hy)
        rw [h.lists y.2 (h.bound y hy)] at hlevel
        exact level_eq_nil.mp hlevel y hy rfl
      obtain ⟨m', hstep, hlevel, hsame, hsub⟩ := stableStep_of_level hhead hmax
      refine ⟨m', hstep, fun j hj => ?_, fun y hy => h.bound y (hsub y hy)⟩
      by_cases hji : j = i
      · rw [hji, hlevel]
      · rw [hsame j hji, ← h.lists j hj]
        exact hothers j hji

end Levels

/-! ## The scheduler -/

namespace Scheduler

/-- The priority of a thread that is made ready has a list. -/
def InRange : QueueOp Tid → Prop
  | .add _ pi => pi < maxPriority
  | .take => True

/-- One operation of the scheduler is one of the queue. -/
theorem step_refines {s : Scheduler} {q : ReadyLists} {m : List (Tid × Nat)} (hs : s.Lists q)
    (hq : Levels q m) {op : QueueOp Tid} (hop : InRange op) :
    ∃ o s' q' m', s.step op = some (o, s') ∧ StableStep m op o m' ∧ s'.Lists q' ∧ Levels q' m' := by
  cases op with
  | add thread pi =>
    obtain ⟨s', hready, hs'⟩ := hs.readyToRun thread hop
    exact ⟨none, s', _, _, by rw [step, hready]; rfl, .add, hs', hq.readyToRun thread hop⟩
  | take =>
    obtain ⟨s', hfind, hs'⟩ := hs.findNextToRun
    obtain ⟨m', hstep, hq'⟩ := hq.findNextToRun
    exact ⟨_, s', _, m', hfind, hstep, hs', hq'⟩

/-- So are several. -/
theorem runs_refines : ∀ (ops : List (QueueOp Tid)) {s : Scheduler} {q : ReadyLists} {m : List (Tid × Nat)},
    s.Lists q → Levels q m → (∀ op ∈ ops, InRange op) →
    ∃ outs s' m', s.runs ops = some (outs, s') ∧ StableRun m ops outs m' ∧
      ∀ i < maxPriority, (s'.readyListP i).Represents ((level m' i).map fun t => (0, t)) := by
  intro ops s q m hs hq hops
  induction ops generalizing s q m with
  | nil =>
    refine ⟨[], s, m, rfl, .nil, fun i hi => ?_⟩
    rw [← hq.lists i hi]
    exact hs i hi
  | cons op ops ih =>
    obtain ⟨hop, hrest⟩ := List.forall_mem_cons.mp hops
    obtain ⟨o, s₁, q₁, m₁, hstep, hstable, hs₁, hq₁⟩ := step_refines hs hq hop
    obtain ⟨outs, s', m', hruns, hrun, hlists⟩ := ih hs₁ hq₁ hrest
    refine ⟨o :: outs, s', m', ?_, .cons hstable hrun, hlists⟩
    rw [runs, hstep, Option.bind_some, hruns]
    rfl

end Scheduler

/-- **The scheduler is a stable priority queue**: for every sequence of operations from the empty scheduler, all
    of them return, what they return is what the queue gives, and the lists are its levels then. -/
theorem scheduler_refines_queue (ops : List (QueueOp Tid)) (hops : ∀ op ∈ ops, Scheduler.InRange op) :
    ∃ outs s m, Scheduler.new.runs ops = some (outs, s) ∧ StableRun [] ops outs m ∧
      ∀ i < maxPriority, (s.readyListP i).Represents ((level m i).map fun t => (0, t)) :=
  Scheduler.runs_refines ops .new .empty hops

/-- Threads 1 and 2 of priority 0 and thread 3 of priority 2 are made ready, and four times one is taken. -/
theorem scheduler_refines_queue_three :
    ∃ outs s m, Scheduler.new.runs [.add 1 0, .add 2 0, .add 3 2, .take, .take, .take, .take] = some (outs, s) ∧
      StableRun [] [.add 1 0, .add 2 0, .add 3 2, .take, .take, .take, .take] outs m ∧
      ∀ i < maxPriority, (s.readyListP i).Represents ((level m i).map fun t => (0, t)) := by
  refine scheduler_refines_queue _ fun op hop => ?_
  simp only [List.mem_cons, List.not_mem_nil, or_false] at hop
  rcases hop with rfl | rfl | rfl | rfl | rfl | rfl | rfl
  · exact Nat.zero_lt_succ _
  · exact Nat.zero_lt_succ _
  · exact Nat.lt_succ_self _
  · trivial
  · trivial
  · trivial
  · trivial

end Nachos
