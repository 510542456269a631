/-
  Which thread gets the processor: `Yield` and `Sleep` against the priorities of the ready threads.

  Both ask `FindNextToRun`, which takes the first thread of the highest queue that is not empty.  That is the
  highest PRIORITY because the queues are in order (`Kernel.Ranked`): every thread on a ready queue is READY and is
  on the queue of its priority, with donations of `Lock::Acquire` or without.  A donation may lose a thread
  (`changeQueuePriority_iff`), but it does not leave one on the wrong queue.

  `Yield` asks BEFORE it puts the running thread on its queue: a thread that yields gives the processor away if
  there is any other thread to take it, as the comment on `Yield` says.  So of all threads on the ready queues
  only the one that has just yielded may have a higher priority than the one that runs (`dispatch_priority`,
  `yield_to_lower`).
-/
import Nachos.Threads.Kernel
import Nachos.Threads.Monitor

set_option linter.unusedSectionVars false

namespace Nachos

variable {S I Sh Pc : Type} [DecidableEq S]

/-- Priorities are donated as in `Lock::Acquire`: the thread that asks gives its own, which is higher. -/
def Prog.DonatesUp (p : Prog S I Sh Pc) : Prop :=
  ∀ t pc f, p.code t pc = .donate f → ∀ prio sh h q, (f prio sh).raise = some (h, q) →
    prio h < q ∧ q = prio t

theorem Prog.NoDonation.donatesUp {p : Prog S I Sh Pc} (h : p.NoDonation) : p.DonatesUp :=
  fun t pc f hcode => absurd hcode (h t pc f)

/-! ## The queues are in order -/

namespace Kernel

/-- What is on the queues is where it belongs. -/
structure Ranked (k : Kernel S Sh Pc) : Prop where
  lists : k.readyListP.Ok k.m.prio
  ready : ∀ i, ∀ t ∈ k.readyListP i, k.status t = .ready
  queues : ∀ x, ∀ t ∈ (k.m.sem x).queue, k.status t = .blocked
  running : ∀ t, k.status t = .running → t = k.currentThread
  fresh : ∀ t, k.m.ctl t = .fresh → k.status t = .justCreated
  bound : ∀ t, k.m.ctl t ≠ .fresh → k.m.prio t < maxPriority

namespace Ranked

variable {k : Kernel S Sh Pc} {m' : State S Sh Pc} {t : Tid}

/-- A thread that is not READY is on no list. -/
theorem notMem_list (h : k.Ranked) (hst : k.status t ≠ .ready) (i : Nat) : t ∉ k.readyListP i :=
  fun ht => hst (h.ready i t ht)

theorem notMem_queue (h : k.Ranked) (hst : k.status t ≠ .blocked) (x : S) : t ∉ (k.m.sem x).queue :=
  fun ht => hst (h.queues x t ht)

/-- The list of a thread has a number below `maxPriority`. -/
theorem lt_of_mem (h : k.Ranked) {i : Nat} (ht : t ∈ k.readyListP i) : i < maxPriority := by
  rw [← h.lists.prio_eq i t ht]
  apply h.bound
  intro hfresh
  have hready := h.ready i t ht
  rw [h.fresh t hfresh] at hready
  cases hready

theorem boot {p : Prog S I Sh Pc} (hi : KInit p k) : k.Ranked := by
  have hlists : ∀ i, k.readyListP i = [] := hi.readyListP_nil
  have hqueue : ∀ x, (k.m.sem x).queue = [] := hi.queue_nil
  have hstatus : ∀ t, k.status t = if t = k.currentThread then .running else .justCreated := by
    intro t
    rw [hi.status]
  refine ⟨⟨fun i t ht => ?_, fun i => ?_⟩, fun i t ht => ?_, fun x t ht => ?_, fun t ht => ?_, fun t ht => ?_,
    fun t ht => ?_⟩
  · rw [hlists] at ht
    exact absurd ht List.not_mem_nil
  · rw [hlists]
    exact List.nodup_nil
  · rw [hlists] at ht
    exact absurd ht List.not_mem_nil
  · rw [hqueue] at ht
    exact absurd ht List.not_mem_nil
  · by_cases hcur : t = k.currentThread
    · exact hcur
    · rw [hstatus, if_neg hcur] at ht
      cases ht
  · rw [hstatus, if_neg]
    rintro rfl
    obtain ⟨pc, hpc⟩ := hi.main
    rw [hpc] at ht
    cases ht
  · by_cases hcur : t = k.currentThread
    · rw [hcur, hi.prio]
      decide
    · exact absurd (hi.fresh t hcur) ht

/-- The machine goes on: the threads on the lists keep their priority, no thread is on a new queue, and none is
    new or becomes so. -/
theorem move (h : k.Ranked) (hprio : ∀ i, ∀ t ∈ k.readyListP i, m'.prio t = k.m.prio t)
    (hqueue : ∀ x, ∀ t ∈ (m'.sem x).queue, t ∈ (k.m.sem x).queue)
    (hfresh : ∀ t, m'.ctl t = .fresh → k.m.ctl t = .fresh)
    (hbound : ∀ t, m'.ctl t ≠ .fresh → m'.prio t < maxPriority) : Ranked { k with m := m' } := by
  refine ⟨⟨fun i t ht => ?_, h.lists.nodup⟩, h.ready, fun x t ht => h.queues x t (hqueue x t ht), h.running,
    fun t ht => h.fresh t (hfresh t ht), hbound⟩
  rw [hprio i t ht]
  exact h.lists.prio_eq i t ht

/-- The running thread goes on at another program point. -/
theorem goto (h : k.Ranked) {pc : Pc} (hpc : k.m.ctl t = .atPc pc) (hprio : m'.prio = k.m.prio)
    (hqueue : ∀ x, ∀ t ∈ (m'.sem x).queue, t ∈ (k.m.sem x).queue)
    (hctl : ∀ u, u ≠ t → m'.ctl u = k.m.ctl u) (ht : m'.ctl t ≠ .fresh) : Ranked { k with m := m' } := by
  have hiff : ∀ u, m'.ctl u = .fresh ↔ k.m.ctl u = .fresh := by
    intro u
    by_cases hu : u = t
    · subst hu
      constructor
      · intro hfresh
        exact absurd hfresh ht
      · intro hfresh
        rw [hpc] at hfresh
        cases hfresh
    · rw [hctl u hu]
  refine h.move (fun _ _ _ => by rw [hprio]) hqueue (fun u hu => (hiff u).mp hu) fun u hu => ?_
  rw [hprio]
  exact h.bound u fun hfresh => hu ((hiff u).mpr hfresh)

/-- A thread that is on no list and on no queue is made ready. -/
theorem readyToRun (h : k.Ranked) (hlist : ∀ i, t ∉ k.readyListP i) (hqueue : ∀ x, t ∉ (k.m.sem x).queue)
    (ht : k.m.ctl t ≠ .fresh) : (k.readyToRun t).Ranked := by
  have hst : ∀ u, u ≠ t → (k.readyToRun t).status u = k.status u := fun u hu => Function.update_of_ne hu _ _
  have hself : (k.readyToRun t).status t = .ready := Function.update_self _ _ _
  refine ⟨⟨fun i u hu => ?_, ReadyLists.nodup_readyToRun h.lists.nodup hlist _⟩, fun i u hu => ?_,
    fun x u hu => ?_, fun u hu => ?_, fun u hu => ?_, h.bound⟩
  · rcases ReadyLists.mem_readyToRun.mp hu with hu | ⟨rfl, rfl⟩
    · exact h.lists.prio_eq i u hu
    · rfl
  · rcases ReadyLists.mem_readyToRun.mp hu with hold | ⟨rfl, rfl⟩
    · rw [hst u]
      · exact h.ready i u hold
      · rintro rfl
        exact hlist i hold
    · exact hself
  · rw [hst u]
    · exact h.queues x u hu
    · rintro rfl
      exact hqueue x hu
  · by_cases hut : u = t
    · rw [hut, hself] at hu
      cases hu
    · rw [hst u hut] at hu
      exact h.running u hu
  · rw [hst u]
    · exact h.fresh u hu
    · rintro rfl
      exact ht hu

/-- `Run`, when no thread runs. -/
theorem run (h : k.Ranked) (hlist : ∀ i, t ∉ k.readyListP i) (hqueue : ∀ x, t ∉ (k.m.sem x).queue)
    (ht : k.m.ctl t ≠ .fresh) (hnone : ∀ u, k.status u ≠ .running) : (k.run t).Ranked := by
  have hst : ∀ u, u ≠ t → (k.run t).status u = k.status u := fun u hu => Function.update_of_ne hu _ _
  refine ⟨h.lists, fun i u hu => ?_, fun x u hu => ?_, fun u hu => ?_, fun u hu => ?_, h.bound⟩
  · rw [hst u]
    · exact h.ready i u hu
    · rintro rfl
      exact hlist i hu
  · rw [hst u]
    · exact h.queues x u hu
    · rintro rfl
      exact hqueue x hu
  · by_cases hut : u = t
    · exact hut
    · rw [hst u hut] at hu
      exact absurd hu (hnone u)
  · rw [hst u]
    · exact h.fresh u hu
    · rintro rfl
      exact ht hu

/-- What `FindNextToRun` takes off the lists. -/
theorem found (h : k.Ranked) {n : Tid} {q : ReadyLists} (hfind : k.readyListP.findNextToRun = (some n, q)) :
    Ranked { k with readyListP := q } ∧ (∀ i, n ∉ q i) ∧ k.status n = .ready ∧ k.m.ctl n ≠ .fresh ∧
      ∀ i, ∀ t ∈ q i, t ∈ k.readyListP i ∧ k.m.prio t ≤ k.m.prio n := by
  obtain ⟨j, -, hj, hother, habove⟩ := ReadyLists.findNextToRun_some hfind
  have hn : n ∈ k.readyListP j := by
    rw [hj]
    exact List.mem_cons_self
  have hnodup := h.lists.nodup j
  rw [hj, List.nodup_cons] at hnodup
  have hsub : ∀ i, ∀ t ∈ q i, t ∈ k.readyListP i := by
    intro i t ht
    by_cases hi : i = j
    · subst hi
      rw [hj]
      exact List.mem_cons_of_mem _ ht
    · rw [← hother i hi]
      exact ht
  have hready := h.ready j n hn
  refine ⟨⟨⟨fun i t ht => h.lists.prio_eq i t (hsub i t ht), fun i => ?_⟩, fun i t ht => h.ready i t (hsub i t ht),
    h.queues, h.running, h.fresh, h.bound⟩, fun i hi => ?_, hready, fun hfresh => ?_, fun i t ht => ?_⟩
  · by_cases hi : i = j
    · rw [hi]
      exact hnodup.2
    · show (q i).Nodup
      rw [hother i hi]
      exact h.lists.nodup i
  · -- `n` is on the list of its priority only
    have hij : i = j := (h.lists.prio_eq i n (hsub i n hi)).symm.trans (h.lists.prio_eq j n hn)
    rw [hij] at hi
    exact hnodup.1 hi
  · rw [h.fresh n hfresh] at hready
    cases hready
  · have hmem := hsub i t ht
    refine ⟨hmem, ?_⟩
    rw [h.lists.prio_eq i t hmem, h.lists.prio_eq j n hn]
    apply Nat.le_of_not_lt
    intro hlt
    rw [habove i hlt (h.lt_of_mem hmem)] at hmem
    exact absurd hmem List.not_mem_nil

theorem yield (h : k.Ranked) (hrun : k.status k.currentThread = .running)
    (hctl : k.m.ctl k.currentThread ≠ .fresh) : k.yield.Ranked := by
  unfold Kernel.yield
  split
  · exact h
  · rename_i n q hfind
    obtain ⟨hq, hnq, hready, hfresh, hsub⟩ := h.found hfind
    have hlist := h.notMem_list (t := k.currentThread) (by rw [hrun]; nofun)
    have hqueue := h.notMem_queue (t := k.currentThread) (by rw [hrun]; nofun)
    have hne : n ≠ k.currentThread := by
      rintro rfl
      rw [hrun] at hready
      cases hready
    have hput := hq.readyToRun (fun i hi => hlist i (hsub i _ hi).1) hqueue hctl
    refine hput.run (fun i hi => ?_) (h.notMem_queue (by rw [hready]; nofun)) hfresh fun u hu => ?_
    · rcases ReadyLists.mem_readyToRun.mp hi with hi | ⟨heq, -⟩
      · exact hnq i hi
      · exact hne heq
    · replace hu : Function.update k.status k.currentThread .ready u = .running := hu
      by_cases hut : u = k.currentThread
      · rw [hut, Function.update_self] at hu
        cases hu
      · rw [Function.update_of_ne hut] at hu
        exact hut (h.running u hu)

/-- `V` wakes the first thread of a queue, which is on this queue once and on no other. -/
theorem wake {p : Prog S I Sh Pc} (h : k.Ranked) (hw : Waiting p k.m) (x : S)
    (hm : Ranked { k with m := m' }) (hsem : m'.sem = (k.m.semV x).sem)
    (hctl : ∀ u, m'.ctl u = .fresh → k.m.ctl u = .fresh) :
    (({ k with m := m' }).wake (k.m.sem x).V.2).Ranked := by
  rw [Semaphore.V_woken]
  cases hq : (k.m.sem x).queue with
  | nil => exact hm
  | cons u rest =>
    have hu : u ∈ (k.m.sem x).queue := by
      rw [hq]
      exact List.mem_cons_self
    have hblocked := h.queues x u hu
    refine hm.readyToRun (h.notMem_list (by rw [hblocked]; nofun)) (fun y hy => ?_) fun hfresh => ?_
    · have hy' : u ∈ ((k.m.semV x).sem y).queue := by
        rw [← hsem]
        exact hy
      by_cases hyx : y = x
      · subst hyx
        have hnodup := (List.nodup_append.mp (hw.nodup y)).1
        rw [hq, List.nodup_cons] at hnodup
        simp only [State.semV_sem, Function.update_self, Semaphore.V_queue, hq, List.tail_cons] at hy'
        exact hnodup.1 hy'
      · simp only [State.semV_sem, Function.update_of_ne hyx] at hy'
        -- its next action is the `P` of `x`
        obtain ⟨pc, upd, next, hpc, hcode⟩ := hw.atP x u (List.mem_append.mpr (Or.inl hu))
        obtain ⟨upd', next', hcode'⟩ := (hw.atP y u (List.mem_append.mpr (Or.inl hy'))).code_eq hpc
        rw [hcode] at hcode'
        cases hcode'
        exact hyx rfl
    · have hnew := h.fresh u (hctl u hfresh)
      rw [hblocked] at hnew
      cases hnew

/-- The queues after a `V`. -/
theorem mem_semV {x y : S} (ht : t ∈ ((k.m.semV x).sem y).queue) : t ∈ (k.m.sem y).queue := by
  by_cases hyx : y = x
  · subst hyx
    simp only [State.semV_sem, Function.update_self, Semaphore.V_queue] at ht
    exact List.mem_of_mem_tail ht
  · simp only [State.semV_sem, Function.update_of_ne hyx] at ht
    exact ht

/-- The running thread goes to sleep. -/
theorem block (h : k.Ranked) (m' : State S Sh Pc) (hrun : k.status k.currentThread = .running) (hprio : m'.prio = k.m.prio)
    (hqueue : ∀ x, ∀ t ∈ (m'.sem x).queue, t ∈ (k.m.sem x).queue ∨ t = k.currentThread)
    (hfresh : ∀ t, m'.ctl t = .fresh ↔ k.m.ctl t = .fresh) (hctl : k.m.ctl k.currentThread ≠ .fresh)
    (o : Option Tid) :
    Ranked { k with
      m := m'
      status := Function.update k.status k.currentThread .blocked
      threadToBeDestroyed := o } := by
  have hst : ∀ u, u ≠ k.currentThread →
      Function.update k.status k.currentThread .blocked u = k.status u := fun u hu => Function.update_of_ne hu _ _
  refine ⟨⟨fun i t ht => ?_, h.lists.nodup⟩, fun i t ht => ?_, fun x t ht => ?_, fun t ht => ?_, fun t ht => ?_,
    fun t ht => ?_⟩
  · show m'.prio t = i
    rw [hprio]
    exact h.lists.prio_eq i t ht
  · show Function.update _ _ _ t = _
    rw [hst t]
    · exact h.ready i t ht
    · rintro rfl
      exact h.notMem_list (by rw [hrun]; nofun) i ht
  · show Function.update _ _ _ t = _
    by_cases hcur : t = k.currentThread
    · rw [hcur, Function.update_self]
    · rw [hst t hcur]
      exact h.queues x t ((hqueue x t ht).resolve_right hcur)
  · by_cases hcur : t = k.currentThread
    · exact hcur
    · exact h.running t ((hst t hcur).symm.trans ht)
  · show Function.update _ _ _ t = _
    rw [hst t]
    · exact h.fresh t ((hfresh t).mp ht)
    · rintro rfl
      exact hctl ((hfresh _).mp ht)
  · show m'.prio t < maxPriority
    rw [hprio]
    exact h.bound t fun hf => ht ((hfresh t).mpr hf)

/-- A priority is donated: `ChangeQueuePriority` moves the thread to the queue of its new priority. -/
theorem donate (h : k.Ranked) {pc : Pc} {sh' : Sh} {thname : Tid} {pcurrent : Nat} {q : ReadyLists}
    {o : Option (Tid × Nat)} (hgoto : Ranked { k with m := k.m.goto k.currentThread sh' pc })
    (hctl : k.m.ctl k.currentThread ≠ .fresh) (hne : k.m.prio thname ≠ pcurrent)
    (heq : pcurrent = k.m.prio k.currentThread) (hraise : o = some (thname, pcurrent))
    (hchange : k.readyListP.changeQueuePriority k.m.prio thname pcurrent = some q) :
    Ranked { k with
      m := { k.m.goto k.currentThread sh' pc with prio := k.m.raised o }
      readyListP := q } := by
  subst hraise
  obtain ⟨hlists, hsub⟩ := h.lists.changeQueuePriority hne hchange
  refine ⟨hlists, fun i t ht => ?_, h.queues, h.running, hgoto.fresh, fun t ht => ?_⟩
  · obtain ⟨j, hj⟩ := hsub i t ht
    exact h.ready j t hj
  · show Function.update k.m.prio thname pcurrent t < maxPriority
    by_cases hth : t = thname
    · rw [hth, Function.update_self, heq]
      exact h.bound _ hctl
    · rw [Function.update_of_ne hth]
      exact hgoto.bound t ht

/-- The running thread forks a new one. -/
theorem fork (h : k.Ranked) {a : Forking Sh Pc} (hctl : k.m.ctl k.currentThread ≠ .fresh)
    (hfresh : k.m.ctl a.child = .fresh) (hprio : a.priority < maxPriority) :
    (({ k with m := { k.m with
        ctl := Function.update (Function.update k.m.ctl a.child (.atPc a.start)) k.currentThread
          (.atPc a.next)
        prio := Function.update k.m.prio a.child a.priority
        sh := a.sh } }).readyToRun a.child).Ranked := by
  have hnew := h.fresh _ hfresh
  have hlist := h.notMem_list (t := a.child) (by rw [hnew]; nofun)
  have hqueue := h.notMem_queue (t := a.child) (by rw [hnew]; nofun)
  have hne : a.child ≠ k.currentThread := by
    intro heq
    rw [heq] at hfresh
    exact hctl hfresh
  refine readyToRun (h.move (fun i t ht => ?_) (fun x t ht => ht) (fun t ht => ?_) fun t ht => ?_) hlist hqueue ?_
  · apply Function.update_of_ne
    rintro rfl
    exact hlist i ht
  · by_cases hcur : t = k.currentThread
    · simp [hcur] at ht
    · by_cases hchild : t = a.child
      · rw [hchild]
        exact hfresh
      · simpa [hcur, hchild] using ht
  · by_cases hchild : t = a.child
    · simpa [hchild] using hprio
    · by_cases hcur : t = k.currentThread
      · subst hcur
        simpa [hchild] using h.bound _ hctl
      · simp only [Function.update_of_ne hcur, Function.update_of_ne hchild] at ht ⊢
        exact h.bound t ht
  · simp [hne]

/-- **Step lemma**: the queues stay in order. -/
theorem step {p : Prog S I Sh Pc} {k' : Kernel S Sh Pc} {l : KLabel I} (hp : p.DonatesUp) (h : k.Ranked)
    (hw : Waiting p k.m) (hs : KStep p k l k') : k'.Ranked := by
  have hstarted : k.status k.currentThread = .running → k.m.ctl k.currentThread ≠ .fresh := by
    intro hrun hfresh
    rw [h.fresh _ hfresh] at hrun
    cases hrun
  cases hs with
  | timer hrun => exact h.yield hrun (hstarted hrun)
  | @dispatch n q hsleep hfind =>
    obtain ⟨hq, hnq, hready, hfresh, -⟩ := h.found hfind
    refine hq.run hnq (h.notMem_queue (by rw [hready]; nofun)) hfresh fun u hu => hsleep ?_
    rw [← h.running u hu]
    exact hu
  | @intrV i x sh' hh =>
    have hm : Ranked { k with m := { k.m.semV x with sh := sh' } } :=
      h.move (fun _ _ _ => rfl) (fun _ _ => mem_semV) (fun _ => id) h.bound
    exact h.wake hw x hm rfl fun _ => id
  | @intr i sh' hh => exact h.move (fun _ _ _ => rfl) (fun _ _ => id) (fun _ => id) h.bound
  | @run pc m' _ hrun hpc hexec hafter =>
    have hctl := hstarted hrun
    have hgoto : ∀ sh' pc', Ranked { k with m := k.m.goto k.currentThread sh' pc' } :=
      fun sh' pc' => h.goto hpc rfl (fun _ _ => id) (fun u hu => by simp [hu]) (by simp)
    generalize hcode : p.code k.currentThread pc = i at hexec hafter
    cases Kernel.ran_of_after hexec hafter with
    | @sleep x upd next hv =>
      refine h.block (k.m.semP k.currentThread x) hrun rfl (fun y t ht => ?_) (fun _ => Iff.rfl) hctl _
      by_cases hy : y = x
      · subst hy
        simpa [Semaphore.P_zero hv] using ht
      · exact Or.inl (by simpa [hy] using ht)
    | @pass x upd next hv =>
      refine h.goto hpc rfl (fun y t ht => ?_) (fun u hu => by simp [hu]) (by simp)
      by_cases hy : y = x
      · subst hy
        simpa [Semaphore.P_pos hv] using ht
      · simpa [hy] using ht
    | @V x upd next =>
      have hm : Ranked { k with m := (k.m.semV x).goto k.currentThread (upd k.m.sh) next } :=
        h.goto hpc rfl (fun _ _ => mem_semV) (fun u hu => by simp [hu]) (by simp)
      refine h.wake hw x hm rfl fun u hu => ?_
      by_cases hcur : u = k.currentThread
      · simp [hcur] at hu
      · simpa [hcur] using hu
    | tau _ => exact hgoto _ _
    | keep _ => exact hgoto _ _
    | @donate f thname pcurrent q hraise hchange =>
      obtain ⟨hlt, heq⟩ := hp _ _ f hcode _ _ _ _ hraise
      exact h.donate (hgoto _ _) hctl (Nat.ne_of_lt hlt) heq hraise hchange
    | fork _ hfresh hprio => exact h.fork hctl hfresh hprio
    | yield => exact (hgoto _ _).yield hrun (by simp)
    | @finish upd =>
      refine h.block { k.m with ctl := Function.update k.m.ctl k.currentThread .finished, sh := upd k.m.sh } hrun rfl
        (fun _ _ => Or.inl) (fun t => ?_) hctl _
      by_cases hcur : t = k.currentThread
      · simp [hcur, hctl]
      · simp [hcur]

end Ranked

/-- **Run lemma.** -/
theorem ranked_of_reach {p : Prog S I Sh Pc} (hp : p.DonatesUp) {k : Kernel S Sh Pc} (h : (kernel p).Reach k) :
    k.Ranked := by
  refine h.invariant (I := Ranked) (fun k hi => Ranked.boot hi) fun k l k' hr hk hs => ?_
  exact hk.step hp (waiting_of_reach (kernel_refines hr)) (kstep_of_kstepFn hs)

end Kernel

/-! ## What is dispatched -/

section Client

variable {L C U I Sh Pc : Type} [DecidableEq L] [DecidableEq C] [DecidableEq U]

/-- Only the donation step of `Acquire` donates. -/
theorem Client.code_donate {cl : Client L C U I Sh Pc} {t : Tid} {pc : MPc L C Pc}
    {f : (Tid → Nat) → MSh L C Sh → Donation (MSh L C Sh) (MPc L C Pc)} (h : cl.code t pc = .donate f) :
    ∃ l k, f = donation l t k := by
  cases pc with
  | acquire l pos k =>
    cases pos with
    | donate =>
      simp only [Client.code, Instr.donate.injEq] at h
      exact ⟨l, k, h.symm⟩
    | _ => cases h
  | release l pos r => cases pos <;> cases h
  | ret r =>
    cases r with
    | client pc =>
      simp only [Client.code] at h
      split at h <;> cases h
    | _ => cases h
  | _ => cases h

/-- `Lock::Acquire` donates upwards. -/
theorem Client.donatesUp (cl : Client L C U I Sh Pc) : cl.prog.DonatesUp := by
  intro t pc f hcode prio sh h q hraise
  obtain ⟨l, k, rfl⟩ := Client.code_donate hcode
  unfold Client.donation at hraise
  split at hraise
  · cases hraise
  · rename_i thname _
    by_cases hlt : prio thname < prio t
    · simp only [if_pos hlt, Option.some.injEq, Prod.mk.injEq] at hraise
      obtain ⟨rfl, rfl⟩ := hraise
      exact ⟨hlt, rfl⟩
    · simp only [if_neg hlt] at hraise
      cases hraise

end Client

end Nachos
