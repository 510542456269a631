/-
  `userprog/exception.cc`, `threads/thread.cc`, `threads/scheduler.cc` — what `Join` gives its caller.

  The child's `Exit`, the message of its `Finish`, its destruction by `Scheduler::Run` and the parent's
  lookup come in any order.  If the child has called `Exit` before the lookup, its entry is clear (or
  somebody else's) and there is nothing to join.  Else the parent waits for the message, and `Join`
  returns after the child's `Exit`; the result is 0, whatever the child's status was (`join_child`).
-/
import Nachos.Userprog.ProcessTable

set_option linter.unusedSectionVars false

namespace Nachos

variable {US : Type}

/-! ## What `Join` finds, and what it returns -/

/-- A process inside `Join` has found its child, or the child has called `Exit` before. -/
def JoinKnows (sh : ProcSh) (t : Tid) : Ctl (BoxPc Tid (ProcPc US)) → Prop
  | .atPc (.client (.joinReceive found pid _)) =>
    ∀ c, (pid, c) ∈ sh.unjoined t → c = found ∨ sh.exited c ≠ none
  | .atPc (.receive _ (.joinClear found pid _)) =>
    ∀ c, (pid, c) ∈ sh.unjoined t → c = found ∨ sh.exited c ≠ none
  | .atPc (.client (.joinClear found pid _)) =>
    ∀ c, (pid, c) ∈ sh.unjoined t → c = found ∨ sh.exited c ≠ none
  | _ => True

section Join

variable {P : UserProg US} {s s' : ProcState US} {sh sh' : ProcSh} {t u c : Tid} {pid : Nat}

/-- As long as a child has not called `Exit`, its entry is there for its parent. -/
theorem ProcGood.child_entry (hg : ProcGood sh) (h : DataOk sh) (hrec : (pid, c) ∈ sh.unjoined t)
    (hlive : sh.exited c = none) : sh.processIdTable pid = some c := by
  obtain ⟨hne, hlt, rfl, -⟩ := h.record t pid c hrec
  exact hg.entry c hne ⟨hlt, hlive⟩

theorem JoinKnows.frame {ctl : Ctl (BoxPc Tid (ProcPc US))} (hk : JoinKnows sh u ctl)
    (h : Moves t sh sh') (hu : u ≠ t) : JoinKnows sh' u ctl := by
  have hkeep : ∀ {found : Tid} {pid : Nat},
      (∀ c, (pid, c) ∈ sh.unjoined u → c = found ∨ sh.exited c ≠ none) →
      ∀ c, (pid, c) ∈ sh'.unjoined u → c = found ∨ sh'.exited c ≠ none := by
    intro found pid hall c hmem
    rw [h.unjoined u hu] at hmem
    exact (hall c hmem).imp_right h.gone_all
  cases ctl with
  | fresh => exact trivial
  | finished => exact trivial
  | atPc pc =>
    cases pc with
    | send port msg k => exact trivial
    | receive port k =>
      cases k with
      | joinClear found pid k' => exact hkeep hk
      | _ => exact trivial
    | client pc =>
      cases pc with
      | joinReceive found pid k' => exact hkeep hk
      | joinClear found pid k' => exact hkeep hk
      | _ => exact trivial

theorem JoinKnows.update {old : Tid → Ctl (BoxPc Tid (ProcPc US))} {ctl : Ctl (BoxPc Tid (ProcPc US))}
    (hold : ∀ v, JoinKnows sh v (old v)) (hm : Moves t sh sh') (ht : JoinKnows sh' t ctl) (v : Tid) :
    JoinKnows sh' v (Function.update old t ctl v) :=
  (Function.forall_update_iff old fun v c => JoinKnows sh' v c).mpr
    ⟨ht, fun u hu => (hold u).frame hm hu⟩ v

/-- The lookup: if the entry is not the child's, the child has called `Exit`. -/
theorem ProcGood.lookup {q : Int} (hg : ProcGood sh) (h : DataOk sh) (hlook : sh.lookup q = some c)
    (k : Int → US) :
    JoinKnows sh t (.atPc (.client
      (if sh.join c then .joinReceive c q.toNat k else .joinClear c q.toNat k))) := by
  have hentry : sh.processIdTable q.toNat = some c := by
    unfold ProcSh.lookup at hlook
    split at hlook
    · exact hlook
    · nomatch hlook
  have hknows : ∀ v, (q.toNat, v) ∈ sh.unjoined t → v = c ∨ sh.exited v ≠ none := by
    intro v hrec
    refine Classical.or_iff_not_imp_right.mpr fun hlive => ?_
    have hchild := hg.child_entry h hrec (Classical.not_not.mp hlive)
    exact Option.some.inj (hchild.symm.trans hentry)
  split <;> exact hknows

/-- Step lemma. -/
theorem joinKnows_step (hk : ∀ v, JoinKnows s.sh v (s.ctl v)) (hg : ProcGood s.sh) (h : ProcOk s)
    (hs : ProcStep P s t s') : ∀ v, JoinKnows s'.sh v (s'.ctl v) := by
  cases hs with
  | compute hpc => exact JoinKnows.update hk (.refl t _) trivial
  | exec hpc hsys hexec => exact JoinKnows.update hk (.exec (executed hexec)) trivial
  | @fork c pid start k hpc hfresh =>
    -- first the child starts, then the parent goes on
    have hchild : ∀ v, JoinKnows s.sh v
        (Function.update s.ctl c (.atPc (.client (.user start))) v) :=
      JoinKnows.update hk (.refl c _) trivial
    exact JoinKnows.update hchild .forked trivial
  | lookup hpc hsys hlook => exact JoinKnows.update hk (.refl t _) (hg.lookup h.data hlook _)
  | @callReceive c pid k hpc =>
    have ht := hk t
    rw [hpc] at ht
    exact JoinKnows.update hk (.refl t _) ht
  | @receive port k msg hpc hbox =>
    obtain ⟨-, pid, k', rfl⟩ := h.at hpc
    have ht := hk t
    rw [hpc] at ht
    exact JoinKnows.update hk (.refl t _) ht
  | clear hpc => exact JoinKnows.update hk .joined trivial
  | exit hpc hsys =>
    refine JoinKnows.update hk (.exit _) ?_
    split <;> exact trivial
  | callSend hpc => exact JoinKnows.update hk (.refl t _) trivial
  | @send port k msg hpc hbox =>
    obtain ⟨-, -, rfl⟩ := h.at hpc
    exact JoinKnows.update hk (.refl t _) trivial
  | finish hpc => exact JoinKnows.update hk (.refl t _) trivial

theorem joinKnows_of_restrict (h : ((boxes P.process).restrict BoxClearsFree).Reach s) :
    ∀ v, JoinKnows s.sh v (s.ctl v) := by
  refine h.invariant (I := fun s => ∀ v, JoinKnows s.sh v (s.ctl v)) ?_ ?_
  · rintro s ⟨-, ctl₀, prio, ⟨-, rfl⟩, hctl⟩ v
    rw [hctl]
    by_cases hv : v = 0
    · simp only [hv, if_true]
      exact trivial
    · simp only [hv, if_false]
      exact trivial
  · rintro s t s' hr hk ⟨-, hs⟩
    exact joinKnows_step hk (procGood_of_restrict hr) (procOk_of_reach hr.of_restrict)
      (BoxStep.proc hs)

/-- At the last statement of `Join` the child has called `Exit`, whatever thread was found. -/
theorem exited_of_joinClear {found : Tid} {k : Int → US}
    (h : ((boxes P.process).restrict BoxClearsFree).Reach s)
    (hpc : s.ctl t = .atPc (.client (.joinClear found pid k))) (hrec : (pid, c) ∈ s.sh.unjoined t) :
    s.sh.exited c ≠ none := by
  have hknows := joinKnows_of_restrict h t
  rw [hpc] at hknows
  rcases hknows c hrec with rfl | hgone
  · exact ((procOk_of_reach h.of_restrict).at hpc).2 hrec
  · exact hgone

end Join

/-- The step of the kernel is not one in which `Join` clears an entry that is in use. -/
def kernelClearsFree (k : ProcKernel US) (l : KLabel Empty) : Bool :=
  (l.machine k.currentThread).all (clearsFree k.m)

theorem boxes_of_kernel {P : UserProg US} {k : ProcKernel US}
    (h : ((kernel P.process.monitor.prog).restrict fun k l => kernelClearsFree k l = true).Reach k) :
    ((boxes P.process).restrict BoxClearsFree).Reach (P.process.abs k.m) := by
  have hm : ((machine P.process.monitor.prog).restrict fun s l => clearsFree s l = true).Reach k.m := by
    refine kernel_refines_restrict (fun k l l' hok hl => ?_) h
    simp only [kernelClearsFree, hl, Option.all_some] at hok
    exact hok
  exact port_refines_restrict boxClearsFree_abs hm

/-- **What `Join` does for a parent.**  In every run of the kernel in which `Join` only clears free
    entries, for every identifier `pid` that `Exec` returned to `t` for the thread `c` and that `t`
    has not joined: `processIdTable[pid]` is `c`, not destroyed, if and only if `c` has not called
    `Exit`; and when `t`'s `Join(pid)` is about to return, `c` has called `Exit`, and the value in
    register 2 will be its status if and only if the status is 0. -/
theorem join_child {P : UserProg US} {k : ProcKernel US}
    (h : ((kernel P.process.monitor.prog).restrict fun k l => kernelClearsFree k l = true).Reach k)
    {t c : Tid} {pid : Nat} (hrec : (pid, c) ∈ (procSh k.m).unjoined t) :
    (((procSh k.m).lookup pid = some c ∧ c ∉ k.deleted) ↔ (procSh k.m).exited c = none) ∧
    ∀ found next, AtProc k.m t (.joinClear found pid next) →
      ∃ estado, (procSh k.m).exited c = some estado ∧
        ∀ m', stepFn P.process.monitor.prog k.m (.run t) = some m' →
          ((procSh m').r2 t = estado ↔ estado = 0) := by
  have hbox := boxes_of_kernel h
  have hok : ProcOk (P.process.abs k.m) := procOk_of_reach hbox.of_restrict
  have hg : ProcGood (procSh k.m) := procGood_of_restrict hbox
  refine ⟨⟨?_, fun hlive => ⟨?_, fun hdel => ?_⟩⟩, fun found next hpc => ?_⟩
  · rintro ⟨hlook, -⟩
    unfold ProcSh.lookup at hlook
    split at hlook
    · exact (hok.data.entry _ c hlook).1.2
    · nomatch hlook
  · have hentry := hg.child_entry hok.data hrec hlive
    obtain ⟨hne, hlt, hpid, -⟩ := hok.data.record t pid c hrec
    have hrange := (hok.data.pids c hne hlt).2
    rw [hpid] at hrange
    unfold ProcSh.lookup
    rw [if_pos ⟨Int.natCast_nonneg pid, Int.ofNat_lt.mpr hrange⟩]
    exact hentry
  · -- a deleted thread has finished, and so has called `Exit`
    have hfin := finished_of_doomed h.of_restrict c (Or.inl hdel)
    have hctl := hok.ctl c
    simp only [PortClient.abs, Client.view, hfin] at hctl
    exact hctl hlive
  · have hgone := exited_of_joinClear hbox (abs_ctl hpc) hrec
    obtain ⟨estado, hestado⟩ := Option.ne_none_iff_exists'.mp hgone
    refine ⟨estado, hestado, fun m' hstep => ?_⟩
    rw [clear_step hpc hstep]
    have hr2 : ((procSh k.m).joined t pid).r2 t = 0 := Function.update_self _ _ _
    rw [hr2]
    exact eq_comm

/-- `main` starts a process and joins it; the process exits with status 7. -/
def childProg : UserProg Nat where
  main := 0
  sys
    | 0 => .exec 10 fun _ => 1
    | 1 => .join 1 fun _ => 2
    | 10 => .exit 7
    | u => .compute u

/-- `main` calls `Join` first and waits for the child's message. -/
def joinFirst : List (KLabel Empty) :=
  List.replicate 16 .run ++ [.timer] ++ List.replicate 18 .run ++ [.dispatch] ++
    List.replicate 14 .run

/-- The child exits before `main` calls `Join`. -/
def exitFirst : List (KLabel Empty) :=
  List.replicate 2 .run ++ [.timer] ++ List.replicate 17 .run ++ [.dispatch]

/-- Along `joinFirst` the child has called `Exit`, with a status that is not 0: `Join` is about to
    return something else. -/
theorem join_child_joinFirst :
    let k := Lts.replay (kstepFn childProg.process.monitor.prog) childProg.booted joinFirst
    (1, 1) ∈ (procSh k.m).unjoined 0 ∧
      ∃ estado, (procSh k.m).exited 1 = some estado ∧
        ∀ m', stepFn childProg.process.monitor.prog k.m (.run 0) = some m' →
          ((procSh m').r2 0 = estado ↔ estado = 0) :=
  ⟨by decide +kernel, (join_child (Lts.Exec.reach_restrict
    (Lts.exec_replay kernel_step (.init childProg.booted_init) joinFirst) (by decide +kernel))
    (by decide +kernel)).2 1 (fun _ => 2) rfl⟩

/-- Neither half of what a parent may expect holds.  When the child exits first, there is no entry for
    it when `main` calls `Join`, and its thread has been destroyed.  When `main` calls `Join` first, it
    gets 0, not the child's 7. -/
theorem join_loses_child :
    (∃ k : ProcKernel Nat, (kernel childProg.process.monitor.prog).Reach k ∧
      AtProc k.m 0 (.user 1) ∧ (1, 1) ∈ (procSh k.m).unjoined 0 ∧ (procSh k.m).lookup 1 = none ∧
      1 ∈ k.deleted) ∧
    ∃ k : ProcKernel Nat, (kernel childProg.process.monitor.prog).Reach k ∧
      (procSh k.m).unjoined 0 = [] ∧ (procSh k.m).exited 1 = some 7 ∧ (procSh k.m).r2 0 = 0 := by
  refine ⟨⟨Lts.replay (kstepFn childProg.process.monitor.prog) childProg.booted exitFirst,
    Lts.reach_replay kernel_step (.init childProg.booted_init) _, rfl, by decide +kernel,
    by decide +kernel, by decide +kernel⟩, ?_⟩
  exact ⟨Lts.replay (kstepFn childProg.process.monitor.prog) childProg.booted (joinFirst ++ [KLabel.run]),
    Lts.reach_replay kernel_step (.init childProg.booted_init) _, by decide +kernel,
    by decide +kernel, by decide +kernel⟩

end Nachos
