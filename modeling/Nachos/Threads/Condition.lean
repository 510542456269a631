/-
  `Condition` of `threads/synch.cc`: what `Wait` waits for.

  `Wait` builds a semaphore of its own and sleeps on it until `Signal` or `Broadcast` takes it off
  `semList` and does `V` on it — that is the idea, and for it the semaphore has to be built with value
  0.  The code builds it with value 1.  So the `sem->P()` of a new `Wait` does not sleep (`wait_passes`),
  and the semaphore stays on `semList`, where a later `Signal` finds it and spends itself on a thread
  that has long gone.

  `CondGood` is what a condition variable is for: whoever got past its `sem->P()` was signalled, and
  `semList` has the semaphores of the waiting threads and no others.  `wait_signalled_iff` is the exact
  condition, and it leaves nothing: a condition is good in all runs IFF no run comes to a `Wait` on it by
  a thread that holds its lock.

  `CondStep` says once what a step does to the conditions; both directions are invariants over it.
-/
import Nachos.Threads.Lock

set_option linter.unusedSectionVars false

namespace Nachos

variable {L C U I Sh Pc : Type} [DecidableEq L] [DecidableEq C] [DecidableEq U]

/-! ## Who waits for which semaphore -/

/-- The condition and the semaphore of a `Wait` that has not passed its `sem->P()`. -/
def Ret.waitSem : Ret C Pc → Option (C × Nat)
  | .waitP c sem _ => some (c, sem)
  | _ => none

/-- The `Wait` that a program point is in, before its `sem->P()`. -/
def MPc.waitSem : MPc L C Pc → Option (C × Nat)
  | .ret r => r.waitSem
  | .release _ _ r => r.waitSem
  | .signal _ r => r.waitSem
  | .signalV _ r => r.waitSem
  | _ => none

/-- The semaphore that `Signal` has taken off its list, before the `V` on it. -/
def MPc.signalSem : MPc L C Pc → Option Nat
  | .signalV sem _ => some sem
  | _ => none

/-- The `Wait` that a thread is in, before its `sem->P()`. -/
def Ctl.waitSem : Ctl (MPc L C Pc) → Option (C × Nat)
  | .atPc pc => pc.waitSem
  | _ => none

/-- The semaphore that a thread is about to do `V` on, in `Signal`. -/
def Ctl.signalSem : Ctl (MPc L C Pc) → Option Nat
  | .atPc pc => pc.signalSem
  | _ => none

/-- The semaphores of `Wait` that a thread is going to use. -/
def Ctl.sems (c : Ctl (MPc L C Pc)) : Option (C × Nat) × Option Nat := (c.waitSem, c.signalSem)

/-- No call begins in the middle of a `Wait` or a `Signal`. -/
theorem Call.sems_entry {call : Call L C U Sh Pc} {pc : MPc L C Pc} (h : call.entry = some pc) :
    (Ctl.atPc pc).sems = (none, none) := by
  cases Call.enters_of_entry h <;> rfl

/-- `t` is in a `Wait` on `c`, with semaphore `sem`, and has not passed its `sem->P()`. -/
def InWait (s : State (MSem L U) (MSh L C Sh) (MPc L C Pc)) (t : Tid) (c : C) (sem : Nat) : Prop :=
  (s.ctl t).waitSem = some (c, sem)

/-! ## What a step does to the conditions -/

/-- The steps of a client, as the conditions see them. -/
inductive CondStep (cl : Client L C U I Sh Pc) (s : cl.St) : cl.St → Prop where
  | frame {s' : cl.St} (hsems : ∀ u, (s'.ctl u).sems = (s.ctl u).sems)
      (hlist : s'.sh.semList = s.sh.semList) (hnext : s'.sh.nextSem = s.sh.nextSem)
      (hpassed : s'.sh.passed = s.sh.passed) (hremoved : s'.sh.removed = s.sh.removed)
      (hvalue : ∀ n, (s'.sem (.wait n)).value = (s.sem (.wait n)).value) : CondStep cl s s'
  | wait {t : Tid} {c : C} {k : Pc} (hpc : s.ctl t = .atPc (.wait c k))
      (hheld : s.sh.thname (cl.lockOf c) = some t) :
      CondStep cl s (s.goto t (s.sh.appended c) (.release (cl.lockOf c) .test (.waitP c s.sh.nextSem k)))
  | waitP {t : Tid} {c : C} {sem : Nat} {k : Pc} (hpc : s.ctl t = .atPc (.ret (.waitP c sem k))) :
      CondStep cl s
        ((s.semP t (.wait sem)).goto t (s.sh.passedP c sem) (.acquire (cl.lockOf c) .test k))
  | signal {t : Tid} {c : C} {r : Ret C Pc} {sem : Nat} {rest : List Nat}
      (hpc : s.ctl t = .atPc (.signal c r)) (hlist : s.sh.semList c = sem :: rest) :
      CondStep cl s (s.goto t (s.sh.removedHead c sem rest) (.signalV sem r))
  | signalV {t : Tid} {sem : Nat} {r : Ret C Pc} (hpc : s.ctl t = .atPc (.signalV sem r)) :
      CondStep cl s ((s.semV (.wait sem)).goto t s.sh (.ret r))

section Step

variable {cl : Client L C U I Sh Pc} {s s' : cl.St} {t : Tid}

/-- A thread that goes from one point to another of the same `Wait`, or of none. -/
theorem sems_same {ctl : Tid → Ctl (MPc L C Pc)} {c : Ctl (MPc L C Pc)} (h : c.sems = (ctl t).sems) (u : Tid) :
    (Function.update ctl t c u).sems = (ctl u).sems := by
  by_cases hu : u = t
  · subst hu
    rw [Function.update_self, h]
  · rw [Function.update_of_ne hu]

/-- A `goto` that does not touch the conditions. -/
theorem CondStep.goto {pc pc' : MPc L C Pc} {sh' : MSh L C Sh} (hpc : s.ctl t = .atPc pc) (hctl : s'.ctl = s.ctl)
    (hsems : (Ctl.atPc pc').sems = (Ctl.atPc pc).sems) (hlist : sh'.semList = s.sh.semList)
    (hnext : sh'.nextSem = s.sh.nextSem) (hpassed : sh'.passed = s.sh.passed)
    (hremoved : sh'.removed = s.sh.removed)
    (hvalue : ∀ n, (s'.sem (.wait n)).value = (s.sem (.wait n)).value) : CondStep cl s (s'.goto t sh' pc') := by
  refine .frame (fun u => ?_) hlist hnext hpassed hremoved hvalue
  rw [State.goto_ctl, hctl]
  refine sems_same ?_ u
  rw [hpc]
  exact hsems

/-- **Inversion**: everything but `Wait`, its `sem->P()` and the two halves of `Signal` is framed. -/
theorem MStep.cond {lab : Label I} (hs : MStep cl s lab s') : CondStep cl s s' := by
  cases hs with
  | block hv => exact .frame (fun _ => rfl) rfl rfl rfl rfl fun n => semP_value_zero hv
  | call hpc hentry => exact .goto hpc rfl (Call.sems_entry hentry) rfl rfl rfl rfl fun _ => rfl
  | userP hpc hcall | userV hpc hcall => exact .goto hpc rfl rfl rfl rfl rfl rfl fun n => by simp
  | tau hpc hcall hf => exact .goto hpc rfl rfl rfl rfl rfl rfl fun _ => rfl
  | @fork t pc f a hpc hcall hf hfresh =>
    refine .frame (fun u => ?_) rfl rfl rfl rfl fun _ => rfl
    have hne : t ≠ a.child := by
      rintro rfl
      rw [hpc] at hfresh
      cases hfresh
    rw [sems_same (by rw [Function.update_of_ne hne, hpc]; rfl) u]
    exact sems_same (by rw [hfresh]; rfl) u
  | yield hpc hcall => exact .goto hpc rfl rfl rfl rfl rfl rfl fun _ => rfl
  | finish hpc hcall => exact .frame (sems_same (by rw [hpc]; rfl)) rfl rfl rfl rfl fun _ => rfl
  | reacquire hpc hheld | enter hpc hheld => exact .goto hpc rfl rfl rfl rfl rfl rfl fun _ => rfl
  | semInvP hpc => exact .goto hpc rfl rfl rfl rfl rfl rfl fun n => by simp
  | @donate t l k hpc =>
    obtain ⟨seen, hnext⟩ := donation_next l t k s.prio s.sh
    rw [hnext]
    exact .frame (sems_same (by rw [hpc]; rfl)) rfl rfl rfl rfl fun _ => rfl
  | semInvV hpc | take hpc hv => exact .goto hpc rfl rfl rfl rfl rfl rfl fun n => by simp
  | own hpc | drop hpc hheld => exact .goto hpc rfl rfl rfl rfl rfl rfl fun _ => rfl
  | give hpc => exact .goto hpc rfl rfl rfl rfl rfl rfl fun n => by simp
  | wait hpc hheld => exact .wait hpc hheld
  | waitP hpc hv => exact .waitP hpc
  | signalNone hpc hheld hlist => exact .goto hpc rfl rfl rfl rfl rfl rfl fun _ => rfl
  | signal hpc hheld hlist => exact .signal hpc hlist
  | signalV hpc => exact .signalV hpc
  | broadcast hpc hheld | broadcastEnd hpc hlist | broadcastNext hpc hlist =>
    exact .goto hpc rfl rfl rfl rfl rfl rfl fun _ => rfl
  | intrV hh => exact .frame (fun _ => rfl) rfl rfl rfl rfl fun n => by simp
  | intr hh => exact .frame (fun _ => rfl) rfl rfl rfl rfl fun _ => rfl

end Step

/-! ## The numbers of the semaphores -/

/-- The semaphores that a thread is going to use have numbers below `n`. -/
def Ctl.Below (n : Nat) (c : Ctl (MPc L C Pc)) : Prop :=
  (∀ d sem, c.waitSem = some (d, sem) → sem < n) ∧ ∀ sem, c.signalSem = some sem → sem < n

/-- The semaphores in use have the numbers below `nextSem`; the others are as they are going to be
    built. -/
structure Numbered (s : State (MSem L U) (MSh L C Sh) (MPc L C Pc)) : Prop where
  threads : ∀ t, (s.ctl t).Below s.sh.nextSem
  listed : ∀ c, ∀ sem ∈ s.sh.semList c ++ s.sh.removed c, sem < s.sh.nextSem
  unused : ∀ sem, s.sh.nextSem ≤ sem → (s.sem (.wait sem)).value = 1

section Numbers

variable {cl : Client L C U I Sh Pc} {s s' : cl.St} {t : Tid}

theorem Ctl.below_of_sems {n : Nat} {c : Ctl (MPc L C Pc)} (h : c.sems = (none, none)) : c.Below n := by
  refine ⟨fun d sem hw => ?_, fun sem hv => ?_⟩
  · cases hw.symm.trans (congrArg Prod.fst h)
  · cases hv.symm.trans (congrArg Prod.snd h)

/-- One thread goes on, and the numbers in use may grow. -/
theorem Ctl.below_update {n n' : Nat} {ctl : Tid → Ctl (MPc L C Pc)} {c : Ctl (MPc L C Pc)}
    (h : ∀ u, (ctl u).Below n) (hle : n ≤ n') (hc : c.Below n') (u : Tid) :
    (Function.update ctl t c u).Below n' := by
  refine (Function.forall_update_iff ctl fun _ c => c.Below n').mpr ⟨hc, fun u _ => ?_⟩ u
  exact ⟨fun d sem hw => Nat.lt_of_lt_of_le ((h u).1 d sem hw) hle,
    fun sem hv => Nat.lt_of_lt_of_le ((h u).2 sem hv) hle⟩

theorem Numbered.boot (hi : Init cl.prog s) : Numbered s := by
  obtain ⟨hsh, ctl₀, -, hctl⟩ := hi.boot
  refine ⟨fun t => Ctl.below_of_sems ?_, fun c sem hsem => ?_, fun sem _ => ?_⟩
  · rw [hctl]
    show ((ctl₀ t).compile : Ctl (MPc L C Pc)).sems = (none, none)
    cases ctl₀ t <;> rfl
  · rw [hsh] at hsem
    exact absurd hsem List.not_mem_nil
  · rw [hi.sem]
    rfl

/-- Step lemma. -/
theorem Numbered.step (h : Numbered s) (hs : CondStep cl s s') : Numbered s' := by
  -- what is done to a semaphore in use does not touch the others
  have hother : ∀ {sem n : Nat}, sem < s.sh.nextSem → s.sh.nextSem ≤ n → (MSem.wait n : MSem L U) ≠ .wait sem := by
    intro sem n hlt hle heq
    have hnum : n = sem := MSem.wait.inj heq
    omega
  cases hs with
  | frame hsems hlist hnext hpassed hremoved hvalue =>
    refine ⟨fun t => ?_, ?_, fun sem hsem => ?_⟩
    · rw [hnext]
      exact ⟨fun d sem hw => (h.threads t).1 d sem ((congrArg Prod.fst (hsems t)).symm.trans hw),
        fun sem hv => (h.threads t).2 sem ((congrArg Prod.snd (hsems t)).symm.trans hv)⟩
    · rw [hlist, hremoved, hnext]
      exact h.listed
    · rw [hvalue]
      exact h.unused sem (hnext ▸ hsem)
  | @wait t c k hpc hheld =>
    refine ⟨Ctl.below_update h.threads (Nat.le_succ _) ⟨fun d sem hw => ?_, fun sem hv => by cases hv⟩,
      fun d sem hsem => ?_, fun sem hsem => h.unused sem (Nat.le_of_succ_le hsem)⟩
    · obtain ⟨-, rfl⟩ := Prod.mk.inj (Option.some.inj hw)
      exact Nat.lt_succ_self _
    · have hold : sem = s.sh.nextSem ∨ sem ∈ s.sh.semList d ++ s.sh.removed d := by
        by_cases hd : d = c
        · subst hd
          simpa [MSh.appended, or_left_comm] using hsem
        · exact Or.inr (by simpa [MSh.appended, hd] using hsem)
      rcases hold with rfl | hold
      · exact Nat.lt_succ_self _
      · exact Nat.lt_succ_of_lt (h.listed d sem hold)
  | @waitP t c sem k hpc =>
    have hlt : sem < s.sh.nextSem := (h.threads t).1 c sem (by rw [hpc]; rfl)
    refine ⟨Ctl.below_update h.threads (Nat.le_refl _) (Ctl.below_of_sems rfl), h.listed, fun n hn => ?_⟩
    have hsame : (s.semP t (.wait sem)).sem (.wait n) = s.sem (.wait n) := Function.update_of_ne (hother hlt hn) _ _
    rw [State.goto_sem, hsame]
    exact h.unused n hn
  | @signal t c r sem rest hpc hlist =>
    have hmem : ∀ d, ∀ n ∈ (s.sh.removedHead c sem rest).semList d ++ (s.sh.removedHead c sem rest).removed d,
        n ∈ s.sh.semList d ++ s.sh.removed d := by
      intro d n hn
      by_cases hd : d = c
      · subst hd
        simp only [MSh.removedHead, Function.update_self, List.mem_append, List.mem_singleton] at hn
        simp only [hlist, List.mem_append, List.mem_cons]
        tauto
      · simpa [MSh.removedHead, hd] using hn
    refine ⟨Ctl.below_update h.threads (Nat.le_refl _) ⟨fun d n hw => ?_, fun n hv => ?_⟩,
      fun d n hn => h.listed d n (hmem d n hn), h.unused⟩
    · exact (h.threads t).1 d n (by rw [hpc]; exact hw)
    · obtain rfl := Option.some.inj hv
      exact h.listed c sem (by simp [hlist])
  | @signalV t sem r hpc =>
    have hlt : sem < s.sh.nextSem := (h.threads t).2 sem (by rw [hpc]; rfl)
    refine ⟨Ctl.below_update h.threads (Nat.le_refl _) ⟨fun d n hw => ?_, fun n hv => by cases hv⟩, h.listed,
      fun n hn => ?_⟩
    · exact (h.threads t).1 d n (by rw [hpc]; exact hw)
    · have hsame : (s.semV (.wait sem)).sem (.wait n) = s.sem (.wait n) := Function.update_of_ne (hother hlt hn) _ _
      rw [State.goto_sem, hsame]
      exact h.unused n hn

/-- Run lemma. -/
theorem numbered_of_reach (h : (machine cl.prog).Reach s) : Numbered s :=
  h.invariant (I := Numbered) (fun _ hi => Numbered.boot hi)
    fun _ _ _ _ hk hs => hk.step (mstep_of_stepFn hs).cond

end Numbers

/-! ## When the condition variable does what it is for -/

/-- What a condition variable is for: every `Wait` that passed its `sem->P()` had its semaphore
    taken off `semList` by a `Signal` or a `Broadcast`, so no more of them passed than were taken off;
    and `semList` has exactly the semaphores of the threads that wait and have not been signalled. -/
structure CondGood (s : State (MSem L U) (MSh L C Sh) (MPc L C Pc)) (c : C) : Prop where
  signalled : ∀ sem ∈ s.sh.passed c, sem ∈ s.sh.removed c
  count : (s.sh.passed c).length ≤ (s.sh.removed c).length
  entries : ∀ sem, sem ∈ s.sh.semList c ↔ (∃ t, InWait s t c sem) ∧ sem ∉ s.sh.removed c

/-- Nobody has used the condition. -/
structure NoWaits (s : State (MSem L U) (MSh L C Sh) (MPc L C Pc)) (c : C) : Prop where
  semList : s.sh.semList c = []
  passed : s.sh.passed c = []
  removed : s.sh.removed c = []
  nobody : ∀ t sem, ¬ InWait s t c sem

/-- `t` calls `Wait` on `c`, and holds the lock of `c`. -/
def Client.AtWait (cl : Client L C U I Sh Pc) (s : cl.St) (t : Tid) (c : C) : Prop :=
  (∃ k, s.ctl t = .atPc (.wait c k)) ∧ s.sh.isHeldBy (cl.lockOf c) t

section Good

variable {cl : Client L C U I Sh Pc} {s s' : cl.St} {t : Tid} {c : C}

theorem NoWaits.good {s : State (MSem L U) (MSh L C Sh) (MPc L C Pc)} (h : NoWaits s c) : CondGood s c := by
  refine ⟨?_, ?_, fun sem => ?_⟩
  · simp [h.passed]
  · simp [h.passed]
  · simp [h.semList, h.nobody]

/-- One thread goes on, and not into a `Wait` on `c`. -/
theorem NoWaits.update {ctl : Tid → Ctl (MPc L C Pc)} {pc : MPc L C Pc}
    (h : ∀ u sem, (ctl u).waitSem ≠ some (c, sem)) (hpc : ∀ sem, pc.waitSem ≠ some (c, sem)) (u : Tid) (sem : Nat) :
    (Function.update ctl t (.atPc pc) u).waitSem ≠ some (c, sem) := by
  refine (Function.forall_update_iff ctl fun _ c' => c'.waitSem ≠ some (c, sem)).mpr ⟨?_, fun u _ => h u sem⟩ u
  exact hpc sem

/-- Step lemma: it takes a `Wait` to begin. -/
theorem NoWaits.step (h : NoWaits s c) (hno : ∀ t, ¬ cl.AtWait s t c) (hs : CondStep cl s s') :
    NoWaits s' c := by
  cases hs with
  | frame hsems hlist hnext hpassed hremoved hvalue =>
    refine ⟨by rw [hlist]; exact h.semList, by rw [hpassed]; exact h.passed, by rw [hremoved]; exact h.removed,
      fun t sem hw => h.nobody t sem ?_⟩
    exact (congrArg Prod.fst (hsems t)).symm.trans hw
  | @wait t d k hpc hheld =>
    have hne : c ≠ d := by
      rintro rfl
      exact hno t ⟨⟨k, hpc⟩, hheld⟩
    refine ⟨?_, h.passed, h.removed, NoWaits.update h.nobody fun sem hw => ?_⟩
    · exact (Function.update_of_ne hne _ _).trans h.semList
    · exact hne (Prod.mk.inj (Option.some.inj hw)).1.symm
  | @waitP t d sem k hpc =>
    have hne : c ≠ d := by
      rintro rfl
      exact h.nobody t sem (by rw [InWait, hpc]; rfl)
    refine ⟨h.semList, ?_, h.removed, NoWaits.update h.nobody fun n hw => by cases hw⟩
    exact (Function.update_of_ne hne _ _).trans h.passed
  | @signal t d r sem rest hpc hlist =>
    have hne : c ≠ d := by
      rintro rfl
      cases h.semList.symm.trans hlist
    refine ⟨?_, h.passed, ?_, NoWaits.update h.nobody fun n hw => ?_⟩
    · exact (Function.update_of_ne hne _ _).trans h.semList
    · exact (Function.update_of_ne hne _ _).trans h.removed
    · exact h.nobody t n (by rw [InWait, hpc]; exact hw)
  | @signalV t sem r hpc =>
    refine ⟨h.semList, h.passed, h.removed, NoWaits.update h.nobody fun n hw => ?_⟩
    exact h.nobody t n (by rw [InWait, hpc]; exact hw)

/-- Run lemma. -/
theorem noWaits_of_reach (hno : ∀ s, (machine cl.prog).Reach s → ∀ t, ¬ cl.AtWait s t c)
    (h : (machine cl.prog).Reach s) : NoWaits s c := by
  refine h.invariant (I := fun s => NoWaits s c) (fun s hi => ?_)
    fun s lab s' hr hk hs => hk.step (hno s hr) (mstep_of_stepFn hs).cond
  obtain ⟨hsh, ctl₀, -, hctl⟩ := hi.boot
  refine ⟨by rw [hsh]; rfl, by rw [hsh]; rfl, by rw [hsh]; rfl, fun t sem hw => ?_⟩
  rw [InWait, hctl] at hw
  replace hw : ((ctl₀ t).compile : Ctl (MPc L C Pc)).waitSem = some (c, sem) := hw
  cases ht : ctl₀ t <;> (rw [ht] at hw; cases hw)

/-- **A `Wait` by the holder of the lock is not stopped.**  Let its thread run alone: it appends its
    semaphore, releases the lock, and passes its `sem->P()`, because the semaphore has the value 1. -/
theorem wait_passes (h : (machine cl.prog).Reach s) (hwait : cl.AtWait s t c) :
    ∃ s', (machine cl.prog).Reach s' ∧ s.sh.nextSem ∈ s'.sh.passed c ∧ s'.sh.removed c = s.sh.removed c := by
  obtain ⟨⟨k, hpc⟩, hheld⟩ := hwait
  -- the new semaphore: its value is 1, and nobody sleeps on it
  have hvalue : (s.sem (.wait s.sh.nextSem)).value ≠ 0 := by
    rw [(numbered_of_reach h).unused _ (Nat.le_refl _)]
    decide
  have hqueue : t ∉ (s.sem (.wait s.sh.nextSem)).queue := fun hq =>
    (waiting_of_reach h).notMem hpc (fun upd next => Instr.ne_P rfl _ upd next) (List.mem_append.mpr (Or.inl hq))
  -- `semList->Append`
  obtain ⟨s₁, hs₁⟩ : ∃ s₁, s₁ =
    s.goto t (s.sh.appended c) (.release (cl.lockOf c) .test (.waitP c s.sh.nextSem k)) := ⟨_, rfl⟩
  have hpc₁ : s₁.ctl t = .atPc (.release (cl.lockOf c) .test (.waitP c s.sh.nextSem k)) := by simp [hs₁]
  have hheld₁ : s₁.sh.isHeldBy (cl.lockOf c) t := by rw [hs₁]; exact hheld
  have hstep₁ : stepFn cl.prog s (.run t) = some s₁ := by
    simp only [stepFn, hpc, Client.prog, Client.code, exec, if_pos hheld, Option.map_some, hs₁]
  -- `lock->Release()`
  obtain ⟨s₂, hs₂⟩ : ∃ s₂, s₂ = s₁.goto t (s₁.sh.dropped (cl.lockOf c) t)
    (.release (cl.lockOf c) .semV (.waitP c s.sh.nextSem k)) := ⟨_, rfl⟩
  have hpc₂ : s₂.ctl t = .atPc (.release (cl.lockOf c) .semV (.waitP c s.sh.nextSem k)) := by simp [hs₂]
  have hstep₂ : stepFn cl.prog s₁ (.run t) = some s₂ := by
    simp only [stepFn, hpc₁, Client.prog, Client.code, exec, if_pos hheld₁, Option.map_some, hs₂]
  obtain ⟨s₃, hs₃⟩ : ∃ s₃, s₃ = (s₂.semV (.lock (cl.lockOf c))).goto t (s₂.sh.gave (cl.lockOf c) t)
    (.ret (.waitP c s.sh.nextSem k)) := ⟨_, rfl⟩
  have hpc₃ : s₃.ctl t = .atPc (.ret (.waitP c s.sh.nextSem k)) := by simp [hs₃]
  have hstep₃ : stepFn cl.prog s₂ (.run t) = some s₃ := by
    simp only [stepFn, hpc₂, Client.prog, Client.code, exec, hs₃]
  -- `sem->P()`
  have hsem : s₃.sem (.wait s.sh.nextSem) = s.sem (.wait s.sh.nextSem) := by simp [hs₃, hs₂, hs₁]
  have hstep₄ : stepFn cl.prog s₃ (.run t) = some ((s₃.semP t (.wait s.sh.nextSem)).goto t
      (s₃.sh.passedP c s.sh.nextSem) (.acquire (cl.lockOf c) .test k)) := by
    simp only [stepFn, hpc₃, Client.prog, Client.code, exec, hsem, if_neg hqueue, if_neg hvalue]
  refine ⟨_, (((h.step hstep₁).step hstep₂).step hstep₃).step hstep₄, ?_, ?_⟩
  · simp [MSh.passedP]
  · rw [hs₃, hs₂, hs₁]
    rfl

/-- **When `Wait` waits to be signalled.**  For every client and every condition: the condition is good in
    every state of every run IFF no run comes to a state where a thread that holds the lock of the condition
    calls `Wait` on it. -/
theorem wait_signalled_iff (cl : Client L C U I Sh Pc) (c : C) :
    (∀ s, (machine cl.prog).Reach s → CondGood s c) ↔ ∀ s, (machine cl.prog).Reach s → ∀ t, ¬ cl.AtWait s t c := by
  constructor
  · intro hgood s hr t hwait
    obtain ⟨s', hr', hpassed, hremoved⟩ := wait_passes hr hwait
    have hold : s.sh.nextSem ∈ s.sh.removed c := hremoved ▸ (hgood s' hr').signalled _ hpassed
    exact Nat.lt_irrefl _ ((numbered_of_reach hr).listed c _ (List.mem_append.mpr (Or.inr hold)))
  · intro hno s hr
    exact (noWaits_of_reach hno hr).good

end Good

/-- Alone, a thread gets through its `Wait`: nobody has called `Signal`, and its semaphore is still on the
    list. -/
theorem wait_not_signalled :
    ¬ ∀ s : waitClient.St, (machine waitClient.prog).Reach s → ∀ c, CondGood s c := by
  intro h
  have hgood := h _ (Lts.reach_replay machine_step waitInit_reach (List.replicate 12 (.run 0))) ()
  have hremoved := hgood.signalled 0 (by decide)
  exact absurd hremoved (by decide)

end Nachos
