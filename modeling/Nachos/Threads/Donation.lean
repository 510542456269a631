/-
  Priority donation in `Lock::Acquire`: what it guarantees, and what it does not.

  A thread that calls `Acquire` raises the thread in `thname` to its own priority, ONCE, before it goes
  to sleep on `sem`.  Priorities are never lowered again (`prio_mono`), so that thread keeps at least
  the priority the waiting thread had at that moment: `donation_bounds`.

  The bound is about the thread that was in `thname` THEN.  `Release` wakes the first thread on the
  queue of `sem`, whatever its priority, and nobody donates to the new owner: `inversion_after_handover`
  is a run of the kernel in which a thread of priority 0 holds the lock and a thread of priority 2,
  past its donation step, sleeps on it.  And it is about the priority the waiting thread had then: in
  `inversion_after_raise` that thread is raised later, through a lock it holds itself.
-/
import Nachos.Threads.Kernel
import Nachos.Threads.Lock

set_option linter.unusedSectionVars false

namespace Nachos

variable {L C U I Sh Pc : Type} [DecidableEq L] [DecidableEq C] [DecidableEq U]

/-! ## Priorities only go up -/

/-- A thread that has been forked stays forked, and its priority does not go down. -/
theorem prio_mono {cl : Client L C U I Sh Pc} {s s' : cl.St} {lab : Label I} (hs : MStep cl s lab s')
    {h : Tid} (hh : s.ctl h ≠ .fresh) : s'.ctl h ≠ .fresh ∧ s.prio h ≤ s'.prio h := by
  -- a `goto` takes nobody back to the state before `Fork`
  have hgoto : ∀ (t : Tid) (pc : MPc L C Pc),
      Function.update s.ctl t (.atPc pc) h ≠ .fresh := by
    intro t pc
    by_cases ht : h = t
    · subst ht
      rw [Function.update_self]
      nofun
    · rw [Function.update_of_ne ht]
      exact hh
  cases hs with
  | block hv | intrV hi | intr hi => exact ⟨hh, Nat.le_refl _⟩
  | @finish t pc upd hpc hcall =>
    refine ⟨?_, Nat.le_refl _⟩
    show Function.update s.ctl t .finished h ≠ .fresh
    by_cases ht : h = t
    · subst ht
      rw [Function.update_self]
      nofun
    · rw [Function.update_of_ne ht]
      exact hh
  | @fork t pc f a hpc hcall hf hfresh =>
    -- the new thread is not `h`, which has been forked before
    have hne : h ≠ a.child := by
      rintro rfl
      exact hh hfresh
    constructor
    · show Function.update (Function.update s.ctl a.child _) t _ h ≠ .fresh
      by_cases ht : h = t
      · subst ht
        rw [Function.update_self]
        nofun
      · rw [Function.update_of_ne ht, Function.update_of_ne hne]
        exact hh
    · show s.prio h ≤ Function.update s.prio a.child a.priority h
      exact Nat.le_of_eq (Function.update_of_ne hne _ _).symm
  | @donate t l k hpc =>
    refine ⟨hgoto t _, ?_⟩
    show s.prio h ≤ s.raised (Client.donation l t k s.prio s.sh).raise h
    unfold Client.donation
    cases s.sh.thname l with
    | none => exact Nat.le_refl _
    | some thname =>
      dsimp only
      split
      · rename_i hlt
        show s.prio h ≤ Function.update s.prio thname (s.prio t) h
        by_cases hn : h = thname
        · subst hn
          rw [Function.update_self]
          exact Nat.le_of_lt hlt
        · exact Nat.le_of_eq (Function.update_of_ne hn _ _).symm
      · exact Nat.le_refl _
  | _ => exact ⟨hgoto _ _, Nat.le_refl _⟩

/-! ## What the donation step saw -/

/-- What the donation step saw, for a thread between that step and `sem->P()`. -/
def Ctl.seen : Ctl (MPc L C Pc) → Option (Tid × Nat)
  | .atPc (.acquire _ (.semInvV seen) _) => seen
  | .atPc (.acquire _ (.semP seen) _) => seen
  | _ => none

/-- `thname` names threads that have been forked, and whoever was seen by a donation step has at
    least the priority that was offered. -/
structure DonationOk (s : State (MSem L U) (MSh L C Sh) (MPc L C Pc)) : Prop where
  named : ∀ l h, s.sh.thname l = some h → s.ctl h ≠ .fresh
  seen : ∀ t h p, (s.ctl t).seen = some (h, p) → p ≤ s.prio h ∧ s.ctl h ≠ .fresh

section Step

variable {cl : Client L C U I Sh Pc} {s s' : cl.St} {t : Tid}

theorem DonationOk.boot (hi : Init cl.prog s) : DonationOk s := by
  obtain ⟨hsh, ctl₀, -, hctl⟩ := hi.boot
  refine ⟨fun l h hl => ?_, fun t h p hs => ?_⟩
  · rw [hsh] at hl
    nomatch hl
  · rw [hctl] at hs
    replace hs : ((ctl₀ t).compile : Ctl (MPc L C Pc)).seen = some (h, p) := hs
    cases ht : ctl₀ t <;> (rw [ht] at hs; nomatch hs)

/-- A step after which the stepping thread has seen nothing new. -/
theorem DonationOk.keep {lab : Label I} (h : DonationOk s) (hs : MStep cl s lab s')
    (hname : ∀ l u, s'.sh.thname l = some u → s.sh.thname l = some u ∨ s'.ctl u ≠ .fresh)
    (hseen : ∀ u x, (s'.ctl u).seen = some x → (s.ctl u).seen = some x) : DonationOk s' := by
  refine ⟨fun l u hl => ?_, fun u v p hu => ?_⟩
  · rcases hname l u hl with hold | hnew
    · exact (prio_mono hs (h.named l u hold)).1
    · exact hnew
  · obtain ⟨hle, hfresh⟩ := h.seen u v p (hseen u _ hu)
    obtain ⟨hfresh', hmono⟩ := prio_mono hs hfresh
    exact ⟨Nat.le_trans hle hmono, hfresh'⟩

/-- `t` goes to `c`, where it has seen nothing, or the same as before. -/
theorem seen_update {ctl : Tid → Ctl (MPc L C Pc)} {c : Ctl (MPc L C Pc)}
    (h : c.seen = none ∨ c.seen = (ctl t).seen) (u : Tid) (x : Tid × Nat)
    (hu : (Function.update ctl t c u).seen = some x) : (ctl u).seen = some x := by
  by_cases hut : u = t
  · subst hut
    rw [Function.update_self] at hu
    rcases h with hnone | hsame
    · rw [hnone] at hu
      nomatch hu
    · exact hsame ▸ hu
  · rw [Function.update_of_ne hut] at hu
    exact hu

theorem Call.seen_entry {call : Call L C U Sh Pc} {pc : MPc L C Pc} (h : call.entry = some pc) :
    (Ctl.atPc pc).seen = none := by
  cases Call.enters_of_entry h <;> rfl

/-- Step lemma: only the donation step sees anything, and it raises what it sees. -/
theorem DonationOk.step {lab : Label I} (h : DonationOk s) (hs : MStep cl s lab s') :
    DonationOk s' := by
  cases id hs with
  | block hv | intrV hh | intr hh => exact h.keep hs (fun _ _ => Or.inl) fun _ _ => id
  | call hpc hentry =>
    exact h.keep hs (fun _ _ => Or.inl) (seen_update (Or.inl (Call.seen_entry hentry)))
  | @fork t pc f a hpc hcall hf hfresh =>
    refine h.keep hs (fun _ _ => Or.inl) fun u x hu => ?_
    exact seen_update (Or.inl rfl) u x (seen_update (Or.inl rfl) u x hu)
  | finish hpc hcall => exact h.keep hs (fun _ _ => Or.inl) (seen_update (Or.inl rfl))
  | @semInvV t l k seen hpc =>
    exact h.keep hs (fun _ _ => Or.inl) (seen_update (Or.inr (congrArg Ctl.seen hpc).symm))
  | @own t l k hpc =>
    refine h.keep hs (fun l' u hl => ?_) (seen_update (Or.inl rfl))
    replace hl : Function.update s.sh.thname l (some t) l' = some u := hl
    by_cases hll : l' = l
    · subst hll
      rw [Function.update_self] at hl
      obtain rfl : t = u := Option.some.inj hl
      refine Or.inr ?_
      rw [State.goto_ctl, Function.update_self]
      nofun
    · rw [Function.update_of_ne hll] at hl
      exact Or.inl hl
  | @drop t l r hpc hheld =>
    refine h.keep hs (fun l' u hl => ?_) (seen_update (Or.inl rfl))
    replace hl : Function.update s.sh.thname l none l' = some u := hl
    by_cases hll : l' = l
    · subst hll
      rw [Function.update_self] at hl
      nomatch hl
    · rw [Function.update_of_ne hll] at hl
      exact Or.inl hl
  | @donate t l k hpc =>
    refine ⟨fun l' u hl => (prio_mono hs (h.named l' u hl)).1, fun u v p hu => ?_⟩
    by_cases hut : u = t
    · -- the donation step: `v` is in `thname`, and now has at least the priority of `t`
      subst hut
      have hnow : (Function.update s.ctl u (.atPc (Client.donation l u k s.prio s.sh).next) u).seen
          = some (v, p) := hu
      rw [Function.update_self] at hnow
      cases hn : s.sh.thname l with
      | none =>
        simp only [Client.donation, hn] at hnow
        nomatch hnow
      | some thname =>
        simp only [Client.donation, hn] at hnow
        obtain ⟨rfl, rfl⟩ : thname = v ∧ s.prio u = p := Prod.mk.inj (Option.some.inj hnow)
        refine ⟨?_, (prio_mono hs (h.named l _ hn)).1⟩
        show s.prio u ≤ s.raised (Client.donation l u k s.prio s.sh).raise thname
        simp only [Client.donation, hn]
        split
        · show s.prio u ≤ Function.update s.prio thname (s.prio u) thname
          have hnew : Function.update s.prio thname (s.prio u) thname = s.prio u :=
            Function.update_self thname (s.prio u) s.prio
          exact Nat.le_of_eq hnew.symm
        · rename_i hlt
          exact Nat.le_of_not_lt hlt
    · replace hu : (Function.update s.ctl t _ u).seen = some (v, p) := hu
      rw [Function.update_of_ne hut] at hu
      obtain ⟨hle, hfresh⟩ := h.seen u v p hu
      obtain ⟨hfresh', hmono⟩ := prio_mono hs hfresh
      exact ⟨Nat.le_trans hle hmono, hfresh'⟩
  | _ => exact h.keep hs (fun _ _ => Or.inl) (seen_update (Or.inl rfl))

/-- Run lemma. -/
theorem donationOk_of_reach (h : (machine cl.prog).Reach s) : DonationOk s :=
  h.invariant (I := DonationOk) (fun _ hi => DonationOk.boot hi)
    fun _ _ _ _ hk hs => hk.step (mstep_of_stepFn hs)

end Step

/-! ## What donation guarantees, and what it does not -/

/-- **What donation guarantees.**  In every run: if thread `w` is past the donation step of `Acquire`
    and has not completed `sem->P()`, and if `h` was in `thname` and `p` was the priority of `w` when it
    made that step, then `h` has at least priority `p`, whoever holds the lock now.  So as long as the
    priority of `w` has not been raised since, `h` is not behind `w`. -/
theorem donation_bounds {cl : Client L C U I Sh Pc} {s : cl.St} (hr : (machine cl.prog).Reach s)
    {w h : Tid} {p : Nat} (hseen : (s.ctl w).seen = some (h, p)) :
    p ≤ s.prio h ∧ (s.prio w = p → s.prio w ≤ s.prio h) := by
  have hle := ((donationOk_of_reach hr).seen w h p hseen).1
  exact ⟨hle, fun heq => heq ▸ hle⟩

/-- A program that `main` begins, alone and at priority 0. -/
def mainClient (call : Nat → Call L Empty Empty Unit Nat) : Client L Empty Empty Empty Unit Nat where
  lockOf := nofun
  initial := nofun
  boot _ ctl prio := ctl = (fun t => if t = 0 then .atPc 0 else .fresh) ∧ prio = fun _ => 0
  call _ pc := call pc
  handler := nofun

/-- The kernel as such a program is booted. -/
def mainInit : Kernel (MSem L Empty) (MSh L Empty Unit) (MPc L Empty Nat) where
  m := {
    sem _ := Semaphore.new 1
    log _ := SemLog.new 1
    ctl t := if t = 0 then .atPc (.ret (.client 0)) else .fresh
    prio _ := 0
    sh := .new () }
  currentThread := 0
  readyListP := ReadyLists.empty
  status t := if t = 0 then .running else .justCreated
  threadToBeDestroyed := none
  started t := decide (t = 0)
  deleted := []

theorem mainInit_reach (call : Nat → Call L Empty Empty Unit Nat) :
    (kernel (mainClient call).prog).Reach mainInit := by
  refine .init ⟨⟨fun x => ?_, fun x => ?_, rfl, fun t => if t = 0 then .atPc 0 else .fresh,
    ⟨rfl, rfl⟩, ?_⟩, ⟨_, rfl⟩, fun _ ht => if_neg ht, rfl, rfl, rfl, rfl, rfl, rfl⟩
  · cases x with
    | user u => exact u.elim
    | _ => rfl
  · cases x with
    | user u => exact u.elim
    | _ => rfl
  · funext t
    by_cases ht : t = 0
    · simp [mainInit, ht, Ctl.compile, Ctl.map]
    · simp [mainInit, ht, Ctl.compile, Ctl.map]

/-- `main` takes the lock, forks thread 1 at priority 0 and lets it run, forks thread 2 at priority 2
    and lets it run, releases the lock and ends.  Threads 1 and 2 take the lock. -/
def relayClient : Client Unit Empty Empty Empty Unit Nat :=
  mainClient fun pc =>
    match pc with
    | 0 => .acquire () 1
    | 1 => .fork fun sh => some ⟨1, 7, 0, sh, 2⟩
    | 2 => .yield 3
    | 3 => .fork fun sh => some ⟨2, 7, 2, sh, 4⟩
    | 4 => .yield 5
    | 5 => .release () 6
    | 7 => .acquire () 5
    | _ => .finish id

/-- The kernel running `relayClient` after the steps of `ls`. -/
def relayRun (ls : List (KLabel Empty)) : Kernel (MSem Unit Empty) (MSh Unit Empty Unit) (MPc Unit Empty Nat) :=
  Lts.replay (kstepFn relayClient.prog) mainInit ls

theorem relayRun_reach (ls : List (KLabel Empty)) : (kernel relayClient.prog).Reach (relayRun ls) :=
  Lts.reach_replay kernel_step (mainInit_reach _) ls

/-- `main` and thread 1 up to the `sem->P()` of thread 1, then `main` and thread 2 up to that of
    thread 2, which has donated its priority to `main`. -/
def relayWaiting : List (KLabel Empty) :=
  List.replicate 15 .run ++ [.dispatch] ++ List.replicate 8 .run

/-- `main` releases the lock and ends, and thread 1 acquires the lock. -/
def relayHandover : List (KLabel Empty) :=
  relayWaiting ++ [.dispatch] ++ List.replicate 4 .run ++ [.dispatch] ++ List.replicate 2 .run

/-- Thread 2 waits for `main`, and `main` has been raised to its priority. -/
theorem donation_bounds_relay :
    ((relayRun relayWaiting).m.ctl 2).seen = some (0, 2) ∧ 2 ≤ (relayRun relayWaiting).m.prio 0 :=
  ⟨rfl, (donation_bounds (kernel_refines (relayRun_reach relayWaiting)) (w := 2) rfl).1⟩

/-- After the hand-over thread 1, of priority 0, holds the lock, and thread 2, of priority 2, is
    asleep on it. -/
theorem inversion_after_handover :
    ¬ ∀ k, (kernel relayClient.prog).Reach k → ∀ h w l, k.m.sh.thname l = some h →
        w ∈ (k.m.sem (.lock l)).queue → k.m.prio w ≤ k.m.prio h := by
  intro hall
  have hle := hall _ (relayRun_reach relayHandover) 1 2 () rfl (by decide)
  exact absurd hle (by decide)

/-- Two locks: `main` takes lock `false`; thread 1 takes lock `true` and waits for `main`; thread 2, of
    priority 2, waits for thread 1. -/
def chainClient : Client Bool Empty Empty Empty Unit Nat :=
  mainClient fun pc =>
    match pc with
    | 0 => .acquire false 1
    | 1 => .fork fun sh => some ⟨1, 5, 0, sh, 2⟩
    | 2 => .yield 3
    | 3 => .fork fun sh => some ⟨2, 7, 2, sh, 4⟩
    | 4 => .yield 8
    | 5 => .acquire true 6
    | 6 => .acquire false 8
    | 7 => .acquire true 8
    | _ => .finish id

/-- A thread that waits may be raised through a lock it holds, and nobody passes that on: `main` holds lock `false`
    and has been seen, but thread 1, asleep on it, has priority 2 by now. -/
theorem inversion_after_raise :
    ¬ ∀ k, (kernel chainClient.prog).Reach k → ∀ h w p l, k.m.sh.thname l = some h →
        w ∈ (k.m.sem (.lock l)).queue → (k.m.ctl w).seen = some (h, p) → k.m.prio w ≤ k.m.prio h := by
  intro hall
  have hle := hall _ (Lts.reach_replay kernel_step (mainInit_reach _)
    (List.replicate 22 .run ++ [.dispatch] ++ List.replicate 9 .run)) 0 1 0 false rfl (by decide) rfl
  exact absurd hle (by decide)

end Nachos
