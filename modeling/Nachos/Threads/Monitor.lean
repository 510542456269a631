/-
  `threads/synch.cc` — locks and condition variables, as programs for the interleaving machine.

  A CLIENT is any multi-threaded program that calls `Lock::Acquire`, `Lock::Release`,
  `Condition::Wait`, `Signal` and `Broadcast`, and semaphores of its own.  `Client.prog` compiles it to
  the machine: each call is replaced by the code of `synch.cc`, one program point per atomic action.

  * `Acquire` tests `thname`, does `semInvP->P()`, donates its priority, does `semInvP->V()`, does
    `sem->P()`, and last writes `thname`, which nothing protects.
  * `Release` checks `thname` and blanks it, then does `sem->V()`.
  * `Wait` builds a semaphore WITH VALUE 1, appends it to `semList`, and does `lock->Release()`,
    `sem->P()`, `lock->Acquire()`.
  * `Signal` takes the first semaphore off `semList` and does `V` on it; `Broadcast` repeats that until
    the list is empty.

  The semaphores built by `Wait` are numbered in the order they are built.

  Four fields of the shared state are history, for stating what a run did: who has completed
  `sem->P()` and not `sem->V()` (`holders`), who has returned from `Acquire` and not entered `Release`
  (`acquired`), which semaphores of `Wait` have been passed (`passed`) and which were taken off
  `semList` (`removed`).  No test of the program reads them.

  This module has the compilation and `MStep`, which says once what a step can do.
-/
import Nachos.Threads.Machine

set_option linter.unusedSectionVars false

namespace Nachos

/-! ## Clients -/

/-- The semaphores: the client's own, `Lock::sem` and `Lock::semInvP` of every lock, and the ones
    that `Condition::Wait` builds. -/
inductive MSem (L U : Type) where
  | user (u : U)
  | lock (l : L)
  | invP (l : L)
  | wait (n : Nat)
  deriving DecidableEq

/-- What a client does next; `k` is where it goes on when the call returns. -/
inductive Call (L C U Sh Pc : Type) where
  | acquire (l : L) (k : Pc)
  | release (l : L) (k : Pc)
  | wait (c : C) (k : Pc)
  | signal (c : C) (k : Pc)
  | broadcast (c : C) (k : Pc)
  | P (u : U) (upd : Sh → Sh) (k : Pc)
  | V (u : U) (upd : Sh → Sh) (k : Pc)
  | tau (f : Sh → Option (Sh × Pc))
  | fork (f : Sh → Option (Forking Sh Pc))
  | yield (k : Pc)
  | finish (upd : Sh → Sh)

/-- A client: the lock every condition was built with, its semaphores, the states it may be booted
    in, its code and its interrupt handlers. -/
structure Client (L C U I Sh Pc : Type) where
  lockOf : C → L
  initial : U → Int
  boot : Sh → (Tid → Ctl Pc) → (Tid → Nat) → Prop
  call : Tid → Pc → Call L C U Sh Pc
  handler : I → Sh → Option (Option U × Sh)

/-! ## Program points and shared data -/

/-- Where a call returns to: the client, the `sem->P()` of `Wait`, or the loop of `Broadcast`. -/
inductive Ret (C Pc : Type) where
  | client (pc : Pc)
  | waitP (c : C) (sem : Nat) (k : Pc)
  | broadcast (c : C) (k : Pc)

/-- The points of `Lock::Acquire`.  After the donation step, `seen` is what it saw: the thread in
    `thname`, if any, and the priority `pcurrent` of the acquiring thread. -/
inductive AcquirePc where
  | test
  | semInvP
  | donate
  | semInvV (seen : Option (Tid × Nat))
  | semP (seen : Option (Tid × Nat))
  | setThname

/-- The points of `Lock::Release`. -/
inductive ReleasePc where
  | test
  | semV

/-- The program points of a compiled client. -/
inductive MPc (L C Pc : Type) where
  | ret (r : Ret C Pc)
  | acquire (l : L) (pt : AcquirePc) (k : Pc)
  | release (l : L) (pt : ReleasePc) (r : Ret C Pc)
  | wait (c : C) (k : Pc)
  | signal (c : C) (r : Ret C Pc)
  | signalV (sem : Nat) (r : Ret C Pc)
  | broadcast (c : C) (k : Pc)

/-- The data the threads share: `Lock::thname`, `Condition::semList`, the number of semaphores built
    by `Wait`, and the client's own data; then the history. -/
structure MSh (L C Sh : Type) where
  thname : L → Option Tid
  semList : C → List Nat
  nextSem : Nat
  client : Sh
  holders : L → List Tid
  acquired : L → List Tid
  passed : C → List Nat
  removed : C → List Nat

/-- Every lock and condition as its constructor leaves it. -/
def MSh.new {L C Sh : Type} (client : Sh) : MSh L C Sh where
  thname _ := none
  semList _ := []
  nextSem := 0
  client := client
  holders _ := []
  acquired _ := []
  passed _ := []
  removed _ := []

/-- A client's control state, compiled. -/
def Ctl.compile {L C Pc : Type} (c : Ctl Pc) : Ctl (MPc L C Pc) := c.map fun pc => .ret (.client pc)

namespace MSh

variable {L C Sh : Type} [DecidableEq L] [DecidableEq C]

/-- `lock->isHeldByCurrentThread()`. -/
def isHeldBy (sh : MSh L C Sh) (l : L) (currentThread : Tid) : Prop :=
  sh.thname l = some currentThread

instance (sh : MSh L C Sh) (l : L) (t : Tid) : Decidable (sh.isHeldBy l t) :=
  inferInstanceAs (Decidable (sh.thname l = some t))

/-- `Acquire` has completed `sem->P()`. -/
def took (sh : MSh L C Sh) (l : L) (t : Tid) : MSh L C Sh :=
  { sh with holders := Function.update sh.holders l (sh.holders l ++ [t]) }

/-- `Acquire` returns to `t`, whose lock it was all along. -/
def reacquired (sh : MSh L C Sh) (l : L) (t : Tid) : MSh L C Sh :=
  { sh with acquired := Function.update sh.acquired l (sh.acquired l ++ [t]) }

/-- `thname = currentThread`, and `Acquire` returns. -/
def owned (sh : MSh L C Sh) (l : L) (t : Tid) : MSh L C Sh :=
  { sh with
    thname := Function.update sh.thname l (some t)
    acquired := Function.update sh.acquired l (sh.acquired l ++ [t]) }

/-- `thname = NULL`, in `Release`. -/
def dropped (sh : MSh L C Sh) (l : L) (t : Tid) : MSh L C Sh :=
  { sh with
    thname := Function.update sh.thname l none
    acquired := Function.update sh.acquired l ((sh.acquired l).erase t) }

/-- `Release` has completed `sem->V()`. -/
def gave (sh : MSh L C Sh) (l : L) (t : Tid) : MSh L C Sh :=
  { sh with holders := Function.update sh.holders l ((sh.holders l).erase t) }

/-- `semList->Append(new Semaphore(name, 1))`. -/
def appended (sh : MSh L C Sh) (c : C) : MSh L C Sh :=
  { sh with
    semList := Function.update sh.semList c (sh.semList c ++ [sh.nextSem])
    nextSem := sh.nextSem + 1 }

/-- `Wait` has completed `sem->P()`. -/
def passedP (sh : MSh L C Sh) (c : C) (sem : Nat) : MSh L C Sh :=
  { sh with passed := Function.update sh.passed c (sh.passed c ++ [sem]) }

/-- `sem = semList->Remove()`, `rest` being what is left. -/
def removedHead (sh : MSh L C Sh) (c : C) (sem : Nat) (rest : List Nat) : MSh L C Sh :=
  { sh with
    semList := Function.update sh.semList c rest
    removed := Function.update sh.removed c (sh.removed c ++ [sem]) }

/-- The client's own data changes. -/
def withClient (sh : MSh L C Sh) (client : Sh) : MSh L C Sh := { sh with client := client }

end MSh

variable {L C U I Sh Pc : Type} [DecidableEq L] [DecidableEq C] [DecidableEq U]

/-- Where a call of `Lock` or `Condition` begins; the other calls are single actions. -/
def Call.entry : Call L C U Sh Pc → Option (MPc L C Pc)
  | .acquire l k => some (.acquire l .test k)
  | .release l k => some (.release l .test (.client k))
  | .wait c k => some (.wait c k)
  | .signal c k => some (.signal c (.client k))
  | .broadcast c k => some (.broadcast c k)
  | _ => none

/-- `entry`, as a relation: the calls that begin somewhere, by name. -/
inductive Call.Enters : Call L C U Sh Pc → MPc L C Pc → Prop where
  | acquire (l : L) (k : Pc) : Enters (.acquire l k) (.acquire l .test k)
  | release (l : L) (k : Pc) : Enters (.release l k) (.release l .test (.client k))
  | wait (c : C) (k : Pc) : Enters (.wait c k) (.wait c k)
  | signal (c : C) (k : Pc) : Enters (.signal c k) (.signal c (.client k))
  | broadcast (c : C) (k : Pc) : Enters (.broadcast c k) (.broadcast c k)

theorem Call.enters_of_entry {call : Call L C U Sh Pc} {pc : MPc L C Pc} (h : call.entry = some pc) :
    call.Enters pc := by
  cases call <;> simp only [Call.entry, Option.some.injEq, reduceCtorEq] at h <;>
    (subst h; constructor)

/-! ## The code of `synch.cc` -/

namespace Client

/-- The donation step of `Acquire`, made by `currentThread` on lock `l`. -/
def donation (l : L) (currentThread : Tid) (k : Pc) (getPriority : Tid → Nat) (sh : MSh L C Sh) :
    Donation (MSh L C Sh) (MPc L C Pc) :=
  match sh.thname l with
  | none => ⟨none, sh, .acquire l (.semInvV none) k⟩
  | some thname =>
    let prioritymax := getPriority thname
    let pcurrent := getPriority currentThread
    ⟨if prioritymax < pcurrent then some (thname, pcurrent) else none, sh,
      .acquire l (.semInvV (some (thname, pcurrent))) k⟩

/-- The action of thread `t` at a program point. -/
def code (cl : Client L C U I Sh Pc) (t : Tid) :
    MPc L C Pc → Instr (MSem L U) (MSh L C Sh) (MPc L C Pc)
  | .ret (.client pc) =>
    match cl.call t pc with
    | .P u upd k => .P (.user u) (fun sh => sh.withClient (upd sh.client)) (.ret (.client k))
    | .V u upd k => .V (.user u) (fun sh => sh.withClient (upd sh.client)) (.ret (.client k))
    | .tau f => .tau fun sh => (f sh.client).map fun r => (sh.withClient r.1, .ret (.client r.2))
    | .fork f => .fork fun sh => (f sh.client).map fun a =>
        ⟨a.child, .ret (.client a.start), a.priority, sh.withClient a.sh, .ret (.client a.next)⟩
    | .yield k => .yield (.ret (.client k))
    | .finish upd => .finish fun sh => sh.withClient (upd sh.client)
    | call => .tau fun sh => call.entry.map fun pc' => (sh, pc')
  -- Lock::Acquire
  | .acquire l .test k => .tau fun sh =>
      if sh.isHeldBy l t then some (sh.reacquired l t, .ret (.client k))
      else some (sh, .acquire l .semInvP k)
  | .acquire l .semInvP k => .P (.invP l) id (.acquire l .donate k)
  | .acquire l .donate k => .donate (donation l t k)
  | .acquire l (.semInvV seen) k => .V (.invP l) id (.acquire l (.semP seen) k)
  | .acquire l (.semP _) k => .P (.lock l) (fun sh => sh.took l t) (.acquire l .setThname k)
  | .acquire l .setThname k => .tau fun sh => some (sh.owned l t, .ret (.client k))
  -- Lock::Release
  | .release l .test r => .tau fun sh =>
      if sh.isHeldBy l t then some (sh.dropped l t, .release l .semV r) else none
  | .release l .semV r => .V (.lock l) (fun sh => sh.gave l t) (.ret r)
  -- Condition::Wait
  | .wait c k => .tau fun sh =>
      if sh.isHeldBy (cl.lockOf c) t then
        some (sh.appended c, .release (cl.lockOf c) .test (.waitP c sh.nextSem k))
      else none
  | .ret (.waitP c sem k) =>
    .P (.wait sem) (fun sh => sh.passedP c sem) (.acquire (cl.lockOf c) .test k)
  -- Condition::Signal
  | .signal c r => .tau fun sh =>
      if sh.isHeldBy (cl.lockOf c) t then
        match sh.semList c with
        | [] => some (sh, .ret r)
        | sem :: rest => some (sh.removedHead c sem rest, .signalV sem r)
      else none
  | .signalV sem r => .V (.wait sem) id (.ret r)
  -- Condition::Broadcast
  | .broadcast c k => .tau fun sh =>
      if sh.isHeldBy (cl.lockOf c) t then some (sh, .ret (.broadcast c k)) else none
  | .ret (.broadcast c k) => .tau fun sh =>
      if (sh.semList c).isEmpty then some (sh, .ret (.client k))
      else some (sh, .signal c (.broadcast c k))

/-- The compiled client.  `sem` and `semInvP` of a lock are built with value 1, and so is the
    semaphore of every `Wait`. -/
def prog (cl : Client L C U I Sh Pc) : Prog (MSem L U) I (MSh L C Sh) (MPc L C Pc) where
  initial
    | .user u => cl.initial u
    | .lock _ => 1
    | .invP _ => 1
    | .wait _ => 1
  boot sh ctl prio :=
    sh = .new sh.client ∧ ∃ ctl₀, cl.boot sh.client ctl₀ prio ∧ ctl = fun t => (ctl₀ t).compile
  code := cl.code
  handler i sh := (cl.handler i sh.client).map fun r => (r.1.map .user, sh.withClient r.2)

/-- The states of a compiled client. -/
abbrev St (_ : Client L C U I Sh Pc) : Type := State (MSem L U) (MSh L C Sh) (MPc L C Pc)

end Client

/-! ## What a step can do -/

/-- The steps of a compiled client, by what they do. -/
inductive MStep (cl : Client L C U I Sh Pc) (s : cl.St) : Label I → cl.St → Prop where
  /-- A thread goes to sleep on a semaphore. -/
  | block {t : Tid} {x : MSem L U} (hv : (s.sem x).value = 0) : MStep cl s (.run t) (s.semP t x)
  /-- A call begins. -/
  | call {t : Tid} {pc : Pc} {pc' : MPc L C Pc} (hpc : s.ctl t = .atPc (.ret (.client pc)))
      (hentry : (cl.call t pc).entry = some pc') : MStep cl s (.run t) (s.goto t s.sh pc')
  | userP {t : Tid} {pc k : Pc} {u : U} {upd : Sh → Sh}
      (hpc : s.ctl t = .atPc (.ret (.client pc))) (hcall : cl.call t pc = .P u upd k) :
      MStep cl s (.run t)
        ((s.semP t (.user u)).goto t (s.sh.withClient (upd s.sh.client)) (.ret (.client k)))
  | userV {t : Tid} {pc k : Pc} {u : U} {upd : Sh → Sh}
      (hpc : s.ctl t = .atPc (.ret (.client pc))) (hcall : cl.call t pc = .V u upd k) :
      MStep cl s (.run t)
        ((s.semV (.user u)).goto t (s.sh.withClient (upd s.sh.client)) (.ret (.client k)))
  | tau {t : Tid} {pc k : Pc} {f : Sh → Option (Sh × Pc)} {d : Sh}
      (hpc : s.ctl t = .atPc (.ret (.client pc))) (hcall : cl.call t pc = .tau f)
      (hf : f s.sh.client = some (d, k)) :
      MStep cl s (.run t) (s.goto t (s.sh.withClient d) (.ret (.client k)))
  | fork {t : Tid} {pc : Pc} {f : Sh → Option (Forking Sh Pc)} {a : Forking Sh Pc}
      (hpc : s.ctl t = .atPc (.ret (.client pc))) (hcall : cl.call t pc = .fork f)
      (hf : f s.sh.client = some a) (hfresh : s.ctl a.child = .fresh) :
      MStep cl s (.run t) { s with
        ctl := Function.update (Function.update s.ctl a.child (.atPc (.ret (.client a.start)))) t
          (.atPc (.ret (.client a.next)))
        prio := Function.update s.prio a.child a.priority
        sh := s.sh.withClient a.sh }
  | yield {t : Tid} {pc k : Pc} (hpc : s.ctl t = .atPc (.ret (.client pc)))
      (hcall : cl.call t pc = .yield k) :
      MStep cl s (.run t) (s.goto t s.sh (.ret (.client k)))
  | finish {t : Tid} {pc : Pc} {upd : Sh → Sh} (hpc : s.ctl t = .atPc (.ret (.client pc)))
      (hcall : cl.call t pc = .finish upd) :
      MStep cl s (.run t) { s with
        ctl := Function.update s.ctl t .finished
        sh := s.sh.withClient (upd s.sh.client) }
  | reacquire {t : Tid} {l : L} {k : Pc} (hpc : s.ctl t = .atPc (.acquire l .test k))
      (hheld : s.sh.thname l = some t) :
      MStep cl s (.run t) (s.goto t (s.sh.reacquired l t) (.ret (.client k)))
  | enter {t : Tid} {l : L} {k : Pc} (hpc : s.ctl t = .atPc (.acquire l .test k))
      (hheld : s.sh.thname l ≠ some t) :
      MStep cl s (.run t) (s.goto t s.sh (.acquire l .semInvP k))
  | semInvP {t : Tid} {l : L} {k : Pc} (hpc : s.ctl t = .atPc (.acquire l .semInvP k)) :
      MStep cl s (.run t) ((s.semP t (.invP l)).goto t s.sh (.acquire l .donate k))
  | donate {t : Tid} {l : L} {k : Pc} (hpc : s.ctl t = .atPc (.acquire l .donate k)) :
      MStep cl s (.run t)
        { (s.goto t s.sh (Client.donation l t k s.prio s.sh).next) with
          prio := s.raised (Client.donation l t k s.prio s.sh).raise }
  | semInvV {t : Tid} {l : L} {k : Pc} {seen : Option (Tid × Nat)}
      (hpc : s.ctl t = .atPc (.acquire l (.semInvV seen) k)) :
      MStep cl s (.run t) ((s.semV (.invP l)).goto t s.sh (.acquire l (.semP seen) k))
  | take {t : Tid} {l : L} {k : Pc} {seen : Option (Tid × Nat)}
      (hpc : s.ctl t = .atPc (.acquire l (.semP seen) k)) (hv : (s.sem (.lock l)).value ≠ 0) :
      MStep cl s (.run t)
        ((s.semP t (.lock l)).goto t (s.sh.took l t) (.acquire l .setThname k))
  | own {t : Tid} {l : L} {k : Pc} (hpc : s.ctl t = .atPc (.acquire l .setThname k)) :
      MStep cl s (.run t) (s.goto t (s.sh.owned l t) (.ret (.client k)))
  | drop {t : Tid} {l : L} {r : Ret C Pc} (hpc : s.ctl t = .atPc (.release l .test r))
      (hheld : s.sh.thname l = some t) :
      MStep cl s (.run t) (s.goto t (s.sh.dropped l t) (.release l .semV r))
  | give {t : Tid} {l : L} {r : Ret C Pc} (hpc : s.ctl t = .atPc (.release l .semV r)) :
      MStep cl s (.run t) ((s.semV (.lock l)).goto t (s.sh.gave l t) (.ret r))
  | wait {t : Tid} {c : C} {k : Pc} (hpc : s.ctl t = .atPc (.wait c k))
      (hheld : s.sh.thname (cl.lockOf c) = some t) :
      MStep cl s (.run t)
        (s.goto t (s.sh.appended c) (.release (cl.lockOf c) .test (.waitP c s.sh.nextSem k)))
  | waitP {t : Tid} {c : C} {sem : Nat} {k : Pc} (hpc : s.ctl t = .atPc (.ret (.waitP c sem k)))
      (hv : (s.sem (.wait sem)).value ≠ 0) :
      MStep cl s (.run t)
        ((s.semP t (.wait sem)).goto t (s.sh.passedP c sem) (.acquire (cl.lockOf c) .test k))
  | signalNone {t : Tid} {c : C} {r : Ret C Pc} (hpc : s.ctl t = .atPc (.signal c r))
      (hheld : s.sh.thname (cl.lockOf c) = some t) (hlist : s.sh.semList c = []) :
      MStep cl s (.run t) (s.goto t s.sh (.ret r))
  | signal {t : Tid} {c : C} {r : Ret C Pc} {sem : Nat} {rest : List Nat}
      (hpc : s.ctl t = .atPc (.signal c r)) (hheld : s.sh.thname (cl.lockOf c) = some t)
      (hlist : s.sh.semList c = sem :: rest) :
      MStep cl s (.run t) (s.goto t (s.sh.removedHead c sem rest) (.signalV sem r))
  | signalV {t : Tid} {sem : Nat} {r : Ret C Pc} (hpc : s.ctl t = .atPc (.signalV sem r)) :
      MStep cl s (.run t) ((s.semV (.wait sem)).goto t s.sh (.ret r))
  | broadcast {t : Tid} {c : C} {k : Pc} (hpc : s.ctl t = .atPc (.broadcast c k))
      (hheld : s.sh.thname (cl.lockOf c) = some t) :
      MStep cl s (.run t) (s.goto t s.sh (.ret (.broadcast c k)))
  | broadcastEnd {t : Tid} {c : C} {k : Pc} (hpc : s.ctl t = .atPc (.ret (.broadcast c k)))
      (hlist : s.sh.semList c = []) : MStep cl s (.run t) (s.goto t s.sh (.ret (.client k)))
  | broadcastNext {t : Tid} {c : C} {k : Pc} (hpc : s.ctl t = .atPc (.ret (.broadcast c k)))
      (hlist : s.sh.semList c ≠ []) :
      MStep cl s (.run t) (s.goto t s.sh (.signal c (.broadcast c k)))
  | intrV {i : I} {u : U} {d : Sh} (hh : cl.handler i s.sh.client = some (some u, d)) :
      MStep cl s (.intr i) { s.semV (.user u) with sh := s.sh.withClient d }
  | intr {i : I} {d : Sh} (hh : cl.handler i s.sh.client = some (none, d)) :
      MStep cl s (.intr i) { s with sh := s.sh.withClient d }

/-- A completed `P` or a thread put to sleep. -/
theorem exec_P {S Sh' Pc' : Type} [DecidableEq S] {s s' : State S Sh' Pc'} {t : Tid} {x : S}
    {upd : Sh' → Sh'} {next : Pc'} (h : exec s t (.P x upd next) = some s') :
    ((s.sem x).value = 0 ∧ s' = s.semP t x) ∨
    ((s.sem x).value ≠ 0 ∧ s' = (s.semP t x).goto t (upd s.sh) next) := by
  simp only [exec] at h
  split at h
  · cases h
  · split at h
    · exact Or.inl ⟨by assumption, (Option.some.inj h).symm⟩
    · exact Or.inr ⟨by assumption, (Option.some.inj h).symm⟩

theorem exec_tau {S Sh' Pc' : Type} [DecidableEq S] {s s' : State S Sh' Pc'} {t : Tid}
    {f : Sh' → Option (Sh' × Pc')} (h : exec s t (.tau f) = some s') :
    ∃ sh' next, f s.sh = some (sh', next) ∧ s' = s.goto t sh' next := by
  simp only [exec, Option.map_eq_some_iff] at h
  obtain ⟨⟨sh', next⟩, hf, rfl⟩ := h
  exact ⟨sh', next, hf, rfl⟩

/-- The client's own actions. -/
theorem mstep_client {cl : Client L C U I Sh Pc} {s s' : cl.St} {t : Tid} {pc : Pc}
    (hpc : s.ctl t = .atPc (.ret (.client pc)))
    (h : exec s t (cl.code t (.ret (.client pc))) = some s') : MStep cl s (.run t) s' := by
  -- the calls of `Lock` and `Condition` only go to their first program point
  have hcalls : ∀ pc', (cl.call t pc).entry = some pc' →
      cl.code t (.ret (.client pc)) = .tau (fun sh => some (sh, pc')) → MStep cl s (.run t) s' := by
    intro pc' hentry hcode
    rw [hcode] at h
    obtain ⟨sh', next, hf, rfl⟩ := exec_tau h
    obtain ⟨rfl, rfl⟩ := Prod.mk.inj (Option.some.inj hf)
    exact .call hpc hentry
  cases hcall : cl.call t pc with
  | acquire l k | release l k | wait c k | signal c k | broadcast c k =>
    exact hcalls _ (by rw [hcall]; rfl) (by simp only [Client.code, hcall]; rfl)
  | P u upd k =>
    simp only [Client.code, hcall] at h
    rcases exec_P h with ⟨hv, rfl⟩ | ⟨hv, rfl⟩
    · exact .block hv
    · exact .userP hpc hcall
  | V u upd k =>
    simp only [Client.code, hcall] at h
    obtain rfl := Option.some.inj h
    exact .userV hpc hcall
  | tau f =>
    simp only [Client.code, hcall] at h
    obtain ⟨sh', next, hf, rfl⟩ := exec_tau h
    obtain ⟨⟨d, k⟩, hd, heq⟩ := Option.map_eq_some_iff.mp hf
    obtain ⟨rfl, rfl⟩ := Prod.mk.inj heq
    exact .tau hpc hcall hd
  | fork f =>
    simp only [Client.code, hcall, exec] at h
    cases hf : f s.sh.client with
    | none =>
      simp only [hf, Option.map_none] at h
      cases h
    | some a =>
      simp only [hf, Option.map_some] at h
      split at h
      · rename_i hfresh
        obtain rfl := Option.some.inj h
        exact .fork hpc hcall hf (Ctl.isFresh_iff.mp hfresh)
      · cases h
  | yield k =>
    simp only [Client.code, hcall] at h
    obtain rfl := Option.some.inj h
    exact .yield hpc hcall
  | finish upd =>
    simp only [Client.code, hcall] at h
    obtain rfl := Option.some.inj h
    exact .finish hpc hcall

/-- The actions inside `Lock::Acquire`. -/
theorem mstep_acquire {cl : Client L C U I Sh Pc} {s s' : cl.St} {t : Tid} {l : L} {pt : AcquirePc}
    {k : Pc} (hpc : s.ctl t = .atPc (.acquire l pt k))
    (h : exec s t (cl.code t (.acquire l pt k)) = some s') : MStep cl s (.run t) s' := by
  cases pt with
  | test =>
    obtain ⟨sh', next, hf, rfl⟩ := exec_tau h
    split at hf
    · rename_i hheld
      obtain ⟨rfl, rfl⟩ := Prod.mk.inj (Option.some.inj hf)
      exact .reacquire hpc hheld
    · rename_i hheld
      obtain ⟨rfl, rfl⟩ := Prod.mk.inj (Option.some.inj hf)
      exact .enter hpc hheld
  | semInvP =>
    rcases exec_P h with ⟨hv, rfl⟩ | ⟨hv, rfl⟩
    · exact .block hv
    · exact .semInvP hpc
  | donate =>
    obtain rfl := Option.some.inj h
    have hsh : (Client.donation l t k s.prio s.sh).sh = s.sh := by
      unfold Client.donation
      split <;> rfl
    rw [hsh]
    exact .donate hpc
  | semInvV seen =>
    obtain rfl := Option.some.inj h
    exact .semInvV hpc
  | semP seen =>
    rcases exec_P h with ⟨hv, rfl⟩ | ⟨hv, rfl⟩
    · exact .block hv
    · exact .take hpc hv
  | setThname =>
    obtain ⟨sh', next, hf, rfl⟩ := exec_tau h
    obtain ⟨rfl, rfl⟩ := Prod.mk.inj (Option.some.inj hf)
    exact .own hpc

/-- **Inversion** for compiled clients: every step is one of `MStep`. -/
theorem mstep_of_stepFn {cl : Client L C U I Sh Pc} {s s' : cl.St} {lab : Label I}
    (h : stepFn cl.prog s lab = some s') : MStep cl s lab s' := by
  cases lab with
  | intr i =>
    simp only [stepFn, Client.prog] at h
    cases hh : cl.handler i s.sh.client with
    | none =>
      simp only [hh, Option.map_none] at h
      cases h
    | some r =>
      obtain ⟨o, d⟩ := r
      cases o with
      | none =>
        simp only [hh, Option.map_some, Option.map_none] at h
        obtain rfl := Option.some.inj h
        exact .intr hh
      | some u =>
        simp only [hh, Option.map_some] at h
        obtain rfl := Option.some.inj h
        exact .intrV hh
  | run t =>
    simp only [stepFn] at h
    cases hpc : s.ctl t with
    | fresh | finished => rw [hpc] at h; cases h
    | atPc pc =>
      rw [hpc] at h
      replace h : exec s t (cl.code t pc) = some s' := h
      cases pc with
      | acquire l pt k => exact mstep_acquire hpc h
      | ret r =>
        cases r with
        | client pc => exact mstep_client hpc h
        | waitP c sem k =>
          rcases exec_P h with ⟨hv, rfl⟩ | ⟨hv, rfl⟩
          · exact .block hv
          · exact .waitP hpc hv
        | broadcast c k =>
          obtain ⟨sh', next, hf, rfl⟩ := exec_tau h
          split at hf
          · rename_i hlist
            obtain ⟨rfl, rfl⟩ := Prod.mk.inj (Option.some.inj hf)
            exact .broadcastEnd hpc (List.isEmpty_iff.mp hlist)
          · rename_i hlist
            obtain ⟨rfl, rfl⟩ := Prod.mk.inj (Option.some.inj hf)
            exact .broadcastNext hpc fun hnil => hlist (List.isEmpty_iff.mpr hnil)
      | release l pt r =>
        cases pt with
        | test =>
          obtain ⟨sh', next, hf, rfl⟩ := exec_tau h
          split at hf
          · rename_i hheld
            obtain ⟨rfl, rfl⟩ := Prod.mk.inj (Option.some.inj hf)
            exact .drop hpc hheld
          · cases hf
        | semV =>
          obtain rfl := Option.some.inj h
          exact .give hpc
      | wait c k =>
        obtain ⟨sh', next, hf, rfl⟩ := exec_tau h
        split at hf
        · rename_i hheld
          obtain ⟨rfl, rfl⟩ := Prod.mk.inj (Option.some.inj hf)
          exact .wait hpc hheld
        · cases hf
      | signal c r =>
        obtain ⟨sh', next, hf, rfl⟩ := exec_tau h
        split at hf
        · rename_i hheld
          split at hf
          · rename_i hlist
            obtain ⟨rfl, rfl⟩ := Prod.mk.inj (Option.some.inj hf)
            exact .signalNone hpc hheld hlist
          · rename_i sem rest hlist
            obtain ⟨rfl, rfl⟩ := Prod.mk.inj (Option.some.inj hf)
            exact .signal hpc hheld hlist
        · cases hf
      | signalV sem r =>
        obtain rfl := Option.some.inj h
        exact .signalV hpc
      | broadcast c k =>
        obtain ⟨sh', next, hf, rfl⟩ := exec_tau h
        split at hf
        · rename_i hheld
          obtain ⟨rfl, rfl⟩ := Prod.mk.inj (Option.some.inj hf)
          exact .broadcast hpc hheld
        · cases hf

/-! ## The client's view

  For the client a call is one step: it is at the return point as soon as it has called.  What goes on
  inside the calls is silent, and `ClientStep` is what is left of `MStep`. -/

/-- The client's point that a call returns to in the end. -/
def Ret.clientPc : Ret C Pc → Pc
  | .client pc => pc
  | .waitP _ _ k => k
  | .broadcast _ k => k

def MPc.clientPc : MPc L C Pc → Pc
  | .ret r => r.clientPc
  | .acquire _ _ k => k
  | .release _ _ r => r.clientPc
  | .wait _ k => k
  | .signal _ r => r.clientPc
  | .signalV _ r => r.clientPc
  | .broadcast _ k => k

/-- The client's control state: `Ctl.compile` undone. -/
def Ctl.view (c : Ctl (MPc L C Pc)) : Ctl Pc := c.map MPc.clientPc

/-- Where a call of `Lock` or `Condition` returns to. -/
def Call.target : Call L C U Sh Pc → Option Pc
  | .acquire _ k => some k
  | .release _ k => some k
  | .wait _ k => some k
  | .signal _ k => some k
  | .broadcast _ k => some k
  | _ => none

/-- The client's points of all threads. -/
def Client.view (cl : Client L C U I Sh Pc) (s : cl.St) : Tid → Ctl Pc := fun t => (s.ctl t).view

/-- The steps the client sees. -/
inductive ClientStep (cl : Client L C U I Sh Pc) (s s' : cl.St) : Label I → Prop where
  | silent {lab : Label I} (hview : cl.view s' = cl.view s) (hsh : s'.sh.client = s.sh.client) :
      ClientStep cl s s' lab
  | call {t : Tid} {pc k : Pc} (hpc : s.ctl t = .atPc (.ret (.client pc)))
      (htarget : (cl.call t pc).target = some k)
      (hview : cl.view s' = Function.update (cl.view s) t (.atPc k))
      (hsh : s'.sh.client = s.sh.client) : ClientStep cl s s' (.run t)
  | tau {t : Tid} {pc k : Pc} {f : Sh → Option (Sh × Pc)} {d : Sh}
      (hpc : s.ctl t = .atPc (.ret (.client pc))) (hcall : cl.call t pc = .tau f)
      (hf : f s.sh.client = some (d, k))
      (hview : cl.view s' = Function.update (cl.view s) t (.atPc k)) (hsh : s'.sh.client = d) :
      ClientStep cl s s' (.run t)
  | user {t : Tid} {pc k : Pc} {u : U} {upd : Sh → Sh} (hpc : s.ctl t = .atPc (.ret (.client pc)))
      (hcall : cl.call t pc = .P u upd k ∨ cl.call t pc = .V u upd k)
      (hview : cl.view s' = Function.update (cl.view s) t (.atPc k))
      (hsh : s'.sh.client = upd s.sh.client) : ClientStep cl s s' (.run t)
  | fork {t : Tid} {pc : Pc} {f : Sh → Option (Forking Sh Pc)} {a : Forking Sh Pc}
      (hpc : s.ctl t = .atPc (.ret (.client pc))) (hcall : cl.call t pc = .fork f)
      (hf : f s.sh.client = some a) (hfresh : s.ctl a.child = .fresh)
      (hview : cl.view s' =
        Function.update (Function.update (cl.view s) a.child (.atPc a.start)) t (.atPc a.next))
      (hsh : s'.sh.client = a.sh) : ClientStep cl s s' (.run t)
  | yield {t : Tid} {pc k : Pc} (hpc : s.ctl t = .atPc (.ret (.client pc)))
      (hcall : cl.call t pc = .yield k)
      (hview : cl.view s' = Function.update (cl.view s) t (.atPc k))
      (hsh : s'.sh.client = s.sh.client) : ClientStep cl s s' (.run t)
  | finish {t : Tid} {pc : Pc} {upd : Sh → Sh} (hpc : s.ctl t = .atPc (.ret (.client pc)))
      (hcall : cl.call t pc = .finish upd)
      (hview : cl.view s' = Function.update (cl.view s) t .finished)
      (hsh : s'.sh.client = upd s.sh.client) : ClientStep cl s s' (.run t)
  | intr {i : I} {o : Option U} (hh : cl.handler i s.sh.client = some (o, s'.sh.client))
      (hview : cl.view s' = cl.view s) : ClientStep cl s s' (.intr i)

theorem view_update {ctl : Tid → Ctl (MPc L C Pc)} (t : Tid) (c : Ctl (MPc L C Pc)) :
    (fun u => (Function.update ctl t c u).view)
      = Function.update (fun u => (ctl u).view) t c.view := by
  funext u
  by_cases hu : u = t
  · subst hu
    simp
  · simp [hu]

/-- Inside a call the thread stays where it is, for the client. -/
theorem view_same {ctl : Tid → Ctl (MPc L C Pc)} {t : Tid} {pc pc' : MPc L C Pc}
    (hpc : ctl t = .atPc pc) (h : pc'.clientPc = pc.clientPc) :
    (fun u => (Function.update ctl t (.atPc pc') u).view) = fun u => (ctl u).view := by
  rw [view_update]
  refine Function.update_eq_self_iff.mpr ?_
  rw [hpc]
  exact congrArg Ctl.atPc h

theorem Call.entry_target {call : Call L C U Sh Pc} {pc : MPc L C Pc} (h : call.entry = some pc) :
    call.target = some pc.clientPc := by
  cases Call.enters_of_entry h <;> rfl

/-- The client's view of a step. -/
theorem MStep.client {cl : Client L C U I Sh Pc} {s s' : cl.St} {lab : Label I}
    (hs : MStep cl s lab s') : ClientStep cl s s' lab := by
  cases hs with
  | block hv => exact .silent rfl rfl
  | call hpc hentry => exact .call hpc (Call.entry_target hentry) (view_update _ _) rfl
  | userP hpc hcall => exact .user hpc (Or.inl hcall) (view_update _ _) rfl
  | userV hpc hcall => exact .user hpc (Or.inr hcall) (view_update _ _) rfl
  | tau hpc hcall hf => exact .tau hpc hcall hf (view_update _ _) rfl
  | fork hpc hcall hf hfresh =>
    refine .fork hpc hcall hf hfresh ?_ rfl
    exact (view_update _ _).trans (congrArg (Function.update · _ _) (view_update _ _))
  | yield hpc hcall => exact .yield hpc hcall (view_update _ _) rfl
  | finish hpc hcall => exact .finish hpc hcall (view_update _ _) rfl
  | reacquire hpc hheld | enter hpc hheld | semInvP hpc => exact .silent (view_same hpc rfl) rfl
  | @donate t l k hpc =>
    refine .silent (view_same hpc ?_) rfl
    unfold Client.donation
    split <;> rfl
  | semInvV hpc | take hpc hv | own hpc | drop hpc hheld | give hpc | wait hpc hheld | waitP hpc hv
  | signalNone hpc hheld hlist | signal hpc hheld hlist | signalV hpc | broadcast hpc hheld
  | broadcastEnd hpc hlist | broadcastNext hpc hlist => exact .silent (view_same hpc rfl) rfl
  | intrV hh => exact .intr hh rfl
  | intr hh => exact .intr hh rfl

/-- Every thread is in its own code, or in a call that returns to a point of `R`. -/
def Returns (R : Pc → Prop) (ctl : Tid → Ctl (MPc L C Pc)) : Prop :=
  ∀ t pc, ctl t = .atPc pc → pc = .ret (.client pc.clientPc) ∨ R pc.clientPc

theorem Returns.update {R : Pc → Prop} {ctl : Tid → Ctl (MPc L C Pc)} (h : Returns R ctl) (t : Tid)
    {c : Ctl (MPc L C Pc)} (hc : ∀ pc, c = .atPc pc → pc = .ret (.client pc.clientPc) ∨ R pc.clientPc) :
    Returns R (Function.update ctl t c) := by
  intro u pc hu
  by_cases hut : u = t
  · subst hut
    rw [Function.update_self] at hu
    exact hc pc hu
  · rw [Function.update_of_ne hut] at hu
    exact h u pc hu

/-- The thread comes back to its own code. -/
theorem Returns.back {R : Pc → Prop} {ctl : Tid → Ctl (MPc L C Pc)} (h : Returns R ctl) (t : Tid)
    (k : Pc) : Returns R (Function.update ctl t (.atPc (.ret (.client k)))) := by
  refine h.update t fun pc hpc => Or.inl ?_
  obtain rfl := Ctl.atPc.inj hpc
  rfl

/-- The thread goes on inside a call. -/
theorem Returns.inside {R : Pc → Prop} {ctl : Tid → Ctl (MPc L C Pc)} (h : Returns R ctl) {t : Tid}
    {pc : MPc L C Pc} (hR : R pc.clientPc) : Returns R (Function.update ctl t (.atPc pc)) := by
  refine h.update t fun pc' hpc => Or.inr ?_
  obtain rfl := Ctl.atPc.inj hpc
  exact hR

/-- A call returns to where the client said: if all the targets of the client's calls are in `R`,
    every thread is in its own code or in a call that returns to a point of `R`. -/
theorem returns_of_reach {cl : Client L C U I Sh Pc} {R : Pc → Prop}
    (hR : ∀ t pc k, (cl.call t pc).target = some k → R k) {s : cl.St}
    (h : (machine cl.prog).Reach s) : Returns R s.ctl := by
  refine h.invariant (I := fun s => Returns R s.ctl) ?_ ?_
  · intro s hi t pc hpc
    obtain ⟨-, ctl₀, -, hctl⟩ := hi.boot
    rw [hctl] at hpc
    replace hpc : (ctl₀ t).compile = .atPc pc := hpc
    cases hc : ctl₀ t with
    | atPc pc₀ =>
      rw [hc] at hpc
      obtain rfl := Ctl.atPc.inj hpc
      exact Or.inl rfl
    | fresh | finished => rw [hc] at hpc; nomatch hpc
  · intro s lab s' _ hk hs
    cases mstep_of_stepFn hs with
    | block hv | intrV hh | intr hh => exact hk
    | call hpc hentry => exact hk.inside (hR _ _ _ (Call.entry_target hentry))
    | fork hpc hcall hf hfresh => exact (hk.back _ _).back _ _
    | finish hpc hcall => exact hk.update _ fun _ hpc => nomatch hpc
    | userP hpc hcall | userV hpc hcall | tau hpc hcall hf | yield hpc hcall | reacquire hpc hheld | own hpc
    | broadcastEnd hpc hlist => exact hk.back _ _
    | enter hpc hheld | semInvP hpc => exact hk.inside ((hk _ _ hpc).resolve_left nofun)
    | @donate t l k hpc =>
      refine hk.inside ?_
      rw [show (Client.donation l t k s.prio s.sh).next.clientPc = k by
        unfold Client.donation; split <;> rfl]
      exact (hk _ _ hpc).resolve_left nofun
    | semInvV hpc | take hpc hv | drop hpc hheld | give hpc | wait hpc hheld | waitP hpc hv
    | signalNone hpc hheld hlist | signal hpc hheld hlist | signalV hpc | broadcast hpc hheld
    | broadcastNext hpc hlist => exact hk.inside ((hk _ _ hpc).resolve_left nofun)

end Nachos
