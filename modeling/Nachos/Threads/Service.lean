/-
  Services: kernel components behind locks, semaphores and interrupt handlers.

  `SynchList`, `SynchDisk`, `SynchConsole` and `PostOffice` are built alike.  A component has data of
  its own (a list, the registers of a device), operations that any thread may call, and interrupt
  handlers; an operation takes a lock, works on the data, waits on a condition or on a semaphore that a
  handler does `V` on, and lets the lock go.  `Service` is that shape: the code of the operations,
  POINT BY POINT, one atomic action each.

  1. **Programs** — `UserClient` is any multi-threaded program that calls the operations;
     `Service.client` compiles it to a client of locks and conditions (`Nachos.Threads.Monitor`), and
     so to the interleaving machine, where every lock is the code of `synch.cc`.

  2. **The service alone** — `Service.lts` is what is left when the callers and the insides of the
     locks are taken away: at which point of the service every thread is, the data, and the numbers
     that the values of the semaphores stand for (the values themselves are `int`s and may wrap).  Two
     threads at points where the same lock is held are the same thread; that is the premise `Alone`
     of its steps.

  3. **The rule** — `Service.reach_view`: if the points are annotated with the locks held there, and
     the annotation is right call by call (`Service.Disciplined`), then every run of every program is
     seen by the service as a run of `Service.lts`.  An invariant of the small system is an invariant
     of the whole.
-/
import Nachos.Threads.Lock

set_option linter.unusedSectionVars false

namespace Nachos

/-! ## The values of a client's semaphores

  `ClientStep` says what a client sees of a step; here it also sees the values of its own
  semaphores. -/

section Values

variable {L C U I Sh Pc : Type} [DecidableEq L] [DecidableEq C] [DecidableEq U]

/-- The numbers that the values of the client's own semaphores stand for. -/
def Client.val (cl : Client L C U I Sh Pc) (s : cl.St) (u : U) : Int := (s.log (.user u)).count

/-- The steps a client sees, with the values of its semaphores. -/
inductive UserStep (cl : Client L C U I Sh Pc) (s s' : cl.St) : Label I → Prop where
  | silent {lab : Label I} (hview : cl.view s' = cl.view s) (hsh : s'.sh.client = s.sh.client)
      (hval : cl.val s' = cl.val s) : UserStep cl s s' lab
  | call {t : Tid} {pc k : Pc} (hpc : s.ctl t = .atPc (.ret (.client pc)))
      (htarget : (cl.call t pc).target = some k)
      (hview : cl.view s' = Function.update (cl.view s) t (.atPc k))
      (hsh : s'.sh.client = s.sh.client) (hval : cl.val s' = cl.val s) : UserStep cl s s' (.run t)
  | tau {t : Tid} {pc k : Pc} {f : Sh → Option (Sh × Pc)} {d : Sh}
      (hpc : s.ctl t = .atPc (.ret (.client pc))) (hcall : cl.call t pc = .tau f)
      (hf : f s.sh.client = some (d, k))
      (hview : cl.view s' = Function.update (cl.view s) t (.atPc k)) (hsh : s'.sh.client = d)
      (hval : cl.val s' = cl.val s) : UserStep cl s s' (.run t)
  | P {t : Tid} {pc k : Pc} {u : U} {upd : Sh → Sh} (hpc : s.ctl t = .atPc (.ret (.client pc)))
      (hcall : cl.call t pc = .P u upd k) (hv : cl.val s u ≠ 0)
      (hview : cl.view s' = Function.update (cl.view s) t (.atPc k))
      (hsh : s'.sh.client = upd s.sh.client)
      (hval : cl.val s' = Function.update (cl.val s) u (cl.val s u - 1)) : UserStep cl s s' (.run t)
  | V {t : Tid} {pc k : Pc} {u : U} {upd : Sh → Sh} (hpc : s.ctl t = .atPc (.ret (.client pc)))
      (hcall : cl.call t pc = .V u upd k)
      (hview : cl.view s' = Function.update (cl.view s) t (.atPc k))
      (hsh : s'.sh.client = upd s.sh.client)
      (hval : cl.val s' = Function.update (cl.val s) u (cl.val s u + 1)) : UserStep cl s s' (.run t)
  | fork {t : Tid} {pc : Pc} {f : Sh → Option (Forking Sh Pc)} {a : Forking Sh Pc}
      (hpc : s.ctl t = .atPc (.ret (.client pc))) (hcall : cl.call t pc = .fork f)
      (hf : f s.sh.client = some a) (hfresh : s.ctl a.child = .fresh)
      (hview : cl.view s' =
        Function.update (Function.update (cl.view s) a.child (.atPc a.start)) t (.atPc a.next))
      (hsh : s'.sh.client = a.sh) (hval : cl.val s' = cl.val s) : UserStep cl s s' (.run t)
  | yield {t : Tid} {pc k : Pc} (hpc : s.ctl t = .atPc (.ret (.client pc)))
      (hcall : cl.call t pc = .yield k)
      (hview : cl.view s' = Function.update (cl.view s) t (.atPc k))
      (hsh : s'.sh.client = s.sh.client) (hval : cl.val s' = cl.val s) : UserStep cl s s' (.run t)
  | finish {t : Tid} {pc : Pc} {upd : Sh → Sh} (hpc : s.ctl t = .atPc (.ret (.client pc)))
      (hcall : cl.call t pc = .finish upd)
      (hview : cl.view s' = Function.update (cl.view s) t .finished)
      (hsh : s'.sh.client = upd s.sh.client) (hval : cl.val s' = cl.val s) : UserStep cl s s' (.run t)
  | intrV {i : I} {u : U} {d : Sh} (hh : cl.handler i s.sh.client = some (some u, d))
      (hview : cl.view s' = cl.view s) (hsh : s'.sh.client = d)
      (hval : cl.val s' = Function.update (cl.val s) u (cl.val s u + 1)) : UserStep cl s s' (.intr i)
  | intr {i : I} {d : Sh} (hh : cl.handler i s.sh.client = some (none, d))
      (hview : cl.view s' = cl.view s) (hsh : s'.sh.client = d) (hval : cl.val s' = cl.val s) :
      UserStep cl s s' (.intr i)

section Lemmas

variable {cl : Client L C U I Sh Pc} {s s' : cl.St}

/-- An operation on a semaphore of a lock, or on one that `Wait` built, is not seen. -/
theorem val_update_of_ne {x : MSem L U} (hx : ∀ u, MSem.user u ≠ x) (log : SemLog) :
    (fun u => (Function.update s.log x log (.user u)).count) = cl.val s := by
  funext u
  rw [Function.update_of_ne (hx u)]
  rfl

/-- An operation on the client's own semaphore `u`. -/
theorem val_update_user (u : U) {log : SemLog} {n : Int} (hlog : log.count = n) :
    (fun w => (Function.update s.log (.user u) log (.user w)).count) = Function.update (cl.val s) u n := by
  funext w
  by_cases hw : w = u
  · subst hw
    rw [Function.update_self, Function.update_self, hlog]
  · have hne : (MSem.user w : MSem L U) ≠ .user u := fun h => hw (MSem.user.inj h)
    rw [Function.update_of_ne hne, Function.update_of_ne hw]
    rfl

/-- Going to sleep is not seen either. -/
theorem val_sleep {t : Tid} {x : MSem L U} (hv : (s.sem x).value = 0) :
    cl.val (s.semP t x) = cl.val s := by
  funext u
  show ((s.semP t x).log (.user u)).count = (s.log (.user u)).count
  by_cases hx : .user u = x
  · rw [State.semP_log, hx, Function.update_self, SemLog.count_afterP_zero _ hv]
  · rw [State.semP_log, Function.update_of_ne hx]

/-- **Inversion**: every step of a compiled client is one of `UserStep`. -/
theorem userStep_of_stepFn {lab : Label I} (hr : (machine cl.prog).Reach s) (h : stepFn cl.prog s lab = some s') :
    UserStep cl s s' lab := by
  cases mstep_of_stepFn h with
  | block hv => exact .silent rfl rfl (val_sleep hv)
  | call hpc hentry => exact .call hpc (Call.entry_target hentry) (view_update _ _) rfl rfl
  | @userP t pc k u upd hpc hcall =>
    -- `MStep` does not say that the `P` got through: look at the code again
    have hexec : exec s t (cl.code t (.ret (.client pc)))
        = some ((s.semP t (.user u)).goto t (s.sh.withClient (upd s.sh.client))
            (.ret (.client k))) := by
      simp only [stepFn, hpc] at h
      exact h
    simp only [Client.code, hcall] at hexec
    rcases exec_P hexec with ⟨hv, hs'⟩ | ⟨hv, -⟩
    · rw [hs']
      exact .silent rfl rfl (val_sleep hv)
    · -- a value that is not zero stands for a number that is not
      have hcount : cl.val s u ≠ 0 := by
        intro hzero
        rw [(value_of_reach hr _).2] at hv
        exact hv (congrArg int32 hzero)
      exact .P hpc hcall hcount (view_update _ _) rfl (val_update_user u (SemLog.count_afterP_pos _ hv t))
  | userV hpc hcall => exact .V hpc hcall (view_update _ _) rfl (val_update_user _ (SemLog.count_afterV _ _))
  | tau hpc hcall hf => exact .tau hpc hcall hf (view_update _ _) rfl rfl
  | fork hpc hcall hf hfresh =>
    refine .fork hpc hcall hf hfresh ?_ rfl rfl
    exact (view_update _ _).trans (congrArg (Function.update · _ _) (view_update _ _))
  | yield hpc hcall => exact .yield hpc hcall (view_update _ _) rfl rfl
  | finish hpc hcall => exact .finish hpc hcall (view_update _ _) rfl rfl
  | reacquire hpc hheld | enter hpc hheld => exact .silent (view_same hpc rfl) rfl rfl
  | semInvP hpc => exact .silent (view_same hpc rfl) rfl (val_update_of_ne (fun u hu => by cases hu) _)
  | @donate t l k hpc =>
    obtain ⟨seen, hnext⟩ := donation_next l t k s.prio s.sh
    rw [hnext]
    exact .silent (view_same hpc rfl) rfl rfl
  | semInvV hpc | take hpc hv => exact .silent (view_same hpc rfl) rfl (val_update_of_ne (fun u hu => by cases hu) _)
  | own hpc | drop hpc hheld => exact .silent (view_same hpc rfl) rfl rfl
  | give hpc => exact .silent (view_same hpc rfl) rfl (val_update_of_ne (fun u hu => by cases hu) _)
  | wait hpc hheld => exact .silent (view_same hpc rfl) rfl rfl
  | waitP hpc hv => exact .silent (view_same hpc rfl) rfl (val_update_of_ne (fun u hu => by cases hu) _)
  | signalNone hpc hheld hlist | signal hpc hheld hlist => exact .silent (view_same hpc rfl) rfl rfl
  | signalV hpc => exact .silent (view_same hpc rfl) rfl (val_update_of_ne (fun u hu => by cases hu) _)
  | broadcast hpc hheld | broadcastEnd hpc hlist | broadcastNext hpc hlist =>
    exact .silent (view_same hpc rfl) rfl rfl
  | intrV hh => exact .intrV hh rfl rfl (val_update_user _ (SemLog.count_afterV _ _))
  | intr hh => exact .intr hh rfl rfl rfl

end Lemmas

end Values

/-! ## What a thread got -/

/-- The last entry of `t` in a history of who got what. -/
def lastBy {α : Type} (history : List (Tid × α)) (t : Tid) : Option α :=
  (history.reverse.find? fun e => e.1 == t).map Prod.snd

@[simp] theorem lastBy_concat_self {α : Type} (history : List (Tid × α)) (t : Tid) (a : α) :
    lastBy (history ++ [(t, a)]) t = some a := by
  simp [lastBy]

theorem lastBy_concat_of_ne {α : Type} (history : List (Tid × α)) {t w : Tid} (h : w ≠ t) (a : α) :
    lastBy (history ++ [(t, a)]) w = lastBy history w := by
  have hne : (t == w) = false := by simpa using Ne.symm h
  simp [lastBy, hne]

/-! ## Services and their callers -/

/-- What a thread does next: an operation of the service, or something of its own.  `k` is where it
    goes on when the operation has returned its answer. -/
inductive UserCall (Op A Sh Pc : Type) where
  | op (o : Op) (k : A → Pc)
  | tau (f : Sh → Option (Sh × Pc))
  | fork (f : Sh → Option (Forking Sh Pc))
  | yield (k : Pc)
  | finish (upd : Sh → Sh)

/-- A program that calls the operations of a service. -/
structure UserClient (Op A Sh Pc : Type) where
  boot : Sh → (Tid → Ctl Pc) → (Tid → Nat) → Prop
  call : Tid → Pc → UserCall Op A Sh Pc

/-- `t` calls the operation `o` somewhere. -/
def UserClient.Calls {Op A Sh Pc : Type} (u : UserClient Op A Sh Pc) (t : Tid) (o : Op) : Prop :=
  ∃ pc k, u.call t pc = .op o k

/-- What the code of an operation does at one of its points. -/
inductive SvcAct (A L C U D Pt : Type) where
  | acquire (l : L) (k : Pt)
  | release (l : L) (k : Pt)
  | wait (c : C) (k : Pt)
  | signal (c : C) (k : Pt)
  | P (u : U) (k : Pt)
  | tau (f : D → Option (D × Pt))
  | ret (a : A)

/-- A component of the kernel: its locks, conditions and semaphores, the data it starts with, the
    first point of every operation, the code, and the interrupt handlers. -/
structure Service (Op A L C U I D Pt : Type) where
  lockOf : C → L
  initial : U → Int
  boot : D → Prop
  entry : Op → Pt
  code : Tid → Pt → SvcAct A L C U D Pt
  handler : I → D → Option (Option U × D)

/-- Where a thread is: in its own code, or at a point of the service. -/
inductive SvcPc (A Pt Pc : Type) where
  | own (pc : Pc)
  | inside (pt : Pt) (k : A → Pc)

/-- The data of the service, and the program's own. -/
structure SvcSh (D Sh : Type) where
  dev : D
  own : Sh

variable {Op A L C U I D Pt Sh Pc : Type}

namespace Service

/-- The code of thread `t`. -/
def call (svc : Service Op A L C U I D Pt) (u : UserClient Op A Sh Pc) (t : Tid) :
    SvcPc A Pt Pc → Call L C U (SvcSh D Sh) (SvcPc A Pt Pc)
  | .own pc =>
    match u.call t pc with
    | .op o k => .tau fun sh => some (sh, .inside (svc.entry o) k)
    | .tau f => .tau fun sh => (f sh.own).map fun r => ({ sh with own := r.1 }, .own r.2)
    | .fork f => .fork fun sh => (f sh.own).map fun a =>
        ⟨a.child, .own a.start, a.priority, { sh with own := a.sh }, .own a.next⟩
    | .yield k => .yield (.own k)
    | .finish upd => .finish fun sh => { sh with own := upd sh.own }
  | .inside pt k =>
    match svc.code t pt with
    | .acquire l p => .acquire l (.inside p k)
    | .release l p => .release l (.inside p k)
    | .wait c p => .wait c (.inside p k)
    | .signal c p => .signal c (.inside p k)
    | .P x p => .P x id (.inside p k)
    | .tau f => .tau fun sh => (f sh.dev).map fun r => ({ sh with dev := r.1 }, .inside r.2 k)
    | .ret a => .tau fun sh => some (sh, .own (k a))

/-- The program compiled with the code of the service: a client of locks and conditions. -/
def client (svc : Service Op A L C U I D Pt) (u : UserClient Op A Sh Pc) :
    Client L C U I (SvcSh D Sh) (SvcPc A Pt Pc) where
  lockOf := svc.lockOf
  initial := svc.initial
  boot sh ctl prio :=
    svc.boot sh.dev ∧ ∃ ctl₀, u.boot sh.own ctl₀ prio ∧ ctl = fun t => (ctl₀ t).map .own
  call := svc.call u
  handler i sh := (svc.handler i sh.dev).map fun r => (r.1, { sh with dev := r.2 })

end Service

/-! ## The locks held at every point -/

/-- Where a call of `Lock` or `Condition` returns to. -/
def SvcAct.target : SvcAct A L C U D Pt → Option Pt
  | .acquire _ k => some k
  | .release _ k => some k
  | .wait _ k => some k
  | .signal _ k => some k
  | _ => none

/-- The actions that leave the locks of the thread as they are, and where they go on. -/
inductive SvcAct.Keeps : SvcAct A L C U D Pt → Pt → Prop where
  | wait (c : C) (k : Pt) : Keeps (.wait c k) k
  | signal (c : C) (k : Pt) : Keeps (.signal c k) k
  | P (u : U) (k : Pt) : Keeps (.P u k) k
  | tau {f : D → Option (D × Pt)} {dev d : D} {k : Pt} (hf : f dev = some (d, k)) : Keeps (.tau f) k

/-- Where a step goes that cannot fail. -/
theorem SvcAct.Keeps.of_some {g : D → D} {next : D → Pt} {k : Pt}
    (h : (SvcAct.tau fun d => some (g d, next d) : SvcAct A L C U D Pt).Keeps k) : ∃ d, k = next d := by
  cases h with
  | @tau _ dev _ _ hf => exact ⟨dev, (congrArg Prod.snd (Option.some.inj hf)).symm⟩

/-- An annotation of the points with the locks held there, that the code respects: an operation
    begins and ends with no lock. -/
structure Service.Disciplined (svc : Service Op A L C U I D Pt) (held : Pt → L → Prop) : Prop where
  entry : ∀ o l, ¬ held (svc.entry o) l
  acquire : ∀ {t pt l k}, svc.code t pt = .acquire l k →
    ¬ held pt l ∧ ∀ l', held k l' ↔ held pt l' ∨ l' = l
  release : ∀ {t pt l k}, svc.code t pt = .release l k →
    held pt l ∧ ∀ l', held k l' ↔ held pt l' ∧ l' ≠ l
  keeps : ∀ {t pt k}, (svc.code t pt).Keeps k → ∀ l, held k l ↔ held pt l
  ret : ∀ {t pt a}, svc.code t pt = .ret a → ∀ l, ¬ held pt l

/-- The annotation of the compiled program: in its own code a thread holds no lock. -/
def SvcPc.held (held : Pt → L → Prop) : SvcPc A Pt Pc → L → Prop
  | .own _, _ => False
  | .inside pt _, l => held pt l

section Compiled

variable {svc : Service Op A L C U I D Pt} {u : UserClient Op A Sh Pc}

/-- **What a call of the compiled program is**, seen from the call: a step of the program itself, or an action of the
    service. -/
inductive Service.CallOf (svc : Service Op A L C U I D Pt) (u : UserClient Op A Sh Pc) (t : Tid) :
    SvcPc A Pt Pc → Call L C U (SvcSh D Sh) (SvcPc A Pt Pc) → Prop where
  | enter {pc : Pc} {o : Op} {k : A → Pc} (h : u.call t pc = .op o k) :
      CallOf svc u t (.own pc) (.tau fun sh => some (sh, .inside (svc.entry o) k))
  | own {pc : Pc} {f : Sh → Option (Sh × Pc)} (h : u.call t pc = .tau f) :
      CallOf svc u t (.own pc) (.tau fun sh => (f sh.own).map fun r => ({ sh with own := r.1 }, .own r.2))
  | fork {pc : Pc} {f : Sh → Option (Forking Sh Pc)} (h : u.call t pc = .fork f) :
      CallOf svc u t (.own pc) (.fork fun sh => (f sh.own).map fun a =>
        ⟨a.child, .own a.start, a.priority, { sh with own := a.sh }, .own a.next⟩)
  | yield {pc k : Pc} (h : u.call t pc = .yield k) : CallOf svc u t (.own pc) (.yield (.own k))
  | finish {pc : Pc} {upd : Sh → Sh} (h : u.call t pc = .finish upd) :
      CallOf svc u t (.own pc) (.finish fun sh => { sh with own := upd sh.own })
  | acquire {pt p : Pt} {l : L} {k : A → Pc} (h : svc.code t pt = .acquire l p) :
      CallOf svc u t (.inside pt k) (.acquire l (.inside p k))
  | release {pt p : Pt} {l : L} {k : A → Pc} (h : svc.code t pt = .release l p) :
      CallOf svc u t (.inside pt k) (.release l (.inside p k))
  | wait {pt p : Pt} {c : C} {k : A → Pc} (h : svc.code t pt = .wait c p) :
      CallOf svc u t (.inside pt k) (.wait c (.inside p k))
  | signal {pt p : Pt} {c : C} {k : A → Pc} (h : svc.code t pt = .signal c p) :
      CallOf svc u t (.inside pt k) (.signal c (.inside p k))
  | P {pt p : Pt} {x : U} {k : A → Pc} (h : svc.code t pt = .P x p) :
      CallOf svc u t (.inside pt k) (.P x id (.inside p k))
  | tau {pt : Pt} {f : D → Option (D × Pt)} {k : A → Pc} (h : svc.code t pt = .tau f) :
      CallOf svc u t (.inside pt k) (.tau fun sh => (f sh.dev).map fun r => ({ sh with dev := r.1 }, .inside r.2 k))
  | ret {pt : Pt} {a : A} {k : A → Pc} (h : svc.code t pt = .ret a) :
      CallOf svc u t (.inside pt k) (.tau fun sh => some (sh, .own (k a)))

theorem Service.callOf {t : Tid} {pc : SvcPc A Pt Pc} {c : Call L C U (SvcSh D Sh) (SvcPc A Pt Pc)}
    (hcall : (svc.client u).call t pc = c) : svc.CallOf u t pc c := by
  replace hcall : svc.call u t pc = c := hcall
  subst hcall
  cases pc with
  | own pc =>
    simp only [Service.call]
    split
    case h_1 h => exact .enter h
    case h_2 h => exact .own h
    case h_3 h => exact .fork h
    case h_4 h => exact .yield h
    case h_5 h => exact .finish h
  | inside pt k =>
    simp only [Service.call]
    split
    case h_1 h => exact .acquire h
    case h_2 h => exact .release h
    case h_3 h => exact .wait h
    case h_4 h => exact .signal h
    case h_5 h => exact .P h
    case h_6 h => exact .tau h
    case h_7 h => exact .ret h

/-- Only the service calls locks and conditions, and the calls return inside of it. -/
theorem Service.CallOf.target {t : Tid} {pc pc' : SvcPc A Pt Pc} {c : Call L C U (SvcSh D Sh) (SvcPc A Pt Pc)}
    (hc : svc.CallOf u t pc c) (h : c.target = some pc') :
    ∃ pt k pt', pc = .inside pt k ∧ (svc.code t pt).target = some pt' ∧ pc' = .inside pt' k := by
  cases hc with
  | acquire hcode | release hcode | wait hcode | signal hcode =>
    exact ⟨_, _, _, rfl, by rw [hcode]; rfl, (Option.some.inj h).symm⟩
  | _ => cases h

/-- The annotation of a service is one of the compiled program. -/
theorem Service.Disciplined.client {held : Pt → L → Prop} (hd : svc.Disciplined held) :
    (svc.client u).Disciplined (SvcPc.held held) where
  boot := by
    rintro sh ctl prio ⟨-, ctl₀, -, rfl⟩ t pc hpc l
    cases hc : ctl₀ t with
    | atPc pc₀ =>
      simp only [hc, Ctl.map] at hpc
      obtain rfl := Ctl.atPc.inj hpc
      exact id
    | fresh | finished => simp only [hc, Ctl.map] at hpc; cases hpc
  acquire := by
    intro t pc l k hcall
    cases Service.callOf hcall with
    | acquire hcode => exact hd.acquire hcode
  release := by
    intro t pc l k hcall
    cases Service.callOf hcall with
    | release hcode => exact hd.release hcode
  keeps := by
    intro t pc k hkeeps l
    generalize hcall : (svc.client u).call t pc = c at hkeeps
    cases Service.callOf hcall with
    | enter =>
      cases hkeeps with
      | tau hf =>
        obtain ⟨-, rfl⟩ := Prod.mk.inj (Option.some.inj hf)
        exact iff_of_false (hd.entry _ l) id
    | own =>
      cases hkeeps with
      | tau hf =>
        obtain ⟨r, -, heq⟩ := Option.map_eq_some_iff.mp hf
        obtain ⟨-, rfl⟩ := Prod.mk.inj heq
        exact Iff.rfl
    | fork =>
      cases hkeeps with
      | fork hf =>
        obtain ⟨a, -, rfl⟩ := Option.map_eq_some_iff.mp hf
        exact Iff.rfl
    | yield =>
      cases hkeeps
      exact Iff.rfl
    | wait hcode =>
      cases hkeeps
      exact hd.keeps (by rw [hcode]; exact .wait _ _) l
    | signal hcode =>
      cases hkeeps
      exact hd.keeps (by rw [hcode]; exact .signal _ _) l
    | P hcode =>
      cases hkeeps
      exact hd.keeps (by rw [hcode]; exact .P _ _) l
    | tau hcode =>
      cases hkeeps with
      | tau hf =>
        obtain ⟨r, hr, heq⟩ := Option.map_eq_some_iff.mp hf
        obtain ⟨-, rfl⟩ := Prod.mk.inj heq
        exact hd.keeps (by rw [hcode]; exact .tau hr) l
    | ret hcode =>
      cases hkeeps with
      | tau hf =>
        obtain ⟨-, rfl⟩ := Prod.mk.inj (Option.some.inj hf)
        exact iff_of_false id (hd.ret hcode l)
    | _ => cases hkeeps
  start := by
    intro t pc f sh a hcall hf l
    cases Service.callOf hcall with
    | fork =>
      obtain ⟨b, -, rfl⟩ := Option.map_eq_some_iff.mp hf
      exact id

end Compiled

/-! ## The service alone -/

/-- The point of the service that a thread is at, if any. -/
def SvcPc.point : Ctl (SvcPc A Pt Pc) → Option Pt
  | .atPc (.inside pt _) => some pt
  | _ => none

/-- What the service sees: the points of all threads, its data, and the values of its semaphores. -/
structure SvcView (U D Pt : Type) where
  pts : Tid → Option Pt
  dev : D
  val : U → Int

/-- No call of a lock or a condition returns to `pt`: a thread that is seen there is there. -/
def Service.Settled (svc : Service Op A L C U I D Pt) (pt : Pt) : Prop :=
  ∀ t pt', (svc.code t pt').target ≠ some pt

/-- Thread `t` at `pt` is alone with what its locks protect: anybody else at a point with one of them
    is `t` itself. -/
def Service.Alone (svc : Service Op A L C U I D Pt) (held : Pt → L → Prop) (v : SvcView U D Pt)
    (t : Tid) (pt : Pt) : Prop :=
  ∀ w pt' l, v.pts w = some pt' → svc.Settled pt' → held pt l → held pt' l → w = t

namespace SvcView

variable [DecidableEq U]

/-- Thread `t` goes to a point of the service, or out of it. -/
def goto (v : SvcView U D Pt) (t : Tid) (p : Option Pt) : SvcView U D Pt :=
  { v with pts := Function.update v.pts t p }

/-- The value of semaphore `x` changes by `n`. -/
def add (v : SvcView U D Pt) (x : U) (n : Int) : SvcView U D Pt :=
  { v with val := Function.update v.val x (v.val x + n) }

/-- The data changes. -/
def withDev (v : SvcView U D Pt) (d : D) : SvcView U D Pt := { v with dev := d }

@[simp] theorem goto_pts (v : SvcView U D Pt) (t : Tid) (p : Option Pt) :
    (v.goto t p).pts = Function.update v.pts t p := rfl
@[simp] theorem goto_dev (v : SvcView U D Pt) (t : Tid) (p : Option Pt) :
    (v.goto t p).dev = v.dev := rfl
@[simp] theorem goto_val (v : SvcView U D Pt) (t : Tid) (p : Option Pt) :
    (v.goto t p).val = v.val := rfl
@[simp] theorem add_pts (v : SvcView U D Pt) (x : U) (n : Int) : (v.add x n).pts = v.pts := rfl
@[simp] theorem add_dev (v : SvcView U D Pt) (x : U) (n : Int) : (v.add x n).dev = v.dev := rfl
@[simp] theorem add_val (v : SvcView U D Pt) (x : U) (n : Int) :
    (v.add x n).val = Function.update v.val x (v.val x + n) := rfl
@[simp] theorem withDev_pts (v : SvcView U D Pt) (d : D) : (v.withDev d).pts = v.pts := rfl
@[simp] theorem withDev_dev (v : SvcView U D Pt) (d : D) : (v.withDev d).dev = d := rfl
@[simp] theorem withDev_val (v : SvcView U D Pt) (d : D) : (v.withDev d).val = v.val := rfl

/-- A property of all points, after `t` moved. -/
theorem goto_forall {v : SvcView U D Pt} {Q : Tid → Option Pt → Prop} {t : Tid} {p : Option Pt}
    (hp : Q t p) (hothers : ∀ w, w ≠ t → Q w (v.pts w)) (w : Tid) : Q w ((v.goto t p).pts w) :=
  (Function.forall_update_iff v.pts Q).mpr ⟨hp, hothers⟩ w

/-- A function of the points, after `t` moved. -/
theorem goto_map {β : Type} (v : SvcView U D Pt) (g : Option Pt → β) (t : Tid) (p : Option Pt) :
    (fun w => g ((v.goto t p).pts w)) = Function.update (fun w => g (v.pts w)) t (g p) :=
  funext fun w => Function.apply_update (fun _ => g) v.pts t p w

end SvcView

variable [DecidableEq U]

/-- The steps of a service.  `calls` says which thread may call which operation. -/
inductive Service.Step (svc : Service Op A L C U I D Pt) (held : Pt → L → Prop)
    (calls : Tid → Op → Prop) (v : SvcView U D Pt) : Label I → SvcView U D Pt → Prop where
  | enter {t : Tid} {o : Op} (ht : v.pts t = none) (hcalls : calls t o) :
      Step svc held calls v (.run t) (v.goto t (some (svc.entry o)))
  | leave {t : Tid} {pt : Pt} {a : A} (ht : v.pts t = some pt) (hcode : svc.code t pt = .ret a) :
      Step svc held calls v (.run t) (v.goto t none)
  | call {t : Tid} {pt k : Pt} (ht : v.pts t = some pt)
      (htarget : (svc.code t pt).target = some k) :
      Step svc held calls v (.run t) (v.goto t (some k))
  | P {t : Tid} {pt k : Pt} {x : U} (ht : v.pts t = some pt) (hcode : svc.code t pt = .P x k)
      (hv : v.val x ≠ 0) (halone : svc.Alone held v t pt) :
      Step svc held calls v (.run t) ((v.add x (-1)).goto t (some k))
  | tau {t : Tid} {pt k : Pt} {f : D → Option (D × Pt)} {d : D} (ht : v.pts t = some pt)
      (hcode : svc.code t pt = .tau f) (hf : f v.dev = some (d, k))
      (halone : svc.Alone held v t pt) :
      Step svc held calls v (.run t) ((v.withDev d).goto t (some k))
  | intrV {i : I} {x : U} {d : D} (hh : svc.handler i v.dev = some (some x, d)) :
      Step svc held calls v (.intr i) ((v.add x 1).withDev d)
  | intr {i : I} {d : D} (hh : svc.handler i v.dev = some (none, d)) :
      Step svc held calls v (.intr i) (v.withDev d)

/-- The service as a transition system: nobody is inside at first. -/
def Service.lts (svc : Service Op A L C U I D Pt) (held : Pt → L → Prop) (calls : Tid → Op → Prop) :
    Lts (SvcView U D Pt) (Label I) where
  init v := v.pts = (fun _ => none) ∧ svc.boot v.dev ∧ v.val = svc.initial
  step := svc.Step held calls

/-! ## Every program runs the service -/

section Refinement

variable [DecidableEq L] [DecidableEq C] {svc : Service Op A L C U I D Pt}
  {u : UserClient Op A Sh Pc} {held : Pt → L → Prop} {s s' : (svc.client u).St}

/-- What the service sees of a state. -/
def Service.view (svc : Service Op A L C U I D Pt) (u : UserClient Op A Sh Pc)
    (s : (svc.client u).St) : SvcView U D Pt where
  pts t := SvcPc.point ((svc.client u).view s t)
  dev := s.sh.client.dev
  val := (svc.client u).val s

/-- `t` is at point `pt` of the service, and will go on at `k`. -/
def Service.At (svc : Service Op A L C U I D Pt) (u : UserClient Op A Sh Pc)
    (s : (svc.client u).St) (t : Tid) (pt : Pt) (k : A → Pc) : Prop :=
  s.ctl t = .atPc (.ret (.client (.inside pt k)))

theorem view_pts {t : Tid} {pc : SvcPc A Pt Pc} (hpc : s.ctl t = .atPc (.ret (.client pc))) :
    (svc.view u s).pts t = SvcPc.point (.atPc pc) := by
  simp only [Service.view, Client.view, hpc]
  rfl

theorem Service.At.pts {t : Tid} {pt : Pt} {k : A → Pc} (h : svc.At u s t pt k) :
    (svc.view u s).pts t = some pt := view_pts h

theorem point_update (view : Tid → Ctl (SvcPc A Pt Pc)) (t : Tid) (c : Ctl (SvcPc A Pt Pc)) :
    (fun w => SvcPc.point (Function.update view t c w))
      = Function.update (fun w => SvcPc.point (view w)) t (SvcPc.point c) :=
  funext fun w => Function.apply_update (fun _ => SvcPc.point) view t c w

/-- What the service sees after a step that moved `t`. -/
theorem view_move {t : Tid} {c : Ctl (SvcPc A Pt Pc)} {d : SvcSh D Sh} {val : U → Int}
    (hview : (svc.client u).view s' = Function.update ((svc.client u).view s) t c)
    (hsh : s'.sh.client = d) (hval : (svc.client u).val s' = val) :
    svc.view u s' = { pts := Function.update (svc.view u s).pts t (SvcPc.point c), dev := d.dev,
                      val := val } := by
  simp only [Service.view, hview, hsh, hval, point_update]

/-- A thread that moves outside of the service is not seen. -/
theorem view_outside {t : Tid} {c : Ctl (SvcPc A Pt Pc)} {pc : Pc} {d : SvcSh D Sh}
    (hpc : s.ctl t = .atPc (.ret (.client (.own pc)))) (hc : SvcPc.point c = none)
    (hview : (svc.client u).view s' = Function.update ((svc.client u).view s) t c)
    (hsh : s'.sh.client = d) (hdev : d.dev = s.sh.client.dev)
    (hval : (svc.client u).val s' = (svc.client u).val s) : svc.view u s' = svc.view u s := by
  have hsame : Function.update (svc.view u s).pts t none = (svc.view u s).pts :=
    Function.update_eq_self_iff.mpr (view_pts hpc).symm
  rw [view_move hview hsh hval, hc, hsame, hdev]
  rfl

/-- A thread that is seen at a settled point is there. -/
theorem Service.at_of_pts (hr : (machine (svc.client u).prog).Reach s) {t : Tid} {pt : Pt}
    (hpt : svc.Settled pt) (h : (svc.view u s).pts t = some pt) : ∃ k, svc.At u s t pt k := by
  -- calls of locks return to points that are not settled
  have hreturns := returns_of_reach
    (R := fun pc : SvcPc A Pt Pc => SvcPc.point (.atPc pc) ≠ some pt) (by
      intro w pc k hk
      obtain ⟨pt', k', pt'', rfl, htarget, rfl⟩ := (Service.callOf rfl).target hk
      intro heq
      obtain rfl : pt'' = pt := Option.some.inj heq
      exact hpt w pt' htarget) hr
  cases hc : s.ctl t with
  | fresh | finished => simp only [Service.view, Client.view, hc] at h; cases h
  | atPc mpc =>
    simp only [Service.view, Client.view, hc] at h
    replace h : SvcPc.point (.atPc mpc.clientPc) = some pt := h
    rcases hreturns t mpc hc with hret | hno
    · cases hpc : mpc.clientPc with
      | own pc => rw [hpc] at h; cases h
      | inside pt' k =>
        rw [hpc] at h hret
        obtain rfl : pt' = pt := Option.some.inj h
        exact ⟨k, hc.trans (congrArg Ctl.atPc hret)⟩
    · exact absurd h hno

/-- The locks keep the others out. -/
theorem Service.Disciplined.alone (hd : svc.Disciplined held)
    (hr : (machine (svc.client u).prog).Reach s) {t : Tid} {pt : Pt} {k : A → Pc}
    (ht : svc.At u s t pt k) : svc.Alone held (svc.view u s) t pt := by
  intro w pt' l hw hsettled hl hl'
  obtain ⟨k', hw⟩ := Service.at_of_pts hr hsettled hw
  exact (hd.client (u := u)).exclusive hr hw ht hl' hl

/-- **Every step of a program is a step of the service, or invisible to it.** -/
theorem Service.Disciplined.step {lab : Label I} (hd : svc.Disciplined held)
    (hr : (machine (svc.client u).prog).Reach s) (hs : UserStep (svc.client u) s s' lab) :
    svc.view u s' = svc.view u s ∨
      ∃ lab', svc.Step held u.Calls (svc.view u s) lab' (svc.view u s') := by
  cases hs with
  | silent hview hsh hval => exact Or.inl (by simp only [Service.view, hview, hsh, hval])
  | @call t pc k hpc htarget hview hsh hval =>
    obtain ⟨pt, k', pt', rfl, hpt, rfl⟩ := (Service.callOf rfl).target htarget
    refine Or.inr ⟨.run t, ?_⟩
    rw [view_move hview hsh hval]
    exact .call (view_pts hpc) hpt
  | @tau t pc k f d hpc hcall hf hview hsh hval =>
    cases Service.callOf hcall with
    | @enter pc o k' hop =>
      obtain ⟨rfl, rfl⟩ := Prod.mk.inj (Option.some.inj hf)
      refine Or.inr ⟨.run t, ?_⟩
      rw [view_move hview hsh hval]
      exact .enter (view_pts hpc) ⟨pc, k', hop⟩
    | own =>
      obtain ⟨r, -, heq⟩ := Option.map_eq_some_iff.mp hf
      obtain ⟨rfl, rfl⟩ := Prod.mk.inj heq
      exact Or.inl (view_outside hpc rfl hview hsh rfl hval)
    | @tau pt g k' hcode =>
      have halone := hd.alone hr (show svc.At u s t pt k' from hpc)
      obtain ⟨r, hr', heq⟩ := Option.map_eq_some_iff.mp hf
      obtain ⟨rfl, rfl⟩ := Prod.mk.inj heq
      refine Or.inr ⟨.run t, ?_⟩
      rw [view_move hview hsh hval]
      exact .tau (view_pts hpc) hcode hr' halone
    | ret hcode =>
      obtain ⟨rfl, rfl⟩ := Prod.mk.inj (Option.some.inj hf)
      refine Or.inr ⟨.run t, ?_⟩
      rw [view_move hview hsh hval]
      exact .leave (view_pts hpc) hcode
  | @P t pc k x upd hpc hcall hv hview hsh hval =>
    cases Service.callOf hcall with
    | @P pt p _ k' hcode =>
      have halone := hd.alone hr (show svc.At u s t pt k' from hpc)
      refine Or.inr ⟨.run t, ?_⟩
      rw [view_move hview hsh hval]
      exact .P (view_pts hpc) hcode hv halone
  | @V t pc k x upd hpc hcall hview hsh hval => cases Service.callOf hcall
  | @fork t pc f a hpc hcall hf hfresh hview hsh hval =>
    cases Service.callOf hcall with
    | fork =>
      obtain ⟨b, hb, rfl⟩ := Option.map_eq_some_iff.mp hf
      -- neither the parent nor the child is in the service
      have hchild : (svc.view u s).pts b.child = none := by
        simp only [Service.view, Client.view, hfresh]
        rfl
      refine Or.inl ?_
      simp only [Service.view, hview, hsh, hval, point_update]
      congr 1
      have hb' : Function.update (svc.view u s).pts b.child none = (svc.view u s).pts :=
        Function.update_eq_self_iff.mpr hchild.symm
      have ht' : Function.update (svc.view u s).pts t none = (svc.view u s).pts :=
        Function.update_eq_self_iff.mpr (view_pts hpc).symm
      exact (congrArg (Function.update · t none) hb').trans ht'
  | @yield t pc k hpc hcall hview hsh hval =>
    cases Service.callOf hcall with
    | yield => exact Or.inl (view_outside hpc rfl hview hsh rfl hval)
  | @finish t pc upd hpc hcall hview hsh hval =>
    cases Service.callOf hcall with
    | finish => exact Or.inl (view_outside hpc rfl hview hsh rfl hval)
  | @intrV i x d hh hview hsh hval =>
    obtain ⟨⟨o, d'⟩, hh', heq⟩ := Option.map_eq_some_iff.mp hh
    obtain ⟨rfl, rfl⟩ := Prod.mk.inj heq
    refine Or.inr ⟨.intr i, ?_⟩
    have heq : svc.view u s' = ((svc.view u s).add x 1).withDev d' := by
      simp only [Service.view, hview, hsh, hval]
      rfl
    rw [heq]
    exact .intrV hh'
  | @intr i d hh hview hsh hval =>
    obtain ⟨⟨o, d'⟩, hh', heq⟩ := Option.map_eq_some_iff.mp hh
    obtain ⟨rfl, rfl⟩ := Prod.mk.inj heq
    refine Or.inr ⟨.intr i, ?_⟩
    have heq : svc.view u s' = (svc.view u s).withDev d' := by
      simp only [Service.view, hview, hsh, hval]
      rfl
    rw [heq]
    exact .intr hh'

/-- **The rule for services**: every run of every program is, for the service, a run of its own. -/
theorem Service.Disciplined.reach_view (hd : svc.Disciplined held)
    (hr : (machine (svc.client u).prog).Reach s) :
    (svc.lts held u.Calls).Reach (svc.view u s) := by
  refine hr.simulate (svc.view u) ?_ fun s lab s' hr _ hs => hd.step hr (userStep_of_stepFn hr hs)
  intro s hi
  obtain ⟨-, ctl₁, ⟨hboot, ctl₀, -, rfl⟩, hctl⟩ := hi.boot
  refine ⟨?_, hboot, ?_⟩
  · funext t
    simp only [Service.view, Client.view, hctl]
    cases ctl₀ t <;> rfl
  · funext x
    simp only [Service.view, Client.val, hi.log, SemLog.count_new]
    rfl

/-- A thread at a point of straight-line code can go on, if the code gets through. -/
theorem Service.At.enabled {t : Tid} {pt : Pt} {k : A → Pc} {f : D → Option (D × Pt)} {r : D × Pt}
    (ht : svc.At u s t pt k) (hcode : svc.code t pt = .tau f) (hf : f s.sh.client.dev = some r) :
    ∃ s', stepFn (svc.client u).prog s (.run t) = some s' := by
  have hpc : s.ctl t = .atPc (.ret (.client (.inside pt k))) := ht
  refine ⟨s.goto t (s.sh.withClient { s.sh.client with dev := r.1 })
    (.ret (.client (.inside r.2 k))), ?_⟩
  simp only [stepFn, hpc, Client.prog, Client.code, Service.client, Service.call, hcode, exec, hf,
    Option.map_some]

/-- What an interrupt does to the data is what its handler does. -/
theorem Service.handler_of_intr {i : I} (h : stepFn (svc.client u).prog s (.intr i) = some s') :
    ∃ x, svc.handler i s.sh.client.dev = some (x, s'.sh.client.dev) := by
  simp only [stepFn, Client.prog, Service.client] at h
  cases hh : svc.handler i s.sh.client.dev with
  | none =>
    simp only [hh, Option.map_none] at h
    cases h
  | some r =>
    obtain ⟨x, d⟩ := r
    refine ⟨x, ?_⟩
    cases x with
    | none | some x =>
      simp only [hh, Option.map_some] at h
      obtain rfl := Option.some.inj h
      rfl

/-- The program as it is booted, with the data `dev` and `own` and the threads at `ctl`. -/
def Service.start (svc : Service Op A L C U I D Pt) (u : UserClient Op A Sh Pc) (dev : D) (own : Sh)
    (ctl : Tid → Ctl Pc) : (svc.client u).St where
  sem x := Semaphore.new ((svc.client u).prog.initial x)
  log x := SemLog.new ((svc.client u).prog.initial x)
  ctl t := ((ctl t).map .own).compile
  prio _ := 0
  sh := .new ⟨dev, own⟩

theorem Service.start_reach {dev : D} {own : Sh} {ctl : Tid → Ctl Pc} (hdev : svc.boot dev)
    (hboot : u.boot own ctl fun _ => 0) :
    (machine (svc.client u).prog).Reach (svc.start u dev own ctl) :=
  .init ⟨fun _ => rfl, fun _ => rfl, rfl, _, ⟨hdev, ctl, hboot, rfl⟩, rfl⟩

end Refinement

/-! ## A service inside another

  An operation may use a service that is a part of its own.  `within` turns the code of the inner service
  into code of the outer one. -/

section Within

variable {A' L' C' U' D' Pt' : Type}

/-- The place of an inner service in an outer one: its locks, conditions and semaphores, its part of the
    data, its points, and the point where the outer code goes on with the answer. -/
structure SvcHost (A' L' C' U' D' Pt' L C U D Pt : Type) where
  lock : L' → L
  cond : C' → C
  sem : U' → U
  get : D → D'
  set : D → D' → D
  pt : Pt' → Pt
  ret : A' → Pt

/-- An action of the inner service as one of the outer service. -/
def SvcAct.within (h : SvcHost A' L' C' U' D' Pt' L C U D Pt) :
    SvcAct A' L' C' U' D' Pt' → SvcAct A L C U D Pt
  | .acquire l k => .acquire (h.lock l) (h.pt k)
  | .release l k => .release (h.lock l) (h.pt k)
  | .wait c k => .wait (h.cond c) (h.pt k)
  | .signal c k => .signal (h.cond c) (h.pt k)
  | .P x k => .P (h.sem x) (h.pt k)
  | .tau f => .tau fun d => (f (h.get d)).map fun r => (h.set d r.1, h.pt r.2)
  | .ret a => .tau fun d => some (d, h.ret a)

variable {h : SvcHost A' L' C' U' D' Pt' L C U D Pt} {a : SvcAct A' L' C' U' D' Pt'}

theorem SvcAct.target_within :
    (a.within h : SvcAct A L C U D Pt).target = a.target.map h.pt := by
  cases a <;> rfl

theorem SvcAct.of_within_acquire {l : L} {k : Pt}
    (e : (a.within h : SvcAct A L C U D Pt) = .acquire l k) :
    ∃ l' k', a = .acquire l' k' ∧ l = h.lock l' ∧ k = h.pt k' := by
  cases a with
  | acquire l' k' =>
    obtain ⟨rfl, rfl⟩ := SvcAct.acquire.inj e
    exact ⟨l', k', rfl, rfl, rfl⟩
  | _ => cases e

theorem SvcAct.of_within_release {l : L} {k : Pt}
    (e : (a.within h : SvcAct A L C U D Pt) = .release l k) :
    ∃ l' k', a = .release l' k' ∧ l = h.lock l' ∧ k = h.pt k' := by
  cases a with
  | release l' k' =>
    obtain ⟨rfl, rfl⟩ := SvcAct.release.inj e
    exact ⟨l', k', rfl, rfl, rfl⟩
  | _ => cases e

theorem SvcAct.of_within_P {x : U} {k : Pt} (e : (a.within h : SvcAct A L C U D Pt) = .P x k) :
    ∃ x' k', a = .P x' k' ∧ x = h.sem x' ∧ k = h.pt k' := by
  cases a with
  | P x' k' =>
    obtain ⟨rfl, rfl⟩ := SvcAct.P.inj e
    exact ⟨x', k', rfl, rfl, rfl⟩
  | _ => cases e

theorem SvcAct.within_ne_ret (x : A) : (a.within h : SvcAct A L C U D Pt) ≠ .ret x := by
  cases a <;> exact nofun

/-- Straight-line code of the inner service, or its return. -/
theorem SvcAct.of_within_tau {f : D → Option (D × Pt)} {d d' : D} {k : Pt}
    (e : (a.within h : SvcAct A L C U D Pt) = .tau f) (hf : f d = some (d', k)) :
    (∃ g x k', a = .tau g ∧ g (h.get d) = some (x, k') ∧ d' = h.set d x ∧ k = h.pt k') ∨
      ∃ x, a = .ret x ∧ d' = d ∧ k = h.ret x := by
  cases a with
  | tau g =>
    obtain rfl := SvcAct.tau.inj e
    obtain ⟨⟨x, k'⟩, hg, heq⟩ := Option.map_eq_some_iff.mp hf
    obtain ⟨rfl, rfl⟩ := Prod.mk.inj heq
    exact Or.inl ⟨g, x, k', rfl, hg, rfl, rfl⟩
  | ret x =>
    obtain rfl := SvcAct.tau.inj e
    obtain ⟨rfl, rfl⟩ := Prod.mk.inj (Option.some.inj hf)
    exact Or.inr ⟨x, rfl, rfl, rfl⟩
  | _ => cases e

theorem SvcAct.Keeps.of_within {k : Pt} (e : (a.within h : SvcAct A L C U D Pt).Keeps k) :
    (∃ k', a.Keeps k' ∧ k = h.pt k') ∨ ∃ x, a = .ret x ∧ k = h.ret x := by
  cases a with
  | acquire l k' => cases e
  | release l k' => cases e
  | wait c k' => cases e; exact Or.inl ⟨k', .wait c k', rfl⟩
  | signal c k' => cases e; exact Or.inl ⟨k', .signal c k', rfl⟩
  | P x k' => cases e; exact Or.inl ⟨k', .P x k', rfl⟩
  | tau g =>
    cases e with
    | tau hf =>
      obtain ⟨⟨x, k'⟩, hg, heq⟩ := Option.map_eq_some_iff.mp hf
      obtain ⟨-, rfl⟩ := Prod.mk.inj heq
      exact Or.inl ⟨k', .tau hg, rfl⟩
  | ret x =>
    cases e with
    | tau hf =>
      obtain ⟨-, rfl⟩ := Prod.mk.inj (Option.some.inj hf)
      exact Or.inr ⟨x, rfl, rfl⟩

end Within

end Nachos
