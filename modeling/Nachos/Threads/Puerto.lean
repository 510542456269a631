/-
  `Puerto` of `threads/synch.cc`: message ports.

  A port has a one-place buffer, a flag `access` (the buffer is empty), a lock, and two conditions on
  it.  `Send` waits on `pcondS` until the buffer is empty, `Receive` on `pcondR` until it is full.
  `PortClient` is any multi-threaded program that sends and receives; `PortClient.monitor` compiles its
  calls to the code of `synch.cc`, which is itself a client of locks and conditions.

  What a port is for is said by `BoxStep`: a mailbox with one place, `Send` and `Receive` being one
  atomic step each, that is taken when the box is empty, or full.  `port_refines`: with locks and
  conditions as they are — `Wait` comes back without a signal — every run of the compiled program is a
  run of the mailboxes, because `Send` and `Receive` test again in a loop and the lock keeps everybody
  else out between the last test and the store.  `port_in_order` is what that means for the messages.
-/
import Nachos.Lib.Slot
import Nachos.Threads.Lock

set_option linter.unusedSectionVars false

namespace Nachos

/-! ## Programs that send and receive -/

/-- What a thread does next. -/
inductive PortCall (Port Sh Pc : Type) where
  | send (port : Port) (msg : Int) (k : Pc)
  | receive (port : Port) (k : Pc)
  | tau (f : Sh → Option (Sh × Pc))
  | fork (f : Sh → Option (Forking Sh Pc))
  | yield (k : Pc)
  | finish (upd : Sh → Sh)

/-- A program over ports. -/
structure PortClient (Port Sh Pc : Type) where
  boot : Sh → (Tid → Ctl Pc) → (Tid → Nat) → Prop
  call : Tid → Pc → PortCall Port Sh Pc

variable {Port Sh Pc : Type} [DecidableEq Port]

/-! ## The purpose: mailboxes -/

/-- Where a thread is: in its own code, or in a call. -/
inductive BoxPc (Port Pc : Type) where
  | client (pc : Pc)
  | send (port : Port) (msg : Int) (k : Pc)
  | receive (port : Port) (k : Pc)

/-- The mailboxes, the threads, and the client's data. -/
structure BoxState (Port Sh Pc : Type) where
  box : Port → Slot Int
  ctl : Tid → Ctl (BoxPc Port Pc)
  sh : Sh

/-- The mailbox machine; the label is the thread that moves. -/
inductive BoxStep (cl : PortClient Port Sh Pc) (s : BoxState Port Sh Pc) :
    Tid → BoxState Port Sh Pc → Prop where
  | callSend {t : Tid} {pc k : Pc} {port : Port} {msg : Int} (hpc : s.ctl t = .atPc (.client pc))
      (hcall : cl.call t pc = .send port msg k) :
      BoxStep cl s t { s with ctl := Function.update s.ctl t (.atPc (.send port msg k)) }
  | callReceive {t : Tid} {pc k : Pc} {port : Port} (hpc : s.ctl t = .atPc (.client pc))
      (hcall : cl.call t pc = .receive port k) :
      BoxStep cl s t { s with ctl := Function.update s.ctl t (.atPc (.receive port k)) }
  | send {t : Tid} {k : Pc} {port : Port} {msg : Int} (hpc : s.ctl t = .atPc (.send port msg k))
      (hbox : (s.box port).content = none) :
      BoxStep cl s t { s with
        box := Function.update s.box port ((s.box port).put msg)
        ctl := Function.update s.ctl t (.atPc (.client k)) }
  | receive {t : Tid} {k : Pc} {port : Port} {msg : Int} (hpc : s.ctl t = .atPc (.receive port k))
      (hbox : (s.box port).content = some msg) :
      BoxStep cl s t { s with
        box := Function.update s.box port ((s.box port).take msg)
        ctl := Function.update s.ctl t (.atPc (.client k)) }
  | tau {t : Tid} {pc k : Pc} {f : Sh → Option (Sh × Pc)} {d : Sh}
      (hpc : s.ctl t = .atPc (.client pc)) (hcall : cl.call t pc = .tau f)
      (hf : f s.sh = some (d, k)) :
      BoxStep cl s t { s with ctl := Function.update s.ctl t (.atPc (.client k)), sh := d }
  | fork {t : Tid} {pc : Pc} {f : Sh → Option (Forking Sh Pc)} {a : Forking Sh Pc}
      (hpc : s.ctl t = .atPc (.client pc)) (hcall : cl.call t pc = .fork f) (hf : f s.sh = some a)
      (hfresh : s.ctl a.child = .fresh) :
      BoxStep cl s t { s with
        ctl := Function.update (Function.update s.ctl a.child (.atPc (.client a.start))) t
          (.atPc (.client a.next))
        sh := a.sh }
  | yield {t : Tid} {pc k : Pc} (hpc : s.ctl t = .atPc (.client pc))
      (hcall : cl.call t pc = .yield k) :
      BoxStep cl s t { s with ctl := Function.update s.ctl t (.atPc (.client k)) }
  | finish {t : Tid} {pc : Pc} {upd : Sh → Sh} (hpc : s.ctl t = .atPc (.client pc))
      (hcall : cl.call t pc = .finish upd) :
      BoxStep cl s t { s with ctl := Function.update s.ctl t .finished, sh := upd s.sh }

/-- The mailbox machine starts with empty boxes. -/
def boxes (cl : PortClient Port Sh Pc) : Lts (BoxState Port Sh Pc) Tid where
  init s := (∀ port, s.box port = .empty) ∧
    ∃ ctl₀ prio, cl.boot s.sh ctl₀ prio ∧ s.ctl = fun t => (ctl₀ t).map .client
  step := BoxStep cl

/-- Messages are received in order, once each, and none is lost. -/
theorem boxes_ok {cl : PortClient Port Sh Pc} {s : BoxState Port Sh Pc} (h : (boxes cl).Reach s)
    (port : Port) : (s.box port).Ok := by
  refine h.invariant (I := fun s => (s.box port).Ok) ?_ ?_
  · rintro s ⟨hbox, -⟩
    rw [hbox port]
    exact Slot.Ok.empty
  · intro s t s' _ hok hs
    cases hs with
    | @send k q msg hpc hbox =>
      by_cases hq : port = q
      · subst hq
        simpa using hok.put hbox msg
      · simpa [hq] using hok
    | @receive k q msg hpc hbox =>
      by_cases hq : port = q
      · subst hq
        simpa using hok.take hbox
      · simpa [hq] using hok
    | _ => exact hok

/-! ## The code -/

/-- The conditions of a port. -/
inductive PortCond (Port : Type) where
  | pcondS (port : Port)
  | pcondR (port : Port)
  deriving DecidableEq

/-- The lock that both conditions of a port were built with. -/
def PortCond.plock : PortCond Port → Port
  | .pcondS port => port
  | .pcondR port => port

/-- The points of `Send` and `Receive`: `plock->Acquire()`, the test of the loop, `Wait()`, the
    assignments to `buffer` (or from it) and `access`, `Signal()`, `plock->Release()`. -/
inductive PortPt where
  | acquire
  | test
  | wait
  | assign
  | signal
  | release

/-- The program points of a compiled program. -/
inductive PortPc (Port Pc : Type) where
  | client (pc : Pc)
  | send (port : Port) (msg : Int) (pt : PortPt) (k : Pc)
  | receive (port : Port) (pt : PortPt) (k : Pc)

/-- `Puerto::access` and `Puerto::buffer` of every port, the client's data, and the history: the
    messages stored by `Send` and those read by `Receive`. -/
structure PortSh (Port Sh : Type) where
  access : Port → Bool
  buffer : Port → Int
  client : Sh
  sent : Port → List Int
  received : Port → List Int

namespace PortSh

/-- `buffer = msg; access = false`. -/
def store (sh : PortSh Port Sh) (port : Port) (msg : Int) : PortSh Port Sh :=
  { sh with
    buffer := Function.update sh.buffer port msg
    access := Function.update sh.access port false
    sent := Function.update sh.sent port (sh.sent port ++ [msg]) }

/-- `buf = buffer; access = true`. -/
def read (sh : PortSh Port Sh) (port : Port) : PortSh Port Sh :=
  { sh with
    access := Function.update sh.access port true
    received := Function.update sh.received port (sh.received port ++ [sh.buffer port]) }

end PortSh

namespace PortClient

/-- The code of thread `t`. -/
def code (cl : PortClient Port Sh Pc) (t : Tid) :
    PortPc Port Pc → Call Port (PortCond Port) Empty (PortSh Port Sh) (PortPc Port Pc)
  | .client pc =>
    match cl.call t pc with
    | .send port msg k => .tau fun sh => some (sh, .send port msg .acquire k)
    | .receive port k => .tau fun sh => some (sh, .receive port .acquire k)
    | .tau f => .tau fun sh => (f sh.client).map fun r => ({ sh with client := r.1 }, .client r.2)
    | .fork f => .fork fun sh => (f sh.client).map fun a =>
        ⟨a.child, .client a.start, a.priority, { sh with client := a.sh }, .client a.next⟩
    | .yield k => .yield (.client k)
    | .finish upd => .finish fun sh => { sh with client := upd sh.client }
  -- Puerto::Send
  | .send port msg .acquire k => .acquire port (.send port msg .test k)
  | .send port msg .test k => .tau fun sh =>
      some (sh, if !sh.access port then .send port msg .wait k else .send port msg .assign k)
  | .send port msg .wait k => .wait (.pcondS port) (.send port msg .test k)
  | .send port msg .assign k => .tau fun sh => some (sh.store port msg, .send port msg .signal k)
  | .send port msg .signal k => .signal (.pcondR port) (.send port msg .release k)
  | .send port _ .release k => .release port (.client k)
  -- Puerto::Receive
  | .receive port .acquire k => .acquire port (.receive port .test k)
  | .receive port .test k => .tau fun sh =>
      some (sh, if sh.access port then .receive port .wait k else .receive port .assign k)
  | .receive port .wait k => .wait (.pcondR port) (.receive port .test k)
  | .receive port .assign k => .tau fun sh => some (sh.read port, .receive port .signal k)
  | .receive port .signal k => .signal (.pcondS port) (.receive port .release k)
  | .receive port .release k => .release port (.client k)

/-- The compiled program, a client of locks and conditions.  The constructor sets `access` and leaves
    `buffer` alone. -/
def monitor (cl : PortClient Port Sh Pc) :
    Client Port (PortCond Port) Empty Empty (PortSh Port Sh) (PortPc Port Pc) where
  lockOf := PortCond.plock
  initial := nofun
  boot sh ctl prio :=
    sh.access = (fun _ => true) ∧ sh.sent = (fun _ => []) ∧ sh.received = (fun _ => []) ∧
      ∃ ctl₀, cl.boot sh.client ctl₀ prio ∧ ctl = fun t => (ctl₀ t).map .client
  call := cl.code
  handler := nofun

end PortClient

/-! ## The lock is held where it should be -/

/-- The points between the return of `plock->Acquire()` and the call of `plock->Release()`. -/
def PortPt.inside : PortPt → Bool
  | .acquire => false
  | _ => true

/-- The locks held at a program point. -/
def PortPc.held : PortPc Port Pc → Port → Prop
  | .client _, _ => False
  | .send port _ pt _, l => l = port ∧ pt.inside = true
  | .receive port pt _, l => l = port ∧ pt.inside = true

/-- At a point of the program itself no lock and no condition is called. -/
theorem PortClient.code_client_target (cl : PortClient Port Sh Pc) (t : Tid) (pc : Pc) :
    (cl.code t (.client pc)).target = none := by
  simp only [PortClient.code]
  split <;> rfl

theorem PortClient.disciplined (cl : PortClient Port Sh Pc) : cl.monitor.Disciplined PortPc.held where
  boot := by
    rintro sh ctl prio ⟨-, -, -, ctl₀, -, rfl⟩ t pc hpc l
    cases hc : ctl₀ t with
    | atPc pc₀ =>
      simp only [hc, Ctl.map] at hpc
      obtain rfl := Ctl.atPc.inj hpc
      exact id
    | fresh | finished => simp only [hc, Ctl.map] at hpc; nomatch hpc
  acquire := by
    intro t pc l k hcall
    replace hcall : cl.code t pc = .acquire l k := hcall
    cases pc with
    | client pc =>
      have hnone := cl.code_client_target t pc
      rw [hcall] at hnone
      nomatch hnone
    | send port msg pt k' | receive port pt k' =>
      cases pt with
      | acquire =>
        obtain ⟨rfl, rfl⟩ := Call.acquire.inj hcall
        simp [PortPc.held, PortPt.inside]
      | _ => nomatch hcall
  release := by
    intro t pc l k hcall
    replace hcall : cl.code t pc = .release l k := hcall
    cases pc with
    | client pc =>
      have hnone := cl.code_client_target t pc
      rw [hcall] at hnone
      nomatch hnone
    | send port msg pt k' | receive port pt k' =>
      cases pt with
      | release =>
        obtain ⟨rfl, rfl⟩ := Call.release.inj hcall
        simp [PortPc.held, PortPt.inside]
      | _ => nomatch hcall
  keeps := by
    intro t pc k hkeeps l
    replace hkeeps : (cl.code t pc).Keeps k := hkeeps
    cases pc with
    | client pc =>
      simp only [PortClient.code] at hkeeps
      split at hkeeps
      · obtain ⟨-, rfl⟩ := Call.Keeps.of_some hkeeps
        simp [PortPc.held, PortPt.inside]
      · obtain ⟨-, rfl⟩ := Call.Keeps.of_some hkeeps
        simp [PortPc.held, PortPt.inside]
      · cases hkeeps with
        | tau hf =>
          obtain ⟨r, -, heq⟩ := Option.map_eq_some_iff.mp hf
          obtain ⟨-, rfl⟩ := Prod.mk.inj heq
          exact Iff.rfl
      · cases hkeeps with
        | fork hf =>
          obtain ⟨a, -, rfl⟩ := Option.map_eq_some_iff.mp hf
          exact Iff.rfl
      · cases hkeeps
        exact Iff.rfl
      · nomatch hkeeps
    | send port msg pt k' | receive port pt k' =>
      cases pt with
      | acquire => nomatch hkeeps
      | release => nomatch hkeeps
      | wait => cases hkeeps; exact Iff.rfl
      | signal => cases hkeeps; exact Iff.rfl
      | test =>
        obtain ⟨-, rfl⟩ := Call.Keeps.of_some hkeeps
        split <;> exact Iff.rfl
      | assign =>
        obtain ⟨-, rfl⟩ := Call.Keeps.of_some hkeeps
        exact Iff.rfl
  start := by
    intro t pc f sh a hcall hf l
    replace hcall : cl.code t pc = .fork f := hcall
    cases pc with
    | client pc =>
      simp only [PortClient.code] at hcall
      split at hcall
      case h_4 g _ =>
        obtain rfl := Call.fork.inj hcall
        obtain ⟨b, -, rfl⟩ := Option.map_eq_some_iff.mp hf
        exact id
      all_goals nomatch hcall
    | send port msg pt k' | receive port pt k' => cases pt <;> nomatch hcall

/-! ## What a step can do -/

/-- The assignments are done: for the mailbox, the call has taken place. -/
def PortPt.done : PortPt → Bool
  | .signal => true
  | .release => true
  | _ => false

/-- The mailbox machine's program point. -/
def PortPc.abs : PortPc Port Pc → BoxPc Port Pc
  | .client pc => .client pc
  | .send port msg pt k => if pt.done then .client k else .send port msg k
  | .receive port pt k => if pt.done then .client k else .receive port k

/-- The port that a thread is about to assign to. -/
def PortPc.assigns : PortPc Port Pc → Option Port
  | .send port _ .assign _ => some port
  | .receive port .assign _ => some port
  | _ => none

/-- A thread that is about to assign has seen that it may. -/
def PortPc.Ready (access : Port → Bool) : PortPc Port Pc → Prop
  | .send port _ .assign _ => access port = true
  | .receive port .assign _ => access port = false
  | _ => True

/-- The steps of a compiled program, as the program sees them. -/
inductive PortStep (cl : PortClient Port Sh Pc) (s s' : cl.monitor.St) : Label Empty → Prop where
  | silent {lab : Label Empty} (hview : cl.monitor.view s' = cl.monitor.view s)
      (hsh : s'.sh.client = s.sh.client) : PortStep cl s s' lab
  /-- Between two points of the same call. -/
  | inside {t : Tid} {pc pc' : PortPc Port Pc} (hpc : s.ctl t = .atPc (.ret (.client pc)))
      (habs : pc'.abs = pc.abs) (hready : pc'.Ready s.sh.client.access)
      (hview : cl.monitor.view s' = Function.update (cl.monitor.view s) t (.atPc pc'))
      (hsh : s'.sh.client = s.sh.client) : PortStep cl s s' (.run t)
  | callSend {t : Tid} {pc k : Pc} {port : Port} {msg : Int}
      (hpc : s.ctl t = .atPc (.ret (.client (.client pc)))) (hcall : cl.call t pc = .send port msg k)
      (hview : cl.monitor.view s' =
        Function.update (cl.monitor.view s) t (.atPc (.send port msg .acquire k)))
      (hsh : s'.sh.client = s.sh.client) : PortStep cl s s' (.run t)
  | callReceive {t : Tid} {pc k : Pc} {port : Port}
      (hpc : s.ctl t = .atPc (.ret (.client (.client pc)))) (hcall : cl.call t pc = .receive port k)
      (hview : cl.monitor.view s' =
        Function.update (cl.monitor.view s) t (.atPc (.receive port .acquire k)))
      (hsh : s'.sh.client = s.sh.client) : PortStep cl s s' (.run t)
  | store {t : Tid} {k : Pc} {port : Port} {msg : Int}
      (hpc : s.ctl t = .atPc (.ret (.client (.send port msg .assign k))))
      (hview : cl.monitor.view s' =
        Function.update (cl.monitor.view s) t (.atPc (.send port msg .signal k)))
      (hsh : s'.sh.client = s.sh.client.store port msg) : PortStep cl s s' (.run t)
  | read {t : Tid} {k : Pc} {port : Port}
      (hpc : s.ctl t = .atPc (.ret (.client (.receive port .assign k))))
      (hview : cl.monitor.view s' =
        Function.update (cl.monitor.view s) t (.atPc (.receive port .signal k)))
      (hsh : s'.sh.client = s.sh.client.read port) : PortStep cl s s' (.run t)
  | tau {t : Tid} {pc k : Pc} {f : Sh → Option (Sh × Pc)} {d : Sh}
      (hpc : s.ctl t = .atPc (.ret (.client (.client pc)))) (hcall : cl.call t pc = .tau f)
      (hf : f s.sh.client.client = some (d, k))
      (hview : cl.monitor.view s' = Function.update (cl.monitor.view s) t (.atPc (.client k)))
      (hsh : s'.sh.client = { s.sh.client with client := d }) : PortStep cl s s' (.run t)
  | fork {t : Tid} {pc : Pc} {f : Sh → Option (Forking Sh Pc)} {a : Forking Sh Pc}
      (hpc : s.ctl t = .atPc (.ret (.client (.client pc)))) (hcall : cl.call t pc = .fork f)
      (hf : f s.sh.client.client = some a) (hfresh : s.ctl a.child = .fresh)
      (hview : cl.monitor.view s' = Function.update
        (Function.update (cl.monitor.view s) a.child (.atPc (.client a.start))) t
        (.atPc (.client a.next)))
      (hsh : s'.sh.client = { s.sh.client with client := a.sh }) : PortStep cl s s' (.run t)
  | yield {t : Tid} {pc k : Pc} (hpc : s.ctl t = .atPc (.ret (.client (.client pc))))
      (hcall : cl.call t pc = .yield k)
      (hview : cl.monitor.view s' = Function.update (cl.monitor.view s) t (.atPc (.client k)))
      (hsh : s'.sh.client = s.sh.client) : PortStep cl s s' (.run t)
  | finish {t : Tid} {pc : Pc} {upd : Sh → Sh}
      (hpc : s.ctl t = .atPc (.ret (.client (.client pc)))) (hcall : cl.call t pc = .finish upd)
      (hview : cl.monitor.view s' = Function.update (cl.monitor.view s) t .finished)
      (hsh : s'.sh.client = { s.sh.client with client := upd s.sh.client.client }) :
      PortStep cl s s' (.run t)

section Step

variable {cl : PortClient Port Sh Pc} {s s' : cl.monitor.St}

/-- A call of a lock or a condition is between two points of the same call of the port, and does not
    return to an assignment. -/
theorem target_abs {t : Tid} {pc k : PortPc Port Pc} (h : (cl.code t pc).target = some k) :
    k.abs = pc.abs ∧ k.assigns = none := by
  cases pc with
  | client pc =>
    rw [cl.code_client_target] at h
    nomatch h
  | send port msg pt k' | receive port pt k' =>
    cases pt with
    | test => nomatch h
    | assign => nomatch h
    | _ =>
      obtain rfl := Option.some.inj h
      exact ⟨rfl, rfl⟩

/-- `Ready` reads only the flag of the port that is about to be assigned to. -/
theorem PortPc.Ready.congr {access access' : Port → Bool} {pc : PortPc Port Pc}
    (h : pc.Ready access) (heq : ∀ port, pc.assigns = some port → access' port = access port) :
    pc.Ready access' := by
  cases pc with
  | client pc => exact trivial
  | send q msg pt k | receive q pt k =>
    cases pt with
    | assign => exact (heq q rfl).trans h
    | _ => exact trivial

theorem PortPc.ready_of_assigns {pc : PortPc Port Pc} (h : pc.assigns = none) (access : Port → Bool) :
    pc.Ready access := by
  cases pc with
  | client pc => exact trivial
  | send q msg pt k | receive q pt k =>
    cases pt with
    | assign => nomatch h
    | _ => exact trivial

/-- **Inversion** for compiled programs. -/
theorem ClientStep.port {lab : Label Empty} (hs : ClientStep cl.monitor s s' lab) :
    PortStep cl s s' lab := by
  cases hs with
  | silent hview hsh => exact .silent hview hsh
  | call hpc htarget hview hsh =>
    obtain ⟨habs, hassigns⟩ := target_abs htarget
    exact .inside hpc habs (PortPc.ready_of_assigns hassigns _) hview hsh
  | @user t pc k u => exact u.elim
  | @intr i => exact i.elim
  | @yield t pc k hpc hcall hview hsh =>
    replace hcall : cl.code t pc = .yield k := hcall
    cases pc with
    | client pc =>
      simp only [PortClient.code] at hcall
      split at hcall
      case h_5 k' hk =>
        obtain rfl := Call.yield.inj hcall
        exact .yield hpc hk hview hsh
      all_goals nomatch hcall
    | send port msg pt k' | receive port pt k' => cases pt <;> nomatch hcall
  | @finish t pc upd hpc hcall hview hsh =>
    replace hcall : cl.code t pc = .finish upd := hcall
    cases pc with
    | client pc =>
      simp only [PortClient.code] at hcall
      split at hcall
      case h_6 upd' hk =>
        obtain rfl := Call.finish.inj hcall
        exact .finish hpc hk hview hsh
      all_goals nomatch hcall
    | send port msg pt k' | receive port pt k' => cases pt <;> nomatch hcall
  | @fork t pc f a hpc hcall hf hfresh hview hsh =>
    replace hcall : cl.code t pc = .fork f := hcall
    cases pc with
    | client pc =>
      simp only [PortClient.code] at hcall
      split at hcall
      case h_4 g hk =>
        obtain rfl := Call.fork.inj hcall
        obtain ⟨b, hb, rfl⟩ := Option.map_eq_some_iff.mp hf
        exact .fork hpc hk hb hfresh hview hsh
      all_goals nomatch hcall
    | send port msg pt k' | receive port pt k' => cases pt <;> nomatch hcall
  | @tau t pc k f d hpc hcall hf hview hsh =>
    replace hcall : cl.code t pc = .tau f := hcall
    cases pc with
    | client pc =>
      simp only [PortClient.code] at hcall
      split at hcall
      case h_1 port msg k' hk =>
        obtain rfl := Call.tau.inj hcall
        obtain ⟨rfl, rfl⟩ := Prod.mk.inj (Option.some.inj hf)
        exact .callSend hpc hk hview hsh
      case h_2 port k' hk =>
        obtain rfl := Call.tau.inj hcall
        obtain ⟨rfl, rfl⟩ := Prod.mk.inj (Option.some.inj hf)
        exact .callReceive hpc hk hview hsh
      case h_3 g hk =>
        obtain rfl := Call.tau.inj hcall
        obtain ⟨⟨d', k'⟩, hd, heq⟩ := Option.map_eq_some_iff.mp hf
        obtain ⟨rfl, rfl⟩ := Prod.mk.inj heq
        exact .tau hpc hk hd hview hsh
      all_goals nomatch hcall
    | send port msg pt k' =>
      cases pt with
      | test =>
        obtain rfl := Call.tau.inj hcall
        obtain ⟨rfl, rfl⟩ := Prod.mk.inj (Option.some.inj hf)
        refine .inside hpc ?_ ?_ hview hsh
        · split <;> rfl
        · split
          · exact trivial
          · rename_i haccess
            show s.sh.client.access port = true
            simpa using haccess
      | assign =>
        obtain rfl := Call.tau.inj hcall
        obtain ⟨rfl, rfl⟩ := Prod.mk.inj (Option.some.inj hf)
        exact .store hpc hview hsh
      | _ => nomatch hcall
    | receive port pt k' =>
      cases pt with
      | test =>
        obtain rfl := Call.tau.inj hcall
        obtain ⟨rfl, rfl⟩ := Prod.mk.inj (Option.some.inj hf)
        refine .inside hpc ?_ ?_ hview hsh
        · split <;> rfl
        · split
          · exact trivial
          · rename_i haccess
            show s.sh.client.access port = false
            simpa using haccess
      | assign =>
        obtain rfl := Call.tau.inj hcall
        obtain ⟨rfl, rfl⟩ := Prod.mk.inj (Option.some.inj hf)
        exact .read hpc hview hsh
      | _ => nomatch hcall

end Step

/-! ## The assignments are exclusive -/

/-- Whoever is about to assign has seen that it may. -/
def PortOk {cl : PortClient Port Sh Pc} (s : cl.monitor.St) : Prop :=
  ∀ t pc, cl.monitor.view s t = .atPc pc → pc.Ready s.sh.client.access

section Exclusive

variable {cl : PortClient Port Sh Pc} {s s' : cl.monitor.St}

theorem PortPc.held_of_assigns {pc : PortPc Port Pc} {port : Port} (h : pc.assigns = some port) :
    pc.held port := by
  cases pc with
  | client pc => nomatch h
  | send q msg pt k | receive q pt k =>
    cases pt with
    | assign => exact ⟨(Option.some.inj h).symm, rfl⟩
    | _ => nomatch h

/-- A thread that is about to assign is in its own code: no call returns there. -/
theorem ctl_of_assigns (hr : (machine cl.monitor.prog).Reach s) {t : Tid} {pc : PortPc Port Pc}
    (hview : cl.monitor.view s t = .atPc pc) {port : Port} (h : pc.assigns = some port) :
    s.ctl t = .atPc (.ret (.client pc)) := by
  have hreturns := returns_of_reach (R := fun pc => pc.assigns = none)
    (fun _ _ _ hk => (target_abs hk).2) hr
  cases hc : s.ctl t with
  | fresh | finished => simp only [Client.view, hc] at hview; nomatch hview
  | atPc mpc =>
    simp only [Client.view, hc] at hview
    obtain rfl : mpc.clientPc = pc := Ctl.atPc.inj hview
    rcases hreturns t mpc hc with hret | hnone
    · exact congrArg Ctl.atPc hret
    · rw [hnone] at h
      nomatch h

/-- Two threads that are about to assign to the same port are the same: both hold its lock. -/
theorem assigns_exclusive (hr : (machine cl.monitor.prog).Reach s) {t u : Tid}
    {pc pc' : PortPc Port Pc} (ht : cl.monitor.view s t = .atPc pc)
    (hu : cl.monitor.view s u = .atPc pc') {port : Port} (hpc : pc.assigns = some port)
    (hpc' : pc'.assigns = some port) : t = u :=
  cl.disciplined.exclusive hr (ctl_of_assigns hr ht hpc) (ctl_of_assigns hr hu hpc')
    (PortPc.held_of_assigns hpc) (PortPc.held_of_assigns hpc')

/-- The flags of the ports are as before, and the threads that moved are ready. -/
theorem PortOk.frame (h : PortOk s) (haccess : s'.sh.client.access = s.sh.client.access)
    (hview : ∀ u pc, cl.monitor.view s' u = .atPc pc →
      cl.monitor.view s u = .atPc pc ∨ pc.Ready s.sh.client.access) : PortOk s' := by
  intro u pc hu
  rw [haccess]
  rcases hview u pc hu with hold | hready
  · exact h u pc hold
  · exact hready

/-- Thread `t` moved to a point that is ready. -/
theorem view_or_ready {view : Tid → Ctl (PortPc Port Pc)} {t : Tid} {c : Ctl (PortPc Port Pc)}
    {access : Port → Bool} (hc : ∀ pc, c = .atPc pc → pc.Ready access) (u : Tid)
    (pc : PortPc Port Pc) (hu : Function.update view t c u = .atPc pc) :
    view u = .atPc pc ∨ pc.Ready access := by
  by_cases hut : u = t
  · subst hut
    rw [Function.update_self] at hu
    exact Or.inr (hc pc hu)
  · rw [Function.update_of_ne hut] at hu
    exact Or.inl hu

/-- `t` has assigned: nobody else was about to. -/
theorem PortOk.assign (hr : (machine cl.monitor.prog).Reach s) (h : PortOk s) {t : Tid} {port : Port}
    {pc pc' : PortPc Port Pc} (hpc : s.ctl t = .atPc (.ret (.client pc)))
    (hassigns : pc.assigns = some port) (hafter : ∀ access, pc'.Ready access)
    (hview : cl.monitor.view s' = Function.update (cl.monitor.view s) t (.atPc pc'))
    (haccess : ∀ q, q ≠ port → s'.sh.client.access q = s.sh.client.access q) : PortOk s' := by
  have ht : cl.monitor.view s t = .atPc pc := by
    simp only [Client.view, hpc]
    rfl
  intro u pu hu
  rw [hview] at hu
  by_cases hut : u = t
  · subst hut
    rw [Function.update_self] at hu
    obtain rfl := Ctl.atPc.inj hu
    exact hafter _
  · rw [Function.update_of_ne hut] at hu
    refine (h u pu hu).congr fun q hq => haccess q ?_
    rintro rfl
    exact hut (assigns_exclusive hr hu ht hq hassigns)

/-- Step lemma. -/
theorem PortOk.step {lab : Label Empty} (hr : (machine cl.monitor.prog).Reach s) (h : PortOk s)
    (hs : PortStep cl s s' lab) : PortOk s' := by
  have hclient : ∀ {c : Ctl (PortPc Port Pc)} {k : Pc}, c = .atPc (.client k) →
      ∀ pc, c = .atPc pc → pc.Ready s.sh.client.access := by
    rintro c k rfl pc hpc
    obtain rfl := Ctl.atPc.inj hpc
    exact trivial
  cases hs with
  | silent hview hsh => exact h.frame (by rw [hsh]) fun u pc hu => Or.inl (by rw [← hview]; exact hu)
  | inside hpc habs hready hview hsh =>
    refine h.frame (by rw [hsh]) ?_
    rw [hview]
    refine view_or_ready fun pc hc => ?_
    obtain rfl := Ctl.atPc.inj hc
    exact hready
  | callSend hpc hcall hview hsh | callReceive hpc hcall hview hsh =>
    refine h.frame (by rw [hsh]) ?_
    rw [hview]
    refine view_or_ready fun pc hc => ?_
    obtain rfl := Ctl.atPc.inj hc
    exact trivial
  | store hpc hview hsh | read hpc hview hsh =>
    refine h.assign hr hpc rfl ?_ hview fun q hq => ?_
    · exact fun _ => trivial
    · rw [hsh]
      exact Function.update_of_ne hq _ _
  | tau hpc hcall hf hview hsh =>
    refine h.frame (by rw [hsh]) ?_
    rw [hview]
    exact view_or_ready (hclient rfl)
  | fork hpc hcall hf hfresh hview hsh =>
    refine h.frame (by rw [hsh]) fun u pc hu => ?_
    rw [hview] at hu
    exact (view_or_ready (hclient rfl) u pc hu).elim (view_or_ready (hclient rfl) u pc) Or.inr
  | yield hpc hcall hview hsh =>
    refine h.frame (by rw [hsh]) ?_
    rw [hview]
    exact view_or_ready (hclient rfl)
  | finish hpc hcall hview hsh =>
    refine h.frame (by rw [hsh]) ?_
    rw [hview]
    exact view_or_ready fun _ hc => nomatch hc

theorem portOk_of_reach (hr : (machine cl.monitor.prog).Reach s) : PortOk s := by
  refine hr.invariant (I := PortOk) ?_ ?_
  · intro s hi t pc hpc
    obtain ⟨-, ctl₁, ⟨-, -, -, ctl₀, -, rfl⟩, hctl⟩ := hi.boot
    simp only [Client.view, hctl] at hpc
    cases hc : ctl₀ t with
    | atPc pc₀ =>
      rw [hc] at hpc
      obtain rfl := Ctl.atPc.inj hpc
      exact trivial
    | fresh | finished => rw [hc] at hpc; nomatch hpc
  · intro s lab s' hr hok hs
    exact hok.step hr (mstep_of_stepFn hs).client.port

end Exclusive

/-! ## Ports are mailboxes -/

/-- The mailbox of a port: it is empty when `access` is set, and else it has the message in
    `buffer`. -/
def PortSh.slot (sh : PortSh Port Sh) (port : Port) : Slot Int where
  content := if sh.access port then none else some (sh.buffer port)
  putLog := sh.sent port
  takenLog := sh.received port

/-- The mailbox machine's state. -/
def PortClient.abs (cl : PortClient Port Sh Pc) (s : cl.monitor.St) : BoxState Port Sh Pc where
  box := s.sh.client.slot
  ctl t := (cl.monitor.view s t).map PortPc.abs
  sh := s.sh.client.client

/-- `Send` puts its message into the box. -/
theorem PortSh.slot_store (sh : PortSh Port Sh) (port : Port) (msg : Int) :
    (sh.store port msg).slot = Function.update sh.slot port ((sh.slot port).put msg) := by
  funext q
  by_cases hq : q = port
  · subst hq
    simp [PortSh.slot, PortSh.store, Slot.put]
  · simp [PortSh.slot, PortSh.store, hq]

/-- `Receive` takes the message out of the box. -/
theorem PortSh.slot_read (sh : PortSh Port Sh) (port : Port) :
    (sh.read port).slot = Function.update sh.slot port ((sh.slot port).take (sh.buffer port)) := by
  funext q
  by_cases hq : q = port
  · subst hq
    simp [PortSh.slot, PortSh.read, Slot.take]
  · simp [PortSh.slot, PortSh.read, hq]

section Refinement

variable {cl : PortClient Port Sh Pc} {s s' : cl.monitor.St}

theorem map_update {α β : Type} (f : α → β) (view : Tid → Ctl α) (t : Tid) (c : Ctl α) :
    (fun u => (Function.update view t c u).map f)
      = Function.update (fun u => (view u).map f) t (c.map f) := by
  funext u
  by_cases hu : u = t
  · subst hu
    simp
  · simp [hu]

/-- The mailbox machine's state after a step that moved `t`. -/
theorem abs_update {t : Tid} {c : Ctl (PortPc Port Pc)} {sh' : PortSh Port Sh}
    (hview : cl.monitor.view s' = Function.update (cl.monitor.view s) t c)
    (hsh : s'.sh.client = sh') :
    cl.abs s' = {
      box := sh'.slot
      ctl := Function.update (cl.abs s).ctl t (c.map PortPc.abs)
      sh := sh'.client } := by
  simp only [PortClient.abs, hview, hsh, map_update]

theorem abs_ctl {t : Tid} {pc : PortPc Port Pc} (hpc : s.ctl t = .atPc (.ret (.client pc))) :
    (cl.abs s).ctl t = .atPc pc.abs := by
  simp only [PortClient.abs, Client.view, hpc]
  rfl

/-- `t` is in its own code whenever the mailbox machine says so: it has come out of the call. -/
def AtOwn (cl : PortClient Port Sh Pc) (s : cl.monitor.St) (t : Tid) : Prop :=
  ∀ pc, (cl.abs s).ctl t = .atPc (.client pc) → s.ctl t = .atPc (.ret (.client (.client pc)))

theorem atOwn_client {t : Tid} {pc : Pc} (hpc : s.ctl t = .atPc (.ret (.client (.client pc)))) :
    AtOwn cl s t := by
  intro pc' h
  rw [abs_ctl hpc] at h
  obtain rfl : pc = pc' := BoxPc.client.inj (Ctl.atPc.inj h)
  exact hpc

/-- **Every step of a compiled program is a step of the mailboxes, or invisible to them.** -/
theorem port_step {lab : Label Empty} (hok : PortOk s) (hs : PortStep cl s s' lab) :
    cl.abs s' = cl.abs s ∨
      ∃ t, lab = .run t ∧ BoxStep cl (cl.abs s) t (cl.abs s') ∧ AtOwn cl s t := by
  cases hs with
  | silent hview hsh =>
    refine Or.inl ?_
    simp only [PortClient.abs, hview, hsh]
  | @inside t pc pc' hpc habs hready hview hsh =>
    refine Or.inl ?_
    rw [abs_update hview hsh]
    have hsame : Function.update (cl.abs s).ctl t (Ctl.map PortPc.abs (.atPc pc'))
        = (cl.abs s).ctl := by
      refine Function.update_eq_self_iff.mpr ?_
      rw [abs_ctl hpc, ← habs]
      rfl
    rw [hsame]
    rfl
  | @callSend t pc k port msg hpc hcall hview hsh =>
    refine Or.inr ⟨t, rfl, ?_, atOwn_client hpc⟩
    rw [abs_update hview hsh]
    exact .callSend (abs_ctl hpc) hcall
  | @callReceive t pc k port hpc hcall hview hsh =>
    refine Or.inr ⟨t, rfl, ?_, atOwn_client hpc⟩
    rw [abs_update hview hsh]
    exact .callReceive (abs_ctl hpc) hcall
  | @store t k port msg hpc hview hsh =>
    have haccess : s.sh.client.access port = true := by
      refine hok t (.send port msg .assign k) ?_
      simp only [Client.view, hpc]
      rfl
    refine Or.inr ⟨t, rfl, ?_, fun pc h => ?_⟩
    · rw [abs_update hview hsh, PortSh.slot_store]
      refine BoxStep.send (abs_ctl hpc) ?_
      simp [PortClient.abs, PortSh.slot, haccess]
    · rw [abs_ctl hpc] at h
      nomatch h
  | @read t k port hpc hview hsh =>
    have haccess : s.sh.client.access port = false := by
      refine hok t (.receive port .assign k) ?_
      simp only [Client.view, hpc]
      rfl
    refine Or.inr ⟨t, rfl, ?_, fun pc h => ?_⟩
    · rw [abs_update hview hsh, PortSh.slot_read]
      refine BoxStep.receive (abs_ctl hpc) ?_
      simp [PortClient.abs, PortSh.slot, haccess]
    · rw [abs_ctl hpc] at h
      nomatch h
  | @tau t pc k f d hpc hcall hf hview hsh =>
    refine Or.inr ⟨t, rfl, ?_, atOwn_client hpc⟩
    rw [abs_update hview hsh]
    exact .tau (abs_ctl hpc) hcall hf
  | @fork t pc f a hpc hcall hf hfresh hview hsh =>
    have hfresh' : (cl.abs s).ctl a.child = .fresh := by
      simp only [PortClient.abs, Client.view, hfresh]
      rfl
    have heq : cl.abs s' = { cl.abs s with
        ctl := Function.update (Function.update (cl.abs s).ctl a.child (.atPc (.client a.start))) t
          (.atPc (.client a.next))
        sh := a.sh } := by
      simp only [PortClient.abs, hview, hsh, map_update]
      rfl
    refine Or.inr ⟨t, rfl, ?_, atOwn_client hpc⟩
    rw [heq]
    exact .fork (abs_ctl hpc) hcall hf hfresh'
  | @yield t pc k hpc hcall hview hsh =>
    refine Or.inr ⟨t, rfl, ?_, atOwn_client hpc⟩
    rw [abs_update hview hsh]
    exact .yield (abs_ctl hpc) hcall
  | @finish t pc upd hpc hcall hview hsh =>
    refine Or.inr ⟨t, rfl, ?_, atOwn_client hpc⟩
    rw [abs_update hview hsh]
    exact .finish (abs_ctl hpc) hcall

/-- Initially the mailboxes are empty. -/
theorem abs_init (hi : Init cl.monitor.prog s) : (boxes cl).init (cl.abs s) := by
  obtain ⟨hsh, ctl₁, ⟨haccess, hsent, hreceived, ctl₀, hboot, rfl⟩, hctl⟩ := hi.boot
  refine ⟨fun port => ?_, ctl₀, s.prio, hboot, ?_⟩
  · simp only [PortClient.abs, PortSh.slot, haccess, hsent, hreceived]
    rfl
  · funext t
    simp only [PortClient.abs, Client.view, hctl]
    cases ctl₀ t <;> rfl

/-- **Ports refine mailboxes**, for every program and every interleaving. -/
theorem port_refines (hr : (machine cl.monitor.prog).Reach s) : (boxes cl).Reach (cl.abs s) := by
  refine hr.simulate cl.abs (fun _ hi => abs_init hi) ?_
  intro s lab s' hr _ hs
  refine (port_step (portOk_of_reach hr) (mstep_of_stepFn hs).client.port).imp_right ?_
  rintro ⟨t, -, hstep, -⟩
  exact ⟨t, hstep⟩

/-- The same for runs whose steps all meet a condition, if the condition on the compiled program
    says what the condition on the mailboxes says about threads in their own code. -/
theorem port_refines_restrict {ok : cl.monitor.St → Label Empty → Prop}
    {okBox : BoxState Port Sh Pc → Tid → Prop}
    (hok : ∀ s t, ok s (.run t) → AtOwn cl s t → okBox (cl.abs s) t)
    (hr : ((machine cl.monitor.prog).restrict ok).Reach s) :
    ((boxes cl).restrict okBox).Reach (cl.abs s) := by
  refine hr.simulate (N := (boxes cl).restrict okBox) cl.abs (fun _ hi => abs_init hi) ?_
  rintro s lab s' hr - ⟨hmeets, hs⟩
  have hstep := port_step (portOk_of_reach hr.of_restrict) (mstep_of_stepFn hs).client.port
  refine hstep.imp_right ?_
  rintro ⟨t, rfl, hbox, hown⟩
  exact ⟨t, hok s t hmeets hown, hbox⟩

end Refinement

/-- **Messages arrive in order, once each, and none is lost.**  For every program, any number of
    senders and receivers and every interleaving: at every port the messages stored by `Send` are the
    messages read by `Receive`, in the same order, followed by the one in `buffer` if `access` is
    false. -/
theorem port_in_order {cl : PortClient Port Sh Pc} {s : cl.monitor.St}
    (hr : (machine cl.monitor.prog).Reach s) (port : Port) :
    s.sh.client.sent port = s.sh.client.received port ++
      if s.sh.client.access port then [] else [s.sh.client.buffer port] := by
  have hok : (s.sh.client.slot port).Ok := boxes_ok (port_refines hr) port
  have hcontent : (s.sh.client.slot port).content.toList
      = if s.sh.client.access port then [] else [s.sh.client.buffer port] := by
    unfold PortSh.slot
    split <;> rfl
  rw [← hcontent]
  exact hok

/-- Thread 1 receives and the others send. -/
def sevenClient : PortClient Unit Unit Nat where
  boot _ ctl _ := ctl = fun _ => .atPc 0
  call t pc :=
    match pc with
    | 0 => if t = 1 then .receive () 1 else .send () (7 + t) 1
    | _ => .finish id

/-- `sevenClient` as it is booted. -/
def sevenInit : sevenClient.monitor.St where
  sem _ := Semaphore.new 1
  log _ := SemLog.new 1
  ctl _ := .atPc (.ret (.client (.client 0)))
  prio _ := 0
  sh := .new ⟨fun _ => true, fun _ => 0, (), fun _ => [], fun _ => []⟩

theorem sevenInit_reach : (machine sevenClient.monitor.prog).Reach sevenInit := by
  refine .init ⟨fun x => ?_, fun x => ?_, rfl, fun _ => .atPc (.client 0),
    ⟨rfl, rfl, rfl, fun _ => .atPc 0, rfl, rfl⟩, rfl⟩
  · cases x with
    | user u => exact u.elim
    | _ => rfl
  · cases x with
    | user u => exact u.elim
    | _ => rfl

/-- Thread 0 sends 7, thread 1 receives it, and thread 2 has put 9 in the buffer. -/
def sevenSchedule : List (Label Empty) :=
  List.replicate 15 (.run 0) ++ List.replicate 15 (.run 1) ++ List.replicate 10 (.run 2)

theorem port_in_order_seven :
    let s := Lts.replay (stepFn sevenClient.monitor.prog) sevenInit sevenSchedule
    s.sh.client.sent () = [7, 9] ∧ s.sh.client.received () = [7] ∧ s.sh.client.access () = false ∧
      s.sh.client.sent () = s.sh.client.received () ++
        if s.sh.client.access () then [] else [s.sh.client.buffer ()] :=
  ⟨rfl, rfl, rfl, port_in_order (Lts.reach_replay machine_step sevenInit_reach sevenSchedule) ()⟩

end Nachos
