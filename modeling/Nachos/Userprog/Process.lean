/-
  `userprog/exception.cc`, `threads/thread.cc` — user processes: `SC_Exec`, `SC_Join`, `SC_Exit`, and
  the part of `Thread` they rest on (`Fork` with a join port, `Join`, `Finish`).

  `processIdTable` maps process identifiers to threads.  `Exec` enters the new thread under the lowest
  free identifier.  `Exit` clears the caller's entry, and `Finish` then sends a message on the thread's
  own port.  `Join` looks the thread up, waits for that message, and clears the entry AGAIN.

  User programs are arbitrary: a user state says which system call comes next, and how the program
  goes on with the value the call leaves in register 2.  A process is a thread of the port machine, so
  `Send` and `Receive` run the code of `synch.cc`; the proofs are over the mailboxes that the ports
  refine.  A failed `ASSERT`, `Halt` and a use of a NULL pointer end the run.

  `ProcOk` holds in every run: an entry of the table is always a live process, under its own
  identifier; a process that has called `Exit` is on its way out; a message on a port means that its
  owner has called `Exit`.
-/
import Nachos.Threads.Puerto

set_option linter.unusedSectionVars false

namespace Nachos

/-! ## The data -/

/-- `maxCantProcess` of `threads/system.h`. -/
def maxCantProcess : Nat := 100

/-- What the kernel keeps about processes: the table; `Thread::pid`, `Thread::space` (set or NULL) and
    `Thread::join` of every thread; the number of processes; the next `Thread` object; register 2 of
    every process, as a system call left it.  Then the history: the status a process passed to `Exit`;
    the identifiers that `Exec` returned to a process and that it has not joined, with the threads that
    were created; and whether a table entry of a live process was ever cleared or overwritten by
    another process. -/
structure ProcSh where
  processIdTable : Nat → Option Tid
  pid : Tid → Nat
  space : Tid → Bool
  join : Tid → Bool
  cantProcesses : Int
  nextThread : Tid
  r2 : Tid → Int
  exited : Tid → Option Int
  unjoined : Tid → List (Nat × Tid)
  lost : Bool

/-- The table is empty; thread 0 is `main`, whose address space is loaded. -/
def ProcSh.new : ProcSh where
  processIdTable _ := none
  pid _ := 0
  space t := decide (t = 0)
  join _ := false
  cantProcesses := 1
  nextThread := 1
  r2 _ := 0
  exited _ := none
  unjoined _ := []
  lost := false

namespace ProcSh

/-- The entry belongs to a live process other than `t`. -/
def entryOfOther (sh : ProcSh) (t : Tid) (slot : Nat) : Bool :=
  match sh.processIdTable slot with
  | some v => decide (v ≠ t) && (sh.exited v).isNone
  | none => false

/-- `processIdTable[slot] = e`, done by `t`. -/
def setEntry (sh : ProcSh) (t : Tid) (slot : Nat) (e : Option Tid) : ProcSh :=
  { sh with
    processIdTable := Function.update sh.processIdTable slot e
    lost := sh.lost || sh.entryOfOther t slot }

/-- `pid = 1; while (processIdTable[pid] != NULL) pid++`; `none` when there is no free entry, which
    ends in `ASSERT(false)`. -/
def freePid (table : Nat → Option Tid) : Option Nat :=
  (List.range' 1 (maxCantProcess - 1)).find? fun pid => (table pid).isNone

/-- `SC_Exec` and `do_Exec` up to `processIdTable[pid] = execThread`. -/
def exec (sh : ProcSh) (t : Tid) : Option (ProcSh × Tid × Nat) :=
  let sh₁ := sh.setEntry t (sh.pid t) (some t)
  match freePid sh₁.processIdTable with
  | none => none
  | some pid =>
    some ({ (sh₁.setEntry t pid (some sh.nextThread)) with
      pid := Function.update sh.pid sh.nextThread pid
      nextThread := sh.nextThread + 1
      r2 := Function.update sh.r2 t pid }, sh.nextThread, pid)

/-- The rest of `do_Exec`: the address space, `cantProcesses++`, and `Fork` with a join port. -/
def forked (sh : ProcSh) (t execThread : Tid) (pid : Nat) : ProcSh :=
  { sh with
    space := Function.update sh.space execThread true
    cantProcesses := sh.cantProcesses + 1
    join := Function.update sh.join execThread true
    unjoined := Function.update sh.unjoined t (sh.unjoined t ++ [(pid, execThread)]) }

/-- `processIdTable[pid]`, for `Join`; `none` when it is NULL or outside the table. -/
def lookup (sh : ProcSh) (pid : Int) : Option Tid :=
  if 0 ≤ pid ∧ pid < maxCantProcess then sh.processIdTable pid.toNat else none

/-- `SC_Join` after `Thread::Join`: `processIdTable[pid] = NULL`, and register 2 is set to 0. -/
def joined (sh : ProcSh) (t : Tid) (pid : Nat) : ProcSh :=
  { (sh.setEntry t pid none) with
    r2 := Function.update sh.r2 t 0
    unjoined := Function.update sh.unjoined t ((sh.unjoined t).filter fun r => r.1 ≠ pid) }

/-- `SC_Exit` up to `Finish`. -/
def exit (sh : ProcSh) (t : Tid) (estado : Int) : ProcSh :=
  let sh₁ := if sh.space t then
      { (sh.setEntry t (sh.pid t) none) with space := Function.update sh.space t false }
    else sh
  { sh₁ with
    cantProcesses := sh.cantProcesses - 1
    exited := Function.update sh.exited t (some estado) }

end ProcSh

/-! ## The code -/

/-- What a user program does next; `k` takes the value of register 2. -/
inductive Sys (US : Type) where
  | exec (start : US) (k : Int → US)
  | join (pid : Int) (k : Int → US)
  | exit (estado : Int)
  | compute (u : US)

/-- User programs: which system call comes next, and where `main` starts. -/
structure UserProg (US : Type) where
  sys : US → Sys US
  main : US

/-- Where a process is: in user mode, or at a point of a system call. -/
inductive ProcPc (US : Type) where
  | user (u : US)
  | execFork (execThread : Tid) (pid : Nat) (start k : US)
  | joinReceive (child : Tid) (pid : Nat) (k : Int → US)
  | joinClear (child : Tid) (pid : Nat) (k : Int → US)
  | finishSend
  | finish

variable {US : Type}

/-- The code of thread `t`; the port of a thread is its `portJoin`. -/
def UserProg.code (P : UserProg US) (t : Tid) : ProcPc US → PortCall Tid ProcSh (ProcPc US)
  | .user u =>
    match P.sys u with
    | .compute u' => .tau fun sh => some (sh, .user u')
    | .exec start k => .tau fun sh => (sh.exec t).map fun r =>
        (r.1, .execFork r.2.1 r.2.2 start (k r.2.2))
    | .join pid k => .tau fun sh => (sh.lookup pid).map fun child =>
        -- `Thread::Join` does nothing for a thread that was not forked with a port
        (sh, if sh.join child then .joinReceive child pid.toNat k else .joinClear child pid.toNat k)
    | .exit estado => .tau fun sh =>
        -- the last process halts the machine
        if sh.cantProcesses - 1 ≤ 0 then none
        else some (sh.exit t estado, if sh.join t then .finishSend else .finish)
  | .execFork execThread pid start k => .fork fun sh =>
      some ⟨execThread, .user start, 0, sh.forked t execThread pid, .user k⟩
  | .joinReceive child pid k => .receive child (.joinClear child pid k)
  | .joinClear _ pid k => .tau fun sh => some (sh.joined t pid, .user (k 0))
  | .finishSend => .send t 0 .finish
  | .finish => .finish id

/-- The processes, a program over ports. -/
def UserProg.process (P : UserProg US) : PortClient Tid ProcSh (ProcPc US) where
  boot sh ctl _ := sh = .new ∧ ctl = fun t => if t = 0 then .atPc (.user P.main) else .fresh
  call := P.code

/-- The states of the mailbox machine that runs processes. -/
abbrev ProcState (US : Type) : Type := BoxState Tid ProcSh (ProcPc US)

/-! ## What a step can do -/

/-- The steps of processes over mailboxes. -/
inductive ProcStep (P : UserProg US) (s : ProcState US) : Tid → ProcState US → Prop where
  | compute {t : Tid} {u u' : US} (hpc : s.ctl t = .atPc (.client (.user u))) :
      ProcStep P s t { s with ctl := Function.update s.ctl t (.atPc (.client (.user u'))) }
  | exec {t c : Tid} {u start : US} {k : Int → US} {sh' : ProcSh} {pid : Nat}
      (hpc : s.ctl t = .atPc (.client (.user u))) (hsys : P.sys u = .exec start k)
      (hexec : s.sh.exec t = some (sh', c, pid)) :
      ProcStep P s t { s with
        ctl := Function.update s.ctl t (.atPc (.client (.execFork c pid start (k pid))))
        sh := sh' }
  | fork {t c : Tid} {pid : Nat} {start k : US}
      (hpc : s.ctl t = .atPc (.client (.execFork c pid start k))) (hfresh : s.ctl c = .fresh) :
      ProcStep P s t { s with
        ctl := Function.update (Function.update s.ctl c (.atPc (.client (.user start)))) t
          (.atPc (.client (.user k)))
        sh := s.sh.forked t c pid }
  | lookup {t c : Tid} {u : US} {pid : Int} {k : Int → US}
      (hpc : s.ctl t = .atPc (.client (.user u))) (hsys : P.sys u = .join pid k)
      (hlook : s.sh.lookup pid = some c) :
      ProcStep P s t { s with
        ctl := Function.update s.ctl t (.atPc (.client
          (if s.sh.join c then .joinReceive c pid.toNat k else .joinClear c pid.toNat k))) }
  | callReceive {t c : Tid} {pid : Nat} {k : Int → US}
      (hpc : s.ctl t = .atPc (.client (.joinReceive c pid k))) :
      ProcStep P s t { s with
        ctl := Function.update s.ctl t (.atPc (.receive c (.joinClear c pid k))) }
  | receive {t port : Tid} {k : ProcPc US} {msg : Int} (hpc : s.ctl t = .atPc (.receive port k))
      (hbox : (s.box port).content = some msg) :
      ProcStep P s t { s with
        box := Function.update s.box port ((s.box port).take msg)
        ctl := Function.update s.ctl t (.atPc (.client k)) }
  | clear {t c : Tid} {pid : Nat} {k : Int → US}
      (hpc : s.ctl t = .atPc (.client (.joinClear c pid k))) :
      ProcStep P s t { s with
        ctl := Function.update s.ctl t (.atPc (.client (.user (k 0))))
        sh := s.sh.joined t pid }
  | exit {t : Tid} {u : US} {estado : Int} (hpc : s.ctl t = .atPc (.client (.user u)))
      (hsys : P.sys u = .exit estado) :
      ProcStep P s t { s with
        ctl := Function.update s.ctl t (.atPc (.client (if s.sh.join t then .finishSend else .finish)))
        sh := s.sh.exit t estado }
  | callSend {t : Tid} (hpc : s.ctl t = .atPc (.client .finishSend)) :
      ProcStep P s t { s with ctl := Function.update s.ctl t (.atPc (.send t 0 .finish)) }
  | send {t port : Tid} {k : ProcPc US} {msg : Int} (hpc : s.ctl t = .atPc (.send port msg k))
      (hbox : (s.box port).content = none) :
      ProcStep P s t { s with
        box := Function.update s.box port ((s.box port).put msg)
        ctl := Function.update s.ctl t (.atPc (.client k)) }
  | finish {t : Tid} (hpc : s.ctl t = .atPc (.client .finish)) :
      ProcStep P s t { s with ctl := Function.update s.ctl t .finished }

/-- A system call begins with an action on the kernel's data. -/
theorem UserProg.code_user (P : UserProg US) (t : Tid) (u : US) : ∃ f, P.code t (.user u) = .tau f := by
  simp only [UserProg.code]
  split <;> exact ⟨_, rfl⟩

/-- **Inversion** for processes. -/
theorem BoxStep.proc {P : UserProg US} {s s' : ProcState US} {t : Tid}
    (hs : BoxStep P.process s t s') : ProcStep P s t s' := by
  cases hs with
  | send hpc hbox => exact .send hpc hbox
  | receive hpc hbox => exact .receive hpc hbox
  | @callSend pc k port msg hpc hcall =>
    replace hcall : P.code t pc = .send port msg k := hcall
    cases pc with
    | finishSend =>
      obtain ⟨rfl, rfl, rfl⟩ := PortCall.send.inj hcall
      exact .callSend hpc
    | user u =>
      obtain ⟨f, hf⟩ := P.code_user t u
      rw [hf] at hcall
      nomatch hcall
    | _ => nomatch hcall
  | @callReceive pc k port hpc hcall =>
    replace hcall : P.code t pc = .receive port k := hcall
    cases pc with
    | joinReceive c pid k' =>
      obtain ⟨rfl, rfl⟩ := PortCall.receive.inj hcall
      exact .callReceive hpc
    | user u =>
      obtain ⟨f, hf⟩ := P.code_user t u
      rw [hf] at hcall
      nomatch hcall
    | _ => nomatch hcall
  | @fork pc g a hpc hcall hg hfresh =>
    replace hcall : P.code t pc = .fork g := hcall
    cases pc with
    | execFork c pid start k =>
      obtain rfl := PortCall.fork.inj hcall
      obtain rfl := Option.some.inj hg
      exact .fork hpc hfresh
    | user u =>
      obtain ⟨f, hf⟩ := P.code_user t u
      rw [hf] at hcall
      nomatch hcall
    | _ => nomatch hcall
  | @yield pc k hpc hcall =>
    replace hcall : P.code t pc = .yield k := hcall
    cases pc with
    | user u =>
      obtain ⟨f, hf⟩ := P.code_user t u
      rw [hf] at hcall
      nomatch hcall
    | _ => nomatch hcall
  | @finish pc upd hpc hcall =>
    replace hcall : P.code t pc = .finish upd := hcall
    cases pc with
    | finish =>
      obtain rfl := PortCall.finish.inj hcall
      exact .finish hpc
    | user u =>
      obtain ⟨f, hf⟩ := P.code_user t u
      rw [hf] at hcall
      nomatch hcall
    | _ => nomatch hcall
  | @tau pc k f d hpc hcall hf =>
    replace hcall : P.code t pc = .tau f := hcall
    cases pc with
    | joinClear c pid k' =>
      obtain rfl := PortCall.tau.inj hcall
      obtain ⟨rfl, rfl⟩ := Prod.mk.inj (Option.some.inj hf)
      exact .clear hpc
    | user u =>
      simp only [UserProg.code] at hcall
      split at hcall
      · obtain rfl := PortCall.tau.inj hcall
        obtain ⟨rfl, rfl⟩ := Prod.mk.inj (Option.some.inj hf)
        exact .compute hpc
      · rename_i start k' hsys
        obtain rfl := PortCall.tau.inj hcall
        obtain ⟨⟨sh', c, pid⟩, hexec, heq⟩ := Option.map_eq_some_iff.mp hf
        obtain ⟨rfl, rfl⟩ := Prod.mk.inj heq
        exact .exec hpc hsys hexec
      · rename_i pid k' hsys
        obtain rfl := PortCall.tau.inj hcall
        obtain ⟨c, hlook, heq⟩ := Option.map_eq_some_iff.mp hf
        obtain ⟨rfl, rfl⟩ := Prod.mk.inj heq
        exact .lookup hpc hsys hlook
      · rename_i estado hsys
        obtain rfl := PortCall.tau.inj hcall
        simp only at hf
        split at hf
        · nomatch hf
        · obtain ⟨rfl, rfl⟩ := Prod.mk.inj (Option.some.inj hf)
          exact .exit hpc hsys
    | _ => nomatch hcall

/-! ## The table of every run -/

/-- The process exists and has not called `Exit`. -/
def ProcSh.Live (sh : ProcSh) (t : Tid) : Prop :=
  t < sh.nextThread ∧ sh.exited t = none

/-- What holds of the kernel's data in every run. -/
structure DataOk (sh : ProcSh) : Prop where
  entry : ∀ q v, sh.processIdTable q = some v → sh.Live v ∧ sh.pid v = q
  main : sh.pid 0 = 0
  pids : ∀ v, v ≠ 0 → v < sh.nextThread → 1 ≤ sh.pid v ∧ sh.pid v < maxCantProcess
  record : ∀ t p c, (p, c) ∈ sh.unjoined t →
    c ≠ 0 ∧ c < sh.nextThread ∧ sh.pid c = p ∧ sh.join c = true
  next : 0 < sh.nextThread
  unborn : ∀ v, sh.nextThread ≤ v → sh.exited v = none

section Data

variable {sh sh' : ProcSh} {t c : Tid} {pid : Nat}

theorem freePid_spec {table : Nat → Option Tid} (h : ProcSh.freePid table = some pid) :
    1 ≤ pid ∧ pid < maxCantProcess ∧ table pid = none := by
  have hfree := List.find?_some h
  have hmem := List.mem_range'_1.mp (List.mem_of_find?_eq_some h)
  refine ⟨hmem.1, ?_, Option.isNone_iff_eq_none.mp hfree⟩
  have hlt := hmem.2
  simp only [maxCantProcess] at hlt ⊢
  omega

/-- What `Exec` does: the caller enters itself, the new process gets a free identifier. -/
structure Executed (sh : ProcSh) (t c : Tid) (pid : Nat) (sh' : ProcSh) : Prop where
  child : c = sh.nextThread
  range : 1 ≤ pid ∧ pid < maxCantProcess
  free : Function.update sh.processIdTable (sh.pid t) (some t) pid = none
  table : sh'.processIdTable =
    Function.update (Function.update sh.processIdTable (sh.pid t) (some t)) pid (some c)
  pids : sh'.pid = Function.update sh.pid c pid
  next : sh'.nextThread = sh.nextThread + 1
  same : sh'.space = sh.space ∧ sh'.join = sh.join ∧ sh'.exited = sh.exited ∧
    sh'.unjoined = sh.unjoined
  lost : sh'.lost = (sh.lost || sh.entryOfOther t (sh.pid t))

theorem executed (h : sh.exec t = some (sh', c, pid)) : Executed sh t c pid sh' := by
  simp only [ProcSh.exec] at h
  split at h
  · nomatch h
  · rename_i p hfree
    obtain ⟨rfl, hc⟩ := Prod.mk.inj (Option.some.inj h)
    obtain ⟨rfl, rfl⟩ := Prod.mk.inj hc
    obtain ⟨hlo, hhi, hnone⟩ := freePid_spec hfree
    refine ⟨rfl, ⟨hlo, hhi⟩, hnone, rfl, rfl, rfl, ⟨rfl, rfl, rfl, rfl⟩, ?_⟩
    have hown : (sh.setEntry t (sh.pid t) (some t)).entryOfOther t p = false := by
      unfold ProcSh.entryOfOther
      rw [hnone]
    show (_ || _) = _
    rw [hown, Bool.or_false]
    rfl

theorem Executed.ne_child (hx : Executed sh t c pid sh') {v : Tid} (hv : v < sh.nextThread) :
    v ≠ c := by
  rw [hx.child]
  exact Nat.ne_of_lt hv

/-- The threads after `Exec`: those from before and the new one. -/
theorem Executed.lt_next (hx : Executed sh t c pid sh') {v : Tid} :
    v < sh'.nextThread ↔ v < sh.nextThread ∨ v = c := by
  rw [hx.next, hx.child]
  exact Nat.lt_succ_iff_lt_or_eq

/-- The others keep their identifiers. -/
theorem Executed.pid_old (hx : Executed sh t c pid sh') {v : Tid} (hv : v < sh.nextThread) :
    sh'.pid v = sh.pid v := by
  rw [hx.pids, Function.update_of_ne (hx.ne_child hv)]

theorem Executed.pid_child (hx : Executed sh t c pid sh') : sh'.pid c = pid := by
  rw [hx.pids, Function.update_self]

theorem Executed.live_iff (hx : Executed sh t c pid sh') (h : DataOk sh) {v : Tid} :
    sh'.Live v ↔ sh.Live v ∨ v = c := by
  unfold ProcSh.Live
  rw [hx.lt_next, hx.same.2.2.1]
  have hc : sh.exited c = none := h.unborn c (Nat.le_of_eq hx.child.symm)
  constructor
  · rintro ⟨hv | rfl, hex⟩
    · exact Or.inl ⟨hv, hex⟩
    · exact Or.inr rfl
  · rintro (⟨hv, hex⟩ | rfl)
    · exact ⟨Or.inl hv, hex⟩
    · exact ⟨Or.inr rfl, hc⟩

theorem DataOk.exec (h : DataOk sh) (ht : sh.Live t) (hx : Executed sh t c pid sh') :
    DataOk sh' := by
  refine ⟨fun q v hq => ?_, ?_, fun v hv hlt => ?_, fun u p v hmem => ?_, ?_, fun v hv => ?_⟩
  · rw [hx.table] at hq
    by_cases hqp : q = pid
    · subst hqp
      rw [Function.update_self] at hq
      obtain rfl := Option.some.inj hq
      exact ⟨(hx.live_iff h).mpr (Or.inr rfl), hx.pid_child⟩
    · rw [Function.update_of_ne hqp] at hq
      by_cases hqt : q = sh.pid t
      · subst hqt
        rw [Function.update_self] at hq
        obtain rfl := Option.some.inj hq
        exact ⟨(hx.live_iff h).mpr (Or.inl ht), hx.pid_old ht.1⟩
      · rw [Function.update_of_ne hqt] at hq
        obtain ⟨hl, hp⟩ := h.entry q v hq
        exact ⟨(hx.live_iff h).mpr (Or.inl hl), (hx.pid_old hl.1).trans hp⟩
  · rw [hx.pid_old h.next]
    exact h.main
  · rcases hx.lt_next.mp hlt with hold | rfl
    · rw [hx.pid_old hold]
      exact h.pids v hv hold
    · rw [hx.pid_child]
      exact hx.range
  · rw [hx.same.2.2.2] at hmem
    obtain ⟨hne, hlt, hp, hj⟩ := h.record u p v hmem
    exact ⟨hne, hx.lt_next.mpr (Or.inl hlt), (hx.pid_old hlt).trans hp, by
      rw [hx.same.2.1]; exact hj⟩
  · exact hx.lt_next.mpr (Or.inl h.next)
  · rw [hx.same.2.2.1]
    refine h.unborn v (Nat.le_of_lt ?_)
    rw [hx.next] at hv
    exact hv

theorem DataOk.forked (h : DataOk sh) (hc : c ≠ 0) (hlt : c < sh.nextThread) (hpid : sh.pid c = pid) :
    DataOk (sh.forked t c pid) := by
  refine ⟨h.entry, h.main, h.pids, fun u p v hmem => ?_, h.next, h.unborn⟩
  have hjoin : v = c ∨ sh.join v = true → (sh.forked t c pid).join v = true := by
    rintro (rfl | hj)
    · exact Function.update_self _ _ _
    · simp only [ProcSh.forked, Function.update_apply]
      split
      · rfl
      · exact hj
  have hold : (p, v) ∈ sh.unjoined u → v ≠ 0 ∧ v < sh.nextThread ∧ sh.pid v = p ∧
      (sh.forked t c pid).join v = true := by
    intro hm
    obtain ⟨hne, hv, hp, hj⟩ := h.record u p v hm
    exact ⟨hne, hv, hp, hjoin (Or.inr hj)⟩
  replace hmem : (p, v) ∈ Function.update sh.unjoined t (sh.unjoined t ++ [(pid, c)]) u := hmem
  by_cases hut : u = t
  · subst hut
    rw [Function.update_self] at hmem
    rcases List.mem_append.mp hmem with hm | hm
    · exact hold hm
    · obtain ⟨rfl, rfl⟩ := Prod.mk.inj (List.mem_singleton.mp hm)
      exact ⟨hc, hlt, hpid, hjoin (Or.inl rfl)⟩
  · rw [Function.update_of_ne hut] at hmem
    exact hold hmem

theorem DataOk.joined (h : DataOk sh) : DataOk (sh.joined t pid) := by
  refine ⟨fun q v hq => ?_, h.main, h.pids, fun u p v hmem => ?_, h.next, h.unborn⟩
  · replace hq : Function.update sh.processIdTable pid none q = some v := hq
    by_cases hqp : q = pid
    · subst hqp
      rw [Function.update_self] at hq
      nomatch hq
    · rw [Function.update_of_ne hqp] at hq
      exact h.entry q v hq
  · replace hmem : (p, v) ∈ Function.update sh.unjoined t
      ((sh.unjoined t).filter fun r => r.1 ≠ pid) u := hmem
    refine h.record u p v ?_
    by_cases hut : u = t
    · subst hut
      rw [Function.update_self] at hmem
      exact (List.mem_filter.mp hmem).1
    · rw [Function.update_of_ne hut] at hmem
      exact hmem

theorem exit_table (hspace : sh.space t = true) (estado : Int) :
    (sh.exit t estado).processIdTable = Function.update sh.processIdTable (sh.pid t) none := by
  simp only [ProcSh.exit, hspace, if_true]
  rfl

theorem exit_lost (hspace : sh.space t = true) (estado : Int) :
    (sh.exit t estado).lost = (sh.lost || sh.entryOfOther t (sh.pid t)) := by
  simp only [ProcSh.exit, hspace, if_true]
  rfl

/-- The rest of what `Exit` does and does not change. -/
theorem exit_same (sh : ProcSh) (t : Tid) (estado : Int) :
    (sh.exit t estado).pid = sh.pid ∧ (sh.exit t estado).nextThread = sh.nextThread ∧
    (sh.exit t estado).join = sh.join ∧ (sh.exit t estado).unjoined = sh.unjoined ∧
    (sh.exit t estado).exited = Function.update sh.exited t (some estado) := by
  unfold ProcSh.exit
  split <;> exact ⟨rfl, rfl, rfl, rfl, rfl⟩

theorem DataOk.exit (h : DataOk sh) (ht : sh.Live t) (hspace : sh.space t = true) (estado : Int) :
    DataOk (sh.exit t estado) := by
  obtain ⟨hpid, hnext, hjoin, hunjoined, hexited⟩ := exit_same sh t estado
  refine ⟨fun q v hq => ?_, by rw [hpid]; exact h.main, fun v => by rw [hpid, hnext]; exact h.pids v,
    fun u p v => by rw [hpid, hnext, hjoin, hunjoined]; exact h.record u p v,
    by rw [hnext]; exact h.next, fun v hv => ?_⟩
  · -- the entry is not the one of `t`, so its process is not `t`
    rw [exit_table hspace] at hq
    have hne : q ≠ sh.pid t := by
      rintro rfl
      rw [Function.update_self] at hq
      nomatch hq
    rw [Function.update_of_ne hne] at hq
    obtain ⟨⟨hlt, hex⟩, hp⟩ := h.entry q v hq
    have hvt : v ≠ t := by
      rintro rfl
      exact hne hp.symm
    refine ⟨⟨by rw [hnext]; exact hlt, ?_⟩, by rw [hpid]; exact hp⟩
    rw [hexited, Function.update_of_ne hvt]
    exact hex
  · rw [hnext] at hv
    have hvt : v ≠ t := Nat.ne_of_gt (Nat.lt_of_lt_of_le ht.1 hv)
    rw [hexited, Function.update_of_ne hvt]
    exact h.unborn v hv

theorem dataOk_new : DataOk .new := by
  refine ⟨fun _ _ hq => (nomatch hq), rfl, fun v hv hlt => ?_, fun _ _ _ hm => ?_, Nat.one_pos,
    fun _ _ => rfl⟩
  · exact absurd (Nat.lt_one_iff.mp hlt) hv
  · exact absurd hm List.not_mem_nil

end Data

/-! ## Where the processes are -/

/-- The process is live and its address space is loaded. -/
def ProcSh.Running (sh : ProcSh) (t : Tid) : Prop :=
  sh.Live t ∧ sh.space t = true

/-- What a program point says about the process that is there. -/
def CtlOk (sh : ProcSh) (t : Tid) : Ctl (BoxPc Tid (ProcPc US)) → Prop
  | .fresh => sh.exited t = none
  | .finished => sh.exited t ≠ none
  | .atPc (.client (.user _)) => sh.Running t
  | .atPc (.client (.execFork c pid _ _)) =>
    sh.Running t ∧ c ≠ 0 ∧ c < sh.nextThread ∧ sh.pid c = pid
  | .atPc (.client (.joinReceive _ _ _)) => sh.Running t
  | .atPc (.receive port k) => sh.Running t ∧ ∃ pid k', k = .joinClear port pid k'
  | .atPc (.client (.joinClear c pid _)) =>
    sh.Running t ∧ ((pid, c) ∈ sh.unjoined t → sh.exited c ≠ none)
  | .atPc (.client .finishSend) => sh.exited t ≠ none
  | .atPc (.send port _ k) => sh.exited t ≠ none ∧ port = t ∧ k = .finish
  | .atPc (.client .finish) => sh.exited t ≠ none

/-- What holds in every run.  A message on a process's port means that it has called `Exit`. -/
structure ProcOk (s : ProcState US) : Prop where
  data : DataOk s.sh
  ctl : ∀ t, CtlOk s.sh t (s.ctl t)
  sent : ∀ c, (s.box c).putLog ≠ [] → s.sh.exited c ≠ none

/-- What a step of `t` leaves alone in the data of the other processes. -/
structure Moves (t : Tid) (sh sh' : ProcSh) : Prop where
  next : ∀ v, v < sh.nextThread → v < sh'.nextThread
  exited : ∀ v, v ≠ t → sh'.exited v = sh.exited v
  gone : sh.exited t ≠ none → sh'.exited t ≠ none
  space : ∀ v, v ≠ t → sh.space v = true → sh'.space v = true
  pid : ∀ v, v < sh.nextThread → sh'.pid v = sh.pid v
  unjoined : ∀ v, v ≠ t → sh'.unjoined v = sh.unjoined v

section Moves

variable {sh sh' : ProcSh} {t u c : Tid} {pid : Nat}

theorem Moves.refl (t : Tid) (sh : ProcSh) : Moves t sh sh :=
  ⟨fun _ => id, fun _ _ => rfl, id, fun _ _ => id, fun _ _ => rfl, fun _ _ => rfl⟩

theorem Moves.exec (hx : Executed sh t c pid sh') : Moves t sh sh' := by
  obtain ⟨hspace, -, hexited, hunjoined⟩ := hx.same
  exact ⟨fun v hv => hx.lt_next.mpr (Or.inl hv), fun v _ => by rw [hexited], by rw [hexited]; exact id,
    fun v _ => by rw [hspace]; exact id, fun v => hx.pid_old, fun v _ => by rw [hunjoined]⟩

theorem Moves.forked : Moves t sh (sh.forked t c pid) := by
  refine ⟨fun _ => id, fun _ _ => rfl, id, fun v _ hv => ?_, fun _ _ => rfl,
    fun v hv => Function.update_of_ne hv _ _⟩
  simp only [ProcSh.forked, Function.update_apply]
  split
  · rfl
  · exact hv

theorem Moves.joined : Moves t sh (sh.joined t pid) :=
  ⟨fun _ => id, fun _ _ => rfl, id, fun _ _ => id, fun _ _ => rfl,
    fun _ hv => Function.update_of_ne hv _ _⟩

theorem Moves.exit (estado : Int) : Moves t sh (sh.exit t estado) := by
  obtain ⟨hpid, hnext, -, hunjoined, hexited⟩ := exit_same sh t estado
  refine ⟨fun v => by rw [hnext]; exact id, fun v hv => ?_, fun _ => ?_, fun v hv hs => ?_,
    fun v _ => by rw [hpid], fun v _ => by rw [hunjoined]⟩
  · rw [hexited, Function.update_of_ne hv]
  · rw [hexited, Function.update_self]
    exact Option.some_ne_none _
  · unfold ProcSh.exit
    split
    · exact (Function.update_of_ne hv _ _).trans hs
    · exact hs

theorem Moves.gone_all (h : Moves t sh sh') (hv : sh.exited u ≠ none) : sh'.exited u ≠ none := by
  by_cases hut : u = t
  · subst hut
    exact h.gone hv
  · rw [h.exited u hut]
    exact hv

theorem Moves.running (h : Moves t sh sh') (hu : u ≠ t) (hr : sh.Running u) : sh'.Running u :=
  ⟨⟨h.next u hr.1.1, (h.exited u hu).trans hr.1.2⟩, h.space u hu hr.2⟩

/-- A step of `t` does not change what the others know. -/
theorem CtlOk.frame {ctl : Ctl (BoxPc Tid (ProcPc US))} (hok : CtlOk sh u ctl) (h : Moves t sh sh')
    (hu : u ≠ t) : CtlOk sh' u ctl := by
  cases ctl with
  | fresh => exact (h.exited u hu).trans hok
  | finished => exact h.gone_all hok
  | atPc pc =>
    cases pc with
    | send port msg k => exact ⟨h.gone_all hok.1, hok.2⟩
    | receive port k => exact ⟨h.running hu hok.1, hok.2⟩
    | client pc =>
      cases pc with
      | user u' => exact h.running hu hok
      | execFork c pid start k =>
        obtain ⟨hr, hne, hlt, hp⟩ := hok
        exact ⟨h.running hu hr, hne, h.next c hlt, (h.pid c hlt).trans hp⟩
      | joinReceive c pid k => exact h.running hu hok
      | joinClear c pid k =>
        refine ⟨h.running hu hok.1, fun hmem => h.gone_all (hok.2 ?_)⟩
        rw [h.unjoined u hu] at hmem
        exact hmem
      | finishSend | finish => exact h.gone_all hok

/-- `t` moved. -/
theorem CtlOk.update {old : Tid → Ctl (BoxPc Tid (ProcPc US))} {ctl : Ctl (BoxPc Tid (ProcPc US))}
    (hothers : ∀ v, v ≠ t → CtlOk sh v (old v)) (ht : CtlOk sh t ctl) (v : Tid) :
    CtlOk sh v (Function.update old t ctl v) :=
  (Function.forall_update_iff old fun v c => CtlOk sh v c).mpr ⟨ht, hothers⟩ v

end Moves

section Invariant

variable {P : UserProg US} {s s' : ProcState US} {t : Tid}

theorem ProcOk.at (h : ProcOk s) {pc : BoxPc Tid (ProcPc US)} (hpc : s.ctl t = .atPc pc) :
    CtlOk s.sh t (.atPc pc) := by
  rw [← hpc]
  exact h.ctl t

theorem ProcOk.others (h : ProcOk s) {sh' : ProcSh} (hm : Moves t s.sh sh') (v : Tid) (hv : v ≠ t) :
    CtlOk sh' v (s.ctl v) :=
  (h.ctl v).frame hm hv

/-- A child that is looked up by its parent was forked with a port, so the parent waits. -/
theorem ProcOk.lookup (h : ProcOk s) (hr : s.sh.Running t) (c : Tid) (pid : Nat) (k : Int → US) :
    CtlOk s.sh t (.atPc (.client
      (if s.sh.join c then .joinReceive c pid k else .joinClear c pid k))) := by
  split
  · exact hr
  · rename_i hjoin
    refine ⟨hr, fun hmem => ?_⟩
    exact absurd (h.data.record t pid c hmem).2.2.2 hjoin

/-- Step lemma. -/
theorem ProcOk.step (h : ProcOk s) (hbox : ∀ port, (s.box port).Ok) (hs : ProcStep P s t s') :
    ProcOk s' := by
  cases hs with
  | @compute u u' hpc =>
    have hr : s.sh.Running t := h.at hpc
    exact ⟨h.data, CtlOk.update (h.others (.refl t _)) hr, h.sent⟩
  | @exec c u start k sh' pid hpc hsys hexec =>
    have hr : s.sh.Running t := h.at hpc
    have hx := executed hexec
    have hm := Moves.exec hx
    refine ⟨h.data.exec hr.1 hx, CtlOk.update (h.others hm) ?_, fun v hv => hm.gone_all (h.sent v hv)⟩
    refine ⟨⟨(hx.live_iff h.data).mpr (Or.inl hr.1), by rw [hx.same.1]; exact hr.2⟩, ?_,
      hx.lt_next.mpr (Or.inr rfl), hx.pid_child⟩
    rw [hx.child]
    exact Nat.ne_of_gt h.data.next
  | @fork c pid start k hpc hfresh =>
    obtain ⟨hr, hne, hlt, hp⟩ := h.at hpc
    have hm : Moves t s.sh (s.sh.forked t c pid) := .forked
    have hct : c ≠ t := by
      rintro rfl
      rw [hpc] at hfresh
      nomatch hfresh
    have hborn : s.sh.exited c = none := by
      have hc := h.ctl c
      rw [hfresh] at hc
      exact hc
    refine ⟨h.data.forked hne hlt hp, CtlOk.update (fun v hvt => ?_) ⟨hr.1, ?_⟩, h.sent⟩
    · by_cases hvc : v = c
      · subst hvc
        rw [Function.update_self]
        exact ⟨⟨hlt, hborn⟩, Function.update_self _ _ _⟩
      · rw [Function.update_of_ne hvc]
        exact h.others hm v hvt
    · exact (Function.update_of_ne (Ne.symm hct) _ _).trans hr.2
  | @lookup c u pid k hpc hsys hlook =>
    exact ⟨h.data, CtlOk.update (h.others (.refl t _)) (h.lookup (h.at hpc) c pid.toNat k), h.sent⟩
  | @callReceive c pid k hpc =>
    exact ⟨h.data, CtlOk.update (h.others (.refl t _)) ⟨h.at hpc, pid, k, rfl⟩, h.sent⟩
  | @receive port k msg hpc hcontent =>
    obtain ⟨hr, pid, k', rfl⟩ := h.at hpc
    -- there was a message, and only the process itself sends on its port
    have hput : (s.box port).putLog ≠ [] := by
      have hlog : (s.box port).putLog = (s.box port).takenLog ++ (s.box port).content.toList :=
        hbox port
      rw [hlog, hcontent]
      exact List.append_ne_nil_of_right_ne_nil _ (List.cons_ne_nil _ _)
    refine ⟨h.data, CtlOk.update (h.others (.refl t _)) ⟨hr, fun _ => h.sent port hput⟩, fun v hv => ?_⟩
    refine h.sent v ?_
    by_cases hvp : v = port
    · subst hvp
      exact hput
    · simpa [hvp] using hv
  | @clear c pid k hpc =>
    obtain ⟨hr, -⟩ := h.at hpc
    exact ⟨h.data.joined, CtlOk.update (h.others .joined) hr, h.sent⟩
  | @exit u estado hpc hsys =>
    have hr : s.sh.Running t := h.at hpc
    have hm : Moves t s.sh (s.sh.exit t estado) := .exit estado
    have hgone : (s.sh.exit t estado).exited t ≠ none := by
      rw [(exit_same s.sh t estado).2.2.2.2, Function.update_self]
      exact Option.some_ne_none _
    refine ⟨h.data.exit hr.1 hr.2 estado, CtlOk.update (h.others hm) ?_,
      fun v hv => hm.gone_all (h.sent v hv)⟩
    split <;> exact hgone
  | callSend hpc => exact ⟨h.data, CtlOk.update (h.others (.refl t _)) ⟨h.at hpc, rfl, rfl⟩, h.sent⟩
  | @send port k msg hpc hcontent =>
    obtain ⟨hgone, rfl, rfl⟩ := h.at hpc
    refine ⟨h.data, CtlOk.update (h.others (.refl port _)) hgone, fun v hv => ?_⟩
    by_cases hvp : v = port
    · subst hvp
      exact hgone
    · refine h.sent v ?_
      simpa [hvp] using hv
  | finish hpc => exact ⟨h.data, CtlOk.update (h.others (.refl t _)) (h.at hpc), h.sent⟩

theorem procOk_of_reach (h : (boxes P.process).Reach s) : ProcOk s := by
  refine h.invariant (I := ProcOk) ?_ ?_
  · rintro s ⟨hbox, ctl₀, prio, ⟨hsh, rfl⟩, hctl⟩
    refine ⟨by rw [hsh]; exact dataOk_new, fun t => ?_, fun c hc => ?_⟩
    · rw [hctl, hsh]
      by_cases ht : t = 0
      · subst ht
        exact ⟨⟨Nat.one_pos, rfl⟩, rfl⟩
      · simp only [ht, if_false]
        exact rfl
    · rw [hbox c] at hc
      exact absurd rfl hc
  · intro s t s' hr hok hs
    exact hok.step (boxes_ok hr) (BoxStep.proc hs)

end Invariant

end Nachos
