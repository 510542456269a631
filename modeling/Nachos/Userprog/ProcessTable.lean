/-
  `userprog/exception.cc` — the process table.

  That live processes have distinct identifiers and an entry under theirs is `ProcGood`, and it is not
  true in every run.  The one statement to blame is the second clearing of an entry, by `SC_Join`: when
  it comes, the identifier may have been given to somebody else.  `process_table_iff`: a run is good
  throughout IFF whenever `Join` clears an entry, the entry is free already.
-/
import Nachos.Threads.Kernel
import Nachos.Userprog.Process

set_option linter.unusedSectionVars false

namespace Nachos

variable {US : Type}

/-! ## Every live process has its entry -/

/-- **The contract of the table**: live processes have distinct identifiers, those started by `Exec`
    are in the table under theirs, and no entry of a live process was ever cleared or overwritten by
    another one. -/
structure ProcGood (sh : ProcSh) : Prop where
  distinct : ∀ v w, sh.Live v → sh.Live w → sh.pid v = sh.pid w → v = w
  entry : ∀ v, v ≠ 0 → sh.Live v → sh.processIdTable (sh.pid v) = some v
  kept : sh.lost = false

/-- Clearing the entry takes nothing from anybody: it is clear already, or it is the one `main` made
    for itself and `main` clears it. -/
def ProcSh.entryFree (sh : ProcSh) (t : Tid) (slot : Nat) : Bool :=
  match sh.processIdTable slot with
  | none => true
  | some v => decide (v = 0 ∧ t = 0)

/-- When `Join` clears an entry, the entry is free. -/
def BoxClearsFree (s : ProcState US) (t : Tid) : Prop :=
  ∀ c pid k, s.ctl t = .atPc (.client (.joinClear c pid k)) → s.sh.entryFree t pid = true

section Good

variable {sh sh' : ProcSh} {t c : Tid} {pid : Nat}

theorem entryOfOther_eq_false {slot : Nat} (h : ∀ v, sh.processIdTable slot = some v → v = t) :
    sh.entryOfOther t slot = false := by
  unfold ProcSh.entryOfOther
  split
  · rename_i v hv
    simp [h v hv]
  · rfl

/-- A process's own entry has nobody else in it. -/
theorem ProcGood.own (hg : ProcGood sh) (h : DataOk sh) (ht : sh.Live t) :
    sh.entryOfOther t (sh.pid t) = false := by
  refine entryOfOther_eq_false fun v hv => ?_
  obtain ⟨hl, hp⟩ := h.entry _ v hv
  exact hg.distinct v t hl ht hp

/-- The identifier that `Exec` found belongs to no live process. -/
theorem ProcGood.pid_ne (hg : ProcGood sh) (h : DataOk sh) (hx : Executed sh t c pid sh') {v : Tid}
    (hv : sh.Live v) : sh.pid v ≠ pid := by
  intro heq
  by_cases hv0 : v = 0
  · rw [hv0, h.main] at heq
    have hlo := hx.range.1
    omega
  · have hentry := hg.entry v hv0 hv
    have hfree := hx.free
    rw [heq] at hentry
    by_cases hpt : pid = sh.pid t
    · rw [hpt, Function.update_self] at hfree
      nomatch hfree
    · rw [Function.update_of_ne hpt, hentry] at hfree
      nomatch hfree

theorem ProcGood.exec (hg : ProcGood sh) (h : DataOk sh) (ht : sh.Live t)
    (hx : Executed sh t c pid sh') : ProcGood sh' := by
  have hnew : ∀ v, sh.Live v → sh'.pid v ≠ sh'.pid c := by
    intro v hv
    rw [hx.pid_old hv.1, hx.pid_child]
    exact hg.pid_ne h hx hv
  refine ⟨fun v w hv hw heq => ?_, fun v hv0 hv => ?_, ?_⟩
  · rcases (hx.live_iff h).mp hv with hv | rfl <;> rcases (hx.live_iff h).mp hw with hw | rfl
    · rw [hx.pid_old hv.1, hx.pid_old hw.1] at heq
      exact hg.distinct v w hv hw heq
    · exact absurd heq (hnew v hv)
    · exact absurd heq.symm (hnew w hw)
    · rfl
  · rw [hx.table]
    rcases (hx.live_iff h).mp hv with hv | rfl
    · rw [hx.pid_old hv.1, Function.update_of_ne (hg.pid_ne h hx hv)]
      by_cases hpt : sh.pid v = sh.pid t
      · rw [hpt, Function.update_self, hg.distinct v t hv ht hpt]
      · rw [Function.update_of_ne hpt]
        exact hg.entry v hv0 hv
    · rw [hx.pid_child, Function.update_self]
  · rw [hx.lost, hg.kept, hg.own h ht]
    rfl

theorem ProcGood.joined (hg : ProcGood sh) (hfree : sh.entryFree t pid = true) :
    ProcGood (sh.joined t pid) := by
  have hentry : ∀ v, sh.processIdTable pid = some v → v = 0 ∧ t = 0 := by
    intro v hv
    simp only [ProcSh.entryFree, hv] at hfree
    exact of_decide_eq_true hfree
  refine ⟨hg.distinct, fun v hv0 hv => ?_, ?_⟩
  · have hold := hg.entry v hv0 hv
    have hne : sh.pid v ≠ pid := by
      rintro rfl
      exact hv0 (hentry v hold).1
    exact (Function.update_of_ne hne _ _).trans hold
  · have hno : sh.entryOfOther t pid = false := by
      refine entryOfOther_eq_false fun v hv => ?_
      obtain ⟨rfl, rfl⟩ := hentry v hv
      rfl
    show (sh.lost || sh.entryOfOther t pid) = false
    rw [hg.kept, hno]
    rfl

theorem exit_live_iff (estado : Int) {v : Tid} :
    (sh.exit t estado).Live v ↔ sh.Live v ∧ v ≠ t := by
  obtain ⟨-, hnext, -, -, hexited⟩ := exit_same sh t estado
  unfold ProcSh.Live
  rw [hnext, hexited]
  by_cases hv : v = t
  · subst hv
    simp
  · rw [Function.update_of_ne hv]
    exact ⟨fun hl => ⟨hl, hv⟩, fun hl => hl.1⟩

theorem ProcGood.exit (hg : ProcGood sh) (h : DataOk sh) (hr : sh.Running t) (estado : Int) :
    ProcGood (sh.exit t estado) := by
  have hpid := (exit_same sh t estado).1
  refine ⟨fun v w hv hw heq => ?_, fun v hv0 hv => ?_, ?_⟩
  · rw [hpid] at heq
    exact hg.distinct v w ((exit_live_iff estado).mp hv).1 ((exit_live_iff estado).mp hw).1 heq
  · obtain ⟨hl, hvt⟩ := (exit_live_iff estado).mp hv
    rw [exit_table hr.2, hpid, Function.update_of_ne fun heq => hvt (hg.distinct v t hl hr.1 heq)]
    exact hg.entry v hv0 hl
  · rw [exit_lost hr.2, hg.kept, hg.own h hr.1]
    rfl

/-- A clearing that takes somebody's entry breaks the contract: if it is another process's, by doing
    so; if it is the caller's own, since the caller lives on without one. -/
theorem not_procGood_joined (h : DataOk sh) (hfree : sh.entryFree t pid ≠ true) :
    ¬ ProcGood (sh.joined t pid) := by
  intro hg
  cases hv : sh.processIdTable pid with
  | none => exact hfree (by simp only [ProcSh.entryFree, hv])
  | some v =>
    simp only [ProcSh.entryFree, hv, ne_eq, decide_eq_true_eq] at hfree
    obtain ⟨hl, hp⟩ := h.entry pid v hv
    by_cases hvt : v = t
    · subst hvt
      have hv0 : v ≠ 0 := fun hv0 => hfree ⟨hv0, hv0⟩
      have hentry : Function.update sh.processIdTable pid none (sh.pid v) = some v :=
        hg.entry v hv0 hl
      rw [hp, Function.update_self] at hentry
      nomatch hentry
    · have hkept : (sh.lost || sh.entryOfOther t pid) = false := hg.kept
      have hother : sh.entryOfOther t pid = true := by
        simp [ProcSh.entryOfOther, hv, hvt, hl.2]
      rw [hother, Bool.or_true] at hkept
      nomatch hkept

/-- Step lemma: only the clearing by `Join` can break the contract. -/
theorem ProcGood.step {P : UserProg US} {s s' : ProcState US} (hg : ProcGood s.sh) (h : ProcOk s)
    (hfree : BoxClearsFree s t) (hs : ProcStep P s t s') : ProcGood s'.sh := by
  cases hs with
  | exec hpc hsys hexec =>
    have hr : s.sh.Running t := h.at hpc
    exact hg.exec h.data hr.1 (executed hexec)
  | fork hpc hfresh => exact ⟨hg.distinct, hg.entry, hg.kept⟩
  | @clear c pid k hpc => exact hg.joined (hfree c pid k hpc)
  | @exit u estado hpc hsys => exact hg.exit h.data (h.at hpc) estado
  | _ => exact hg

theorem procGood_of_restrict {P : UserProg US} {s : ProcState US}
    (h : ((boxes P.process).restrict BoxClearsFree).Reach s) : ProcGood s.sh := by
  refine h.invariant (I := fun s => ProcGood s.sh) ?_ ?_
  · rintro s ⟨-, ctl₀, prio, ⟨hsh, -⟩, -⟩
    rw [hsh]
    refine ⟨fun v w hv hw _ => ?_, fun v hv0 hv => ?_, rfl⟩
    · exact (Nat.lt_one_iff.mp hv.1).trans (Nat.lt_one_iff.mp hw.1).symm
    · exact absurd (Nat.lt_one_iff.mp hv.1) hv0
  · rintro s t s' hr hg ⟨hfree, hs⟩
    exact hg.step (procOk_of_reach hr.of_restrict) hfree (BoxStep.proc hs)

end Good

/-! ## The code keeps the table IFF `Join` clears free entries -/

/-- The states of the whole machine that runs processes. -/
abbrev ProcMachine (US : Type) : Type :=
  State (MSem Tid Empty) (MSh Tid (PortCond Tid) (PortSh Tid ProcSh))
    (MPc Tid (PortCond Tid) (PortPc Tid (ProcPc US)))

/-- The data of the processes. -/
def procSh (s : ProcMachine US) : ProcSh := s.sh.client.client

/-- The thread is at this point of its own code. -/
def AtProc (s : ProcMachine US) (t : Tid) (pc : ProcPc US) : Prop :=
  s.ctl t = .atPc (.ret (.client (.client pc)))

/-- The step is not one in which `Join` clears an entry that is in use. -/
def clearsFree (s : ProcMachine US) : Label Empty → Bool
  | .run t =>
    match s.ctl t with
    | .atPc (.ret (.client (.client (.joinClear _ pid _)))) => (procSh s).entryFree t pid
    | _ => true
  | .intr _ => true

section Machine

variable {P : UserProg US} {s s' : ProcMachine US} {t : Tid}

theorem procOk_abs (h : (machine P.process.monitor.prog).Reach s) : ProcOk (P.process.abs s) :=
  procOk_of_reach (port_refines h)

theorem boxClearsFree_abs (s : ProcMachine US) (t : Tid) (hok : clearsFree s (.run t) = true)
    (hown : AtOwn P.process s t) : BoxClearsFree (P.process.abs s) t := by
  intro c pid k hctl
  have hpc := hown _ hctl
  simp only [clearsFree, hpc] at hok
  exact hok

theorem procGood_of_clearsFree
    (h : ((machine P.process.monitor.prog).restrict fun s l => clearsFree s l = true).Reach s) :
    ProcGood (procSh s) :=
  procGood_of_restrict (port_refines_restrict boxClearsFree_abs h)

/-- What the last step of `SC_Join` does. -/
theorem clear_step {c : Tid} {pid : Nat} {k : Int → US} (hpc : AtProc s t (.joinClear c pid k))
    (hs : stepFn P.process.monitor.prog s (.run t) = some s') :
    procSh s' = (procSh s).joined t pid := by
  unfold AtProc at hpc
  simp only [stepFn, hpc] at hs
  obtain rfl := Option.some.inj hs
  rfl

theorem not_procGood_of_clear {l : Label Empty} (h : (machine P.process.monitor.prog).Reach s)
    (hs : stepFn P.process.monitor.prog s l = some s') (hno : ¬ clearsFree s l = true) :
    ¬ ProcGood (procSh s') := by
  cases l with
  | intr i => exact i.elim
  | run t =>
    simp only [clearsFree] at hno
    split at hno
    · rename_i c pid k hpc
      rw [clear_step hpc hs]
      exact not_procGood_joined (procOk_abs h).data hno
    · exact absurd rfl hno

end Machine

/-- **The process table is kept IFF `Join` only clears free entries.**  For every run of any user
    programs, under any interleaving: the contract holds in every state of the run if and only if,
    whenever `SC_Join` executes `processIdTable[pid] = NULL`, the entry is NULL already (or is
    `main`'s and cleared by `main`). -/
theorem process_table_iff {P : UserProg US} {tr : List (ProcMachine US × Label Empty)}
    {s : ProcMachine US} (h : (machine P.process.monitor.prog).Exec tr s) :
    ((∀ e ∈ tr, ProcGood (procSh e.1)) ∧ ProcGood (procSh s)) ↔
      ∀ e ∈ tr, clearsFree e.1 e.2 = true :=
  h.good_iff (fun s => ProcGood (procSh s)) (fun s l => clearsFree s l = true)
    (fun _ hr => procGood_of_clearsFree hr)
    fun _ _ _ hr hs hno => not_procGood_of_clear hr hs hno

/-! ## The kernel runs processes -/

/-- The kernel state that runs processes. -/
abbrev ProcKernel (US : Type) : Type :=
  Kernel (MSem Tid Empty) (MSh Tid (PortCond Tid) (PortSh Tid ProcSh))
    (MPc Tid (PortCond Tid) (PortPc Tid (ProcPc US)))

/-- The kernel as it is booted: `main` is about to run its program. -/
def UserProg.booted (P : UserProg US) : ProcKernel US where
  m := {
    sem _ := Semaphore.new 1
    log _ := SemLog.new 1
    ctl t := if t = 0 then .atPc (.ret (.client (.client (.user P.main)))) else .fresh
    prio _ := 0
    sh := .new ⟨fun _ => true, fun _ => 0, .new, fun _ => [], fun _ => []⟩ }
  currentThread := 0
  readyListP := ReadyLists.empty
  status t := if t = 0 then .running else .justCreated
  threadToBeDestroyed := none
  started t := decide (t = 0)
  deleted := []

theorem UserProg.booted_init (P : UserProg US) : KInit P.process.monitor.prog P.booted := by
  refine ⟨⟨fun x => ?_, fun x => ?_, rfl, fun t => if t = 0 then .atPc (.client (.user P.main))
    else .fresh, ⟨rfl, rfl, rfl, fun t => if t = 0 then .atPc (.user P.main) else .fresh, ⟨rfl, rfl⟩,
    ?_⟩, ?_⟩, ⟨_, rfl⟩, fun t ht => if_neg ht, rfl, rfl, rfl, rfl, rfl, rfl⟩
  · cases x with
    | user u => exact u.elim
    | _ => rfl
  · cases x with
    | user u => exact u.elim
    | _ => rfl
  · funext t
    by_cases ht : t = 0
    · simp only [ht, if_true]
      rfl
    · simp only [ht, if_false]
      rfl
  · funext t
    by_cases ht : t = 0
    · simp only [UserProg.booted, ht, if_true]
      rfl
    · simp only [UserProg.booted, ht, if_false]
      rfl

/-- `main` starts two processes and joins the first, which exits at once; the second starts a third
    one. -/
def reuseProg : UserProg Nat where
  main := 0
  sys
    | 0 => .exec 10 fun _ => 1
    | 1 => .exec 20 fun _ => 2
    | 2 => .join 1 fun _ => 3
    | 10 => .exit 0
    | 20 => .exec 30 fun _ => 21
    | u => .compute u

/-- `main` waits inside `Join`, the first process exits, and `main` returns. -/
def reuseAlone : List (Label Empty) :=
  List.replicate 18 (.run 0) ++ List.replicate 18 (.run 1) ++ List.replicate 15 (.run 0)

/-- Along `reuseAlone` the table is kept. -/
theorem process_table_reuseAlone :
    let s := Lts.replay (stepFn reuseProg.process.monitor.prog) reuseProg.booted.m reuseAlone
    (procSh s).unjoined 0 = [(2, 2)] ∧ ProcGood (procSh s) :=
  ⟨rfl, ((process_table_iff
    (Lts.exec_replay machine_step (.init reuseProg.booted_init.m) reuseAlone)).mpr
    (by decide +kernel)).2⟩

/-- The same with the second process running before `main` gets to the end of its `Join`: `main` is
    preempted where `Wait` has released the lock of the port, the second process after its `Exec`. -/
def reuseRun : List (KLabel Empty) :=
  List.replicate 18 .run ++ [.timer] ++ List.replicate 18 .run ++ [.dispatch] ++
    List.replicate 2 .run ++ [.timer] ++ List.replicate 15 .run

/-- The third process got the identifier of the first, and `main`'s `Join` has cleared its entry. -/
theorem join_clears_live_entry :
    ¬ ∀ k : ProcKernel Nat, (kernel reuseProg.process.monitor.prog).Reach k →
      ProcGood (procSh k.m) := by
  intro h
  have hgood := h (Lts.replay (kstepFn reuseProg.process.monitor.prog) reuseProg.booted reuseRun)
    (Lts.reach_replay kernel_step (.init reuseProg.booted_init) _)
  have hentry := hgood.entry 3 (by decide) ⟨by decide +kernel, by decide +kernel⟩
  exact absurd hentry (by decide +kernel)

end Nachos
