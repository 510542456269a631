/-
  `userprog/exception.cc` — the indices that system calls use on `descriptores` and on `processIdTable`.

  User programs put what they like into the argument registers, and any number of processes make calls in any order.
  A call that waits in `Join` goes on when other calls have been made.

  1. **One call** (`within_handle`) — the indices it uses are indices of the tables IFF the call meets `IndexOk`: what
     SC_Read and SC_Write check lets the index `MAX_OPEN_FILES` pass, SC_Close and SC_Join check nothing, and the
     searches of `AssignId` and of SC_Exec do not stop at the end of a full table.

  2. **Runs** (`table_indices_iff`) — so all indices used along a run are in range IFF all its steps meet the
     condition.
-/
import Nachos.Userprog.Exception

namespace Nachos

/-! ## The system -/

/-- The system calls, with what they find in new memory and what the file system returns. -/
inductive SysCall where
  | read (buffer mem : Bytes)
  | write (buffer : Bytes) (mem : Nat → Bytes)
  | open_ (opened : Option Nat) (id : BitVec 32)
  | close
  | exec (executable : Bool) (descriptores : Nat → Option Nat)
  | join
  | exit

/-- The cases of `ExceptionHandler`. -/
def SysState.handle (s : SysState) (bigEndian : Bool) : SysCall → Traced Access SysState
  | .read buffer mem => s.scRead bigEndian buffer mem
  | .write buffer mem => s.scWrite bigEndian buffer mem
  | .open_ opened id => s.scOpen opened id
  | .close => s.scClose
  | .exec executable descriptores => s.scExec executable descriptores
  | .join => s.scJoin
  | .exit => s.scExit

/-- The identifier that a call waits for, if it is `Join`. -/
def SysState.waitsFor (s : SysState) : SysCall → Option Int
  | .join => some (s.arg 4)
  | _ => none

/-- The kernel with all its processes: those inside `Join`, with the identifier they wait for; the indices used
    so far; and whether a call has ended the run. -/
structure TableSys where
  sys : SysState
  joining : Tid → Option Int
  used : List Access
  halted : Bool

/-- A thread makes a call, or comes out of the wait in `Join`.  The machine is as the thread has left it: any
    program may have run. -/
inductive TableAct where
  | call (t : Tid) (machine : Machine) (c : SysCall)
  | joined (t : Tid) (machine : Machine)

instance (sh : ProcSh) (t : Tid) : Decidable (sh.Live t) :=
  inferInstanceAs (Decidable (t < sh.nextThread ∧ sh.exited t = none))

namespace TableSys

/-- The handler's view when `t` runs. -/
def enter (s : TableSys) (t : Tid) (machine : Machine) : SysState :=
  { s.sys with currentThread := t, machine := machine }

/-- The state after a part of a call of `t`. -/
def record (s : TableSys) (t : Tid) (wait : Option Int) (x : Traced Access SysState) : TableSys :=
  match x.result with
  | none => { s with used := s.used ++ x.used, halted := true }
  | some sys => ⟨sys, Function.update s.joining t wait, s.used ++ x.used, false⟩

/-- One step. -/
def step (bigEndian : Bool) (s : TableSys) : TableAct → Option TableSys
  | .call t machine c =>
    if s.halted = false ∧ s.sys.proc.Live t ∧ s.joining t = none then
      let sys := s.enter t machine
      some (s.record t (sys.waitsFor c) (sys.handle bigEndian c))
    else none
  | .joined t machine =>
    if s.halted then none
    else (s.joining t).map fun pid => s.record t none ((s.enter t machine).scJoined pid)

end TableSys

/-- Any processes making any calls. -/
def tables (bigEndian : Bool) : Lts TableSys TableAct where
  init s := s.sys.proc = .new ∧ s.joining = (fun _ => none) ∧ s.used = [] ∧ s.halted = false
  step s a s' := s.step bigEndian a = some s'

/-- Every index that was used is one of its table. -/
def TableSys.InRange (s : TableSys) : Prop := ∀ a ∈ s.used, a.InRange

/-- The condition on a call. -/
def SysState.CallOk (s : SysState) (bigEndian : Bool) : SysCall → Prop
  | .read _ _ => s.arg 6 ≠ maxOpenFiles
  | .write buffer _ => s.arg 6 = maxOpenFiles →
      s.machine.readBuffFromUsr bigEndian (s.machine.get 4) buffer (s.arg 5).toNat = none
  | .open_ opened _ => opened ≠ none → ∃ i, 3 ≤ i ∧ i < maxOpenFiles ∧ s.descriptores s.currentThread i = none
  | .close => 0 ≤ s.arg 4 ∧ s.arg 4 < maxOpenFiles
  | .exec executable _ => executable = true →
      ∃ i, 1 ≤ i ∧ i < maxCantProcess ∧ i ≠ s.proc.pid s.currentThread ∧ s.proc.processIdTable i = none
  | .join => 0 ≤ s.arg 4 ∧ s.arg 4 < maxCantProcess
  | .exit => True

/-- The condition on a step: coming out of `Join` has none. -/
def TableSys.IndexOk (bigEndian : Bool) (s : TableSys) : TableAct → Prop
  | .call t machine c => (s.enter t machine).CallOk bigEndian c
  | .joined _ _ => True

/-! ## One call -/

namespace SysState

variable {s : SysState} {bigEndian : Bool}

theorem within_useEntry {α : Type} {a : Access} {f : Unit → Traced Access α} :
    Traced.Within Access.InRange (useEntry a >>= f) ↔ a.InRange ∧ Traced.Within Access.InRange (f ()) := by
  rw [useEntry, Traced.within_use_bind]
  constructor
  · rintro ⟨hin, hrest⟩
    exact ⟨hin, hrest hin⟩
  · rintro ⟨hin, hrest⟩
    exact ⟨hin, fun _ => hrest⟩

theorem descriptor_inRange {i : Nat} : (Access.descriptor i).InRange ↔ i < maxOpenFiles := by
  simp only [Access.InRange]
  omega

theorem process_inRange {i : Nat} : (Access.process i).InRange ↔ i < maxCantProcess := by
  simp only [Access.InRange]
  omega

/-- SC_Read and SC_Write check the identifier, but let one pass that they should not. -/
theorem within_onFile {id : Int} {f : Nat → Option SysState} :
    Traced.Within Access.InRange (s.onFile id f) ↔ id ≠ maxOpenFiles := by
  rw [onFile]
  split
  · rename_i hid
    have hrange : (Access.descriptor id).InRange ↔ id ≠ maxOpenFiles := by
      simp only [Access.InRange]
      omega
    rw [within_useEntry, hrange]
    constructor
    · rintro ⟨hne, -⟩
      exact hne
    · intro hne
      refine ⟨hne, ?_⟩
      cases s.descriptor id with
      | none => exact Traced.within_stop
      | some file => exact within_useEntry.mpr ⟨hrange.mpr hne, Traced.within_ofOption _⟩
  · rename_i hid
    refine ⟨fun _ heq => hid ?_, fun _ => Traced.within_stop⟩
    rw [heq]
    decide

/-- With the console's identifiers before it. -/
theorem within_console {id console : Int} (hconsole : console ≠ maxOpenFiles) {x : Traced Access SysState}
    (hx : Traced.Within Access.InRange x) {f : Nat → Option SysState} :
    Traced.Within Access.InRange (if id = console then x else s.onFile id f) ↔ id ≠ maxOpenFiles := by
  split
  · rename_i hid
    exact ⟨fun _ => hid ▸ hconsole, fun _ => hx⟩
  · exact within_onFile

theorem within_scRead (buffer mem : Bytes) :
    Traced.Within Access.InRange (s.scRead bigEndian buffer mem) ↔ s.arg 6 ≠ maxOpenFiles :=
  within_console (by decide) (Traced.within_ofOption _)

theorem within_scWrite (buffer : Bytes) (mem : Nat → Bytes) :
    Traced.Within Access.InRange (s.scWrite bigEndian buffer mem) ↔ (s.arg 6 = maxOpenFiles →
      s.machine.readBuffFromUsr bigEndian (s.machine.get 4) buffer (s.arg 5).toNat = none) := by
  rw [scWrite, Traced.within_bind, Traced.result_ofOption]
  cases hread : s.machine.readBuffFromUsr bigEndian (s.machine.get 4) buffer (s.arg 5).toNat with
  | none => exact ⟨fun _ _ => rfl, fun _ => ⟨Traced.within_ofOption _, fun a ha => by cases ha⟩⟩
  | some r =>
    have hiff : Traced.Within Access.InRange
        (if s.arg 6 = consoleOutput then pure (({ s with machine := r.1 } : SysState).scWriteConsole r.2)
        else ({ s with machine := r.1 } : SysState).onFile (s.arg 6)
          (({ s with machine := r.1 } : SysState).scWriteFile r.2 mem)) ↔ s.arg 6 ≠ maxOpenFiles :=
      within_console (by decide) (Traced.within_pure _)
    constructor
    · rintro ⟨-, hrest⟩ hid
      exact absurd hid (hiff.mp (hrest r rfl))
    · intro h
      refine ⟨Traced.within_ofOption _, fun a ha => ?_⟩
      cases ha
      refine hiff.mpr fun hid => ?_
      have hnone := h hid
      cases hnone

theorem within_scOpen (opened : Option Nat) (id : BitVec 32) :
    Traced.Within Access.InRange (s.scOpen opened id) ↔
      (opened ≠ none → ∃ i, 3 ≤ i ∧ i < maxOpenFiles ∧ s.descriptores s.currentThread i = none) := by
  cases opened with
  | none => exact ⟨fun _ h => absurd rfl h, fun _ => Traced.within_pure _⟩
  | some file =>
    have hsearch : Traced.Within Access.InRange (Traced.firstFree (fun i => Access.descriptor i) maxOpenFiles
          (fun i => (s.descriptores s.currentThread i).isNone) maxOpenFiles 3) ↔
        ∃ i, 3 ≤ i ∧ i < maxOpenFiles ∧ (s.descriptores s.currentThread i).isNone = true :=
      Traced.within_firstFree (fun i => descriptor_inRange) (by decide) (by decide)
    simp only [Option.isNone_iff_eq_none] at hsearch
    have hassign : Traced.Within Access.InRange (s.assignId file) ↔
        ∃ i, 3 ≤ i ∧ i < maxOpenFiles ∧ s.descriptores s.currentThread i = none := by
      rw [assignId, Traced.within_bind, hsearch]
      constructor
      · rintro ⟨hfree, -⟩
        exact hfree
      · intro hfree
        refine ⟨hfree, fun i hi => ?_⟩
        -- the entry that was found is in the table
        have hlt := (Traced.firstFree_result hi).2.1
        exact within_useEntry.mpr ⟨descriptor_inRange.mpr hlt, Traced.within_pure _⟩
    show Traced.Within Access.InRange (s.assignId file >>= _) ↔ _
    rw [Traced.within_bind, hassign]
    constructor
    · rintro ⟨hfree, -⟩ -
      exact hfree
    · intro h
      exact ⟨h (by simp), fun _ _ => Traced.within_pure _⟩

theorem within_scClose : Traced.Within Access.InRange s.scClose ↔ 0 ≤ s.arg 4 ∧ s.arg 4 < maxOpenFiles := by
  rw [scClose, within_useEntry]
  constructor
  · rintro ⟨hin, -⟩
    exact hin
  · intro hin
    refine ⟨hin, ?_⟩
    cases s.descriptor (s.arg 4) with
    | none => exact Traced.within_pure _
    | some file =>
      refine within_useEntry.mpr ⟨hin, ?_⟩
      exact Traced.within_bind.mpr ⟨Traced.within_ofOption _, fun _ _ => Traced.within_pure _⟩

/-- The table has a free entry, other than the one that SC_Exec has just made for the caller. -/
theorem exists_free_update {table : Nat → Option Tid} {own : Nat} {t : Tid} :
    (∃ i, 1 ≤ i ∧ i < maxCantProcess ∧ Function.update table own (some t) i = none) ↔
      ∃ i, 1 ≤ i ∧ i < maxCantProcess ∧ i ≠ own ∧ table i = none := by
  constructor
  · rintro ⟨i, hlo, hhi, hfree⟩
    by_cases hi : i = own
    · subst hi
      rw [Function.update_self] at hfree
      cases hfree
    · rw [Function.update_of_ne hi] at hfree
      exact ⟨i, hlo, hhi, hi, hfree⟩
  · rintro ⟨i, hlo, hhi, hi, hfree⟩
    exact ⟨i, hlo, hhi, by rw [Function.update_of_ne hi, hfree]⟩

theorem within_scExec (hpid : s.proc.pid s.currentThread < maxCantProcess) (executable : Bool)
    (descriptores : Nat → Option Nat) :
    Traced.Within Access.InRange (s.scExec executable descriptores) ↔ (executable = true →
      ∃ i, 1 ≤ i ∧ i < maxCantProcess ∧ i ≠ s.proc.pid s.currentThread ∧ s.proc.processIdTable i = none) := by
  cases executable with
  | false => exact ⟨fun _ h => (by cases h), fun _ => Traced.within_stop⟩
  | true =>
    rw [scExec, if_pos rfl, within_useEntry]
    have hsearch : Traced.Within Access.InRange (Traced.firstFree (fun i => Access.process i) maxCantProcess
          (fun i => (Function.update s.proc.processIdTable (s.proc.pid s.currentThread) (some s.currentThread) i).isNone)
          maxCantProcess 1) ↔ _ :=
      Traced.within_firstFree (fun i => process_inRange) (by decide) (by decide)
    simp only [Option.isNone_iff_eq_none] at hsearch
    rw [exists_free_update] at hsearch
    rw [Traced.within_bind, hsearch]
    constructor
    · rintro ⟨-, hfree, -⟩ -
      exact hfree
    · intro h
      refine ⟨process_inRange.mpr hpid, h rfl, fun pid hresult => ?_⟩
      have hlt := (Traced.firstFree_result hresult).2.1
      refine within_useEntry.mpr ⟨process_inRange.mpr hlt, ?_⟩
      exact Traced.within_bind.mpr ⟨Traced.within_ofOption _, fun _ _ => Traced.within_pure _⟩

theorem within_scJoin : Traced.Within Access.InRange s.scJoin ↔ 0 ≤ s.arg 4 ∧ s.arg 4 < maxCantProcess := by
  rw [scJoin, within_useEntry]
  constructor
  · rintro ⟨hin, -⟩
    exact hin
  · intro hin
    exact ⟨hin, Traced.within_bind.mpr ⟨Traced.within_ofOption _, fun _ _ => Traced.within_pure _⟩⟩

theorem within_scExit (hpid : s.proc.pid s.currentThread < maxCantProcess) :
    Traced.Within Access.InRange s.scExit := by
  rw [scExit]
  split
  · exact Traced.within_stop
  · split
    · exact within_useEntry.mpr ⟨process_inRange.mpr hpid, Traced.within_pure _⟩
    · exact Traced.within_pure _

/-- **One call** uses indices of the tables IFF it meets the condition. -/
theorem within_handle (hpid : s.proc.pid s.currentThread < maxCantProcess) (c : SysCall) :
    Traced.Within Access.InRange (s.handle bigEndian c) ↔ s.CallOk bigEndian c := by
  cases c with
  | read buffer mem => exact within_scRead buffer mem
  | write buffer mem => exact within_scWrite buffer mem
  | open_ opened id => exact within_scOpen opened id
  | close => exact within_scClose
  | exec executable descriptores => exact within_scExec hpid executable descriptores
  | join => exact within_scJoin
  | exit => exact ⟨fun _ => trivial, fun _ => within_scExit hpid⟩

/-! ## Runs -/

theorem result_useEntry {α : Type} {a : Access} {f : Unit → Traced Access α} {r : α}
    (h : (useEntry a >>= f).result = some r) : a.InRange ∧ (f ()).result = some r := by
  rw [useEntry, Traced.result_bind, Traced.result_use] at h
  by_cases hin : a.InRange
  · rw [if_pos hin, Option.bind_some] at h
    exact ⟨hin, h⟩
  · rw [if_neg hin] at h
    cases h

theorem onFile_result {id : Int} {f : Nat → Option SysState} {s' : SysState}
    (h : (s.onFile id f).result = some s') : ∃ file, f file = some s' := by
  rw [onFile] at h
  split at h
  · have hrest := (result_useEntry h).2
    cases hfound : s.descriptor id with
    | none =>
      rw [hfound] at hrest
      cases hrest
    | some file =>
      rw [hfound] at hrest
      exact ⟨file, (result_useEntry hrest).2⟩
  · cases h

theorem scRead_proc {buffer mem : Bytes} {s' : SysState} (h : (s.scRead bigEndian buffer mem).result = some s') :
    s'.proc = s.proc := by
  rw [scRead] at h
  split at h
  · obtain ⟨machine, -, rfl⟩ := Option.map_eq_some_iff.mp h
    rfl
  · obtain ⟨file, hread⟩ := onFile_result h
    obtain ⟨f, -, hmap⟩ := Option.bind_eq_some_iff.mp hread
    obtain ⟨r, -, rfl⟩ := Option.map_eq_some_iff.mp hmap
    rfl

theorem scWrite_proc {buffer : Bytes} {mem : Nat → Bytes} {s' : SysState}
    (h : (s.scWrite bigEndian buffer mem).result = some s') : s'.proc = s.proc := by
  rw [scWrite, Traced.result_bind] at h
  obtain ⟨r, -, hrest⟩ := Option.bind_eq_some_iff.mp h
  split at hrest
  · cases hrest
    rfl
  · obtain ⟨file, hwrite⟩ := onFile_result hrest
    obtain ⟨f, -, hmap⟩ := Option.bind_eq_some_iff.mp hwrite
    obtain ⟨r, -, rfl⟩ := Option.map_eq_some_iff.mp hmap
    rfl

theorem scOpen_proc {opened : Option Nat} {id : BitVec 32} {s' : SysState}
    (h : (s.scOpen opened id).result = some s') : s'.proc = s.proc := by
  cases opened with
  | none =>
    cases h
    rfl
  | some file =>
    replace h : (s.assignId file >>= fun r => pure (r.1.ret (BitVec.ofNat 32 r.2))).result = some s' := h
    rw [Traced.result_bind] at h
    obtain ⟨r, hassign, hpure⟩ := Option.bind_eq_some_iff.mp h
    cases hpure
    rw [assignId, Traced.result_bind] at hassign
    obtain ⟨i, -, hrest⟩ := Option.bind_eq_some_iff.mp hassign
    have hset := (result_useEntry hrest).2
    cases hset
    rfl

theorem scClose_proc {s' : SysState} (h : s.scClose.result = some s') : s'.proc = s.proc := by
  have hrest := (result_useEntry h).2
  cases hfound : s.descriptor (s.arg 4) with
  | none =>
    rw [hfound] at hrest
    cases hrest
    rfl
  | some file =>
    rw [hfound] at hrest
    have hclose := (result_useEntry hrest).2
    rw [Traced.result_bind] at hclose
    obtain ⟨f, -, hpure⟩ := Option.bind_eq_some_iff.mp hclose
    cases hpure
    rfl

theorem scExec_pid {executable : Bool} {descriptores : Nat → Option Nat} {s' : SysState}
    (h : (s.scExec executable descriptores).result = some s') :
    ∃ c pid, pid < maxCantProcess ∧ s'.proc.pid = Function.update s.proc.pid c pid := by
  cases executable with
  | false => cases h
  | true =>
    rw [scExec, if_pos rfl] at h
    have hsearch := (result_useEntry h).2
    rw [Traced.result_bind] at hsearch
    obtain ⟨pid, -, hrest⟩ := Option.bind_eq_some_iff.mp hsearch
    have hexec := (result_useEntry hrest).2
    rw [Traced.result_bind] at hexec
    obtain ⟨⟨proc, c, pid'⟩, hproc, hpure⟩ := Option.bind_eq_some_iff.mp hexec
    cases hpure
    have hx := executed hproc
    exact ⟨c, pid', hx.range.2, hx.pids⟩

/-- The identifiers of threads stay those of the table. -/
theorem result_pid (hpid : ∀ t, s.proc.pid t < maxCantProcess) {c : SysCall} {s' : SysState}
    (h : (s.handle bigEndian c).result = some s') (t : Tid) : s'.proc.pid t < maxCantProcess := by
  cases c with
  | read buffer mem =>
    rw [scRead_proc h]
    exact hpid t
  | write buffer mem =>
    rw [scWrite_proc h]
    exact hpid t
  | open_ opened id =>
    rw [scOpen_proc h]
    exact hpid t
  | close =>
    rw [scClose_proc h]
    exact hpid t
  | exec executable descriptores =>
    obtain ⟨child, pid, hlt, hpids⟩ := scExec_pid h
    rw [hpids]
    by_cases ht : t = child
    · rw [ht, Function.update_self]
      exact hlt
    · rw [Function.update_of_ne ht]
      exact hpid t
  | join =>
    have hrest := (result_useEntry h).2
    rw [Traced.result_bind] at hrest
    obtain ⟨child, -, hpure⟩ := Option.bind_eq_some_iff.mp hrest
    cases hpure
    exact hpid t
  | exit =>
    have hsame : s'.proc.pid = s.proc.pid := by
      replace h : s.scExit.result = some s' := h
      rw [scExit] at h
      split at h
      · cases h
      · split at h
        · have hpure := (result_useEntry h).2
          cases hpure
          exact (exit_same s.proc s.currentThread (s.arg 4)).1
        · cases h
          exact (exit_same s.proc s.currentThread (s.arg 4)).1
    rw [hsame]
    exact hpid t

/-- A call of `Join` that waits, waits for an identifier of the table. -/
theorem waitsFor_inRange {c : SysCall} {s' : SysState} (h : (s.handle bigEndian c).result = some s') {pid : Int}
    (hwait : s.waitsFor c = some pid) : 0 ≤ pid ∧ pid < maxCantProcess := by
  cases c with
  | join =>
    cases hwait
    exact (result_useEntry h).1
  | _ => cases hwait

end SysState

namespace TableSys

variable {bigEndian : Bool} {s s' : TableSys}

/-- The identifiers that processes have, and that they wait for in `Join`, are those of the table. -/
structure PidsOk (s : TableSys) : Prop where
  pid : ∀ t, s.sys.proc.pid t < maxCantProcess
  joining : ∀ t pid, s.joining t = some pid → 0 ≤ pid ∧ pid < maxCantProcess

/-- What a step can do. -/
theorem step_cases {a : TableAct} (h : s.step bigEndian a = some s') :
    (∃ t machine c, a = .call t machine c ∧
      s' = s.record t ((s.enter t machine).waitsFor c) ((s.enter t machine).handle bigEndian c)) ∨
    ∃ t machine pid, a = .joined t machine ∧ s.joining t = some pid ∧
      s' = s.record t none ((s.enter t machine).scJoined pid) := by
  cases a with
  | call t machine c =>
    rw [step] at h
    split at h
    · exact Or.inl ⟨t, machine, c, rfl, (Option.some.inj h).symm⟩
    · cases h
  | joined t machine =>
    rw [step] at h
    split at h
    · cases h
    · obtain ⟨pid, hpid, heq⟩ := Option.map_eq_some_iff.mp h
      exact Or.inr ⟨t, machine, pid, rfl, hpid, heq.symm⟩

theorem record_used (s : TableSys) (t : Tid) (wait : Option Int) (x : Traced Access SysState) :
    (s.record t wait x).used = s.used ++ x.used := by
  rw [record]
  split
  · rfl
  · rfl

/-- The indices used after a step: those before, and those of the call. -/
theorem inRange_record {t : Tid} {wait : Option Int} {x : Traced Access SysState} :
    (s.record t wait x).InRange ↔ s.InRange ∧ Traced.Within Access.InRange x := by
  rw [InRange, record_used]
  exact List.forall_mem_append

theorem PidsOk.record (h : s.PidsOk) {t : Tid} {wait : Option Int} {x : Traced Access SysState}
    (hpid : ∀ sys, x.result = some sys → ∀ u, sys.proc.pid u < maxCantProcess)
    (hwait : ∀ sys pid, x.result = some sys → wait = some pid → 0 ≤ pid ∧ pid < maxCantProcess) :
    (s.record t wait x).PidsOk := by
  rw [TableSys.record]
  split
  · exact ⟨h.pid, h.joining⟩
  · rename_i sys hresult
    refine ⟨hpid sys hresult, fun u pid hu => ?_⟩
    by_cases hut : u = t
    · subst hut
      have hu' : wait = some pid := by
        rw [← hu]
        exact (Function.update_self u wait s.joining).symm
      exact hwait sys pid hresult hu'
    · have hu' : s.joining u = some pid := by
        rw [← hu]
        exact (Function.update_of_ne hut wait s.joining).symm
      exact h.joining u pid hu'

/-- Step lemma. -/
theorem PidsOk.step (h : s.PidsOk) {a : TableAct} (hstep : s.step bigEndian a = some s') : s'.PidsOk := by
  rcases step_cases hstep with ⟨t, machine, c, -, rfl⟩ | ⟨t, machine, pid, -, -, rfl⟩
  · refine h.record (fun sys hresult => ?_) (fun sys pid hresult hwait => ?_)
    · have hpids : ∀ u, (s.enter t machine).proc.pid u < maxCantProcess := h.pid
      exact SysState.result_pid hpids hresult
    · exact SysState.waitsFor_inRange hresult hwait
  · refine h.record (fun sys hresult => ?_) (fun sys pid hresult hwait => by cases hwait)
    have hpure := (SysState.result_useEntry hresult).2
    cases hpure
    exact h.pid

theorem PidsOk.of_reach (h : (tables bigEndian).Reach s) : s.PidsOk := by
  refine h.invariant (I := PidsOk) (fun s hinit => ?_) (fun s a s' _ hold hstep => hold.step hstep)
  obtain ⟨hproc, hjoining, -, -⟩ := hinit
  refine ⟨fun t => ?_, fun t pid ht => ?_⟩
  · rw [hproc]
    exact Nat.zero_lt_succ 99
  · rw [hjoining] at ht
    cases ht

/-- **One step** uses indices of the tables IFF it meets the condition. -/
theorem inRange_step (h : (tables bigEndian).Reach s) {a : TableAct} (hstep : s.step bigEndian a = some s') :
    s'.InRange ↔ s.InRange ∧ s.IndexOk bigEndian a := by
  have hpids := PidsOk.of_reach h
  rcases step_cases hstep with ⟨t, machine, c, rfl, rfl⟩ | ⟨t, machine, pid, rfl, hpid, rfl⟩
  · have hown : (s.enter t machine).proc.pid (s.enter t machine).currentThread < maxCantProcess := hpids.pid t
    rw [inRange_record, SysState.within_handle hown]
    rfl
  · have hin : Traced.Within Access.InRange ((s.enter t machine).scJoined pid) :=
      SysState.within_useEntry.mpr ⟨hpids.joining t pid hpid, Traced.within_pure _⟩
    rw [inRange_record]
    exact ⟨fun hall => ⟨hall.1, trivial⟩, fun hall => ⟨hall.1, hin⟩⟩

end TableSys

/-- **THE INDICES ARE IN RANGE IFF the calls are checked**: along every run of any processes making any calls, every
    index used on `descriptores` and on `processIdTable` is one of the table if and only if every step of the run
    meets `IndexOk`. -/
theorem table_indices_iff {bigEndian : Bool} {tr : List (TableSys × TableAct)} {s : TableSys}
    (h : (tables bigEndian).Exec tr s) :
    ((∀ e ∈ tr, e.1.InRange) ∧ s.InRange) ↔ ∀ e ∈ tr, e.1.IndexOk bigEndian e.2 := by
  refine h.good_iff TableSys.InRange (TableSys.IndexOk bigEndian) (fun s hreach => ?_)
    (fun s a s' hreach hstep hbad hgood => ?_)
  · induction hreach with
    | init hinit =>
      intro a ha
      rw [hinit.2.2.1] at ha
      cases ha
    | step hprev hstep ih => exact (TableSys.inRange_step hprev.of_restrict hstep.2).mpr ⟨ih, hstep.1⟩
  · exact hbad ((TableSys.inRange_step hreach hstep).mp hgood).2

/-- The kernel when `main` is about to run its program. -/
def bootTables : TableSys where
  sys :=
    { machine := ⟨Registers.zero, fun _ => 0, ⟨none, none, 0⟩⟩
      currentThread := 0
      descriptores := fun _ _ => none
      proc := .new
      files := fun _ => some ⟨⟨fun _ => 0⟩, 0⟩
      disk := fun _ => 0
      input := fun _ => 0
      taken := 0
      output := [] }
  joining _ := none
  used := []
  halted := false

/-- The machine with an argument in a register. -/
def withArg (r : Fin 32) (value : BitVec 32) : Machine := ⟨Registers.zero.write (gpr r) value, fun _ => 0, ⟨none, none, 0⟩⟩

/-- `main` opens a file, the object at address 7, … -/
def mainOpens : TableAct := .call 0 (withArg 4 0) (.open_ (some 7) 0)

/-- … and closes the identifier it got, 3. -/
def mainCloses : TableAct := .call 0 (withArg 4 3) .close

/-- The kernel after the `Open`. -/
def openedTables : TableSys :=
  bootTables.record 0 none ((bootTables.enter 0 (withArg 4 0)).handle false (.open_ (some 7) 0))

/-- The kernel after the `Close`. -/
def closedTables : TableSys :=
  openedTables.record 0 none ((openedTables.enter 0 (withArg 4 3)).handle false .close)

/-- `Open` uses index 3 twice, and `Close` again. -/
theorem table_indices_close :
    closedTables.used = [.descriptor 3, .descriptor 3, .descriptor 3, .descriptor 3] ∧ closedTables.halted = false ∧
      closedTables.InRange := by
  have hopen : (tables false).Exec ([] ++ [(bootTables, mainOpens)]) openedTables :=
    .step (.init ⟨rfl, rfl, rfl, rfl⟩) rfl
  have hclose : (tables false).Exec ([] ++ [(bootTables, mainOpens)] ++ [(openedTables, mainCloses)]) closedTables :=
    .step hopen rfl
  refine ⟨by decide +kernel, by decide +kernel, ((table_indices_iff hclose).mpr fun e he => ?_).2⟩
  rcases List.mem_append.mp he with he | he
  · obtain rfl := List.mem_singleton.mp he
    exact fun _ => ⟨3, by decide, by decide, rfl⟩
  · obtain rfl := List.mem_singleton.mp he
    exact ⟨by decide +kernel, by decide +kernel⟩

/-- SC_Read of the identifier 100 passes the check, and uses `descriptores[100]`. -/
theorem read_past_descriptores :
    ∃ s, (tables false).step bootTables (.call 0 (withArg 6 100) (.read (fun _ => 0) fun _ => 0)) s ∧
      (tables false).init bootTables ∧ .descriptor 100 ∈ s.used ∧ ¬ s.InRange := by
  refine ⟨_, rfl, ⟨rfl, rfl, rfl, rfl⟩, by decide +kernel, fun h => ?_⟩
  have hin : (Access.descriptor 100).InRange := h (.descriptor 100) (by decide +kernel)
  exact absurd hin (by decide)

end Nachos
