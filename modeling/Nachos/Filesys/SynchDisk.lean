/-
  `filesys/synchdisk.cc`: the disk, one request at a time.

  The disk takes a request and interrupts when it is done.  `SynchDisk` makes a procedure call of it:
  `ReadSector` and `WriteSector` take a lock, issue the request, wait on a semaphore, and let the lock go;
  the interrupt handler of the disk does `V` on the semaphore.

  The lock is what the request relies on.  A thread that waits for its interrupt holds it, so nobody is
  waiting when a request is issued, and the three situations of `Nachos.Lib.Request` are all there are
  (`DiskOk.requests`).
-/
import Nachos.Lib.Request
import Nachos.Machine.Disk
import Nachos.Threads.Service

namespace Nachos

/-! ## The code -/

/-- The points of `ReadSector` and `WriteSector`: `lock->Acquire()`, the request, `semaphore->P()`,
    `lock->Release()` and the return.  After the request, `n` is its number and `answer` what a read
    found. -/
inductive SynchDiskPt where
  | acquire (r : DiskReq)
  | request (r : DiskReq)
  | semP (r : DiskReq) (n : Nat) (answer : Option Sector)
  | release (r : DiskReq) (n : Nat) (answer : Option Sector)
  | done (r : DiskReq) (n : Nat) (answer : Option Sector)

/-- `SynchDisk::ReadSector`. -/
def readSector (sectorNumber : Int) : SynchDiskPt := .acquire (.read sectorNumber)

/-- `SynchDisk::WriteSector`. -/
def writeSector (sectorNumber : Int) (data : Sector) : SynchDiskPt := .acquire (.write sectorNumber data)

/-- The code of both; the request is `disk->ReadRequest` or `disk->WriteRequest`. -/
def synchDiskCode : SynchDiskPt → SvcAct (Option Sector) Unit Empty Unit Disk SynchDiskPt
  | .acquire r => .acquire () (.request r)
  | .request r => .tau fun d => (d.request r).map fun p => (p.1, .semP r d.requests.length p.2)
  | .semP r n answer => .P () (.release r n answer)
  | .release r n answer => .release () (.done r n answer)
  | .done _ _ answer => .ret answer

/-- The synchronous disk, over any file.  The interrupt of a request is named by its number; its
    handler is `SynchDisk::RequestDone`. -/
def synchDisk : Service DiskReq (Option Sector) Unit Empty Unit Nat Disk SynchDiskPt where
  lockOf := nofun
  initial _ := 0
  boot d := d = .new d.file
  entry
    | .read sectorNumber => readSector sectorNumber
    | .write sectorNumber data => writeSector sectorNumber data
  code _ := synchDiskCode
  handler n d := (d.handleInterrupt n).map fun d' => (some (), d')

/-! ## The lock -/

/-- The points between the return of `lock->Acquire()` and the call of `lock->Release()`. -/
def SynchDiskPt.locked : SynchDiskPt → Bool
  | .request _ => true
  | .semP _ _ _ => true
  | .release _ _ _ => true
  | _ => false

theorem synchDisk_entry (r : DiskReq) : synchDisk.entry r = .acquire r := by
  cases r <;> rfl

theorem synchDisk_disciplined : synchDisk.Disciplined fun pt _ => pt.locked = true where
  entry r l := by
    rw [synchDisk_entry]
    exact Bool.false_ne_true
  acquire := by
    intro t pt l k hcode
    cases pt <;> cases hcode
    simp [SynchDiskPt.locked]
  release := by
    intro t pt l k hcode
    cases pt <;> cases hcode
    simp [SynchDiskPt.locked]
  keeps := by
    intro t pt k hkeeps l
    replace hkeeps : (synchDiskCode pt).Keeps k := hkeeps
    cases pt with
    | request r =>
      cases hkeeps with
      | tau hf =>
        obtain ⟨p, -, heq⟩ := Option.map_eq_some_iff.mp hf
        obtain ⟨-, rfl⟩ := Prod.mk.inj heq
        exact Iff.rfl
    | semP r n answer =>
      cases hkeeps
      exact Iff.rfl
    | _ => cases hkeeps
  ret := by
    intro t pt a hcode l
    cases pt <;> cases hcode
    exact Bool.false_ne_true

/-! ## The invariant -/

/-- The request that a thread waits for. -/
def SynchDiskPt.waits : Option SynchDiskPt → Option Nat
  | some (.semP _ n _) => some n
  | _ => none

/-- Request number `n` was `r`, and a read was answered with what had been written last before it. -/
def Disk.Answered (d : Disk) (r : DiskReq) (n : Nat) (answer : Option Sector) : Prop :=
  d.requests[n]? = some r ∧ ∀ sectorNumber, r = .read sectorNumber →
    answer = some (lastWrite d.initial (d.requests.take n) sectorNumber.toNat)

/-- What is known at a point. -/
def SynchDiskPt.Ok (d : Disk) : Option SynchDiskPt → Prop
  | some (.semP r n answer) => d.Answered r n answer
  | some (.release r n answer) => d.Answered r n answer ∧ n ∈ d.done
  | some (.done r n answer) => d.Answered r n answer ∧ n ∈ d.done
  | _ => True

/-- The invariant of the synchronous disk. -/
structure DiskOk (v : SvcView Unit Disk SynchDiskPt) : Prop where
  requests : Requests (fun t => SynchDiskPt.waits (v.pts t)) v.dev.done v.dev.pending (v.val ())
  active : v.dev.active = !v.dev.pending.isEmpty
  file : v.dev.FileOk
  pts : ∀ t, SynchDiskPt.Ok v.dev (v.pts t)

/-- More requests and more interrupts do not change what is known. -/
theorem SynchDiskPt.Ok.mono {d d' : Disk} {p : Option SynchDiskPt} (h : SynchDiskPt.Ok d p)
    (hinitial : d'.initial = d.initial) (hrequests : ∃ rs, d'.requests = d.requests ++ rs)
    (hdone : ∀ n ∈ d.done, n ∈ d'.done) : SynchDiskPt.Ok d' p := by
  have hanswered : ∀ {r n answer}, d.Answered r n answer → d'.Answered r n answer := by
    rintro r n answer ⟨hr, hread⟩
    obtain ⟨rs, hrs⟩ := hrequests
    have hlt : n < d.requests.length := (List.getElem?_eq_some_iff.mp hr).1
    refine ⟨?_, fun sectorNumber hs => ?_⟩
    · rw [hrs, List.getElem?_append_left hlt]
      exact hr
    · rw [hinitial, hrs, List.take_append_of_le_length (Nat.le_of_lt hlt)]
      exact hread sectorNumber hs
  unfold SynchDiskPt.Ok at h ⊢
  split at h
  · exact hanswered h
  · exact ⟨hanswered h.1, hdone _ h.2⟩
  · exact ⟨hanswered h.1, hdone _ h.2⟩
  · trivial

/-- No call returns to the wait. -/
theorem synchDisk_settled (r : DiskReq) (n : Nat) (answer : Option Sector) :
    synchDisk.Settled (.semP r n answer) := by
  intro t pt h
  cases pt <;> cases h

/-- `t` goes on without touching the disk, and waits neither before nor after. -/
theorem DiskOk.move {v : SvcView Unit Disk SynchDiskPt} (h : DiskOk v) {t : Tid}
    {p : Option SynchDiskPt} (hbefore : SynchDiskPt.waits (v.pts t) = none)
    (hafter : SynchDiskPt.waits p = none) (hp : SynchDiskPt.Ok v.dev p) : DiskOk (v.goto t p) := by
  refine ⟨?_, h.active, h.file, SvcView.goto_forall hp fun w _ => h.pts w⟩
  rw [SvcView.goto_map, hafter]
  exact h.requests.other hbefore

/-- Step lemma. -/
theorem DiskOk.step {held : SynchDiskPt → Unit → Prop} {calls : Tid → DiskReq → Prop}
    {v v' : SvcView Unit Disk SynchDiskPt} {lab : Label Nat}
    (hheld : ∀ pt, held pt () ↔ pt.locked = true) (h : DiskOk v)
    (hs : synchDisk.Step held calls v lab v') : DiskOk v' := by
  cases hs with
  | @enter t r ht hcalls =>
    rw [synchDisk_entry]
    exact h.move (by rw [ht]; rfl) rfl trivial
  | @leave t pt a ht hcode =>
    refine h.move ?_ rfl trivial
    rw [ht]
    cases pt <;> cases hcode
    rfl
  | @call t pt k ht htarget =>
    have hpt := h.pts t
    rw [ht] at hpt
    cases pt with
    | acquire r =>
      cases htarget
      exact h.move (by rw [ht]; rfl) rfl trivial
    | release r n answer =>
      cases htarget
      exact h.move (by rw [ht]; rfl) rfl hpt
    | _ => cases htarget
  | @P t pt k x ht hcode hv halone =>
    have hpt := h.pts t
    rw [ht] at hpt
    cases pt with
    | semP r n answer =>
      cases hcode
      obtain ⟨hdone, hrequests⟩ := h.requests.take (show SynchDiskPt.waits (v.pts t) = some n by
        rw [ht]; rfl) hv
      have hok : SynchDiskPt.Ok v.dev (some (.release r n answer)) := ⟨hpt, hdone⟩
      refine ⟨?_, h.active, h.file, SvcView.goto_forall hok fun w _ => h.pts w⟩
      rw [SvcView.goto_map, SvcView.goto_val, SvcView.add_val, Function.update_self,
        ← Int.sub_eq_add_neg]
      exact hrequests
    | _ => cases hcode
  | @tau t pt k f d ht hcode hf halone =>
    cases pt with
    | request r =>
      cases hcode
      obtain ⟨⟨d', answer⟩, hreq, heq⟩ := Option.map_eq_some_iff.mp hf
      obtain ⟨rfl, rfl⟩ := Prod.mk.inj heq
      have hr := Disk.requested hreq
      -- a thread that waits would hold the lock as well
      have hnobody : ∀ w, SynchDiskPt.waits (v.pts w) = none := by
        intro w
        cases hw : v.pts w with
        | none => rfl
        | some q =>
          cases q with
          | semP r' n' answer' =>
            obtain rfl : w = t := halone w _ () hw (synchDisk_settled r' n' answer')
              ((hheld _).mpr rfl) ((hheld _).mpr rfl)
            rw [ht] at hw
            cases hw
          | _ => rfl
      have hanswered : d'.Answered r v.dev.requests.length answer := by
        refine ⟨?_, fun sectorNumber hs => ?_⟩
        · rw [hr.requests, List.getElem?_concat_length]
        · rw [hr.initial, hr.requests, List.take_left]
          exact hr.answer h.file sectorNumber hs
      have hothers : ∀ w, w ≠ t → SynchDiskPt.Ok d' (v.pts w) := fun w _ =>
        (h.pts w).mono hr.initial ⟨_, hr.requests⟩ fun n hn => hr.done ▸ hn
      refine ⟨?_, ?_, hr.file h.file, SvcView.goto_forall hanswered hothers⟩
      · rw [SvcView.goto_map]
        simp only [SvcView.goto_dev, SvcView.withDev_dev, hr.done, hr.pending]
        exact h.requests.issue hnobody t _
      · show d'.active = !d'.pending.isEmpty
        rw [hr.active, hr.pending]
        simp
    | _ => cases hcode
  | @intrV n x d hh =>
    obtain ⟨d', hd, heq⟩ := Option.map_eq_some_iff.mp hh
    obtain ⟨-, rfl⟩ := Prod.mk.inj heq
    simp only [Disk.handleInterrupt] at hd
    split at hd
    · rename_i hn
      obtain rfl := Option.some.inj hd
      have hrequests := h.requests.announce hn
      refine ⟨?_, ?_, h.file, fun w => (h.pts w).mono rfl ⟨[], (List.append_nil _).symm⟩ ?_⟩
      · simpa using hrequests
      · show false = !(v.dev.pending.erase n).isEmpty
        rw [h.requests.erase_eq_nil hn]
        rfl
      · exact fun m hm => List.mem_append.mpr (Or.inl hm)
    · cases hd
  | @intr n d hh =>
    obtain ⟨d', -, heq⟩ := Option.map_eq_some_iff.mp hh
    cases (Prod.mk.inj heq).1

/-- Run lemma. -/
theorem diskOk_of_reach {Sh Pc : Type} {u : UserClient DiskReq (Option Sector) Sh Pc}
    {s : (synchDisk.client u).St} (hr : (machine (synchDisk.client u).prog).Reach s) :
    DiskOk (synchDisk.view u s) := by
  refine (synchDisk_disciplined.reach_view hr).invariant (I := DiskOk) ?_ ?_
  · rintro v ⟨hpts, hboot, hval⟩
    have hdev : v.dev = .new v.dev.file := hboot
    refine ⟨?_, by rw [hdev]; rfl, ?_, fun t => ?_⟩
    · rw [hpts, hdev, hval]
      exact .idle fun _ => rfl
    · rw [hdev]
      exact fun _ => rfl
    · rw [hpts]
      exact trivial
  · intro v lab v' _ hok hs
    exact hok.step (fun _ => Iff.rfl) hs

/-- **The synchronous disk serves one request at a time.**  For every program, any number of threads,
    every interleaving with the interrupts of the disk, and every file: a thread that issues a request
    finds the disk idle, so that no `ASSERT` stops it if there is such a sector; at most one interrupt
    is pending; a call returns after the interrupt of its own request; and `ReadSector` returns the
    data of the last `WriteRequest` for the sector that was issued before its own request, or what the
    file had there in the beginning. -/
theorem synchDisk_serves {Sh Pc : Type} {u : UserClient DiskReq (Option Sector) Sh Pc}
    {s : (synchDisk.client u).St} (hr : (machine (synchDisk.client u).prog).Reach s) :
    (∀ t k r, synchDisk.At u s t (.request r) k → s.sh.client.dev.active = false ∧
      (validSector r.sector → ∃ s', stepFn (synchDisk.client u).prog s (.run t) = some s')) ∧
    s.sh.client.dev.pending.length ≤ 1 ∧
    (∀ t k r n answer, synchDisk.At u s t (.done r n answer) k →
      n ∈ s.sh.client.dev.done ∧ s.sh.client.dev.requests[n]? = some r ∧
      ∀ sectorNumber, r = .read sectorNumber →
        answer = some (lastWrite s.sh.client.dev.initial (s.sh.client.dev.requests.take n)
          sectorNumber.toNat)) := by
  have hok := diskOk_of_reach hr
  refine ⟨fun t k r ht => ?_, hok.requests.length_le, fun t k r n answer ht => ?_⟩
  · -- the thread holds the lock, so nobody waits for an interrupt
    have hnobody : ∀ w, SynchDiskPt.waits ((synchDisk.view u s).pts w) = none := by
      intro w
      cases hw : (synchDisk.view u s).pts w with
      | none => rfl
      | some q =>
        cases q with
        | semP r' n' answer' =>
          obtain rfl : w = t := synchDisk_disciplined.alone hr ht w _ () hw
            (synchDisk_settled r' n' answer') rfl rfl
          rw [ht.pts] at hw
          cases hw
        | _ => rfl
    have hpending := (hok.requests.of_none hnobody).1
    have hidle : s.sh.client.dev.active = false := by
      have hactive := hok.active
      rw [hpending] at hactive
      exact hactive
    refine ⟨hidle, fun hvalid => ?_⟩
    obtain ⟨d', answer, hreq⟩ := Disk.request_enabled hidle hvalid
    have hf : (s.sh.client.dev.request r).map
        (fun p => (p.1, SynchDiskPt.semP r s.sh.client.dev.requests.length p.2))
        = some (d', .semP r s.sh.client.dev.requests.length answer) := by
      rw [hreq]
      rfl
    exact ht.enabled rfl hf
  · have hpt := hok.pts t
    rw [ht.pts] at hpt
    exact ⟨hpt.2, hpt.1.1, hpt.1.2⟩

/-- Thread 0 writes sector 5 and the others read it. -/
def diskClient : UserClient DiskReq (Option Sector) Unit Nat where
  boot _ ctl _ := ctl = fun _ => .atPc 0
  call t pc :=
    match pc with
    | 0 => .op (if t = 0 then .write 5 fun _ => 42 else .read 5) fun _ => 1
    | _ => .finish id

/-- `diskClient` after the steps of `ls`, on a disk of zeros. -/
def diskRun (ls : List (Label Nat)) : (synchDisk.client diskClient).St :=
  Lts.replay (stepFn (synchDisk.client diskClient).prog)
    (synchDisk.start diskClient (.new fun _ => 0) () fun _ => .atPc 0) ls

theorem diskRun_reach (ls : List (Label Nat)) :
    (machine (synchDisk.client diskClient).prog).Reach (diskRun ls) :=
  Lts.reach_replay machine_step (Service.start_reach rfl rfl) ls

/-- Thread 0 writes and takes its interrupt, then thread 1 reads and takes its own. -/
def diskSteps : List (Label Nat) :=
  List.replicate 9 (.run 0) ++ [.intr 0] ++ List.replicate 4 (.run 0) ++
    List.replicate 9 (.run 1) ++ [.intr 1] ++ List.replicate 4 (.run 1)

/-- Thread 1 returns from its `ReadSector`, request number 1, with what request number 0 wrote. -/
theorem synchDisk_serves_write :
    ∃ answer, synchDisk.At diskClient (diskRun diskSteps) 1 (.done (.read 5) 1 answer) (fun _ => 1) ∧
      1 ∈ (diskRun diskSteps).sh.client.dev.done ∧
      answer = some (lastWrite (diskRun diskSteps).sh.client.dev.initial
        ((diskRun diskSteps).sh.client.dev.requests.take 1) 5) :=
  have hat : synchDisk.At diskClient (diskRun diskSteps) 1
      (.done (.read 5) 1 (some (readFile (diskRun diskSteps).sh.client.dev.file 5))) (fun _ => 1) := rfl
  have hserves := (synchDisk_serves (diskRun_reach diskSteps)).2.2 1 _ _ 1 _ hat
  ⟨_, hat, hserves.1, hserves.2.2 5 rfl⟩

end Nachos
