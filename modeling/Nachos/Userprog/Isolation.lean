/-
  `userprog/addrspace.cc`, `machine/translate.cc`, `threads/scheduler.cc` — the memory of processes.

  Main memory is one array of bytes, and what a process has of it is what its page table says.  A run is
  any interleaving of user-mode loads and stores, of creations of processes, of exits and of context
  switches.  `Scheduler::Run` installs the page table of a thread that has an address space, and leaves
  the old one where it is otherwise.

  1. **Who has which frame** (`MemOk`) — the frames of the live processes are a `Pool`: no frame is in two
     page tables.  And when a thread with an address space runs, its own table is installed.

  2. **What a step writes** — a store writes into a frame of the installed table (`writeMem_spec`), and
     the use and dirty bits it sets change no translation; an exit writes nothing; a creation writes
     into the new frames, PROVIDED its loops stay inside the new table (`Fits`).  The loops of the
     loader do not check that: they go one page too far if the code ends with a page, and they begin
     a page too high if a segment does not begin with one.  What they find behind the table is then
     taken for a frame.

  3. **Isolation** (`memory_isolation`) — a step that `Fits` changes no byte of a process, except a store
     with the table of that process installed.
-/
import Mathlib.Data.List.Pairwise
import Nachos.Threads.Semaphore
import Nachos.Userprog.Loader

namespace Nachos

/-! ## The system -/

/-- Main memory and its frames; `Thread::space` of every thread, and the threads that have one; the thread
    that runs; and whose page table `Machine::pageTable` is. -/
structure MemSys where
  memory : Bytes
  myBitmap : BitMap
  space : Tid → Option AddrSpace
  live : List Tid
  nextThread : Tid
  currentThread : Tid
  installed : Option Tid

/-- What can happen.  `startProcess` is the one of `progtest.cc`, by which `main` becomes a process. -/
inductive MemAct where
  | readMem (addr : BitVec 32) (size : Int)
  | writeMem (addr : BitVec 32) (size : Int) (value : BitVec 32)
  | startProcess (file : List UInt8) (stack : Bytes) (past : Nat → Int)
  | exec (file : List UInt8) (stack : Bytes) (past : Nat → Int)
  | exit
  | run (nextThread : Tid)

/-- The page table is shared with the machine: what `Translate` has written into it. -/
def AddrSpace.writeBack (space : AddrSpace) (m : Mmu) : AddrSpace :=
  match m.pageTable with
  | none => space
  | some table =>
    if h : table.length = space.numPages.toNat then ⟨table, space.numPages, h⟩ else space

namespace MemSys

/-- The address space whose table is installed, when the thread that runs is a user program. -/
def user (s : MemSys) : Option (Tid × AddrSpace) :=
  (s.space s.currentThread).bind fun _ => s.installed.bind fun t => (s.space t).map fun space => (t, space)

/-- `Translate` has set bits in a page table. -/
def setTable (s : MemSys) (t : Tid) (space : AddrSpace) (m : Mmu) : MemSys :=
  { s with space := Function.update s.space t (some (space.writeBack m)) }

/-- `t->space = space`, with what the constructor has done. -/
def withSpace (s : MemSys) (t : Tid) (r : BitMap × AddrSpace × Bytes) : MemSys :=
  { s with
    memory := r.2.2
    myBitmap := r.1
    space := Function.update s.space t (some r.2.1)
    live := s.live ++ [t] }

/-- `delete currentThread->space; currentThread->space = NULL`. -/
def withoutSpace (s : MemSys) (myBitmap : BitMap) : MemSys :=
  { s with
    myBitmap := myBitmap
    space := Function.update s.space s.currentThread none
    live := s.live.erase s.currentThread }

/-- The executable step; `none`: it cannot be taken, or an `ASSERT` fails. -/
def step (bigEndian : Bool) (s : MemSys) : MemAct → Option MemSys
  | .readMem addr size =>
    s.user.bind fun u => (Nachos.readMem bigEndian s.memory u.2.restoreState addr size).map fun r =>
      s.setTable u.1 u.2 r.1
  | .writeMem addr size value =>
    s.user.bind fun u =>
      (Nachos.writeMem bigEndian s.memory u.2.restoreState addr size value).map fun r =>
        match r.2 with
        | .error _ => s.setTable u.1 u.2 r.1
        | .ok memory => { s.setTable u.1 u.2 r.1 with memory := memory }
  | .startProcess file stack past =>
    match s.space s.currentThread with
    | some _ => none
    | none => (AddrSpace.create bigEndian s.myBitmap s.memory file stack past).map fun r =>
        { s.withSpace s.currentThread r with installed := some s.currentThread }
  | .exec file stack past =>
    (AddrSpace.create bigEndian s.myBitmap s.memory file stack past).map fun r =>
      { s.withSpace s.nextThread r with nextThread := s.nextThread + 1 }
  | .exit =>
    (s.space s.currentThread).bind fun space => (space.cleanMyBitmap s.myBitmap).map s.withoutSpace
  | .run nextThread =>
    if nextThread < s.nextThread then
      some { s with
        currentThread := nextThread
        installed := if (s.space nextThread).isSome then some nextThread else s.installed }
    else none

end MemSys

/-- The system: `main` runs, there are no processes, and memory holds anything. -/
def memSys (bigEndian : Bool) : Lts MemSys MemAct where
  init s := (∃ garbage, BitMap.new numPhysPages garbage = some s.myBitmap) ∧ (∀ t, s.space t = none) ∧
    s.live = [] ∧ s.nextThread = 1 ∧ s.currentThread = 0 ∧ s.installed = none
  step s a s' := s.step bigEndian a = some s'

/-! ## Bytes of a process -/

namespace AddrSpace

variable {space : AddrSpace}

/-- The byte that the machine finds at a virtual address, if it finds one. -/
def contents (space : AddrSpace) (memory : Bytes) (v : BitVec 32) : Option UInt8 :=
  match space.restoreState.translate v 1 false with
  | some (_, .ok physAddr) => some (memory physAddr)
  | _ => none

/-- The machine finds the bytes of the address space, and nothing beyond it. -/
theorem Framed.contents (h : space.Framed) (hfit : space.numPages.toNat ≤ numPhysPages) (memory : Bytes)
    (v : BitVec 32) :
    space.contents memory v = if v.toNat < space.size then some (space.byte memory v.toNat) else none := by
  by_cases hv : v.toNat < space.size
  · obtain ⟨m, htranslate⟩ := h.translate hfit hv
    rw [BitVec.ofNat_toNat, BitVec.setWidth_eq] at htranslate
    rw [if_pos hv, AddrSpace.contents, htranslate]
    rfl
  · have hout : space.numPages.toNat ≤ v.toNat / pageSize := by
      rw [size] at hv
      exact (Nat.le_div_iff_mul_le (by decide)).mpr (Nat.le_of_not_lt hv)
    have hal : Mmu.misaligned v 1 = false := rfl
    have htranslate : space.restoreState.translate v 1 false
        = some (space.restoreState, .error .addressErrorException) := by
      simp only [Mmu.translate, hal, restoreState, Mmu.findEntry, hout, if_true, Option.isNone_none, true_or,
        Option.isSome_some, or_true, not_true, if_false, Bool.false_eq_true]
    rw [if_neg hv, AddrSpace.contents, htranslate]

/-- A byte of the address space is in one of its frames. -/
theorem Framed.physAddr_mem (h : space.Framed) {v : Nat} (hv : v < space.size) :
    ((space.physAddr v / pageSize : Nat) : Int) ∈ space.frames := by
  rw [physAddr_div]
  exact List.mem_of_getElem? (h.frame (div_lt_of_size hv) fun _ => 0).1

/-- What the machine finds depends on the frames and on what is in them. -/
theorem Framed.contents_congr {space' : AddrSpace} {memory memory' : Bytes} (h : space.Framed)
    (h' : space'.Framed) (hfit : space.numPages.toNat ≤ numPhysPages)
    (hnum : space'.numPages = space.numPages) (hframes : space'.frames = space.frames)
    (hsame : ∀ a : Nat, ((a / pageSize : Nat) : Int) ∈ space.frames → memory' a = memory a) :
    space'.contents memory' = space.contents memory := by
  funext v
  have hsize : space'.size = space.size := by
    rw [size, size, hnum]
  rw [h.contents hfit, h'.contents (hnum ▸ hfit), hsize]
  by_cases hv : v.toNat < space.size
  · have hvj := div_lt_of_size hv
    have hframe : space'.frame (v.toNat / pageSize) = space.frame (v.toNat / pageSize) := by
      have hget := (h.frame hvj fun _ => 0).1
      have hget' := (h'.frame (hnum ▸ hvj) fun _ => 0).1
      rw [hframes, hget] at hget'
      exact (Int.ofNat_inj.mp (Option.some.inj hget')).symm
    have hphys : space'.physAddr v.toNat = space.physAddr v.toNat := by
      rw [physAddr, physAddr, hframe]
    rw [if_pos hv, if_pos hv, byte, byte, hphys, hsame _ (h.physAddr_mem hv)]
  · rw [if_neg hv, if_neg hv]

/-! ## What a translation changes -/

/-- A table that was written by `Translate`, or not at all. -/
def Touched (space : AddrSpace) (m : Mmu) : Prop :=
  m = space.restoreState ∨ ∃ virtAddr size writing physAddr table entry,
    space.restoreState.Translated virtAddr size writing m physAddr table entry

/-- The bits that `Translate` sets change no frame. -/
theorem Framed.writeBack {m : Mmu} (h : space.Framed) (ht : space.Touched m) :
    (space.writeBack m).Framed ∧ (space.writeBack m).numPages = space.numPages ∧
      (space.writeBack m).frames = space.frames := by
  rcases ht with rfl | ⟨virtAddr, size, writing, physAddr, table, entry, htr⟩
  · have hself : space.writeBack space.restoreState = space := by
      simp only [AddrSpace.writeBack, restoreState, space.length_pageTable, dite_true]
    rw [hself]
    exact ⟨h, rfl, rfl⟩
  · obtain rfl : space.pageTable = table := Option.some.inj htr.pageTable
    have hset : m.pageTable = some (space.pageTable.set (virtAddr.toNat / pageSize)
        { entry with use := true, dirty := entry.dirty || writing }) := by
      rw [htr.bits]
      rfl
    have hlen : (space.pageTable.set (virtAddr.toNat / pageSize)
        { entry with use := true, dirty := entry.dirty || writing }).length = space.numPages.toNat := by
      rw [List.length_set, space.length_pageTable]
    have hback : space.writeBack m = ⟨space.pageTable.set (virtAddr.toNat / pageSize)
        { entry with use := true, dirty := entry.dirty || writing }, space.numPages, hlen⟩ := by
      simp only [AddrSpace.writeBack, hset, hlen, dite_true]
    have hframes : (space.writeBack m).frames = space.frames := by
      rw [hback]
      show (space.pageTable.set _ _).map (·.physicalPage) = space.pageTable.map (·.physicalPage)
      rw [List.map_set]
      refine List.ext_getElem? fun j => ?_
      rw [List.getElem?_set]
      split
      · rename_i hj
        subst hj
        rw [List.getElem?_map, htr.found]
        split
        · rfl
        · rename_i hout
          rw [List.length_map] at hout
          exact absurd (List.getElem?_eq_some_iff.mp htr.found).1 hout
      · rfl
    refine ⟨⟨?_, ?_, ?_⟩, ?_, hframes⟩
    · rw [hframes]
      exact h.nodup
    · rw [hframes]
      exact h.range
    · rw [hback]
      intro e he
      rcases List.mem_or_eq_of_mem_set he with hold | rfl
      · exact h.valid e hold
      · exact h.valid entry (List.mem_of_getElem? htr.found)
    · rw [hback]

end AddrSpace

/-! ## What a creation changes -/

/-- The segments lie inside the address space. -/
def NoffHeader.Inside (noffH : NoffHeader) : Prop :=
  ∀ seg ∈ [noffH.code, noffH.initData, noffH.uninitData],
    seg.virtualAddr.toNat + seg.size.toNat ≤ noffH.numPages.toNat * pageSize

/-- The loops of the loader stay inside the page table: the last page of the code, counted from where
    the code begins, rounded up, and with a page more if the code ends with a page; and the last page
    of the data, counted in the same way from where the code loop has stopped. -/
def NoffHeader.Fits (noffH : NoffHeader) : Prop :=
  (0 < noffH.code.size.toInt →
    noffH.code.firstPage + noffH.code.size.toNat / pageSize < noffH.numPages.toNat) ∧
  (0 < noffH.initData.size.toInt → noffH.codeEnd < noffH.dataEnd →
    noffH.initData.firstPage + (noffH.dataEnd - noffH.codeEnd - 1) / pageSize < noffH.numPages.toNat)

theorem lt_of_mem_pageReads {j i n k : Nat} {r : PageRead} (hr : r ∈ pageReads j i n)
    (hk : ∀ m < n, j + m < k) : r.1 < k := by
  obtain ⟨m, hm, rfl⟩ := List.mem_map.mp hr
  exact Nat.lt_of_le_of_lt (Nat.mod_le _ _) (hk m (List.mem_range.mp hm))

/-- Every page that the loops read is in the table. -/
theorem NoffHeader.Fits.reads {noffH : NoffHeader} (h : noffH.Fits) {dataReads : List PageRead}
    (hdata : noffH.dataReads = some dataReads) {r : PageRead} (hr : r ∈ noffH.codeReads ++ dataReads) :
    r.1 < noffH.numPages.toNat := by
  have hpage : pageSize = 128 := rfl
  rcases List.mem_append.mp hr with hr | hr
  · unfold NoffHeader.codeReads at hr
    split at hr
    · rename_i hsize
      have hlast := h.1 hsize
      refine lt_of_mem_pageReads hr fun m hm => ?_
      omega
    · exact absurd hr List.not_mem_nil
  · unfold NoffHeader.dataReads at hdata
    split at hdata
    · rename_i hsize
      split at hdata
      · cases hdata
      · obtain rfl := Option.some.inj hdata
        refine lt_of_mem_pageReads hr fun m hm => ?_
        -- the loop runs at all, so it starts before its bound
        rw [hpage] at hm
        have hlast := h.2 hsize (by omega)
        rw [hpage] at hlast
        omega
    · obtain rfl := Option.some.inj hdata
      exact absurd hr List.not_mem_nil

namespace AddrSpace

variable {space : AddrSpace}

/-- The loops read into frames of the new table. -/
theorem Framed.readPages_of_notMem (h : space.Framed) {past : Nat → Int} {file : List UInt8}
    {inFileAddr : BitVec 32} {a : Nat} (ha : ((a / pageSize : Nat) : Int) ∉ space.frames) :
    ∀ (reads : List PageRead) (memory memory' : Bytes), (∀ r ∈ reads, r.1 < space.numPages.toNat) →
      reads.foldlM (space.readPage past file inFileAddr) memory = some memory' → memory' a = memory a := by
  intro reads
  induction reads with
  | nil =>
    intro memory memory' _ hrun
    obtain rfl := Option.some.inj hrun
    rfl
  | cons r rest ih =>
    intro memory memory' hreads hrun
    rw [List.foldlM_cons] at hrun
    obtain ⟨memory₁, hread, hrest⟩ := Option.bind_eq_some_iff.mp hrun
    have hr := (List.forall_mem_cons.mp hreads).1
    have hne : a / pageSize ≠ space.frame r.1 := by
      intro heq
      rw [heq] at ha
      exact ha (List.mem_of_getElem? (h.frame hr fun _ => 0).1)
    rw [ih memory₁ memory' (List.forall_mem_cons.mp hreads).2 hrest]
    exact h.readPage_of_ne hr hread hne

/-- So does the loading as a whole. -/
theorem Framed.load_of_notMem (h : space.Framed) {past : Nat → Int} {file : List UInt8}
    {noffH : NoffHeader} {memory memory' : Bytes} (hnum : space.numPages = noffH.numPages)
    (hfits : noffH.Fits) (hload : space.load past file noffH memory = some memory') {a : Nat}
    (ha : ((a / pageSize : Nat) : Int) ∉ space.frames) : memory' a = memory a := by
  unfold AddrSpace.load at hload
  split at hload
  · cases hload
  · rename_i dataReads hdata
    have hreads : ∀ r ∈ noffH.codeReads ++ dataReads, r.1 < space.numPages.toNat := by
      intro r hr
      rw [hnum]
      exact hfits.reads hdata hr
    rw [h.readPages_of_notMem ha _ _ _ hreads hload, zeroPages_apply memory fun f hf => (h.range f hf).1,
      if_neg ha]

/-- **A creation** takes frames that were clear and, if the program fits, writes into no others. -/
theorem create_spec {bigEndian : Bool} {myBitmap b' : BitMap} {memory memory' stack : Bytes}
    {file : List UInt8} {past : Nat → Int} (hbits : myBitmap.numBits = numPhysPages)
    (h : create bigEndian myBitmap memory file stack past = some (b', space, memory')) :
    space.Framed ∧ space.numPages.toNat ≤ numPhysPages ∧ b'.numBits = numPhysPages ∧
      (∀ f ∈ space.frames, f ∉ myBitmap.out) ∧ b'.out = myBitmap.out ∪ {f | f ∈ space.frames} ∧
      (((header bigEndian file stack).toHost bigEndian).Fits →
        ∀ a : Nat, ((a / pageSize : Nat) : Int) ∉ space.frames → memory' a = memory a) := by
  obtain ⟨hnew, hload⟩ := create_eq_some.mp h
  obtain ⟨hbits', -, hfresh, hout⟩ := of_new hnew
  have hframed : space.Framed := .of_new hbits hnew
  have hnum := numPages_of_new hnew
  refine ⟨hframed, ?_, hbits'.trans hbits, fun f hf => (hfresh f hf).2, hout, fun hfits a ha => ?_⟩
  · rw [hnum]
    exact numPages_le_of_asserts (asserts_of_new hnew)
  · exact hframed.load_of_notMem hnum hfits hload ha

end AddrSpace

/-! ## Who has which frame -/

namespace MemSys

/-- The frames of a thread. -/
def framesOf (s : MemSys) (t : Tid) : List Int := (s.space t).elim [] AddrSpace.frames

/-- The pool of frames. -/
def pool (s : MemSys) : Pool Int where
  used := s.myBitmap.out
  held := s.live.map s.framesOf

end MemSys

/-- The frames are a pool; every process has an address space with frames; and a process that runs has
    its table installed. -/
structure MemOk (s : MemSys) : Prop where
  pool : s.pool.Ok
  bits : s.myBitmap.numBits = numPhysPages
  nodup : s.live.Nodup
  live : ∀ t, t ∈ s.live ↔ (s.space t).isSome
  created : ∀ t ∈ s.live, t < s.nextThread
  framed : ∀ t space, s.space t = some space → space.Framed ∧ space.numPages.toNat ≤ numPhysPages
  running : s.currentThread < s.nextThread
  installed : (s.space s.currentThread).isSome → s.installed = some s.currentThread

namespace MemOk

variable {s s' : MemSys} {bigEndian : Bool}

/-- Two processes share no frame. -/
theorem disjoint (h : MemOk s) {t u : Tid} (hne : t ≠ u) {f : Int} (ht : f ∈ s.framesOf t)
    (hu : f ∈ s.framesOf u) : False := by
  have hlive : ∀ v, f ∈ s.framesOf v → v ∈ s.live := by
    intro v hv
    rw [h.live v]
    unfold MemSys.framesOf at hv
    cases hspace : s.space v with
    | none =>
      rw [hspace] at hv
      exact absurd hv List.not_mem_nil
    | some space => rfl
  have hpairs := List.pairwise_map.mp (List.nodup_flatten.mp h.pool.nodup).2
  have hsymm : Std.Symm fun t u => (s.framesOf t).Disjoint (s.framesOf u) := ⟨fun _ _ hxy => hxy.symm⟩
  exact hpairs.forall (hlive t ht) (hlive u hu) hne ht hu

/-- The process that stores has its own table installed. -/
theorem user (h : MemOk s) {t : Tid} {space : AddrSpace} (hu : s.user = some (t, space)) :
    t = s.currentThread ∧ s.installed = some t ∧ s.space t = some space := by
  unfold MemSys.user at hu
  obtain ⟨space₁, hcurrent, hrest⟩ := Option.bind_eq_some_iff.mp hu
  obtain ⟨t₁, hinstalled, hmap⟩ := Option.bind_eq_some_iff.mp hrest
  obtain ⟨space₂, hspace, heq⟩ := Option.map_eq_some_iff.mp hmap
  obtain ⟨rfl, rfl⟩ := Prod.mk.inj heq
  have hown := h.installed (by rw [hcurrent]; rfl)
  rw [hinstalled] at hown
  exact ⟨Option.some.inj hown, hinstalled, hspace⟩

end MemOk

/-! ## What a step does -/

/-- The steps, with what the code of a load or a store has written. -/
inductive MemStep (bigEndian : Bool) (s : MemSys) : MemAct → MemSys → Prop where
  | load {addr : BitVec 32} {size : Int} {t : Tid} {space : AddrSpace} {m : Mmu}
      (huser : s.user = some (t, space)) (htouched : space.Touched m) :
      MemStep bigEndian s (.readMem addr size) (s.setTable t space m)
  | store {addr : BitVec 32} {size : Int} {value : BitVec 32} {t : Tid} {space : AddrSpace} {m : Mmu}
      {memory : Bytes} (huser : s.user = some (t, space)) (htouched : space.Touched m)
      (hmem : ∀ a : Nat, ((a / pageSize : Nat) : Int) ∉ space.frames → memory a = s.memory a) :
      MemStep bigEndian s (.writeMem addr size value) { s.setTable t space m with memory := memory }
  | startProcess {file : List UInt8} {stack : Bytes} {past : Nat → Int} {r : BitMap × AddrSpace × Bytes}
      (hnone : s.space s.currentThread = none)
      (hcreate : AddrSpace.create bigEndian s.myBitmap s.memory file stack past = some r) :
      MemStep bigEndian s (.startProcess file stack past)
        { s.withSpace s.currentThread r with installed := some s.currentThread }
  | exec {file : List UInt8} {stack : Bytes} {past : Nat → Int} {r : BitMap × AddrSpace × Bytes}
      (hcreate : AddrSpace.create bigEndian s.myBitmap s.memory file stack past = some r) :
      MemStep bigEndian s (.exec file stack past)
        { s.withSpace s.nextThread r with nextThread := s.nextThread + 1 }
  | exit {space : AddrSpace} {b : BitMap} (hspace : s.space s.currentThread = some space)
      (hclean : space.cleanMyBitmap s.myBitmap = some b) : MemStep bigEndian s .exit (s.withoutSpace b)
  | run {nextThread : Tid} (hlt : nextThread < s.nextThread) :
      MemStep bigEndian s (.run nextThread) { s with
        currentThread := nextThread
        installed := if (s.space nextThread).isSome then some nextThread else s.installed }

namespace MemOk

variable {s s' : MemSys} {bigEndian : Bool}

/-- A store writes into a frame of the table that is installed. -/
theorem frame_of_store {space : AddrSpace} (h : space.Framed) {addr : BitVec 32} {size : Int} {m : Mmu}
    {physAddr : Nat} {table : List TranslationEntry} {entry : TranslationEntry}
    (htr : space.restoreState.Translated addr size true m physAddr table entry) :
    (entry.pageFrame : Int) ∈ space.frames := by
  obtain rfl : space.pageTable = table := Option.some.inj htr.pageTable
  have hmem : entry.physicalPage ∈ space.frames :=
    List.mem_map.mpr ⟨entry, List.mem_of_getElem? htr.found, rfl⟩
  obtain ⟨hnonneg, hlt⟩ := h.range _ hmem
  have hframe : (entry.pageFrame : Int) = entry.physicalPage := by
    rw [TranslationEntry.pageFrame, BitVec.toNat_ofInt]
    rw [show numPhysPages = 128 from rfl] at hlt
    omega
  rw [hframe]
  exact hmem

/-- Every step of the system is one of these. -/
theorem step_cases (h : MemOk s) {a : MemAct} (hs : s.step bigEndian a = some s') :
    MemStep bigEndian s a s' := by
  cases a with
  | readMem addr size =>
    obtain ⟨⟨t, space⟩, huser, hrest⟩ := Option.bind_eq_some_iff.mp hs
    obtain ⟨⟨m, r⟩, hread, rfl⟩ := Option.map_eq_some_iff.mp hrest
    refine .load huser ?_
    rcases readMem_spec (show space.restoreState.tlb = none from rfl) hread with hsame | ⟨_, _, _, htr⟩
    · exact Or.inl hsame
    · exact Or.inr ⟨_, _, _, _, _, _, htr⟩
  | writeMem addr size value =>
    obtain ⟨⟨t, space⟩, huser, hrest⟩ := Option.bind_eq_some_iff.mp hs
    obtain ⟨⟨m, r⟩, hwrite, heq⟩ := Option.map_eq_some_iff.mp hrest
    rcases writeMem_spec (show space.restoreState.tlb = none from rfl) hwrite with
      ⟨⟨exception, rfl⟩, hsame⟩ | ⟨memory, physAddr, table, entry, rfl, htr, hmem⟩
    · subst heq
      exact .store huser (Or.inl hsame) fun _ _ => rfl
    · subst heq
      have hframed := (h.framed t space (h.user huser).2.2).1
      refine .store huser (Or.inr ⟨_, _, _, _, _, _, htr⟩) fun x hx => hmem x ?_
      intro hin
      rw [hin] at hx
      exact hx (frame_of_store hframed htr)
  | startProcess file stack past =>
    simp only [MemSys.step] at hs
    split at hs
    · cases hs
    · rename_i hnone
      obtain ⟨r, hcreate, rfl⟩ := Option.map_eq_some_iff.mp hs
      exact .startProcess hnone hcreate
  | exec file stack past =>
    obtain ⟨r, hcreate, rfl⟩ := Option.map_eq_some_iff.mp hs
    exact .exec hcreate
  | exit =>
    obtain ⟨space, hspace, hrest⟩ := Option.bind_eq_some_iff.mp hs
    obtain ⟨b, hclean, rfl⟩ := Option.map_eq_some_iff.mp hrest
    exact .exit hspace hclean
  | run nextThread =>
    simp only [MemSys.step] at hs
    split at hs
    · rename_i hlt
      obtain rfl := Option.some.inj hs
      exact .run hlt
    · cases hs

/-! ## The invariant in every run -/

theorem init (h : (memSys bigEndian).init s) : MemOk s := by
  obtain ⟨⟨garbage, hnew⟩, hspace, hlive, hnext, hcurrent, -⟩ := h
  obtain ⟨b, hb, hbits, hmarked⟩ := BitMap.new_spec numPhysPages garbage
  rw [hnew] at hb
  obtain rfl := Option.some.inj hb
  have hheld : s.pool.held = [] := by
    unfold MemSys.pool
    rw [hlive]
    rfl
  refine ⟨⟨?_, fun f => ?_⟩, hbits, ?_, fun t => ?_, fun t ht => ?_, fun t space ht => ?_, ?_, fun ht => ?_⟩
  · rw [hheld]
    exact List.nodup_nil
  · rw [hheld]
    constructor
    · rintro ⟨i, hi, -⟩
      rw [hmarked] at hi
      exact absurd hi (Finset.notMem_empty i)
    · intro hf
      exact absurd hf List.not_mem_nil
  · rw [hlive]
    exact List.nodup_nil
  · rw [hlive, hspace]
    simp
  · rw [hlive] at ht
    exact absurd ht List.not_mem_nil
  · rw [hspace] at ht
    cases ht
  · rw [hcurrent, hnext]
    exact Nat.zero_lt_one
  · rw [hspace] at ht
    cases ht

/-- The bits of a page table are no part of it. -/
theorem setTable (h : MemOk s) {t : Tid} {space : AddrSpace} {m : Mmu} (memory : Bytes)
    (hspace : s.space t = some space) (htouched : space.Touched m) :
    MemOk { s.setTable t space m with memory := memory } := by
  obtain ⟨hframed, hfit⟩ := h.framed t space hspace
  obtain ⟨hback, hnum, hframes⟩ := hframed.writeBack htouched
  have hsome : ∀ u, ((s.setTable t space m).space u).isSome = (s.space u).isSome := by
    intro u
    by_cases hu : u = t
    · subst hu
      rw [hspace]
      show (Function.update s.space u _ u).isSome = _
      rw [Function.update_self]
      rfl
    · show (Function.update s.space t _ u).isSome = _
      rw [Function.update_of_ne hu]
  have hof : (s.setTable t space m).framesOf = s.framesOf := by
    funext u
    by_cases hu : u = t
    · subst hu
      show (Function.update s.space u _ u).elim [] AddrSpace.frames = (s.space u).elim [] AddrSpace.frames
      rw [Function.update_self, hspace]
      exact hframes
    · show (Function.update s.space t _ u).elim [] AddrSpace.frames = _
      rw [Function.update_of_ne hu]
      rfl
  have hpool : (s.setTable t space m).pool = s.pool := by
    show Pool.mk _ _ = Pool.mk _ _
    rw [hof]
    rfl
  refine ⟨?_, h.bits, h.nodup, fun u => ?_, h.created, fun u space' hu => ?_, h.running, fun hu => ?_⟩
  · show (s.setTable t space m).pool.Ok
    rw [hpool]
    exact h.pool
  · exact (h.live u).trans (by rw [← hsome u])
  · have hu' : Function.update s.space t (some (space.writeBack m)) u = some space' := hu
    by_cases hut : u = t
    · rw [hut, Function.update_self] at hu'
      obtain rfl := Option.some.inj hu'
      exact ⟨hback, hnum ▸ hfit⟩
    · rw [Function.update_of_ne hut] at hu'
      exact h.framed u space' hu'
  · refine h.installed ?_
    rw [← hsome]
    exact hu

/-- A thread without an address space gets one. -/
theorem withSpace (h : MemOk s) {file : List UInt8} {stack : Bytes} {past : Nat → Int} {t : Tid}
    {r : BitMap × AddrSpace × Bytes} {n : Tid} {installed : Option Tid}
    (hcreate : AddrSpace.create bigEndian s.myBitmap s.memory file stack past = some r)
    (hnone : s.space t = none) (hn : s.nextThread ≤ n) (ht : t < n)
    (hinstalled : installed = if t = s.currentThread then some t else s.installed) :
    MemOk { s.withSpace t r with nextThread := n, installed := installed } := by
  obtain ⟨b, space, memory⟩ := r
  obtain ⟨hframed, hfit, hbits, hfresh, hout, -⟩ := AddrSpace.create_spec h.bits hcreate
  have hnot : t ∉ s.live := by
    intro hlive
    have hsome := (h.live t).mp hlive
    rw [hnone] at hsome
    cases hsome
  have hof : ∀ u ∈ s.live, (s.withSpace t (b, space, memory)).framesOf u = s.framesOf u := by
    intro u hu
    have hut : u ≠ t := fun heq => hnot (heq ▸ hu)
    show (Function.update s.space t _ u).elim [] AddrSpace.frames = _
    rw [Function.update_of_ne hut]
    rfl
  have hself : (s.withSpace t (b, space, memory)).framesOf t = space.frames := by
    show (Function.update s.space t _ t).elim [] AddrSpace.frames = _
    rw [Function.update_self]
    rfl
  have hpool : (s.withSpace t (b, space, memory)).pool = s.pool.grant space.frames := by
    show Pool.mk b.out ((s.live ++ [t]).map _) = Pool.mk (s.myBitmap.out ∪ {f | f ∈ space.frames}) _
    rw [hout, List.map_append, List.map_congr_left hof, List.map_singleton, hself]
    rfl
  refine ⟨?_, hbits, ?_, fun u => ?_, fun u hu => ?_, fun u space' hu => ?_, ?_, fun hu => ?_⟩
  · show (s.withSpace t (b, space, memory)).pool.Ok
    rw [hpool]
    exact h.pool.grant hframed.nodup hfresh
  · refine List.nodup_append.mpr ⟨h.nodup, List.nodup_singleton t, ?_⟩
    intro u hu v hv huv
    rw [List.mem_singleton.mp hv] at huv
    exact hnot (huv ▸ hu)
  · show u ∈ s.live ++ [t] ↔ (Function.update s.space t (some space) u).isSome
    by_cases hut : u = t
    · subst hut
      rw [Function.update_self]
      simp
    · rw [Function.update_of_ne hut, ← h.live u]
      simp [hut]
  · rcases List.mem_append.mp hu with hold | hnew
    · exact Nat.lt_of_lt_of_le (h.created u hold) hn
    · rw [List.mem_singleton.mp hnew]
      exact ht
  · have hu' : Function.update s.space t (some space) u = some space' := hu
    by_cases hut : u = t
    · rw [hut, Function.update_self] at hu'
      obtain rfl := Option.some.inj hu'
      exact ⟨hframed, hfit⟩
    · rw [Function.update_of_ne hut] at hu'
      exact h.framed u space' hu'
  · exact Nat.lt_of_lt_of_le h.running hn
  · show installed = some s.currentThread
    have hu' : (Function.update s.space t (some space) s.currentThread).isSome := hu
    by_cases hct : t = s.currentThread
    · rw [if_pos hct] at hinstalled
      rw [hinstalled, hct]
    · rw [if_neg hct] at hinstalled
      rw [Function.update_of_ne (Ne.symm hct)] at hu'
      rw [hinstalled]
      exact h.installed hu'

/-- The address space of the thread that runs is deleted. -/
theorem withoutSpace (h : MemOk s) {space : AddrSpace} {b : BitMap}
    (hspace : s.space s.currentThread = some space)
    (hclean : space.cleanMyBitmap s.myBitmap = some b) : MemOk (s.withoutSpace b) := by
  obtain ⟨hframed, -⟩ := h.framed _ _ hspace
  have hrange : ∀ f ∈ space.frames, s.myBitmap.InRange f := by
    intro f hf
    obtain ⟨hnonneg, hlt⟩ := hframed.range f hf
    refine ⟨hnonneg, ?_⟩
    rw [h.bits]
    exact hlt
  obtain ⟨b₁, hclean₁, hbits, hout⟩ := AddrSpace.cleanMyBitmap_spec hrange
  rw [hclean] at hclean₁
  obtain rfl := Option.some.inj hclean₁
  have hlive : s.currentThread ∈ s.live := by
    rw [h.live, hspace]
    rfl
  have hframes : s.framesOf s.currentThread = space.frames := by
    rw [MemSys.framesOf, hspace]
    rfl
  -- the books: the entry of the thread is revoked
  have hheld : s.pool.held[s.live.idxOf s.currentThread]? = some space.frames := by
    show (s.live.map s.framesOf)[_]? = _
    rw [List.getElem?_map, List.getElem?_idxOf hlive, Option.map_some, hframes]
  have hrest : ∀ u ∈ s.live.erase s.currentThread, (s.withoutSpace b).framesOf u = s.framesOf u := by
    intro u hu
    have hne : u ≠ s.currentThread := ((h.nodup.mem_erase_iff).mp hu).1
    show (Function.update s.space s.currentThread none u).elim [] AddrSpace.frames = _
    rw [Function.update_of_ne hne]
    rfl
  have hpool : (s.withoutSpace b).pool = s.pool.revoke (s.live.idxOf s.currentThread) space.frames := by
    show Pool.mk b.out ((s.live.erase s.currentThread).map _)
      = Pool.mk (s.myBitmap.out \ {f | f ∈ space.frames}) ((s.live.map s.framesOf).eraseIdx _)
    rw [hout, List.map_congr_left hrest, List.eraseIdx_map, List.erase_eq_eraseIdx_of_idxOf rfl]
  refine ⟨?_, hbits.trans h.bits, h.nodup.erase _, fun u => ?_, fun u hu => ?_, fun u space' hu => ?_,
    h.running, fun hu => ?_⟩
  · rw [hpool]
    exact h.pool.revoke hheld
  · show u ∈ s.live.erase s.currentThread ↔ (Function.update s.space s.currentThread none u).isSome
    rw [h.nodup.mem_erase_iff]
    by_cases hut : u = s.currentThread
    · rw [hut, Function.update_self]
      simp
    · rw [Function.update_of_ne hut, ← h.live u]
      exact and_iff_right hut
  · exact h.created u (List.mem_of_mem_erase hu)
  · have hu' : Function.update s.space s.currentThread none u = some space' := hu
    by_cases hut : u = s.currentThread
    · rw [hut, Function.update_self] at hu'
      cases hu'
    · rw [Function.update_of_ne hut] at hu'
      exact h.framed u space' hu'
  · have hu' : (Function.update s.space s.currentThread none s.currentThread).isSome := hu
    rw [Function.update_self] at hu'
    cases hu'

/-- **Step lemma.** -/
theorem step (h : MemOk s) {a : MemAct} (hs : MemStep bigEndian s a s') : MemOk s' := by
  cases hs with
  | load huser htouched => exact h.setTable s.memory (h.user huser).2.2 htouched
  | @store _ _ _ _ _ _ memory huser htouched hmem => exact h.setTable memory (h.user huser).2.2 htouched
  | startProcess hnone hcreate =>
    exact h.withSpace hcreate hnone (Nat.le_refl _) h.running (if_pos rfl).symm
  | exec hcreate =>
    have hfresh : s.space s.nextThread = none := by
      cases hspace : s.space s.nextThread with
      | none => rfl
      | some space =>
        have hlive : s.nextThread ∈ s.live := by
          rw [h.live, hspace]
          rfl
        exact absurd (h.created _ hlive) (Nat.lt_irrefl _)
    have hne : ¬ s.nextThread = s.currentThread := Nat.ne_of_gt h.running
    exact h.withSpace hcreate hfresh (Nat.le_succ _) (Nat.lt_succ_self _) (if_neg hne).symm
  | exit hspace hclean => exact h.withoutSpace hspace hclean
  | run hlt =>
    refine ⟨h.pool, h.bits, h.nodup, h.live, h.created, h.framed, hlt, fun hsome => ?_⟩
    exact if_pos hsome

/-- **Run lemma.** -/
theorem of_reach (h : (memSys bigEndian).Reach s) : MemOk s := by
  refine h.invariant (I := MemOk) (fun _ hinit => init hinit) ?_
  intro s a s' _ hok hs
  exact hok.step (hok.step_cases hs)

end MemOk

/-! ## Isolation -/

/-- The byte that a process has at a virtual address. -/
def MemSys.byteAt (s : MemSys) (t : Tid) (v : BitVec 32) : Option UInt8 :=
  (s.space t).bind fun space => space.contents s.memory v

/-- The condition on a step: a program that is loaded fits. -/
def MemAct.Fits (bigEndian : Bool) : MemAct → Prop
  | .startProcess file stack _ => ((AddrSpace.header bigEndian file stack).toHost bigEndian).Fits
  | .exec file stack _ => ((AddrSpace.header bigEndian file stack).toHost bigEndian).Fits
  | _ => True

namespace MemOk

variable {s s' : MemSys} {bigEndian : Bool}

/-- What is written outside of its frames does not change a process. -/
theorem byteAt_congr (h : MemOk s) {t : Tid} (hspace : s'.space t = s.space t)
    (hmem : ∀ a : Nat, ((a / pageSize : Nat) : Int) ∈ s.framesOf t → s'.memory a = s.memory a) :
    s'.byteAt t = s.byteAt t := by
  funext v
  unfold MemSys.byteAt
  rw [hspace]
  unfold MemSys.framesOf at hmem
  cases hsp : s.space t with
  | none => rfl
  | some space =>
    rw [hsp] at hmem
    obtain ⟨hframed, hfit⟩ := h.framed t space hsp
    show space.contents s'.memory v = space.contents s.memory v
    rw [hframed.contents_congr hframed hfit rfl rfl hmem]

/-- A load, and the bits that it sets. -/
theorem byteAt_setTable (h : MemOk s) {t u : Tid} {space : AddrSpace} {m : Mmu}
    (hspace : s.space t = some space) (htouched : space.Touched m) :
    (s.setTable t space m).byteAt u = s.byteAt u := by
  by_cases hut : u = t
  · subst hut
    obtain ⟨hframed, hfit⟩ := h.framed u space hspace
    obtain ⟨hback, hnum, hframes⟩ := hframed.writeBack htouched
    funext v
    show (Function.update s.space u _ u).bind _ = (s.space u).bind _
    rw [Function.update_self, hspace]
    show (space.writeBack m).contents s.memory v = space.contents s.memory v
    rw [hframed.contents_congr hback hfit hnum hframes fun _ _ => rfl]
  · exact h.byteAt_congr (Function.update_of_ne hut ..) fun _ _ => rfl

/-- A creation, for the other processes. -/
theorem byteAt_withSpace (h : MemOk s) {file : List UInt8} {stack : Bytes} {past : Nat → Int} {t u : Tid}
    {r : BitMap × AddrSpace × Bytes}
    (hcreate : AddrSpace.create bigEndian s.myBitmap s.memory file stack past = some r)
    (hfits : ((AddrSpace.header bigEndian file stack).toHost bigEndian).Fits) (hut : u ≠ t) :
    (s.withSpace t r).byteAt u = s.byteAt u := by
  obtain ⟨b, space, memory⟩ := r
  obtain ⟨-, -, -, hfresh, -, hmem⟩ := AddrSpace.create_spec h.bits hcreate
  refine h.byteAt_congr (Function.update_of_ne hut ..) fun a ha => hmem hfits a fun hnew => ?_
  -- a frame of `u` is marked, the new frames were not
  refine hfresh _ hnew ((h.pool.used _).mpr (List.mem_flatten.mpr ⟨s.framesOf u, ?_, ha⟩))
  refine List.mem_map.mpr ⟨u, (h.live u).mpr ?_, rfl⟩
  unfold MemSys.framesOf at ha
  cases hspace : s.space u with
  | none =>
    rw [hspace] at ha
    exact absurd ha List.not_mem_nil
  | some space => rfl

end MemOk

/-- **Isolation.**  From every state that is reached, a step that `Fits` changes no byte of a process, nor
    which addresses it has: unless it is a store with the table of that process installed, or the exit
    of that process. -/
theorem memory_isolation {bigEndian : Bool} {s s' : MemSys} {a : MemAct}
    (h : (memSys bigEndian).Reach s) (hs : (memSys bigEndian).step s a s') (hfits : a.Fits bigEndian)
    {B : Tid} (hlive : (s.space B).isSome) {v : BitVec 32} (hchange : s'.byteAt B v ≠ s.byteAt B v) :
    (∃ addr size value, a = .writeMem addr size value) ∧ s.installed = some B ∨
      a = .exit ∧ s.currentThread = B := by
  have hok : MemOk s := .of_reach h
  -- the other steps would leave the bytes as they are
  have hsame : ¬ s'.byteAt B = s.byteAt B := fun heq => hchange (congrFun heq v)
  cases hok.step_cases hs with
  | load huser htouched => exact (hsame (hok.byteAt_setTable (hok.user huser).2.2 htouched)).elim
  | @store addr size value t space m memory huser htouched hmem =>
    obtain ⟨-, hinstalled, hspace⟩ := hok.user huser
    by_cases hB : t = B
    · rw [hB] at hinstalled
      exact Or.inl ⟨⟨addr, size, value, rfl⟩, hinstalled⟩
    · refine (hsame (hok.byteAt_congr (Function.update_of_ne (Ne.symm hB) ..) fun x hx => ?_)).elim
      refine hmem x fun hin => hok.disjoint hB ?_ hx
      rw [MemSys.framesOf, hspace]
      exact hin
  | startProcess hnone hcreate =>
    have hB : B ≠ s.currentThread := by
      intro heq
      rw [heq, hnone] at hlive
      cases hlive
    exact (hsame (hok.byteAt_withSpace hcreate hfits hB)).elim
  | exec hcreate =>
    have hB : B ≠ s.nextThread := Nat.ne_of_lt (hok.created B ((hok.live B).mpr hlive))
    exact (hsame (hok.byteAt_withSpace hcreate hfits hB)).elim
  | exit hspace hclean =>
    by_cases hB : s.currentThread = B
    · exact Or.inr ⟨rfl, hB⟩
    · exact (hsame (hok.byteAt_congr (Function.update_of_ne (Ne.symm hB) ..) fun _ _ => rfl)).elim
  | run hlt => exact (hsame rfl).elim

/-- The machine as it is booted. -/
def bootMem : MemSys where
  memory _ := 0
  myBitmap := bootFrames.myBitmap
  space _ := none
  live := []
  nextThread := 1
  currentThread := 0
  installed := none

theorem bootMem_reach (bigEndian : Bool) : (memSys bigEndian).Reach bootMem := by
  refine .init ⟨⟨fun _ => 0xdeadbeef#32, ?_⟩, fun _ => rfl, rfl, rfl, rfl, rfl⟩
  obtain ⟨b, hb, -⟩ := BitMap.new_spec numPhysPages fun _ => 0xdeadbeef#32
  simp only [bootMem, bootFrames, hb, Option.getD_some]

/-- A small program, for `main` and for others. -/
def smallFile : List UInt8 := linkedFile 4 2 [12, 0, 0, 0, 5, 6]

/-- Two processes, and the second runs. -/
def twoProcesses : MemSys :=
  Lts.replay (MemSys.step false) bootMem
    [.startProcess smallFile (fun _ => 0) (fun _ => 0), .exec smallFile (fun _ => 0) (fun _ => 0), .run 1]

theorem twoProcesses_reach : (memSys false).Reach twoProcesses :=
  Lts.reach_replay (fun _ _ _ h => h) (bootMem_reach false) _

/-- A store of the second process: its byte 0 changes from 12 to 77, with its table installed. -/
theorem memory_isolation_store :
    (∃ addr size value, MemAct.writeMem 0 1 77 = .writeMem addr size value) ∧
        twoProcesses.installed = some 1 ∨
      MemAct.writeMem 0 1 77 = .exit ∧ twoProcesses.currentThread = 1 := by
  obtain ⟨s', hs, hbyte⟩ : ∃ s', twoProcesses.step false (.writeMem 0 1 77) = some s' ∧
      s'.byteAt 1 0 = some 77 := by
    have hrun : (twoProcesses.step false (.writeMem 0 1 77)).map (·.byteAt 1 0) = some (some 77) := by
      decide +kernel
    exact Option.map_eq_some_iff.mp hrun
  have hold : twoProcesses.byteAt 1 0 = some 12 := by decide +kernel
  have hlive : (twoProcesses.space 1).isSome := by decide +kernel
  refine memory_isolation twoProcesses_reach hs trivial hlive (v := 0) ?_
  rw [hbyte, hold]
  decide

/-- A program whose code fills the last page of its ten pages, and whose data is at address 0. -/
def spillFile : List UInt8 :=
  noffFile [1152, 40, 128, 0, 168, 128, 0, 0, 0] (List.replicate 128 7 ++ List.replicate 128 9)

/-- The segments of this program are inside its address space, but the code loop goes on to page 10.  If a
    0 is found behind its table, the first page of `main` is overwritten. -/
theorem memory_isolation_spill :
    ((AddrSpace.header false spillFile fun _ => 0).toHost false).Inside ∧
      (memSys false).Reach twoProcesses ∧ (twoProcesses.space 0).isSome ∧
      twoProcesses.byteAt 0 0 = some 12 ∧
      ∃ s', (memSys false).step twoProcesses (.exec spillFile (fun _ => 0) fun _ => 0) s' ∧
        s'.byteAt 0 0 = some 9 := by
  refine ⟨?_, twoProcesses_reach, ?_, ?_, ?_⟩
  · unfold NoffHeader.Inside
    decide +kernel
  · decide +kernel
  · decide +kernel
  · have hrun : (twoProcesses.step false (.exec spillFile (fun _ => 0) fun _ => 0)).map (·.byteAt 0 0)
        = some (some 9) := by
      decide +kernel
    exact Option.map_eq_some_iff.mp hrun

end Nachos
