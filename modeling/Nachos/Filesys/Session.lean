/-
  Runs of the file system, and what one step of a run does.

  A run starts with the formatting of a disk, whatever was on it.  Then files are created, removed and
  opened, and bytes are read and written through any number of open files.  An open file is a HANDLE; it
  has the copy of the header that `Open` made, and nothing in the code keeps it from being used after the
  file was removed.  That it was is noted in the handle (`removed`), together with the key of the name it
  was opened by; the code has neither, and no step looks at them.

  1. **The system** — `Fs.step` is one call; its result is part of the step.

  2. **What a step does** (`FsStep`) — with the files that are on disk before and after it, for all steps that
     are `Safe`: sizes of new files are in range, and a write that is not rejected at once goes through a
     handle whose file was not removed, not before the start of the file, and with an end that is an `int`.
     Reads are not restricted.

  3. **The invariant** (`Fs.Holds`) — the disk is in order, and the header of a handle whose file was not
     removed describes that file.  Safe steps keep it (`FsStep.holds`).
-/
import Nachos.Filesys.Operations

namespace Nachos

/-! ## The system -/

/-- A file that was opened. -/
structure Handle where
  file : OpenFile
  /-- Of the name it was opened by. -/
  key : List UInt8
  /-- The file was removed since. -/
  removed : Bool

/-- The file system, the disk, and the open files. -/
structure Fs where
  system : FileSystem
  disk : DiskFile
  handles : Nat → Option Handle
  nextHandle : Nat

/-- A call; `mem` is what memory holds that is allocated during the call. -/
inductive FsAct where
  | create (name : Bytes) (initialSize : Int) (mem : Nat → Bytes)
  | remove (name : Bytes) (mem : Nat → Bytes)
  | openFile (name : Bytes) (mem : Nat → Bytes)
  | close (h : Nat)
  | seek (h : Nat) (position : Int)
  | readAt (h : Nat) (into : Bytes) (numBytes position : Int) (mem : Bytes)
  | writeAt (h : Nat) (from_ : Bytes) (numBytes position : Int) (mem : Nat → Bytes)
  | read (h : Nat) (into : Bytes) (numBytes : Int) (mem : Bytes)
  | write (h : Nat) (from_ : Bytes) (numBytes : Int) (mem : Nat → Bytes)

/-- What a call returns. -/
inductive FsOut where
  | done
  | result (success : Bool)
  | opened (h : Option Nat)
  | got (numBytes : Int) (into : Bytes)
  | put (numBytes : Int)

namespace Fs

/-- The handles after the file with a key was removed. -/
def withoutFile (s : Fs) (key : List UInt8) : Nat → Option Handle := fun h =>
  (s.handles h).map fun hd => if hd.key = key then { hd with removed := true } else hd

/-- The file of a handle changes. -/
def setFile (s : Fs) (h : Nat) (hd : Handle) (file : OpenFile) : Fs :=
  { s with handles := Function.update s.handles h (some { hd with file := file }) }

/-- A call; `none`: an `ASSERT` fails, or memory is used that is not there. -/
def step (s : Fs) : FsAct → Option (Fs × FsOut)
  | .create name initialSize mem =>
    (s.system.create s.disk name initialSize mem).map fun r => ({ s with disk := r.2 }, .result r.1)
  | .remove name mem =>
    (s.system.remove s.disk name mem).map fun r =>
      ({ s with
          disk := r.2
          handles := if r.1 then s.withoutFile (fileKey name) else s.handles }, .result r.1)
  | .openFile name mem =>
    (s.system.openFile s.disk name mem).map fun r =>
      match r with
      | none => (s, .opened none)
      | some file =>
        ({ s with
            handles := Function.update s.handles s.nextHandle (some ⟨file, fileKey name, false⟩)
            nextHandle := s.nextHandle + 1 }, .opened (some s.nextHandle))
  | .close h => (s.handles h).map fun _ => ({ s with handles := Function.update s.handles h none }, .done)
  | .seek h position => (s.handles h).map fun hd => (s.setFile h hd (hd.file.seek position), .done)
  | .readAt h into numBytes position mem =>
    (s.handles h).bind fun hd =>
      (hd.file.readAt s.disk mem into 0 numBytes position).map fun r => (s, .got r.1 r.2)
  | .writeAt h from_ numBytes position mem =>
    (s.handles h).bind fun hd =>
      (hd.file.writeAt s.disk mem from_ numBytes position).map fun r => ({ s with disk := r.2 }, .put r.1)
  | .read h into numBytes mem =>
    (s.handles h).bind fun hd =>
      (hd.file.read s.disk mem into 0 numBytes).map fun r => (s.setFile h hd r.2.1, .got r.1 r.2.2)
  | .write h from_ numBytes mem =>
    (s.handles h).bind fun hd =>
      (hd.file.write s.disk mem from_ numBytes).map fun r =>
        ({ s.setFile h hd r.2.1 with disk := r.2.2 }, .put r.1)

end Fs

/-- The system: a disk is formatted, and no file is open. -/
def fsSys : Lts Fs FsAct where
  init s := (∃ disk mem, FileSystem.format disk mem = some (s.system, s.disk)) ∧ (∀ h, s.handles h = none) ∧
    s.nextHandle = 0
  step s a s' := ∃ out, s.step a = some (s', out)

/-- The state after a call, if the call returns. -/
def Fs.next (s : Fs) (a : FsAct) : Fs := ((s.step a).map (·.1)).getD s

theorem Fs.step_next {s : Fs} {a : FsAct} (hsome : (s.step a).isSome) : fsSys.step s a (s.next a) := by
  obtain ⟨⟨s', out⟩, hs⟩ := Option.isSome_iff_exists.mp hsome
  refine ⟨out, ?_⟩
  rw [Fs.next, hs]
  rfl

theorem Fs.reach_next {ok : Fs → FsAct → Prop} {s : Fs} {a : FsAct} (h : (fsSys.restrict ok).Reach s)
    (hok : ok s a) (hsome : (s.step a).isSome) : (fsSys.restrict ok).Reach (s.next a) :=
  h.step ⟨hok, step_next hsome⟩

/-- `WriteAt` leaves the handles alone. -/
theorem Fs.handles_next_writeAt (s : Fs) (h : Nat) (from_ : Bytes) (numBytes position : Int) (mem : Nat → Bytes) :
    (s.next (.writeAt h from_ numBytes position mem)).handles = s.handles := by
  unfold next
  cases hs : s.step (.writeAt h from_ numBytes position mem) with
  | none => rfl
  | some r =>
    obtain ⟨hd, -, hr⟩ := Option.bind_eq_some_iff.mp hs
    obtain ⟨w, -, rfl⟩ := Option.map_eq_some_iff.mp hr
    rfl

/-! ## Conditions on calls -/

namespace FsAct

/-- The position and the end of a request. -/
def InRange (numBytes position : Int) : Prop := 0 ≤ position ∧ position + numBytes < 2 ^ 31

/-- A write in range to a file that was not removed, or one that the code rejects. -/
def SafeWrite (hd : Handle) (numBytes position : Int) : Prop :=
  hd.file.Rejected numBytes position ∨ hd.removed = false ∧ InRange numBytes position

/-- Sizes are in range; nothing is written through a handle whose file was removed, or out of range. -/
def Safe (s : Fs) : FsAct → Prop
  | create _ initialSize _ => 0 ≤ initialSize ∧ initialSize ≤ maxFileSize
  | writeAt h _ numBytes position _ => ∀ hd, s.handles h = some hd → SafeWrite hd numBytes position
  | write h _ numBytes _ => ∀ hd, s.handles h = some hd → SafeWrite hd numBytes hd.file.seekPosition
  | _ => True

end FsAct

/-! ## What a step does -/

/-- `n` bytes at `p` are written to a file. -/
structure FileRec.Written (f : FileRec) (store store' : Blocks sectorSize) (from_ : Bytes) (n p : Nat) :
    Prop where
  frame : ∀ b ∉ f.sectors, store' b = store b
  bytes : ∀ q < f.length, store'.array f.sectors q
    = if p ≤ q ∧ q < p + n then from_ (q - p) else store.array f.sectors q

/-- A handle is that of a file. -/
structure Handle.Opens (hd : Handle) (files : Nat → Option FileRec) (i : Nat) (f : FileRec) : Prop where
  file : files i = some f
  key : f.key = hd.key
  hdr : hd.file.hdr.Describes f.length f.sectors

/-- **A step**, in a state with these files: the call, the next state, the result, and the files then. -/
inductive FsStep (s : Fs) (files : Nat → Option FileRec) :
    FsAct → Fs → FsOut → (Nat → Option FileRec) → Prop where
  | createFails {name : Bytes} {initialSize : Int} {mem : Nat → Bytes} :
      FsStep s files (.create name initialSize mem) s (.result false) files
  | creates {name : Bytes} {initialSize : Int} {mem : Nat → Bytes} {disk' : DiskFile} {i : Nat} {f : FileRec}
      (hnone : files i = none) (hkey : f.key = fileKey name) (hlength : (f.length : Int) = initialSize)
      (habsent : ∀ j g, files j = some g → g.key ≠ fileKey name)
      (hshows : Shows (DiskFile.blocks disk') (Function.update files i (some f)))
      (hothers : ∀ j g, files j = some g → ∀ k ∈ g.owns,
        DiskFile.blocks disk' k = DiskFile.blocks s.disk k) :
      FsStep s files (.create name initialSize mem) { s with disk := disk' } (.result true)
        (Function.update files i (some f))
  | removeFails {name : Bytes} {mem : Nat → Bytes}
      (habsent : ∀ j g, files j = some g → g.key ≠ fileKey name) :
      FsStep s files (.remove name mem) s (.result false) files
  | removes {name : Bytes} {mem : Nat → Bytes} {disk' : DiskFile} {i : Nat} {f : FileRec}
      (hf : files i = some f) (hkey : f.key = fileKey name)
      (hshows : Shows (DiskFile.blocks disk') (Function.update files i none))
      (hothers : ∀ j g, files j = some g → ∀ k ∈ g.owns,
        DiskFile.blocks disk' k = DiskFile.blocks s.disk k) :
      FsStep s files (.remove name mem)
        { s with disk := disk', handles := s.withoutFile (fileKey name) } (.result true)
        (Function.update files i none)
  | openFails {name : Bytes} {mem : Nat → Bytes}
      (habsent : ∀ j g, files j = some g → g.key ≠ fileKey name) :
      FsStep s files (.openFile name mem) s (.opened none) files
  | opens {name : Bytes} {mem : Nat → Bytes} {file : OpenFile} {i : Nat} {f : FileRec}
      (hopens : Handle.Opens ⟨file, fileKey name, false⟩ files i f) (hseek : file.seekPosition = 0) :
      FsStep s files (.openFile name mem)
        { s with
          handles := Function.update s.handles s.nextHandle (some ⟨file, fileKey name, false⟩)
          nextHandle := s.nextHandle + 1 } (.opened (some s.nextHandle)) files
  | closes {h : Nat} {hd : Handle} (hh : s.handles h = some hd) :
      FsStep s files (.close h) { s with handles := Function.update s.handles h none } .done files
  | seeks {h : Nat} {hd : Handle} {position : Int} (hh : s.handles h = some hd) :
      FsStep s files (.seek h position) (s.setFile h hd (hd.file.seek position)) .done files
  | readsAt {h : Nat} {hd : Handle} {into into' : Bytes} {numBytes position n : Int} {mem : Bytes}
      (hh : s.handles h = some hd)
      (hread : hd.file.readAt s.disk mem into 0 numBytes position = some (n, into')) :
      FsStep s files (.readAt h into numBytes position mem) s (.got n into') files
  | reads {h : Nat} {hd : Handle} {into into' : Bytes} {numBytes n : Int} {mem : Bytes}
      (hh : s.handles h = some hd)
      (hread : hd.file.readAt s.disk mem into 0 numBytes hd.file.seekPosition = some (n, into')) :
      FsStep s files (.read h into numBytes mem)
        (s.setFile h hd (hd.file.seek (int32 (hd.file.seekPosition + n)))) (.got n into') files
  | rejectsAt {h : Nat} {hd : Handle} {from_ : Bytes} {numBytes position : Int} {mem : Nat → Bytes}
      (hh : s.handles h = some hd) (hnot : ¬ (hd.removed = false ∧ FsAct.InRange numBytes position)) :
      FsStep s files (.writeAt h from_ numBytes position mem) s (.put 0) files
  | rejects {h : Nat} {hd : Handle} {from_ : Bytes} {numBytes : Int} {mem : Nat → Bytes}
      (hh : s.handles h = some hd) (hnot : ¬ (hd.removed = false ∧ FsAct.InRange numBytes hd.file.seekPosition)) :
      FsStep s files (.write h from_ numBytes mem)
        (s.setFile h hd (hd.file.seek (int32 (hd.file.seekPosition + 0)))) (.put 0) files
  | writesAt {h : Nat} {hd : Handle} {from_ : Bytes} {numBytes : Int} {p : Nat} {mem : Nat → Bytes}
      {disk' : DiskFile} {i : Nat} {f : FileRec} (hh : s.handles h = some hd) (hlive : hd.removed = false)
      (hopens : hd.Opens files i f)
      (hwritten : f.Written (DiskFile.blocks s.disk) (DiskFile.blocks disk') from_
        (OpenFile.clamp f.length numBytes p) p) :
      FsStep s files (.writeAt h from_ numBytes p mem) { s with disk := disk' }
        (.put (OpenFile.clamp f.length numBytes p)) files
  | writes {h : Nat} {hd : Handle} {from_ : Bytes} {numBytes : Int} {p : Nat} {mem : Nat → Bytes}
      {disk' : DiskFile} {i : Nat} {f : FileRec} (hh : s.handles h = some hd) (hlive : hd.removed = false)
      (hseek : hd.file.seekPosition = p) (hopens : hd.Opens files i f)
      (hwritten : f.Written (DiskFile.blocks s.disk) (DiskFile.blocks disk') from_
        (OpenFile.clamp f.length numBytes p) p) :
      FsStep s files (.write h from_ numBytes mem)
        { s.setFile h hd (hd.file.seek (int32 (hd.file.seekPosition + OpenFile.clamp f.length numBytes p)))
          with disk := disk' }
        (.put (OpenFile.clamp f.length numBytes p)) files

/-! ## The invariant -/

/-- The disk is in order, with these files, and open files have the right headers. -/
structure Fs.Holds (s : Fs) (files : Nat → Option FileRec) : Prop where
  ready : s.system.Ready
  shows : Shows (DiskFile.blocks s.disk) files
  handles : ∀ h hd, s.handles h = some hd → hd.removed = false → ∃ i f, hd.Opens files i f

namespace Fs.Holds

variable {s s' : Fs} {files files' : Nat → Option FileRec} {a : FsAct} {out : FsOut}

/-- Through a handle whose file was not removed, what is written goes to the file. -/
theorem writeAt (h : s.Holds files) {k : Nat} {hd : Handle} (hh : s.handles k = some hd)
    (hlive : hd.removed = false) {numBytes : Int} {p : Nat} (hover : p + numBytes < 2 ^ 31)
    (mem : Nat → Bytes) (from_ : Bytes) :
    ∃ disk' i f, hd.Opens files i f ∧
      hd.file.writeAt s.disk mem from_ numBytes p = some (↑(OpenFile.clamp f.length numBytes p), disk') ∧
      f.Written (DiskFile.blocks s.disk) (DiskFile.blocks disk') from_ (OpenFile.clamp f.length numBytes p) p := by
  obtain ⟨i, f, hopens⟩ := h.handles k hd hh hlive
  have hnodup : f.sectors.Nodup := (List.nodup_cons.mp (h.shows.nodup hopens.file)).2
  obtain ⟨disk', hwrite, hframe, hbytes⟩ := OpenFile.writeAt_spec hopens.hdr hnodup hover s.disk mem from_
  exact ⟨disk', i, f, hopens, hwrite, hframe, hbytes⟩

/-- A handle whose position changes. -/
theorem setFile (h : s.Holds files) {k : Nat} {hd : Handle} (hh : s.handles k = some hd) (position : Int) :
    (s.setFile k hd (hd.file.seek position)).Holds files := by
  refine ⟨h.ready, h.shows, fun k' hd' hh' hlive => ?_⟩
  rcases Pool.update_eq_some hh' with ⟨-, heq⟩ | ⟨-, hold⟩
  · obtain rfl := Option.some.inj heq
    obtain ⟨i, f, hopens⟩ := h.handles k hd hh hlive
    exact ⟨i, f, hopens.file, hopens.key, hopens.hdr⟩
  · exact h.handles k' hd' hold hlive

/-- **What a safe step does.** -/
theorem step_cases (h : s.Holds files) (ha : a.Safe s) (hs : s.step a = some (s', out)) :
    ∃ files', FsStep s files a s' out files' := by
  cases a with
  | create name initialSize mem =>
    obtain ⟨hsize, hmax⟩ := ha
    obtain ⟨size, rfl⟩ := Int.eq_ofNat_of_zero_le hsize
    simp only [Fs.step] at hs
    rcases FileSystem.create_spec h.ready h.shows name (Int.ofNat_le.mp hmax) mem with hfail |
      ⟨disk', i, f, hcreate, -, hnone, hkey, hlength, habsent, hshows, hothers⟩
    · rw [hfail] at hs
      cases hs
      exact ⟨files, .createFails⟩
    · rw [hcreate] at hs
      cases hs
      exact ⟨_, .creates hnone hkey (congrArg Int.ofNat hlength) habsent hshows hothers⟩
  | remove name mem =>
    simp only [Fs.step] at hs
    rcases FileSystem.remove_spec h.ready h.shows name mem with
      ⟨disk', i, f, hf, hkey, hremove, hshows, hothers⟩ | ⟨habsent, hfail⟩
    · rw [hremove] at hs
      cases hs
      exact ⟨_, .removes hf hkey hshows hothers⟩
    · rw [hfail] at hs
      cases hs
      exact ⟨files, .removeFails habsent⟩
  | openFile name mem =>
    simp only [Fs.step] at hs
    rcases FileSystem.openFile_spec h.ready h.shows name mem with
      ⟨i, f, file, hf, hkey, hopen, hd, hseek⟩ | ⟨habsent, hfail⟩
    · rw [hopen] at hs
      cases hs
      exact ⟨files, .opens ⟨hf, hkey, hd⟩ hseek⟩
    · rw [hfail] at hs
      cases hs
      exact ⟨files, .openFails habsent⟩
  | close k =>
    obtain ⟨hd, hh, hs⟩ := Option.map_eq_some_iff.mp hs
    cases hs
    exact ⟨files, .closes hh⟩
  | seek k position =>
    obtain ⟨hd, hh, hs⟩ := Option.map_eq_some_iff.mp hs
    cases hs
    exact ⟨files, .seeks hh⟩
  | readAt k into numBytes position mem =>
    obtain ⟨hd, hh, hs⟩ := Option.bind_eq_some_iff.mp hs
    obtain ⟨r, hread, hs⟩ := Option.map_eq_some_iff.mp hs
    cases hs
    exact ⟨files, .readsAt hh hread⟩
  | writeAt k from_ numBytes position mem =>
    obtain ⟨hd, hh, hs⟩ := Option.bind_eq_some_iff.mp hs
    by_cases hok : hd.removed = false ∧ FsAct.InRange numBytes position
    · obtain ⟨hlive, hpos, hover⟩ := hok
      obtain ⟨p, rfl⟩ := Int.eq_ofNat_of_zero_le hpos
      obtain ⟨disk', i, f, hopens, hwrite, hwritten⟩ := h.writeAt hh hlive hover mem from_
      rw [hwrite] at hs
      cases hs
      exact ⟨files, .writesAt hh hlive hopens hwritten⟩
    · rw [((ha hd hh).resolve_right hok).writeAt] at hs
      cases hs
      exact ⟨files, .rejectsAt hh hok⟩
  | read k into numBytes mem =>
    obtain ⟨hd, hh, hs⟩ := Option.bind_eq_some_iff.mp hs
    obtain ⟨r, hread, hs⟩ := Option.map_eq_some_iff.mp hs
    obtain ⟨⟨n, into'⟩, hreadAt, rfl⟩ := Option.map_eq_some_iff.mp hread
    cases hs
    exact ⟨files, .reads hh hreadAt⟩
  | write k from_ numBytes mem =>
    obtain ⟨hd, hh, hs⟩ := Option.bind_eq_some_iff.mp hs
    obtain ⟨r, hr, hs⟩ := Option.map_eq_some_iff.mp hs
    by_cases hok : hd.removed = false ∧ FsAct.InRange numBytes hd.file.seekPosition
    · obtain ⟨hlive, hpos, hover⟩ := hok
      obtain ⟨p, hp⟩ := Int.eq_ofNat_of_zero_le hpos
      rw [hp] at hover
      obtain ⟨disk', i, f, hopens, hwrite, hwritten⟩ := h.writeAt hh hlive hover mem from_
      rw [OpenFile.write, hp, hwrite] at hr
      cases hr
      cases hs
      rw [← hp]
      exact ⟨files, .writes hh hlive hp hopens hwritten⟩
    · rw [OpenFile.write, ((ha hd hh).resolve_right hok).writeAt] at hr
      cases hr
      cases hs
      exact ⟨files, .rejects hh hok⟩

end Fs.Holds

/-- What a file keeps when the files of other slots change. -/
theorem Handle.Opens.update {hd : Handle} {files : Nat → Option FileRec} {i j : Nat} {f : FileRec}
    (h : hd.Opens files i f) (hij : i ≠ j) (o : Option FileRec) : hd.Opens (Function.update files j o) i f :=
  ⟨by rw [Function.update_of_ne hij]; exact h.file, h.key, h.hdr⟩

/-- **Safe steps keep the invariant.** -/
theorem FsStep.holds {s s' : Fs} {files files' : Nat → Option FileRec} {a : FsAct} {out : FsOut}
    (h : s.Holds files) (hs : FsStep s files a s' out files') : s'.Holds files' := by
  cases hs with
  | createFails => exact h
  | @creates name initialSize mem disk' i f hnone hkey hlength habsent hshows hothers =>
    refine ⟨h.ready, hshows, fun k hd hh hlive => ?_⟩
    obtain ⟨j, g, hopens⟩ := h.handles k hd hh hlive
    refine ⟨j, g, hopens.update ?_ _⟩
    rintro rfl
    cases hnone.symm.trans hopens.file
  | removeFails habsent => exact h
  | @removes name mem disk' i f hf hkey hshows hothers =>
    refine ⟨h.ready, hshows, fun k hd hh hlive => ?_⟩
    obtain ⟨hd₀, hh₀, rfl⟩ := Option.map_eq_some_iff.mp hh
    -- a handle that is not marked is that of another file
    by_cases hsame : hd₀.key = fileKey name
    · rw [if_pos hsame] at hlive
      cases hlive
    · rw [if_neg hsame] at hlive ⊢
      obtain ⟨j, g, hopens⟩ := h.handles k hd₀ hh₀ hlive
      refine ⟨j, g, hopens.update ?_ _⟩
      rintro rfl
      obtain rfl := Option.some.inj (hf.symm.trans hopens.file)
      exact hsame (hopens.key.symm.trans hkey)
  | openFails habsent => exact h
  | @opens name mem file i f hopens hseek =>
    refine ⟨h.ready, h.shows, fun k hd hh hlive => ?_⟩
    rcases Pool.update_eq_some hh with ⟨-, heq⟩ | ⟨-, hold⟩
    · obtain rfl := Option.some.inj heq
      exact ⟨i, f, hopens⟩
    · exact h.handles k hd hold hlive
  | @closes k hd hh =>
    refine ⟨h.ready, h.shows, fun k' hd' hh' hlive => ?_⟩
    rcases Pool.update_eq_some hh' with ⟨-, heq⟩ | ⟨-, hold⟩
    · cases heq
    · exact h.handles k' hd' hold hlive
  | seeks hh => exact h.setFile hh _
  | readsAt hh hread => exact h
  | reads hh hread => exact h.setFile hh _
  | rejectsAt hh hnot => exact h
  | rejects hh hnot => exact h.setFile hh _
  | writesAt hh hlive hopens hwritten =>
    exact ⟨h.ready, h.shows.of_data hopens.file hwritten.frame, h.handles⟩
  | writes hh hlive hseek hopens hwritten =>
    exact ⟨h.ready, h.shows.of_data hopens.file hwritten.frame, (h.setFile hh _).handles⟩

theorem Fs.holds_of_init {s : Fs} (h : fsSys.init s) : s.Holds fun _ => none := by
  obtain ⟨⟨disk, mem, hformat⟩, hnone, -⟩ := h
  obtain ⟨fs, disk', hformat', hready, hshows⟩ := FileSystem.format_spec disk mem
  rw [hformat'] at hformat
  obtain ⟨hfs, hdisk⟩ := Prod.mk.inj (Option.some.inj hformat)
  refine ⟨hfs ▸ hready, hdisk ▸ hshows, fun k hd hh _ => ?_⟩
  rw [hnone k] at hh
  cases hh

/-- **In every run of safe steps** the invariant holds. -/
theorem Fs.holds_of_reach {s : Fs} (h : (fsSys.restrict FsAct.Safe).Reach s) :
    ∃ files, s.Holds files := by
  refine Lts.Reach.invariant (I := fun s => ∃ files, s.Holds files) (fun s hinit => ?_)
    (fun s a s' _ hold hstep => ?_) h
  · exact ⟨_, holds_of_init hinit⟩
  · obtain ⟨files, hholds⟩ := hold
    obtain ⟨hsafe, out, hs⟩ := hstep
    obtain ⟨files', hfs⟩ := hholds.step_cases hsafe hs
    exact ⟨files', hfs.holds hholds⟩

/-- A disk of zeros, formatted. -/
def bootFs : Fs :=
  ((FileSystem.format (fun _ => 0) fun _ _ => 0).map fun r => ⟨r.1, r.2, fun _ => none, 0⟩).getD
    ⟨⟨⟨⟨fun _ => 0⟩, 0⟩, ⟨⟨fun _ => 0⟩, 0⟩⟩, fun _ => 0, fun _ => none, 0⟩

theorem bootFs_init : fsSys.init bootFs := by
  obtain ⟨system, disk, hformat, -, -⟩ := FileSystem.format_spec (fun _ => 0) fun _ _ => 0
  have hboot : bootFs = ⟨system, disk, fun _ => none, 0⟩ := by
    rw [bootFs, hformat]
    rfl
  rw [hboot]
  exact ⟨⟨_, _, hformat⟩, fun _ => rfl, rfl⟩

theorem bootFs_reach (ok : Fs → FsAct → Prop) : (fsSys.restrict ok).Reach bootFs := .init bootFs_init

end Nachos
