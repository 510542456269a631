/-
  The sector writes of a call, one after the other.

  The disk writes whole sectors, and a call of the file system writes several of them.  Here every function that
  writes is given a second time as the LIST of its sector writes, read off the same code; the disk that the
  function returns is the old one with all the writes of the list done (the `_eq_log` theorems, `Fs.step_writes`).
  A call that is cut short has done the first `k` of them.

  1. **The lists** — `OpenFile.writeLog`, `FileSystem.createLog`, `FileSystem.removeLog`, `Fs.writes`.

  2. **A prefix of a `WriteAt`** (`OpenFile.writeLog_spec`) — the sectors are written in the order of the file, so
     the first `k` writes are a write of the bytes of the request that are in the first `k` sectors.
-/
import Nachos.Filesys.Session

namespace Nachos

/-! ## Lists of writes -/

/-- `WriteSector` of a sector of the disk. -/
structure SectorWrite where
  sector : Nat
  data : Sector

/-- The writes of a list are done. -/
def replayWrites (disk : DiskFile) (log : List SectorWrite) : DiskFile :=
  log.foldl (fun disk w => writeFile disk w.sector w.data) disk

theorem replayWrites_append (disk : DiskFile) (log log' : List SectorWrite) :
    replayWrites disk (log ++ log') = replayWrites (replayWrites disk log) log' := List.foldl_append

/-- A prefix of two lists is a prefix of the first, or all of it and a prefix of the second. -/
theorem replayWrites_take_append (disk : DiskFile) (log log' : List SectorWrite) (k : Nat) :
    (∃ m, replayWrites disk ((log ++ log').take k) = replayWrites disk (log.take m)) ∨
      ∃ m, replayWrites disk ((log ++ log').take k) = replayWrites (replayWrites disk log) (log'.take m) := by
  rcases Nat.le_total k log.length with hle | hge
  · refine Or.inl ⟨k, ?_⟩
    rw [List.take_append_of_le_length hle]
  · refine Or.inr ⟨k - log.length, ?_⟩
    rw [List.take_append, List.take_of_length_le hge, replayWrites_append]

/-- A loop whose iterations write, and the list of what they write. -/
theorem foldlM_eq_mapM {α β σ : Type} (write : σ → β → σ) (g : α → Option β) :
    ∀ (l : List α) (s : σ),
      l.foldlM (fun s a => (g a).map (write s)) s = (l.mapM g).map fun ws => ws.foldl write s := by
  intro l
  induction l with
  | nil => exact fun _ => rfl
  | cons a rest ih =>
    intro s
    rw [List.foldlM_cons, List.mapM_cons]
    cases g a with
    | none => rfl
    | some w =>
      show rest.foldlM _ (write s w) = _
      rw [ih]
      cases rest.mapM g with
      | none => rfl
      | some ws => rfl

/-- A loop no iteration of which fails. -/
theorem mapM_eq_some {α β : Type} {g : α → Option β} {f : α → β} :
    ∀ l : List α, (∀ a ∈ l, g a = some (f a)) → l.mapM g = some (l.map f) := by
  intro l
  induction l with
  | nil => exact fun _ => rfl
  | cons a rest ih =>
    intro h
    rw [List.mapM_cons, h a (List.mem_cons_self ..), ih fun a' ha' => h a' (List.mem_cons_of_mem _ ha')]
    rfl

/-! ## The code, with its writes -/

/-- The write that `WriteSector(sectorNumber, data + a)` does. -/
def DiskFile.sectorWrite (sectorNumber : Int) (data : Bytes) (a : Nat) : Option SectorWrite :=
  if validSector sectorNumber then some ⟨sectorNumber.toNat, fun i => data (a + i)⟩ else none

theorem DiskFile.writeSector_eq_log (disk : DiskFile) (sectorNumber : Int) (data : Bytes) (a : Nat) :
    disk.writeSector sectorNumber data a
      = (sectorWrite sectorNumber data a).map fun w => writeFile disk w.sector w.data := by
  unfold writeSector sectorWrite
  split <;> rfl

namespace OpenFile

/-- The loop of `WriteAt`. -/
def sectorWrites (file : OpenFile) (sp : Span) (buf : Bytes) : Option (List SectorWrite) :=
  (List.range sp.count).mapM fun (k : Nat) =>
    (file.hdr.byteToSector ((sp.firstSector + k) * sectorSize)).bind fun sector =>
      DiskFile.sectorWrite sector buf (k * sectorSize)

theorem writeSectors_eq_log (file : OpenFile) (disk : DiskFile) (sp : Span) (buf : Bytes) :
    file.writeSectors disk sp buf = (file.sectorWrites sp buf).map (replayWrites disk) := by
  rw [writeSectors, sectorWrites]
  refine Eq.trans ?_ (foldlM_eq_mapM _ _ _ disk)
  refine congrArg (fun f => List.foldlM f disk (List.range sp.count)) (funext fun d => funext fun k => ?_)
  rw [Option.map_bind]
  exact congrArg (Option.bind _) (funext fun sector => DiskFile.writeSector_eq_log d sector buf _)

/-- `OpenFile::WriteAt(from, numBytes, position)`. -/
def writeLog (file : OpenFile) (disk : DiskFile) (mem : Nat → Bytes) (from_ : Bytes)
    (numBytes position : Int) : Option (Int × List SectorWrite) :=
  match file.span numBytes position with
  | none => some (0, [])
  | some sp =>
    if sp.size < 0 then none
    else
      (file.prepare disk mem sp).bind fun buf =>
        if sp.InBuffer then
          (file.sectorWrites sp (bcopy from_ 0 buf sp.offset.toNat sp.numBytes.toNat)).map fun log =>
            (sp.numBytes, log)
        else none

theorem writeAt_eq_log (file : OpenFile) (disk : DiskFile) (mem : Nat → Bytes) (from_ : Bytes)
    (numBytes position : Int) :
    file.writeAt disk mem from_ numBytes position
      = (file.writeLog disk mem from_ numBytes position).map fun r => (r.1, replayWrites disk r.2) := by
  unfold writeAt writeLog
  cases file.span numBytes position with
  | none => rfl
  | some sp =>
    dsimp only
    by_cases hsize : sp.size < 0
    · rw [if_pos hsize, if_pos hsize]
      rfl
    · rw [if_neg hsize, if_neg hsize, Option.map_bind]
      refine congrArg (Option.bind _) (funext fun buf => ?_)
      rw [Function.comp_apply, writeSectors_eq_log]
      by_cases hin : sp.InBuffer
      · rw [if_pos hin, if_pos hin, Option.map_map, Option.map_map]
        rfl
      · rw [if_neg hin, if_neg hin]
        rfl

end OpenFile

/-- `FileHeader::WriteBack(sector)`. -/
def FileHeader.writeLog (hdr : FileHeader) (sector : Int) : Option (List SectorWrite) :=
  (DiskFile.sectorWrite sector hdr.bytes 0).map fun w => [w]

/-- `Directory::WriteBack(file)`. -/
def Directory.writeLog (d : Directory) (file : OpenFile) (disk : DiskFile) (mem : Nat → Bytes) :
    Option (List SectorWrite) :=
  (file.writeLog disk mem d.table ((d.tableSize * directoryEntrySize : Nat) : Int) 0).map (·.2)

/-- `BitMap::WriteBack(file)`. -/
def BitMap.writeLog (b : BitMap) (file : OpenFile) (disk : DiskFile) (mem : Nat → Bytes) :
    Option (List SectorWrite) :=
  (file.writeLog disk mem b.bytes b.numBytes 0).map (·.2)

theorem FileHeader.writeBack_eq_log (hdr : FileHeader) (disk : DiskFile) (sector : Int) :
    hdr.writeBack disk sector = (hdr.writeLog sector).map (replayWrites disk) := by
  rw [writeBack, writeLog, DiskFile.writeSector_eq_log, Option.map_map]
  rfl

theorem Directory.writeBack_eq_log (d : Directory) (file : OpenFile) (disk : DiskFile) (mem : Nat → Bytes) :
    d.writeBack file disk mem = (d.writeLog file disk mem).map (replayWrites disk) := by
  rw [writeBack, writeLog, OpenFile.writeAt_eq_log, Option.map_map, Option.map_map]
  rfl

theorem BitMap.writeBack_eq_log (b : BitMap) (file : OpenFile) (disk : DiskFile) (mem : Nat → Bytes) :
    b.writeBack file disk mem = (b.writeLog file disk mem).map (replayWrites disk) := by
  rw [writeBack, writeLog, OpenFile.writeAt_eq_log, Option.map_map, Option.map_map]
  rfl

namespace FileSystem

/-- `FileSystem::Create(name, initialSize)`. -/
def createLog (fs : FileSystem) (disk : DiskFile) (name : Bytes) (initialSize : Int) (mem : Nat → Bytes) :
    Option (Bool × List SectorWrite) := do
  let directory ← (Directory.new numDirEntries (mem 0)).fetchFrom fs.directoryFile disk (mem 1)
  if directory.find name ≠ -1 then some (false, [])
  else do
    let freeMap ← newFreeMap (mem 2)
    let freeMap ← freeMap.fetchFrom fs.freeMapFile disk (mem 3)
    let found ← freeMap.find
    if found.1 = -1 then some (false, [])
    else
      let added := directory.add name found.1
      if !added.1 then some (false, [])
      else do
        let hdr ← (FileHeader.mk (mem 4)).allocate found.2 initialSize
        if !hdr.1 then some (false, [])
        else do
          let header ← hdr.2.1.writeLog found.1
          let disk := replayWrites disk header
          let entries ← added.2.writeLog fs.directoryFile disk fun k => mem (5 + k)
          let disk := replayWrites disk entries
          let bits ← hdr.2.2.writeLog fs.freeMapFile disk fun k => mem (8 + k)
          some (true, header ++ (entries ++ bits))

/-- `FileSystem::Remove(name)`. -/
def removeLog (fs : FileSystem) (disk : DiskFile) (name : Bytes) (mem : Nat → Bytes) :
    Option (Bool × List SectorWrite) := do
  let directory ← (Directory.new numDirEntries (mem 0)).fetchFrom fs.directoryFile disk (mem 1)
  if directory.find name = -1 then some (false, [])
  else do
    let fileHdr ← (FileHeader.mk (mem 2)).fetchFrom disk (directory.find name)
    let freeMap ← newFreeMap (mem 3)
    let freeMap ← freeMap.fetchFrom fs.freeMapFile disk (mem 4)
    let freeMap ← fileHdr.deallocate freeMap
    let freeMap ← freeMap.clear (directory.find name)
    let bits ← freeMap.writeLog fs.freeMapFile disk fun k => mem (5 + k)
    let disk := replayWrites disk bits
    let entries ← (directory.remove name).2.writeLog fs.directoryFile disk fun k => mem (8 + k)
    some (true, bits ++ entries)

/-- Two computations that begin alike. -/
theorem bind_eq_map_bind {α β γ : Type} (x : Option α) {f : α → Option β} {g : α → Option γ} {h : γ → β}
    (hfg : ∀ a, f a = (g a).map h) : x.bind f = (x.bind g).map h := by
  rw [Option.map_bind]
  exact congrArg x.bind (funext hfg)

/-- A test that both of them make. -/
theorem ite_eq_map_ite {β γ : Type} {c : Prop} [Decidable c] {x x' : Option β} {y y' : Option γ} {h : γ → β}
    (hthen : x = y.map h) (helse : x' = y'.map h) : (if c then x else x') = (if c then y else y').map h := by
  rw [apply_ite (Option.map h), hthen, helse]

theorem create_eq_log (fs : FileSystem) (disk : DiskFile) (name : Bytes) (initialSize : Int) (mem : Nat → Bytes) :
    fs.create disk name initialSize mem
      = (fs.createLog disk name initialSize mem).map fun r => (r.1, replayWrites disk r.2) := by
  refine bind_eq_map_bind _ fun directory => ite_eq_map_ite rfl ?_
  refine bind_eq_map_bind _ fun freeMap => bind_eq_map_bind _ fun freeMap => bind_eq_map_bind _ fun found => ?_
  refine ite_eq_map_ite rfl (ite_eq_map_ite rfl ?_)
  refine bind_eq_map_bind _ fun hdr => ite_eq_map_ite rfl ?_
  -- the three writes
  simp only [FileHeader.writeBack_eq_log, Directory.writeBack_eq_log, BitMap.writeBack_eq_log, Option.bind_eq_bind,
    Option.bind_map, Option.map_bind, Option.map_some, Function.comp_def, replayWrites_append]

theorem remove_eq_log (fs : FileSystem) (disk : DiskFile) (name : Bytes) (mem : Nat → Bytes) :
    fs.remove disk name mem
      = (fs.removeLog disk name mem).map fun r => (r.1, replayWrites disk r.2) := by
  refine bind_eq_map_bind _ fun directory => ite_eq_map_ite rfl ?_
  refine bind_eq_map_bind _ fun fileHdr => bind_eq_map_bind _ fun freeMap => bind_eq_map_bind _ fun freeMap => ?_
  refine bind_eq_map_bind _ fun freeMap => bind_eq_map_bind _ fun freeMap => ?_
  simp only [Directory.writeBack_eq_log, BitMap.writeBack_eq_log, Option.bind_eq_bind,
    Option.bind_map, Option.map_bind, Option.map_some, Function.comp_def, replayWrites_append]

end FileSystem

/-- The sector writes of a call. -/
def Fs.writes (s : Fs) : FsAct → Option (List SectorWrite)
  | .create name initialSize mem => (s.system.createLog s.disk name initialSize mem).map (·.2)
  | .remove name mem => (s.system.removeLog s.disk name mem).map (·.2)
  | .writeAt h from_ numBytes position mem =>
    (s.handles h).bind fun hd => (hd.file.writeLog s.disk mem from_ numBytes position).map (·.2)
  | .write h from_ numBytes mem =>
    (s.handles h).bind fun hd => (hd.file.writeLog s.disk mem from_ numBytes hd.file.seekPosition).map (·.2)
  | _ => some []

/-- **A call does its writes**: the disk after a call that returns. -/
theorem Fs.step_writes {s s' : Fs} {a : FsAct} {out : FsOut} (hs : s.step a = some (s', out)) :
    ∃ log, s.writes a = some log ∧ s'.disk = replayWrites s.disk log := by
  cases a with
  | create name initialSize mem =>
    obtain ⟨r, hcreate, hr⟩ := Option.map_eq_some_iff.mp hs
    rw [FileSystem.create_eq_log] at hcreate
    obtain ⟨⟨b, log⟩, hlog, rfl⟩ := Option.map_eq_some_iff.mp hcreate
    cases hr
    exact ⟨log, by rw [writes, hlog]; rfl, rfl⟩
  | remove name mem =>
    obtain ⟨r, hremove, hr⟩ := Option.map_eq_some_iff.mp hs
    rw [FileSystem.remove_eq_log] at hremove
    obtain ⟨⟨b, log⟩, hlog, rfl⟩ := Option.map_eq_some_iff.mp hremove
    cases hr
    exact ⟨log, by rw [writes, hlog]; rfl, rfl⟩
  | openFile name mem =>
    obtain ⟨r, -, hr⟩ := Option.map_eq_some_iff.mp hs
    cases r with
    | none | some file => cases hr; exact ⟨[], rfl, rfl⟩
  | close h | seek h position =>
    obtain ⟨hd, -, hr⟩ := Option.map_eq_some_iff.mp hs
    cases hr
    exact ⟨[], rfl, rfl⟩
  | readAt h into numBytes position mem =>
    obtain ⟨hd, -, hr⟩ := Option.bind_eq_some_iff.mp hs
    obtain ⟨r, -, hr⟩ := Option.map_eq_some_iff.mp hr
    cases hr
    exact ⟨[], rfl, rfl⟩
  | writeAt h from_ numBytes position mem =>
    obtain ⟨hd, hh, hr⟩ := Option.bind_eq_some_iff.mp hs
    obtain ⟨r, hwrite, hr⟩ := Option.map_eq_some_iff.mp hr
    rw [OpenFile.writeAt_eq_log] at hwrite
    obtain ⟨⟨n, log⟩, hlog, rfl⟩ := Option.map_eq_some_iff.mp hwrite
    cases hr
    exact ⟨log, by rw [writes, hh, Option.bind_some, hlog]; rfl, rfl⟩
  | read h into numBytes mem =>
    obtain ⟨hd, -, hr⟩ := Option.bind_eq_some_iff.mp hs
    obtain ⟨r, -, hr⟩ := Option.map_eq_some_iff.mp hr
    cases hr
    exact ⟨[], rfl, rfl⟩
  | write h from_ numBytes mem =>
    obtain ⟨hd, hh, hr⟩ := Option.bind_eq_some_iff.mp hs
    obtain ⟨r, hwrite, hr⟩ := Option.map_eq_some_iff.mp hr
    rw [OpenFile.write, OpenFile.writeAt_eq_log, Option.map_map] at hwrite
    obtain ⟨⟨n, log⟩, hlog, rfl⟩ := Option.map_eq_some_iff.mp hwrite
    cases hr
    exact ⟨log, by rw [writes, hh, Option.bind_some, hlog]; rfl, rfl⟩

/-! ## A prefix of the writes -/

namespace OpenFile

variable {file : OpenFile} {length : Nat} {S : List Nat} {p : Nat} {n : Int}

/-- The writes of the loop are those of consecutive sectors of the file. -/
theorem sectorWrites_eq (hd : file.hdr.Describes length S) (buf : Bytes) {r : Nat}
    (hcount : p / sectorSize + (spanOf p r).count ≤ S.length) :
    file.sectorWrites (spanOf p r) buf = some ((List.range (spanOf p r).count).map fun k =>
      ⟨S.getD (p / sectorSize + k) 0, fun i => buf (k * sectorSize + i)⟩) := by
  refine mapM_eq_some _ fun k hk => ?_
  have hlt : p / sectorSize + k < S.length := by
    rw [List.mem_range] at hk
    omega
  rw [byteToSector_span hd hlt, Option.bind_some, DiskFile.sectorWrite, if_pos (valid_getD hd hlt)]
  rfl

/-- What a prefix of them does to the store. -/
theorem blocks_replayWrites_take (disk : DiskFile) (S : List Nat) (first count k : Nat) (buf : Bytes) :
    DiskFile.blocks (replayWrites disk (((List.range count).map fun k =>
      (⟨S.getD (first + k) 0, fun i => buf (k * sectorSize + i)⟩ : SectorWrite)).take k))
      = (DiskFile.blocks disk).saves S first (min k count) buf := by
  rw [← List.map_take, List.take_range, replayWrites, List.foldl_map, Blocks.saves]
  refine (List.foldl_hom DiskFile.blocks fun disk k => ?_).symm
  rw [DiskFile.blocks_writeFile]

/-- How many bytes of a request at `p` are in its first `k` sectors. -/
def within (p r k : Nat) : Nat := min r ((p / sectorSize + k) * sectorSize - p)

/-- **A prefix of a `WriteAt`** is a write of the first bytes of the request. -/
theorem writeLog_spec (hd : file.hdr.Describes length S) (hS : S.Nodup) (hover : p + n < 2 ^ 31)
    (disk : DiskFile) (mem : Nat → Bytes) (from_ : Bytes) :
    ∃ log, file.writeLog disk mem from_ n p = some (((clamp length n p : Nat) : Int), log) ∧ ∀ k,
      (∀ b ∉ S, DiskFile.blocks (replayWrites disk (log.take k)) b = DiskFile.blocks disk b) ∧
      ∀ q < length, (DiskFile.blocks (replayWrites disk (log.take k))).array S q
        = if p ≤ q ∧ q < p + within p (clamp length n p) k then from_ (q - p)
          else (DiskFile.blocks disk).array S q := by
  rcases span_spec hd hover with ⟨hzero, hnone⟩ | ⟨hr, hend, hsome⟩
  · refine ⟨[], ?_, fun k => ⟨fun b _ => ?_, fun q _ => ?_⟩⟩
    · rw [writeLog, hnone, hzero]
      rfl
    · rw [List.take_nil]
      rfl
    · have hno : ¬ (p ≤ q ∧ q < p + within p (clamp length n p) k) := by
        rw [within, hzero]
        omega
      rw [if_neg hno, List.take_nil]
      rfl
  · generalize clamp length n p = r at hr hend hsome ⊢
    obtain ⟨hroom, hin, hoffset⟩ := spanOf_inBuffer hd hr hend
    obtain ⟨hcount, hle⟩ := spanOf_count hd hr hend
    obtain ⟨buf, hprepare, hbuf⟩ := prepare_spec hd disk mem hr hend
    have hnonneg : ¬ (spanOf p r).size < 0 := by
      rw [hroom]
      exact Int.not_lt.mpr (Int.natCast_nonneg _)
    have hbytes : (spanOf p r).numBytes.toNat = r := Int.toNat_natCast r
    refine ⟨(List.range (spanOf p r).count).map fun k => ⟨S.getD (p / sectorSize + k) 0,
      fun i => bcopy from_ 0 buf (p % sectorSize) r (k * sectorSize + i)⟩, ?_, fun k => ?_⟩
    · rw [writeLog, hsome]
      simp only [if_neg hnonneg, hprepare, Option.bind_some, if_pos hin, hoffset, hbytes,
        sectorWrites_eq hd _ hle, Option.map_some]
      rfl
    · rw [blocks_replayWrites_take]
      have hpart : p / sectorSize + min k (spanOf p r).count ≤ S.length := by omega
      refine ⟨fun b hb => Blocks.saves_of_notMem _ _ hb _ hpart, fun q hq => ?_⟩
      rw [Blocks.array_saves hS _ _ hpart (hd.div_lt hq)]
      have hsize : sectorSize = 128 := rfl
      have hbuf' : ∀ q < length, p / 128 * 128 ≤ q → q < ((p + r - 1) / 128 + 1) * 128 → q < p ∨ p + r ≤ q →
          buf (q - p / 128 * 128) = (DiskFile.blocks disk).array S q := hbuf
      rw [hsize] at hcount
      simp only [within, hsize]
      by_cases hsector : p / 128 * 128 ≤ q ∧ q < (p / 128 + min k (spanOf p r).count) * 128
      · rw [if_pos hsector]
        by_cases hreq : p ≤ q ∧ q < p + min r ((p / 128 + k) * 128 - p)
        · have hpos : q - p / 128 * 128 = p % 128 + (q - p) := by omega
          rw [if_pos hreq, hpos, bcopy_add (by omega), Nat.zero_add]
        · -- in the sectors that are written, but not in the request
          have hout : q < p ∨ p + r ≤ q := by omega
          have hkeep : bcopy from_ 0 buf (p % 128) r (q - p / 128 * 128) = buf (q - p / 128 * 128) := by
            rcases hout with hlt | hge
            · exact bcopy_of_lt (by omega)
            · exact bcopy_of_ge (by omega)
          rw [if_neg hreq, hkeep]
          exact hbuf' q hq hsector.1 (by omega) hout
      · have hreq : ¬ (p ≤ q ∧ q < p + min r ((p / 128 + k) * 128 - p)) := by omega
        rw [if_neg hsector, if_neg hreq]

end OpenFile

end Nachos
