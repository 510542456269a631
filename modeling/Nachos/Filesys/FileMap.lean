/-
  The file system is a map from keys to arrays of bytes.

  Seen by its users, the file system has for each key (the first nine characters of a name) at most one array
  of bytes, whose length was fixed when the file was created.  A handle is a key with a position.  `MapStep`
  says what the calls do to such a map, with no disk, no sectors and no headers in it.

  1. **The map on the disk** (`Fs.fileMap`) — it can be computed from a state: the entry with the key is looked
     up in the directory, and the bytes are those in the sectors that its header lists.

  2. **Refinement** (`filesystem_refines_map`) — after the formatting the map is empty; and in every run of
     calls that the users may make, every such call returns, and what it returns and does to the map is a
     `MapStep`.

  What a new file holds is whatever its sectors held before, so `MapStep.creates` leaves its bytes open.
-/
import Nachos.Filesys.Consistency

namespace Nachos

/-! ## The map -/

/-- What a user knows of a handle. -/
structure MapHandle where
  key : List UInt8
  removed : Bool
  position : Int

/-- The files, and the handles. -/
structure FileMap where
  contents : List UInt8 → Option (List UInt8)
  handles : Nat → Option MapHandle
  nextHandle : Nat

namespace FileMap

/-- The handles after the file with a key was removed. -/
def withoutFile (m : FileMap) (key : List UInt8) : Nat → Option MapHandle := fun h =>
  (m.handles h).map fun hd => if hd.key = key then { hd with removed := true } else hd

/-- A handle is moved. -/
def move (m : FileMap) (h : Nat) (hd : MapHandle) (position : Int) : FileMap :=
  { m with handles := Function.update m.handles h (some { hd with position := position }) }

/-- Other bytes under a key. -/
def put (m : FileMap) (key : List UInt8) (bytes : Option (List UInt8)) : FileMap :=
  { m with contents := Function.update m.contents key bytes }

end FileMap

/-- Memory after `r` bytes of a file, from position `p`, were read into it. -/
def readBytes (bytes : List UInt8) (into : Bytes) (r p : Nat) : Bytes := fun q =>
  if q < r then bytes.getD (p + q) 0 else into q

/-- A file after `r` bytes were written to it at position `p`. -/
def writeBytes (bytes : List UInt8) (from_ : Bytes) (r p : Nat) : List UInt8 :=
  bytes.mapIdx fun q b => if p ≤ q ∧ q < p + r then from_ (q - p) else b

/-- **What the calls do to the map.**  A request for `n` bytes at `p` is for `clamp length n p` of them. -/
inductive MapStep (m : FileMap) : FsAct → FsOut → FileMap → Prop where
  | createFails {name : Bytes} {initialSize : Int} {mem : Nat → Bytes} :
      MapStep m (.create name initialSize mem) (.result false) m
  | creates {name : Bytes} {initialSize : Int} {mem : Nat → Bytes} {bytes : List UInt8}
      (habsent : m.contents (fileKey name) = none) (hlength : (bytes.length : Int) = initialSize) :
      MapStep m (.create name initialSize mem) (.result true) (m.put (fileKey name) (some bytes))
  | removeFails {name : Bytes} {mem : Nat → Bytes} (habsent : m.contents (fileKey name) = none) :
      MapStep m (.remove name mem) (.result false) m
  | removes {name : Bytes} {mem : Nat → Bytes} (hpresent : (m.contents (fileKey name)).isSome) :
      MapStep m (.remove name mem) (.result true)
        { m.put (fileKey name) none with handles := m.withoutFile (fileKey name) }
  | openFails {name : Bytes} {mem : Nat → Bytes} (habsent : m.contents (fileKey name) = none) :
      MapStep m (.openFile name mem) (.opened none) m
  | opens {name : Bytes} {mem : Nat → Bytes} (hpresent : (m.contents (fileKey name)).isSome) :
      MapStep m (.openFile name mem) (.opened (some m.nextHandle))
        { m with
          handles := Function.update m.handles m.nextHandle (some ⟨fileKey name, false, 0⟩)
          nextHandle := m.nextHandle + 1 }
  | closes {h : Nat} : MapStep m (.close h) .done { m with handles := Function.update m.handles h none }
  | seeks {h : Nat} {hd : MapHandle} {position : Int} (hh : m.handles h = some hd) :
      MapStep m (.seek h position) .done (m.move h hd position)
  | readsAt {h : Nat} {hd : MapHandle} {into : Bytes} {n : Int} {p : Nat} {mem : Bytes} {bytes : List UInt8}
      (hh : m.handles h = some hd) (hbytes : m.contents hd.key = some bytes) :
      MapStep m (.readAt h into n p mem)
        (.got (OpenFile.clamp bytes.length n p) (readBytes bytes into (OpenFile.clamp bytes.length n p) p)) m
  | reads {h : Nat} {hd : MapHandle} {into : Bytes} {n : Int} {p : Nat} {mem : Bytes} {bytes : List UInt8}
      (hh : m.handles h = some hd) (hp : hd.position = p) (hbytes : m.contents hd.key = some bytes) :
      MapStep m (.read h into n mem)
        (.got (OpenFile.clamp bytes.length n p) (readBytes bytes into (OpenFile.clamp bytes.length n p) p))
        (m.move h hd (int32 (p + OpenFile.clamp bytes.length n p)))
  | writesAt {h : Nat} {hd : MapHandle} {from_ : Bytes} {n : Int} {p : Nat} {mem : Nat → Bytes}
      {bytes : List UInt8} (hh : m.handles h = some hd) (hbytes : m.contents hd.key = some bytes) :
      MapStep m (.writeAt h from_ n p mem) (.put (OpenFile.clamp bytes.length n p))
        (m.put hd.key (some (writeBytes bytes from_ (OpenFile.clamp bytes.length n p) p)))
  | writes {h : Nat} {hd : MapHandle} {from_ : Bytes} {n : Int} {p : Nat} {mem : Nat → Bytes}
      {bytes : List UInt8} (hh : m.handles h = some hd) (hp : hd.position = p)
      (hbytes : m.contents hd.key = some bytes) :
      MapStep m (.write h from_ n mem) (.put (OpenFile.clamp bytes.length n p))
        ((m.move h hd (int32 (p + OpenFile.clamp bytes.length n p))).put hd.key
          (some (writeBytes bytes from_ (OpenFile.clamp bytes.length n p) p)))

/-! ## The map on the disk -/

/-- The bytes of the file in an entry of the directory. -/
def entryBytes (store : Blocks sectorSize) (i : Nat) : List UInt8 :=
  let hdr := FileHeader.onDisk store (headerSector store i)
  (List.range hdr.fileLength.toNat).map (store.array hdr.sectors)

/-- The bytes of the file with a key. -/
def fileContents (store : Blocks sectorSize) (key : List UInt8) : Option (List UInt8) :=
  ((List.range numDirEntries).find? fun i =>
    (directoryOnDisk store).inUse i && (directoryOnDisk store).key i == key).map (entryBytes store)

def Handle.view (hd : Handle) : MapHandle := ⟨hd.key, hd.removed, hd.file.seekPosition⟩

/-- The map that a state stands for. -/
def Fs.fileMap (s : Fs) : FileMap where
  contents := fileContents (DiskFile.blocks s.disk)
  handles h := (s.handles h).map Handle.view
  nextHandle := s.nextHandle

/-- The bytes of a file. -/
def FileRec.bytes (f : FileRec) (store : Blocks sectorSize) : List UInt8 :=
  (List.range f.length).map (store.array f.sectors)

theorem FileRec.length_bytes (f : FileRec) (store : Blocks sectorSize) : (f.bytes store).length = f.length := by
  rw [bytes, List.length_map, List.length_range]

theorem FileRec.getD_bytes {f : FileRec} {store : Blocks sectorSize} {q : Nat} (hq : q < f.length) :
    (f.bytes store).getD q 0 = store.array f.sectors q := by
  rw [List.getD_eq_getElem _ _ (by rw [f.length_bytes]; exact hq)]
  unfold bytes
  rw [List.getElem_map, List.getElem_range]

namespace Shows

variable {store store' : Blocks sectorSize} {files files' : Nat → Option FileRec} {i : Nat} {f : FileRec}
  {key : List UInt8}

/-- A file is found under its key. -/
theorem fileContents_eq (h : Shows store files) (hf : files i = some f) :
    fileContents store f.key = some (f.bytes store) := by
  have hi := h.slots i f hf
  have hfound : ((List.range numDirEntries).find? fun j =>
      (directoryOnDisk store).inUse j && (directoryOnDisk store).key j == f.key) = some i := by
    rw [h.directoryOnDisk_eq]
    cases hfind : (List.range numDirEntries).find? fun j =>
        (diskDirectory store).inUse j && (diskDirectory store).key j == f.key with
    | none =>
      obtain ⟨huse, hkey, -⟩ := h.lists.entry i hi f hf
      have hnot := List.find?_eq_none.mp hfind i (List.mem_range.mpr hi)
      rw [huse, hkey] at hnot
      simp at hnot
    | some j =>
      have hmatch := List.find?_some hfind
      rw [Bool.and_eq_true, beq_iff_eq] at hmatch
      have hj := List.mem_range.mp (List.mem_of_find?_eq_some hfind)
      obtain ⟨g, hg, hgkey, -⟩ := h.lists.of_inUse hj hmatch.1
      rw [h.distinct j i g f hg hf (hgkey.symm.trans hmatch.2)]
  have hlen : (FileHeader.onDisk store f.header).fileLength.toNat = f.length := by
    rw [FileHeader.fileLength, (h.headers i f hf).numBytes, Int.toNat_natCast]
  rw [fileContents, hfound, Option.map_some, entryBytes, h.headerSector_eq hf, hlen,
    (h.headers i f hf).sectors_eq]
  rfl

/-- There is nothing under a key that no file has. -/
theorem fileContents_none (h : Shows store files) (habsent : ∀ i f, files i = some f → f.key ≠ key) :
    fileContents store key = none := by
  rw [fileContents, Option.map_eq_none_iff, List.find?_eq_none]
  intro i hi hmatch
  rw [Bool.and_eq_true, beq_iff_eq, h.directoryOnDisk_eq] at hmatch
  obtain ⟨f, hf, hkey, -⟩ := h.lists.of_inUse (List.mem_range.mp hi) hmatch.1
  exact habsent i f hf (hkey.symm.trans hmatch.2)

/-- What is under a key depends on the file with the key and on its data sectors. -/
theorem fileContents_congr (h : Shows store files) (h' : Shows store' files')
    (hfiles : ∀ i f, f.key = key → (files' i = some f ↔ files i = some f))
    (hdata : ∀ i f, files i = some f → f.key = key → ∀ b ∈ f.sectors, store' b = store b) :
    fileContents store' key = fileContents store key := by
  by_cases hsome : ∃ i f, files i = some f ∧ f.key = key
  · obtain ⟨i, f, hf, rfl⟩ := hsome
    rw [h.fileContents_eq hf, h'.fileContents_eq ((hfiles i f rfl).mpr hf)]
    refine congrArg some (List.map_congr_left fun q hq => ?_)
    apply Blocks.array_congr (hdata i f hf rfl)
    exact (h.headers i f hf).div_lt (List.mem_range.mp hq)
  · rw [h.fileContents_none fun i f hf hkey => hsome ⟨i, f, hf, hkey⟩]
    apply h'.fileContents_none
    intro i f hf hkey
    exact hsome ⟨i, f, (hfiles i f hkey).mp hf, hkey⟩

/-- **A slot changes**: so does what is under one key. -/
theorem fileContents_update {o : Option FileRec} {bytes : Option (List UInt8)} (h : Shows store files)
    (h' : Shows store' (Function.update files i o)) (hkey : fileContents store' key = bytes)
    (hold : ∀ f, files i = some f → f.key = key) (hnew : ∀ f, o = some f → f.key = key)
    (hothers : ∀ j g, files j = some g → ∀ b ∈ g.owns, store' b = store b) :
    fileContents store' = Function.update (fileContents store) key bytes := by
  funext key'
  by_cases hsame : key' = key
  · rw [hsame, Function.update_self, hkey]
  · rw [Function.update_of_ne hsame]
    refine h.fileContents_congr h' (fun j g hg => ?_) fun j g hg _ b hb =>
      hothers j g hg b (List.mem_cons_of_mem _ hb)
    by_cases hji : j = i
    · subst hji
      rw [Function.update_self]
      constructor
      · intro heq
        exact absurd (hg.symm.trans (hnew g heq)) hsame
      · intro heq
        exact absurd (hg.symm.trans (hold g heq)) hsame
    · rw [Function.update_of_ne hji]

/-- A new file is what is under its key. -/
theorem fileContents_created (h : Shows store files) (h' : Shows store' (Function.update files i (some f)))
    (hnone : files i = none) (hkey : f.key = key)
    (hothers : ∀ j g, files j = some g → ∀ b ∈ g.owns, store' b = store b) :
    fileContents store' = Function.update (fileContents store) key (some (f.bytes store')) := by
  have hself : Function.update files i (some f) i = some f := Function.update_self ..
  have hnew := h'.fileContents_eq hself
  rw [hkey] at hnew
  refine h.fileContents_update h' hnew ?_ ?_ hothers
  · intro g hg
    rw [hnone] at hg
    cases hg
  · intro g hg
    rw [← Option.some.inj hg, hkey]

/-- Nothing is under the key of a file that is removed: no other file had it. -/
theorem fileContents_removed (h : Shows store files) (h' : Shows store' (Function.update files i none))
    (hf : files i = some f) (hkey : f.key = key)
    (hothers : ∀ j g, files j = some g → ∀ b ∈ g.owns, store' b = store b) :
    fileContents store' = Function.update (fileContents store) key none := by
  have hnew : fileContents store' key = none := by
    apply h'.fileContents_none
    intro j g hg hgkey
    rcases Pool.update_eq_some hg with ⟨-, heq⟩ | ⟨hji, hold⟩
    · cases heq
    · exact hji (h.distinct j i g f hold hf (hgkey.trans hkey.symm))
  refine h.fileContents_update h' hnew ?_ ?_ hothers
  · intro g hg
    rw [← Option.some.inj (hf.symm.trans hg), hkey]
  · intro g hg
    cases hg

/-- **Data of a file changes**: so does what is under its key. -/
theorem fileContents_written (h : Shows store files) (hf : files i = some f) {from_ : Bytes} {r p : Nat}
    (hwritten : f.Written store store' from_ r p) :
    fileContents store' = Function.update (fileContents store) f.key
      (some (writeBytes (f.bytes store) from_ r p)) := by
  have h' : Shows store' files := h.of_data hf hwritten.frame
  funext key'
  by_cases hsame : key' = f.key
  · rw [hsame, Function.update_self, h'.fileContents_eq hf]
    refine congrArg some (List.ext_getElem ?_ fun q hq hq' => ?_)
    · rw [writeBytes, List.length_mapIdx, f.length_bytes, f.length_bytes]
    · rw [f.length_bytes] at hq
      simp only [writeBytes, List.getElem_mapIdx, FileRec.bytes, List.getElem_map, List.getElem_range]
      exact hwritten.bytes q hq
  · rw [Function.update_of_ne hsame]
    refine h.fileContents_congr h' (fun _ _ _ => Iff.rfl) fun j g hg hkey b hb => ?_
    apply hwritten.frame
    intro hmem
    refine h.disjoint hf hg ?_ (List.mem_cons_of_mem _ hmem) (List.mem_cons_of_mem _ hb)
    rintro rfl
    obtain rfl := Option.some.inj (hf.symm.trans hg)
    exact hsame hkey.symm

end Shows

/-! ## Refinement -/

/-- The calls that users may make: sizes of new files are in range; handles are open, files that were
    removed are not read or written, and requests are in range. -/
def FsAct.Legal (s : Fs) : FsAct → Prop
  | create _ initialSize _ => 0 ≤ initialSize ∧ initialSize ≤ maxFileSize
  | remove _ _ => True
  | openFile _ _ => True
  | close h => (s.handles h).isSome
  | seek h _ => (s.handles h).isSome
  | readAt h _ numBytes position _ =>
    ∃ hd, s.handles h = some hd ∧ hd.removed = false ∧ InRange numBytes position
  | writeAt h _ numBytes position _ =>
    ∃ hd, s.handles h = some hd ∧ hd.removed = false ∧ InRange numBytes position
  | read h _ numBytes _ =>
    ∃ hd, s.handles h = some hd ∧ hd.removed = false ∧ InRange numBytes hd.file.seekPosition
  | write h _ numBytes _ =>
    ∃ hd, s.handles h = some hd ∧ hd.removed = false ∧ InRange numBytes hd.file.seekPosition

theorem FsAct.Legal.safe {s : Fs} {a : FsAct} (h : a.Legal s) : a.Safe s := by
  cases a with
  | create name initialSize mem => exact h
  | writeAt k from_ numBytes position mem | write k from_ numBytes mem =>
    intro hd hh
    obtain ⟨hd', hh', hlive, hrange⟩ := h
    obtain rfl := Option.some.inj (hh.symm.trans hh')
    exact Or.inr ⟨hlive, hrange⟩
  | _ => trivial

/-- Through a header that describes a file, the bytes of the file are read. -/
theorem FileRec.readAt_bytes {f : FileRec} {file : OpenFile} (hd : file.hdr.Describes f.length f.sectors)
    {n : Int} {p : Nat} (hover : p + n < 2 ^ 31) (disk : DiskFile) (mem into : Bytes) :
    file.readAt disk mem into 0 n p
      = some (((OpenFile.clamp (f.bytes (DiskFile.blocks disk)).length n p : Nat) : Int),
        readBytes (f.bytes (DiskFile.blocks disk)) into
          (OpenFile.clamp (f.bytes (DiskFile.blocks disk)).length n p) p) := by
  rw [OpenFile.readAt_spec hd hover, f.length_bytes]
  refine congrArg (fun into' => some (_, into')) (funext fun q => ?_)
  by_cases hq : q < OpenFile.clamp f.length n p
  · rw [bcopy_zero hq, readBytes, if_pos hq, FileRec.getD_bytes]
    unfold OpenFile.clamp at hq
    omega
  · rw [bcopy_of_ge (by omega), readBytes, if_neg hq]

namespace Fs

variable {s s' : Fs} {files files' : Nat → Option FileRec} {a : FsAct} {out : FsOut}

/-- Through a handle whose file was not removed, the bytes of the file are read. -/
theorem Holds.readAt (h : s.Holds files) {k : Nat} {hd : Handle} (hh : s.handles k = some hd)
    (hlive : hd.removed = false) {n : Int} {p : Nat} (hover : p + n < 2 ^ 31) (mem into : Bytes) :
    ∃ bytes, s.fileMap.contents hd.key = some bytes ∧
      hd.file.readAt s.disk mem into 0 n p = some (((OpenFile.clamp bytes.length n p : Nat) : Int),
        readBytes bytes into (OpenFile.clamp bytes.length n p) p) := by
  obtain ⟨i, f, hopens⟩ := h.handles k hd hh hlive
  refine ⟨f.bytes (DiskFile.blocks s.disk), ?_, FileRec.readAt_bytes hopens.hdr hover s.disk mem into⟩
  rw [← hopens.key]
  exact h.shows.fileContents_eq hopens.file

/-- A legal call returns. -/
theorem Holds.returns (h : s.Holds files) (ha : a.Legal s) : ∃ s' out, s.step a = some (s', out) := by
  cases a with
  | create name initialSize mem =>
    obtain ⟨size, rfl⟩ := Int.eq_ofNat_of_zero_le ha.1
    rcases FileSystem.create_spec h.ready h.shows name (Int.ofNat_le.mp ha.2) mem with hfail |
      ⟨disk', i, f, hcreate, -⟩
    · exact ⟨_, _, by rw [step, hfail]; rfl⟩
    · exact ⟨_, _, by rw [step, hcreate]; rfl⟩
  | remove name mem =>
    rcases FileSystem.remove_spec h.ready h.shows name mem with ⟨disk', i, f, -, -, hremove, -⟩ | ⟨-, hfail⟩
    · exact ⟨_, _, by rw [step, hremove]; rfl⟩
    · exact ⟨_, _, by rw [step, hfail]; rfl⟩
  | openFile name mem =>
    rcases FileSystem.openFile_spec h.ready h.shows name mem with ⟨i, f, file, -, -, hopen, -⟩ | ⟨-, hfail⟩
    · exact ⟨_, _, by rw [step, hopen]; rfl⟩
    · exact ⟨_, _, by rw [step, hfail]; rfl⟩
  | close k | seek k position =>
    obtain ⟨hd, hh⟩ := Option.isSome_iff_exists.mp ha
    exact ⟨_, _, by rw [step, hh]; rfl⟩
  | readAt k into n position mem =>
    obtain ⟨hd, hh, hlive, hpos, hover⟩ := ha
    obtain ⟨p, rfl⟩ := Int.eq_ofNat_of_zero_le hpos
    obtain ⟨bytes, -, hread⟩ := h.readAt hh hlive hover mem into
    exact ⟨_, _, by rw [step, hh, Option.bind_some, hread]; rfl⟩
  | writeAt k from_ n position mem =>
    obtain ⟨hd, hh, hlive, hpos, hover⟩ := ha
    obtain ⟨p, rfl⟩ := Int.eq_ofNat_of_zero_le hpos
    obtain ⟨disk', i, f, -, hwrite, -⟩ := h.writeAt hh hlive hover mem from_
    exact ⟨_, _, by rw [step, hh, Option.bind_some, hwrite]; rfl⟩
  | read k into n mem =>
    obtain ⟨hd, hh, hlive, hpos, hover⟩ := ha
    obtain ⟨p, hp⟩ := Int.eq_ofNat_of_zero_le hpos
    rw [hp] at hover
    obtain ⟨bytes, -, hread⟩ := h.readAt hh hlive hover mem into
    exact ⟨_, _, by rw [step, hh, Option.bind_some, OpenFile.read, hp, hread]; rfl⟩
  | write k from_ n mem =>
    obtain ⟨hd, hh, hlive, hpos, hover⟩ := ha
    obtain ⟨p, hp⟩ := Int.eq_ofNat_of_zero_le hpos
    rw [hp] at hover
    obtain ⟨disk', i, f, -, hwrite, -⟩ := h.writeAt hh hlive hover mem from_
    exact ⟨_, _, by rw [step, hh, Option.bind_some, OpenFile.write, hp, hwrite]; rfl⟩

theorem fileMap_handle {k : Nat} {hd : Handle} (hh : s.handles k = some hd) :
    s.fileMap.handles k = some hd.view := by
  show (s.handles k).map Handle.view = some hd.view
  rw [hh]
  rfl

/-- The handles of the map, after one of them changed. -/
theorem view_update (handles : Nat → Option Handle) (k : Nat) (o : Option Handle) :
    (fun h => (Function.update handles k o h).map Handle.view)
      = Function.update (fun h => (handles h).map Handle.view) k (o.map Handle.view) :=
  Function.comp_update (Option.map Handle.view) handles k o

theorem fileMap_setFile (k : Nat) (hd : Handle) (position : Int) :
    (s.setFile k hd (hd.file.seek position)).fileMap = s.fileMap.move k hd.view position := by
  simp only [fileMap, setFile, FileMap.move, view_update]
  rfl

theorem fileMap_withoutFile (key : List UInt8) :
    (fun h => (s.withoutFile key h).map Handle.view) = s.fileMap.withoutFile key := by
  funext h
  simp only [withoutFile, FileMap.withoutFile, fileMap, Option.map_map]
  refine congrArg (fun f => (s.handles h).map f) (funext fun hd => ?_)
  by_cases hkey : hd.key = key
  · simp only [Function.comp_apply, Handle.view, hkey, if_true]
  · simp only [Function.comp_apply, Handle.view, hkey, if_false]

/-- There is something under the key of a file. -/
theorem Holds.present (h : s.Holds files) {name : Bytes} {i : Nat} {f : FileRec} (hf : files i = some f)
    (hkey : f.key = fileKey name) : (s.fileMap.contents (fileKey name)).isSome := by
  rw [← hkey]
  show (fileContents (DiskFile.blocks s.disk) f.key).isSome
  rw [h.shows.fileContents_eq hf]
  rfl

/-- **A step of the file system is a step of the map.** -/
theorem Holds.mapStep (h : s.Holds files) (ha : a.Legal s) (hs : FsStep s files a s' out files') :
    MapStep s.fileMap a out s'.fileMap := by
  cases hs with
  | createFails => exact .createFails
  | @creates name initialSize mem disk' i f hnone hkey hlength habsent hshows hothers =>
    have hcontents := h.shows.fileContents_created hshows hnone hkey hothers
    have hmap : Fs.fileMap { s with disk := disk' }
        = s.fileMap.put (fileKey name) (some (f.bytes (DiskFile.blocks disk'))) := by
      simp only [fileMap, FileMap.put, hcontents]
    rw [hmap]
    refine .creates (h.shows.fileContents_none habsent) ?_
    rw [f.length_bytes]
    exact hlength
  | removeFails habsent => exact .removeFails (h.shows.fileContents_none habsent)
  | @removes name mem disk' i f hf hkey hshows hothers =>
    have hcontents := h.shows.fileContents_removed hshows hf hkey hothers
    have hmap : Fs.fileMap { s with disk := disk', handles := s.withoutFile (fileKey name) }
        = { s.fileMap.put (fileKey name) none with handles := s.fileMap.withoutFile (fileKey name) } := by
      rw [← fileMap_withoutFile]
      simp only [fileMap, FileMap.put, hcontents]
    rw [hmap]
    exact .removes (h.present hf hkey)
  | openFails habsent => exact .openFails (h.shows.fileContents_none habsent)
  | @opens name mem file i f hopens hseek =>
    have hmap : Fs.fileMap { s with
          handles := Function.update s.handles s.nextHandle (some ⟨file, fileKey name, false⟩)
          nextHandle := s.nextHandle + 1 }
        = { s.fileMap with
          handles := Function.update s.fileMap.handles s.nextHandle (some ⟨fileKey name, false, 0⟩)
          nextHandle := s.nextHandle + 1 } := by
      simp only [fileMap, view_update, Option.map_some, Handle.view, hseek]
    rw [hmap]
    exact .opens (h.present hopens.file hopens.key)
  | @closes k hd hh =>
    have hmap : Fs.fileMap { s with handles := Function.update s.handles k none }
        = { s.fileMap with handles := Function.update s.fileMap.handles k none } := by
      simp only [fileMap, view_update, Option.map_none]
    rw [hmap]
    exact .closes
  | seeks hh =>
    rw [fileMap_setFile]
    exact .seeks (fileMap_handle hh)
  | @readsAt k hd into into' n position r mem hh hread =>
    obtain ⟨hd', hh', hlive, hpos, hover⟩ := ha
    obtain rfl := Option.some.inj (hh.symm.trans hh')
    obtain ⟨p, rfl⟩ := Int.eq_ofNat_of_zero_le hpos
    obtain ⟨bytes, hbytes, hread'⟩ := h.readAt hh hlive hover mem into
    obtain ⟨rfl, rfl⟩ := Prod.mk.inj (Option.some.inj (hread'.symm.trans hread))
    exact .readsAt (fileMap_handle hh) hbytes
  | @reads k hd into into' n r mem hh hread =>
    obtain ⟨hd', hh', hlive, hpos, hover⟩ := ha
    obtain rfl := Option.some.inj (hh.symm.trans hh')
    obtain ⟨p, hp⟩ := Int.eq_ofNat_of_zero_le hpos
    rw [hp] at hover hread
    obtain ⟨bytes, hbytes, hread'⟩ := h.readAt hh hlive hover mem into
    obtain ⟨rfl, rfl⟩ := Prod.mk.inj (Option.some.inj (hread'.symm.trans hread))
    rw [fileMap_setFile, hp]
    exact .reads (fileMap_handle hh) hp hbytes
  | rejectsAt hh hnot | rejects hh hnot =>
    -- users may not make such calls
    obtain ⟨hd', hh', hok⟩ := ha
    obtain rfl := Option.some.inj (hh.symm.trans hh')
    exact absurd hok hnot
  | @writesAt k hd from_ n p mem disk' i f hh hlive hopens hwritten =>
    have hbytes := h.shows.fileContents_eq hopens.file
    have hcontents := h.shows.fileContents_written hopens.file hwritten
    rw [hopens.key] at hbytes hcontents
    have hmap : Fs.fileMap { s with disk := disk' } = s.fileMap.put hd.key
        (some (writeBytes (f.bytes (DiskFile.blocks s.disk)) from_ (OpenFile.clamp f.length n p) p)) := by
      simp only [fileMap, FileMap.put, hcontents]
    rw [hmap, ← f.length_bytes (DiskFile.blocks s.disk)]
    exact .writesAt (fileMap_handle hh) hbytes
  | @writes k hd from_ n p mem disk' i f hh hlive hseek hopens hwritten =>
    have hbytes := h.shows.fileContents_eq hopens.file
    have hcontents := h.shows.fileContents_written hopens.file hwritten
    rw [hopens.key] at hbytes hcontents
    have hmap : Fs.fileMap { s.setFile k hd (hd.file.seek
          (int32 (hd.file.seekPosition + OpenFile.clamp f.length n p))) with disk := disk' }
        = (s.fileMap.move k hd.view (int32 (p + OpenFile.clamp f.length n p))).put hd.key
        (some (writeBytes (f.bytes (DiskFile.blocks s.disk)) from_ (OpenFile.clamp f.length n p) p)) := by
      rw [hseek]
      show FileMap.mk (fileContents (DiskFile.blocks disk')) (s.setFile k hd _).fileMap.handles s.nextHandle = _
      rw [hcontents, fileMap_setFile]
      rfl
    rw [hmap, ← f.length_bytes (DiskFile.blocks s.disk)]
    exact .writes (fileMap_handle hh) hseek hbytes

end Fs

/-- **The file system refines the map.** -/
theorem filesystem_refines_map :
    (∀ s, fsSys.init s → s.fileMap = ⟨fun _ => none, fun _ => none, 0⟩) ∧
      ∀ s a, (fsSys.restrict FsAct.Legal).Reach s → a.Legal s →
        ∃ s' out, s.step a = some (s', out) ∧ MapStep s.fileMap a out s'.fileMap := by
  constructor
  · intro s hinit
    have hholds := Fs.holds_of_init hinit
    have hcontents : fileContents (DiskFile.blocks s.disk) = fun _ => none := by
      funext key
      apply hholds.shows.fileContents_none
      intro i f hf
      cases hf
    obtain ⟨-, hnone, hnext⟩ := hinit
    simp only [Fs.fileMap, hcontents, hnone, hnext, Option.map_none]
  · intro s a hreach ha
    obtain ⟨files, hholds⟩ := Fs.holds_of_reach (hreach.weaken fun s a => FsAct.Legal.safe)
    obtain ⟨s', out, hs⟩ := hholds.returns ha
    obtain ⟨files', hstep⟩ := hholds.step_cases ha.safe hs
    exact ⟨s', out, hs, hholds.mapStep ha hstep⟩

theorem writtenFs_reach : (fsSys.restrict FsAct.Legal).Reach writtenFs := by
  have hopened : (fsSys.restrict FsAct.Legal).Reach openedFs :=
    openedFs_reach (fun _ _ _ => size_allowed) fun _ _ _ => trivial
  obtain ⟨hd, hh, hlive⟩ := Option.map_eq_some_iff.mp openedFs_runs.2.2.1
  exact Fs.reach_next hopened ⟨hd, hh, hlive, by decide, by decide⟩ openedFs_runs.2.2.2.1

/-- Bytes 98 to 107 are read, the last eight of which were written. -/
theorem filesystem_refines_map_read :
    ∃ s' out, writtenFs.step (.readAt 0 (fun _ => 0) 10 98 fun _ => 0) = some (s', out) ∧
      MapStep writtenFs.fileMap (.readAt 0 (fun _ => 0) 10 98 fun _ => 0) out s'.fileMap := by
  obtain ⟨hd, hh, hlive⟩ := Option.map_eq_some_iff.mp openedFs_runs.2.2.1
  have hh' : writtenFs.handles 0 = some hd := by rw [writtenFs, Fs.handles_next_writeAt, hh]
  exact filesystem_refines_map.2 writtenFs _ writtenFs_reach ⟨hd, hh', hlive, by decide, by decide⟩

end Nachos
