/-
  `filesys/directory.cc` — the directory.

  A directory is a table of entries of 20 bytes: whether the entry is in use, the sector of the file
  header, and 10 bytes for the name.  It is read from its file and written to its file as it is in
  memory.  A name is copied with `strncpy` and compared with `strncmp`, both up to 9 characters, and
  the tenth byte is never written.  Entries that are not in use keep what was in them.

  A file is known by the first 9 characters of its name (`fileKey`).  What the operations do is said entry
  by entry: `FindIndex` finds an entry in use with the key, if there is one (`findIndex_spec`); `Add`
  fills the first entry that is not in use, unless the key is there already (`add_cases`); `Remove` takes
  the entry that is found out of use (`remove_spec`).  No other entry changes.
-/
import Nachos.Filesys.OpenFile
import Nachos.Lib.CString

namespace Nachos

/-! ## The code -/

/-- `FileNameMaxLen`. -/
def fileNameMaxLen : Nat := 9

/-- `sizeof(DirectoryEntry)`: a `bool`, an `int` and ten characters, aligned. -/
def directoryEntrySize : Nat := 20

/-- `class Directory`; the table is what is in memory. -/
structure Directory where
  tableSize : Nat
  table : Bytes

namespace Directory

/-- `table[i].inUse`. -/
def inUse (d : Directory) (i : Nat) : Bool := d.table (directoryEntrySize * i) != 0

/-- `table[i].inUse = b`. -/
def setInUse (d : Directory) (i : Nat) (b : Bool) : Directory :=
  { d with table := Function.update d.table (directoryEntrySize * i) (if b then 1 else 0) }

/-- `table[i].sector`. -/
def sector (d : Directory) (i : Nat) : Int := (getWord d.table (directoryEntrySize * i + 4)).toInt

/-- `table[i].sector = sector`. -/
def setSector (d : Directory) (i : Nat) (sector : Int) : Directory :=
  { d with table := putWord d.table (directoryEntrySize * i + 4) (BitVec.ofInt 32 sector) }

/-- `strncpy(table[i].name, name, FileNameMaxLen)`. -/
def setName (d : Directory) (i : Nat) (name : Bytes) : Directory :=
  { d with table := strncpy d.table (directoryEntrySize * i + 8) name fileNameMaxLen }

/-- `Directory::Directory(size)`; `mem` is what the new table has in it. -/
def new (size : Nat) (mem : Bytes) : Directory :=
  (List.range size).foldl (fun d i => d.setInUse i false) ⟨size, mem⟩

/-- `Directory::FetchFrom(file)`. -/
def fetchFrom (d : Directory) (file : OpenFile) (disk : DiskFile) (mem : Bytes) : Option Directory :=
  (file.readAt disk mem d.table 0 ((d.tableSize * directoryEntrySize : Nat) : Int) 0).map fun r =>
    { d with table := r.2 }

/-- `Directory::WriteBack(file)`. -/
def writeBack (d : Directory) (file : OpenFile) (disk : DiskFile) (mem : Nat → Bytes) : Option DiskFile :=
  (file.writeAt disk mem d.table ((d.tableSize * directoryEntrySize : Nat) : Int) 0).map (·.2)

/-- `Directory::FindIndex(name)`; `none` is -1. -/
def findIndex (d : Directory) (name : Bytes) : Option Nat :=
  (List.range d.tableSize).find? fun i =>
    d.inUse i && strncmp d.table (directoryEntrySize * i + 8) name 0 fileNameMaxLen

/-- `Directory::Find(name)`. -/
def find (d : Directory) (name : Bytes) : Int :=
  match d.findIndex name with
  | some i => d.sector i
  | none => -1

/-- `Directory::Add(name, newSector)`. -/
def add (d : Directory) (name : Bytes) (newSector : Int) : Bool × Directory :=
  if (d.findIndex name).isSome then (false, d)
  else
    match (List.range d.tableSize).find? fun i => !d.inUse i with
    | none => (false, d)
    | some i => (true, ((d.setInUse i true).setName i name).setSector i newSector)

/-- `Directory::Remove(name)`. -/
def remove (d : Directory) (name : Bytes) : Bool × Directory :=
  match d.findIndex name with
  | none => (false, d)
  | some i => (true, d.setInUse i false)

end Directory

/-! ## Entries -/

/-- What a file is known by: the first 9 characters of its name. -/
def fileKey (name : Bytes) : List UInt8 := cstring name 0 fileNameMaxLen

namespace Directory

/-- The key of an entry. -/
def key (d : Directory) (i : Nat) : List UInt8 :=
  cstring d.table (directoryEntrySize * i + 8) fileNameMaxLen

variable {d d' : Directory} {i j : Nat} {name : Bytes}

/-- An entry is its 20 bytes. -/
def SameEntry (d d' : Directory) (i : Nat) : Prop :=
  ∀ a < directoryEntrySize, d'.table (directoryEntrySize * i + a) = d.table (directoryEntrySize * i + a)

theorem SameEntry.inUse (h : d.SameEntry d' i) : d'.inUse i = d.inUse i := by
  have hbyte := h 0 (by decide)
  rw [Nat.add_zero] at hbyte
  rw [Directory.inUse, Directory.inUse, hbyte]

theorem SameEntry.sector (h : d.SameEntry d' i) : d'.sector i = d.sector i := by
  have hword : getWord d'.table (directoryEntrySize * i + 4) = getWord d.table (directoryEntrySize * i + 4) := by
    refine getWord_congr fun a ha => ?_
    rw [Nat.add_assoc]
    exact h (4 + a) (by rw [show directoryEntrySize = 20 from rfl]; omega)
  rw [Directory.sector, Directory.sector, hword]

theorem SameEntry.key (h : d.SameEntry d' i) : d'.key i = d.key i := by
  refine cstring_congr _ _ _ fun a ha => ?_
  rw [show fileNameMaxLen = 9 from rfl] at ha
  rw [Nat.add_assoc]
  exact h (8 + a) (by rw [show directoryEntrySize = 20 from rfl]; omega)

/-- A change inside of one entry is a change of no other. -/
theorem sameEntry_of (hij : j ≠ i)
    (h : ∀ a, a < directoryEntrySize * i ∨ directoryEntrySize * i + directoryEntrySize ≤ a →
      d'.table a = d.table a) : d.SameEntry d' j := by
  intro a ha
  refine h _ ?_
  rw [show directoryEntrySize = 20 from rfl] at *
  omega

theorem setInUse_of_ne (b : Bool) {a : Nat} (ha : a ≠ directoryEntrySize * i) :
    (d.setInUse i b).table a = d.table a := Function.update_of_ne ha ..

theorem inUse_setInUse (b : Bool) : (d.setInUse i b).inUse i = b := by
  unfold Directory.inUse
  rw [show (d.setInUse i b).table (directoryEntrySize * i) = if b then 1 else 0 from
    Function.update_self ..]
  cases b <;> rfl

theorem sameEntry_setInUse (b : Bool) (hij : j ≠ i) : d.SameEntry (d.setInUse i b) j := by
  refine sameEntry_of hij fun a ha => setInUse_of_ne b ?_
  rw [show directoryEntrySize = 20 from rfl] at *
  omega

/-! ## What the operations do -/

/-- A new directory is empty. -/
theorem new_spec (size : Nat) (mem : Bytes) :
    (new size mem).tableSize = size ∧ ∀ i < size, (new size mem).inUse i = false := by
  have hloop : ∀ n, ((List.range n).foldl (fun d i => d.setInUse i false) (⟨size, mem⟩ : Directory)).tableSize
      = size ∧ ∀ i < n, ((List.range n).foldl (fun d i => d.setInUse i false)
        (⟨size, mem⟩ : Directory)).inUse i = false := by
    intro n
    induction n with
    | zero => exact ⟨rfl, fun i hi => absurd hi (Nat.not_lt_zero i)⟩
    | succ n ih =>
      rw [List.range_succ, List.foldl_append]
      refine ⟨ih.1, fun i hi => ?_⟩
      show Directory.inUse (Directory.setInUse _ n false) i = false
      by_cases hin : i = n
      · rw [hin, inUse_setInUse]
      · rw [(sameEntry_setInUse false hin).inUse]
        exact ih.2 i (by omega)
  exact hloop size

/-- `FindIndex` finds an entry in use with the key. -/
theorem findIndex_eq_some (h : d.findIndex name = some i) :
    i < d.tableSize ∧ d.inUse i = true ∧ d.key i = fileKey name := by
  have hfound := List.find?_some h
  rw [Bool.and_eq_true, strncmp_iff] at hfound
  exact ⟨List.mem_range.mp (List.mem_of_find?_eq_some h), hfound⟩

/-- It finds one if there is one. -/
theorem findIndex_eq_none : d.findIndex name = none ↔
    ∀ i < d.tableSize, d.inUse i = true → d.key i ≠ fileKey name := by
  unfold findIndex
  rw [List.find?_eq_none]
  constructor
  · intro h i hi huse hkey
    refine h i (List.mem_range.mpr hi) ?_
    rw [Bool.and_eq_true, strncmp_iff]
    exact ⟨huse, hkey⟩
  · intro h i hi hfound
    rw [Bool.and_eq_true, strncmp_iff] at hfound
    exact h i (List.mem_range.mp hi) hfound.1 hfound.2

/-- With different keys in different entries it finds the one. -/
theorem findIndex_eq (hi : i < d.tableSize) (huse : d.inUse i = true) (hkey : d.key i = fileKey name)
    (honly : ∀ j < d.tableSize, d.inUse j = true → d.key j = fileKey name → j = i) :
    d.findIndex name = some i := by
  cases hfind : d.findIndex name with
  | none => exact absurd hkey (findIndex_eq_none.mp hfind i hi huse)
  | some j =>
    obtain ⟨hj, hjuse, hjkey⟩ := findIndex_eq_some hfind
    rw [honly j hj hjuse hjkey]

/-- What `Add` does with the entry it takes: the three assignments. -/
def fill (d : Directory) (i : Nat) (name : Bytes) (newSector : Int) : Directory :=
  ((d.setInUse i true).setName i name).setSector i newSector

section Fill

variable {newSector : Int}

theorem inUse_fill : (d.fill i name newSector).inUse i = true := by
  have huse : (d.setInUse i true).inUse i = true := inUse_setInUse true
  -- the name and the sector are written behind the first byte
  have hbyte : (d.fill i name newSector).table (directoryEntrySize * i)
      = (d.setInUse i true).table (directoryEntrySize * i) := by
    show putWord _ _ _ _ = _
    rw [putWord_of_lt (by omega)]
    show strncpy _ _ _ _ _ = _
    rw [strncpy_of_outside (Or.inl (by omega))]
  unfold Directory.inUse at huse ⊢
  rw [hbyte]
  exact huse

theorem key_fill : (d.fill i name newSector).key i = fileKey name := by
  -- the sector is written before the name
  have hkeep : (d.fill i name newSector).key i = ((d.setInUse i true).setName i name).key i := by
    refine cstring_congr _ _ _ fun a _ => ?_
    show putWord _ _ _ _ = _
    rw [putWord_of_ge (by omega)]
  rw [hkeep]
  exact cstring_strncpy _ _ _ _

theorem sector_fill : (d.fill i name newSector).sector i = int32 newSector := by
  show (getWord (putWord _ _ _) _).toInt = _
  rw [getWord_putWord]
  rfl

theorem sameEntry_fill (hij : j ≠ i) : d.SameEntry (d.fill i name newSector) j := by
  have hsize : directoryEntrySize = 20 := rfl
  have hname : fileNameMaxLen = 9 := rfl
  refine sameEntry_of hij fun a ha => ?_
  rw [hsize] at ha
  show putWord _ _ _ _ = _
  have hword : a < directoryEntrySize * i + 4 ∨ directoryEntrySize * i + 4 + 4 ≤ a := by
    rw [hsize]
    omega
  have hchars : a < directoryEntrySize * i + 8 ∨ directoryEntrySize * i + 8 + fileNameMaxLen ≤ a := by
    rw [hsize, hname]
    omega
  have hkept : strncpy (d.setInUse i true).table (directoryEntrySize * i + 8) name fileNameMaxLen a = d.table a := by
    rw [strncpy_of_outside hchars]
    refine setInUse_of_ne true ?_
    rw [hsize]
    omega
  rcases hword with hlt | hge
  · rw [putWord_of_lt hlt]
    exact hkept
  · rw [putWord_of_ge hge]
    exact hkept

end Fill

/-- **`Add`** fails and changes nothing if the key is there or no entry is free; else it fills an entry. -/
theorem add_cases (d : Directory) (name : Bytes) (newSector : Int) :
    ((d.findIndex name).isSome ∨ (∀ i < d.tableSize, d.inUse i = true)) ∧ d.add name newSector = (false, d) ∨
      d.findIndex name = none ∧ ∃ i < d.tableSize, d.inUse i = false ∧
        d.add name newSector = (true, d.fill i name newSector) := by
  cases hfind : d.findIndex name with
  | some i =>
    refine Or.inl ⟨Or.inl rfl, ?_⟩
    simp only [add, hfind, Option.isSome_some, if_true]
  | none =>
    cases hfree : (List.range d.tableSize).find? fun i => !d.inUse i with
    | none =>
      refine Or.inl ⟨Or.inr fun i hi => ?_, ?_⟩
      · have hnot := List.find?_eq_none.mp hfree i (List.mem_range.mpr hi)
        simpa using hnot
      · simp only [add, hfind, Option.isSome_none, hfree, Bool.false_eq_true, if_false]
    | some i =>
      refine Or.inr ⟨rfl, i, List.mem_range.mp (List.mem_of_find?_eq_some hfree), ?_, ?_⟩
      · have hnot := List.find?_some hfree
        simpa using hnot
      · simp only [add, hfind, Option.isSome_none, hfree, Bool.false_eq_true, if_false, fill]

/-- The same entry by entry, for a sector that is an `int`. -/
theorem add_spec (d : Directory) (name : Bytes) {newSector : Nat} (hsector : newSector < 2 ^ 31) :
    ((d.findIndex name).isSome ∨ (∀ i < d.tableSize, d.inUse i = true)) ∧
        d.add name newSector = (false, d) ∨
      d.findIndex name = none ∧ ∃ i d', i < d.tableSize ∧ d.inUse i = false ∧
        d.add name newSector = (true, d') ∧ d'.tableSize = d.tableSize ∧ d'.inUse i = true ∧
        d'.key i = fileKey name ∧ d'.sector i = newSector ∧ ∀ j, j ≠ i → d.SameEntry d' j := by
  rcases d.add_cases name newSector with hfails | ⟨hfind, i, hi, hfree, hadd⟩
  · exact Or.inl hfails
  · refine Or.inr ⟨hfind, i, d.fill i name newSector, hi, hfree, hadd, rfl, inUse_fill, key_fill, ?_,
      fun j hj => sameEntry_fill hj⟩
    rw [sector_fill]
    exact int32_of_range (by omega) (by omega)

/-- **`Remove`.** -/
theorem remove_spec (h : d.findIndex name = some i) :
    ∃ d', d.remove name = (true, d') ∧ d'.tableSize = d.tableSize ∧ d'.inUse i = false ∧
      ∀ j, j ≠ i → d.SameEntry d' j := by
  refine ⟨d.setInUse i false, ?_, rfl, inUse_setInUse false, fun j hj => sameEntry_setInUse false hj⟩
  simp only [remove, h]

end Directory

end Nachos
