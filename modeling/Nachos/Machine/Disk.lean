/-
  `machine/disk.cc`: the disk.

  The disk is kept in a UNIX file, a magic number followed by the sectors; the file is a function from
  offsets to bytes.  `ReadRequest` and `WriteRequest` do their work at once and schedule an interrupt
  for later; until `HandleInterrupt`, the disk is `active` and takes no other request.

  Requests are numbered in the order they are issued, and a scheduled interrupt is named by the number
  of its request.  `initial`, `requests` and `done` are history: the file as it was when the disk was
  opened, the requests issued so far, and those whose interrupt was taken.  When the interrupt comes is
  left open here: the position of the head, which determines it, is in `Nachos.Machine.DiskTime`.
-/
import Mathlib.Data.List.Basic

namespace Nachos

/-! ## Sectors in a file -/

/-- `SectorSize`: the number of bytes in a sector. -/
def sectorSize : Nat := 128

/-- `NumSectors`: 32 tracks of 32 sectors. -/
def numSectors : Nat := 32 * 32

/-- `MagicSize`: the size of the number at the beginning of the file. -/
def magicSize : Nat := 4

/-- The bytes of a sector. -/
abbrev Sector := Fin sectorSize → UInt8

/-- The UNIX file. -/
abbrev DiskFile := Nat → UInt8

/-- Where a sector begins in the file. -/
def diskOffset (sector : Nat) : Nat := sectorSize * sector + magicSize

/-- `Lseek` and `Read` of a sector. -/
def readFile (file : DiskFile) (sector : Nat) : Sector := fun i => file (diskOffset sector + i)

/-- `Lseek` and `WriteFile` of a sector. -/
def writeFile (file : DiskFile) (sector : Nat) (data : Sector) : DiskFile := fun a =>
  if h : diskOffset sector ≤ a ∧ a - diskOffset sector < sectorSize then
    data ⟨a - diskOffset sector, h.2⟩
  else file a

theorem readFile_writeFile_self (file : DiskFile) (sector : Nat) (data : Sector) :
    readFile (writeFile file sector data) sector = data := by
  funext i
  have hin : diskOffset sector ≤ diskOffset sector + i ∧
      diskOffset sector + i - diskOffset sector < sectorSize := by
    have hi := i.isLt
    omega
  simp only [readFile, writeFile, dif_pos hin]
  congr 1
  exact Fin.ext (Nat.add_sub_cancel_left _ _)

/-- Sectors do not overlap. -/
theorem readFile_writeFile_of_ne (file : DiskFile) {sector other : Nat} (hne : other ≠ sector)
    (data : Sector) : readFile (writeFile file sector data) other = readFile file other := by
  funext i
  have hout : ¬ (diskOffset sector ≤ diskOffset other + i ∧
      diskOffset other + i - diskOffset sector < sectorSize) := by
    have hi := i.isLt
    simp only [diskOffset, sectorSize] at hi ⊢
    omega
  simp only [readFile, writeFile, dif_neg hout]

/-! ## Requests -/

/-- A request to the disk. -/
inductive DiskReq where
  | read (sectorNumber : Int)
  | write (sectorNumber : Int) (data : Sector)

/-- The sector a request is for. -/
def DiskReq.sector : DiskReq → Int
  | .read sectorNumber => sectorNumber
  | .write sectorNumber _ => sectorNumber

/-- The second `ASSERT` of `ReadRequest` and `WriteRequest`. -/
def validSector (sectorNumber : Int) : Prop := 0 ≤ sectorNumber ∧ sectorNumber < numSectors

instance (sectorNumber : Int) : Decidable (validSector sectorNumber) :=
  inferInstanceAs (Decidable (0 ≤ sectorNumber ∧ sectorNumber < numSectors))

/-- What a request writes into `sector`. -/
def DiskReq.writes (sector : Nat) : DiskReq → Option Sector
  | .read _ => none
  | .write sectorNumber data => if sectorNumber.toNat = sector then some data else none

/-- The data of the last write request for `sector`, or what the disk had there in the beginning. -/
def lastWrite (initial : DiskFile) (requests : List DiskReq) (sector : Nat) : Sector :=
  (requests.reverse.findSome? (DiskReq.writes sector)).getD (readFile initial sector)

theorem lastWrite_read (initial : DiskFile) (requests : List DiskReq) (sectorNumber : Int)
    (sector : Nat) : lastWrite initial (requests ++ [.read sectorNumber]) sector
      = lastWrite initial requests sector := by
  rw [lastWrite, List.reverse_append]
  rfl

theorem lastWrite_write_self (initial : DiskFile) (requests : List DiskReq) (sectorNumber : Int)
    (data : Sector) :
    lastWrite initial (requests ++ [.write sectorNumber data]) sectorNumber.toNat = data := by
  simp [lastWrite, DiskReq.writes]

theorem lastWrite_write_of_ne (initial : DiskFile) (requests : List DiskReq) {sectorNumber : Int}
    {sector : Nat} (hne : sector ≠ sectorNumber.toNat) (data : Sector) :
    lastWrite initial (requests ++ [.write sectorNumber data]) sector
      = lastWrite initial requests sector := by
  simp [lastWrite, DiskReq.writes, hne.symm]

/-! ## The disk -/

/-- `class Disk`, and its history. -/
structure Disk where
  file : DiskFile
  active : Bool
  pending : List Nat
  initial : DiskFile
  requests : List DiskReq
  done : List Nat

namespace Disk

/-- A disk that has just been opened. -/
def new (file : DiskFile) : Disk := ⟨file, false, [], file, [], []⟩

/-- The end of both requests: `active = true; interrupt->Schedule(DiskDone, ...)`. -/
def started (d : Disk) (r : DiskReq) : Disk :=
  { d with
    active := true
    pending := d.pending ++ [d.requests.length]
    requests := d.requests ++ [r] }

/-- `Disk::ReadRequest`; `none`: an `ASSERT` fails. -/
def readRequest (d : Disk) (sectorNumber : Int) : Option (Disk × Sector) :=
  if d.active then none
  else if ¬ validSector sectorNumber then none
  else some (d.started (.read sectorNumber), readFile d.file sectorNumber.toNat)

/-- `Disk::WriteRequest`. -/
def writeRequest (d : Disk) (sectorNumber : Int) (data : Sector) : Option Disk :=
  if d.active then none
  else if ¬ validSector sectorNumber then none
  else
    some ({ d with file := writeFile d.file sectorNumber.toNat data }.started
      (.write sectorNumber data))

/-- `Disk::HandleInterrupt`, for the request number `n`. -/
def handleInterrupt (d : Disk) (n : Nat) : Option Disk :=
  if n ∈ d.pending then
    some { d with active := false, pending := d.pending.erase n, done := d.done ++ [n] }
  else none

/-- A request of either kind; a read answers with the bytes of the sector. -/
def request (d : Disk) : DiskReq → Option (Disk × Option Sector)
  | .read sectorNumber => (d.readRequest sectorNumber).map fun r => (r.1, some r.2)
  | .write sectorNumber data => (d.writeRequest sectorNumber data).map fun d' => (d', none)

/-- The file holds what was written last. -/
def FileOk (d : Disk) : Prop := ∀ sector, readFile d.file sector = lastWrite d.initial d.requests sector

/-- What a request does: it is the next one, its interrupt is pending, and a read is answered with
    what was written last before it. -/
structure Requested (d : Disk) (r : DiskReq) (d' : Disk) (answer : Option Sector) : Prop where
  idle : d.active = false
  valid : validSector r.sector
  active : d'.active = true
  pending : d'.pending = d.pending ++ [d.requests.length]
  requests : d'.requests = d.requests ++ [r]
  initial : d'.initial = d.initial
  done : d'.done = d.done
  file : d.FileOk → d'.FileOk
  answer : d.FileOk → ∀ sectorNumber, r = .read sectorNumber →
    answer = some (lastWrite d.initial d.requests sectorNumber.toNat)

/-- The `ASSERT`s of both requests. -/
theorem of_asserts {α : Type} {d : Disk} {sectorNumber : Int} {x y : α}
    (h : (if d.active then none else if ¬ validSector sectorNumber then none else some x) = some y) :
    d.active = false ∧ validSector sectorNumber ∧ x = y := by
  split at h
  · cases h
  · rename_i hidle
    split at h
    · cases h
    · rename_i hvalid
      exact ⟨eq_false_of_ne_true hidle, not_not.mp hvalid, Option.some.inj h⟩

theorem requested {d d' : Disk} {r : DiskReq} {answer : Option Sector}
    (h : d.request r = some (d', answer)) : Requested d r d' answer := by
  cases r with
  | read sectorNumber =>
    obtain ⟨started, hstarted, heq⟩ := Option.map_eq_some_iff.mp h
    obtain ⟨hidle, hvalid, rfl⟩ := of_asserts hstarted
    obtain ⟨rfl, rfl⟩ := Prod.mk.inj heq
    refine ⟨hidle, hvalid, rfl, rfl, rfl, rfl, rfl, ?_, ?_⟩
    · intro hfile sector
      exact (hfile sector).trans (lastWrite_read _ _ _ _).symm
    · intro hfile k hk
      obtain rfl := DiskReq.read.inj hk
      exact congrArg some (hfile _)
  | write sectorNumber data =>
    obtain ⟨started, hstarted, heq⟩ := Option.map_eq_some_iff.mp h
    obtain ⟨hidle, hvalid, rfl⟩ := of_asserts hstarted
    obtain ⟨rfl, rfl⟩ := Prod.mk.inj heq
    refine ⟨hidle, hvalid, rfl, rfl, rfl, rfl, rfl, ?_, ?_⟩
    · intro hfile sector
      show readFile (writeFile d.file sectorNumber.toNat data) sector
        = lastWrite d.initial (d.requests ++ [.write sectorNumber data]) sector
      by_cases hs : sector = sectorNumber.toNat
      · rw [hs, readFile_writeFile_self, lastWrite_write_self]
      · rw [readFile_writeFile_of_ne _ hs, lastWrite_write_of_ne _ _ hs]
        exact hfile sector
    · intro _ k hk
      cases hk

/-- A request gets through when the disk is not active and there is such a sector. -/
theorem request_enabled {d : Disk} {r : DiskReq} (hidle : d.active = false)
    (hvalid : validSector r.sector) : ∃ d' answer, d.request r = some (d', answer) := by
  cases r with
  | read sectorNumber =>
    have hv : validSector sectorNumber := hvalid
    refine ⟨d.started (.read sectorNumber), some (readFile d.file sectorNumber.toNat), ?_⟩
    simp [request, readRequest, hidle, hv]
  | write sectorNumber data =>
    have hv : validSector sectorNumber := hvalid
    refine ⟨{ d with file := writeFile d.file sectorNumber.toNat data }.started
      (.write sectorNumber data), none, ?_⟩
    simp [request, writeRequest, hidle, hv]

end Disk

end Nachos
