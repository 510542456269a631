/-
  `filesys/filesys.cc` — the file system.

  Sector 0 has the header of the file that holds the bitmap of free sectors, sector 1 the header of the
  file that holds the directory; both files stay open.  `Create`, `Open` and `Remove` read the directory
  and the bitmap from their files, change them in memory, and write them back.  All exits of the code
  are modelled; an operation that fails writes nothing.  `mem` is what newly allocated memory holds.
-/
import Nachos.Filesys.Directory

namespace Nachos

/-! ## Bitmaps in files -/

namespace BitMap

/-- The words as they are in memory. -/
def bytes (b : BitMap) : Bytes := fun a => wordByte (b.map.getD (a / 4) 0) (a % 4)

/-- The bitmap whose words are these bytes. -/
def ofBytes (numBits : Nat) (bytes : Bytes) : BitMap := .uninitialized numBits fun w => getWord bytes (4 * w)

/-- `numWords * sizeof(unsigned)`. -/
def numBytes (b : BitMap) : Nat := b.map.length * 4

/-- `BitMap::FetchFrom(file)`. -/
def fetchFrom (b : BitMap) (file : OpenFile) (disk : DiskFile) (mem : Bytes) : Option BitMap :=
  (file.readAt disk mem b.bytes 0 b.numBytes 0).map fun r => ofBytes b.numBits r.2

/-- `BitMap::WriteBack(file)`. -/
def writeBack (b : BitMap) (file : OpenFile) (disk : DiskFile) (mem : Nat → Bytes) : Option DiskFile :=
  (file.writeAt disk mem b.bytes b.numBytes 0).map (·.2)

end BitMap

/-! ## The code -/

/-- `FreeMapSector`. -/
def freeMapSector : Nat := 0

/-- `DirectorySector`. -/
def directorySector : Nat := 1

/-- `FreeMapFileSize`. -/
def freeMapFileSize : Nat := numSectors / 8

/-- `NumDirEntries`. -/
def numDirEntries : Nat := 10

/-- `DirectoryFileSize`. -/
def directoryFileSize : Nat := directoryEntrySize * numDirEntries

/-- `new BitMap(NumSectors)`. -/
def newFreeMap (mem : Bytes) : Option BitMap := BitMap.new numSectors fun w => getWord mem (4 * w)

/-- `class FileSystem`. -/
structure FileSystem where
  freeMapFile : OpenFile
  directoryFile : OpenFile

namespace FileSystem

/-- `FileSystem::FileSystem(true)`; `none`: an `ASSERT` fails. -/
def format (disk : DiskFile) (mem : Nat → Bytes) : Option (FileSystem × DiskFile) := do
  let freeMap ← newFreeMap (mem 0)
  let directory := Directory.new numDirEntries (mem 1)
  let freeMap ← freeMap.mark freeMapSector
  let freeMap ← freeMap.mark directorySector
  let map ← (FileHeader.mk (mem 2)).allocate freeMap freeMapFileSize
  if !map.1 then none
  else do
    let dir ← (FileHeader.mk (mem 3)).allocate map.2.2 directoryFileSize
    if !dir.1 then none
    else do
      let disk ← map.2.1.writeBack disk freeMapSector
      let disk ← dir.2.1.writeBack disk directorySector
      let freeMapFile ← OpenFile.new disk freeMapSector (mem 4)
      let directoryFile ← OpenFile.new disk directorySector (mem 5)
      let disk ← dir.2.2.writeBack freeMapFile disk fun k => mem (6 + k)
      let disk ← directory.writeBack directoryFile disk fun k => mem (9 + k)
      some (⟨freeMapFile, directoryFile⟩, disk)

/-- `FileSystem::FileSystem(false)`: the two files are opened. -/
def openFiles (disk : DiskFile) (mem : Nat → Bytes) : Option FileSystem := do
  let freeMapFile ← OpenFile.new disk freeMapSector (mem 0)
  let directoryFile ← OpenFile.new disk directorySector (mem 1)
  some ⟨freeMapFile, directoryFile⟩

/-- `FileSystem::Create(name, initialSize)`. -/
def create (fs : FileSystem) (disk : DiskFile) (name : Bytes) (initialSize : Int) (mem : Nat → Bytes) :
    Option (Bool × DiskFile) := do
  let directory ← (Directory.new numDirEntries (mem 0)).fetchFrom fs.directoryFile disk (mem 1)
  if directory.find name ≠ -1 then some (false, disk)
  else do
    let freeMap ← newFreeMap (mem 2)
    let freeMap ← freeMap.fetchFrom fs.freeMapFile disk (mem 3)
    let found ← freeMap.find
    if found.1 = -1 then some (false, disk)
    else
      let added := directory.add name found.1
      if !added.1 then some (false, disk)
      else do
        let hdr ← (FileHeader.mk (mem 4)).allocate found.2 initialSize
        if !hdr.1 then some (false, disk)
        else do
          let disk ← hdr.2.1.writeBack disk found.1
          let disk ← added.2.writeBack fs.directoryFile disk fun k => mem (5 + k)
          let disk ← hdr.2.2.writeBack fs.freeMapFile disk fun k => mem (8 + k)
          some (true, disk)

/-- `FileSystem::Open(name)`; the inner `none` is NULL. -/
def openFile (fs : FileSystem) (disk : DiskFile) (name : Bytes) (mem : Nat → Bytes) :
    Option (Option OpenFile) := do
  let directory ← (Directory.new numDirEntries (mem 0)).fetchFrom fs.directoryFile disk (mem 1)
  if directory.find name ≥ 0 then (OpenFile.new disk (directory.find name) (mem 2)).map some
  else some none

/-- `FileSystem::Remove(name)`. -/
def remove (fs : FileSystem) (disk : DiskFile) (name : Bytes) (mem : Nat → Bytes) :
    Option (Bool × DiskFile) := do
  let directory ← (Directory.new numDirEntries (mem 0)).fetchFrom fs.directoryFile disk (mem 1)
  if directory.find name = -1 then some (false, disk)
  else do
    let fileHdr ← (FileHeader.mk (mem 2)).fetchFrom disk (directory.find name)
    let freeMap ← newFreeMap (mem 3)
    let freeMap ← freeMap.fetchFrom fs.freeMapFile disk (mem 4)
    let freeMap ← fileHdr.deallocate freeMap
    let freeMap ← freeMap.clear (directory.find name)
    let disk ← freeMap.writeBack fs.freeMapFile disk fun k => mem (5 + k)
    let disk ← (directory.remove name).2.writeBack fs.directoryFile disk fun k => mem (8 + k)
    some (true, disk)

end FileSystem

end Nachos
