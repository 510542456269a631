import Nachos.Threads.Machine
import Nachos.Threads.Kernel
import Nachos.Lib.Token
import Nachos.Threads.Lock
import Nachos.Threads.Condition
import Nachos.Threads.Donation
import Nachos.Lib.Slot
import Nachos.Threads.Puerto
import Nachos.Userprog.Process
import Nachos.Userprog.Join
import Nachos.Lib.Pool
import Nachos.Userprog.AddrSpace
import Nachos.Threads.Service
import Nachos.Threads.SynchList
import Nachos.Filesys.SynchDisk
import Nachos.Machine.Console
import Nachos.Userprog.SynchConsole
import Nachos.Lib.Bytes
import Nachos.Machine.Network
import Nachos.Network.PostOffice
import Nachos.Network.Delivery
import Nachos.Userprog.Loader
import Nachos.Userprog.Isolation
import Nachos.Filesys.FileHdr
import Nachos.Lib.CString
import Nachos.Filesys.OpenFile
import Nachos.Filesys.Directory
import Nachos.Filesys.FileSys
import Nachos.Filesys.Layout
import Nachos.Filesys.Operations
import Nachos.Filesys.Session
import Nachos.Filesys.Consistency
import Nachos.Filesys.FileMap
import Nachos.Lib.Chain
import Nachos.Threads.List
import Nachos.Lib.StableQueue
import Nachos.Threads.ReadyQueue
import Nachos.Threads.Dispatch
import Nachos.Machine.Interrupt
import Nachos.Threads.IntLevel
import Nachos.Machine.Machine
import Nachos.Userprog.UserState
import Nachos.Lib.Partial
import Nachos.Machine.Mipssim
import Nachos.Machine.Transparency
import Nachos.Lib.Traced
import Nachos.Userprog.Exception
import Nachos.Userprog.Tables
import Nachos.Userprog.ReadWrite
import Nachos.Bin.Coff2noff
import Nachos.Threads.Destroy
import Nachos.Userprog.LoadLoop
import Nachos.Userprog.Strings
import Nachos.Filesys.Requests
import Nachos.Machine.Tlb
import Nachos.Machine.MainMemory
import Nachos.Lib.DoubleWord
import Nachos.Machine.Mult
import Nachos.Machine.Alu
import Nachos.Machine.Crash
import Nachos.Machine.DiskTime
import Nachos.Filesys.FsTest
import Nachos.Threads.ListRuns
import Nachos.Filesys.DirectoryMap
import Nachos.Lib.Asm
import Nachos.Lib.Coroutine
import Nachos.Threads.Switch
import Nachos.Threads.Switch32
import Nachos.Filesys.Remount
import Nachos.Filesys.WriteLog
import Nachos.Filesys.PowerLoss
import Nachos.Machine.Agenda
import Nachos.Machine.Board
import Nachos.Machine.BoardTime
