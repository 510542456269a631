/-
  `userprog/exception.cc` — the system calls on files, on the console and on processes.

  A call finds its arguments in the registers of the machine and leaves its result in register 2.  Its cases are
  computations that RECORD the entries of `descriptores` and of `processIdTable` they use (`Traced`): an index outside
  a table is recorded, and what the host does then is outside the model.  Nor does a call return when an ASSERT
  fails, or an exception is raised while it copies from or to user memory.

  What a call does to the tables of processes is `ProcSh` of `Process`.  Opening a file by name and loading a program
  are not done here: `Open` and `Exec` are given what they come to.  What there is in memory that the kernel has
  just allocated is given, too.
-/
import Nachos.Filesys.OpenFile
import Nachos.Lib.Traced
import Nachos.Userprog.Process
import Nachos.Userprog.User

namespace Nachos

/-! ## The kernel -/

/-- `MAX_OPEN_FILES`. -/
def maxOpenFiles : Nat := 100

/-- `ConsoleInput`. -/
def consoleInput : Int := 0

/-- `ConsoleOutput`. -/
def consoleOutput : Int := 1

/-- A use of `currentThread->descriptores[i]` or of `processIdTable[i]`. -/
inductive Access where
  | descriptor (i : Int)
  | process (i : Int)
  deriving DecidableEq

/-- The index is one of the table. -/
def Access.InRange : Access → Prop
  | .descriptor i => 0 ≤ i ∧ i < maxOpenFiles
  | .process i => 0 ≤ i ∧ i < maxCantProcess

instance : DecidablePred Access.InRange
  | .descriptor i => inferInstanceAs (Decidable (0 ≤ i ∧ i < maxOpenFiles))
  | .process i => inferInstanceAs (Decidable (0 ≤ i ∧ i < maxCantProcess))

/-- The use of an entry. -/
def useEntry (a : Access) : Traced Access Unit := .use a a.InRange

/-- What the calls work on: the machine; the running thread; `Thread::descriptores` of every thread, with the
    addresses of `OpenFile` objects (`none` is NULL); the processes; the `OpenFile` objects and the disk; the
    characters that `readConsole` returns, how many of them were taken, and those written to the console. -/
structure SysState where
  machine : Machine
  currentThread : Tid
  descriptores : Tid → Nat → Option Nat
  proc : ProcSh
  files : Nat → Option OpenFile
  disk : DiskFile
  input : Nat → UInt8
  taken : Nat
  output : List UInt8

/-- `increaseProgramCounter()`. -/
def Machine.increaseProgramCounter (m : Machine) : Machine :=
  let pc := m.registers nextPCReg
  ((m.set prevPCReg (m.registers pcReg)).set pcReg pc).set nextPCReg (pc + 4)

namespace SysState

variable (s : SysState) (bigEndian : Bool)

/-- An argument, as an `int`. -/
def arg (r : Fin 32) : Int := (s.machine.get r).toInt

/-- `machine->WriteRegister(2, value)`, and the end of `ExceptionHandler`. -/
def ret (value : BitVec 32) : SysState :=
  { s with machine := (s.machine.set (gpr 2) value).increaseProgramCounter }

/-- `currentThread->descriptores[i]`. -/
def descriptor (i : Int) : Option Nat := s.descriptores s.currentThread i.toNat

/-- `currentThread->descriptores[i] = file`. -/
def setDescriptor (i : Int) (file : Option Nat) : SysState :=
  { s with
    descriptores := Function.update s.descriptores s.currentThread
      (Function.update (s.descriptores s.currentThread) i.toNat file) }

/-! ## Files and the console -/

/-- What `SC_Read` and `SC_Write` do with an identifier that is not the console's: the check, the lookup, and the
    operation `f` on the file. -/
def onFile (id : Int) (f : Nat → Option SysState) : Traced Access SysState :=
  if 3 ≤ id ∧ id ≤ maxOpenFiles then do
    useEntry (.descriptor id)
    match s.descriptor id with
    | none => .stop
    | some file => do
      useEntry (.descriptor id)
      .ofOption (f file)
  else .stop

/-- The loop of `SC_Read` from the console, with so many rounds to go; `i` and `bytes` are the same number.  The
    result: `bytes`, the buffer, and the number of characters taken. -/
def readLoop (input : Nat → UInt8) : Nat → Nat → Nat → Bytes → Nat × Bytes × Nat
  | 0, i, taken, buffer => (i, buffer, taken)
  | n + 1, i, taken, buffer =>
    let c := input taken
    if c = 10 then (i, Function.update buffer i c, taken + 1)
    else readLoop input n (i + 1) (taken + 1) (Function.update buffer i c)

/-- `SC_Read`, from the console. -/
def scReadConsole (buffer : Bytes) : Option SysState :=
  let r := readLoop s.input (s.arg 5).toNat 0 s.taken buffer
  (s.machine.writeBuffToUsr bigEndian r.2.1 (s.machine.get 4) r.1).map fun machine =>
    { s with machine := machine, taken := r.2.2 }.ret (BitVec.ofNat 32 r.1)

/-- `SC_Read`, from the open file `file`. -/
def scReadFile (buffer mem : Bytes) (file : Nat) : Option SysState :=
  (s.files file).bind fun f =>
    (f.read s.disk mem buffer 0 (s.arg 5)).map fun r =>
      { s with files := Function.update s.files file (some r.2.1) }.ret (BitVec.ofInt 32 r.1)

/-- `SC_Read`; the new buffer has `buffer` in it, that of `ReadAt` has `mem`. -/
def scRead (buffer mem : Bytes) : Traced Access SysState :=
  if s.arg 6 = consoleInput then .ofOption (s.scReadConsole bigEndian buffer)
  else s.onFile (s.arg 6) (s.scReadFile buffer mem)

/-- `SC_Write`, to the console: `buffer[0]` to `buffer[lon - 1]` are written one after the other. -/
def scWriteConsole (buffer : Bytes) : SysState :=
  let lon := (s.arg 5).toNat
  { s with output := s.output ++ slice buffer 0 lon }.ret (BitVec.ofNat 32 lon)

/-- `SC_Write`, to the open file `file`. -/
def scWriteFile (buffer : Bytes) (mem : Nat → Bytes) (file : Nat) : Option SysState :=
  (s.files file).bind fun f =>
    (f.write s.disk mem buffer (s.arg 5)).map fun r =>
      { s with files := Function.update s.files file (some r.2.1), disk := r.2.2 }.ret (BitVec.ofInt 32 r.1)

/-- `SC_Write`. -/
def scWrite (buffer : Bytes) (mem : Nat → Bytes) : Traced Access SysState := do
  let r ← Traced.ofOption (s.machine.readBuffFromUsr bigEndian (s.machine.get 4) buffer (s.arg 5).toNat)
  let s' := { s with machine := r.1 }
  if s.arg 6 = consoleOutput then pure (s'.scWriteConsole r.2)
  else s'.onFile (s.arg 6) (s'.scWriteFile r.2 mem)

/-- `AssignId(file)`. -/
def assignId (file : Nat) : Traced Access (SysState × Nat) := do
  let i ← Traced.firstFree (fun i => .descriptor i) maxOpenFiles
    (fun i => (s.descriptores s.currentThread i).isNone) maxOpenFiles 3
  useEntry (.descriptor i)
  pure (s.setDescriptor i (some file), i)

/-- `SC_Open`, when `fileSystem->Open(name)` has returned `opened`.  `id` is not initialised. -/
def scOpen (opened : Option Nat) (id : BitVec 32) : Traced Access SysState :=
  match opened with
  | none => pure (s.ret id)
  | some file => do
    let r ← s.assignId file
    pure (r.1.ret (BitVec.ofNat 32 r.2))

/-- `SC_Close`. -/
def scClose : Traced Access SysState := do
  let id := s.arg 4
  useEntry (.descriptor id)
  match s.descriptor id with
  | none => pure (s.ret 0)
  | some file => do
    useEntry (.descriptor id)
    -- `file->~OpenFile()`, of an object
    let _ ← Traced.ofOption (s.files file)
    pure ({ s.setDescriptor id none with files := Function.update s.files file none }.ret 0)

/-! ## Processes -/

/-- `SC_Exec`, when `fileSystem->Open(filename)` has found the executable, or not; the new `Thread` has `descriptores`
    in it. -/
def scExec (executable : Bool) (descriptores : Nat → Option Nat) : Traced Access SysState :=
  if executable then do
    let t := s.currentThread
    useEntry (.process (s.proc.pid t))
    let table := Function.update s.proc.processIdTable (s.proc.pid t) (some t)
    let pid ← Traced.firstFree (fun i => .process i) maxCantProcess (fun i => (table i).isNone) maxCantProcess 1
    -- do_Exec
    useEntry (.process pid)
    let r ← Traced.ofOption (s.proc.exec t)
    pure ({ s with
      proc := r.1.forked t r.2.1 r.2.2
      descriptores := Function.update s.descriptores r.2.1 descriptores }.ret (BitVec.ofNat 32 pid))
  else .stop

/-- `SC_Join` up to the wait in `Thread::Join`. -/
def scJoin : Traced Access SysState := do
  useEntry (.process (s.arg 4))
  let _ ← Traced.ofOption (s.proc.lookup (s.arg 4))
  pure s

/-- `SC_Join` after the wait. -/
def scJoined (pid : Int) : Traced Access SysState := do
  useEntry (.process pid)
  pure ({ s with proc := s.proc.joined s.currentThread pid.toNat }.ret 0)

/-- `SC_Exit` up to `Finish`; the last process halts the machine. -/
def scExit : Traced Access SysState :=
  let t := s.currentThread
  let s' := { s with proc := s.proc.exit t (s.arg 4) }
  if s.proc.cantProcesses - 1 ≤ 0 then .stop
  else if s.proc.space t then do
    useEntry (.process (s.proc.pid t))
    pure s'
  else pure s'

end SysState

end Nachos
