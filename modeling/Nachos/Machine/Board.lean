/-
  The machine with ALL its devices: `machine/timer.cc`, and the consoles, disks and networks of the other files,
  on the interrupt simulation.

  The device models elsewhere say what an interrupt does when it comes, and leave open when that is.  Here the
  devices schedule their interrupts with `machine/interrupt.cc`:

  * the timer, the keyboard and the receiving side of the network are POLLED: the constructor schedules the first
    interrupt, and every interrupt schedules the next;
  * the display, the disk and the sending side of the network answer a REQUEST, with one interrupt.

  1. **The devices** (`boardDevices`, `boardCalls`) — the handlers, and what the kernel and the outside world can do.
     Characters arrive at the keyboard one by one, and packets at the socket; what has not arrived cannot be
     polled.  The pseudo-random numbers are an arbitrary sequence.

  2. **Interrupts to come** (`device_interrupts`) — in every run: one interrupt for every device that is polled, and
     one for every request that is not done, no others.  So the flag `putBusy` or `active` is up if and only
     if there is an interrupt to take it down.

  What follows for the clock is in `Nachos.Machine.BoardTime`.
-/
import Mathlib.Data.List.Chain
import Mathlib.Data.Multiset.Filter
import Mathlib.Data.Multiset.MapFold
import Nachos.Machine.Agenda
import Nachos.Machine.Console
import Nachos.Machine.DiskTime
import Nachos.Machine.Network

namespace Nachos

/-! ## The devices -/

/-- The functions that the devices pass to `Schedule`. -/
inductive DeviceHandler where
  | timerHandler
  | consoleReadPoll
  | consoleWriteDone
  | diskDone
  | networkReadPoll
  | networkSendDone
  deriving DecidableEq

/-- The type that each of them is scheduled with. -/
@[simp] def DeviceHandler.type : DeviceHandler → IntType
  | timerHandler => .timerInt
  | consoleReadPoll => .consoleReadInt
  | consoleWriteDone => .consoleWriteInt
  | diskDone => .diskInt
  | networkReadPoll => .networkRecvInt
  | networkSendDone => .networkSendInt

/-- `ConsoleTime`. -/
def consoleTime : Int := 100

/-- `NetworkTime`. -/
def networkTime : Int := 100

/-- `TimerTicks`. -/
def timerTicks : Int := 100

/-- `class Timer`. -/
structure Timer where
  randomize : Bool

/-- `Timer::TimeOfNextInterrupt()`; `random` are the numbers that `Random` will return. -/
def Timer.timeOfNextInterrupt (t : Timer) (random : Nat → Nat) : Int × (Nat → Nat) :=
  if t.randomize then (1 + (random 0 : Int) % (timerTicks * 2), fun n => random (n + 1)) else (timerTicks, random)

/-- `class Console`. -/
structure Console where
  keyboard : Keyboard
  display : Display

/-- `class Disk`, with its head. -/
structure DiskDrive where
  disk : Disk
  head : DiskHead

/-- `class Network`, with the packets that wait at its socket. -/
structure NetworkCard where
  network : Network
  socket : List Bytes

/-- What the kernel is told: the handlers it gave to the devices are called. -/
inductive Notice where
  | readAvail
  | writeDone
  | requestDone
  | packetAvail
  | packetSent
  deriving DecidableEq

/-- The devices there are, and what the kernel was told. -/
structure Board where
  random : Nat → Nat
  timer : Option Timer
  console : Option Console
  drive : Option DiskDrive
  card : Option NetworkCard
  notices : List Notice

namespace Board

/-- A request of a device; `n` is its number. -/
def ask (f : DeviceHandler) (n : Nat) (fromNow : Int) : Request DeviceHandler Nat := ⟨f, n, fromNow, f.type⟩

/-- `Timer::TimerExpired()`.  Handlers run in system mode, so `TimerInterruptHandler` always asks for a yield. -/
def timerExpired (d : Board) : List (Request DeviceHandler Nat) × Bool × Board :=
  match d.timer with
  | none => ([], false, d)
  | some t =>
    let (wait, random) := t.timeOfNextInterrupt d.random
    ([ask .timerHandler 0 wait], true, { d with random := random })

/-- `Console::CheckCharAvail()`. -/
def checkCharAvail (d : Board) : List (Request DeviceHandler Nat) × Bool × Board :=
  match d.console with
  | none => ([], false, d)
  | some c =>
    ([ask .consoleReadPoll 0 consoleTime], false,
      match c.keyboard.checkCharAvail (!c.keyboard.stream.isEmpty) with
      | some (true, k) => { d with console := some { c with keyboard := k }, notices := d.notices ++ [.readAvail] }
      | _ => d)

/-- `Console::WriteDone()`. -/
def writeDone (d : Board) (n : Nat) : List (Request DeviceHandler Nat) × Bool × Board :=
  ([], false,
    match d.console with
    | none => d
    | some c =>
      match c.display.writeDone n with
      | none => d
      | some display =>
        { d with console := some { c with display := display }, notices := d.notices ++ [.writeDone] })

/-- `Disk::HandleInterrupt()`. -/
def handleInterrupt (d : Board) (n : Nat) : List (Request DeviceHandler Nat) × Bool × Board :=
  ([], false,
    match d.drive with
    | none => d
    | some v =>
      match v.disk.handleInterrupt n with
      | none => d
      | some disk => { d with drive := some { v with disk := disk }, notices := d.notices ++ [.requestDone] })

/-- `Network::CheckPktAvail()`. -/
def checkPktAvail (d : Board) : List (Request DeviceHandler Nat) × Bool × Board :=
  match d.card with
  | none => ([], false, d)
  | some c =>
    ([ask .networkReadPoll 0 networkTime], false,
      match c.network.checkPktAvail c.socket.head? with
      | some (true, network) =>
        { d with card := some ⟨network, c.socket.tail⟩, notices := d.notices ++ [.packetAvail] }
      | _ => d)

/-- `Network::SendDone()`. -/
def sendDone (d : Board) (n : Nat) : List (Request DeviceHandler Nat) × Bool × Board :=
  ([], false,
    match d.card with
    | none => d
    | some c =>
      match c.network.sendDone n with
      | none => d
      | some network => { d with card := some { c with network := network }, notices := d.notices ++ [.packetSent] })

end Board

/-- The handlers of all devices. -/
def boardDevices : Devices DeviceHandler Nat Board where
  delayedLoad d := d
  call f n _ d :=
    match f with
    | .timerHandler => d.timerExpired
    | .consoleReadPoll => d.checkCharAvail
    | .consoleWriteDone => d.writeDone n
    | .diskDone => d.handleInterrupt n
    | .networkReadPoll => d.checkPktAvail
    | .networkSendDone => d.sendDone n

/-- What the kernel does to the devices, beginning with their constructors, and what comes from outside.  Of the
    inbox, the constructor of the network initializes the length only. -/
inductive BoardCall where
  | newTimer (randomize : Bool)
  | newConsole
  | newDisk (file : DiskFile)
  | newNetwork (ident : BitVec 32) (inHdr : PacketHeader) (inbox : Bytes)
  | getChar
  | putChar (t : Tid) (ch : UInt8)
  | diskRequest (r : DiskReq)
  | send (lost : Bool) (buffer : Bytes) (hdr : PacketHeader) (data : Bytes)
  | receive (data : Bytes)
  | typed (ch : UInt8)
  | arrived (packet : Bytes)

/-- A request writes. -/
def DiskReq.writing : DiskReq → Bool
  | read _ => false
  | write _ _ => true

/-- The `ASSERT` of `CheckPktAvail`: a packet is for this machine, and not too long. -/
def Addressed (ident : BitVec 32) (packet : Bytes) : Prop :=
  (Header.load packet 0).to_ = ident ∧ (Header.load packet 0).length.toNat ≤ maxPacketSize

instance Addressed.decidable (ident : BitVec 32) (packet : Bytes) : Decidable (Addressed ident packet) :=
  inferInstanceAs (Decidable (_ ∧ _))

/-- The calls.  Only packets that pass the `ASSERT` arrive. -/
def boardCalls : DeviceCalls BoardCall DeviceHandler Nat Board := fun k d now =>
  match k with
  | .newTimer randomize =>
    match d.timer with
    | some _ => none
    | none =>
      let t : Timer := ⟨randomize⟩
      let (wait, random) := t.timeOfNextInterrupt d.random
      some ({ d with timer := some t, random := random }, [Board.ask .timerHandler 0 wait])
  | .newConsole =>
    match d.console with
    | some _ => none
    | none => some ({ d with console := some ⟨.new [], .new⟩ }, [Board.ask .consoleReadPoll 0 consoleTime])
  | .newDisk file =>
    match d.drive with
    | some _ => none
    | none => some ({ d with drive := some ⟨.new file, .new⟩ }, [])
  | .newNetwork ident inHdr inbox =>
    match d.card with
    | some _ => none
    | none =>
      let network : Network := ⟨ident, false, { inHdr with length := 0 }, inbox, 0, []⟩
      some ({ d with card := some ⟨network, []⟩ }, [Board.ask .networkReadPoll 0 networkTime])
  | .getChar => d.console.map fun c => ({ d with console := some { c with keyboard := c.keyboard.getChar } }, [])
  | .putChar t ch =>
    d.console.bind fun c => (c.display.putChar t ch).map fun display =>
      ({ d with console := some { c with display := display } },
        [Board.ask .consoleWriteDone c.display.shown.length consoleTime])
  | .diskRequest r =>
    d.drive.bind fun v => (v.disk.request r).map fun answer =>
      ({ d with drive := some ⟨answer.1, v.head.updateLast now r.sector⟩ },
        [Board.ask .diskDone v.disk.requests.length (v.head.computeLatency true now r.sector r.writing)])
  | .send lost buffer hdr data =>
    d.card.bind fun c => (c.network.send lost buffer hdr data).map fun sent =>
      ({ d with card := some { c with network := sent.1 } },
        [Board.ask .networkSendDone c.network.sends networkTime])
  | .receive data =>
    d.card.map fun c => ({ d with card := some { c with network := (c.network.receive data).2.2 } }, [])
  | .typed ch =>
    d.console.map fun c => ({ d with console := some { c with keyboard :=
      { c.keyboard with stream := c.keyboard.stream ++ [ch], input := c.keyboard.input ++ [ch] } } }, [])
  | .arrived packet =>
    d.card.bind fun c =>
      if Addressed c.network.ident packet then
        some ({ d with card := some { c with socket := c.socket ++ [packet] } }, [])
      else none

/-- Before `Initialize` there are no devices. -/
def Board.Start (d : Board) : Prop :=
  d.timer = none ∧ d.console = none ∧ d.drive = none ∧ d.card = none ∧ d.notices = []

/-- **The machine with its devices.** -/
def boardSys : Lts (Hardware DeviceHandler Nat Board) (MachineAct BoardCall) :=
  machineSys boardDevices boardCalls Board.Start

/-! ## Interrupts to come -/

namespace Timer

/-- The shortest time between two interrupts of the timer. -/
def least (t : Timer) : Int := if t.randomize then 1 else timerTicks

/-- The longest. -/
def most (t : Timer) : Int := if t.randomize then timerTicks * 2 else timerTicks

theorem timeOfNextInterrupt_bounds (t : Timer) (random : Nat → Nat) :
    t.least ≤ (t.timeOfNextInterrupt random).1 ∧ (t.timeOfNextInterrupt random).1 ≤ t.most := by
  unfold timeOfNextInterrupt least most
  rw [show timerTicks = 100 from rfl]
  cases t.randomize with
  | true => constructor <;> simp only [if_true] <;> omega
  | false => constructor <;> simp only [Bool.false_eq_true, if_false] <;> omega

theorem least_pos (t : Timer) : 0 < t.least := by
  unfold least
  split <;> decide

end Timer

theorem boardDevices_positive : boardDevices.Positive := by
  intro f n now d r hr
  cases f with
  | timerHandler =>
    simp only [boardDevices, Board.timerExpired] at hr
    split at hr
    · cases hr
    · rename_i t _
      obtain rfl := List.mem_singleton.mp hr
      exact Int.lt_of_lt_of_le t.least_pos (t.timeOfNextInterrupt_bounds d.random).1
  | consoleReadPoll =>
    simp only [boardDevices, Board.checkCharAvail] at hr
    split at hr
    · cases hr
    · obtain rfl := List.mem_singleton.mp hr
      decide
  | networkReadPoll =>
    simp only [boardDevices, Board.checkPktAvail] at hr
    split at hr
    · cases hr
    · obtain rfl := List.mem_singleton.mp hr
      decide
  | consoleWriteDone | diskDone | networkSendDone => cases hr

/-- What the kernel is told when a request is done. -/
@[simp] def IntType.notice : IntType → Option Notice
  | .consoleWriteInt => some .writeDone
  | .diskInt => some .requestDone
  | .networkSendInt => some .packetSent
  | _ => none

theorem IntType.notice_inj {ty ty' : IntType} {k : Notice} (h : ty.notice = some k) (h' : ty'.notice = some k) :
    ty = ty' := by
  cases ty <;> cases h <;> cases ty' <;> cases h' <;> rfl

namespace Board

/-- The interrupts to come, by their types: one for every device that is polled, and the requests not done. -/
@[simp] def awaits (d : Board) : IntType → List Nat
  | .timerInt => if d.timer.isSome then [0] else []
  | .consoleReadInt => if d.console.isSome then [0] else []
  | .consoleWriteInt => (d.console.map fun c => c.display.pending).getD []
  | .diskInt => (d.drive.map fun v => v.disk.pending).getD []
  | .networkRecvInt => if d.card.isSome then [0] else []
  | .networkSendInt => (d.card.map fun c => c.network.pending).getD []

/-- How many requests there were. -/
@[simp] def issued (d : Board) : IntType → Nat
  | .consoleWriteInt => (d.console.map fun c => c.display.shown.length).getD 0
  | .diskInt => (d.drive.map fun v => v.disk.requests.length).getD 0
  | .networkSendInt => (d.card.map fun c => c.network.sends).getD 0
  | _ => 0

/-- The display and the disk have one request at a time, and their flags say so; the packets at the socket are for
    this machine. -/
structure Flags (d : Board) : Prop where
  display : ∀ c, d.console = some c → c.display.pending.length = if c.display.putBusy then 1 else 0
  disk : ∀ v, d.drive = some v → v.disk.pending.length = if v.disk.active then 1 else 0
  socket : ∀ c, d.card = some c → ∀ packet ∈ c.socket, Addressed c.network.ident packet

/-- And the kernel was told of every request that is done. -/
structure Ok (d : Board) : Prop extends Flags d where
  counted : ∀ ty k, ty.notice = some k → d.issued ty = d.notices.count k + (d.awaits ty).length

/-- The requests of a type. -/
def asked (rs : List (Request DeviceHandler Nat)) (ty : IntType) : List Nat :=
  (rs.filter fun r => r.type = ty).map fun r => r.arg

@[simp] theorem asked_nil (ty : IntType) : asked [] ty = [] := rfl

@[simp] theorem asked_ask (f : DeviceHandler) (n : Nat) (fromNow : Int) (ty : IntType) :
    asked [ask f n fromNow] ty = if f.type = ty then [n] else [] := by
  cases f <;> cases ty <;> rfl

theorem type_ask {f : DeviceHandler} {n : Nat} {fromNow : Int} {r : Request DeviceHandler Nat}
    (hr : r ∈ [ask f n fromNow]) : r.type = r.handler.type := by
  obtain rfl := List.mem_singleton.mp hr
  rfl

/-- **What every call and every handler does**: from the interrupts to come that are left, and those that it
    schedules, it makes the interrupts to come. -/
structure Moves (d : Board) (left : IntType → List Nat) (rs : List (Request DeviceHandler Nat)) (d' : Board) :
    Prop where
  ok : d'.Ok
  types : ∀ r ∈ rs, r.type = r.handler.type
  awaits : ∀ ty, d'.awaits ty = left ty ++ asked rs ty
  timer : ∀ t, d.timer = some t → d'.timer = some t

variable {d d' : Board} {rs : List (Request DeviceHandler Nat)}

/-- A call issues the requests that it schedules interrupts for. -/
theorem Ok.moves_call (hd : d.Ok) (hflags : d'.Flags) (hnotices : d'.notices = d.notices)
    (htimer : ∀ t, d.timer = some t → d'.timer = some t) (htypes : ∀ r ∈ rs, r.type = r.handler.type)
    (hmore : ∀ ty, d'.awaits ty = d.awaits ty ++ asked rs ty ∧
      (ty.notice.isSome → d'.issued ty = d.issued ty + (asked rs ty).length)) : Moves d d.awaits rs d' := by
  refine ⟨⟨hflags, fun ty k hk => ?_⟩, htypes, fun ty => (hmore ty).1, htimer⟩
  have hold := hd.counted ty k hk
  rw [(hmore ty).2 (hk ▸ rfl), (hmore ty).1, hnotices, List.length_append]
  omega

/-- What is left when interrupt number `n` of a type comes. -/
def without (d : Board) (type : IntType) (n : Nat) (ty : IntType) : List Nat :=
  if ty = type then (d.awaits ty).erase n else d.awaits ty

/-- A poll schedules the next, and the kernel is told of no request. -/
theorem Ok.moves_poll (hd : d.Ok) {f : DeviceHandler} {n : Nat} {fromNow : Int}
    (hn : d.awaits f.type = [0]) (hmem : n ∈ d.awaits f.type) (hflags : d'.Flags)
    (hnotices : ∀ (ty : IntType) k, ty.notice = some k → d'.notices.count k = d.notices.count k)
    (htimer : ∀ t, d.timer = some t → d'.timer = some t)
    (hsame : ∀ ty, d'.awaits ty = d.awaits ty ∧ d'.issued ty = d.issued ty) :
    Moves d (d.without f.type n) [ask f 0 fromNow] d' := by
  refine ⟨⟨hflags, fun ty k hk => ?_⟩, fun r => type_ask, fun ty => ?_, htimer⟩
  · rw [(hsame ty).1, (hsame ty).2, hnotices ty k hk]
    exact hd.counted ty k hk
  · rw [hn] at hmem
    obtain rfl := List.mem_singleton.mp hmem
    rw [(hsame ty).1, without, asked_ask]
    by_cases hty : ty = f.type
    · subst hty
      rw [if_pos rfl, if_pos rfl, hn]
      rfl
    · rw [if_neg hty, if_neg (Ne.symm hty), List.append_nil]

/-- The one request of a device that takes one at a time is done, and the flag is taken down. -/
theorem length_erase_of_flag {pending : List Nat} {flag : Bool} {n : Nat} (hmem : n ∈ pending)
    (hone : pending.length = if flag then 1 else 0) : (pending.erase n).length = if false then 1 else 0 := by
  have hpos := List.length_pos_of_mem hmem
  rw [List.length_erase_of_mem hmem, if_neg Bool.false_ne_true]
  split at hone <;> omega

/-- A request is done, and the kernel is told. -/
theorem Ok.moves_done (hd : d.Ok) {type : IntType} {k : Notice} {n : Nat} (hk : type.notice = some k)
    (hmem : n ∈ d.awaits type) (hflags : d'.Flags)
    (hnotices : d'.notices = d.notices ++ [k]) (htimer : ∀ t, d.timer = some t → d'.timer = some t)
    (hless : ∀ ty, d'.awaits ty = d.without type n ty ∧ d'.issued ty = d.issued ty) :
    Moves d (d.without type n) [] d' := by
  refine ⟨⟨hflags, fun ty j hj => ?_⟩, fun r hr => absurd hr List.not_mem_nil, fun ty => ?_, htimer⟩
  · have hold := hd.counted ty j hj
    rw [(hless ty).1, (hless ty).2, hnotices, List.count_append, without]
    by_cases hty : ty = type
    · subst hty
      obtain rfl := Option.some.inj (hk.symm.trans hj)
      have hpos := List.length_pos_of_mem hmem
      rw [if_pos rfl, List.length_erase_of_mem hmem, List.count_singleton_self]
      omega
    · have hother : k ≠ j := by
        rintro rfl
        exact hty (IntType.notice_inj hj hk)
      rw [if_neg hty, List.count_singleton, if_neg (by simpa using hother)]
      omega
  · rw [(hless ty).1, asked_nil, List.append_nil]

end Board

theorem Network.checkPktAvail_keeps {network network' : Network} {packet : Option Bytes} {told : Bool}
    (h : network.checkPktAvail packet = some (told, network')) :
    network'.ident = network.ident ∧ network'.sends = network.sends ∧ network'.pending = network.pending := by
  unfold checkPktAvail at h
  split at h
  · obtain ⟨-, rfl⟩ := Prod.mk.inj (Option.some.inj h)
    exact ⟨rfl, rfl, rfl⟩
  · split at h
    · obtain ⟨-, rfl⟩ := Prod.mk.inj (Option.some.inj h)
      exact ⟨rfl, rfl, rfl⟩
    · simp only at h
      split at h
      · obtain ⟨-, rfl⟩ := Prod.mk.inj (Option.some.inj h)
        exact ⟨rfl, rfl, rfl⟩
      · cases h

/-- **The calls.** -/
theorem boardCalls_moves {k : BoardCall} {d d' : Board} {now : Int} {rs : List (Request DeviceHandler Nat)}
    (hd : d.Ok) (h : boardCalls k d now = some (d', rs)) : Board.Moves d d.awaits rs d' := by
  obtain ⟨hdisplay, hdisk, hsocket⟩ := hd.toFlags
  cases k with
  | newTimer randomize =>
    simp only [boardCalls] at h
    split at h
    · cases h
    · rename_i hnone
      obtain ⟨rfl, rfl⟩ := Prod.mk.inj (Option.some.inj h)
      refine hd.moves_call ⟨hdisplay, hdisk, hsocket⟩ rfl (fun t ht => ?_) (fun r => Board.type_ask) fun ty => ?_
      · rw [hnone] at ht
        cases ht
      · cases ty <;> simp [hnone]
  | newConsole =>
    simp only [boardCalls] at h
    split at h
    · cases h
    · rename_i hnone
      obtain ⟨rfl, rfl⟩ := Prod.mk.inj (Option.some.inj h)
      refine hd.moves_call ⟨fun c hc => ?_, hdisk, hsocket⟩ rfl (fun _ ht => ht) (fun r => Board.type_ask) fun ty => ?_
      · obtain rfl := Option.some.inj hc
        rfl
      · cases ty <;> simp [hnone, Display.new]
  | newDisk file =>
    simp only [boardCalls] at h
    split at h
    · cases h
    · rename_i hnone
      obtain ⟨rfl, rfl⟩ := Prod.mk.inj (Option.some.inj h)
      refine hd.moves_call ⟨hdisplay, fun v hv => ?_, hsocket⟩ rfl (fun _ ht => ht) (by simp) fun ty => ?_
      · obtain rfl := Option.some.inj hv
        rfl
      · cases ty <;> simp [hnone, Disk.new]
  | newNetwork ident inHdr inbox =>
    simp only [boardCalls] at h
    split at h
    · cases h
    · rename_i hnone
      obtain ⟨rfl, rfl⟩ := Prod.mk.inj (Option.some.inj h)
      refine hd.moves_call ⟨hdisplay, hdisk, fun c hc p hp => ?_⟩ rfl (fun _ ht => ht) (fun r => Board.type_ask)
        fun ty => ?_
      · obtain rfl := Option.some.inj hc
        cases hp
      · cases ty <;> simp [hnone]
  | getChar =>
    obtain ⟨c, hc, heq⟩ := Option.map_eq_some_iff.mp h
    obtain ⟨rfl, rfl⟩ := Prod.mk.inj heq
    refine hd.moves_call ⟨fun c' hc' => ?_, hdisk, hsocket⟩ rfl (fun _ ht => ht) (by simp) fun ty => ?_
    · obtain rfl := Option.some.inj hc'
      exact hdisplay c hc
    · cases ty <;> simp [hc]
  | putChar t ch =>
    obtain ⟨c, hc, h⟩ := Option.bind_eq_some_iff.mp h
    obtain ⟨display, hput, heq⟩ := Option.map_eq_some_iff.mp h
    obtain ⟨rfl, rfl⟩ := Prod.mk.inj heq
    have hfree := hdisplay c hc
    simp only [Display.putChar] at hput
    split at hput
    · cases hput
    · rename_i hbusy
      obtain rfl := Option.some.inj hput
      rw [if_neg hbusy] at hfree
      refine hd.moves_call ⟨fun c' hc' => ?_, hdisk, hsocket⟩ rfl (fun _ ht => ht) (fun r => Board.type_ask)
        fun ty => ?_
      · obtain rfl := Option.some.inj hc'
        simp [hfree]
      · cases ty <;> simp [hc]
  | diskRequest r =>
    obtain ⟨v, hv, h⟩ := Option.bind_eq_some_iff.mp h
    obtain ⟨⟨disk, answer⟩, hrequest, heq⟩ := Option.map_eq_some_iff.mp h
    obtain ⟨rfl, rfl⟩ := Prod.mk.inj heq
    have hreq := Disk.requested hrequest
    have hfree := hdisk v hv
    rw [hreq.idle] at hfree
    refine hd.moves_call ⟨hdisplay, fun v' hv' => ?_, hsocket⟩ rfl (fun _ ht => ht) (fun r => Board.type_ask)
      fun ty => ?_
    · obtain rfl := Option.some.inj hv'
      simp [hreq.pending, hreq.active, List.length_eq_zero_iff.mp hfree]
    · cases ty <;> simp [hv, hreq.pending, hreq.requests]
  | send lost buffer hdr data =>
    obtain ⟨c, hc, h⟩ := Option.bind_eq_some_iff.mp h
    obtain ⟨⟨network, sent⟩, hsend, heq⟩ := Option.map_eq_some_iff.mp h
    obtain ⟨rfl, rfl⟩ := Prod.mk.inj heq
    simp only [Network.send] at hsend
    split at hsend
    · obtain ⟨rfl, rfl⟩ := Prod.mk.inj (Option.some.inj hsend)
      refine hd.moves_call ⟨hdisplay, hdisk, fun c' hc' => ?_⟩ rfl (fun _ ht => ht) (fun r => Board.type_ask)
        fun ty => ?_
      · obtain rfl := Option.some.inj hc'
        exact hsocket c hc
      · cases ty <;> simp [hc]
    · cases hsend
  | receive data =>
    obtain ⟨c, hc, heq⟩ := Option.map_eq_some_iff.mp h
    obtain ⟨rfl, rfl⟩ := Prod.mk.inj heq
    refine hd.moves_call ⟨hdisplay, hdisk, fun c' hc' => ?_⟩ rfl (fun _ ht => ht) (by simp) fun ty => ?_
    · obtain rfl := Option.some.inj hc'
      exact hsocket c hc
    · cases ty <;> simp [hc, Network.receive]
  | typed ch =>
    obtain ⟨c, hc, heq⟩ := Option.map_eq_some_iff.mp h
    obtain ⟨rfl, rfl⟩ := Prod.mk.inj heq
    refine hd.moves_call ⟨fun c' hc' => ?_, hdisk, hsocket⟩ rfl (fun _ ht => ht) (by simp) fun ty => ?_
    · obtain rfl := Option.some.inj hc'
      exact hdisplay c hc
    · cases ty <;> simp [hc]
  | arrived packet =>
    obtain ⟨c, hc, h⟩ := Option.bind_eq_some_iff.mp h
    split at h
    · rename_i haddressed
      obtain ⟨rfl, rfl⟩ := Prod.mk.inj (Option.some.inj h)
      refine hd.moves_call ⟨hdisplay, hdisk, fun c' hc' p hp => ?_⟩ rfl (fun _ ht => ht) (by simp) fun ty => ?_
      · obtain rfl := Option.some.inj hc'
        rcases List.mem_append.mp hp with hp | hp
        · exact hsocket c hc p hp
        · obtain rfl := List.mem_singleton.mp hp
          exact haddressed
      · cases ty <;> simp [hc]
    · cases h

/-- **The handlers.** -/
theorem boardDevices_moves {f : DeviceHandler} {n : Nat} {d : Board} (hd : d.Ok) (hn : n ∈ d.awaits f.type)
    (now : Int) :
    Board.Moves d (d.without f.type n) (boardDevices.call f n now d).1 (boardDevices.call f n now d).2.2 := by
  obtain ⟨hdisplay, hdisk, hsocket⟩ := hd.toFlags
  cases f with
  | timerHandler =>
    cases ht : d.timer with
    | none => simp [ht] at hn
    | some t =>
      simp only [boardDevices, Board.timerExpired, ht]
      refine hd.moves_poll (by simp [ht]) hn ⟨hdisplay, hdisk, hsocket⟩
        (fun _ _ _ => rfl) (fun _ h => ht.symm.trans h) fun ty => ?_
      cases ty <;> simp [ht]
  | consoleReadPoll =>
    cases hc : d.console with
    | none => simp [hc] at hn
    | some c =>
      have hone : d.awaits .consoleReadInt = [0] := by simp [hc]
      simp only [boardDevices, Board.checkCharAvail, hc]
      split
      · refine hd.moves_poll hone hn ⟨fun c' hc' => ?_, hdisk, hsocket⟩ (fun ty k hk => ?_) (fun _ ht => ht)
          fun ty => ?_
        · obtain rfl := Option.some.inj hc'
          exact hdisplay c hc
        · cases ty <;> cases hk <;> simp
        · cases ty <;> simp [hc]
      · exact hd.moves_poll hone hn hd.toFlags (fun _ _ _ => rfl) (fun _ ht => ht) fun _ => ⟨rfl, rfl⟩
  | networkReadPoll =>
    cases hc : d.card with
    | none => simp [hc] at hn
    | some c =>
      have hone : d.awaits .networkRecvInt = [0] := by simp [hc]
      simp only [boardDevices, Board.checkPktAvail, hc]
      split
      · rename_i network hcheck
        obtain ⟨hident, hsends, hpending⟩ := Network.checkPktAvail_keeps hcheck
        refine hd.moves_poll hone hn ⟨hdisplay, hdisk, fun c' hc' p hp => ?_⟩ (fun ty k hk => ?_) (fun _ ht => ht)
          fun ty => ?_
        · obtain rfl := Option.some.inj hc'
          rw [hident]
          exact hsocket c hc p (List.mem_of_mem_tail hp)
        · cases ty <;> cases hk <;> simp
        · cases ty <;> simp [hc, hsends, hpending]
      · exact hd.moves_poll hone hn hd.toFlags (fun _ _ _ => rfl) (fun _ ht => ht) fun _ => ⟨rfl, rfl⟩
  | consoleWriteDone =>
    cases hc : d.console with
    | none => simp [hc] at hn
    | some c =>
      have hmem : n ∈ c.display.pending := by simpa [hc] using hn
      simp only [boardDevices, Board.writeDone, hc, Display.writeDone, if_pos hmem]
      refine hd.moves_done rfl hn ⟨fun c' hc' => ?_, hdisk, hsocket⟩ rfl (fun _ ht => ht) fun ty => ?_
      · obtain rfl := Option.some.inj hc'
        exact Board.length_erase_of_flag hmem (hdisplay c hc)
      · cases ty <;> simp [Board.without, hc]
  | diskDone =>
    cases hv : d.drive with
    | none => simp [hv] at hn
    | some v =>
      have hmem : n ∈ v.disk.pending := by simpa [hv] using hn
      simp only [boardDevices, Board.handleInterrupt, hv, Disk.handleInterrupt, if_pos hmem]
      refine hd.moves_done rfl hn ⟨hdisplay, fun v' hv' => ?_, hsocket⟩ rfl (fun _ ht => ht) fun ty => ?_
      · obtain rfl := Option.some.inj hv'
        exact Board.length_erase_of_flag hmem (hdisk v hv)
      · cases ty <;> simp [Board.without, hv]
  | networkSendDone =>
    cases hc : d.card with
    | none => simp [hc] at hn
    | some c =>
      have hmem : n ∈ c.network.pending := by simpa [hc] using hn
      simp only [boardDevices, Board.sendDone, hc, Network.sendDone, if_pos hmem]
      refine hd.moves_done rfl hn ⟨hdisplay, hdisk, fun c' hc' => ?_⟩ rfl (fun _ ht => ht) fun ty => ?_
      · obtain rfl := Option.some.inj hc'
        exact hsocket c hc
      · cases ty <;> simp [Board.without, hc]

namespace Agenda

section Args

variable {F A D : Type}

/-- The arguments of the interrupts to come of a type. -/
def args (a : Agenda F A D) (ty : IntType) : Multiset A :=
  (a.pending.filter fun p => p.type = ty).map fun p => p.arg

theorem args_request (a : Agenda F A D) (d : D) (rs : List (Request F A)) (ty : IntType) :
    (a.request d rs).args ty
      = a.args ty + Multiset.ofList ((rs.filter fun r => r.type = ty).map fun r => r.arg) := by
  show (Agenda.addAll { a with world := d } rs).args ty = ({ a with world := d } : Agenda F A D).args ty + _
  generalize ({ a with world := d } : Agenda F A D) = b
  induction rs generalizing b with
  | nil => simp [addAll]
  | cons r rs ih =>
    rw [addAll_cons, ih]
    by_cases hr : r.type = ty
    · have hcons : (b.add r).args ty = r.arg ::ₘ b.args ty := by simp [args, add, entry, hr]
      rw [hcons, List.filter_cons_of_pos (by simpa using hr), List.map_cons, ← Multiset.cons_coe, Multiset.cons_add,
        Multiset.add_cons]
    · have hsame : (b.add r).args ty = b.args ty := by simp [args, add, entry, hr]
      rw [hsame, List.filter_cons_of_neg (by simpa using hr)]

theorem args_of_cons {a : Agenda F A D} [DecidableEq A] {p : PendingInterrupt F A}
    {rest : Multiset (PendingInterrupt F A)} (hp : a.pending = p ::ₘ rest) (ty : IntType) :
    ((rest.filter fun q => q.type = ty).map fun q => q.arg)
      = if ty = p.type then (a.args ty).erase p.arg else a.args ty := by
  by_cases hty : ty = p.type
  · simp [args, hp, hty]
  · simp [args, hp, hty, Ne.symm hty]

end Args

/-- The interrupts to come are those that the devices wait for. -/
structure OnBoard (a : Agenda DeviceHandler Nat Board) : Prop where
  ok : a.world.Ok
  types : ∀ p ∈ a.pending, p.type = p.handler.type
  args : ∀ ty, a.args ty = Multiset.ofList (a.world.awaits ty)

variable {a a' : Agenda DeviceHandler Nat Board}

/-- A call or a handler, `left` being what it finds. -/
theorem onBoard_request {left : IntType → List Nat} {rs : List (Request DeviceHandler Nat)} {d₀ d : Board}
    (hm : Board.Moves d₀ left rs d) (htypes : ∀ p ∈ a.pending, p.type = p.handler.type)
    (hleft : ∀ ty, a.args ty = Multiset.ofList (left ty)) : (a.request d rs).OnBoard where
  ok := by
    rw [world_request]
    exact hm.ok
  types p hp := by
    rcases mem_request hp with hp | ⟨r, hr, hhandler, htype, -⟩
    · exact htypes p hp
    · rw [htype, hhandler]
      exact hm.types r hr
  args ty := by
    rw [args_request, world_request, hleft, hm.awaits, ← Multiset.coe_add]
    rfl

/-- The number of an interrupt to come is one that its device waits for. -/
theorem OnBoard.mem_awaits (h : a.OnBoard) {p : PendingInterrupt DeviceHandler Nat} (hp : p ∈ a.pending) :
    p.arg ∈ a.world.awaits p.type := by
  have hmem : p.arg ∈ a.args p.type := Multiset.mem_map_of_mem _ (Multiset.mem_filter.mpr ⟨hp, rfl⟩)
  rw [h.args] at hmem
  exact hmem

/-- **Step lemma.** -/
theorem Step.onBoard (hs : Step boardDevices boardCalls a a') (h : a.OnBoard) : a'.OnBoard := by
  cases hs with
  | call hcall hlater => exact onBoard_request (boardCalls_moves h.ok hcall) h.types h.args
  | tick hpos hle hdue | skip hp hfirst hlater => exact ⟨h.ok, h.types, h.args⟩
  | @fire p rest hp hfirst hdue hlater =>
    obtain ⟨hpend, hrest⟩ := mem_of_cons hp
    have htype := h.types p hpend
    have hmem := h.mem_awaits hpend
    rw [htype] at hmem
    refine onBoard_request (boardDevices_moves h.ok hmem a.now) (fun q hq => h.types q (hrest q hq)) fun ty => ?_
    refine (args_of_cons hp ty).trans ?_
    rw [Board.without, htype, h.args]
    split
    · exact Multiset.coe_erase _ _
    · rfl

/-- **Run lemma.** -/
theorem onBoard_of_reach (h : (agenda boardDevices boardCalls Board.Start).Reach a) : a.OnBoard := by
  refine h.invariant (I := OnBoard) (fun a hinit => ?_) fun a _ a' _ hold hs => Step.onBoard hs hold
  obtain ⟨-, -, hpending, -, htimer, hconsole, hdrive, hcard, hnotices⟩ := hinit
  refine ⟨⟨⟨?_, ?_, ?_⟩, fun ty k hk => ?_⟩, fun p hp => ?_, fun ty => ?_⟩
  · rw [hconsole]
    exact fun c hc => by cases hc
  · rw [hdrive]
    exact fun v hv => by cases hv
  · rw [hcard]
    exact fun c hc => by cases hc
  · cases ty <;> simp [htimer, hconsole, hdrive, hcard, hnotices]
  · rw [hpending] at hp
    exact absurd hp (Multiset.notMem_zero p)
  · rw [args, hpending]
    cases ty <;> simp [htimer, hconsole, hdrive, hcard]

end Agenda

section Machine

variable {s : Hardware DeviceHandler Nat Board} {xs : List (Int × PendingInterrupt DeviceHandler Nat)}

/-- The interrupts that are pending in the machine. -/
theorem board_pending (h : boardSys.Reach s) :
    ∃ xs, s.interrupt.Timed xs ∧ (s.agendaOf xs).OnBoard ∧ (s.agendaOf xs).Within 0 ∧
      (agenda boardDevices boardCalls Board.Start).Reach (s.agendaOf xs) := by
  obtain ⟨xs, honAgenda, hwithin, -⟩ := Hardware.machine_reaches_agenda boardDevices_positive h
  exact ⟨xs, honAgenda.timed, Agenda.onBoard_of_reach honAgenda.reach, hwithin, honAgenda.reach⟩

/-- The pending interrupts of a type, by their numbers. -/
def pendingArgs {F A : Type} (xs : List (Int × PendingInterrupt F A)) (ty : IntType) : List A :=
  (xs.filter fun x => x.2.type = ty).map fun x => x.2.arg

theorem pendingArgs_eq_nil {F A : Type} {xs : List (Int × PendingInterrupt F A)} {ty : IntType} :
    pendingArgs xs ty = [] ↔ ∀ x ∈ xs, x.2.type ≠ ty := by
  simp [pendingArgs]

theorem Agenda.OnBoard.pendingArgs_perm (h : (s.agendaOf xs).OnBoard) (ty : IntType) :
    (pendingArgs xs ty).Perm (s.world.awaits ty) := by
  have hargs := h.args ty
  rw [← Multiset.coe_eq_coe]
  refine Eq.trans ?_ hargs
  simp only [Agenda.args, Hardware.agendaOf, Interrupt.agendaOf, pendingArgs, Multiset.filter_coe, Multiset.map_coe,
    List.filter_map, List.map_map]
  rfl

/-- A device waits exactly if an interrupt is pending. -/
theorem Agenda.OnBoard.exists_pending (h : (s.agendaOf xs).OnBoard) (ty : IntType) :
    (∃ x ∈ xs, x.2.type = ty) ↔ 0 < (s.world.awaits ty).length := by
  rw [← (h.pendingArgs_perm ty).length_eq, List.length_pos_iff, Ne, pendingArgs_eq_nil]
  push Not
  rfl

/-- `CheckPktAvail` passes its `ASSERT`. -/
theorem Network.checkPktAvail_isSome {network : Network} {packet : Option Bytes}
    (h : ∀ p, packet = some p → Addressed network.ident p) : (network.checkPktAvail packet).isSome := by
  unfold checkPktAvail
  split
  · rfl
  · cases packet with
    | none => rfl
    | some p =>
      have hp : (Header.load p 0).to_ = network.ident ∧ (Header.load p 0).length.toNat ≤ maxPacketSize := h p rfl
      simp only [if_pos hp]
      rfl

/-- **Every device gets the interrupts it waits for, and no others.**  In every run the pending interrupts are, for
    each type: one poll if there is the device, or one for every request that is not done.  The display is
    busy and the disk active exactly as long as an interrupt is pending that ends it; of the requests of
    the display, of the disk and of the network, the kernel was told once for each that is not pending. -/
theorem device_interrupts (h : boardSys.Reach s) :
    ∃ xs, s.interrupt.pending.Represents xs ∧ (∀ ty, (pendingArgs xs ty).Perm (s.world.awaits ty)) ∧
      (∀ c, s.world.console = some c → (c.display.putBusy = true ↔ ∃ x ∈ xs, x.2.type = .consoleWriteInt)) ∧
      (∀ v, s.world.drive = some v → (v.disk.active = true ↔ ∃ x ∈ xs, x.2.type = .diskInt)) ∧
      (∀ c, s.world.card = some c → (c.network.checkPktAvail c.socket.head?).isSome) ∧
      ∀ ty k, IntType.notice ty = some k →
        s.world.issued ty = s.world.notices.count k + (pendingArgs xs ty).length := by
  obtain ⟨xs, htimed, hboard, -, -⟩ := board_pending h
  refine ⟨xs, htimed.pending, hboard.pendingArgs_perm, fun c hc => ?_, fun v hv => ?_, fun c hc => ?_,
    fun ty k hk => ?_⟩
  · have hone := hboard.ok.display c hc
    have hawaits : s.world.awaits .consoleWriteInt = c.display.pending := by simp [hc]
    rw [hboard.exists_pending, hawaits, hone]
    cases c.display.putBusy <;> decide
  · have hone := hboard.ok.disk v hv
    have hawaits : s.world.awaits .diskInt = v.disk.pending := by simp [hv]
    rw [hboard.exists_pending, hawaits, hone]
    cases v.disk.active <;> decide
  · exact Network.checkPktAvail_isSome fun p hp => hboard.ok.socket c hc p (List.mem_of_mem_head? hp)
  · rw [(hboard.pendingArgs_perm ty).length_eq]
    exact hboard.ok.counted ty k hk

end Machine

/-- A machine before `Initialize`. -/
def boardInit : Hardware DeviceHandler Nat Board := ⟨.new, ⟨fun _ => 0, none, none, none, none, []⟩, false⟩

/-- An action with at most five rounds of the loops. -/
def boardStep (s : Hardware DeviceHandler Nat Board) (a : MachineAct BoardCall) :
    Option (Hardware DeviceHandler Nat Board) :=
  if s.halted = false then machineStep boardDevices boardCalls 5 s a else none

theorem boardStep_reach (as : List (MachineAct BoardCall)) : boardSys.Reach (Lts.replay boardStep boardInit as) := by
  have hinit : boardSys.Reach boardInit := .init ⟨rfl, ⟨rfl, rfl, rfl, rfl, rfl⟩, rfl⟩
  refine Lts.reach_replay (fun s a s' h => ?_) hinit as
  unfold boardStep at h
  split at h
  · rename_i hrun
    exact ⟨hrun, 5, h⟩
  · cases h

/-- A character was put and sector 0 is being read: the display is free again, the disk is active. -/
theorem device_interrupts_reading :
    let s := Lts.replay boardStep boardInit [.call (.newTimer false), .setLevel .intOn, .call .newConsole,
      .call (.newDisk fun _ => 0), .setLevel .intOff, .call (.diskRequest (.read 0)), .call (.putChar 1 65), .idle,
      .idle]
    s.world.notices = [.writeDone] ∧ s.interrupt.stats.totalTicks = 110 ∧
      ∃ xs, s.interrupt.pending.Represents xs ∧ (pendingArgs xs .diskInt).Perm [0] ∧
        (pendingArgs xs .consoleWriteInt).Perm [] := by
  intro s
  obtain ⟨xs, hrep, hperm, -⟩ := device_interrupts (s := s) (boardStep_reach _)
  exact ⟨by decide, by decide, xs, hrep, hperm .diskInt, hperm .consoleWriteInt⟩

end Nachos
