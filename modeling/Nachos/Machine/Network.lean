/-
  `machine/network.cc`: the network device.

  Packets of `MaxWireSize` bytes go out on a UNIX socket and come in on another.  `Send` puts the header
  in front of the data, pads the packet with WHATEVER IS IN MEMORY, and schedules the interrupt that says
  that the next packet can be sent.  `CheckPktAvail` is polled: when the inbox is free and the socket
  has a packet, the packet is taken apart, and the post office is told; `Receive` empties the inbox, by
  setting the length of its header to 0.

  The inbox is not cleared, so what an earlier packet left in it stays behind a shorter one.  That is why
  a packet is not its bytes but the header and as many bytes as the header says.

  `PacketHeader` and `MailHeader` are the same three words: destination, source and length.
-/
import Nachos.Lib.Bytes

namespace Nachos

/-! ## Headers -/

/-- The fields of `PacketHeader` and of `MailHeader`. -/
structure Header where
  to_ : BitVec 32
  from_ : BitVec 32
  length : BitVec 32
  deriving DecidableEq

/-- `class PacketHeader`: the addresses are machines. -/
abbrev PacketHeader := Header

/-- `class MailHeader`: the addresses are mail boxes. -/
abbrev MailHeader := Header

/-- The size of a header. -/
def headerSize : Nat := 12

/-- `MaxWireSize`. -/
def maxWireSize : Nat := 64

/-- `MaxPacketSize`. -/
def maxPacketSize : Nat := maxWireSize - headerSize

namespace Header

/-- A header stored at `a`. -/
def store (h : Header) (b : Bytes) (a : Nat) : Bytes :=
  putWord (putWord (putWord b a h.to_) (a + 4) h.from_) (a + 8) h.length

/-- The header stored at `a`. -/
def load (b : Bytes) (a : Nat) : Header := ⟨getWord b a, getWord b (a + 4), getWord b (a + 8)⟩

theorem load_store (h : Header) (b : Bytes) (a : Nat) : load (h.store b a) a = h := by
  have hto : getWord (h.store b a) a = h.to_ := by
    rw [store, getWord_putWord_of_disjoint (by omega), getWord_putWord_of_disjoint (by omega),
      getWord_putWord]
  have hfrom : getWord (h.store b a) (a + 4) = h.from_ := by
    rw [store, getWord_putWord_of_disjoint (by omega), getWord_putWord]
  have hlength : getWord (h.store b a) (a + 8) = h.length := by
    rw [store, getWord_putWord]
  rw [load, hto, hfrom, hlength]

theorem load_congr {b b' : Bytes} {a a' : Nat} (h : ∀ i < headerSize, b (a + i) = b' (a' + i)) :
    load b a = load b' a' := by
  have hword : ∀ k, k + 4 ≤ headerSize → getWord b (a + k) = getWord b' (a' + k) := by
    intro k hk
    refine getWord_congr fun i hi => ?_
    rw [Nat.add_assoc, Nat.add_assoc]
    exact h (k + i) (by omega)
  have hto : getWord b a = getWord b' a' := hword 0 (by decide)
  rw [load, load, hto, hword 4 (by decide), hword 8 (by decide)]

/-- What both `Send`s build in `buffer`: the header, and behind it as many bytes of `data` as the header
    says. -/
def enclose (hdr : Header) (buffer data : Bytes) : Bytes :=
  bcopy data 0 (hdr.store buffer 0) headerSize hdr.length.toNat

theorem load_enclose (hdr : Header) (buffer data : Bytes) : load (hdr.enclose buffer data) 0 = hdr := by
  have hsame : load (hdr.enclose buffer data) 0 = load (hdr.store buffer 0) 0 := by
    refine load_congr fun i hi => ?_
    exact bcopy_of_lt (by omega)
  rw [hsame, load_store]

theorem enclose_add {hdr : Header} {buffer data : Bytes} {i : Nat} (hi : i < hdr.length.toNat) :
    hdr.enclose buffer data (headerSize + i) = data i := by
  rw [enclose, bcopy_add hi, Nat.zero_add]

end Header

/-! ## The device -/

/-- `class Network`: the address of the machine, the flag of the sender, the inbox; and the interrupts of
    `Send` that are scheduled, numbered like the packets. -/
structure Network where
  ident : BitVec 32
  sendBusy : Bool
  inHdr : PacketHeader
  inbox : Bytes
  sends : Nat
  pending : List Nat

namespace Network

/-- The constructor: of the inbox it initializes the length. -/
structure New (ident : BitVec 32) (n : Network) : Prop where
  ident : n.ident = ident
  sendBusy : n.sendBusy = false
  inHdr : n.inHdr.length = 0
  sends : n.sends = 0
  pending : n.pending = []

/-- The `ASSERT` of `Send`. -/
def sendAsserts (n : Network) (hdr : PacketHeader) : Prop :=
  n.sendBusy = false ∧ 0 < hdr.length.toNat ∧ hdr.length.toNat ≤ maxPacketSize ∧ hdr.from_ = n.ident

instance (n : Network) (hdr : PacketHeader) : Decidable (n.sendAsserts hdr) :=
  inferInstanceAs (Decidable (_ ∧ _ ∧ _ ∧ _))

/-- `Network::Send(hdr, data)`; `lost` is the outcome of `Random() % 100 >= chanceToWork * 100`, and
    `buffer` what the new buffer has in it.  The result has the packet, if one goes out. -/
def send (n : Network) (lost : Bool) (buffer : Bytes) (hdr : PacketHeader) (data : Bytes) :
    Option (Network × Option Bytes) :=
  if n.sendAsserts hdr then
    let scheduled := { n with sends := n.sends + 1, pending := n.pending ++ [n.sends] }
    some (scheduled, if lost then none else some (hdr.enclose buffer data))
  else none

/-- `Network::SendDone`, for packet number `k`. -/
def sendDone (n : Network) (k : Nat) : Option Network :=
  if k ∈ n.pending then some { n with sendBusy := false, pending := n.pending.erase k } else none

/-- `Network::CheckPktAvail`; `packet` is what the socket has to be read, if `PollSocket` says that there
    is something.  The result says whether the post office is told. -/
def checkPktAvail (n : Network) (packet : Option Bytes) : Option (Bool × Network) :=
  if n.inHdr.length ≠ 0 then some (false, n)
  else
    match packet with
    | none => some (false, n)
    | some buffer =>
      let inHdr := Header.load buffer 0
      if inHdr.to_ = n.ident ∧ inHdr.length.toNat ≤ maxPacketSize then
        some (true, { n with
          inHdr := inHdr
          inbox := bcopy buffer headerSize n.inbox 0 inHdr.length.toNat })
      else none

/-- `Network::Receive(data)`: the header, what is in `data` afterwards, and the device. -/
def receive (n : Network) (data : Bytes) : PacketHeader × Bytes × Network :=
  (n.inHdr, if n.inHdr.length ≠ 0 then bcopy n.inbox 0 data 0 n.inHdr.length.toNat else data,
    { n with inHdr := { n.inHdr with length := 0 } })

end Network

end Nachos
