/-
  `network/post.cc`: mail between two machines.

  On one machine threads call `Send`; on the other the postal worker, a thread that never returns from
  `PostalDelivery`, waits for packets and puts them into mail boxes, and threads call `Receive`.  A mail
  box is a `SynchList`, used as it is (`boxHost`).  Between the machines there is a socket that keeps
  the order and may lose packets; so may `Network::Send` itself.

  A MESSAGE is what matters of a packet: both headers, and as many bytes as the mail header says.  It is
  the same message in the caller's hands, in the buffer of `Send`, on the wire, in the inbox, in the
  worker's buffer, in the `Mail` on the list and in the receiver's hands, although none of these has the
  same bytes around it.

  The points carry the local variables of the code.  `PostStep` says once what every step does; that
  every step of the service is one of these is `postStep_of_step`.
-/
import Nachos.Machine.Network
import Nachos.Threads.SynchList

namespace Nachos

/-! ## Messages -/

/-- `MaxMailSize`. -/
def maxMailSize : Nat := maxPacketSize - headerSize

/-- `class Mail`. -/
structure Mail where
  pktHdr : PacketHeader
  mailHdr : MailHeader
  data : Bytes

/-- `Mail::Mail(pktH, mailH, buffer + a)`; `data` is what the new object has in its `data`. -/
def Mail.new (pktH : PacketHeader) (mailH : MailHeader) (buffer : Bytes) (a : Nat) (data : Bytes) :
    Option Mail :=
  if mailH.length.toNat ≤ maxMailSize then
    some ⟨pktH, mailH, bcopy buffer a data 0 mailH.length.toNat⟩
  else none

/-- A message: the two headers, and the bytes. -/
structure Message where
  pktHdr : PacketHeader
  mailHdr : MailHeader
  data : List UInt8
  deriving DecidableEq

/-- The message with its headers apart from the bytes, as in a call of `Send` and in a `Mail`. -/
def Message.of (pktHdr : PacketHeader) (mailHdr : MailHeader) (data : Bytes) : Message :=
  ⟨pktHdr, mailHdr, slice data 0 mailHdr.length.toNat⟩

/-- The message with the mail header in front of the bytes, as in the inbox and in the buffers of
    `Send` and `PostalDelivery`. -/
def Message.inBuffer (pktHdr : PacketHeader) (buffer : Bytes) : Message :=
  ⟨pktHdr, Header.load buffer 0, slice buffer headerSize (Header.load buffer 0).length.toNat⟩

/-- The message with both headers in front of the bytes, as on the wire. -/
def Message.onWire (packet : Bytes) : Message :=
  .inBuffer (Header.load packet 0) fun i => packet (headerSize + i)

/-- The message of a `Mail`. -/
def Mail.message (m : Mail) : Message := .of m.pktHdr m.mailHdr m.data

/-! ## The code -/

/-- The two machines: their addresses and numbers of mail boxes. -/
structure PostConfig where
  netAddr : BitVec 32
  numBoxes : Int
  farAddr : BitVec 32
  farBoxes : Int

/-- The operations; `data` of `receive` is the caller's buffer. -/
inductive PostOp where
  | send (pktHdr : PacketHeader) (mailHdr : MailHeader) (data : Bytes)
  | receive (box : BitVec 32) (data : Bytes)
  | postalDelivery

/-- What they return. -/
inductive PostAns where
  | sent
  | received (pktHdr : PacketHeader) (mailHdr : MailHeader) (data : Bytes)

/-- The lock of the sender, and the locks of the mail boxes. -/
inductive PostLock where
  | sendLock
  | box (b : Nat)
  deriving DecidableEq

inductive PostSem where
  | messageAvailable
  | messageSent
  deriving DecidableEq

/-- The interrupts of the two network devices, and the loss of a packet on the wire. -/
inductive PostIntr where
  | checkPktAvail (pollSocket : Bool)
  | sendDone (k : Nat)
  | drop (i : Nat)

/-- Who uses a mail box: `MailBox::Get` with the caller's buffer, or `MailBox::Put` with the worker's. -/
inductive BoxUser where
  | get (data : Bytes)
  | put (buffer : Bytes)

/-- The points of `Send`, `Receive` and `PostalDelivery`, with their local variables. -/
inductive PostPt where
  | sendStart (pktHdr : PacketHeader) (mailHdr : MailHeader) (data : Bytes)
  | sendAcquire (pktHdr : PacketHeader) (mailHdr : MailHeader) (data buffer : Bytes)
  | netSend (pktHdr : PacketHeader) (mailHdr : MailHeader) (data buffer : Bytes)
  | sendP (k : Nat)
  | sendRelease (k : Nat)
  | sendDone
  | receiveStart (box : BitVec 32) (data : Bytes)
  | gotMail (b : Nat) (data : Bytes) (mail : Option Mail)
  | received (b : Nat) (pktHdr : PacketHeader) (mailHdr : MailHeader) (data : Bytes)
  | deliveryStart
  | deliveryP (buffer : Bytes)
  | netReceive (buffer : Bytes)
  | deliver (pktHdr : PacketHeader) (buffer : Bytes)
  | box (b : Nat) (user : BoxUser) (pt : ListPt (Option Mail))

/-- The state of both machines and the wire between them.  `lost` says of each packet whether
    `Network::Send` loses it, `fresh` what each newly allocated buffer has in it.  `sent` and `accepted`
    are history. -/
structure PostData where
  near : Network
  far : Network
  wire : List Bytes
  boxes : Nat → ListData (Option Mail)
  lost : Nat → Bool
  fresh : Nat → Bytes
  allocs : Nat
  sent : List Message
  accepted : List Message

namespace PostData

/-- `network->Send(pktHdr, buffer)` on the near machine.  A packet for another machine does not go to
    the far one. -/
def netSend (cfg : PostConfig) (d : PostData) (pktHdr : PacketHeader) (mailHdr : MailHeader)
    (data buffer : Bytes) : Option PostData :=
  (d.near.send (d.lost d.near.sends) (d.fresh d.allocs) pktHdr buffer).map fun r =>
    { d with
      near := r.1
      wire := d.wire ++ if pktHdr.to_ = cfg.farAddr then r.2.toList else []
      allocs := d.allocs + 1
      sent := d.sent ++ [.of pktHdr mailHdr data] }

/-- `Network::CheckPktAvail` on the far machine. -/
def checkPktAvail (d : PostData) (pollSocket : Bool) : Option (Option PostSem × PostData) :=
  let packet := if pollSocket then d.wire.head? else none
  (d.far.checkPktAvail packet).map fun r =>
    if r.1 then
      (some .messageAvailable, { d with
        far := r.2
        wire := d.wire.tail
        accepted := d.accepted ++ (packet.map Message.onWire).toList })
    else (none, { d with far := r.2 })

end PostData

/-- Where the code goes on after `messages->Append` or `messages->Remove`. -/
def BoxUser.next (b : Nat) : BoxUser → Option (Option Mail) → PostPt
  | .get data, answer => .gotMail b data (answer.getD none)
  | .put buffer, _ => .deliveryP buffer

/-- The list of mail box `b` in the post office. -/
def boxHost (b : Nat) (user : BoxUser) : SvcHost (Option (Option Mail)) Unit Unit Empty
    (ListData (Option Mail)) (ListPt (Option Mail)) PostLock Nat PostSem PostData PostPt where
  lock _ := .box b
  cond _ := b
  sem := nofun
  get d := d.boxes b
  set d l := { d with boxes := Function.update d.boxes b l }
  pt := .box b user
  ret := user.next b

/-- The code. -/
def postOfficeCode (cfg : PostConfig) (t : Tid) :
    PostPt → SvcAct PostAns PostLock Nat PostSem PostData PostPt
  -- PostOffice::Send
  | .sendStart pktHdr mailHdr data => .tau fun d =>
      if mailHdr.length.toNat ≤ maxMailSize ∧ 0 ≤ mailHdr.to_.toInt ∧
          mailHdr.to_.toInt < cfg.numBoxes then
        some ({ d with allocs := d.allocs + 1 }, .sendAcquire
          { pktHdr with
            from_ := cfg.netAddr
            length := mailHdr.length + BitVec.ofNat 32 headerSize }
          mailHdr data (mailHdr.enclose (d.fresh d.allocs) data))
      else none
  | .sendAcquire pktHdr mailHdr data buffer => .acquire .sendLock (.netSend pktHdr mailHdr data buffer)
  | .netSend pktHdr mailHdr data buffer => .tau fun d =>
      (d.netSend cfg pktHdr mailHdr data buffer).map fun d' => (d', .sendP d.near.sends)
  | .sendP k => .P .messageSent (.sendRelease k)
  | .sendRelease _ => .release .sendLock .sendDone
  | .sendDone => .ret .sent
  -- PostOffice::Receive, with MailBox::Get
  | .receiveStart box data => .tau fun d =>
      if 0 ≤ box.toInt ∧ box.toInt < cfg.farBoxes then
        some (d, .box box.toInt.toNat (.get data) .removeAcquire)
      else none
  | .gotMail b data mail => .tau fun d =>
      match mail with
      | none => none
      | some mail =>
        if mail.mailHdr.length.toNat ≤ maxMailSize then
          some (d, .received b mail.pktHdr mail.mailHdr
            (bcopy mail.data 0 data 0 mail.mailHdr.length.toNat))
        else none
  | .received _ pktHdr mailHdr data => .ret (.received pktHdr mailHdr data)
  -- PostOffice::PostalDelivery, with MailBox::Put
  | .deliveryStart => .tau fun d =>
      some ({ d with allocs := d.allocs + 1 }, .deliveryP (d.fresh d.allocs))
  | .deliveryP buffer => .P .messageAvailable (.netReceive buffer)
  | .netReceive buffer => .tau fun d =>
      let (pktHdr, buffer, far) := d.far.receive buffer
      some ({ d with far := far }, .deliver pktHdr buffer)
  | .deliver pktHdr buffer => .tau fun d =>
      let mailHdr := Header.load buffer 0
      if 0 ≤ mailHdr.to_.toInt ∧ mailHdr.to_.toInt < cfg.farBoxes ∧
          mailHdr.length.toNat ≤ maxMailSize then
        (Mail.new pktHdr mailHdr buffer headerSize (d.fresh d.allocs)).map fun mail =>
          ({ d with allocs := d.allocs + 1 },
            .box mailHdr.to_.toInt.toNat (.put buffer) (.appendAcquire (some mail)))
      else none
  -- SynchList::Append and SynchList::Remove
  | .box b user pt => (synchListCode t pt).within (boxHost b user)

/-- Both machines as their constructors leave them. -/
structure PostBoot (cfg : PostConfig) (d : PostData) : Prop where
  near : d.near.New cfg.netAddr
  far : d.far.New cfg.farAddr
  wire : d.wire = []
  boxes : d.boxes = fun _ => ⟨[], [], []⟩
  sent : d.sent = []
  accepted : d.accepted = []

/-- The two post offices. -/
def postOffice (cfg : PostConfig) : Service PostOp PostAns PostLock Nat PostSem PostIntr PostData
    PostPt where
  lockOf := .box
  initial _ := 0
  boot := PostBoot cfg
  entry
    | .send pktHdr mailHdr data => .sendStart pktHdr mailHdr data
    | .receive box data => .receiveStart box data
    | .postalDelivery => .deliveryStart
  code := postOfficeCode cfg
  handler
    | .checkPktAvail pollSocket, d => d.checkPktAvail pollSocket
    | .sendDone k, d => (d.near.sendDone k).map fun n => (some .messageSent, { d with near := n })
    | .drop i, d => some (none, { d with wire := d.wire.eraseIdx i })

/-! ## The locks -/

/-- The locks held at a point. -/
def PostPt.held : PostPt → PostLock → Prop
  | .netSend _ _ _ _, l => l = .sendLock
  | .sendP _, l => l = .sendLock
  | .sendRelease _, l => l = .sendLock
  | .box b _ pt, l => l = .box b ∧ pt.locked = true
  | _, _ => False

/-- After its use of a mail box a thread holds no lock. -/
theorem BoxUser.not_held_next (b : Nat) (user : BoxUser) (answer : Option (Option Mail))
    (l : PostLock) : ¬ (user.next b answer).held l := by
  cases user <;> exact id

theorem postOffice_disciplined (cfg : PostConfig) : (postOffice cfg).Disciplined PostPt.held where
  entry o l := by cases o <;> exact id
  acquire := by
    intro t pt l k hcode
    replace hcode : postOfficeCode cfg t pt = .acquire l k := hcode
    cases pt with
    | sendAcquire pktHdr mailHdr data buffer =>
      cases hcode
      exact ⟨id, fun l' => (false_or _).symm ▸ Iff.rfl⟩
    | box b user pt =>
      obtain ⟨l', k', hl, rfl, rfl⟩ := SvcAct.of_within_acquire hcode
      obtain ⟨hnot, hiff⟩ := synchList_disciplined.acquire hl
      have hlocked : k'.locked = true := (hiff l').mpr (Or.inr rfl)
      refine ⟨fun hheld => hnot hheld.2, fun l'' => ?_⟩
      constructor
      · exact fun hheld => Or.inr hheld.1
      · rintro (hheld | rfl)
        · exact ⟨hheld.1, hlocked⟩
        · exact ⟨rfl, hlocked⟩
    | _ => cases hcode
  release := by
    intro t pt l k hcode
    replace hcode : postOfficeCode cfg t pt = .release l k := hcode
    cases pt with
    | sendRelease n =>
      cases hcode
      refine ⟨rfl, fun l' => ⟨False.elim, fun hheld => hheld.2 hheld.1⟩⟩
    | box b user pt =>
      obtain ⟨l', k', hl, rfl, rfl⟩ := SvcAct.of_within_release hcode
      obtain ⟨hheld, hiff⟩ := synchList_disciplined.release hl
      have hlocked : ¬ k'.locked = true := fun hk => ((hiff l').mp hk).2 rfl
      refine ⟨⟨rfl, hheld⟩, fun l'' => ?_⟩
      constructor
      · exact fun hk => absurd hk.2 hlocked
      · exact fun hk => absurd hk.1.1 hk.2
    | _ => cases hcode
  keeps := by
    intro t pt k hkeeps l
    replace hkeeps : (postOfficeCode cfg t pt).Keeps k := hkeeps
    cases pt with
    | sendStart pktHdr mailHdr data =>
      cases hkeeps with
      | tau hf =>
        split at hf
        · obtain ⟨-, rfl⟩ := Prod.mk.inj (Option.some.inj hf)
          exact Iff.rfl
        · cases hf
    | netSend pktHdr mailHdr data buffer =>
      cases hkeeps with
      | tau hf =>
        obtain ⟨d', -, heq⟩ := Option.map_eq_some_iff.mp hf
        obtain ⟨-, rfl⟩ := Prod.mk.inj heq
        exact Iff.rfl
    | sendP n =>
      cases hkeeps
      exact Iff.rfl
    | receiveStart box data =>
      cases hkeeps with
      | tau hf =>
        split at hf
        · obtain ⟨-, rfl⟩ := Prod.mk.inj (Option.some.inj hf)
          exact iff_of_false (fun hheld => Bool.false_ne_true hheld.2) id
        · cases hf
    | gotMail b data mail =>
      cases hkeeps with
      | tau hf =>
        cases mail with
        | none => cases hf
        | some mail =>
          simp only at hf
          split at hf
          · obtain ⟨-, rfl⟩ := Prod.mk.inj (Option.some.inj hf)
            exact Iff.rfl
          · cases hf
    | deliveryStart =>
      obtain ⟨-, rfl⟩ := SvcAct.Keeps.of_some hkeeps
      exact Iff.rfl
    | deliveryP buffer =>
      cases hkeeps
      exact Iff.rfl
    | netReceive buffer =>
      obtain ⟨-, rfl⟩ := SvcAct.Keeps.of_some hkeeps
      exact Iff.rfl
    | deliver pktHdr buffer =>
      cases hkeeps with
      | tau hf =>
        simp only at hf
        split at hf
        · obtain ⟨mail, -, heq⟩ := Option.map_eq_some_iff.mp hf
          obtain ⟨-, rfl⟩ := Prod.mk.inj heq
          exact iff_of_false (fun hheld => Bool.false_ne_true hheld.2) id
        · cases hf
    | box b user pt =>
      rcases SvcAct.Keeps.of_within hkeeps with ⟨k', hk, rfl⟩ | ⟨x, hx, rfl⟩
      · have hiff := synchList_disciplined.keeps hk ()
        exact and_congr_right fun _ => hiff
      · have hnot := synchList_disciplined.ret hx ()
        exact iff_of_false (user.not_held_next b x l) fun hheld => hnot hheld.2
    | _ => cases hkeeps
  ret := by
    intro t pt a hcode l
    replace hcode : postOfficeCode cfg t pt = .ret a := hcode
    cases pt with
    | sendDone => exact id
    | received b pktHdr mailHdr data => exact id
    | box b user pt => exact absurd hcode (SvcAct.within_ne_ret a)
    | _ => cases hcode

/-! ## The steps, one by one -/

/-- What the service sees. -/
abbrev PostView := SvcView PostSem PostData PostPt

/-- The point of the list of box `b` that a point of the post office is in. -/
def PostPt.inBox (b : Nat) : Option PostPt → Option (ListPt (Option Mail))
  | some (.box b' _ pt) => if b' = b then some pt else none
  | _ => none

/-- What mail box `b` sees: who is at which point of its list, and the list. -/
def boxView (b : Nat) (v : PostView) :
    SvcView Empty (ListData (Option Mail)) (ListPt (Option Mail)) where
  pts t := PostPt.inBox b (v.pts t)
  dev := v.dev.boxes b
  val := nofun

/-- The steps of the post offices. -/
inductive PostStep (cfg : PostConfig) (calls : Tid → PostOp → Prop) (v : PostView) : PostView → Prop where
  | enter {t : Tid} {o : PostOp} (ht : v.pts t = none) (hcalls : calls t o) :
      PostStep cfg calls v (v.goto t (some ((postOffice cfg).entry o)))
  | sendStart {t : Tid} {pktHdr : PacketHeader} {mailHdr : MailHeader} {data : Bytes}
      (ht : v.pts t = some (.sendStart pktHdr mailHdr data))
      (hlength : mailHdr.length.toNat ≤ maxMailSize) :
      PostStep cfg calls v ((v.withDev { v.dev with allocs := v.dev.allocs + 1 }).goto t
        (some (.sendAcquire
          { pktHdr with
            from_ := cfg.netAddr
            length := mailHdr.length + BitVec.ofNat 32 headerSize }
          mailHdr data (mailHdr.enclose (v.dev.fresh v.dev.allocs) data))))
  | sendAcquire {t : Tid} {pktHdr : PacketHeader} {mailHdr : MailHeader} {data buffer : Bytes}
      (ht : v.pts t = some (.sendAcquire pktHdr mailHdr data buffer)) :
      PostStep cfg calls v (v.goto t (some (.netSend pktHdr mailHdr data buffer)))
  | netSend {t : Tid} {pktHdr : PacketHeader} {mailHdr : MailHeader} {data buffer : Bytes}
      {d : PostData} (ht : v.pts t = some (.netSend pktHdr mailHdr data buffer))
      (hd : v.dev.netSend cfg pktHdr mailHdr data buffer = some d) :
      PostStep cfg calls v ((v.withDev d).goto t (some (.sendP v.dev.near.sends)))
  | sendP {t : Tid} {k : Nat} (ht : v.pts t = some (.sendP k)) :
      PostStep cfg calls v ((v.add .messageSent (-1)).goto t (some (.sendRelease k)))
  | sendRelease {t : Tid} {k : Nat} (ht : v.pts t = some (.sendRelease k)) :
      PostStep cfg calls v (v.goto t (some .sendDone))
  | sendDone {t : Tid} (ht : v.pts t = some .sendDone) : PostStep cfg calls v (v.goto t none)
  | receiveStart {t : Tid} {b : Nat} {box : BitVec 32} {data : Bytes}
      (ht : v.pts t = some (.receiveStart box data)) :
      PostStep cfg calls v (v.goto t (some (.box b (.get data) .removeAcquire)))
  | gotMail {t : Tid} {b : Nat} {data : Bytes} {mail : Mail}
      (ht : v.pts t = some (.gotMail b data (some mail))) :
      PostStep cfg calls v (v.goto t (some (.received b mail.pktHdr mail.mailHdr
        (bcopy mail.data 0 data 0 mail.mailHdr.length.toNat))))
  | received {t : Tid} {b : Nat} {pktHdr : PacketHeader} {mailHdr : MailHeader} {data : Bytes}
      (ht : v.pts t = some (.received b pktHdr mailHdr data)) : PostStep cfg calls v (v.goto t none)
  | deliveryStart {t : Tid} (ht : v.pts t = some .deliveryStart) :
      PostStep cfg calls v ((v.withDev { v.dev with allocs := v.dev.allocs + 1 }).goto t
        (some (.deliveryP (v.dev.fresh v.dev.allocs))))
  | deliveryP {t : Tid} {buffer : Bytes} (ht : v.pts t = some (.deliveryP buffer))
      (hv : v.val .messageAvailable ≠ 0) :
      PostStep cfg calls v ((v.add .messageAvailable (-1)).goto t (some (.netReceive buffer)))
  | netReceive {t : Tid} {buffer : Bytes} (ht : v.pts t = some (.netReceive buffer)) :
      PostStep cfg calls v ((v.withDev { v.dev with far := (v.dev.far.receive buffer).2.2 }).goto t
        (some (.deliver (v.dev.far.receive buffer).1 (v.dev.far.receive buffer).2.1)))
  | deliver {t : Tid} {pktHdr : PacketHeader} {buffer : Bytes} {mail : Mail}
      (ht : v.pts t = some (.deliver pktHdr buffer))
      (hmail : Mail.new pktHdr (Header.load buffer 0) buffer headerSize (v.dev.fresh v.dev.allocs)
        = some mail) :
      PostStep cfg calls v ((v.withDev { v.dev with allocs := v.dev.allocs + 1 }).goto t
        (some (.box (Header.load buffer 0).to_.toInt.toNat (.put buffer) (.appendAcquire (some mail)))))
  | boxCall {t : Tid} {b : Nat} {user : BoxUser} {pt k : ListPt (Option Mail)}
      (ht : v.pts t = some (.box b user pt)) (htarget : (synchListCode t pt).target = some k) :
      PostStep cfg calls v (v.goto t (some (.box b user k)))
  | boxTau {t : Tid} {b : Nat} {user : BoxUser} {pt k : ListPt (Option Mail)}
      {g : ListData (Option Mail) → Option (ListData (Option Mail) × ListPt (Option Mail))}
      {l : ListData (Option Mail)} (ht : v.pts t = some (.box b user pt))
      (hcode : synchListCode t pt = .tau g) (hg : g (v.dev.boxes b) = some (l, k))
      (halone : (synchList (Option Mail)).Alone (fun pt _ => pt.locked = true) (boxView b v) t pt) :
      PostStep cfg calls v
        ((v.withDev { v.dev with boxes := Function.update v.dev.boxes b l }).goto t
          (some (.box b user k)))
  | boxRet {t : Tid} {b : Nat} {user : BoxUser} {answer : Option (Option Mail)}
      (ht : v.pts t = some (.box b user (.done answer))) :
      PostStep cfg calls v (v.goto t (some (user.next b answer)))
  | accept {packet : Bytes} {rest : List Bytes} {far : Network} (hwire : v.dev.wire = packet :: rest)
      (hfar : v.dev.far.checkPktAvail (some packet) = some (true, far)) :
      PostStep cfg calls v ((v.add .messageAvailable 1).withDev { v.dev with
        far := far
        wire := rest
        accepted := v.dev.accepted ++ [.onWire packet] })
  | idle : PostStep cfg calls v v
  | packetSent {n : Network} : PostStep cfg calls v
      ((v.add .messageSent 1).withDev { v.dev with near := n })
  | drop (i : Nat) : PostStep cfg calls v
      (v.withDev { v.dev with wire := v.dev.wire.eraseIdx i })

/-- `CheckPktAvail` accepts a packet exactly if it tells the post office. -/
theorem Network.checkPktAvail_false {n n' : Network} {packet : Option Bytes}
    (h : n.checkPktAvail packet = some (false, n')) : n' = n := by
  unfold Network.checkPktAvail at h
  split at h
  · exact (Prod.mk.inj (Option.some.inj h)).2.symm
  · split at h
    · exact (Prod.mk.inj (Option.some.inj h)).2.symm
    · simp only at h
      split at h
      · cases (Prod.mk.inj (Option.some.inj h)).1
      · cases h

theorem Network.checkPktAvail_true {n n' : Network} {packet : Option Bytes}
    (h : n.checkPktAvail packet = some (true, n')) : ∃ buffer, packet = some buffer ∧
      n.inHdr.length = 0 ∧ n' = { n with
        inHdr := Header.load buffer 0
        inbox := bcopy buffer headerSize n.inbox 0 (Header.load buffer 0).length.toNat } := by
  unfold Network.checkPktAvail at h
  split at h
  · cases (Prod.mk.inj (Option.some.inj h)).1
  · rename_i hlength
    split at h
    · cases (Prod.mk.inj (Option.some.inj h)).1
    · rename_i buffer
      simp only at h
      split at h
      · exact ⟨buffer, rfl, Classical.not_not.mp hlength, (Prod.mk.inj (Option.some.inj h)).2.symm⟩
      · cases h

/-- The points of a list that calls do not return to are not returned to in the post office. -/
theorem postOffice_settled {cfg : PostConfig} {b : Nat} {user : BoxUser} {pt : ListPt (Option Mail)}
    (h : (synchList (Option Mail)).Settled pt) : (postOffice cfg).Settled (.box b user pt) := by
  intro t pt' htarget
  replace htarget : (postOfficeCode cfg t pt').target = some (.box b user pt) := htarget
  cases pt' with
  | box b' user' pt' =>
    have hmap : ((synchListCode t pt').within (boxHost b' user') :
        SvcAct PostAns PostLock Nat PostSem PostData PostPt).target = some (.box b user pt) := htarget
    rw [SvcAct.target_within] at hmap
    obtain ⟨k, hk, heq⟩ := Option.map_eq_some_iff.mp hmap
    obtain ⟨-, -, rfl⟩ := PostPt.box.inj heq
    exact h t pt' hk
  | _ => cases htarget

/-- Alone with the lock of a mail box, alone with its list. -/
theorem boxView_alone {cfg : PostConfig} {v : PostView} {t : Tid} {b : Nat} {user : BoxUser}
    {pt : ListPt (Option Mail)} (h : (postOffice cfg).Alone PostPt.held v t (.box b user pt)) :
    (synchList (Option Mail)).Alone (fun pt _ => pt.locked = true) (boxView b v) t pt := by
  intro w pt' l hw hsettled hl hl'
  simp only [boxView, PostPt.inBox] at hw
  split at hw
  · rename_i b' user' q hq
    split at hw
    · rename_i hb
      subst hb
      obtain rfl := Option.some.inj hw
      exact h w _ (.box b') hq (postOffice_settled hsettled) ⟨rfl, hl⟩ ⟨rfl, hl'⟩
    · cases hw
  · cases hw

/-- What the poll of the socket finds is the first packet on the wire. -/
theorem wire_of_polled {wire : List Bytes} {pollSocket : Bool} {packet : Bytes}
    (h : (if pollSocket then wire.head? else none) = some packet) : ∃ rest, wire = packet :: rest := by
  split at h
  · cases wire with
    | nil => cases h
    | cons p rest =>
      obtain rfl := Option.some.inj h
      exact ⟨rest, rfl⟩
  · cases h

section Inversion

variable {cfg : PostConfig} {calls : Tid → PostOp → Prop} {v : PostView}

/-- The code between two calls. -/
theorem postStep_of_tau {t : Tid} {pt k : PostPt} {f : PostData → Option (PostData × PostPt)} {d : PostData}
    (ht : v.pts t = some pt) (hcode : postOfficeCode cfg t pt = .tau f) (hf : f v.dev = some (d, k))
    (halone : (postOffice cfg).Alone PostPt.held v t pt) :
    PostStep cfg calls v ((v.withDev d).goto t (some k)) := by
  cases pt with
  | sendStart pktHdr mailHdr data =>
    cases hcode
    split at hf
    · rename_i hasserts
      obtain ⟨rfl, rfl⟩ := Prod.mk.inj (Option.some.inj hf)
      exact .sendStart ht hasserts.1
    · cases hf
  | netSend pktHdr mailHdr data buffer =>
    cases hcode
    obtain ⟨d', hd, heq⟩ := Option.map_eq_some_iff.mp hf
    obtain ⟨rfl, rfl⟩ := Prod.mk.inj heq
    exact .netSend ht hd
  | receiveStart box data =>
    cases hcode
    split at hf
    · obtain ⟨rfl, rfl⟩ := Prod.mk.inj (Option.some.inj hf)
      exact .receiveStart ht
    · cases hf
  | gotMail b data mail =>
    cases hcode
    cases mail with
    | none => cases hf
    | some mail =>
      simp only at hf
      split at hf
      · obtain ⟨rfl, rfl⟩ := Prod.mk.inj (Option.some.inj hf)
        exact .gotMail ht
      · cases hf
  | deliveryStart =>
    cases hcode
    obtain ⟨rfl, rfl⟩ := Prod.mk.inj (Option.some.inj hf)
    exact .deliveryStart ht
  | netReceive buffer =>
    cases hcode
    obtain ⟨rfl, rfl⟩ := Prod.mk.inj (Option.some.inj hf)
    exact .netReceive ht
  | deliver pktHdr buffer =>
    cases hcode
    simp only at hf
    split at hf
    · obtain ⟨mail, hmail, heq⟩ := Option.map_eq_some_iff.mp hf
      obtain ⟨rfl, rfl⟩ := Prod.mk.inj heq
      exact .deliver ht hmail
    · cases hf
  | box b user pt =>
    rcases SvcAct.of_within_tau hcode hf with ⟨g, l, k', hg, hl, rfl, rfl⟩ | ⟨x, hx, rfl, rfl⟩
    · exact .boxTau ht hg hl (boxView_alone halone)
    · -- only `done` returns
      cases pt with
      | done answer =>
        obtain rfl := SvcAct.ret.inj hx
        exact .boxRet ht
      | _ => cases hx
  | _ => cases hcode

/-- The interrupts that wake a thread. -/
theorem postStep_of_intrV {i : PostIntr} {x : PostSem} {d : PostData}
    (hh : (postOffice cfg).handler i v.dev = some (some x, d)) :
    PostStep cfg calls v ((v.add x 1).withDev d) := by
  cases i with
  | checkPktAvail pollSocket =>
    obtain ⟨⟨told, far⟩, hfar, heq⟩ := Option.map_eq_some_iff.mp hh
    cases told with
    | false => cases (Prod.mk.inj heq).1
    | true =>
      obtain ⟨hx, rfl⟩ := Prod.mk.inj heq
      obtain rfl : PostSem.messageAvailable = x := Option.some.inj hx
      obtain ⟨packet, hpacket, -, -⟩ := Network.checkPktAvail_true hfar
      rw [hpacket] at hfar
      obtain ⟨rest, hwire⟩ := wire_of_polled hpacket
      have htail : v.dev.wire.tail = rest := by rw [hwire]; rfl
      rw [hpacket, htail]
      exact .accept hwire hfar
  | sendDone k =>
    obtain ⟨n, -, heq⟩ := Option.map_eq_some_iff.mp hh
    obtain ⟨hx, rfl⟩ := Prod.mk.inj heq
    obtain rfl : PostSem.messageSent = x := Option.some.inj hx
    exact .packetSent
  | drop i => cases (Prod.mk.inj (Option.some.inj hh)).1

/-- The interrupts that do not. -/
theorem postStep_of_intr {i : PostIntr} {d : PostData} (hh : (postOffice cfg).handler i v.dev = some (none, d)) :
    PostStep cfg calls v (v.withDev d) := by
  cases i with
  | checkPktAvail pollSocket =>
    obtain ⟨⟨told, far⟩, hfar, heq⟩ := Option.map_eq_some_iff.mp hh
    cases told with
    | false =>
      obtain ⟨-, rfl⟩ := Prod.mk.inj heq
      obtain rfl := Network.checkPktAvail_false hfar
      exact .idle
    | true => cases (Prod.mk.inj heq).1
  | sendDone k =>
    obtain ⟨n, -, heq⟩ := Option.map_eq_some_iff.mp hh
    cases (Prod.mk.inj heq).1
  | drop i =>
    obtain ⟨-, rfl⟩ := Prod.mk.inj (Option.some.inj hh)
    exact .drop i

end Inversion

/-- **What a step of the post offices can do.** -/
theorem postStep_of_step {cfg : PostConfig} {calls : Tid → PostOp → Prop} {v v' : PostView}
    {lab : Label PostIntr} (hs : (postOffice cfg).Step PostPt.held calls v lab v') :
    PostStep cfg calls v v' := by
  cases hs with
  | enter ht hcalls => exact .enter ht hcalls
  | @leave t pt a ht hcode =>
    replace hcode : postOfficeCode cfg t pt = .ret a := hcode
    cases pt with
    | sendDone => exact .sendDone ht
    | received b pktHdr mailHdr data => exact .received ht
    | box b user pt => exact absurd hcode (SvcAct.within_ne_ret a)
    | _ => cases hcode
  | @call t pt k ht htarget =>
    replace htarget : (postOfficeCode cfg t pt).target = some k := htarget
    cases pt with
    | sendAcquire pktHdr mailHdr data buffer => cases htarget; exact .sendAcquire ht
    | sendRelease n => cases htarget; exact .sendRelease ht
    | box b user pt =>
      have hmap : ((synchListCode t pt).within (boxHost b user) :
          SvcAct PostAns PostLock Nat PostSem PostData PostPt).target = some k := htarget
      rw [SvcAct.target_within] at hmap
      obtain ⟨k', hk, rfl⟩ := Option.map_eq_some_iff.mp hmap
      exact .boxCall ht hk
    | _ => cases htarget
  | @P t pt k x ht hcode hv halone =>
    replace hcode : postOfficeCode cfg t pt = .P x k := hcode
    cases pt with
    | sendP n => cases hcode; exact .sendP ht
    | deliveryP buffer => cases hcode; exact .deliveryP ht hv
    | box b user pt =>
      obtain ⟨x', -⟩ := SvcAct.of_within_P hcode
      exact x'.elim
    | _ => cases hcode
  | tau ht hcode hf halone => exact postStep_of_tau ht hcode hf halone
  | intrV hh => exact postStep_of_intrV hh
  | intr hh => exact postStep_of_intr hh

end Nachos
