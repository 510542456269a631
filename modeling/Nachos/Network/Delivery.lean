/-
  Mail delivery: what is received is what was sent.

  A message goes from the caller of `Send` over the wire into the inbox of the far machine, into the hands
  of the postal worker, into a mail box, and to the caller of `Receive`.  Nowhere on this way can it be
  changed, doubled or overtaken; it can only be lost on the wire.

  1. **Each box is a queue** — what the service does to one box is a run of `SynchList` (`boxView_step`),
     so the invariant of `SynchList` holds for it.

  2. **The same message everywhere** — the header says how many bytes count, and every copy on the way
     copies at least these (`Sealed.congr`).

  3. **Custody** — a packet that was accepted is in the box it is addressed to, in the worker's hands, or
     in the inbox; and in this order (`PostOk.accepted`).  The semaphore `messageAvailable` counts the
     packets in the inbox, 0 or 1, that the worker has not been told about (`PostOk.takers`).

  4. **The wire** — what was accepted, followed by what is on the wire, is a SUBSEQUENCE of what was sent
     to the other machine (`PostOk.order`).
-/
import Nachos.Lib.Request
import Nachos.Network.PostOffice

namespace Nachos

/-! ## Each mail box is a queue -/

section Boxes

variable {v : PostView} {t : Tid} {b : Nat} {p : Option PostPt}

theorem boxView_pts (b : Nat) (v : PostView) :
    (boxView b v).pts = fun t => PostPt.inBox b (v.pts t) := rfl

theorem boxView_at (h : v.pts t = p) : (boxView b v).pts t = PostPt.inBox b p :=
  congrArg (PostPt.inBox b) h

/-- A thread that moves outside of the lists, or in another list, is not seen. -/
theorem boxView_other (h : PostPt.inBox b p = PostPt.inBox b (v.pts t)) :
    boxView b (v.goto t p) = boxView b v := by
  have hpts : (boxView b (v.goto t p)).pts = (boxView b v).pts := by
    rw [boxView_pts, boxView_pts, SvcView.goto_map, h]
    exact Function.update_eq_self_iff.mpr rfl
  calc boxView b (v.goto t p)
      = { boxView b v with pts := (boxView b (v.goto t p)).pts } := rfl
    _ = boxView b v := by rw [hpts]

/-- A thread that moves in the list. -/
theorem boxView_goto {pt : Option (ListPt (Option Mail))} (h : PostPt.inBox b p = pt) :
    boxView b (v.goto t p) = (boxView b v).goto t pt := by
  have hpts : (boxView b (v.goto t p)).pts = ((boxView b v).goto t pt).pts := by
    rw [boxView_pts, SvcView.goto_map, h]
    rfl
  calc boxView b (v.goto t p)
      = { boxView b v with pts := (boxView b (v.goto t p)).pts } := rfl
    _ = (boxView b v).goto t pt := by rw [hpts]; rfl

theorem inBox_self (b : Nat) (user : BoxUser) (pt : ListPt (Option Mail)) :
    PostPt.inBox b (some (.box b user pt)) = some pt := if_pos rfl

theorem inBox_of_ne {b' : Nat} (hb : b' ≠ b) (user : BoxUser) (pt : ListPt (Option Mail)) :
    PostPt.inBox b (some (.box b' user pt)) = none := if_neg hb

theorem inBox_next (b b' : Nat) (user : BoxUser) (answer : Option (Option Mail)) :
    PostPt.inBox b (some (user.next b' answer)) = none := by
  cases user <;> rfl

/-- The list as a service: anybody may call it. -/
abbrev boxSteps : Lts (SvcView Empty (ListData (Option Mail)) (ListPt (Option Mail))) (Label Empty) :=
  (synchList (Option Mail)).lts (fun pt _ => pt.locked = true) fun _ _ => True

/-- **A step of the post offices is a step of the list of box `b`, or it is not seen there.** -/
theorem boxView_step {cfg : PostConfig} {calls : Tid → PostOp → Prop} {v' : PostView} (b : Nat)
    (hs : PostStep cfg calls v v') :
    boxView b v' = boxView b v ∨ ∃ lab, boxSteps.step (boxView b v) lab (boxView b v') := by
  cases hs with
  | @enter t o ht hcalls =>
    refine Or.inl (boxView_other ?_)
    rw [ht]
    cases o <;> rfl
  | sendStart ht hlength =>
    exact Or.inl (boxView_other (v := v.withDev _) (by rw [SvcView.withDev_pts, ht]; rfl))
  | sendAcquire ht => exact Or.inl (boxView_other (by rw [ht]; rfl))
  | @netSend t pktHdr mailHdr data buffer d ht hd =>
    obtain ⟨r, -, rfl⟩ := Option.map_eq_some_iff.mp hd
    exact Or.inl (boxView_other (v := v.withDev _) (by rw [SvcView.withDev_pts, ht]; rfl))
  | sendP ht => exact Or.inl (boxView_other (v := v.add _ _) (by rw [SvcView.add_pts, ht]; rfl))
  | sendRelease ht | sendDone ht => exact Or.inl (boxView_other (by rw [ht]; rfl))
  | @receiveStart t b' box data ht =>
    by_cases hb : b' = b
    · subst hb
      have hout : (boxView b' v).pts t = none := boxView_at ht
      refine Or.inr ⟨.run t, ?_⟩
      rw [boxView_goto (inBox_self b' _ _)]
      exact Service.Step.enter (o := ListOp.remove) hout trivial
    · exact Or.inl (boxView_other (by rw [ht, inBox_of_ne hb]; rfl))
  | gotMail ht | received ht => exact Or.inl (boxView_other (by rw [ht]; rfl))
  | deliveryStart ht =>
    exact Or.inl (boxView_other (v := v.withDev _) (by rw [SvcView.withDev_pts, ht]; rfl))
  | deliveryP ht hv =>
    exact Or.inl (boxView_other (v := v.add _ _) (by rw [SvcView.add_pts, ht]; rfl))
  | netReceive ht =>
    exact Or.inl (boxView_other (v := v.withDev _) (by rw [SvcView.withDev_pts, ht]; rfl))
  | @deliver t pktHdr buffer mail ht hmail =>
    by_cases hb : (Header.load buffer 0).to_.toInt.toNat = b
    · subst hb
      have hout : (boxView (Header.load buffer 0).to_.toInt.toNat v).pts t = none := boxView_at ht
      refine Or.inr ⟨.run t, ?_⟩
      rw [boxView_goto (inBox_self _ _ _)]
      exact Service.Step.enter (o := ListOp.append (some mail)) hout trivial
    · refine Or.inl (boxView_other (v := v.withDev _) ?_)
      rw [SvcView.withDev_pts, ht, inBox_of_ne hb]
      rfl
  | @boxCall t b' user pt k ht htarget =>
    by_cases hb : b' = b
    · subst hb
      have hin : (boxView b' v).pts t = some pt := (boxView_at ht).trans (inBox_self b' user pt)
      refine Or.inr ⟨.run t, ?_⟩
      rw [boxView_goto (inBox_self b' user k)]
      exact Service.Step.call hin htarget
    · exact Or.inl (boxView_other (by rw [ht, inBox_of_ne hb, inBox_of_ne hb]))
  | @boxTau t b' user pt k g l ht hcode hg halone =>
    by_cases hb : b' = b
    · subst hb
      have hin : (boxView b' v).pts t = some pt := (boxView_at ht).trans (inBox_self b' user pt)
      have hlist : boxView b' (v.withDev { v.dev with boxes := Function.update v.dev.boxes b' l })
          = (boxView b' v).withDev l := by
        simp only [boxView, SvcView.withDev, Function.update_self]
      refine Or.inr ⟨.run t, ?_⟩
      rw [boxView_goto (inBox_self b' user k), hlist]
      exact Service.Step.tau hin hcode hg halone
    · have hlist : boxView b (v.withDev { v.dev with boxes := Function.update v.dev.boxes b' l })
          = boxView b v := by
        simp only [boxView, SvcView.withDev, Function.update_of_ne (Ne.symm hb)]
      rw [boxView_other (by rw [SvcView.withDev_pts, ht, inBox_of_ne hb, inBox_of_ne hb]), hlist]
      exact Or.inl rfl
  | @boxRet t b' user answer ht =>
    by_cases hb : b' = b
    · subst hb
      have hin : (boxView b' v).pts t = some (.done answer) :=
        (boxView_at ht).trans (inBox_self b' user _)
      refine Or.inr ⟨.run t, ?_⟩
      rw [boxView_goto (inBox_next b' b' user answer)]
      exact Service.Step.leave hin rfl
    · exact Or.inl (boxView_other (by rw [ht, inBox_of_ne hb, inBox_next]))
  | accept hwire hfar | idle | packetSent | drop i => exact Or.inl rfl

end Boxes

/-! ## The same message everywhere -/

/-- A header and a buffer that hold a message for the far machine: the header covers the mail header and
    as many bytes as it says, and the mail box exists. -/
structure Sealed (cfg : PostConfig) (hdr : PacketHeader) (buffer : Bytes) : Prop where
  to_ : hdr.to_ = cfg.farAddr
  length : hdr.length.toNat = (Header.load buffer 0).length.toNat + headerSize
  mail : (Header.load buffer 0).length.toNat ≤ maxMailSize
  box : 0 ≤ (Header.load buffer 0).to_.toInt ∧ (Header.load buffer 0).to_.toInt < cfg.farBoxes

/-- **A copy of the bytes that the header covers is the same message.** -/
theorem Sealed.congr {cfg : PostConfig} {hdr : PacketHeader} {buffer buffer' : Bytes}
    (h : Sealed cfg hdr buffer) (hsame : ∀ i < hdr.length.toNat, buffer' i = buffer i) :
    Sealed cfg hdr buffer' ∧ Message.inBuffer hdr buffer' = Message.inBuffer hdr buffer := by
  have hlength := h.length
  have hload : Header.load buffer' 0 = Header.load buffer 0 := by
    refine Header.load_congr fun i hi => ?_
    exact hsame (0 + i) (by omega)
  constructor
  · refine ⟨h.to_, ?_, ?_, ?_⟩
    · rw [hload]
      exact hlength
    · rw [hload]
      exact h.mail
    · rw [hload]
      exact h.box
  · rw [Message.inBuffer, Message.inBuffer, hload]
    congr 1
    refine slice_congr fun i hi => hsame _ ?_
    omega

theorem Sealed.length_ne_zero {cfg : PostConfig} {hdr : PacketHeader} {buffer : Bytes}
    (h : Sealed cfg hdr buffer) : hdr.length ≠ 0 := by
  intro hzero
  have hlength := h.length
  rw [hzero] at hlength
  simp [headerSize] at hlength

/-- What `Send` has built: it is the caller's message, and it can go to the far machine. -/
structure SendOk (cfg : PostConfig) (pktHdr : PacketHeader) (mailHdr : MailHeader)
    (data buffer : Bytes) : Prop where
  message : Message.inBuffer pktHdr buffer = .of pktHdr mailHdr data
  sealed : pktHdr.to_ = cfg.farAddr → Sealed cfg pktHdr buffer

/-- `PostOffice::Send` puts the mail header in front of the data. -/
theorem SendOk.start {cfg : PostConfig} {pktHdr : PacketHeader} {mailHdr : MailHeader}
    {data fresh : Bytes} (hlength : mailHdr.length.toNat ≤ maxMailSize)
    (hbox : pktHdr.to_ = cfg.farAddr → 0 ≤ mailHdr.to_.toInt ∧ mailHdr.to_.toInt < cfg.farBoxes) :
    SendOk cfg { pktHdr with
        from_ := cfg.netAddr
        length := mailHdr.length + BitVec.ofNat 32 headerSize } mailHdr data
      (mailHdr.enclose fresh data) := by
  have hload := Header.load_enclose mailHdr fresh data
  constructor
  · rw [Message.inBuffer, hload, Message.of]
    congr 1
    refine slice_congr fun i hi => ?_
    rw [Header.enclose_add hi, Nat.zero_add]
  · intro hfar
    refine ⟨hfar, ?_, ?_, ?_⟩
    · have hsmall : mailHdr.length.toNat + headerSize < 2 ^ 32 := by
        have hmax : maxMailSize = 40 := rfl
        have hsize : headerSize = 12 := rfl
        omega
      rw [hload, BitVec.toNat_add, BitVec.toNat_ofNat]
      exact Nat.mod_eq_of_lt hsmall
    · rw [hload]
      exact hlength
    · rw [hload]
      exact hbox hfar

/-- `Network::Send` puts the packet header in front of that. -/
theorem SendOk.packet {cfg : PostConfig} {pktHdr : PacketHeader} {mailHdr : MailHeader}
    {data buffer : Bytes} (h : SendOk cfg pktHdr mailHdr data buffer) (hfar : pktHdr.to_ = cfg.farAddr)
    (fresh : Bytes) :
    Sealed cfg (Header.load (pktHdr.enclose fresh buffer) 0)
        (fun i => pktHdr.enclose fresh buffer (headerSize + i)) ∧
      Message.onWire (pktHdr.enclose fresh buffer) = .of pktHdr mailHdr data := by
  have hsame : ∀ i < pktHdr.length.toNat,
      (fun i => pktHdr.enclose fresh buffer (headerSize + i)) i = buffer i :=
    fun i hi => Header.enclose_add hi
  have hcongr := (h.sealed hfar).congr hsame
  rw [Message.onWire, Header.load_enclose]
  exact ⟨hcongr.1, hcongr.2.trans h.message⟩

/-- `MailBox::Put` takes the mail header off. -/
theorem Mail.message_new {hdr : PacketHeader} {buffer fresh : Bytes} {mail : Mail}
    (hmail : Mail.new hdr (Header.load buffer 0) buffer headerSize fresh = some mail) :
    mail.message = .inBuffer hdr buffer ∧ mail.mailHdr = Header.load buffer 0 := by
  unfold Mail.new at hmail
  split at hmail
  · obtain rfl := Option.some.inj hmail
    refine ⟨?_, rfl⟩
    rw [Mail.message, Message.of, Message.inBuffer]
    congr 1
    refine slice_congr fun i hi => ?_
    exact bcopy_add hi
  · cases hmail

/-! ## The invariant -/

/-- The message is for box `b`. -/
def Message.forBox (b : Nat) (m : Message) : Bool := m.mailHdr.to_.toInt == b

/-- The message is for the machine `addr`. -/
def Message.forMachine (addr : BitVec 32) (m : Message) : Bool := m.pktHdr.to_ == addr

/-- The messages of a list of `Mail*`. -/
def messages (l : List (Option Mail)) : List Message := l.filterMap (Option.map Mail.message)

/-- The message in the inbox. -/
def Network.unread (n : Network) : List Message :=
  if n.inHdr.length = 0 then [] else [.inBuffer n.inHdr n.inbox]

namespace PostPt

/-- The points of `PostalDelivery`. -/
def working : Option PostPt → Bool
  | some .deliveryStart => true
  | some (.deliveryP _) => true
  | some (.netReceive _) => true
  | some (.deliver _ _) => true
  | some (.box _ (.put _) _) => true
  | _ => false

/-- The worker has been told about a packet and has not taken it. -/
def receiving : Option PostPt → Bool
  | some (.netReceive _) => true
  | _ => false

/-- The message that the worker has taken and not put into a box. -/
def hand : Option PostPt → List Message
  | some (.deliver pktHdr buffer) => [.inBuffer pktHdr buffer]
  | some (.box _ _ (.appendAcquire item)) => messages [item]
  | some (.box _ _ (.append item)) => messages [item]
  | _ => []

/-- The points of `Append` on box `b`, with mail for it. -/
def Puts (b : Nat) : ListPt (Option Mail) → Prop
  | .appendAcquire item => ∃ mail, item = some mail ∧ mail.mailHdr.to_.toInt = b
  | .append item => ∃ mail, item = some mail ∧ mail.mailHdr.to_.toInt = b
  | .appendSignal => True
  | .appendRelease => True
  | .done answer => answer = none
  | _ => False

/-- The points of `Remove`. -/
def Gets : ListPt (Option Mail) → Prop
  | .removeAcquire => True
  | .removeTest => True
  | .removeWait => True
  | .remove => True
  | .removeRelease _ => True
  | .done answer => answer ≠ none
  | _ => False

/-- What is known at a point of thread `t`. -/
def Ok (cfg : PostConfig) (boxes : Nat → ListData (Option Mail)) (t : Tid) : Option PostPt → Prop
  | some (.sendStart pktHdr mailHdr _) => pktHdr.to_ = cfg.farAddr →
      0 ≤ mailHdr.to_.toInt ∧ mailHdr.to_.toInt < cfg.farBoxes
  | some (.sendAcquire pktHdr mailHdr data buffer) => SendOk cfg pktHdr mailHdr data buffer
  | some (.netSend pktHdr mailHdr data buffer) => SendOk cfg pktHdr mailHdr data buffer
  | some (.deliver pktHdr buffer) => Sealed cfg pktHdr buffer
  | some (.box b (.put _) pt) => Puts b pt
  | some (.box _ (.get _) pt) => Gets pt
  | some (.gotMail b _ mail) => (boxes b).lastRemoved t = some mail
  | some (.received b pktHdr mailHdr data) => ∃ mail, (boxes b).lastRemoved t = some (some mail) ∧
      mail.message = .of pktHdr mailHdr data
  | _ => True

/-- What is known of a thread depends on the boxes only by what the thread removed last. -/
theorem Ok.boxes {cfg : PostConfig} {boxes boxes' : Nat → ListData (Option Mail)} {t : Tid}
    {p : Option PostPt} (h : Ok cfg boxes t p)
    (hsame : ∀ b, (boxes' b).lastRemoved t = (boxes b).lastRemoved t) : Ok cfg boxes' t p := by
  unfold Ok at h ⊢
  split at h
  case h_7 b data mail => exact (hsame b).trans h
  case h_8 b pktHdr mailHdr data =>
    obtain ⟨mail, hlast, hmessage⟩ := h
    exact ⟨mail, (hsame b).trans hlast, hmessage⟩
  all_goals exact h

end PostPt

/-- The invariant of the post offices; `w` is the postal worker. -/
structure PostOk (cfg : PostConfig) (w : Tid) (v : PostView) : Prop where
  lists : ∀ b, ListOk (boxView b v)
  pts : ∀ t, PostPt.Ok cfg v.dev.boxes t (v.pts t)
  worker : ∀ t, PostPt.working (v.pts t) = true → t = w
  takers : Takers (fun t => PostPt.receiving (v.pts t)) (v.val .messageAvailable)
    v.dev.far.unread.length
  inbox : v.dev.far.inHdr.length ≠ 0 → Sealed cfg v.dev.far.inHdr v.dev.far.inbox
  wire : ∀ packet ∈ v.dev.wire,
    Sealed cfg (Header.load packet 0) fun i => packet (headerSize + i)
  accepted : ∀ b, v.dev.accepted.filter (Message.forBox b)
    = messages (v.dev.boxes b).appended
      ++ (PostPt.hand (v.pts w) ++ v.dev.far.unread).filter (Message.forBox b)
  order : (v.dev.accepted ++ v.dev.wire.map Message.onWire).Sublist
    (v.dev.sent.filter (Message.forMachine cfg.farAddr))
  valid : ∀ m ∈ v.dev.accepted, 0 ≤ m.mailHdr.to_.toInt ∧ m.mailHdr.to_.toInt < cfg.farBoxes

section Steps

variable {cfg : PostConfig} {w : Tid} {v : PostView}

/-- What the worker has in its hands, after a thread has moved without changing that. -/
theorem hand_goto {t : Tid} {p : Option PostPt} (h : PostPt.hand p = PostPt.hand (v.pts t)) (w : Tid) :
    PostPt.hand ((v.goto t p).pts w) = PostPt.hand (v.pts w) := by
  rw [SvcView.goto_pts]
  by_cases hw : w = t
  · rw [hw, Function.update_self, h]
  · rw [Function.update_of_ne hw]

/-- `t` goes on without touching anything but the memory and the sender's device; it takes no packet,
    and has as much in its hands as before. -/
theorem PostOk.move (h : PostOk cfg w v) {t : Tid} {p : Option PostPt} {near : Network} {allocs : Nat}
    (hlists : ∀ b, ListOk (boxView b
      ((v.withDev { v.dev with near := near, allocs := allocs }).goto t p)))
    (hok : PostPt.Ok cfg v.dev.boxes t p) (hworker : PostPt.working p = true → t = w)
    (hbefore : PostPt.receiving (v.pts t) = false) (hafter : PostPt.receiving p = false)
    (hhand : PostPt.hand p = PostPt.hand (v.pts t)) :
    PostOk cfg w ((v.withDev { v.dev with near := near, allocs := allocs }).goto t p) := by
  have hhand' := hand_goto (v := v.withDev { v.dev with near := near, allocs := allocs }) hhand w
  refine ⟨hlists, SvcView.goto_forall (Q := PostPt.Ok cfg v.dev.boxes) hok fun r _ => h.pts r,
    SvcView.goto_forall (Q := fun r p => PostPt.working p = true → r = w) hworker fun r _ => h.worker r,
    ?_, h.inbox, h.wire, fun b => ?_, h.order, h.valid⟩
  · rw [SvcView.goto_map, hafter]
    exact h.takers.other hbefore
  · rw [hhand']
    exact h.accepted b

/-- `Network::Send`. -/
theorem PostOk.netSend (h : PostOk cfg w v) {t : Tid} {pktHdr : PacketHeader} {mailHdr : MailHeader}
    {data buffer : Bytes} {d : PostData} (ht : v.pts t = some (.netSend pktHdr mailHdr data buffer))
    (hd : v.dev.netSend cfg pktHdr mailHdr data buffer = some d)
    (hlists : ∀ b, ListOk (boxView b ((v.withDev d).goto t (some (.sendP v.dev.near.sends))))) :
    PostOk cfg w ((v.withDev d).goto t (some (.sendP v.dev.near.sends))) := by
  obtain ⟨⟨near, out⟩, hsend, rfl⟩ := Option.map_eq_some_iff.mp hd
  have hok : SendOk cfg pktHdr mailHdr data buffer := by
    have hpt := h.pts t
    rw [ht] at hpt
    exact hpt
  -- a packet that goes out to the far machine is the message that was sent
  have hout : ∀ packet ∈ (if pktHdr.to_ = cfg.farAddr then out.toList else []),
      pktHdr.to_ = cfg.farAddr ∧ out = some packet ∧
        packet = pktHdr.enclose (v.dev.fresh v.dev.allocs) buffer := by
    intro packet hpacket
    split at hpacket
    · rename_i hfar
      have hsome : out = some packet := Option.mem_toList.mp hpacket
      simp only [Network.send] at hsend
      split at hsend
      · have hpair := (Prod.mk.inj (Option.some.inj hsend)).2
        rw [hsome] at hpair
        split at hpair
        · cases hpair
        · exact ⟨hfar, hsome, (Option.some.inj hpair).symm⟩
      · cases hsend
    · cases hpacket
  have hmoved : PostOk cfg w ((v.withDev { v.dev with near := near, allocs := v.dev.allocs + 1 }).goto t
      (some (.sendP v.dev.near.sends))) :=
    h.move (fun b => hlists b) trivial (by nofun) (by rw [ht]; rfl) rfl (by rw [ht]; rfl)
  refine ⟨hlists, hmoved.pts, hmoved.worker, hmoved.takers, h.inbox, ?_, hmoved.accepted, ?_, h.valid⟩
  · intro packet hpacket
    rcases List.mem_append.mp hpacket with hold | hnew
    · exact h.wire packet hold
    · obtain ⟨hfar, -, rfl⟩ := hout packet hnew
      exact (hok.packet hfar _).1
  · show (v.dev.accepted ++ (v.dev.wire ++ if pktHdr.to_ = cfg.farAddr then out.toList else []).map
      Message.onWire).Sublist ((v.dev.sent ++ [Message.of pktHdr mailHdr data]).filter
        (Message.forMachine cfg.farAddr))
    rw [List.map_append, ← List.append_assoc, List.filter_append]
    refine h.order.append ?_
    by_cases hfar : pktHdr.to_ = cfg.farAddr
    · have hkeep : [Message.of pktHdr mailHdr data].filter (Message.forMachine cfg.farAddr)
          = [.of pktHdr mailHdr data] := by
        simp [Message.forMachine, Message.of, hfar]
      rw [hkeep, if_pos hfar]
      cases hopt : out with
      | none => exact List.nil_sublist _
      | some packet =>
        have hmem : packet ∈ (if pktHdr.to_ = cfg.farAddr then out.toList else []) := by
          rw [if_pos hfar, hopt]
          exact List.mem_singleton.mpr rfl
        obtain ⟨-, -, rfl⟩ := hout packet hmem
        have hmessage := (hok.packet hfar (v.dev.fresh v.dev.allocs)).2
        rw [Option.toList_some, List.map_singleton, hmessage]
    · rw [if_neg hfar]
      exact List.nil_sublist _

/-- `messageAvailable->P()`. -/
theorem PostOk.deliveryP (h : PostOk cfg w v) {t : Tid} {buffer : Bytes}
    (ht : v.pts t = some (.deliveryP buffer)) (hv : v.val .messageAvailable ≠ 0)
    (hlists : ∀ b, ListOk (boxView b
      ((v.add .messageAvailable (-1)).goto t (some (.netReceive buffer))))) :
    PostOk cfg w ((v.add .messageAvailable (-1)).goto t (some (.netReceive buffer))) := by
  have htw : t = w := h.worker t (by rw [ht]; rfl)
  -- nobody is receiving: it would be the worker
  have hnobody : ∀ r, PostPt.receiving (v.pts r) = false := by
    intro r
    cases hr : v.pts r with
    | none => rfl
    | some q =>
      cases q with
      | netReceive buffer' =>
        have hrw : r = w := h.worker r (by rw [hr]; rfl)
        rw [hrw, ← htw, ht] at hr
        cases hr
      | _ => rfl
  have hhand := hand_goto (v := v.add .messageAvailable (-1)) (t := t)
    (p := some (.netReceive buffer)) (by rw [SvcView.add_pts, ht]; rfl) w
  refine ⟨hlists, SvcView.goto_forall (Q := PostPt.Ok cfg v.dev.boxes) trivial fun r _ => h.pts r,
    SvcView.goto_forall (Q := fun r p => PostPt.working p = true → r = w) (fun _ => htw)
      fun r _ => h.worker r, ?_, h.inbox, h.wire, fun b => ?_, h.order, h.valid⟩
  · rw [SvcView.goto_map, SvcView.goto_val, SvcView.add_val, Function.update_self,
      ← Int.sub_eq_add_neg]
    exact h.takers.take hnobody hv t
  · rw [hhand]
    exact h.accepted b

/-- `network->Receive(buffer)`: the packet goes from the inbox into the worker's hands. -/
theorem PostOk.netReceive (h : PostOk cfg w v) {t : Tid} {buffer : Bytes}
    (ht : v.pts t = some (.netReceive buffer))
    (hlists : ∀ b, ListOk (boxView b
      ((v.withDev { v.dev with far := (v.dev.far.receive buffer).2.2 }).goto t
        (some (.deliver (v.dev.far.receive buffer).1 (v.dev.far.receive buffer).2.1))))) :
    PostOk cfg w ((v.withDev { v.dev with far := (v.dev.far.receive buffer).2.2 }).goto t
      (some (.deliver (v.dev.far.receive buffer).1 (v.dev.far.receive buffer).2.1))) := by
  have htw : t = w := h.worker t (by rw [ht]; rfl)
  obtain ⟨m, hm, htakers⟩ := h.takers.use (t := t) (by rw [ht]; rfl)
  -- there is a packet in the inbox: the worker was told about it
  have hfull : v.dev.far.inHdr.length ≠ 0 := by
    intro hzero
    rw [Network.unread, if_pos hzero] at hm
    cases hm
  have hunread : v.dev.far.unread = [.inBuffer v.dev.far.inHdr v.dev.far.inbox] := if_neg hfull
  have hm0 : m = 0 := by
    rw [hunread, List.length_singleton] at hm
    omega
  have hbuffer : (v.dev.far.receive buffer).2.1
      = bcopy v.dev.far.inbox 0 buffer 0 v.dev.far.inHdr.length.toNat := if_pos hfull
  have hsame : ∀ i < v.dev.far.inHdr.length.toNat,
      bcopy v.dev.far.inbox 0 buffer 0 v.dev.far.inHdr.length.toNat i = v.dev.far.inbox i := by
    intro i hi
    rw [bcopy_zero hi, Nat.zero_add]
  obtain ⟨hsealed, hmessage⟩ := (h.inbox hfull).congr hsame
  have hempty : (v.dev.far.receive buffer).2.2.unread = [] := if_pos rfl
  rw [hbuffer] at hlists ⊢
  refine ⟨hlists, SvcView.goto_forall (Q := PostPt.Ok cfg v.dev.boxes) hsealed fun r _ => h.pts r,
    SvcView.goto_forall (Q := fun r p => PostPt.working p = true → r = w) (fun _ => htw)
      fun r _ => h.worker r, ?_, fun hne => absurd rfl hne, h.wire, fun b => ?_, h.order, h.valid⟩
  · rw [SvcView.goto_map]
    show Takers _ _ (v.dev.far.receive buffer).2.2.unread.length
    rw [hempty, List.length_nil, ← hm0]
    exact htakers
  · have haccepted := h.accepted b
    rw [← htw, ht, hunread] at haccepted
    show v.dev.accepted.filter (Message.forBox b) = messages (v.dev.boxes b).appended
      ++ (PostPt.hand (Function.update v.pts t _ w)
        ++ (v.dev.far.receive buffer).2.2.unread).filter (Message.forBox b)
    rw [hempty, ← htw, Function.update_self, List.append_nil]
    show _ = _ ++ [Message.inBuffer v.dev.far.inHdr _].filter _
    rw [hmessage]
    exact haccepted

/-- `CheckPktAvail` accepts a packet: it goes from the wire into the inbox. -/
theorem PostOk.accept (h : PostOk cfg w v) {packet : Bytes} {rest : List Bytes} {far : Network}
    (hwire : v.dev.wire = packet :: rest)
    (hfar : v.dev.far.checkPktAvail (some packet) = some (true, far)) :
    PostOk cfg w ((v.add .messageAvailable 1).withDev { v.dev with
      far := far
      wire := rest
      accepted := v.dev.accepted ++ [.onWire packet] }) := by
  obtain ⟨buffer, hbuffer, hfree, hafter⟩ := Network.checkPktAvail_true hfar
  obtain rfl := Option.some.inj hbuffer
  have hsealed := h.wire packet (by rw [hwire]; exact List.mem_cons_self)
  have hsame : ∀ i < (Header.load packet 0).length.toNat,
      bcopy packet headerSize v.dev.far.inbox 0 (Header.load packet 0).length.toNat i
        = packet (headerSize + i) := by
    intro i hi
    exact bcopy_zero hi
  obtain ⟨hinbox, hmessage⟩ := hsealed.congr hsame
  have hbefore : v.dev.far.unread = [] := if_pos hfree
  have hunread : far.unread = [.onWire packet] := by
    rw [hafter, Network.unread, if_neg hsealed.length_ne_zero]
    exact congrArg (fun m => [m]) hmessage
  refine ⟨h.lists, h.pts, h.worker, ?_, fun _ => ?_, ?_, fun b => ?_, ?_, ?_⟩
  · have htakers := h.takers.announce
    rw [hbefore] at htakers
    show Takers _ (Function.update v.val .messageAvailable (v.val .messageAvailable + 1)
      .messageAvailable) far.unread.length
    rw [hunread, Function.update_self]
    exact htakers
  · show Sealed cfg far.inHdr far.inbox
    rw [hafter]
    exact hinbox
  · intro p hp
    exact h.wire p (by rw [hwire]; exact List.mem_cons_of_mem packet hp)
  · have haccepted := h.accepted b
    rw [hbefore, List.append_nil] at haccepted
    show (v.dev.accepted ++ [Message.onWire packet]).filter (Message.forBox b)
      = messages (v.dev.boxes b).appended
        ++ (PostPt.hand (v.pts w) ++ far.unread).filter (Message.forBox b)
    rw [hunread, List.filter_append, List.filter_append, haccepted, List.append_assoc]
  · have horder := h.order
    rw [hwire, List.map_cons, List.append_cons] at horder
    exact horder
  · intro m hm
    rcases List.mem_append.mp hm with hold | hnew
    · exact h.valid m hold
    · obtain rfl := List.mem_singleton.mp hnew
      exact hsealed.box

/-- `MailBox::Put` makes a `Mail` of the packet in the worker's hands. -/
theorem PostOk.deliver (h : PostOk cfg w v) {t : Tid} {pktHdr : PacketHeader} {buffer : Bytes}
    {mail : Mail} (ht : v.pts t = some (.deliver pktHdr buffer))
    (hmail : Mail.new pktHdr (Header.load buffer 0) buffer headerSize (v.dev.fresh v.dev.allocs)
      = some mail)
    (hlists : ∀ b, ListOk (boxView b ((v.withDev { v.dev with allocs := v.dev.allocs + 1 }).goto t
      (some (.box (Header.load buffer 0).to_.toInt.toNat (.put buffer)
        (.appendAcquire (some mail))))))) :
    PostOk cfg w ((v.withDev { v.dev with allocs := v.dev.allocs + 1 }).goto t
      (some (.box (Header.load buffer 0).to_.toInt.toNat (.put buffer)
        (.appendAcquire (some mail))))) := by
  have htw : t = w := h.worker t (by rw [ht]; rfl)
  have hsealed : Sealed cfg pktHdr buffer := by
    have hpt := h.pts t
    rw [ht] at hpt
    exact hpt
  obtain ⟨hmessage, hhdr⟩ := Mail.message_new hmail
  have hputs : PostPt.Puts (Header.load buffer 0).to_.toInt.toNat
      (.appendAcquire (some mail)) := by
    refine ⟨mail, rfl, ?_⟩
    rw [hhdr]
    exact (Int.toNat_of_nonneg hsealed.box.1).symm
  refine h.move hlists hputs (fun _ => htw) (by rw [ht]; rfl) rfl ?_
  rw [ht]
  exact congrArg (fun m => [m]) hmessage

/-- `list->Append(item)`: the mail goes from the worker's hands into the box it is for. -/
theorem PostOk.append (h : PostOk cfg w v) {t : Tid} {b : Nat} {user : BoxUser} {item : Option Mail}
    (ht : v.pts t = some (.box b user (.append item)))
    (hlists : ∀ c, ListOk (boxView c ((v.withDev { v.dev with
      boxes := Function.update v.dev.boxes b ((v.dev.boxes b).append item) }).goto t
        (some (.box b user .appendSignal))))) :
    PostOk cfg w ((v.withDev { v.dev with
      boxes := Function.update v.dev.boxes b ((v.dev.boxes b).append item) }).goto t
        (some (.box b user .appendSignal))) := by
  have hpt := h.pts t
  rw [ht] at hpt
  cases user with
  | get data => exact hpt.elim
  | put buffer =>
    have htw : t = w := h.worker t (by rw [ht]; rfl)
    obtain ⟨mail, rfl, hto⟩ := hpt
    have hlast : ∀ c r, (Function.update v.dev.boxes b ((v.dev.boxes b).append (some mail)) c).lastRemoved r
        = (v.dev.boxes c).lastRemoved r := by
      intro c r
      by_cases hc : c = b
      · rw [hc, Function.update_self, ListData.lastRemoved_append]
      · rw [Function.update_of_ne hc]
    refine ⟨hlists, SvcView.goto_forall (Q := PostPt.Ok cfg _) trivial fun r _ =>
      (h.pts r).boxes fun c => hlast c r,
      SvcView.goto_forall (Q := fun r p => PostPt.working p = true → r = w) (fun _ => htw)
        fun r _ => h.worker r, ?_, h.inbox, h.wire, fun c => ?_, h.order, h.valid⟩
    · rw [SvcView.goto_map]
      exact h.takers.other (by rw [ht]; rfl)
    · have haccepted := h.accepted c
      rw [← htw, ht] at haccepted
      replace haccepted : v.dev.accepted.filter (Message.forBox c) = messages (v.dev.boxes c).appended
        ++ ([mail.message] ++ v.dev.far.unread).filter (Message.forBox c) := haccepted
      show v.dev.accepted.filter (Message.forBox c)
        = messages (Function.update v.dev.boxes b ((v.dev.boxes b).append (some mail)) c).appended
          ++ (PostPt.hand (Function.update v.pts t _ w) ++ v.dev.far.unread).filter (Message.forBox c)
      rw [← htw, Function.update_self, haccepted, List.filter_append, ← List.append_assoc]
      show _ = _ ++ ([] ++ v.dev.far.unread).filter (Message.forBox c)
      rw [List.nil_append]
      congr 1
      by_cases hc : c = b
      · subst hc
        have hfor : Message.forBox c mail.message = true := beq_iff_eq.mpr hto
        rw [Function.update_self, List.filter_cons_of_pos hfor, List.filter_nil]
        show _ = messages ((v.dev.boxes c).appended ++ [some mail])
        rw [messages, messages, List.filterMap_append]
        rfl
      · have hfor : ¬ Message.forBox c mail.message = true := by
          intro hbox
          have hsame : mail.mailHdr.to_.toInt = (c : Int) := beq_iff_eq.mp hbox
          exact hc (by omega)
        rw [Function.update_of_ne hc, List.filter_cons_of_neg hfor, List.filter_nil, List.append_nil]

/-- `list->Remove()`: what was appended to the boxes stays the same. -/
theorem PostOk.remove (h : PostOk cfg w v) {t : Tid} {b : Nat} {user : BoxUser} {item : Option Mail}
    (ht : v.pts t = some (.box b user .remove))
    (hlists : ∀ c, ListOk (boxView c ((v.withDev { v.dev with
      boxes := Function.update v.dev.boxes b ((v.dev.boxes b).remove t) }).goto t
        (some (.box b user (.removeRelease item)))))) :
    PostOk cfg w ((v.withDev { v.dev with
      boxes := Function.update v.dev.boxes b ((v.dev.boxes b).remove t) }).goto t
        (some (.box b user (.removeRelease item)))) := by
  have hpt := h.pts t
  rw [ht] at hpt
  cases user with
  | put buffer => exact hpt.elim
  | get data =>
    have hlast : ∀ c r, r ≠ t →
        (Function.update v.dev.boxes b ((v.dev.boxes b).remove t) c).lastRemoved r
          = (v.dev.boxes c).lastRemoved r := by
      intro c r hr
      by_cases hc : c = b
      · rw [hc, Function.update_self, ListData.lastRemoved_of_ne _ hr]
      · rw [Function.update_of_ne hc]
    have happended : ∀ c, (Function.update v.dev.boxes b ((v.dev.boxes b).remove t) c).appended
        = (v.dev.boxes c).appended := by
      intro c
      by_cases hc : c = b
      · rw [hc, Function.update_self]
        rfl
      · rw [Function.update_of_ne hc]
    have hhand := hand_goto (v := v) (t := t) (p := some (.box b (.get data) (.removeRelease item)))
      (by rw [ht]; rfl) w
    refine ⟨hlists, SvcView.goto_forall (Q := PostPt.Ok cfg _) trivial fun r hr =>
      (h.pts r).boxes fun c => hlast c r hr,
      SvcView.goto_forall (Q := fun r p => PostPt.working p = true → r = w) (by nofun)
        fun r _ => h.worker r, ?_, h.inbox, h.wire, fun c => ?_, h.order, h.valid⟩
    · rw [SvcView.goto_map]
      exact h.takers.other (by rw [ht]; rfl)
    · show v.dev.accepted.filter (Message.forBox c)
        = messages (Function.update v.dev.boxes b ((v.dev.boxes b).remove t) c).appended
          ++ (PostPt.hand ((v.goto t _).pts w) ++ v.dev.far.unread).filter (Message.forBox c)
      rw [happended, hhand]
      exact h.accepted c

/-- The calls inside `Append` and `Remove` stay inside. -/
theorem PostPt.Puts.target {t : Tid} {b : Nat} {pt k : ListPt (Option Mail)} (h : PostPt.Puts b pt)
    (htarget : (synchListCode t pt).target = some k) :
    PostPt.Puts b k ∧ ∀ user, PostPt.hand (some (.box b user k)) = PostPt.hand (some (.box b user pt)) := by
  cases pt with
  | appendAcquire item => cases htarget; exact ⟨h, fun _ => rfl⟩
  | appendSignal => cases htarget; exact ⟨trivial, fun _ => rfl⟩
  | appendRelease => cases htarget; exact ⟨rfl, fun _ => rfl⟩
  | append item => cases htarget
  | done answer => cases htarget
  | _ => exact h.elim

theorem PostPt.Gets.target {t : Tid} {pt k : ListPt (Option Mail)} (h : PostPt.Gets pt)
    (htarget : (synchListCode t pt).target = some k) :
    PostPt.Gets k ∧ ∀ b user, PostPt.hand (some (.box b user k))
      = PostPt.hand (some (.box b user pt)) := by
  cases pt with
  | removeAcquire | removeWait => cases htarget; exact ⟨trivial, fun _ _ => rfl⟩
  | removeRelease item => cases htarget; exact ⟨by nofun, fun _ _ => rfl⟩
  | removeTest | remove | done answer => cases htarget
  | _ => exact h.elim

/-- Who may call what: only `w` is a postal worker, and mail for the far machine is for a mail box that
    it has. -/
structure PostCalls (cfg : PostConfig) (w : Tid) (calls : Tid → PostOp → Prop) : Prop where
  worker : ∀ t, calls t .postalDelivery → t = w
  box : ∀ t pktHdr mailHdr data, calls t (.send pktHdr mailHdr data) → pktHdr.to_ = cfg.farAddr →
    0 ≤ mailHdr.to_.toInt ∧ mailHdr.to_.toInt < cfg.farBoxes

/-- Step lemma. -/
theorem PostOk.step {calls : Tid → PostOp → Prop} {v' : PostView} (hcalls : PostCalls cfg w calls)
    (h : PostOk cfg w v) (hs : PostStep cfg calls v v') : PostOk cfg w v' := by
  have hlists : ∀ b, ListOk (boxView b v') := by
    intro b
    rcases boxView_step b hs with heq | ⟨lab, hstep⟩
    · rw [heq]
      exact h.lists b
    · exact (h.lists b).step rfl hstep
  cases hs with
  | @enter t o ht ho =>
    have hin := h.move (t := t) (p := some ((postOffice cfg).entry o)) hlists
    cases o with
    | send pktHdr mailHdr data =>
      exact hin (hcalls.box t _ _ _ ho) (by nofun) (by rw [ht]; rfl) rfl (by rw [ht]; rfl)
    | receive box data => exact hin trivial (by nofun) (by rw [ht]; rfl) rfl (by rw [ht]; rfl)
    | postalDelivery =>
      exact hin trivial (fun _ => hcalls.worker t ho) (by rw [ht]; rfl) rfl (by rw [ht]; rfl)
  | @sendStart t pktHdr mailHdr data ht hlength =>
    have hpt := h.pts t
    rw [ht] at hpt
    exact h.move hlists (SendOk.start hlength hpt) (by nofun) (by rw [ht]; rfl) rfl (by rw [ht]; rfl)
  | @sendAcquire t pktHdr mailHdr data buffer ht =>
    have hpt := h.pts t
    rw [ht] at hpt
    exact h.move hlists hpt (by nofun) (by rw [ht]; rfl) rfl (by rw [ht]; rfl)
  | netSend ht hd => exact h.netSend ht hd hlists
  | @sendP t k ht =>
    -- the other semaphore
    have hmoved : PostOk cfg w (v.goto t (some (.sendRelease k))) :=
      h.move hlists trivial (by nofun) (by rw [ht]; rfl) rfl (by rw [ht]; rfl)
    exact ⟨hlists, hmoved.pts, hmoved.worker, hmoved.takers, h.inbox, h.wire, hmoved.accepted, h.order,
      h.valid⟩
  | sendRelease ht | sendDone ht | receiveStart ht =>
    exact h.move hlists trivial (by nofun) (by rw [ht]; rfl) rfl (by rw [ht]; rfl)
  | @gotMail t b data mail ht =>
    have hpt := h.pts t
    rw [ht] at hpt
    refine h.move hlists ⟨mail, hpt, ?_⟩ (by nofun) (by rw [ht]; rfl) rfl (by rw [ht]; rfl)
    rw [Mail.message, Message.of, Message.of]
    congr 1
    refine slice_congr fun i hi => ?_
    rw [Nat.zero_add, bcopy_zero hi, Nat.zero_add]
  | received ht => exact h.move hlists trivial (by nofun) (by rw [ht]; rfl) rfl (by rw [ht]; rfl)
  | @deliveryStart t ht =>
    have htw : t = w := h.worker t (by rw [ht]; rfl)
    exact h.move hlists trivial (fun _ => htw) (by rw [ht]; rfl) rfl (by rw [ht]; rfl)
  | deliveryP ht hv => exact h.deliveryP ht hv hlists
  | netReceive ht => exact h.netReceive ht hlists
  | deliver ht hmail => exact h.deliver ht hmail hlists
  | @boxCall t b user pt k ht htarget =>
    have hpt := h.pts t
    rw [ht] at hpt
    cases user with
    | put buffer =>
      have htw : t = w := h.worker t (by rw [ht]; rfl)
      obtain ⟨hk, hhand⟩ := PostPt.Puts.target hpt htarget
      exact h.move hlists hk (fun _ => htw) (by rw [ht]; rfl) rfl (by rw [ht]; exact hhand _)
    | get data =>
      obtain ⟨hk, hhand⟩ := PostPt.Gets.target hpt htarget
      exact h.move hlists hk (by nofun) (by rw [ht]; rfl) rfl (by rw [ht]; exact hhand b _)
  | @boxTau t b user pt k g l ht hcode hg halone =>
    have hpt := h.pts t
    rw [ht] at hpt
    cases pt with
    | append item =>
      cases hcode
      obtain ⟨rfl, rfl⟩ := Prod.mk.inj (Option.some.inj hg)
      exact h.append ht hlists
    | remove =>
      cases hcode
      obtain ⟨rfl, rfl⟩ := Prod.mk.inj (Option.some.inj hg)
      exact h.remove ht hlists
    | removeTest =>
      cases hcode
      obtain ⟨rfl, rfl⟩ := Prod.mk.inj (Option.some.inj hg)
      cases user with
      | put buffer => exact hpt.elim
      | get data =>
        rw [Function.update_eq_self] at hlists ⊢
        refine h.move hlists ?_ (by nofun) (by rw [ht]; rfl) rfl ?_
        · split <;> exact trivial
        · rw [ht]
          split <;> rfl
    | _ => cases hcode
  | @boxRet t b user answer ht =>
    have hpt := h.pts t
    rw [ht] at hpt
    cases user with
    | put buffer =>
      have htw : t = w := h.worker t (by rw [ht]; rfl)
      exact h.move hlists trivial (fun _ => htw) (by rw [ht]; rfl) rfl (by rw [ht]; rfl)
    | get data =>
      cases answer with
      | none => exact absurd rfl hpt
      | some mail =>
        -- the list says that this is what the thread removed last
        have hlist := (h.lists b).pts t
        rw [boxView_at ht, inBox_self] at hlist
        exact h.move hlists hlist (by nofun) (by rw [ht]; rfl) rfl (by rw [ht]; rfl)
  | accept hwire hfar => exact h.accept hwire hfar
  | idle => exact h
  | packetSent =>
    exact ⟨hlists, h.pts, h.worker, h.takers, h.inbox, h.wire, h.accepted, h.order, h.valid⟩
  | drop i =>
    refine ⟨hlists, h.pts, h.worker, h.takers, h.inbox, ?_, h.accepted, ?_, h.valid⟩
    · exact fun packet hpacket => h.wire packet (List.mem_of_mem_eraseIdx hpacket)
    · have hless : (v.dev.wire.eraseIdx i).Sublist v.dev.wire := List.eraseIdx_sublist _ _
      exact ((hless.map Message.onWire).append_left v.dev.accepted).trans h.order

end Steps

/-- Run lemma. -/
theorem postOk_of_reach {cfg : PostConfig} {w : Tid} {Sh Pc : Type} {u : UserClient PostOp PostAns Sh Pc}
    (hcalls : PostCalls cfg w u.Calls) {s : ((postOffice cfg).client u).St}
    (hr : (machine ((postOffice cfg).client u).prog).Reach s) :
    PostOk cfg w ((postOffice cfg).view u s) := by
  refine ((postOffice_disciplined cfg).reach_view hr).invariant (I := PostOk cfg w) ?_ ?_
  · rintro v ⟨hpts, hboot, hval⟩
    have hunread : v.dev.far.unread = [] := if_pos hboot.far.inHdr
    refine ⟨fun b => ⟨?_, fun t => ?_⟩, fun t => ?_, fun t => ?_, ?_, fun hne => ?_, ?_, fun b => ?_, ?_, ?_⟩
    · show (v.dev.boxes b).appended = (v.dev.boxes b).removed.map Prod.snd ++ (v.dev.boxes b).list
      rw [hboot.boxes]
      rfl
    · rw [boxView_pts, hpts]
      exact trivial
    · rw [hpts]
      exact trivial
    · rw [hpts]
      exact nofun
    · rw [hpts, hval, hunread]
      exact .idle (n := 0) fun _ => rfl
    · exact absurd hboot.far.inHdr hne
    · rw [hboot.wire]
      exact fun packet hpacket => absurd hpacket List.not_mem_nil
    · rw [hpts, hboot.accepted, hboot.boxes, hunread]
      rfl
    · rw [hboot.accepted, hboot.wire, hboot.sent]
      exact List.Sublist.refl _
    · rw [hboot.accepted]
      exact fun m hm => absurd hm List.not_mem_nil
  · intro v lab v' _ hok hs
    exact hok.step hcalls (postStep_of_step hs)

/-! ## Mail delivery -/

namespace PostData

/-- What `Receive` has taken out of box `b`, in order. -/
def receivedFrom (d : PostData) (b : Nat) : List Message := messages ((d.boxes b).removed.map Prod.snd)

/-- What `PostalDelivery` has put into box `b`, in order. -/
def putInto (d : PostData) (b : Nat) : List Message := messages (d.boxes b).appended

/-- What was sent to box `b` of the far machine, in order. -/
def sentTo (cfg : PostConfig) (d : PostData) (b : Nat) : List Message :=
  d.sent.filter fun m => m.forMachine cfg.farAddr && m.forBox b

end PostData

/-- What is received is a subsequence of what is sent. -/
theorem PostOk.received_sublist {cfg : PostConfig} {w : Tid} {v : PostView} (h : PostOk cfg w v)
    (b : Nat) : (v.dev.receivedFrom b).Sublist (v.dev.sentTo cfg b) := by
  have hfifo : (v.dev.boxes b).appended
      = (v.dev.boxes b).removed.map Prod.snd ++ (v.dev.boxes b).list := (h.lists b).fifo
  have hput : (v.dev.receivedFrom b).Sublist (v.dev.putInto b) := by
    rw [PostData.putInto, hfifo, messages, List.filterMap_append]
    exact List.sublist_append_left _ _
  have haccepted : (v.dev.putInto b).Sublist (v.dev.accepted.filter (Message.forBox b)) := by
    rw [h.accepted b]
    exact List.sublist_append_left _ _
  have hsent : (v.dev.accepted.filter (Message.forBox b)).Sublist
      ((v.dev.sent.filter (Message.forMachine cfg.farAddr)).filter (Message.forBox b)) :=
    ((List.sublist_append_left _ _).trans h.order).filter _
  rw [List.filter_filter] at hsent
  have hsame : v.dev.sentTo cfg b
      = v.dev.sent.filter fun m => m.forBox b && m.forMachine cfg.farAddr := by
    refine List.filter_congr fun m _ => ?_
    exact Bool.and_comm _ _
  rw [hsame]
  exact hput.trans (haccepted.trans hsent)

/-- **Mail delivery.**  For every program with one postal worker `w`, whatever the network loses and
    whatever the interleaving: what `Receive` returns from a mail box is a subsequence of the messages
    sent to it, headers and bytes; a call of `Receive` returns the message it took out of the box; a
    packet accepted into the inbox is put into the mail box it is for, in order, and until then the
    worker has it in its hands or it is in the inbox; no `ASSERT` keeps the worker from putting it
    there; and no interrupt touches an inbox that has not been read. -/
theorem mail_delivery {cfg : PostConfig} {w : Tid} {Sh Pc : Type} {u : UserClient PostOp PostAns Sh Pc}
    (hworker : ∀ t, u.Calls t .postalDelivery → t = w)
    (hbox : ∀ t pktHdr mailHdr data, u.Calls t (.send pktHdr mailHdr data) →
      pktHdr.to_ = cfg.farAddr → 0 ≤ mailHdr.to_.toInt ∧ mailHdr.to_.toInt < cfg.farBoxes)
    {s : ((postOffice cfg).client u).St} (hr : (machine ((postOffice cfg).client u).prog).Reach s) :
    (∀ b, (s.sh.client.dev.receivedFrom b).Sublist (s.sh.client.dev.sentTo cfg b)) ∧
    (∀ t k b pktHdr mailHdr data, (postOffice cfg).At u s t (.received b pktHdr mailHdr data) k →
      ∃ mail, (s.sh.client.dev.boxes b).lastRemoved t = some (some mail) ∧
        mail.message = .of pktHdr mailHdr data) ∧
    (∀ b, s.sh.client.dev.accepted.filter (Message.forBox b) = s.sh.client.dev.putInto b
      ++ (PostPt.hand (((postOffice cfg).view u s).pts w) ++ s.sh.client.dev.far.unread).filter
        (Message.forBox b)) ∧
    (∀ m ∈ s.sh.client.dev.accepted,
      0 ≤ m.mailHdr.to_.toInt ∧ m.mailHdr.to_.toInt < cfg.farBoxes) ∧
    (∀ k pktHdr buffer, (postOffice cfg).At u s w (.deliver pktHdr buffer) k →
      ∃ s', stepFn ((postOffice cfg).client u).prog s (.run w) = some s') ∧
    (∀ i s', stepFn ((postOffice cfg).client u).prog s (.intr i) = some s' →
      s.sh.client.dev.far.inHdr.length ≠ 0 → s'.sh.client.dev.far = s.sh.client.dev.far) := by
  have hok := postOk_of_reach ⟨hworker, hbox⟩ hr
  refine ⟨hok.received_sublist, fun t k b pktHdr mailHdr data ht => ?_, hok.accepted, hok.valid,
    fun k pktHdr buffer ht => ?_, fun i s' hs hfull => ?_⟩
  · have hpt := hok.pts t
    rw [ht.pts] at hpt
    exact hpt
  · have hsealed : Sealed cfg pktHdr buffer := by
      have hpt := hok.pts w
      rw [ht.pts] at hpt
      exact hpt
    refine ht.enabled rfl (r := ({ s.sh.client.dev with allocs := s.sh.client.dev.allocs + 1 },
      .box (Header.load buffer 0).to_.toInt.toNat (.put buffer) (.appendAcquire (some
        ⟨pktHdr, Header.load buffer 0, bcopy buffer headerSize
          (s.sh.client.dev.fresh s.sh.client.dev.allocs) 0 (Header.load buffer 0).length.toNat⟩)))) ?_
    simp only
    rw [if_pos ⟨hsealed.box.1, hsealed.box.2, hsealed.mail⟩, Mail.new, if_pos hsealed.mail]
    rfl
  · obtain ⟨x, hhandler⟩ := Service.handler_of_intr hs
    cases i with
    | checkPktAvail pollSocket =>
      obtain ⟨⟨told, far⟩, hfar, heq⟩ := Option.map_eq_some_iff.mp hhandler
      cases told with
      | false =>
        obtain ⟨-, hdev⟩ := Prod.mk.inj heq
        rw [← hdev, Network.checkPktAvail_false hfar]
      | true =>
        obtain ⟨buffer, -, hzero, -⟩ := Network.checkPktAvail_true hfar
        exact absurd hzero hfull
    | sendDone k =>
      obtain ⟨n, -, heq⟩ := Option.map_eq_some_iff.mp hhandler
      rw [← (Prod.mk.inj heq).2]
    | drop i => rw [← (Prod.mk.inj (Option.some.inj hhandler)).2]

/-- Machines 0 and 1, with ten mail boxes each. -/
def mailConfig : PostConfig := ⟨0, 10, 1, 10⟩

/-- Thread 0 sends a byte to box 0 of machine 1, thread 1 is the postal worker there, and the others
    receive from box 0. -/
def mailClient : UserClient PostOp PostAns Unit Bool where
  boot _ ctl _ := ctl = fun _ => .atPc true
  call t first :=
    if first then
      match t with
      | 0 => .op (.send ⟨1, 0, 0⟩ ⟨0, 1, 1⟩ fun _ => 72) fun _ => false
      | 1 => .op .postalDelivery fun _ => false
      | _ => .op (.receive 0 fun _ => 0) fun _ => false
    else .finish id

/-- Both machines started, all memory filled with 9; nothing gets lost. -/
def mailStart : PostData where
  near := ⟨0, false, ⟨0, 0, 0⟩, fun _ => 9, 0, []⟩
  far := ⟨1, false, ⟨0, 0, 0⟩, fun _ => 9, 0, []⟩
  wire := []
  boxes _ := ⟨[], [], []⟩
  lost _ := false
  fresh _ := fun _ => 9
  allocs := 0
  sent := []
  accepted := []

/-- `mailClient` after the steps of `ls`. -/
def mailRun (ls : List (Label PostIntr)) : ((postOffice mailConfig).client mailClient).St :=
  Lts.replay (stepFn ((postOffice mailConfig).client mailClient).prog)
    ((postOffice mailConfig).start mailClient mailStart () fun _ => .atPc true) ls

theorem mailRun_reach (ls : List (Label PostIntr)) :
    (machine ((postOffice mailConfig).client mailClient).prog).Reach (mailRun ls) :=
  have hboot : PostBoot mailConfig mailStart :=
    ⟨⟨rfl, rfl, rfl, rfl, rfl⟩, ⟨rfl, rfl, rfl, rfl, rfl⟩, rfl, rfl, rfl, rfl⟩
  Lts.reach_replay machine_step (Service.start_reach hboot rfl) ls

/-- Thread 0 sends, the packet arrives, the worker delivers it, and thread 2 receives. -/
def mailSteps : List (Label PostIntr) :=
  List.replicate 10 (.run 0) ++ [.intr (.checkPktAvail true)] ++ List.replicate 19 (.run 1) ++
    List.replicate 16 (.run 2)

theorem mailClient_worker (t : Tid) (h : mailClient.Calls t .postalDelivery) : t = 1 := by
  obtain ⟨first, k, hcall⟩ := h
  cases first with
  | false => cases hcall
  | true =>
    match t with
    | 0 => cases hcall
    | 1 => rfl
    | _ + 2 => cases hcall

theorem mailClient_box (t : Tid) (pktHdr : PacketHeader) (mailHdr : MailHeader) (data : Bytes)
    (h : mailClient.Calls t (.send pktHdr mailHdr data)) (_ : pktHdr.to_ = mailConfig.farAddr) :
    0 ≤ mailHdr.to_.toInt ∧ mailHdr.to_.toInt < mailConfig.farBoxes := by
  obtain ⟨first, k, hcall⟩ := h
  cases first with
  | false => cases hcall
  | true =>
    match t with
    | 0 =>
      cases hcall
      decide
    | 1 => cases hcall
    | _ + 2 => cases hcall

/-- The byte arrives, with the headers that `Send` made. -/
theorem mail_delivery_byte :
    (mailRun mailSteps).sh.client.dev.receivedFrom 0 = [⟨⟨1, 0, 13⟩, ⟨0, 1, 1⟩, [72]⟩] ∧
      ((mailRun mailSteps).sh.client.dev.receivedFrom 0).Sublist
        ((mailRun mailSteps).sh.client.dev.sentTo mailConfig 0) :=
  ⟨by decide +kernel, (mail_delivery mailClient_worker mailClient_box (mailRun_reach mailSteps)).1 0⟩

end Nachos
