/-
Two programs with this TCP between them, over a network that loses
packets, brings them twice, late and in any order.

Each direction is a channel, and both of its ends agree with it
(`Coherent`). What an end knows to have arrived has arrived, and what has
arrived is the first part of what was written at the other end
(`tcp_safety`). The numbers begin below `2 ^ 31`, so two gigabytes can be
sent in each direction before they wrap.
-/
import Pdtb.Proofs.Sending
import Pdtb.Proofs.Exhaust

namespace Pdtb.Net

open Lib Asm

variable {h : Host} {buf : Word} {n m : Nat} {C D : Channel Byte} {s : Socket}
  {hosts : End → Host} {l : Link} {e : End}

-- ==================================================== what was written

namespace Socket

theorem generate_written (gen : Bool) :
    (s.generate h gen).written = s.written := by
  cases gen <;> rfl

theorem sendPureAck_written (forceProbe : Bool) :
    (s.sendPureAck h forceProbe).written = s.written := by
  unfold sendPureAck
  split <;> rfl

theorem sendResetPacket_written (seg : TcpSegment) :
    (s.sendResetPacket seg).written = s.written := by
  unfold sendResetPacket
  split <;> rfl

theorem removeLoop_written (target : BitVec 32) (k : Nat) :
    ∀ s : Socket, (s.removeLoop h target k).written = s.written := by
  induction k with
  | zero => exact fun _ => rfl
  | succ k ih =>
      intro s
      unfold removeLoop
      split
      · rfl
      · split
        · rfl
        · split
          · exact ih _
          · rfl

theorem processAck_written (tcp : TcpHeader) :
    (s.processAck h tcp).written = s.written := by
  unfold processAck
  simp only
  split
  · split <;> exact removeLoop_written _ _ _
  · split <;> rfl

theorem processStates_written (seg : TcpSegment) (current gen : Bool) :
    (s.processStates h seg current gen).2.written = s.written := by
  unfold processStates
  split <;> simp only <;> (try split) <;> (try split)
  all_goals first | rfl | exact sendResetPacket_written _

theorem receiveData_written (packet : Packet) :
    (s.receiveData packet).2.written = s.written := rfl

theorem processGood_written (seg : TcpSegment) (data : Word) :
    (s.processGood h seg data).written = s.written := by
  unfold processGood
  simp only
  split
  · rw [generate_written, processStates_written, processAck_written]
    rfl
  · split
    · rw [receiveData_written, processAck_written]
      rfl
    · rw [generate_written, processStates_written, receiveData_written,
        processAck_written]
      rfl

theorem processSynSent_written (seg : TcpSegment) :
    (s.processSynSent h seg).written = s.written := by
  unfold processSynSent
  simp only
  split
  · split <;> rfl
  · split
    · split
      · split
        · exact removeLoop_written _ _ _
        · exact sendResetPacket_written _
      · rfl
    · exact sendResetPacket_written _

/-- Nothing that comes changes what was written. -/
theorem process_written (seg : TcpSegment) (data : Word) :
    (s.process h seg data).written = s.written := by
  unfold process process2
  split
  · exact sendResetPacket_written _
  · split
    · exact processSynSent_written _
    · split
      · split <;> rfl
      · split
        · exact processGood_written _ _
        · exact sendPureAck_written _

theorem sendLoop_written (probe : Bool) (k : Nat) :
    ∀ s : Socket, (s.sendLoop h probe k).written = s.written := by
  induction k with
  | zero => exact fun _ => rfl
  | succ k ih =>
      intro s
      unfold sendLoop
      split
      · split
        · rfl
        · split
          · split
            · exact sendPureAck_written _
            · rfl
          · exact (ih _).trans (sendPending_written _)
      · rfl

theorem drivePackets_written (overdue : Overdue) (probe : Bool) :
    (s.drivePackets h overdue probe).written = s.written := by
  unfold drivePackets
  split
  · rfl
  · rfl
  · exact sendLoop_written _ _ _

theorem closeLocal_written : (s.closeLocal h).written = s.written := by
  unfold closeLocal
  simp only
  split <;> (try split) <;> rfl

theorem isCloseDone_written (timeout : Bool) :
    (s.isCloseDone h timeout).written = s.written := by
  unfold isCloseDone
  split <;> rfl

end Socket

namespace Peer

variable {p : Peer}

theorem send_written (bytes : List Byte) :
    p.written <+: (p.send h bytes).written := by
  unfold send
  split
  · exact List.prefix_rfl
  · show p.written <+: if _ then p.written ++ bytes else p.written
    split
    · exact List.prefix_append _ _
    · exact List.prefix_rfl

theorem step_written (ev : PeerEvent) :
    p.written <+: (p.step h ev).written := by
  cases ev with
  | send bytes => exact send_written bytes
  | receive => exact List.prefix_rfl
  | drivePackets overdue probe =>
      exact (Socket.drivePackets_written overdue probe).symm ▸ List.prefix_rfl
  | close => exact Socket.closeLocal_written.symm ▸ List.prefix_rfl
  | isCloseDone timeout =>
      exact (Socket.isCloseDone_written timeout).symm ▸ List.prefix_rfl

end Peer

-- ==================================================== a step

/-- Whatever happens at an end, it goes on to agree with both channels. -/
theorem Agrees.step {p : Peer} (ha : Agrees h p.sendBuffer n m C D p.toSocket)
    (hn : 0 < n) (hwrap : n + p.written.length + 1 < 2 ^ 32) (ev : PeerEvent) :
    ∃ C', C.SameGot C' ∧
      Agrees h (p.step h ev).sendBuffer n m C' D (p.step h ev).toSocket := by
  cases ev with
  | send bytes => exact ⟨C, .refl C, send_agrees ha bytes⟩
  | receive => exact ⟨C, .refl C, ha.receive _⟩
  | drivePackets overdue probe => exact ha.drivePackets hn hwrap overdue probe
  | close => exact ⟨C, .refl C, ha.closeLocal⟩
  | isCloseDone timeout => exact ⟨C, .refl C, ha.isCloseDone timeout⟩

theorem End.other_other (e : End) : e.other.other = e := by
  cases e <;> rfl

theorem End.other_ne (e : End) : e.other ≠ e := by
  cases e <;> decide

theorem End.eq_or_eq (e d : End) : d = e ∨ d = e.other := by
  cases e <;> cases d <;> decide

@[simp] theorem Link.get_set (p : Peer) : (l.set e p).get e = p := by
  cases e <;> rfl

@[simp] theorem Link.get_set_other (p : Peer) :
    (l.set e p).get e.other = l.get e.other := by
  cases e <;> rfl

variable (hosts) in
/-- What an end sends is a channel; the numbers for it begin with `n`. -/
def Coherent (n : End → Nat) (l : Link) : Prop :=
  ∃ C : End → Channel Byte, ∀ e, Agrees (hosts e) (l.get e).sendBuffer (n e)
    (n e.other) (C e) (C e.other) (l.get e).toSocket

/-- One end has taken a step, and the other end need not notice. -/
theorem Coherent.update {n : End → Nat} {C : End → Channel Byte}
    (hl : ∀ e, Agrees (hosts e) (l.get e).sendBuffer (n e) (n e.other) (C e)
      (C e.other) (l.get e).toSocket) {p : Peer} {C' D' : Channel Byte}
    (hgot : (C e).SameGot C') (hsent : (C e.other).SameSent D')
    (hp : Agrees (hosts e) p.sendBuffer (n e) (n e.other) C' D' p.toSocket) :
    Coherent hosts n (l.set e p) := by
  refine ⟨Function.update (fun _ => D') e C', fun d => ?_⟩
  rcases e.eq_or_eq d with heq | heq
  · subst heq
    rw [Link.get_set, Function.update_self, Function.update_of_ne d.other_ne]
    exact hp
  · subst heq
    have hother := hl e.other
    rw [e.other_other] at hother
    rw [Link.get_set_other, e.other_other, Function.update_of_ne e.other_ne,
      Function.update_self]
    exact ⟨hother.sends.congr hsent, hother.receives.congr hgot, hother.sane⟩

/-- Nor does what was written at either end get shorter. -/
theorem Link.step_written (ev : LinkEvent) (e : End) :
    (l.get e).written <+: ((l.step hosts ev).get e).written := by
  have hset : ∀ (d : End) (p : Peer), (l.get d).written <+: p.written →
      (l.get e).written <+: ((l.set d p).get e).written := by
    intro d p hp
    rcases d.eq_or_eq e with heq | heq
    · subst heq
      rw [Link.get_set]
      exact hp
    · subst heq
      rw [Link.get_set_other]
  cases ev with
  | happens d ev => exact hset d _ (Peer.step_written ev)
  | deliver d i data =>
      unfold Link.step
      simp only
      cases (l.get d.other).wire[i]? with
      | none => exact List.prefix_rfl
      | some seg =>
          refine hset d _ ?_
          rw [Socket.process_written]

/-- No sequence number wraps. -/
def Unwrapped (n : End → Nat) (l : Link) : Prop :=
  ∀ e, n e + (l.get e).written.length + 1 < 2 ^ 32

theorem Coherent.step {n : End → Nat} (hl : Coherent hosts n l)
    (hn : ∀ e, 0 < n e) (hwrap : Unwrapped n l) (ev : LinkEvent) :
    Coherent hosts n (l.step hosts ev) := by
  obtain ⟨C, hl⟩ := hl
  unfold Link.step
  split
  · next e ev =>
      obtain ⟨C', hgot, hp⟩ := (hl e).step (hn e) (hwrap e) ev
      exact .update hl hgot (.refl _) hp
  · next e i data =>
      split
      · exact ⟨C, hl⟩
      · next seg hseg =>
          -- the other end has told the truth
          have hmem := List.mem_of_getElem? hseg
          have hother := hl e.other
          rw [e.other_other] at hother
          have hlen := hother.sends.written.length_le
          have hlast := hwrap e.other
          obtain ⟨C', D', hgot, hsent, hp⟩ := (hl e).process
            (fun hrst =>
              hother.receives.ack ▸ hother.receives.wire seg hmem hrst)
            (fun hrst => (hother.sends.wire seg hmem hrst).2) (hn e)
            (by omega) data
          exact .update hl hgot hsent hp

theorem Link.run_written (evs : List LinkEvent) (e : End) :
    (l.get e).written <+: ((l.run hosts evs).get e).written := by
  induction evs generalizing l with
  | nil => exact List.prefix_rfl
  | cons ev evs ih =>
      exact (Link.step_written ev e).trans (ih (l := l.step hosts ev))

theorem Coherent.run {n : End → Nat} (hn : ∀ e, 0 < n e) (evs : List LinkEvent)
    (hl : Coherent hosts n l) (hwrap : Unwrapped n (l.run hosts evs)) :
    Coherent hosts n (l.run hosts evs) := by
  induction evs generalizing l with
  | nil => exact hl
  | cons ev evs ih =>
      refine ih (hl.step hn (fun e => ?_) ev) hwrap
      have hle : (l.get e).written.length
          ≤ ((l.run hosts (ev :: evs)).get e).written.length :=
        (Link.run_written _ e).length_le
      have hlast := hwrap e
      omega

-- ==================================================== from the beginning

variable (h) in
/-- An end where the connection was made and the program has taken its
first buffer; `peerSeq` is the number that the other end goes on with.
Nothing was sent so far but what made the connection. -/
structure Joined (peerSeq : BitVec 32) (p : Peer) : Prop where
  established : p.state = .established
  main : ∃ st, Connected h st ∧ st.getXmitBuf = (p.sendBuffer, p.toStack)
  connectPacket : p.dataLen h.connectPacket = 0
  sent : p.sent.toList = []
  accepted : p.accepted = []
  -- the SYN took one number
  seqNum : ∃ hi lo, p.seqNum = initialSeqNum hi lo + 1
  oldest : p.oldestUnackedSeq ≤ p.seqNum
  ackNum : p.ackNum = peerSeq
  wire : ∀ seg ∈ p.wire, seg.data = [] ∧ seg.tcp.codeBits.fin = false
    ∧ seg.tcp.seqnum ≤ p.seqNum ∧ seg.tcp.acknum ≤ p.ackNum
  written : p.written = []
  acked : p.acked = []

theorem initialSeqNum_lt (hi lo : BitVec 15) :
    (initialSeqNum hi lo).toNat < 2 ^ 31 := by
  have hhi := hi.isLt
  have hlo := lo.isLt
  unfold initialSeqNum
  rw [BitVec.toNat_append, BitVec.toNat_setWidth, BitVec.toNat_setWidth,
    ← Nat.shiftLeft_add_eq_or_of_lt (by omega), Nat.shiftLeft_eq]
  omega

theorem Joined.seqNum_toNat {peerSeq : BitVec 32} {p : Peer}
    (hp : Joined h peerSeq p) :
    0 < p.seqNum.toNat ∧ p.seqNum.toNat ≤ 2 ^ 31 := by
  obtain ⟨hi, lo, heq⟩ := hp.seqNum
  have hlt := initialSeqNum_lt hi lo
  rw [heq, BitVec.toNat_add]
  show 0 < (_ + 1) % _ ∧ (_ + 1) % _ ≤ _
  omega

/-- Then both directions are fresh. -/
theorem Joined.agrees {peerSeq : BitVec 32} {p : Peer}
    (hp : Joined h peerSeq p) :
    Agrees h p.sendBuffer p.seqNum.toNat peerSeq.toNat .fresh .fresh
      p.toSocket := by
  obtain ⟨st, hst, hmain⟩ := hp.main
  have hkept := (Kept.main hst default).1
  have hglobals : (Sys.main st default).net
      = ⟨p.toStack, p.sendBuffer, []⟩ := by
    unfold Sys.main
    rw [hmain]
  rw [hglobals] at hkept
  have hout : ∀ b ∈ p.outgoing.toList, p.dataLen b = 0 := by
    intro b hb
    obtain ⟨xs, hxs⟩ := st.getXmitBuf_eq
    rw [hmain] at hxs
    have hstack : p.toStack = { st with xmitBuffers := xs } := hxs
    rw [hstack] at hb
    rw [hst.outgoing b hb]
    exact hp.connectPacket
  have hpayloads : p.payloads p.outgoing.toList = [] :=
    List.flatMap_eq_nil_iff.mpr fun b hb =>
      (p.payload_eq_nil_iff b).mpr (hout b hb)
  refine ⟨⟨hp.acked, rfl, hp.oldest, fun seg hseg _ => ?_, ?_, .inl ?_⟩,
    ⟨?_, ?_, fun _ => ?_, fun seg hseg _ => (hp.wire seg hseg).2.2.2⟩,
    ⟨hkept, ?_, hp.connectPacket, fun b hb _ => hout b hb⟩⟩
  · obtain ⟨hdata, hfin, hle, -⟩ := hp.wire seg hseg
    refine ⟨hle, fun hne => absurd hdata hne, fun hbit => ?_⟩
    rw [hfin] at hbit
    cases hbit
  · rw [hp.written]
    exact ⟨List.prefix_rfl, fun hended => nomatch hended⟩
  · refine ⟨?_, ?_, fun q hq => ?_, ?_, (nomatch ·), ?_⟩
    · rw [hp.acked, hp.sent]
      rfl
    · rw [hp.sent]
      trivial
    · rw [hp.sent] at hq
      cases hq
    · rw [hpayloads, hp.written]
      rfl
    · rw [hp.established]
      rfl
  · rw [hp.ackNum]
    rfl
  · rw [hp.accepted]
    rfl
  · rw [hp.established]
    rfl
  · rw [hp.established]
    rfl

/-- Whatever the network does, an end has received the first part of what
the program at the other end has written, and that program's socket holds
no packet for received that was not. When the end has seen a FIN it has
received everything. -/
theorem tcp_safety (hosts : End → Host) (l : Link) (evs : List LinkEvent)
    (hjoined : ∀ e, Joined (hosts e) (l.get e.other).seqNum (l.get e))
    (hlen : ∀ e, ((l.run hosts evs).get e).written.length < 2 ^ 31 - 1)
    (e : End) :
    let sender := (l.run hosts evs).get e
    let receiver := (l.run hosts evs).get e.other
    let received := receiver.accepted.flatMap Packet.bytes
    sender.acked <+: received ∧ received <+: sender.written
      ∧ (receiver.state.finSeen = true → received = sender.written) := by
  have hstart : Coherent hosts (fun e => (l.get e).seqNum.toNat) l :=
    ⟨fun _ => .fresh, fun e => (hjoined e).agrees⟩
  obtain ⟨C, hrun⟩ := hstart.run (fun e => (hjoined e).seqNum_toNat.1) evs
    (fun e => by
      have hle := (hjoined e).seqNum_toNat.2
      have hlt := hlen e
      show (l.get e).seqNum.toNat + _ + 1 < _
      omega)
  have hsends := (hrun e).sends
  have hreceives := (hrun e.other).receives
  rw [e.other_other] at hreceives
  intro sender receiver received
  have hgot : (C e).got = received := hreceives.got
  refine ⟨?_, ?_, fun hseen => ?_⟩
  · rw [← hgot]
    show sender.acked <+: _
    rw [hsends.acked]
    exact (C e).acked_got
  · rw [← hgot]
    exact (C e).got_sent.trans hsends.written.sent
  · have hclosed : (C e).closed = true := by
      refine (hreceives.closed fun hst => ?_).trans hseen
      rw [hst] at hseen
      cases hseen
    obtain ⟨hended, hall⟩ := (C e).closed_all hclosed
    rw [← hgot, hall]
    exact hsends.written.all hended

/-- An end of a connection on which nothing was sent yet. -/
def demoPeer (hi peer : BitVec 15) : Peer where
  toStack := demoStack.getXmitBuf.2
  seqNum := initialSeqNum hi 0 + 1
  ackNum := initialSeqNum peer 0 + 1
  oldestUnackedSeq := initialSeqNum hi 0 + 1
  remoteWindow := 5840
  consecutiveGoodPackets := 0
  consecutiveSeqErrs := 0
  reportSmallWindow := false
  bufSeqNum := fun _ => 0
  headers := fun _ => ⟨0, 0, .ackOnly, 0, defaultMss⟩
  data := fun _ _ => 0
  wasAckOnly := fun _ => false
  wire := []
  written := []
  acked := []
  sendBuffer := demoStack.getXmitBuf.1

theorem demoPeer_joined (hi peer : BitVec 15) :
    Joined demoHost (initialSeqNum peer 0 + 1) (demoPeer hi peer) where
  established := rfl
  main := ⟨demoStack, demoStack_connected, rfl⟩
  connectPacket := rfl
  sent := rfl
  accepted := rfl
  seqNum := ⟨hi, 0, rfl⟩
  oldest := BitVec.le_refl _
  ackNum := rfl
  wire _ hseg := nomatch hseg
  written := rfl
  acked := rfl

/-- Two packets are sent, the second one comes first, and then each comes
twice. -/
def demoEvents : List LinkEvent :=
  [.happens .left (.send [1, 2, 3]), .happens .left (.send [4, 5]),
    .happens .left (.drivePackets .no false), .deliver .right 1 0,
    .deliver .right 0 0, .deliver .right 0 0, .deliver .right 1 0,
    .happens .right (.drivePackets .no false), .deliver .left 0 0]

theorem tcp_safety_demo :
    let l := Link.run (fun _ => demoHost) ⟨demoPeer 7 9, demoPeer 9 7⟩ demoEvents
    l.left.acked <+: l.right.accepted.flatMap Packet.bytes
      ∧ l.right.accepted.flatMap Packet.bytes <+: l.left.written
      ∧ (l.right.state.finSeen = true →
        l.right.accepted.flatMap Packet.bytes = l.left.written) :=
  tcp_safety (fun _ => demoHost) ⟨demoPeer 7 9, demoPeer 9 7⟩ demoEvents
    (by
      intro e
      cases e
      · exact demoPeer_joined 7 9
      · exact demoPeer_joined 9 7)
    (by
      intro e
      cases e
      · decide +kernel
      · decide +kernel)
    .left

end Pdtb.Net
