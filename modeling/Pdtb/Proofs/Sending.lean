/-
A socket that sends, closes, or is written to keeps what `Streams` says of
it: what goes out is what was written, in its order, and it goes out under
the numbers that stand for it.
-/
import Pdtb.Proofs.Streams

namespace Pdtb.Net

open Lib Asm

variable {h : Host} {buf : Word} {n m : Nat} {C D : Channel Byte} {s : Socket}

-- ==================================================== sending

/-- Once the connection is made, what is sent has ACK, and FIN if it is the
last packet of a socket that closes. -/
theorem Sane.codeBits (hs : Sane h buf s) (k : Nat) :
    (s.codeBits k false).syn = false ∧ (s.codeBits k false).rst = false
      ∧ ((s.codeBits k false).fin = true →
        (s.state = .sendFin1 ∨ s.state = .sendFin2)
          ∧ s.outgoing.entries = 1) := by
  have hjoined := hs.joined
  unfold Socket.codeBits
  cases hst : s.state with
  | synSent =>
      rw [hst] at hjoined
      cases hjoined
  | synRecved =>
      rw [hst] at hjoined
      cases hjoined
  | sendFin3 =>
      rw [hst] at hjoined
      cases hjoined
  | sendFin1 =>
      refine ⟨rfl, rfl, fun hfin => ⟨.inl rfl, ?_⟩⟩
      simpa [CodeBits.ackOnly] using hfin
  | sendFin2 =>
      refine ⟨rfl, rfl, fun hfin => ⟨.inr rfl, ?_⟩⟩
      simpa [CodeBits.ackOnly] using hfin
  | _ => exact ⟨rfl, rfl, fun hfin => absurd hfin Bool.false_ne_true⟩

/-- A packet goes from `outgoing` to `sent`. -/
theorem keeps_toSent {st : Stack} {p : Word} {q : RingBuffer Word}
    (hout : st.outgoing.toList = p :: q.toList)
    (hroom : st.sent.hasRoom = true) (state : TcpState) :
    Keeps h st { st with
      state := state, outgoing := q, sent := (st.sent.enqueue p).2 } := by
  have hsent := Ring.toList_enqueue hroom p
  refine ⟨fun hc => ⟨hc.free, fun b hb => hc.outgoing b ?_, fun b hb => ?_⟩,
    fun b _ => ?_⟩
  · rw [hout]
    exact List.mem_cons_of_mem p hb
  · have hmem : b ∈ (st.sent.enqueue p).2.toList := hb
    rw [hsent] at hmem
    rcases List.mem_append.mp hmem with hold | hnew
    · exact hc.sent b hold
    · rw [List.mem_singleton.mp hnew]
      exact hc.outgoing p (hout ▸ List.mem_cons_self)
  · simp only [Stack.places, hout, hsent, List.count_append, List.count_cons,
      List.count_nil]
    omega

/-- A packet that is to be sent is not in `sent` as well, but for one
without data. -/
theorem Sane.payload_of_mem (hs : Sane h buf s) {p : Word}
    (hout : p ∈ s.outgoing.toList) (hsent : p ∈ s.sent.toList) :
    s.payload p = [] := by
  rcases hs.kept.clean.outgoing p hout with hpool | hown
  · have hone : s.toStack.places p + (if buf = p then 1 else 0) ≤ 1 :=
      hs.kept.once p hpool
    have h₁ := List.count_pos_iff.mpr hout
    have h₂ := List.count_pos_iff.mpr hsent
    unfold Stack.places at hone
    omega
  · rw [Socket.payload_eq_nil_iff, hown]
    exact hs.connectPacket

/-- The numbers that a packet takes up. -/
theorem Sends.account (hs : Sends n C s) {k : Nat} {bits : CodeBits}
    {xs : List Byte} (hk : xs.length = k) (hsyn : bits.syn = false)
    (hxs : C.ended = true → xs = [])
    (hfin : bits.fin = true → C.ended = false)
    (hwrap : n + (C.sent.length + k) + 1 < 2 ^ 32) :
    (s.account k bits).seqNum.toNat
      = n + (C.push xs bits.fin hxs).sent.length
        + (C.push xs bits.fin hxs).ended.toNat := by
  have hseq := hs.seq
  show (s.seqNum + BitVec.ofNat 32 k
    + if bits.syn || bits.fin then 1 else 0).toNat
    = n + (C.sent ++ xs).length + (C.ended || bits.fin).toNat
  rw [hsyn, List.length_append, hk]
  have h₀ : false.toNat = 0 := rfl
  have h₁ : true.toNat = 1 := rfl
  have hk' : (BitVec.ofNat 32 k).toNat = k := by
    rw [BitVec.toNat_ofNat, Nat.mod_eq_of_lt (by omega)]
  cases hbit : bits.fin with
  | false =>
      have hzero : (if (false || false) = true then 1 else 0 : BitVec 32)
        = 0#32 := rfl
      have hle := Bool.toNat_le C.ended
      rw [hzero, BitVec.add_zero, BitVec.toNat_add, hk', Bool.or_false,
        Nat.mod_eq_of_lt (by omega)]
      omega
  | true =>
      have hone : (if (false || true) = true then 1 else 0 : BitVec 32)
        = 1 := rfl
      have hone' : (1 : BitVec 32).toNat = 1 := rfl
      rw [hfin hbit] at hseq ⊢
      rw [hone, BitVec.toNat_add, BitVec.toNat_add, hk', hone',
        Nat.mod_add_mod, Nat.mod_eq_of_lt (by omega)]
      show _ = n + (C.sent.length + k) + 1
      omega

/-- The socket when its first packet went out: in `sent` if it is to be
acknowledged. -/
theorem Socket.sendPending_cases (p : Word) :
    ((s.sendPacket h p).wasAckOnly p = true ∧ s.sendPending h p
        = { s.sendPacket h p with toStack :=
          { (s.sendPacket h p).toStack with
            outgoing := s.outgoing.dequeue.2 }.returnXmitBuf h p })
      ∨ ((s.sendPacket h p).wasAckOnly p = false ∧ s.sendPending h p
        = { s.sendPacket h p with
          outgoing := s.outgoing.dequeue.2
          sent := (s.sent.enqueue p).2 }) := by
  unfold Socket.sendPending
  simp only
  cases hflag : (s.sendPacket h p).wasAckOnly p with
  | true =>
      refine .inl ⟨rfl, ?_⟩
      rw [if_pos rfl]
      rfl
  | false =>
      refine .inr ⟨rfl, ?_⟩
      rw [if_neg Bool.false_ne_true]
      rfl

/-- The flag is set for a packet without data only. -/
theorem Socket.Marked.flag (hs : s.Marked) {p b : Word}
    (hb : b ∈ s.outgoing.toList)
    (hflag : (s.sendPacket h p).wasAckOnly b = true) : s.dataLen b = 0 := by
  have hcases : (s.sendPacket h p).wasAckOnly b
      = (if s.dataLen p = 0
          ∧ s.codeBits (s.dataLen p) false = CodeBits.ackOnly then
          Function.update s.wasAckOnly p true
        else s.wasAckOnly) b := rfl
  rw [hcases] at hflag
  split at hflag
  · next hempty =>
      by_cases heq : b = p
      · rw [heq]
        exact hempty.1
      · rw [Function.update_of_ne heq] at hflag
        exact hs b hb hflag
  · exact hs b hb hflag

/-- What a packet that goes out adds to the stream: its data, and perhaps
the end. -/
structure Goes (s : Socket) (C C' : Channel Byte) (p : Word) : Prop where
  empty : C.ended = true → s.payload p = []
  open_ : (s.codeBits (s.dataLen p) false).fin = true → C.ended = false
  push : C' = C.push (s.payload p) (s.codeBits (s.dataLen p) false).fin empty

/-- The segment it goes out in. -/
def Socket.segmentOf (h : Host) (s : Socket) (p : Word) : TcpSegment :=
  ⟨s.header h (s.dataLen p) (s.codeBits (s.dataLen p) false) false,
    s.payload p⟩

section

variable {C' : Channel Byte} {p : Word} {ps : List Word}

theorem Goes.sent_eq (hg : Goes s C C' p) :
    C'.sent = C.sent ++ s.payload p := by
  rw [hg.push]
  rfl

theorem Goes.ended_eq (hg : Goes s C C' p) :
    C'.ended = (C.ended || (s.codeBits (s.dataLen p) false).fin) := by
  rw [hg.push]
  rfl

theorem Goes.sameGot (hg : Goes s C C' p) : C.SameGot C' := by
  rw [hg.push]
  exact ⟨rfl, rfl⟩

/-- The first packet of a live socket may go out. -/
theorem Alive.goes (hlive : Alive n C s) (hs : Sane h buf s)
    (hout : s.outgoing.toList = p :: ps) : ∃ C', Goes s C C' p := by
  obtain ⟨-, -, hfin⟩ := hs.codeBits (s.dataLen p)
  have hempty : C.ended = true → s.payload p = [] := by
    intro hended
    have hlast := hlive.last hended
    rw [hout, Socket.payloads_cons] at hlast
    exact (List.append_eq_nil_iff.mp hlast).1
  refine ⟨_, hempty, fun hbit => ?_, rfl⟩
  rw [hlive.ended]
  rcases (hfin hbit).1 with hst | hst <;> rw [hst] <;> rfl

/-- What is still to go is the rest of what was written, and there is no
more of it behind the end. -/
theorem Goes.rest (hg : Goes s C C' p) (hlive : Alive n C s)
    (hs : Sane h buf s) (hout : s.outgoing.toList = p :: ps) :
    C'.sent ++ s.payloads ps = s.written
      ∧ (C'.ended = true → s.payloads ps = []) := by
  have hall := hlive.outgoing
  rw [hout, Socket.payloads_cons] at hall
  refine ⟨?_, fun hended => ?_⟩
  · rw [hg.sent_eq, List.append_assoc]
    exact hall
  · rw [hg.ended_eq, Bool.or_eq_true] at hended
    rcases hended with hold | hnew
    · have hnil := hlive.last hold
      rw [hout, Socket.payloads_cons] at hnil
      exact (List.append_eq_nil_iff.mp hnil).2
    · have hone := ((hs.codeBits (s.dataLen p)).2.2 hnew).2
      rw [← Ring.length_toList, hout] at hone
      rw [List.length_eq_zero_iff.mp (Nat.succ.inj hone)]
      rfl

theorem Goes.placed (hg : Goes s C C' p) (hs : Sends n C s) :
    Placed n C' (s.segmentOf h p) := by
  have hseq := hs.seq
  have hzero : false.toNat = 0 := rfl
  rw [hg.push]
  constructor
  · intro hne
    refine ⟨C.sent.length, ?_, Channel.carries_push⟩
    have hended : C.ended = false := by
      by_contra hno
      exact hne (hg.empty (Bool.eq_true_of_not_eq_false hno))
    rw [hended] at hseq
    exact hseq
  · intro hbit
    refine ⟨C.sent.length, ?_, Channel.ends_push hbit⟩
    rw [hg.open_ hbit] at hseq
    exact hseq

theorem Goes.seq_le (hg : Goes s C C' p) (hs : Sends n C s)
    (hseq : (s.sendPacket h p).seqNum.toNat
      = n + C'.sent.length + C'.ended.toNat) :
    s.seqNum ≤ (s.sendPacket h p).seqNum := by
  have hold := hs.seq
  have hor : C.ended.toNat
      ≤ (C.ended || (s.codeBits (s.dataLen p) false).fin).toNat := by
    cases C.ended <;> simp
  rw [BitVec.le_def, hseq, hold, hg.sent_eq, hg.ended_eq, List.length_append]
  omega

theorem Goes.wire (hg : Goes s C C' p) (hs : Sends n C s)
    (hseq : (s.sendPacket h p).seqNum.toNat
      = n + C'.sent.length + C'.ended.toNat) :
    ∀ seg ∈ (s.sendPacket h p).wire, seg.tcp.codeBits.rst = false →
      seg.tcp.seqnum ≤ (s.sendPacket h p).seqNum ∧ Placed n C' seg := by
  have hle := hg.seq_le hs hseq
  intro seg hseg hrst
  rcases List.mem_append.mp hseg with hold | hnew
  · obtain ⟨hbound, hplaced⟩ := hs.wire seg hold hrst
    refine ⟨BitVec.le_trans hbound hle, ?_⟩
    rw [hg.push]
    exact hplaced.push
  · rw [List.mem_singleton.mp hnew]
    exact ⟨hle, hg.placed (h := h) hs⟩

/-- Its own number is the one before the next. -/
theorem Goes.stamp (hn : 0 < n)
    (hseq : (s.sendPacket h p).seqNum.toNat
      = n + C'.sent.length + C'.ended.toNat) :
    ((s.sendPacket h p).bufSeqNum p).toNat + 1
      = (s.sendPacket h p).seqNum.toNat := by
  have hself : (s.sendPacket h p).bufSeqNum p
      = (s.sendPacket h p).seqNum - 1 := Function.update_self _ _ _
  rw [hself]
  bv_omega

theorem Goes.resendable (hg : Goes s C C' p) (hs : Sends n C s)
    (ha : Alive n C s) (hrst : (s.codeBits (s.dataLen p) false).rst = false)
    (hn : 0 < n)
    (hseq : (s.sendPacket h p).seqNum.toNat
      = n + C'.sent.length + C'.ended.toNat) {q : Word}
    (hq : q = p ∨ q ∈ s.sent.toList) :
    Resendable (s.sendPacket h p) q := by
  by_cases heq : q = p
  · have hheader : (s.sendPacket h p).headers p = (s.segmentOf h p).tcp :=
      Function.update_self _ _ _
    have hstamp := Goes.stamp (h := h) hn hseq
    rw [heq]
    refine ⟨?_, ?_, ?_⟩
    · rw [BitVec.lt_def]
      omega
    · rw [hheader]
      exact hrst
    · rw [hheader]
      exact List.mem_append_right _ (List.mem_singleton_self _)
  · have hr := ha.resendable q (hq.resolve_left heq)
    have hle := hg.seq_le hs hseq
    have hstamp : (s.sendPacket h p).bufSeqNum q = s.bufSeqNum q :=
      Function.update_of_ne heq _ _
    have hheader : (s.sendPacket h p).headers q = s.headers q :=
      Function.update_of_ne heq _ _
    refine ⟨?_, ?_, ?_⟩
    · have hlt := BitVec.lt_def.mp hr.stamp
      rw [hstamp, BitVec.lt_def]
      rw [BitVec.le_def] at hle
      omega
    · rw [hheader]
      exact hr.rst
    · rw [hheader]
      exact List.mem_append_left _ hr.wire

end

/-- The state after a packet went out is the same to the receiver. -/
theorem Sane.sendPacket_state (hs : Sane h buf s) (p : Word) :
    (s.sendPacket h p).state.joined = true
      ∧ (s.sendPacket h p).state.finSeen = s.state.finSeen
      ∧ ((s.sendPacket h p).state = .closed → s.state = .closed)
      ∧ (s.sendPacket h p).state.finSent
        = (s.state.finSent || (s.codeBits (s.dataLen p) false).fin) := by
  obtain ⟨-, -, hfin⟩ := hs.codeBits (s.dataLen p)
  have hcases : (s.sendPacket h p).state
      = if (s.codeBits (s.dataLen p) false).fin then
          if s.state = .sendFin2 then .lastAck else .finWait1
        else s.state := rfl
  rw [hcases]
  cases hbit : (s.codeBits (s.dataLen p) false).fin with
  | false =>
      rw [if_neg Bool.false_ne_true, Bool.or_false]
      exact ⟨hs.joined, rfl, fun hst => hst, rfl⟩
  | true =>
      rcases (hfin hbit).1 with hst | hst
      · rw [hst]
        exact ⟨rfl, rfl, by decide, rfl⟩
      · rw [hst]
        exact ⟨rfl, rfl, by decide, rfl⟩

/-- The sender's side when a packet went out, and was put into `sent` or
not. -/
theorem Goes.sends {C' : Channel Byte} {p : Word} {ps : List Word}
    (hg : Goes s C C' p) (hs : Sends n C s) (hlive : Alive n C s)
    (hsane : Sane h buf s) (hout : s.outgoing.toList = p :: ps) (hn : 0 < n)
    (hseq : (s.sendPacket h p).seqNum.toNat
      = n + C'.sent.length + C'.ended.toNat) {sent : RingBuffer Word}
    {t : Socket} (ht : SameOut { s.sendPacket h p with
      outgoing := s.outgoing.dequeue.2, sent := sent } t)
    (hst : t.state = (s.sendPacket h p).state)
    (hdata : s.acked ++ s.payloads sent.toList = C'.sent)
    (hstamps : Stamped n s.payload (s.sendPacket h p).bufSeqNum
      s.acked.length sent.toList)
    (hfrom : ∀ q ∈ sent.toList, q = p ∨ q ∈ s.sent.toList) :
    Sends n C' t := by
  obtain ⟨-, hrst, -⟩ := hsane.codeBits (s.dataLen p)
  obtain ⟨-, -, -, hstate⟩ := hsane.sendPacket_state p
  obtain ⟨hwritten, hlast⟩ := hg.rest hlive hsane hout
  have hq := (Ring.dequeue_cons hout).2
  have hacked : C'.acked = C.acked := by
    rw [hg.push]
    rfl
  refine Sends.same (s := { s.sendPacket h p with
      outgoing := s.outgoing.dequeue.2, sent := sent }) ?_ ht
    (congrArg TcpState.finSent hst) fun hclosed => hst.trans hclosed
  refine ⟨hs.acked.trans hacked.symm, hseq,
    BitVec.le_trans hs.oldest (hg.seq_le hs hseq), hg.wire hs hseq, ?_,
    .inl ⟨hdata, hstamps, fun q hin => ?_, ?_, ?_, ?_⟩⟩
  · refine ⟨⟨s.payloads ps, hwritten⟩, fun hend => ?_⟩
    show C'.sent = s.written
    rw [← hwritten, hlast hend, List.append_nil]
  · have hr := hg.resendable hs hlive hrst hn hseq (hfrom q hin)
    exact ⟨hr.stamp, hr.rst, hr.wire⟩
  · show C'.sent ++ s.payloads s.outgoing.dequeue.2.toList = s.written
    rw [hq]
    exact hwritten
  · show C'.ended = true → s.payloads s.outgoing.dequeue.2.toList = []
    rw [hq]
    exact hlast
  · show C'.ended = (s.sendPacket h p).state.finSent
    rw [hg.ended_eq, hstate, hlive.ended]

/-- The receiver's side is not touched when a packet goes out. -/
theorem Receives.sendPacket (hr : Receives m D s) (hs : Sane h buf s)
    (p : Word) : Receives m D (s.sendPacket h p) where
  ack := hr.ack
  got := hr.got
  closed hne := by
    obtain ⟨-, hseen, hclosed, -⟩ := hs.sendPacket_state p
    rw [hseen]
    refine hr.closed fun hst => hne ?_
    have hcases : (s.sendPacket h p).state
        = if (s.codeBits (s.dataLen p) false).fin then
            if s.state = .sendFin2 then .lastAck else .finWait1
          else s.state := rfl
    have hbits : (s.codeBits (s.dataLen p) false).fin = false := by
      unfold Socket.codeBits
      rw [hst]
      rfl
    rw [hcases, hbits, hst]
    rfl
  wire seg hseg hrst := by
    rcases List.mem_append.mp hseg with hold | hnew
    · exact hr.wire seg hold hrst
    · rw [List.mem_singleton.mp hnew]
      exact BitVec.le_refl _

/-- The first packet's data and FIN go out. -/
theorem Agrees.sendPending (ha : Agrees h buf n m C D s) {p : Word}
    {ps : List Word} (hout : s.outgoing.toList = p :: ps)
    (hroom : s.sent.hasRoom = true) (hn : 0 < n)
    (hwrap : n + s.written.length + 1 < 2 ^ 32) :
    ∃ C', C.SameGot C' ∧ Agrees h buf n m C' D (s.sendPending h p) := by
  have hq := (Ring.dequeue_cons hout).2
  have hmem : p ∈ s.outgoing.toList := hout ▸ List.mem_cons_self
  rcases ha.sends.queues with hlive | hdead
  · obtain ⟨C', hg⟩ := hlive.goes ha.sane hout
    have hlen := congrArg List.length hlive.outgoing
    rw [hout, Socket.payloads_cons, List.length_append, List.length_append,
      Socket.length_payload] at hlen
    have hseq : (s.sendPacket h p).seqNum.toNat
        = n + C'.sent.length + C'.ended.toNat := by
      rw [hg.push]
      exact ha.sends.account (Socket.length_payload p)
        (ha.sane.codeBits (s.dataLen p)).1 hg.empty hg.open_ (by omega)
    have hjoined := (ha.sane.sendPacket_state (h := h) p).1
    have hstamped : Stamped n s.payload (s.sendPacket h p).bufSeqNum
        s.acked.length s.sent.toList :=
      hlive.stamped.update fun hin => ha.sane.payload_of_mem hmem hin
    have hflags : ∀ b ∈ s.outgoing.dequeue.2.toList,
        (s.sendPacket h p).wasAckOnly b = true → s.dataLen b = 0 := by
      intro b hb hflag
      rw [hq] at hb
      exact ha.sane.ackOnly.flag (hout ▸ List.mem_cons_of_mem p hb) hflag
    have hreceives := ha.receives.sendPacket ha.sane p
    refine ⟨C', hg.sameGot, ?_⟩
    rcases s.sendPending_cases (h := h) p with ⟨hflag, heq⟩ | ⟨-, heq⟩
    · -- an acknowledgement, which nobody will acknowledge
      have hempty := (s.payload_eq_nil_iff p).mpr
        (ha.sane.ackOnly.flag hmem hflag)
      have hsame : Keeps h s.toStack (s.sendPacket h p).toStack :=
        ⟨fun hc => ⟨hc.free, hc.outgoing, hc.sent⟩, fun _ _ => rfl⟩
      have hkeep := hsame.trans (keeps_fromOutgoing
        (q := s.outgoing.dequeue.2) hout hq)
      obtain ⟨xs, hxs⟩ := Stack.returnXmitBuf_eq h p
        { (s.sendPacket h p).toStack with outgoing := s.outgoing.dequeue.2 }
      rw [heq]
      rw [hxs] at hkeep ⊢
      refine ⟨hg.sends ha.sends hlive ha.sane hout hn hseq
          (by constructor <;> rfl) rfl ?_ hstamped fun q hin => .inr hin,
        ⟨hreceives.ack, hreceives.got, hreceives.closed, hreceives.wire⟩,
        ha.sane.keeps hkeep hjoined ha.sane.connectPacket hflags⟩
      rw [hg.sent_eq, hempty, List.append_nil]
      exact hlive.sent
    · have hback := Ring.toList_enqueue hroom p
      rw [heq]
      refine ⟨hg.sends ha.sends hlive ha.sane hout hn hseq
          (by constructor <;> rfl) rfl ?_ ?_ fun q hin => ?_,
        ⟨hreceives.ack, hreceives.got, hreceives.closed, hreceives.wire⟩,
        ha.sane.keeps (keeps_toSent (hout.trans (by rw [hq])) hroom _)
          hjoined ha.sane.connectPacket hflags⟩
      · rw [hback, Socket.payloads_append, ← List.append_assoc, hlive.sent,
          hg.sent_eq, Socket.payloads_cons]
        exact congrArg _ (List.append_nil _)
      · rw [hback, stamped_append]
        refine ⟨hstamped, fun hne => ?_⟩
        have hstamp := Goes.stamp (h := h) hn hseq
        have hbefore := congrArg List.length hlive.sent
        rw [List.length_append] at hbefore
        rw [hg.sent_eq, List.length_append] at hseq
        show n + (s.acked.length + (s.payloads s.sent.toList).length) + _ ≤ _
        omega
      · rw [hback] at hin
        rcases List.mem_append.mp hin with hold | hnew
        · exact .inr hold
        · exact .inl (List.mem_singleton.mp hnew)
  · rw [hdead.outgoing] at hout
    cases hout

theorem Socket.sendPending_written (p : Word) :
    (s.sendPending h p).written = s.written := by
  rcases s.sendPending_cases (h := h) p with ⟨-, heq⟩ | ⟨-, heq⟩ <;>
    rw [heq] <;> rfl

theorem Agrees.sendLoop (hn : 0 < n) (probe : Bool) (k : Nat) :
    ∀ (s : Socket) (C : Channel Byte), Agrees h buf n m C D s →
      n + s.written.length + 1 < 2 ^ 32 →
      ∃ C', C.SameGot C' ∧ Agrees h buf n m C' D (s.sendLoop h probe k) := by
  induction k with
  | zero => exact fun s C ha _ => ⟨C, .refl C, ha⟩
  | succ k ih =>
      intro s C ha hwrap
      unfold Socket.sendLoop
      split
      · next hready =>
          split
          · exact ⟨C, .refl C, ha⟩
          · next p hpeek =>
              obtain ⟨ps, hout⟩ := Ring.toList_of_peek hpeek
              split
              · split
                · exact ⟨C, .refl C, ha.sendPureAck hn true⟩
                · exact ⟨C, .refl C, ha⟩
              · obtain ⟨C₁, hsame, ha₁⟩ :=
                  ha.sendPending hout hready.2 hn hwrap
                obtain ⟨C₂, hsame', ha₂⟩ := ih _ C₁ ha₁
                  (by rw [Socket.sendPending_written]; exact hwrap)
                exact ⟨C₂, hsame.trans hsame', ha₂⟩
      · exact ⟨C, .refl C, ha⟩

/-- What is sent again is what was sent. -/
theorem Agrees.resendPacket (ha : Agrees h buf n m C D s) {p : Word}
    (hp : p ∈ s.sent.toList) : Agrees h buf n m C D (s.resendPacket p) := by
  rcases ha.sends.queues with hlive | hdead
  · have hr := hlive.resendable p hp
    exact ha.emit (ha.sends.wire _ hr.wire) (ha.receives.wire _ hr.wire)
  · rw [hdead.sent] at hp
    cases hp

theorem Agrees.drivePackets (ha : Agrees h buf n m C D s) (hn : 0 < n)
    (hwrap : n + s.written.length + 1 < 2 ^ 32) (overdue : Socket.Overdue)
    (probe : Bool) :
    ∃ C', C.SameGot C'
      ∧ Agrees h buf n m C' D (s.drivePackets h overdue probe) := by
  unfold Socket.drivePackets
  split
  · exact ⟨C, .refl C, ha.destroy⟩
  · next p hpeek =>
      obtain ⟨ps, hsent⟩ := Ring.toList_of_peek hpeek
      exact ⟨C, .refl C, ha.resendPacket (hsent ▸ List.mem_cons_self)⟩
  · exact Agrees.sendLoop hn probe _ s C ha hwrap

-- ==================================================== the user's calls

theorem Agrees.closeLocal (ha : Agrees h buf n m C D s) :
    Agrees h buf n m C D (s.closeLocal h) := by
  have hjoined := ha.sane.joined
  have hclose : ∀ st : TcpState, st.joined = true → s.state ≠ .closed →
      st.finSent = s.state.finSent → st.finSeen = s.state.finSeen →
      Agrees h buf n m C D { s with state := st } := by
    intro st hj hne hsent hseen
    exact ha.setState hj (fun hst => absurd hst hne) hsent
      fun _ => (ha.receives.closed hne).trans hseen.symm
  have hfinish : ∀ st : TcpState, st.joined = true → s.state ≠ .closed →
      st.finSent = s.state.finSent → st.finSeen = s.state.finSeen →
      Agrees h buf n m C D
        (if ({ s with state := st } : Socket).outgoing.entries = 0 then
          ({ s with state := st } : Socket).enqueueConnectPacket h
        else { s with state := st }) := by
    intro st hj hne hsent hseen
    have ha' := hclose st hj hne hsent hseen
    split
    · exact ha'.enqueueConnectPacket
    · exact ha'
  unfold Socket.closeLocal
  simp only
  cases hst : s.state with
  | closed =>
      exact ha.setState rfl (fun _ => rfl) (by rw [hst])
        fun hno => absurd rfl hno
  | timeWait =>
      exact ha.setState rfl (fun _ => rfl) (by rw [hst]; rfl)
        fun hno => absurd rfl hno
  | established =>
      exact hfinish .sendFin1 rfl (by rw [hst]; decide) (by rw [hst]; rfl)
        (by rw [hst]; rfl)
  | closeWait =>
      exact hfinish .sendFin2 rfl (by rw [hst]; decide) (by rw [hst]; rfl)
        (by rw [hst]; rfl)
  | listen =>
      rw [hst] at hjoined
      cases hjoined
  | synSent =>
      rw [hst] at hjoined
      cases hjoined
  | synRecved =>
      rw [hst] at hjoined
      cases hjoined
  | _ => exact ha

theorem Agrees.isCloseDone (ha : Agrees h buf n m C D s) (timeout : Bool) :
    Agrees h buf n m C D (s.isCloseDone h timeout) := by
  unfold Socket.isCloseDone
  split
  · exact ha.destroy
  · exact ha

theorem Agrees.receive (ha : Agrees h buf n m C D s) (q : RingBuffer Packet) :
    Agrees h buf n m C D { s with incoming := q } where
  sends := ha.sends.same (by constructor <;> rfl) rfl fun hst => hst
  receives := ⟨ha.receives.ack, ha.receives.got, ha.receives.closed,
    ha.receives.wire⟩
  sane := ha.sane.keeps ⟨fun hc => ⟨hc.free, hc.outgoing, hc.sent⟩,
    fun _ _ => rfl⟩ ha.sane.joined ha.sane.connectPacket ha.sane.ackOnly

/-- A copy is what was copied. -/
theorem map_getD_range (bytes : List Byte) :
    (List.range bytes.length).map (fun i => bytes.getD i 0) = bytes := by
  apply List.ext_getElem
  · rw [List.length_map, List.length_range]
  · intro i hi hi'
    rw [List.getElem_map, List.getElem_range, List.getD_eq_getElem _ _ hi']

theorem Stack.getXmitBuf_eq (st : Stack) :
    ∃ xs, st.getXmitBuf.2 = { st with xmitBuffers := xs } := by
  unfold getXmitBuf
  split
  · exact ⟨_, rfl⟩
  · exact ⟨_, rfl⟩

/-- Wherever `enqueue` turns back it says so. -/
theorem Socket.enqueue_refuses {b : Word} (hrefuses : s.refuses h b = true) :
    (s.toStack.enqueue h b).1 ≠ 0 := by
  have hbad : tcpRcBad ≠ 0 := by decide
  have hmuch : tcpRcTooMuchData ≠ 0 := by decide
  unfold Socket.refuses at hrefuses
  simp only [Bool.or_eq_true, Bool.and_eq_true, decide_eq_true_iff]
    at hrefuses
  unfold Stack.enqueue
  split
  · exact hbad
  · next hopen =>
      split
      · exact hmuch
      · next hlen => exact absurd hrefuses (by tauto)

/-- The buffer is enqueued and the next one is taken. -/
theorem Kept.sendNew {st : Stack} {b : Word} (hk : Kept h ⟨st, b, []⟩)
    (hpool : b ∈ h.pool) :
    Kept h ⟨(st.enqueue h b).2.getXmitBuf.2, (st.enqueue h b).2.getXmitBuf.1,
      []⟩ := by
  have hclean : Clean h (st.enqueue h b).2 :=
    enqueue_clean (.inl hpool) hk.clean
  refine ⟨getXmitBuf_clean hclean, fun c hc => ?_, ?_⟩
  · have hone : st.places c + (if b = c then 1 else 0) ≤ 1 := hk.once c hc
    have htake := getXmitBuf_places (st.enqueue h b).2 hc
    have hle : (st.enqueue h b).2.places c
        ≤ st.places c + if b = c then 1 else 0 := by
      by_cases hzero : (st.enqueue h b).1 = 0
      · exact Nat.le_of_eq (enqueue_places hzero hc)
      · rw [(keeps_refused hzero).places c hc]
        exact Nat.le_add_right _ _
    rw [Globals.places]
    exact htake.le.trans (hle.trans hone)
  · by_cases hfree : (st.enqueue h b).2.xmitBuffers = []
    · exact .inr (getXmitBuf_nil hfree)
    · exact .inl (getXmitBuf_mem hclean hfree)

theorem payload_fill (b : Word) (bytes : List Byte) :
    (s.fill b bytes).payload b = bytes := by
  unfold Socket.payload Socket.fill Socket.setLen Stack.setDataLen
  simp only [Function.update_self]
  exact map_getD_range bytes

theorem payload_fill_of_ne {b c : Word} (bytes : List Byte) (hne : c ≠ b) :
    (s.fill b bytes).payload c = s.payload c := by
  unfold Socket.payload Socket.fill Socket.setLen Stack.setDataLen
  simp only [Function.update_of_ne hne]

/-- A buffer that is in no queue is written. -/
theorem payloads_fill {b : Word} {bs : List Word} (bytes : List Byte)
    (hb : b ∉ bs) : (s.fill b bytes).payloads bs = s.payloads bs :=
  List.flatMap_congr fun _ hc =>
    payload_fill_of_ne bytes fun heq => hb (heq ▸ hc)

/-- What the program has written to its buffer, nobody else looks at. -/
theorem Alive.fill {b : Word} (ha : Alive n C s) (bytes : List Byte)
    (hout : b ∉ s.outgoing.toList) (hsent : b ∉ s.sent.toList) :
    Alive n C (s.fill b bytes) where
  sent := (congrArg (s.acked ++ ·) (payloads_fill bytes hsent)).trans ha.sent
  stamped := ha.stamped.congr fun p hp =>
    payload_fill_of_ne bytes fun heq => hsent (heq ▸ hp)
  resendable p hp := by
    have hp' : p ∈ s.sent.toList := hp
    have hne : p ≠ b := fun heq => hsent (heq ▸ hp')
    have hr := ha.resendable p hp
    refine ⟨hr.stamp, hr.rst, ?_⟩
    rw [payload_fill_of_ne bytes hne]
    exact hr.wire
  outgoing :=
    (congrArg (C.sent ++ ·) (payloads_fill bytes hout)).trans ha.outgoing
  last hended := (payloads_fill bytes hout).trans (ha.last hended)
  ended := ha.ended

/-- A buffer is enqueued while more may be sent, and the program notes
what it has sent. -/
theorem Alive.enqueue (ha : Alive n C s) (hopen : C.ended = false) (b : Word) :
    Alive n C { (s.enqueue h b).2 with
      written := if (s.enqueue h b).1 = tcpRcGood then
        s.written ++ s.payload b else s.written } := by
  obtain ⟨q, xs, heq, hcases⟩ := Stack.enqueue_eq h b s.toStack
  unfold Socket.enqueue
  simp only
  rw [heq]
  refine ⟨ha.sent, ha.stamped, fun p hp => ?_, ?_, fun hended => ?_, ha.ended⟩
  · have hr := ha.resendable p hp
    exact ⟨hr.stamp, hr.rst, hr.wire⟩
  · show C.sent ++ s.payloads q.toList = _
    rcases hcases with ⟨hrc, hlight⟩ | ⟨hrc, q', hlight, hq⟩
    · have hbad : ¬ (s.toStack.enqueue h b).1 = tcpRcGood := hrc
      rw [if_neg hbad, hlight.payloads]
      exact ha.outgoing
    · have hgood : (s.toStack.enqueue h b).1 = tcpRcGood := hrc
      rw [if_pos hgood, hq, Socket.payloads_append, hlight.payloads,
        ← List.append_assoc, ha.outgoing, Socket.payloads_cons]
      exact congrArg _ (List.append_nil _)
  · rw [hopen] at hended
    cases hended

/-- The flags after `enqueue`: that of a buffer that waits is for what it
was sent as last. -/
theorem enqueue_ackOnly {b : Word} (hack : s.Marked) {c : Word}
    (hc : c ∈ (s.enqueue h b).2.outgoing.toList)
    (hflag : (s.enqueue h b).2.wasAckOnly c = true)
    (hb : b ∉ s.outgoing.toList) : s.dataLen c = 0 := by
  obtain ⟨q, xs, heq, hcases⟩ := Stack.enqueue_eq h b s.toStack
  have hout : (s.enqueue h b).2.outgoing = q := by
    show (s.toStack.enqueue h b).2.outgoing = q
    rw [heq]
  rw [hout] at hc
  have hold : c ∈ s.outgoing.toList → s.dataLen c = 0 := by
    intro hmem
    rw [s.enqueue_flags b fun hcb => hb (hcb ▸ hmem)] at hflag
    exact hack c hmem hflag
  rcases hcases with ⟨-, hlight⟩ | ⟨hrc, q', hlight, hq⟩
  · exact hold (hlight.subset hc)
  · rw [hq] at hc
    rcases List.mem_append.mp hc with hmem | hnew
    · exact hold (hlight.subset hmem)
    · -- its flag has just been cleared
      have hrefuses : s.refuses h b = false := by
        by_contra hno
        exact Socket.enqueue_refuses (Bool.eq_true_of_not_eq_false hno) hrc
      rw [List.mem_singleton.mp hnew] at hflag
      unfold Socket.enqueue at hflag
      simp only [hrefuses] at hflag
      rw [if_neg Bool.false_ne_true, Function.update_self] at hflag
      cases hflag

theorem Socket.Marked.fill (hs : s.Marked) {b : Word} (bytes : List Byte)
    (hfree : b ∉ s.outgoing.toList) : (s.fill b bytes).Marked := by
  intro c hc hflag
  have hmem : c ∈ s.outgoing.toList := hc
  refine (Function.update_of_ne ?_ _ _).trans (hs c hc hflag)
  exact fun heq => hfree (heq ▸ hmem)

/-- The program writes to its own buffer, so no packet that waits or was
sent is overwritten. -/
theorem Agrees.fill (ha : Agrees h buf n m C D s) (hne : buf ≠ 0)
    (bytes : List Byte) : Agrees h buf n m C D (s.fill buf bytes) := by
  have hown := ha.sane.kept.owned hne
  refine ⟨⟨ha.sends.acked, ha.sends.seq, ha.sends.oldest, ha.sends.wire,
    ha.sends.written, ha.sends.queues.imp
      (·.fill bytes hown.outgoing hown.sent)
      fun hq => ⟨hq.state, hq.sent, hq.outgoing⟩⟩,
    ⟨ha.receives.ack, ha.receives.got, ha.receives.closed,
      ha.receives.wire⟩,
    ha.sane.keeps (keeps_setDataLen h buf bytes.length s.toStack)
      ha.sane.joined ?_ (ha.sane.ackOnly.fill bytes hown.outgoing)⟩
  refine (Function.update_of_ne ?_ _ _).trans ha.sane.connectPacket
  exact fun heq => h.apart (heq ▸ hown.pool)

/-- Then the buffer waits behind the others, or was refused, and the
program has another one. -/
theorem Agrees.sendNew (ha : Agrees h buf n m C D s) (hne : buf ≠ 0)
    (hlive : Alive n C s) (hopen : C.ended = false) :
    Agrees h (s.toStack.enqueue h buf).2.getXmitBuf.1 n m C D
      { (s.enqueue h buf).2 with
        toStack := (s.toStack.enqueue h buf).2.getXmitBuf.2
        written := if (s.enqueue h buf).1 = tcpRcGood
          then s.written ++ s.payload buf else s.written } := by
  have hown := ha.sane.kept.owned hne
  have hkept := ha.sane.kept.sendNew hown.pool
  have hqueues := hlive.enqueue (h := h) hopen buf
  have hflags := fun c hc hflag => enqueue_ackOnly (h := h) (c := c)
    ha.sane.ackOnly hc hflag hown.outgoing
  obtain ⟨q, xs, heq, -⟩ := Stack.enqueue_eq h buf s.toStack
  obtain ⟨ys, hys⟩ := Stack.getXmitBuf_eq (s.toStack.enqueue h buf).2
  have hst : (s.toStack.enqueue h buf).2.getXmitBuf.2
      = { s.toStack with outgoing := q, xmitBuffers := ys } := by
    rw [hys, heq]
  obtain ⟨w, hw⟩ : ∃ w, (s.enqueue h buf).2 = { s with
      toStack := { s.toStack with outgoing := q, xmitBuffers := xs }
      wasAckOnly := w } := by
    refine ⟨(s.enqueue h buf).2.wasAckOnly, ?_⟩
    unfold Socket.enqueue
    simp only
    rw [heq]
  rw [hw] at hqueues hflags ⊢
  rw [hst] at hkept ⊢
  exact ⟨⟨ha.sends.acked, ha.sends.seq, ha.sends.oldest, ha.sends.wire,
      hqueues.covers, .inl (hqueues.same (by constructor <;> rfl) rfl)⟩,
    ⟨ha.receives.ack, ha.receives.got, ha.receives.closed, ha.receives.wire⟩,
    ⟨hkept, ha.sane.joined, ha.sane.connectPacket, hflags⟩⟩

/-- A socket that is closed refuses the buffer, which is nowhere then. -/
theorem Agrees.sendClosed (ha : Agrees h buf n m C D s) (hne : buf ≠ 0)
    (hclosed : s.state = .closed) :
    Agrees h s.getXmitBuf.1 n m C D { s with toStack := s.getXmitBuf.2 } := by
  have hkept := ha.sane.kept.sendNew (ha.sane.kept.owned hne).pool
  rw [Stack.enqueue_closed hclosed] at hkept
  obtain ⟨xs, hxs⟩ := s.getXmitBuf_eq
  simp only at hkept
  rw [hxs] at hkept ⊢
  exact ⟨ha.sends.same (by constructor <;> rfl) rfl fun hst => hst,
    ⟨ha.receives.ack, ha.receives.got, ha.receives.closed, ha.receives.wire⟩,
    ⟨hkept, ha.sane.joined, ha.sane.connectPacket, ha.sane.ackOnly⟩⟩

theorem Socket.enqueue_closed (hclosed : s.state = .closed) (b : Word) :
    s.enqueue h b = (tcpRcBad, s) := by
  have hrefuses : s.refuses h b = true := by
    unfold Socket.refuses
    rw [hclosed]
    rfl
  unfold Socket.enqueue
  rw [Stack.enqueue_closed hclosed, hrefuses, if_pos rfl]

theorem send_agrees {p : Peer}
    (ha : Agrees h p.sendBuffer n m C D p.toSocket) (bytes : List Byte) :
    Agrees h (p.send h bytes).sendBuffer n m C D (p.send h bytes).toSocket := by
  unfold Peer.send
  split
  · exact ha
  · next hok =>
      simp only [not_or, not_and, not_lt, Bool.not_eq_false] at hok
      obtain ⟨hne, -, hcomplete⟩ := hok
      have hfilled := ha.fill hne bytes
      by_cases hclosed : p.state = .closed
      · have hsent := hfilled.sendClosed hne hclosed
        simp only
        rw [Socket.enqueue_closed (s := p.fill p.sendBuffer bytes) hclosed]
        exact hsent
      · have hstate := hcomplete hclosed
        have hlive : Alive n C p.toSocket := by
          rcases ha.sends.queues with hlive | hdead
          · exact hlive
          · exact absurd hdead.state hclosed
        have hopen : C.ended = false := by
          rw [hlive.ended]
          unfold TcpState.isConnectComplete at hstate
          rw [Bool.or_eq_true] at hstate
          rcases hstate with hst | hst <;> rw [of_decide_eq_true hst] <;> rfl
        have hown := ha.sane.kept.owned hne
        have hsent := hfilled.sendNew hne
          (hlive.fill bytes hown.outgoing hown.sent) hopen
        rw [payload_fill] at hsent
        exact hsent

end Pdtb.Net
