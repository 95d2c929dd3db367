/-
What a socket has to do with the two streams of its connection.

Each direction is a `Channel`. `Sends` says what the sender's socket has to
do with it: which bytes its sequence numbers stand for, what its queues
hold, and that every segment it ever sent tells the truth. `Receives` says
it of the receiver's. A step at one end changes the sender's side of one
channel and the receiver's side of the other, and a segment from the other
end is all it knows of that (`Agrees.process`).

Sequence numbers must not wrap: `removeSentPackets` compares them as
numbers (see `removable_iff`).
-/
import Pdtb.Net.Socket
import Pdtb.Lib.Channel
import Pdtb.Proofs.Custody

namespace Pdtb.Net

open Lib Asm

variable {h : Host} {buf : Word} {n m : Nat} {C D : Channel Byte} {s : Socket}

-- ==================================================== states

/-- A FIN was sent, or nothing more will be. -/
def TcpState.finSent (st : TcpState) : Bool :=
  st = .finWait1 || st = .finWait2 || st = .closing || st = .lastAck
    || st = .timeWait || st = .closed

/-- A FIN has come. -/
def TcpState.finSeen (st : TcpState) : Bool :=
  st = .closeWait || st = .sendFin2 || st = .lastAck || st = .closing
    || st = .timeWait

/-- A state after the connection was made. -/
def TcpState.joined (st : TcpState) : Bool :=
  st ≠ .listen && st ≠ .synSent && st ≠ .synRecved && st ≠ .sendFin3

-- ==================================================== segments

/-- A segment whose data and FIN are where they belong; the stream begins
with the number `n`. -/
structure Placed (n : Nat) (C : Channel Byte) (seg : TcpSegment) : Prop where
  data : seg.data ≠ [] →
    ∃ k, seg.tcp.seqnum.toNat = n + k ∧ C.Carries k seg.data
  fin : seg.tcp.codeBits.fin = true →
    ∃ k, seg.tcp.seqnum.toNat = n + k ∧ C.Ends (k + seg.data.length)

theorem Placed.congr {C' : Channel Byte} {seg : TcpSegment}
    (hseg : Placed n C seg) (hsent : C'.sent = C.sent)
    (hended : C'.ended = C.ended) : Placed n C' seg where
  data hne := by
    obtain ⟨k, hk, hcarries⟩ := hseg.data hne
    exact ⟨k, hk, by unfold Channel.Carries at *; rwa [hsent]⟩
  fin hfin := by
    obtain ⟨k, hk, hends⟩ := hseg.fin hfin
    exact ⟨k, hk, by unfold Channel.Ends at *; rwa [hsent, hended]⟩

theorem Placed.push {seg : TcpSegment} {xs : List Byte} {last : Bool}
    {hxs : C.ended = true → xs = []} (hseg : Placed n C seg) :
    Placed n (C.push xs last hxs) seg where
  data hne := by
    obtain ⟨k, hk, hcarries⟩ := hseg.data hne
    exact ⟨k, hk, hcarries.push⟩
  fin hfin := by
    obtain ⟨k, hk, hends⟩ := hseg.fin hfin
    exact ⟨k, hk, hends.push⟩

-- ==================================================== the queues

namespace Socket

/-- The data of these buffers. -/
def payloads (s : Socket) (bs : List Word) : List Byte := bs.flatMap s.payload

theorem payloads_cons (b : Word) (bs : List Word) :
    s.payloads (b :: bs) = s.payload b ++ s.payloads bs := List.flatMap_cons

theorem payloads_append (bs cs : List Word) :
    s.payloads (bs ++ cs) = s.payloads bs ++ s.payloads cs :=
  List.flatMap_append

theorem length_payload (b : Word) :
    (s.payload b).length = s.dataLen b := by
  unfold payload
  rw [List.length_map, List.length_range]

theorem payload_eq_nil_iff (b : Word) :
    s.payload b = [] ↔ s.dataLen b = 0 := by
  rw [← List.length_eq_zero_iff, length_payload]

end Socket

/-- Each packet's `seqNum` is no less than the number of its last byte; the
first byte is `k` into the stream. -/
def Stamped (n : Nat) (payload : Word → List Byte) (stamp : Word → BitVec 32) :
    Nat → List Word → Prop
  | _, [] => True
  | k, p :: ps =>
      (payload p ≠ [] → n + k + (payload p).length ≤ (stamp p).toNat + 1)
        ∧ Stamped n payload stamp (k + (payload p).length) ps

section

variable {payload : Word → List Byte} {stamp : Word → BitVec 32} {k : Nat}
  {p : Word} {ps : List Word}

theorem stamped_append :
    Stamped n payload stamp k (ps ++ [p]) ↔ Stamped n payload stamp k ps
      ∧ (payload p ≠ [] → n + (k + (ps.flatMap payload).length)
        + (payload p).length ≤ (stamp p).toNat + 1) := by
  induction ps generalizing k with
  | nil =>
      show (_ ∧ True) ↔ (True ∧ _)
      rw [and_true, true_and]
      rfl
  | cons q ps ih =>
      show (_ ∧ Stamped n _ _ _ (ps ++ [p])) ↔ ((_ ∧ Stamped n _ _ _ ps) ∧ _)
      rw [ih, List.flatMap_cons, List.length_append, and_assoc,
        ← Nat.add_assoc k]

/-- A packet gets a new number if it is not among these, or has no data. -/
theorem Stamped.update {v : BitVec 32} (hs : Stamped n payload stamp k ps)
    (hp : p ∈ ps → payload p = []) :
    Stamped n payload (Function.update stamp p v) k ps := by
  induction ps generalizing k with
  | nil => trivial
  | cons q ps ih =>
      obtain ⟨hq, hrest⟩ := hs
      refine ⟨fun hne => ?_,
        ih hrest fun hmem => hp (List.mem_cons_of_mem _ hmem)⟩
      by_cases heq : q = p
      · subst heq
        exact absurd (hp List.mem_cons_self) hne
      · rw [Function.update_of_ne heq]
        exact hq hne

theorem Stamped.congr {payload' : Word → List Byte}
    (hs : Stamped n payload stamp k ps)
    (hsame : ∀ p ∈ ps, payload' p = payload p) :
    Stamped n payload' stamp k ps := by
  induction ps generalizing k with
  | nil => trivial
  | cons q ps ih =>
      obtain ⟨hq, hrest⟩ := hs
      unfold Stamped
      rw [hsame q List.mem_cons_self]
      exact ⟨hq, ih hrest fun p hp => hsame p (List.mem_cons_of_mem _ hp)⟩

end

/-- A packet that was sent and may be sent again. -/
structure Resendable (s : Socket) (p : Word) : Prop where
  stamp : s.bufSeqNum p < s.seqNum
  rst : (s.headers p).codeBits.rst = false
  wire : ⟨s.headers p, s.payload p⟩ ∈ s.wire

/-- The queues of a socket that was not destroyed. -/
structure Alive (n : Nat) (C : Channel Byte) (s : Socket) : Prop where
  sent : s.acked ++ s.payloads s.sent.toList = C.sent
  stamped : Stamped n s.payload s.bufSeqNum s.acked.length s.sent.toList
  resendable : ∀ p ∈ s.sent.toList, Resendable s p
  outgoing : C.sent ++ s.payloads s.outgoing.toList = s.written
  last : C.ended = true → s.payloads s.outgoing.toList = []
  ended : C.ended = s.state.finSent

/-- What was sent is the first part of what the program has written, and
all of it once nothing more will be sent. -/
structure Covers (C : Channel Byte) (written : List Byte) : Prop where
  sent : C.sent <+: written
  all : C.ended = true → C.sent = written

theorem Alive.covers (ha : Alive n C s) : Covers C s.written where
  sent := ⟨_, ha.outgoing⟩
  all hended := by
    rw [← ha.outgoing, ha.last hended, List.append_nil]

theorem Covers.congr {C' : Channel Byte} {written : List Byte}
    (hc : Covers C written) (hsent : C'.sent = C.sent)
    (hended : C'.ended = C.ended) : Covers C' written where
  sent := hsent ▸ hc.sent
  all hend := hsent.trans (hc.all (hended ▸ hend))

theorem Covers.length_le {written : List Byte} (hc : Covers C written) :
    C.sent.length ≤ written.length := hc.sent.length_le

/-- And of one that was. -/
structure Dead (s : Socket) : Prop where
  state : s.state = .closed
  sent : s.sent.toList = []
  outgoing : s.outgoing.toList = []

/-- The sender's side of a channel. -/
structure Sends (n : Nat) (C : Channel Byte) (s : Socket) : Prop where
  acked : s.acked = C.acked
  seq : s.seqNum.toNat = n + C.sent.length + C.ended.toNat
  oldest : s.oldestUnackedSeq ≤ s.seqNum
  wire : ∀ seg ∈ s.wire, seg.tcp.codeBits.rst = false →
    seg.tcp.seqnum ≤ s.seqNum ∧ Placed n C seg
  written : Covers C s.written
  queues : Alive n C s ∨ Dead s

/-- The receiver's side. -/
structure Receives (m : Nat) (D : Channel Byte) (s : Socket) : Prop where
  ack : s.ackNum.toNat = m + D.got.length + D.closed.toNat
  got : D.got = s.accepted.flatMap Packet.bytes
  closed : s.state ≠ .closed → D.closed = s.state.finSeen
  wire : ∀ seg ∈ s.wire, seg.tcp.codeBits.rst = false →
    seg.tcp.acknum ≤ s.ackNum

/-- Only packets without data are marked as acknowledgements. -/
def Socket.Marked (s : Socket) : Prop :=
  ∀ b ∈ s.outgoing.toList, s.wasAckOnly b = true → s.dataLen b = 0

/-- What is not about either channel; `buf` is the program's buffer. -/
structure Sane (h : Host) (buf : Word) (s : Socket) : Prop where
  kept : Kept h ⟨s.toStack, buf, []⟩
  joined : s.state.joined = true
  connectPacket : s.dataLen h.connectPacket = 0
  ackOnly : s.Marked

-- ==================================================== what the stack moves

namespace Stack

theorem returnXmitBuf_eq (h : Host) (tmp : Word) (st : Stack) :
    ∃ xs, st.returnXmitBuf h tmp = { st with xmitBuffers := xs } := by
  unfold returnXmitBuf
  split
  · exact ⟨_, rfl⟩
  · exact ⟨st.xmitBuffers, rfl⟩

/-- What waits to be sent may lose a packet without data, in front. -/
structure Lighter (st : Stack) (q : RingBuffer Word) : Prop where
  subset : q.toList ⊆ st.outgoing.toList
  data : ∀ f : Word → List Byte, (∀ b, st.dataLen b = 0 → f b = []) →
    q.toList.flatMap f = st.outgoing.toList.flatMap f

theorem piggyback_eq (h : Host) (st : Stack) :
    ∃ q xs, st.piggyback h = { st with outgoing := q, xmitBuffers := xs }
      ∧ st.Lighter q := by
  have hsame : st.Lighter st.outgoing := ⟨fun _ hb => hb, fun _ _ => rfl⟩
  unfold piggyback
  split
  · split
    · exact ⟨_, _, rfl, hsame⟩
    · next first q hdequeue =>
        split
        · next hempty =>
            have hcons := Ring.toList_of_dequeue hdequeue
            obtain ⟨xs, hxs⟩ :=
              returnXmitBuf_eq h first { st with outgoing := q }
            refine ⟨q, xs, hxs, ?_, ?_⟩
            · rw [hcons]
              exact List.subset_cons_self _ _
            · intro f hf
              rw [hcons, List.flatMap_cons, hf first hempty, List.nil_append]
        · exact ⟨_, _, rfl, hsame⟩
  · exact ⟨_, _, rfl, hsame⟩

/-- A buffer is refused, or waits behind what waited so far. -/
theorem enqueue_eq (h : Host) (buf : Word) (st : Stack) :
    ∃ q xs, (st.enqueue h buf).2
        = { st with outgoing := q, xmitBuffers := xs }
      ∧ ((st.enqueue h buf).1 ≠ 0 ∧ st.Lighter q
        ∨ (st.enqueue h buf).1 = 0 ∧ ∃ q', st.Lighter q'
          ∧ q.toList = q'.toList ++ [buf]) := by
  obtain ⟨q', xs, hpig, hlight⟩ := piggyback_eq h st
  have hsame : st.Lighter st.outgoing := ⟨fun _ hb => hb, fun _ _ => rfl⟩
  rcases enqueue_cases h buf st with ⟨hrc, heq | heq⟩ | ⟨hrc, q, hq, heq⟩
  · exact ⟨_, _, heq, .inl ⟨hrc, hsame⟩⟩
  · exact ⟨q', xs, heq.trans hpig, .inl ⟨hrc, hlight⟩⟩
  · rw [hpig] at hq heq
    exact ⟨q, xs, heq, .inr ⟨hrc, q', hlight, hq⟩⟩

theorem clearOutgoing_eq (h : Host) (k : Nat) (st : Stack) :
    ∃ q xs, st.clearOutgoing h k = { st with outgoing := q, xmitBuffers := xs }
      ∧ (st.outgoing.toList.length ≤ k → q.toList = []) := by
  induction k generalizing st with
  | zero =>
      exact ⟨_, _, rfl, fun hle => List.length_eq_zero_iff.mp (by omega)⟩
  | succ k ih =>
      unfold clearOutgoing
      split
      · next hdequeue =>
          refine ⟨_, _, rfl, fun _ => ?_⟩
          cases hlist : st.outgoing.toList with
          | nil => rfl
          | cons b bs =>
              have hfirst := (Ring.dequeue_cons hlist).1
              rw [hdequeue] at hfirst
              cases hfirst
      · next p q hdequeue =>
          have hcons := Ring.toList_of_dequeue hdequeue
          obtain ⟨xs, hxs⟩ := returnXmitBuf_eq h p { st with outgoing := q }
          rw [hxs]
          obtain ⟨q', xs', heq, hnil⟩ :=
            ih { st with outgoing := q, xmitBuffers := xs }
          refine ⟨q', xs', heq, fun hle => hnil ?_⟩
          rw [hcons, List.length_cons] at hle
          show q.toList.length ≤ k
          omega

theorem clearSent_eq (h : Host) (k : Nat) (st : Stack) :
    ∃ q xs, st.clearSent h k = { st with sent := q, xmitBuffers := xs }
      ∧ (st.sent.toList.length ≤ k → q.toList = []) := by
  induction k generalizing st with
  | zero =>
      exact ⟨_, _, rfl, fun hle => List.length_eq_zero_iff.mp (by omega)⟩
  | succ k ih =>
      unfold clearSent
      split
      · next hdequeue =>
          refine ⟨_, _, rfl, fun _ => ?_⟩
          cases hlist : st.sent.toList with
          | nil => rfl
          | cons b bs =>
              have hfirst := (Ring.dequeue_cons hlist).1
              rw [hdequeue] at hfirst
              cases hfirst
      · next p q hdequeue =>
          have hcons := Ring.toList_of_dequeue hdequeue
          obtain ⟨xs, hxs⟩ := returnXmitBuf_eq h p { st with sent := q }
          rw [hxs]
          obtain ⟨q', xs', heq, hnil⟩ :=
            ih { st with sent := q, xmitBuffers := xs }
          refine ⟨q', xs', heq, fun hle => hnil ?_⟩
          rw [hcons, List.length_cons] at hle
          show q.toList.length ≤ k
          omega

/-- A socket that is destroyed is closed, and its queues are empty. -/
theorem destroy_eq (h : Host) (st : Stack) :
    ∃ out sent inc xs, st.destroy h
        = { st with
          state := .closed
          outgoing := out
          sent := sent
          incoming := inc
          xmitBuffers := xs }
      ∧ out.toList = [] ∧ sent.toList = [] := by
  obtain ⟨out, xs, hout, hnilOut⟩ := clearOutgoing_eq h st.outgoing.entries st
  obtain ⟨sent, xs', hsent, hnilSent⟩ := clearSent_eq h st.sent.entries
    { st with outgoing := out, xmitBuffers := xs }
  unfold destroy clearQueues
  simp only
  rw [hout, hsent]
  refine ⟨out, sent, _, xs', rfl, hnilOut ?_, hnilSent ?_⟩
  · rw [Ring.length_toList]
  · exact (Ring.length_toList _).le

end Stack

-- ==================================================== small steps

/-- The stack has moved what it may move. -/
theorem Sane.keeps {s' : Socket} (hs : Sane h buf s)
    (hk : Keeps h s.toStack s'.toStack) (hjoined : s'.state.joined = true)
    (hlen : s'.dataLen h.connectPacket = 0)
    (hack : ∀ b ∈ s'.outgoing.toList, s'.wasAckOnly b = true →
      s'.dataLen b = 0) : Sane h buf s' where
  kept := hs.kept.keeps hk rfl
  joined := hjoined
  connectPacket := hlen
  ackOnly := hack

/-- Nothing has changed that a sender's side is about, but perhaps the
state. -/
structure SameOut (s s' : Socket) : Prop where
  acked : s'.acked = s.acked
  seqNum : s'.seqNum = s.seqNum
  oldest : s'.oldestUnackedSeq = s.oldestUnackedSeq
  wire : s'.wire = s.wire
  written : s'.written = s.written
  sent : s'.sent = s.sent
  outgoing : s'.outgoing = s.outgoing
  payload : s'.payload = s.payload
  stamp : s'.bufSeqNum = s.bufSeqNum
  headers : s'.headers = s.headers

theorem Resendable.same {s' : Socket} {p : Word} (hr : Resendable s p)
    (hsame : SameOut s s') : Resendable s' p where
  stamp := by
    rw [hsame.stamp, hsame.seqNum]
    exact hr.stamp
  rst := by
    rw [hsame.headers]
    exact hr.rst
  wire := by
    rw [hsame.headers, hsame.payload, hsame.wire]
    exact hr.wire

theorem Alive.same {s' : Socket} (ha : Alive n C s) (hsame : SameOut s s')
    (hstate : s'.state.finSent = s.state.finSent) : Alive n C s' where
  sent := by
    unfold Socket.payloads
    rw [hsame.acked, hsame.payload, hsame.sent]
    exact ha.sent
  stamped := by
    rw [hsame.acked, hsame.payload, hsame.sent, hsame.stamp]
    exact ha.stamped
  resendable p hp := (ha.resendable p (hsame.sent ▸ hp)).same hsame
  outgoing := by
    unfold Socket.payloads
    rw [hsame.payload, hsame.outgoing, hsame.written]
    exact ha.outgoing
  last hended := by
    unfold Socket.payloads
    rw [hsame.payload, hsame.outgoing]
    exact ha.last hended
  ended := ha.ended.trans hstate.symm

theorem Sends.same {s' : Socket} (hs : Sends n C s) (hsame : SameOut s s')
    (hstate : s'.state.finSent = s.state.finSent)
    (hdead : s.state = .closed → s'.state = .closed) : Sends n C s' where
  acked := hsame.acked.trans hs.acked
  seq := by
    rw [hsame.seqNum]
    exact hs.seq
  oldest := by
    rw [hsame.oldest, hsame.seqNum]
    exact hs.oldest
  wire := by
    rw [hsame.wire, hsame.seqNum]
    exact hs.wire
  written := by
    rw [hsame.written]
    exact hs.written
  queues := hs.queues.imp (·.same hsame hstate) fun hq =>
    ⟨hdead hq.state, by rw [hsame.sent]; exact hq.sent,
      by rw [hsame.outgoing]; exact hq.outgoing⟩

/-- A socket agrees with its side of both channels. -/
structure Agrees (h : Host) (buf : Word) (n m : Nat) (C D : Channel Byte)
    (s : Socket) : Prop where
  sends : Sends n C s
  receives : Receives m D s
  sane : Sane h buf s

theorem Alive.emit (ha : Alive n C s) (seg : TcpSegment) :
    Alive n C (s.emit seg) where
  sent := ha.sent
  stamped := ha.stamped
  resendable p hp :=
    have hr := ha.resendable p hp
    ⟨hr.stamp, hr.rst, List.mem_append_left _ hr.wire⟩
  outgoing := ha.outgoing
  last := ha.last
  ended := ha.ended

theorem Sends.emit (hs : Sends n C s) {seg : TcpSegment}
    (hseg : seg.tcp.codeBits.rst = false →
      seg.tcp.seqnum ≤ s.seqNum ∧ Placed n C seg) :
    Sends n C (s.emit seg) where
  acked := hs.acked
  seq := hs.seq
  oldest := hs.oldest
  wire seg' hmem := by
    rcases List.mem_append.mp hmem with hold | hnew
    · exact hs.wire seg' hold
    · rw [List.mem_singleton.mp hnew]
      exact hseg
  written := hs.written
  queues := hs.queues.imp (·.emit seg)
    fun hd => ⟨hd.state, hd.sent, hd.outgoing⟩

theorem Receives.emit (hr : Receives m D s) {seg : TcpSegment}
    (hseg : seg.tcp.codeBits.rst = false → seg.tcp.acknum ≤ s.ackNum) :
    Receives m D (s.emit seg) where
  ack := hr.ack
  got := hr.got
  closed := hr.closed
  wire seg' hmem := by
    rcases List.mem_append.mp hmem with hold | hnew
    · exact hr.wire seg' hold
    · rw [List.mem_singleton.mp hnew]
      exact hseg

theorem Agrees.emit (ha : Agrees h buf n m C D s) {seg : TcpSegment}
    (hseq : seg.tcp.codeBits.rst = false →
      seg.tcp.seqnum ≤ s.seqNum ∧ Placed n C seg)
    (hack : seg.tcp.codeBits.rst = false → seg.tcp.acknum ≤ s.ackNum) :
    Agrees h buf n m C D (s.emit seg) where
  sends := ha.sends.emit hseq
  receives := ha.receives.emit hack
  sane := ha.sane.keeps (.refl _) ha.sane.joined ha.sane.connectPacket
    ha.sane.ackOnly

/-- A reset says nothing of either stream. -/
theorem Agrees.sendResetPacket (ha : Agrees h buf n m C D s)
    (seg : TcpSegment) : Agrees h buf n m C D (s.sendResetPacket seg) := by
  unfold Socket.sendResetPacket
  split
  · exact ha
  · exact ha.emit (fun hrst => nomatch hrst) fun hrst => nomatch hrst

theorem Agrees.destroy (ha : Agrees h buf n m C D s) :
    Agrees h buf n m C D (s.destroy h) := by
  have hkeep := keeps_destroy h s.toStack
  obtain ⟨out, sent, inc, xs, heq, hout, hsent⟩ :=
    Stack.destroy_eq h s.toStack
  unfold Socket.destroy
  rw [heq] at hkeep ⊢
  refine ⟨⟨ha.sends.acked, ha.sends.seq, ha.sends.oldest, ha.sends.wire,
    ha.sends.written, .inr ⟨rfl, hsent, hout⟩⟩,
    ⟨ha.receives.ack, ha.receives.got, fun hne => absurd rfl hne,
    ha.receives.wire⟩, ?_⟩
  refine ha.sane.keeps hkeep rfl ha.sane.connectPacket fun b hb => ?_
  have hnil : out.toList = [] := hout
  have hmem : b ∈ out.toList := hb
  rw [hnil] at hmem
  cases hmem

/-- An acknowledgement of what has come carries no data. -/
theorem Agrees.sendPureAck (ha : Agrees h buf n m C D s) (hn : 0 < n)
    (forceProbe : Bool) :
    Agrees h buf n m C D (s.sendPureAck h forceProbe) := by
  unfold Socket.sendPureAck
  split
  · exact ha
  · next hstate =>
      have hest : s.state = .established := not_not.mp hstate
      have hbits : s.codeBits 0 true = .ackOnly := by
        unfold Socket.codeBits
        rw [hest]
        rfl
      simp only [hbits]
      have hacc : s.account 0 .ackOnly = s := by
        unfold Socket.account
        simp [CodeBits.ackOnly]
      rw [hacc]
      refine ha.emit (fun _ => ⟨?_, fun hne => absurd rfl hne,
        fun hfin => nomatch hfin⟩) fun _ => BitVec.le_refl _
      have hseq := ha.sends.seq
      unfold Socket.header
      simp only
      split
      · rw [BitVec.le_def]
        bv_omega
      · exact BitVec.le_refl _

-- ==================================================== acknowledgements

/-- While no number wraps, a packet is removed if its number is below the
acknowledgement: the second half of the test, which is for numbers that
have wrapped, is never met. -/
theorem removable_iff {target : BitVec 32} {p : Word}
    (hp : s.bufSeqNum p < s.seqNum) (hproper : s.ackProper target = true) :
    s.removable target p = true ↔ s.bufSeqNum p < target := by
  unfold Socket.ackProper at hproper
  unfold Socket.removable
  rw [Bool.or_eq_true, Bool.and_eq_true, Bool.and_eq_true]
  simp only [decide_eq_true_iff]
  constructor
  · intro hor
    rcases hor with hlt | ⟨⟨-, holder⟩, hle⟩
    · exact hlt
    · -- `oldest` is at most the packet's number, so not all is acknowledged
      exfalso
      have hopen : s.oldestUnackedSeq < s.seqNum := by bv_omega
      rw [if_pos hopen, Bool.and_eq_true] at hproper
      have hge := of_decide_eq_true hproper.1
      bv_omega
  · exact fun hlt => .inl hlt

theorem Agrees.setOldest (ha : Agrees h buf n m C D s) {v : BitVec 32}
    (hv : v ≤ s.seqNum) :
    Agrees h buf n m C D { s with oldestUnackedSeq := v } where
  sends :=
    { acked := ha.sends.acked
      seq := ha.sends.seq
      oldest := hv
      wire := ha.sends.wire
      written := ha.sends.written
      queues := ha.sends.queues.imp
        (fun hq => ⟨hq.sent, hq.stamped, fun p hp =>
          have hr := hq.resendable p hp
          ⟨hr.stamp, hr.rst, hr.wire⟩, hq.outgoing, hq.last, hq.ended⟩)
        fun hq => ⟨hq.state, hq.sent, hq.outgoing⟩ }
  receives := ⟨ha.receives.ack, ha.receives.got, ha.receives.closed,
    ha.receives.wire⟩
  sane := ha.sane.keeps (.refl _) ha.sane.joined ha.sane.connectPacket
    ha.sane.ackOnly

/-- What is acknowledged up to its last byte has come. -/
theorem Alive.acknowledged (ha : Alive n C s) (hacked : s.acked = C.acked)
    {p : Word} {ps : List Word} {target : BitVec 32}
    (hsent : s.sent.toList = p :: ps) (hstamp : s.bufSeqNum p < target)
    (htarget : target.toNat ≤ n + C.got.length + C.closed.toNat) :
    C.acked ++ s.payload p <+: C.got := by
  have hall := ha.sent
  rw [hsent, Socket.payloads_cons, hacked, ← List.append_assoc] at hall
  refine Channel.acked_append_got hall ?_
  have hstamped := ha.stamped
  rw [hsent] at hstamped
  have hlen := congrArg List.length hall
  rw [List.length_append, List.length_append] at hlen
  rw [List.length_append]
  by_cases hempty : s.payload p = []
  · rw [hempty]
    exact C.acked_got.length_le
  · have hlast := hstamped.1 hempty
    rw [hacked] at hlast
    rw [BitVec.lt_def] at hstamp
    cases hclosed : C.closed with
    | false =>
        rw [hclosed] at htarget
        have hzero : false.toNat = 0 := rfl
        omega
    | true =>
        rw [(C.closed_all hclosed).2]
        omega

theorem Agrees.removeSent (ha : Agrees h buf n m C D s) {p : Word}
    {ps : List Word} {target : BitVec 32} (hsent : s.sent.toList = p :: ps)
    (hstamp : s.bufSeqNum p < target)
    (htarget : target.toNat ≤ n + C.got.length + C.closed.toNat) :
    ∃ C', C.SameGot C' ∧ Agrees h buf n m C' D (s.removeSent h p) := by
  have hq := (Ring.dequeue_cons hsent).2
  have hkeep := keeps_fromSent (h := h) (q := s.sent.dequeue.2) hsent hq
  obtain ⟨xs, hxs⟩ := Stack.returnXmitBuf_eq h p
    { s.toStack with sent := s.sent.dequeue.2 }
  rcases ha.sends.queues with hlive | hdead
  · refine ⟨C.acknowledge (s.payload p)
      (hlive.acknowledged ha.sends.acked hsent hstamp htarget), ⟨rfl, rfl⟩, ?_⟩
    unfold Socket.removeSent
    rw [hxs] at hkeep ⊢
    have hall := hlive.sent
    have hstamped := hlive.stamped
    rw [hsent] at hall hstamped
    refine ⟨⟨?_, ha.sends.seq, ha.sends.oldest,
      fun seg hseg hrst => (ha.sends.wire seg hseg hrst).imp_right
        (·.congr rfl rfl), ha.sends.written.congr rfl rfl,
      .inl ⟨?_, ?_, fun b hb => ?_, hlive.outgoing, hlive.last, hlive.ended⟩⟩,
      ⟨ha.receives.ack, ha.receives.got, ha.receives.closed,
        ha.receives.wire⟩,
      ha.sane.keeps hkeep ha.sane.joined ha.sane.connectPacket
        ha.sane.ackOnly⟩
    · exact congrArg (· ++ s.payload p) ha.sends.acked
    · show s.acked ++ s.payload p ++ s.payloads s.sent.dequeue.2.toList = C.sent
      rw [hq, List.append_assoc]
      exact hall
    · show Stamped n s.payload s.bufSeqNum (s.acked ++ s.payload p).length
        s.sent.dequeue.2.toList
      rw [hq, List.length_append]
      exact hstamped.2
    · have hmem : b ∈ s.sent.dequeue.2.toList := hb
      rw [hq] at hmem
      have hr := hlive.resendable b (hsent ▸ List.mem_cons_of_mem p hmem)
      exact ⟨hr.stamp, hr.rst, hr.wire⟩
  · rw [hdead.sent] at hsent
    cases hsent

theorem Agrees.removeLoop {target : BitVec 32} (k : Nat) :
    ∀ (s : Socket) (C : Channel Byte), Agrees h buf n m C D s →
      s.ackProper target = true →
      target.toNat ≤ n + C.got.length + C.closed.toNat →
      ∃ C', C.SameGot C' ∧ Agrees h buf n m C' D (s.removeLoop h target k) := by
  induction k with
  | zero =>
      intro s C ha _ _
      exact ⟨C, .refl C, ha.setOldest (BitVec.le_refl _)⟩
  | succ k ih =>
      intro s C ha hproper htarget
      unfold Socket.removeLoop
      split
      · exact ⟨C, .refl C, ha.setOldest (BitVec.le_refl _)⟩
      · next p hpeek =>
          obtain ⟨ps, hsent⟩ := Ring.toList_of_peek hpeek
          rcases ha.sends.queues with hlive | hdead
          · have hr := hlive.resendable p (hsent ▸ List.mem_cons_self)
            split
            · exact ⟨C, .refl C, ha.setOldest (BitVec.le_refl _)⟩
            · split
              · next hremovable =>
                  have hstamp := (removable_iff hr.stamp hproper).mp hremovable
                  obtain ⟨C₁, hsame, ha₁⟩ := ha.removeSent hsent hstamp htarget
                  obtain ⟨C₂, hsame', ha₂⟩ := ih _ C₁ ha₁ hproper
                    (by rw [hsame.got, hsame.closed]; exact htarget)
                  exact ⟨C₂, hsame.trans hsame', ha₂⟩
              · exact ⟨C, .refl C,
                  ha.setOldest (ha.sends.wire _ hr.wire hr.rst).1⟩
          · rw [hdead.sent] at hsent
            cases hsent

-- ==================================================== the socket's own packet

theorem Stack.Lighter.payloads {q : RingBuffer Word}
    (hq : s.toStack.Lighter q) :
    s.payloads q.toList = s.payloads s.outgoing.toList :=
  hq.data s.payload fun b hb => (s.payload_eq_nil_iff b).mpr hb

theorem Stack.enqueue_closed {st : Stack} (hclosed : st.state = .closed)
    (buf : Word) : st.enqueue h buf = (tcpRcBad, st) := by
  unfold Stack.enqueue
  rw [if_pos (.inl hclosed)]

theorem Socket.setLen_self {b : Word} {k : Nat} (hlen : s.dataLen b = k) :
    s.setLen b k = s := by
  have hsame : Function.update s.dataLen b k = s.dataLen := by
    rw [← hlen, Function.update_eq_self]
  unfold Socket.setLen Stack.setDataLen
  rw [hsame]

/-- The flags that `enqueue` leaves are those that were there, but for the
buffer it is about. -/
theorem Socket.enqueue_flags (buf : Word) {b : Word} (hne : b ≠ buf) :
    (s.enqueue h buf).2.wasAckOnly b = s.wasAckOnly b := by
  unfold Socket.enqueue
  simp only
  split
  · rfl
  · exact Function.update_of_ne hne _ _

theorem Stack.enqueue_subset (h : Host) (st : Stack) {buf b : Word}
    (hb : b ∈ (st.enqueue h buf).2.outgoing.toList) :
    b ∈ st.outgoing.toList ∨ b = buf := by
  obtain ⟨q, xs, heq, hcases⟩ := Stack.enqueue_eq h buf st
  rw [heq] at hb
  have hmem : b ∈ q.toList := hb
  rcases hcases with ⟨-, hlight⟩ | ⟨-, q', hlight, hq⟩
  · exact .inl (hlight.subset hmem)
  · rw [hq] at hmem
    rcases List.mem_append.mp hmem with hold | hnew
    · exact .inl (hlight.subset hold)
    · exact .inr (List.mem_singleton.mp hnew)

/-- An empty packet may be marked. -/
theorem Socket.Marked.enqueue (hs : s.Marked) {buf : Word}
    (hlen : s.dataLen buf = 0) : (s.enqueue h buf).2.Marked := by
  have hlens : (s.enqueue h buf).2.dataLen = s.dataLen := by
    obtain ⟨q, xs, heq, -⟩ := Stack.enqueue_eq h buf s.toStack
    show (s.toStack.enqueue h buf).2.dataLen = _
    rw [heq]
  intro b hb hack
  rw [hlens]
  by_cases hown : b = buf
  · rw [hown]
    exact hlen
  · rw [s.enqueue_flags buf hown] at hack
    exact hs b ((s.enqueue_subset h hb).resolve_right hown) hack

theorem Agrees.enqueueConnectPacket (ha : Agrees h buf n m C D s) :
    Agrees h buf n m C D (s.enqueueConnectPacket h) := by
  have hkeep := keeps_enqueue_connectPacket h s.toStack
  have hlen := ha.sane.connectPacket
  obtain ⟨q, xs, heq, hcases⟩ :=
    Stack.enqueue_eq h h.connectPacket s.toStack
  unfold Socket.enqueueConnectPacket
  rw [Socket.setLen_self hlen]
  have hdata : s.payloads q.toList = s.payloads s.outgoing.toList := by
    rcases hcases with ⟨-, hlight⟩ | ⟨-, q', hlight, hq⟩
    · exact hlight.payloads
    · have hempty := (s.payload_eq_nil_iff h.connectPacket).mpr hlen
      rw [hq, Socket.payloads_append, hlight.payloads, Socket.payloads_cons,
        hempty]
      exact List.append_nil _
  have hsane : Sane h buf (s.enqueue h h.connectPacket).2 := by
    have hlens : (s.enqueue h h.connectPacket).2.dataLen = s.dataLen := by
      show (s.toStack.enqueue h h.connectPacket).2.dataLen = _
      rw [heq]
    have hstate : (s.enqueue h h.connectPacket).2.state = s.state := by
      show (s.toStack.enqueue h h.connectPacket).2.state = _
      rw [heq]
    exact ha.sane.keeps hkeep (hstate ▸ ha.sane.joined) (hlens ▸ hlen)
      (ha.sane.ackOnly.enqueue hlen)
  refine ⟨?_, ?_, hsane⟩
  · unfold Socket.enqueue
    simp only
    rcases ha.sends.queues with hlive | hdead
    · rw [heq]
      refine ⟨ha.sends.acked, ha.sends.seq, ha.sends.oldest, ha.sends.wire,
        ha.sends.written, .inl ⟨hlive.sent, hlive.stamped,
        fun b hb => ⟨(hlive.resendable b hb).stamp,
          (hlive.resendable b hb).rst, (hlive.resendable b hb).wire⟩,
        ?_, fun hended => hdata.trans (hlive.last hended), hlive.ended⟩⟩
      show C.sent ++ s.payloads q.toList = s.written
      rw [hdata]
      exact hlive.outgoing
    · rw [Stack.enqueue_closed hdead.state]
      exact ⟨ha.sends.acked, ha.sends.seq, ha.sends.oldest, ha.sends.wire,
        ha.sends.written, .inr ⟨hdead.state, hdead.sent, hdead.outgoing⟩⟩
  · unfold Socket.enqueue
    simp only
    rw [heq]
    exact ⟨ha.receives.ack, ha.receives.got, ha.receives.closed,
      ha.receives.wire⟩

theorem Agrees.generate (ha : Agrees h buf n m C D s) (gen : Bool) :
    Agrees h buf n m C D (s.generate h gen) := by
  unfold Socket.generate
  split
  · exact ha.enqueueConnectPacket
  · exact ha

-- ==================================================== what comes

theorem Receives.congr {D' : Channel Byte} (hr : Receives m D s)
    (hgot : D.SameGot D') : Receives m D' s where
  ack := by
    rw [hgot.got, hgot.closed]
    exact hr.ack
  got := hgot.got.trans hr.got
  closed hne := hgot.closed.trans (hr.closed hne)
  wire := hr.wire

theorem Alive.congr {C' : Channel Byte} (ha : Alive n C s)
    (hsame : C.SameSent C') : Alive n C' s where
  sent := ha.sent.trans hsame.sent.symm
  stamped := ha.stamped
  resendable := ha.resendable
  outgoing := by
    rw [hsame.sent]
    exact ha.outgoing
  last hended := ha.last (hsame.ended ▸ hended)
  ended := hsame.ended.trans ha.ended

theorem Sends.congr {C' : Channel Byte} (hs : Sends n C s)
    (hsame : C.SameSent C') : Sends n C' s where
  acked := hs.acked.trans hsame.acked.symm
  seq := by
    rw [hsame.sent, hsame.ended]
    exact hs.seq
  oldest := hs.oldest
  wire seg hseg hrst := (hs.wire seg hseg hrst).imp_right
    (·.congr hsame.sent hsame.ended)
  written := hs.written.congr hsame.sent hsame.ended
  queues := hs.queues.imp_left (·.congr hsame)

theorem Socket.receiveData_full {packet : Packet}
    (hroom : s.incoming.hasRoom = false) :
    s.receiveData packet = (true, s) := by
  unfold Socket.receiveData Stack.processPacketData
  rw [hroom]
  rfl

theorem Socket.receiveData_room {packet : Packet}
    (hroom : s.incoming.hasRoom = true) :
    s.receiveData packet = (false, { s with
      incoming := (s.incoming.enqueue packet).2
      accepted := s.accepted ++ [packet]
      ackNum := s.ackNum + BitVec.ofNat 32 packet.bytes.length }) := by
  unfold Socket.receiveData Stack.processPacketData
  rw [hroom]
  rfl

/-- The next data is taken. -/
theorem Agrees.takeData (ha : Agrees h buf n m C D s) (packet : Packet)
    (hnext : D.Carries D.got.length packet.bytes)
    (hwrap : m + D.sent.length + 1 < 2 ^ 32) (q : RingBuffer Packet) :
    Agrees h buf n m C (D.take packet.bytes hnext) { s with
      incoming := q
      accepted := s.accepted ++ [packet]
      ackNum := s.ackNum + BitVec.ofNat 32 packet.bytes.length } where
  sends := ha.sends.same (by constructor <;> rfl) rfl fun hst => hst
  receives := by
    have hle : (D.got ++ packet.bytes).length ≤ D.sent.length :=
      (D.take packet.bytes hnext).got_sent.length_le
    rw [List.length_append] at hle
    have hack := ha.receives.ack
    have hclosed : D.closed.toNat ≤ 1 := Bool.toNat_le _
    have hsum : (s.ackNum + BitVec.ofNat 32 packet.bytes.length).toNat
        = s.ackNum.toNat + packet.bytes.length := by
      rw [BitVec.toNat_add, BitVec.toNat_ofNat, Nat.add_mod_mod,
        Nat.mod_eq_of_lt (by omega)]
    refine ⟨?_, ?_, ha.receives.closed, fun seg hseg hrst => ?_⟩
    · show (s.ackNum + _).toNat = m + (D.got ++ packet.bytes).length
        + D.closed.toNat
      rw [hsum, List.length_append]
      omega
    · show D.got ++ packet.bytes = (s.accepted ++ [packet]).flatMap _
      rw [List.flatMap_append, ← ha.receives.got, List.flatMap_singleton]
    · have hold := ha.receives.wire seg hseg hrst
      show _ ≤ s.ackNum + _
      rw [BitVec.le_def] at hold ⊢
      omega
  sane := ha.sane.keeps ⟨fun hc => ⟨hc.free, hc.outgoing, hc.sent⟩,
    fun _ _ => rfl⟩ ha.sane.joined ha.sane.connectPacket ha.sane.ackOnly

/-- The state changes to one that is the same to both channels. -/
theorem Agrees.setState (ha : Agrees h buf n m C D s) {st : TcpState}
    (hjoined : st.joined = true) (hdead : s.state = .closed → st = .closed)
    (hsent : st.finSent = s.state.finSent)
    (hseen : st ≠ .closed → D.closed = st.finSeen) :
    Agrees h buf n m C D { s with state := st } where
  sends := ha.sends.same (by constructor <;> rfl) hsent hdead
  receives := ⟨ha.receives.ack, ha.receives.got, hseen, ha.receives.wire⟩
  sane := ha.sane.keeps ⟨fun hc => ⟨hc.free, hc.outgoing, hc.sent⟩,
    fun _ _ => rfl⟩ hjoined ha.sane.connectPacket ha.sane.ackOnly

/-- The FIN is taken, in a state that none was taken in. -/
theorem Agrees.takeFin (ha : Agrees h buf n m C D s) {st : TcpState}
    (hends : D.Ends D.got.length) (hopen : s.state.finSeen = false)
    (hne : s.state ≠ .closed) (hwrap : m + D.sent.length + 1 < 2 ^ 32)
    (hjoined : st.joined = true) (hsent : st.finSent = s.state.finSent)
    (hseen : st.finSeen = true) :
    Agrees h buf n m C (D.close hends)
      { s with state := st, ackNum := s.ackNum + 1 } where
  sends := ha.sends.same (by constructor <;> rfl) hsent
    fun hst => absurd hst hne
  receives := by
    have hclosed := (ha.receives.closed hne).trans hopen
    have hack := ha.receives.ack
    rw [hclosed] at hack
    have hlen := hends.2
    have hzero : false.toNat = 0 := rfl
    have hone : (s.ackNum + 1).toNat = s.ackNum.toNat + 1 := by
      rw [BitVec.toNat_add]
      exact Nat.mod_eq_of_lt (show s.ackNum.toNat + 1 < 2 ^ 32 by omega)
    refine ⟨?_, ha.receives.got, fun _ => hseen.symm, fun seg hseg hrst => ?_⟩
    · show (s.ackNum + 1).toNat = m + D.got.length + true.toNat
      rw [hone, hack]
      rfl
    · have hle := ha.receives.wire seg hseg hrst
      show _ ≤ s.ackNum + 1
      rw [BitVec.le_def] at hle ⊢
      omega
  sane := ha.sane.keeps ⟨fun hc => ⟨hc.free, hc.outgoing, hc.sent⟩,
    fun _ _ => rfl⟩ hjoined ha.sane.connectPacket ha.sane.ackOnly

theorem Channel.sameSent_close (hends : D.Ends D.got.length) :
    D.SameSent (D.close hends) := ⟨rfl, rfl, rfl⟩

/-- The switch, for a segment whose data was taken: a FIN is at the end of
the stream. -/
theorem Agrees.processStates (ha : Agrees h buf n m C D s) {seg : TcpSegment}
    (hfin : seg.tcp.codeBits.fin = true → D.closed = false →
      D.Ends D.got.length)
    (hne : s.state ≠ .closed) (hwrap : m + D.sent.length + 1 < 2 ^ 32)
    (current gen : Bool) :
    ∃ D', D.SameSent D' ∧
      Agrees h buf n m C D' (s.processStates h seg current gen).2 := by
  have hjoined := ha.sane.joined
  have hseen := ha.receives.closed hne
  have hends : seg.tcp.codeBits.fin = true → s.state.finSeen = false →
      D.Ends D.got.length :=
    fun hbit hopen => hfin hbit (hseen.trans hopen)
  have htake : ∀ st : TcpState, seg.tcp.codeBits.fin = true →
      s.state.finSeen = false → st.joined = true →
      st.finSent = s.state.finSent → st.finSeen = true →
      ∃ D', D.SameSent D' ∧ Agrees h buf n m C D'
        { s with state := st, ackNum := s.ackNum + 1 } :=
    fun st hbit hopen hj hsent hst => ⟨_,
      Channel.sameSent_close (hends hbit hopen),
      ha.takeFin (hends hbit hopen) hopen hne hwrap hj hsent hst⟩
  have hset : ∀ st : TcpState, st.joined = true →
      st.finSent = s.state.finSent →
      (st ≠ .closed → s.state.finSeen = st.finSeen) →
      ∃ D', D.SameSent D' ∧ Agrees h buf n m C D' { s with state := st } :=
    fun st hj hsent hst => ⟨D, .refl D, ha.setState hj
      (fun hclosed => absurd hclosed hne) hsent
      fun hst' => hseen.trans (hst hst')⟩
  have hkeep : ∃ D', D.SameSent D' ∧ Agrees h buf n m C D' s := ⟨D, .refl D, ha⟩
  unfold Socket.processStates
  cases hst : s.state with
  | established =>
      simp only
      split
      · next hbit =>
          exact htake .closeWait hbit (by rw [hst]; rfl) rfl
            (by rw [hst]; rfl) rfl
      · exact hkeep
  | sendFin1 =>
      simp only
      split
      · next hbit =>
          exact htake .sendFin2 hbit (by rw [hst]; rfl) rfl
            (by rw [hst]; rfl) rfl
      · exact hkeep
  | lastAck =>
      exact hset .closed rfl (by rw [hst]; rfl) fun hno => absurd rfl hno
  | finWait1 =>
      simp only
      split
      · next hbit =>
          cases current with
          | true =>
              exact htake .timeWait hbit (by rw [hst]; rfl) rfl
                (by rw [hst]; rfl) rfl
          | false =>
              exact htake .closing hbit (by rw [hst]; rfl) rfl
                (by rw [hst]; rfl) rfl
      · split
        · exact hset .finWait2 rfl (by rw [hst]; rfl) fun _ => by rw [hst]; rfl
        · exact hkeep
  | finWait2 =>
      simp only
      split
      · next hbit =>
          exact htake .timeWait hbit (by rw [hst]; rfl) rfl
            (by rw [hst]; rfl) rfl
      · exact hkeep
  | closing =>
      simp only
      split
      · exact hset .timeWait rfl (by rw [hst]; rfl) fun _ => by rw [hst]; rfl
      · exact hkeep
  | synRecved =>
      rw [hst] at hjoined
      cases hjoined
  | closed => exact absurd hst hne
  | _ => exact hkeep

-- ==================================================== a segment

/-- Counters and the peer's window are nothing to the channels. -/
theorem Agrees.tuned (ha : Agrees h buf n m C D s) (good errs : Nat)
    (small : Bool) (window : Word) :
    Agrees h buf n m C D { s with
      consecutiveGoodPackets := good
      consecutiveSeqErrs := errs
      reportSmallWindow := small
      remoteWindow := window } where
  sends := ha.sends.same (by constructor <;> rfl) rfl fun hst => hst
  receives := ⟨ha.receives.ack, ha.receives.got, ha.receives.closed,
    ha.receives.wire⟩
  sane := ha.sane.keeps (.refl _) ha.sane.joined ha.sane.connectPacket
    ha.sane.ackOnly

theorem Socket.removeLoop_state (target : BitVec 32) (k : Nat) :
    ∀ s : Socket, (s.removeLoop h target k).state = s.state := by
  induction k with
  | zero => exact fun _ => rfl
  | succ k ih =>
      intro s
      unfold Socket.removeLoop
      split
      · rfl
      · next p _ =>
          split
          · rfl
          · split
            · rw [ih]
              unfold Socket.removeSent
              obtain ⟨xs, hxs⟩ := Stack.returnXmitBuf_eq h p
                { s.toStack with sent := s.sent.dequeue.2 }
              rw [hxs]
            · rfl

/-- The data of a segment with the expected number is the next data. -/
theorem Receives.next (hr : Receives m D s) {seg : TcpSegment}
    (hseg : Placed m D seg) (hseq : seg.tcp.seqnum = s.ackNum) :
    D.Carries D.got.length seg.data := by
  by_cases hempty : seg.data = []
  · rw [hempty]
    exact Channel.carries_nil _
  · obtain ⟨k, hk, hcarries⟩ := hseg.data hempty
    rw [hseq, hr.ack] at hk
    cases hclosed : D.closed with
    | false =>
        have hlen : k = D.got.length := by
          rw [hclosed] at hk
          have hzero : false.toNat = 0 := rfl
          omega
        exact hlen ▸ hcarries
    | true =>
        -- nothing with data is behind the end
        have hle := hcarries.le hempty
        rw [hclosed, (D.closed_all hclosed).2] at hk
        have hone : true.toNat = 1 := rfl
        omega

/-- And its FIN is the end. -/
theorem Receives.fin (hr : Receives m D s) {seg : TcpSegment}
    (hseg : Placed m D seg) (hseq : seg.tcp.seqnum = s.ackNum)
    (hfin : seg.tcp.codeBits.fin = true) (hclosed : D.closed = false) :
    D.Ends (D.got.length + seg.data.length) := by
  obtain ⟨k, hk, hends⟩ := hseg.fin hfin
  rw [hseq, hr.ack, hclosed] at hk
  have hzero : false.toNat = 0 := rfl
  have hlen : k = D.got.length := by omega
  exact hlen ▸ hends

theorem Agrees.processAck (ha : Agrees h buf n m C D s) {tcp : TcpHeader}
    (hack : tcp.acknum.toNat ≤ n + C.got.length + C.closed.toNat)
    (hproper : s.ackProper tcp.acknum = true) :
    ∃ C', C.SameGot C' ∧ Agrees h buf n m C' D (s.processAck h tcp)
      ∧ (s.processAck h tcp).state = s.state := by
  have hwindow : ∀ (C' : Channel Byte) (s' : Socket), C.SameGot C' →
      Agrees h buf n m C' D s' → s'.state = s.state →
      ∃ C', C.SameGot C' ∧ Agrees h buf n m C' D
        (if s'.sent.entries = 0 then { s' with remoteWindow := tcp.window }
          else s')
        ∧ (if s'.sent.entries = 0 then { s' with remoteWindow := tcp.window }
          else s').state = s.state := by
    intro C' s' hsame ha' hstate
    split
    · exact ⟨C', hsame, ha'.tuned _ _ _ _, hstate⟩
    · exact ⟨C', hsame, ha', hstate⟩
  unfold Socket.processAck
  split
  · obtain ⟨C', hsame, ha'⟩ := Agrees.removeLoop s.sent.entries s C ha
      hproper hack
    exact hwindow C' _ hsame ha' (Socket.removeLoop_state _ _ _)
  · exact hwindow C s (.refl C) ha rfl

theorem Agrees.processGood (ha : Agrees h buf n m C D s) {seg : TcpSegment}
    (hack : seg.tcp.acknum.toNat ≤ n + C.got.length + C.closed.toNat)
    (hseg : Placed m D seg) (hproper : s.ackProper seg.tcp.acknum = true)
    (hseq : seg.tcp.seqnum = s.ackNum) (hne : s.state ≠ .closed)
    (hwrap : m + D.sent.length + 1 < 2 ^ 32) (data : Word) :
    ∃ C' D', C.SameGot C' ∧ D.SameSent D' ∧
      Agrees h buf n m C' D' (s.processGood h seg data) := by
  have hnext := ha.receives.next hseg hseq
  have hfin := ha.receives.fin hseg hseq
  unfold Socket.processGood
  simp only
  obtain ⟨C', hsame, ha₂, hstate⟩ := Agrees.processAck (s := s.countGood)
    (ha.tuned _ _ _ s.remoteWindow) hack hproper
  generalize s.countGood.processAck h seg.tcp = s₂ at ha₂ hstate ⊢
  have hne₂ : s₂.state ≠ .closed := hstate.trans_ne hne
  split
  · next hempty =>
      rw [hempty] at hfin
      obtain ⟨D', hsame', ha₃⟩ := ha₂.processStates hfin hne₂ hwrap _ false
      exact ⟨C', D', hsame, hsame', ha₃.generate _⟩
  · cases hroom : s₂.incoming.hasRoom with
    | false =>
        rw [Socket.receiveData_full hroom]
        exact ⟨C', D, hsame, .refl D, ha₂⟩
    | true =>
        rw [Socket.receiveData_room hroom]
        have ha₃ := ha₂.takeData ⟨data, seg.data⟩ hnext hwrap
          (s₂.incoming.enqueue ⟨data, seg.data⟩).2
        have hfin' : seg.tcp.codeBits.fin = true →
            (D.take seg.data hnext).closed = false →
            (D.take seg.data hnext).Ends
              (D.take seg.data hnext).got.length := by
          intro hbit hclosed
          show D.Ends (D.got ++ seg.data).length
          rw [List.length_append]
          exact hfin hbit hclosed
        obtain ⟨D', hsame', ha₄⟩ := ha₃.processStates hfin' hne₂ hwrap _
          (decide (s₂.outgoing.entries = 0))
        exact ⟨C', D', hsame, ⟨hsame'.sent, hsame'.ended, hsame'.acked⟩,
          ha₄.generate _⟩

theorem Agrees.processBad (ha : Agrees h buf n m C D s) (hn : 0 < n) :
    Agrees h buf n m C D (s.processBad h) :=
  (ha.sendPureAck hn false).tuned _ _ _ _

/-- Whatever comes from the other end, if that told the truth. -/
theorem Agrees.process (ha : Agrees h buf n m C D s) {seg : TcpSegment}
    (hack : seg.tcp.codeBits.rst = false →
      seg.tcp.acknum.toNat ≤ n + C.got.length + C.closed.toNat)
    (hseg : seg.tcp.codeBits.rst = false → Placed m D seg) (hn : 0 < n)
    (hwrap : m + D.sent.length + 1 < 2 ^ 32) (data : Word) :
    ∃ C' D', C.SameGot C' ∧ D.SameSent D' ∧
      Agrees h buf n m C' D' (s.process h seg data) := by
  have hsame : ∀ s', Agrees h buf n m C D s' → ∃ C' D', C.SameGot C'
      ∧ D.SameSent D' ∧ Agrees h buf n m C' D' s' :=
    fun s' ha' => ⟨C, D, .refl C, .refl D, ha'⟩
  have hjoined := ha.sane.joined
  unfold Socket.process
  split
  · exact hsame _ (ha.sendResetPacket seg)
  · next hopen =>
      unfold Socket.process2
      split
      · next hsyn =>
          rw [hsyn] at hjoined
          cases hjoined
      · split
        · split
          · exact hsame _ ha.destroy
          · exact hsame _ ha
        · next hrst =>
            have hrst' : seg.tcp.codeBits.rst = false :=
              Bool.eq_false_iff.mpr hrst
            split
            · next hgood =>
                rw [Bool.and_eq_true, Bool.and_eq_true] at hgood
                have hseq : seg.tcp.seqnum = s.ackNum := by
                  have hnum := hgood.2
                  unfold Socket.seqProper at hnum
                  rw [Bool.or_eq_true, Bool.and_eq_true] at hnum
                  rcases hnum with heq | ⟨hsyn, -⟩
                  · exact of_decide_eq_true heq
                  · rw [of_decide_eq_true hsyn] at hjoined
                    cases hjoined
                exact ha.processGood (hack hrst') (hseg hrst') hgood.1.2 hseq
                  (fun hclosed => hopen (.inl hclosed)) hwrap data
            · exact hsame _ (ha.processBad hn)

end Pdtb.Net
