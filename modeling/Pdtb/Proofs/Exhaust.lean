/-
What goes wrong when the network is not kind. The server's 004 and three
PINGs in one packet are answered in a row, and no acknowledgement is
processed in between: the fifth send finds `sendBuffer` null, and is lent
what follows a null pointer all the same. And a PING that comes with the
end of the connection is not handed over.

The run with the five sends is one in a world, as long as buffers last
(`Spending`); in that world a fifth send is due. The runs in which nothing
goes wrong are short, and are computed.
-/
import Pdtb.Proofs.Custody
import Pdtb.Proofs.Incoming
import Pdtb.Proofs.Prompt
import Pdtb.Proofs.Secrecy

namespace Pdtb.Net

open Lib Irc Asm

variable {h : Host} {img : Image} {w : World} {r : Run} {s : Sys}
  {n : Globals} {st : Stack} {p : Packet} {more : List Packet}
  {bytes : List Byte} {i k : Nat}

-- ==================================================== the socket at rest

variable (h st) in
/-- `enqueue` when nothing waits to be sent. -/
theorem enqueue_rest (buf : Word) (hst : st.state = .established)
    (hout : st.outgoing.toList = [])
    (hlen : st.dataLen buf ≤ st.maxEnqueueSize) :
    ∃ q : RingBuffer Word, q.toList = [buf]
      ∧ st.enqueue h buf = (0, { st with outgoing := q }) := by
  have hroom : st.outgoing.hasRoom = true := by
    rw [Ring.hasRoom_iff, hout]
    decide
  have hpig : st.piggyback h = st := by
    rw [Stack.piggyback, Ring.toList_eq_nil.mp hout,
      if_neg (fun hand => absurd hand.1 (by decide))]
  have hq := Ring.toList_enqueue hroom buf
  have hrc := Ring.enqueue_room hroom buf
  unfold Stack.enqueue
  rw [if_neg (by rw [hst]; simp), if_neg (not_lt.mpr hlen), hpig]
  simp only
  generalize st.outgoing.enqueue buf = e at hq hrc ⊢
  rw [hout, List.nil_append] at hq
  rw [hrc]
  exact ⟨e.2, hq, rfl⟩

/-- With nothing to be sent `drivePackets` does nothing. -/
theorem drivePackets_rest (hout : st.outgoing.toList = []) (ready : Nat) :
    st.drivePackets h false ready = st := by
  unfold Stack.drivePackets
  rw [if_neg fun hand => absurd hand.2 (by decide)]
  cases ready with
  | zero => rfl
  | succ k =>
      rw [Stack.drivePackets2, Ring.toList_eq_nil.mp hout,
        if_neg fun hand => hand.1 rfl]

variable (h st) in
/-- With one packet waiting it sends that. -/
theorem drivePackets_one {buf : Word} (hout : st.outgoing.toList = [buf])
    (hroom : st.sent.hasRoom = true) :
    ∃ q : RingBuffer Word, q.toList = []
      ∧ st.drivePackets h false 1
        = if st.dataLen buf = 0 then
            { st with outgoing := q }.returnXmitBuf h buf
          else
            { st with outgoing := q, sent := (st.sent.enqueue buf).2 } := by
  have hne : st.outgoing.entries ≠ 0 := by
    rw [← Ring.length_toList, hout]
    exact Nat.one_ne_zero
  obtain ⟨hfirst, hrest⟩ := Ring.dequeue_cons hout
  unfold Stack.drivePackets
  rw [if_neg fun hand => absurd hand.2 (by decide), Stack.drivePackets2,
    if_pos ⟨hne, hroom⟩, Stack.drivePackets2, Stack.sendPending]
  generalize st.outgoing.dequeue = d at hfirst hrest ⊢
  obtain ⟨o, q⟩ := d
  simp only at hfirst hrest
  rw [hfirst]
  exact ⟨q, hrest, rfl⟩

-- ==================================================== a host to run on

/-- Four buffers behind `0x8000`. -/
def demoPool : List Word := [0x8000, 0x9000, 0xa000, 0xb000]

theorem not_mem_demoPool : (0x7000 : Word) ∉ demoPool := by decide

def demoHost : Host where
  mss := 1460
  pool := demoPool
  connectPacket := 0x7000
  bufferPool := demoPool.contains
  count := rfl
  nodup := by decide
  nonnull := by decide
  fits := by simp [demoPool, sizeofTcpBuffer]
  pooled b hb := by
    rw [List.contains_eq_mem]
    exact decide_eq_true hb
  apart := not_mem_demoPool
  unpooled := by
    rw [List.contains_eq_mem]
    exact decide_eq_false not_mem_demoPool

/-- A socket that is connected, and on which nothing has come in. -/
def demoStack : Stack where
  state := .established
  maxEnqueueSize := 1460
  outgoing := Ring.init 2 0
  sent := Ring.init 2 0
  incoming := Ring.init 2 ⟨0, []⟩
  xmitBuffers := demoPool
  dataLen := fun _ => 0
  accepted := []

theorem demoStack_connected : Connected demoHost demoStack :=
  ⟨rfl, rfl, fun _ hb => absurd hb List.not_mem_nil,
    fun _ hb => absurd hb List.not_mem_nil, rfl⟩

def demoBot : Bot := withAuth (boot default) (ascii "PASS a")

theorem demoBot_fresh : Fresh default demoBot.mem := by
  rw [demoBot, withAuth_mem]
  exact boot_fresh default

theorem demoBot_credentials :
    credentials demoBot.dev = some (ascii "PASS a") := rfl

/-- A turn in which what is to be sent goes out. -/
def driven (a : Arrival) : Turn := ⟨a, 1, false, false, 0⟩

/-- The turns when this comes once the credentials are sent, and nothing
else does. -/
def arriving (a : Arrival) (k : Nat) : Turn :=
  driven (if k = 2 then a else .nothing)

theorem arriving_peaceful {a : Arrival} (ha : a ≠ .reset) (k : Nat) :
    (arriving a k).Peaceful := by
  refine ⟨?_, rfl⟩
  show (if k = 2 then a else Arrival.nothing) ≠ .reset
  split
  · exact ha
  · exact fun hreset => by cases hreset

/-- The packet that comes. -/
def pinging (bytes : List Byte) : Packet := ⟨0x4000, bytes⟩

/-- The world of a run in which no buffer comes back. -/
def spending (bytes : List Byte) : World where
  packets := [pinging bytes]
  quit := false
  answers k := ⟨demoPool.getD k 0xc000 + sizeofTcpBuffer, 0, 0⟩

/-- A turn in which nothing comes. -/
theorem serve_driven (hst : st.state = .established) :
    st.serve h (driven .nothing) = st.drivePackets h false 1 := by
  unfold Stack.serve Stack.packetProcessSingle
  rw [hst, if_neg (by decide)]
  rfl

-- ==================================================== what is spent

/-- `i` sends went well, and no buffer has come back. -/
structure Spent (i : Nat) (n : Globals) : Prop where
  state : n.stack.state = .established
  max : n.stack.maxEnqueueSize = 1460
  outgoing : n.stack.outgoing.toList = []
  sent : n.stack.sent.toList.length = i
  free : n.stack.xmitBuffers = demoPool.drop (i + 1)
  held : n.sendBuffer = demoPool.getD i 0

theorem Spent.main : Spent 0 (Sys.main demoStack demoBot).net :=
  ⟨rfl, rfl, rfl, rfl, rfl, rfl⟩

theorem getXmitBuf_eq (st : Stack) : st.getXmitBuf
    = (st.xmitBuffers.headD 0,
      { st with xmitBuffers := st.xmitBuffers.tail }) := by
  unfold Stack.getXmitBuf
  split
  · next hnil =>
      rw [hnil]
      exact Prod.ext rfl (by rw [List.tail_nil, ← hnil])
  · next b bs hcons =>
      rw [hcons]
      rfl

theorem demoPool_nonnull :
    ∀ i < 4, demoPool.getD i 0 + sizeofTcpBuffer ≠ 0 := by decide

theorem demoPool_last :
    ∀ i < 4, demoPool.getD i 0 = demoPool.getD i 0xc000 := by decide

/-- A reply is short. -/
theorem toInt_le_of_short {len : Word} (hlen : len.toNat ≤ outSpill) :
    len.toInt ≤ demoHost.mss := by
  have hmss : demoHost.mss = 1460 := rfl
  unfold outSpill at hlen
  rw [BitVec.toInt_eq_toNat_of_lt (by omega), hmss]
  omega

/-- What a send leaves to be driven when nothing else waits: its buffer,
with the length it was given. -/
theorem sendPacket_rest {len : Word} (t : Turn)
    (hst : n.stack.state = .established)
    (hout : n.stack.outgoing.toList = []) (hmss : len.toInt ≤ h.mss)
    (hmax : len.toNat ≤ n.stack.maxEnqueueSize)
    (hbuffer : n.sendBuffer + sizeofTcpBuffer ≠ 0) :
    ∃ q : RingBuffer Word, q.toList = [n.sendBuffer]
      ∧ n.sendPacket h t len
        = (⟨n.sendBuffer + sizeofTcpBuffer, 0, t.dx⟩, { n with
          stack := Stack.serve h t { n.stack with
            outgoing := q
            xmitBuffers := n.stack.xmitBuffers.tail
            dataLen := Function.update n.stack.dataLen n.sendBuffer
              len.toNat }
          sendBuffer := n.stack.xmitBuffers.headD 0 }) := by
  obtain ⟨a, ha, hnext, hrc⟩ := sendNewBuffer_spec t n hmss
  obtain ⟨q, hq, henqueue⟩ := enqueue_rest h
    (n.stack.setDataLen n.sendBuffer len.toNat) n.sendBuffer hst hout (by
      rw [Stack.setDataLen]
      simp only
      rw [Function.update_self]
      exact hmax)
  rw [henqueue] at ha
  have hzero : a.1 = 0 := by rw [ha]
  rw [if_pos hzero, getXmitBuf_eq, ha] at hnext
  refine ⟨q, hq, ?_⟩
  rw [sendPacket_short hmss hbuffer, hnext, hrc.mpr hzero]
  rfl

variable (bytes) in
/-- A send takes a buffer, and does not wait for another. -/
theorem Spent.sendPacket (hn : Spent i n) (hi : i < 4) {len : Word}
    (hpos : len ≠ 0) (hlen : len.toNat ≤ outSpill) :
    (n.sendPacket demoHost (driven .nothing) len).1
        = (spending bytes).answers i
      ∧ Spent (i + 1) (n.sendPacket demoHost (driven .nothing) len).2
      ∧ (n.sendPacket demoHost (driven .nothing) len).2.stack.incoming
        = n.stack.incoming := by
  have hshort := toInt_le_of_short hlen
  have hnonnull : n.sendBuffer + sizeofTcpBuffer ≠ 0 := by
    rw [hn.held]
    exact demoPool_nonnull i hi
  obtain ⟨q, hq, hnext⟩ := sendPacket_rest (driven .nothing) hn.state
    hn.outgoing hshort (by
      rw [hn.max]
      unfold outSpill at hlen
      omega) hnonnull
  -- the stack before it is driven
  obtain ⟨c, hc⟩ : ∃ c : Stack, c = { n.stack with
      outgoing := q
      xmitBuffers := n.stack.xmitBuffers.tail
      dataLen := Function.update n.stack.dataLen n.sendBuffer
        len.toNat } := ⟨_, rfl⟩
  rw [← hc] at hnext
  have hstate : c.state = .established := by
    rw [hc]
    exact hn.state
  have hout : c.outgoing.toList = [n.sendBuffer] := by
    rw [hc]
    exact hq
  have hroom : c.sent.hasRoom = true := by
    rw [hc, Ring.hasRoom_iff, hn.sent]
    exact hi
  have hdata : c.dataLen n.sendBuffer ≠ 0 := by
    rw [hc]
    simp only
    rw [Function.update_self]
    exact fun hnull => hpos (BitVec.eq_of_toNat_eq hnull)
  obtain ⟨q', hq', hdrive⟩ := drivePackets_one demoHost c hout hroom
  have hsent := Ring.toList_enqueue hroom n.sendBuffer
  rw [if_neg hdata] at hdrive
  rw [hnext, serve_driven hstate, hdrive]
  refine ⟨?_, ⟨hstate, ?_, hq', ?_, ?_, ?_⟩, ?_⟩
  · rw [hn.held, demoPool_last i hi]
    rfl
  · rw [hc]
    exact hn.max
  · simp only
    rw [hsent, List.length_append, hc, hn.sent, List.length_singleton]
  · rw [hc]
    simp only [hn.free, List.tail_drop]
  · simp only [hn.free]
    rw [List.headD_eq_head?_getD, List.head?_drop,
      List.getD_eq_getElem?_getD]
  · rw [hc]

/-- A segment with data is accepted, and the acknowledgement of it is
gone at the end of the turn. -/
theorem Spent.serve_segment (hn : Spent i n) (hi : i < 4)
    (hin : n.stack.incoming.toList = []) (hp : p.bytes ≠ []) :
    Spent i { n with
        stack := n.stack.serve demoHost (driven (.segment ⟨0, p, false⟩)) }
      ∧ (n.stack.serve demoHost
        (driven (.segment ⟨0, p, false⟩))).incoming.toList = [p] := by
  have hroom : n.stack.incoming.hasRoom = true := by
    rw [Ring.hasRoom_iff, hin]
    decide
  have hadded := Ring.toList_enqueue hroom p
  rw [hin, List.nil_append] at hadded
  -- the stack with the data
  obtain ⟨c, hc⟩ : ∃ c : Stack, c = { n.stack with
      incoming := (n.stack.incoming.enqueue p).2
      accepted := n.stack.accepted ++ [p] } := ⟨_, rfl⟩
  have hstate : c.state = .established := by
    rw [hc]
    exact hn.state
  have hrest : c.outgoing.toList = [] := by
    rw [hc]
    exact hn.outgoing
  obtain ⟨q, hq, henqueue⟩ := enqueue_rest demoHost
    (c.setDataLen demoHost.connectPacket 0) demoHost.connectPacket
    hstate hrest (by
      rw [Stack.setDataLen]
      simp only
      rw [Function.update_self]
      exact Nat.zero_le _)
  obtain ⟨d, hd⟩ : ∃ d : Stack, d
      = { c.setDataLen demoHost.connectPacket 0 with outgoing := q } :=
    ⟨_, rfl⟩
  have hprocess : n.stack.packetProcessSingle demoHost
      (.segment ⟨0, p, false⟩) = d := by
    have hdata : n.stack.processPacketData p = (false, c) := by
      rw [processPacketData_room hroom, hc]
    unfold Stack.packetProcessSingle Stack.process2
    rw [hn.state, if_neg (by decide)]
    simp only [Stack.removeSentPackets]
    rw [if_neg hp]
    simp only [hdata, Bool.false_eq_true, ↓reduceIte]
    unfold Stack.processState
    simp only [Bool.and_false, Bool.or_false, Bool.false_eq_true,
      ↓reduceIte, Ring.toList_eq_nil.mp hrest, decide_true, henqueue, hd]
  have hout : d.outgoing.toList = [demoHost.connectPacket] := by
    rw [hd]
    exact hq
  have hsent : d.sent = n.stack.sent := by
    rw [hd, hc]
    rfl
  have hempty : d.dataLen demoHost.connectPacket = 0 := by
    rw [hd, Stack.setDataLen]
    simp only
    rw [Function.update_self]
  obtain ⟨q', hq', hdrive⟩ := drivePackets_one demoHost d hout (by
    rw [hsent, Ring.hasRoom_iff, hn.sent]
    exact hi)
  have hserve : n.stack.serve demoHost
      (driven (.segment ⟨0, p, false⟩)) = { d with outgoing := q' } := by
    show (n.stack.packetProcessSingle demoHost
      (.segment ⟨0, p, false⟩)).drivePackets demoHost false 1 = _
    rw [hprocess, hdrive, if_pos hempty, Stack.returnXmitBuf,
      demoHost.unpooled, if_neg Bool.false_ne_true]
  rw [hserve]
  refine ⟨⟨?_, ?_, hq', ?_, ?_, hn.held⟩, ?_⟩
  · rw [hd]
    exact hstate
  · rw [hd, hc]
    exact hn.max
  · simp only
    rw [hsent, hn.sent]
  · rw [hd, hc]
    exact hn.free
  · rw [hd, hc]
    exact hadded

-- ==================================================== the sends of a run

/-- What a run sends before it is quit is not empty, and short. -/
theorem sending_short {C : Mem 16 Byte → List Byte → Prop} {s₀ : Bot}
    {cs : List Byte} {len : Word} (hcs : credentials s₀.dev = some cs)
    (hne : cs ≠ []) (hquit : w.quit = false) (hat : At img w C s₀ r)
    (hs : sending img r = some len) :
    len ≠ 0 ∧ len.toNat ≤ outSpill := by
  rcases label_of_sending hs with hlabel | hlabel | hlabel
  · simp only [At, hlabel] at hat
    rw [hat] at hs
    have hbegun := dispatchInit_some img (s := entered s₀) hcs
    simp only [sending] at hs
    rw [if_neg (not_not.mpr hbegun.ax)] at hs
    cases hs
    have hpos := List.length_pos_iff.mpr hne
    have hcx := hbegun.cx
    have hshort := hbegun.short
    unfold outSpill
    refine ⟨fun hzero => ?_, by omega⟩
    rw [hzero] at hcx
    exact absurd hcx.symm (Nat.ne_of_gt hpos)
  · simp only [At, hlabel] at hat
    obtain ⟨hlive, held, cur, hline, -, -, -, hheld⟩ := hat
    obtain ⟨-, hargs⟩ := hline.args hheld
    have hatline := hline.atLine hheld
    have hd := hlive.dispatch hline hheld
    simp only [sending, hlabel, hargs] at hs
    cases hans : dispatchLine img (dispatchArgs img r.cpu) with
    | none =>
        rw [hans] at hs
        cases hs
    | some t =>
        rw [hans] at hs hd
        simp only at hs
        split at hs
        · cases hs
        · next hcx =>
            cases hs
            exact ⟨hcx, (hd.source hatline hcx).1⟩
  · simp only [At, hlabel] at hat
    rw [hat.2.1] at hquit
    cases hquit

/-- The program has come as far as `asmRun` in `k` steps of its world,
with `more` packets still to be handed over. -/
structure Spending (bytes : List Byte) (k : Nat) (more : List Packet)
    (s : Sys) : Prop where
  runs : Runs default demoBot s (spending bytes).answers k false more
  packets : s.net.handed ++ more = [pinging bytes]
  spent : Spent s.run.sends s.net

theorem Spending.run (hs : Spending bytes k more s) :
    Asm.steps default (spending bytes) k ((spending bytes).start demoBot)
      = { s.run with packets := more } :=
  hs.runs _ hs.packets.symm rfl fun _ _ => rfl

/-- Where the replies go. -/
theorem spending_buffer (bytes : List Byte) (k : Nat) :
    0x8000 ≤ ((spending bytes).answers k).buffer.toNat
      ∧ ((spending bytes).answers k).buffer.toNat + outSpill ≤ 65536 := by
  have hmem : demoPool.getD k 0xc000 ∈ 0xc000 :: demoPool := by
    rw [List.getD_eq_getElem?_getD]
    cases hk : demoPool[k]? with
    | none => exact List.mem_cons_self
    | some b => exact List.mem_cons_of_mem _ (List.mem_of_getElem? hk)
  have hall : ∀ b ∈ 0xc000 :: demoPool,
      0x8000 ≤ (b + sizeofTcpBuffer).toNat
        ∧ (b + sizeofTcpBuffer).toNat + outSpill ≤ 65536 := by
    simp [demoPool, sizeofTcpBuffer, outSpill]
  exact hall _ hmem

theorem spending_apart (hpos : bytes ≠ []) (hlen : bytes.length ≤ 0x1000) :
    (spending bytes).Apart default := by
  refine apart_default ?_ (spending_buffer bytes)
  intro q hq
  cases List.mem_singleton.mp hq
  exact ⟨rfl, hpos, hlen⟩

theorem spending_delivers (bytes : List Byte) :
    (spending bytes).Delivers := by
  refine fun k => ⟨fun hnull => ?_, rfl⟩
  have hlow := (spending_buffer bytes k).1
  rw [hnull] at hlow
  exact absurd hlow (by decide)

theorem Spending.at (hs : Spending bytes k more s) (hpos : bytes ≠ [])
    (hlen : bytes.length ≤ 0x1000) :
    At default (spending bytes) (fun _ _ => True) demoBot
      { s.run with packets := more } := by
  rw [← hs.run]
  exact at_steps (spending_apart hpos hlen) demoBot_fresh
    (fun _ _ => trivial) k

/-- A step that asks nothing. -/
theorem Spending.silent (hs : Spending bytes k more s) {t : Turn}
    (hlabel : s.run.label ≠ .stateGetPacket)
    (hsend : sending default s.run = none) :
    Spending bytes (k + 1) more (s.step demoHost default t)
      ∧ (s.step demoHost default t).net = s.net := by
  have hruns := hs.runs.unasked (h := demoHost) (t := t) hlabel hsend
  have hsends := sends_step demoHost default t s
  rw [hsend] at hsends
  rw [step_unasked (spending bytes) hlabel hsend] at hruns hsends ⊢
  refine ⟨⟨hruns, hs.packets, ?_⟩, rfl⟩
  rw [hsends]
  exact hs.spent

/-- A step that sends, while there are buffers. -/
theorem Spending.sent (hs : Spending bytes k more s) (hpos : bytes ≠ [])
    (hlen : bytes.length ≤ 0x1000) {len : Word}
    (hsend : sending default s.run = some len) (hfour : s.run.sends < 4) :
    Spending bytes (k + 1) more (s.step demoHost default (driven .nothing))
      ∧ (s.step demoHost default (driven .nothing)).net.stack.incoming
        = s.net.stack.incoming := by
  obtain ⟨hne, hshort⟩ := sending_short demoBot_credentials (by decide)
    rfl (hs.at hpos hlen) (show _ = some len from hsend)
  obtain ⟨hanswer, hspent, hin⟩ :=
    hs.spent.sendPacket bytes hfour hne hshort
  have hruns := hs.runs.sent (h := demoHost) (t := driven .nothing) hsend
  rw [hanswer, Function.update_eq_self] at hruns
  have hsends := sends_step demoHost default (driven .nothing) s
  rw [hsend] at hsends
  rw [step_sent hsend] at hruns hsends ⊢
  refine ⟨⟨hruns, ?_, ?_⟩, hin⟩
  · simp only
    rw [sendPacket_handed]
    exact hs.packets
  · rw [hsends]
    exact hspent

/-- A step that receives. -/
theorem Spending.packet {t : Turn} (hs : Spending bytes k (p :: more) s)
    (hlabel : s.run.label = .stateGetPacket)
    (hin : s.net.stack.incoming.toList = p :: more) :
    Spending bytes (k + 1) more (s.step demoHost default t)
      ∧ (s.step demoHost default t).net.stack.incoming.toList = more := by
  have hruns := hs.runs.packet (h := demoHost) (t := t) hlabel hin
  obtain ⟨q, hq, hgot⟩ :=
    recvNewPacket_packet (h := demoHost) (t := t) hin
  rw [step_received _ _ _ hlabel, hgot] at hruns ⊢
  refine ⟨⟨hruns, ?_, ?_⟩, hq⟩
  · simp only
    rw [List.append_assoc, List.singleton_append]
    exact hs.packets
  · simp only [received, Asm.step, hlabel, Run.getPacket]
    obtain ⟨hstate, hmax, hout, hsent, hfree, hheld⟩ := hs.spent
    exact ⟨hstate, hmax, hout, hsent, hfree, hheld⟩

-- ==================================================== the beginning

/-- The program `k` turns on. -/
def demoRun (a : Arrival) (k : Nat) : Sys :=
  Sys.steps demoHost default (arriving a) k (Sys.main demoStack demoBot)

theorem demoRun_succ (a : Arrival) (k : Nat) :
    demoRun a (k + 1)
      = (demoRun a k).step demoHost default (arriving a k) := rfl

theorem arriving_of_ne (a : Arrival) (hk : k ≠ 2) :
    arriving a k = driven .nothing := by
  rw [arriving, if_neg hk]

theorem demoRun_zero (a : Arrival) : (demoRun a 0).run.label = .asmRun :=
  rfl

variable (bytes) in
/-- The credentials are sent, and nothing has come in. -/
theorem spending_begin (a : Arrival) (hpos : bytes ≠ [])
    (hlen : bytes.length ≤ 0x1000) :
    Spending bytes 2 [pinging bytes] (demoRun a 2)
      ∧ (demoRun a 2).Waits ∧ (demoRun a 2).run.sends = 1 := by
  have hzero : Spending bytes 0 [pinging bytes] (demoRun a 0) :=
    ⟨.main default _ false _ demoStack demoBot, rfl, .main⟩
  have hasm := demoRun_zero a
  obtain ⟨hone, hnet⟩ := hzero.silent (t := arriving a 0)
    (by rw [hasm]; decide) (by simp only [sending, hasm])
  rw [← demoRun_succ] at hone hnet
  have hentered : Asm.steps default (spending bytes) 1
      ((spending bytes).start demoBot) = { (spending bytes).start demoBot with
        label := .stateStart, cpu := entered demoBot } := by
    rw [steps_succ]
    exact step_asmRun default _ demoBot
  have hrun := hone.run
  rw [hentered] at hrun
  have hstart : (demoRun a 1).run.label = .stateStart
      ∧ (demoRun a 1).run.cpu = entered demoBot
      ∧ (demoRun a 1).run.sends = 0 :=
    ⟨(congrArg Run.label hrun).symm, (congrArg Run.cpu hrun).symm,
      (congrArg Run.sends hrun).symm⟩
  have hbegun := dispatchInit_some default (s := entered demoBot)
    demoBot_credentials
  have hsend : sending default (demoRun a 1).run
      = some (dispatchInit default (entered demoBot)).cx := by
    simp only [sending, hstart]
    rw [if_neg (not_not.mpr hbegun.ax)]
  obtain ⟨htwo, hin⟩ := hone.sent hpos hlen hsend (by rw [hstart.2.2]; decide)
  rw [← arriving_of_ne a (show 1 ≠ 2 by decide), ← demoRun_succ] at htwo hin
  obtain ⟨hlabel, -, hsends⟩ := second_step default
    (spending_delivers bytes) demoBot_credentials
  rw [htwo.run] at hlabel hsends
  refine ⟨htwo, ⟨hlabel, ?_⟩, hsends⟩
  rw [hin, hnet]
  rfl

/-- A round of the loop that leaves the connection as it is. -/
theorem waits_step {a : Arrival} (hwaits : s.Waits)
    (hopen : (s.net.stack.serve demoHost (driven a)).state
      = .established) :
    s.step demoHost default (driven a)
      = ⟨s.run, { s.net with
          stack := s.net.stack.serve demoHost (driven a) }⟩ := by
  obtain ⟨hlabel, hin⟩ := hwaits
  rw [step_received _ _ _ hlabel, Globals.recvNewPacket,
    Ring.dequeue_nil hin]
  simp only
  rw [hopen, if_neg (by decide), driven, if_neg Bool.false_ne_true]
  rfl

-- ==================================================== a burst

/-- What a server may send at once. -/
def burst : List Byte := startLine ++ pingLine ++ pingLine ++ pingLine

theorem burst_lines : (whole (spending burst)).2
    = [startLine, pingLine, pingLine, pingLine] := by
  decide +kernel

/-- The server's 004 is due an answer, and so are the PINGs behind it. -/
theorem burst_due : Due (whole (spending burst)).2 := by
  rw [burst_lines]
  intro before inp h
  obtain ⟨rest, hrest⟩ := h
  cases before with
  | nil =>
      cases hrest
      exact ⟨_, startLine_parse, by decide, by decide +kernel⟩
  | cons l ls =>
      have hmem : inp ∈ [pingLine, pingLine, pingLine] := by
        rw [← (List.cons.inj hrest).2]
        simp
      have hping : inp = pingLine := by simpa using hmem
      have hidle : standing (l :: ls) = .idle :=
        if_neg (List.cons_ne_nil l ls)
      rw [hping, DueAfter, hidle]
      exact ⟨_, pingLine_parse, by decide, by decide⟩

theorem burst_pos : burst ≠ [] := by decide

theorem burst_length : burst.length ≤ 0x1000 := by decide +kernel

/-- Five sends are due. -/
theorem burst_sends (k : Nat)
    (hdrained : (Asm.steps default (spending burst) k
      ((spending burst).start demoBot)).Drained) :
    (Asm.steps default (spending burst) k
      ((spending burst).start demoBot)).sends = 5 := by
  have hw := spending_apart burst_pos burst_length
  have hprompt := prompt_steps hw (spending_delivers burst) demoBot_fresh
    demoBot_credentials burst_due k
  have hat := at_steps (C := fun _ _ => True) hw demoBot_fresh
    (fun _ _ => trivial) k
  rw [hprompt.drained hat hdrained, burst_lines]
  rfl

/-- As long as there are buffers, a step goes on, or it is a send that
finds `sendBuffer` null. -/
theorem Spending.step (hs : Spending burst k more s)
    (hin : s.net.stack.incoming.toList = more) (hfour : s.run.sends ≤ 4) :
    (∃ more', Spending burst (k + 1) more'
        (s.step demoHost default (driven .nothing))
      ∧ (s.step demoHost default (driven .nothing)).net.stack.incoming.toList
        = more'
      ∧ (s.step demoHost default (driven .nothing)).run.sends ≤ 4)
    ∨ (s.Lends demoHost default ∧ s.net.sendBuffer = 0) := by
  have hsends := sends_step demoHost default (driven .nothing) s
  by_cases hlabel : s.run.label = .stateGetPacket
  · cases more with
    | nil =>
        have hfive := burst_sends k (by
          rw [hs.run]
          exact ⟨hlabel, rfl⟩)
        rw [hs.run] at hfive
        rw [hfive] at hfour
        exact absurd hfour (by decide)
    | cons p ps =>
        obtain ⟨hnext, hleft⟩ := hs.packet (t := driven .nothing) hlabel hin
        refine Or.inl ⟨ps, hnext, hleft, ?_⟩
        rw [hsends]
        simp only [sending, hlabel]
        exact hfour
  · cases hsend : sending default s.run with
    | none =>
        obtain ⟨hnext, hnet⟩ := hs.silent (t := driven .nothing) hlabel hsend
        refine Or.inl ⟨more, hnext, ?_, ?_⟩
        · rw [hnet]
          exact hin
        · rw [hsends, hsend]
          exact hfour
    | some len =>
        rcases Nat.lt_or_eq_of_le hfour with hlt | heq
        · obtain ⟨hnext, hsame⟩ :=
            hs.sent burst_pos burst_length hsend hlt
          refine Or.inl ⟨more, hnext, ?_, ?_⟩
          · rw [hsame]
            exact hin
          · rw [hsends, hsend]
            exact hlt
        · have hnull : s.net.sendBuffer = 0 := by
            rw [hs.spent.held, heq]
            rfl
          obtain ⟨-, hshort⟩ := sending_short demoBot_credentials
            (by decide) rfl (hs.at burst_pos burst_length)
            (show _ = some len from hsend)
          refine Or.inr ⟨⟨len, hsend, ?_⟩, hnull⟩
          rw [currentSendBuffer_eq (toInt_le_of_short hshort), hnull]
          decide

/-- The four answers to the burst and the credentials need five buffers. -/
theorem burst_null :
    ∃ k, (demoRun (.segment ⟨0, pinging burst, false⟩) k).Lends demoHost
        default
      ∧ (demoRun (.segment ⟨0, pinging burst, false⟩) k).net.sendBuffer
        = 0 := by
  obtain ⟨S, hS⟩ : ∃ S, S = demoRun (.segment ⟨0, pinging burst, false⟩) :=
    ⟨_, rfl⟩
  rw [← hS]
  by_contra hnever
  have hall : ∀ j, ∃ more, Spending burst (j + 2) more (S (j + 3))
      ∧ (S (j + 3)).net.stack.incoming.toList = more
      ∧ (S (j + 3)).run.sends ≤ 4 := by
    intro j
    induction j with
    | zero =>
        obtain ⟨htwo, hwaits, hsends⟩ := spending_begin burst
          (.segment ⟨0, pinging burst, false⟩) burst_pos burst_length
        rw [← hS] at htwo hwaits hsends
        obtain ⟨hspent, hin⟩ := htwo.spent.serve_segment
          (by rw [hsends]; decide) hwaits.2
          (show (pinging burst).bytes ≠ [] from burst_pos)
        have hthree := waits_step hwaits hspent.state
        have hnext : S 3 = (S 2).step demoHost default
            (driven (.segment ⟨0, pinging burst, false⟩)) := by
          rw [hS, demoRun_succ]
          rfl
        rw [hnext, hthree]
        refine ⟨_, ⟨htwo.runs, htwo.packets, hspent⟩, hin, ?_⟩
        simp only
        rw [hsends]
        decide
    | succ j ih =>
        obtain ⟨more, hs, hin, hfour⟩ := ih
        have hnext : S (j + 4) = (S (j + 3)).step demoHost default
            (driven .nothing) := by
          rw [hS, demoRun_succ, arriving_of_ne _ (by omega)]
        rcases hs.step hin hfour with hgoing | hnull
        · rw [hnext]
          exact hgoing
        · exact absurd ⟨_, hnull⟩ hnever
  -- but the world is drained, with five sends
  have hw := spending_apart burst_pos burst_length
  have hshort : ShortReplies default (spending burst) 514 demoBot := by
    apply shortReplies_of_length hw demoBot_fresh
    rw [burst_lines]
    decide
  obtain ⟨m, hdrained⟩ := asmRun_drains hw (spending_delivers burst)
    demoBot_fresh demoBot_credentials hshort
  have hfive := burst_sends m hdrained
  obtain ⟨more, hs, -, hfour⟩ := hall m
  have hmore : (Asm.steps default (spending burst) m
      ((spending burst).start demoBot)).sends
        ≤ (Asm.steps default (spending burst) (m + 2)
          ((spending burst).start demoBot)).sends := by
    rw [steps_succ, step_sends, steps_succ, step_sends]
    omega
  rw [hfive, hs.run] at hmore
  exact absurd (hmore.trans hfour) (by decide)

/-- So a reply may be copied to where no buffer is. -/
theorem sendBuffer_not_owned :
    ¬ ∀ (h : Host) (st : Stack) (s₀ : Bot) (turns : Nat → Turn),
      Connected h st →
      ∀ k, (Sys.steps h default turns k (Sys.main st s₀)).Lends h default →
        Owned h (Sys.steps h default turns k (Sys.main st s₀)).net := by
  intro hall
  obtain ⟨k, hlends, hnull⟩ := burst_null
  exact (hall demoHost demoStack demoBot _ demoStack_connected k
    hlends).nonnull hnull

-- ==================================================== a parting line

/-- A PING that comes with the end of the connection is not handed
over. -/
theorem recvNewPacket_not_drained :
    ¬ ∀ (h : Host) (st : Stack) (s₀ : Bot) (turns : Nat → Turn),
      Connected h st → (∀ k, (turns k).Peaceful) →
      ∀ k, (Sys.steps h default turns k (Sys.main st s₀)).Closes h (turns k) →
        (Sys.steps h default turns (k + 1)
          (Sys.main st s₀)).net.stack.incoming.toList = []
        ∧ (Sys.steps h default turns (k + 1) (Sys.main st s₀)).net.handed
          = (Sys.steps h default turns (k + 1)
            (Sys.main st s₀)).net.stack.accepted := by
  intro hall
  have hpeace := arriving_peaceful (a := .segment ⟨0, pinging pingLine, true⟩)
    (fun hreset => by cases hreset)
  obtain ⟨-, ⟨hlabel, hin⟩, -⟩ := spending_begin pingLine
    (.segment ⟨0, pinging pingLine, true⟩) (by decide) (by decide)
  have hhanding : ∀ k,
      Handing (demoRun (.segment ⟨0, pinging pingLine, true⟩) k).net :=
    handing_steps default demoStack_connected demoBot hpeace
  obtain ⟨hclosed, hleft⟩ := (closed_over_packet_iff (h := demoHost)
    (hhanding 2) (hpeace 2)).mpr ⟨hin, _, rfl, by decide, Or.inl rfl⟩
  have hdrained : ∀ k,
      (demoRun (.segment ⟨0, pinging pingLine, true⟩) k).Closes demoHost
          (arriving (.segment ⟨0, pinging pingLine, true⟩) k) →
        ((demoRun (.segment ⟨0, pinging pingLine, true⟩) k).net.recvNewPacket
          demoHost (arriving (.segment ⟨0, pinging pingLine, true⟩)
            k)).2.stack.incoming.toList = [] := by
    intro k hcloses
    have hempty := (hall demoHost demoStack demoBot _ demoStack_connected
      hpeace k hcloses).1
    unfold demoRun at hcloses ⊢
    rw [Sys.steps, step_received _ _ _ hcloses.1] at hempty
    exact hempty
  exact hleft (hdrained 2 ⟨hlabel, hclosed⟩)

-- ==================================================== a kind network

/-- The turns when these segments come, each at its time. -/
def coming (segs : List (Nat × Segment)) (k : Nat) : Turn :=
  driven ((segs.lookup k).elim .nothing .segment)

/-- The program `k` turns on. -/
def comingRun (segs : List (Nat × Segment)) (k : Nat) : Sys :=
  Sys.steps demoHost default (coming segs) k (Sys.main demoStack demoBot)

theorem coming_segment {segs : List (Nat × Segment)} {seg : Segment}
    (hseg : (coming segs k).arrival = .segment seg) : (k, seg) ∈ segs := by
  unfold coming driven at hseg
  simp only at hseg
  cases hlookup : segs.lookup k with
  | none =>
      rw [hlookup] at hseg
      cases hseg
  | some seg' =>
      rw [hlookup] at hseg
      obtain rfl := Arrival.segment.inj hseg
      obtain ⟨l₁, l₂, heq, -⟩ := List.lookup_eq_some_iff.mp hlookup
      rw [heq]
      exact List.mem_append_right _ List.mem_cons_self

theorem coming_peaceful (segs : List (Nat × Segment)) (k : Nat) :
    (coming segs k).Peaceful := by
  refine ⟨?_, rfl⟩
  unfold coming driven
  simp only
  cases segs.lookup k with
  | none => exact fun hreset => by cases hreset
  | some seg => exact fun hreset => by cases hreset

/-- The server's 004 comes, and the end of the connection when it was
answered. -/
def departing : List (Nat × Segment) :=
  [(2, ⟨1, pinging startLine, false⟩), (17, ⟨1, ⟨0, []⟩, true⟩)]

/-- Data that comes before the end of the connection was handed over when 0
is returned. -/
theorem recvNewPacket_drained_departing :
    Connected demoHost demoStack
      ∧ (comingRun departing 17).Closes demoHost (coming departing 17)
      ∧ (comingRun departing 18).net.handed
        = (comingRun departing 18).net.stack.accepted
      ∧ (comingRun departing 18).net.handed.length = 1 := by
  have hclosing : (comingRun departing 17).run.label = .stateGetPacket
      ∧ (comingRun departing 17).net.stack.incoming.entries = 0
      ∧ ((comingRun departing 17).net.stack.serve demoHost
        (coming departing 17)).state.isRemoteClosed = true := by
    decide +kernel
  obtain ⟨hlabel, hin, hclosed⟩ := hclosing
  have hcloses : (comingRun departing 17).Closes demoHost
      (coming departing 17) := by
    refine ⟨hlabel, ?_⟩
    rw [Globals.recvNewPacket, Ring.dequeue_nil (Ring.toList_eq_nil.mpr hin)]
    simp only
    rw [if_pos hclosed]
  have hdrained : ∀ k,
      (comingRun departing k).Closes demoHost (coming departing k) →
        (comingRun departing (k + 1)).net.stack.incoming.toList = []
        ∧ (comingRun departing (k + 1)).net.handed
          = (comingRun departing (k + 1)).net.stack.accepted := by
    refine (recvNewPacket_drained_iff demoStack_connected demoBot
      (coming_peaceful departing)).mpr fun k _ hparting => ?_
    obtain ⟨seg, hseg, hdata, hend⟩ := hparting
    have hopen : k = 2 → (comingRun departing k).net.stack.state.isRemoteClosed
        = false := by
      intro hk
      rw [hk]
      decide +kernel
    rw [comingRun] at hopen
    rcases List.mem_cons.mp (coming_segment hseg) with heq | hmem
    · obtain ⟨hk, rfl⟩ := Prod.mk.inj heq
      rw [hopen hk] at hend
      rcases hend with hfin | hno
      · cases hfin
      · cases hno
    · obtain ⟨-, rfl⟩ := Prod.mk.inj (List.mem_singleton.mp hmem)
      exact hdata rfl
  have hlast := (hdrained 17 hcloses).2
  have hnext : 17 + 1 = 18 := rfl
  rw [hnext] at hlast
  exact ⟨demoStack_connected, hcloses, hlast, by decide +kernel⟩

/-- Where nothing comes, nothing happens. -/
theorem waits_rest (hwaits : s.Waits) (hst : s.net.stack.state = .established)
    (hout : s.net.stack.outgoing.toList = []) :
    s.step demoHost default (driven .nothing) = s := by
  have hserve : s.net.stack.serve demoHost (driven .nothing) = s.net.stack := by
    rw [serve_driven hst, drivePackets_rest hout]
  have hstep := waits_step (a := .nothing) hwaits (by
    rw [hserve]
    exact hst)
  rw [hserve] at hstep
  exact hstep

/-- When no more segments come the program waits for ever. -/
theorem comingRun_rest {segs : List (Nat × Segment)} {n : Nat}
    (hwaits : (comingRun segs n).Waits)
    (hst : (comingRun segs n).net.stack.state = .established)
    (hout : (comingRun segs n).net.stack.outgoing.toList = [])
    (hnone : ∀ e ∈ segs, e.1 < n) (j : Nat) :
    comingRun segs (n + j) = comingRun segs n := by
  induction j with
  | zero => rfl
  | succ j ih =>
      have hturn : coming segs (n + j) = driven .nothing := by
        have hlookup : segs.lookup (n + j) = none := by
          refine List.lookup_eq_none_iff.mpr fun e he => ?_
          have hlt := hnone e he
          exact bne_iff_ne.mpr (by omega)
        unfold coming
        rw [hlookup]
        rfl
      have hnext : comingRun segs (n + j + 1) = (comingRun segs (n + j)).step
          demoHost default (coming segs (n + j)) := rfl
      rw [← Nat.add_assoc, hnext, ih, hturn, waits_rest hwaits hst hout]

/-- The server's 004 comes, and a PING when it was answered, and another one
when that was. Each acknowledges what was sent before. -/
def attending : List (Nat × Segment) :=
  [(2, ⟨1, pinging startLine, false⟩), (17, ⟨1, pinging pingLine, false⟩),
    (40, ⟨1, pinging pingLine, false⟩)]

theorem attending_waits : (comingRun attending 63).Waits
    ∧ (comingRun attending 63).net.stack.state = .established
    ∧ (comingRun attending 63).net.stack.outgoing.toList = [] := by
  have hrest : (comingRun attending 63).run.label = .stateGetPacket
      ∧ (comingRun attending 63).net.stack.incoming.entries = 0
      ∧ (comingRun attending 63).net.stack.state = .established
      ∧ (comingRun attending 63).net.stack.outgoing.entries = 0 := by
    decide +kernel
  obtain ⟨hlabel, hin, hst, hout⟩ := hrest
  exact ⟨⟨hlabel, Ring.toList_eq_nil.mpr hin⟩, hst,
    Ring.toList_eq_nil.mpr hout⟩

/-- Its sends are these four. -/
theorem attending_sends
    (hsend : (comingRun attending k).Sends demoHost default) :
    k ∈ [1, 14, 37, 60] := by
  have hfour : ∀ k < 63, (comingRun attending k).run.label = .stateStart
      ∨ (comingRun attending k).run.label = .stateDispatch
      ∨ (comingRun attending k).run.label = .stateQuit →
      k ∈ [1, 14, 37, 60] := by decide +kernel
  obtain ⟨len, hlen, -⟩ := hsend
  rcases Nat.lt_or_ge k 63 with hlt | hge
  · exact hfour k hlt (label_of_sending hlen)
  · obtain ⟨j, rfl⟩ := Nat.exists_eq_add_of_le hge
    obtain ⟨hwaits, hst, hout⟩ := attending_waits
    rw [comingRun_rest hwaits hst hout (by decide)] at hlen
    exact absurd hwaits.1 (label_ne_of_sending hlen)

/-- Where each packet is acknowledged before the next one is sent, there is a
buffer for each. -/
theorem sendBuffer_owned_attending :
    Connected demoHost demoStack ∧ (comingRun attending 63).run.sends = 4
      ∧ ∀ k, (comingRun attending k).Lends demoHost default →
        Owned demoHost (comingRun attending k).net := by
  refine ⟨demoStack_connected, by decide +kernel,
    (sendBuffer_owned_iff demoStack_connected demoBot _).mpr ?_⟩
  intro j k _ hsends _
  have hspare : ∀ j ∈ [1, 14, 37, 60],
      spare demoHost (comingRun attending j).net ≠ [] := by decide +kernel
  exact hspare j (attending_sends hsends)

end Pdtb.Net
