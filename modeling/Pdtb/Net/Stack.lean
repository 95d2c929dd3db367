/-
The vendored TCP stack (`TCP.H`, `TCP.CPP`, `RINGBUF.H`), as far as the
bot's socket uses it while `asmRun` runs: after `connect`, before `close`.

A `TcpBuffer` is its address; of its fields only `dataLen` and
`bufferPool` decide anything here. What depends on the wire comes as an
argument: what a segment acknowledges and carries, whether it is a good
one, and how many packets the window and the timers let through.
-/
import Pdtb.Asm.State
import Pdtb.Lib.Ring

namespace Pdtb.Net

open Lib Asm

-- ==================================================== the data

/-- `TCP_STATE_*` -/
inductive TcpState where
  | closed
  | listen
  | synSent
  | synRecved
  | established
  | closeWait
  | lastAck
  | finWait1
  | finWait2
  | closing
  | timeWait
  | sendFin1
  | sendFin2
  | sendFin3
  deriving DecidableEq, Repr

/-- `isRemoteClosed` -/
def TcpState.isRemoteClosed (st : TcpState) : Bool :=
  st = .closed || st = .closeWait || st = .lastAck || st = .sendFin2
    || st = .closing || st = .timeWait

/-- `isConnectComplete` -/
def TcpState.isConnectComplete (st : TcpState) : Bool :=
  st = .established || st = .closeWait

/-- `RINGBUFFER_SIZE` is 4. -/
abbrev RingBuffer (α : Type) := Ring α 2

/-- `TCP_SOCKET_RING_SIZE` -/
def tcpSocketRingSize : Nat := 4

def tcpRcGood : Int := 0

def tcpRcBad : Int := -1

def tcpRcTooMuchData : Int := -5

/-- `sizeof(TcpBuffer)` -/
def sizeofTcpBuffer : Word := 76

/-- What `initStack(1, TCP_SOCKET_RING_SIZE)` has laid out: the buffers of
the pool, in one block that `malloc` gave, and the socket with its
`connectPacket`. -/
structure Host where
  /-- `MSS_to_advertise` -/
  mss : Nat
  /-- the buffers of the pool, the last one first -/
  pool : List Word
  /-- `&connectPacket.pkt` -/
  connectPacket : Word
  /-- the flag of that name in the `TcpBuffer` at an address -/
  bufferPool : Word → Bool
  count : pool.length = tcpSocketRingSize
  nodup : pool.Nodup
  nonnull : 0 ∉ pool
  fits : ∀ b ∈ pool, b.toNat + sizeofTcpBuffer.toNat + mss < 2 ^ 16
  pooled : ∀ b ∈ pool, bufferPool b = true
  apart : connectPacket ∉ pool
  unpooled : bufferPool connectPacket = false

/-- The socket and the pool. -/
structure Stack where
  state : TcpState
  maxEnqueueSize : Nat
  /-- enqueued to be sent -/
  outgoing : RingBuffer Word
  /-- sent, and not yet acknowledged -/
  sent : RingBuffer Word
  /-- received -/
  incoming : RingBuffer Packet
  /-- the first `freeXmitBuffers` of `TcpBuffer::xmitBuffers`, the last
  one first -/
  xmitBuffers : List Word
  /-- the field of the `TcpBuffer` at an address -/
  dataLen : Word → Nat
  /-- not a variable of the program: all that was ever put on `incoming` -/
  accepted : List Packet

/-- A segment for the socket with the sequence number and the
acknowledgement it expects; no other changes the queues. -/
structure Segment where
  /-- how many sent packets it acknowledges -/
  acked : Nat
  /-- the packet with its data, which may be empty -/
  packet : Packet
  fin : Bool

/-- What `PACKET_PROCESS_SINGLE` comes upon. -/
inductive Arrival where
  /-- no packet, or one that does not concern the socket -/
  | nothing
  | segment (seg : Segment)
  | reset

variable (h : Host)

-- ==================================================== the pool

def Stack.getXmitBuf (s : Stack) : Word × Stack :=
  match s.xmitBuffers with
  | [] => (0, s)
  | b :: bs => (b, { s with xmitBuffers := bs })

def Stack.returnXmitBuf (tmp : Word) (s : Stack) : Stack :=
  if h.bufferPool tmp then { s with xmitBuffers := tmp :: s.xmitBuffers }
  else s

-- ==================================================== enqueue

/-- `TCP_OPT_ENQUEUED_ACKS`: an empty packet that waits alone is dropped
for the one that is to be enqueued. -/
def Stack.piggyback (s : Stack) : Stack :=
  if s.outgoing.entries = 1 ∧ s.state = .established then
    match s.outgoing.dequeue with
    | (none, _) => s
    | (some first, q) =>
        if s.dataLen first = 0 then
          { s with outgoing := q }.returnXmitBuf h first
        else s
  else s

def Stack.enqueue (buf : Word) (s : Stack) : Int × Stack :=
  if s.state = .closed ∨ s.state = .listen ∨ s.state = .closing
      ∨ (s.state = .timeWait ∧ buf ≠ h.connectPacket) then (tcpRcBad, s)
  else if s.maxEnqueueSize < s.dataLen buf then (tcpRcTooMuchData, s)
  else
    let s := s.piggyback h
    let (rc, q) := s.outgoing.enqueue buf
    (rc, { s with outgoing := q })

/-- `dataLen` of a `TcpBuffer` is set. -/
def Stack.setDataLen (buf : Word) (len : Nat) (s : Stack) : Stack :=
  { s with dataLen := Function.update s.dataLen buf len }

-- ==================================================== the queues emptied

/-- `removeSentPackets`, for a segment that acknowledges `n` of them. -/
def Stack.removeSentPackets : Nat → Stack → Stack
  | 0, s => s
  | n + 1, s =>
      match s.sent.dequeue with
      | (none, _) => s
      | (some p, q) =>
          -- a null pointer in the queue is taken for its end
          if p = 0 then s
          else
            Stack.removeSentPackets n ({ s with sent := q }.returnXmitBuf h p)

/-- The loop of `clearQueues` over `outgoing`. -/
def Stack.clearOutgoing : Nat → Stack → Stack
  | 0, s => s
  | n + 1, s =>
      match s.outgoing.dequeue with
      | (none, _) => s
      | (some p, q) =>
          Stack.clearOutgoing n ({ s with outgoing := q }.returnXmitBuf h p)

/-- And the one over `sent`. -/
def Stack.clearSent : Nat → Stack → Stack
  | 0, s => s
  | n + 1, s =>
      match s.sent.dequeue with
      | (none, _) => s
      | (some p, q) =>
          Stack.clearSent n ({ s with sent := q }.returnXmitBuf h p)

def Stack.clearQueues (s : Stack) : Stack :=
  let s := s.clearOutgoing h s.outgoing.entries
  let s := s.clearSent h s.sent.entries
  { s with
    incoming := (fun q => q.dequeue.2)^[s.incoming.entries] s.incoming }

def Stack.destroy (s : Stack) : Stack :=
  { s.clearQueues h with state := .closed }

-- ==================================================== a segment

/-- `processPacketData`: whether to play dead, and the stack. -/
def Stack.processPacketData (packet : Packet) (s : Stack) : Bool × Stack :=
  if s.incoming.hasRoom then
    (false, { s with
      incoming := (s.incoming.enqueue packet).2
      accepted := s.accepted ++ [packet] })
  else (true, s)

/-- `process2` from `switch ( socket->state )` on. Its other cases are for
sockets that connect or close. -/
def Stack.processState (fin generatePkt : Bool) (s : Stack) : Stack :=
  let closes : Bool := s.state = .established && fin
  let s := if closes then { s with state := .closeWait } else s
  if generatePkt || closes then
    ((s.setDataLen h.connectPacket 0).enqueue h h.connectPacket).2
  else s

def Stack.process2 (seg : Segment) (s : Stack) : Stack :=
  let s := s.removeSentPackets h seg.acked
  if seg.packet.bytes = [] then s.processState h seg.fin false
  else
    let (playDead, s) := s.processPacketData seg.packet
    if playDead then s
    else s.processState h seg.fin (s.outgoing.entries = 0)

/-- `PACKET_PROCESS_SINGLE`. A closed socket gets nothing any more. -/
def Stack.packetProcessSingle (a : Arrival) (s : Stack) : Stack :=
  if s.state = .closed ∨ s.state = .timeWait then s else
  match a with
  | .nothing => s
  | .segment seg => s.process2 h seg
  | .reset => s.destroy h

-- ==================================================== drivePackets

/-- The first packet of `outgoing` goes out. Between `connect` and `close`
one without data has no flag but ACK (`wasAckOnly`). -/
def Stack.sendPending (s : Stack) : Stack :=
  match s.outgoing.dequeue with
  | (none, _) => s
  | (some pendingPacket, q) =>
      if s.dataLen pendingPacket = 0 then
        { s with outgoing := q }.returnXmitBuf h pendingPacket
      else
        { s with
          outgoing := q
          sent := (s.sent.enqueue pendingPacket).2 }

/-- The loop of `drivePackets2`, when the window and ARP let `n` packets
through. -/
def Stack.drivePackets2 : Nat → Stack → Stack
  | 0, s => s
  | n + 1, s =>
      if s.outgoing.entries ≠ 0 ∧ s.sent.hasRoom then
        Stack.drivePackets2 n (s.sendPending h)
      else s

/-- `drivePackets`; `giveUp` is for a packet that was sent too often. -/
def Stack.drivePackets (giveUp : Bool) (ready : Nat) (s : Stack) : Stack :=
  if s.sent.entries ≠ 0 ∧ giveUp then s.destroy h
  else s.drivePackets2 h ready

end Pdtb.Net
