/-
The buffers for received packets: `PACKET.CPP`, and the places where the
stack and the bot give a buffer back.

The packet driver interrupts. It calls `receiver` twice for a packet, to
ask for a buffer and to say that it was filled, and anything may happen in
between. What the program does between two interrupts that it shares with
the driver is taking a packet from the ring and freeing a buffer, and both
are done with interrupts off. So the program's part is cut there: to
process a packet is one step, which leaves the calls of `Buffer_free` it
makes in `pending`, and each of these is a step.

What a packet is to TCP is not decided here (`Verdict`).
-/
import Pdtb.Net.Ip
import Pdtb.Net.Stack

namespace Pdtb.Net

open Lib

/-- `PACKET_BUFFERS` -/
def packetBuffers : Nat := 10

/-- `PACKET_RB_SIZE` -/
def packetRbSize : Nat := 11

/-- `PACKET_BUFFER_LEN` -/
def packetBufferLen : Nat := 1514

/-- `IP_PROTOCOL_TCP` -/
def ipProtocolTcp : Byte := 6

/-- Where `malloc` put the buffers and the big packets. -/
structure Arena where
  buffers : List Word
  bigs : List Word
  count : buffers.length = packetBuffers
  bigCount : bigs.length = ipMaxFragPackets
  nodup : (buffers ++ bigs).Nodup

/-- The variables of `PACKET.CPP`. -/
structure PacketRing where
  /-- `Buffer` -/
  ring : Nat → Frame
  /-- `Buffer_first` -/
  first : Nat
  /-- `Buffer_next` -/
  next : Nat
  /-- the first `Buffer_fs_index` entries of `Buffer_fs`, the last one
  first -/
  fs : List Word
  /-- `Buffer_packetBeingCopied`, between the two calls -/
  packetBeingCopied : Option Word
  /-- not a variable of the program: all packets that were received -/
  arrived : List Frame
  /-- not a variable of the program: all that were taken from the ring -/
  processed : List Frame

/-- Who else has buffers. -/
structure Holders where
  ip : Reassembly
  /-- of the socket -/
  incoming : RingBuffer Frame
  recvPacket : Option Frame
  /-- the calls of `Buffer_free` that are to be made, in their order -/
  pending : List Word

structure Buffers extends PacketRing, Holders

/-- What `Tcp::process` makes of a packet. -/
inductive Verdict where
  /-- it goes on the socket's queue, if there is room -/
  | keep
  | drop
  /-- the socket is destroyed -/
  | reset
  deriving DecidableEq

/-- A step of the driver or of the program. -/
inductive BufferEvent where
  /-- `receiver`, for a packet of so many bytes -/
  | request (len : Nat)
  /-- `receiver`, when they are in the buffer -/
  | arrival (eh : List Byte) (raw : Nat → Byte)
  /-- `Packet_process_internal` -/
  | process (now : BitVec 32) (verdict : Verdict)
  | checkOverdue (now : BitVec 32)
  /-- `Buffer_free` -/
  | free
  /-- `recvNewPacket`, up to where it has dequeued -/
  | receive
  /-- `drivePackets`, when a packet was sent too often -/
  | giveUp

variable (a : Arena)

namespace PacketRing

/-- `Buffer_first` and `Buffer_next`, moved on. -/
def advance (i : Nat) : Nat := if i + 1 = packetRbSize then 0 else i + 1

/-- The first call of `receiver`. The driver makes the second one only for
a buffer it was given. -/
def request (len : Nat) (s : PacketRing) : PacketRing :=
  if s.packetBeingCopied ≠ none ∨ packetBufferLen < len then s else
  match s.fs with
  | [] => s
  | b :: fs => { s with fs := fs, packetBeingCopied := some b }

/-- The second call. -/
def arrival (eh : List Byte) (raw : Nat → Byte) (s : PacketRing) :
    PacketRing :=
  match s.packetBeingCopied with
  | none => s
  | some b =>
      { s with
        ring := Function.update s.ring s.next ⟨b, eh, raw⟩
        next := advance s.next
        packetBeingCopied := none
        arrived := s.arrived ++ [⟨b, eh, raw⟩] }

/-- The packet is taken that `first` is at. -/
def take (s : PacketRing) : PacketRing :=
  { s with
    first := advance s.first
    processed := s.processed ++ [s.ring s.first] }

end PacketRing

namespace Holders

/-- A buffer is to be freed. -/
def discard (b : Word) (s : Holders) : Holders :=
  { s with pending := s.pending ++ [b] }

/-- `clearQueues`, as far as received packets go. -/
def clearIncoming (s : Holders) : Holders :=
  { s with
    pending := s.pending ++ s.incoming.toList.map Frame.buffer
    incoming := (fun q => q.dequeue.2)^[s.incoming.entries] s.incoming }

/-- `Tcp::process`, as far as the buffer goes. -/
def tcpProcess (verdict : Verdict) (f : Frame) (s : Holders) : Holders :=
  match verdict with
  | .keep =>
      if s.incoming.hasRoom then
        { s with incoming := (s.incoming.enqueue f).2 }
      else s.discard f.buffer
  | .drop => s.discard f.buffer
  | .reset => s.clearIncoming.discard f.buffer

/-- `Ip::process` from the point where the packet is in one piece. -/
def route (verdict : Verdict) (f : Frame) (s : Holders) : Holders :=
  if f.ip.protocol = ipProtocolTcp then s.tcpProcess verdict f
  else s.discard f.buffer

/-- The table, and what it freed. -/
def setIp (ip : Reassembly) (s : Holders) : Holders :=
  { s with ip := { ip with freed := [] }, pending := s.pending ++ ip.freed }

/-- `Ip::process` -/
def ipProcess (now : BitVec 32) (verdict : Verdict) (f : Frame)
    (s : Holders) : Holders :=
  if IpHeader.chksumOf f.raw f.ip.getIpHlen ≠ 0 then s.discard f.buffer
  else if f.ip.isFragment then
    match s.ip.processFragment now f with
    | (none, ip) => s.setIp ip
    | (some big, ip) => (s.setIp ip).route verdict big
  else s.route verdict f

/-- The handler for the packet's Ethernet type. Those for other types free
the buffer, as is done where there is none. -/
def handle (now : BitVec 32) (verdict : Verdict) (f : Frame) (s : Holders) :
    Holders :=
  if f.eh.drop 12 = [0x08, 0x00] then s.ipProcess now verdict f
  else s.discard f.buffer

/-- `recvNewPacket` -/
def receive (s : Holders) : Holders :=
  { s with
    pending := s.pending ++ (s.recvPacket.map Frame.buffer).toList
    recvPacket := s.incoming.dequeue.1
    incoming := s.incoming.dequeue.2 }

end Holders

namespace Buffers

/-- `Packet_process_internal` -/
def processInternal (now : BitVec 32) (verdict : Verdict) (s : Buffers) :
    Buffers where
  toPacketRing := s.take
  toHolders := s.toHolders.handle now verdict (s.ring s.first)

/-- `Buffer_free`, for the first call that is to be made. -/
def bufferFree (s : Buffers) : Buffers :=
  match s.pending with
  | [] => s
  | b :: pending =>
      let s := { s with pending := pending }
      if b ∈ a.bigs then { s with ip := s.ip.returnBigPacket b }
      else { s with fs := b :: s.fs }

/-- A step. The program goes on when it has made its calls. -/
def step (s : Buffers) : BufferEvent → Buffers
  | .request len => { s with toPacketRing := s.toPacketRing.request len }
  | .arrival eh raw =>
      { s with toPacketRing := s.toPacketRing.arrival eh raw }
  | .process now verdict =>
      if s.pending = [] ∧ s.first ≠ s.next then s.processInternal now verdict
      else s
  | .checkOverdue now =>
      if s.pending = [] then
        { s with toHolders := s.setIp (s.ip.fragsCheckOverdue now) }
      else s
  | .free => s.bufferFree a
  | .receive =>
      if s.pending = [] then { s with toHolders := s.toHolders.receive } else s
  | .giveUp =>
      if s.pending = [] then { s with toHolders := s.clearIncoming } else s

def run (s : Buffers) (evs : List BufferEvent) : Buffers :=
  evs.foldl (step a) s

/-- `Buffer_init`, `initForReassembly` and `Buffer_startReceiving` -/
def init (ring : Nat → Frame) (content : Word → Nat → Byte) : Buffers where
  ring := ring
  first := 0
  next := 0
  fs := a.buffers
  packetBeingCopied := none
  arrived := []
  processed := []
  ip := .init a.bigs content
  incoming := .init 2 default
  recvPacket := none
  pending := []

end Buffers

end Pdtb.Net
