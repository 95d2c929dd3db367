/-
A socket of `TCP.CPP` with its sequence numbers, from `connect` to the end
of `close`.

`Stack` is this without what the wire has to do with it. Here a segment is
what is in its header, and whether it is a good one is decided as the code
does. Where `Stack` has a function for what happens to the queues, it is
used.

What the clock decides comes as an argument. The peer's Ethernet address is
known, so no packet waits for ARP. A segment here has come to this socket
and its checksum was good.
-/
import Pdtb.Net.Stack

namespace Pdtb.Net

open Lib Asm

-- ==================================================== segments

/-- `TCP_CODEBITS_*`, as far as they are looked at. -/
structure CodeBits where
  ack : Bool
  psh : Bool
  rst : Bool
  syn : Bool
  fin : Bool
  deriving DecidableEq, Repr

/-- `TCP_CODEBITS_ACK` alone -/
def CodeBits.ackOnly : CodeBits := ⟨true, false, false, false, false⟩

structure TcpHeader where
  seqnum : BitVec 32
  acknum : BitVec 32
  codeBits : CodeBits
  window : Word
  /-- what `readMSS` finds in the options -/
  mss : Word
  deriving DecidableEq

/-- What `readMSS` returns where there is no such option. -/
def defaultMss : Word := 536

structure TcpSegment where
  tcp : TcpHeader
  data : List Byte
  deriving DecidableEq

-- ==================================================== the socket

structure Socket extends Stack where
  seqNum : BitVec 32
  ackNum : BitVec 32
  oldestUnackedSeq : BitVec 32
  remoteWindow : Word
  consecutiveGoodPackets : Nat
  consecutiveSeqErrs : Nat
  reportSmallWindow : Bool
  /-- `seqNum` of the `TcpBuffer` at an address -/
  bufSeqNum : Word → BitVec 32
  /-- its `headers.tcp` -/
  headers : Word → TcpHeader
  /-- the bytes behind it -/
  data : Word → Nat → Byte
  /-- and its flag that `wasAckOnly` reads -/
  wasAckOnly : Word → Bool
  /-- not a variable of the program: all that was given to
  `Packet_send_pkt`, in its order -/
  wire : List TcpSegment
  /-- not a variable of the program: all data that was enqueued -/
  written : List Byte
  /-- not a variable of the program: the data of the packets that
  `removeSentPackets` removed -/
  acked : List Byte

/-- What `reinit` takes for `seqNum`: two numbers from `rand`, which have
15 bits. `hi` lies where the low half is. -/
def initialSeqNum (hi lo : BitVec 15) : BitVec 32 :=
  lo.setWidth 16 ++ hi.setWidth 16

variable (h : Host)

namespace Socket

/-- The data of a `TcpBuffer`. -/
def payload (s : Socket) (buf : Word) : List Byte :=
  (List.range (s.dataLen buf)).map (s.data buf)

/-- `Packet_send_pkt` -/
def emit (seg : TcpSegment) (s : Socket) : Socket :=
  { s with wire := s.wire ++ [seg] }

def destroy (s : Socket) : Socket :=
  { s with toStack := s.toStack.destroy h }

def clearQueues (s : Socket) : Socket :=
  { s with toStack := s.toStack.clearQueues h }

-- ==================================================== sendPacket

/-- The code bits that `sendPacket` sets. -/
def codeBits (dataLen : Nat) (forceAckOnly : Bool) (s : Socket) : CodeBits :=
  match s.state with
  | .established => { CodeBits.ackOnly with psh := dataLen ≠ 0 }
  | .synSent => ⟨false, false, false, true, false⟩
  | .synRecved => ⟨true, false, false, true, false⟩
  | .sendFin1 | .sendFin2 | .sendFin3 =>
      { CodeBits.ackOnly with
        fin := !forceAckOnly && s.outgoing.entries = 1 }
  | _ => .ackOnly

/-- `winSize` -/
def winSize (s : Socket) : Word :=
  let mss := BitVec.ofNat 16 h.mss
  let winSize := mss <<< 2
  if s.reportSmallWindow then
    let winSize := winSize >>> 1
    if mss < winSize then mss else winSize
  else winSize

/-- The header that it fills in. -/
def header (dataLen : Nat) (bits : CodeBits) (forceProbe : Bool)
    (s : Socket) : TcpHeader where
  seqnum :=
    if forceProbe then s.seqNum + BitVec.ofNat 32 dataLen - 1 else s.seqNum
  acknum := s.ackNum
  codeBits := bits
  window := s.winSize h
  mss := if bits.syn then BitVec.ofNat 16 h.mss else defaultMss

/-- What it does to the socket. -/
def account (dataLen : Nat) (bits : CodeBits) (s : Socket) : Socket :=
  { s with
    seqNum := s.seqNum + BitVec.ofNat 32 dataLen
      + if bits.syn || bits.fin then 1 else 0
    state :=
      if bits.fin then if s.state = .sendFin2 then .lastAck else .finWait1
      else s.state
    remoteWindow :=
      if dataLen ≤ s.remoteWindow.toNat then
        s.remoteWindow - BitVec.ofNat 16 dataLen
      else 0 }

/-- `sendPacket`, for a buffer that is in `outgoing`. -/
def sendPacket (buf : Word) (s : Socket) : Socket :=
  let dataLen := s.dataLen buf
  let bits := s.codeBits dataLen false
  let tcp := s.header h dataLen bits false
  let s := s.account dataLen bits
  { s with
    bufSeqNum := Function.update s.bufSeqNum buf (s.seqNum - 1)
    headers := Function.update s.headers buf tcp
    wasAckOnly :=
      if dataLen = 0 ∧ bits = CodeBits.ackOnly then
        Function.update s.wasAckOnly buf true
      else s.wasAckOnly }.emit ⟨tcp, s.payload buf⟩

def sendPureAck (forceProbe : Bool) (s : Socket) : Socket :=
  if s.state ≠ .established then s
  else
    let bits := s.codeBits 0 true
    (s.account 0 bits).emit ⟨s.header h 0 bits forceProbe, []⟩

def sendResetPacket (seg : TcpSegment) (s : Socket) : Socket :=
  if seg.tcp.codeBits.rst then s
  else
    s.emit
      { tcp :=
          { seqnum := if seg.tcp.codeBits.ack then seg.tcp.acknum else 0
            acknum := seg.tcp.seqnum + BitVec.ofNat 32 seg.data.length
              + if seg.tcp.codeBits.syn then 1 else 0
            codeBits := ⟨true, false, true, false, false⟩
            window := 0
            mss := defaultMss }
        data := [] }

/-- `resendPacket` -/
def resendPacket (buf : Word) (s : Socket) : Socket :=
  s.emit ⟨s.headers buf, s.payload buf⟩

-- ==================================================== the user's calls

/-- Where `enqueue` turns back before it has touched the buffer. -/
def refuses (buf : Word) (s : Socket) : Bool :=
  s.state = .closed || s.state = .listen || s.state = .closing
    || (s.state = .timeWait && buf ≠ h.connectPacket)
    || s.maxEnqueueSize < s.dataLen buf

def enqueue (buf : Word) (s : Socket) : Int × Socket :=
  let (rc, st) := s.toStack.enqueue h buf
  (rc, { s with
    toStack := st
    wasAckOnly :=
      if s.refuses h buf then s.wasAckOnly
      else Function.update s.wasAckOnly buf false })

/-- `dataLen` of a `TcpBuffer` is set. -/
def setLen (buf : Word) (len : Nat) (s : Socket) : Socket :=
  { s with toStack := s.toStack.setDataLen buf len }

/-- The program has copied this to a buffer and set its length. -/
def fill (buf : Word) (bytes : List Byte) (s : Socket) : Socket :=
  { s with
    data := Function.update s.data buf fun i => bytes.getD i 0 }.setLen buf
      bytes.length

/-- The socket's own packet is enqueued, without data. -/
def enqueueConnectPacket (s : Socket) : Socket :=
  ((s.setLen h.connectPacket 0).enqueue h h.connectPacket).2

def closeLocal (s : Socket) : Socket :=
  let finish (st : TcpState) : Socket :=
    let s := { s with state := st }
    if s.outgoing.entries = 0 then s.enqueueConnectPacket h else s
  match s.state with
  | .closed | .timeWait | .listen | .synSent => { s with state := .closed }
  | .synRecved => finish .sendFin3
  | .established => finish .sendFin1
  | .closeWait => finish .sendFin2
  | _ => s

/-- `isCloseDone`, but for what it returns. -/
def isCloseDone (timeout : Bool) (s : Socket) : Socket :=
  if s.state = .timeWait ∨ s.state = .closed ∨ timeout then s.destroy h
  else s

-- ==================================================== a segment

/-- `isIncomingAckProper`, when ACK is set. -/
def ackProper (incomingAckNum : BitVec 32) (s : Socket) : Bool :=
  if s.oldestUnackedSeq < s.seqNum then
    s.oldestUnackedSeq ≤ incomingAckNum && incomingAckNum ≤ s.seqNum
  else s.oldestUnackedSeq ≤ incomingAckNum || incomingAckNum ≤ s.seqNum

/-- `isIncomingSeqProper` -/
def seqProper (incomingSeqNum : BitVec 32) (s : Socket) : Bool :=
  incomingSeqNum = s.ackNum
    || (s.state = .synRecved && incomingSeqNum = s.ackNum - 1)

/-- The test in `removeSentPackets`. -/
def removable (targetSeqNum : BitVec 32) (p : Word) (s : Socket) : Bool :=
  s.bufSeqNum p < targetSeqNum
    || (targetSeqNum < s.bufSeqNum p && targetSeqNum < s.oldestUnackedSeq
      && s.oldestUnackedSeq ≤ s.bufSeqNum p)

/-- A packet is taken from `sent`. -/
def removeSent (p : Word) (s : Socket) : Socket :=
  { s with
    toStack :=
      { s.toStack with sent := s.sent.dequeue.2 }.returnXmitBuf h p
    acked := s.acked ++ s.payload p }

/-- The loop of `removeSentPackets`, for `n` packets in `sent`. -/
def removeLoop (targetSeqNum : BitVec 32) : Nat → Socket → Socket
  | 0, s => { s with oldestUnackedSeq := s.seqNum }
  | n + 1, s =>
      match s.sent.peek with
      | none => { s with oldestUnackedSeq := s.seqNum }
      | some p =>
          -- a null pointer in the queue is taken for its end
          if p = 0 then { s with oldestUnackedSeq := s.seqNum }
          else if s.removable targetSeqNum p then
            removeLoop targetSeqNum n (s.removeSent h p)
          else { s with oldestUnackedSeq := (s.headers p).seqnum }

def removeSentPackets (targetSeqNum : BitVec 32) (s : Socket) : Socket :=
  s.removeLoop h targetSeqNum s.sent.entries

/-- `setMaxEnqueueSize` -/
def setMaxEnqueueSize (tcp : TcpHeader) (s : Socket) : Socket :=
  { s with maxEnqueueSize := min tcp.mss.toNat h.mss }

/-- `processPacketData`: whether to play dead, and the socket. -/
def receiveData (packet : Packet) (s : Socket) : Bool × Socket :=
  let (playDead, st) := s.toStack.processPacketData packet
  (playDead, { s with
    toStack := st
    ackNum :=
      if playDead then s.ackNum
      else s.ackNum + BitVec.ofNat 32 packet.bytes.length })

/-- The switch of `process2`: whether to generate a packet, and the
socket. `current` is `incomingAckNumIsCurrent`. -/
def processStates (seg : TcpSegment) (current generatePkt : Bool)
    (s : Socket) : Bool × Socket :=
  let fin := seg.tcp.codeBits.fin
  match s.state with
  | .established =>
      if fin then
        (true, { s with state := .closeWait, ackNum := s.ackNum + 1 })
      else (generatePkt, s)
  | .sendFin1 =>
      if fin then
        (generatePkt, { s with state := .sendFin2, ackNum := s.ackNum + 1 })
      else (generatePkt, s)
  | .synRecved =>
      if current then
        (generatePkt, { s with
          state := .established, remoteWindow := seg.tcp.window })
      else
        (generatePkt, (s.clearQueues h).sendResetPacket seg)
  | .lastAck => (generatePkt, { s with state := .closed })
  | .finWait1 =>
      if fin then
        (true, { s with
          ackNum := s.ackNum + 1
          state := if current then .timeWait else .closing })
      else if current then (generatePkt, { s with state := .finWait2 })
      else (generatePkt, s)
  | .finWait2 =>
      if fin then
        (true, { s with state := .timeWait, ackNum := s.ackNum + 1 })
      else (generatePkt, s)
  | .closing =>
      if current then (generatePkt, { s with state := .timeWait })
      else (generatePkt, s)
  | _ => (generatePkt, s)

/-- The end of `process2`. -/
def generate (generatePkt : Bool) (s : Socket) : Socket :=
  if generatePkt then s.enqueueConnectPacket h else s

/-- A streak of good packets ends the small window. -/
def countGood (s : Socket) : Socket :=
  let good := if s.consecutiveGoodPackets < 255 then
    s.consecutiveGoodPackets + 1 else s.consecutiveGoodPackets
  { s with
    consecutiveGoodPackets := good
    consecutiveSeqErrs := 0
    reportSmallWindow := if 50 < good then false else s.reportSmallWindow }

/-- What an acknowledgement does to `sent`, and to what is known of the
peer's window. -/
def processAck (tcp : TcpHeader) (s : Socket) : Socket :=
  let s := if s.sent.entries ≠ 0 then s.removeSentPackets h tcp.acknum else s
  if s.sent.entries = 0 then { s with remoteWindow := tcp.window } else s

/-- The branch of `process2` for a segment with good numbers, and where its
data lies. -/
def processGood (seg : TcpSegment) (data : Word) (s : Socket) : Socket :=
  let current := seg.tcp.codeBits.ack && seg.tcp.acknum = s.seqNum
  let s := s.countGood.processAck h seg.tcp
  if seg.data = [] then
    let (gen, s) := s.processStates h seg current false
    s.generate h gen
  else
    let (playDead, s) := s.receiveData ⟨data, seg.data⟩
    if playDead then s
    else
      let (gen, s) := s.processStates h seg current (s.outgoing.entries = 0)
      s.generate h gen

/-- The branch for one with others. -/
def processBad (s : Socket) : Socket :=
  let s := s.sendPureAck h false
  let errs := if s.consecutiveSeqErrs < 255 then s.consecutiveSeqErrs + 1
    else s.consecutiveSeqErrs
  { s with
    consecutiveGoodPackets := 0
    consecutiveSeqErrs := errs
    reportSmallWindow := if 4 < errs then true else s.reportSmallWindow }

/-- The part of `process2` for `TCP_STATE_SYN_SENT`. -/
def processSynSent (seg : TcpSegment) (s : Socket) : Socket :=
  let bits := seg.tcp.codeBits
  let current := bits.ack && seg.tcp.acknum = s.seqNum
  if bits.rst then if current then s.destroy h else s
  else if bits.syn then
    if bits.ack then
      if current then
        let s := s.removeSentPackets h seg.tcp.acknum
        let s := { s with
          state := .established, ackNum := seg.tcp.seqnum + 1 }
        let s := s.setMaxEnqueueSize h seg.tcp
        { s with remoteWindow := seg.tcp.window }.generate h true
      else s.sendResetPacket seg
    else
      let s := { s with state := .synRecved, ackNum := seg.tcp.seqnum + 1 }
      let s := s.setMaxEnqueueSize h seg.tcp
      let s := { s with seqNum := s.seqNum - 1 }
      (s.clearQueues h).enqueueConnectPacket h
  else s.sendResetPacket seg

/-- `process2`, but for the state `TCP_STATE_LISTEN`, which is not
compiled. -/
def process2 (seg : TcpSegment) (data : Word) (s : Socket) : Socket :=
  if s.state = .synSent then s.processSynSent h seg
  else if seg.tcp.codeBits.rst then
    if s.seqProper seg.tcp.seqnum then s.destroy h else s
  else if seg.tcp.codeBits.ack && s.ackProper seg.tcp.acknum
      && s.seqProper seg.tcp.seqnum then
    s.processGood h seg data
  else s.processBad h

/-- `Tcp::process`, for a segment with a good checksum. -/
def process (seg : TcpSegment) (data : Word) (s : Socket) : Socket :=
  if s.state = .closed ∨ s.state = .timeWait then s.sendResetPacket seg
  else s.process2 h seg data

-- ==================================================== drivePackets

/-- The first packet of `outgoing` goes out. -/
def sendPending (p : Word) (s : Socket) : Socket :=
  let s := s.sendPacket h p
  let st := { s.toStack with outgoing := s.outgoing.dequeue.2 }
  { s with toStack :=
    if s.wasAckOnly p then st.returnXmitBuf h p
    else { st with sent := (st.sent.enqueue p).2 } }

/-- The loop of `drivePackets2`, for `n` packets in `outgoing`; `probe` is
whether it is time for a probe. -/
def sendLoop (probe : Bool) : Nat → Socket → Socket
  | 0, s => s
  | n + 1, s =>
      if s.outgoing.entries ≠ 0 ∧ s.sent.hasRoom then
        match s.outgoing.peek with
        | none => s
        | some p =>
            if s.remoteWindow.toNat < s.dataLen p then
              if probe then s.sendPureAck h true else s
            else sendLoop probe n (s.sendPending h p)
      else s

/-- What the clock says of the oldest packet in `sent`. -/
inductive Overdue where
  | no
  | resend
  | giveUp
  deriving DecidableEq

/-- `drivePackets` -/
def drivePackets (overdue : Overdue) (probe : Bool) (s : Socket) : Socket :=
  match s.sent.peek, overdue with
  | some _, .giveUp => s.destroy h
  | some p, .resend => s.resendPacket p
  | _, _ => s.sendLoop h probe s.outgoing.entries

end Socket

-- ==================================================== one end

/-- A program with its socket and the buffer it has. -/
structure Peer extends Socket where
  sendBuffer : Word

/-- What happens at one end. -/
inductive PeerEvent where
  /-- `sendNewBuffer`, for what was copied to the buffer -/
  | send (bytes : List Byte)
  /-- `recvNewPacket`, up to where it has dequeued -/
  | receive
  | drivePackets (overdue : Socket.Overdue) (probe : Bool)
  | close
  | isCloseDone (timeout : Bool)

namespace Peer

/-- `sendNewBuffer` up to where it has taken the next buffer. It is not
called after `close`, nor without a buffer, nor for more than is allowed;
but the socket may have been destroyed by then. -/
def send (bytes : List Byte) (p : Peer) : Peer :=
  if p.sendBuffer = 0 ∨ h.mss < bytes.length
      ∨ p.state ≠ .closed ∧ p.state.isConnectComplete = false then p
  else
    let buf := p.sendBuffer
    let (rc, s) := (p.fill buf bytes).enqueue h buf
    let (next, st) := s.getXmitBuf
    { toSocket := { s with
        toStack := st
        written := if rc = tcpRcGood then s.written ++ bytes else s.written }
      sendBuffer := next }

def step (p : Peer) : PeerEvent → Peer
  | .send bytes => p.send h bytes
  | .receive => { p with incoming := p.incoming.dequeue.2 }
  | .drivePackets overdue probe =>
      { p with toSocket := p.toSocket.drivePackets h overdue probe }
  | .close => { p with toSocket := p.toSocket.closeLocal h }
  | .isCloseDone timeout =>
      { p with toSocket := p.toSocket.isCloseDone h timeout }

end Peer

-- ==================================================== both ends

inductive End where
  | left
  | right
  deriving DecidableEq

def End.other : End → End
  | .left => .right
  | .right => .left

/-- Something happens at an end, or one of the segments that the other end
ever sent comes to it: any of them, at any time, any number of times. -/
inductive LinkEvent where
  | happens (e : End) (ev : PeerEvent)
  | deliver (e : End) (seg : Nat) (data : Word)

/-- Two programs with a network between them. -/
structure Link where
  left : Peer
  right : Peer

namespace Link

def get (l : Link) : End → Peer
  | .left => l.left
  | .right => l.right

def set (l : Link) (e : End) (p : Peer) : Link :=
  match e with
  | .left => { l with left := p }
  | .right => { l with right := p }

variable (hosts : End → Host)

def step (l : Link) : LinkEvent → Link
  | .happens e ev => l.set e ((l.get e).step (hosts e) ev)
  | .deliver e seg data =>
      match (l.get e.other).wire[seg]? with
      | none => l
      | some seg =>
          l.set e
            { l.get e with
              toSocket := (l.get e).process (hosts e) seg data }

def run (l : Link) (evs : List LinkEvent) : Link :=
  evs.foldl (step hosts) l

end Link

end Pdtb.Net
