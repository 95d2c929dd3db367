/-
`BOT.CPP` between the stack and the assembly, and the two together: a
`Sys` is a run of `asmRun` in which `recvNewPacket`, `currentSendBuffer`
and `sendNewBuffer` answer for themselves.

Each step of a `Sys` has a `Turn`: what the network and the keyboard do
while it lasts. `recvNewPacket` blocks; a step is one round of its loop.
-/
import Pdtb.Net.Stack

namespace Pdtb.Net

open Lib Asm

-- ==================================================== BOT.CPP

/-- What happens around one `PACKET_PROCESS_SINGLE`. -/
structure Turn where
  arrival : Arrival
  /-- how many packets `drivePackets` finds a way to send -/
  ready : Nat
  /-- whether it finds that one was sent too often -/
  giveUp : Bool
  /-- whether Alt-X was hit -/
  altX : Bool
  /-- what `sendNewBuffer` leaves in `dx` -/
  dx : Word

/-- The globals of `BOT.CPP`, `sock` with what is behind it. -/
structure Globals where
  stack : Stack
  sendBuffer : Word
  /-- not a variable of the program: all that `recvNewPacket` returned -/
  handed : List Packet

/-- What comes of one round of the loop in `recvNewPacket`. -/
inductive Received where
  /-- the loop goes on -/
  | waiting
  /-- it is left with a packet, and its length is returned -/
  | packet (p : Packet)
  /-- 0 is returned -/
  | closed
  /-- -1 is returned -/
  | quit

variable (h : Host)

/-- The packets are processed, and sent. -/
def Stack.serve (t : Turn) (s : Stack) : Stack :=
  (s.packetProcessSingle h t.arrival).drivePackets h t.giveUp t.ready

/-- The condition of the loop and, if there is no packet, its body. -/
def Globals.recvNewPacket (t : Turn) (n : Globals) : Received × Globals :=
  match n.stack.incoming.dequeue with
  | (some p, q) =>
      (.packet p, { n with
        stack := { n.stack with incoming := q }
        handed := n.handed ++ [p] })
  | (none, _) =>
      let n := { n with stack := n.stack.serve h t }
      if n.stack.state.isRemoteClosed then (.closed, n)
      else if t.altX then (.quit, n)
      else (.waiting, n)

def Globals.currentSendBuffer (len : Word) (n : Globals) : Word :=
  if (h.mss : Int) < len.toInt then 0 else n.sendBuffer + sizeofTcpBuffer

def Globals.sendNewBuffer (t : Turn) (buffer len : Word) (n : Globals) :
    Word × Globals :=
  if (h.mss : Int) < len.toInt then (2, n) else
  let buf := buffer - sizeofTcpBuffer
  let (ret, s) := (n.stack.setDataLen buf len.toNat).enqueue h buf
  let (next, s) := s.getXmitBuf
  let n := { n with stack := s, sendBuffer := next }
  if ret = tcpRcGood then (0, { n with stack := n.stack.serve h t })
  else if ret = tcpRcBad then (1, n)
  else if ret = -2 then (2, n)
  else (3, n)

-- ==================================================== with asmRun

/-- The program while `asmRun` runs. -/
structure Sys where
  run : Run
  net : Globals

/-- The length with which the code from here to the next label calls
`sendPacket`, if it does. -/
def sending (img : Image) (r : Run) : Option Word :=
  match r.label with
  | .stateStart =>
      let s := dispatchInit img r.cpu
      if s.ax ≠ 0 then none else some s.cx
  | .stateDispatch =>
      let s := { r.cpu with di := img.lineBuffer, cx := lineBufferLen }
      let s := { s with cx := s.cx - s.dx }
      match dispatchLine img { s with di := s.si, si := s.di } with
      | none => none
      | some t => if t.cx = 0 then none else some t.cx
  | .stateQuit => some (dispatchExit img r.cpu).cx
  | _ => none

/-- The C side of `sendPacket`. -/
def Globals.sendPacket (t : Turn) (len : Word) (n : Globals) : Answer × Globals :=
  let buffer := n.currentSendBuffer h len
  if buffer = 0 then (⟨0, 0, t.dx⟩, n)
  else
    let (rc, n) := n.sendNewBuffer h t buffer len
    (⟨buffer, rc, t.dx⟩, n)

/-- A world that gives this answer to every `sendPacket`. -/
def answering (ans : Answer) : World := ⟨[], false, fun _ => ans⟩

/-- A world for code that asks nothing of it, but perhaps to quit. -/
def asked (quit : Bool) : World := ⟨[], quit, fun _ => ⟨0, 0, 0⟩⟩

/-- `recvNewPacket` has returned this. -/
def received (img : Image) (r : Run) : Received → Run
  | .waiting => r
  | .packet p => step img (asked false) { r with packets := [p] }
  | .closed => step img (asked false) { r with packets := [] }
  | .quit => step img (asked true) { r with packets := [] }

def Sys.step (img : Image) (t : Turn) (s : Sys) : Sys :=
  if s.run.label = .stateGetPacket then
    let (got, n) := s.net.recvNewPacket h t
    { run := received img s.run got, net := n }
  else
    match sending img s.run with
    | none => { s with run := Asm.step img (asked false) s.run }
    | some len =>
        let (ans, n) := s.net.sendPacket h t len
        { run := Asm.step img (answering ans) s.run, net := n }

/-- The program, `n` turns on. -/
def Sys.steps (img : Image) (turns : Nat → Turn) : Nat → Sys → Sys
  | 0, s => s
  | n + 1, s => (Sys.steps img turns n s).step h img (turns n)

/-- What `connect` leaves when it succeeds: the pool is untouched, and
nothing is on its way but acknowledgements. -/
structure Connected (st : Stack) : Prop where
  complete : st.state.isConnectComplete = true
  pool : st.xmitBuffers = h.pool
  outgoing : ∀ b ∈ st.outgoing.toList, b = h.connectPacket
  sent : ∀ b ∈ st.sent.toList, b = h.connectPacket
  accepted : st.accepted = st.incoming.toList

/-- `main` after `setupSocket`: it takes a buffer and calls `asmRun`. -/
def Sys.main (stack : Stack) (s₀ : Bot) : Sys :=
  let (buf, stack) := stack.getXmitBuf
  { run := (asked false).start s₀
    net := { stack := stack, sendBuffer := buf, handed := [] } }

end Pdtb.Net
