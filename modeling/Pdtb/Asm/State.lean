/-
`state.nas`: the packet loop. `asmRun` sends the credentials, cuts the
packets it receives into lines, hands each line to `dispatchLine` and
sends what that answers.

The routine is one body of code with jumps both ways, so it is modelled
as a machine: a `Run` stands at a label of the source, and `step` runs
the code from there to the next label. `line` and `send` events record
what reached `dispatchLine` and `sendPacket`.

# The C side

`recvNewPacket`, `currentRecvPacket`, `currentSendBuffer` and
`sendNewBuffer` are what `BOT.CPP` makes of the network. Here a `World`
fixes their answers beforehand: the packets still to come, how the
connection ends when there are none left, and for each call of
`sendPacket` the buffer given and the result. They change `ax` and what
the calling convention lets them change. What they do to memory the
assembly does not read is left out.
-/
import Pdtb.Asm.Logic

namespace Pdtb.Asm

open Lib Dos

/-- A received packet: where its data lies, and the data. -/
structure Packet where
  data : Word
  bytes : List Byte

/-- The answers to one `sendPacket`. -/
structure Answer where
  /-- of `currentSendBuffer`: a buffer, or 0 -/
  buffer : Word
  /-- of `sendNewBuffer`, 0 for success -/
  rc : Word
  /-- what `sendNewBuffer` leaves in `dx`, its second argument -/
  dx : Word

/-- The answers of the C side. -/
structure World where
  packets : List Packet
  /-- whether the run ends by the quit key (and not by a disconnect) -/
  quit : Bool
  /-- the answers to the first, second, … `sendPacket` -/
  answers : Nat → Answer

/-- The labels of `asmRun`; `returned` is the caller's code, and `astray`
whatever a call through a bad `botState` runs. -/
inductive Label where
  | asmRun
  | stateStart
  | stateGetPacket
  | stateAppendLine
  | copyLoop
  | stateSkipLine
  | stateDispatch
  | finish
  | stateQuit
  | stateDisconnect
  | stateEnd
  | returned
  | astray
  deriving DecidableEq, Repr

/-- What a run shows of itself. -/
inductive Event where
  /-- `dispatchLine` was called with these bytes -/
  | line (bytes : List Byte)
  /-- `sendPacket` was called with these bytes, and returned `rc` -/
  | send (bytes : List Byte) (rc : Word)
  deriving DecidableEq

/-- A run of `asmRun`: the label it stands at, the processor, the packets
to come, the calls of `sendPacket` so far and the events so far. -/
structure Run where
  label : Label
  cpu : Bot
  packets : List Packet
  sends : Nat
  events : List Event

variable (img : Image)

-- ==================================================== sending

/-- Sends the `cx` bytes at `si`; `ax` is 0 if that went well. -/
def sendPacket (ans : Answer) (s : Bot) : Bot :=
  let s := { s with ax := s.cx, dx := s.cx }
  let s := { s with ax := ans.buffer } -- `currentSendBuffer`
  if s.ax = 0 then { s with ax := 10 } else
  let s := s.push s.di
  let s := { s with di := s.ax }
  let s := s.repMovsb
  let s := { s.pop with di := s.top }
  { s with ax := ans.rc, dx := ans.dx } -- `sendNewBuffer`

/-- `call sendPacket` in a run, then on to `next` if it went well and to
`stateEnd` if not. -/
def Run.sendPacket (w : World) (next : Label) (r : Run) : Run :=
  let s := Asm.sendPacket (w.answers r.sends) r.cpu
  { r with
    label := if s.ax ≠ 0 then .stateEnd else next
    cpu := s
    sends := r.sends + 1
    events := r.events
      ++ [.send (r.cpu.mem.read r.cpu.si r.cpu.cx.toNat) s.ax] }

/-- `mov di, lineBuffer` and `mov dx, lineBufferLen` -/
def freshLine (s : Bot) : Bot :=
  { s with di := img.lineBuffer, dx := lineBufferLen }

-- ==================================================== receiving

/-- `call recvNewPacket` and, for a packet, `call currentRecvPacket`:
`bx` is its length and `si` its address. -/
def Run.getPacket (w : World) (r : Run) : Run :=
  match r.packets with
  | [] =>
      { r with
        label := if w.quit then .stateQuit else .stateDisconnect
        cpu := { r.cpu with ax := if w.quit then -1 else 0 } }
  | p :: ps =>
      let len := BitVec.ofNat 16 p.bytes.length
      { r with
        label := .stateAppendLine
        cpu := { r.cpu with
          mem := r.cpu.mem.write p.data p.bytes
          ax := p.data
          bx := len
          si := p.data }
        packets := ps }

-- ==================================================== the machine

/-- `stateAppendLine`: where to go with `bx` bytes in the packet and
`dx` free in `lineBuffer`. -/
def appendLine (s : Bot) : Label :=
  if s.bx = 0 then .stateGetPacket
  else if s.dx = 0 then .stateSkipLine
  else .copyLoop

/-- `.copyLoop`: a byte from the packet to `lineBuffer`. -/
def copyByte (s : Bot) : Bot :=
  let s := s.lodsb
  let s := { s with bx := s.bx - 1 }
  let s := s.stosb
  { s with dx := s.dx - 1 }

/-- `stateSkipLine`: `repne scasb` over the rest of the packet. -/
def skipLine (s : Bot) : Bot :=
  let s := { s with cx := s.bx }
  let s := s.setAl lf
  let s := { s with di := s.si, si := s.di }
  let s := s.repneScasb
  let s := { s with di := s.si, si := s.di }
  { s with bx := s.cx }

/-- The code from one label to the next. -/
def step (w : World) (r : Run) : Run :=
  match r.label with
  | .asmRun =>
      let s := ((r.cpu.push r.cpu.bx).push r.cpu.cx).push r.cpu.dx
      { r with label := .stateStart, cpu := (s.push s.di).push s.si }
  | .stateStart =>
      let r : Run := { r with cpu := dispatchInit img r.cpu }
      if r.cpu.ax ≠ 0 then { r with label := .stateEnd } else
      let r : Run := r.sendPacket w .stateGetPacket
      if r.label = .stateEnd then r else
      { r with cpu := freshLine img r.cpu }
  | .stateGetPacket => r.getPacket w
  | .stateAppendLine =>
      { r with
        label := appendLine r.cpu
        cpu := { r.cpu with ax := 0 } }
  | .copyLoop =>
      let s := copyByte r.cpu
      { r with
        label := if s.al = lf then .stateDispatch else .stateAppendLine
        cpu := s }
  | .stateSkipLine =>
      { r with label := .stateDispatch, cpu := skipLine r.cpu }
  | .stateDispatch =>
      let s := { r.cpu with di := img.lineBuffer, cx := lineBufferLen }
      let s := { s with cx := s.cx - s.dx }
      let s := { s with di := s.si, si := s.di }
      let r : Run := { r with
        cpu := s
        events := r.events ++ [.line (s.mem.read s.si s.cx.toNat)] }
      match dispatchLine img s with
      | none => { r with label := .astray }
      | some t =>
          let r : Run := { r with cpu := t }
          if t.cx = 0 then { r with label := .finish }
          else r.sendPacket w .finish
  | .finish =>
      let s := { r.cpu with di := r.cpu.si, si := r.cpu.di }
      { r with label := .stateAppendLine, cpu := freshLine img s }
  | .stateQuit =>
      let r : Run := { r with cpu := dispatchExit img r.cpu }
      { r.sendPacket w .stateDisconnect with label := .stateDisconnect }
  | .stateDisconnect =>
      { r with label := .stateEnd, cpu := { r.cpu with ax := 5 } }
  | .stateEnd =>
      let s := r.cpu
      let s := { s.pop with si := s.top }
      let s := { s.pop with di := s.top }
      let s := { s.pop with dx := s.top }
      let s := { s.pop with cx := s.top }
      { r with label := .returned, cpu := { s.pop with bx := s.top } }
  | .returned => r
  | .astray => r

/-- `n` steps. -/
def steps (w : World) (n : Nat) (r : Run) : Run := (step img w)^[n] r

/-- A call of `asmRun`. -/
def World.start (w : World) (s : Bot) : Run :=
  { label := .asmRun, cpu := s, packets := w.packets, sends := 0
    events := [] }

end Pdtb.Asm
