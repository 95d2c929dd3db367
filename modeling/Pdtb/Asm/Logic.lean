/-
`logic.nas`: what the bot says. A state handler (`startState`,
`idleState`) looks at the parsed message and writes a reply, if it has
one; `botState` holds the address of the current one.

`buildBuffer` calls through that address. Which code runs there is known
for the two handlers only, so the call, and `dispatchLine` around it, are
partial: `none` is a jump to somewhere else.
-/
import Pdtb.Asm.Log
import Pdtb.Asm.Parse

namespace Pdtb.Asm

open Lib Dos

variable (img : Image)

-- ==================================================== credentials

/-- Reads the credentials to `outBuffer`; `ax` says how that went. -/
def readAuth (s : Bot) : Bot :=
  let s := s.push s.bp
  let s := { s with bp := s.sp }
  let s := ((s.push s.bx).push s.cx).push s.dx
  let done (s : Bot) : Bot :=
    let s := { s.pop with dx := s.top }
    let s := { s.pop with cx := s.top }
    let s := { s.pop with bx := s.top }
    { s.pop with bp := s.top }
  let s := getenv_ { s with ax := img.text .authEnv }
  if s.ax = 0 then done { s with ax := -1 } else
  let s := int21 { s with dx := s.ax, ax := 0x3D00 }
  if s.cf then done { s with ax := -2 } else
  let s := { s with bx := s.ax, dx := img.outBuffer, cx := outBufferMax }
  let s := int21 { s with ax := 0x3F00 }
  let s := { s with mem := s.mem.setWord img.outBufferLen s.ax }
  let s := { s with dx := if s.cf then -3 else 0 }
  let s := int21 { s with ax := 0x3E00 }
  done { s with ax := s.dx }

-- ==================================================== logging

/-- Logs the line at `si` without its last byte, and keeps `cx`, `ax`
and `bx`. -/
def logLine (tag : Text) (s : Bot) : Bot :=
  let s := ((s.push s.cx).push s.ax).push s.bx
  let s := { s with cx := s.cx - 1 }
  let s := { s with
    ax := img.text tag
    bx := BitVec.ofNat 16 tag.bytes.length }
  let s := logGeneral img s
  let s := { s.pop with bx := s.top }
  let s := { s.pop with ax := s.top }
  { s.pop with cx := s.top }

def logIncoming : Bot → Bot := logLine img .incomingTag

def logOutgoing : Bot → Bot := logLine img .outgoingTag

/-- `si` = line, `cx` = length. -/
def logLogic (s : Bot) : Bot :=
  let s := (s.push s.ax).push s.bx
  let s := { s with
    ax := img.text .logicTag
    bx := BitVec.ofNat 16 Text.logicTag.bytes.length }
  let s := logGeneral img s
  let s := { s.pop with bx := s.top }
  { s.pop with ax := s.top }

/-- `mov si, label` and `mov cx, labelLen`. -/
def sayText (t : Text) (s : Bot) : Bot :=
  { s with si := img.text t, cx := BitVec.ofNat 16 t.bytes.length }

section

variable (t : Text) (s : Bot)

@[simp] theorem sayText_si : (sayText img t s).si = img.text t := rfl
@[simp] theorem sayText_ax : (sayText img t s).ax = s.ax := rfl
@[simp] theorem sayText_bx : (sayText img t s).bx = s.bx := rfl
@[simp] theorem sayText_mem : (sayText img t s).mem = s.mem := rfl
@[simp] theorem sayText_stack : (sayText img t s).stack = s.stack := rfl

end

/-- The first message sent: returns `si`, `cx`, and 0 in `ax` if there
is one. -/
def dispatchInit (s : Bot) : Bot :=
  let s := { s with mem := s.mem.setWord img.botState img.startState }
  let s := readAuth img s
  if s.ax ≠ 0 then logLogic img (sayText img .authFailMessage s) else
  let s := logLogic img (sayText img .initMessage s)
  { s with si := img.outBuffer, cx := s.mem.word img.outBufferLen }

-- ==================================================== replies

/-- `mov si, label`, `mov bx, labelLen` and `call writeStr`. -/
def putText (t : Text) (s : Bot) : Bot :=
  writeStr { s with
    si := img.text t
    bx := BitVec.ofNat 16 t.bytes.length }

/-- `mov ax, c` and `call writeChar`. -/
def putChar (c : Word) (s : Bot) : Bot := writeChar { s with ax := c }

/-- Fetches parameter `n` to `si` and `bx`, keeping the room in `cx`. -/
def fetchParam (n : Word) (s : Bot) : Bot :=
  let s := { s with bx := s.cx, cx := s.bx }
  let s := paramAt img { s with ax := n }
  { s with bx := s.cx, cx := s.bx }

def writePong (s : Bot) : Bot :=
  let s := putText img .pongCmd s
  let s := putChar 0x20 s
  let s := putChar 0x3A s
  let s := fetchParam img 0 s
  let s := writeStr s
  let s := putChar 0x0D s
  putChar 0x0A s

def writeHello (s : Bot) : Bot :=
  let s := putText img .privmsgCmd s
  let s := putChar 0x20 s
  let s := fetchParam img 0 s
  let s := writeStr s
  let s := putChar 0x20 s
  let s := putChar 0x3A s
  let s := putText img .helloText s
  let s := putChar 0x0D s
  putChar 0x0A s

/-- Two characters as `cmp` with a word constant sees them, the first in
the low byte. -/
def chars (c d : Byte) : Word := mkWord d c

/-- Waits for the 004 command. -/
def startState (s : Bot) : Bot :=
  let s := { s with si := s.mem.word img.cmdBuffer }
  if s.mem.word s.si ≠ chars 0x30 0x30 then s else
  if s.mem (s.si + 2) ≠ 0x34 then s else
  let s := putText img .startCmd s
  { s with mem := s.mem.setWord img.botState img.idleState }

/-- Manages day to day bot commands. -/
def idleState (s : Bot) : Bot :=
  let s := { s with si := s.mem.word img.cmdBuffer }
  if s.mem.word s.si = chars 0x50 0x49 then writePong img s else
  let s := fetchParam img 1 s
  if s.mem.word s.si ≠ chars 0x3E 0x48 then s else
  if s.mem.word (s.si + 2) ≠ chars 0x45 0x4C then s else
  if s.mem.word (s.si + 4) = chars 0x4C 0x4F then writeHello img s else s

/-- `call [botState]` -/
def callBotState (s : Bot) : Option Bot :=
  let target := s.mem.word img.botState
  if target = img.startState then some (startState img s)
  else if target = img.idleState then some (idleState img s)
  else none

/-- Builds the reply: `si`, `cx`. The room it gives the handler is the
symbol `outBufferLen`, an address. -/
def buildBuffer (s : Bot) : Option Bot :=
  let s := (((s.push s.ax).push s.bp).push s.bx).push s.di
  let s := { s with di := img.outBuffer, cx := img.outBufferLen }
  (callBotState img s).map fun s =>
    let s := { s with bx := s.cx, si := img.outBuffer }
    let s := { s with cx := img.outBufferLen }
    let s := { s with cx := s.cx - s.bx }
    let s := { s.pop with di := s.top }
    let s := { s.pop with bx := s.top }
    let s := { s.pop with bp := s.top }
    { s.pop with ax := s.top }

-- ==================================================== dispatch

/-- Answers the `cx` bytes at `si`: the reply's `si`, `cx`, with `cx` 0
for none. -/
def dispatchLine (s : Bot) : Option Bot :=
  let s := logIncoming img s
  let s := doParse img s
  if s.cf then
    let s := logLogic img (sayText img .badParseMessage s)
    some { s with cx := 0 }
  else
    (buildBuffer img s).map fun s =>
      if s.cx = 0 then { s with cx := 0 } else logOutgoing img s

/-- The last message sent: returns `si`, `cx`. -/
def dispatchExit (s : Bot) : Bot :=
  let s := logLogic img (sayText img .exitMessage s)
  logOutgoing img (sayText img .quitMessage s)

end Pdtb.Asm
